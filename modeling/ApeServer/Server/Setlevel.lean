import ApeServer.Lib.KeyedList
import ApeServer.Server.Membership

/-!
# Levels

`setlevel` of `channel.c`. No command gives a user its flags: which users have `FLG_AUTOOP` is
a parameter.
-/
namespace ApeServer

open Sock (Bytes)
open Steps (ok_bind bind_ok)

namespace Channel

/-- The node of a user. -/
def node (y : Channel) (u : UserId) : Option Member := KeyedList.find Member.userinfo u y.head

/-- The level of a user. -/
def level (y : Channel) (u : UserId) : Option ℕ := (y.node u).map Member.level

/-- `user_passif_chan->level = lvl` -/
def setLevel (y : Channel) (u : UserId) (lvl : UInt32) : Channel :=
  { y with head := KeyedList.replace Member.userinfo ⟨u, lvl.toNat⟩ y.head }

/-- The highest level of a member, 0 without members. -/
def maxLevel (y : Channel) : ℕ := (y.head.map Member.level).foldr max 0

end Channel

namespace Ape

/-- `getuchan`, where both pointers may be NULL. -/
def getuchan (s : Ape) : Option UserId → Option ChanId → Except Halt (Option Member)
  | some user, some chan => do return (← s.chan chan).node user
  | _, _ => .ok none

/-- `json_set_property_strZ` on an object that may be NULL: the new item is linked to it. -/
def setStrPtr (obj : Option JsonItem) (k v : Bytes) : Except Halt JsonItem := do
  return (← deref obj).setStr k v

def serverName : Bytes := bytes "APE.Server"

/-- `get_json_object_user` of a pointer. For NULL it sets a property of the object it has not
made. -/
def jsonObjectUser (s : Ape) : Option UserId → Except Halt (Option JsonItem)
  | some u => do return some (getJsonObjectUser (← s.user u))
  | none => do
    let jstr : Option JsonItem := none
    return some (← setStrPtr jstr (bytes "pubid") serverName)

/-- The refusal of a user's call, by the nodes of both users. -/
def refuses (autoop : Bool) (lvl : UInt32) : Option Member → Option Member → Bool
  | some passif, some actif =>
    (actif.level < lvl.toNat || actif.level < passif.level) && !autoop || lvl < 1 || lvl > 32
  | _, _ => true

/-- What both branches do when the level is granted. -/
def grant (s : Ape) (actif passif : Option UserId) (chan : Option ChanId) (lvl : UInt32) :
    Except Halt Ape := do
  let u ← deref passif
  let c ← deref chan
  let y ← s.chan c
  let s := s.setChan c (y.setLevel u lvl)
  if y.nonInteractive then return s
  else
    let jlist ← setObjPtr .newObject (bytes "ope") (← s.jsonObjectUser passif)
    let jlist ← setObjPtr jlist (bytes "oper") (← s.jsonObjectUser actif)
    let jlist := jlist.setObj (bytes "pipe") (getJsonObjectChannel (y.setLevel u lvl))
    let jlist := jlist.setInt (bytes "level") lvl.toNat
    s.postRawChannel (s.forgeRaw (bytes "SETLVL") jlist) c

/-- `setlevel`: what it returns, and the state it leaves. -/
def setlevel (autoop : UserId → Bool) (s : Ape) (actif passif : Option UserId)
    (chan : Option ChanId) (lvl : UInt32) : Except Halt (Bool × Ape) := do
  let user_passif_chan ← s.getuchan passif chan
  match actif with
  | some a =>
    let user_actif_chan ← s.getuchan actif chan
    if refuses (autoop a) lvl user_passif_chan user_actif_chan then
      return (false, ← s.sendError a (bytes "SETLEVEL_ERROR") (bytes "110"))
    else return (true, ← s.grant actif passif chan lvl)
  | none =>
    if user_passif_chan.isSome && 0 < lvl && lvl < 32 then
      return (true, ← s.grant none passif chan lvl)
    else return (false, s)

end Ape

/-! ### The nodes of a channel -/

namespace Channel

variable {y : Channel} {u v : UserId} {m : Member} {lvl : UInt32} {n : ℕ}

theorem node_of_mem (h : u ∈ y.users) : ∃ m, y.node u = some m := by
  rw [← Option.isSome_iff_exists, Option.isSome_iff_ne_none]
  intro hnone
  exact KeyedList.find_eq_none.mp hnone h

theorem node_spec (h : y.node u = some m) : m ∈ y.head ∧ m.userinfo = u :=
  KeyedList.find_eq_some h

theorem mem_users_of_node (h : y.node u = some m) : u ∈ y.users :=
  KeyedList.key_mem_of_find h

theorem users_setLevel : (y.setLevel u lvl).users = y.users := KeyedList.map_replace

theorem level_setLevel_of_ne (h : v ≠ u) : (y.setLevel u lvl).level v = y.level v := by
  rw [level, node, setLevel, KeyedList.find_replace_of_ne h]
  rfl

theorem mem_setLevel (h : m ∈ (y.setLevel u lvl).head) : m.level = lvl.toNat ∨ m ∈ y.head := by
  rcases KeyedList.mem_replace h with rfl | h
  · exact .inl rfl
  · exact .inr h

theorem maxLevel_le : y.maxLevel ≤ n ↔ ∀ m ∈ y.head, m.level ≤ n := by
  have hall : ∀ l : List ℕ, l.foldr max 0 ≤ n ↔ ∀ k ∈ l, k ≤ n := by
    intro l
    induction l with
    | nil => simp
    | cons k l ih => simp [ih]
  rw [maxLevel, hall]
  simp

theorem le_maxLevel (h : m ∈ y.head) : m.level ≤ y.maxLevel := maxLevel_le.mp le_rfl m h

end Channel

namespace Ape

variable {autoop : UserId → Bool} {s s' : Ape} {a u : UserId} {p q : Option UserId} {c : ChanId}
  {y : Channel} {lvl : UInt32} {r : Bool}

/-! ### What a call does -/

/-- A granted level, as the queues see it. -/
theorem grant_posted (h : s.grant p (some u) (some c) lvl = .ok s') :
    ∃ y, s.chans c = some y ∧ Posted (s.setChan c (y.setLevel u lvl)) s' := by
  simp only [grant, deref, ok_bind] at h
  obtain ⟨y, hy, h⟩ := bind_ok h
  refine ⟨y, chan_ok hy, ?_⟩
  split at h
  · cases h
    exact .refl
  · obtain ⟨ope, -, h⟩ := bind_ok h
    obtain ⟨j₁, -, h⟩ := bind_ok h
    obtain ⟨oper, -, h⟩ := bind_ok h
    obtain ⟨j₂, -, h⟩ := bind_ok h
    exact postRawChannel_posted h

/-- A user's call on a live channel, by the nodes of both users. -/
theorem setlevel_eq (hy : s.chans c = some y) : s.setlevel autoop (some a) q (some c) lvl =
    if refuses (autoop a) lvl (q.bind y.node) (y.node a) then do
      return (false, ← s.sendError a (bytes "SETLEVEL_ERROR") (bytes "110"))
    else do return (true, ← s.grant (some a) q (some c) lvl) := by
  have hnode : ∀ p : Option UserId, s.getuchan p (some c) = .ok (p.bind y.node) := by
    intro p
    cases p with
    | none => rfl
    | some v =>
      rw [getuchan, chan_eq hy]
      rfl
  rw [setlevel, hnode, ok_bind]
  dsimp only
  rw [hnode, ok_bind]
  rfl

/-- The two outcomes of a user's call. -/
theorem setlevel_cases (h : s.setlevel autoop (some a) q (some c) lvl = .ok (r, s')) :
    ∃ y, s.chans c = some y ∧
      (r = false ∧ Posted s s' ∨
      r = true ∧ ∃ u mp ma, q = some u ∧ y.node u = some mp ∧ y.node a = some ma ∧
        refuses (autoop a) lvl (some mp) (some ma) = false ∧
        Posted (s.setChan c (y.setLevel u lvl)) s') := by
  have hlive : ∃ y, s.chans c = some y := by
    obtain ⟨mp, -, h⟩ := bind_ok h
    obtain ⟨ma, hma, -⟩ := bind_ok h
    obtain ⟨y, hy, -⟩ := bind_ok hma
    exact ⟨y, chan_ok hy⟩
  obtain ⟨y, hy⟩ := hlive
  refine ⟨y, hy, ?_⟩
  rw [setlevel_eq hy] at h
  split at h
  · obtain ⟨t, ht, h⟩ := bind_ok h
    cases h
    exact .inl ⟨rfl, sendError_posted ht⟩
  · next href =>
    obtain ⟨t, ht, h⟩ := bind_ok h
    cases h
    cases hp : q.bind y.node with
    | none =>
      rw [hp] at href
      exact absurd rfl href
    | some mp =>
      cases ha : y.node a with
      | none =>
        rw [hp, ha] at href
        exact absurd rfl href
      | some ma =>
        rw [hp, ha] at href
        obtain ⟨u, rfl, hu⟩ := Option.bind_eq_some_iff.mp hp
        obtain ⟨y', hy', hposted⟩ := grant_posted ht
        rw [hy] at hy'
        cases hy'
        exact .inr ⟨rfl, u, mp, ma, rfl, hu, rfl, by simpa using href, hposted⟩

/-- The two outcomes of a call of the server. -/
theorem setlevel_null_cases (h : s.setlevel autoop none q (some c) lvl = .ok (r, s')) :
    r = false ∧ s' = s ∨ r = true ∧ 0 < lvl ∧ lvl < 32 ∧ ∃ u y, s.chans c = some y ∧
      y.nonInteractive = true ∧ s' = s.setChan c (y.setLevel u lvl) := by
  obtain ⟨mp, hmp, h⟩ := bind_ok h
  dsimp only at h
  split at h
  · next hin =>
    obtain ⟨t, ht, h⟩ := bind_ok h
    cases h
    simp only [Bool.and_eq_true, decide_eq_true_eq] at hin
    obtain ⟨⟨hsome, hpos⟩, hlt⟩ := hin
    cases q with
    | none =>
      cases hmp
      cases hsome
    | some u =>
      simp only [grant, deref, ok_bind] at ht
      obtain ⟨y, hy, ht⟩ := bind_ok ht
      split at ht
      · next hnon =>
        cases ht
        exact .inr ⟨rfl, hpos, hlt, u, y, chan_ok hy, hnon, rfl⟩
      · obtain ⟨ope, -, ht⟩ := bind_ok ht
        obtain ⟨j₁, -, ht⟩ := bind_ok ht
        obtain ⟨oper, hoper, -⟩ := bind_ok ht
        cases hoper
  · cases h
    exact .inl ⟨rfl, rfl⟩

/-- What a user without `FLG_AUTOOP` may do. -/
theorem refuses_false {mp ma : Member} (h : refuses false lvl (some mp) (some ma) = false) :
    lvl.toNat ≤ ma.level ∧ mp.level ≤ ma.level ∧ 1 ≤ lvl.toNat ∧ lvl.toNat ≤ 32 := by
  simp only [refuses, Bool.or_eq_false_iff, Bool.and_eq_false_iff, decide_eq_false_iff_not,
    Bool.not_false, Bool.true_eq_false, or_false, not_lt, gt_iff_lt, UInt32.lt_iff_toNat_lt,
    UInt32.reduceToNat] at h
  obtain ⟨⟨⟨hlvl, hmp⟩, hlo⟩, hhi⟩ := h
  exact ⟨hlvl, hmp, hlo, hhi⟩

theorem refuses_true_iff {mp ma : Member} : refuses true lvl (some mp) (some ma) = false ↔
    1 ≤ lvl.toNat ∧ lvl.toNat ≤ 32 := by
  simp only [refuses, Bool.or_eq_false_iff, Bool.and_eq_false_iff, decide_eq_false_iff_not,
    Bool.not_true, or_true, true_and, not_lt, gt_iff_lt, UInt32.lt_iff_toNat_lt,
    UInt32.reduceToNat]

/-! ### A call completes -/

theorem setLevel_roster (hy : s.chans c = some y) :
    (s.setChan c (y.setLevel u lvl)).roster = s.roster := by
  refine roster_setChan_of hy ?_
  rw [Channel.links, Channel.users_setLevel]
  rfl

theorem setlevel_roster (hl : s.setlevel autoop p q (some c) lvl = .ok (r, s')) :
    s'.roster = s.roster := by
  cases p with
  | none =>
    rcases setlevel_null_cases hl with ⟨-, rfl⟩ | ⟨-, -, -, u, y, hy, -, rfl⟩
    · rfl
    · exact setLevel_roster hy
  | some a =>
    obtain ⟨y, hy, ⟨-, ht⟩ | ⟨-, u, mp, ma, -, -, -, -, ht⟩⟩ := setlevel_cases hl
    · exact ht.roster
    · exact ht.roster.trans (setLevel_roster hy)

/-- A level that a user grants, with the raw that an interactive channel is sent. -/
theorem grant_eq {x xu : User} (h : s.roster.Wf) (hy : s.chans c = some y)
    (hx : s.users a = some x) (hxu : s.users u = some xu) :
    ∃ raw : RawMsg, raw.raw = bytes "SETLVL" ∧ s.grant (some a) (some u) (some c) lvl =
      if y.nonInteractive then .ok (s.setChan c (y.setLevel u lvl))
      else .ok ((s.setChan c (y.setLevel u lvl)).post raw (s.subsOf y.users)) := by
  set t := s.setChan c (y.setLevel u lvl)
  set jlist := (((JsonItem.newObject.setObj (bytes "ope") (getJsonObjectUser xu)).setObj
    (bytes "oper") (getJsonObjectUser x)).setObj (bytes "pipe")
    (getJsonObjectChannel (y.setLevel u lvl))).setInt (bytes "level") lvl.toNat
  have hyt : t.chans c = some (y.setLevel u lvl) := by simp [t]
  have hwf : t.roster.Wf := by
    rw [setLevel_roster hy]
    exact h
  have hpost : t.postRawChannel (t.forgeRaw (bytes "SETLVL") jlist) c =
      .ok (t.post (t.forgeRaw (bytes "SETLVL") jlist) (s.subsOf y.users)) := by
    rw [postRawChannel_eq hwf hyt, Channel.users_setLevel]
    rfl
  refine ⟨t.forgeRaw (bytes "SETLVL") jlist, rfl, ?_⟩
  have hope : t.jsonObjectUser (some u) = .ok (some (getJsonObjectUser xu)) := by
    have hu : t.user u = .ok xu := user_eq hxu
    rw [jsonObjectUser, hu]
    rfl
  have hoper : t.jsonObjectUser (some a) = .ok (some (getJsonObjectUser x)) := by
    have ha : t.user a = .ok x := user_eq hx
    rw [jsonObjectUser, ha]
    rfl
  simp only [grant, deref, chan_eq hy, ok_bind]
  change (if y.nonInteractive = true then (Except.ok t : Except Halt Ape) else _) = _
  by_cases hnon : y.nonInteractive = true
  · rw [if_pos hnon, if_pos hnon]
  · rw [if_neg hnon, if_neg hnon, hope, ok_bind, hoper]
    exact hpost

/-- A member's call completes, and so does the refusal of anyone else's. -/
theorem setlevel_completes (h : s.roster.Wf) (hy : s.chans c = some y)
    (ha : s.users a ≠ none) (q : Option UserId) :
    ∃ r s', s.setlevel autoop (some a) q (some c) lvl = .ok (r, s') := by
  obtain ⟨x, hx⟩ := Option.ne_none_iff_exists'.mp ha
  have herr : ∃ s', s.sendError a (bytes "SETLEVEL_ERROR") (bytes "110") = .ok s' :=
    ⟨_, postRaw_eq h.owned hx⟩
  obtain ⟨t, ht⟩ := herr
  rw [setlevel_eq hy]
  by_cases href : refuses (autoop a) lvl (q.bind y.node) (y.node a) = true
  · rw [if_pos href, ht]
    exact ⟨false, t, rfl⟩
  · cases hm : q.bind y.node with
    | none =>
      rw [hm] at href
      exact absurd rfl href
    | some m =>
      obtain ⟨u, rfl, hu⟩ := Option.bind_eq_some_iff.mp hm
      obtain ⟨xu, hxu, -⟩ := member_live h hy (Channel.mem_users_of_node hu)
      obtain ⟨raw, -, hgrant⟩ := grant_eq h hy hx hxu
      rw [← hm, if_neg href, hgrant]
      split
      · exact ⟨true, _, rfl⟩
      · exact ⟨true, _, rfl⟩

end Ape

end ApeServer
