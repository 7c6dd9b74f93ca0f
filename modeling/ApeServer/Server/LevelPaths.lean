import ApeServer.Server.Levels

/-!
# The two paths of `setlevel`

A user's call and the server's have each their own test of the level and their own raw. The
server's refuses the highest level, and on an interactive channel it builds its raw with the
object of a NULL user.
-/
namespace ApeServer

open Sock (Bytes)
open Steps (ok_bind bind_ok Reach)

namespace Subuser

/-- The raws of a name that wait for a subuser. -/
def waiting (name : Bytes) (z : Subuser) : ℕ :=
  z.low.countP (fun raw => raw.raw = name) + z.high.countP fun raw => raw.raw = name

theorem waiting_push {name : Bytes} {raw : RawMsg} (z : Subuser) (h : raw.raw ≠ name) :
    (z.push raw).waiting name = z.waiting name := by
  unfold push
  split <;> simp [waiting, h]

end Subuser

namespace Ape

variable {autoop : UserId → Bool} {s s' : Ape} {a u : UserId} {c : ChanId} {y : Channel}
  {lvl : UInt32}

/-- The levels of a channel. -/
def heads (s : Ape) (c : ChanId) : Option (List Member) := (s.chans c).map Channel.head

/-- The `SETLVL` raws that wait for a subuser. -/
def setlvls (s : Ape) (i : SubId) : Option ℕ :=
  (s.subs i).map (Subuser.waiting (bytes "SETLVL"))

/-- The call of the server and the one of `a` complete, give the level or refuse it as one,
give it when it is one of 1 to 32, and leave the same levels and as many raws. -/
def PathsAgree (autoop : UserId → Bool) (s : Ape) (a u : UserId) (c : ChanId) (lvl : UInt32) :
    Prop :=
  ∃ r t t', s.setlevel autoop none (some u) (some c) lvl = .ok (r, t) ∧
    s.setlevel autoop (some a) (some u) (some c) lvl = .ok (r, t') ∧
    (r = true ↔ 1 ≤ lvl.toNat ∧ lvl.toNat ≤ 32) ∧ t.heads = t'.heads ∧ t.setlvls = t'.setlvls

/-! ### The server's path -/

theorem setlevel_server (hy : s.chans c = some y) (hu : u ∈ y.users) :
    s.setlevel autoop none (some u) (some c) lvl =
      if 0 < lvl.toNat ∧ lvl.toNat < 32 then do
        return (true, ← s.grant none (some u) (some c) lvl)
      else .ok (false, s) := by
  obtain ⟨m, hm⟩ := Channel.node_of_mem hu
  have hnode : s.getuchan (some u) (some c) = .ok (some m) := by
    rw [getuchan, chan_eq hy, ok_bind, hm]
    rfl
  rw [setlevel, hnode, ok_bind]
  dsimp only
  by_cases hin : 0 < lvl.toNat ∧ lvl.toNat < 32
  · rw [if_pos hin, if_pos (by simpa [UInt32.lt_iff_toNat_lt] using hin)]
  · rw [if_neg hin, if_neg (by simpa [UInt32.lt_iff_toNat_lt] using hin)]
    rfl

/-- Where nobody is told, the level is set and that is all. -/
theorem grant_silent {p : Option UserId} (hy : s.chans c = some y)
    (hn : y.nonInteractive = true) :
    s.grant p (some u) (some c) lvl = .ok (s.setChan c (y.setLevel u lvl)) := by
  simp only [grant, deref, chan_eq hy, ok_bind]
  rw [if_pos hn]
  rfl

/-- The object of the user NULL is never made. -/
theorem grant_null {xu : User} (hy : s.chans c = some y) (hxu : s.users u = some xu)
    (hn : y.nonInteractive = false) : s.grant none (some u) (some c) lvl = .error .null := by
  have hope : (s.setChan c (y.setLevel u lvl)).jsonObjectUser (some u) =
      .ok (some (getJsonObjectUser xu)) := by
    have hu : (s.setChan c (y.setLevel u lvl)).user u = .ok xu := user_eq hxu
    rw [jsonObjectUser, hu]
    rfl
  have hnot : ¬y.nonInteractive = true := by simp [hn]
  simp only [grant, deref, chan_eq hy, ok_bind]
  rw [if_neg hnot, hope]
  rfl

/-! ### The user's path -/

/-- A member whose level does not bind it may set every level there is. -/
theorem setlevel_autoop (hauto : autoop a = true) (hy : s.chans c = some y) (ha : a ∈ y.users)
    (hu : u ∈ y.users) : s.setlevel autoop (some a) (some u) (some c) lvl =
      if 1 ≤ lvl.toNat ∧ lvl.toNat ≤ 32 then do
        return (true, ← s.grant (some a) (some u) (some c) lvl)
      else do return (false, ← s.sendError a (bytes "SETLEVEL_ERROR") (bytes "110")) := by
  obtain ⟨mp, hmp⟩ := Channel.node_of_mem hu
  obtain ⟨ma, hma⟩ := Channel.node_of_mem ha
  rw [setlevel_eq hy, hauto, Option.bind_some, hmp, hma]
  by_cases hin : 1 ≤ lvl.toNat ∧ lvl.toNat ≤ 32
  · rw [if_pos hin, refuses_true_iff.mpr hin]
    rfl
  · have href : refuses true lvl (some mp) (some ma) = true := by
      by_contra hne
      exact hin (refuses_true_iff.mp (by simpa using hne))
    rw [if_neg hin, href]
    rfl

/-- The refusal posts an error to the user, which is no `SETLVL`. -/
theorem sendError_spec (h : s.roster.Wf) (hy : s.chans c = some y) (ha : a ∈ y.users) :
    ∃ t, s.sendError a (bytes "SETLEVEL_ERROR") (bytes "110") = .ok t ∧ t.heads = s.heads ∧
      t.setlvls = s.setlvls := by
  obtain ⟨x, hx, -⟩ := member_live h hy ha
  refine ⟨_, postRaw_eq h.owned hx, ?_, ?_⟩
  · funext d
    rfl
  · funext i
    simp only [setlvls, post]
    split
    · cases hz : s.subs i with
      | none => rfl
      | some z =>
        have herr : bytes "ERR" ≠ bytes "SETLVL" := by decide
        simp only [Option.map_some, Option.some.injEq]
        exact Subuser.waiting_push z herr
    · rfl

/-! ### Where the paths agree -/

theorem agree_refused (h : s.roster.Wf) (hauto : autoop a = true) (hy : s.chans c = some y)
    (ha : a ∈ y.users) (hu : u ∈ y.users) (hlvl : lvl.toNat = 0 ∨ 32 < lvl.toNat) :
    PathsAgree autoop s a u c lvl := by
  obtain ⟨t, ht, hheads, hraws⟩ := sendError_spec h hy ha
  refine ⟨false, s, t, ?_, ?_, ?_, hheads.symm, hraws.symm⟩
  · rw [setlevel_server hy hu, if_neg (by omega)]
  · rw [setlevel_autoop hauto hy ha hu, if_neg (by omega), ht]
    rfl
  · refine iff_of_false (by simp) (by omega)

theorem agree_silent (hauto : autoop a = true) (hy : s.chans c = some y) (ha : a ∈ y.users)
    (hu : u ∈ y.users) (hlo : 1 ≤ lvl.toNat) (hhi : lvl.toNat < 32)
    (hn : y.nonInteractive = true) : PathsAgree autoop s a u c lvl := by
  let t := s.setChan c (y.setLevel u lvl)
  refine ⟨true, t, t, ?_, ?_, iff_of_true rfl (by omega), rfl, rfl⟩
  · rw [setlevel_server hy hu, if_pos (by omega), grant_silent hy hn]
    rfl
  · rw [setlevel_autoop hauto hy ha hu, if_pos (by omega), grant_silent hy hn]
    rfl

/-- The server's path refuses the highest level. -/
theorem not_agree_highest (hy : s.chans c = some y) (hu : u ∈ y.users) (hlvl : lvl.toNat = 32) :
    ¬PathsAgree autoop s a u c lvl := by
  rintro ⟨r, t, t', hserver, -, hr, -, -⟩
  rw [setlevel_server hy hu, if_neg (by omega)] at hserver
  cases hserver
  have := hr.mpr (by omega)
  cases this

/-- On an interactive channel the server's path stops where it names the server. -/
theorem not_agree_interactive (h : s.roster.Wf) (hy : s.chans c = some y) (hu : u ∈ y.users)
    (hlo : 1 ≤ lvl.toNat) (hhi : lvl.toNat < 32) (hn : y.nonInteractive = false) :
    ¬PathsAgree autoop s a u c lvl := by
  obtain ⟨x, hx, -⟩ := member_live h hy hu
  rintro ⟨r, t, t', hserver, -⟩
  rw [setlevel_server hy hu, if_pos (by omega), grant_null hy hx hn] at hserver
  cases hserver

/-- In every state that is reached, for every two members the first of which has
`FLG_AUTOOP`, the paths agree on exactly the levels both refuse and, where nobody is told, on
all others but the highest. -/
theorem paths_agree_iff {rand : List (List.Vector (Fin 16) 32)} {io : ℕ → Bool} {time : ℤ}
    (h : Reach (LevelOp.run autoop) LevelOp.Live (init rand io time) s)
    (hauto : autoop a = true) (hy : s.chans c = some y) (ha : a ∈ y.users) (hu : u ∈ y.users) :
    PathsAgree autoop s a u c lvl ↔
      lvl.toNat = 0 ∨ 32 < lvl.toNat ∨ lvl.toNat < 32 ∧ y.nonInteractive = true := by
  have hwf : s.roster.Wf := h.keeps (fun s => s.roster.Wf) (init_wf rand io time)
    fun _ _ _ h _ hl => levelOp_wf h hl
  constructor
  · intro hagree
    by_contra hnot
    push Not at hnot
    obtain ⟨hpos, hle, hint⟩ := hnot
    rcases Nat.lt_or_eq_of_le hle with hlt | heq
    · exact not_agree_interactive hwf hy hu (by omega) hlt (by simpa using hint hlt) hagree
    · exact not_agree_highest hy hu heq hagree
  · rintro (hzero | hhigh | ⟨hlt, hn⟩)
    · exact agree_refused hwf hauto hy ha hu (.inl hzero)
    · exact agree_refused hwf hauto hy ha hu (.inr hhigh)
    · by_cases hzero : lvl.toNat = 0
      · exact agree_refused hwf hauto hy ha hu (.inl hzero)
      · exact agree_silent hauto hy ha hu (by omega) hlt hn

/-- Two users in a room, and in a channel where nobody is told. -/
def twoRooms : List LevelOp :=
  [.chan (.connect 5 (bytes "h") (bytes "1.1.1.1")),
    .chan (.connect 6 (bytes "h") (bytes "2.2.2.2")),
    .chan (.create (bytes "room") true 0), .chan (.join 2 4),
    .chan (.create (bytes "*log") true 0), .chan (.join 2 5)]

/-- What `twoRooms` leads to. -/
structure TwoRooms (s : Ape) : Prop where
  reach : Reach (LevelOp.run fun u => u = 0) LevelOp.Live
    (init sixteenDraws (fun _ => true) 0) s
  room : ∃ y, s.chans 4 = some y ∧ y.users = [2, 0] ∧ y.nonInteractive = false
  log : ∃ y, s.chans 5 = some y ∧ y.users = [2, 0] ∧ y.nonInteractive = true

theorem twoRooms_reached : ∃ s, TwoRooms s := by
  have h : ((Steps.runs (LevelOp.run fun u => u = 0) LevelOp.Live
      (init sixteenDraws (fun _ => true) 0) twoRooms).map fun s =>
        ((s.chans 4).map fun y => (y.users, y.nonInteractive),
          (s.chans 5).map fun y => (y.users, y.nonInteractive))) =
      some (some ([2, 0], false), some ([2, 0], true)) := by decide +kernel
  obtain ⟨s, hs, h⟩ := Option.map_eq_some_iff.mp h
  obtain ⟨hroom, hlog⟩ := Prod.mk.inj h
  obtain ⟨y, hy, hyl⟩ := Option.map_eq_some_iff.mp hroom
  obtain ⟨z, hz, hzl⟩ := Option.map_eq_some_iff.mp hlog
  obtain ⟨hyu, hyn⟩ := Prod.mk.inj hyl
  obtain ⟨hzu, hzn⟩ := Prod.mk.inj hzl
  exact ⟨s, .of_runs .start hs, ⟨y, hy, hyu, hyn⟩, ⟨z, hz, hzu, hzn⟩⟩

/-- Level 32 where nobody is told, and level 1 in a room: a member may set both, the server
neither. -/
theorem paths_differ : ∃ s, Reach (LevelOp.run fun u => u = 0) LevelOp.Live
      (init sixteenDraws (fun _ => true) 0) s ∧
    (∃ y, s.chans 5 = some y ∧ 0 ∈ y.users ∧ 2 ∈ y.users ∧ y.nonInteractive = true ∧
      ¬PathsAgree (fun u => u = 0) s 0 2 5 32) ∧
    ∃ y, s.chans 4 = some y ∧ 0 ∈ y.users ∧ 2 ∈ y.users ∧
      s.setlevel (fun u => u = 0) none (some 2) (some 4) 1 = .error .null ∧
      ¬PathsAgree (fun u => u = 0) s 0 2 4 1 := by
  obtain ⟨s, hreach, ⟨y, hy, hyu, hyn⟩, ⟨z, hz, hzu, hzn⟩⟩ := twoRooms_reached
  have hwf : s.roster.Wf := hreach.keeps (fun s => s.roster.Wf) (init_wf ..)
    fun _ _ _ h _ hl => levelOp_wf h hl
  have hy2 : 2 ∈ y.users := by simp [hyu]
  have hz2 : 2 ∈ z.users := by simp [hzu]
  obtain ⟨x, hx, -⟩ := member_live hwf hy hy2
  refine ⟨s, hreach, ⟨z, hz, by simp [hzu], hz2, hzn, not_agree_highest hz hz2 rfl⟩,
    ⟨y, hy, by simp [hyu], hy2, ?_,
      not_agree_interactive hwf hy hy2 (by decide) (by decide) hyn⟩⟩
  rw [setlevel_server hy hy2, if_pos (by decide), grant_null hy hx hyn]
  rfl

theorem paths_agree_silent : ∃ s, Reach (LevelOp.run fun u => u = 0) LevelOp.Live
      (init sixteenDraws (fun _ => true) 0) s ∧
    (∃ y, s.chans 5 = some y ∧ y.users = [2, 0]) ∧ PathsAgree (fun u => u = 0) s 0 2 5 31 := by
  obtain ⟨s, hreach, -, ⟨z, hz, hzu, hzn⟩⟩ := twoRooms_reached
  exact ⟨s, hreach, ⟨z, hz, hzu⟩, (paths_agree_iff hreach rfl hz (by simp [hzu])
    (by simp [hzu])).mpr (.inr (.inr ⟨by decide, hzn⟩))⟩

end Ape

end ApeServer
