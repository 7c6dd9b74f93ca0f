import ApeServer.Server.ServerRuns

/-!
# Messages to a pipe

`post_to_pipe` in every state the server passes: who gets a message sent to a channel, and
what happens to one that nobody may send.
-/
namespace ApeServer

open Sock (Bytes)
open Steps (ok_bind bind_ok Reach)

/-- A raw at the end of the low queue. -/
def Subuser.appendLow (y : Subuser) (raw : RawMsg) : Subuser := { y with low := y.low ++ [raw] }

namespace Ape

variable {s s' : Ape} {u : UserId} {i : SubId} {c : ChanId} {x : User} {y : Subuser} {z : Channel}
  {raw : RawMsg} {jlist : JsonItem} {rawname : Bytes}

theorem push_low (hr : raw.priority = .lo) : (fun y : Subuser => y.push raw) = fun y =>
    y.appendLow raw := by
  funext y
  simp [Subuser.push, hr, Subuser.appendLow]

theorem post_subs_mem {l : List SubId} (hr : raw.priority = .lo) (hi : i ∈ l) :
    (s.post raw l).subs i = (s.subs i).map (·.appendLow raw) := by
  simp only [post, hi, if_true, push_low hr]

theorem post_subs_not_mem {l : List SubId} (hi : i ∉ l) : (s.post raw l).subs i = s.subs i := by
  simp only [post, hi, if_false]

theorem postRawRestricted_eq (h : s.roster.Wf) (hx : s.users u = some x) :
    s.postRawRestricted raw u i = .ok (s.post raw (x.subuser.filter (· ≠ i))) := by
  have hlive : ∀ j ∈ x.subuser.filter (· ≠ i), s.subs j ≠ none := by
    intro j hj
    obtain ⟨y, hy, -⟩ := own_live h.owned hx (List.mem_filter.mp hj).1
    simp [hy]
  simp only [postRawRestricted, user_eq hx, ok_bind]
  rw [← foldlM_post ((subuser_nodup h.owned hx).filter _) hlive, List.foldlM_filter]
  simp only [decide_eq_true_eq]

/-- The copies for the other subusers of the sender, also when there are none. -/
theorem echo_eq (jlist : JsonItem) (rawname : Bytes) (h : s.roster.Sound)
    (hx : s.users u = some x) (hi : i ∈ x.subuser) {recver : Pipe} {obj : JsonItem}
    (hr : s.getJsonObjectPipe recver = .ok (some obj)) :
    ∃ own, own.raw = rawname ∧ own.priority = .lo ∧ s.echo jlist rawname recver u x i =
      .ok (s.post own (x.subuser.filter (· ≠ i))) := by
  refine ⟨s.forgeRaw rawname (jlist.setObj (bytes "pipe") obj), rfl, rfl, ?_⟩
  obtain ⟨hn, -⟩ := h.reg.hosts u _ (roster_users hx)
  change x.nsub = x.subuser.length at hn
  unfold echo
  split
  · simp only [hr, ok_bind, setObjPtr, deref, pure, Except.pure]
    exact postRawRestricted_eq h.wf hx
  · -- a sender with one subuser has no other one
    next hone =>
    have hlen : x.subuser.length ≤ 1 := by omega
    have hall : x.subuser.filter (· ≠ i) = [] := by
      rw [List.filter_eq_nil_iff]
      intro j hj
      obtain ⟨k, hk⟩ := List.length_eq_one_iff.mp
        (show x.subuser.length = 1 from le_antisymm hlen (List.length_pos_of_mem hi))
      simp only [hk, List.mem_singleton] at hi hj
      simp [hi, hj]
    rw [hall, post_nil]

/-- The message for the other members, also when there are none. -/
theorem deliver_eq (jlist : JsonItem) (rawname : Bytes) (x : User) (h : s.roster.Sound)
    (hz : s.chans c = some z) (hu : u ∈ z.users) :
    ∃ other, other.raw = rawname ∧ other.priority = .lo ∧
      s.deliver jlist rawname u x (.channel c) =
        .ok (s.post other (s.subsOf (z.users.filter (· ≠ u)))) := by
  refine ⟨s.forgeRaw rawname (jlist.setObj (bytes "pipe") (getJsonObjectChannel z)), rfl, rfl, ?_⟩
  simp only [deliver, chan_eq hz, ok_bind]
  split
  · exact postRawChannelRestricted_eq h.wf hz u
  · next hone =>
    have hlen : z.users.length ≤ 1 := by
      simp only [Channel.users, List.length_map]
      omega
    have hall : z.users.filter (· ≠ u) = [] := by
      rw [List.filter_eq_nil_iff]
      intro v hv
      obtain ⟨k, hk⟩ := List.length_eq_one_iff.mp
        (show z.users.length = 1 from le_antisymm hlen (List.length_pos_of_mem hu))
      simp only [hk, List.mem_singleton] at hu hv
      simp [hu, hv]
    rw [hall, show s.subsOf [] = [] from rfl, post_nil]
    rfl

/-- The subusers of the other members. -/
def Others (s : Ape) (z : Channel) (u : UserId) (j : SubId) : Prop :=
  ∃ v xv, v ∈ z.users ∧ v ≠ u ∧ s.users v = some xv ∧ j ∈ xv.subuser

/-- What `post_to_pipe` does for a member: one raw for each subuser of every other member,
one for each other subuser of the sender, and nothing else. -/
structure Delivered (s : Ape) (rawname : Bytes) (x : User) (i : SubId) (z : Channel) (u : UserId)
    (s' : Ape) : Prop where
  others : ∃ raw : RawMsg, raw.raw = rawname ∧ ∀ j, s.Others z u j →
    s'.subs j = (s.subs j).map (·.appendLow raw)
  own : ∃ raw : RawMsg, raw.raw = rawname ∧ ∀ j ∈ x.subuser, j ≠ i →
    s'.subs j = (s.subs j).map (·.appendLow raw)
  sender : s'.subs i = s.subs i
  rest : ∀ j, ¬s.Others z u j → j ∉ x.subuser → s'.subs j = s.subs j
  state : s' = { s with subs := s'.subs }

/-- What it does otherwise: one error for each subuser of the sender. -/
structure Refused (s : Ape) (x : User) (s' : Ape) : Prop where
  own : ∃ raw : RawMsg, raw.raw = bytes "ERR" ∧ ∀ j ∈ x.subuser,
    s'.subs j = (s.subs j).map (·.appendLow raw)
  rest : ∀ j, j ∉ x.subuser → s'.subs j = s.subs j
  state : s' = { s with subs := s'.subs }

theorem postToPipe_member (h : s.roster.Sound) (hy : s.subs i = some y) (hu : y.user = some u)
    (hx : s.users u = some x) {pipe : Bytes} (hp : s.getPipe pipe = some (.channel c))
    (hz : s.chans c = some z) (hm : u ∈ z.users) :
    ∃ s', s.postToPipe jlist rawname pipe i = .ok (true, s') ∧ Delivered s rawname x i z u s' := by
  have hi := mem_own h.wf.owned hx hy hu
  obtain ⟨x', hx', hc⟩ := member_live h.wf hz hm
  rw [hx] at hx'
  cases hx'
  have hstrict : s.getPipeStrict pipe x = some (.channel c) := by
    simp [getPipeStrict, hp, isonchannel, hc]
  have hobj : s.getJsonObjectPipe (.channel c) = .ok (some (getJsonObjectChannel z)) := by
    simp only [getJsonObjectPipe, chan_eq hz, ok_bind]
    rfl
  obtain ⟨own, hraw, hlo, hecho⟩ :=
    echo_eq (jlist.setObj (bytes "from") (getJsonObjectUser x)) rawname h hx hi hobj
  have hposted : Posted s (s.post own (x.subuser.filter (· ≠ i))) := post_posted _ _
  have hsound : (s.post own (x.subuser.filter (· ≠ i))).roster.Sound := by
    rw [hposted.roster]
    exact h
  obtain ⟨other, hraw', hlo', hdel⟩ := deliver_eq
    (jlist.setObj (bytes "from") (getJsonObjectUser x)) rawname x hsound hz hm
  have hmem : ∀ j, j ∈ s.subsOf (z.users.filter (· ≠ u)) ↔ s.Others z u j := by
    intro j
    rw [mem_subsOf]
    constructor
    · rintro ⟨v, hv, xv, hxv, hj⟩
      obtain ⟨hvz, hvu⟩ := List.mem_filter.mp hv
      exact ⟨v, xv, hvz, by simpa using hvu, hxv, hj⟩
    · rintro ⟨v, xv, hvz, hvu, hxv, hj⟩
      exact ⟨v, List.mem_filter.mpr ⟨hvz, by simpa using hvu⟩, xv, hxv, hj⟩
  have hnot : ∀ j, s.Others z u j → j ∉ x.subuser := by
    rintro j ⟨v, xv, -, hvu, hxv, hj⟩ hjx
    exact hvu (owner_unique h.wf.owned hxv hx hj hjx)
  have hown : ∀ j, s.Others z u j → j ∉ x.subuser.filter (· ≠ i) := fun j ho hj =>
    hnot j ho (List.mem_filter.mp hj).1
  refine ⟨(s.post own (x.subuser.filter (· ≠ i))).post other
      (s.subsOf (z.users.filter (· ≠ u))), ?_, ⟨other, hraw', fun j hj => ?_⟩,
    ⟨own, hraw, fun j hj hne => ?_⟩, ?_, fun j ho hn => ?_, rfl⟩
  · simp only [postToPipe, sub_eq hy, ok_bind, deref_eq hu, user_eq hx, hstrict, hecho, hdel]
    rfl
  · rw [post_subs_mem hlo' ((hmem j).mpr hj), post_subs_not_mem (hown j hj)]
  · have hj' : j ∉ s.subsOf (z.users.filter (· ≠ u)) := fun ho => hnot j ((hmem j).mp ho) hj
    rw [post_subs_not_mem hj', post_subs_mem hlo (List.mem_filter.mpr ⟨hj, by simpa using hne⟩)]
  · have hi' : i ∉ s.subsOf (z.users.filter (· ≠ u)) := fun ho => hnot i ((hmem i).mp ho) hi
    rw [post_subs_not_mem hi', post_subs_not_mem fun hj => by simp at hj]
  · rw [post_subs_not_mem fun hj => ho ((hmem j).mp hj),
      post_subs_not_mem fun hj => hn (List.mem_filter.mp hj).1]

theorem postToPipe_refused (h : s.roster.Sound) (hy : s.subs i = some y) (hu : y.user = some u)
    (hx : s.users u = some x) {pipe : Bytes} (hp : s.getPipeStrict pipe x = none) :
    ∃ s', s.postToPipe jlist rawname pipe i = .ok (false, s') ∧ Refused s x s' := by
  have hlive : ∀ j ∈ x.subuser, s.subs j ≠ none := by
    intro j hj
    obtain ⟨y, hy, -⟩ := own_live h.wf.owned hx hj
    simp [hy]
  refine ⟨s.post (s.forgeRaw (bytes "ERR") ((JsonItem.newObject.setStr (bytes "code")
    (bytes "109")).setStr (bytes "value") (bytes "UNKNOWN_PIPE"))) x.subuser, ?_,
    ⟨_, rfl, fun j hj => post_subs_mem rfl hj⟩, fun j hj => post_subs_not_mem hj, rfl⟩
  simp only [postToPipe, sub_eq hy, ok_bind, deref_eq hu, user_eq hx, hp, sendError, postRaw,
    foldlM_post (subuser_nodup h.wf.owned hx) hlive]
  rfl

/-- A pubid that leads to a channel leads to a live one. -/
theorem getPipe_live (h : s.roster.Sound) {pipe : Bytes} (hp : s.getPipe pipe = some (.channel c)) :
    ∃ z, s.chans c = some z := by
  unfold getPipe at hp
  split at hp
  · cases hp
  · obtain ⟨n, hn, -⟩ := (h.reg.pubid pipe (.channel c)).mp hp
    cases hz : s.chans c with
    | none => simp [Roster.pubKey, roster, hz] at hn
    | some z => exact ⟨z, rfl⟩

/-- A message to a channel reaches exactly the other subusers of its members; one from a user
who is not a member, or to a pipe that does not exist, reaches nobody and is answered with an
error. -/
theorem postToPipe_exact {domain : Bool} {rand : List (List.Vector (Fin 16) 32)} {io : ℕ → Bool}
    {time : ℤ} (hv : Visits domain (init rand io time) s) (hy : s.subs i = some y)
    (hu : y.user = some u) (jlist : JsonItem) (rawname pipe : Bytes) :
    ∃ x, s.users u = some x ∧
      (∀ c, s.getPipe pipe = some (.channel c) → ∃ z, s.chans c = some z ∧
        (u ∈ z.users → ∃ s', s.postToPipe jlist rawname pipe i = .ok (true, s') ∧
          Delivered s rawname x i z u s') ∧
        (u ∉ z.users → ∃ s', s.postToPipe jlist rawname pipe i = .ok (false, s') ∧
          Refused s x s')) ∧
      (s.getPipe pipe = none → ∃ s', s.postToPipe jlist rawname pipe i = .ok (false, s') ∧
        Refused s x s') := by
  have h := hv.sound
  obtain ⟨x, hx, -⟩ := own_user h.wf.owned hy hu
  refine ⟨x, hx, fun c hp => ?_, fun hp => postToPipe_refused h hy hu hx ?_⟩
  · obtain ⟨z, hz⟩ := getPipe_live h hp
    refine ⟨z, hz, fun hm => postToPipe_member h hy hu hx hp hz hm, fun hm =>
      postToPipe_refused h hy hu hx ?_⟩
    have hc : isonchannel x c = false := by
      by_contra hc
      obtain ⟨z', hz', hm'⟩ := foot_live h.wf hx (c := c) (by simpa [isonchannel] using hc)
      rw [hz] at hz'
      cases hz'
      exact hm hm'
    simp [getPipeStrict, hp, hc]
  · simp [getPipeStrict, hp]

/-- Two users on one channel. -/
def onChannel : List Event :=
  [.accept 5 (bytes "1.1.1.1"), .request 5
    { host := some (bytes "h"), uri := some (bytes "/0/"), hlines := [],
      data := some [JsonItem.newObject.setStr (bytes "cmd") (bytes "CONNECT"),
        (JsonItem.newObject.setStr (bytes "cmd") (bytes "JOIN")).setObj (bytes "params")
          (JsonItem.newObject.setStr (bytes "channels") (bytes "c"))] },
   .accept 6 (bytes "1.1.1.2"), .request 6
    { host := some (bytes "h"), uri := some (bytes "/0/"), hlines := [],
      data := some [JsonItem.newObject.setStr (bytes "cmd") (bytes "CONNECT"),
        (JsonItem.newObject.setStr (bytes "cmd") (bytes "JOIN")).setObj (bytes "params")
          (JsonItem.newObject.setStr (bytes "channels") (bytes "c"))] }]

theorem postToPipe_exact_onChannel : ∃ s x z s', Steps.runs (step (.plain true)) (fun _ _ => True)
    (init sixteenDraws (fun _ => true) 0) onChannel = some s ∧ z.users = [3, 0] ∧
      s.postToPipe .newObject (bytes "DATA") (List.replicate 32 99) 1 = .ok (true, s') ∧
      Delivered s (bytes "DATA") x 1 z 0 s' := by
  have h : ((Steps.runs (step (.plain true)) (fun _ _ => True)
      (init sixteenDraws (fun _ => true) 0) onChannel).map fun s =>
        ((s.subs 1).map Subuser.user, s.getPipe (List.replicate 32 99),
          (s.chans 2).map Channel.users)) =
      some (some (some 0), some (.channel 2), some [3, 0]) := by decide +kernel
  obtain ⟨s, hs, h⟩ := Option.map_eq_some_iff.mp h
  simp only [Prod.mk.injEq] at h
  obtain ⟨hy, hp, hz⟩ := h
  obtain ⟨y, hy, hu⟩ := Option.map_eq_some_iff.mp hy
  obtain ⟨z, hz, hus⟩ := Option.map_eq_some_iff.mp hz
  obtain ⟨x, -, hc, -⟩ := postToPipe_exact (.event (.of_runs .start hs)) hy hu .newObject
    (bytes "DATA") (List.replicate 32 99)
  obtain ⟨z', hz', hd, -⟩ := hc 2 hp
  rw [hz] at hz'
  cases hz'
  obtain ⟨s', hs', hd⟩ := hd (by simp [hus])
  exact ⟨s, x, z, s', hs, hus, hs', hd⟩

end Ape

end ApeServer
