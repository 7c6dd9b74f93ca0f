import ApeServer.Lib.Steps
import ApeServer.Server.RosterOps
import ApeServer.Server.Users

/-!
# Posts

Posting a raw touches the queues of the subusers and nothing else. Where every subuser of
the addressed users is live, a post is one change of the state.
-/
namespace ApeServer

open Sock (Bytes)
open Steps (bind_ok foldlM_keeps foldlM_completes)

def User.links (x : User) : UserLinks :=
  ⟨x.next, x.prev, x.chan_foot, x.pubid, x.subuser, x.nsub, x.sessid⟩

def Subuser.links (y : Subuser) : SubLinks := ⟨y.user, y.channel⟩

def Channel.links (y : Channel) : ChanLinks := ⟨y.pubid, y.users, y.autodestroy, y.name⟩

/-- A subuser without what is queued for it. -/
def Subuser.unqueued (y : Subuser) : Subuser := { y with low := [], high := [] }

namespace Ape

variable {s s' t : Ape} {u : UserId} {i : SubId} {c : ChanId} {x : User} {y : Subuser}
  {z : Channel} {raw : RawMsg}

/-- The roster of a server state. -/
def roster (s : Ape) : Roster :=
  { users := fun u => (s.users u).map User.links
    subs := fun i => (s.subs i).map Subuser.links
    chans := fun c => (s.chans c).map Channel.links
    uHead := s.uHead, hSessid := s.hSessid, hPubid := s.hPubid, hLusers := s.hLusers
    fresh := s.fresh }

theorem user_ok (h : s.user u = .ok x) : s.users u = some x := by
  unfold user at h
  split at h <;> simp_all

theorem sub_ok (h : s.sub i = .ok y) : s.subs i = some y := by
  unfold sub at h
  split at h <;> simp_all

theorem chan_ok (h : s.chan c = .ok z) : s.chans c = some z := by
  unfold chan at h
  split at h <;> simp_all

theorem deref_ok {α : Type} {o : Option α} {a : α} (h : deref o = .ok a) : o = some a := by
  cases o with
  | none => cases h
  | some b =>
    cases h
    rfl

theorem deref_eq {α : Type} {o : Option α} {a : α} (h : o = some a) : deref o = .ok a := by
  rw [h]
  rfl

theorem useSub_ok {o : Option SubId} {i : SubId} (h : useSub o = .ok i) : o = some i := by
  cases o with
  | none => cases h
  | some j =>
    cases h
    rfl

theorem useSub_eq {o : Option SubId} {i : SubId} (h : o = some i) : useSub o = .ok i := by
  rw [h]
  rfl

theorem user_eq (h : s.users u = some x) : s.user u = .ok x := by simp [user, h]

theorem sub_eq (h : s.subs i = some y) : s.sub i = .ok y := by simp [sub, h]

theorem chan_eq (h : s.chans c = some z) : s.chan c = .ok z := by simp [chan, h]

theorem roster_users (h : s.users u = some x) : s.roster.users u = some x.links := by
  simp [roster, h]

theorem roster_subs (h : s.subs i = some y) : s.roster.subs i = some y.links := by
  simp [roster, h]

theorem roster_chans (h : s.chans c = some z) : s.roster.chans c = some z.links := by
  simp [roster, h]

theorem roster_live (u : UserId) : s.roster.users u ≠ none ↔ s.users u ≠ none := by
  simp [roster]

@[simp]
theorem roster_setUser : (s.setUser u x).roster = s.roster.setUser u x.links := by
  simp only [roster, setUser, Roster.setUser]
  rw [Roster.map_update]
  rfl

@[simp]
theorem roster_setChan : (s.setChan c z).roster = s.roster.setChan c z.links := by
  simp only [roster, setChan, Roster.setChan]
  rw [Roster.map_update]
  rfl

@[simp]
theorem roster_setSub : (s.setSub i y).roster = s.roster.setSub i y.links := by
  simp only [roster, setSub, Roster.setSub]
  rw [Roster.map_update]
  rfl

@[simp]
theorem roster_setCo {fd : Fd} {k : Socket} : (s.setCo fd k).roster = s.roster := rfl

/-- Writing a record whose links stay. -/
theorem roster_setUser_of {x' : User} (h : s.users u = some x) (hl : x'.links = x.links) :
    (s.setUser u x').roster = s.roster := by
  rw [roster_setUser, hl, Roster.setUser, ← roster_users h, Function.update_eq_self]

theorem roster_setSub_of {y' : Subuser} (h : s.subs i = some y) (hl : y'.links = y.links) :
    (s.setSub i y').roster = s.roster := by
  rw [roster_setSub, hl, Roster.setSub, ← roster_subs h, Function.update_eq_self]

theorem roster_setChan_of {z' : Channel} (h : s.chans c = some z) (hl : z'.links = z.links) :
    (s.setChan c z').roster = s.roster := by
  rw [roster_setChan, hl, Roster.setChan, ← roster_chans h, Function.update_eq_self]

/-! ### What a post leaves alone -/

/-- `s'` is `s` with other queues. -/
structure Posted (s s' : Ape) : Prop where
  rest : s' = { s with subs := s'.subs }
  subs : ∀ i, (s'.subs i).map Subuser.unqueued = (s.subs i).map Subuser.unqueued

theorem Posted.refl : Posted s s := ⟨rfl, fun _ => rfl⟩

theorem Posted.trans (h : Posted s t) (h' : Posted t s') : Posted s s' := by
  refine ⟨?_, fun i => (h'.subs i).trans (h.subs i)⟩
  rw [h'.rest, h.rest]

theorem unqueued_push : (y.push raw).unqueued = y.unqueued := by
  unfold Subuser.push
  split <;> rfl

theorem Posted.setSub {y' : Subuser} (h : s.subs i = some y) (hu : y'.unqueued = y.unqueued) :
    Posted s (s.setSub i y') := by
  refine ⟨rfl, fun j => ?_⟩
  by_cases hj : j = i
  · subst hj
    simp [h, hu]
  · simp [hj]

theorem Posted.users (h : Posted s s') : s'.users = s.users := by rw [h.rest]

theorem Posted.chans (h : Posted s s') : s'.chans = s.chans := by rw [h.rest]

theorem Posted.co (h : Posted s s') : s'.co = s.co := by rw [h.rest]

theorem Posted.roster (h : Posted s s') : s'.roster = s.roster := by
  have hs : s'.roster.subs = s.roster.subs := by
    funext i
    have := congrArg (Option.map Subuser.links) (h.subs i)
    rw [Option.map_map, Option.map_map] at this
    exact this
  have hr := h.rest
  cases s
  cases s'
  simp only [Ape.roster, Ape.mk.injEq] at hr hs ⊢
  simp_all

theorem postRawSub_posted (h : s.postRawSub raw i = .ok s') : Posted s s' := by
  obtain ⟨y, hy, h⟩ := bind_ok h
  cases h
  exact .setSub (sub_ok hy) unqueued_push

theorem postRaw_posted (h : s.postRaw raw u = .ok s') : Posted s s' := by
  obtain ⟨x, -, h⟩ := bind_ok h
  exact foldlM_keeps (Posted s) (fun _ _ _ _ hs h => hs.trans (postRawSub_posted h)) .refl h

theorem postRawRestricted_posted (h : s.postRawRestricted raw u i = .ok s') : Posted s s' := by
  obtain ⟨x, -, h⟩ := bind_ok h
  refine foldlM_keeps (Posted s) (fun t j t' _ hs h => ?_) .refl h
  split at h
  · exact hs.trans (postRawSub_posted h)
  · cases h
    exact hs

theorem postRawChannel_posted (h : s.postRawChannel raw c = .ok s') : Posted s s' := by
  obtain ⟨x, -, h⟩ := bind_ok h
  exact foldlM_keeps (Posted s) (fun _ _ _ _ hs h => hs.trans (postRaw_posted h)) .refl h

theorem postRawChannelRestricted_posted (h : s.postRawChannelRestricted raw c u = .ok s') :
    Posted s s' := by
  obtain ⟨x, -, h⟩ := bind_ok h
  refine foldlM_keeps (Posted s) (fun t m t' _ hs h => ?_) .refl h
  split at h
  · exact hs.trans (postRaw_posted h)
  · cases h
    exact hs

theorem sendError_posted {msg code : Bytes} (h : s.sendError u msg code = .ok s') :
    Posted s s' := postRaw_posted h

/-! ### What a post does -/

/-- The raw at the end of the queues of the listed subusers. -/
def post (s : Ape) (raw : RawMsg) (l : List SubId) : Ape :=
  { s with subs := fun i => if i ∈ l then (s.subs i).map (·.push raw) else s.subs i }

theorem post_nil : s.post raw [] = s := by simp [post]

theorem post_cons {l : List SubId} (hy : s.subs i = some y) (hn : i ∉ l) :
    (s.setSub i (y.push raw)).post raw l = s.post raw (i :: l) := by
  simp only [post, setSub]
  congr 1
  funext j
  by_cases hj : j = i
  · subst hj
    simp [hn, hy]
  · simp [hj]

theorem post_append {l m : List SubId} (hd : l.Disjoint m) :
    (s.post raw l).post raw m = s.post raw (l ++ m) := by
  simp only [post]
  congr 1
  funext j
  by_cases h1 : j ∈ l
  · have h2 : j ∉ m := fun h2 => hd h1 h2
    simp [h1, h2]
  · simp [h1]

theorem post_posted (raw : RawMsg) (l : List SubId) : Posted s (s.post raw l) := by
  refine ⟨rfl, fun i => ?_⟩
  by_cases h : i ∈ l
  · cases hy : s.subs i <;> simp [post, h, hy, unqueued_push]
  · simp [post, h]

theorem postRawSub_eq (hy : s.subs i = some y) :
    s.postRawSub raw i = .ok (s.setSub i (y.push raw)) := by
  simp only [postRawSub, sub_eq hy]
  rfl

theorem foldlM_post {l : List SubId} (hd : l.Nodup) (hl : ∀ i ∈ l, s.subs i ≠ none) :
    l.foldlM (fun s i => s.postRawSub raw i) s = .ok (s.post raw l) := by
  induction l generalizing s with
  | nil =>
    rw [post_nil]
    rfl
  | cons i l ih =>
    obtain ⟨hn, hd⟩ := List.nodup_cons.mp hd
    obtain ⟨y, hy⟩ := Option.ne_none_iff_exists'.mp (hl i List.mem_cons_self)
    rw [List.foldlM_cons, postRawSub_eq hy, ← post_cons hy hn]
    refine ih hd fun j hj => ?_
    have hne : j ≠ i := fun he => hn (he ▸ hj)
    simpa [hne] using hl j (List.mem_cons_of_mem i hj)

section Owned

variable (ho : Incidence.Incident s.roster.own s.roster.owners)

include ho

theorem own_live (hx : s.users u = some x) (hi : i ∈ x.subuser) :
    ∃ y, s.subs i = some y ∧ y.user = some u := by
  obtain ⟨m, hm, hu⟩ := ho.right_of_mem (Roster.own_eq (roster_users hx)) hi
  cases hy : s.subs i with
  | none => simp [Roster.owners, roster, hy] at hm
  | some y =>
    simp only [Roster.owners, roster, hy, Option.map_some, Option.some.injEq] at hm
    subst hm
    exact ⟨y, rfl, by simpa [Subuser.links] using hu⟩

theorem mem_own (hx : s.users u = some x) (hy : s.subs i = some y) (hu : y.user = some u) :
    i ∈ x.subuser :=
  ho.mem_of_right (Roster.own_eq (roster_users hx)) (Roster.owners_eq (roster_subs hy))
    (by simp [Subuser.links, hu])

theorem own_user (hy : s.subs i = some y) (hu : y.user = some u) :
    ∃ x, s.users u = some x ∧ i ∈ x.subuser := by
  obtain ⟨l, hl, hi⟩ := (ho.mem_iff u i).mpr
    ⟨_, Roster.owners_eq (roster_subs hy), by simp [Subuser.links, hu]⟩
  cases hx : s.users u with
  | none => simp [Roster.own, roster, hx] at hl
  | some x =>
    simp only [Roster.own, roster, hx, Option.map_some, Option.some.injEq] at hl
    subst hl
    exact ⟨x, rfl, hi⟩

theorem subuser_nodup (hx : s.users u = some x) : x.subuser.Nodup :=
  ho.left_nodup (Roster.own_eq (roster_users hx))

theorem postRaw_eq (hx : s.users u = some x) :
    s.postRaw raw u = .ok (s.post raw x.subuser) := by
  simp only [postRaw, user_eq hx]
  refine foldlM_post (subuser_nodup ho hx) fun i hi => ?_
  obtain ⟨y, hy, -⟩ := own_live ho hx hi
  simp [hy]

end Owned

/-- The subusers of the listed users. -/
def subsOf (s : Ape) (us : List UserId) : List SubId :=
  us.flatMap fun u => ((s.users u).map User.subuser).getD []

theorem mem_subsOf {us : List UserId} :
    i ∈ s.subsOf us ↔ ∃ u ∈ us, ∃ x, s.users u = some x ∧ i ∈ x.subuser := by
  simp only [subsOf, List.mem_flatMap]
  constructor
  · rintro ⟨u, hu, hi⟩
    cases hx : s.users u with
    | none => simp [hx] at hi
    | some x => exact ⟨u, hu, x, hx, by simpa [hx] using hi⟩
  · rintro ⟨u, hu, x, hx, hi⟩
    exact ⟨u, hu, by simpa [hx] using hi⟩

theorem owner_unique (ho : Incidence.Incident s.roster.own s.roster.owners) {v : UserId}
    {x' : User} (hx : s.users u = some x) (hx' : s.users v = some x') (hi : i ∈ x.subuser)
    (hi' : i ∈ x'.subuser) : u = v := by
  obtain ⟨y, hy, hu⟩ := own_live ho hx hi
  obtain ⟨y', hy', hu'⟩ := own_live ho hx' hi'
  rw [hy] at hy'
  cases hy'
  rw [hu] at hu'
  exact Option.some.inj hu'

/-- Posting to users one after the other is one post to all their subusers. -/
theorem foldlM_postRaw (ho : Incidence.Incident s.roster.own s.roster.owners)
    {us : List UserId} (hd : us.Nodup) (hl : ∀ u ∈ us, s.users u ≠ none) :
    us.foldlM (fun s u => s.postRaw raw u) s = .ok (s.post raw (s.subsOf us)) := by
  induction us generalizing s with
  | nil => rw [show s.subsOf [] = [] from rfl, post_nil]; rfl
  | cons u us ih =>
    obtain ⟨hn, hd⟩ := List.nodup_cons.mp hd
    obtain ⟨x, hx⟩ := Option.ne_none_iff_exists'.mp (hl u List.mem_cons_self)
    have hp : Posted s (s.post raw x.subuser) := post_posted _ _
    have hdis : x.subuser.Disjoint (s.subsOf us) := by
      intro i hi hi'
      obtain ⟨v, hv, x', hx', hi'⟩ := mem_subsOf.mp hi'
      exact hn (owner_unique ho hx hx' hi hi' ▸ hv)
    have hcons : s.subsOf (u :: us) = x.subuser ++ s.subsOf us := by simp [subsOf, hx]
    rw [List.foldlM_cons, postRaw_eq ho hx, hcons, ← post_append hdis]
    exact ih (by rw [hp.roster]; exact ho) hd fun v hv => hl v (List.mem_cons_of_mem u hv)

theorem users_nodup (h : s.roster.Wf) (hz : s.chans c = some z) : z.users.Nodup :=
  h.member.right_nodup (Roster.roll_eq (roster_chans hz))

theorem member_live (h : s.roster.Wf) (hz : s.chans c = some z) (hu : u ∈ z.users) :
    ∃ x, s.users u = some x ∧ c ∈ x.chan_foot := by
  obtain ⟨l, hl, hc⟩ := h.member.symm.right_of_mem (Roster.roll_eq (roster_chans hz)) hu
  cases hx : s.users u with
  | none => simp [Roster.foot, roster, hx] at hl
  | some x =>
    simp only [Roster.foot, roster, hx, Option.map_some, Option.some.injEq] at hl
    subst hl
    exact ⟨x, rfl, hc⟩

theorem foot_live (h : s.roster.Wf) (hx : s.users u = some x) (hc : c ∈ x.chan_foot) :
    ∃ z, s.chans c = some z ∧ u ∈ z.users := by
  obtain ⟨m, hm, hu⟩ := h.member.right_of_mem (Roster.foot_eq (roster_users hx)) hc
  cases hz : s.chans c with
  | none => simp [Roster.roll, roster, hz] at hm
  | some z =>
    simp only [Roster.roll, roster, hz, Option.map_some, Option.some.injEq] at hm
    subst hm
    exact ⟨z, rfl, hu⟩

theorem postRawChannel_eq (h : s.roster.Wf) (hz : s.chans c = some z) :
    s.postRawChannel raw c = .ok (s.post raw (s.subsOf z.users)) := by
  have hlive : ∀ u ∈ z.users, s.users u ≠ none := by
    intro u hu
    obtain ⟨x, hx, -⟩ := member_live h hz hu
    simp [hx]
  simp only [postRawChannel, chan_eq hz]
  rw [← foldlM_postRaw h.owned (users_nodup h hz) hlive, Channel.users, List.foldlM_map]
  rfl

theorem foldlM_postRaw_restricted (h : s.roster.Wf) (hz : s.chans c = some z) (v : UserId) :
    z.head.foldlM (fun s m => if m.userinfo ≠ v then s.postRaw raw m.userinfo else pure s) s =
      .ok (s.post raw (s.subsOf (z.users.filter (· ≠ v)))) := by
  have hlive : ∀ u ∈ z.users.filter (· ≠ v), s.users u ≠ none := by
    intro u hu
    obtain ⟨x, hx, -⟩ := member_live h hz (List.mem_filter.mp hu).1
    simp [hx]
  rw [← foldlM_postRaw h.owned ((users_nodup h hz).filter _) hlive, List.foldlM_filter,
    Channel.users, List.foldlM_map]
  simp only [decide_eq_true_eq]

theorem postRawChannelRestricted_eq (h : s.roster.Wf) (hz : s.chans c = some z) (v : UserId) :
    s.postRawChannelRestricted raw c v =
      .ok (s.post raw (s.subsOf (z.users.filter (· ≠ v)))) := by
  simp only [postRawChannelRestricted, chan_eq hz]
  exact foldlM_postRaw_restricted h hz v

end Ape

end ApeServer
