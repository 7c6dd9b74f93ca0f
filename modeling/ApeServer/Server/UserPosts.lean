import ApeServer.Server.PipePosts

/-!
# Messages to a user

`post_to_pipe` posts a message twice: to the other subusers of the sender, and to all of the
recipient. A user may send to itself.
-/
namespace ApeServer

open Sock (Bytes)
open Steps (ok_bind)

namespace Ape

variable {s s' : Ape} {u v : UserId} {i j : SubId} {x xv : User} {y : Subuser} {raw : RawMsg}
  {rawname pipe : Bytes}

/-- One raw with the name at the end of the low queue. -/
def Gets (rawname : Bytes) (s s' : Ape) (j : SubId) : Prop :=
  ∃ raw : RawMsg, raw.raw = rawname ∧ s'.subs j = (s.subs j).map (·.appendLow raw)

/-- Each subuser of the recipient `xv` and each other subuser of the sender `x` gets the message
once, and nobody else gets it; the subuser `i` that sends it, at most once. -/
structure SentOnce (s : Ape) (rawname : Bytes) (x xv : User) (i : SubId) (s' : Ape) : Prop where
  recipient : ∀ j ∈ xv.subuser, j ≠ i → Gets rawname s s' j
  own : ∀ j ∈ x.subuser, j ≠ i → Gets rawname s s' j
  sender : s'.subs i = s.subs i ∨ Gets rawname s s' i
  rest : ∀ j, j ∉ xv.subuser → j ∉ x.subuser → s'.subs j = s.subs j
  state : s' = { s with subs := s'.subs }

/-- A pubid of a user leads to a live one. -/
theorem getPipe_user (h : s.roster.Sound) (hp : s.getPipe pipe = some (.user v)) :
    ∃ x, s.users v = some x := by
  unfold getPipe at hp
  split at hp
  · cases hp
  · obtain ⟨n, hn, -⟩ := (h.reg.pubid pipe (.user v)).mp hp
    cases hx : s.users v with
    | none => simp [Roster.pubKey, roster, hx] at hn
    | some x => exact ⟨x, rfl⟩

/-- What a message to a user does: the copies for the other subusers of the sender, and then the
message itself. -/
theorem postToPipe_user (jlist : JsonItem) (rawname : Bytes) (h : s.roster.Sound)
    (hy : s.subs i = some y) (hu : y.user = some u) (hx : s.users u = some x)
    (hp : s.getPipe pipe = some (.user v)) (hv : s.users v = some xv) :
    ∃ own other : RawMsg, own.raw = rawname ∧ own.priority = .lo ∧ other.raw = rawname ∧
      other.priority = .lo ∧ s.postToPipe jlist rawname pipe i =
        .ok (true, (s.post own (x.subuser.filter (· ≠ i))).post other xv.subuser) := by
  have hi := mem_own h.wf.owned hx hy hu
  have hstrict : s.getPipeStrict pipe x = some (.user v) := by simp [getPipeStrict, hp]
  have hobj : s.getJsonObjectPipe (.user v) = .ok (some (getJsonObjectUser xv)) := by
    simp only [getJsonObjectPipe, user_eq hv, ok_bind]
    rfl
  obtain ⟨own, hraw, hlo, hecho⟩ :=
    echo_eq (jlist.setObj (bytes "from") (getJsonObjectUser x)) rawname h hx hi hobj
  have hposted : Posted s (s.post own (x.subuser.filter (· ≠ i))) := post_posted _ _
  have howned : Incidence.Incident (s.post own (x.subuser.filter (· ≠ i))).roster.own
      (s.post own (x.subuser.filter (· ≠ i))).roster.owners := by
    rw [hposted.roster]
    exact h.wf.owned
  refine ⟨own, s.forgeRaw rawname ((jlist.setObj (bytes "from") (getJsonObjectUser x)).setObj
    (bytes "pipe") (getJsonObjectUser x)), hraw, hlo, rfl, rfl, ?_⟩
  simp only [postToPipe, sub_eq hy, ok_bind, deref_eq hu, user_eq hx, hstrict, hecho, deliver,
    postRaw_eq howned (hposted.users ▸ hv)]
  rfl

/-- Two raws in a row are not one. -/
theorem not_gets_two {own other : RawMsg} (hy : s.subs j = some y)
    (hs : s'.subs j = some ((y.appendLow own).appendLow other)) : ¬Gets rawname s s' j := by
  rintro ⟨raw, -, he⟩
  rw [hs, hy, Option.map_some, Option.some.injEq] at he
  have hlen := congrArg (fun y : Subuser => y.low.length) he
  simp only [Subuser.appendLow, List.length_append, List.length_singleton] at hlen
  omega

/-- Posts to subusers of two users, or to one subuser alone. -/
theorem sentOnce_of_disjoint {own other : RawMsg} {l : List SubId}
    (ho : own.raw = rawname ∧ own.priority = .lo) (hr : other.raw = rawname ∧ other.priority = .lo)
    (hown : ∀ j, j ∈ l ↔ j ∈ x.subuser ∧ j ≠ i)
    (hd : ∀ j ∈ l, j ∉ xv.subuser) (hsame : ∀ j ∈ xv.subuser, j ∈ x.subuser → j = i) :
    SentOnce s rawname x xv i ((s.post own l).post other xv.subuser) := by
  have hother : ∀ j ∈ xv.subuser, Gets rawname s ((s.post own l).post other xv.subuser) j := by
    intro j hj
    refine ⟨other, hr.1, ?_⟩
    rw [post_subs_mem hr.2 hj, post_subs_not_mem fun hl => hd j hl hj]
  refine ⟨fun j hj _ => hother j hj, fun j hj hne => ⟨own, ho.1, ?_⟩, ?_, fun j hv hx => ?_, rfl⟩
  · rw [post_subs_not_mem fun hv => hne (hsame j hv hj), post_subs_mem ho.2 ((hown j).mpr ⟨hj, hne⟩)]
  · by_cases hiv : i ∈ xv.subuser
    · exact .inr (hother i hiv)
    · refine .inl ?_
      rw [post_subs_not_mem hiv, post_subs_not_mem fun hl => ((hown i).mp hl).2 rfl]
  · rw [post_subs_not_mem hv, post_subs_not_mem fun hl => hx ((hown j).mp hl).1]

theorem sentOnce_iff (h : s.roster.Sound) (hy : s.subs i = some y) (hu : y.user = some u)
    (hx : s.users u = some x) (hv : s.users v = some xv) {own other : RawMsg}
    (ho : own.raw = rawname ∧ own.priority = .lo) (hr : other.raw = rawname ∧ other.priority = .lo) :
    SentOnce s rawname x xv i ((s.post own (x.subuser.filter (· ≠ i))).post other xv.subuser) ↔
      v ≠ u ∨ x.nsub = 1 := by
  have hi := mem_own h.wf.owned hx hy hu
  obtain ⟨hn, -⟩ := h.reg.hosts u _ (roster_users hx)
  change x.nsub = x.subuser.length at hn
  have hmem : ∀ j, j ∈ x.subuser.filter (· ≠ i) ↔ j ∈ x.subuser ∧ j ≠ i := by
    intro j
    rw [List.mem_filter, decide_eq_true_eq]
  constructor
  · intro hs
    by_contra hno
    obtain ⟨rfl, hmany⟩ := not_or.mp hno |>.imp_left not_not.mp
    rw [hx] at hv
    cases hv
    -- another subuser of the sender gets both
    obtain ⟨j, hj, hne⟩ : ∃ j ∈ x.subuser, j ≠ i := by
      by_contra hall
      have hone : x.subuser = [i] := by
        refine List.Perm.eq_singleton ((List.perm_ext_iff_of_nodup (subuser_nodup h.wf.owned hx)
          (List.nodup_singleton i)).mpr fun j => ?_)
        rw [List.mem_singleton]
        exact ⟨fun hj => not_not.mp fun hne => hall ⟨j, hj, hne⟩, fun he => he ▸ hi⟩
      rw [hn, hone] at hmany
      exact hmany rfl
    obtain ⟨yj, hyj, -⟩ := own_live h.wf.owned hx hj
    have htwo : ((s.post own (x.subuser.filter (· ≠ i))).post other x.subuser).subs j =
        some ((yj.appendLow own).appendLow other) := by
      rw [post_subs_mem hr.2 hj, post_subs_mem ho.2 ((hmem j).mpr ⟨hj, hne⟩), hyj]
      rfl
    exact not_gets_two hyj htwo (hs.own j hj hne)
  · intro hcond
    by_cases hvu : v = u
    · subst hvu
      rw [hx] at hv
      cases hv
      have hone : (x.subuser.length : ℤ) = 1 :=
        hn.symm.trans (hcond.resolve_left fun hne => hne rfl)
      obtain ⟨k, hk⟩ := List.length_eq_one_iff.mp (by exact_mod_cast hone)
      have honly : ∀ j ∈ x.subuser, j = i := by
        intro j hj
        rw [hk, List.mem_singleton] at hj hi
        rw [hj, hi]
      exact sentOnce_of_disjoint ho hr hmem
        (fun j hl => absurd (honly j ((hmem j).mp hl).1) ((hmem j).mp hl).2)
        fun j hj _ => honly j hj
    · have hapart : ∀ j ∈ xv.subuser, j ∉ x.subuser := fun j hj hjx =>
        hvu (owner_unique h.wf.owned hv hx hj hjx)
      exact sentOnce_of_disjoint ho hr hmem
        (fun j hl hjv => hapart j hjv ((hmem j).mp hl).1)
        fun j hj hjx => absurd hjx (hapart j hj)

/-- A message to a user reaches each subuser once, and nobody else, if and only if it is not
sent to the sender itself or the sender has one subuser. -/
theorem posted_once_iff {domain : Bool} {rand : List (List.Vector (Fin 16) 32)} {io : ℕ → Bool}
    {time : ℤ} (hvis : Visits domain (init rand io time) s) (hy : s.subs i = some y)
    (hu : y.user = some u) (hp : s.getPipe pipe = some (.user v)) (jlist : JsonItem)
    (rawname : Bytes) :
    ∃ x xv s', s.users u = some x ∧ s.users v = some xv ∧
      s.postToPipe jlist rawname pipe i = .ok (true, s') ∧
      (SentOnce s rawname x xv i s' ↔ v ≠ u ∨ x.nsub = 1) := by
  have h := hvis.sound
  obtain ⟨x, hx, -⟩ := own_user h.wf.owned hy hu
  obtain ⟨xv, hv⟩ := getPipe_user h hp
  obtain ⟨own, other, ho, ho', hr, hr', hpost⟩ := postToPipe_user jlist rawname h hy hu hx hp hv
  exact ⟨x, xv, _, hx, hv, hpost, sentOnce_iff h hy hu hx hv ⟨ho, ho'⟩ ⟨hr, hr'⟩⟩

theorem posted_once_onChannel : ∃ s x xv s', Steps.runs (step (.plain true)) (fun _ _ => True)
    (init sixteenDraws (fun _ => true) 0) onChannel = some s ∧
      s.postToPipe .newObject (bytes "DATA") (List.replicate 32 101) 1 = .ok (true, s') ∧
      SentOnce s (bytes "DATA") x xv 1 s' := by
  have h : ((Steps.runs (step (.plain true)) (fun _ _ => True)
      (init sixteenDraws (fun _ => true) 0) onChannel).map fun s =>
        ((s.subs 1).map Subuser.user, s.getPipe (List.replicate 32 101))) =
      some (some (some 0), some (.user 3)) := by decide +kernel
  obtain ⟨s, hs, h⟩ := Option.map_eq_some_iff.mp h
  simp only [Prod.mk.injEq] at h
  obtain ⟨hy, hp⟩ := h
  obtain ⟨y, hy, hu⟩ := Option.map_eq_some_iff.mp hy
  obtain ⟨x, xv, s', -, -, hpost, hiff⟩ := posted_once_iff (.event (.of_runs .start hs)) hy hu hp
    .newObject (bytes "DATA")
  exact ⟨s, x, xv, s', hs, hpost, hiff.mpr (.inl (by decide))⟩

/-- A user with two subusers. -/
def twoHosts : List Event :=
  [.accept 5 (bytes "1.1.1.1"), .request 5
    { host := some (bytes "h"), uri := some (bytes "/0/"), hlines := [],
      data := some [JsonItem.newObject.setStr (bytes "cmd") (bytes "CONNECT")] },
   .accept 6 (bytes "1.1.1.1"), .request 6
    { host := some (bytes "g"), uri := some (bytes "/0/"), hlines := [],
      data := some [(JsonItem.newObject.setStr (bytes "cmd") (bytes "CHECK")).setStr
        (bytes "sessid") (List.replicate 32 97)] }]

theorem posted_twice : ¬∀ (s : Ape) (i : SubId) (y : Subuser) (u v : UserId) (pipe : Bytes)
    (jlist : JsonItem) (rawname : Bytes),
    Visits true (init sixteenDraws (fun _ => true) 0) s → s.subs i = some y → y.user = some u →
    s.getPipe pipe = some (.user v) → ∃ x xv s', s.users u = some x ∧ s.users v = some xv ∧
      s.postToPipe jlist rawname pipe i = .ok (true, s') ∧ SentOnce s rawname x xv i s' := by
  intro hall
  have h : ((Steps.runs (step (.plain true)) (fun _ _ => True)
      (init sixteenDraws (fun _ => true) 0) twoHosts).map fun s =>
        ((s.subs 1).map Subuser.user, s.getPipe (List.replicate 32 98),
          (s.users 0).map User.nsub)) =
      some (some (some 0), some (.user 0), some 2) := by decide +kernel
  obtain ⟨s, hs, h⟩ := Option.map_eq_some_iff.mp h
  simp only [Prod.mk.injEq] at h
  obtain ⟨hy, hp, hn⟩ := h
  obtain ⟨y, hy, hu⟩ := Option.map_eq_some_iff.mp hy
  obtain ⟨x, hx, hn⟩ := Option.map_eq_some_iff.mp hn
  have hvis : Visits true (init sixteenDraws (fun _ => true) 0) s := .event (.of_runs .start hs)
  obtain ⟨x', xv, s', hx', hv, hpost, honce⟩ :=
    hall s 1 y 0 0 (List.replicate 32 98) .newObject (bytes "DATA") hvis hy hu hp
  rw [hx] at hx' hv
  cases hx'
  cases hv
  obtain ⟨own, other, ho, ho', hr, hr', hpost'⟩ :=
    postToPipe_user .newObject (bytes "DATA") hvis.sound hy hu hx hp hx
  rw [hpost, Except.ok.injEq, Prod.mk.injEq] at hpost'
  rw [hpost'.2, sentOnce_iff hvis.sound hy hu hx hx ⟨ho, ho'⟩ ⟨hr, hr'⟩, hn] at honce
  rcases honce with hne | hone
  · exact hne rfl
  · cases hone

end Ape

end ApeServer
