import ApeServer.Server.Alive

/-!
# The rounds of `check_timeout`

The states in which `check_timeout` comes to a user and to a subuser, and what it does there.
An invariant of every round is one of the whole walk.
-/
namespace ApeServer.Ape

open Sock (Bytes)
open Steps (ok_bind bind_ok)

variable {s s' t : Ape} {u v : UserId} {i : SubId} {x : User} {y : Subuser} {o : Option SubId}
  {fuel : ℕ} {p : Option UserId} {l : List SubId}

/-- The inner loop comes to the subuser `i` in the state `t`. -/
inductive SubRounds (u : UserId) : List SubId → Ape → SubId → Ape → Prop
  | here {l : List SubId} {s : Ape} {i : SubId} : SubRounds u (i :: l) s i s
  | later {l : List SubId} {s t t' : Ape} {i j : SubId} : s.tickSub u j = .ok t →
      SubRounds u l t i t' → SubRounds u (j :: l) s i t'

/-- The walk comes to the user `u`, or to one of its subusers, in the state `t`. -/
inductive Rounds : ℕ → Option UserId → Ape → UserId → Option SubId → Ape → Prop
  | user {n : ℕ} {s : Ape} {u : UserId} : Rounds (n + 1) (some u) s u none s
  | sub {n : ℕ} {s t : Ape} {u : UserId} {x : User} {i : SubId} : s.users u = some x →
      x.type = .human → s.time - x.idle < timeoutSec → SubRounds u x.subuser s i t →
      Rounds (n + 1) (some u) s u (some i) t
  | later {n : ℕ} {s t t' : Ape} {u v : UserId} {x : User} {o : Option SubId} :
      s.users v = some x → s.tickUser v = .ok t → Rounds n x.next t u o t' →
      Rounds (n + 1) (some v) s u o t'

variable {I : Ape → Prop}

theorem tickSubs_keeps (hsub : ∀ i t t', SubRounds u l s i t → I t → t.tickSub u i = .ok t' → I t')
    (hs : I s) (h : s.tickSubs u l = .ok s') : I s' := by
  induction l generalizing s with
  | nil =>
    cases h
    exact hs
  | cons j l ih =>
    obtain ⟨x, -, h⟩ := bind_ok h
    split at h
    · obtain ⟨t, ht, h⟩ := bind_ok h
      exact ih (fun i t t' hr => hsub i t t' (.later ht hr)) (hsub j s t .here hs ht) h
    · cases h

/-- What every deletion and every round over a subuser keep, the walk keeps. -/
theorem tickFrom_keeps
    (hdel : ∀ u t t' x, Rounds fuel p s u none t → I t → t.users u = some x → x.type = .human →
      timeoutSec ≤ t.time - x.idle → t.deluser u = .ok t' → I t')
    (hsub : ∀ u i t t', Rounds fuel p s u (some i) t → I t → t.tickSub u i = .ok t' → I t')
    (hs : I s) (h : s.tickFrom fuel p = .ok s') : I s' := by
  induction fuel generalizing s p with
  | zero =>
    cases p with
    | none =>
      cases h
      exact hs
    | some u => cases h
  | succ fuel ih =>
    cases p with
    | none =>
      cases h
      exact hs
    | some u =>
      obtain ⟨x, hx, h⟩ := bind_ok h
      obtain ⟨t, ht, h⟩ := bind_ok h
      replace hx := user_ok hx
      refine ih (fun v t t' z hr => hdel v t t' z (.later hx ht hr))
        (fun v i t t' hr => hsub v i t t' (.later hx ht hr)) ?_ h
      simp only [tickUser, user_eq hx, ok_bind] at ht
      split at ht
      · next hhuman =>
        split at ht
        · next hidle => exact hdel u s t x .user hs hx hhuman hidle ht
        · next hidle =>
          exact tickSubs_keeps (fun i t t' hr => hsub u i t t' (.sub hx hhuman (not_le.mp hidle) hr))
            hs ht
      · cases ht
        exact hs

theorem SubRounds.keeps (hsub : ∀ i t t', I t → t.tickSub u i = .ok t' → I t') (hs : I s)
    (h : SubRounds u l s i t) : I t := by
  induction h with
  | here => exact hs
  | later hj _ ih => exact ih (hsub _ _ _ hs hj)

/-- It holds when the walk comes to a user or to a subuser. -/
theorem Rounds.keeps (hdel : ∀ u t t', I t → t.deluser u = .ok t' → I t')
    (hsub : ∀ u i t t', I t → t.tickSub u i = .ok t' → I t') (hs : I s)
    (h : Rounds fuel p s u o t) : I t := by
  induction h with
  | user => exact hs
  | sub _ _ _ hr => exact hr.keeps (hsub _) hs
  | @later n s t t' u v x o hx ht _ ih =>
    refine ih ?_
    simp only [tickUser, user_eq hx, ok_bind] at ht
    split at ht
    · split at ht
      · exact hdel v s t hs ht
      · exact tickSubs_keeps (fun i t t' _ => hsub v i t t') hs ht
    · cases ht
      exact hs

/-- What `send_raws` leaves of its subuser. -/
theorem sendRaws_sub {b : Bool} (hy : s.subs i = some y) (hraw : y.nraw ≠ 0)
    (h : s.sendRaws i = .ok (b, s')) :
    ∃ u x, y.user = some u ∧ s.users u = some x ∧
      (b, s') = ((s.sendHeaders (s.co y.client).fd y x.transport).1 &&
          ((s.sendHeaders (s.co y.client).fd y x.transport).2.send (s.co y.client).fd
            (.raws y.low y.high)).1,
        ((s.sendHeaders (s.co y.client).fd y x.transport).2.send (s.co y.client).fd
          (.raws y.low y.high)).2.setSub i
            { y with headersSent := true, low := [], high := [] }) := by
  simp only [sendRaws, sub_eq hy, ok_bind, if_neg hraw] at h
  obtain ⟨u, hu, h⟩ := bind_ok h
  obtain ⟨x, hx, h⟩ := bind_ok h
  cases h
  exact ⟨u, x, deref_ok hu, user_ok hx, rfl⟩

/-- `check_timeout` sends what is queued for the subuser `y`. -/
def Sendable (s : Ape) (y : Subuser) : Prop :=
  s.time - y.idle < timeoutSec ∧ y.state = .alive ∧ y.nraw ≠ 0 ∧ y.need_update = false ∧
    y.burn_after_writing = false

/-- One round over the subuser `i`: it is deleted, left alone, or sent what is queued for it. -/
theorem tickSub_cases (h : s.tickSub u i = .ok s') : ∃ y, s.subs i = some y ∧
    (timeoutSec ≤ s.time - y.idle ∧ s.delsubuser u i = .ok s' ∨ s' = s ∨
      s.Sendable y ∧ ∃ b t v x, s.sendRaws i = .ok (b, t) ∧ y.user = some v ∧
        s.users v = some x ∧ if b then t.transportDataCompletlySent i x.transport = .ok s'
          else s' = t.setSub i { y with
            headersSent := true, low := [], high := [], burn_after_writing := true }) := by
  obtain ⟨y, hy, h⟩ := bind_ok h
  replace hy := sub_ok hy
  refine ⟨y, hy, ?_⟩
  split at h
  · next hidle => exact .inl ⟨hidle, h⟩
  · next hidle =>
    split at h
    · next hc =>
      obtain ⟨⟨b, t⟩, ht, h⟩ := bind_ok h
      obtain ⟨y', hy', h⟩ := bind_ok h
      replace hy' := sub_ok hy'
      obtain ⟨v, x, hv, hx, he⟩ := sendRaws_sub hy hc.2.1 ht
      obtain ⟨hb, rfl⟩ := Prod.mk.inj he
      simp only [setSub_subs, Function.update_self, Option.some.injEq] at hy'
      subst hy'
      refine .inr (.inr ⟨⟨not_le.mp hidle, hc⟩, b, _, v, x, ht, hv, hx, ?_⟩)
      split at h
      · next hb =>
        obtain ⟨v', hv', h⟩ := bind_ok h
        obtain ⟨x', hx', h⟩ := bind_ok h
        replace hv' := deref_ok hv'
        obtain rfl := Option.some.inj (hv'.symm.trans hv)
        replace hx' := user_ok hx'
        rw [setSub_users, send_users, sendHeaders_users, hx] at hx'
        obtain rfl := Option.some.inj hx'
        simpa [hb] using h
      · next hb =>
        cases h
        simp only [Bool.not_eq_true] at hb
        simp [hb]
    · cases h
      exact .inr (.inl rfl)

/-- What happens to the subuser after everything was sent. -/
theorem transportDataCompletlySent_cases {transport : Transport}
    (h : s.transportDataCompletlySent i transport = .ok s') : s' = s ∨ s.doDied i = .ok s' := by
  cases transport <;> simp only [transportDataCompletlySent] at h <;>
    first
      | exact .inr h
      | (cases h; exact .inl rfl)

end ApeServer.Ape
