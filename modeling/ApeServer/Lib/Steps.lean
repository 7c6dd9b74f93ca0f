import Mathlib.Tactic

/-!
# Steps that may stop

A step gives a next state or stops with a reason. The states a run reaches are those it
passes without stopping, each step taken in a state that allows it.
-/
namespace Steps

universe u

variable {η ε α : Type*} {σ τ : Type u}

@[simp]
theorem ok_bind (a : σ) (f : σ → Except η τ) : (Except.ok a >>= f) = f a := rfl

theorem bind_ok {x : Except η σ} {f : σ → Except η τ} {b : τ} (h : (x >>= f) = .ok b) :
    ∃ a, x = .ok a ∧ f a = .ok b := by
  cases x with
  | error e => cases h
  | ok a => exact ⟨a, rfl, h⟩

/-- Every completed loop keeps what each of its rounds keeps. -/
theorem foldlM_keeps {f : σ → α → Except η σ} {l : List α} (I : σ → Prop)
    (hf : ∀ s a s', a ∈ l → I s → f s a = .ok s' → I s') {s s' : σ} (hs : I s)
    (h : l.foldlM f s = .ok s') : I s' := by
  induction l generalizing s with
  | nil =>
    cases h
    exact hs
  | cons a l ih =>
    obtain ⟨t, ht, h⟩ := bind_ok h
    exact ih (fun s b s' hb => hf s b s' (List.mem_cons_of_mem a hb))
      (hf s a t List.mem_cons_self hs ht) h

/-- A loop completes when each of its rounds does. -/
theorem foldlM_completes {f : σ → α → Except η σ} {l : List α} (I : σ → Prop)
    (hf : ∀ s a, a ∈ l → I s → ∃ s', f s a = .ok s' ∧ I s') {s : σ} (hs : I s) :
    ∃ s', l.foldlM f s = .ok s' ∧ I s' := by
  induction l generalizing s with
  | nil => exact ⟨s, rfl, hs⟩
  | cons a l ih =>
    obtain ⟨t, ht, hi⟩ := hf s a List.mem_cons_self hs
    obtain ⟨s', hs', hi'⟩ := ih (fun s b hb => hf s b (List.mem_cons_of_mem a hb)) hi
    refine ⟨s', ?_, hi'⟩
    rw [List.foldlM_cons, ht]
    exact hs'

/-- `x` completes or stops for one of the reasons `E`. -/
def StopsFor (E : η → Prop) (x : Except η σ) : Prop := ∀ e, x = .error e → E e

namespace StopsFor

variable {E E' : η → Prop} {x : Except η σ}

theorem ok (a : σ) : StopsFor E (.ok a : Except η σ) := by
  intro e h
  cases h

theorem error {e : η} (h : E e) : StopsFor E (.error e : Except η σ) := by
  intro e' he
  cases he
  exact h

theorem of_completes (h : ∃ a, x = .ok a) : StopsFor E x := by
  obtain ⟨a, rfl⟩ := h
  exact ok a

theorem mono (h : StopsFor E x) (hE : ∀ e, E e → E' e) : StopsFor E' x :=
  fun e he => hE e (h e he)

theorem bind {f : σ → Except η τ} (hx : StopsFor E x) (hf : ∀ a, x = .ok a → StopsFor E (f a)) :
    StopsFor E (x >>= f) := by
  cases hx' : x with
  | error e => exact error (hx e hx')
  | ok a => exact hf a hx'

/-- A loop stops for the reasons its rounds stop for. -/
theorem foldlM {f : σ → α → Except η σ} {l : List α} (I : σ → Prop)
    (hf : ∀ s a, a ∈ l → I s → StopsFor E (f s a))
    (hk : ∀ s a s', a ∈ l → I s → f s a = .ok s' → I s') {s : σ} (hs : I s) :
    StopsFor E (l.foldlM f s) := by
  induction l generalizing s with
  | nil => exact ok s
  | cons a l ih =>
    rw [List.foldlM_cons]
    exact (hf s a List.mem_cons_self hs).bind fun t ht =>
      ih (fun s b hb => hf s b (List.mem_cons_of_mem a hb))
        (fun s b s' hb => hk s b s' (List.mem_cons_of_mem a hb))
        (hk s a t List.mem_cons_self hs ht)

end StopsFor

/-- The states reached from `s₀` by steps taken where `allowed` permits them. -/
inductive Reach (step : σ → ε → Except η σ) (allowed : σ → ε → Prop) (s₀ : σ) : σ → Prop
  | start : Reach step allowed s₀ s₀
  | step {s e s'} : Reach step allowed s₀ s → allowed s e → step s e = .ok s' →
      Reach step allowed s₀ s'

theorem Reach.keeps {step : σ → ε → Except η σ} {allowed : σ → ε → Prop} {s₀ s : σ}
    (h : Reach step allowed s₀ s) (I : σ → Prop) (h₀ : I s₀)
    (hstep : ∀ s e s', I s → allowed s e → step s e = .ok s' → I s') : I s := by
  induction h with
  | start => exact h₀
  | step _ ha hs ih => exact hstep _ _ _ ih ha hs

/-- The state a list of steps leads to, if each of them is allowed and completed. -/
def runs (step : σ → ε → Except η σ) (allowed : σ → ε → Prop)
    [∀ s e, Decidable (allowed s e)] (s : σ) : List ε → Option σ
  | [] => some s
  | e :: es =>
    if allowed s e then
      match step s e with
      | .ok s' => runs step allowed s' es
      | .error _ => none
    else none

theorem Reach.of_runs {step : σ → ε → Except η σ} {allowed : σ → ε → Prop}
    [∀ s e, Decidable (allowed s e)] {s₀ s s' : σ} {es : List ε}
    (h₀ : Reach step allowed s₀ s) (h : runs step allowed s es = some s') :
    Reach step allowed s₀ s' := by
  induction es generalizing s with
  | nil =>
    cases h
    exact h₀
  | cons e es ih =>
    rw [runs] at h
    split at h
    · next ha =>
      split at h
      · next t ht => exact ih (h₀.step ha ht) h
      · cases h
    · cases h

theorem runs_append {step : σ → ε → Except η σ} {allowed : σ → ε → Prop}
    [∀ s e, Decidable (allowed s e)] {s s' : σ} {es es' : List ε}
    (h : runs step allowed s (es ++ es') = some s') :
    ∃ t, runs step allowed s es = some t ∧ runs step allowed t es' = some s' := by
  induction es generalizing s with
  | nil => exact ⟨s, rfl, h⟩
  | cons e es ih =>
    rw [List.cons_append, runs] at h
    split at h
    · next ha =>
      split at h
      · next t ht =>
        rw [runs, if_pos ha, ht]
        exact ih h
      · cases h
    · cases h

theorem runs_trans {step : σ → ε → Except η σ} {allowed : σ → ε → Prop}
    [∀ s e, Decidable (allowed s e)] {s t s' : σ} {es es' : List ε}
    (h : runs step allowed s es = some t) (h' : runs step allowed t es' = some s') :
    runs step allowed s (es ++ es') = some s' := by
  induction es generalizing s with
  | nil =>
    cases h
    exact h'
  | cons e es ih =>
    rw [runs] at h
    split at h
    · next ha =>
      split at h
      · next t ht =>
        rw [List.cons_append, runs, if_pos ha, ht]
        exact ih h
      · cases h
    · cases h

/-- A run of steps that are allowed in every state. -/
theorem Reach.of_always {step : σ → ε → Except η σ} {allowed : σ → ε → Prop} {s₀ s s' : σ}
    {es : List ε} (hall : ∀ s, ∀ e ∈ es, allowed s e) (h₀ : Reach step allowed s₀ s)
    (h : runs step (fun _ _ => True) s es = some s') : Reach step allowed s₀ s' := by
  induction es generalizing s with
  | nil =>
    cases h
    exact h₀
  | cons e es ih =>
    rw [runs, if_pos trivial] at h
    split at h
    · next t ht =>
      exact ih (fun s e' he => hall s e' (List.mem_cons_of_mem e he))
        (h₀.step (hall s e List.mem_cons_self) ht) h
    · cases h

end Steps
