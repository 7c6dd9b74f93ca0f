import ApeServer.Lib.Steps

/-!
# What a step yields

A step that completes does so with a result in `Q`, and one that stops does so for a reason in
`E`. The rules follow the way steps are put together.
-/
namespace Steps

universe u

variable {η ε : Type*} {σ τ : Type u} {E E' : η → Prop} {P Q : σ → Prop} {R : τ → Prop}

/-- The result of `x` is in `Q`, or `x` stops for a reason in `E`. -/
def Yields (E : η → Prop) (Q : σ → Prop) : Except η σ → Prop
  | .ok a => Q a
  | .error e => E e

namespace Yields

variable {x : Except η σ}

theorem ok {a : σ} (h : Q a) : Yields E Q (.ok a : Except η σ) := h

theorem pure {a : σ} (h : Q a) : Yields E Q (pure a : Except η σ) := h

theorem error {e : η} (h : E e) : Yields E Q (.error e : Except η σ) := h

theorem result {a : σ} (h : Yields E Q x) (hx : x = .ok a) : Q a := by
  subst hx
  exact h

theorem reason {e : η} (h : Yields E Q x) (hx : x = .error e) : E e := by
  subst hx
  exact h

theorem mono (h : Yields E P x) (hq : ∀ a, P a → Q a) : Yields E Q x := by
  cases x with
  | ok a => exact hq a h
  | error e => exact h

theorem bind {f : σ → Except η τ} (hx : Yields E P x) (hf : ∀ a, P a → Yields E R (f a)) :
    Yields E R (x >>= f) := by
  cases x with
  | ok a => exact hf a hx
  | error e => exact hx

/-- The loop rule: `I l` holds while the rounds for `l` are still to come. -/
theorem foldlM {f : σ → ε → Except η σ} {l : List ε} (I : List ε → σ → Prop)
    (hf : ∀ s a l, I (a :: l) s → Yields E (I l) (f s a)) {s : σ} (hs : I l s) :
    Yields E (I []) (l.foldlM f s) := by
  induction l generalizing s with
  | nil => exact hs
  | cons a l ih =>
    rw [List.foldlM_cons]
    exact (hf s a l hs).bind fun t ht => ih ht

end Yields

end Steps
