import Mathlib.Tactic

/-!
# Streams cut into blocks

A stream is folded block by block. It may arrive in pieces of any length: what has been seen
of it is the state after its whole blocks, and the block that has only begun.
-/
namespace Blocks

variable {α σ : Type*} {size : ℕ} {l r : List α} {s : σ}

/-- The state after the first `n` blocks of `l`. -/
def foldN (size : ℕ) (step : σ → List α → σ) : ℕ → σ → List α → σ
  | 0, s, _ => s
  | n + 1, s, l => foldN size step n (step s (l.take size)) (l.drop size)

/-- The state after the whole blocks of `l`. -/
def fold (size : ℕ) (step : σ → List α → σ) (s : σ) (l : List α) : σ :=
  foldN size step (l.length / size) s l

/-- The block of `l` that has only begun. -/
def tail (size : ℕ) (l : List α) : List α := l.drop (size * (l.length / size))

variable {step : σ → List α → σ}

theorem length_tail : (tail size l).length = l.length % size := by
  rw [tail, List.length_drop]
  have := Nat.div_add_mod l.length size
  omega

theorem fold_of_lt (h : l.length < size) : fold size step s l = s := by
  simp [fold, Nat.div_eq_of_lt h, foldN]

theorem tail_of_lt (h : l.length < size) : tail size l = l := by
  simp [tail, Nat.div_eq_of_lt h]

/-- The first block is taken off. -/
theorem fold_drop (hs : 0 < size) (h : size ≤ l.length) :
    fold size step s l = fold size step (step s (l.take size)) (l.drop size) := by
  have hdiv : l.length / size = (l.length - size) / size + 1 := Nat.div_eq_sub_div hs h
  rw [fold, hdiv, foldN, fold, List.length_drop]

theorem tail_drop (hs : 0 < size) (h : size ≤ l.length) :
    tail size l = tail size (l.drop size) := by
  have hdiv : l.length / size = (l.length - size) / size + 1 := Nat.div_eq_sub_div hs h
  rw [tail, hdiv, tail, List.length_drop, List.drop_drop, Nat.mul_add, Nat.mul_one, Nat.add_comm]

/-- Folding a stream in two pieces: the second starts with the block that had begun. -/
theorem fold_append (hs : 0 < size) :
    fold size step s (l ++ r) = fold size step (fold size step s l) (tail size l ++ r) := by
  induction hn : l.length using Nat.strong_induction_on generalizing l s with
  | _ n ih =>
    by_cases h : size ≤ l.length
    · have hle : size ≤ (l ++ r).length := by simp; omega
      rw [fold_drop hs hle, fold_drop hs h, tail_drop hs h, List.take_append_of_le_length h,
        List.drop_append_of_le_length h]
      exact ih (l.drop size).length (by simp; omega) rfl
    · rw [fold_of_lt (l := l) (by omega), tail_of_lt (l := l) (by omega)]

theorem tail_append (hs : 0 < size) : tail size (l ++ r) = tail size (tail size l ++ r) := by
  induction hn : l.length using Nat.strong_induction_on generalizing l with
  | _ n ih =>
    by_cases h : size ≤ l.length
    · have hle : size ≤ (l ++ r).length := by simp; omega
      rw [tail_drop hs hle, tail_drop hs h, List.drop_append_of_le_length h]
      exact ih (l.drop size).length (by simp; omega) rfl
    · rw [tail_of_lt (l := l) (by omega)]

end Blocks
