import Mathlib.Data.Int.Order.Basic
import Mathlib.Data.List.Count
import Mathlib.Tactic

/-!
# Reference counts

`count` is the counter of every live cell and `holders` lists a cell once for each
reference to it. A cell with one reference may still have the counter zero it was created
with; a second reference makes the counter exact.
-/
namespace RefCount

variable {κ : Type*} [DecidableEq κ] {count count' : κ → Option ℤ} {holders holders' : List κ}
  {r : κ} {n : ℤ}

/-- Every referenced cell is live and counts its references. -/
def Counted (count : κ → Option ℤ) (holders : List κ) : Prop :=
  ∀ r ∈ holders, ∃ n, count r = some n ∧ 0 ≤ n ∧ max 1 n = holders.count r

theorem Counted.nil (count : κ → Option ℤ) : Counted count [] := by
  intro r hr
  cases hr

theorem Counted.perm (h : Counted count holders) (hp : holders.Perm holders') :
    Counted count holders' := by
  intro r hr
  obtain ⟨n, hn, h0, hc⟩ := h r (hp.mem_iff.mpr hr)
  exact ⟨n, hn, h0, by rw [hc, hp.count_eq]⟩

/-- Cells without a reference may change freely. -/
theorem Counted.congr (h : Counted count holders) (hc : ∀ r ∈ holders, count' r = count r) :
    Counted count' holders := by
  intro r hr
  rw [hc r hr]
  exact h r hr

/-- The first reference to a cell that still has its initial counter. -/
theorem Counted.first (h : Counted count holders) (hr : r ∉ holders) (hn : count r = some 0) :
    Counted count (r :: holders) := by
  intro q hq
  by_cases he : q = r
  · subst he
    refine ⟨0, hn, le_rfl, ?_⟩
    rw [List.count_cons_self, List.count_eq_zero_of_not_mem hr]
    rfl
  · rw [List.count_cons_of_ne (Ne.symm he)]
    exact h q ((List.mem_cons.mp hq).resolve_left he)

/-- One more reference to a cell whose counter is exact. -/
theorem Counted.retain (h : Counted count holders) (hn : n = holders.count r) :
    Counted (Function.update count r (some (n + 1))) (r :: holders) := by
  intro q hq
  by_cases he : q = r
  · subst he
    refine ⟨n + 1, Function.update_self .., by omega, ?_⟩
    rw [List.count_cons_self]
    push_cast
    omega
  · rw [Function.update_of_ne he, List.count_cons_of_ne (Ne.symm he)]
    exact h q ((List.mem_cons.mp hq).resolve_left he)

/-- The counter of a referenced cell, exact as soon as it is not zero. -/
theorem Counted.exact (h : Counted count holders) (hr : r ∈ holders) (hn : count r = some n) :
    (if n = 0 then 1 else n) = holders.count r := by
  obtain ⟨m, hm, h0, hc⟩ := h r hr
  obtain rfl := Option.some.inj (hn.symm.trans hm)
  split <;> omega

/-- Making that counter exact changes nothing for the others. -/
theorem Counted.settle (h : Counted count holders) (hr : r ∈ holders) (hn : count r = some n) :
    Counted (Function.update count r (some (if n = 0 then 1 else n))) holders := by
  intro q hq
  by_cases he : q = r
  · subst he
    have hc := h.exact hr hn
    refine ⟨_, Function.update_self .., by omega, ?_⟩
    have hpos := List.count_pos_iff.mpr hr
    omega
  · rw [Function.update_of_ne he]
    exact h q hq

/-- A reference goes: the cell goes with it exactly when it was the last one. -/
theorem Counted.release (h : Counted count (r :: holders)) (hn : count r = some n) :
    (n - 1 ≤ 0 ↔ r ∉ holders) ∧
      Counted (Function.update count r (if n - 1 ≤ 0 then none else some (n - 1))) holders := by
  obtain ⟨m, hm, h0, hc⟩ := h r List.mem_cons_self
  obtain rfl := Option.some.inj (hn.symm.trans hm)
  rw [List.count_cons_self] at hc
  push_cast at hc
  have hlast : n - 1 ≤ 0 ↔ r ∉ holders := by
    rw [← List.count_eq_zero]
    omega
  refine ⟨hlast, fun q hq => ?_⟩
  by_cases he : q = r
  · subst he
    have hpos : ¬ n - 1 ≤ 0 := fun hle => hlast.mp hle hq
    refine ⟨n - 1, by rw [Function.update_self, if_neg hpos], by omega, by omega⟩
  · obtain ⟨m, hm, h0, hc⟩ := h q (List.mem_cons_of_mem r hq)
    rw [List.count_cons_of_ne (Ne.symm he)] at hc
    exact ⟨m, by rw [Function.update_of_ne he]; exact hm, h0, hc⟩

end RefCount
