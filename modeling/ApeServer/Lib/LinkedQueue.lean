import Mathlib.Tactic

/-!
# Singly linked queues

A queue kept as a head, a foot and one link in each cell. The cells may live anywhere:
only the link function and the two ends matter.
-/
namespace LinkedQueue

variable {α : Type*}

/-- Following the links from `p` meets the cells of `l` and then the end. -/
def Path (next : α → Option α) : Option α → List α → Prop
  | p, [] => p = none
  | p, a :: l => p = some a ∧ Path next (next a) l

variable {next next' : α → Option α} {p head foot : Option α} {a : α} {l : List α}

theorem Path.congr (h : Path next p l) (hn : ∀ b ∈ l, next' b = next b) : Path next' p l := by
  induction l generalizing p with
  | nil => exact h
  | cons b l ih =>
    obtain ⟨hp, hl⟩ := h
    refine ⟨hp, ?_⟩
    rw [hn b List.mem_cons_self]
    exact ih hl fun c hc => hn c (List.mem_cons_of_mem b hc)

theorem Path.unique {l' : List α} (h : Path next p l) (h' : Path next p l') : l = l' := by
  induction l generalizing p l' with
  | nil =>
    obtain rfl : p = none := h
    cases l' with
    | nil => rfl
    | cons b l' => cases h'.1
  | cons a l ih =>
    obtain ⟨rfl, hl⟩ := h
    cases l' with
    | nil => cases h'
    | cons b l' =>
      obtain ⟨hb, hl'⟩ := h'
      obtain rfl : a = b := Option.some.inj hb
      rw [ih hl hl']

theorem Path.head_eq (h : Path next p l) : p = l.head? := by
  cases l with
  | nil => exact h
  | cons b l => exact h.1

/-- A cell linked behind the last one. -/
theorem Path.push {f : α} (h : Path next p l) (hl : l.getLast? = some f) (hnd : l.Nodup)
    (ha : next' a = none) (hf : next' f = some a) (hn : ∀ b ∈ l, b ≠ f → next' b = next b) :
    Path next' p (l ++ [a]) := by
  induction l generalizing p with
  | nil => cases hl
  | cons b l ih =>
    obtain ⟨hp, hrest⟩ := h
    refine ⟨hp, ?_⟩
    cases l with
    | nil =>
      obtain rfl : b = f := by simpa using hl
      rw [hf]
      exact ⟨rfl, ha⟩
    | cons c l =>
      rw [List.getLast?_cons_cons] at hl
      have hne : b ≠ f := by
        rintro rfl
        exact (List.nodup_cons.mp hnd).1 (List.mem_of_getLast? hl)
      rw [hn b List.mem_cons_self hne]
      exact ih hrest hl hnd.of_cons fun d hd => hn d (List.mem_cons_of_mem b hd)

/-- The links, the head and the foot are those of the queue `l`. -/
structure Queue (next : α → Option α) (head foot : Option α) (l : List α) : Prop where
  path : Path next head l
  foot_eq : foot = l.getLast?
  nodup : l.Nodup

namespace Queue

theorem nil : Queue next none none [] := ⟨rfl, rfl, List.nodup_nil⟩

theorem congr (h : Queue next head foot l) (hn : ∀ b ∈ l, next' b = next b) :
    Queue next' head foot l :=
  ⟨h.path.congr hn, h.foot_eq, h.nodup⟩

theorem unique {l' : List α} (h : Queue next head foot l) (h' : Queue next head foot l') :
    l = l' :=
  h.path.unique h'.path

theorem head_eq (h : Queue next head foot l) : head = l.head? := h.path.head_eq

theorem foot_eq_none (h : Queue next head foot l) : foot = none ↔ l = [] := by
  rw [h.foot_eq, List.getLast?_eq_none_iff]

theorem head_eq_none (h : Queue next head foot l) : head = none ↔ l = [] := by
  rw [h.head_eq, List.head?_eq_none_iff]

theorem next_eq_none (h : Queue next head foot (a :: l)) : next a = none ↔ l = [] := by
  have hp : Path next (next a) l := h.path.2
  rw [hp.head_eq, List.head?_eq_none_iff]

/-- The first cell of an empty queue is both of its ends. -/
theorem push_empty (h : Queue next head none l) (ha : next' a = none) :
    l = [] ∧ Queue next' (some a) (some a) [a] :=
  ⟨h.foot_eq_none.mp rfl, ⟨rfl, ha⟩, rfl, List.nodup_singleton a⟩

theorem foot_mem {f : α} (h : Queue next head (some f) l) : f ∈ l :=
  List.mem_of_getLast? h.foot_eq.symm

/-- A cell is added by linking the foot to it. -/
theorem push {f : α} (h : Queue next head (some f) l) (hal : a ∉ l) (ha : next' a = none)
    (hf : next' f = some a) (hn : ∀ b ∈ l, b ≠ f → next' b = next b) :
    Queue next' head (some a) (l ++ [a]) :=
  ⟨h.path.push h.foot_eq.symm h.nodup ha hf hn, by simp,
    List.nodup_append'.mpr ⟨h.nodup, List.nodup_singleton a, by simpa using hal⟩⟩

/-- The head is taken off by following its link; the foot goes with the last cell. -/
theorem pop (h : Queue next head foot (a :: l)) :
    Queue next (next a) (if next a = none then none else foot) l := by
  have hp : Path next (next a) l := h.path.2
  refine ⟨hp, ?_, h.nodup.of_cons⟩
  rw [hp.head_eq, h.foot_eq]
  cases l with
  | nil => rfl
  | cons b l => simp

end Queue

end LinkedQueue
