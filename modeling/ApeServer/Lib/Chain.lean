import Mathlib.Tactic

/-!
# Doubly linked chains

A chain is a list of cells whose `next` and `prev` links are those of the list. The
cells may live anywhere: only the two link functions matter.
-/
namespace Chain

variable {α : Type*}

/-- The cells of `l`, in order, are exactly the ones the links run through. -/
structure Linked (next prev : α → Option α) (l : List α) : Prop where
  nodup : l.Nodup
  next_eq : ∀ {i a}, l[i]? = some a → next a = l[i + 1]?
  prev_eq : ∀ {i a}, l[i]? = some a → prev a = if i = 0 then none else l[i - 1]?

variable {next prev next' prev' : α → Option α} {l l₁ l₂ : List α} {u : α}

theorem Linked.nil : Linked next prev ([] : List α) := ⟨by simp, by simp, by simp⟩

theorem Linked.congr (h : Linked next prev l) (hn : ∀ a ∈ l, next' a = next a)
    (hp : ∀ a ∈ l, prev' a = prev a) : Linked next' prev' l where
  nodup := h.nodup
  next_eq hi := (hn _ (List.mem_of_getElem? hi)).trans (h.next_eq hi)
  prev_eq hi := (hp _ (List.mem_of_getElem? hi)).trans (h.prev_eq hi)

theorem getElem?_inj (h : l.Nodup) {i j : ℕ} {a : α} (hi : l[i]? = some a)
    (hj : l[j]? = some a) : i = j := by
  obtain ⟨hi', hia⟩ := List.getElem?_eq_some_iff.mp hi
  obtain ⟨hj', hja⟩ := List.getElem?_eq_some_iff.mp hj
  exact (List.Nodup.getElem_inj_iff h).mp (hia.trans hja.symm)

theorem getLast?_iff (h : l.Nodup) {i : ℕ} {a : α} (hi : l[i]? = some a) :
    l.getLast? = some a ↔ i + 1 = l.length := by
  have hlt := (List.getElem?_eq_some_iff.mp hi).1
  rw [List.getLast?_eq_getElem?]
  constructor
  · intro hla
    have := getElem?_inj h hi hla
    omega
  · intro he
    rw [← he]
    exact hi

theorem head?_iff (h : l.Nodup) {i : ℕ} {a : α} (hi : l[i]? = some a) :
    l.head? = some a ↔ i = 0 := by
  rw [List.head?_eq_getElem?]
  constructor
  · intro hha
    exact getElem?_inj h hi hha
  · intro he
    rw [← he]
    exact hi

/-- The links of a cell in the middle of a chain. -/
theorem Linked.middle (h : Linked next prev (l₁ ++ u :: l₂)) :
    next u = l₂.head? ∧ prev u = l₁.getLast? := by
  have hu : (l₁ ++ u :: l₂)[l₁.length]? = some u := by simp
  constructor
  · rw [h.next_eq hu, List.getElem?_append_right (by omega)]
    simp [List.head?_eq_getElem?]
  · rw [h.prev_eq hu, List.getLast?_eq_getElem?]
    by_cases hz : l₁.length = 0
    · simp [List.length_eq_zero_iff.mp hz]
    · rw [if_neg hz, List.getElem?_append_left (by omega)]

/-- The two links are inverse to each other. -/
theorem Linked.next_iff_prev (h : Linked next prev l) {a b : α} (ha : a ∈ l) (hb : b ∈ l) :
    next a = some b ↔ prev b = some a := by
  obtain ⟨i, hi⟩ := List.mem_iff_getElem?.mp ha
  obtain ⟨j, hj⟩ := List.mem_iff_getElem?.mp hb
  rw [h.next_eq hi, h.prev_eq hj]
  constructor
  · intro hn
    have := getElem?_inj h.nodup hn hj
    rw [if_neg (by omega), ← this]
    simpa using hi
  · intro hp
    split at hp
    · cases hp
    · have := getElem?_inj h.nodup hp hi
      rw [← this, Nat.sub_add_cancel (by omega)]
      exact hj

variable [DecidableEq α]

/-- Links of the last cell of one chain and the first of another join the two. -/
theorem Linked.append {n₁ p₁ n₂ p₂ : α → Option α} (h₁ : Linked n₁ p₁ l₁)
    (h₂ : Linked n₂ p₂ l₂) (hd : l₁.Disjoint l₂)
    (hn₁ : ∀ a ∈ l₁, next a = if l₁.getLast? = some a then l₂.head? else n₁ a)
    (hp₁ : ∀ a ∈ l₁, prev a = p₁ a) (hn₂ : ∀ a ∈ l₂, next a = n₂ a)
    (hp₂ : ∀ a ∈ l₂, prev a = if l₂.head? = some a then l₁.getLast? else p₂ a) :
    Linked next prev (l₁ ++ l₂) where
  nodup := List.nodup_append'.mpr ⟨h₁.nodup, h₂.nodup, hd⟩
  next_eq := by
    intro i a hi
    by_cases hlt : i < l₁.length
    · rw [List.getElem?_append_left hlt] at hi
      rw [hn₁ a (List.mem_of_getElem? hi)]
      by_cases hlast : i + 1 = l₁.length
      · rw [if_pos ((getLast?_iff h₁.nodup hi).mpr hlast),
          List.getElem?_append_right (by omega), hlast]
        simp [List.head?_eq_getElem?]
      · rw [if_neg (fun he => hlast ((getLast?_iff h₁.nodup hi).mp he)), h₁.next_eq hi,
          List.getElem?_append_left (by omega)]
    · rw [List.getElem?_append_right (by omega)] at hi
      rw [hn₂ a (List.mem_of_getElem? hi), h₂.next_eq hi,
        List.getElem?_append_right (by omega)]
      congr 1
      omega
  prev_eq := by
    intro i a hi
    by_cases hlt : i < l₁.length
    · rw [List.getElem?_append_left hlt] at hi
      rw [hp₁ a (List.mem_of_getElem? hi), h₁.prev_eq hi,
        List.getElem?_append_left (by omega)]
    · rw [List.getElem?_append_right (by omega)] at hi
      rw [hp₂ a (List.mem_of_getElem? hi)]
      by_cases hfirst : i = l₁.length
      · rw [if_pos ((head?_iff h₂.nodup hi).mpr (by omega)), List.getLast?_eq_getElem?, hfirst]
        by_cases hz : l₁.length = 0
        · simp [List.length_eq_zero_iff.mp hz]
        · rw [if_neg hz, List.getElem?_append_left (by omega)]
      · have hne : l₂.head? ≠ some a := fun hha => by
          have := (head?_iff h₂.nodup hi).mp hha
          omega
        rw [if_neg hne, h₂.prev_eq hi, if_neg (by omega), if_neg (by omega),
          List.getElem?_append_right (by omega)]
        congr 1
        omega

/-- The two halves of a chain are chains of their own once the links between them are cut. -/
theorem Linked.left (h : Linked next prev (l₁ ++ l₂)) :
    Linked (fun a => if l₁.getLast? = some a then none else next a) prev l₁ where
  nodup := (List.nodup_append'.mp h.nodup).1
  next_eq := by
    intro i a hi
    have hlt : i < l₁.length := (List.getElem?_eq_some_iff.mp hi).1
    have hnd := (List.nodup_append'.mp h.nodup).1
    have hn := h.next_eq (i := i) (by rw [List.getElem?_append_left hlt]; exact hi)
    by_cases hlast : i + 1 = l₁.length
    · simp [(getLast?_iff hnd hi).mpr hlast, hlast]
    · rw [if_neg (fun he => hlast ((getLast?_iff hnd hi).mp he)), hn,
        List.getElem?_append_left (by omega)]
  prev_eq := by
    intro i a hi
    have hlt : i < l₁.length := (List.getElem?_eq_some_iff.mp hi).1
    have hp := h.prev_eq (i := i) (by rw [List.getElem?_append_left hlt]; exact hi)
    rw [hp, List.getElem?_append_left (by omega)]

theorem Linked.right (h : Linked next prev (l₁ ++ l₂)) :
    Linked next (fun a => if l₂.head? = some a then none else prev a) l₂ where
  nodup := (List.nodup_append'.mp h.nodup).2.1
  next_eq := by
    intro i a hi
    have hn := h.next_eq (i := l₁.length + i)
      (by rw [List.getElem?_append_right (by omega)]; simpa using hi)
    rw [hn, List.getElem?_append_right (by omega)]
    congr 1
    omega
  prev_eq := by
    intro i a hi
    have hnd := (List.nodup_append'.mp h.nodup).2.1
    have hp := h.prev_eq (i := l₁.length + i)
      (by rw [List.getElem?_append_right (by omega)]; simpa using hi)
    by_cases hz : i = 0
    · simp [(head?_iff hnd hi).mpr hz, hz]
    · rw [if_neg (fun he => hz ((head?_iff hnd hi).mp he)), hp, if_neg (by omega), if_neg hz,
        List.getElem?_append_right (by omega)]
      congr 1
      omega

/-- Putting a fresh cell in front of a chain. -/
theorem Linked.cons (h : Linked next prev l) (hu : u ∉ l) (hn : next' u = l.head?)
    (hp : prev' u = none) (hn' : ∀ a ∈ l, next' a = next a)
    (hp' : ∀ a ∈ l, prev' a = if l.head? = some a then some u else prev a) :
    Linked next' prev' (u :: l) := by
  have hone : Linked (fun _ => none) (fun _ => none) [u] :=
    ⟨by simp, by intro i a; cases i <;> simp, by intro i a; cases i <;> simp⟩
  refine hone.append h (by simpa [List.disjoint_cons_left] using hu) ?_ ?_ hn' hp'
  · simpa using hn
  · simpa using hp

/-- Unlinking a cell: its two neighbours now point at each other. -/
theorem Linked.unlink (h : Linked next prev (l₁ ++ u :: l₂))
    (hn₁ : ∀ a ∈ l₁, next' a = if l₁.getLast? = some a then next u else next a)
    (hp₁ : ∀ a ∈ l₁, prev' a = prev a) (hn₂ : ∀ a ∈ l₂, next' a = next a)
    (hp₂ : ∀ a ∈ l₂, prev' a = if l₂.head? = some a then prev u else prev a) :
    Linked next' prev' (l₁ ++ l₂) := by
  obtain ⟨hnu, hpu⟩ := h.middle
  have hr : Linked next prev ((l₁ ++ [u]) ++ l₂) := by simpa using h
  have hd : l₁.Disjoint l₂ := by
    have := (List.nodup_append'.mp h.nodup).2.2
    exact fun a ha hb => this ha (List.mem_cons_of_mem u hb)
  refine h.left.append hr.right hd ?_ hp₁ hn₂ ?_
  · intro a ha
    rw [hn₁ a ha, hnu]
    split <;> simp_all
  · intro a ha
    rw [hp₂ a ha, hpu]
    split <;> simp_all

/-! ### Singly linked chains -/

/-- The cells of `l`, in order, are the ones that `next` runs through from `q` on. -/
def Threaded (next : α → Option α) : Option α → List α → Prop
  | q, [] => q = none
  | q, a :: l => q = some a ∧ Threaded next (next a) l

omit [DecidableEq α] in
theorem Threaded.congr {q : Option α} (h : Threaded next q l) (hn : ∀ a ∈ l, next' a = next a) :
    Threaded next' q l := by
  induction l generalizing q with
  | nil => exact h
  | cons a l ih =>
    refine ⟨h.1, ih ?_ fun b hb => hn b (List.mem_cons_of_mem a hb)⟩
    rw [hn a List.mem_cons_self]
    exact h.2

/-- Unlinking a cell: the one before it, or the start, points at the one behind it. -/
theorem Threaded.unlink {q : Option α} (h : Threaded next q (l₁ ++ u :: l₂))
    (hd : (l₁ ++ u :: l₂).Nodup)
    (hn₁ : ∀ a ∈ l₁, next' a = if l₁.getLast? = some a then next u else next a)
    (hn₂ : ∀ a ∈ l₂, next' a = next a) :
    Threaded next' (if l₁ = [] then next u else q) (l₁ ++ l₂) := by
  induction l₁ generalizing q with
  | nil =>
    rw [if_pos rfl]
    exact h.2.congr hn₂
  | cons a l₁ ih =>
    rw [if_neg (by simp)]
    refine ⟨h.1, ?_⟩
    obtain ⟨ha, hd⟩ := List.nodup_cons.mp hd
    have hnext : next' a = if l₁ = [] then next u else next a := by
      rw [hn₁ a List.mem_cons_self]
      cases l₁ with
      | nil => simp
      | cons b l₁ =>
        have hne : (b :: l₁).getLast? ≠ some a := fun he =>
          ha (List.mem_append_left _ (List.mem_of_getLast? he))
        rw [List.getLast?_cons_cons, if_neg hne, if_neg (by simp)]
    rw [hnext]
    refine ih h.2 hd fun b hb => ?_
    rw [hn₁ b (List.mem_cons_of_mem a hb)]
    cases l₁ with
    | nil => cases hb
    | cons c l₁ => rw [List.getLast?_cons_cons]

end Chain
