import Mathlib.Tactic

/-!
# Delta lists

A list of entries in the order of their deadlines, each with the distance from the entry
before it. The deadlines themselves are the sums of the distances.
-/
namespace DeltaList

variable {α : Type*}

/-- An entry at distance `d` from the start of the list, before those with the same deadline. -/
def insert (d : ℤ) (a : α) : List (ℤ × α) → List (ℤ × α)
  | [] => [(d, a)]
  | (e, b) :: l => if d ≤ e then (d, a) :: (e - d, b) :: l else (e, b) :: insert (d - e) a l

/-- The entries with their deadlines, the start of the list being at `now`. -/
def dues (now : ℤ) : List (ℤ × α) → List (ℤ × α)
  | [] => []
  | (d, a) :: l => (now + d, a) :: dues (now + d) l

/-- Inserting adds one deadline and changes no other. -/
theorem dues_insert (now d : ℤ) (a : α) (l : List (ℤ × α)) :
    (dues now (insert d a l)).Perm ((now + d, a) :: dues now l) := by
  induction l generalizing now d with
  | nil => exact .refl _
  | cons p l ih =>
    obtain ⟨e, b⟩ := p
    unfold insert
    split
    · have he : now + d + (e - d) = now + e := by ring
      simp only [dues, he]
      exact .refl _
    · have hd : now + e + (d - e) = now + d := by ring
      simp only [dues]
      have := (ih (now + e) (d - e)).cons (now + e, b)
      rw [hd] at this
      exact this.trans (.swap _ _ _)

theorem snd_dues (now : ℤ) (l : List (ℤ × α)) : (dues now l).map Prod.snd = l.map Prod.snd := by
  induction l generalizing now with
  | nil => rfl
  | cons p l ih => simp [dues, ih]

/-- The distances stay within the bounds they and the new one have. -/
theorem insert_range {m d : ℤ} {a : α} {l : List (ℤ × α)} (hd : 0 ≤ d) (hm : d ≤ m)
    (hl : ∀ p ∈ l, 0 ≤ p.1 ∧ p.1 ≤ m) : ∀ p ∈ insert d a l, 0 ≤ p.1 ∧ p.1 ≤ m := by
  induction l generalizing d with
  | nil =>
    intro p hp
    rw [insert, List.mem_singleton] at hp
    subst hp
    exact ⟨hd, hm⟩
  | cons q l ih =>
    obtain ⟨h0, h1⟩ := hl q List.mem_cons_self
    have hl' : ∀ p ∈ l, 0 ≤ p.1 ∧ p.1 ≤ m := fun p hp => hl p (List.mem_cons_of_mem q hp)
    intro p hp
    unfold insert at hp
    split at hp
    · rcases List.mem_cons.mp hp with rfl | hp
      · exact ⟨hd, hm⟩
      · rcases List.mem_cons.mp hp with rfl | hp
        · exact ⟨by simpa, by simp only; omega⟩
        · exact hl' p hp
    · rcases List.mem_cons.mp hp with rfl | hp
      · exact ⟨h0, h1⟩
      · exact ih (by omega) (by omega) hl' p hp

/-- No deadline is before the start of the list. -/
theorem le_dues {now : ℤ} {l : List (ℤ × α)} (hl : ∀ p ∈ l, 0 ≤ p.1) :
    ∀ p ∈ dues now l, now ≤ p.1 := by
  induction l generalizing now with
  | nil => simp [dues]
  | cons q l ih =>
    have h0 := hl q List.mem_cons_self
    intro p hp
    rcases List.mem_cons.mp hp with rfl | hp
    · simpa
    · have := ih (fun p hp => hl p (List.mem_cons_of_mem q hp)) p hp
      omega

/-- With the start of the list every deadline moves. -/
theorem dues_add (now c : ℤ) (l : List (ℤ × α)) :
    dues (now + c) l = (dues now l).map fun p => (p.1 + c, p.2) := by
  induction l generalizing now with
  | nil => rfl
  | cons p l ih =>
    obtain ⟨d, a⟩ := p
    have hd : now + c + d = now + d + c := by ring
    rw [dues, dues, hd, ih, List.map_cons]

end DeltaList
