import Mathlib.Tactic

/-!
# Keyed lists

A list of entries is searched from the front for the first entry with a key. While the keys
differ the list is a map, and a change of its first entry with a key is a change of the map.
-/
namespace KeyedList

variable {α K V : Type*} [DecidableEq K] {key : α → K} {k k' : K} {a b : α} {l : List α}

/-- The first entry with a key. -/
def find (key : α → K) (k : K) (l : List α) : Option α := l.find? fun a => key a = k

/-- The list without its first entry with a key. -/
def erase (key : α → K) (k : K) : List α → List α
  | [] => []
  | a :: l => if key a = k then l else a :: erase key k l

/-- An entry in the place of the first one with its key. -/
def replace (key : α → K) (b : α) : List α → List α
  | [] => []
  | a :: l => if key a = key b then b :: l else a :: replace key b l

/-! ### Finding -/

theorem find_cons : find key k (a :: l) = if key a = k then some a else find key k l := by
  by_cases h : key a = k <;> simp [find, h]

theorem find_eq_some (h : find key k l = some a) : a ∈ l ∧ key a = k :=
  ⟨List.mem_of_find?_eq_some h, by simpa using List.find?_some h⟩

theorem find_eq_none : find key k l = none ↔ k ∉ l.map key := by
  simp [find]

theorem key_mem_of_find (h : find key k l = some a) : k ∈ l.map key := by
  by_contra hk
  rw [find_eq_none.mpr hk] at h
  cases h

theorem find_of_mem (hl : (l.map key).Nodup) (ha : a ∈ l) (hk : key a = k) :
    find key k l = some a := by
  induction l with
  | nil => cases ha
  | cons b l ih =>
    obtain ⟨hb, hl⟩ := List.nodup_cons.mp hl
    rw [find_cons]
    rcases List.mem_cons.mp ha with rfl | ha
    · rw [if_pos hk]
    · have hne : key b ≠ k := fun he => hb (he.trans hk.symm ▸ List.mem_map_of_mem ha)
      rw [if_neg hne, ih hl ha]

/-! ### Replacing -/

theorem map_replace : (replace key b l).map key = l.map key := by
  induction l with
  | nil => rfl
  | cons a l ih =>
    unfold replace
    split
    · next h => rw [List.map_cons, List.map_cons, h]
    · rw [List.map_cons, List.map_cons, ih]

theorem mem_replace {c : α} (h : c ∈ replace key b l) : c = b ∨ c ∈ l := by
  induction l with
  | nil => cases h
  | cons a l ih =>
    unfold replace at h
    split at h
    · rcases List.mem_cons.mp h with rfl | h
      · exact .inl rfl
      · exact .inr (List.mem_cons_of_mem a h)
    · rcases List.mem_cons.mp h with rfl | h
      · exact .inr List.mem_cons_self
      · exact (ih h).imp_right (List.mem_cons_of_mem a)

theorem find_replace_self (h : key b ∈ l.map key) :
    find key (key b) (replace key b l) = some b := by
  induction l with
  | nil => cases h
  | cons a l ih =>
    unfold replace
    split
    · rw [find_cons, if_pos rfl]
    · next hne =>
      have hl : key b ∈ l.map key := (List.mem_cons.mp h).resolve_left (Ne.symm hne)
      rw [find_cons, if_neg hne, ih hl]

theorem find_replace_of_ne (h : k ≠ key b) : find key k (replace key b l) = find key k l := by
  induction l with
  | nil => rfl
  | cons a l ih =>
    unfold replace
    split
    · next he => rw [find_cons, find_cons, if_neg h.symm, if_neg (he ▸ h.symm)]
    · rw [find_cons, find_cons, ih]

/-- A sum over the entries exchanges the old entry for the new one. -/
theorem sum_replace (f : α → ℕ) (h : find key (key b) l = some a) :
    ((replace key b l).map f).sum + f a = (l.map f).sum + f b := by
  induction l with
  | nil => cases h
  | cons c l ih =>
    rw [find_cons] at h
    unfold replace
    split
    · next hc =>
      rw [if_pos hc] at h
      cases h
      simp only [List.map_cons, List.sum_cons]
      omega
    · next hc =>
      rw [if_neg hc] at h
      have := ih h
      simp only [List.map_cons, List.sum_cons]
      omega

theorem le_sum_of_find (f : α → ℕ) (h : find key k l = some a) : f a ≤ (l.map f).sum :=
  List.single_le_sum (fun _ _ => Nat.zero_le _) _ (List.mem_map_of_mem (find_eq_some h).1)

/-! ### Erasing -/

theorem erase_sublist : (erase key k l).Sublist l := by
  induction l with
  | nil => exact .slnil
  | cons a l ih =>
    unfold erase
    split
    · exact List.sublist_cons_self a l
    · exact ih.cons_cons a

theorem find_erase_of_ne (h : k' ≠ k) : find key k' (erase key k l) = find key k' l := by
  induction l with
  | nil => rfl
  | cons a l ih =>
    unfold erase
    split
    · next he => rw [find_cons, if_neg (he ▸ h.symm)]
    · rw [find_cons, find_cons, ih]

theorem find_erase_self (h : (l.map key).Nodup) : find key k (erase key k l) = none := by
  induction l with
  | nil => rfl
  | cons a l ih =>
    obtain ⟨ha, hl⟩ := List.nodup_cons.mp h
    unfold erase
    split
    · next he => exact find_eq_none.mpr (he ▸ ha)
    · next hne => rw [find_cons, if_neg hne, ih hl]

/-! ### The map -/

/-- A change of a map. -/
inductive Edit (K V : Type*) where
  | put (k : K) (v : V)
  | drop (k : K)
  | clear

/-- What the last `put` of a key left there. The changes are in reverse order. -/
def held : List (Edit K V) → K → Option V
  | [], _ => none
  | .put k v :: log, k' => if k' = k then some v else held log k'
  | .drop k :: log, k' => if k' = k then none else held log k'
  | .clear :: _, _ => none

/-- The list is the map that the changes make. -/
structure Holds (key : α → K) (val : α → V) (l : List α) (log : List (Edit K V)) : Prop where
  nodup : (l.map key).Nodup
  find : ∀ k, (find key k l).map val = held log k

variable {val : α → V} {log : List (Edit K V)}

namespace Holds

theorem nil : Holds key val [] [] := ⟨List.nodup_nil, fun _ => rfl⟩

theorem clear : Holds key val [] (.clear :: log) := ⟨List.nodup_nil, fun _ => rfl⟩

theorem cons (h : Holds key val l log) (ha : key a ∉ l.map key) :
    Holds key val (a :: l) (.put (key a) (val a) :: log) := by
  refine ⟨List.nodup_cons.mpr ⟨ha, h.nodup⟩, fun k => ?_⟩
  rw [find_cons, held, ← h.find k]
  by_cases hk : k = key a
  · rw [if_pos hk.symm, if_pos hk]
    rfl
  · rw [if_neg (Ne.symm hk), if_neg hk]

theorem replace (h : Holds key val l log) (hb : key b ∈ l.map key) :
    Holds key val (KeyedList.replace key b l) (.put (key b) (val b) :: log) := by
  refine ⟨by rw [map_replace]; exact h.nodup, fun k => ?_⟩
  rw [held]
  by_cases hk : k = key b
  · rw [if_pos hk, hk, find_replace_self hb]
    rfl
  · rw [if_neg hk, find_replace_of_ne hk, h.find k]

theorem erase (h : Holds key val l log) (k : K) :
    Holds key val (KeyedList.erase key k l) (.drop k :: log) := by
  refine ⟨h.nodup.sublist (erase_sublist.map key), fun k' => ?_⟩
  rw [held]
  by_cases hk : k' = k
  · rw [if_pos hk, hk, find_erase_self h.nodup]
    rfl
  · rw [if_neg hk, find_erase_of_ne hk, h.find k']

/-- To erase an entry and add it again is one change of the map. -/
theorem overwrite (h : Holds key val l log) (a : α) :
    Holds key val (a :: KeyedList.erase key (key a) l) (.put (key a) (val a) :: log) := by
  have hnew : key a ∉ (KeyedList.erase key (key a) l).map key :=
    find_eq_none.mp (find_erase_self h.nodup)
  have hcons := (h.erase (key a)).cons hnew
  refine ⟨hcons.nodup, fun k => (hcons.find k).trans ?_⟩
  rw [held, held, held]
  split <;> rfl

end Holds

end KeyedList
