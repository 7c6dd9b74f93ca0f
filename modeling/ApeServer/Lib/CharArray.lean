import Mathlib.Tactic

/-!
# Character arrays of a fixed size

An array that is filled from its front, and the string that it holds once a terminator stands
behind what was written. An element that was never written is `none`.
-/

/-- An array of `n` characters, with the number of those written in front. -/
structure CharArray (n : ℕ) where
  val : Fin n → Option UInt8
  len : ℕ

namespace CharArray

variable {n i : ℕ} {a a' : CharArray n} {b : UInt8} {t : List UInt8}

def empty (n : ℕ) : CharArray n := ⟨fun _ => none, 0⟩

/-- The element at an index, `none` outside of the array. -/
def get (a : CharArray n) (i : ℕ) : Option UInt8 := if h : i < n then a.val ⟨i, h⟩ else none

/-- A write at an index, `none` outside of the array. -/
def store (a : CharArray n) (i : ℕ) (b : UInt8) : Option (CharArray n) :=
  if h : i < n then some { a with val := Function.update a.val ⟨i, h⟩ (some b) } else none

/-- `val[len++] = b` -/
def push (a : CharArray n) (b : UInt8) : Option (CharArray n) :=
  (a.store a.len b).map fun a => { a with len := a.len + 1 }

/-- `val[len] = '\0'` -/
def terminate (a : CharArray n) : Option (CharArray n) := a.store a.len 0

/-- The string from index `i` on, read over at most `fuel` elements. -/
def textFrom (a : CharArray n) : ℕ → ℕ → Option (List UInt8)
  | 0, _ => none
  | fuel + 1, i =>
    match a.get i with
    | none => none
    | some b => if b = 0 then some [] else (a.textFrom fuel (i + 1)).map (b :: ·)

/-- The string in the array. -/
def text (a : CharArray n) : Option (List UInt8) := a.textFrom n 0

/-- The characters of `t` were written in front. -/
structure Holds (a : CharArray n) (t : List UInt8) : Prop where
  len : a.len = t.length
  get : ∀ i, i < t.length → a.get i = t[i]?

theorem holds_empty : (empty n).Holds [] := ⟨rfl, by simp⟩

theorem store_spec (h : a.store i b = some a') :
    a'.len = a.len ∧ a'.get i = some b ∧ ∀ j, j ≠ i → a'.get j = a.get j := by
  unfold store at h
  split at h
  · next hi =>
    cases h
    refine ⟨rfl, by simp [CharArray.get, hi], fun j hj => ?_⟩
    unfold CharArray.get
    split
    · have hne : (⟨j, ‹_›⟩ : Fin n) ≠ ⟨i, hi⟩ := fun he => hj (congrArg Fin.val he)
      exact Function.update_of_ne hne _ _
    · rfl
  · cases h

theorem store_ok (a : CharArray n) (h : i < n) (b : UInt8) : ∃ a', a.store i b = some a' :=
  ⟨_, dif_pos h⟩

/-- What was written before stays in front. -/
theorem Holds.store (h : a.Holds t) (hs : a.store a.len b = some a') :
    (∀ i, i < t.length → a'.get i = t[i]?) ∧ a'.len = t.length ∧ a'.get t.length = some b := by
  obtain ⟨hlen, hb, hother⟩ := store_spec hs
  rw [h.len] at hlen hb hother
  refine ⟨fun i hi => ?_, hlen, hb⟩
  rw [hother i (by omega)]
  exact h.get i hi

theorem Holds.push (h : a.Holds t) (hn : t.length < n) (b : UInt8) :
    ∃ a', a.push b = some a' ∧ a'.Holds (t ++ [b]) := by
  obtain ⟨a', ha'⟩ := a.store_ok (i := a.len) (by rw [h.len]; exact hn) b
  obtain ⟨hget, hlen, hb⟩ := h.store ha'
  refine ⟨{ a' with len := a'.len + 1 }, by simp [CharArray.push, ha'], ?_, fun i hi => ?_⟩
  · simp [hlen]
  · change a'.get i = _
    rw [List.length_append, List.length_singleton] at hi
    by_cases he : i = t.length
    · subst he
      simpa using hb
    · rw [List.getElem?_append_left (by omega)]
      exact hget i (by omega)

theorem textFrom_eq (hget : ∀ i, i < t.length → a.get i = t[i]?) (h0 : 0 ∉ t)
    (hend : a.get t.length = some 0) (fuel : ℕ) (i : ℕ) (hi : i ≤ t.length)
    (hf : t.length < i + fuel) : a.textFrom fuel i = some (t.drop i) := by
  induction fuel generalizing i with
  | zero => omega
  | succ fuel ih =>
    by_cases he : i = t.length
    · subst he
      simp [textFrom, hend]
    · have hlt : i < t.length := by omega
      have hne : t[i] ≠ 0 := fun h => h0 (h ▸ List.getElem_mem hlt)
      rw [textFrom, hget i hlt, List.getElem?_eq_getElem hlt]
      dsimp only
      rw [if_neg hne, ih (i + 1) (by omega) (by omega), Option.map_some,
        ← List.drop_eq_getElem_cons hlt]

/-- A terminator makes a string of what was written. -/
theorem Holds.terminate (h : a.Holds t) (h0 : 0 ∉ t) (hn : t.length < n) :
    ∃ a', a.terminate = some a' ∧ a'.text = some t ∧ a'.len = t.length := by
  obtain ⟨a', ha'⟩ := a.store_ok (i := a.len) (by rw [h.len]; exact hn) 0
  obtain ⟨hget, hlen, hend⟩ := h.store ha'
  exact ⟨a', ha', textFrom_eq hget h0 hend n 0 (by omega) (by omega), hlen⟩

end CharArray
