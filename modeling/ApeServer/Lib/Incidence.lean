import Mathlib.Tactic

/-!
# Incidence kept twice

A relation between two kinds of records that is stored on both sides: every record holds
the list of its partners on the other side. A record that does not exist holds no list.
-/
namespace Incidence

variable {α β : Type*}

/-- Both sides list each other, each partner once. -/
structure Incident (f : α → Option (List β)) (g : β → Option (List α)) : Prop where
  left_nodup : ∀ {a l}, f a = some l → l.Nodup
  right_nodup : ∀ {b m}, g b = some m → m.Nodup
  mem_iff : ∀ a b, (∃ l, f a = some l ∧ b ∈ l) ↔ ∃ m, g b = some m ∧ a ∈ m

variable {f : α → Option (List β)} {g : β → Option (List α)} {a : α} {b : β} {l : List β}
  {m : List α}

theorem Incident.symm (h : Incident f g) : Incident g f where
  left_nodup := h.right_nodup
  right_nodup := h.left_nodup
  mem_iff b a := (h.mem_iff a b).symm

theorem Incident.empty : Incident (fun _ : α => (none : Option (List β))) fun _ => none where
  left_nodup h := by cases h
  right_nodup h := by cases h
  mem_iff a b := by simp

theorem Incident.right_of_mem (h : Incident f g) (ha : f a = some l) (hb : b ∈ l) :
    ∃ m, g b = some m ∧ a ∈ m := (h.mem_iff a b).mp ⟨l, ha, hb⟩

theorem Incident.mem_of_right (h : Incident f g) (ha : f a = some l) (hg : g b = some m)
    (hm : a ∈ m) : b ∈ l := by
  obtain ⟨l', hl', hb⟩ := (h.mem_iff a b).mpr ⟨m, hg, hm⟩
  rw [ha] at hl'
  cases hl'
  exact hb

variable [DecidableEq α]

theorem exists_update_iff {f : α → Option (List β)} {v : Option (List β)} {a' : α} {b' : β} :
    (∃ l, Function.update f a v a' = some l ∧ b' ∈ l) ↔
      if a' = a then (∃ l, v = some l ∧ b' ∈ l) else ∃ l, f a' = some l ∧ b' ∈ l := by
  by_cases h : a' = a
  · subst h
    simp
  · simp [h]

theorem update_nodup {f : α → Option (List β)} {v : List β} (hf : ∀ {a l}, f a = some l → l.Nodup)
    (hv : v.Nodup) {a' : α} {l' : List β} (h : Function.update f a (some v) a' = some l') :
    l'.Nodup := by
  by_cases he : a' = a
  · subst he
    rw [Function.update_self] at h
    cases h
    exact hv
  · rw [Function.update_of_ne he] at h
    exact hf h

variable [DecidableEq β]

/-- A new pair, at the front of both lists. -/
theorem Incident.link (h : Incident f g) (ha : f a = some l) (hb : g b = some m) (hn : b ∉ l) :
    Incident (Function.update f a (some (b :: l))) (Function.update g b (some (a :: m))) where
  left_nodup := update_nodup h.left_nodup (List.nodup_cons.mpr ⟨hn, h.left_nodup ha⟩)
  right_nodup := by
    refine update_nodup h.right_nodup (List.nodup_cons.mpr ⟨?_, h.right_nodup hb⟩)
    intro hm
    exact hn (h.mem_of_right ha hb hm)
  mem_iff a' b' := by
    rw [exists_update_iff, exists_update_iff]
    have hi := h.mem_iff a' b'
    by_cases h1 : a' = a <;> by_cases h2 : b' = b <;> simp_all

/-- A pair taken out of both lists. -/
theorem Incident.unlink (h : Incident f g) (ha : f a = some l) (hb : g b = some m) :
    Incident (Function.update f a (some (l.erase b)))
      (Function.update g b (some (m.erase a))) where
  left_nodup := update_nodup h.left_nodup ((h.left_nodup ha).erase b)
  right_nodup := update_nodup h.right_nodup ((h.right_nodup hb).erase a)
  mem_iff a' b' := by
    rw [exists_update_iff, exists_update_iff]
    have hi := h.mem_iff a' b'
    have hl := h.left_nodup ha
    have hm := h.right_nodup hb
    by_cases h1 : a' = a <;> by_cases h2 : b' = b <;>
      simp_all [hl.mem_erase_iff, hm.mem_erase_iff]

omit [DecidableEq β] in
/-- A new record without partners. -/
theorem Incident.add_left (h : Incident f g) (ha : f a = none) :
    Incident (Function.update f a (some [])) g where
  left_nodup := update_nodup h.left_nodup List.nodup_nil
  right_nodup := h.right_nodup
  mem_iff a' b' := by
    rw [exists_update_iff]
    have hi := h.mem_iff a' b'
    by_cases h1 : a' = a <;> simp_all

omit [DecidableEq β] in
/-- A record without partners goes. -/
theorem Incident.drop_left (h : Incident f g) (ha : f a = some []) :
    Incident (Function.update f a none) g where
  left_nodup {a' l'} h' := by
    by_cases he : a' = a
    · simp [he] at h'
    · rw [Function.update_of_ne he] at h'
      exact h.left_nodup h'
  right_nodup := h.right_nodup
  mem_iff a' b' := by
    rw [exists_update_iff]
    have hi := h.mem_iff a' b'
    by_cases h1 : a' = a <;> simp_all

omit [DecidableEq α] in
theorem Incident.add_right (h : Incident f g) (hb : g b = none) :
    Incident f (Function.update g b (some [])) := (h.symm.add_left hb).symm

omit [DecidableEq α] in
theorem Incident.drop_right (h : Incident f g) (hb : g b = some []) :
    Incident f (Function.update g b none) := (h.symm.drop_left hb).symm

end Incidence
