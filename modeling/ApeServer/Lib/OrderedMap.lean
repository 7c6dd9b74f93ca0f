import Mathlib.Tactic

/-!
# Ordered maps

Association lists in which a key keeps the place where it was first set. `setFirst` writes to
the first entry whose key passes a test. With equality as the test this is an ordered map, and
any other test makes the same list as long as no entry passes it for a key that is not there.
-/
namespace OrderedMap

variable {K V : Type*}

def keys (m : List (K × V)) : List K := m.map Prod.fst

/-- The first entry that passes gets the key and the value, else there is a new one. -/
def setFirst (p : K → Bool) (k : K) (v : V) : List (K × V) → List (K × V)
  | [] => [(k, v)]
  | e :: m => if p e.1 then (k, v) :: m else e :: setFirst p k v m

/-- The entries after a sequence of settings; `test a k` says that the entry of `a` is the one
for `k`. -/
def run (test : K → K → Bool) (calls : List (K × V)) : List (K × V) :=
  calls.foldl (fun m c => setFirst (test · c.1) c.1 c.2 m) []

theorem run_snoc (test : K → K → Bool) (calls : List (K × V)) (c : K × V) :
    run test (calls ++ [c]) = setFirst (test · c.1) c.1 c.2 (run test calls) := by
  simp [run]

theorem setFirst_of_forall_not {p : K → Bool} {k : K} {v : V} {m : List (K × V)}
    (h : ∀ a ∈ keys m, p a = false) : setFirst p k v m = m ++ [(k, v)] := by
  induction m with
  | nil => rfl
  | cons e m ih =>
    have he : p e.1 = false := h e.1 List.mem_cons_self
    have ht := ih fun a ha => h a (List.mem_cons_of_mem e.1 ha)
    simp [setFirst, he, ht]

section Test

variable {test : K → K → Bool}

/-- When a key is set for the first time, no entry passes the test for it. -/
def Clear (test : K → K → Bool) (calls : List (K × V)) : Prop :=
  ∀ pre c post, calls = pre ++ c :: post → c.1 ∉ keys pre → ∀ a ∈ keys pre, test a c.1 = false

theorem Clear.nil : Clear test ([] : List (K × V)) := by
  intro pre c post h
  simp at h

theorem clear_snoc (calls : List (K × V)) (c : K × V) :
    Clear test (calls ++ [c]) ↔
      Clear test calls ∧ (c.1 ∉ keys calls → ∀ a ∈ keys calls, test a c.1 = false) := by
  constructor
  · intro h
    refine ⟨?_, h calls c [] rfl⟩
    intro pre d post hd
    exact h pre d (post ++ [c]) (by rw [hd, List.append_assoc, List.cons_append])
  · rintro ⟨h, hc⟩ pre d post hd
    rcases List.eq_nil_or_concat post with rfl | ⟨post', e, rfl⟩
    · obtain ⟨rfl, hcd⟩ := List.append_inj' hd rfl
      obtain rfl : c = d := by simpa using hcd
      exact hc
    · rw [List.concat_eq_append, ← List.cons_append, ← List.append_assoc] at hd
      exact h pre d post' (List.append_inj' hd rfl).1

/-- Somewhere the entry of one list has a smaller key than that of the other. -/
def Behind (size : K → ℕ) (m m' : List (K × V)) : Prop :=
  ∃ (i : ℕ) (a b : K), (keys m)[i]? = some a ∧ (keys m')[i]? = some b ∧ size a < size b

theorem Behind.ne {size : K → ℕ} {m m' : List (K × V)} (h : Behind size m m') : m ≠ m' := by
  rintro rfl
  obtain ⟨i, a, b, ha, hb, hlt⟩ := h
  rw [ha] at hb
  cases hb
  exact lt_irrefl _ hlt

/-- Where the key of an entry changes, the entry has passed the test. -/
theorem getElem?_keys_setFirst {p : K → Bool} {k : K} {v : V} {m : List (K × V)} {i : ℕ} {a : K}
    (h : (keys m)[i]? = some a) :
    (keys (setFirst p k v m))[i]? = some a ∨
      ((keys (setFirst p k v m))[i]? = some k ∧ p a = true) := by
  induction m generalizing i with
  | nil => simp [keys] at h
  | cons e m ih =>
    simp only [setFirst]
    split
    · next hp =>
      cases i with
      | zero =>
        obtain rfl : e.1 = a := by simpa [keys] using h
        exact .inr ⟨rfl, hp⟩
      | succ i => exact .inl h
    · cases i with
      | zero => exact .inl h
      | succ i => exact ih h

/-- The first entry that passes is the one that changes. -/
theorem exists_setFirst {p : K → Bool} {k a : K} {v : V} {m : List (K × V)} (ha : a ∈ keys m)
    (hp : p a = true) :
    ∃ (i : ℕ) (b : K), (keys m)[i]? = some b ∧ p b = true ∧ (keys (setFirst p k v m))[i]? = some k := by
  induction m with
  | nil => cases ha
  | cons e m ih =>
    simp only [setFirst]
    split
    · next he => exact ⟨0, e.1, rfl, he, rfl⟩
    · next he =>
      have hmem : a ∈ keys m := by
        rcases List.mem_cons.mp ha with rfl | h
        · exact absurd hp he
        · exact h
      obtain ⟨i, b, hb, hpb, hi⟩ := ih hmem
      exact ⟨i + 1, b, hb, hpb, hi⟩

end Test

section Map

variable [DecidableEq K] {test : K → K → Bool}

/-- The test of an ordered map. -/
def same (a k : K) : Bool := decide (a = k)

theorem keys_set (k : K) (v : V) (m : List (K × V)) :
    keys (setFirst (same · k) k v m) = if k ∈ keys m then keys m else keys m ++ [k] := by
  by_cases hk : k ∈ keys m
  · rw [if_pos hk]
    induction m with
    | nil => cases hk
    | cons e m ih =>
      by_cases he : e.1 = k
      · simp [setFirst, same, keys, he]
      · rcases List.mem_cons.mp hk with h | h
        · exact absurd h.symm he
        · have := ih h
          simp only [same, keys] at this
          simp [setFirst, same, keys, he, this]
  · rw [if_neg hk, setFirst_of_forall_not]
    · simp [keys]
    · intro a ha
      have hne : a ≠ k := fun h => hk (h ▸ ha)
      simp [same, hne]

theorem mem_keys_run (calls : List (K × V)) (k : K) :
    k ∈ keys (run same calls) ↔ k ∈ keys calls := by
  induction calls using List.reverseRecOn with
  | nil => rfl
  | append_singleton calls c ih =>
    have hc : keys (calls ++ [c]) = keys calls ++ [c.1] := by simp [keys]
    rw [run_snoc, keys_set, hc, List.mem_append, List.mem_singleton, ← ih]
    split
    · next h =>
      constructor
      · exact .inl
      · rintro (h' | rfl)
        · exact h'
        · exact h
    · rw [List.mem_append, List.mem_singleton]

/-- No entry passes the test for a key behind it. -/
theorem Clear.pairwise {calls : List (K × V)} (h : Clear test calls) :
    (keys (run same calls)).Pairwise fun a k => test a k = false := by
  induction calls using List.reverseRecOn with
  | nil => exact List.Pairwise.nil
  | append_singleton calls c ih =>
    obtain ⟨hcalls, hc⟩ := (clear_snoc calls c).mp h
    rw [run_snoc, keys_set]
    split
    · exact ih hcalls
    · next hk =>
      rw [mem_keys_run] at hk
      refine List.pairwise_append.mpr ⟨ih hcalls, List.pairwise_singleton _ _, ?_⟩
      intro a ha k hk'
      rw [List.mem_singleton.mp hk']
      exact hc hk a ((mem_keys_run calls a).mp ha)

theorem setFirst_of_pairwise (hrefl : ∀ k, test k k = true) {k : K} {v : V}
    {m : List (K × V)} (hm : (keys m).Pairwise fun a k => test a k = false) (hk : k ∈ keys m) :
    setFirst (test · k) k v m = setFirst (same · k) k v m := by
  induction m with
  | nil => cases hk
  | cons e m ih =>
    obtain ⟨he, hm⟩ := List.pairwise_cons.mp hm
    by_cases hek : e.1 = k
    · simp [setFirst, same, hek, hrefl]
    · have hmem : k ∈ keys m := by
        rcases List.mem_cons.mp hk with h | h
        · exact absurd h.symm hek
        · exact h
      simp [setFirst, same, hek, he k hmem, ih hm hmem]

variable {size : K → ℕ}

/-- A list that is behind stays behind. -/
theorem Behind.set (hsize : ∀ a k, test a k = true → a ≠ k → size k < size a) {k : K} {v v' : V}
    {m m' : List (K × V)} (h : Behind size m m') :
    Behind size (setFirst (test · k) k v m) (setFirst (same · k) k v' m') := by
  obtain ⟨i, a, b, ha, hb, hlt⟩ := h
  have hb' : (keys (setFirst (same · k) k v' m'))[i]? = some b := by
    rw [keys_set]
    split
    · exact hb
    · rw [List.getElem?_append_left (List.getElem?_eq_some_iff.mp hb).1]
      exact hb
  rcases getElem?_keys_setFirst (p := (test · k)) (k := k) (v := v) ha with h | ⟨h, htest⟩
  · exact ⟨i, a, b, h, hb', hlt⟩
  · refine ⟨i, k, b, h, hb', ?_⟩
    by_cases hak : a = k
    · rwa [← hak]
    · exact (hsize a k htest hak).trans hlt

/-- With any test that takes a key for itself and makes keys smaller otherwise, the settings
make an ordered map, or the list falls behind it for good. -/
theorem run_cases (hrefl : ∀ k, test k k = true)
    (hsize : ∀ a k, test a k = true → a ≠ k → size k < size a) (calls : List (K × V)) :
    (Clear test calls ∧ run test calls = run same calls) ∨
      (¬ Clear test calls ∧ Behind size (run test calls) (run same calls)) := by
  induction calls using List.reverseRecOn with
  | nil => exact .inl ⟨.nil, rfl⟩
  | append_singleton calls c ih =>
    rw [run_snoc, run_snoc, clear_snoc]
    rcases ih with ⟨hclear, heq⟩ | ⟨hclear, hbehind⟩
    · rw [heq]
      by_cases hk : c.1 ∈ keys calls
      · left
        refine ⟨⟨hclear, fun h => absurd hk h⟩, ?_⟩
        exact setFirst_of_pairwise hrefl hclear.pairwise ((mem_keys_run calls c.1).mpr hk)
      by_cases hno : ∀ a ∈ keys calls, test a c.1 = false
      · left
        refine ⟨⟨hclear, fun _ => hno⟩, ?_⟩
        rw [setFirst_of_forall_not, setFirst_of_forall_not]
        · intro a ha
          have hne : a ≠ c.1 := fun h => hk (h ▸ (mem_keys_run calls a).mp ha)
          simp [same, hne]
        · intro a ha
          exact hno a ((mem_keys_run calls a).mp ha)
      · right
        refine ⟨fun h => hno (h.2 hk), ?_⟩
        push Not at hno
        obtain ⟨a, ha, htest⟩ := hno
        have ha' : a ∈ keys (run same calls) := (mem_keys_run calls a).mpr ha
        have hk' : c.1 ∉ keys (run same calls) := fun h => hk ((mem_keys_run calls c.1).mp h)
        obtain ⟨i, b, hb, htb, hi⟩ := exists_setFirst (k := c.1) (v := c.2) ha'
          (p := (test · c.1)) (by simpa using htest)
        refine ⟨i, c.1, b, hi, ?_, ?_⟩
        · rw [keys_set, if_neg hk', List.getElem?_append_left (List.getElem?_eq_some_iff.mp hb).1]
          exact hb
        · apply hsize b c.1 htb
          rintro rfl
          exact hk' (List.mem_of_getElem? hb)
    · exact .inr ⟨fun h => hclear h.1, hbehind.set hsize⟩

/-- The settings make an ordered map if and only if no key is taken for one that is not there. -/
theorem run_eq_iff (hrefl : ∀ k, test k k = true)
    (hsize : ∀ a k, test a k = true → a ≠ k → size k < size a) (calls : List (K × V)) :
    run test calls = run same calls ↔ Clear test calls := by
  rcases run_cases hrefl hsize calls with ⟨hclear, heq⟩ | ⟨hclear, hbehind⟩
  · exact ⟨fun _ => hclear, fun _ => heq⟩
  · exact ⟨fun h => absurd h hbehind.ne, fun h => absurd h hclear⟩

end Map

end OrderedMap
