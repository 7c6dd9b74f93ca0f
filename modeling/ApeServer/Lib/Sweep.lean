import ApeServer.Lib.Chain

/-!
# Sweeping a singly linked list

A walk over cells in memory that unlinks and frees some of them on its way, with a pointer to
the last cell it has kept, and may stop at a cell.
-/
namespace Sweep

open Chain (Threaded)

structure Cell (α : Type*) where
  val : α
  next : Option ℕ

/-- A pointer to the first cell, and the memory the cells live in. -/
structure Cells (α : Type*) where
  head : Option ℕ
  mem : ℕ → Option (Cell α)

/-- What a walk does with a cell. -/
inductive Verdict where
  | drop
  | stop
  | keep
deriving DecidableEq, Repr

variable {α : Type*} {t t' : Cells α} {v : α → Verdict} {p : ℕ} {q prev : Option ℕ}
  {l l₁ l₂ before rest : List ℕ} {a : α} {as : List α} {c : Cell α}

namespace Cells

def free (t : Cells α) (p : ℕ) : Cells α := { t with mem := Function.update t.mem p none }

/-- `prev->next = q`, or `head = q` where `prev` is NULL. -/
def link (t : Cells α) (prev q : Option ℕ) : Option (Cells α) :=
  match prev with
  | none => some { t with head := q }
  | some p => (t.mem p).map fun c =>
    { t with mem := Function.update t.mem p (some { c with next := q }) }

/-- The walk from `cur` on: the cell it stops at, and the memory it leaves. `none` is the use
of a cell that is not there, or a walk that is not over after `fuel` rounds. -/
def sweep (v : α → Verdict) : ℕ → Cells α → Option ℕ → Option ℕ → Option (Option ℕ × Cells α)
  | 0, _, _, _ => none
  | _ + 1, t, none, _ => some (none, t)
  | fuel + 1, t, some cur, prev => do
    let c ← t.mem cur
    match v c.val with
    | .drop => do
      let t ← (t.free cur).link prev c.next
      sweep v fuel t c.next prev
    | .stop => return (some cur, t)
    | .keep => sweep v fuel t c.next (some cur)

/-- The walk over the whole list. -/
def walk (t : Cells α) (v : α → Verdict) (fuel : ℕ) : Option (Option ℕ × Cells α) :=
  sweep v fuel t t.head none

def nextAt (t : Cells α) (p : ℕ) : Option ℕ := (t.mem p).bind Cell.next

def content (t : Cells α) (p : ℕ) : Option α := (t.mem p).map Cell.val

/-- What the cells at some addresses hold. -/
def contents (t : Cells α) (l : List ℕ) : List α := l.filterMap t.content

/-- The cells of the list, at these addresses. -/
structure Lists (t : Cells α) (l : List ℕ) : Prop where
  chain : Threaded t.nextAt t.head l
  nodup : l.Nodup
  live : ∀ p ∈ l, t.mem p ≠ none

end Cells

/-! ### What a walk leaves -/

/-- The list without the entries that are dropped before the walk stops. -/
def swept (v : α → Verdict) : List α → List α
  | [] => []
  | a :: as =>
    match v a with
    | .drop => swept v as
    | .stop => a :: as
    | .keep => a :: swept v as

/-- The entry the walk stops at. -/
def found (v : α → Verdict) (as : List α) : Option α := as.find? fun a => v a = .stop

theorem swept_sublist (as : List α) : (swept v as).Sublist as := by
  induction as with
  | nil => exact .slnil
  | cons a as ih =>
    unfold swept
    split
    · exact ih.cons a
    · exact .refl _
    · exact ih.cons_cons a

/-- Only entries that are to be dropped are missing. -/
theorem filter_swept {f : α → Bool} (hf : ∀ a, v a = .drop → f a = false) (as : List α) :
    (swept v as).filter f = as.filter f := by
  induction as with
  | nil => rfl
  | cons a as ih =>
    unfold swept
    split
    · next h => rw [ih, List.filter_cons_of_neg (by simp [hf a h])]
    · rfl
    · rw [List.filter_cons, List.filter_cons, ih]

/-- A walk that never stops drops all that is to be dropped. -/
theorem swept_eq_filter (hv : ∀ a, v a ≠ .stop) (as : List α) :
    swept v as = as.filter fun a => v a ≠ .drop := by
  induction as with
  | nil => rfl
  | cons a as ih =>
    unfold swept
    split
    · next h => rw [ih, List.filter_cons_of_neg (by simp [h])]
    · next h => exact absurd h (hv a)
    · next h => rw [ih, List.filter_cons_of_pos (by simp [h])]

theorem found_eq_none : found v as = none ↔ ∀ a ∈ as, v a ≠ .stop := by
  simp [found]

theorem found_spec (h : found v as = some a) : a ∈ as ∧ v a = .stop :=
  ⟨List.mem_of_find?_eq_some h, by simpa using List.find?_some h⟩

/-! ### The list in memory -/

namespace Cells

theorem contents_append : t.contents (l₁ ++ l₂) = t.contents l₁ ++ t.contents l₂ :=
  List.filterMap_append

theorem contents_congr (h : ∀ p ∈ l, t'.content p = t.content p) :
    t'.contents l = t.contents l :=
  List.filterMap_congr h

theorem contents_cons (hc : t.mem p = some c) : t.contents (p :: l) = c.val :: t.contents l := by
  simp [contents, content, hc]

/-- The pointer to a cell in the list, and the one behind it. -/
theorem Lists.next (h : t.Lists (before ++ p :: rest)) (hc : t.mem p = some c) :
    c.next = rest.head? := by
  have hmid : ∀ (b : List ℕ) (q : Option ℕ), Threaded t.nextAt q (b ++ p :: rest) →
      c.next = rest.head? := by
    intro b
    induction b with
    | nil =>
      rintro q ⟨-, hq⟩
      rw [nextAt, hc, Option.bind_some] at hq
      cases rest with
      | nil => exact hq
      | cons r rest => exact hq.1
    | cons x b ih =>
      rintro q ⟨-, hq⟩
      exact ih _ hq
  exact hmid before _ h.chain

/-- A cell is freed, and the one before it, or the head, points at the one behind it. -/
theorem Lists.drop (h : t.Lists (before ++ p :: rest)) (hc : t.mem p = some c) :
    ∃ t', (t.free p).link before.getLast? c.next = some t' ∧ t'.Lists (before ++ rest) ∧
      (∀ a ∈ before ++ rest, t'.content a = t.content a) ∧ t'.mem p = none := by
  have hnodup := h.nodup
  obtain ⟨hbefore, hcons, hdisj⟩ := List.nodup_append'.mp hnodup
  obtain ⟨hp, hrest⟩ := List.nodup_cons.mp hcons
  have hpb : p ∉ before := fun hb => hdisj hb List.mem_cons_self
  have hnext : t.nextAt p = c.next := by rw [nextAt, hc]; rfl
  have hne : ∀ a ∈ before ++ rest, a ≠ p := by
    rintro a ha rfl
    rcases List.mem_append.mp ha with hb | hr
    · exact hpb hb
    · exact hp hr
  have hfree : ∀ a, a ≠ p → (t.free p).mem a = t.mem a := fun a ha => Function.update_of_ne ha _ _
  have hnd : (before ++ rest).Nodup :=
    hnodup.sublist ((List.sublist_cons_self p rest).append_left before)
  have hlive : ∀ a ∈ before ++ rest, t.mem a ≠ none := fun a ha =>
    h.live a (((List.sublist_cons_self p rest).append_left before).mem ha)
  cases hlast : before.getLast? with
  | none =>
    obtain rfl : before = [] := by simpa using hlast
    refine ⟨_, rfl, ⟨?_, hnd, ?_⟩, ?_, Function.update_self _ _ _⟩
    · have hchain : Threaded (t.free p).nextAt (if [] = [] then t.nextAt p else t.head)
          ([] ++ rest) :=
        h.chain.unlink hnodup (fun a ha => by cases ha)
          fun a ha => by rw [nextAt, nextAt, hfree a (hne a (by simpa using ha))]
      rw [if_pos rfl, hnext] at hchain
      exact hchain
    · intro a ha
      rw [hfree a (hne a ha)]
      exact hlive a ha
    · intro a ha
      rw [content, content]
      exact congrArg _ (hfree a (hne a ha))
  | some b =>
    have hb : b ∈ before := List.mem_of_getLast? hlast
    have hbp : b ≠ p := hne b (List.mem_append_left _ hb)
    obtain ⟨d, hd⟩ := Option.ne_none_iff_exists'.mp (h.live b (List.mem_append_left _ hb))
    have hlink : (t.free p).link (some b) c.next = some { t.free p with
        mem := Function.update (t.free p).mem b (some { d with next := c.next }) } := by
      rw [link, hfree b hbp, hd]
      rfl
    refine ⟨_, hlink, ⟨?_, hnd, ?_⟩, ?_, ?_⟩
    · have hchain : Threaded (fun a => if b = a then c.next else t.nextAt a)
          (if before = [] then t.nextAt p else t.head) (before ++ rest) := by
        refine h.chain.unlink hnodup (fun a ha => ?_) fun a ha => ?_
        · rw [hlast, hnext]
          simp
        · have hba : b ≠ a := fun he => hdisj hb (he ▸ List.mem_cons_of_mem p ha)
          rw [if_neg hba]
      rw [if_neg (List.ne_nil_of_mem hb)] at hchain
      refine hchain.congr fun a ha => ?_
      by_cases hba : b = a
      · subst hba
        simp [nextAt]
      · have hab : a ≠ b := fun he => hba he.symm
        simp [nextAt, hba, hab, hfree a (hne a ha)]
    · intro a ha
      by_cases hab : a = b
      · subst hab
        simp
      · change Function.update (t.free p).mem b _ a ≠ none
        rw [Function.update_of_ne hab, hfree a (hne a ha)]
        exact hlive a ha
    · intro a ha
      by_cases hab : a = b
      · subst hab
        simp [content, hd]
      · rw [content, content]
        exact congrArg _ ((Function.update_of_ne hab _ _).trans (hfree a (hne a ha)))
    · exact (Function.update_of_ne hbp.symm _ _).trans (Function.update_self _ _ _)

/-- The walk from a cell in the list on, where all cells before it were kept. -/
theorem Lists.sweep (v : α → Verdict) (h : t.Lists (before ++ rest)) {fuel : ℕ}
    (hf : rest.length < fuel) : ∃ r t' l, sweep v fuel t rest.head? before.getLast? = some (r, t') ∧
      t'.Lists (before ++ l) ∧
      t'.contents (before ++ l) = t.contents before ++ swept v (t.contents rest) ∧
      r.bind t'.content = found v (t.contents rest) ∧ ∀ p, r = some p → p ∈ l := by
  induction rest generalizing t before fuel with
  | nil =>
    obtain ⟨fuel, rfl⟩ : ∃ n, fuel = n + 1 := ⟨fuel - 1, by omega⟩
    refine ⟨none, t, [], rfl, h, ?_, rfl, fun p hp => by cases hp⟩
    rw [contents_append]
    rfl
  | cons p rest ih =>
    obtain ⟨fuel, rfl⟩ : ∃ n, fuel = n + 1 := ⟨fuel - 1, by omega⟩
    rw [List.length_cons] at hf
    obtain ⟨c, hc⟩ := Option.ne_none_iff_exists'.mp (h.live p (by simp))
    have hnext := h.next hc
    rw [contents_cons hc, List.head?_cons, Cells.sweep, hc, Option.bind_eq_bind, Option.bind_some]
    cases hv : v c.val with
    | drop =>
      obtain ⟨t', hlink, hlists, hsame, -⟩ := h.drop hc
      obtain ⟨r, t'', l, hrun, hl, hcont, hr, hmem⟩ := ih hlists (by omega : rest.length < fuel)
      have hb : t'.contents before = t.contents before :=
        contents_congr fun a ha => hsame a (List.mem_append_left _ ha)
      have hrest : t'.contents rest = t.contents rest :=
        contents_congr fun a ha => hsame a (List.mem_append_right _ ha)
      refine ⟨r, t'', l, ?_, hl, ?_, ?_, hmem⟩
      · dsimp only
        rw [hlink, Option.bind_eq_bind, Option.bind_some, hnext]
        exact hrun
      · rw [hcont, hb, hrest, swept, hv]
      · rw [hr, hrest, found, found, List.find?_cons_of_neg (by simp [hv])]
    | stop =>
      refine ⟨some p, t, p :: rest, rfl, h, ?_, ?_, ?_⟩
      · rw [contents_append, contents_cons hc, swept, hv]
      · rw [Option.bind_some, content, hc, found, List.find?_cons_of_pos (by simp [hv])]
        rfl
      · intro q hq
        cases hq
        exact List.mem_cons_self
    | keep =>
      have h' : t.Lists ((before ++ [p]) ++ rest) := by simpa using h
      obtain ⟨r, t', l, hrun, hl, hcont, hr, hmem⟩ := ih h' (by omega : rest.length < fuel)
      rw [List.getLast?_concat] at hrun
      rw [List.append_assoc, List.singleton_append] at hl hcont
      refine ⟨r, t', p :: l, ?_, hl, ?_, ?_, fun q hq => List.mem_cons_of_mem p (hmem q hq)⟩
      · dsimp only
        rw [hnext]
        exact hrun
      · rw [hcont, contents_append, contents_cons hc, List.append_assoc, swept, hv]
        rfl
      · rw [hr, found, found, List.find?_cons_of_neg (by simp [hv])]

theorem Lists.head (h : t.Lists l) : t.head = l.head? := by
  cases l with
  | nil => exact h.chain
  | cons p l => exact h.chain.1

/-- The walk over the whole list leaves the swept list, and finds what is to be found. -/
theorem Lists.walk (v : α → Verdict) (h : t.Lists l) {fuel : ℕ} (hf : l.length < fuel) :
    ∃ r t' l', t.walk v fuel = some (r, t') ∧ t'.Lists l' ∧
      t'.contents l' = swept v (t.contents l) ∧ r.bind t'.content = found v (t.contents l) ∧
      ∀ p, r = some p → p ∈ l' := by
  have h' : t.Lists ([] ++ l) := h
  obtain ⟨r, t', l', hrun, hl, hcont, hr, hmem⟩ := h'.sweep v hf
  refine ⟨r, t', l', ?_, hl, hcont, hr, hmem⟩
  rw [Cells.walk, h.head]
  exact hrun

end Cells

end Sweep
