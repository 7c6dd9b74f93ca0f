import ApeServer.Lib.DeltaList

/-!
# Agendas

Entries in the order of their times. What is due is taken from the front, one after the other,
and what it becomes is put back in its place.
-/
namespace Agenda

variable {α β κ : Type*}

/-- By time; entries of one time come in any order. -/
def Before (p q : ℤ × α) : Prop := p.1 ≤ q.1

instance (p q : ℤ × α) : Decidable (Before p q) := inferInstanceAs (Decidable (p.1 ≤ q.1))

instance : Std.Total (fun p q : ℤ × α => Before p q) := ⟨fun p q => le_total p.1 q.1⟩

instance : IsTrans (ℤ × α) Before := ⟨fun _ _ _ h h' => le_trans (α := ℤ) h h'⟩

def InOrder (l : List (ℤ × α)) : Prop := l.Pairwise Before

/-- An entry goes before those of the same time. -/
def place (p : ℤ × α) (l : List (ℤ × α)) : List (ℤ × α) := l.orderedInsert Before p

variable {p q : ℤ × α} {l l' l'' : List (ℤ × α)} {P : α → Bool} {r : ℤ} {a : α} {b : β}

@[simp]
theorem place_nil (p : ℤ × α) : place p [] = [p] := rfl

theorem place_cons (p q : ℤ × α) (l : List (ℤ × α)) :
    place p (q :: l) = if p.1 ≤ q.1 then p :: q :: l else q :: place p l := rfl

theorem mem_place : q ∈ place p l ↔ q = p ∨ q ∈ l := List.mem_orderedInsert Before

theorem place_inOrder (h : InOrder l) : InOrder (place p l) := List.Pairwise.orderedInsert p l h

theorem InOrder.tail (h : InOrder (p :: l)) : InOrder l := (List.pairwise_cons.mp h).2

theorem InOrder.le (h : InOrder (p :: l)) : ∀ q ∈ l, p.1 ≤ q.1 := (List.pairwise_cons.mp h).1

theorem InOrder.filter (h : InOrder l) (P : ℤ × α → Bool) : InOrder (l.filter P) :=
  List.Pairwise.sublist List.filter_sublist h

/-- An entry that no other one comes before is placed first. -/
theorem place_first (h : ∀ q ∈ l, p.1 ≤ q.1) : place p l = p :: l := by
  cases l with
  | nil => rfl
  | cons q l => rw [place_cons, if_pos (h q List.mem_cons_self)]

/-- Placing does not depend on entries that are left out. -/
theorem filter_place (hp : P p.2 = true) (hl : InOrder l) :
    (place p l).filter (fun q => P q.2) = place p (l.filter fun q => P q.2) := by
  induction l with
  | nil => simp [hp]
  | cons q l ih =>
    rw [place_cons]
    split
    · next hle =>
      rw [List.filter_cons_of_pos (by simpa using hp), place_first]
      intro q' hq'
      rcases List.mem_cons.mp (List.mem_filter.mp hq').1 with rfl | hm
      · exact hle
      · exact hle.trans (hl.le q' hm)
    · next hlt =>
      by_cases hq : P q.2 = true
      · rw [List.filter_cons_of_pos (by simpa using hq), List.filter_cons_of_pos (by simpa using hq),
          place_cons, if_neg hlt, ih hl.tail]
      · rw [List.filter_cons_of_neg (by simpa using hq), List.filter_cons_of_neg (by simpa using hq),
          ih hl.tail]

theorem filter_place_out (hp : P p.2 = false) :
    (place p l).filter (fun q => P q.2) = l.filter fun q => P q.2 := by
  induction l with
  | nil => simp [hp]
  | cons q l ih =>
    rw [place_cons]
    split
    · rw [List.filter_cons_of_neg (by simp [hp])]
    · rw [List.filter_cons, List.filter_cons, ih]

/-- The entries of a delta list are in order, and inserting places its entry. -/
theorem dues_insert (now d : ℤ) (a : α) (l : List (ℤ × α)) :
    DeltaList.dues now (DeltaList.insert d a l) = place (now + d, a) (DeltaList.dues now l) := by
  induction l generalizing now d with
  | nil => rfl
  | cons p l ih =>
    obtain ⟨e, b⟩ := p
    rw [DeltaList.insert, DeltaList.dues, place_cons]
    by_cases hle : d ≤ e
    · have he : now + d + (e - d) = now + e := by ring
      rw [if_pos hle, if_pos (by simpa using hle), DeltaList.dues, DeltaList.dues, he]
    · have hd : now + e + (d - e) = now + d := by ring
      rw [if_neg hle, if_neg (by simpa using hle), DeltaList.dues, ih, hd]

theorem dues_inOrder (now : ℤ) (hl : ∀ p ∈ l, 0 ≤ p.1) : InOrder (DeltaList.dues now l) := by
  induction l generalizing now with
  | nil => exact List.Pairwise.nil
  | cons p l ih =>
    have hl' : ∀ q ∈ l, 0 ≤ q.1 := fun q hq => hl q (List.mem_cons_of_mem p hq)
    exact List.Pairwise.cons (DeltaList.le_dues hl') (ih _ hl')

/-- What is due. -/
def due (l : List (ℤ × α)) : List α := (l.takeWhile fun p => p.1 ≤ 0).map Prod.snd

theorem due_cons (p : ℤ × α) (l : List (ℤ × α)) :
    due (p :: l) = if p.1 ≤ 0 then p.2 :: due l else [] := by
  unfold due
  rw [List.takeWhile_cons]
  by_cases hp : p.1 ≤ 0 <;> simp [hp]

theorem due_eq_nil (h : ∀ p ∈ l.head?, 0 < p.1) : due l = [] := by
  cases l with
  | nil => rfl
  | cons q l => rw [due_cons, if_neg (not_le.mpr (h q rfl))]

theorem due_place (hp : 0 < p.1) : due (place p l) = due l := by
  induction l with
  | nil =>
    rw [place_nil, due_cons, if_neg (not_le.mpr hp)]
    rfl
  | cons q l ih =>
    rw [place_cons]
    split
    · next hle => rw [due_cons, if_neg (not_le.mpr hp), due_cons, if_neg (by omega)]
    · rw [due_cons, due_cons, ih]

/-! ### Taking what is due -/

/-- The entries at the front are taken as long as they are due, with what was answered to each;
`next` says at which time an entry is to be taken again, if it is. -/
inductive Settled (next : α → β → Option (ℤ × α)) :
    List (ℤ × α) → List (α × β) → List (ℤ × α) → Prop
  | stop {l : List (ℤ × α)} : (∀ p ∈ l.head?, 0 < p.1) → Settled next l [] l
  | take {r : ℤ} {a : α} {b : β} {l l' : List (ℤ × α)} {cs : List (α × β)} : r ≤ 0 →
      Settled next ((next a b).elim l fun p => place p l) cs l' →
      Settled next ((r, a) :: l) ((a, b) :: cs) l'

namespace Settled

variable {next : α → β → Option (ℤ × α)} {cs : List (α × β)}

theorem elim_inOrder (hl : InOrder l) : InOrder ((next a b).elim l fun p => place p l) := by
  cases next a b with
  | none => exact hl
  | some p => exact place_inOrder hl

theorem head_pos (hl : InOrder l) (h : ∀ p ∈ l.head?, 0 < p.1) : ∀ p ∈ l, 0 < p.1 := by
  cases l with
  | nil => simp
  | cons q l =>
    have hq : 0 < q.1 := h q rfl
    intro p hp
    rcases List.mem_cons.mp hp with rfl | hp
    · exact hq
    · exact hq.trans_le (hl.le p hp)

/-- Nothing that is left is due. -/
theorem pos (h : Settled next l cs l') (hl : InOrder l) : InOrder l' ∧ ∀ p ∈ l', 0 < p.1 := by
  induction h with
  | stop hpos => exact ⟨hl, head_pos hl hpos⟩
  | take _ _ ih => exact ih (elim_inOrder hl.tail)

/-- What is not due stays as it is. -/
theorem ahead (h : Settled next l cs l') (hp : p ∈ l) (hpos : 0 < p.1) : p ∈ l' := by
  induction h with
  | stop _ => exact hp
  | @take r a b l l' cs hr _ ih =>
    refine ih ?_
    have hp' : p ∈ l := by
      rcases List.mem_cons.mp hp with rfl | hp
      · exact absurd hpos (not_lt.mpr hr)
      · exact hp
    cases next a b with
    | none => exact hp'
    | some q => exact mem_place.mpr (.inr hp')

/-- What is due is taken. -/
theorem taken (h : Settled next l cs l') (hl : InOrder l) (hp : p ∈ l) (hdue : p.1 ≤ 0) :
    ∃ c ∈ cs, c.1 = p.2 := by
  induction h with
  | stop hpos => exact absurd (head_pos hl hpos p hp) (not_lt.mpr hdue)
  | @take r a b l l' cs _ _ ih =>
    rcases List.mem_cons.mp hp with rfl | hp
    · exact ⟨(a, b), List.mem_cons_self, rfl⟩
    · have hp' : p ∈ (next a b).elim l fun p => place p l := by
        cases next a b with
        | none => exact hp
        | some q => exact mem_place.mpr (.inr hp)
      obtain ⟨c, hc, he⟩ := ih (elim_inOrder hl.tail) hp'
      exact ⟨c, List.mem_cons_of_mem _ hc, he⟩

/-- What is taken was due, or is what an entry that was due has become. -/
theorem was_due {key : α → κ} (hkey : ∀ a b p, next a b = some p → key p.2 = key a)
    (h : Settled next l cs l') : ∀ c ∈ cs, ∃ p ∈ l, p.1 ≤ 0 ∧ key p.2 = key c.1 := by
  induction h with
  | stop _ => simp
  | @take r a b l l' cs hr _ ih =>
    intro c hc
    rcases List.mem_cons.mp hc with rfl | hc
    · exact ⟨(r, a), List.mem_cons_self, hr, rfl⟩
    · obtain ⟨p, hp, hdue, he⟩ := ih c hc
      cases hn : next a b with
      | none =>
        rw [hn] at hp
        exact ⟨p, List.mem_cons_of_mem _ hp, hdue, he⟩
      | some q =>
        rw [hn] at hp
        rcases mem_place.mp hp with rfl | hp
        · exact ⟨(r, a), List.mem_cons_self, hr, (hkey a b p hn).symm.trans he⟩
        · exact ⟨p, List.mem_cons_of_mem _ hp, hdue, he⟩

/-- The keys of the entries stay among those there were. -/
theorem keys {key : α → κ} (hkey : ∀ a b p, next a b = some p → key p.2 = key a)
    (h : Settled next l cs l') :
    (l'.map fun p => key p.2).Subperm (l.map fun p => key p.2) := by
  induction h with
  | stop _ => exact .refl _
  | @take r a b l l' cs _ _ ih =>
    refine ih.trans ?_
    cases hn : next a b with
    | none => exact (List.sublist_cons_self _ _).subperm
    | some q =>
      have hplace : (place q l).map (fun p => key p.2) |>.Perm
          (key q.2 :: l.map fun p => key p.2) := (List.perm_orderedInsert Before q l).map _
      rw [hkey a b q hn] at hplace
      exact hplace.subperm

theorem nil_iff : Settled next l [] l' ↔ l' = l ∧ ∀ p ∈ l.head?, 0 < p.1 := by
  constructor
  · intro h
    cases h with
    | stop hpos => exact ⟨rfl, hpos⟩
  · rintro ⟨rfl, hpos⟩
    exact .stop hpos

theorem none_due (h : Settled next l cs l') (hpos : ∀ p ∈ l, 0 < p.1) : cs = [] ∧ l' = l := by
  cases h with
  | stop _ => exact ⟨rfl, rfl⟩
  | take hr _ => exact absurd (hpos _ List.mem_cons_self) (not_lt.mpr hr)

/-! ### Leaving entries out -/

section Filter

variable (hP : ∀ a b p, next a b = some p → P p.2 = P a)

include hP

/-- The entries with a property are taken as if there were no others. -/
theorem filter (h : Settled next l cs l') (hl : InOrder l) :
    Settled next (l.filter fun p => P p.2) (cs.filter fun c => P c.1)
      (l'.filter fun p => P p.2) := by
  induction h with
  | @stop l hpos =>
    refine .stop fun p hp => ?_
    have hm := List.mem_of_mem_head? hp
    exact head_pos hl hpos p (List.mem_filter.mp hm).1
  | @take r a b l l' cs hr _ ih =>
    have ih := ih (elim_inOrder hl.tail)
    cases ha : P a with
    | true =>
      rw [List.filter_cons_of_pos (by simpa using ha), List.filter_cons_of_pos (by simpa using ha)]
      refine .take hr ?_
      cases hn : next a b with
      | none =>
        rw [hn] at ih
        exact ih
      | some p =>
        rw [hn] at ih
        have hp : P p.2 = true := (hP a b p hn).trans ha
        have hplace := filter_place (P := P) hp hl.tail
        rw [Option.elim_some, hplace] at ih
        exact ih
    | false =>
      rw [List.filter_cons_of_neg (by simp [ha]), List.filter_cons_of_neg (by simp [ha])]
      cases hn : next a b with
      | none =>
        rw [hn] at ih
        exact ih
      | some p =>
        rw [hn] at ih
        have hp : P p.2 = false := (hP a b p hn).trans ha
        rw [Option.elim_some, filter_place_out hp] at ih
        exact ih

/-- Other entries do not keep them from being taken, if each can be told not to come back. -/
theorem extend {Q : β → Prop} (hend : ∀ a, ∃ b, Q b ∧ next a b = none) (hl : InOrder l)
    (hq : ∀ c ∈ cs, Q c.2) (h : Settled next (l.filter fun p => P p.2) cs l'') :
    ∃ cs' l', Settled next l cs' l' ∧ (∀ c ∈ cs', Q c.2) ∧ (cs'.filter fun c => P c.1) = cs ∧
      (l'.filter fun p => P p.2) = l'' := by
  induction hn : l.length + cs.length using Nat.strong_induction_on generalizing l cs with
  | _ n ih =>
    subst hn
    cases l with
    | nil =>
      cases h with
      | stop _ => exact ⟨[], [], .stop (by simp), by simp, rfl, rfl⟩
    | cons q l =>
      obtain ⟨r, a⟩ := q
      by_cases hr : 0 < r
      · have hpos : ∀ p ∈ (r, a) :: l, 0 < p.1 := head_pos hl (by simpa using hr)
        obtain ⟨rfl, rfl⟩ := h.none_due fun p hp => hpos p (List.mem_filter.mp hp).1
        exact ⟨[], _, .stop (by simpa using hr), by simp, rfl, rfl⟩
      · have hr : r ≤ 0 := not_lt.mp hr
        cases ha : P a with
        | true =>
          rw [List.filter_cons_of_pos (by simpa using ha)] at h
          cases h with
          | stop hpos => exact absurd (hpos _ rfl) (not_lt.mpr hr)
          | @take _ _ b _ _ cs _ h =>
            have hrest : Settled next (((next a b).elim l fun p => place p l).filter fun p => P p.2)
                cs l'' := by
              cases hn : next a b with
              | none =>
                rw [hn] at h
                exact h
              | some p =>
                rw [hn] at h
                have hp : P p.2 = true := (hP a b p hn).trans ha
                rw [Option.elim_some, filter_place hp hl.tail]
                exact h
            have hlen : ((next a b).elim l fun p => place p l).length ≤ l.length + 1 := by
              cases next a b with
              | none => exact Nat.le_succ _
              | some p => exact (List.orderedInsert_length Before l p).le
            obtain ⟨hb, hq⟩ := List.forall_mem_cons.mp hq
            obtain ⟨cs', l', hs, hq', rfl, rfl⟩ := ih _ (by simp only [List.length_cons]; omega)
              (elim_inOrder hl.tail) hq hrest rfl
            exact ⟨(a, b) :: cs', l', .take hr hs, List.forall_mem_cons.mpr ⟨hb, hq'⟩, by simp [ha],
              rfl⟩
        | false =>
          rw [List.filter_cons_of_neg (by simp [ha])] at h
          obtain ⟨b, hqb, hb⟩ := hend a
          obtain ⟨cs', l', hs, hq', rfl, rfl⟩ := ih _ (by simp) hl.tail hq h rfl
          refine ⟨(a, b) :: cs', l', .take hr ?_, List.forall_mem_cons.mpr ⟨hqb, hq'⟩,
            by simp [ha], rfl⟩
          rw [hb]
          exact hs

end Filter

/-! ### Taking everything once -/

theorem due_elim (hpos : ∀ p, next a b = some p → 0 < p.1) :
    due ((next a b).elim l fun p => place p l) = due l := by
  cases hn : next a b with
  | none => rfl
  | some p => exact due_place (hpos p hn)

/-- If no key is taken twice, then exactly what was due at first is taken, and nothing of it is
due at once again. -/
theorem once {key : α → κ} {G : α → Prop} (hkey : ∀ a b p, next a b = some p → key p.2 = key a)
    (hnext : ∀ a b p, G a → next a b = some p → G p.2 ∧ 0 ≤ p.1) (h : Settled next l cs l')
    (hl : InOrder l) (h₀ : ∀ p ∈ l, G p.2 ∧ 0 ≤ p.1) (hd : (cs.map fun c => key c.1).Nodup) :
    cs.map Prod.fst = due l ∧ ∀ c ∈ cs, ∀ p, next c.1 c.2 = some p → 0 < p.1 := by
  induction h with
  | stop hpos => exact ⟨(due_eq_nil hpos).symm, by simp⟩
  | @take r a b l l' cs hr h ih =>
    obtain ⟨hnew, hd⟩ := List.nodup_cons.mp hd
    obtain ⟨⟨ha, -⟩, hl₀⟩ := List.forall_mem_cons.mp h₀
    have hpos : ∀ p, next a b = some p → 0 < p.1 := by
      intro p hn
      by_contra hneg
      -- it would be taken first, under the same key
      have hzero : p.1 = 0 := le_antisymm (not_lt.mp hneg) (hnext a b p ha hn).2
      have hfirst : ∀ q ∈ l, p.1 ≤ q.1 := fun q hq => hzero.trans_le (hl₀ q hq).2
      rw [hn, Option.elim_some, place_first hfirst] at h
      obtain ⟨c, hc, he⟩ := h.taken (List.Pairwise.cons hfirst hl.tail) List.mem_cons_self hzero.le
      refine hnew (List.mem_map.mpr ⟨c, hc, ?_⟩)
      rw [he]
      exact hkey a b p hn
    have hrest : ∀ p ∈ (next a b).elim l fun p => place p l, G p.2 ∧ 0 ≤ p.1 := by
      cases hn : next a b with
      | none => exact hl₀
      | some q =>
        intro p hp
        rcases mem_place.mp hp with rfl | hp
        · exact hnext a b p ha hn
        · exact hl₀ p hp
    obtain ⟨hfst, hall⟩ := ih (elim_inOrder hl.tail) hrest hd
    rw [due_elim hpos] at hfst
    refine ⟨?_, fun c hc => ?_⟩
    · rw [List.map_cons, hfst, due_cons, if_pos hr]
    · rcases List.mem_cons.mp hc with rfl | hc
      · exact hpos
      · exact hall c hc

/-- Conversely it is taken once, if nothing of it is due at once again. -/
theorem of_due {bs : List β} (hlen : bs.length = (due l).length)
    (hpos : ∀ c ∈ (due l).zip bs, ∀ p, next c.1 c.2 = some p → 0 < p.1) :
    ∃ l', Settled next l ((due l).zip bs) l' := by
  induction bs generalizing l with
  | nil =>
    rw [List.zip_nil_right]
    refine ⟨l, .stop fun p hp => ?_⟩
    cases l with
    | nil => cases hp
    | cons q l =>
      cases hp
      rw [due_cons] at hlen
      split at hlen
      · cases hlen
      · next hr => exact not_le.mp hr
  | cons b bs ih =>
    cases l with
    | nil => cases hlen
    | cons q l =>
      obtain ⟨r, a⟩ := q
      rw [due_cons] at hlen hpos ⊢
      split at hlen
      · next hr =>
        rw [if_pos hr, List.zip_cons_cons] at hpos ⊢
        have hdue := due_elim (l := l) (hpos (a, b) List.mem_cons_self)
        have hrest := ih (l := (next a b).elim l fun p => place p l)
        rw [hdue] at hrest
        obtain ⟨l', hl'⟩ := hrest (Nat.succ.inj hlen) fun c hc =>
          hpos c (List.mem_cons_of_mem _ hc)
        exact ⟨l', .take hr hl'⟩
      · cases hlen

end Settled

end Agenda
