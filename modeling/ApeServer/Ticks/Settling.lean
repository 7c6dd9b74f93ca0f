import ApeServer.Ticks.Immediate
import ApeServer.Lib.Agenda

/-!
# Ticks without new timers

When no callback adds a timer, a tick takes what is due from the list and puts back what is to
be repeated, as if every timer were kept with the time that remains to it.
-/
namespace ApeServer.Ticks

open Sock (toInt32 toInt32_of_range)
open Agenda (Settled place due InOrder)

variable {φ : Type} {t : TicksCallback φ} {l ts : List (TicksCallback φ)} {s s' : Table φ}
  {a : Answer φ} {answers : List (Answer φ)} {cs : List (Ran φ)} {e : Entry φ}

/-- No callback adds a timer. -/
def Quiet (answers : List (Answer φ)) : Prop := ∀ a ∈ answers, a.adds = []

/-- The timers of a list with the time that remains to each. -/
def remaining (l : List (TicksCallback φ)) : List (ℤ × Entry φ) :=
  DeltaList.dues 0 (l.map TicksCallback.entry)

/-- What a call leaves of its timer. -/
def again (e : Entry φ) (a : Answer φ) : Option (ℤ × Entry φ) :=
  if a.flag (lastcall e.times) then none
  else some (e.ticks_need, { e with times := left e.times })

/-- The timer that was called, and what its callback did. -/
def Ran.taken (c : Ran φ) : Entry φ × Answer φ := (c.node.timer, c.answer)

/-- Deltas and delays are distances that an `int` holds. -/
structure InRange (l : List (TicksCallback φ)) : Prop where
  delta : Bounded l
  need : ∀ t ∈ l, 0 ≤ t.ticks_need ∧ t.ticks_need < 2 ^ 31

/-- `--timers->delta` on the first node. -/
def lower : List (TicksCallback φ) → List (TicksCallback φ)
  | [] => []
  | t :: ts => { t with delta := toInt32 (t.delta - 1) } :: ts

/-- What is taken in a tick starts with the list `l`: a delta that has run out before the tick
is as good as one that runs out in it. -/
def Starts (s : Table φ) (l : List (TicksCallback φ)) : Prop :=
  lower s.timers = l ∨ ∃ t ts, s.timers = t :: ts ∧ l = t :: ts ∧ t.delta = 0

theorem InRange.tail (h : InRange (t :: ts)) : InRange ts :=
  ⟨h.delta.tail, fun r hr => h.need r (List.mem_cons_of_mem t hr)⟩

theorem remaining_inOrder (h : Bounded l) : InOrder (remaining l) :=
  Agenda.dues_inOrder 0 fun p hp => (bounded_iff.mp h p hp).1

theorem remaining_nonneg (h : Bounded l) : ∀ p ∈ remaining l, 0 ≤ p.1 :=
  DeltaList.le_dues fun p hp => (bounded_iff.mp h p hp).1

theorem remaining_cons_zero (h : t.delta = 0) :
    remaining (t :: ts) = (0, t.timer) :: remaining ts := by
  simp [remaining, TicksCallback.entry, TicksCallback.timer, DeltaList.dues, h]

theorem timer_again (t : TicksCallback φ) (a : Answer φ) : again t.timer a =
    if a.flag (lastcall t.times) then none
    else some (t.ticks_need, { t.timer with times := left t.times }) := rfl

/-- The list behind a timer that was called. -/
def requeue (a : Answer φ) (t : TicksCallback φ) (ts : List (TicksCallback φ)) :
    List (TicksCallback φ) :=
  if a.flag (lastcall t.times) then ts
  else insert { t with times := left t.times, delta := t.ticks_need } ts

theorem call_quiet (h : a.adds = []) :
    s.call a t ts = { s with timers := Timers.bump (requeue a t ts) } := by
  simp [Table.call, requeue, h, Timers.next]

theorem remaining_insert (new : TicksCallback φ) (h₀ : 0 ≤ new.delta) (h₁ : new.delta < 2 ^ 31)
    (hl : Bounded l) : remaining (insert new l) = place (new.delta, new.timer) (remaining l) := by
  unfold remaining
  rw [insert_entry h₀ h₁ hl, Agenda.dues_insert, zero_add]
  rfl

theorem requeue_remaining (h : InRange (t :: ts)) (a : Answer φ) :
    remaining (requeue a t ts) =
      (again t.timer a).elim (remaining ts) fun p => place p (remaining ts) := by
  obtain ⟨h₀, h₁⟩ := h.need t List.mem_cons_self
  rw [timer_again, requeue]
  split
  · rfl
  · rw [remaining_insert _ h₀ h₁ h.tail.delta]
    rfl

theorem insert_need {new : TicksCallback φ} (hn : 0 ≤ new.ticks_need ∧ new.ticks_need < 2 ^ 31)
    (hl : ∀ t ∈ l, 0 ≤ t.ticks_need ∧ t.ticks_need < 2 ^ 31) :
    ∀ t ∈ insert new l, 0 ≤ t.ticks_need ∧ t.ticks_need < 2 ^ 31 := by
  intro t ht
  have hmem : t.timer ∈ (insert new l).map TicksCallback.timer := List.mem_map_of_mem ht
  rcases List.mem_cons.mp ((insert_timers new l).mem_iff.mp hmem) with he | hm
  · rw [show t.ticks_need = new.ticks_need from congrArg Entry.ticks_need he]
    exact hn
  · obtain ⟨u, hu, he⟩ := List.mem_map.mp hm
    rw [show t.ticks_need = u.ticks_need from congrArg Entry.ticks_need he.symm]
    exact hl u hu

theorem requeue_inRange (h : InRange (t :: ts)) (a : Answer φ) : InRange (requeue a t ts) := by
  obtain ⟨h₀, h₁⟩ := h.need t List.mem_cons_self
  unfold requeue
  split
  · exact h.tail
  · exact ⟨h.tail.delta.insert h₀ h₁, insert_need ⟨h₀, h₁⟩ h.tail.need⟩

/-- `timers->delta++`, and the decrement of the next turn. -/
theorem lower_bump (h : Bounded l) : lower (Timers.bump l) = l := by
  cases l with
  | nil => rfl
  | cons t ts =>
    obtain ⟨h₀, h₁⟩ := h t List.mem_cons_self
    simp only [Timers.bump, lower, toInt32_bump h₀ h₁]

/-! ### The loop -/

/-- One turn of the loop. -/
theorem processTick_turn (hs : Starts s l) (hl : InRange l) :
    (l = [] ∧ s.timers = []) ∨ ∃ t ts, l = t :: ts ∧
      (0 < t.delta ∧ (∀ answers, Table.processTick answers s =
          some ([], { s with timers := t :: ts })) ∨
        t.delta = 0 ∧ Table.processTick [] s = none ∧ ∃ d, ∀ a answers, a.adds = [] →
          Table.processTick (a :: answers) s =
            (Table.processTick answers { s with timers := Timers.bump (requeue a t ts) }).map
              fun r => (⟨{ t with delta := d }, s.ntimers, a⟩ :: r.1, r.2)) := by
  rcases hs with rfl | ⟨t, ts, hs, rfl, h₀⟩
  · cases hs : s.timers with
    | nil => exact .inl ⟨rfl, rfl⟩
    | cons u ts =>
      rw [hs, lower] at hl
      refine .inr ⟨_, _, rfl, ?_⟩
      obtain ⟨hnn, -⟩ := hl.delta _ List.mem_cons_self
      rcases hnn.lt_or_eq with hpos | hzero
      · refine .inl ⟨hpos, fun answers => ?_⟩
        unfold Table.processTick
        simp only [hs]
        rw [if_neg (not_le.mpr hpos)]
      · have hdue : toInt32 (u.delta - 1) ≤ 0 := hzero.ge
        refine .inr ⟨hzero.symm, ?_, toInt32 (u.delta - 1), fun a answers ha => ?_⟩
        · unfold Table.processTick
          simp only [hs, if_pos hdue]
        · rw [Table.processTick, hs]
          simp only [if_pos hdue, call_quiet ha]
  · have hdue : toInt32 (t.delta - 1) ≤ 0 := by
      rw [h₀]
      decide
    refine .inr ⟨t, ts, rfl, .inr ⟨h₀, ?_, toInt32 (t.delta - 1), fun a answers ha => ?_⟩⟩
    · unfold Table.processTick
      simp only [hs, if_pos hdue]
    · rw [Table.processTick, hs]
      simp only [if_pos hdue, call_quiet ha]
      rfl

/-- A tick takes what is due of the list it starts with. -/
theorem settled_of_processTick (hq : Quiet answers) (hs : Starts s l) (hl : InRange l)
    (h : s.processTick answers = some (cs, s')) :
    Settled again (remaining l) (cs.map Ran.taken) (remaining s'.timers) ∧ InRange s'.timers := by
  induction answers generalizing s l cs with
  | nil =>
    obtain ⟨rfl, hnil⟩ | ⟨t, ts, rfl, ⟨hpos, hstop⟩ | ⟨-, hnone, -⟩⟩ := processTick_turn hs hl
    · rw [Table.processTick, hnil] at h
      cases h
      rw [hnil]
      exact ⟨.stop (by simp [remaining, DeltaList.dues]), hl⟩
    · rw [hstop] at h
      cases h
      exact ⟨.stop (by simpa [remaining, TicksCallback.entry, DeltaList.dues] using hpos), hl⟩
    · rw [hnone] at h
      cases h
  | cons a answers ih =>
    obtain ⟨ha, hq⟩ := List.forall_mem_cons.mp hq
    obtain ⟨rfl, hnil⟩ | ⟨t, ts, rfl, ⟨hpos, hstop⟩ | ⟨hzero, -, d, hturn⟩⟩ :=
      processTick_turn hs hl
    · rw [Table.processTick, hnil] at h
      cases h
      rw [hnil]
      exact ⟨.stop (by simp [remaining, DeltaList.dues]), hl⟩
    · rw [hstop] at h
      cases h
      exact ⟨.stop (by simpa [remaining, TicksCallback.entry, DeltaList.dues] using hpos), hl⟩
    · rw [hturn a answers ha] at h
      obtain ⟨⟨cs', s''⟩, hrun, he⟩ := Option.map_eq_some_iff.mp h
      cases he
      have hrest := requeue_inRange hl a
      obtain ⟨hset, hrange⟩ := ih hq (.inl (lower_bump hrest.delta)) hrest hrun
      rw [requeue_remaining hl] at hset
      rw [remaining_cons_zero hzero]
      exact ⟨.take le_rfl hset, hrange⟩

/-- And it takes it, whenever that comes to an end. -/
theorem processTick_of_settled {hs : List (Entry φ × Answer φ)} {D : List (ℤ × Entry φ)}
    (hq : Quiet (hs.map Prod.snd)) (hstart : Starts s l) (hl : InRange l)
    (h : Settled again (remaining l) hs D) : ∃ cs s',
      s.processTick (hs.map Prod.snd) = some (cs, s') ∧ cs.map Ran.taken = hs ∧
        remaining s'.timers = D := by
  induction hs generalizing s l with
  | nil =>
    generalize hr : remaining l = R at h
    cases h with
    | stop hhead =>
      subst hr
      obtain ⟨rfl, hnil⟩ | ⟨t, ts, rfl, ⟨hpos, hstop⟩ | ⟨hzero, -, -⟩⟩ :=
        processTick_turn hstart hl
      · exact ⟨[], s, by rw [List.map_nil, Table.processTick, hnil], rfl, by rw [hnil]⟩
      · exact ⟨[], _, hstop [], rfl, rfl⟩
      · rw [remaining_cons_zero hzero] at hhead
        exact absurd (hhead _ rfl) (lt_irrefl 0)
  | cons c hs ih =>
    obtain ⟨e, a⟩ := c
    rw [List.map_cons] at hq
    obtain ⟨ha, hq'⟩ := List.forall_mem_cons.mp hq
    obtain ⟨rfl, hnil⟩ | ⟨t, ts, rfl, ⟨hpos, -⟩ | ⟨hzero, -, d, hturn⟩⟩ :=
      processTick_turn hstart hl
    · cases h
    · have hhead : ∀ p ∈ remaining (t :: ts), 0 < p.1 := by
        refine Settled.head_pos (remaining_inOrder hl.delta) ?_
        simpa [remaining, TicksCallback.entry, DeltaList.dues] using hpos
      cases (h.none_due hhead).1
    · rw [remaining_cons_zero hzero] at h
      cases h with
      | take _ h =>
        have hrest := requeue_inRange hl a
        rw [← requeue_remaining hl] at h
        obtain ⟨cs, s', hrun, rfl, rfl⟩ :=
          ih hq' (s := { s with timers := Timers.bump (requeue a t ts) })
            (.inl (lower_bump hrest.delta)) hrest h
        refine ⟨⟨{ t with delta := d }, s.ntimers, a⟩ :: cs, s', ?_, rfl, rfl⟩
        rw [List.map_cons, hturn a _ ha, hrun]
        rfl

/-! ### A whole tick -/

/-- A tick passes for every timer, but not if one was left without time before it. -/
def elapse {α : Type} : List (ℤ × α) → List (ℤ × α)
  | [] => []
  | p :: l => if p.1 = 0 then p :: l else (p :: l).map fun q => (q.1 - 1, q.2)

theorem elapse_cons {α : Type} (p : ℤ × α) (l : List (ℤ × α)) : elapse (p :: l) =
    if p.1 = 0 then p :: l else (p :: l).map fun q => (q.1 - 1, q.2) := rfl

theorem elapse_snd {α : Type} (l : List (ℤ × α)) : (elapse l).map Prod.snd = l.map Prod.snd := by
  cases l with
  | nil => rfl
  | cons p l =>
    rw [elapse_cons]
    split
    · rfl
    · rw [List.map_map]
      rfl

theorem starts (h : InRange s.timers) :
    ∃ l, Starts s l ∧ InRange l ∧ remaining l = elapse (remaining s.timers) := by
  cases hs : s.timers with
  | nil => exact ⟨[], .inl (by rw [hs]; rfl), ⟨by simp [Bounded], by simp⟩, rfl⟩
  | cons t ts =>
    rw [hs] at h
    by_cases h₀ : t.delta = 0
    · refine ⟨t :: ts, .inr ⟨t, ts, hs, rfl, h₀⟩, h, ?_⟩
      rw [remaining_cons_zero h₀, elapse, if_pos rfl]
    · obtain ⟨hnn, hlt⟩ := h.delta t List.mem_cons_self
      have hd : toInt32 (t.delta - 1) = t.delta - 1 := toInt32_of_range (by omega) (by omega)
      refine ⟨lower (t :: ts), .inl (by rw [hs]), ⟨fun r hr => ?_, fun r hr => ?_⟩, ?_⟩
      · rcases List.mem_cons.mp hr with rfl | hr
        · simp only [hd]
          omega
        · exact h.delta.tail r hr
      · rcases List.mem_cons.mp hr with rfl | hr
        · exact h.need t List.mem_cons_self
        · exact h.tail.need r hr
      · have hhead : (0 + t.delta : ℤ) ≠ 0 := by simpa using h₀
        have hsub : 0 + (t.delta - 1) = 0 + t.delta + -1 := by ring
        simp only [remaining, lower, List.map_cons, TicksCallback.entry, DeltaList.dues, elapse,
          if_neg hhead, hd, hsub, DeltaList.dues_add]
        rfl

/-- A tick takes what is due once it has passed for the timers. -/
theorem tick_settled (hq : Quiet answers) (hl : InRange s.timers)
    (h : s.processTick answers = some (cs, s')) :
    Settled again (elapse (remaining s.timers)) (cs.map Ran.taken) (remaining s'.timers) ∧
      InRange s'.timers := by
  obtain ⟨l, hs, hrange, he⟩ := starts hl
  rw [← he]
  exact settled_of_processTick hq hs hrange h

theorem tick_of_settled {hs : List (Entry φ × Answer φ)} {D : List (ℤ × Entry φ)}
    (hq : Quiet (hs.map Prod.snd)) (hl : InRange s.timers)
    (h : Settled again (elapse (remaining s.timers)) hs D) : ∃ cs s',
      s.processTick (hs.map Prod.snd) = some (cs, s') ∧ cs.map Ran.taken = hs ∧
        remaining s'.timers = D := by
  obtain ⟨l, hstart, hrange, he⟩ := starts hl
  rw [← he] at h
  exact processTick_of_settled hq hstart hrange h

/-- The calls get the answers in turn. -/
theorem processTick_answers (h : s.processTick answers = some (cs, s')) :
    cs.map Ran.answer <+: answers := by
  induction answers generalizing s cs with
  | nil =>
    unfold Table.processTick at h
    split at h
    · cases h
      exact List.nil_prefix
    · simp only at h
      split at h
      · cases h
      · cases h
        exact List.nil_prefix
  | cons a answers ih =>
    unfold Table.processTick at h
    split at h
    · cases h
      exact List.nil_prefix
    · simp only at h
      split at h
      · obtain ⟨⟨cs', s''⟩, hrun, he⟩ := Option.map_eq_some_iff.mp h
        cases he
        exact List.cons_prefix_cons.mpr ⟨rfl, ih hrun⟩
      · cases h
        exact List.nil_prefix

/-! ### Timer lists -/

/-- Timers with delays that an `int` holds, each with an identifier of its own. -/
structure Sound (s : Table φ) : Prop where
  range : InRange s.timers
  numbered : Numbered s.ntimers s.entries

/-- The lists that timers are added to and taken from, with ticks in between. -/
inductive Built : Table φ → Prop
  | init : Built ⟨[], 0⟩
  | add {s : Table φ} (r : Asked φ) : Built s → Built (s.addPeriodical r)
  | del {s : Table φ} (k : ℕ) : Built s → Built (s.delTimerIdentifier k)
  | tick {s s' : Table φ} {answers : List (Answer φ)} {cs : List (Ran φ)} : Built s →
      Quiet answers → s.processTick answers = some (cs, s') → Built s'

theorem addPeriodical_sound (h : Sound s) (r : Asked φ) : Sound (s.addPeriodical r) := by
  have hr : (r.msec : ℤ) < 2 ^ 31 := by exact_mod_cast r.range
  refine ⟨⟨h.range.delta.insert (Int.natCast_nonneg _) hr, insert_need ⟨Int.natCast_nonneg _, hr⟩
    h.range.need⟩, addPeriodical_numbered h.numbered r⟩

theorem processTick_sound (h : Sound s) (hq : Quiet answers)
    (hl : s.processTick answers = some (cs, s')) : Sound s' :=
  ⟨(tick_settled hq h.range hl).2, (ticked_of_processTick hl).numbered h.numbered⟩

theorem Built.sound (h : Built s) : Sound s := by
  induction h with
  | init => exact ⟨⟨by simp [Bounded], by simp⟩, by simp [Numbered, Table.entries]⟩
  | add r _ ih => exact addPeriodical_sound ih r
  | @del s k _ ih =>
    have hsub : ∀ t ∈ (s.delTimerIdentifier k).timers, t ∈ s.timers :=
      fun t => List.mem_of_mem_eraseP
    exact ⟨⟨fun t ht => ih.range.delta t (hsub t ht), fun t ht => ih.range.need t (hsub t ht)⟩,
      delTimerIdentifier_numbered ih.numbered k⟩
  | tick _ hq hl ih => exact processTick_sound ih hq hl

theorem again_some {p : ℤ × Entry φ} (h : again e a = some p) : a.flag (lastcall e.times) = false ∧
    p = (e.ticks_need, { e with times := left e.times }) := by
  unfold again at h
  split at h
  · cases h
  · next hf =>
    cases h
    exact ⟨by simpa using hf, rfl⟩

theorem again_identifier (e : Entry φ) (a : Answer φ) (p : ℤ × Entry φ) (h : again e a = some p) :
    p.2.identifier = e.identifier := by
  rw [(again_some h).2]

theorem remaining_snd (l : List (TicksCallback φ)) :
    (remaining l).map Prod.snd = l.map TicksCallback.timer := by
  rw [remaining, DeltaList.snd_dues, List.map_map]
  rfl

theorem elapse_inOrder {l : List (ℤ × Entry φ)} (h : InOrder l) : InOrder (elapse l) := by
  cases l with
  | nil => exact h
  | cons p l =>
    rw [elapse_cons]
    split
    · exact h
    · refine List.pairwise_map.mpr (h.imp fun {p q} hpq => ?_)
      exact Int.sub_le_sub_right hpq 1

theorem elapse_nonneg {l : List (ℤ × Entry φ)} (h : InOrder l) (h₀ : ∀ p ∈ l, 0 ≤ p.1) :
    ∀ p ∈ elapse l, 0 ≤ p.1 := by
  cases l with
  | nil => exact h₀
  | cons p l =>
    rw [elapse_cons]
    split
    · exact h₀
    · next hp =>
      have hpos : 0 < p.1 := lt_of_le_of_ne (h₀ p List.mem_cons_self) (Ne.symm hp)
      intro q hm
      obtain ⟨r, hr, rfl⟩ := List.mem_map.mp hm
      have hle : p.1 ≤ r.1 := by
        rcases List.mem_cons.mp hr with rfl | hr
        · exact le_rfl
        · exact h.le r hr
      simp only
      omega

end ApeServer.Ticks
