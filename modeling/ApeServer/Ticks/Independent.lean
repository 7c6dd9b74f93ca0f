import ApeServer.Ticks.Settling

/-!
# What timers do to each other

A tick passes for all timers alike unless one was left without time before it. Such a timer
holds the others up by one tick.
-/
namespace ApeServer.Ticks

open Sock (toInt32 toInt32_of_range)
open Agenda (Settled place InOrder mem_place)

variable {φ : Type} {s s' s₁ s₂ : Table φ} {t : TicksCallback φ} {l ts : List (TicksCallback φ)}
  {a : Answer φ} {r : Asked φ} {answers : List (Answer φ)} {cs : List (Ran φ)} {e : Entry φ}
  {D : List (ℤ × Entry φ)} {k n : ℕ}

/-- A timer is left without time before the next tick. -/
def Immediate (l : List (TicksCallback φ)) : Prop := ∃ t ts, l = t :: ts ∧ t.delta = 0

/-- The time that remains to a timer goes down by one, unless it is called. -/
def Lowered (s : Table φ) (cs : List (Ran φ)) (s' : Table φ) : Prop :=
  ∀ p ∈ remaining s.timers, (∀ c ∈ cs, c.node.identifier ≠ p.2.identifier) →
    (p.1 - 1, p.2) ∈ remaining s'.timers

/-- Ticks in which no callback adds a timer, with the timers they call. -/
inductive Runs : Table φ → List (List (Entry φ × Answer φ)) → Table φ → Prop
  | nil {s : Table φ} : Runs s [] s
  | tick {s s₁ s' : Table φ} {answers : List (Answer φ)} {cs : List (Ran φ)}
      {css : List (List (Entry φ × Answer φ))} : Quiet answers →
      s.processTick answers = some (cs, s₁) → Runs s₁ css s' →
      Runs s (cs.map Ran.taken :: css) s'

/-- The timer is another one than `k`. -/
def isOther (k : ℕ) (e : Entry φ) : Bool := e.identifier ≠ k

/-- The calls of the other timers. -/
def others (k : ℕ) (cs : List (Entry φ × Answer φ)) : List (Entry φ × Answer φ) :=
  cs.filter fun c => isOther k c.1

/-- A timer is added, and the others are called in the same ticks as without it. -/
def Undisturbed (s : Table φ) (r : Asked φ) : Prop :=
  ∀ css, (∃ s', Runs s css s') ↔
    ∃ css' s', Runs (s.addPeriodical r) css' s' ∧ css'.map (others s.ntimers) = css

/-! ### Remaining times -/

theorem remaining_cons (t : TicksCallback φ) (ts : List (TicksCallback φ)) :
    remaining (t :: ts) =
      (t.delta, t.timer) :: (remaining ts).map fun p => (p.1 + t.delta, p.2) := by
  rw [remaining, List.map_cons, TicksCallback.entry, DeltaList.dues, DeltaList.dues_add, zero_add]
  rfl

theorem immediate_iff (h : Bounded l) : Immediate l ↔ ∃ p ∈ remaining l, p.1 = 0 := by
  constructor
  · rintro ⟨t, ts, rfl, hzero⟩
    rw [remaining_cons_zero hzero]
    exact ⟨_, List.mem_cons_self, rfl⟩
  · rintro ⟨p, hp, hzero⟩
    cases l with
    | nil => cases hp
    | cons t ts =>
      refine ⟨t, ts, rfl, le_antisymm ?_ (h t List.mem_cons_self).1⟩
      rw [remaining_cons] at hp
      rcases List.mem_cons.mp hp with rfl | hp
      · exact hzero.le
      · obtain ⟨q, hq, rfl⟩ := List.mem_map.mp hp
        have := remaining_nonneg h.tail q hq
        simp only at hzero
        omega

theorem all_zero_iff (h : Bounded l) :
    (∀ t ∈ l, t.delta = 0) ↔ ∀ p ∈ remaining l, p.1 = 0 := by
  induction l with
  | nil => simp [remaining, DeltaList.dues]
  | cons t ts ih =>
    rw [remaining_cons, List.forall_mem_cons, List.forall_mem_cons, ih h.tail]
    refine and_congr_right fun hzero => ?_
    simp [hzero]

theorem elapse_of_zero {p : ℤ × Entry φ} (hp : p ∈ D) (hzero : p.1 = 0) (h₀ : ∀ p ∈ D, 0 ≤ p.1)
    (hD : InOrder D) : elapse D = D := by
  cases D with
  | nil => rfl
  | cons q D =>
    have hq : q.1 = 0 := by
      refine le_antisymm ?_ (h₀ q List.mem_cons_self)
      rcases List.mem_cons.mp hp with rfl | hp
      · exact hzero.le
      · exact (hD.le p hp).trans hzero.le
    rw [elapse_cons, if_pos hq]

theorem elapse_of_pos (h : ∀ p ∈ D, 0 < p.1) : elapse D = D.map fun p => (p.1 - 1, p.2) := by
  cases D with
  | nil => rfl
  | cons q D => rw [elapse_cons, if_neg (h q List.mem_cons_self).ne']

theorem remaining_pos (h : Bounded l) (hn : ¬Immediate l) : ∀ p ∈ remaining l, 0 < p.1 :=
  fun p hp => lt_of_le_of_ne (remaining_nonneg h p hp) fun hzero =>
    hn ((immediate_iff h).mpr ⟨p, hp, hzero.symm⟩)

theorem not_immediate (h : ∀ p ∈ remaining l, 0 < p.1) : ¬Immediate l := by
  rintro ⟨t, ts, rfl, hzero⟩
  rw [remaining_cons_zero hzero] at h
  exact absurd (h _ List.mem_cons_self) (lt_irrefl 0)

theorem remaining_identifiers (l : List (TicksCallback φ)) :
    (remaining l).map (fun p => p.2.identifier) = (l.map TicksCallback.timer).map Entry.identifier := by
  rw [← remaining_snd, List.map_map]
  rfl

/-- Timers of one identifier are one timer. -/
theorem Sound.same {p q : ℤ × Entry φ} (h : Sound s) (hp : p ∈ remaining s.timers)
    (hq : q ∈ remaining s.timers) (hid : p.2.identifier = q.2.identifier) : p = q := by
  have hnodup : ((remaining s.timers).map fun p => p.2.identifier).Nodup := by
    rw [remaining_identifiers]
    exact h.numbered.1
  exact List.inj_on_of_nodup_map hnodup hp hq hid

/-! ### One tick -/

theorem lowered_iff (hs : Sound s) (hq : Quiet answers)
    (h : s.processTick answers = some (cs, s')) :
    Lowered s cs s' ↔ ¬Immediate s.timers ∨ ∀ t ∈ s.timers, t.delta = 0 := by
  have horder := remaining_inOrder hs.range.delta
  have hnn := remaining_nonneg hs.range.delta
  obtain ⟨hset, -⟩ := tick_settled hq hs.range h
  have hcalled : ∀ q ∈ elapse (remaining s.timers), q.1 ≤ 0 →
      ∃ c ∈ cs, c.node.identifier = q.2.identifier := by
    intro q hq hdue
    obtain ⟨c, hc, he⟩ := hset.taken (elapse_inOrder horder) hq hdue
    obtain ⟨d, hd, rfl⟩ := List.mem_map.mp hc
    exact ⟨d, hd, congrArg Entry.identifier he⟩
  constructor
  · intro hlow
    by_contra hneg
    rw [not_or, not_not, all_zero_iff hs.range.delta] at hneg
    obtain ⟨himm, hsome⟩ := hneg
    obtain ⟨p, hp, hne⟩ : ∃ p ∈ remaining s.timers, p.1 ≠ 0 := by
      by_contra hall
      exact hsome fun p hp => by_contra fun hne => hall ⟨p, hp, hne⟩
    have hpos : 0 < p.1 := lt_of_le_of_ne (hnn p hp) hne.symm
    obtain ⟨z, hz, hzero⟩ := (immediate_iff hs.range.delta).mp himm
    rw [elapse_of_zero hz hzero hnn horder] at hset
    -- it is not called, and keeps its time
    have hnot : ∀ c ∈ cs, c.node.identifier ≠ p.2.identifier := by
      intro c hc hid
      obtain ⟨q, hq, hdue, he⟩ := hset.was_due again_identifier c.taken (List.mem_map_of_mem hc)
      rw [hs.same hq hp (he.trans hid)] at hdue
      exact absurd hpos (not_lt.mpr hdue)
    have hsame := (processTick_sound hs hq h).same (hlow p hp hnot) (hset.ahead hp hpos) rfl
    have hfst := congrArg Prod.fst hsame
    simp only at hfst
    omega
  · rintro hcase p hp hnot
    rcases hcase with himm | hall
    · have hpass := elapse_of_pos (remaining_pos hs.range.delta himm)
      have hp' : (p.1 - 1, p.2) ∈ elapse (remaining s.timers) := by
        rw [hpass]
        exact List.mem_map_of_mem hp
      by_cases hdue : p.1 - 1 ≤ 0
      · obtain ⟨c, hc, hid⟩ := hcalled _ hp' hdue
        exact absurd hid (hnot c hc)
      · exact hset.ahead hp' (not_le.mp hdue)
    · have hzero := (all_zero_iff hs.range.delta).mp hall
      have hp' : p ∈ elapse (remaining s.timers) := by
        rw [elapse_of_zero hp (hzero p hp) hnn horder]
        exact hp
      obtain ⟨c, hc, hid⟩ := hcalled p hp' (hzero p hp).le
      exact absurd hid (hnot c hc)

/-! ### The timers without the one that was added -/

/-- The list `s₁` is `s₂` without the timer `k`, and a tick passes in one if it does in the
other. -/
structure Without (k : ℕ) (s₁ s₂ : Table φ) : Prop where
  left : Sound s₁
  right : Sound s₂
  same : remaining s₁.timers = (remaining s₂.timers).filter fun p => isOther k p.2
  elapsed : elapse (remaining s₁.timers) =
    (elapse (remaining s₂.timers)).filter fun p => isOther k p.2

theorem Without.of_pos (h₁ : Sound s₁) (h₂ : Sound s₂)
    (hsame : remaining s₁.timers = (remaining s₂.timers).filter fun p => isOther k p.2)
    (hpos : ∀ p ∈ remaining s₂.timers, 0 < p.1) : Without k s₁ s₂ := by
  refine ⟨h₁, h₂, hsame, ?_⟩
  have hpos₁ : ∀ p ∈ remaining s₁.timers, 0 < p.1 := by
    intro p hp
    rw [hsame] at hp
    exact hpos p (List.mem_filter.mp hp).1
  rw [elapse_of_pos hpos, elapse_of_pos hpos₁, hsame, List.filter_map]
  rfl

theorem again_others (k : ℕ) (e : Entry φ) (a : Answer φ) (p : ℤ × Entry φ)
    (h : again e a = some p) : isOther k p.2 = isOther k e := by
  rw [isOther, again_identifier e a p h, isOther]

theorem quiet_taken (hq : Quiet answers) (h : s.processTick answers = some (cs, s')) :
    ∀ c ∈ cs.map Ran.taken, c.2.adds = [] := by
  intro c hc
  obtain ⟨d, hd, rfl⟩ := List.mem_map.mp hc
  exact hq d.answer ((processTick_answers h).subset (List.mem_map_of_mem hd))

theorem quiet_of_taken {hs : List (Entry φ × Answer φ)} (h : ∀ c ∈ hs, c.2.adds = []) :
    Quiet (hs.map Prod.snd) := by
  intro a ha
  obtain ⟨c, hc, rfl⟩ := List.mem_map.mp ha
  exact h c hc

/-- A tick of the longer list is one of the shorter list. -/
theorem Without.tick (h : Without k s₁ s₂) (hq : Quiet answers)
    (hl : s₂.processTick answers = some (cs, s')) :
    ∃ answers' cs' s₁', Quiet answers' ∧ s₁.processTick answers' = some (cs', s₁') ∧
      cs'.map Ran.taken = others k (cs.map Ran.taken) ∧ Without k s₁' s' := by
  obtain ⟨hset, -⟩ := tick_settled hq h.right.range hl
  have horder := elapse_inOrder (remaining_inOrder h.right.range.delta)
  have hfilter := hset.filter (again_others k) horder
  rw [← h.elapsed] at hfilter
  have hquiet : Quiet ((others k (cs.map Ran.taken)).map Prod.snd) :=
    quiet_of_taken fun c hc => quiet_taken hq hl c (List.mem_filter.mp hc).1
  obtain ⟨cs', s₁', hrun, htaken, hsame⟩ := tick_of_settled hquiet h.left.range hfilter
  exact ⟨_, cs', s₁', hquiet, hrun, htaken, .of_pos (processTick_sound h.left hquiet hrun)
    (processTick_sound h.right hq hl) hsame (hset.pos horder).2⟩

/-- And conversely, when the timer is not repeated. -/
theorem Without.tick_back (h : Without k s₁ s₂) (hq : Quiet answers)
    (hl : s₁.processTick answers = some (cs, s')) :
    ∃ answers' cs' s₂', Quiet answers' ∧ s₂.processTick answers' = some (cs', s₂') ∧
      others k (cs'.map Ran.taken) = cs.map Ran.taken ∧ Without k s' s₂' := by
  obtain ⟨hset, -⟩ := tick_settled hq h.left.range hl
  have horder := elapse_inOrder (remaining_inOrder h.right.range.delta)
  rw [h.elapsed] at hset
  have hend : ∀ e : Entry φ, ∃ a : Answer φ, a.adds = [] ∧ again e a = none :=
    fun e => ⟨⟨[], fun _ => true⟩, rfl, rfl⟩
  obtain ⟨hs, D, hset', hadds, hothers, hsame⟩ := Settled.extend (again_others k) hend horder
    (quiet_taken hq hl) hset
  have hquiet := quiet_of_taken hadds
  obtain ⟨cs', s₂', hrun, rfl, rfl⟩ := tick_of_settled hquiet h.right.range hset'
  exact ⟨_, cs', s₂', hquiet, hrun, hothers, .of_pos (processTick_sound h.left hq hl)
    (processTick_sound h.right hquiet hrun) hsame.symm (hset'.pos horder).2⟩

theorem Without.runs {css : List (List (Entry φ × Answer φ))} (h : Without k s₁ s₂)
    (hr : Runs s₂ css s') : ∃ s₁', Runs s₁ (css.map (others k)) s₁' := by
  induction hr generalizing s₁ with
  | nil => exact ⟨s₁, .nil⟩
  | tick hq hl _ ih =>
    obtain ⟨answers', cs', s₁', hq', hl', htaken, h'⟩ := h.tick hq hl
    obtain ⟨s₁'', hr'⟩ := ih h'
    rw [List.map_cons, ← htaken]
    exact ⟨s₁'', .tick hq' hl' hr'⟩

theorem Without.runs_back {css : List (List (Entry φ × Answer φ))} (h : Without k s₁ s₂)
    (hr : Runs s₁ css s') : ∃ css' s₂', Runs s₂ css' s₂' ∧ css'.map (others k) = css := by
  induction hr generalizing s₂ with
  | nil => exact ⟨[], s₂, .nil, rfl⟩
  | tick hq hl _ ih =>
    obtain ⟨answers', cs', s₂', hq', hl', htaken, h'⟩ := h.tick_back hq hl
    obtain ⟨css', s₂'', hr', rfl⟩ := ih h'
    exact ⟨_, s₂'', .tick hq' hl' hr', by rw [List.map_cons, htaken]⟩

/-! ### Adding a timer -/

theorem remaining_add (hs : Sound s) (r : Asked φ) : remaining (s.addPeriodical r).timers =
    place (r.msec, r.timer s.ntimers) (remaining s.timers) := by
  have hr : (r.msec : ℤ) < 2 ^ 31 := by exact_mod_cast r.range
  exact remaining_insert _ (Int.natCast_nonneg _) hr hs.range.delta

theorem filter_remaining (hs : Sound s) :
    ((remaining s.timers).filter fun p => isOther s.ntimers p.2) = remaining s.timers := by
  refine List.filter_eq_self.mpr fun p hp => decide_eq_true ?_
  have hm : p.2 ∈ (remaining s.timers).map Prod.snd := List.mem_map_of_mem hp
  rw [remaining_snd] at hm
  exact (hs.numbered.lt hm).ne

/-- The new timer does not change whether the next tick passes for the others. -/
theorem add_without (hs : Sound s)
    (hr : r.msec ≠ 0 ∨ s.timers = [] ∨ Immediate s.timers) :
    Without s.ntimers s (s.addPeriodical r) := by
  have hsound := addPeriodical_sound hs r
  have hout : ((remaining (s.addPeriodical r).timers).filter fun p => isOther s.ntimers p.2) =
      remaining s.timers := by
    rw [remaining_add hs, Agenda.filter_place_out (by simp [isOther, Asked.timer]),
      filter_remaining hs]
  by_cases himm : Immediate s.timers
  · refine ⟨hs, hsound, hout.symm, ?_⟩
    obtain ⟨p, hp, hzero⟩ := (immediate_iff hs.range.delta).mp himm
    have hp' : p ∈ remaining (s.addPeriodical r).timers := by
      rw [remaining_add hs]
      exact mem_place.mpr (.inr hp)
    rw [elapse_of_zero hp hzero (remaining_nonneg hs.range.delta)
        (remaining_inOrder hs.range.delta),
      elapse_of_zero hp' hzero (remaining_nonneg hsound.range.delta)
        (remaining_inOrder hsound.range.delta), hout]
  · by_cases hzero : r.msec = 0
    · have hnil : s.timers = [] := (hr.resolve_left (not_not.mpr hzero)).resolve_right himm
      refine ⟨hs, hsound, hout.symm, ?_⟩
      rw [remaining_add hs, hnil]
      simp [remaining, DeltaList.dues, elapse, hzero, Asked.timer, isOther]
    · refine .of_pos hs hsound hout.symm fun p hp => ?_
      rw [remaining_add hs] at hp
      rcases mem_place.mp hp with rfl | hp
      · simpa using Nat.pos_of_ne_zero hzero
      · exact remaining_pos hs.range.delta himm p hp

/-! ### Ticks in which nothing is due -/

theorem runs_cons {c : List (Entry φ × Answer φ)} {css : List (List (Entry φ × Answer φ))} :
    Runs s (c :: css) s' ↔ ∃ answers cs s₁, Quiet answers ∧
      s.processTick answers = some (cs, s₁) ∧ cs.map Ran.taken = c ∧ Runs s₁ css s' := by
  constructor
  · intro h
    cases h with
    | tick hq hl hr => exact ⟨_, _, _, hq, hl, rfl, hr⟩
  · rintro ⟨answers, cs, s₁, hq, hl, rfl, hr⟩
    exact .tick hq hl hr

/-- Ticks call nobody as long as every timer has more time left. -/
theorem idle_iff (hs : Sound s) (hn : ¬Immediate s.timers) (n : ℕ) :
    (∃ s', Runs s (List.replicate n []) s') ↔ ∀ p ∈ remaining s.timers, (n : ℤ) < p.1 := by
  induction n generalizing s with
  | zero => exact ⟨fun _ => by simpa using remaining_pos hs.range.delta hn, fun _ => ⟨s, .nil⟩⟩
  | succ n ih =>
    have hpass := elapse_of_pos (remaining_pos hs.range.delta hn)
    have hnext : ∀ {s₁ : Table φ}, remaining s₁.timers = elapse (remaining s.timers) →
        ((∀ p ∈ remaining s₁.timers, (n : ℤ) < p.1) ↔
          ∀ p ∈ remaining s.timers, ((n + 1 : ℕ) : ℤ) < p.1) := by
      intro s₁ he
      rw [he, hpass, List.forall_mem_map]
      refine forall₂_congr fun p _ => ?_
      push_cast
      omega
    rw [List.replicate_succ]
    constructor
    · rintro ⟨s', hr⟩
      obtain ⟨answers, cs, s₁, hq, hl, htaken, hr⟩ := runs_cons.mp hr
      obtain ⟨hset, -⟩ := tick_settled hq hs.range hl
      rw [htaken] at hset
      obtain ⟨he, -⟩ := Settled.nil_iff.mp hset
      have hpos : ∀ p ∈ remaining s₁.timers, 0 < p.1 :=
        (hset.pos (elapse_inOrder (remaining_inOrder hs.range.delta))).2
      have hrest := (ih (processTick_sound hs hq hl) (not_immediate hpos)).mp ⟨s', hr⟩
      exact (hnext he).mp hrest
    · intro hall
      have hpos : ∀ p ∈ elapse (remaining s.timers), 0 < p.1 := by
        intro p hp
        rw [hpass] at hp
        obtain ⟨q, hq, rfl⟩ := List.mem_map.mp hp
        have hlt := hall q hq
        push_cast at hlt
        simp only
        omega
      have hset : Settled again (elapse (remaining s.timers)) [] (elapse (remaining s.timers)) :=
        .stop fun p hp => hpos p (List.mem_of_mem_head? hp)
      have hq : Quiet (([] : List (Entry φ × Answer φ)).map Prod.snd) := by simp [Quiet]
      obtain ⟨cs, s₁, hl, htaken, he⟩ := tick_of_settled hq hs.range hset
      have hn₁ : ¬Immediate s₁.timers := not_immediate (he ▸ hpos)
      obtain ⟨s', hr⟩ := (ih (processTick_sound hs hq hl) hn₁).mpr ((hnext he).mpr hall)
      exact ⟨s', runs_cons.mpr ⟨_, cs, s₁, hq, hl, htaken, hr⟩⟩

/-- A timer without a delay holds the others up, unless one does already. -/
theorem not_undisturbed (hs : Sound s) (hzero : r.msec = 0) (hne : s.timers ≠ [])
    (hn : ¬Immediate s.timers) : ¬Undisturbed s r := by
  intro h
  have hpos := remaining_pos hs.range.delta hn
  obtain ⟨q, D, hD⟩ : ∃ q D, remaining s.timers = q :: D := by
    cases hl : s.timers with
    | nil => exact absurd hl hne
    | cons t ts => exact ⟨_, _, remaining_cons t ts⟩
  have hq : 0 < q.1 := hpos q (by simp [hD])
  obtain ⟨n, hn'⟩ : ∃ n : ℕ, q.1 = n + 1 := ⟨(q.1 - 1).toNat, by omega⟩
  -- the first of them is called in the tick `n + 1`, and in the one after that with the new timer
  have hleft : ¬∃ s', Runs s (List.replicate (n + 1) []) s' := by
    rw [idle_iff hs hn]
    intro hall
    have := hall q (by simp [hD])
    push_cast at this
    omega
  refine hleft ((h _).mpr ?_)
  let a : Answer φ := ⟨[], fun _ => true⟩
  have hplace : elapse (remaining (s.addPeriodical r).timers) =
      (0, r.timer s.ntimers) :: remaining s.timers := by
    have hfirst : ∀ p ∈ remaining s.timers, ((r.msec : ℤ), r.timer s.ntimers).1 ≤ p.1 := by
      intro p hp
      simpa [hzero] using (hpos p hp).le
    rw [remaining_add hs, Agenda.place_first hfirst, elapse_cons, if_pos (by simp [hzero]), hzero]
    rfl
  have hset : Settled again (elapse (remaining (s.addPeriodical r).timers))
      [(r.timer s.ntimers, a)] (remaining s.timers) := by
    rw [hplace]
    exact .take le_rfl (.stop fun p hp => hpos p (List.mem_of_mem_head? hp))
  have hquiet : Quiet ([(r.timer s.ntimers, a)].map Prod.snd) := by simp [Quiet, a]
  have hsound := addPeriodical_sound hs r
  obtain ⟨cs, s₁, hl, htaken, he⟩ := tick_of_settled hquiet hsound.range hset
  have hn₁ : ¬Immediate s₁.timers := not_immediate (by rw [he]; exact hpos)
  obtain ⟨s', hr⟩ := (idle_iff (processTick_sound hsound hquiet hl) hn₁ n).mpr fun p hp => by
    rw [he] at hp
    have horder := remaining_inOrder hs.range.delta
    rw [hD] at hp horder
    rcases List.mem_cons.mp hp with rfl | hp
    · omega
    · have := horder.le p hp
      omega
  refine ⟨_, s', runs_cons.mpr ⟨_, cs, s₁, hquiet, hl, htaken, hr⟩, ?_⟩
  simp [others, isOther, Asked.timer, List.replicate_succ]

theorem undisturbed_iff (hs : Sound s) (r : Asked φ) :
    Undisturbed s r ↔ r.msec ≠ 0 ∨ s.timers = [] ∨ Immediate s.timers := by
  constructor
  · intro h
    by_contra hneg
    simp only [not_or, not_not] at hneg
    exact not_undisturbed hs hneg.1 hneg.2.1 hneg.2.2 h
  · intro hr css
    have hwithout := add_without hs hr
    constructor
    · rintro ⟨s', h⟩
      obtain ⟨css', s₂, h', he⟩ := hwithout.runs_back h
      exact ⟨css', s₂, h', he⟩
    · rintro ⟨css', s', h, rfl⟩
      exact hwithout.runs h

/-- A tick passes for all timers that it does not call, exactly when none of them waits behind
one that was left without time; and a new timer leaves the ticks of all others as they are,
exactly when it has a delay or is not the first of these. -/
theorem timers_independent_iff (hs : Built s) :
    (∀ answers cs s', Quiet answers → s.processTick answers = some (cs, s') →
      (Lowered s cs s' ↔ ¬Immediate s.timers ∨ ∀ t ∈ s.timers, t.delta = 0)) ∧
    ∀ r, Undisturbed s r ↔ r.msec ≠ 0 ∨ s.timers = [] ∨ Immediate s.timers :=
  ⟨fun _ _ _ hq h => lowered_iff hs.sound hq h, undisturbed_iff hs.sound⟩

/-- A timer with a delay of five ticks, and one with none. -/
def five : Asked Unit := ⟨5, 1, (), by decide⟩

def immediate : Asked Unit := ⟨0, 1, (), by decide⟩

theorem timers_independent_five :
    Lowered ((⟨[], 0⟩ : Table Unit).addPeriodical five) []
      ⟨[⟨5, 4, 1, 0, ()⟩], 1⟩ ∧ Undisturbed ((⟨[], 0⟩ : Table Unit).addPeriodical five) five := by
  obtain ⟨htick, hadd⟩ := timers_independent_iff (.add five .init)
  have hn : ¬Immediate ((⟨[], 0⟩ : Table Unit).addPeriodical five).timers := by
    rintro ⟨t, ts, ht, hzero⟩
    cases ht
    cases hzero
  exact ⟨(htick [] _ _ (by simp [Quiet]) rfl).mpr (.inl hn), (hadd five).mpr (.inl (by decide))⟩

theorem timers_held_up : ¬∀ s : Table Unit, Built s →
    (∀ answers cs s', Quiet answers → s.processTick answers = some (cs, s') → Lowered s cs s') ∧
      ∀ r, Undisturbed s r := by
  intro h
  let s : Table Unit := ((⟨[], 0⟩ : Table Unit).addPeriodical five).addPeriodical immediate
  obtain ⟨htick, -⟩ := h s (.add immediate (.add five .init))
  have hlow := htick [⟨[], id⟩] [⟨⟨0, -1, 1, 1, ()⟩, 2, ⟨[], id⟩⟩] ⟨[⟨5, 5, 1, 0, ()⟩], 2⟩
    (by simp [Quiet]) rfl
  have hrem : remaining s.timers = [(0, ⟨0, 1, 1, ()⟩), (5, ⟨5, 1, 0, ()⟩)] := rfl
  have hmem := hlow (5, ⟨5, 1, 0, ()⟩) (by simp [hrem]) (by simp)
  have hafter : remaining [(⟨5, 5, 1, 0, ()⟩ : TicksCallback Unit)] = [(5, ⟨5, 1, 0, ()⟩)] := rfl
  rw [hafter] at hmem
  exact absurd (congrArg Prod.fst (List.mem_singleton.mp hmem)) (by decide)

/-! ### Taking a timer away -/

/-- The first timer with the identifier is gone, and every other one keeps its time. -/
def RemovesOne (s : Table φ) (k : ℕ) : Prop :=
  remaining (s.delTimerIdentifier k).timers =
    (remaining s.timers).eraseP fun p => p.2.identifier = k

theorem shift_injective (d : ℤ) :
    Function.Injective fun p : ℤ × Entry φ => (p.1 + d, p.2) := by
  intro p q h
  simp only [Prod.mk.injEq, add_left_inj] at h
  exact Prod.ext h.1 h.2

theorem shift_eq_self (d : ℤ) (D : List (ℤ × Entry φ)) :
    (D.map fun p => (p.1 + d, p.2)) = D ↔ d = 0 ∨ D = [] := by
  cases D with
  | nil => simp
  | cons p D =>
    constructor
    · intro h
      have hp := congrArg Prod.fst (List.cons.inj h).1
      simp only at hp
      exact .inl (by omega)
    · rintro (rfl | h)
      · simp
      · cases h

/-- The timers behind the one that is taken away lose its delta. -/
theorem removesOne_iff (s : Table φ) (k : ℕ) : RemovesOne s k ↔
    ∀ pre t post, s.timers = pre ++ t :: post → (∀ u ∈ pre, u.identifier ≠ k) →
      t.identifier = k → t.delta = 0 ∨ post = [] := by
  obtain ⟨l, n⟩ := s
  simp only [RemovesOne, Table.delTimerIdentifier]
  induction l with
  | nil => simp [remaining, DeltaList.dues]
  | cons t ts ih =>
    by_cases hid : t.identifier = k
    · have htimer : t.timer.identifier = k := hid
      have hnil : remaining ts = [] ↔ ts = [] := by
        rw [← List.map_eq_nil_iff (f := Prod.snd), remaining_snd, List.map_eq_nil_iff]
      rw [List.eraseP_cons_of_pos (by simpa using hid), remaining_cons,
        List.eraseP_cons_of_pos (by simpa using htimer), eq_comm, shift_eq_self, hnil]
      constructor
      · intro h pre u post he hpre _
        cases pre with
        | nil =>
          obtain ⟨rfl, rfl⟩ := List.cons.inj he
          exact h
        | cons v pre =>
          obtain ⟨rfl, -⟩ := List.cons.inj he
          exact absurd hid (hpre t List.mem_cons_self)
      · exact fun h => h [] t ts rfl (by simp) hid
    · have htimer : ¬t.timer.identifier = k := hid
      have hcomp : (fun p : ℤ × Entry φ => decide (p.2.identifier = k)) ∘
          (fun p : ℤ × Entry φ => (p.1 + t.delta, p.2)) = fun p => decide (p.2.identifier = k) := rfl
      rw [List.eraseP_cons_of_neg (by simpa using hid), remaining_cons, remaining_cons,
        List.eraseP_cons_of_neg (by simpa using htimer), List.eraseP_map, hcomp,
        List.cons_inj_right, (List.map_injective_iff.mpr (shift_injective t.delta)).eq_iff, ih]
      constructor
      · intro h pre u post he hpre hu
        cases pre with
        | nil =>
          obtain ⟨rfl, -⟩ := List.cons.inj he
          exact absurd hu hid
        | cons v pre =>
          obtain ⟨rfl, rfl⟩ := List.cons.inj he
          exact h pre u post rfl (fun w hw => hpre w (List.mem_cons_of_mem t hw)) hu
      · intro h pre u post he hpre hu
        refine h (t :: pre) u post (by rw [he]; rfl) (fun w hw => ?_) hu
        rcases List.mem_cons.mp hw with rfl | hw
        · exact hid
        · exact hpre w hw

theorem removes_with_delta : ¬∀ (s : Table Unit) (k : ℕ), RemovesOne s k := by
  intro h
  have hrem : remaining [(⟨8, 3, 1, 1, ()⟩ : TicksCallback Unit)] = [(8, ⟨8, 1, 1, ()⟩)] :=
    h ⟨[⟨5, 5, 1, 0, ()⟩, ⟨8, 3, 1, 1, ()⟩], 2⟩ 0
  exact absurd (congrArg Prod.fst (List.cons.inj hrem).1) (by decide)

end ApeServer.Ticks
