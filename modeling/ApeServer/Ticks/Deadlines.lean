import ApeServer.Ticks.Timers
import ApeServer.Lib.DeltaList
import ApeServer.Sock.Delivery

/-!
# Deadlines

Every timer has an absolute deadline, although the list holds distances only. A tick calls
the callbacks of exactly the timers whose deadline it is, whatever these callbacks add.
-/
namespace ApeServer.Ticks

open Sock (toInt32 toInt32_of_range)

variable {φ : Type}

/-- A node without its delta. -/
structure Entry (φ : Type) where
  ticks_need : ℤ
  times : ℤ
  identifier : ℕ
  func : φ

def TicksCallback.entry (t : TicksCallback φ) : ℤ × Entry φ :=
  (t.delta, ⟨t.ticks_need, t.times, t.identifier, t.func⟩)

/-- The timers of a list with their deadlines. -/
def dues (now : ℕ) (l : List (TicksCallback φ)) : List (ℤ × Entry φ) :=
  DeltaList.dues now (l.map TicksCallback.entry)

/-- The deltas are distances. -/
def Bounded (l : List (TicksCallback φ)) : Prop := ∀ t ∈ l, 0 ≤ t.delta ∧ t.delta < 2 ^ 31

variable {t new : TicksCallback φ} {l ts : List (TicksCallback φ)}

/-- Adding one and taking it away again is exact, also where the sum overflows. -/
theorem toInt32_bump {x : ℤ} (h₀ : 0 ≤ x) (h₁ : x < 2 ^ 31) :
    toInt32 (toInt32 (x + 1) - 1) = x := by
  rw [toInt32, toInt32, Int.bmod_sub_bmod, add_sub_cancel_right]
  exact toInt32_of_range (by omega) h₁

theorem Bounded.tail (h : Bounded (t :: ts)) : Bounded ts :=
  fun r hr => h r (List.mem_cons_of_mem t hr)

theorem insert_entry (h₀ : 0 ≤ new.delta) (h₁ : new.delta < 2 ^ 31) (hl : Bounded l) :
    (insert new l).map TicksCallback.entry =
      DeltaList.insert new.delta new.entry.2 (l.map TicksCallback.entry) := by
  induction l generalizing new with
  | nil => rfl
  | cons t l ih =>
    obtain ⟨t₀, t₁⟩ := hl t List.mem_cons_self
    have hcons : DeltaList.insert new.delta new.entry.2 ((t :: l).map TicksCallback.entry) =
        if new.delta ≤ t.delta then
          (new.delta, new.entry.2) :: (t.delta - new.delta, t.entry.2) ::
            l.map TicksCallback.entry
        else (t.delta, t.entry.2) ::
          DeltaList.insert (new.delta - t.delta) new.entry.2 (l.map TicksCallback.entry) := rfl
    rw [hcons, insert]
    split
    · rw [toInt32_of_range (by omega) (by omega)]
      rfl
    · rw [toInt32_of_range (by omega) (by omega), List.map_cons,
        ih (by simp only; omega) (by simp only; omega) hl.tail]
      rfl

theorem bounded_iff : Bounded l ↔
    ∀ p ∈ l.map TicksCallback.entry, 0 ≤ p.1 ∧ p.1 ≤ (2 ^ 31 - 1 : ℤ) := by
  simp only [List.mem_map, forall_exists_index, and_imp, forall_apply_eq_imp_iff₂, Bounded,
    TicksCallback.entry]
  constructor <;> intro h t ht <;> have := h t ht <;> omega

theorem Bounded.insert (h₀ : 0 ≤ new.delta) (h₁ : new.delta < 2 ^ 31) (hl : Bounded l) :
    Bounded (insert new l) := by
  rw [bounded_iff, insert_entry h₀ h₁ hl]
  exact DeltaList.insert_range h₀ (by omega) (bounded_iff.mp hl)

theorem dues_insert (new : TicksCallback φ) (h₀ : 0 ≤ new.delta) (h₁ : new.delta < 2 ^ 31)
    (hl : Bounded l) (now : ℕ) :
    (dues now (insert new l)).Perm ((now + new.delta, new.entry.2) :: dues now l) := by
  unfold dues
  rw [insert_entry h₀ h₁ hl]
  exact DeltaList.dues_insert _ _ _ _

theorem dues_cons_zero (h : t.delta = 0) (now : ℕ) :
    dues now (t :: l) = ((now : ℤ), t.entry.2) :: dues now l := by
  simp [dues, TicksCallback.entry, DeltaList.dues, h]

/-- Nobody's deadline has passed. -/
theorem le_dues (hl : Bounded l) {now : ℕ} : ∀ p ∈ dues now l, (now : ℤ) ≤ p.1 :=
  DeltaList.le_dues fun p hp => (bounded_iff.mp hl p hp).1

/-! ### One timer -/

/-- The calls of one timer, and the deadline and the `times` it waits with, if it is not
done. -/
inductive Story (a : Added φ) (id : ℕ) : List (Call φ) → Option (ℕ × ℤ) → Prop
  | start : Story a id [] (some (a.since + a.request.msec, a.request.times))
  | again {h : List (Call φ)} {d : ℕ} {times : ℤ} : Story a id h (some (d, times)) →
      lastcall times = false →
      Story a id (h ++ [⟨d, id, a.request.func, false⟩]) (some (d + a.request.msec, left times))
  | done {h : List (Call φ)} {d : ℕ} {times : ℤ} {last : Bool} :
      Story a id h (some (d, times)) → (lastcall times || last) = true →
      Story a id (h ++ [⟨d, id, a.request.func, last⟩]) none

namespace Added

/-- The ticks that belong to a timer: as many periods after it was added as it has times, or
any number of them. -/
def due (a : Added φ) (tick : ℕ) : Prop :=
  ∃ j : ℕ, 1 ≤ j ∧ tick = a.since + j * a.request.msec ∧
    (0 < a.request.times → (j : ℤ) ≤ a.request.times)

end Added

namespace Story

variable {a : Added φ} {id : ℕ} {h : List (Call φ)} {w : Option (ℕ × ℤ)}

/-- The calls are the first periods, and only the last of them may have set its flag. -/
structure Periods (a : Added φ) (id : ℕ) (h : List (Call φ)) : Prop where
  calls : ∀ c ∈ h, c.identifier = id ∧ c.func = a.request.func ∧ ∃ j, 1 ≤ j ∧ j ≤ h.length ∧
    c.tick = a.since + j * a.request.msec ∧ (j < h.length → c.last = false)
  all : ∀ j, 1 ≤ j → j ≤ h.length → ∃ c ∈ h, c.tick = a.since + j * a.request.msec
  times : 0 < a.request.times → (h.length : ℤ) ≤ a.request.times

/-- What a timer that is not done waits for. -/
structure Waits (a : Added φ) (h : List (Call φ)) (d : ℕ) (times : ℤ) : Prop where
  deadline : d = a.since + (h.length + 1) * a.request.msec
  flags : ∀ c ∈ h, c.last = false
  counted : 0 < a.request.times → times = a.request.times - h.length ∧ 0 < times
  endless : a.request.times ≤ 0 → times = a.request.times

/-- Why a timer is done. -/
def Over (a : Added φ) (h : List (Call φ)) : Prop :=
  (0 < a.request.times ∧ (h.length : ℤ) = a.request.times) ∨
    ∃ c ∈ h, c.tick = a.since + h.length * a.request.msec ∧ c.last = true

theorem periods_snoc {d : ℕ} {times : ℤ} (hp : Periods a id h) (hw : Waits a h d times)
    (last : Bool) : Periods a id (h ++ [⟨d, id, a.request.func, last⟩]) := by
  have hlen : (h ++ [(⟨d, id, a.request.func, last⟩ : Call φ)]).length = h.length + 1 := by simp
  refine ⟨fun c hc => ?_, fun j h1 hj => ?_, fun ht => ?_⟩
  · rcases List.mem_append.mp hc with hc | hc
    · obtain ⟨hid, hf, j, h1, hj, htick, -⟩ := hp.calls c hc
      exact ⟨hid, hf, j, h1, by omega, htick, fun _ => hw.flags c hc⟩
    · cases List.mem_singleton.mp hc
      refine ⟨rfl, rfl, h.length + 1, by omega, by omega, hw.deadline, fun hlt => ?_⟩
      omega
  · by_cases hj' : j ≤ h.length
    · obtain ⟨c, hc, htick⟩ := hp.all j h1 hj'
      exact ⟨c, List.mem_append_left _ hc, htick⟩
    · have hj : j = h.length + 1 := by omega
      refine ⟨_, List.mem_append_right h (List.mem_singleton_self _), ?_⟩
      rw [hj]
      exact hw.deadline
  · obtain ⟨h1, h2⟩ := hw.counted ht
    rw [hlen]
    push_cast
    omega

theorem waits_snoc {d : ℕ} {times : ℤ} (hw : Waits a h d times) (hl : lastcall times = false) :
    Waits a (h ++ [⟨d, id, a.request.func, false⟩]) (d + a.request.msec) (left times) := by
  have hlen : (h ++ [(⟨d, id, a.request.func, false⟩ : Call φ)]).length = h.length + 1 := by simp
  refine ⟨?_, fun c hc => ?_, fun ht => ?_, fun ht => ?_⟩
  · rw [hlen, hw.deadline]
    ring
  · rcases List.mem_append.mp hc with hc | hc
    · exact hw.flags c hc
    · cases List.mem_singleton.mp hc
      rfl
  · obtain ⟨h1, h2⟩ := hw.counted ht
    have h3 : left times = times - 1 := if_pos h2
    have h4 : times - 1 ≠ 0 := by simpa [lastcall, h2, h3] using hl
    rw [h3, hlen]
    push_cast
    omega
  · have h1 := hw.endless ht
    rw [← h1]
    exact if_neg (by omega)

theorem over_snoc {d : ℕ} {times : ℤ} (hw : Waits a h d times) {last : Bool}
    (hl : (lastcall times || last) = true) :
    Over a (h ++ [⟨d, id, a.request.func, last⟩]) := by
  have hlen : (h ++ [(⟨d, id, a.request.func, last⟩ : Call φ)]).length = h.length + 1 := by simp
  rcases Bool.or_eq_true_iff.mp hl with hl | hl
  · simp only [lastcall, Bool.and_eq_true, decide_eq_true_eq] at hl
    obtain ⟨hpos, hzero⟩ := hl
    rw [left, if_pos hpos] at hzero
    have ht : 0 < a.request.times := by
      by_contra hneg
      have := hw.endless (by omega)
      omega
    obtain ⟨h1, -⟩ := hw.counted ht
    refine .inl ⟨ht, ?_⟩
    rw [hlen]
    push_cast
    omega
  · refine .inr ⟨_, List.mem_append_right h (List.mem_singleton_self _), ?_, hl⟩
    rw [hlen]
    exact hw.deadline

theorem spec (hs : Story a id h w) : Periods a id h ∧
    match w with
    | some (d, times) => Waits a h d times
    | none => Over a h := by
  induction hs with
  | start =>
    refine ⟨⟨by simp, fun j h1 hj => ?_, fun ht => by simpa using ht.le⟩, ?_, by simp, ?_, ?_⟩
    · simp only [List.length_nil] at hj
      omega
    · simp
    · simp
    · simp
  | again _ hl ih => exact ⟨periods_snoc ih.1 ih.2 false, waits_snoc ih.2 hl⟩
  | done _ hl ih => exact ⟨periods_snoc ih.1 ih.2 _, over_snoc ih.2 hl⟩

end Story

/-! ### All timers -/

namespace Timers

variable {s : Timers φ} {D D' : List (ℤ × Entry φ)}

def callsOf (s : Timers φ) (id : ℕ) : List (Call φ) := s.calls.filter (·.identifier = id)

/-- The timer of a node, and its story so far. -/
def Lives (s : Timers φ) (p : ℤ × Entry φ) : Prop :=
  ∃ a d, s.added[p.2.identifier]? = some a ∧ p.1 = (d : ℕ) ∧ p.2.ticks_need = a.request.msec ∧
    p.2.func = a.request.func ∧ Story a p.2.identifier (s.callsOf p.2.identifier) (some (d, p.2.times))

/-- The deadlines `D` are those of the timers that are not done. -/
structure Agrees (s : Timers φ) (D : List (ℤ × Entry φ)) : Prop where
  ids : (D.map fun p => p.2.identifier).Nodup
  live : ∀ p ∈ D, s.Lives p
  gone : ∀ id a, s.added[id]? = some a → (∀ p ∈ D, p.2.identifier ≠ id) →
    Story a id (s.callsOf id) none
  count : s.added.length = s.ntimers
  once : (s.calls.map fun c => (c.tick, c.identifier)).Nodup
  known : ∀ c ∈ s.calls, c.identifier < s.added.length
  past : ∀ c ∈ s.calls, c.tick ≤ s.now

theorem Agrees.perm (h : Agrees s D) (hp : D.Perm D') : Agrees s D' where
  ids := (hp.map _).nodup_iff.mp h.ids
  live p hm := h.live p (hp.mem_iff.mpr hm)
  gone id a ha hn := h.gone id a ha fun p hm => hn p (hp.mem_iff.mp hm)
  count := h.count
  once := h.once
  known := h.known
  past := h.past

theorem Agrees.lt (h : Agrees s D) : ∀ p ∈ D, p.2.identifier < s.ntimers := by
  intro p hp
  obtain ⟨a, d, ha, -⟩ := h.live p hp
  rw [← h.count]
  exact (List.getElem?_eq_some_iff.mp ha).1

theorem callsOf_fresh (h : Agrees s D) : s.callsOf s.ntimers = [] := by
  rw [callsOf, List.filter_eq_nil_iff]
  intro c hc
  have := h.known c hc
  rw [h.count] at this
  simpa using this.ne

/-- Adding a timer adds its deadline. -/
theorem Agrees.add (h : Agrees s D) (r : Request φ) : Agrees (s.addPeriodical r)
    ((s.now + r.msec, ⟨r.msec, r.times, s.ntimers, r.func⟩) :: D) where
  ids := by
    rw [List.map_cons, List.nodup_cons]
    refine ⟨fun hm => ?_, h.ids⟩
    obtain ⟨p, hp, he⟩ := List.mem_map.mp hm
    exact (h.lt p hp).ne he
  live p hp := by
    rcases List.mem_cons.mp hp with rfl | hp
    · refine ⟨⟨s.now, r⟩, s.now + r.msec, ?_, by simp, rfl, rfl, ?_⟩
      · simp [addPeriodical, ← h.count]
      · have hnil : (s.addPeriodical r).callsOf s.ntimers = [] := callsOf_fresh h
        simp only [hnil]
        exact .start
    · obtain ⟨a, d, ha, hrest⟩ := h.live p hp
      refine ⟨a, d, ?_, hrest⟩
      simp only [addPeriodical]
      rw [List.getElem?_append_left (List.getElem?_eq_some_iff.mp ha).1]
      exact ha
  gone id a ha hn := by
    have hne : s.ntimers ≠ id := hn _ List.mem_cons_self
    have hlt : id < s.added.length := by
      have := (List.getElem?_eq_some_iff.mp ha).1
      simp only [addPeriodical, List.length_append, List.length_singleton] at this
      have := h.count
      omega
    simp only [addPeriodical] at ha
    rw [List.getElem?_append_left hlt] at ha
    exact h.gone id a ha fun p hp => hn p (List.mem_cons_of_mem _ hp)
  count := by simp [addPeriodical, h.count]
  once := h.once
  known c hc := by
    have := h.known c hc
    simp only [addPeriodical, List.length_append, List.length_singleton]
    omega
  past := h.past

/-- The state after a call of this timer. -/
def called (s : Timers φ) (e : Entry φ) (last : Bool) : Timers φ :=
  { s with calls := s.calls ++ [⟨s.now, e.identifier, e.func, last⟩] }

theorem callsOf_called_self (e : Entry φ) (last : Bool) :
    (s.called e last).callsOf e.identifier =
      s.callsOf e.identifier ++ [⟨s.now, e.identifier, e.func, last⟩] := by
  simp [callsOf, called]

theorem callsOf_called_ne {e : Entry φ} {last : Bool} {id : ℕ} (hne : e.identifier ≠ id) :
    (s.called e last).callsOf id = s.callsOf id := by
  simp [callsOf, called, hne]

/-- What holds in any case after a call in the tick of its deadline. -/
theorem Agrees.called_rest {e : Entry φ} (h : Agrees s (((s.now : ℤ), e) :: D)) (last : Bool) :
    (∀ p ∈ D, (s.called e last).Lives p) ∧
    (∀ id a, s.added[id]? = some a → e.identifier ≠ id → (∀ p ∈ D, p.2.identifier ≠ id) →
      Story a id ((s.called e last).callsOf id) none) ∧
    (((s.called e last).calls.map fun c => (c.tick, c.identifier)).Nodup) ∧
    (∀ c ∈ (s.called e last).calls, c.identifier < s.added.length ∧ c.tick ≤ s.now) := by
  obtain ⟨a, d, ha, hd, -, -, hs⟩ := h.live _ List.mem_cons_self
  refine ⟨fun p hp => ?_, fun id b hb hne hn => ?_, ?_, fun c hc => ?_⟩
  · have hne : e.identifier ≠ p.2.identifier := fun he =>
      (List.nodup_cons.mp h.ids).1 (List.mem_map.mpr ⟨p, hp, he.symm⟩)
    obtain ⟨b, d, hb⟩ := h.live p (List.mem_cons_of_mem _ hp)
    refine ⟨b, d, ?_⟩
    rw [callsOf_called_ne hne]
    exact hb
  · rw [callsOf_called_ne hne]
    exact h.gone id b hb fun p hp => by
      rcases List.mem_cons.mp hp with rfl | hp
      · exact hne
      · exact hn p hp
  · simp only [called, List.map_append, List.map_singleton]
    refine List.Nodup.append h.once (List.nodup_singleton _) (List.disjoint_singleton.mpr ?_)
    -- an earlier call of the same timer was in an earlier tick
    intro hm
    obtain ⟨c, hc, he⟩ := List.mem_map.mp hm
    simp only [Prod.mk.injEq] at he
    simp only at hs
    obtain ⟨hp, hw⟩ := hs.spec
    obtain ⟨-, -, j, -, hj, htick, -⟩ := hp.calls c (List.mem_filter.mpr ⟨hc, by simpa using he.2⟩)
    have hdl := hw.deadline
    have hpos : 1 ≤ a.request.msec := a.request.range.1
    have hlt : j * a.request.msec < ((s.callsOf e.identifier).length + 1) * a.request.msec :=
      Nat.mul_lt_mul_of_pos_right (by omega) hpos
    have : s.now = d := by simpa using hd
    omega
  · rcases List.mem_append.mp hc with hc | hc
    · exact ⟨h.known c hc, h.past c hc⟩
    · cases List.mem_singleton.mp hc
      exact ⟨(List.getElem?_eq_some_iff.mp ha).1, le_rfl⟩

/-- A timer that is not done gets its next deadline. -/
theorem Agrees.again {e : Entry φ} (h : Agrees s (((s.now : ℤ), e) :: D))
    (hl : lastcall e.times = false) : Agrees (s.called e false)
      ((s.now + e.ticks_need, { e with times := left e.times }) :: D) := by
  obtain ⟨hlive, hgone, honce, hcalls⟩ := h.called_rest false
  refine ⟨h.ids, fun p hp => ?_, fun id a ha hn => ?_, h.count, honce, fun c hc => (hcalls c hc).1,
    fun c hc => (hcalls c hc).2⟩
  · rcases List.mem_cons.mp hp with rfl | hp
    · obtain ⟨a, d, ha, hd, ht, hf, hs⟩ := h.live _ List.mem_cons_self
      have hd : s.now = d := by simpa using hd
      subst hd
      simp only at ha ht hf hs
      refine ⟨a, s.now + a.request.msec, ha, by simp [ht], ht, hf, ?_⟩
      have := Story.again hs hl
      rw [← hf, ← callsOf_called_self e false] at this
      exact this
    · exact hlive p hp
  · exact hgone id a ha (hn _ List.mem_cons_self) fun p hp => hn p (List.mem_cons_of_mem _ hp)

/-- A timer that is done has none. -/
theorem Agrees.done {e : Entry φ} (h : Agrees s (((s.now : ℤ), e) :: D)) {last : Bool}
    (hl : (lastcall e.times || last) = true) : Agrees (s.called e last) D := by
  obtain ⟨hlive, hgone, honce, hcalls⟩ := h.called_rest last
  refine ⟨(List.nodup_cons.mp h.ids).2, hlive, fun id a ha hn => ?_, h.count, honce,
    fun c hc => (hcalls c hc).1, fun c hc => (hcalls c hc).2⟩
  by_cases hid : e.identifier = id
  · subst hid
    obtain ⟨b, d, hb, hd, ht, hf, hs⟩ := h.live _ List.mem_cons_self
    have hd : s.now = d := by simpa using hd
    subst hd
    simp only at hb hf hs
    change s.added[e.identifier]? = some a at ha
    rw [ha] at hb
    cases hb
    have := Story.done hs hl
    rw [← hf, ← callsOf_called_self e last] at this
    exact this
  · exact hgone id a ha hid hn

/-- The list holds the deadlines of the timers that are not done. -/
structure Kept (s : Timers φ) : Prop where
  range : Bounded s.timers
  agrees : s.Agrees (dues s.now s.timers)

theorem request_delta (r : Request φ) : toInt32 r.msec = r.msec :=
  toInt32_of_range (by omega) (by exact_mod_cast r.range.2)

theorem addPeriodical_dues (hr : Bounded s.timers) (r : Request φ) :
    (dues s.now (s.addPeriodical r).timers).Perm
      ((s.now + r.msec, ⟨r.msec, r.times, s.ntimers, r.func⟩) :: dues s.now s.timers) := by
  have := dues_insert ⟨toInt32 r.msec, toInt32 r.msec, r.times, s.ntimers, r.func⟩
    (by simp [request_delta]) (by simpa [request_delta] using r.range.2) hr s.now
  simpa [request_delta, TicksCallback.entry, addPeriodical] using this

theorem Kept.add (h : s.Kept) (r : Request φ) : (s.addPeriodical r).Kept where
  range := h.range.insert (by simp [request_delta]) (by simpa [request_delta] using r.range.2)
  agrees := (h.agrees.add r).perm (addPeriodical_dues h.range r).symm

/-- How many timers the current tick has still to call. -/
def expired (s : Timers φ) : ℕ := (dues s.now s.timers).countP fun p => p.1 ≤ (s.now : ℤ)

theorem expired_add (hr : Bounded s.timers) (r : Request φ) :
    (s.addPeriodical r).expired = s.expired := by
  have hpos := r.range.1
  have hnot : ¬((s.now : ℤ) + r.msec ≤ s.now) := by omega
  have hp := (addPeriodical_dues hr r).countP_eq fun p => decide (p.1 ≤ (s.now : ℤ))
  rw [List.countP_cons, if_neg (by simpa using hnot)] at hp
  exact hp

/-- What a callback adds goes behind the timer that is called. -/
theorem addPeriodical_cons (ht : t.delta = 0) (r : Request φ) :
    (s.setTimers (t :: ts)).addPeriodical r = ((s.setTimers ts).addPeriodical r).setTimers
      (t :: ((s.setTimers ts).addPeriodical r).timers) := by
  have hpos := r.range.1
  simp only [addPeriodical, insert, request_delta, ht, sub_zero, setTimers]
  rw [if_neg (by omega)]

theorem foldl_add_cons (ht : t.delta = 0) (rs : List (Request φ)) :
    rs.foldl addPeriodical (s.setTimers (t :: ts)) =
      (rs.foldl addPeriodical (s.setTimers ts)).setTimers
        (t :: (rs.foldl addPeriodical (s.setTimers ts)).timers) := by
  induction rs generalizing s ts with
  | nil => rfl
  | cons r rs ih =>
    rw [List.foldl_cons, List.foldl_cons, addPeriodical_cons ht, ih]
    rfl

/-- The timers a callback adds are not due in the tick of the call. -/
theorem foldl_add_kept (h : s.Kept) (rs : List (Request φ)) :
    (rs.foldl addPeriodical s).Kept ∧ (rs.foldl addPeriodical s).now = s.now ∧
      (rs.foldl addPeriodical s).expired = s.expired := by
  induction rs generalizing s with
  | nil => exact ⟨h, rfl, rfl⟩
  | cons r rs ih =>
    obtain ⟨hk, hn, he⟩ := ih (h.add r)
    exact ⟨hk, hn, he.trans (expired_add h.range r)⟩

theorem Agrees.setTimers (h : s.Agrees D) (l : List (TicksCallback φ)) :
    (s.setTimers l).Agrees D :=
  ⟨h.ids, h.live, h.gone, h.count, h.once, h.known, h.past⟩

/-- The rest of the loop's body, after the callback: the timer is done, or it waits for its
next deadline. -/
theorem rearm_spec (ht : t.delta = 0) (h : (s.setTimers (t :: ts)).Kept) (last : Bool) :
    ∃ s' : Timers φ, s'.Kept ∧ s'.now = s.now ∧ s'.expired + 1 = (s.setTimers (t :: ts)).expired ∧
      s'.setTimers (bump s'.timers) = (s.called t.entry.2 last).setTimers (bump
        (if (lastcall t.times || last) = true then ts else
          insert { t with delta := t.ticks_need, times := left t.times } ts)) := by
  have hb : Bounded ts := h.range.tail
  have hag : s.Agrees (((s.now : ℤ), t.entry.2) :: dues s.now ts) := by
    rw [← dues_cons_zero ht]
    exact h.agrees.setTimers s.timers
  have hexp : (s.setTimers (t :: ts)).expired = (s.setTimers ts).expired + 1 := by
    have hp := List.countP_cons (p := fun p => decide (p.1 ≤ (s.now : ℤ)))
      (a := ((s.now : ℤ), t.entry.2)) (l := dues s.now ts)
    rw [← dues_cons_zero ht, if_pos (by simp)] at hp
    exact hp
  rw [hexp]
  by_cases hl : (lastcall t.times || last) = true
  · rw [if_pos hl]
    exact ⟨(s.called t.entry.2 last).setTimers ts, ⟨hb, (hag.done hl).setTimers ts⟩, rfl, rfl, rfl⟩
  · rw [if_neg hl]
    obtain ⟨hl₁, rfl⟩ := Bool.or_eq_false_iff.mp (Bool.eq_false_iff.mpr hl)
    obtain ⟨a, -, -, -, hneed, -⟩ := hag.live _ List.mem_cons_self
    have hneed : t.ticks_need = a.request.msec := hneed
    have hpos := a.request.range
    have hdues := dues_insert
      { t with delta := t.ticks_need, times := left t.times } (by simp only; omega)
      (by simp only; omega) hb s.now
    refine ⟨(s.called t.entry.2 false).setTimers
      (insert { t with delta := t.ticks_need, times := left t.times } ts), ⟨?_, ?_⟩, rfl, ?_, rfl⟩
    · exact hb.insert (by simp only; omega) (by simp only; omega)
    · exact ((hag.again hl₁).perm hdues.symm).setTimers _
    · have hnot : ¬((s.now : ℤ) + t.ticks_need ≤ s.now) := by omega
      have hp := hdues.countP_eq fun p => decide (p.1 ≤ (s.now : ℤ))
      rw [List.countP_cons, if_neg (by simpa using hnot)] at hp
      exact congrArg (· + 1) hp

/-- A call in its tick. -/
theorem call_spec (react : Timers φ → TicksCallback φ → Reaction φ) (ht : t.delta = 0)
    (h : (s.setTimers (t :: ts)).Kept) (l : List (TicksCallback φ)) :
    ∃ s' : Timers φ, (s.setTimers l).call react t ts = s'.setTimers (bump s'.timers) ∧ s'.Kept ∧
      s'.now = s.now ∧ s'.expired + 1 = (s.setTimers (t :: ts)).expired := by
  generalize hr : react (s.setTimers ({ t with times := left t.times } :: ts))
    { t with times := left t.times } = r
  -- what the callback adds, and the list without the node that is called
  obtain ⟨hk, hnow, hexp⟩ := foldl_add_kept h r.adds
  rw [foldl_add_cons ht] at hk hnow hexp
  obtain ⟨s', hk', hn', he', hs'⟩ := rearm_spec ht hk r.last
  refine ⟨s', ?_, hk', hn'.trans hnow, he'.trans hexp⟩
  rw [hs']
  have hleft : ({ t with times := left t.times } : TicksCallback φ).delta = 0 := ht
  have hset : (s.setTimers l).setTimers ({ t with times := left t.times } :: ts) =
    s.setTimers ({ t with times := left t.times } :: ts) := rfl
  have hnext : ∀ (s₁ : Timers φ) (l : List (TicksCallback φ)), next t.identifier
      (s₁.setTimers ({ t with times := left t.times } :: l)).timers = l := fun _ _ => if_pos rfl
  simp only [call, hset, hr, foldl_add_cons hleft, hnext]
  rfl

/-- A tick calls every timer that is due, and ends. -/
theorem processLoop_spec (react : Timers φ → TicksCallback φ → Reaction φ) {fuel : ℕ}
    (h : s.Kept) (hf : s.expired < fuel) :
    ∃ s', processLoop react fuel (s.setTimers (bump s.timers)) = some s' ∧ s'.Kept ∧
      s'.now = s.now ∧ ∀ p ∈ dues s'.now s'.timers, (s'.now : ℤ) < p.1 := by
  induction fuel generalizing s with
  | zero => omega
  | succ fuel ih =>
    cases hl : s.timers with
    | nil =>
      refine ⟨s, ?_, h, rfl, by simp [hl, dues, DeltaList.dues]⟩
      simp only [processLoop, bump, setTimers]
      rw [← hl]
    | cons t ts =>
      have hb : Bounded (t :: ts) := hl ▸ h.range
      obtain ⟨h₀, h₁⟩ := hb t List.mem_cons_self
      have hs : s.setTimers (t :: ts) = s := by rw [← hl]; rfl
      have hloop : processLoop react (fuel + 1) (s.setTimers (bump (t :: ts))) =
          if t.delta ≤ 0 then
            processLoop react fuel ((s.setTimers (bump (t :: ts))).call react t ts)
          else some (s.setTimers (t :: ts)) := by
        simp only [processLoop, bump, setTimers, toInt32_bump h₀ h₁]
      rw [hloop]
      split
      · next hle =>
        have hz : t.delta = 0 := le_antisymm hle h₀
        obtain ⟨s', hs', hk', hn', he'⟩ := call_spec react hz (hs.symm ▸ h) (bump (t :: ts))
        rw [hs] at he'
        obtain ⟨s'', hs'', hk'', hn'', hw⟩ := ih hk' (by omega)
        exact ⟨s'', by rw [hs', hs''], hk'', hn''.trans hn', hw⟩
      · next hlt =>
        refine ⟨s, by rw [hs], h, rfl, fun p hp => ?_⟩
        rw [hl] at hp
        rcases List.mem_cons.mp hp with rfl | hp
        · simp only
          omega
        · have := DeltaList.le_dues (fun p hp => (bounded_iff.mp hb.tail p hp).1) p hp
          omega

/-- Between two ticks: nobody's deadline has come. -/
structure Ready (s : Timers φ) : Prop where
  kept : s.Kept
  waiting : ∀ p ∈ dues s.now s.timers, (s.now : ℤ) < p.1

theorem Ready.add (h : s.Ready) (r : Request φ) : (s.addPeriodical r).Ready where
  kept := h.kept.add r
  waiting p hp := by
    have hpos := r.range.1
    rcases List.mem_cons.mp ((addPeriodical_dues h.kept.range r).mem_iff.mp hp) with rfl | hp
    · simp only [addPeriodical]
      omega
    · exact h.waiting p hp

theorem expired_le : s.expired ≤ s.timers.length := by
  refine List.countP_le_length.trans (le_of_eq ?_)
  have := congrArg List.length (DeltaList.snd_dues s.now (s.timers.map TicksCallback.entry))
  simpa [dues] using this

theorem Ready.tick (h : s.Ready) (react : Timers φ → TicksCallback φ → Reaction φ) :
    ∃ s', s.processTick react = some s' ∧ s'.Ready ∧ s'.now = s.now + 1 := by
  -- the list as it is when the tick begins, seen from the tick
  have hadv : ∀ l, dues (s.now + 1) l = dues s.now s.timers → Bounded l → bump l = s.timers →
      l.length = s.timers.length →
      ∃ s', s.processTick react = some s' ∧ s'.Ready ∧ s'.now = s.now + 1 := by
    intro l hd hb hl hlen
    have hk : ({ s with now := s.now + 1, timers := l } : Timers φ).Kept := by
      refine ⟨hb, ?_⟩
      simp only [hd]
      exact ⟨h.kept.agrees.ids, h.kept.agrees.live, h.kept.agrees.gone, h.kept.agrees.count,
        h.kept.agrees.once, h.kept.agrees.known,
        fun c hc => (h.kept.agrees.past c hc).trans (Nat.le_succ _)⟩
    obtain ⟨s', hs', hk', hn', hw'⟩ := processLoop_spec react hk
      (Nat.lt_succ_of_le (expired_le.trans (le_of_eq hlen)))
    refine ⟨s', ?_, ⟨hk', hw'⟩, hn'⟩
    rw [← hs', processTick]
    simp only [setTimers, hl]
  cases hl : s.timers with
  | nil => exact hadv [] (by simp [hl, dues, DeltaList.dues]) (by simp [Bounded]) hl.symm (by simp [hl])
  | cons t ts =>
    have hb : Bounded (t :: ts) := hl ▸ h.kept.range
    obtain ⟨h₀, h₁⟩ := hb t List.mem_cons_self
    have hlt : (s.now : ℤ) < s.now + t.delta :=
      h.waiting (s.now + t.delta, t.entry.2) (by rw [hl]; exact List.mem_cons_self)
    refine hadv ({ t with delta := t.delta - 1 } :: ts) ?_ ?_ ?_ (by simp [hl])
    · have hone : ((s.now + 1 : ℕ) : ℤ) + (t.delta - 1) = s.now + t.delta := by
        push_cast
        ring
      rw [hl]
      simp only [dues, List.map_cons, TicksCallback.entry, DeltaList.dues, hone]
    · intro r hr
      rcases List.mem_cons.mp hr with rfl | hr
      · exact ⟨by simp only; omega, by simp only; omega⟩
      · exact hb.tail r hr
    · rw [hl, bump]
      simp only [sub_add_cancel, toInt32_of_range (by omega : -2 ^ 31 ≤ t.delta) h₁]

/-- The calls are exactly those the timers are due for. -/
structure Scheduled (s : Timers φ) : Prop where
  /-- a timer is called in the ticks that belong to it, until its callback sets the flag -/
  ran : ∀ id a, s.added[id]? = some a → ∀ tick, (∃ c ∈ s.callsOf id, c.tick = tick) ↔
    a.due tick ∧ tick ≤ s.now ∧ ∀ c ∈ s.callsOf id, c.tick < tick → c.last = false
  /-- once in each of them -/
  once : (s.calls.map fun c => (c.tick, c.identifier)).Nodup
  /-- and no other callback is -/
  known : ∀ c ∈ s.calls, ∃ a, s.added[c.identifier]? = some a ∧ c.func = a.request.func

theorem Ready.step (h : s.Ready) (react : Timers φ → TicksCallback φ → Reaction φ) (op : Op φ) :
    ∃ s', s.step react op = some s' ∧ s'.Ready := by
  cases op with
  | add r => exact ⟨_, rfl, h.add r⟩
  | tick =>
    obtain ⟨s', hs', hr, -⟩ := h.tick react
    exact ⟨s', hs', hr⟩

end Timers

end ApeServer.Ticks
