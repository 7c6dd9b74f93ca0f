import ApeServer.Ticks.Independent
import ApeServer.Lib.Steps

/-!
# Delays that an `int` does not hold

`add_timeout` takes an unsigned delay and keeps it in an `int`. The wait of the event loop is
the first delta, and -1 stands for no timer at all.
-/
namespace ApeServer.Ticks

open Sock (toInt32 toInt32_of_range)
open Steps (Reach)

/-- The arguments of `add_periodical` as they are passed. -/
structure Passed (φ : Type) where
  msec : UInt32
  times : ℤ
  func : φ

/-- What one call of a callback does. -/
structure Reply (φ : Type) where
  adds : List (Passed φ)
  flag : Bool → Bool

/-- What is done with the timers. -/
inductive TimerOp (φ : Type)
  | add (r : Passed φ)
  | tick (replies : List (Reply φ))

variable {φ : Type} {s s' : Table φ} {t : TicksCallback φ}
  {l front back ts : List (TicksCallback φ)} {r : Passed φ} {a : Reply φ} {replies : List (Reply φ)}

/-- `new_timer->delta`, an `int` from an `unsigned int`. -/
def Passed.delta (r : Passed φ) : ℤ := toInt32 r.msec.toNat

/-- `new_timer`. -/
def Passed.node (r : Passed φ) (identifier : ℕ) : TicksCallback φ :=
  ⟨r.delta, r.delta, r.times, identifier, r.func⟩

namespace Table

/-- `add_periodical`, with any delay. -/
def addTimer (s : Table φ) (r : Passed φ) : Table φ :=
  { timers := insert (r.node s.ntimers) s.timers
    ntimers := s.ntimers + 1 }

/-- The body of the loop of `process_tick`, where callbacks may pass any delay. -/
def callTimer (s : Table φ) (a : Reply φ) (t : TicksCallback φ) (ts : List (TicksCallback φ)) :
    Table φ :=
  let lastcall := a.flag (lastcall t.times)
  let t := { t with times := left t.times }
  let s := a.adds.foldl addTimer { s with timers := t :: ts }
  let rest := Timers.next t.identifier s.timers
  let rest := if lastcall then rest else insert { t with delta := t.ticks_need } rest
  { s with timers := Timers.bump rest }

/-- `process_tick` where the calls do the given; `none` when it goes on after the last. -/
def tickTimers (replies : List (Reply φ)) (s : Table φ) : Option (Table φ) :=
  match s.timers with
  | [] => some s
  | t :: ts =>
    let t := { t with delta := toInt32 (t.delta - 1) }
    if t.delta ≤ 0 then
      match replies with
      | [] => none
      | a :: replies => tickTimers replies (s.callTimer a t ts)
    else some { s with timers := t :: ts }

/-- `get_first_timer_ms`. -/
def getFirstTimerMs (s : Table φ) : ℤ :=
  match s.timers with
  | [] => -1
  | t :: _ => t.delta

def stepTimers (s : Table φ) : TimerOp φ → Except Unit (Table φ)
  | .add r => .ok (s.addTimer r)
  | .tick replies =>
    match s.tickTimers replies with
    | some s' => .ok s'
    | none => .error ()

end Table

/-- No delta is negative, and the event loop waits for ever only without timers. -/
def Timely (s : Table φ) : Prop :=
  (∀ t ∈ s.timers, 0 ≤ t.delta) ∧ (s.getFirstTimerMs = -1 ↔ s.timers = [])

/-- An `int` holds the delay. A callback whose timer was left without time before the tick is
called one step late, and the delays it passes have to leave room for that step. -/
def Holds (s : Table φ) : TimerOp φ → Prop
  | .add r => r.msec.toNat < 2 ^ 31
  | .tick replies => (∀ a ∈ replies, ∀ r ∈ a.adds, r.msec.toNat < 2 ^ 31) ∧
    (Immediate s.timers → ∀ a ∈ replies.head?, ∀ r ∈ a.adds, r.msec.toNat + 1 < 2 ^ 31)

/-! ### One call -/

/-- Deltas and delays are distances, and new identifiers are larger than those in use. -/
structure Kept (s : Table φ) : Prop where
  range : InRange s.timers
  below : ∀ t ∈ s.timers, t.identifier < s.ntimers

theorem Passed.delta_eq (h : r.msec.toNat < 2 ^ 31) : r.delta = r.msec.toNat :=
  toInt32_of_range (Int.natCast_nonneg _) (by exact_mod_cast h)

theorem Passed.delta_range (h : r.msec.toNat < 2 ^ 31) : 0 ≤ r.delta ∧ r.delta < 2 ^ 31 := by
  rw [Passed.delta_eq h]
  exact ⟨Int.natCast_nonneg _, by exact_mod_cast h⟩

/-- `new_timer` where the timers in front take `d` of its delay. -/
def Passed.behind (r : Passed φ) (n : ℕ) (d : ℤ) : TicksCallback φ :=
  ⟨r.delta, d, r.times, n, r.func⟩

theorem Passed.node_delta (r : Passed φ) (n : ℕ) : (r.node n).delta = r.delta := by
  simp only [Passed.node]

theorem Passed.node_range (h : r.msec.toNat < 2 ^ 31) (n : ℕ) :
    (0 ≤ (r.node n).delta ∧ (r.node n).delta < 2 ^ 31) ∧
      0 ≤ (r.node n).ticks_need ∧ (r.node n).ticks_need < 2 ^ 31 := by
  simp only [Passed.node]
  exact ⟨Passed.delta_range h, Passed.delta_range h⟩

theorem insert_identifier (new : TicksCallback φ) {n : ℕ} (hn : new.identifier < n)
    (hl : ∀ t ∈ l, t.identifier < n) : ∀ t ∈ insert new l, t.identifier < n := by
  intro t ht
  have hmem : t.timer ∈ (insert new l).map TicksCallback.timer := List.mem_map_of_mem ht
  rcases List.mem_cons.mp ((insert_timers new l).mem_iff.mp hmem) with he | hm
  · rw [show t.identifier = new.identifier from congrArg Entry.identifier he]
    exact hn
  · obtain ⟨u, hu, he⟩ := List.mem_map.mp hm
    rw [show t.identifier = u.identifier from congrArg Entry.identifier he.symm]
    exact hl u hu

theorem insert_inRange (new : TicksCallback φ) (hd : 0 ≤ new.delta ∧ new.delta < 2 ^ 31)
    (hn : 0 ≤ new.ticks_need ∧ new.ticks_need < 2 ^ 31) (hl : InRange l) :
    InRange (insert new l) :=
  ⟨hl.delta.insert hd.1 hd.2, insert_need hn hl.need⟩

theorem Kept.add (h : Kept s) (hr : r.msec.toNat < 2 ^ 31) : Kept (s.addTimer r) := by
  obtain ⟨hd, hn⟩ := Passed.node_range hr s.ntimers
  have hself : s.ntimers < s.ntimers + 1 := Nat.lt_succ_self _
  have hbelow : ∀ t ∈ s.timers, t.identifier < s.ntimers + 1 := fun t ht =>
    Nat.lt_succ_of_lt (h.below t ht)
  exact ⟨insert_inRange (r.node s.ntimers) hd hn h.range,
    insert_identifier (r.node s.ntimers) hself hbelow⟩

/-- The timers while `t` is called: in front of it only what goes with it. -/
structure Calling (t : TicksCallback φ) (front back : List (TicksCallback φ)) (s : Table φ) :
    Prop where
  timers : s.timers = front ++ t :: back
  zero : ∀ u ∈ front, u.delta = 0 ∧ u.identifier ≠ t.identifier
  first : t.delta ≠ 0 → front = []
  range : InRange back
  self : t.identifier < s.ntimers
  below : ∀ u ∈ back, u.identifier < s.ntimers

theorem Calling.add (h : Calling t front back s) (ht : t.delta = 0 ∨ t.delta = -1)
    (hr : r.msec.toNat < 2 ^ 31) (hlate : t.delta = -1 → r.msec.toNat + 1 < 2 ^ 31) :
    ∃ front' back', Calling t front' back' (s.addTimer r) := by
  have hd := Passed.delta_range hr
  obtain ⟨hnode, hn⟩ := Passed.node_range hr s.ntimers
  have hself : t.identifier < s.ntimers + 1 := Nat.lt_succ_of_lt h.self
  have hbelow : ∀ u ∈ back, u.identifier < s.ntimers + 1 := fun u hu =>
    Nat.lt_succ_of_lt (h.below u hu)
  by_cases hz : t.delta = 0 ∧ r.delta = 0
  · refine ⟨r.node s.ntimers :: front, back, ?_, fun u hu => ?_,
      fun hne => absurd hz.1 hne, h.range, hself, hbelow⟩
    · have hzero : (r.node s.ntimers).delta = 0 := (r.node_delta _).trans hz.2
      simp only [Table.addTimer, h.timers]
      exact insert_front (fun u hu => (h.zero u hu).1) hz.1 hzero
    · rcases List.mem_cons.mp hu with rfl | hu
      · have hzero : (r.node s.ntimers).delta = 0 := (r.node_delta _).trans hz.2
        exact ⟨hzero, h.self.ne'⟩
      · exact h.zero u hu
  · have hpos : front = [] ∨ 0 < r.delta := by
      by_cases ht₀ : t.delta = 0
      · have : r.delta ≠ 0 := fun h => hz ⟨ht₀, h⟩
        omega
      · exact .inl (h.first ht₀)
    have hlt : t.delta < r.delta := by
      rcases ht with ht | ht
      · have : r.delta ≠ 0 := fun h => hz ⟨ht, h⟩
        omega
      · omega
    have hroom : r.delta - t.delta < 2 ^ 31 := by
      rcases ht with ht | ht
      · omega
      · have := hlate ht
        rw [Passed.delta_eq hr]
        omega
    have hbehind : toInt32 (r.delta - t.delta) = r.delta - t.delta :=
      toInt32_of_range (by omega) hroom
    have hnew : 0 ≤ r.delta - t.delta ∧ r.delta - t.delta < 2 ^ 31 := ⟨by omega, hroom⟩
    have hnext : s.ntimers < s.ntimers + 1 := Nat.lt_succ_self _
    have hneed : 0 ≤ (r.behind s.ntimers (r.delta - t.delta)).ticks_need ∧
        (r.behind s.ntimers (r.delta - t.delta)).ticks_need < 2 ^ 31 := by
      simp only [Passed.behind]
      exact hd
    have hrange : InRange (insert (r.behind s.ntimers (r.delta - t.delta)) back) :=
      insert_inRange (r.behind s.ntimers (r.delta - t.delta)) hnew hneed h.range
    refine ⟨front, insert (r.behind s.ntimers (r.delta - t.delta)) back, ?_, h.zero,
      h.first, hrange, hself, insert_identifier _ hnext hbelow⟩
    have hpos' : front = [] ∨ 0 < (r.node s.ntimers).delta := by
      simpa only [r.node_delta] using hpos
    have hlt' : t.delta < (r.node s.ntimers).delta := by
      simpa only [r.node_delta] using hlt
    simp only [Table.addTimer, h.timers]
    rw [insert_behind (fun u hu => (h.zero u hu).1) hpos' hnode.2 hlt', r.node_delta, hbehind]
    simp only [Passed.node, Passed.behind]

theorem Calling.adds {rs : List (Passed φ)} (h : Calling t front back s)
    (ht : t.delta = 0 ∨ t.delta = -1) (hr : ∀ r ∈ rs, r.msec.toNat < 2 ^ 31)
    (hlate : t.delta = -1 → ∀ r ∈ rs, r.msec.toNat + 1 < 2 ^ 31) :
    ∃ front' back', Calling t front' back' (rs.foldl Table.addTimer s) := by
  induction rs generalizing s front back with
  | nil => exact ⟨front, back, h⟩
  | cons r rs ih =>
    obtain ⟨hr, hrs⟩ := List.forall_mem_cons.mp hr
    obtain ⟨front', back', h'⟩ := h.add ht hr fun hd => hlate hd r List.mem_cons_self
    exact ih h' hrs fun hd r hr => hlate hd r (List.mem_cons_of_mem _ hr)

theorem Calling.next (h : Calling t front back s) :
    Timers.next t.identifier s.timers = back := by
  have hfront := h.zero
  rw [h.timers]
  clear h
  induction front with
  | nil => rw [List.nil_append, Timers.next, if_pos rfl]
  | cons u front ih =>
    rw [List.cons_append, Timers.next, if_neg (hfront u List.mem_cons_self).2]
    exact ih fun w hw => hfront w (List.mem_cons_of_mem u hw)

/-- A call leaves the list as it has to be for the next turn. -/
theorem callTimer_kept (ht : t.delta = 0 ∨ t.delta = -1)
    (hn : 0 ≤ t.ticks_need ∧ t.ticks_need < 2 ^ 31) (hself : t.identifier < s.ntimers)
    (hl : InRange ts) (hbelow : ∀ u ∈ ts, u.identifier < s.ntimers)
    (hr : ∀ r ∈ a.adds, r.msec.toNat < 2 ^ 31)
    (hlate : t.delta = -1 → ∀ r ∈ a.adds, r.msec.toNat + 1 < 2 ^ 31) :
    ∃ rest n, s.callTimer a t ts = ⟨Timers.bump rest, n⟩ ∧ Kept ⟨rest, n⟩ := by
  have hstart : Calling { t with times := left t.times } [] ts
      { s with timers := { t with times := left t.times } :: ts } :=
    ⟨rfl, by simp, fun _ => rfl, hl, hself, hbelow⟩
  obtain ⟨front, back, h⟩ := hstart.adds ht hr hlate
  refine ⟨_, _, rfl, ?_⟩
  have hnext := h.next
  simp only at hnext
  simp only [hnext]
  split
  · exact ⟨h.range, h.below⟩
  · exact ⟨insert_inRange _ hn hn h.range, insert_identifier _ h.self h.below⟩

/-! ### A tick -/

/-- The turns after the first, whose decrement takes the increment of the turn before back. -/
theorem tickTimers_bump {n : ℕ} (h : Kept ⟨l, n⟩)
    (hr : ∀ a ∈ replies, ∀ r ∈ a.adds, r.msec.toNat < 2 ^ 31)
    (hs : Table.tickTimers replies ⟨Timers.bump l, n⟩ = some s') : Kept s' := by
  induction replies generalizing l n with
  | nil =>
    cases l with
    | nil =>
      obtain rfl := Option.some.inj hs
      exact h
    | cons t ts =>
      obtain ⟨h₀, h₁⟩ := h.range.delta t List.mem_cons_self
      rw [Timers.bump, Table.tickTimers] at hs
      simp only [toInt32_bump h₀ h₁] at hs
      split at hs
      · cases hs
      · obtain rfl := Option.some.inj hs
        exact h
  | cons a replies ih =>
    cases l with
    | nil =>
      obtain rfl := Option.some.inj hs
      exact h
    | cons t ts =>
      obtain ⟨h₀, h₁⟩ := h.range.delta t List.mem_cons_self
      rw [Timers.bump, Table.tickTimers] at hs
      simp only [toInt32_bump h₀ h₁] at hs
      split at hs
      case isTrue hdue =>
        have hzero : t.delta = 0 := le_antisymm hdue h₀
        obtain ⟨rest, m, he, hk⟩ := callTimer_kept (s := ⟨Timers.bump (t :: ts), n⟩) (a := a)
          (.inl hzero) (h.range.need t List.mem_cons_self) (h.below t List.mem_cons_self)
          h.range.tail (fun u hu => h.below u (List.mem_cons_of_mem t hu))
          (hr a List.mem_cons_self) (fun hlate => by omega)
        rw [Timers.bump] at he
        rw [he] at hs
        exact ih hk (fun a ha => hr a (List.mem_cons_of_mem _ ha)) hs
      case isFalse =>
        obtain rfl := Option.some.inj hs
        exact h

theorem tickTimers_kept (h : Kept s) (ha : Holds s (.tick replies))
    (hs : s.tickTimers replies = some s') : Kept s' := by
  obtain ⟨l, n⟩ := s
  cases l with
  | nil => exact tickTimers_bump (l := []) h ha.1 hs
  | cons t ts =>
    obtain ⟨h₀, h₁⟩ := h.range.delta t List.mem_cons_self
    have hneed := h.range.need t List.mem_cons_self
    have hself := h.below t List.mem_cons_self
    have hbelow : ∀ u ∈ ts, u.identifier < n := fun u hu =>
      h.below u (List.mem_cons_of_mem t hu)
    by_cases hzero : t.delta = 0
    · -- The timer was left without time: it is called one step late.
      have hlate : toInt32 (t.delta - 1) = -1 := by
        rw [hzero]
        decide
      cases replies with
      | nil =>
        rw [Table.tickTimers] at hs
        simp [hlate] at hs
      | cons a replies =>
        rw [Table.tickTimers] at hs
        simp only [hlate] at hs
        rw [if_pos (by decide)] at hs
        have himm : Immediate (t :: ts) := ⟨t, ts, rfl, hzero⟩
        obtain ⟨rest, m, he, hk⟩ := callTimer_kept (s := ⟨t :: ts, n⟩)
          (t := { t with delta := -1 }) (a := a) (.inr rfl) hneed hself h.range.tail hbelow
          (ha.1 a List.mem_cons_self) (fun _ => ha.2 himm a rfl)
        rw [he] at hs
        exact tickTimers_bump hk (fun a h => ha.1 a (List.mem_cons_of_mem _ h)) hs
    · -- The decrement is that of a list where the timer has one step less.
      have hsub : t.delta - 1 + 1 = t.delta := by ring
      have hk : Kept ⟨{ t with delta := t.delta - 1 } :: ts, n⟩ := by
        refine ⟨⟨fun u hu => ?_, fun u hu => ?_⟩, fun u hu => ?_⟩
        · rcases List.mem_cons.mp hu with rfl | hu
          · exact ⟨by simp only; omega, by simp only; omega⟩
          · exact h.range.delta.tail u hu
        · rcases List.mem_cons.mp hu with rfl | hu
          · exact hneed
          · exact h.range.tail.need u hu
        · rcases List.mem_cons.mp hu with rfl | hu
          · exact hself
          · exact hbelow u hu
      refine tickTimers_bump hk ha.1 ?_
      simp only [Timers.bump, hsub, toInt32_of_range (by omega) h₁]
      exact hs

/-! ### Runs -/

theorem Kept.step {o : TimerOp φ} (h : Kept s) (ha : Holds s o)
    (hs : s.stepTimers o = .ok s') : Kept s' := by
  cases o with
  | add r =>
    cases hs
    exact h.add ha
  | tick replies =>
    simp only [Table.stepTimers] at hs
    split at hs
    case h_1 hsome =>
      cases hs
      exact tickTimers_kept h ha hsome
    case h_2 => cases hs

theorem reach_kept (h : Reach Table.stepTimers Holds ⟨[], 0⟩ s) : Kept s :=
  h.keeps Kept ⟨⟨by simp [Bounded], by simp⟩, by simp⟩ fun _ _ _ hk ha hs => hk.step ha hs

theorem timely_of_nonneg (h : ∀ t ∈ s.timers, 0 ≤ t.delta) : Timely s := by
  refine ⟨h, fun hfirst => ?_, fun hnil => by rw [Table.getFirstTimerMs, hnil]⟩
  cases hs : s.timers with
  | nil => rfl
  | cons t ts =>
    have h₀ : 0 ≤ t.delta := h t (hs ▸ List.mem_cons_self)
    rw [Table.getFirstTimerMs, hs] at hfirst
    simp only at hfirst
    omega

/-- A delay that an `int` does not hold goes to the front with a negative delta. -/
theorem not_timely (h : ∀ t ∈ s.timers, 0 ≤ t.delta) (hr : 2 ^ 31 ≤ r.msec.toNat) :
    ¬Timely (s.addTimer r) := by
  have hneg : r.delta < 0 := by
    have hlt := r.msec.toNat_lt
    have hm : r.delta = (r.msec.toNat : ℤ) - 2 ^ 32 := by
      simp only [Passed.delta, toInt32, Int.bmod_def]
      omega
    omega
  intro ht
  have hmem : ∃ u ∈ (s.addTimer r).timers, u.delta < 0 := by
    have hnode : (r.node s.ntimers).delta < 0 := (r.node_delta _).trans_lt hneg
    cases hs : s.timers with
    | nil =>
      refine ⟨r.node s.ntimers, ?_, hnode⟩
      rw [Table.addTimer, hs, insert]
      exact List.mem_cons_self
    | cons t ts =>
      have h₀ : 0 ≤ t.delta := h t (hs ▸ List.mem_cons_self)
      have hfirst : (r.node s.ntimers).delta ≤ t.delta := by omega
      refine ⟨r.node s.ntimers, ?_, hnode⟩
      rw [Table.addTimer, hs, insert, if_pos hfirst]
      exact List.mem_cons_self
  obtain ⟨u, hu, hlt⟩ := hmem
  exact absurd (ht.1 u hu) (not_le.mpr hlt)

/-- While an `int` holds the delays, no delta is negative. The next delay keeps it so if and
only if an `int` holds it as well. -/
theorem deltas_nonneg (h : Reach Table.stepTimers Holds ⟨[], 0⟩ s) :
    Timely s ∧ ∀ r, Timely (s.addTimer r) ↔ r.msec.toNat < 2 ^ 31 := by
  have hk := reach_kept h
  have hnn : ∀ t ∈ s.timers, 0 ≤ t.delta := fun t ht => (hk.range.delta t ht).1
  refine ⟨timely_of_nonneg hnn, fun r => ⟨fun ht => ?_, fun hr => ?_⟩⟩
  · by_contra hlarge
    exact not_timely hnn (not_lt.mp hlarge) ht
  · exact timely_of_nonneg fun t ht => ((hk.add hr).range.delta t ht).1

/-- Five steps, and as many as an `unsigned int` has. -/
def passedFive : Passed Unit := ⟨5, 1, ()⟩

def passedMost : Passed Unit := ⟨0xFFFFFFFF, 1, ()⟩

/-- The timer with the delay 5, one step later. -/
def fourLeft : Table Unit := ⟨[⟨5, 4, 1, 0, ()⟩], 1⟩

theorem deltas_nonneg_five :
    Timely fourLeft ∧ ¬Timely (fourLeft.addTimer passedMost) := by
  have hfive : passedFive.delta = 5 := by decide
  have hfour : toInt32 (5 - 1) = 4 := by decide
  have hholds : Holds ⟨[], 0⟩ (.add passedFive) := show (5 : ℕ) < 2 ^ 31 by decide
  have hadded : Reach Table.stepTimers Holds ⟨[], 0⟩ (Table.addTimer ⟨[], 0⟩ passedFive) :=
    Reach.start.step hholds rfl
  have hpass : Holds (Table.addTimer ⟨[], 0⟩ passedFive) (.tick []) := ⟨by simp, by simp⟩
  have htick : (Table.addTimer ⟨[], 0⟩ passedFive).stepTimers (.tick []) = .ok fourLeft := by
    simp only [Table.stepTimers, Table.addTimer, insert, Passed.node, hfive]
    rw [Table.tickTimers]
    simp only [hfour]
    rfl
  have hreach : Reach Table.stepTimers Holds ⟨[], 0⟩ fourLeft := hadded.step hpass htick
  obtain ⟨ht, hadd⟩ := deltas_nonneg hreach
  exact ⟨ht, fun h => absurd ((hadd passedMost).mp h) (by decide)⟩

/-- A timer is pending, and the event loop waits as if there were none. -/
theorem waits_for_ever : ¬∀ s : Table Unit,
    Reach Table.stepTimers (fun _ _ => True) ⟨[], 0⟩ s → Timely s := by
  intro h
  obtain ⟨-, hfirst⟩ := h (Table.addTimer ⟨[], 0⟩ passedMost)
    (.step .start (e := .add passedMost) trivial rfl)
  have hwait : (Table.addTimer ⟨[], 0⟩ passedMost).getFirstTimerMs = -1 := by decide
  exact absurd (hfirst.mp hwait) (by simp [Table.addTimer, insert])

end ApeServer.Ticks
