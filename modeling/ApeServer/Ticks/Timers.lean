import ApeServer.Sock.Bufout

/-!
# Timers

The timers of `ticks.c`, a list in which every timer waits for the ones before it. What the
callbacks do is a parameter: which timers each call adds, and whether it sets its `last` flag.
-/
namespace ApeServer.Ticks

open Sock (toInt32)

/-- A `_ticks_callback`; `func` is the callback with its `params`. -/
structure TicksCallback (φ : Type) where
  ticks_need : ℤ
  delta : ℤ
  times : ℤ
  identifier : ℕ
  func : φ

/-- The arguments of `add_periodical`. -/
structure Request (φ : Type) where
  msec : ℕ
  times : ℤ
  func : φ
  range : 1 ≤ msec ∧ msec < 2 ^ 31

/-- The arguments of `add_timeout`, which leaves `times` at 1. -/
def Request.timeout {φ : Type} (msec : ℕ) (func : φ) (range : 1 ≤ msec ∧ msec < 2 ^ 31) :
    Request φ := ⟨msec, 1, func, range⟩

/-- What one call of a callback does. -/
structure Reaction (φ : Type) where
  adds : List (Request φ)
  last : Bool

/-- A timer that was added after `since` ticks, or in that tick. -/
structure Added (φ : Type) where
  since : ℕ
  request : Request φ

/-- A call of a callback. -/
structure Call (φ : Type) where
  tick : ℕ
  identifier : ℕ
  func : φ
  last : Bool

/-- The timers, with the number of ticks so far and what was added and called in them. -/
structure Timers (φ : Type) where
  timers : List (TicksCallback φ)
  ntimers : ℕ
  now : ℕ
  added : List (Added φ)
  calls : List (Call φ)

variable {φ : Type}

def Timers.init : Timers φ := ⟨[], 0, 0, [], []⟩

/-- The loop of `add_timeout`. The identifier and the times of a node are written by the
callers of `add_timeout`; the loop does not read them. -/
def insert (new : TicksCallback φ) : List (TicksCallback φ) → List (TicksCallback φ)
  | [] => [new]
  | t :: ts =>
    if new.delta ≤ t.delta then new :: { t with delta := toInt32 (t.delta - new.delta) } :: ts
    else t :: insert { new with delta := toInt32 (new.delta - t.delta) } ts

/-- `times` after a call. -/
def left (times : ℤ) : ℤ := if times > 0 then times - 1 else times

/-- Whether a call with this `times` is the last one by count. -/
def lastcall (times : ℤ) : Bool := decide (times > 0) && decide (left times = 0)

namespace Timers

def setTimers (s : Timers φ) (l : List (TicksCallback φ)) : Timers φ := { s with timers := l }

def addPeriodical (s : Timers φ) (r : Request φ) : Timers φ :=
  { s with
    timers := insert ⟨toInt32 r.msec, toInt32 r.msec, r.times, s.ntimers, r.func⟩ s.timers
    ntimers := s.ntimers + 1
    added := s.added ++ [⟨s.now, r⟩] }

/-- `timers->next` of the node with this identifier. -/
def next (identifier : ℕ) : List (TicksCallback φ) → List (TicksCallback φ)
  | [] => []
  | t :: ts => if t.identifier = identifier then ts else next identifier ts

/-- `timers->delta++` of the first node. -/
def bump : List (TicksCallback φ) → List (TicksCallback φ)
  | [] => []
  | t :: ts => { t with delta := toInt32 (t.delta + 1) } :: ts

/-- The body of the loop of `process_tick`, for a node whose delta has run out. Its callback
is called while it is still the first one. -/
def call (react : Timers φ → TicksCallback φ → Reaction φ) (s : Timers φ)
    (t : TicksCallback φ) (ts : List (TicksCallback φ)) : Timers φ :=
  let lastcall := lastcall t.times
  let t := { t with times := left t.times }
  let s := s.setTimers (t :: ts)
  let r := react s t
  let s := r.adds.foldl addPeriodical s
  let rest := next t.identifier s.timers
  let rest := if lastcall || r.last then rest else
    insert { t with delta := t.ticks_need } rest
  let calls := s.calls ++ [⟨s.now, t.identifier, t.func, r.last⟩]
  { s with timers := bump rest, calls := calls }

/-- The loop of `process_tick`, as long as there is fuel. -/
def processLoop (react : Timers φ → TicksCallback φ → Reaction φ) :
    ℕ → Timers φ → Option (Timers φ)
  | 0, _ => none
  | fuel + 1, s =>
    match s.timers with
    | [] => some s
    | t :: ts =>
      let t := { t with delta := toInt32 (t.delta - 1) }
      if t.delta ≤ 0 then processLoop react fuel (s.call react t ts)
      else some (s.setTimers (t :: ts))

/-- `process_tick`; every timer in the list can be called once. -/
def processTick (react : Timers φ → TicksCallback φ → Reaction φ) (s : Timers φ) :
    Option (Timers φ) :=
  processLoop react (s.timers.length + 1) { s with now := s.now + 1 }

end Timers

/-- What is done between two ticks, or a tick. -/
inductive Op (φ : Type)
  | add (r : Request φ)
  | tick

namespace Timers

def step (react : Timers φ → TicksCallback φ → Reaction φ) (s : Timers φ) :
    Op φ → Option (Timers φ)
  | .add r => some (s.addPeriodical r)
  | .tick => s.processTick react

end Timers

end ApeServer.Ticks
