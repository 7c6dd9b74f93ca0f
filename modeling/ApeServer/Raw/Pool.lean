import ApeServer.Transports

/-!
# Raw pools of a subuser

`struct _raw_pool` cells live in one memory that only grows, a cell's address is its
index there. A pointer is an `Option ℕ`; following NULL gives `none`.
-/
namespace ApeServer

open Sock (Bytes)

inductive Priority where
  | lo
  | hi
deriving DecidableEq, Repr

/-- `RAW`: `len` is the length of `data`. -/
structure Raw where
  data : Bytes
  priority : Priority
deriving DecidableEq

namespace RawPool

/-- `struct _raw_pool`. -/
structure Cell where
  raw : Option Raw
  next : Option ℕ
  prev : Option ℕ
  start : Bool

/-- `struct _raw_pool_user`. -/
structure Pool where
  nraw : ℕ
  size : ℕ
  rawhead : Option ℕ
  rawfoot : Option ℕ

/-- The `raw_pools` of a subuser with the memory its cells live in. -/
structure Pools where
  mem : List Cell
  low : Pool
  high : Pool
  nraw : ℕ

/-- Cell `i` of the `n` cells that `init_raw_pool` places at `base`. -/
def initCell (base n i : ℕ) : Cell :=
  { raw := none
    next := if i = n - 1 then none else some (base + i + 1)
    prev := if i = 0 then none else some (base + i - 1)
    start := i = 0 }

/-- `init_raw_pool`: the new memory and the address of the first cell. -/
def initRawPool (mem : List Cell) (n : ℕ) : List Cell × ℕ :=
  (mem ++ (List.range n).map (initCell mem.length n), mem.length)

/-- `expend_raw_pool`: link `n` fresh cells behind the cell `ptr`. -/
def expendRawPool (mem : List Cell) (ptr : Option ℕ) (n : ℕ) : Option (List Cell) := do
  let a ← ptr
  let (mem, pool) := initRawPool mem n
  let last ← mem[a]?
  let mem := mem.set a { last with next := some pool }
  let first ← mem[pool]?
  pure (mem.set pool { first with prev := some a })

/-- The part of `post_raw_sub` that works on the pool chosen by the priority. -/
def postPool (mem : List Cell) (pool : Pool) (raw : Raw) : Option (List Cell × Pool) := do
  let addSize := 16
  let pool := { pool with nraw := pool.nraw + 1 }
  let (mem, pool) ←
    if pool.nraw = pool.size then do
      let mem ← expendRawPool mem pool.rawfoot addSize
      pure (mem, { pool with size := pool.size + addSize })
    else pure (mem, pool)
  let a ← pool.rawfoot
  let foot ← mem[a]?
  pure (mem.set a { foot with raw := some raw }, { pool with rawfoot := foot.next })

def postRawSub (raw : Raw) (s : Pools) : Option Pools :=
  match raw.priority with
  | .lo => do
    let (mem, low) ← postPool s.mem s.low raw
    pure { s with mem, low, nraw := s.nraw + 1 }
  | .hi => do
    let (mem, high) ← postPool s.mem s.high raw
    pure { s with mem, high, nraw := s.nraw + 1 }

/-- The pools as `addsubuser` allocates them. -/
def newPools : Pools :=
  let (mem, low) := initRawPool [] 32
  let (mem, high) := initRawPool mem 8
  { mem
    low := { nraw := 0, size := 32, rawhead := some low, rawfoot := some low }
    high := { nraw := 0, size := 8, rawhead := some high, rawfoot := some high }
    nraw := 0 }

/-- `pool->raw` behind a pointer that may be NULL. -/
def rawAt (mem : List Cell) (pool : Option ℕ) : Option Raw :=
  (pool.bind (mem[·]?)).bind Cell.raw

/-- Cells that still hold a raw: every turn of the writing loop empties one. -/
def filled (mem : List Cell) : ℕ := mem.countP (·.raw.isSome)

theorem filled_set_lt {mem : List Cell} {a : ℕ} {cell : Cell} (h : mem[a]? = some cell)
    (hr : cell.raw.isSome) : filled (mem.set a { cell with raw := none }) < filled mem := by
  obtain ⟨ha, he⟩ := List.getElem?_eq_some_iff.mp h
  rw [filled, filled, List.countP_set ha]
  have hpos : 0 < List.countP (·.raw.isSome) mem :=
    List.countP_pos_iff.mpr ⟨cell, List.mem_of_getElem? h, hr⟩
  simp only [he, hr, ↓reduceIte, Option.isSome_none, Bool.false_eq_true, add_zero]
  omega

/-- The writing loop of `send_raws`: the pieces it hands to `sendbin` and the emptied
memory. `state` is 0 while it walks the high pool backwards. -/
def sendLoop (right : Option Bytes) (low : Pool) (mem : List Cell) (pool : Option ℕ)
    (state : Bool) : Option (List Bytes × List Cell) :=
  match pool with
  | none => none
  | some a =>
    match hc : mem[a]? with
    | none => none
    | some cell =>
      match hr : cell.raw with
      | none => some ([], mem)
      | some raw =>
        let poolNext := if state then cell.next else cell.prev
        let sep := if (rawAt mem poolNext).isSome || (!state && low.nraw != 0) then
            [bytes ","] else bytes "]" :: right.toList
        have := filled_set_lt hc (by simp [hr])
        -- `free_raw(pool->raw); pool->raw = NULL;`
        let mem' := mem.set a { cell with raw := none }
        let rest :=
          if (rawAt mem' poolNext).isNone && !state then sendLoop right low mem' low.rawhead true
          else sendLoop right low mem' poolNext state
        rest.map fun (out, mem'') => (raw.data :: sep ++ out, mem'')
termination_by filled mem

section

variable {right : Option Bytes} {low : Pool} {mem : List Cell} {a : ℕ} {cell : Cell}

theorem sendLoop_empty (state : Bool) (hc : mem[a]? = some cell) (hr : cell.raw = none) :
    sendLoop right low mem (some a) state = some ([], mem) := by
  rw [sendLoop.eq_def]
  grind

theorem sendLoop_raw {raw : Raw} (state : Bool) (hc : mem[a]? = some cell)
    (hr : cell.raw = some raw) :
    sendLoop right low mem (some a) state =
      let poolNext := if state then cell.next else cell.prev
      let sep := if (rawAt mem poolNext).isSome || (!state && low.nraw != 0) then
          [bytes ","] else bytes "]" :: right.toList
      let mem' := mem.set a { cell with raw := none }
      let rest :=
        if (rawAt mem' poolNext).isNone && !state then sendLoop right low mem' low.rawhead true
        else sendLoop right low mem' poolNext state
      rest.map fun (out, mem'') => (raw.data :: sep ++ out, mem'') := by
  rw [sendLoop.eq_def]
  grind

end

end RawPool
end ApeServer
