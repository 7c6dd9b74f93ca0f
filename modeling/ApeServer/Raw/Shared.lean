import ApeServer.Lib.RefCount
import ApeServer.Raw.Queue
import ApeServer.Server.State

/-!
# Shared raws

A raw posted to several subusers is one record with a counter, and the slots of their pools
point to it. The pools are the queues that their cells represent; a freed record holds
`none`, and its address, the index in its memory, is never given out again.
-/
namespace ApeServer.Shared

open RawPool (Queue)

abbrev RawId := ℕ

/-- `RAW` with its counter. -/
structure SharedRaw where
  raw : Raw
  refcount : ℤ
deriving DecidableEq

/-- The filled slots of `raw_pools`, each pool in posting order. -/
structure Slots where
  low : List RawId
  high : List RawId
deriving DecidableEq

def Slots.push (p : Slots) (r : RawId) : Priority → Slots
  | .lo => { p with low := p.low ++ [r] }
  | .hi => { p with high := p.high ++ [r] }

def Slots.all (p : Slots) : List RawId := p.low ++ p.high

/-- All raws, the pools of all subusers and the subusers of each user, the newest first. -/
structure Raws where
  heap : List (Option SharedRaw)
  pools : List (Option Slots)
  subuser : UserId → List SubId

namespace Raws

def init : Raws := { heap := [], pools := [], subuser := fun _ => [] }

/-- Following a pointer to a raw. -/
def raw (s : Raws) (r : RawId) : Except Halt SharedRaw :=
  match s.heap[r]? with
  | some (some x) => .ok x
  | _ => .error .freed

/-- The pools of a subuser that has not been deleted. -/
def pool (s : Raws) (i : SubId) : Except Halt Slots :=
  match s.pools[i]? with
  | some (some p) => .ok p
  | _ => .error .freed

@[simps]
def setRaw (s : Raws) (r : RawId) (x : Option SharedRaw) : Raws :=
  { s with heap := s.heap.set r x }

@[simps]
def setPool (s : Raws) (i : SubId) (p : Option Slots) : Raws :=
  { s with pools := s.pools.set i p }

/-- `forge_raw`, with the priority its caller gives the raw before it is posted. -/
@[simps]
def forgeRaw (s : Raws) (raw : Raw) : Raws := { s with heap := s.heap ++ [some ⟨raw, 0⟩] }

def freeRaw (s : Raws) (r : RawId) : Except Halt Raws := do
  let x ← s.raw r
  if x.refcount - 1 ≤ 0 then return s.setRaw r none
  else return s.setRaw r (some { x with refcount := x.refcount - 1 })

def copyRawZ (s : Raws) (r : RawId) : Except Halt Raws := do
  let x ← s.raw r
  return s.setRaw r (some { x with refcount := x.refcount + 1 })

def postRawSub (s : Raws) (r : RawId) (i : SubId) : Except Halt Raws := do
  let x ← s.raw r
  let p ← s.pool i
  return s.setPool i (some (p.push r x.raw.priority))

/-- `post_raw_sub(copy_raw_z(raw), sub)`. -/
def postCopy (s : Raws) (r : RawId) (i : SubId) : Except Halt Raws := do
  let s ← s.copyRawZ r
  s.postRawSub r i

def postRaw (s : Raws) (r : RawId) (u : UserId) : Except Halt Raws :=
  (s.subuser u).foldlM (fun s i => s.postCopy r i) s

/-- `post_raw_restricted`; without a subuser to spare nobody gets the raw. -/
def postRawRestricted (s : Raws) (r : RawId) (u : UserId) (sub : Option SubId) :
    Except Halt Raws :=
  match sub with
  | none => .ok s
  | some j => (s.subuser u).foldlM (fun s i => if j ≠ i then s.postCopy r i else .ok s) s

/-- `post_raw_channel`, with the users of the channel; `none` is NULL. -/
def postRawChannel (s : Raws) (r : RawId) (chan : Option (List UserId)) : Except Halt Raws :=
  match chan with
  | none | some [] => .ok s
  | some list => list.foldlM (fun s u => s.postRaw r u) s

def postRawChannelRestricted (s : Raws) (r : RawId) (chan : Option (List UserId))
    (ruser : UserId) : Except Halt Raws :=
  match chan with
  | none | some [] => .ok s
  | some list => list.foldlM (fun s u => if u ≠ ruser then s.postRaw r u else .ok s) s

/-- A turn of the loop in `addsubuser`, with the counter made exact first. -/
def shareRaw (i : SubId) (s : Raws) (r : RawId) : Except Halt Raws := do
  let x ← s.raw r
  let s := if x.refcount = 0 then s.setRaw r (some { x with refcount := 1 }) else s
  s.postCopy r i

/-- `addsubuser` for a host that the user has no subuser for yet. -/
def addsubuser (s : Raws) (u : UserId) : Except Halt Raws :=
  let i := s.pools.length
  let previous := s.subuser u
  let s := { s with
    pools := s.pools ++ [some ⟨[], []⟩]
    subuser := Function.update s.subuser u (i :: previous) }
  match previous with
  | [] => .ok s
  | j :: _ => do
    let p ← s.pool j
    p.low.foldlM (shareRaw i) s

/-- The loop of `send_raws`: the raws it writes, each freed once it is written. -/
def sendLoop (s : Raws) : List RawId → Except Halt (List Raw × Raws)
  | [] => .ok ([], s)
  | r :: rest => do
    let x ← s.raw r
    let s ← s.freeRaw r
    let (out, s) ← sendLoop s rest
    return (x.raw :: out, s)

/-- `send_raws`: the high pool from its foot back, then the low pool. -/
def sendRaws (s : Raws) (i : SubId) : Except Halt (List Raw × Raws) := do
  let p ← s.pool i
  if p.low.length + p.high.length = 0 then return ([], s)
  let (out, s) ← s.sendLoop (p.high.reverse ++ p.low)
  return (out, s.setPool i (some ⟨[], []⟩))

def destroyRawPool (s : Raws) (pool : List RawId) : Except Halt Raws := pool.foldlM freeRaw s

/-- `delsubuser` on the link of `u` that holds `i`. -/
def delsubuser (s : Raws) (u : UserId) (i : SubId) : Except Halt Raws := do
  let p ← s.pool i
  let s := { s with subuser := Function.update s.subuser u ((s.subuser u).erase i) }
  let s ← s.destroyRawPool p.low
  let s ← s.destroyRawPool p.high
  return s.setPool i none

/-- The operations on the queues; every post forges its raw. -/
inductive Op where
  | postRawSub (raw : Raw) (i : SubId)
  | postRaw (raw : Raw) (u : UserId)
  | postRawRestricted (raw : Raw) (u : UserId) (sub : Option SubId)
  | postRawChannel (raw : Raw) (chan : Option (List UserId))
  | postRawChannelRestricted (raw : Raw) (chan : Option (List UserId)) (ruser : UserId)
  | addsubuser (u : UserId)
  | sendRaws (i : SubId)
  | delsubuser (u : UserId) (i : SubId)

/-- The address of the raw that is forged next. -/
def next (s : Raws) : RawId := s.heap.length

def step (s : Raws) : Op → Except Halt Raws
  | .postRawSub raw i => (s.forgeRaw raw).postRawSub s.next i
  | .postRaw raw u => (s.forgeRaw raw).postRaw s.next u
  | .postRawRestricted raw u sub => (s.forgeRaw raw).postRawRestricted s.next u sub
  | .postRawChannel raw chan => (s.forgeRaw raw).postRawChannel s.next chan
  | .postRawChannelRestricted raw chan ruser =>
    (s.forgeRaw raw).postRawChannelRestricted s.next chan ruser
  | .addsubuser u => s.addsubuser u
  | .sendRaws i => (s.sendRaws i).map Prod.snd
  | .delsubuser u i => s.delsubuser u i

/-- A subuser is addressed while it lives, and deleted from the list that holds it. -/
def Allowed (s : Raws) : Op → Prop
  | .postRawSub _ i | .sendRaws i => i < s.pools.length ∧ s.pools[i]? ≠ some none
  | .delsubuser u i => i ∈ s.subuser u
  | _ => True

instance (s : Raws) : ∀ op, Decidable (s.Allowed op)
  | .postRawSub _ i | .sendRaws i =>
    inferInstanceAs (Decidable (i < s.pools.length ∧ s.pools[i]? ≠ some none))
  | .delsubuser u i => inferInstanceAs (Decidable (i ∈ s.subuser u))
  | .postRaw _ _ | .postRawRestricted _ _ _ | .postRawChannel _ _
  | .postRawChannelRestricted _ _ _ | .addsubuser _ => inferInstanceAs (Decidable True)

/-- What the slots of a subuser hold; a deleted one has none. -/
def held : Option Slots → List RawId
  | some p => p.all
  | none => []

/-- The slots of all pools of all subusers. -/
def slots (s : Raws) : List RawId := s.pools.flatMap held

/-- The counter of every raw that has not been freed. -/
def refs (s : Raws) (r : RawId) : Option ℤ := s.heap[r]?.join.map SharedRaw.refcount

end Raws

end ApeServer.Shared
