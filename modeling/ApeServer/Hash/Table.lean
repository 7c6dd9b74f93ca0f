import ApeServer.Server.State

/-!
# Hash tables

`hash.c` with its items in memory: an item is in the chain of its bucket and in the list of
all items of its table. An address is a number; following NULL or an address that is not in
use gives `none`.
-/
namespace ApeServer.Hash

open Sock (Bytes)

def hachTableMax : ℕ := 5381

/-- A `char` as the `int` it becomes. -/
def char (c : UInt8) : BitVec 32 := c.toBitVec.signExtend 32

def hachString (str : Bytes) : ℕ :=
  let hash := str.foldl
    (fun (hash : BitVec 32) c => ((hash <<< 5) + hash) + char (Http.tolower c)) 5381#32
  (hash &&& 0x7FFFFFFF#32).toNat % (hachTableMax - 1)

/-- `HTBL_ITEM`. -/
structure HtblItem (α : Type) where
  key : Bytes
  addrs : α
  next : Option ℕ
  lnext : Option ℕ
  lprev : Option ℕ

/-- `HTBL` with the memory its items live in; no address from `brk` on was ever in use. -/
structure Table (α : Type) where
  first : Option ℕ
  table : ℕ → Option ℕ
  mem : ℕ → Option (HtblItem α)
  brk : ℕ

namespace Table

variable {α : Type}

def hashtblInit : Table α :=
  { first := none, table := fun _ => none, mem := fun _ => none, brk := 0 }

def store (t : Table α) (p : ℕ) (item : Option (HtblItem α)) : Table α :=
  { t with mem := Function.update t.mem p item }

/-- A write to fields of the item behind a pointer. -/
def write (t : Table α) (p : ℕ) (f : HtblItem α → HtblItem α) : Option (Table α) := do
  let item ← t.mem p
  return t.store p (some (f item))

/-- The loop that looks for an item with the key. -/
def chase (t : Table α) (key : Bytes) : ℕ → Option ℕ → Option (Option ℕ)
  | 0, _ => none
  | _ + 1, none => some none
  | fuel + 1, some p => do
    let item ← t.mem p
    if strcaseeq item.key key then return some p else chase t key fuel item.next

/-- The last part of `hashtbl_append`, for a key that no item has. -/
def link (t : Table α) (keyHash hTmp : ℕ) : Option (Table α) := do
  let t ← match t.first with
    | some p => t.write p fun item => { item with lprev := some hTmp }
    | none => some t
  return { t with
    first := some hTmp
    table := Function.update t.table keyHash (some hTmp)
    brk := max t.brk (hTmp + 1) }

/-- `hashtbl_append`; `hTmp` is what `xmalloc` gives. -/
def hashtblAppend (t : Table α) (key : Bytes) (structaddr : α) (hTmp : ℕ) :
    Option (Table α) := do
  let keyHash := hachString key
  let item : HtblItem α :=
    { key, addrs := structaddr, next := none, lnext := t.first, lprev := none }
  let found ← (t.store hTmp (some item)).chase key (t.brk + 1) (t.table keyHash)
  match found with
  | some hDbl =>
    -- the new item is given back
    (t.store hTmp none).write hDbl fun item => { item with addrs := structaddr }
  | none => (t.store hTmp (some { item with next := t.table keyHash })).link keyHash hTmp

def unlinkChain (t : Table α) (keyHash : ℕ) (hPrev : Option ℕ) (item : HtblItem α) :
    Option (Table α) :=
  match hPrev with
  | some p => t.write p fun prev => { prev with next := item.next }
  | none => some { t with table := Function.update t.table keyHash item.next }

def unlinkPrev (t : Table α) (item : HtblItem α) : Option (Table α) :=
  match item.lprev with
  | none => some { t with first := item.lnext }
  | some p => t.write p fun prev => { prev with lnext := item.lnext }

def unlinkNext (t : Table α) (item : HtblItem α) : Option (Table α) :=
  match item.lnext with
  | some p => t.write p fun next => { next with lprev := item.lprev }
  | none => some t

/-- What `hashtbl_erase` does with the item it finds. -/
def unlink (t : Table α) (keyHash : ℕ) (hPrev : Option ℕ) (hTmp : ℕ) (item : HtblItem α) :
    Option (Table α) := do
  let t ← t.unlinkChain keyHash hPrev item
  let t ← t.unlinkPrev item
  let t ← t.unlinkNext item
  return t.store hTmp none

def eraseLoop (t : Table α) (key : Bytes) (keyHash : ℕ) :
    ℕ → Option ℕ → Option ℕ → Option (Table α)
  | 0, _, _ => none
  | _ + 1, _, none => some t
  | fuel + 1, hPrev, some hTmp => do
    let item ← t.mem hTmp
    if strcaseeq item.key key then t.unlink keyHash hPrev hTmp item
    else eraseLoop t key keyHash fuel (some hTmp) item.next

def hashtblErase (t : Table α) (key : Bytes) : Option (Table α) :=
  let keyHash := hachString key
  t.eraseLoop key keyHash (t.brk + 1) none (t.table keyHash)

/-- `hashtbl_seek`; the inner `none` is NULL. -/
def hashtblSeek (t : Table α) (key : Bytes) : Option (Option α) := do
  match ← t.chase key (t.brk + 1) (t.table (hachString key)) with
  | some p => return some (← t.mem p).addrs
  | none => return none

end Table

end ApeServer.Hash
