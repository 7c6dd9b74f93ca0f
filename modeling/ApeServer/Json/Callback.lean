import ApeServer.Json.Tree
import ApeServer.Lib.Steps

/-!
# `json_callback`

The parser reports a text event by event and `json_callback` builds the tree in memory. It has
no stack: where the next item goes follows from `current_cx`, its father and two flags. The
address of an item is the number of items allocated before it.
-/
namespace ApeServer.Json

open Sock (Bytes)

variable {F : Type}

/-- `json_item`. -/
structure Cell (F : Type) extends Fields F where
  father : Option ℕ
  child : Option ℕ
  next : Option ℕ

/-- The items allocated so far. -/
structure Heap (F : Type) where
  size : ℕ
  cell : ℕ → Cell F

/-- A type and the value that comes with it. -/
inductive Event (F : Type) where
  | objectBegin
  | arrayBegin
  | objectEnd
  | arrayEnd
  | key (name : Bytes)
  | integer (n : ℤ)
  | float (x : F)
  | null
  | true
  | false
  | string (s : Bytes)

/-- `json_context`. -/
structure Context (F : Type) where
  keyUnder : Bool
  startDepth : Bool
  head : Option ℕ
  current : Option ℕ
  heap : Heap F

namespace Heap

def alloc (h : Heap F) (c : Cell F) : Heap F :=
  { size := h.size + 1, cell := Function.update h.cell h.size c }

def modify (h : Heap F) (p : ℕ) (f : Cell F → Cell F) : Heap F :=
  { h with cell := Function.update h.cell p (f (h.cell p)) }

@[simp] theorem size_alloc (h : Heap F) (c : Cell F) : (h.alloc c).size = h.size + 1 := rfl

@[simp] theorem size_modify (h : Heap F) (p : ℕ) (f : Cell F → Cell F) :
    (h.modify p f).size = h.size := rfl

@[simp] theorem cell_alloc_self (h : Heap F) (c : Cell F) : (h.alloc c).cell h.size = c := by
  simp [alloc]

theorem cell_alloc_of_ne (h : Heap F) (c : Cell F) {p : ℕ} (hp : p ≠ h.size) :
    (h.alloc c).cell p = h.cell p := by
  simp [alloc, hp]

@[simp] theorem cell_modify_self (h : Heap F) (p : ℕ) (f : Cell F → Cell F) :
    (h.modify p f).cell p = f (h.cell p) := by
  simp [modify]

theorem cell_modify_of_ne (h : Heap F) (f : Cell F → Cell F) {p q : ℕ} (hq : q ≠ p) :
    (h.modify p f).cell q = h.cell q := by
  simp [modify, hq]

/-- `free_json_item`: the items it frees, in its order. -/
def freeJsonItem (h : Heap F) : ℕ → Option ℕ → Option (List ℕ)
  | _, none => some []
  | 0, some _ => none
  | fuel + 1, some cx => do
    let below ← freeJsonItem h fuel (h.cell cx).child
    let after ← freeJsonItem h fuel (h.cell cx).next
    return below ++ cx :: after

end Heap

section Callback

variable [Zero F]

def newCell (father : Option ℕ) : Cell F :=
  { toFields := initJsonItem, father, child := none, next := none }

namespace Context

/-- The context `init_json_parser` starts with. -/
def start : Context F :=
  { keyUnder := false, startDepth := false, head := none, current := none
    heap := { size := 0, cell := fun _ => newCell none } }

/-- A new item as the first child of `current_cx` or as its next sibling. -/
def grow (cx : Context F) (c : ℕ) : Context F :=
  let jval := cx.heap.size
  if cx.startDepth then
    { cx with
      heap := (cx.heap.alloc (newCell (some c))).modify c fun i => { i with child := some jval }
      current := some jval }
  else
    { cx with
      heap := (cx.heap.alloc (newCell (cx.heap.cell c).father)).modify c fun i =>
        { i with next := some jval }
      current := some jval }

/-- The first part of a `BEGIN`: after a key the item is there already. -/
def growBegin (cx : Context F) : Context F :=
  if cx.keyUnder then cx
  else
    match cx.current with
    | some c => cx.grow c
    | none => { cx with heap := cx.heap.alloc (newCell none), current := some cx.heap.size }

/-- The first part of a value. -/
def growValue (cx : Context F) : Option (Context F) :=
  if cx.keyUnder then some cx
  else do
    let c ← cx.current
    return { cx.grow c with startDepth := false }

/-- A write to fields of `current_cx`. -/
def setCurrent (cx : Context F) (f : Fields F → Fields F) : Option (Context F) := do
  let c ← cx.current
  return { cx with heap := cx.heap.modify c fun i => { i with toFields := f i.toFields } }

def beginContainer (cx : Context F) (t : ChildType) : Option (Context F) := do
  let cx ← cx.growBegin.setCurrent fun f => { f with childType := t }
  return { cx with startDepth := true, keyUnder := false }

/-- A father that is there is gone back to, unless the container has no child. -/
def endContainer (cx : Context F) : Option (Context F) := do
  let c ← cx.current
  let back := if cx.startDepth then some c else (cx.heap.cell c).father.or (some c)
  return { cx with current := back, startDepth := false, keyUnder := false }

def keyOf (cx : Context F) (name : Bytes) : Option (Context F) := do
  let c ← cx.current
  let cx := { cx.grow c with startDepth := false, keyUnder := true }
  cx.setCurrent fun f => { f with key := some name }

def value (cx : Context F) (f : Fields F → Fields F) : Option (Context F) := do
  let cx ← cx.growValue
  let cx ← cx.setCurrent f
  return { cx with keyUnder := false }

/-- The last part of `json_callback`. -/
def keepHead (cx : Context F) : Context F := { cx with head := cx.head.or cx.current }

/-- `json_callback`; `none` is a NULL pointer followed. -/
def jsonCallback (cx : Context F) (e : Event F) : Option (Context F) :=
  keepHead <$>
    match e with
    | .objectBegin => cx.beginContainer .obj
    | .arrayBegin => cx.beginContainer .arr
    | .objectEnd | .arrayEnd => cx.endContainer
    | .key name => cx.keyOf name
    | .integer n => cx.value fun f => { f with integer := n, type := some .integer }
    | .float x => cx.value fun f => { f with float := x, type := some .float }
    | .null => cx.value fun f => { f with integer := 0, type := some .null }
    | .true => cx.value fun f => { f with integer := 1, type := some .true }
    | .false => cx.value fun f => { f with integer := 0, type := some .false }
    | .string s => cx.value fun f => { f with str := some s, type := some .string }

end Context

end Callback

end ApeServer.Json
