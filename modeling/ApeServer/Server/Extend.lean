import ApeServer.Server.Pipe

/-!
# The properties of an object

`extend.c` with its entries in memory, and what `get_json_object_user` shows of them. An address
is a number; following NULL or an address that is not in use gives `none`.
-/
namespace ApeServer

open Sock (Bytes)

mutual

/-- `json_item_copy` of an item without siblings. -/
def JsonItem.copy : JsonItem → JsonItem
  | .mk k t s n c => .mk k t s (if s = none then n else 0) (copyChildren c)

def JsonItem.copyChildren : List JsonItem → List JsonItem
  | [] => []
  | i :: rest => i.copy :: copyChildren rest

end

def extendKeyLength : ℕ := 32

/-- `type` and `val`: a text, a tree, a pointer, or a value of a type that is none of them. -/
inductive ExtendVal where
  | str (val : Bytes)
  | json (val : JsonItem)
  | pointer (val : ℕ)
  | other (etype val : ℕ)

/-- `EXTEND_PUBLIC`. -/
inductive ExtendPublic where
  | isPublic
  | isPrivate
deriving DecidableEq, Repr

/-- What an entry holds. -/
structure Property where
  key : Bytes
  val : ExtendVal
  visibility : ExtendPublic

/-- `extend`. -/
structure ExtendItem extends Property where
  next : Option ℕ

/-- What the `switch` of `add_property` stores. -/
def newProperty (key : Bytes) : ExtendVal → ExtendPublic → Property
  | .str val, visibility => { key, val := .str val, visibility }
  | .json val, visibility => { key, val := .json val, visibility }
  -- a pointer must be a private property
  | .pointer val, _ => { key, val := .pointer val, visibility := .isPrivate }
  | .other etype val, _ => { key, val := .other etype val, visibility := .isPrivate }

/-- A `properties` pointer with the memory that entries live in; no address from `brk` on was
ever in use. -/
structure Properties where
  entry : Option ℕ
  mem : ℕ → Option ExtendItem
  brk : ℕ

/-- An `extend **`: the address of `properties`, or of the `next` of an entry. -/
inductive Link where
  | head
  | next (p : ℕ)

namespace Properties

def init : Properties := { entry := none, mem := fun _ => none, brk := 0 }

def store (t : Properties) (p : ℕ) (e : Option ExtendItem) : Properties :=
  { t with mem := Function.update t.mem p e }

/-- `*entry`. -/
def deref (t : Properties) : Link → Option (Option ℕ)
  | .head => some t.entry
  | .next p => (t.mem p).map ExtendItem.next

/-- `*entry = q`. -/
def assign (t : Properties) (q : Option ℕ) : Link → Option Properties
  | .head => some { t with entry := q }
  | .next p => do
    let e ← t.mem p
    return t.store p (some { e with next := q })

/-- The loop of `get_property`. -/
def getLoop (t : Properties) (key : Bytes) : ℕ → Option ℕ → Option (Option ℕ)
  | 0, _ => none
  | _ + 1, none => some none
  | fuel + 1, some p => do
    let e ← t.mem p
    if e.key = key then return some p else t.getLoop key fuel e.next

def getProperty (t : Properties) (key : Bytes) : Option (Option ℕ) :=
  t.getLoop key (t.brk + 1) t.entry

/-- The loop of `del_property`. -/
def delLoop (t : Properties) (key : Bytes) : ℕ → Link → Option Properties
  | 0, _ => none
  | fuel + 1, entry => do
    match ← t.deref entry with
    | none => return t
    | some pEntry =>
      let e ← t.mem pEntry
      if e.key = key then
        let t ← t.assign e.next entry
        return t.store pEntry none
      else t.delLoop key fuel (.next pEntry)

def delProperty (t : Properties) (key : Bytes) : Option Properties :=
  t.delLoop key (t.brk + 1) .head

/-- `add_property`; `p` is what `xmalloc` gives. -/
def addProperty (t : Properties) (key : Bytes) (val : ExtendVal) (visibility : ExtendPublic)
    (p : ℕ) : Option (Option ℕ × Properties) :=
  if key.length > extendKeyLength then some (none, t)
  else do
    let t ← t.delProperty key
    let eTmp := t.entry
    let t := t.store p (some { newProperty key val visibility with next := eTmp })
    return (some p, { t with entry := some p, brk := max t.brk (p + 1) })

/-- One round of the loop of `get_json_object_user`; `jprop` is `none` until `has_prop`. A value
that is no text is not read as one. -/
def showProperty (jprop : Option JsonItem) (e : Property) : Option (Option JsonItem) :=
  if e.visibility = .isPublic then
    let jprop := jprop.getD .newObject
    match e.val with
    | .json val => some (some (jprop.setObj e.key val.copy))
    | .str val => some (some (jprop.setStr e.key val))
    | .pointer _ | .other _ _ => none
  else some jprop

def showLoop (t : Properties) : ℕ → Option ℕ → Option JsonItem → Option (Option JsonItem)
  | 0, _, _ => none
  | _ + 1, none, jprop => some jprop
  | fuel + 1, some eTmp, jprop => do
    let e ← t.mem eTmp
    let jprop ← showProperty jprop e.toProperty
    t.showLoop fuel e.next jprop

/-- `get_json_object_user`, for a user with that `pubid` and these properties. -/
def jsonObjectUser (t : Properties) (pubid : Bytes) : Option JsonItem := do
  let jstr := (JsonItem.newObject.setStr (bytes "casttype") (bytes "uni")).setStr
    (bytes "pubid") pubid
  match ← t.showLoop (t.brk + 1) t.entry none with
  | some jprop => return jstr.setObj (bytes "properties") jprop
  | none => return jstr

end Properties

end ApeServer
