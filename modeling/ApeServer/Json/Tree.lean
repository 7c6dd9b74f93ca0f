import ApeServer.Sock.Bufout

/-!
# The `json_item` trees of `json.c`

What an item holds, the functions that build a tree, and `json_to_string`. A floating point
value has a type of its own: `0` is the value that an `if` takes for false, and its text is
what `snprintf` makes of it.
-/
namespace ApeServer.Json

open Sock (Bytes)

/-- `JSON_type`. -/
inductive JsonType where
  | none
  | arrayBegin
  | arrayEnd
  | objectBegin
  | objectEnd
  | integer
  | float
  | null
  | true
  | false
  | string
  | key
deriving DecidableEq, Repr

/-- `json_child_t`. -/
inductive ChildType where
  | obj
  | arr
  | val
  | null
deriving DecidableEq, Repr

/-- What a `json_item` holds besides its pointers to other items. `vu` is a struct in the
source, so the string, the integer and the float are three fields. A key or a string is `none`
when its pointer is NULL, the type is `none` when it is -1. -/
structure Fields (F : Type) where
  key : Option Bytes
  str : Option Bytes
  integer : ℤ
  float : F
  type : Option JsonType
  childType : ChildType
deriving DecidableEq

/-- An item and the siblings after it. -/
inductive Items (F : Type) where
  | nil
  | cons (fields : Fields F) (child next : Items F)
deriving DecidableEq

/-- An item with its children. -/
structure Item (F : Type) where
  fields : Fields F
  child : Items F
deriving DecidableEq

variable {F : Type}

namespace Items

def count : Items F → ℕ
  | nil => 0
  | cons _ child next => child.count + next.count + 1

/-- `jchild.head->next = new_item`. -/
def snoc : Items F → Item F → Items F
  | nil, v => cons v.fields v.child nil
  | cons f child next, v => cons f child (next.snoc v)

/-- How many containers are open at most. -/
def depth : Items F → ℕ
  | nil => 0
  | cons f child next =>
    max ((if f.childType = .obj ∨ f.childType = .arr then 1 else 0) + child.depth) next.depth

/-- A property of every item, which may look at the container the item is in. -/
def All (P : ChildType → Fields F → Items F → Prop) : ChildType → Items F → Prop
  | _, nil => True
  | father, cons f child next =>
    P father f child ∧ All P f.childType child ∧ All P father next

end Items

/-- A property of every character of a text that is there. -/
def AllText (Q : UInt8 → Prop) (o : Option Bytes) : Prop := ∀ s, o = some s → ∀ c ∈ s, Q c

instance (Q : UInt8 → Prop) [DecidablePred Q] : DecidablePred (AllText Q)
  | none => .isTrue nofun
  | some s => decidable_of_iff ((s.all fun c => Q c) = true) (by simp [AllText])

/-- A child of an object has a key, and a child of an array has none. -/
def Keyed (father : ChildType) (f : Fields F) (_child : Items F) : Prop :=
  (father = .obj → f.key ≠ none) ∧ (father = .arr → f.key = none)

instance (father : ChildType) (f : Fields F) (child : Items F) :
    Decidable (Keyed father f child) :=
  inferInstanceAs (Decidable (_ ∧ _))

instance Items.decidableAll {Q : ChildType → Fields F → Items F → Prop}
    [∀ father f child, Decidable (Q father f child)] :
    ∀ father (t : Items F), Decidable (Items.All Q father t)
  | _, nil => inferInstanceAs (Decidable True)
  | father, cons f child next =>
    have := decidableAll (Q := Q) f.childType child
    have := decidableAll (Q := Q) father next
    inferInstanceAs (Decidable (Q father f child ∧ All Q f.childType child ∧ All Q father next))

/-- The root of a tree and all below it. -/
def Item.items (j : Item F) : Items F := .cons j.fields j.child .nil

section Builder

variable [Zero F]

/-- `init_json_item`. -/
def initJsonItem : Fields F :=
  { key := none, str := none, integer := 0, float := 0, type := none, childType := .null }

def jsonNewObject : Item F := { fields := { initJsonItem with childType := .obj }, child := .nil }

def jsonNewArray : Item F := { fields := { initJsonItem with childType := .arr }, child := .nil }

/-- The copy of a text: what begins with a NUL is filled with them. -/
def copyText (text : Bytes) : Bytes :=
  if text.head? = some 0 then List.replicate text.length 0 else text

/-- The last part of the functions that set a property: the item is the last child of `obj`. -/
def Item.append (obj value : Item F) : Item F := { obj with child := obj.child.snoc value }

/-- `json_set_property_objN`, `json_set_property_objZ` and `json_set_element_obj`. -/
def jsonSetPropertyObj (obj : Item F) (key : Option Bytes) (value : Item F) : Item F :=
  obj.append { value with
    fields := { value.fields with key := (key.map copyText).or value.fields.key } }

def newProperty (key : Option Bytes) : Fields F := { initJsonItem with key := key.map copyText }

/-- `json_set_property_intN`, `json_set_property_intZ` and `json_set_element_int`. -/
def jsonSetPropertyInt (obj : Item F) (key : Option Bytes) (value : ℤ) : Item F :=
  obj.append
    { fields := { newProperty key with integer := value, type := some .integer }, child := .nil }

/-- `json_set_property_floatN` and `json_set_element_float`. -/
def jsonSetPropertyFloat (obj : Item F) (key : Option Bytes) (value : F) : Item F :=
  obj.append
    { fields := { (newProperty key : Fields F) with float := value, type := some .float }
      child := .nil }

/-- `json_set_property_boolean` and `json_set_element_boolean`. -/
def jsonSetPropertyBoolean (obj : Item F) (key : Option Bytes) (value : Bool) : Item F :=
  obj.append
    { fields :=
        { (newProperty key : Fields F) with type := some (if value then .true else .false) }
      child := .nil }

/-- `json_set_property_null` and `json_set_element_null`. -/
def jsonSetPropertyNull (obj : Item F) (key : Option Bytes) : Item F :=
  obj.append
    { fields := { (newProperty key : Fields F) with type := some .null }, child := .nil }

/-- `json_set_property_strN`, `json_set_property_strZ`, `json_set_element_strN` and
`json_set_element_strZ`. -/
def jsonSetPropertyStr (obj : Item F) (key : Option Bytes) (value : Bytes) : Item F :=
  obj.append
    { fields := { newProperty key with str := some (copyText value), type := some .string }
      child := .nil }

/-- The containers the functions above build. What they return for a value that is no
container is not given to them again. -/
inductive Built : Item F → Prop where
  | object : Built jsonNewObject
  | array : Built jsonNewArray
  | obj {o v : Item F} (key : Option Bytes) : Built o → Built v →
      Built (jsonSetPropertyObj o key v)
  | int {o : Item F} (key : Option Bytes) {n : ℤ} : -2 ^ 63 ≤ n → n < 2 ^ 63 → Built o →
      Built (jsonSetPropertyInt o key n)
  | float {o : Item F} (key : Option Bytes) (x : F) : Built o →
      Built (jsonSetPropertyFloat o key x)
  | boolean {o : Item F} (key : Option Bytes) (b : Bool) : Built o →
      Built (jsonSetPropertyBoolean o key b)
  | null {o : Item F} (key : Option Bytes) : Built o → Built (jsonSetPropertyNull o key)
  | str {o : Item F} (key : Option Bytes) (text : Bytes) : Built o →
      Built (jsonSetPropertyStr o key text)

end Builder

/-! ## `json_to_string` -/

/-- A character of the text, by its ASCII code. -/
def chr (c : Char) : UInt8 := c.toNat.toUInt8

def text (s : String) : Bytes := s.toList.map chr

def isDigit (c : UInt8) : Bool := 48 ≤ c ∧ c ≤ 57

/-- `-input` of a `long long`, where the least one is its own negative. -/
def negate (n : ℤ) : ℤ := if n = -2 ^ 63 then n else -n

/-- The loop of `itos`, which fills the buffer from its end: `free` bytes are left before what
is written, `len - (i - 1)` in the source. -/
def itosDigits : ℕ → ℤ → Bytes → Option (ℕ × Bytes)
  | 0, input, output => if input = 0 then some (0, output) else none
  | free + 1, input, output =>
    if input = 0 then some (free + 1, output)
    else itosDigits free (input.tdiv 10)
      (output.set free (UInt8.ofNat ((48 + input.tmod 10) % 256).toNat))

/-- `itos`: where the text begins and the buffer, whose last byte is the NUL; `none` is a write
before its first byte. -/
def itos (input : ℤ) (len : ℕ) : Option (ℕ × Bytes) := do
  let (free, output) ← itosDigits (len - 1) (if input < 0 then negate input else input)
    (List.replicate len 0)
  if input < 0 then
    if free = 0 then none
    else some (free - 1, output.set (free - 1) (chr '-'))
  else some (free, output)

/-- `LENGTH_N`, with `log10(fabs(num))` cut to an integer. -/
def lengthN (log10 : ℤ → ℕ) (num : ℤ) : ℕ := if num < 10 ∧ 0 ≤ num then 1 else log10 num + 1

/-- The text of an integer that is not 0. -/
def integerText (log10 : ℤ → ℕ) (n : ℤ) : Option Bytes := do
  let l := lengthN log10 n
  let (offset, integerStr) ← itos n (l + 2)
  return (integerStr.drop offset).take ((l + 2) - 1 - offset)

def escapeChar (c : UInt8) : Bytes :=
  if c = chr '"' then text "\\\""
  else if c = chr '\\' then text "\\\\"
  else if c = 10 then text "\\n"
  else if c = 8 then text "\\b"
  else if c = 9 then text "\\t"
  else if c = 12 then text "\\f"
  else if c = 13 then text "\\r"
  else if c = 39 then [chr '\\', 39]
  else [c]

def escapeJsonString (s : Bytes) : Bytes := s.flatMap escapeChar

/-- What the machine gives `json_to_string`: the logarithm of `LENGTH_N` and `snprintf`'s
`"%f"`. -/
structure Printer (F : Type) where
  log10 : ℤ → ℕ
  format : F → Bytes

section ToString

variable [Zero F] [DecidableEq F]

def keyText : Option Bytes → Bytes
  | some k => text "\"" ++ k ++ text "\":"
  | none => []

/-- The value an item is printed with: the first of its fields that is set. -/
def valueText (P : Printer F) (f : Fields F) (child : Items F) : Option Bytes :=
  match f.str with
  | some s => some (text "\"" ++ escapeJsonString s ++ text "\"")
  | none =>
    if f.integer ≠ 0 then integerText P.log10 f.integer
    else if f.float ≠ 0 then some ((P.format f.float).take 16)
    else if f.type = some .true then some (text "true")
    else if f.type = some .false then some (text "false")
    else if f.type = some .null then some (text "null")
    else if child = .nil then some (text "0")
    else some []

def openText : ChildType → Bytes
  | .obj => text "\x7b"
  | .arr => text "["
  | _ => []

def closeText : ChildType → Bytes
  | .obj => text "\x7d"
  | .arr => text "]"
  | _ => []

/-- What follows an item: a comma, or the bracket its father is closed with. -/
def afterText (father : Option ChildType) (next : Items F) : Bytes :=
  match father, next with
  | none, _ => []
  | some _, .cons _ _ _ => text ","
  | some t, .nil => closeText t

/-- `json_to_string` from an item on; `father` is the container its father pointer leads to.
`none` is a write before the buffer of an integer. -/
def toStringFrom (P : Printer F) : Option ChildType → Items F → Option Bytes
  | _, .nil => some []
  | father, .cons f child next => do
    let value ← valueText P f child
    let inner ← toStringFrom P (some f.childType) child
    let rest ← toStringFrom P father next
    let opened := if child = .nil then [] else openText f.childType
    return keyText f.key ++ value ++ opened ++ inner ++ afterText father next ++ rest

def jsonToString (P : Printer F) (head : Item F) : Option Bytes :=
  toStringFrom P none (.cons head.fields head.child .nil)

end ToString

end ApeServer.Json
