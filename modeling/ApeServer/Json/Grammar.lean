import ApeServer.Json.Document

/-!
# JSON texts and their member names

A reader of JSON texts that keeps the names of the members, each in its place: a text is well
formed when it is read to its end. A byte of a string stands for itself, an escape for the code
unit it names.
-/
namespace ApeServer.Json

open Sock (Bytes)

/-- The names in a value, from a member or an element on; what is in the value of that member
or element comes before what follows it. -/
inductive Names where
  | nil
  | cons (name : Option (List ℕ)) (child next : Names)
deriving DecidableEq, Repr

def units (b : Bytes) : List ℕ := b.map UInt8.toNat

/-- The names of a tree: its keys. -/
def Items.names {F : Type} : Items F → Names
  | nil => .nil
  | cons f child next => .cons (f.key.map units) child.names next.names

def isWs (c : UInt8) : Bool := c = 32 ∨ c = 9 ∨ c = 10 ∨ c = 13

def skipWs (b : Bytes) : Bytes := b.dropWhile isWs

def hexUnit (c : UInt8) : Option ℕ :=
  if 48 ≤ c ∧ c ≤ 57 then some (c.toNat - 48)
  else if 65 ≤ c ∧ c ≤ 70 then some (c.toNat - 55)
  else if 97 ≤ c ∧ c ≤ 102 then some (c.toNat - 87)
  else none

/-- What the character after a backslash stands for. -/
def escapeUnit (c : UInt8) : Option ℕ :=
  if c = chr '"' then some 34
  else if c = chr '\\' then some 92
  else if c = chr '/' then some 47
  else if c = chr 'b' then some 8
  else if c = chr 'f' then some 12
  else if c = chr 'n' then some 10
  else if c = chr 'r' then some 13
  else if c = chr 't' then some 9
  else none

/-- A string, from the character after its quotation mark on. -/
def readString : Bytes → Option (List ℕ × Bytes)
  | [] => none
  | c :: s =>
    if c = chr '"' then some ([], s)
    else if c < 32 then none
    else if c = chr '\\' then
      match s with
      | [] => none
      | e :: s =>
        if e = chr 'u' then
          match s with
          | a :: b :: c :: d :: s => do
            let a ← hexUnit a
            let b ← hexUnit b
            let c ← hexUnit c
            let d ← hexUnit d
            let (name, rest) ← readString s
            return ((((a * 16 + b) * 16 + c) * 16 + d) :: name, rest)
          | _ => none
        else do
          let unit ← escapeUnit e
          let (name, rest) ← readString s
          return (unit :: name, rest)
    else do
      let (name, rest) ← readString s
      return (c.toNat :: name, rest)

/-- The characters a number is made of. -/
def isNumChar (c : UInt8) : Bool :=
  isDigit c ∨ c = chr '-' ∨ c = chr '+' ∨ c = chr '.' ∨ c = chr 'e' ∨ c = chr 'E'

def isDigits (b : Bytes) : Bool := b ≠ [] ∧ b.all isDigit

def dropSign : Bytes → Bytes
  | [] => []
  | c :: b => if c = chr '+' ∨ c = chr '-' then b else c :: b

def isExponent : Bytes → Bool
  | [] => true
  | c :: b => (c = chr 'e' ∨ c = chr 'E') ∧ isDigits (dropSign b)

def isFraction : Bytes → Bool
  | c :: b =>
    if c = chr '.' then b.takeWhile isDigit ≠ [] ∧ isExponent (b.dropWhile isDigit)
    else isExponent (c :: b)
  | [] => true

/-- A number without its sign: no zero stands before another digit. -/
def isUnsigned (b : Bytes) : Bool :=
  match b.takeWhile isDigit with
  | [] => false
  | c :: ds => (c = chr '0' → ds = []) ∧ isFraction (b.dropWhile isDigit)

def isNumber : Bytes → Bool
  | [] => false
  | c :: b => if c = chr '-' then isUnsigned b else isUnsigned (c :: b)

def readNumber (b : Bytes) : Option (Names × Bytes) :=
  if isNumber (b.takeWhile isNumChar) then some (.nil, b.dropWhile isNumChar) else none

def readWord (w b : Bytes) : Option (Names × Bytes) :=
  if w <+: b then some (.nil, b.drop w.length) else none

/-- The name of a member and the colon after it; an element has none. -/
def readName (kind : Kind) (b : Bytes) : Option (Option (List ℕ) × Bytes) :=
  match kind with
  | .arr => some (none, b)
  | .obj =>
    match skipWs b with
    | [] => none
    | c :: b =>
      if c = chr '"' then do
        let (name, b) ← readString b
        match skipWs b with
        | c :: b => if c = chr ':' then some (some name, b) else none
        | [] => none
      else none

mutual

/-- A value, and what comes after it. -/
def readValue : ℕ → Bytes → Option (Names × Bytes)
  | 0, _ => none
  | fuel + 1, b =>
    match skipWs b with
    | [] => none
    | c :: b =>
      if c = 123 then readContainer .obj 125 fuel b
      else if c = 91 then readContainer .arr 93 fuel b
      else if c = chr '"' then do
        let (_, rest) ← readString b
        return (.nil, rest)
      else if c = chr 't' then readWord (text "rue") b
      else if c = chr 'f' then readWord (text "alse") b
      else if c = chr 'n' then readWord (text "ull") b
      else readNumber (c :: b)

/-- A container, from the character after its bracket on. -/
def readContainer (kind : Kind) (close : UInt8) : ℕ → Bytes → Option (Names × Bytes)
  | 0, _ => none
  | fuel + 1, b =>
    match skipWs b with
    | [] => none
    | c :: b' => if c = close then some (.nil, b') else readItems kind close fuel b

/-- The members or elements of a container, to the bracket that closes it. -/
def readItems (kind : Kind) (close : UInt8) : ℕ → Bytes → Option (Names × Bytes)
  | 0, _ => none
  | fuel + 1, b => do
    let (name, b) ← readName kind b
    let (child, b) ← readValue fuel b
    match skipWs b with
    | [] => none
    | c :: b =>
      if c = chr ',' then do
        let (next, b) ← readItems kind close fuel b
        return (.cons name child next, b)
      else if c = close then some (.cons name child .nil, b)
      else none

end

/-- The member names of a JSON text, and `none` for a text that is not well formed. -/
def memberNames (b : Bytes) : Option Names := do
  let (names, rest) ← readValue (3 * b.length + 1) b
  if skipWs rest = [] then some names else none

end ApeServer.Json
