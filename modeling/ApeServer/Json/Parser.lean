import ApeServer.Json.Callback

/-!
# The JSON parser

`json_parser.c` as `init_json_parser` uses it: a table driven automaton with a stack of modes,
which reports what it reads to a callback. A character that is rejected, an `assert` that fails
and a callback that stops all give `none`.
-/
namespace ApeServer.Json

open Sock (Bytes)

/-- `enum classes`. -/
inductive Class where
  | SPACE | WHITE | LCURB | RCURB | LSQRB | RSQRB | COLON | COMMA
  | QUOTE | BACKS | SLASH | PLUS | MINUS | POINT | ZERO | DIGIT
  | LOW_A | LOW_B | LOW_C | LOW_D | LOW_E | LOW_F | LOW_L | LOW_N
  | LOW_R | LOW_S | LOW_T | LOW_U | ABCDF | E | ETC | STAR
deriving DecidableEq, Repr

/-- `enum states`. -/
inductive State where
  | GO | OK | OB | KE | CO | VA | AR | ST | ES | U1 | U2 | U3
  | U4 | MI | ZE | IT | FR | E1 | E2 | E3 | T1 | T2 | T3 | F1
  | F2 | F3 | F4 | N1 | N2 | N3 | C1 | C2 | C3 | FX | D1 | D2
deriving DecidableEq, Repr

/-- `enum actions`, and the actions that have no name there: `a9` is -9. -/
inductive Action where
  | CB | CE | FA | TR | NU | DE | DF | SB | MX | ZX | IX | EX | UC
  | a9 | a8 | a7 | a6 | a5 | a4 | a3 | a2
deriving DecidableEq, Repr

/-- What a state and a class give: a state, an action or the universal error code. -/
inductive Next where
  | state (s : State)
  | action (a : Action)
  | xx
deriving DecidableEq, Repr

instance : Coe State Next := ⟨.state⟩
instance : Coe Action Next := ⟨.action⟩

open ApeServer.Json.Class in
/-- `ascii_class`. -/
def asciiClass : List (Option Class) :=
  let xx : Option Class := none
  [
    xx, xx, xx, xx, xx, xx, xx, xx,
    xx, WHITE, WHITE, xx, xx, WHITE, xx, xx,
    xx, xx, xx, xx, xx, xx, xx, xx,
    xx, xx, xx, xx, xx, xx, xx, xx,
    SPACE, ETC, QUOTE, ETC, ETC, ETC, ETC, ETC,
    ETC, ETC, STAR, PLUS, COMMA, MINUS, POINT, SLASH,
    ZERO, DIGIT, DIGIT, DIGIT, DIGIT, DIGIT, DIGIT, DIGIT,
    DIGIT, DIGIT, COLON, ETC, ETC, ETC, ETC, ETC,
    ETC, ABCDF, ABCDF, ABCDF, ABCDF, E, ABCDF, ETC,
    ETC, ETC, ETC, ETC, ETC, ETC, ETC, ETC,
    ETC, ETC, ETC, ETC, ETC, ETC, ETC, ETC,
    ETC, ETC, ETC, LSQRB, BACKS, RSQRB, ETC, ETC,
    ETC, LOW_A, LOW_B, LOW_C, LOW_D, LOW_E, LOW_F, ETC,
    ETC, ETC, ETC, ETC, LOW_L, ETC, LOW_N, ETC,
    ETC, ETC, LOW_R, LOW_S, LOW_T, LOW_U, ETC, ETC,
    ETC, ETC, ETC, LCURB, ETC, RCURB, ETC, ETC]

namespace State

open ApeServer.Json.Action ApeServer.Json.Next in
/-- A row of `state_transition_table`. -/
def stateTransitionTable : State → List Next
  | GO =>
    [GO, GO, a6, xx, a5, xx, xx, xx, xx, xx, CB, xx, xx, xx, xx, xx,
      xx, xx, xx, xx, xx, xx, xx, xx, xx, xx, xx, xx, xx, xx, xx, xx]
  | OK =>
    [OK, OK, xx, a8, xx, a7, xx, a3, xx, xx, CB, xx, xx, xx, xx, xx,
      xx, xx, xx, xx, xx, xx, xx, xx, xx, xx, xx, xx, xx, xx, xx, xx]
  | OB =>
    [OB, OB, xx, a9, xx, xx, xx, xx, SB, xx, CB, xx, xx, xx, xx, xx,
      xx, xx, xx, xx, xx, xx, xx, xx, xx, xx, xx, xx, xx, xx, xx, xx]
  | KE =>
    [KE, KE, xx, xx, xx, xx, xx, xx, SB, xx, CB, xx, xx, xx, xx, xx,
      xx, xx, xx, xx, xx, xx, xx, xx, xx, xx, xx, xx, xx, xx, xx, xx]
  | CO =>
    [CO, CO, xx, xx, xx, xx, a2, xx, xx, xx, CB, xx, xx, xx, xx, xx,
      xx, xx, xx, xx, xx, xx, xx, xx, xx, xx, xx, xx, xx, xx, xx, xx]
  | VA =>
    [VA, VA, a6, xx, a5, xx, xx, xx, SB, xx, CB, xx, MX, xx, ZX, IX,
      xx, xx, xx, xx, xx, FA, xx, NU, xx, xx, TR, xx, xx, xx, xx, xx]
  | AR =>
    [AR, AR, a6, xx, a5, a7, xx, xx, SB, xx, CB, xx, MX, xx, ZX, IX,
      xx, xx, xx, xx, xx, FA, xx, NU, xx, xx, TR, xx, xx, xx, xx, xx]
  | ST =>
    [ST, xx, ST, ST, ST, ST, ST, ST, a4, EX, ST, ST, ST, ST, ST, ST,
      ST, ST, ST, ST, ST, ST, ST, ST, ST, ST, ST, ST, ST, ST, ST, ST]
  | ES =>
    [xx, xx, xx, xx, xx, xx, xx, xx, ST, ST, ST, xx, xx, xx, xx, xx,
      xx, ST, xx, xx, xx, ST, xx, ST, ST, xx, ST, U1, xx, xx, xx, xx]
  | U1 =>
    [xx, xx, xx, xx, xx, xx, xx, xx, xx, xx, xx, xx, xx, xx, U2, U2,
      U2, U2, U2, U2, U2, U2, xx, xx, xx, xx, xx, xx, U2, U2, xx, xx]
  | U2 =>
    [xx, xx, xx, xx, xx, xx, xx, xx, xx, xx, xx, xx, xx, xx, U3, U3,
      U3, U3, U3, U3, U3, U3, xx, xx, xx, xx, xx, xx, U3, U3, xx, xx]
  | U3 =>
    [xx, xx, xx, xx, xx, xx, xx, xx, xx, xx, xx, xx, xx, xx, U4, U4,
      U4, U4, U4, U4, U4, U4, xx, xx, xx, xx, xx, xx, U4, U4, xx, xx]
  | U4 =>
    [xx, xx, xx, xx, xx, xx, xx, xx, xx, xx, xx, xx, xx, xx, UC, UC,
      UC, UC, UC, UC, UC, UC, xx, xx, xx, xx, xx, xx, UC, UC, xx, xx]
  | MI =>
    [xx, xx, xx, xx, xx, xx, xx, xx, xx, xx, xx, xx, xx, xx, ZE, IT,
      xx, xx, xx, xx, xx, xx, xx, xx, xx, xx, xx, xx, xx, xx, xx, xx]
  | ZE =>
    [OK, OK, xx, a8, xx, a7, xx, a3, xx, xx, CB, xx, xx, DF, xx, xx,
      xx, xx, xx, xx, xx, xx, xx, xx, xx, xx, xx, xx, xx, xx, xx, xx]
  | IT =>
    [OK, OK, xx, a8, xx, a7, xx, a3, xx, xx, CB, xx, xx, DF, IT, IT,
      xx, xx, xx, xx, DE, xx, xx, xx, xx, xx, xx, xx, xx, DE, xx, xx]
  | FR =>
    [OK, OK, xx, a8, xx, a7, xx, a3, xx, xx, CB, xx, xx, xx, FR, FR,
      xx, xx, xx, xx, E1, xx, xx, xx, xx, xx, xx, xx, xx, E1, xx, xx]
  | E1 =>
    [xx, xx, xx, xx, xx, xx, xx, xx, xx, xx, xx, E2, E2, xx, E3, E3,
      xx, xx, xx, xx, xx, xx, xx, xx, xx, xx, xx, xx, xx, xx, xx, xx]
  | E2 =>
    [xx, xx, xx, xx, xx, xx, xx, xx, xx, xx, xx, xx, xx, xx, E3, E3,
      xx, xx, xx, xx, xx, xx, xx, xx, xx, xx, xx, xx, xx, xx, xx, xx]
  | E3 =>
    [OK, OK, xx, a8, xx, a7, xx, a3, xx, xx, xx, xx, xx, xx, E3, E3,
      xx, xx, xx, xx, xx, xx, xx, xx, xx, xx, xx, xx, xx, xx, xx, xx]
  | T1 =>
    [xx, xx, xx, xx, xx, xx, xx, xx, xx, xx, xx, xx, xx, xx, xx, xx,
      xx, xx, xx, xx, xx, xx, xx, xx, T2, xx, xx, xx, xx, xx, xx, xx]
  | T2 =>
    [xx, xx, xx, xx, xx, xx, xx, xx, xx, xx, xx, xx, xx, xx, xx, xx,
      xx, xx, xx, xx, xx, xx, xx, xx, xx, xx, xx, T3, xx, xx, xx, xx]
  | T3 =>
    [xx, xx, xx, xx, xx, xx, xx, xx, xx, xx, CB, xx, xx, xx, xx, xx,
      xx, xx, xx, xx, OK, xx, xx, xx, xx, xx, xx, xx, xx, xx, xx, xx]
  | F1 =>
    [xx, xx, xx, xx, xx, xx, xx, xx, xx, xx, xx, xx, xx, xx, xx, xx,
      F2, xx, xx, xx, xx, xx, xx, xx, xx, xx, xx, xx, xx, xx, xx, xx]
  | F2 =>
    [xx, xx, xx, xx, xx, xx, xx, xx, xx, xx, xx, xx, xx, xx, xx, xx,
      xx, xx, xx, xx, xx, xx, F3, xx, xx, xx, xx, xx, xx, xx, xx, xx]
  | F3 =>
    [xx, xx, xx, xx, xx, xx, xx, xx, xx, xx, xx, xx, xx, xx, xx, xx,
      xx, xx, xx, xx, xx, xx, xx, xx, xx, F4, xx, xx, xx, xx, xx, xx]
  | F4 =>
    [xx, xx, xx, xx, xx, xx, xx, xx, xx, xx, CB, xx, xx, xx, xx, xx,
      xx, xx, xx, xx, OK, xx, xx, xx, xx, xx, xx, xx, xx, xx, xx, xx]
  | N1 =>
    [xx, xx, xx, xx, xx, xx, xx, xx, xx, xx, xx, xx, xx, xx, xx, xx,
      xx, xx, xx, xx, xx, xx, xx, xx, xx, xx, xx, N2, xx, xx, xx, xx]
  | N2 =>
    [xx, xx, xx, xx, xx, xx, xx, xx, xx, xx, xx, xx, xx, xx, xx, xx,
      xx, xx, xx, xx, xx, xx, N3, xx, xx, xx, xx, xx, xx, xx, xx, xx]
  | N3 =>
    [xx, xx, xx, xx, xx, xx, xx, xx, xx, xx, CB, xx, xx, xx, xx, xx,
      xx, xx, xx, xx, xx, xx, OK, xx, xx, xx, xx, xx, xx, xx, xx, xx]
  | C1 =>
    [xx, xx, xx, xx, xx, xx, xx, xx, xx, xx, xx, xx, xx, xx, xx, xx,
      xx, xx, xx, xx, xx, xx, xx, xx, xx, xx, xx, xx, xx, xx, xx, C2]
  | C2 =>
    [C2, C2, C2, C2, C2, C2, C2, C2, C2, C2, C2, C2, C2, C2, C2, C2,
      C2, C2, C2, C2, C2, C2, C2, C2, C2, C2, C2, C2, C2, C2, C2, C3]
  | C3 =>
    [C2, C2, C2, C2, C2, C2, C2, C2, C2, C2, CE, C2, C2, C2, C2, C2,
      C2, C2, C2, C2, C2, C2, C2, C2, C2, C2, C2, C2, C2, C2, C2, C3]
  | FX =>
    [OK, OK, xx, a8, xx, a7, xx, a3, xx, xx, xx, xx, xx, xx, FR, FR,
      xx, xx, xx, xx, E1, xx, xx, xx, xx, xx, xx, xx, xx, E1, xx, xx]
  | D1 =>
    [xx, xx, xx, xx, xx, xx, xx, xx, xx, D2, xx, xx, xx, xx, xx, xx,
      xx, xx, xx, xx, xx, xx, xx, xx, xx, xx, xx, xx, xx, xx, xx, xx]
  | D2 =>
    [xx, xx, xx, xx, xx, xx, xx, xx, xx, xx, xx, xx, xx, xx, xx, xx,
      xx, xx, xx, xx, xx, xx, xx, xx, xx, xx, xx, U1, xx, xx, xx, xx]

end State

/-- `enum modes`. -/
inductive Mode where
  | array
  | done
  | key
  | object
deriving DecidableEq, Repr

variable {F σ : Type}

/-- `JSON_config`, with what the machine gives the parser: the decimal point of the locale and
`strtod`. `handle_floats_manually` is off. -/
structure Config (F σ : Type) where
  depth : ℕ
  allowComments : Bool
  decimalPoint : UInt8
  strtod : Bytes → F
  callback : σ → Event F → Option σ

/-- `JSON_parser_struct`; the top of the stack comes first. -/
structure Parser (σ : Type) where
  state : State
  beforeCommentState : State
  type : JsonType
  escaped : Bool
  comment : Bool
  utf16HighSurrogate : ℕ
  stack : List Mode
  parseBuffer : Bytes
  ctx : σ

def digitsValue (digits : Bytes) : ℕ := digits.foldl (fun n c => 10 * n + (c.toNat - 48)) 0

/-- `%lld`: what comes after the digits is not read, and an integer that does not fit is the
nearest one that does. -/
def scanInteger : Bytes → ℤ
  | [] => 0
  | c :: b =>
    if c = chr '-' then max (-(digitsValue (b.takeWhile isDigit) : ℤ)) (-2 ^ 63)
    else min (digitsValue ((c :: b).takeWhile isDigit) : ℤ) (2 ^ 63 - 1)

namespace Parser

def push (cfg : Config F σ) (jc : Parser σ) (mode : Mode) : Option (Parser σ) :=
  if jc.stack.length = cfg.depth + 1 then none else some { jc with stack := mode :: jc.stack }

def pop (jc : Parser σ) (mode : Mode) : Option (Parser σ) :=
  match jc.stack with
  | m :: stack => if m = mode then some { jc with stack } else none
  | [] => none

def parseBufferClear (jc : Parser σ) : Parser σ := { jc with parseBuffer := [] }

def parseBufferPopBackChar (jc : Parser σ) : Option (Parser σ) :=
  if jc.parseBuffer = [] then none
  else some { jc with parseBuffer := jc.parseBuffer.dropLast }

def parseBufferPushBackChar (jc : Parser σ) (c : UInt8) : Parser σ :=
  { jc with parseBuffer := jc.parseBuffer ++ [c] }

def report (cfg : Config F σ) (jc : Parser σ) (e : Event F) : Option (Parser σ) := do
  let ctx ← cfg.callback jc.ctx e
  return { jc with ctx }

/-- `parse_parse_buffer`. -/
def parseParseBuffer (cfg : Config F σ) (jc : Parser σ) : Option (Parser σ) :=
  parseBufferClear <$>
    match jc.type with
    | .none => some jc
    | .float => jc.report cfg (.float (cfg.strtod jc.parseBuffer))
    | .integer => jc.report cfg (.integer (scanInteger jc.parseBuffer))
    | .string => jc.report cfg (.string jc.parseBuffer)
    | .null => jc.report cfg .null
    | .true => jc.report cfg .true
    | .false => jc.report cfg .false
    | _ => none

def hexDigit (c : UInt8) : ℕ :=
  if 97 ≤ c.toNat then c.toNat - 87
  else if 65 ≤ c.toNat then c.toNat - 55
  else c.toNat &&& 0xCF

/-- The bytes of a code point in UTF-8, which has so many bytes after the first. -/
def utf8 (uc trailBytes : ℕ) : Bytes :=
  UInt8.ofNat ((uc >>> (trailBytes * 6)) ||| [0x00, 0xC0, 0xE0, 0xF0].getD trailBytes 0) ::
    (List.range trailBytes).reverse.map fun i => UInt8.ofNat (((uc >>> (i * 6)) &&& 0x3F) ||| 0x80)

/-- `decode_unicode_char`. -/
def decodeUnicodeChar (jc : Parser σ) : Option (Parser σ) :=
  if jc.parseBuffer.length < 6 then none
  else
    let digits := jc.parseBuffer.drop (jc.parseBuffer.length - 4)
    let uc := digits.foldl (fun n c => 16 * n + hexDigit c) 0
    let rest := jc.parseBuffer.take (jc.parseBuffer.length - 6)
    if jc.utf16HighSurrogate ≠ 0 then
      if uc &&& 0xFC00 = 0xDC00 then
        let code := ((jc.utf16HighSurrogate &&& 0x3FF) <<< 10) + (uc &&& 0x3FF) + 0x10000
        some { jc with parseBuffer := rest ++ utf8 code 3, utf16HighSurrogate := 0 }
      else none
    else if uc < 0x80 then some { jc with parseBuffer := rest ++ utf8 uc 0 }
    else if uc < 0x800 then some { jc with parseBuffer := rest ++ utf8 uc 1 }
    else if uc &&& 0xFC00 = 0xD800 then
      some { jc with parseBuffer := rest, utf16HighSurrogate := uc }
    else if uc &&& 0xFC00 = 0xDC00 then none
    else some { jc with parseBuffer := rest ++ utf8 uc 2 }

/-- `add_escaped_char_to_parse_buffer`. -/
def addEscapedCharToParseBuffer (jc : Parser σ) (nextChar : UInt8) : Option (Parser σ) := do
  let jc ← { jc with escaped := false }.parseBufferPopBackChar
  if nextChar = chr 'b' then some (jc.parseBufferPushBackChar 8)
  else if nextChar = chr 'f' then some (jc.parseBufferPushBackChar 12)
  else if nextChar = chr 'n' then some (jc.parseBufferPushBackChar 10)
  else if nextChar = chr 'r' then some (jc.parseBufferPushBackChar 13)
  else if nextChar = chr 't' then some (jc.parseBufferPushBackChar 9)
  else if nextChar = chr '"' then some (jc.parseBufferPushBackChar nextChar)
  else if nextChar = chr '\\' then some (jc.parseBufferPushBackChar nextChar)
  else if nextChar = chr '/' then some (jc.parseBufferPushBackChar nextChar)
  else if nextChar = chr 'u' then
    some ((jc.parseBufferPushBackChar (chr '\\')).parseBufferPushBackChar nextChar)
  else none

/-- `add_char_to_parse_buffer`. -/
def addCharToParseBuffer (jc : Parser σ) (nextChar : UInt8) (nextClass : Class) :
    Option (Parser σ) :=
  if jc.escaped then jc.addEscapedCharToParseBuffer nextChar
  else if ¬ jc.comment ∧ (jc.type ≠ .none ∨ ¬ (nextClass = .SPACE ∨ nextClass = .WHITE)) then
    some (jc.parseBufferPushBackChar nextChar)
  else some jc

def enter (jc : Parser σ) (type : JsonType) (state : State) : Parser σ := { jc with type, state }

/-- The start of a value, which nothing may come before. -/
def enterNew (jc : Parser σ) (type : JsonType) (state : State) : Option (Parser σ) :=
  if jc.type = .none then some (jc.enter type state) else none

def isPlain (jc : Parser σ) : Bool :=
  jc.type ≠ .false ∧ jc.type ≠ .true ∧ jc.type ≠ .null ∧ jc.type ≠ .string

/-- `/` where a comment may begin. -/
def beginComment (cfg : Config F σ) (jc : Parser σ) : Option (Parser σ) := do
  if ¬ cfg.allowComments then none
  else
    let jc ← jc.parseBufferPopBackChar
    let jc ← jc.parseParseBuffer cfg
    if jc.type = .string then none
    else
      let before := match jc.stack.head? with
        | some .array | some .object => if jc.state = .VA ∨ jc.state = .AR then jc.state else .OK
        | _ => jc.state
      some { jc with beforeCommentState := before, type := .none, state := .C1, comment := true }

/-- `}` or `]` after a value. -/
def closeContainer (cfg : Config F σ) (jc : Parser σ) (e : Event F) (mode : Mode) :
    Option (Parser σ) := do
  let jc ← jc.parseBufferPopBackChar
  let jc ← jc.parseParseBuffer cfg
  let jc ← jc.report cfg e
  let jc ← jc.pop mode
  return jc.enter .none .OK

/-- `{` or `[`. -/
def openContainer (cfg : Config F σ) (jc : Parser σ) (e : Event F) (mode : Mode)
    (state : State) : Option (Parser σ) := do
  let jc ← jc.parseBufferPopBackChar
  let jc ← jc.report cfg e
  let jc ← jc.push cfg mode
  if jc.type = .none then some { jc with state } else none

/-- `"` at the end of a string. -/
def endString (cfg : Config F σ) (jc : Parser σ) : Option (Parser σ) := do
  let jc ← jc.parseBufferPopBackChar
  if jc.type ≠ .string then none
  else
    match jc.stack.head? with
    | some .key =>
      let jc ← (jc.enter .none .CO).report cfg (.key jc.parseBuffer)
      return jc.parseBufferClear
    | some .array | some .object =>
      let jc ← jc.parseParseBuffer cfg
      return jc.enter .none .OK
    | _ => none

/-- `,` turns a mode of an object into the one for a key. -/
def comma (cfg : Config F σ) (jc : Parser σ) : Option (Parser σ) := do
  let jc ← jc.parseBufferPopBackChar
  let jc ← jc.parseParseBuffer cfg
  match jc.stack.head? with
  | some .object =>
    let jc ← jc.pop .object
    let jc ← jc.push cfg .key
    if jc.type = .string then none else some (jc.enter .none .KE)
  | some .array => if jc.type = .string then none else some (jc.enter .none .VA)
  | _ => none

def colon (cfg : Config F σ) (jc : Parser σ) : Option (Parser σ) := do
  let jc ← jc.parseBufferPopBackChar
  let jc ← jc.pop .key
  let jc ← jc.push cfg .object
  if jc.type = .none then some { jc with state := .VA } else none

/-- The actions of `JSON_parser_char`. -/
def act (cfg : Config F σ) (jc : Parser σ) : Action → Option (Parser σ)
  | .UC => do
    let jc ← jc.decodeUnicodeChar
    return { jc with state := if jc.utf16HighSurrogate ≠ 0 then .D1 else .ST }
  | .EX => some { jc with escaped := true, state := .ES }
  | .MX => some (jc.enter .integer .MI)
  | .ZX => some (jc.enter .integer .ZE)
  | .IX => some (jc.enter .integer .IT)
  | .DE => if jc.isPlain then some (jc.enter .float .E1) else none
  | .DF =>
    if jc.isPlain ∧ jc.parseBuffer.getLast? = some (chr '.') then
      some { jc with
        parseBuffer := jc.parseBuffer.dropLast ++ [cfg.decimalPoint], type := .float, state := .FX }
    else none
  | .SB => jc.parseBufferClear.enterNew .string .ST
  | .NU => jc.enterNew .null .N1
  | .FA => jc.enterNew .false .F1
  | .TR => jc.enterNew .true .T1
  | .CE =>
    if jc.parseBuffer = [] ∧ jc.type = .none then
      some { jc with comment := false, state := jc.beforeCommentState }
    else none
  | .CB => jc.beginComment cfg
  | .a9 => do
    let jc ← jc.parseBufferClear.report cfg .objectEnd
    let jc ← jc.pop .key
    return { jc with state := .OK }
  | .a8 => jc.closeContainer cfg .objectEnd .object
  | .a7 => jc.closeContainer cfg .arrayEnd .array
  | .a6 => jc.openContainer cfg .objectBegin .key .OB
  | .a5 => jc.openContainer cfg .arrayBegin .array .AR
  | .a4 => jc.endString cfg
  | .a3 => jc.comma cfg
  | .a2 => jc.colon cfg

/-- `JSON_parser_char`. A byte from 128 on is negative as a `char`, and has no class. -/
def jsonParserChar (cfg : Config F σ) (jc : Parser σ) (nextChar : UInt8) :
    Option (Parser σ) := do
  let nextClass ← (asciiClass[nextChar.toNat]?).join
  let jc ← jc.addCharToParseBuffer nextChar nextClass
  match jc.state.stateTransitionTable[nextClass.ctorIdx]? with
  | some (.state s) => some { jc with state := s }
  | some (.action a) => jc.act cfg a
  | _ => none

/-- `JSON_parser_done`. -/
def jsonParserDone (jc : Parser σ) : Bool :=
  (jc.state = .OK ∨ jc.state = .GO) ∧ (jc.pop .done).isSome

/-- `new_JSON_parser`. -/
def newJsonParser (ctx : σ) : Parser σ :=
  { state := .GO, beforeCommentState := .GO, type := .none, escaped := false, comment := false
    utf16HighSurrogate := 0, stack := [.done], parseBuffer := [], ctx }

end Parser

/-- `init_json_parser` of a text: the head it returns and the items, or `none` for NULL. -/
def initJsonParser [Zero F] (decimalPoint : UInt8) (strtod : Bytes → F) (jsonString : Bytes) :
    Option (Heap F × Option ℕ) := do
  let cfg : Config F (Context F) :=
    { depth := 15, allowComments := false, decimalPoint, strtod
      callback := Context.jsonCallback }
  let jc ← (jsonString.takeWhile (· ≠ 0)).foldlM (Parser.jsonParserChar cfg)
    (Parser.newJsonParser Context.start)
  if jc.jsonParserDone then some (jc.ctx.heap, jc.ctx.head) else none

end ApeServer.Json
