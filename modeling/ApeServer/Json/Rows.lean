import ApeServer.Json.Language

/-!
# The table, byte by byte

What a row of the table has for a byte where no comment may stand, and the steps of a parser
outside of escapes.
-/
namespace ApeServer.Json

open Sock (Bytes)
open ApeServer.Json.Parser (jsonParserChar)

variable {F σ : Type} {cfg : Config F σ} {s : State} {t : JsonType} {stack : List Mode}
  {buf b : Bytes} {ctx : σ} {c : UInt8} {high : ℕ}

/-- The entry of a row, where a comment is an error. -/
def entry (s : State) (c : UInt8) : Next :=
  match (classOf c).bind fun k => s.stateTransitionTable[k.ctorIdx]? with
  | some (.state s') => .state s'
  | some (.action a) => if a = .CB then .xx else .action a
  | _ => .xx

/-- A parser in a text, with the half of a character it may have read. -/
def within (s : State) (t : JsonType) (high : ℕ) (stack : List Mode) (buf : Bytes) (ctx : σ) :
    Parser σ :=
  { reading s t stack buf ctx with utf16HighSurrogate := high }

theorem within_zero : within s t 0 stack buf ctx = reading s t stack buf ctx := rfl

/-- What the entry of a row does. -/
def follow (cfg : Config F σ) (jc : Parser σ) : Next → Option (Parser σ)
  | .state s => some { jc with state := s }
  | .action a => jc.act cfg a
  | .xx => none

theorem forall_byte {p : UInt8 → Prop} (h : ∀ n < 256, p (UInt8.ofNat n)) (c : UInt8) : p c := by
  have := h c.toNat c.toNat_lt
  rwa [UInt8.ofNat_toNat] at this

/-- The bytes that are dropped where no value is held are those of white space. -/
theorem class_isWs {k : Class} (hk : classOf c = some k) :
    (k = .SPACE ∨ k = .WHITE) ↔ isWs c = true := by
  have hall : ∀ c, (classOf c).all fun k => decide ((k = .SPACE ∨ k = .WHITE) ↔ isWs c = true) :=
    forall_byte (by decide +kernel)
  have := hall c
  rw [hk] at this
  exact of_decide_eq_true this

/-- A byte goes to the buffer, or is dropped, and the row says what it does. -/
theorem char_entry (hcfg : cfg.allowComments = false) :
    jsonParserChar cfg (within s t high stack buf ctx) c =
      follow cfg (within s t high stack
        (if t = .none ∧ isWs c = true then buf else buf ++ [c]) ctx) (entry s c) := by
  cases hk : classOf c with
  | none =>
    have hentry : entry s c = .xx := by
      rw [entry, hk]
      rfl
    rw [classOf] at hk
    rw [hentry, jsonParserChar, hk]
    rfl
  | some k =>
    have hadd : (within s t high stack buf ctx).addCharToParseBuffer c k = some
        (within s t high stack (if t = .none ∧ isWs c = true then buf else buf ++ [c]) ctx) := by
      have hws := class_isWs hk
      simp only [Parser.addCharToParseBuffer, within, reading, Bool.false_eq_true, if_false,
        not_false_eq_true, true_and]
      by_cases hw : t = .none ∧ isWs c = true
      · rw [if_pos hw, if_neg (by tauto)]
      · rw [if_neg hw, if_pos (by tauto)]
        rfl
    have hentry : entry s c = match s.stateTransitionTable[k.ctorIdx]? with
        | some (.state s') => .state s'
        | some (.action a) => if a = .CB then .xx else .action a
        | _ => .xx := by
      rw [entry, hk]
      rfl
    rw [classOf] at hk
    simp only [jsonParserChar, hk, Option.bind_eq_bind, Option.bind_some, hadd, hentry]
    change (match s.stateTransitionTable[k.ctorIdx]? with
      | some (.state s) => _
      | some (.action a) => _
      | _ => none) = _
    rcases s.stateTransitionTable[k.ctorIdx]? with _ | n
    · rfl
    · cases n with
      | state s' => rfl
      | xx => rfl
      | action a =>
        dsimp only
        by_cases ha : a = .CB
        · subst ha
          rw [if_pos rfl, Parser.act, Parser.beginComment, hcfg]
          rfl
        · rw [if_neg ha]
          rfl

/-! ## Rows -/

/-- What a value may begin with. -/
def opening (c : UInt8) : Next :=
  if c = chr '\x7b' then .action .a6
  else if c = chr '[' then .action .a5
  else if c = chr '"' then .action .SB
  else if c = chr '-' then .action .MX
  else if c = chr '0' then .action .ZX
  else if isDigit c then .action .IX
  else if c = chr 'f' then .action .FA
  else if c = chr 'n' then .action .NU
  else if c = chr 't' then .action .TR
  else .xx

/-- What may come after a value. -/
def ending (c : UInt8) : Next :=
  if isWs c then .state .OK
  else if c = chr '\x7d' then .action .a8
  else if c = chr ']' then .action .a7
  else if c = chr ',' then .action .a3
  else .xx

/-- The bytes that stand for themselves in a string. -/
def isPlainByte (c : UInt8) : Bool := 32 ≤ c ∧ c < 128 ∧ c ≠ chr '"' ∧ c ≠ chr '\\'

def isE (c : UInt8) : Bool := c = chr 'e' ∨ c = chr 'E'

/-- A row with one way on. -/
def only (x : UInt8) (s' : State) (c : UInt8) : Next := if c = x then .state s' else .xx

/-- A row for a hexadecimal digit. -/
def hexOnly (n : Next) (c : UInt8) : Next := if (hexUnit c).isSome then n else .xx

/-- The rows of the table, by bytes. -/
def row : State → UInt8 → Next
  | .GO, c =>
    if isWs c then .state .GO
    else if c = chr '\x7b' then .action .a6
    else if c = chr '[' then .action .a5
    else .xx
  | .OK, c => ending c
  | .OB, c =>
    if isWs c then .state .OB
    else if c = chr '\x7d' then .action .a9
    else if c = chr '"' then .action .SB
    else .xx
  | .KE, c => if isWs c then .state .KE else if c = chr '"' then .action .SB else .xx
  | .CO, c => if isWs c then .state .CO else if c = chr ':' then .action .a2 else .xx
  | .VA, c => if isWs c then .state .VA else opening c
  | .AR, c => if isWs c then .state .AR else if c = chr ']' then .action .a7 else opening c
  | .ST, c =>
    if isPlainByte c then .state .ST
    else if c = chr '"' then .action .a4
    else if c = chr '\\' then .action .EX
    else .xx
  | .ES, c =>
    if (escapes.lookup c).isSome then .state .ST else if c = chr 'u' then .state .U1 else .xx
  | .U1, c => hexOnly (.state .U2) c
  | .U2, c => hexOnly (.state .U3) c
  | .U3, c => hexOnly (.state .U4) c
  | .U4, c => hexOnly (.action .UC) c
  | .MI, c => if c = chr '0' then .state .ZE else if isDigit c then .state .IT else .xx
  | .ZE, c => if c = chr '.' then .action .DF else ending c
  | .IT, c =>
    if isDigit c then .state .IT
    else if c = chr '.' then .action .DF
    else if isE c then .action .DE
    else ending c
  | .FX, c | .FR, c =>
    if isDigit c then .state .FR else if isE c then .state .E1 else ending c
  | .E1, c =>
    if c = chr '+' ∨ c = chr '-' then .state .E2 else if isDigit c then .state .E3 else .xx
  | .E2, c => if isDigit c then .state .E3 else .xx
  | .E3, c => if isDigit c then .state .E3 else ending c
  | .T1, c => only (chr 'r') .T2 c
  | .T2, c => only (chr 'u') .T3 c
  | .T3, c => only (chr 'e') .OK c
  | .F1, c => only (chr 'a') .F2 c
  | .F2, c => only (chr 'l') .F3 c
  | .F3, c => only (chr 's') .F4 c
  | .F4, c => only (chr 'e') .OK c
  | .N1, c => only (chr 'u') .N2 c
  | .N2, c => only (chr 'l') .N3 c
  | .N3, c => only (chr 'l') .OK c
  | .C1, c => only (chr '*') .C2 c
  | .C2, c =>
    if c = chr '*' then .state .C3 else if isWs c ∨ 32 ≤ c ∧ c < 128 then .state .C2 else .xx
  | .C3, c =>
    if c = chr '/' then .action .CE else if c = chr '*' then .state .C3
    else if isWs c ∨ 32 ≤ c ∧ c < 128 then .state .C2 else .xx
  | .D1, c => only (chr '\\') .D2 c
  | .D2, c => only (chr 'u') .U1 c

def allStates : List State :=
  [.GO, .OK, .OB, .KE, .CO, .VA, .AR, .ST, .ES, .U1, .U2, .U3, .U4, .MI, .ZE, .IT, .FR, .E1, .E2,
    .E3, .T1, .T2, .T3, .F1, .F2, .F3, .F4, .N1, .N2, .N3, .C1, .C2, .C3, .FX, .D1, .D2]

theorem rows_agree : (List.range 256).all (fun n => allStates.all fun s =>
    entry s (UInt8.ofNat n) = row s (UInt8.ofNat n)) = true := by
  decide +kernel

theorem entry_eq (s : State) (c : UInt8) : entry s c = row s c := by
  have hs : s ∈ allStates := by cases s <;> simp [allStates]
  have h := List.all_eq_true.mp rows_agree c.toNat (List.mem_range.mpr c.toNat_lt)
  have h := List.all_eq_true.mp h s hs
  rw [UInt8.ofNat_toNat] at h
  exact of_decide_eq_true h

end ApeServer.Json
