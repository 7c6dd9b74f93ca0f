import ApeServer.Json.Parser
import ApeServer.Json.Print

/-!
# The parser reads what `json_to_string` writes

A value that is no string is reported when the character after it is read, so what is kept
between two characters is the state, the type and the buffer of a value that is still held.
-/
namespace ApeServer.Json

open Sock (Bytes)
open ApeServer.Json.Parser (jsonParserChar)

variable {F σ : Type} {cfg : Config F σ}

/-- A parser outside of escapes and comments. -/
def reading (s : State) (t : JsonType) (stack : List Mode) (buf : Bytes) (ctx : σ) : Parser σ :=
  { state := s, beforeCommentState := .GO, type := t, escaped := false, comment := false
    utf16HighSurrogate := 0, stack, parseBuffer := buf, ctx }

def classOf (c : UInt8) : Option Class := (asciiClass[c.toNat]?).join

variable {s : State} {t : JsonType} {stack rest : List Mode} {buf : Bytes} {ctx : σ} {c : UInt8}
  {k : Class}

/-- A character goes to the buffer, and the table says what it does. -/
theorem char_table (hk : classOf c = some k) (hw : t ≠ .none ∨ ¬ (k = .SPACE ∨ k = .WHITE)) :
    jsonParserChar cfg (reading s t stack buf ctx) c =
      match s.stateTransitionTable[k.ctorIdx]? with
      | some (.state s') => some (reading s' t stack (buf ++ [c]) ctx)
      | some (.action a) => (reading s t stack (buf ++ [c]) ctx).act cfg a
      | _ => none := by
  have hadd : (reading s t stack buf ctx).addCharToParseBuffer c k =
      some (reading s t stack (buf ++ [c]) ctx) := by
    simp only [Parser.addCharToParseBuffer, reading, Bool.false_eq_true, if_false, not_false_eq_true,
      true_and, if_pos hw]
    rfl
  rw [classOf] at hk
  simp only [jsonParserChar, hk, Option.bind_eq_bind, Option.bind_some, hadd]
  rfl

/-- A change of state. -/
theorem char_state {s' : State} (hk : classOf c = some k)
    (hw : t ≠ .none ∨ ¬ (k = .SPACE ∨ k = .WHITE))
    (hn : s.stateTransitionTable[k.ctorIdx]? = some (.state s')) :
    jsonParserChar cfg (reading s t stack buf ctx) c =
      some (reading s' t stack (buf ++ [c]) ctx) := by
  rw [char_table hk hw, hn]

theorem char_action {a : Action} (hk : classOf c = some k)
    (hw : t ≠ .none ∨ ¬ (k = .SPACE ∨ k = .WHITE))
    (hn : s.stateTransitionTable[k.ctorIdx]? = some (.action a)) :
    jsonParserChar cfg (reading s t stack buf ctx) c =
      (reading s t stack (buf ++ [c]) ctx).act cfg a := by
  rw [char_table hk hw, hn]

@[simp] theorem type_reading : (reading s t stack buf ctx).type = t := rfl

@[simp] theorem stack_reading : (reading s t stack buf ctx).stack = stack := rfl

@[simp] theorem parseBuffer_reading : (reading s t stack buf ctx).parseBuffer = buf := rfl

@[simp] theorem popBack_reading :
    (reading s t stack (buf ++ [c]) ctx).parseBufferPopBackChar =
      some (reading s t stack buf ctx) := by
  simp [Parser.parseBufferPopBackChar, reading]

@[simp] theorem report_reading (e : Event F) :
    (reading s t stack buf ctx).report cfg e =
      (cfg.callback ctx e).bind fun ctx => some (reading s t stack buf ctx) := rfl

@[simp] theorem enter_reading (s' : State) (t' : JsonType) :
    (reading s t stack buf ctx).enter t' s' = reading s' t' stack buf ctx := rfl

@[simp] theorem clear_reading :
    (reading s t stack buf ctx).parseBufferClear = reading s t stack [] ctx := rfl

@[simp] theorem pop_reading (m : Mode) :
    (reading s t (m :: rest) buf ctx).pop m = some (reading s t rest buf ctx) := by
  simp [Parser.pop, reading]

theorem push_reading (hd : rest.length ≤ cfg.depth) (m : Mode) :
    (reading s t rest buf ctx).push cfg m = some (reading s t (m :: rest) buf ctx) := by
  have : ¬ rest.length = cfg.depth + 1 := by omega
  simp [Parser.push, reading, this]

/-- The characters that need no escape and are not escaped either. -/
def IsPrintable (c : UInt8) : Prop := 32 ≤ c ∧ c < 127 ∧ c ≠ chr '"' ∧ c ≠ chr '\\' ∧ c ≠ 39

instance : DecidablePred IsPrintable := fun _ => inferInstanceAs (Decidable (_ ∧ _))

/-- They have a class, and it leaves a string in its state. -/
theorem IsPrintable.table (hc : IsPrintable c) :
    ∃ k, classOf c = some k ∧ State.ST.stateTransitionTable[k.ctorIdx]? = some (.state .ST) := by
  have hall : ∀ n < 256, IsPrintable (UInt8.ofNat n) →
      (classOf (UInt8.ofNat n)).any fun k =>
        State.ST.stateTransitionTable[k.ctorIdx]? = some (.state .ST) := by
    decide +kernel
  have h := hall c.toNat c.toNat_lt
  rw [UInt8.ofNat_toNat] at h
  obtain ⟨k, hk, hs⟩ := (Option.any_eq_true _ _).mp (h hc)
  exact ⟨k, hk, of_decide_eq_true hs⟩

/-- The text of a run of characters. -/
def run (cfg : Config F σ) (jc : Parser σ) (b : Bytes) : Option (Parser σ) :=
  b.foldlM (jsonParserChar cfg) jc

theorem run_append (jc : Parser σ) (a b : Bytes) :
    run cfg jc (a ++ b) = (run cfg jc a).bind fun jc => run cfg jc b := by
  simp [run, List.foldlM_append]

theorem run_cons (jc : Parser σ) (b : Bytes) :
    run cfg jc (c :: b) = (jsonParserChar cfg jc c).bind fun jc => run cfg jc b := by
  simp [run]

/-! ## Strings -/

theorem run_printable {b : Bytes} (hb : ∀ c ∈ b, IsPrintable c) :
    run cfg (reading .ST .string stack buf ctx) b =
      some (reading .ST .string stack (buf ++ b) ctx) := by
  induction b generalizing buf with
  | nil => rw [List.append_nil]; rfl
  | cons c b ih =>
    obtain ⟨k, hk, hs⟩ := (hb c List.mem_cons_self).table
    rw [run_cons, char_state hk (.inl (by decide)) hs, Option.bind_some,
      ih fun c hc => hb c (List.mem_cons_of_mem _ hc), List.append_assoc]
    rfl

/-- The states in which a string may begin. -/
theorem char_quote (hs : s = .OB ∨ s = .KE ∨ s = .VA ∨ s = .AR) :
    jsonParserChar cfg (reading s .none stack [] ctx) (chr '"') =
      some (reading .ST .string stack [] ctx) := by
  obtain rfl | rfl | rfl | rfl := hs <;> rfl

/-- A key, up to the quotation mark that ends it. -/
theorem run_keyString {b : Bytes} (hb : ∀ c ∈ b, IsPrintable c) (hs : s = .OB ∨ s = .KE) :
    run cfg (reading s .none (.key :: rest) [] ctx) (text "\"" ++ b ++ text "\"") =
      (cfg.callback ctx (.key b)).bind fun ctx =>
        some (reading .CO .none (.key :: rest) [] ctx) := by
  have hend : jsonParserChar cfg (reading .ST .string (.key :: rest) b ctx) (chr '"') =
      (cfg.callback ctx (.key b)).bind fun ctx =>
        some (reading .CO .none (.key :: rest) [] ctx) := by
    rw [char_action (k := .QUOTE) rfl (.inl (by decide)) rfl]
    simp [Parser.act, Parser.endString, Option.bind_assoc]
  have hbegin : run cfg (reading s .none (.key :: rest) [] ctx) (text "\"") =
      some (reading .ST .string (.key :: rest) [] ctx) := by
    change run cfg _ [chr '"'] = _
    rw [run_cons, char_quote (by tauto)]
    rfl
  rw [run_append, run_append, hbegin, Option.bind_some, run_printable hb, Option.bind_some,
    List.nil_append]
  change run cfg _ [chr '"'] = _
  rw [run_cons, hend]
  simp [run]

theorem char_colon (hd : rest.length ≤ cfg.depth) :
    jsonParserChar cfg (reading .CO .none (.key :: rest) [] ctx) (chr ':') =
      some (reading .VA .none (.object :: rest) [] ctx) := by
  rw [char_action (k := .COLON) rfl (.inr (by decide)) rfl]
  simp only [Parser.act, Parser.colon, popBack_reading, pop_reading, push_reading hd,
    Option.bind_eq_bind, Option.bind_some]
  rfl

/-- A key and the colon after it. -/
theorem run_key {b : Bytes} (hb : ∀ c ∈ b, IsPrintable c) (hs : s = .OB ∨ s = .KE)
    (hd : rest.length ≤ cfg.depth) :
    run cfg (reading s .none (.key :: rest) [] ctx) (keyText (some b)) =
      (cfg.callback ctx (.key b)).bind fun ctx =>
        some (reading .VA .none (.object :: rest) [] ctx) := by
  have htext : keyText (some b) = (text "\"" ++ b ++ text "\"") ++ [chr ':'] := by
    rw [keyText, List.append_assoc, List.append_assoc, List.append_assoc]
    rfl
  rw [htext, run_append, run_keyString hb hs]
  cases cfg.callback ctx (.key b) with
  | none => rfl
  | some ctx' =>
    rw [Option.bind_some, Option.bind_some, Option.bind_some, run_cons, char_colon hd]
    rfl

/-! ## Values and what follows them -/

/-- The mode in which the values of a container are read, and the one for what comes first in
a member or an element. -/
def Kind.valueMode : Kind → Mode
  | .obj => .object
  | .arr => .array

def Kind.mode : Kind → Mode
  | .obj => .key
  | .arr => .array

def Kind.commaState : Kind → State
  | .obj => .KE
  | .arr => .VA

/-- A value has been read to its end: the events are reported with the next character. -/
structure Held (cfg : Config F σ) (s : State) (t : JsonType) (buf : Bytes)
    (es : List (Event F)) : Prop where
  state : s = .OK ∨ s = .ZE ∨ s = .IT
  type : t ≠ .string
  flush : ∀ stack ctx, (reading s t stack buf ctx).parseParseBuffer cfg =
    (es.foldlM cfg.callback ctx).bind fun ctx => some (reading s t stack [] ctx)

variable {es : List (Event F)} {kind : Kind}

/-- No value is held. -/
theorem held_nil : Held cfg .OK .none [] [] := ⟨.inl rfl, by decide, fun _ _ => rfl⟩

theorem Held.comma (hh : Held cfg s t buf es) (hd : rest.length ≤ cfg.depth) :
    jsonParserChar cfg (reading s t (kind.valueMode :: rest) buf ctx) (chr ',') =
      (es.foldlM cfg.callback ctx).bind fun ctx =>
        some (reading kind.commaState .none (kind.mode :: rest) [] ctx) := by
  have ha : s.stateTransitionTable[Class.COMMA.ctorIdx]? = some (.action .a3) := by
    obtain rfl | rfl | rfl := hh.state <;> rfl
  rw [char_action (k := .COMMA) rfl (.inr (by decide)) ha, Parser.act, Parser.comma,
    popBack_reading, Option.bind_eq_bind, Option.bind_some, hh.flush, Option.bind_assoc]
  congr 1
  funext ctx
  cases kind with
  | obj => simp [Kind.valueMode, Kind.mode, Kind.commaState, push_reading hd, hh.type]
  | arr => simp [Kind.valueMode, Kind.mode, Kind.commaState, hh.type]

theorem Held.close (hh : Held cfg s t buf es) :
    run cfg (reading s t (kind.valueMode :: rest) buf ctx) (closeText kind.childType) =
      ((es ++ [kind.endEvent]).foldlM cfg.callback ctx).bind fun ctx =>
        some (reading .OK .none rest [] ctx) := by
  have hclose : ∀ (c : UInt8) (k : Class) (a : Action) (e : Event F), classOf c = some k →
      ¬ (k = .SPACE ∨ k = .WHITE) → s.stateTransitionTable[k.ctorIdx]? = some (.action a) →
      (∀ jc : Parser σ, jc.act cfg a = jc.closeContainer cfg e kind.valueMode) →
      run cfg (reading s t (kind.valueMode :: rest) buf ctx) [c] =
        ((es ++ [e]).foldlM cfg.callback ctx).bind fun ctx =>
          some (reading .OK .none rest [] ctx) := by
    intro c k a e hk hw ha hact
    rw [run_cons, char_action hk (.inr hw) ha, hact]
    simp only [run, List.foldlM_nil, Option.pure_def, Option.bind_fun_some,
      Parser.closeContainer, popBack_reading, Option.bind_eq_bind, Option.bind_some, hh.flush,
      Option.bind_assoc, report_reading, pop_reading, enter_reading, List.foldlM_append,
      List.foldlM_cons]
  cases kind with
  | obj =>
    have ha : s.stateTransitionTable[Class.RCURB.ctorIdx]? = some (.action .a8) := by
      obtain rfl | rfl | rfl := hh.state <;> rfl
    exact hclose 125 .RCURB .a8 _ rfl (by decide) ha fun _ => rfl
  | arr =>
    have ha : s.stateTransitionTable[Class.RSQRB.ctorIdx]? = some (.action .a7) := by
      obtain rfl | rfl | rfl := hh.state <;> rfl
    exact hclose 93 .RSQRB .a7 _ rfl (by decide) ha fun _ => rfl

/-- A value is read wherever `n` more containers may be opened, up to what is held of it. -/
def Reads (cfg : Config F σ) (n : ℕ) (b : Bytes) (es : List (Event F)) : Prop :=
  ∃ s t buf es₁ es₂, es = es₁ ++ es₂ ∧ Held cfg s t buf es₂ ∧
    ∀ s₀ m rest ctx, s₀ = .VA ∨ s₀ = .AR → m = .object ∨ m = .array →
      rest.length + n ≤ cfg.depth →
      run cfg (reading s₀ .none (m :: rest) [] ctx) b =
        (es₁.foldlM cfg.callback ctx).bind fun ctx => some (reading s t (m :: rest) buf ctx)

/-- What is between quotation marks is read as the string `v`. -/
theorem run_quoted {b v : Bytes} (hb : run cfg (reading .ST .string stack [] ctx) b =
      some (reading .ST .string stack v ctx)) (hs : s = .VA ∨ s = .AR)
    {m : Mode} (hm : m = .object ∨ m = .array) (hst : stack = m :: rest) :
    run cfg (reading s .none stack [] ctx) (text "\"" ++ b ++ text "\"") =
      (cfg.callback ctx (.string v)).bind fun ctx => some (reading .OK .none stack [] ctx) := by
  subst hst
  have hend : jsonParserChar cfg (reading .ST .string (m :: rest) v ctx) (chr '"') =
      (cfg.callback ctx (.string v)).bind fun ctx =>
        some (reading .OK .none (m :: rest) [] ctx) := by
    rw [char_action (k := .QUOTE) rfl (.inl (by decide)) rfl]
    obtain rfl | rfl := hm <;>
      simp [Parser.act, Parser.endString, Parser.parseParseBuffer, Option.bind_assoc]
  have hbegin : run cfg (reading s .none (m :: rest) [] ctx) (text "\"") =
      some (reading .ST .string (m :: rest) [] ctx) := by
    change run cfg _ [chr '"'] = _
    rw [run_cons, char_quote (by tauto)]
    rfl
  rw [run_append, run_append, hbegin, Option.bind_some, hb, Option.bind_some]
  change run cfg _ [chr '"'] = _
  rw [run_cons, hend]
  simp [run]

theorem run_string {b : Bytes} (hb : ∀ c ∈ b, IsPrintable c) (hs : s = .VA ∨ s = .AR)
    {m : Mode} (hm : m = .object ∨ m = .array) :
    run cfg (reading s .none (m :: rest) [] ctx) (text "\"" ++ b ++ text "\"") =
      (cfg.callback ctx (.string b)).bind fun ctx =>
        some (reading .OK .none (m :: rest) [] ctx) :=
  run_quoted (run_printable hb) hs hm rfl

theorem reads_quoted {b v : Bytes} (hb : ∀ stack (ctx : σ),
    run cfg (reading .ST .string stack [] ctx) b = some (reading .ST .string stack v ctx)) :
    Reads cfg 0 (text "\"" ++ b ++ text "\"") [.string v] := by
  refine ⟨.OK, .none, [], [.string v], [], rfl, held_nil, fun s₀ m rest ctx hs hm _ => ?_⟩
  rw [run_quoted (hb _ _) hs hm rfl]
  simp

theorem reads_string {b : Bytes} (hb : ∀ c ∈ b, IsPrintable c) :
    Reads cfg 0 (text "\"" ++ b ++ text "\"") [.string b] :=
  reads_quoted fun _ _ => run_printable hb

/-- A type by which one event is reported. -/
theorem held_report {e : Event F} (hs : s = .OK ∨ s = .ZE ∨ s = .IT) (ht : t ≠ .string)
    (h : ∀ stack ctx, (reading s t stack buf ctx).parseParseBuffer cfg =
      Parser.parseBufferClear <$> (reading s t stack buf ctx).report cfg e) :
    Held cfg s t buf [e] := by
  refine ⟨hs, ht, fun stack ctx => ?_⟩
  rw [h, report_reading]
  cases hc : cfg.callback ctx e <;> simp [hc]

/-- A word that is reported by its type. -/
theorem reads_word {b : Bytes} {e : Event F} (hh : Held cfg .OK t b [e])
    (hrun : ∀ s₀ stack ctx, s₀ = .VA ∨ s₀ = .AR →
      run cfg (reading s₀ .none stack [] ctx) b = some (reading .OK t stack b ctx)) :
    Reads cfg 0 b [e] :=
  ⟨.OK, t, b, [], [e], rfl, hh, fun s₀ m rest ctx hs _ _ => hrun s₀ (m :: rest) ctx hs⟩

theorem reads_null : Reads cfg 0 (text "null") [.null] := by
  refine reads_word (t := .null) (held_report (.inl rfl) (by decide) fun _ _ => rfl)
    fun s₀ stack ctx hs => ?_
  obtain rfl | rfl := hs <;> rfl

theorem reads_true : Reads cfg 0 (text "true") [.true] := by
  refine reads_word (t := .true) (held_report (.inl rfl) (by decide) fun _ _ => rfl)
    fun s₀ stack ctx hs => ?_
  obtain rfl | rfl := hs <;> rfl

theorem reads_false : Reads cfg 0 (text "false") [.false] := by
  refine reads_word (t := .false) (held_report (.inl rfl) (by decide) fun _ _ => rfl)
    fun s₀ stack ctx hs => ?_
  obtain rfl | rfl := hs <;> rfl

/-! ## Integers -/

theorem digitsValue_digitsText (m : ℕ) : digitsValue (digitsText digitChar m) = m := by
  induction m using Nat.strong_induction_on with
  | _ m ih =>
    by_cases hm : m = 0
    · subst hm
      rfl
    · have hdigit : (digitChar (m % 10)).toNat - 48 = m % 10 := by
        have : m % 10 < 10 := by omega
        rw [digitChar, UInt8.toNat_ofNat']
        omega
      have ih := ih (m / 10) (by omega)
      rw [digitsValue] at ih ⊢
      rw [digitsText_succ digitChar hm, List.foldl_append, ih, List.foldl_cons, List.foldl_nil,
        hdigit]
      omega

/-- An integer is read up to what is no digit. -/
theorem scanInteger_decimal {n : ℤ} {w : Bytes} (hw : w.takeWhile isDigit = [])
    (hmin : -2 ^ 63 < n) (hmax : n < 2 ^ 63) : scanInteger (decimal n ++ w) = n := by
  have hfold := digitsValue_digitsText n.natAbs
  have htake : (digitsText digitChar n.natAbs ++ w).takeWhile isDigit =
      digitsText digitChar n.natAbs := by
    rw [List.takeWhile_append_of_pos digitsText_isDigit, hw, List.append_nil]
  by_cases hneg : n < 0
  · rw [decimal, if_pos hneg, List.cons_append, scanInteger, if_pos rfl, htake, hfold]
    omega
  by_cases h0 : n = 0
  · subst h0
    have hzero : (text "0" ++ w).takeWhile isDigit = text "0" := by
      rw [List.takeWhile_append_of_pos (List.all_eq_true.mp (by decide)), hw, List.append_nil]
    rw [decimal, if_neg (by decide), if_pos rfl]
    change min ((digitsValue ((text "0" ++ w).takeWhile isDigit) : ℕ) : ℤ) _ = 0
    rw [hzero]
    rfl
  obtain ⟨d, b, -, hlt, hb⟩ := digitsText_cons (m := n.natAbs) (by omega)
  have hminus : digitChar d ≠ chr '-' := by
    interval_cases d <;> decide
  rw [hb] at htake
  rw [decimal, if_neg hneg, if_neg h0, hb, List.cons_append, scanInteger, if_neg hminus,
    ← List.cons_append, htake, ← hb, hfold]
  omega

theorem run_digits {b : Bytes} (hb : ∀ c ∈ b, IsDigit c) :
    run cfg (reading .IT .integer stack buf ctx) b =
      some (reading .IT .integer stack (buf ++ b) ctx) := by
  induction b generalizing buf with
  | nil => rw [List.append_nil]; rfl
  | cons c b ih =>
    obtain ⟨k, hk, hs⟩ : ∃ k, classOf c = some k ∧
        State.IT.stateTransitionTable[k.ctorIdx]? = some (.state .IT) := by
      obtain ⟨d, hd, rfl⟩ := hb c List.mem_cons_self
      interval_cases d
      · exact ⟨.ZERO, rfl, rfl⟩
      all_goals exact ⟨.DIGIT, rfl, rfl⟩
    rw [run_cons, char_state hk (.inl (by decide)) hs, Option.bind_some,
      ih fun c hc => hb c (List.mem_cons_of_mem _ hc), List.append_assoc]
    rfl

/-- An integer is read into the buffer. -/
theorem run_decimal (cfg : Config F σ) (n : ℤ) : ∃ s, (s = .ZE ∨ s = .IT) ∧ ∀ s₀ stack (ctx : σ),
    s₀ = .VA ∨ s₀ = .AR → run cfg (reading s₀ .none stack [] ctx) (decimal n) =
      some (reading s .integer stack (decimal n) ctx) := by
  by_cases h0 : n = 0
  · subst h0
    refine ⟨.ZE, .inl rfl, fun s₀ stack ctx hs => ?_⟩
    obtain rfl | rfl := hs <;> rfl
  refine ⟨.IT, .inr rfl, fun s₀ stack ctx hs => ?_⟩
  obtain ⟨d, b, hd, hlt, hb⟩ := digitsText_cons (m := n.natAbs) (by omega)
  have hdigits : ∀ c ∈ b, IsDigit c := fun c hc =>
    digitsText_digits (m := n.natAbs) (by rw [hb]; exact List.mem_cons_of_mem _ hc)
  have hclass : classOf (digitChar d) = some .DIGIT := by
    interval_cases d
    · exact absurd rfl hd
    all_goals rfl
  by_cases hneg : n < 0
  · have hminus : jsonParserChar cfg (reading s₀ .none stack [] ctx) (chr '-') =
        some (reading .MI .integer stack (text "-") ctx) := by
      obtain rfl | rfl := hs <;> rfl
    rw [decimal, if_pos hneg, hb, run_cons, hminus, Option.bind_some, run_cons,
      char_state hclass (.inl (by decide)) rfl, Option.bind_some, run_digits hdigits]
    rfl
  · have hfirst : jsonParserChar cfg (reading s₀ .none stack [] ctx) (digitChar d) =
        some (reading .IT .integer stack [digitChar d] ctx) := by
      obtain rfl | rfl := hs <;> rw [char_action hclass (.inr (by decide)) rfl] <;> rfl
    rw [decimal, if_neg hneg, if_neg h0, hb, run_cons, hfirst, Option.bind_some,
      run_digits hdigits]
    rfl

theorem reads_decimal {n : ℤ} (hmin : -2 ^ 63 < n) (hmax : n < 2 ^ 63) :
    Reads cfg 0 (decimal n) [.integer n] := by
  have hscan : scanInteger (decimal n) = n := by
    simpa using scanInteger_decimal (w := []) rfl hmin hmax
  obtain ⟨s, hs, hrun⟩ := run_decimal cfg n
  have hheld : Held cfg s .integer (decimal n) [.integer n] := by
    refine held_report (.inr hs) (by decide) fun stack ctx => ?_
    rw [Parser.parseParseBuffer, type_reading, parseBuffer_reading, hscan]
  exact ⟨s, .integer, decimal n, [], [.integer n], rfl, hheld,
    fun s₀ m rest ctx hs₀ _ _ => hrun s₀ (m :: rest) ctx hs₀⟩

/-! ## Documents -/

def NameOk : Kind → Option Bytes → Prop
  | .obj, some name => ∀ c ∈ name, IsPrintable c
  | .arr, none => True
  | _, _ => False

/-- A value that is printed and read back. -/
def Scalar.Clean : Scalar F → Prop
  | integer n => -2 ^ 63 < n ∧ n < 2 ^ 63
  | float _ => False
  | string s => ∀ c ∈ s, IsPrintable c
  | _ => True

namespace Doc

/-- The members have names and the elements none, and no container is empty. -/
def Clean : Kind → Doc F → Prop
  | _, nil => True
  | kind, scalar name v next => NameOk kind name ∧ v.Clean ∧ next.Clean kind
  | kind, node name kind' child next =>
    NameOk kind name ∧ child.isNil = false ∧ child.Clean kind' ∧ next.Clean kind

/-- The same for any values that are good. -/
def Made (Q : Scalar F → Prop) : Kind → Doc F → Prop
  | _, nil => True
  | kind, scalar name v next => NameOk kind name ∧ Q v ∧ next.Made Q kind
  | kind, node name kind' child next =>
    NameOk kind name ∧ child.isNil = false ∧ child.Made Q kind' ∧ next.Made Q kind

theorem Clean.made {kind : Kind} {d : Doc F} (h : d.Clean kind) : d.Made Scalar.Clean kind := by
  induction d generalizing kind with
  | nil => trivial
  | scalar name v next ih => exact ⟨h.1, h.2.1, ih h.2.2⟩
  | node name kind' child next ihc ihn => exact ⟨h.1, h.2.1, ihc h.2.2.1, ihn h.2.2.2⟩

def depth : Doc F → ℕ
  | nil => 0
  | scalar _ _ next => next.depth
  | node _ _ child next => max (child.depth + 1) next.depth

end Doc

theorem escape_printable {b : Bytes} (hb : ∀ c ∈ b, IsPrintable c) : escapeJsonString b = b := by
  induction b with
  | nil => rfl
  | cons c b ih =>
    obtain ⟨hlow, -, hquote, hback, hapos⟩ := hb c List.mem_cons_self
    have hne : ∀ n : UInt8, n < 32 → c ≠ n := fun n hn hc => absurd (hc ▸ hlow) (by simpa using hn)
    have hc : escapeChar c = [c] := by
      simp only [escapeChar, if_neg hquote, if_neg hback, if_neg (hne 10 (by decide)),
        if_neg (hne 8 (by decide)), if_neg (hne 9 (by decide)), if_neg (hne 12 (by decide)),
        if_neg (hne 13 (by decide)), if_neg hapos]
    rw [escapeJsonString, List.flatMap_cons, hc]
    exact congrArg _ (ih fun c hc => hb c (List.mem_cons_of_mem _ hc))

/-- The state before a member or an element. -/
def Kind.Starts : Kind → State → Prop
  | .obj, s => s = .OB ∨ s = .KE
  | .arr, s => s = .AR ∨ s = .VA

theorem run_name {name : Option Bytes} (hn : NameOk kind name) (hs : kind.Starts s)
    (hd : rest.length ≤ cfg.depth) :
    ∃ s', (s' = .VA ∨ s' = .AR) ∧ ∀ ctx,
      run cfg (reading s .none (kind.mode :: rest) [] ctx) (keyText name) =
        ((Doc.nameEvents name).foldlM cfg.callback ctx).bind fun ctx =>
          some (reading s' .none (kind.valueMode :: rest) [] ctx) := by
  cases kind with
  | obj =>
    cases name with
    | none => exact hn.elim
    | some name =>
      refine ⟨.VA, .inl rfl, fun ctx => ?_⟩
      rw [Kind.mode, run_key hn hs hd]
      simp [Doc.nameEvents, Kind.valueMode]
  | arr =>
    cases name with
    | none => exact ⟨s, hs.symm, fun ctx => rfl⟩
    | some name => exact hn.elim

variable [Zero F] [DecidableEq F] {P : Printer F}

omit [Zero F] [DecidableEq F] in
theorem decimal_text (hl : LengthOk P.log10) {n : ℤ} (hmin : n ≠ -2 ^ 63) :
    (if n = 0 then text "0" else (integerText P.log10 n).getD []) = decimal n := by
  split
  · rename_i h0
    subst h0
    rfl
  · rename_i h0
    rw [integerText_eq hl h0 hmin]
    rfl

theorem Scalar.Clean.reads {v : Scalar F} (hv : v.Clean) (hl : LengthOk P.log10) :
    Reads cfg 0 (v.text P) [v.event] := by
  cases v with
  | integer n =>
    obtain ⟨hmin, hmax⟩ := hv
    rw [Scalar.text, decimal_text hl (by omega)]
    exact reads_decimal hmin hmax
  | float x => exact hv.elim
  | null => exact reads_null
  | true => exact reads_true
  | false => exact reads_false
  | string s =>
    rw [Scalar.text, escape_printable hv]
    exact reads_string hv

/-- What the text of members or elements does, from the state before the first of them to the
bracket that closes their container. -/
def ReadsAll (cfg : Config F σ) (kind : Kind) (b : Bytes) (d : Doc F) : Prop :=
  ∀ s rest ctx, kind.Starts s → rest.length + d.depth ≤ cfg.depth →
    run cfg (reading s .none (kind.mode :: rest) [] ctx) b =
      ((d.events ++ [kind.endEvent]).foldlM cfg.callback ctx).bind fun ctx =>
        some (reading .OK .none rest [] ctx)

theorem Kind.starts_comma (kind : Kind) : kind.Starts kind.commaState := by
  cases kind
  · exact .inr rfl
  · exact .inr rfl

/-- What is left after a value that is held. -/
theorem Held.after (hh : Held cfg s t buf es) {d : Doc F}
    (hd : d.isNil = false → ReadsAll cfg kind (d.text P kind) d)
    (hdepth : rest.length + d.depth ≤ cfg.depth) :
    run cfg (reading s t (kind.valueMode :: rest) buf ctx) (d.after kind ++ d.text P kind) =
      ((es ++ (d.events ++ [kind.endEvent])).foldlM cfg.callback ctx).bind fun ctx =>
        some (reading .OK .none rest [] ctx) := by
  have hmore : d.isNil = false → run cfg (reading s t (kind.valueMode :: rest) buf ctx)
      (text "," ++ d.text P kind) =
      ((es ++ (d.events ++ [kind.endEvent])).foldlM cfg.callback ctx).bind fun ctx =>
        some (reading .OK .none rest [] ctx) := by
    intro hn
    rw [run_append]
    change (run cfg _ [chr ',']).bind _ = _
    rw [run_cons, hh.comma (by omega), List.foldlM_append, Option.bind_eq_bind]
    cases es.foldlM cfg.callback ctx with
    | none => rfl
    | some ctx' =>
      rw [Option.bind_some, Option.bind_some, Option.bind_some]
      exact hd hn _ _ _ kind.starts_comma hdepth
  cases d with
  | nil =>
    rw [Doc.after, Doc.text, List.append_nil, Doc.events, List.nil_append]
    exact hh.close
  | scalar _ _ _ => exact hmore rfl
  | node _ _ _ _ => exact hmore rfl

/-- A member or an element whose value is read, then the others. -/
theorem Reads.item {n : ℕ} {b : Bytes} (hb : Reads cfg n b es) {name : Option Bytes}
    (hname : NameOk kind name) {d : Doc F}
    (hd : d.isNil = false → ReadsAll cfg kind (d.text P kind) d) {s : State}
    (hs : kind.Starts s) (hn : rest.length + n ≤ cfg.depth)
    (hdepth : rest.length + d.depth ≤ cfg.depth) :
    run cfg (reading s .none (kind.mode :: rest) [] ctx)
        (keyText name ++ b ++ d.after kind ++ d.text P kind) =
      ((Doc.nameEvents name ++ (es ++ (d.events ++ [kind.endEvent]))).foldlM
        cfg.callback ctx).bind fun ctx => some (reading .OK .none rest [] ctx) := by
  obtain ⟨s', hs', hkey⟩ := run_name hname hs (by omega : rest.length ≤ cfg.depth)
  obtain ⟨s₁, t₁, buf₁, es₁, es₂, rfl, hheld, hread⟩ := hb
  have hm : kind.valueMode = .object ∨ kind.valueMode = .array := by
    cases kind
    · exact .inl rfl
    · exact .inr rfl
  rw [List.append_assoc, List.append_assoc, run_append, hkey, List.foldlM_append,
    Option.bind_eq_bind]
  cases (Doc.nameEvents name).foldlM cfg.callback ctx with
  | none => rfl
  | some ctx' =>
    rw [Option.bind_some, Option.bind_some, Option.bind_some, run_append,
      hread s' _ rest ctx' hs' hm hn, List.append_assoc, List.foldlM_append, Option.bind_eq_bind]
    cases es₁.foldlM cfg.callback ctx' with
    | none => rfl
    | some ctx'' =>
      rw [Option.bind_some, Option.bind_some, Option.bind_some]
      exact hheld.after hd hdepth

def Kind.openState : Kind → State
  | .obj => .OB
  | .arr => .AR

theorem Kind.starts_open (kind : Kind) : kind.Starts kind.openState := by
  cases kind
  · exact .inl rfl
  · exact .inl rfl

omit [Zero F] [DecidableEq F] in
theorem openContainer_reading (hd : stack.length ≤ cfg.depth) (e : Event F) (m : Mode)
    (s' : State) :
    (reading s .none stack (buf ++ [c]) ctx).openContainer cfg e m s' =
      (cfg.callback ctx e).bind fun ctx => some (reading s' .none (m :: stack) buf ctx) := by
  simp only [Parser.openContainer, popBack_reading, Option.bind_eq_bind, Option.bind_some,
    report_reading, Option.bind_assoc, push_reading hd, type_reading, if_true]
  rfl

omit [Zero F] [DecidableEq F] in
theorem run_open (hs : s = .VA ∨ s = .AR ∨ s = .GO) (hd : stack.length ≤ cfg.depth) :
    run cfg (reading s .none stack [] ctx) (openText kind.childType) =
      (cfg.callback ctx kind.beginEvent).bind fun ctx =>
        some (reading kind.openState .none (kind.mode :: stack) [] ctx) := by
  have hopen : ∀ (c : UInt8) (k : Class) (a : Action), classOf c = some k →
      ¬ (k = .SPACE ∨ k = .WHITE) → s.stateTransitionTable[k.ctorIdx]? = some (.action a) →
      (∀ jc : Parser σ, jc.act cfg a =
        jc.openContainer cfg kind.beginEvent kind.mode kind.openState) →
      run cfg (reading s .none stack [] ctx) [c] =
        (cfg.callback ctx kind.beginEvent).bind fun ctx =>
          some (reading kind.openState .none (kind.mode :: stack) [] ctx) := by
    intro c k a hk hw ha hact
    rw [run_cons, char_action hk (.inr hw) ha, hact, openContainer_reading hd]
    simp [run]
  cases kind with
  | obj =>
    have ha : s.stateTransitionTable[Class.LCURB.ctorIdx]? = some (.action .a6) := by
      obtain rfl | rfl | rfl := hs <;> rfl
    exact hopen 123 .LCURB .a6 rfl (by decide) ha fun _ => rfl
  | arr =>
    have ha : s.stateTransitionTable[Class.LSQRB.ctorIdx]? = some (.action .a5) := by
      obtain rfl | rfl | rfl := hs <;> rfl
    exact hopen 91 .LSQRB .a5 rfl (by decide) ha fun _ => rfl

theorem reads_container {child : Doc F} (hc : ReadsAll cfg kind (child.text P kind) child) :
    Reads cfg (child.depth + 1) (openText kind.childType ++ child.text P kind)
      (kind.beginEvent :: (child.events ++ [kind.endEvent])) := by
  refine ⟨.OK, .none, [], _, [], (List.append_nil _).symm, held_nil,
    fun s₀ m rest ctx hs _ hd => ?_⟩
  rw [run_append, run_open (by tauto) (by simpa using by omega), List.foldlM_cons,
    Option.bind_eq_bind]
  cases cfg.callback ctx kind.beginEvent with
  | none => rfl
  | some ctx' =>
    rw [Option.bind_some, Option.bind_some, Option.bind_some]
    exact hc _ _ _ kind.starts_open (by rw [List.length_cons]; omega)

/-- The parser reads the text of members or elements event by event, if it reads every value. -/
theorem Doc.Made.readsAll {Q : Scalar F → Prop} {d : Doc F} (hd : d.Made Q kind)
    (hQ : ∀ v, Q v → Reads cfg 0 (v.text P) [v.event]) (hn : d.isNil = false) :
    ReadsAll cfg kind (d.text P kind) d := by
  induction d generalizing kind with
  | nil => cases hn
  | scalar name v next ih =>
    obtain ⟨hname, hv, hnext⟩ := hd
    intro s rest ctx hs hdepth
    rw [Doc.depth] at hdepth
    rw [Doc.text, (hQ v hv).item hname (ih hnext) hs (by omega) hdepth, Doc.events]
    simp only [List.append_assoc, List.cons_append, List.nil_append]
  | node name kind' child next ihc ihn =>
    obtain ⟨hname, hchild, hcc, hnext⟩ := hd
    intro s rest ctx hs hdepth
    rw [Doc.depth] at hdepth
    rw [Doc.text, hchild, if_neg Bool.false_ne_true,
      (reads_container (ihc hcc hchild)).item hname (ihn hnext) hs (by omega) (by omega),
      Doc.events]
    simp only [List.append_assoc, List.cons_append, List.nil_append]

/-- It reads the text of a document, if it has room for the containers that are open in it. -/
theorem run_root {d : Doc F} (hr : ReadsAll cfg kind (d.text P kind) d)
    (hd : d.depth + 1 ≤ cfg.depth) :
    run cfg (reading .GO .none [.done] [] ctx) (openText kind.childType ++ d.text P kind) =
      ((kind.beginEvent :: (d.events ++ [kind.endEvent])).foldlM cfg.callback ctx).bind
        fun ctx => some (reading .OK .none [.done] [] ctx) := by
  have hroom : [Mode.done].length + d.depth ≤ cfg.depth := by
    change 1 + d.depth ≤ cfg.depth
    omega
  rw [run_append, run_open (.inr (.inr rfl)) (by omega), List.foldlM_cons, Option.bind_eq_bind]
  cases cfg.callback ctx kind.beginEvent with
  | none => rfl
  | some ctx' =>
    rw [Option.bind_some, Option.bind_some, Option.bind_some]
    exact hr _ _ _ kind.starts_open hroom

end ApeServer.Json
