import ApeServer.Json.Kept
import ApeServer.Json.Quoting

/-!
# Escaped strings

`escape_json_string` and the parser's escapes are each other's inverse on a character that is
no apostrophe and no control character without an escape of its own. Of the others, the parser
refuses `\'` as an escape and a bare control character as a part of a string, and with it the
whole text.
-/
namespace ApeServer.Json

open Sock (Bytes)

variable {F σ : Type} {cfg : Config F σ} {s : State} {t : JsonType} {stack rest : List Mode}
  {buf : Bytes} {ctx : σ} {c : UInt8}

/-- The ASCII characters without NUL. -/
def IsAscii (c : UInt8) : Prop := 0 < c ∧ c < 128

instance : DecidablePred IsAscii := fun _ => inferInstanceAs (Decidable (_ ∧ _))

/-- A parser in a string, behind a backslash. -/
def escaping (stack : List Mode) (buf : Bytes) (ctx : σ) : Parser σ :=
  { reading .ES .string stack (buf ++ [chr '\\']) ctx with escaped := true }

theorem run_backslash (e : UInt8) :
    run cfg (reading .ST .string stack buf ctx) [chr '\\', e] =
      Parser.jsonParserChar cfg (escaping stack buf ctx) e := by
  rw [run_cons, char_action (k := .BACKS) rfl (.inl (by decide)) rfl, Parser.act, Option.bind_some]
  change run cfg (escaping stack buf ctx) [e] = _
  rw [run_cons]
  exact Option.bind_fun_some _

/-- The backslash leaves the buffer. -/
theorem escaping_pop :
    ({ escaping stack buf ctx with escaped := false } : Parser σ).parseBufferPopBackChar =
      some (reading .ES .string stack buf ctx) := by
  simp [Parser.parseBufferPopBackChar, escaping, reading]

/-- The escapes that `escape_json_string` writes, with what the parser makes of them. -/
theorem char_escape {e u : UInt8} (h : (e, u) ∈ [(chr '"', chr '"'), (chr '\\', chr '\\'),
      (chr 'n', 10), (chr 'b', 8), (chr 't', 9), (chr 'f', 12), (chr 'r', 13)]) :
    Parser.jsonParserChar cfg (escaping stack buf ctx) e =
      some (reading .ST .string stack (buf ++ [u]) ctx) := by
  have hadd : ∀ k, (escaping stack buf ctx).addCharToParseBuffer e k =
      some (reading .ES .string stack (buf ++ [u]) ctx) := by
    intro k
    change (escaping stack buf ctx).addEscapedCharToParseBuffer e = _
    rw [Parser.addEscapedCharToParseBuffer, escaping_pop]
    simp only [List.mem_cons, Prod.mk.injEq, List.not_mem_nil, or_false] at h
    obtain ⟨rfl, rfl⟩ | ⟨rfl, rfl⟩ | ⟨rfl, rfl⟩ | ⟨rfl, rfl⟩ | ⟨rfl, rfl⟩ | ⟨rfl, rfl⟩ |
      ⟨rfl, rfl⟩ := h <;> rfl
  have hclass : ∃ k, classOf e = some k ∧
      State.ES.stateTransitionTable[k.ctorIdx]? = some (.state .ST) := by
    simp only [List.mem_cons, Prod.mk.injEq, List.not_mem_nil, or_false] at h
    obtain ⟨rfl, rfl⟩ | ⟨rfl, rfl⟩ | ⟨rfl, rfl⟩ | ⟨rfl, rfl⟩ | ⟨rfl, rfl⟩ | ⟨rfl, rfl⟩ |
      ⟨rfl, rfl⟩ := h <;> exact ⟨_, rfl, rfl⟩
  obtain ⟨k, hk, hs⟩ := hclass
  rw [classOf] at hk
  have hentry : (reading .ES .string stack (buf ++ [u]) ctx).state.stateTransitionTable[k.ctorIdx]? =
      some (.state .ST) := hs
  simp only [Parser.jsonParserChar, hk, Option.bind_eq_bind, Option.bind_some, hadd, hentry]
  rfl

/-- An apostrophe has no escape. -/
theorem char_apostrophe : Parser.jsonParserChar cfg (escaping stack buf ctx) 39 = none := by
  have hadd : ∀ k, (escaping stack buf ctx).addCharToParseBuffer 39 k = none := by
    intro k
    change (escaping stack buf ctx).addEscapedCharToParseBuffer 39 = none
    rw [Parser.addEscapedCharToParseBuffer, escaping_pop]
    rfl
  simp only [Parser.jsonParserChar, Option.bind_eq_bind, hadd, Option.bind_none]
  exact Option.bind_fun_none _

/-! ## Strings -/

/-- Of the characters that are left alone, the parser takes those that are no control
characters. -/
theorem char_self (hc : IsAscii c)
    (hself : c ∉ ([chr '"', chr '\\', 10, 8, 9, 12, 13, 39] : Bytes)) :
    Parser.jsonParserChar cfg (reading .ST .string stack buf ctx) c =
      if IsEscaped c then some (reading .ST .string stack (buf ++ [c]) ctx) else none := by
  have hall : ∀ n < 256, IsAscii (UInt8.ofNat n) →
      UInt8.ofNat n ∉ ([chr '"', chr '\\', 10, 8, 9, 12, 13, 39] : Bytes) →
      if IsEscaped (UInt8.ofNat n) then (classOf (UInt8.ofNat n)).any fun k =>
          State.ST.stateTransitionTable[k.ctorIdx]? = some (.state .ST)
        else classOf (UInt8.ofNat n) = none := by
    decide +kernel
  have h := hall c.toNat c.toNat_lt
  rw [UInt8.ofNat_toNat] at h
  have h := h hc hself
  split at h
  · rename_i he
    obtain ⟨k, hk, hs⟩ := (Option.any_eq_true _ _).mp h
    rw [char_state hk (.inl (by decide)) (of_decide_eq_true hs), if_pos he]
  · rename_i he
    rw [if_neg he, Parser.jsonParserChar]
    rw [classOf] at h
    rw [h]
    rfl

/-- The parser undoes what `escape_json_string` does to a character, or stops. -/
theorem run_escapeChar (hc : IsAscii c) :
    run cfg (reading .ST .string stack buf ctx) (escapeChar c) =
      if IsEscaped c then some (reading .ST .string stack (buf ++ [c]) ctx) else none := by
  by_cases hself : c ∈ ([chr '"', chr '\\', 10, 8, 9, 12, 13, 39] : Bytes)
  · simp only [List.mem_cons, List.not_mem_nil, or_false] at hself
    rcases hself with rfl | rfl | rfl | rfl | rfl | rfl | rfl | rfl
    · exact (run_backslash _).trans (char_escape (by decide))
    · exact (run_backslash _).trans (char_escape (by decide))
    · exact (run_backslash _).trans (char_escape (by decide))
    · exact (run_backslash _).trans (char_escape (by decide))
    · exact (run_backslash _).trans (char_escape (by decide))
    · exact (run_backslash _).trans (char_escape (by decide))
    · exact (run_backslash _).trans (char_escape (by decide))
    · exact (run_backslash _).trans char_apostrophe
  · rw [escapeChar_self hself, run_cons, char_self hc hself]
    exact Option.bind_fun_some _

/-- A string is read back from its escaped text, or it is not read at all. -/
theorem run_escapeJsonString {v : Bytes} (hv : ∀ c ∈ v, IsAscii c) :
    run cfg (reading .ST .string stack buf ctx) (escapeJsonString v) =
      if v.all fun c => decide (IsEscaped c) then some (reading .ST .string stack (buf ++ v) ctx)
      else none := by
  induction v generalizing buf with
  | nil =>
    rw [List.all_nil, if_pos rfl, List.append_nil]
    rfl
  | cons c v ih =>
    rw [List.forall_mem_cons] at hv
    have htext : escapeJsonString (c :: v) = escapeChar c ++ escapeJsonString v := rfl
    rw [htext, run_append, run_escapeChar hv.1]
    by_cases hc : IsEscaped c
    · rw [if_pos hc, Option.bind_some, ih hv.2]
      simp [hc]
    · rw [if_neg hc, if_neg (by simp [hc])]
      rfl

/-! ## Documents -/

/-- A value is refused wherever `n` more containers may be opened. -/
def Refused (cfg : Config F σ) (n : ℕ) (b : Bytes) : Prop :=
  ∀ s m rest ctx, s = .VA ∨ s = .AR → rest.length + n ≤ cfg.depth →
    run cfg (reading s .none (m :: rest) [] ctx) b = none

theorem refused_quoted {b : Bytes} (hb : ∀ stack (ctx : σ),
    run cfg (reading .ST .string stack [] ctx) b = none) :
    Refused cfg 0 (text "\"" ++ b ++ text "\"") := by
  intro s m rest ctx hs _
  have hbegin : run cfg (reading s .none (m :: rest) [] ctx) (text "\"") =
      some (reading .ST .string (m :: rest) [] ctx) := by
    change run cfg _ [chr '"'] = _
    rw [run_cons, char_quote (by tauto)]
    rfl
  rw [run_append, run_append, hbegin, Option.bind_some, hb]
  rfl

section Documents

variable [Zero F] [DecidableEq F] {P : Printer F} {kind : Kind} {es : List (Event F)}

/-- Members or elements that are refused from the first of them on. -/
def RefusedAll (cfg : Config F σ) (kind : Kind) (b : Bytes) (depth : ℕ) : Prop :=
  ∀ s rest ctx, kind.Starts s → rest.length + depth ≤ cfg.depth →
    run cfg (reading s .none (kind.mode :: rest) [] ctx) b = none

theorem Held.after_refused (hh : Held cfg s t buf es) {d : Doc F} (hn : d.isNil = false)
    (hd : RefusedAll cfg kind (d.text P kind) d.depth)
    (hdepth : rest.length + d.depth ≤ cfg.depth) :
    run cfg (reading s t (kind.valueMode :: rest) buf ctx) (d.after kind ++ d.text P kind) =
      none := by
  rw [Doc.after_comma hn, run_append, run_cons, hh.comma (by omega)]
  cases es.foldlM cfg.callback ctx with
  | none => rfl
  | some ctx' =>
    rw [Option.bind_some, Option.bind_some]
    exact hd _ _ _ kind.starts_comma hdepth

omit [Zero F] [DecidableEq F] in
/-- A value that is refused ends the reading behind any name. -/
theorem Refused.item {n : ℕ} {b w : Bytes} (hb : Refused cfg n b) {name : Option Bytes}
    (hname : NameOk kind name) {s : State} (hs : kind.Starts s) (hn : rest.length + n ≤ cfg.depth) :
    run cfg (reading s .none (kind.mode :: rest) [] ctx) (keyText name ++ b ++ w) = none := by
  obtain ⟨s', hs', hkey⟩ := run_name hname hs (by omega : rest.length ≤ cfg.depth)
  rw [run_append, run_append, hkey]
  cases (Doc.nameEvents name).foldlM cfg.callback ctx with
  | none => rfl
  | some ctx' =>
    rw [Option.bind_some, Option.bind_some, hb s' _ rest ctx' hs' hn]
    rfl

/-- One that is read leaves it to the others. -/
theorem Reads.item_refused {n : ℕ} {b : Bytes} (hb : Reads cfg n b es) {name : Option Bytes}
    (hname : NameOk kind name) {d : Doc F} (hnil : d.isNil = false)
    (hd : RefusedAll cfg kind (d.text P kind) d.depth) {s : State} (hs : kind.Starts s)
    (hn : rest.length + n ≤ cfg.depth) (hdepth : rest.length + d.depth ≤ cfg.depth) :
    run cfg (reading s .none (kind.mode :: rest) [] ctx)
      (keyText name ++ b ++ (d.after kind ++ d.text P kind)) = none := by
  obtain ⟨s', hs', hkey⟩ := run_name hname hs (by omega : rest.length ≤ cfg.depth)
  obtain ⟨s₁, t₁, buf₁, es₁, es₂, rfl, hheld, hread⟩ := hb
  have hm : kind.valueMode = .object ∨ kind.valueMode = .array := by
    cases kind
    · exact .inl rfl
    · exact .inr rfl
  rw [run_append, run_append, hkey]
  cases (Doc.nameEvents name).foldlM cfg.callback ctx with
  | none => rfl
  | some ctx' =>
    rw [Option.bind_some, Option.bind_some, hread s' _ rest ctx' hs' hm hn]
    cases es₁.foldlM cfg.callback ctx' with
    | none => rfl
    | some ctx'' =>
      rw [Option.bind_some, Option.bind_some]
      exact hheld.after_refused hnil hd hdepth

omit [Zero F] [DecidableEq F] in
theorem refused_container {b : Bytes} {n : ℕ} (hb : RefusedAll cfg kind b n) :
    Refused cfg (n + 1) (openText kind.childType ++ b) := by
  intro s m rest ctx hs hd
  rw [run_append, run_open (by tauto) (by rw [List.length_cons]; omega)]
  cases cfg.callback ctx kind.beginEvent with
  | none => rfl
  | some ctx' =>
    rw [Option.bind_some, Option.bind_some]
    exact hb _ _ _ kind.starts_open (by rw [List.length_cons]; omega)

/-- The parser refuses the text of members or elements, if it refuses one of the values that it
does not read. -/
theorem Doc.Made.refusedAll {Q R : Scalar F → Prop} {d : Doc F}
    (hd : d.Made (fun v => Q v ∨ R v) kind) (hQ : ∀ v, Q v → Reads cfg 0 (v.text P) [v.event])
    (hR : ∀ v, R v → Refused cfg 0 (v.text P)) (hbad : ¬ d.Made Q kind) :
    RefusedAll cfg kind (d.text P kind) d.depth := by
  induction d generalizing kind with
  | nil => exact absurd trivial hbad
  | scalar name v next ih =>
    obtain ⟨hname, hv, hnext⟩ := hd
    intro s rest ctx hs hdepth
    rw [Doc.depth] at hdepth
    rw [Doc.text, List.append_assoc]
    by_cases hq : Q v
    · have hbad : ¬ next.Made Q kind := fun h => hbad ⟨hname, hq, h⟩
      have hnil := Doc.isNil_eq_false.mpr fun h : next = .nil => hbad (h ▸ trivial)
      exact (hQ v hq).item_refused hname hnil (ih hnext hbad) hs (by omega) hdepth
    · exact (hR v (hv.resolve_left hq)).item hname hs (by omega)
  | node name kind' child next ihc ihn =>
    obtain ⟨hname, hchild, hcc, hnext⟩ := hd
    intro s rest ctx hs hdepth
    rw [Doc.depth] at hdepth
    rw [Doc.text, hchild, if_neg Bool.false_ne_true, List.append_assoc]
    by_cases hq : child.Made Q kind'
    · have hbad : ¬ next.Made Q kind := fun h => hbad ⟨hname, hchild, hq, h⟩
      have hnil := Doc.isNil_eq_false.mpr fun h : next = .nil => hbad (h ▸ trivial)
      exact (reads_container (hq.readsAll hQ hchild)).item_refused hname hnil (ihn hnext hbad) hs
        (by omega) (by omega)
    · exact (refused_container (ihc hcc hq)).item hname hs (by omega)

omit [DecidableEq F] in
/-- `init_json_parser` refuses a text whose members or elements are refused. -/
theorem rejected_of_refusedAll (decimalPoint : UInt8) (strtod : Bytes → F) {b : Bytes} {n : ℕ}
    (hr : ∀ cfg : Config F (Context F), RefusedAll cfg kind b n) (hd : n + 1 ≤ 15)
    (hb : ∀ c ∈ b, c ≠ 0) :
    initJsonParser decimalPoint strtod (openText kind.childType ++ b) = none := by
  set cfg : Config F (Context F) :=
    { depth := 15, allowComments := false, decimalPoint, strtod
      callback := Context.jsonCallback } with hcfg
  have hroom : [Mode.done].length + n ≤ cfg.depth := by
    change 1 + n ≤ 15
    omega
  have hwhole : (openText kind.childType ++ b).takeWhile (· ≠ 0) = openText kind.childType ++ b := by
    rw [List.takeWhile_eq_self_iff]
    intro c hc
    rcases List.mem_append.mp hc with hc | hc
    · simpa using (bracket_nonzero kind).1 c hc
    · simpa using hb c hc
  have hrun : run cfg (reading .GO .none [.done] [] Context.start)
      (openText kind.childType ++ b) = none := by
    rw [run_append, run_open (.inr (.inr rfl)) (by omega)]
    cases cfg.callback Context.start kind.beginEvent with
    | none => rfl
    | some ctx' =>
      rw [Option.bind_some, Option.bind_some]
      exact hr cfg _ _ _ kind.starts_open hroom
  have hinit : ∀ b, initJsonParser decimalPoint strtod b =
      (run cfg (reading .GO .none [.done] [] Context.start) (b.takeWhile (· ≠ 0))).bind
        fun jc => if jc.jsonParserDone then some (jc.ctx.heap, jc.ctx.head) else none :=
    fun b => rfl
  rw [hinit, hwhole, hrun]
  rfl

/-! ## Values -/

/-- A value that is printed and read back. -/
def Scalar.Restored : Scalar F → Prop
  | .integer n => -2 ^ 63 < n ∧ n < 2 ^ 63
  | .float _ => False
  | .string v => (∀ c ∈ v, IsAscii c) ∧ ∀ c ∈ v, IsEscaped c
  | _ => True

/-- A string that is printed and not read back. -/
def Scalar.Lost : Scalar F → Prop
  | .string v => (∀ c ∈ v, IsAscii c) ∧ ¬ ∀ c ∈ v, IsEscaped c
  | _ => False

theorem Scalar.Restored.reads {v : Scalar F} (hv : v.Restored) (hl : LengthOk P.log10) :
    Reads cfg 0 (v.text P) [v.event] := by
  cases v with
  | string v =>
    obtain ⟨hascii, hesc⟩ := hv
    refine reads_quoted fun stack ctx => ?_
    rw [run_escapeJsonString hascii, if_pos (by simpa using hesc), List.nil_append]
  | integer n => exact Scalar.Clean.reads (v := .integer n) hv hl
  | float x => exact hv.elim
  | null => exact reads_null
  | true => exact reads_true
  | false => exact reads_false

theorem Scalar.Lost.refused {v : Scalar F} (hv : v.Lost) : Refused cfg 0 (v.text P) := by
  cases v with
  | string v =>
    obtain ⟨hascii, hesc⟩ := hv
    refine refused_quoted fun stack ctx => ?_
    rw [run_escapeJsonString hascii, if_neg (by simpa using hesc)]
  | _ => exact hv.elim

omit [Zero F] [DecidableEq F] in
theorem escapeChar_nonzero (hc : IsAscii c) : ∀ e ∈ escapeChar c, e ≠ 0 := by
  by_cases hself : c ∈ ([chr '"', chr '\\', 10, 8, 9, 12, 13, 39] : Bytes)
  · simp only [List.mem_cons, List.not_mem_nil, or_false] at hself
    rcases hself with rfl | rfl | rfl | rfl | rfl | rfl | rfl | rfl <;> decide +kernel
  · rw [escapeChar_self hself]
    intro e he
    rw [List.mem_singleton.mp he]
    exact (UInt8.ne_of_lt hc.1).symm

theorem Scalar.text_nonzero {v : Scalar F} (hv : v.Restored ∨ v.Lost) (hl : LengthOk P.log10) :
    ∀ c ∈ v.text P, c ≠ 0 := by
  cases v with
  | string v =>
    have hascii : ∀ c ∈ v, IsAscii c := by
      rcases hv with hv | hv
      · exact hv.1
      · exact hv.1
    have hquote : ∀ c ∈ Json.text "\"", c ≠ 0 := by simp [Json.text, chr]
    have hescape : ∀ c ∈ escapeJsonString v, c ≠ 0 := by
      intro c hc
      obtain ⟨d, hd, hc⟩ := List.mem_flatMap.mp hc
      exact escapeChar_nonzero (hascii d hd) c hc
    simp only [Scalar.text, List.forall_mem_append]
    exact ⟨⟨hquote, hescape⟩, hquote⟩
  | integer n =>
    obtain ⟨hmin, -⟩ := hv.resolve_right id
    rw [Scalar.text, decimal_text hl (by omega)]
    exact decimal_nonzero n
  | float x => exact (hv.resolve_right id).elim
  | null => simp [Scalar.text, Json.text, chr]
  | true => simp [Scalar.text, Json.text, chr]
  | false => simp [Scalar.text, Json.text, chr]

theorem Doc.text_nonzero (hl : LengthOk P.log10) {d : Doc F}
    (hd : d.Made (fun v => v.Restored ∨ v.Lost) kind) : ∀ c ∈ d.text P kind, c ≠ 0 := by
  have hafter : ∀ (kind : Kind) (d : Doc F), ∀ c ∈ d.after kind, c ≠ 0 := by
    intro kind d
    cases d with
    | nil => exact (bracket_nonzero kind).2
    | _ => simp [Doc.after, Json.text, chr]
  have hname : ∀ {kind : Kind} {name : Option Bytes}, NameOk kind name →
      ∀ c ∈ keyText name, c ≠ 0 := fun h => (nameText_keyText h).nonzero
  induction d generalizing kind with
  | nil => exact fun c hc => absurd hc List.not_mem_nil
  | scalar name v next ih =>
    simp only [Doc.text, List.forall_mem_append]
    exact ⟨⟨⟨hname hd.1, Scalar.text_nonzero hd.2.1 hl⟩, hafter kind next⟩, ih hd.2.2⟩
  | node name kind' child next ihc ihn =>
    obtain ⟨hn, hchild, hcc, hnext⟩ := hd
    simp only [Doc.text, hchild, Bool.false_eq_true, if_false, List.forall_mem_append]
    exact ⟨⟨⟨hname hn, (bracket_nonzero kind').1, ihc hcc⟩, hafter kind next⟩, ihn hnext⟩

/-! ## Trees -/

/-- As `Plain`, with strings of any ASCII characters. -/
structure AsciiPlain (_father : ChildType) (f : Fields F) (child : Items F) : Prop where
  full : f.childType = .obj ∨ f.childType = .arr → child ≠ .nil
  noFloat : f.type ≠ some .float
  range : -2 ^ 63 < f.integer ∧ f.integer < 2 ^ 63
  key : AllText IsPrintable f.key
  str : AllText IsAscii f.str

omit [Zero F] in
instance (father : ChildType) (f : Fields F) (child : Items F) :
    Decidable (AsciiPlain father f child) :=
  decidable_of_iff ((f.childType = .obj ∨ f.childType = .arr → child ≠ .nil) ∧
      f.type ≠ some .float ∧ (-2 ^ 63 < f.integer ∧ f.integer < 2 ^ 63) ∧
      AllText IsPrintable f.key ∧ AllText IsAscii f.str)
    ⟨fun ⟨h₁, h₂, h₃, h₄, h₅⟩ => ⟨h₁, h₂, h₃, h₄, h₅⟩, fun h => ⟨h.1, h.2, h.3, h.4, h.5⟩⟩

/-- The strings of the tree hold no apostrophe and no control character but those with an escape
of their own. -/
def StringsEscaped (_father : ChildType) (f : Fields F) (_child : Items F) : Prop :=
  AllText IsEscaped f.str

omit [DecidableEq F] in
theorem Scalar.restored_or_lost {father : ChildType} {name : Option Bytes} {v : Scalar F}
    (hp : AsciiPlain father (Doc.property name v) .nil) : v.Restored ∨ v.Lost := by
  cases v with
  | string v =>
    have hascii : ∀ c ∈ v, IsAscii c := hp.str v rfl
    by_cases hesc : ∀ c ∈ v, IsEscaped c
    · exact .inl ⟨hascii, hesc⟩
    · exact .inr ⟨hascii, hesc⟩
  | integer n => exact .inl hp.range
  | float x => exact absurd rfl hp.noFloat
  | _ => exact .inl trivial

omit [DecidableEq F] in
theorem Scalar.restored_iff (father : ChildType) (name : Option Bytes) (v : Scalar F)
    (hv : v.Restored ∨ v.Lost) :
    v.Restored ↔ StringsEscaped father (Doc.property name v) .nil := by
  cases v with
  | string v =>
    have hascii : ∀ c ∈ v, IsAscii c := by
      rcases hv with hv | hv
      · exact hv.1
      · exact hv.1
    constructor
    · rintro h s hs
      cases hs
      exact h.2
    · intro h
      exact ⟨hascii, h v rfl⟩
  | integer n => exact ⟨fun _ s hs => (nomatch hs), fun _ => hv.resolve_right id⟩
  | float x => exact (hv.resolve_right id).elim
  | null => exact ⟨fun _ s hs => (nomatch hs), fun _ => trivial⟩
  | true => exact ⟨fun _ s hs => (nomatch hs), fun _ => trivial⟩
  | false => exact ⟨fun _ s hs => (nomatch hs), fun _ => trivial⟩

/-- A tree whose strings hold any ASCII characters is read back from its text if and only if none
of them is an apostrophe or a control character without an escape. -/
theorem strings_read_back_iff (hl : LengthOk P.log10) (decimalPoint : UInt8) (strtod : Bytes → F)
    {j : Item F} (hb : Built j) (hdepth : j.items.depth ≤ 15)
    (hp : Items.All AsciiPlain .null j.items) (hk : Items.All Keyed .null j.items) :
    (∃ b h head items, jsonToString P j = some b ∧
      initJsonParser decimalPoint strtod b = some (h, head) ∧ Holds h none head items ∧
      items.Same j.items) ↔
    Items.All StringsEscaped .null j.items := by
  obtain ⟨kind, d, rfl⟩ := hb.doc
  have hn : d.isNil = false := by
    have hne := hp.1.full (by cases kind; exacts [.inl rfl, .inr rfl])
    exact Doc.isNil_eq_false.mpr fun h => hne (by rw [h]; rfl)
  have hdoc : d.depth + 1 ≤ 15 := by
    have hall : (Doc.node none kind d .nil).depth ≤ 15 := by
      rw [← Doc.depth_built]
      exact hdepth
    rw [Doc.depth] at hall
    omega
  have hmade : d.Made (fun v => v.Restored ∨ v.Lost) kind :=
    Doc.made AsciiPlain.full AsciiPlain.key Scalar.restored_or_lost hp.2.1 hk.2.1
  have htext := jsonToString_built hl kind d
  rw [hn, if_neg Bool.false_ne_true] at htext
  have hroot : Items.All StringsEscaped .null (Item.items ⟨kind.fields none, d.built⟩) ↔
      d.Made Scalar.Restored kind := by
    rw [Doc.made_iff_all Scalar.restored_iff (fun _ _ _ _ _ hs => by cases hs) hmade]
    constructor
    · intro h
      exact h.2.1
    · intro h
      refine ⟨fun s hs => ?_, h, trivial⟩
      cases hs
  rw [hroot]
  constructor
  · rintro ⟨b, h, head, items, hb, hinit, -⟩
    by_contra hbad
    have hnone := rejected_of_refusedAll decimalPoint strtod
      (fun _ => hmade.refusedAll (fun _ hv => hv.reads hl) (fun _ hv => hv.refused) hbad) hdoc
      (Doc.text_nonzero hl hmade)
    rw [htext] at hb
    cases hb
    rw [hnone] at hinit
    cases hinit
  · intro hgood
    obtain ⟨h, head, hinit, hholds⟩ := accepted_of_readsAll decimalPoint strtod
      (fun _ => hgood.readsAll (fun _ hv => hv.reads hl) hn) hdoc
    exact ⟨_, h, head, _, htext, hinit, hholds, Doc.same (.node none kind d .nil)⟩

/-- `\x7b"k":"a\"b\\\n"\x7d`, as it is built. -/
def escapedTree : Item ℤ :=
  jsonSetPropertyStr jsonNewObject (some (text "k")) (text "a\"b\\\n")

theorem strings_read_back_escaped :
    (∃ b h head items, jsonToString exactPrinter escapedTree = some b ∧
      initJsonParser 46 (fun _ => 0) b = some (h, head) ∧ Holds h none head items ∧
      items.Same escapedTree.items) ↔
    Items.All StringsEscaped .null escapedTree.items :=
  strings_read_back_iff exactPrinter_lengthOk 46 (fun _ => 0) (.str _ _ .object) (by decide)
    (by decide) (by decide)

/-- `it's` is printed with the escape `\'`, which the parser does not know. -/
theorem apostrophe_not_read :
    ∃ j : Item ℤ, j = jsonSetPropertyStr jsonNewObject (some (text "k")) (text "it's") ∧
      (∀ c ∈ text "it's", IsAscii c) ∧
      jsonToString exactPrinter j = some (text "\x7b\"k\":\"it\\'s\"\x7d") ∧
      initJsonParser 46 (fun _ => (0 : ℤ)) (text "\x7b\"k\":\"it\\'s\"\x7d") = none := by
  refine ⟨_, rfl, by simp [text, chr, IsAscii], by decide +kernel, ?_⟩
  exact Option.isNone_iff_eq_none.mp (by decide +kernel)

end Documents

end ApeServer.Json
