import ApeServer.Json.Denotes
import ApeServer.Raw.Frame

/-!
# The body of a JSONP response

The body of a send is the argument of a call, between the quotation marks of a JavaScript
string. The escapes that `escape_json_string` wrote for JSON are undone when that string is
read, and what is left is the array with its strings as they are.
-/
namespace ApeServer.RawPool

open Sock (Bytes)
open Json (Item Items Doc Scalar Kind Printer Built AsciiPlain Keyed LengthOk IsAscii IsRaw
  IsPrintable AllText NameOk chr decimal keyText escapeChar escapeJsonString DenotesArray)

variable {F : Type}

/-! ## JavaScript strings -/

/-- What the character after a backslash stands for in a JavaScript string. The escapes of more
than one character and the line continuations are left out. -/
def literalEscape (e : UInt8) : Option UInt8 :=
  if e = chr 'b' then some 8
  else if e = chr 't' then some 9
  else if e = chr 'n' then some 10
  else if e = chr 'v' then some 11
  else if e = chr 'f' then some 12
  else if e = chr 'r' then some 13
  else if e = chr 'x' ∨ e = chr 'u' ∨ Json.isDigit e ∨ e = 10 ∨ e = 13 then none
  else some e

/-- A string in apostrophes, from the character after the first one on: its value, and what
comes after it. -/
def readLiteral : Bytes → Option (Bytes × Bytes)
  | [] => none
  | c :: s =>
    if c = 39 then some ([], s)
    else if c = 10 ∨ c = 13 then none
    else if c = chr '\\' then
      match s with
      | [] => none
      | e :: s => do
        let u ← literalEscape e
        let (value, rest) ← readLiteral s
        return (u :: value, rest)
    else do
      let (value, rest) ← readLiteral s
      return (c :: value, rest)

/-- In a literal the text `p` is read as `q`. -/
def ReadAs (p q : Bytes) : Prop :=
  ∀ rest, readLiteral (p ++ rest) = (readLiteral rest).map fun r => (q ++ r.1, r.2)

/-- A character that a literal may hold as it is. -/
def IsPlain (c : UInt8) : Prop := c ≠ 39 ∧ c ≠ 10 ∧ c ≠ 13 ∧ c ≠ chr '\\'

theorem readAs_nil : ReadAs [] [] := by
  intro rest
  simp

theorem ReadAs.append {p p' q q' : Bytes} (h : ReadAs p q) (h' : ReadAs p' q') :
    ReadAs (p ++ p') (q ++ q') := by
  intro rest
  rw [List.append_assoc, h, h', Option.map_map]
  congr 1
  funext r
  simp

theorem readAs_plain {c : UInt8} (hc : IsPlain c) : ReadAs [c] [c] := by
  obtain ⟨hquote, hlf, hcr, hback⟩ := hc
  intro rest
  rw [List.singleton_append, readLiteral.eq_def]
  dsimp only
  rw [if_neg hquote, if_neg (by tauto), if_neg hback]
  cases readLiteral rest <;> rfl

theorem readAs_plains {s : Bytes} (hs : ∀ c ∈ s, IsPlain c) : ReadAs s s := by
  induction s with
  | nil => exact readAs_nil
  | cons c s ih =>
    obtain ⟨hc, hs⟩ := List.forall_mem_cons.mp hs
    exact (readAs_plain hc).append (ih hs)

theorem readAs_escape {e u : UInt8} (h : literalEscape e = some u) :
    ReadAs [chr '\\', e] [u] := by
  intro rest
  rw [List.cons_append, List.singleton_append, readLiteral.eq_def]
  dsimp only
  rw [if_neg (by decide), if_neg (by decide), if_pos rfl, h]
  cases readLiteral rest <;> rfl

/-- JavaScript undoes the escape of a character. -/
theorem readAs_escapeChar (c : UInt8) : ReadAs (escapeChar c) [c] := by
  by_cases hself : c ∈ ([chr '"', chr '\\', 10, 8, 9, 12, 13, 39] : Bytes)
  · simp only [List.mem_cons, List.not_mem_nil, or_false] at hself
    rcases hself with rfl | rfl | rfl | rfl | rfl | rfl | rfl | rfl
    · exact readAs_escape rfl
    · exact readAs_escape rfl
    · exact readAs_escape rfl
    · exact readAs_escape rfl
    · exact readAs_escape rfl
    · exact readAs_escape rfl
    · exact readAs_escape rfl
    · exact readAs_escape rfl
  · rw [Json.escapeChar_self hself]
    simp only [List.mem_cons, List.not_mem_nil, or_false, not_or] at hself
    obtain ⟨-, hback, hlf, -, -, -, hcr, hquote⟩ := hself
    exact readAs_plain ⟨hquote, hlf, hcr, hback⟩

theorem readAs_escapeJsonString (s : Bytes) : ReadAs (escapeJsonString s) s := by
  induction s with
  | nil => exact readAs_nil
  | cons c s ih => exact (readAs_escapeChar c).append ih

/-! ## Printed trees -/

theorem printable_plain {s : Bytes} (hs : ∀ c ∈ s, IsPrintable c) : ∀ c ∈ s, IsPlain c := by
  intro c hc
  obtain ⟨hlow, -, -, hback, hquote⟩ := hs c hc
  refine ⟨hquote, ?_, ?_, hback⟩
  · rintro rfl
    exact absurd hlow (by decide)
  · rintro rfl
    exact absurd hlow (by decide)

theorem numChar_plain {c : UInt8} (hc : Json.isNumChar c = true) :
    IsPlain c ∧ IsAscii c ∧ IsRaw c := by
  have hall : ∀ n < 256, Json.isNumChar (UInt8.ofNat n) = true →
      (UInt8.ofNat n ≠ 39 ∧ UInt8.ofNat n ≠ 10 ∧ UInt8.ofNat n ≠ 13 ∧
        UInt8.ofNat n ≠ chr '\\') ∧ IsAscii (UInt8.ofNat n) ∧ IsRaw (UInt8.ofNat n) := by
    decide +kernel
  have h := hall c.toNat c.toNat_lt
  rw [UInt8.ofNat_toNat] at h
  exact h hc

theorem bracket_plain (kind : Kind) :
    (∀ c ∈ Json.openText kind.childType, IsPlain c) ∧
      ∀ c ∈ Json.closeText kind.childType, IsPlain c := by
  cases kind <;> simp [Json.openText, Json.closeText, Kind.childType, Json.text, chr, IsPlain]

variable [Zero F] [DecidableEq F] {P : Printer F}

theorem readAs_scalar (hl : LengthOk P.log10) {v : Scalar F} (hv : v.Ready) :
    ReadAs (v.text P) (v.bareText P) := by
  cases v with
  | integer n =>
    have htext : (Scalar.integer n : Scalar F).text P = decimal n := by
      obtain ⟨hmin, -⟩ := hv
      exact Json.decimal_text hl (by omega)
    change ReadAs ((Scalar.integer n : Scalar F).text P) ((Scalar.integer n : Scalar F).text P)
    rw [htext]
    exact readAs_plains fun c hc => (numChar_plain ((Json.decimal_number n).2.1 c hc)).1
  | float x => exact hv.elim
  | string s =>
    have hquote : ReadAs (Json.text "\"") (Json.text "\"") :=
      readAs_plains (by simp [Json.text, chr, IsPlain])
    exact (hquote.append (readAs_escapeJsonString s)).append hquote
  | null => exact readAs_plains (by simp [Scalar.text, Json.text, chr, IsPlain])
  | true => exact readAs_plains (by simp [Scalar.text, Json.text, chr, IsPlain])
  | false => exact readAs_plains (by simp [Scalar.text, Json.text, chr, IsPlain])

/-- In a literal the text of a document is read as the text with the strings as they are. -/
theorem readAs_text (hl : LengthOk P.log10) {kind : Kind} {d : Doc F}
    (hd : d.Made Scalar.Ready kind) :
    ReadAs (d.text P kind) (d.textWith (Scalar.bareText P) kind) := by
  have hafter : ∀ (kind : Kind) (d : Doc F), ReadAs (d.after kind) (d.after kind) := by
    intro kind d
    cases d with
    | nil => exact readAs_plains (bracket_plain kind).2
    | _ => exact readAs_plains (by simp [Doc.after, Json.text, chr, IsPlain])
  have hname : ∀ {kind : Kind} {name : Option Bytes}, NameOk kind name →
      ReadAs (keyText name) (keyText name) := by
    intro kind name hn
    cases name with
    | none => exact readAs_nil
    | some k =>
      cases kind with
      | arr => exact hn.elim
      | obj =>
        have hquote : ReadAs (Json.text "\"") (Json.text "\"") :=
          readAs_plains (by simp [Json.text, chr, IsPlain])
        have hcolon : ReadAs (Json.text "\":") (Json.text "\":") :=
          readAs_plains (by simp [Json.text, chr, IsPlain])
        exact (hquote.append (readAs_plains (printable_plain hn))).append hcolon
  induction d generalizing kind with
  | nil => exact readAs_nil
  | scalar name v next ih =>
    obtain ⟨hn, hv, hnext⟩ := hd
    exact (((hname hn).append (readAs_scalar hl hv)).append (hafter kind next)).append (ih hnext)
  | node name kind' child next ihc ihn =>
    obtain ⟨hn, hchild, hcc, hnext⟩ := hd
    rw [Doc.text, Doc.textWith, hchild, if_neg Bool.false_ne_true, if_neg Bool.false_ne_true]
    have hopen := (readAs_plains (bracket_plain kind').1).append (ihc hcc)
    exact (((hname hn).append hopen).append (hafter kind next)).append (ihn hnext)

/-! ## Forged raws -/

/-- The item that `forge_raw` prints. -/
def rawItem (time : ℤ) (raw : Bytes) (jlist : Item F) : Item F :=
  let jstruct := Json.jsonNewObject
  let jstruct := Json.jsonSetPropertyStr jstruct (some (Json.text "time")) (decimal time)
  let jstruct := Json.jsonSetPropertyStr jstruct (some (Json.text "raw")) raw
  Json.jsonSetPropertyObj jstruct (some (Json.text "data")) jlist

/-- `forge_raw`, at the time `time`. -/
def forgeRaw (P : Printer F) (time : ℤ) (raw : Bytes) (jlist : Item F) : Option Raw := do
  let data ← Json.jsonToString P (rawItem time raw jlist)
  return { data, priority := .lo }

/-- The raw was forged of a name and a tree with any ASCII strings, and `j` is what was printed.
Its priority may have been changed afterwards. -/
def Forged (P : Printer F) (r : Raw) (j : Item F) : Prop :=
  ∃ time raw jlist, Built jlist ∧ Items.All AsciiPlain .null jlist.items ∧
    Items.All Keyed .null jlist.items ∧ (∀ c ∈ raw, IsAscii c) ∧ j = rawItem time raw jlist ∧
    (forgeRaw P time raw jlist).map Raw.data = some r.data

/-- The strings of the tree hold no quotation mark, no backslash and no control character. -/
def StringsBare (_father : Json.ChildType) (f : Json.Fields F) (_child : Items F) : Prop :=
  AllText IsRaw f.str

/-- The members of the object that is printed for a raw. -/
def rawDoc (time : ℤ) (raw : Bytes) (kind : Kind) (d : Doc F) : Doc F :=
  .scalar (some (Json.text "time")) (.string (decimal time))
    (.scalar (some (Json.text "raw")) (.string raw)
      (.node (some (Json.text "data")) kind d .nil))

omit [DecidableEq F] [Zero F] in
theorem copyText_ascii {s : Bytes} (hs : ∀ c ∈ s, IsAscii c) : Json.copyText s = s := by
  rw [Json.copyText, if_neg]
  intro hzero
  have hmem : (0 : UInt8) ∈ s := List.mem_of_mem_head? hzero
  exact absurd (hs 0 hmem) (by decide)

omit [DecidableEq F] in
theorem rawItem_doc {time : ℤ} {raw : Bytes} (hraw : ∀ c ∈ raw, IsAscii c) (kind : Kind)
    (d : Doc F) :
    rawItem time raw ⟨kind.fields none, d.built⟩ =
      ⟨Kind.obj.fields none, (rawDoc time raw kind d).built⟩ := by
  have htime : Json.copyText (decimal time) = decimal time :=
    copyText_ascii fun c hc => (numChar_plain ((Json.decimal_number time).2.1 c hc)).2.1
  have hcopy : Json.copyText raw = raw := copyText_ascii hraw
  simp only [rawItem, Json.jsonSetPropertyStr, htime, hcopy]
  rfl

/-- A forged raw is the text of a document whose strings are ASCII. -/
theorem Forged.doc (hl : LengthOk P.log10) {r : Raw} {j : Item F} (h : Forged P r j) :
    ∃ d : Doc F, j = ⟨Kind.obj.fields none, d.built⟩ ∧ d.isNil = false ∧
      d.Made Scalar.Ready .obj ∧ r.data = Json.openText Kind.obj.childType ++ d.text P .obj := by
  obtain ⟨time, raw, jlist, hb, hp, hk, hraw, rfl, hdata⟩ := h
  obtain ⟨kind, d, rfl⟩ := hb.doc
  have hready : ∀ {father : Json.ChildType} {name : Option Bytes} {v : Scalar F},
      AsciiPlain father (Doc.property name v) .nil → v.Ready := by
    intro father name v hv
    cases v with
    | integer n => exact hv.range
    | float x => exact absurd rfl hv.noFloat
    | string s => exact hv.str s rfl
    | _ => trivial
  have hmade : d.Made Scalar.Ready kind :=
    Doc.made AsciiPlain.full AsciiPlain.key hready hp.2.1 hk.2.1
  have hn : d.isNil = false := by
    have hne := hp.1.full (by cases kind; exacts [.inl rfl, .inr rfl])
    exact Json.Doc.isNil_eq_false.mpr fun h => hne (by rw [h]; rfl)
  have htime : ∀ c ∈ decimal time, IsAscii c :=
    fun c hc => (numChar_plain ((Json.decimal_number time).2.1 c hc)).2.1
  have hname : ∀ s ∈ ["time", "raw", "data"], ∀ c ∈ Json.text s, IsPrintable c := by
    simp [Json.text, chr, IsPrintable]
  refine ⟨rawDoc time raw kind d, rawItem_doc hraw kind d, rfl, ?_, ?_⟩
  · exact ⟨hname "time" (by simp), htime, hname "raw" (by simp), hraw, hname "data" (by simp),
      hn, hmade, trivial⟩
  · rw [forgeRaw, rawItem_doc hraw, Json.jsonToString_built hl] at hdata
    exact (Option.some.inj hdata).symm

omit [DecidableEq F] in
/-- The members of a document that is made have bare strings if and only if the items have. -/
theorem made_bare_iff {kind : Kind} {d : Doc F} (hd : d.Made Scalar.Ready kind) :
    d.Made Scalar.Bare kind ↔ Items.All StringsBare kind.childType d.built := by
  refine Doc.made_iff_all ?_ (fun _ _ _ _ _ hs => nomatch hs) hd
  intro father name v hv
  cases v with
  | string s =>
    constructor
    · rintro h _ ⟨⟩
      exact h
    · intro h
      exact h s rfl
  | _ => exact ⟨fun _ s hs => (nomatch hs), fun _ => trivial⟩

/-! ## The response -/

/-- The pieces of a body are the text of an array. -/
theorem body_text {raws : List Raw} {ds : List (Doc F)} (hne : ds ≠ [])
    (hn : ∀ d ∈ ds, d.isNil = false) (h : List.Forall₂ (fun (r : Raw) (d : Doc F) =>
      r.data = Json.openText Kind.obj.childType ++ d.text P .obj) raws ds) :
    body raws = Json.openText Kind.arr.childType ++ (Doc.elements ds).text P .arr := by
  have hrest : (bytes ",").intercalate (raws.map Raw.data) ++ bytes "]" =
      (Doc.elements ds).text P .arr := by
    induction h with
    | nil => exact absurd rfl hne
    | @cons r d raws ds hr hrs ih =>
      obtain ⟨hd, hds⟩ := List.forall_mem_cons.mp hn
      have htext : (Doc.elements (d :: ds)).text P .arr =
          r.data ++ ((Doc.elements ds).after .arr ++ (Doc.elements ds).text P .arr) := by
        rw [Doc.elements, Doc.text, hd, if_neg Bool.false_ne_true, ← hr, keyText,
          List.nil_append, List.append_assoc]
      rw [htext]
      cases hrs with
      | nil => simp [Doc.elements, Doc.after, Doc.text]; rfl
      | @cons r' d' raws ds hr' hrs =>
        rw [← ih (by simp) hds, List.map_cons, List.map_cons]
        simp [List.intercalate]
        rfl
  rw [body, List.append_assoc, hrest]
  rfl

/-- A call of `evalFunc` whose argument, a string in apostrophes, is an array of the trees. -/
def CallDenotes (strtod : Bytes → F) (evalFunc : Bytes) (js : List (Item F)) (response : Bytes) :
    Prop :=
  ∃ literal value, response = evalFunc ++ bytes "('" ++ literal ∧
    readLiteral literal = some (value, bytes ")") ∧ DenotesArray strtod js value

theorem forged_docs (hl : LengthOk P.log10) {raws : List Raw} {js : List (Item F)}
    (h : List.Forall₂ (Forged P) raws js) :
    ∃ ds : List (Doc F), js = ds.map (fun d => ⟨Kind.obj.fields none, d.built⟩) ∧
      (∀ d ∈ ds, d.isNil = false) ∧ (∀ d ∈ ds, d.Made Scalar.Ready .obj) ∧
      List.Forall₂ (fun (r : Raw) (d : Doc F) =>
        r.data = Json.openText Kind.obj.childType ++ d.text P .obj) raws ds := by
  induction h with
  | nil => exact ⟨[], rfl, by simp, by simp, .nil⟩
  | cons hr _ ih =>
    obtain ⟨d, rfl, hd, hmade, hdata⟩ := hr.doc hl
    obtain ⟨ds, rfl, hds, hmades, hdatas⟩ := ih
    exact ⟨d :: ds, rfl, List.forall_mem_cons.mpr ⟨hd, hds⟩,
      List.forall_mem_cons.mpr ⟨hmade, hmades⟩, .cons hdata hdatas⟩

/-- A body between the parts of the call is a literal whose value is the array of the trees with
their strings as they are. -/
theorem readLiteral_body (hl : LengthOk P.log10) {ds : List (Doc F)}
    (hn : ∀ d ∈ ds, d.isNil = false) (hd : ∀ d ∈ ds, d.Made Scalar.Ready .obj) :
    readLiteral (Json.openText Kind.arr.childType ++ (Doc.elements ds).text P .arr ++
      bytes "')") = some (Json.openText Kind.arr.childType ++
        (Doc.elements ds).textWith (Scalar.bareText P) .arr, bytes ")") := by
  have hopen := readAs_plains (bracket_plain .arr).1
  have hread := hopen.append (readAs_text hl ((Json.Doc.elements_made hn).mpr hd))
  have hend : readLiteral (bytes "')") = some ([], bytes ")") := rfl
  rw [hread, hend, Option.map_some, List.append_nil]

/-- A send in the JSONP transport writes a call around the body. -/
theorem sendRaws_jsonp {evalFunc : Bytes} (hne : evalFunc ≠ []) {before : ApeTransports}
    (ietf06 : Bool) {s : Sub} {q : Queue} (hr : Reached (transportStart evalFunc before) s q)
    (hq : q.drain ≠ []) :
    ∃ out s', sendRaws (transportStart evalFunc before) .jsonp ietf06 s = some (out, s') ∧
      out.flatten = (if s.headersSent then [] else transportHeaders s.content .jsonp).flatten ++
        (evalFunc ++ bytes "('" ++ (body q.drain ++ bytes "')")) := by
  obtain ⟨pre, out, s', hpre, hs, hout, -⟩ :=
    sendRaws_drain (transportStart evalFunc before) .jsonp ietf06 hr.represents hq
  have hleft : transportGetProperties (transportStart evalFunc before) .jsonp =
      some ⟨some (evalFunc ++ bytes "('"), some (bytes "')")⟩ := by
    simp [transportGetProperties, transportStart, hne]
  have hbefore : pre.flatten = (if s.headersSent then [] else
      transportHeaders s.content .jsonp).flatten ++ (evalFunc ++ bytes "('") := by
    simp only [preamble, hleft, Option.bind_some, Option.toList_some, Option.bind_eq_bind,
      reduceCtorEq, if_false, Option.pure_def, List.append_nil, Option.some.injEq] at hpre
    rw [← hpre, List.flatten_append, List.flatten_singleton]
  refine ⟨out, s', hs, ?_⟩
  rw [hout, hbefore, hleft, Option.bind_some, Option.getD_some]
  simp only [List.append_assoc]

omit [DecidableEq F] [Zero F] in
theorem callDenotes_iff {strtod : Bytes → F} {evalFunc b value : Bytes} {js : List (Item F)}
    (hread : readLiteral (b ++ bytes "')") = some (value, bytes ")")) :
    CallDenotes strtod evalFunc js (evalFunc ++ bytes "('" ++ (b ++ bytes "')")) ↔
      DenotesArray strtod js value := by
  constructor
  · rintro ⟨literal, value', hresponse, hvalue, hdenotes⟩
    rw [← List.append_cancel_left hresponse, hread] at hvalue
    cases hvalue
    exact hdenotes
  · intro hdenotes
    exact ⟨_, _, rfl, hread, hdenotes⟩

/-- A JSONP response to forged raws is a call with an array of them if and only if no string in
them has a quotation mark, a backslash or a control character. -/
theorem jsonp_denotes_iff (hl : LengthOk P.log10) (strtod : Bytes → F) {evalFunc : Bytes}
    (hne : evalFunc ≠ []) {before : ApeTransports} (ietf06 : Bool) {s : Sub} {q : Queue}
    (hr : Reached (transportStart evalFunc before) s q) (hq : q.drain ≠ []) {js : List (Item F)}
    (hj : List.Forall₂ (Forged P) q.drain js) :
    ∃ out s' response,
      sendRaws (transportStart evalFunc before) .jsonp ietf06 s = some (out, s') ∧
      out.flatten = (if s.headersSent then [] else transportHeaders s.content .jsonp).flatten ++
        response ∧
      (CallDenotes strtod evalFunc js response ↔
        ∀ j ∈ js, Items.All StringsBare .null j.items) := by
  obtain ⟨ds, rfl, hn, hd, hdatas⟩ := forged_docs hl hj
  have hds : ds ≠ [] := by
    rintro rfl
    exact hq (List.forall₂_nil_right_iff.mp hdatas)
  obtain ⟨out, s', hs, hout⟩ := sendRaws_jsonp hne ietf06 hr hq
  refine ⟨out, s', _, hs, hout, ?_⟩
  rw [body_text hds hn hdatas, callDenotes_iff (readLiteral_body hl hn hd),
    Json.denotesArray_iff hl hds hn hd, List.forall_mem_map]
  refine forall₂_congr fun d hmem => ?_
  rw [made_bare_iff (hd d hmem)]
  constructor
  · intro h
    exact ⟨fun s hs => (nomatch hs), h, trivial⟩
  · intro h
    exact h.2.1

/-- The transports of a server with the JSONP function `f`. -/
def sampleTransports : ApeTransports :=
  transportStart (bytes "f")
    ⟨⟨none, none⟩, ⟨none, none⟩, ⟨none, none⟩, ⟨none, none⟩, ⟨none, none⟩⟩

/-- An object with the string `s`. -/
def sampleList (s : Bytes) : Item ℤ :=
  Json.jsonSetPropertyStr Json.jsonNewObject (some (Json.text "msg")) s

theorem sample_forged {s data : Bytes} (hp : Items.All AsciiPlain .null (sampleList s).items)
    (hk : Items.All Keyed .null (sampleList s).items)
    (hdata : Json.jsonToString Json.exactPrinter (rawItem 0 (Json.text "ERR") (sampleList s)) =
      some data) :
    Forged Json.exactPrinter ⟨data, .lo⟩ (rawItem 0 (Json.text "ERR") (sampleList s)) := by
  refine ⟨0, _, sampleList s, .str _ _ .object, hp, hk, ?_, rfl, ?_⟩
  · simp [Json.text, chr, IsAscii]
  · rw [forgeRaw, hdata]
    rfl

/-- A queue with one raw. -/
theorem sample_reached (r : Raw) (hr : r.priority = .lo) :
    ∃ s, Reached sampleTransports s ⟨[r], []⟩ ∧ s.headersSent = false ∧ s.content = none := by
  obtain ⟨pools, hp, -⟩ := postRawSub_inv r newPools_inv
  have hpost : Queue.empty.post r = ⟨[r], []⟩ := by
    rw [Queue.post, hr]
    rfl
  exact ⟨{ newSub with pools }, hpost ▸ .post .new hp, rfl, rfl⟩

/-- What is printed for the string `s`, whose text is `t`. -/
def sampleRaw (t : String) : Raw :=
  ⟨Json.text ("\x7b\"time\":\"0\",\"raw\":\"ERR\",\"data\":\x7b\"msg\":\"" ++ t ++
    "\"\x7d\x7d"), .lo⟩

/-- An apostrophe is escaped once, for JavaScript. -/
theorem jsonp_denotes_apostrophe : ∃ s out s' response,
    sendRaws sampleTransports .jsonp false s = some (out, s') ∧
    out.flatten = (if s.headersSent then [] else transportHeaders s.content .jsonp).flatten ++
      response ∧
    (CallDenotes (fun _ => 0) (bytes "f")
        [rawItem 0 (Json.text "ERR") (sampleList (Json.text "it's"))] response ↔
      ∀ j ∈ [rawItem 0 (Json.text "ERR") (sampleList (Json.text "it's"))],
        Items.All StringsBare .null j.items) := by
  obtain ⟨s, hr, -⟩ := sample_reached (sampleRaw "it\\'s") rfl
  have hf : Forged Json.exactPrinter (sampleRaw "it\\'s")
      (rawItem 0 (Json.text "ERR") (sampleList (Json.text "it's"))) :=
    sample_forged (by decide) (by decide) (by decide)
  obtain ⟨out, s', response, h⟩ := jsonp_denotes_iff Json.exactPrinter_lengthOk (fun _ => 0)
    (by decide) false hr (by simp [Queue.drain]) (.cons hf .nil)
  exact ⟨s, out, s', response, h⟩

/-- A quotation mark needs two escapes and gets one. -/
theorem quote_not_denoted : ∃ s q j, Reached sampleTransports s q ∧
    List.Forall₂ (Forged Json.exactPrinter) q.drain [j] ∧ ∃ out s' response,
      sendRaws sampleTransports .jsonp false s = some (out, s') ∧
      out.flatten = headerJsonp ++ response ∧
      ¬ CallDenotes (fun _ => (0 : ℤ)) (bytes "f") [j] response := by
  obtain ⟨s, hr, hsent, hcontent⟩ := sample_reached (sampleRaw "\\\"") rfl
  have hf : Forged Json.exactPrinter (sampleRaw "\\\"")
      (rawItem 0 (Json.text "ERR") (sampleList (Json.text "\""))) :=
    sample_forged (by decide) (by decide) (by decide)
  obtain ⟨d, hj, hn, hd, hdata⟩ := hf.doc Json.exactPrinter_lengthOk
  obtain ⟨out, s', hs, hout⟩ := sendRaws_jsonp (by decide) false hr (by simp [Queue.drain])
  refine ⟨s, _, _, hr, .cons hf .nil, out, s',
    bytes "f" ++ bytes "('" ++ (body [sampleRaw "\\\""] ++ bytes "')"), hs, ?_, ?_⟩
  · rw [hsent, hcontent] at hout
    simpa [transportHeaders, httpSendHeaders, Queue.drain] using hout
  have hdocs : ∀ d' ∈ [d], d'.isNil = false ∧ d'.Made Scalar.Ready .obj := by
    intro d' hd'
    rw [List.mem_singleton.mp hd']
    exact ⟨hn, hd⟩
  have hbody : body [sampleRaw "\\\""] = Json.openText Kind.arr.childType ++
      (Doc.elements [d]).text Json.exactPrinter .arr :=
    body_text (by simp) (fun d' h => (hdocs d' h).1) (.cons hdata .nil)
  intro hcall
  rw [hbody, callDenotes_iff (readLiteral_body Json.exactPrinter_lengthOk
    (fun d' h => (hdocs d' h).1) fun d' h => (hdocs d' h).2), hj] at hcall
  have hbare : d.Made Scalar.Bare .obj :=
    (Json.denotesArray_iff Json.exactPrinter_lengthOk (by simp) (fun d' h => (hdocs d' h).1)
      fun d' h => (hdocs d' h).2).mp hcall d List.mem_cons_self
  rw [made_bare_iff hd] at hbare
  have hitems : d.built = (rawItem 0 (Json.text "ERR") (sampleList (Json.text "\""))).child :=
    (congrArg Item.child hj).symm
  rw [hitems] at hbare
  -- the string of the only member of the third member
  exact absurd (hbare.2.2.2.2.2.1.1 _ rfl 34 (by decide)) (by decide)

end ApeServer.RawPool
