import Mathlib.Data.List.TakeWhile
import ApeServer.Json.RoundTrip
import ApeServer.Json.Spelling

/-!
# Printing what was parsed

The item of a `true` holds an integer, and the item of an empty container nothing: printed, the
first is `1` and the second `0`. A text is printed as a text of the same document exactly when
it has neither, below its root.
-/
namespace ApeServer.Json

open Sock (Bytes)

variable {F : Type}

/-! ## What is printed -/

/-- The value that is printed for one that was parsed. -/
def Scalar.printed : Scalar F → Scalar F
  | true => integer 1
  | v => v

/-- The document that is printed for one that was parsed. -/
def Doc.printed : Doc F → Doc F
  | nil => nil
  | scalar name v next => scalar name v.printed next.printed
  | node name _ nil next => scalar name (.integer 0) next.printed
  | node name kind child next => node name kind child.printed next.printed

/-- No value is `true`, and no container is empty. -/
def Doc.Kept : Doc F → Prop
  | nil => True
  | scalar _ v next => v ≠ .true ∧ next.Kept
  | node _ _ child next => child ≠ nil ∧ child.Kept ∧ next.Kept

theorem Doc.printed_node {child : Doc F} (hc : child ≠ nil) (name : Option Bytes) (kind : Kind)
    (next : Doc F) :
    (node name kind child next).printed = node name kind child.printed next.printed := by
  cases child with
  | nil => exact absurd rfl hc
  | scalar _ _ _ => rfl
  | node _ _ _ _ => rfl

theorem Scalar.printed_eq_iff (v : Scalar F) : v.printed = v ↔ v ≠ .true := by
  cases v <;> simp [Scalar.printed]

theorem Doc.printed_eq_iff (d : Doc F) : d.printed = d ↔ d.Kept := by
  induction d with
  | nil => exact ⟨fun _ => trivial, fun _ => rfl⟩
  | scalar name v next ih => simp [Doc.printed, Doc.Kept, ih, Scalar.printed_eq_iff]
  | node name kind child next ihc ihn =>
    by_cases hc : child = nil
    · subst hc
      simp [Doc.printed, Doc.Kept]
    · simp [Doc.printed_node hc, Doc.Kept, hc, ihc, ihn]

theorem Doc.printed_eq_nil (d : Doc F) : d.printed = nil ↔ d = nil := by
  cases d with
  | nil => exact ⟨fun _ => rfl, fun _ => rfl⟩
  | scalar _ _ _ => simp [Doc.printed]
  | node name kind child next =>
    by_cases hc : child = nil
    · subst hc
      simp [Doc.printed]
    · simp [Doc.printed_node hc]

theorem Doc.isNil_eq_false {d : Doc F} : d.isNil = false ↔ d ≠ nil := by
  cases d <;> simp [Doc.isNil]

section Print

variable [Zero F] [DecidableEq F] {P : Printer F}

theorem valueText_fields (name : Option Bytes) (v : Scalar F) :
    valueText P (v.fields name) .nil = valueText P (Doc.property name v.printed) .nil := by
  cases v <;> rfl

omit [DecidableEq F] in
theorem afterText_items (father : Option ChildType) (d : Doc F) :
    afterText father d.items = afterText father d.printed.built := by
  cases father with
  | none => rfl
  | some t =>
    cases d with
    | nil => rfl
    | scalar _ _ _ => rfl
    | node name kind child next => cases child <;> rfl

/-- The items of a document are printed as those that are built for what is printed. -/
theorem toStringFrom_items (d : Doc F) (father : Option ChildType) :
    toStringFrom P father d.items = toStringFrom P father d.printed.built := by
  induction d generalizing father with
  | nil => rfl
  | scalar name v next ih =>
    have hkey : (v.fields name).key = name := by cases v <;> rfl
    simp only [Doc.items, Doc.printed, Doc.built, toStringFrom, valueText_fields, ih father,
      afterText_items, hkey, property_key, if_true]
  | node name kind child next ihc ihn =>
    by_cases hc : child = .nil
    · subst hc
      simp only [Doc.items, Doc.printed, Doc.built, toStringFrom, ihn father, afterText_items]
      rfl
    · have hp : child.printed ≠ .nil := fun h => hc ((Doc.printed_eq_nil child).mp h)
      have hitems : child.items ≠ .nil := by
        cases child with
        | nil => exact absurd rfl hc
        | scalar _ _ _ => exact fun h => by cases h
        | node _ _ _ _ => exact fun h => by cases h
      have hbuilt : child.printed.built ≠ .nil := by
        cases hd : child.printed with
        | nil => exact absurd hd hp
        | scalar _ _ _ => exact fun h => by cases h
        | node _ _ _ _ => exact fun h => by cases h
      have hvalue : valueText P (kind.fields name) child.items =
          valueText P (kind.fields name) child.printed.built := by
        simp only [valueText, Kind.fields, hitems, hbuilt, if_false]
      rw [Doc.printed_node hc]
      simp only [Doc.items, Doc.built, toStringFrom, ihc, ihn father, afterText_items, hvalue,
        hitems, hbuilt, if_false]

end Print

/-! ## Its texts -/

variable {kind : Kind} {first : Bool} {d : Doc F} {b : Bytes}

theorem ScalarText.clean {v : Scalar F} (h : ScalarText v b) : v.printed.Clean := by
  cases h with
  | integer hmin hmax => exact ⟨hmin, hmax⟩
  | minusZero => exact ⟨by norm_num, by norm_num⟩
  | string hs => exact hs
  | true => exact ⟨by norm_num, by norm_num⟩
  | _ => trivial

theorem NameText.nameOk {name : Option Bytes} (h : NameText kind name b) : NameOk kind name := by
  cases h with
  | element _ => trivial
  | member hk _ _ _ => exact hk

/-- What is printed for a document that was read is read again. -/
theorem Spells.clean (h : Spells kind first d b) : d.printed.Clean kind := by
  induction h with
  | close _ => trivial
  | scalar _ hn hv _ ih => exact ⟨hn.nameOk, hv.clean, ih⟩
  | @node kind kind' first name child next _ _ _ _ _ hn _ _ ihc ihn =>
    by_cases hc : child = .nil
    · subst hc
      exact ⟨hn.nameOk, ⟨by norm_num, by norm_num⟩, ihn⟩
    · rw [Doc.printed_node hc]
      refine ⟨hn.nameOk, Doc.isNil_eq_false.mpr ?_, ihc, ihn⟩
      exact fun h => hc ((Doc.printed_eq_nil child).mp h)

theorem blank_nil : Blank [] := fun _ hc => absurd hc List.not_mem_nil

theorem nameText_keyText {name : Option Bytes} (hn : NameOk kind name) :
    NameText kind name (keyText name) := by
  cases kind with
  | obj =>
    cases name with
    | none => exact hn.elim
    | some name =>
      have htext : keyText (some name) =
          [] ++ (text "\"" ++ name ++ text "\"") ++ ([] ++ text ":") ++ [] := by
        rw [keyText, List.append_nil, List.nil_append, List.nil_append, List.append_assoc,
          List.append_assoc, List.append_assoc]
        rfl
      rw [htext]
      exact .member hn blank_nil blank_nil blank_nil
  | arr =>
    cases name with
    | none => exact .element blank_nil
    | some name => exact hn.elim

section Printed

variable [Zero F] [DecidableEq F] {P : Printer F}

theorem scalarText_text (hl : LengthOk P.log10) {v : Scalar F} (hv : v.Clean) :
    ScalarText v (v.text P) := by
  cases v with
  | integer n =>
    rw [Scalar.text, decimal_text hl (by have := hv.1; omega)]
    exact .integer hv.1 hv.2
  | float x => exact hv.elim
  | null => exact .null
  | true => exact .true
  | false => exact .false
  | string s =>
    rw [Scalar.text, escape_printable hv]
    exact .string hv

/-- The text of a document is one of its texts. -/
theorem Doc.spells_text (hl : LengthOk P.log10) (hc : d.Clean kind) :
    Spells kind false d (d.after kind ++ d.text P kind) ∧
      (d ≠ nil → Spells kind true d (d.text P kind)) := by
  have hcomma : SepText false (Json.text ",") := .comma (w := []) blank_nil
  induction d generalizing kind with
  | nil =>
    rw [Doc.after, Doc.text, List.append_nil]
    exact ⟨.close (w := []) blank_nil, fun h => absurd rfl h⟩
  | scalar name v next ih =>
    obtain ⟨hn, hv, hnext⟩ := hc
    have hrest := (ih hnext).1
    have hboth : ∀ {first sep}, SepText first sep →
        Spells kind first (scalar name v next) (sep ++ (scalar name v next).text P kind) := by
      intro first sep hsep
      have h := Spells.scalar hsep (nameText_keyText hn) (scalarText_text hl hv) hrest
      simpa only [Doc.text, List.append_assoc] using h
    exact ⟨hboth hcomma, fun _ => hboth .first⟩
  | node name kind' child next ihc ihn =>
    obtain ⟨hn, hfull, hchild, hnext⟩ := hc
    have hrest := (ihn hnext).1
    have hinner := (ihc hchild).2 (Doc.isNil_eq_false.mp hfull)
    have hboth : ∀ {first sep}, SepText first sep →
        Spells kind first (node name kind' child next)
          (sep ++ (node name kind' child next).text P kind) := by
      intro first sep hsep
      have h := Spells.node hsep (nameText_keyText hn) hinner hrest
      simpa only [Doc.text, hfull, Bool.false_eq_true, if_false, List.append_assoc] using h
    exact ⟨hboth hcomma, fun _ => hboth .first⟩

omit [DecidableEq F] in
theorem Scalar.fields_inj {name name' : Option Bytes} {v v' : Scalar F}
    (h : v.fields name = v'.fields name') : name = name' ∧ v = v' := by
  cases v <;> cases v' <;> simp_all [Scalar.fields, initJsonItem]

omit [DecidableEq F] in
/-- A tree is the tree of one document. -/
theorem Doc.items_inj {d' : Doc F} (h : d.items = d'.items) : d = d' := by
  induction d generalizing d' with
  | nil =>
    cases d' with
    | nil => rfl
    | scalar _ _ _ => cases h
    | node _ _ _ _ => cases h
  | scalar name v next ih =>
    cases d' with
    | nil => cases h
    | scalar name' v' next' =>
      simp only [Doc.items, Items.cons.injEq] at h
      obtain ⟨rfl, rfl⟩ := Scalar.fields_inj h.1
      rw [ih h.2.2]
    | node name' kind' child' next' =>
      simp only [Doc.items, Items.cons.injEq] at h
      have := congrArg Fields.type h.1
      cases v <;> simp [Scalar.fields, Kind.fields, initJsonItem] at this
  | node name kind child next ihc ihn =>
    cases d' with
    | nil => cases h
    | scalar name' v' next' =>
      simp only [Doc.items, Items.cons.injEq] at h
      have := congrArg Fields.type h.1
      cases v' <;> simp [Scalar.fields, Kind.fields, initJsonItem] at this
    | node name' kind' child' next' =>
      simp only [Doc.items, Items.cons.injEq] at h
      have hkey := congrArg Fields.key h.1
      have hkind := congrArg Fields.childType h.1
      simp only [Kind.key_fields, Kind.childType_fields] at hkey hkind
      subst hkey
      rw [ihc h.2.1, ihn h.2.2]
      cases kind <;> cases kind' <;> simp_all [Kind.childType]

omit [Zero F] [DecidableEq F] in
/-- There is one tree behind a pointer. -/
theorem Holds.unique {h : Heap F} {father p : Option ℕ} {t t' : Items F}
    (ht : Holds h father p t) (ht' : Holds h father p t') : t = t' := by
  induction t generalizing father p t' with
  | nil =>
    obtain rfl : p = none := ht
    cases t' with
    | nil => rfl
    | cons _ _ _ =>
      obtain ⟨a, ha, -⟩ := ht'
      cases ha
  | cons f child next ihc ihn =>
    obtain ⟨a, rfl, rfl, -, hchild, hnext⟩ := ht
    cases t' with
    | nil => cases ht'
    | cons f' child' next' =>
      obtain ⟨a', ha, rfl, -, hchild', hnext'⟩ := ht'
      obtain rfl := Option.some.inj ha
      rw [ihc hchild hchild', ihn hnext hnext']

/-- The text that is printed for a document is a text of no other. -/
theorem JsonText.eq_of_text (hl : LengthOk P.log10) {d' : Doc F} (hc : d'.Clean kind)
    (hn : d' ≠ .nil) (h : JsonText kind d (openText kind.childType ++ d'.text P kind)) :
    d = d' := by
  let cfg : Config F (Context F) :=
    { depth := d'.depth + 1, allowComments := false, decimalPoint := 46, strtod := fun _ => 0
      callback := Context.jsonCallback }
  obtain ⟨cx, hevents, -, hlaid, -⟩ := Doc.run_root kind d
  obtain ⟨cx', hevents', -, hlaid', -⟩ := Doc.run_root kind d'
  have hrun : run cfg (reading .GO .none [.done] [] Context.start) _ = _ :=
    run_root (hc.made.readsAll (fun _ hv => hv.reads hl) (Doc.isNil_eq_false.mpr hn)) le_rfl
  change _ = (((Doc.node none kind d' .nil).events.foldlM Context.jsonCallback _).bind _) at hrun
  rw [hevents', Option.bind_some] at hrun
  obtain ⟨cx₁, hes, hjc⟩ := h.leads cfg Context.start _ hrun
  have hsame : cx' = cx := by
    have hcx : cx' = cx₁ := congrArg Parser.ctx hjc
    change (Doc.node none kind d .nil).events.foldlM Context.jsonCallback _ = _ at hes
    rw [hevents] at hes
    exact hcx.trans (Option.some.inj hes).symm
  subst hsame
  have hitems : (Doc.node none kind d .nil).items = (Doc.node none kind d' .nil).items :=
    (hlaid.holds : Holds cx'.heap none (some 0) _).unique hlaid'.holds
  exact Doc.items_inj (Items.cons.inj hitems).2.1

end Printed

/-! ## The bytes of a text -/

theorem Blank.nonzero {w : Bytes} (hw : Blank w) : ∀ c ∈ w, c ≠ 0 := by
  rintro c hc rfl
  exact absurd (hw 0 hc) (by decide)

theorem printable_nonzero {s : Bytes} (hs : ∀ c ∈ s, IsPrintable c) : ∀ c ∈ s, c ≠ 0 := by
  rintro c hc rfl
  exact absurd (hs 0 hc) (by decide)

theorem quoted_nonzero {s : Bytes} (hs : ∀ c ∈ s, IsPrintable c) :
    ∀ c ∈ text "\"" ++ s ++ text "\"", c ≠ 0 := by
  have hquote : ∀ c ∈ text "\"", c ≠ 0 := by simp [text, chr]
  simp only [List.forall_mem_append]
  exact ⟨⟨hquote, printable_nonzero hs⟩, hquote⟩

theorem decimal_nonzero (n : ℤ) : ∀ c ∈ decimal n, c ≠ 0 := by
  have hdigits : ∀ c ∈ digitsText digitChar n.natAbs, c ≠ 0 := by
    intro c hc
    obtain ⟨k, hk, rfl⟩ := digitsText_digits hc
    interval_cases k <;> decide
  rw [decimal]
  split_ifs
  · exact List.forall_mem_cons.mpr ⟨by decide, hdigits⟩
  · simp [text, chr]
  · exact hdigits

theorem ScalarText.nonzero {v : Scalar F} (h : ScalarText v b) : ∀ c ∈ b, c ≠ 0 := by
  cases h with
  | integer _ _ => exact decimal_nonzero _
  | string hs => exact quoted_nonzero hs
  | _ => simp [text, chr]

theorem NameText.nonzero {name : Option Bytes} (h : NameText kind name b) :
    ∀ c ∈ b, c ≠ 0 := by
  cases h with
  | element hw => exact hw.nonzero
  | member hk hw₁ hw₂ hw₃ =>
    have hcolon : ∀ c ∈ text ":", c ≠ 0 := by simp [text, chr]
    exact List.forall_mem_append.mpr ⟨List.forall_mem_append.mpr
      ⟨List.forall_mem_append.mpr ⟨hw₁.nonzero, quoted_nonzero hk⟩,
        List.forall_mem_append.mpr ⟨hw₂.nonzero, hcolon⟩⟩, hw₃.nonzero⟩

theorem SepText.nonzero (h : SepText first b) : ∀ c ∈ b, c ≠ 0 := by
  cases h with
  | first => exact fun c hc => absurd hc List.not_mem_nil
  | comma hw =>
    rw [List.forall_mem_append]
    exact ⟨hw.nonzero, by simp [text, chr]⟩

theorem bracket_nonzero (kind : Kind) :
    (∀ c ∈ openText kind.childType, c ≠ 0) ∧ ∀ c ∈ closeText kind.childType, c ≠ 0 := by
  cases kind <;> simp [openText, closeText, Kind.childType, text, chr]

theorem Spells.nonzero (h : Spells kind first d b) : ∀ c ∈ b, c ≠ 0 := by
  induction h with
  | close hw =>
    rw [List.forall_mem_append]
    exact ⟨hw.nonzero, (bracket_nonzero _).2⟩
  | scalar hsep hn hv _ ih =>
    simp only [List.forall_mem_append]
    exact ⟨⟨⟨hsep.nonzero, hn.nonzero⟩, hv.nonzero⟩, ih⟩
  | node hsep hn _ _ ihc ihn =>
    simp only [List.forall_mem_append]
    exact ⟨⟨⟨⟨hsep.nonzero, hn.nonzero⟩, (bracket_nonzero _).1⟩, ihc⟩, ihn⟩

/-- A text has no NUL, at which it would end. -/
theorem JsonText.takeWhile (h : JsonText kind d b) : b.takeWhile (· ≠ 0) = b := by
  obtain ⟨w₁, inner, w₂, hw₁, hinner, hw₂, rfl⟩ := h
  have hall : ∀ c ∈ w₁ ++ openText kind.childType ++ inner ++ w₂, c ≠ 0 := by
    simp only [List.forall_mem_append]
    exact ⟨⟨⟨hw₁.nonzero, (bracket_nonzero kind).1⟩, hinner.nonzero⟩, hw₂.nonzero⟩
  exact List.takeWhile_eq_self_iff.mpr fun c hc => by simpa using hall c hc

/-! ## Parsing and printing -/

variable [Zero F] [DecidableEq F] {P : Printer F}

omit [DecidableEq F] in
/-- What is returned for a text that is accepted is the tree of its document. -/
theorem JsonText.parsed (ht : JsonText kind d b) {decimalPoint : UInt8} {strtod : Bytes → F}
    {h : Heap F} {head : Option ℕ}
    (hin : initJsonParser decimalPoint strtod b = some (h, head)) :
    Holds h none head (Doc.node none kind d .nil).items := by
  obtain ⟨cx, hevents, hhead, hlaid, -⟩ := Doc.run_root kind d
  have hrun := ht.leads
    { depth := 15, allowComments := false, decimalPoint, strtod
      callback := Context.jsonCallback } Context.start
  rw [initJsonParser, ht.takeWhile] at hin
  obtain ⟨jc, hjc, hdone⟩ := Option.bind_eq_some_iff.mp hin
  obtain ⟨cx₁, hes, rfl⟩ := hrun jc hjc
  change (Doc.node none kind d .nil).events.foldlM Context.jsonCallback _ = _ at hes
  rw [hevents] at hes
  obtain rfl := Option.some.inj hes
  obtain ⟨rfl, rfl⟩ : cx.heap = h ∧ cx.head = head := by
    have := Option.some.inj hdone
    exact ⟨congrArg Prod.fst this, congrArg Prod.snd this⟩
  rw [hhead]
  exact hlaid.holds

/-- `json_to_string` of it. -/
theorem toStringFrom_parsed (hl : LengthOk P.log10) (hd : d ≠ .nil) :
    toStringFrom P none (Doc.node none kind d .nil).items =
      some (openText kind.childType ++ d.printed.text P kind) := by
  have hn : d.printed.isNil = false :=
    Doc.isNil_eq_false.mpr fun h => hd ((Doc.printed_eq_nil d).mp h)
  have hprint := jsonToString_built (P := P) hl kind d.printed
  rw [hn, if_neg Bool.false_ne_true] at hprint
  rw [toStringFrom_items, Doc.printed_node hd]
  exact hprint

/-- Printing what was parsed gives a text of the same document if and only if the document has
neither a `true` nor, below its root, an empty container. -/
theorem printed_denotes_iff (hl : LengthOk P.log10) (decimalPoint : UInt8) (strtod : Bytes → F)
    (ht : JsonText kind d b) (hroot : d ≠ .nil) {h : Heap F} {head : Option ℕ}
    (hin : initJsonParser decimalPoint strtod b = some (h, head)) :
    ∃ items out, Holds h none head items ∧ toStringFrom P none items = some out ∧
      (JsonText kind d out ↔ d.Kept) := by
  have hclean : d.printed.Clean kind := by
    obtain ⟨_, _, _, _, hinner, _⟩ := ht
    exact hinner.clean
  have hn : d.printed ≠ .nil := fun h => hroot ((Doc.printed_eq_nil d).mp h)
  refine ⟨_, _, ht.parsed hin, toStringFrom_parsed hl hroot, ?_⟩
  rw [← Doc.printed_eq_iff]
  refine ⟨fun hout => (hout.eq_of_text hl hclean hn).symm, fun hsame => ?_⟩
  have hspells := (Doc.spells_text hl hclean).2 hn
  rw [hsame] at hspells ⊢
  exact ⟨[], d.text P kind, [], blank_nil, hspells, blank_nil, by simp⟩

/-- `[null, -0]`. -/
def spacedDoc : Doc ℤ := .scalar none .null (.scalar none (.integer 0) .nil)

theorem spacedDoc_text : JsonText .arr spacedDoc (text "[null, -0]") := by
  have hspace : Blank (text " ") := by simp [Blank, text, chr, isWs]
  have hlast : Spells .arr false (.nil : Doc ℤ) (text "]") := .close (w := []) blank_nil
  have hzero := Spells.scalar (.comma (w := []) blank_nil) (.element hspace) .minusZero hlast
  have hnull := Spells.scalar .first (.element blank_nil) .null hzero
  exact ⟨[], _, [], blank_nil, hnull, blank_nil, by decide⟩

theorem printed_denotes_iff_spaced :
    ∃ h head items out, initJsonParser 46 (fun _ => (0 : ℤ)) (text "[null, -0]") = some (h, head) ∧
      Holds h none head items ∧ toStringFrom exactPrinter none items = some out ∧
      (JsonText .arr spacedDoc out ↔ spacedDoc.Kept) := by
  have haccept : (initJsonParser 46 (fun _ => (0 : ℤ)) (text "[null, -0]")).isSome := by decide
  obtain ⟨⟨h, head⟩, hin⟩ := Option.isSome_iff_exists.mp haccept
  obtain ⟨items, out, hholds, hout, hiff⟩ := printed_denotes_iff exactPrinter_lengthOk 46
    (fun _ => 0) spacedDoc_text nofun hin
  exact ⟨h, head, items, out, hin, hholds, hout, hiff⟩

/-- `[true]` is printed as `[1]`. -/
theorem true_printed_as_one :
    ∃ (d : Doc ℤ) (h : Heap ℤ) (head : Option ℕ) (items : Items ℤ),
      JsonText .arr d (text "[true]") ∧ d ≠ .nil ∧
      initJsonParser 46 (fun _ => (0 : ℤ)) (text "[true]") = some (h, head) ∧
      Holds h none head items ∧ toStringFrom exactPrinter none items = some (text "[1]") ∧
      ¬ JsonText .arr d (text "[1]") := by
  have hlast : Spells .arr false (.nil : Doc ℤ) (text "]") := .close (w := []) blank_nil
  have htext : JsonText .arr (.scalar none .true .nil : Doc ℤ) (text "[true]") :=
    ⟨[], _, [], blank_nil, .scalar .first (.element blank_nil) .true hlast, blank_nil, by decide⟩
  have haccept : (initJsonParser 46 (fun _ => (0 : ℤ)) (text "[true]")).isSome := by decide
  obtain ⟨⟨h, head⟩, hin⟩ := Option.isSome_iff_exists.mp haccept
  refine ⟨_, h, head, _, htext, nofun, hin, htext.parsed hin, by decide, fun hone => ?_⟩
  have hclean : (Doc.scalar none (.integer 1) .nil : Doc ℤ).Clean .arr :=
    ⟨trivial, ⟨by norm_num, by norm_num⟩, trivial⟩
  have hsame := JsonText.eq_of_text exactPrinter_lengthOk hclean nofun hone
  cases hsame

end ApeServer.Json
