import ApeServer.Json.Accept

/-!
# A tree, its text and the tree of the text

`init_json_parser` reads back what `json_to_string` writes for a tree whose objects have
properties and whose arrays have elements. What it reads has the same items, except that the
integer of a `true` is 1.
-/
namespace ApeServer.Json

open Sock (Bytes)

variable {F : Type}

/-- The same shape and the same keys, types, strings and integers. -/
def Items.Same : Items F → Items F → Prop
  | nil, nil => True
  | cons f child next, cons f' child' next' =>
    f.key = f'.key ∧ f.str = f'.str ∧ f.type = f'.type ∧ f.childType = f'.childType ∧
      (f.type ≠ some .true → f.integer = f'.integer) ∧ child.Same child' ∧ next.Same next'
  | _, _ => False

/-- No float, no integer below all others, texts that need no escape, and no empty container. -/
structure Plain (_father : ChildType) (f : Fields F) (child : Items F) : Prop where
  full : f.childType = .obj ∨ f.childType = .arr → child ≠ .nil
  noFloat : f.type ≠ some .float
  range : -2 ^ 63 < f.integer ∧ f.integer < 2 ^ 63
  key : AllText IsPrintable f.key
  str : AllText IsPrintable f.str

instance [DecidableEq F] (father : ChildType) (f : Fields F) (child : Items F) :
    Decidable (Plain father f child) :=
  decidable_of_iff ((f.childType = .obj ∨ f.childType = .arr → child ≠ .nil) ∧
      f.type ≠ some .float ∧ (-2 ^ 63 < f.integer ∧ f.integer < 2 ^ 63) ∧
      AllText IsPrintable f.key ∧ AllText IsPrintable f.str)
    ⟨fun ⟨h₁, h₂, h₃, h₄, h₅⟩ => ⟨h₁, h₂, h₃, h₄, h₅⟩, fun h => ⟨h.1, h.2, h.3, h.4, h.5⟩⟩

theorem nameOk_of_keyed {kind : Kind} {f : Fields F} {child : Items F}
    (hp : AllText IsPrintable f.key) (hk : Keyed kind.childType f child) :
    NameOk kind f.key := by
  cases kind with
  | obj =>
    cases hkey : f.key with
    | none => exact absurd hkey (hk.1 rfl)
    | some k => exact hp k hkey
  | arr =>
    rw [hk.2 rfl]
    trivial

section Documents

variable [Zero F]

theorem Doc.same (d : Doc F) : d.items.Same d.built := by
  induction d with
  | nil => trivial
  | scalar name v next ih =>
    refine ⟨?_, ?_, ?_, ?_, ?_, trivial, ih⟩
    · cases v <;> rfl
    · cases v <;> rfl
    · cases v <;> rfl
    · cases v <;> rfl
    · intro ht
      cases v with
      | true => exact absurd rfl ht
      | _ => rfl
  | node name kind child next ihc ihn => exact ⟨rfl, rfl, rfl, rfl, fun _ => rfl, ihc, ihn⟩

theorem Doc.depth_built (d : Doc F) : d.built.depth = d.depth := by
  induction d with
  | nil => rfl
  | scalar name v next ih =>
    have hval : (Doc.property name v).childType = .null := by cases v <;> rfl
    simp [Doc.built, Items.depth, Doc.depth, hval, ih]
  | node name kind child next ihc ihn =>
    have hcont : kind.childType = .obj ∨ kind.childType = .arr := by
      cases kind
      · exact .inl rfl
      · exact .inr rfl
    rw [Doc.built, Items.depth, Kind.childType_fields, if_pos hcont, ihc, ihn, Doc.depth,
      Nat.add_comm]

theorem Scalar.clean_of_plain {father : ChildType} {name : Option Bytes} {v : Scalar F}
    (hp : Plain father (Doc.property name v) .nil) : v.Clean := by
  cases v with
  | integer n => exact hp.range
  | float x => exact absurd rfl hp.noFloat
  | string s => exact hp.str s rfl
  | _ => trivial

/-- A document whose items are keyed, full and of good values. -/
theorem Doc.made {Q : Scalar F → Prop} {S : ChildType → Fields F → Items F → Prop}
    (hfull : ∀ {father f child}, S father f child →
      f.childType = .obj ∨ f.childType = .arr → child ≠ .nil)
    (hkey : ∀ {father f child}, S father f child → AllText IsPrintable f.key)
    (hv : ∀ {father name v}, S father (property name v) .nil → Q v) {d : Doc F} {kind : Kind}
    (hp : Items.All S kind.childType d.built) (hk : Items.All Keyed kind.childType d.built) :
    d.Made Q kind := by
  induction d generalizing kind with
  | nil => trivial
  | scalar name v next ih =>
    refine ⟨?_, hv hp.1, ih hp.2.2 hk.2.2⟩
    have := nameOk_of_keyed (hkey hp.1) hk.1
    rwa [property_key] at this
  | node name kind' child next ihc ihn =>
    refine ⟨nameOk_of_keyed (hkey hp.1) hk.1, ?_, ihc hp.2.1 hk.2.1, ihn hp.2.2 hk.2.2⟩
    have hne := hfull hp.1 (by cases kind'; exacts [.inl rfl, .inr rfl])
    cases child with
    | nil => exact absurd rfl hne
    | scalar _ _ _ => rfl
    | node _ _ _ _ => rfl

/-- Values of a document and items of the tree that is built of it. -/
theorem Doc.made_iff_all {Q B : Scalar F → Prop} {S : ChildType → Fields F → Items F → Prop}
    (hv : ∀ father name v, Q v → (B v ↔ S father (property name v) .nil))
    (hnode : ∀ father name kind child, S father (Kind.fields name kind) child) {d : Doc F}
    {kind : Kind} (hd : d.Made Q kind) :
    d.Made B kind ↔ Items.All S kind.childType d.built := by
  induction d generalizing kind with
  | nil => exact Iff.rfl
  | scalar name v next ih =>
    obtain ⟨hname, hq, hnext⟩ := hd
    have hvalue := hv kind.childType name v hq
    have hrest := ih hnext
    constructor
    · intro h
      exact ⟨hvalue.mp h.2.1, trivial, hrest.mp h.2.2⟩
    · intro h
      exact ⟨hname, hvalue.mpr h.1, hrest.mpr h.2.2⟩
  | node name kind' child next ihc ihn =>
    obtain ⟨hname, hchild, hcc, hnext⟩ := hd
    constructor
    · intro h
      exact ⟨hnode _ _ _ _, (ihc hcc).mp h.2.2.1, (ihn hnext).mp h.2.2.2⟩
    · intro h
      exact ⟨hname, hchild, (ihc hcc).mpr h.2.1, (ihn hnext).mpr h.2.2⟩

end Documents

variable {σ : Type} {cfg : Config F σ}

/-- A text that is read has no NUL, at which it would end. -/
theorem takeWhile_of_run {jc jc' : Parser σ} {b : Bytes} (h : run cfg jc b = some jc') :
    b.takeWhile (· ≠ 0) = b := by
  induction b generalizing jc with
  | nil => rfl
  | cons c b ih =>
    rw [run_cons] at h
    have hc : c ≠ 0 := by
      rintro rfl
      exact Option.some_ne_none _ h.symm
    cases hs : Parser.jsonParserChar cfg jc c with
    | none =>
      rw [hs] at h
      cases h
    | some jc₁ =>
      rw [hs] at h
      rw [List.takeWhile_cons, if_pos (by simpa using hc), ih h]

variable [Zero F] [DecidableEq F] {P : Printer F}

/-- A text that is read event by event is accepted, and what is returned is its tree. -/
theorem accepted_of_readsAll (decimalPoint : UInt8) (strtod : Bytes → F) {kind : Kind} {d : Doc F}
    (hr : ∀ cfg : Config F (Context F), ReadsAll cfg kind (d.text P kind) d)
    (hd : d.depth + 1 ≤ 15) :
    ∃ h head, initJsonParser decimalPoint strtod (openText kind.childType ++ d.text P kind) =
      some (h, head) ∧ Holds h none head (Doc.node none kind d .nil).items := by
  obtain ⟨cx, hevents, hhead, hlaid, -⟩ := Doc.run_root kind d
  set cfg : Config F (Context F) :=
    { depth := 15, allowComments := false, decimalPoint, strtod
      callback := Context.jsonCallback } with hcfg
  have hrun : run cfg (reading .GO .none [.done] [] Context.start)
      (openText kind.childType ++ d.text P kind) = some (reading .OK .none [.done] [] cx) := by
    change (kind.beginEvent :: (d.events ++ [kind.endEvent])).foldlM cfg.callback _ = _ at hevents
    rw [run_root (hr cfg) hd, hevents]
    rfl
  refine ⟨cx.heap, cx.head, ?_, ?_⟩
  · have hinit : ∀ b, initJsonParser decimalPoint strtod b =
        (run cfg (reading .GO .none [.done] [] Context.start) (b.takeWhile (· ≠ 0))).bind
          fun jc => if jc.jsonParserDone then some (jc.ctx.heap, jc.ctx.head) else none :=
      fun b => rfl
    rw [hinit, takeWhile_of_run hrun, hrun]
    rfl
  · rw [hhead]
    exact hlaid.holds

theorem document_accepted (hl : LengthOk P.log10) (decimalPoint : UInt8) (strtod : Bytes → F)
    {kind : Kind} {d : Doc F} (hc : d.Made Scalar.Clean kind) (hn : d.isNil = false)
    (hd : d.depth + 1 ≤ 15) :
    ∃ h head, initJsonParser decimalPoint strtod (openText kind.childType ++ d.text P kind) =
      some (h, head) ∧ Holds h none head (Doc.node none kind d .nil).items :=
  accepted_of_readsAll decimalPoint strtod
    (fun _ => hc.readsAll (fun _ hv => hv.reads hl) hn) hd

/-- A tree that was built, with properties in its objects and elements in its arrays, is read
back from its text. -/
theorem built_read_back (hl : LengthOk P.log10) (decimalPoint : UInt8) (strtod : Bytes → F)
    {j : Item F} (hb : Built j) (hdepth : j.items.depth ≤ 15)
    (hp : Items.All Plain .null j.items) (hk : Items.All Keyed .null j.items) :
    ∃ b h head items, jsonToString P j = some b ∧
      initJsonParser decimalPoint strtod b = some (h, head) ∧ Holds h none head items ∧
      items.Same j.items := by
  obtain ⟨kind, d, rfl⟩ := hb.doc
  have hn : d.isNil = false := by
    have hne := hp.1.full (by cases kind; exacts [.inl rfl, .inr rfl])
    cases d with
    | nil => exact absurd rfl hne
    | scalar _ _ _ => rfl
    | node _ _ _ _ => rfl
  have hdoc : (Doc.node none kind d .nil).depth ≤ 15 := by
    rw [← Doc.depth_built]
    exact hdepth
  obtain ⟨h, head, hinit, hholds⟩ := document_accepted hl decimalPoint strtod
    (Doc.made Plain.full Plain.key Scalar.clean_of_plain hp.2.1 hk.2.1) hn
    (by rw [Doc.depth] at hdoc; omega)
  refine ⟨_, h, head, _, ?_, hinit, hholds, Doc.same (.node none kind d .nil)⟩
  rw [jsonToString_built hl, hn, if_neg Bool.false_ne_true]

/-- `\x7b"k":[true,-12]\x7d`, as it is built. -/
def sampleTree : Item ℤ :=
  jsonSetPropertyObj jsonNewObject (some (text "k"))
    (jsonSetPropertyInt (jsonSetPropertyBoolean jsonNewArray none true) none (-12))

theorem built_read_back_sample :
    jsonToString exactPrinter sampleTree = some (text "\x7b\"k\":[true,-12]\x7d") ∧
    ∃ b h head items, jsonToString exactPrinter sampleTree = some b ∧
      initJsonParser 46 (fun _ => 0) b = some (h, head) ∧ Holds h none head items ∧
      items.Same sampleTree.items := by
  refine ⟨by decide, built_read_back exactPrinter_lengthOk 46 (fun _ => 0) ?_ (by decide)
    (by decide) (by decide)⟩
  exact .obj _ .object (.int _ (by decide) (by decide) (.boolean _ _ .array))

/-- A property that is set on an array is not read back: `["k":1]` is no JSON text. -/
theorem keyed_element_rejected :
    ∃ j : Item ℤ, Built j ∧ j.items.depth ≤ 15 ∧ Items.All Plain .null j.items ∧
      jsonToString exactPrinter j = some (text "[\"k\":1]") ∧
      (initJsonParser 46 (fun _ => (0 : ℤ)) (text "[\"k\":1]")).isNone := by
  refine ⟨jsonSetPropertyInt jsonNewArray (some (text "k")) 1,
    .int _ (by decide) (by decide) .array, by decide, by decide, by decide, by decide⟩

end ApeServer.Json
