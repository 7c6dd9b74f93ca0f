import Mathlib.Data.Rat.Defs
import ApeServer.Json.Escapes
import ApeServer.Json.Names

/-!
# What a JSON text denotes

The trees a JSON text stands for: names and strings are read with their escapes, numbers by
their value, white space is passed over. A string that stands in a text as it is, without
escapes, is denoted by it only if it has nothing to escape.
-/
namespace ApeServer.Json

open Sock (Bytes)

variable {F : Type}

/-! ## Numbers -/

/-- The value of an exponent with its `e`. -/
def exponentValue : Bytes → ℤ
  | _ :: c :: b =>
    if c = chr '-' then -(digitsValue b : ℤ)
    else if c = chr '+' then digitsValue b
    else digitsValue (c :: b)
  | _ => 0

/-- The value of a number without its sign. -/
def unsignedValue (b : Bytes) : ℚ :=
  let whole := b.takeWhile isDigit
  match b.dropWhile isDigit with
  | [] => digitsValue whole
  | c :: r =>
    if c = chr '.' then
      let fraction := r.takeWhile isDigit
      digitsValue (whole ++ fraction) / 10 ^ fraction.length *
        10 ^ exponentValue (r.dropWhile isDigit)
    else digitsValue whole * 10 ^ exponentValue (c :: r)

def numberValue : Bytes → ℚ
  | [] => 0
  | c :: b => if c = chr '-' then -unsignedValue b else unsignedValue (c :: b)

theorem unsignedValue_digits (m : ℕ) : unsignedValue (digitsText digitChar m) = m := by
  have htake : (digitsText digitChar m).takeWhile isDigit = digitsText digitChar m :=
    List.takeWhile_eq_self_iff.mpr digitsText_isDigit
  have hdrop : (digitsText digitChar m).dropWhile isDigit = [] :=
    List.dropWhile_eq_nil_iff.mpr digitsText_isDigit
  rw [unsignedValue, htake, hdrop]
  dsimp only
  rw [digitsValue_digitsText]

/-- An integer is the value of its text. -/
theorem numberValue_decimal (n : ℤ) : numberValue (decimal n) = n := by
  rw [decimal]
  split_ifs with hneg h0
  · rw [numberValue, if_pos rfl, unsignedValue_digits, ← Int.cast_natCast,
      Int.ofNat_natAbs_of_nonpos (by omega)]
    simp
  · subst h0
    rfl
  · obtain ⟨d, b, -, hlt, hb⟩ := digitsText_cons (m := n.natAbs) (by omega)
    have hminus : digitChar d ≠ chr '-' := by
      interval_cases d <;> decide
    rw [hb, numberValue, if_neg hminus, ← hb, unsignedValue_digits, ← Int.cast_natCast,
      Int.natAbs_of_nonneg (by omega)]

/-! ## Values and trees -/

/-- The number at the beginning of a text, and what comes after it. -/
def NumberAt (b t rest : Bytes) : Prop :=
  t = (skipWs b).takeWhile isNumChar ∧ rest = (skipWs b).dropWhile isNumChar ∧
    isNumber t = true

/-- The value at the beginning of the text is `v`, and `rest` comes after it. -/
def Scalar.Denoted (strtod : Bytes → F) (b rest : Bytes) : Scalar F → Prop
  | integer n => ∃ t, NumberAt b t rest ∧ numberValue t = n
  | float x => ∃ t, NumberAt b t rest ∧ strtod t = x
  | null => skipWs b = Json.text "null" ++ rest
  | true => skipWs b = Json.text "true" ++ rest
  | false => skipWs b = Json.text "false" ++ rest
  | string s => ∃ b', skipWs b = chr '"' :: b' ∧ readString b' = some (units s, rest)

/-- The value of an item that is no container. -/
def Fields.value (f : Fields F) : Option (Scalar F) :=
  match f.type with
  | some .integer => some (.integer f.integer)
  | some .float => some (.float f.float)
  | some .null => some .null
  | some .true => some .true
  | some .false => some .false
  | some .string => f.str.map .string
  | _ => none

/-- What is between a member or element and the one before it. -/
def SepAt (first : Bool) (b rest : Bytes) : Prop :=
  if first then rest = b else skipWs b = chr ',' :: rest

def Kind.open : Kind → UInt8
  | .obj => 123
  | .arr => 91

/-- The container with the children `child` is at the beginning of the text; `inner` says so of
what is behind its bracket. -/
def OpenAt (kind : Kind) (b : Bytes) (inner : Bytes → Prop) : Prop :=
  ∃ b', skipWs b = kind.open :: b' ∧ inner b'

/-- The text continues with the items as the members or elements of a container, up to the
bracket that closes it, and with `rest`. -/
def Items.Denoted (strtod : Bytes → F) : Kind → Bool → Items F → Bytes → Bytes → Prop
  | kind, _, nil, b, rest => skipWs b = kind.close :: rest
  | kind, first, cons f child next, b, rest => ∃ b₁ b₂ b₃, SepAt first b b₁ ∧
      readName kind b₁ = some (f.key.map units, b₂) ∧
      (match f.childType with
        | .obj => OpenAt .obj b₂ fun b => child.Denoted strtod .obj true b b₃
        | .arr => OpenAt .arr b₂ fun b => child.Denoted strtod .arr true b b₃
        | _ => ∃ v, f.value = some v ∧ v.Denoted strtod b₂ b₃) ∧
      next.Denoted strtod kind false b₃ rest

/-- Several trees as the elements of an array. -/
def elements : List (Item F) → Items F
  | [] => .nil
  | j :: js => .cons j.fields j.child (elements js)

/-- The text is an array of the trees. -/
def DenotesArray (strtod : Bytes → F) (js : List (Item F)) (b : Bytes) : Prop :=
  ∃ rest, OpenAt .arr b (fun b => (elements js).Denoted strtod .arr true b rest) ∧
    skipWs rest = []

/-! ## Texts of documents -/

/-- The text of a document whose values are written by `g`. -/
def Doc.textWith (g : Scalar F → Bytes) (kind : Kind) : Doc F → Bytes
  | nil => []
  | scalar name v next => keyText name ++ g v ++ next.after kind ++ next.textWith g kind
  | node name kind' child next =>
    keyText name ++
      (if child.isNil then Json.text "0"
        else openText kind'.childType ++ child.textWith g kind') ++
      next.after kind ++ next.textWith g kind

/-- The writing of a value stands for it if and only if the value is in `B`. -/
def Stands (strtod : Bytes → F) (g : Scalar F → Bytes) (B : Scalar F → Prop) (v : Scalar F) :
    Prop :=
  ∀ c rest rest', IsSep c →
    (v.Denoted strtod (g v ++ c :: rest) rest' ↔ B v ∧ rest' = c :: rest)

section Documents

variable [Zero F] {strtod : Bytes → F} {g : Scalar F → Bytes} {B : Scalar F → Prop} {kind : Kind}
  {rest rest' : Bytes}

theorem property_value (name : Option Bytes) (v : Scalar F) :
    (Doc.property name v).value = some v := by
  cases v <;> rfl

theorem property_childType (name : Option Bytes) (v : Scalar F) :
    (Doc.property name v).childType = .null := by
  cases v <;> rfl

omit [Zero F] in
theorem nameGood_of_nameOk {name : Option Bytes} (h : NameOk kind name) : NameGood kind name := by
  cases kind with
  | obj =>
    cases name with
    | none => exact h
    | some k =>
      intro c hc
      obtain ⟨hlow, -, hquote, hback, -⟩ := h c hc
      exact ⟨hlow, hquote, hback⟩
  | arr =>
    cases name with
    | none => trivial
    | some k => exact h

theorem Kind.skipWs_open (kind : Kind) (b : Bytes) :
    skipWs (openText kind.childType ++ b) = kind.open :: b := by
  cases kind
  · exact skipWs_cons (by decide)
  · exact skipWs_cons (by decide)

/-- Behind a comma the members or elements are as at the beginning of their container. -/
theorem denoted_comma {d : Doc F} (hn : d.isNil = false) (b : Bytes) :
    d.built.Denoted strtod kind false (chr ',' :: b) rest' ↔
      d.built.Denoted strtod kind true b rest' := by
  have hsep : ∀ b₁, SepAt false (chr ',' :: b) b₁ ↔ SepAt true b b₁ := by
    intro b₁
    change skipWs (chr ',' :: b) = chr ',' :: b₁ ↔ b₁ = b
    rw [skipWs_cons (by decide), List.cons_inj_right, eq_comm]
  cases d with
  | nil => cases hn
  | scalar _ _ _ => simp only [Doc.built, Items.Denoted, hsep]
  | node _ _ _ _ => simp only [Doc.built, Items.Denoted, hsep]

/-- What follows a value that stands where it should. -/
theorem denoted_after (rest rest' : Bytes) {d : Doc F}
    (h : d.isNil = false → (d.built.Denoted strtod kind true (d.textWith g kind ++ rest) rest' ↔
      d.Made B kind ∧ rest' = rest)) :
    d.built.Denoted strtod kind false (d.after kind ++ (d.textWith g kind ++ rest)) rest' ↔
      d.Made B kind ∧ rest' = rest := by
  cases hn : d.isNil with
  | true =>
    cases d with
    | nil =>
      have hclose : skipWs (kind.close :: rest) = kind.close :: rest :=
        skipWs_cons kind.isSep_close.not_ws
      rw [Doc.after, closeText_eq, Doc.textWith, List.nil_append, Doc.built, Items.Denoted,
        List.singleton_append, hclose, List.cons_inj_right]
      constructor
      · intro hr
        exact ⟨trivial, hr.symm⟩
      · intro hr
        exact hr.2.symm
    | scalar _ _ _ => cases hn
    | node _ _ _ _ => cases hn
  | false =>
    rw [Doc.after_comma hn, List.singleton_append, denoted_comma hn]
    exact h hn

/-- The members or elements that are written with `g` are in the text if and only if all their
values are in `B`. -/
theorem Doc.denoted_iff {Q : Scalar F → Prop} {d : Doc F} (hd : d.Made Q kind)
    (hQ : ∀ v, Q v → Stands strtod g B v) (hn : d.isNil = false) :
    d.built.Denoted strtod kind true (d.textWith g kind ++ rest) rest' ↔
      d.Made B kind ∧ rest' = rest := by
  induction d generalizing kind rest rest' with
  | nil => cases hn
  | scalar name v next ih =>
    obtain ⟨hname, hv, hnext⟩ := hd
    obtain ⟨c, b, hsep, hc⟩ := next.after_sep kind (next.textWith g kind ++ rest)
    have hread : readName kind (textWith g kind (.scalar name v next) ++ rest) =
        some (name.map units, g v ++ (next.after kind ++ (next.textWith g kind ++ rest))) := by
      rw [textWith, List.append_assoc, List.append_assoc, List.append_assoc]
      exact readName_good (nameGood_of_nameOk hname)
    have hafter := denoted_after rest rest' (ih hnext)
    rw [built, Items.Denoted, property_key, property_value, property_childType]
    constructor
    · rintro ⟨b₁, b₂, b₃, rfl, hr, ⟨_, ⟨⟩, hvalue⟩, hrest⟩
      rw [hread] at hr
      cases hr
      rw [hsep] at hvalue
      obtain ⟨hb, rfl⟩ := (hQ v hv c b b₃ hc).mp hvalue
      rw [← hsep] at hrest
      obtain ⟨hm, hr⟩ := hafter.mp hrest
      exact ⟨⟨hname, hb, hm⟩, hr⟩
    · rintro ⟨⟨-, hb, hm⟩, hr⟩
      refine ⟨_, _, _, rfl, hread, ⟨v, rfl, ?_⟩, hafter.mpr ⟨hm, hr⟩⟩
      rw [hsep]
      exact (hQ v hv c b _ hc).mpr ⟨hb, rfl⟩
  | node name kind' child next ihc ihn =>
    obtain ⟨hname, hchild, hcc, hnext⟩ := hd
    have hread : readName kind (textWith g kind (.node name kind' child next) ++ rest) =
        some (name.map units, openText kind'.childType ++
          (child.textWith g kind' ++ (next.after kind ++ (next.textWith g kind ++ rest)))) := by
      rw [textWith, hchild, if_neg Bool.false_ne_true, List.append_assoc, List.append_assoc,
        List.append_assoc]
      rw [readName_good (nameGood_of_nameOk hname), List.append_assoc]
    have hopen : ∀ (b : Bytes) (inner : Bytes → Prop),
        OpenAt kind' (openText kind'.childType ++ b) inner ↔ inner b := by
      intro b inner
      rw [OpenAt, kind'.skipWs_open]
      simp
    have hafter := denoted_after rest rest' (ihn hnext)
    rw [built, Items.Denoted, Kind.key_fields, Kind.childType_fields]
    have hmatch : ∀ b₂ b₃, (match kind'.childType with
        | .obj => OpenAt .obj b₂ fun b => child.built.Denoted strtod .obj true b b₃
        | .arr => OpenAt .arr b₂ fun b => child.built.Denoted strtod .arr true b b₃
        | _ => ∃ v, (kind'.fields name : Fields F).value = some v ∧ v.Denoted strtod b₂ b₃) =
        OpenAt kind' b₂ fun b => child.built.Denoted strtod kind' true b b₃ := by
      intro b₂ b₃
      cases kind' <;> rfl
    simp only [hmatch]
    constructor
    · rintro ⟨b₁, b₂, b₃, rfl, hr, hvalue, hrest⟩
      rw [hread] at hr
      cases hr
      rw [hopen] at hvalue
      obtain ⟨hb, rfl⟩ := (ihc hcc hchild).mp hvalue
      obtain ⟨hm, hr⟩ := hafter.mp hrest
      exact ⟨⟨hname, hchild, hb, hm⟩, hr⟩
    · rintro ⟨⟨-, -, hb, hm⟩, hr⟩
      refine ⟨_, _, _, rfl, hread, ?_, hafter.mpr ⟨hm, hr⟩⟩
      rw [hopen]
      exact (ihc hcc hchild).mpr ⟨hb, rfl⟩

end Documents

/-! ## Strings without escapes -/

section Bare

variable [Zero F] [DecidableEq F] {P : Printer F} {strtod : Bytes → F} {kind : Kind}

/-- The text of a value with its string as it is. -/
def Scalar.bareText (P : Printer F) : Scalar F → Bytes
  | string s => Json.text "\"" ++ s ++ Json.text "\""
  | v => v.text P

/-- A value with nothing to escape. -/
def Scalar.Bare : Scalar F → Prop
  | string s => ∀ c ∈ s, IsRaw c
  | _ => True

/-- An integer other than the least, a string of ASCII characters or a word. -/
def Scalar.Ready : Scalar F → Prop
  | integer n => -2 ^ 63 < n ∧ n < 2 ^ 63
  | float _ => False
  | string s => ∀ c ∈ s, IsAscii c
  | _ => True

omit [Zero F] [DecidableEq F] in
theorem numberAt_decimal (n : ℤ) {c : UInt8} (hc : IsSep c) (rest t rest' : Bytes) :
    NumberAt (decimal n ++ c :: rest) t rest' ↔ t = decimal n ∧ rest' = c :: rest := by
  obtain ⟨hne, hall, hnum⟩ := decimal_number n
  have hskip : skipWs (decimal n ++ c :: rest) = decimal n ++ c :: rest := by
    obtain ⟨d, b, hd⟩ := List.exists_cons_of_ne_nil hne
    rw [hd, List.cons_append]
    refine skipWs_cons (isNumChar_cases (hall d ?_)).1
    rw [hd]
    exact List.mem_cons_self
  have htake : (decimal n ++ c :: rest).takeWhile isNumChar = decimal n := by
    rw [List.takeWhile_append_of_pos hall, List.takeWhile_cons, if_neg (by simp [hc.not_numChar]),
      List.append_nil]
  have hdrop : (decimal n ++ c :: rest).dropWhile isNumChar = c :: rest := by
    rw [List.dropWhile_append_of_pos hall, List.dropWhile_cons, if_neg (by simp [hc.not_numChar])]
  rw [NumberAt, hskip, htake, hdrop]
  constructor
  · intro h
    exact ⟨h.1, h.2.1⟩
  · rintro ⟨rfl, h⟩
    exact ⟨rfl, h, hnum⟩

/-- A value whose string is written as it is stands for itself if it has nothing to escape. -/
theorem Scalar.Ready.stands {v : Scalar F} (hv : v.Ready) (hl : LengthOk P.log10) :
    Stands strtod (Scalar.bareText P) Scalar.Bare v := by
  have hword : ∀ {w : Bytes} {c : UInt8} {rest rest' : Bytes}, (∀ b, skipWs (w ++ b) = w ++ b) →
      (skipWs (w ++ c :: rest) = w ++ rest' ↔ True ∧ rest' = c :: rest) := by
    intro w c rest rest' hw
    rw [hw, List.append_cancel_left_eq, true_and, eq_comm]
  intro c rest rest' hc
  cases v with
  | integer n =>
    have htext : (integer n : Scalar F).bareText P = decimal n := by
      obtain ⟨hmin, -⟩ := hv
      exact decimal_text hl (by omega)
    rw [htext]
    constructor
    · rintro ⟨t, ht, -⟩
      exact ⟨trivial, ((numberAt_decimal n hc rest t rest').mp ht).2⟩
    · rintro ⟨-, hr⟩
      exact ⟨decimal n, (numberAt_decimal n hc rest _ rest').mpr ⟨rfl, hr⟩, numberValue_decimal n⟩
  | float x => exact hv.elim
  | null => exact hword fun b => skipWs_cons (by decide)
  | true => exact hword fun b => skipWs_cons (by decide)
  | false => exact hword fun b => skipWs_cons (by decide)
  | string s =>
    have hskip : skipWs ((string s : Scalar F).bareText P ++ c :: rest) =
        chr '"' :: (s ++ chr '"' :: c :: rest) := by
      rw [bareText, List.append_assoc, List.append_assoc]
      exact skipWs_cons (by decide)
    rw [Scalar.Denoted, hskip]
    constructor
    · rintro ⟨b', hb, hread⟩
      cases hb
      exact readString_own hread
    · rintro ⟨hraw, rfl⟩
      exact ⟨_, rfl, readString_key hraw⟩

/-- The trees whose root is an object, as the elements of an array. -/
def Doc.elements : List (Doc F) → Doc F
  | [] => nil
  | d :: ds => node none .obj d (elements ds)

omit [DecidableEq F] in
theorem elements_built (ds : List (Doc F)) :
    elements (ds.map fun d => ⟨Kind.obj.fields none, d.built⟩) = (Doc.elements ds).built := by
  induction ds with
  | nil => rfl
  | cons d ds ih =>
    rw [List.map_cons, elements, ih]
    rfl

omit [Zero F] [DecidableEq F] in
theorem Doc.elements_made {Q : Scalar F → Prop} {ds : List (Doc F)}
    (hn : ∀ d ∈ ds, d.isNil = false) :
    (Doc.elements ds).Made Q .arr ↔ ∀ d ∈ ds, d.Made Q .obj := by
  induction ds with
  | nil => exact ⟨fun _ _ hd => absurd hd List.not_mem_nil, fun _ => trivial⟩
  | cons d ds ih =>
    obtain ⟨hd, hds⟩ := List.forall_mem_cons.mp hn
    rw [List.forall_mem_cons, ← ih hds]
    constructor
    · intro h
      exact ⟨h.2.2.1, h.2.2.2⟩
    · intro h
      exact ⟨trivial, hd, h.1, h.2⟩

/-- The array that is written with the strings as they are denotes the trees if and only if there
is nothing to escape in them. -/
theorem denotesArray_iff (hl : LengthOk P.log10) {ds : List (Doc F)} (hne : ds ≠ [])
    (hn : ∀ d ∈ ds, d.isNil = false) (hd : ∀ d ∈ ds, d.Made Scalar.Ready .obj) :
    DenotesArray strtod (ds.map fun d => ⟨Kind.obj.fields none, d.built⟩)
      (openText Kind.arr.childType ++ (Doc.elements ds).textWith (Scalar.bareText P) .arr) ↔
      ∀ d ∈ ds, d.Made Scalar.Bare .obj := by
  have hnil : (Doc.elements ds).isNil = false := by
    cases ds with
    | nil => exact absurd rfl hne
    | cons d ds => rfl
  have hinner : ∀ rest, (Doc.elements ds).built.Denoted strtod .arr true
      ((Doc.elements ds).textWith (Scalar.bareText P) .arr) rest ↔
      (∀ d ∈ ds, d.Made Scalar.Bare .obj) ∧ rest = [] := by
    intro rest
    have h : (Doc.elements ds).built.Denoted strtod .arr true
        ((Doc.elements ds).textWith (Scalar.bareText P) .arr ++ []) rest ↔
        (Doc.elements ds).Made Scalar.Bare .arr ∧ rest = [] :=
      Doc.denoted_iff ((Doc.elements_made hn).mpr hd) (fun _ hv => hv.stands hl) hnil
    rwa [List.append_nil, Doc.elements_made hn] at h
  rw [DenotesArray, elements_built]
  constructor
  · rintro ⟨rest, ⟨b', hb, hitems⟩, -⟩
    rw [Kind.skipWs_open] at hb
    cases hb
    exact ((hinner rest).mp hitems).1
  · intro h
    exact ⟨[], ⟨_, Kind.arr.skipWs_open _, (hinner []).mpr ⟨h, rfl⟩⟩, rfl⟩

end Bare

end ApeServer.Json
