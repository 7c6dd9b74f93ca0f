import ApeServer.Json.Print
import ApeServer.Sock.Delivery

/-!
# The buffer of `json_to_string`

`json_evaluate_string_size` and the bytes that are written into a buffer of twice that size.
-/
namespace ApeServer.Json

open Sock (Bytes toInt32)

variable {F : Type}

/-- What `json_evaluate_string_size` adds for a key. -/
def keySize : Option Bytes → ℕ
  | some k => k.length + 3
  | none => 0

/-- What it adds for a value that is no container. -/
def valueSize : Option Bytes → Items F → ℕ
  | some s, _ => s.length + 3
  | none, .nil => 16
  | none, .cons _ _ _ => 0

/-- `json_evaluate_string_size`, with an unbounded sum. -/
def evaluateStringSize : Items F → ℕ
  | .nil => 2
  | .cons f .nil next => keySize f.key + valueSize f.str (.nil : Items F) + evaluateStringSize next
  | .cons f child next =>
    keySize f.key + valueSize f.str child + evaluateStringSize child + evaluateStringSize next

/-- `string->jsize`: an `int` sum, doubled as an `int`. -/
def jsize (head : Items F) : ℤ := toInt32 (evaluateStringSize head * 2)

section Zero

variable [Zero F]

/-- An item with children carries no scalar value, and an integer is a `long int`. -/
def Sized (_father : ChildType) (f : Fields F) (child : Items F) : Prop :=
  (child ≠ .nil → f.str = none ∧ f.integer = 0 ∧ f.float = 0 ∧
    f.type ∉ [some .true, some .false, some .null]) ∧
  -2 ^ 63 ≤ f.integer ∧ f.integer < 2 ^ 63

omit [Zero F] in
theorem Items.All.snoc {Q : ChildType → Fields F → Items F → Prop} {father : ChildType}
    {t : Items F} {v : Item F} (ht : Items.All Q father t) (hv : Q father v.fields v.child)
    (hchild : Items.All Q v.fields.childType v.child) : Items.All Q father (t.snoc v) := by
  induction t with
  | nil => exact ⟨hv, hchild, trivial⟩
  | cons f child next _ ih => exact ⟨ht.1, ht.2.1, ih ht.2.2⟩

/-- A root that carries no value, over children that are sized. -/
structure SizedRoot (j : Item F) : Prop where
  str : j.fields.str = none
  integer : j.fields.integer = 0
  float : j.fields.float = 0
  type : j.fields.type = none
  child : Items.All Sized j.fields.childType j.child

theorem SizedRoot.sized {j : Item F} (h : SizedRoot j) (father : ChildType) :
    Sized father j.fields j.child := by
  refine ⟨fun _ => ⟨h.str, h.integer, h.float, ?_⟩, ?_, ?_⟩
  · simp [h.type]
  · norm_num [h.integer]
  · norm_num [h.integer]

theorem SizedRoot.append {o v : Item F} (ho : SizedRoot o)
    (hv : Sized o.fields.childType v.fields v.child)
    (hchild : Items.All Sized v.fields.childType v.child) : SizedRoot (o.append v) :=
  ⟨ho.str, ho.integer, ho.float, ho.type, ho.child.snoc hv hchild⟩

/-- What the functions of `json.c` build is sized. -/
theorem Built.sizedRoot {j : Item F} (h : Built j) : SizedRoot j := by
  have hleaf : ∀ {o : Item F} {f : Fields F}, SizedRoot o → -2 ^ 63 ≤ f.integer →
      f.integer < 2 ^ 63 → SizedRoot (o.append ⟨f, .nil⟩) :=
    fun ho hmin hmax => ho.append ⟨fun hne => absurd rfl hne, hmin, hmax⟩ trivial
  have hzero : ∀ {o : Item F} {f : Fields F}, SizedRoot o → f.integer = 0 →
      SizedRoot (o.append ⟨f, .nil⟩) :=
    fun ho h0 => hleaf ho (by norm_num [h0]) (by norm_num [h0])
  induction h with
  | object => exact ⟨rfl, rfl, rfl, rfl, trivial⟩
  | array => exact ⟨rfl, rfl, rfl, rfl, trivial⟩
  | obj key _ _ iho ihv =>
    have hv := ihv.sized .null
    exact iho.append hv ihv.child
  | int key hmin hmax _ ih => exact hleaf ih hmin hmax
  | float key x _ ih => exact hzero ih rfl
  | boolean key b _ ih => exact hzero ih rfl
  | null key _ ih => exact hzero ih rfl
  | str key s _ ih => exact hzero ih rfl

omit [Zero F] in
/-- The integers of a document are those of a `long int`. -/
def Doc.Long : Doc F → Prop
  | nil => True
  | scalar _ v next => (∀ n, v = .integer n → -2 ^ 63 ≤ n ∧ n < 2 ^ 63) ∧ next.Long
  | node _ _ child next => child.Long ∧ next.Long

/-- What the parser keeps of a document is sized. -/
theorem Doc.sized_items {d : Doc F} (hd : d.Long) (father : ChildType) :
    Items.All Sized father d.items := by
  induction d generalizing father with
  | nil => trivial
  | scalar name v next ih =>
    refine ⟨⟨fun hne => absurd rfl hne, ?_⟩, trivial, ih hd.2 father⟩
    cases v with
    | integer n => exact hd.1 n rfl
    | _ => norm_num [Scalar.fields, initJsonItem]
  | node name kind child next ihc ihn =>
    have hint : (0 : ℤ) < 2 ^ 63 := by norm_num
    exact ⟨⟨fun _ => ⟨rfl, rfl, rfl, by simp [Kind.fields, initJsonItem]⟩, by
      simp [Kind.fields, initJsonItem], hint⟩, ihc hd.1 _, ihn hd.2 father⟩

end Zero

theorem escapeJsonString_length (s : Bytes) : (escapeJsonString s).length ≤ 2 * s.length := by
  have hchar : ∀ c, (escapeChar c).length ≤ 2 := by
    intro c
    unfold escapeChar
    repeat' split
    all_goals simp [text]
  induction s with
  | nil => simp [escapeJsonString]
  | cons c s ih =>
    have := hchar c
    simp only [escapeJsonString, List.flatMap_cons, List.length_append, List.length_cons] at ih ⊢
    omega

/-- A `long int` has at most nineteen digits. -/
theorem integerText_length {log10 : ℤ → ℕ} (hl : LengthOk log10) {n : ℤ} (h0 : n ≠ 0)
    (hmin : -2 ^ 63 ≤ n) (hmax : n < 2 ^ 63) :
    ∃ out, integerText log10 n = some out ∧ out.length ≤ 20 := by
  have hdigits : ∀ m : ℕ, m ≤ 2 ^ 63 → (Nat.digits 10 m).length ≤ 19 := by
    intro m hm
    rw [Nat.digits_length_le_iff (by omega)]
    omega
  by_cases hn : n = -2 ^ 63
  · rw [hn, integerText_min hl]
    refine ⟨_, rfl, ?_⟩
    have := hdigits (2 ^ 63) le_rfl
    simp only [List.length_cons, length_digitsText]
    omega
  · rw [integerText_eq hl h0 hn]
    refine ⟨_, rfl, ?_⟩
    have := hdigits n.natAbs (by omega)
    rw [decimal, if_neg h0]
    split
    · simp only [List.length_cons, length_digitsText]
      omega
    · rw [length_digitsText]
      omega

section Text

variable [Zero F] [DecidableEq F] {P : Printer F}

/-- A scalar value leaves a byte of its doubled estimate, and a container has none. -/
theorem valueText_length (hl : LengthOk P.log10) {father : ChildType} {f : Fields F}
    {child : Items F} (hs : Sized father f child) :
    ∃ out, valueText P f child = some out ∧
      out.length + (if child = .nil then 1 else 0) ≤ 2 * valueSize f.str child := by
  obtain ⟨hcont, hmin, hmax⟩ := hs
  unfold valueText
  cases hstr : f.str with
  | some s =>
    refine ⟨_, rfl, ?_⟩
    have hquote : (text "\"").length = 1 := by decide
    have := escapeJsonString_length s
    simp only [valueSize, List.length_append, hquote]
    split <;> omega
  | none =>
    cases child with
    | nil =>
      simp only [↓reduceIte, valueSize]
      by_cases hint : f.integer = 0
      · rw [if_neg (not_not.mpr hint)]
        repeat' split
        · exact ⟨_, rfl, by have := List.length_take_le 16 (P.format f.float); omega⟩
        all_goals exact ⟨_, rfl, by decide⟩
      · rw [if_pos hint]
        obtain ⟨out, hout, hle⟩ := integerText_length hl hint hmin hmax
        exact ⟨out, hout, by omega⟩
    | cons f' child' next' =>
      obtain ⟨-, hint, hfloat, htype⟩ := hcont (by simp)
      simp only [List.mem_cons, List.not_mem_nil, or_false, not_or] at htype
      exact ⟨[], by simp [hint, hfloat, htype], by simp⟩

omit [Zero F] [DecidableEq F] in
theorem keyText_length (key : Option Bytes) : (keyText key).length = keySize key := by
  have hlen : (text "\"").length = 1 ∧ (text "\":").length = 2 := by decide
  cases key with
  | none => rfl
  | some k =>
    simp only [keyText, keySize, List.length_append, hlen]
    omega

omit [Zero F] [DecidableEq F] in
theorem bracket_length (t : ChildType) : (openText t).length ≤ 1 ∧ (closeText t).length ≤ 1 := by
  cases t <;> decide

omit [Zero F] [DecidableEq F] in
theorem afterText_length (father : Option ChildType) (next : Items F) :
    (afterText father next).length ≤ 1 := by
  cases father with
  | none => cases next <;> simp [afterText]
  | some t =>
    cases next with
    | nil => exact (bracket_length t).2
    | cons f child next => simp [afterText, text]

/-- Every item pays for its key and its value, and the two bytes that start the size of a
list of children for the bracket in front of them and for what follows their father. -/
theorem toStringFrom_length (hl : LengthOk P.log10) (t : Items F) :
    ∀ (ct : ChildType) (father : Option ChildType), Items.All Sized ct t →
      ∃ out, toStringFrom P father t = some out ∧ out.length + 4 ≤ 2 * evaluateStringSize t := by
  induction t with
  | nil => exact fun _ _ _ => ⟨[], rfl, le_rfl⟩
  | cons f child next ihc ihn =>
    rintro ct father ⟨hs, hchild, hnext⟩
    obtain ⟨value, hvalue, hvlen⟩ := valueText_length hl hs
    obtain ⟨inner, hinner, hilen⟩ := ihc f.childType (some f.childType) hchild
    obtain ⟨rest, hrest, hrlen⟩ := ihn ct father hnext
    refine ⟨_, by simp only [toStringFrom, hvalue, hinner, hrest]; rfl, ?_⟩
    have hkey := keyText_length f.key
    have hopen := (bracket_length f.childType).1
    have hafter := afterText_length father next
    simp only [List.length_append]
    cases child with
    | nil =>
      obtain rfl : inner = [] := by
        simpa [toStringFrom] using hinner.symm
      simp only [evaluateStringSize, ↓reduceIte, List.length_nil] at hvlen ⊢
      omega
    | cons f' child' next' =>
      rw [evaluateStringSize]
      simp only [reduceCtorEq, ↓reduceIte] at hvlen ⊢
      · omega
      · exact fun h => by cases h

/-- `json_to_string` writes no more than it has allocated for. -/
theorem jsonToString_fits (hl : LengthOk P.log10) (father : Option ChildType) (head : Items F)
    (hs : head.All Sized .val) (hsize : evaluateStringSize head < 2 ^ 30) :
    ∃ out, toStringFrom P father head = some out ∧ (out.length : ℤ) ≤ jsize head := by
  obtain ⟨out, hout, hlen⟩ := toStringFrom_length hl head .val father hs
  refine ⟨out, hout, ?_⟩
  rw [jsize, Sock.toInt32_of_range (by omega) (by omega)]
  omega

/-- `\x7b"k":["'",-9223372036854775808]\x7d`, as it is built. -/
def quotedTree : Item ℤ :=
  jsonSetPropertyObj jsonNewObject (some (text "k"))
    (jsonSetPropertyInt (jsonSetPropertyStr jsonNewArray none [39]) none (-2 ^ 63))

theorem jsonToString_fits_quoted :
    jsize quotedTree.items = 60 ∧
    ∃ out, toStringFrom exactPrinter none quotedTree.items = some out ∧
      (out.length : ℤ) ≤ jsize quotedTree.items := by
  have hb : Built quotedTree :=
    .obj _ .object (.int _ le_rfl (by norm_num) (.str _ _ .array))
  exact ⟨by decide, jsonToString_fits exactPrinter_lengthOk none _
    ⟨hb.sizedRoot.sized .val, hb.sizedRoot.child, trivial⟩ (by decide)⟩

end Text

end ApeServer.Json
