import ApeServer.Json.Document

/-!
# The text of a document

What `json_to_string` writes for a tree that was built. `itos` writes the digits of an integer
from the last one on, and what it leaves in its buffer is the decimal text.
-/
namespace ApeServer.Json

open Sock (Bytes)

variable {F : Type}

/-! ## Integers -/

/-- The digits of a number, each written by `g`. -/
def digitsText (g : ℕ → UInt8) (m : ℕ) : Bytes := ((Nat.digits 10 m).map g).reverse

def digitChar (d : ℕ) : UInt8 := UInt8.ofNat (48 + d)

def decimal (n : ℤ) : Bytes :=
  if n < 0 then chr '-' :: digitsText digitChar n.natAbs
  else if n = 0 then text "0"
  else digitsText digitChar n.natAbs

/-- The length `LENGTH_N` gives is at least the number of digits. -/
def LengthOk (log10 : ℤ → ℕ) : Prop :=
  ∀ n : ℤ, n ≠ 0 → (Nat.digits 10 n.natAbs).length ≤ lengthN log10 n

theorem digitsText_succ (g : ℕ → UInt8) {m : ℕ} (hm : m ≠ 0) :
    digitsText g m = digitsText g (m / 10) ++ [g (m % 10)] := by
  rw [digitsText, Nat.digits_def' (by omega) (by omega)]
  simp [digitsText]

/-- The loop of `itos` sees `inp m` for a number `m` and writes its digits with `g`. -/
structure Writes (inp : ℕ → ℤ) (g : ℕ → UInt8) : Prop where
  zero : ∀ m, inp m = 0 ↔ m = 0
  div : ∀ m, (inp m).tdiv 10 = inp (m / 10)
  mod : ∀ m, UInt8.ofNat ((48 + (inp m).tmod 10) % 256).toNat = g (m % 10)

theorem writes_nat : Writes (fun m => (m : ℤ)) digitChar := by
  refine ⟨fun m => by omega, fun m => ?_, fun m => ?_⟩
  · rw [Int.tdiv_eq_ediv_of_nonneg (by omega)]
    omega
  · rw [Int.tmod_eq_emod_of_nonneg (by omega), digitChar]
    congr 1
    omega

/-- The least integer is its own negative, and its digits are written below `'0'`. -/
theorem writes_neg : Writes (fun m => -(m : ℤ)) (fun d => UInt8.ofNat (48 - d)) := by
  refine ⟨fun m => by omega, fun m => ?_, fun m => ?_⟩
  · rw [Int.neg_tdiv, Int.tdiv_eq_ediv_of_nonneg (by omega)]
    omega
  · rw [Int.neg_tmod, Int.tmod_eq_emod_of_nonneg (by omega)]
    congr 1
    omega

/-- It leaves the digits in front of what is in the buffer already. -/
theorem Writes.itosDigits {inp : ℕ → ℤ} {g : ℕ → UInt8} (hw : Writes inp g) (free m : ℕ)
    (output : Bytes) (hfree : (Nat.digits 10 m).length ≤ free) (hlen : free ≤ output.length) :
    ∃ output', itosDigits free (inp m) output =
        some (free - (Nat.digits 10 m).length, output') ∧ output'.length = output.length ∧
      output'.drop (free - (Nat.digits 10 m).length) = digitsText g m ++ output.drop free := by
  induction free generalizing m output with
  | zero =>
    have hm : m = 0 := by
      rw [← Nat.digits_eq_nil_iff_eq_zero (b := 10)]
      exact List.length_eq_zero_iff.mp (by omega)
    subst hm
    exact ⟨output, by simp [Json.itosDigits, (hw.zero 0).mpr rfl], rfl, by simp [digitsText]⟩
  | succ free ih =>
    by_cases hm : m = 0
    · subst hm
      exact ⟨output, by simp [Json.itosDigits, (hw.zero 0).mpr rfl], rfl, by simp [digitsText]⟩
    have hdigits : (Nat.digits 10 m).length = (Nat.digits 10 (m / 10)).length + 1 := by
      rw [Nat.digits_def' (by omega) (by omega)]
      rfl
    obtain ⟨output', hrun, hlen', hdrop⟩ := ih (m / 10) (output.set free (g (m % 10)))
      (by omega) (by rw [List.length_set]; omega)
    rw [hdigits, Nat.add_sub_add_right]
    refine ⟨output', ?_, by rw [hlen', List.length_set], ?_⟩
    · rw [Json.itosDigits, if_neg (by rw [hw.zero]; exact hm), hw.div, hw.mod]
      exact hrun
    · rw [hdrop, digitsText_succ g hm, List.append_assoc]
      congr 1
      rw [List.drop_eq_getElem_cons (by rw [List.length_set]; omega), List.getElem_set_self,
        List.drop_set_of_lt (by omega)]
      rfl

theorem length_digitsText (g : ℕ → UInt8) (m : ℕ) :
    (digitsText g m).length = (Nat.digits 10 m).length := by
  simp [digitsText]

/-- A digit. -/
def IsDigit (c : UInt8) : Prop := ∃ d < 10, c = digitChar d

theorem digitsText_digits {m : ℕ} {c : UInt8} (hc : c ∈ digitsText digitChar m) : IsDigit c := by
  rw [digitsText, List.mem_reverse, List.mem_map] at hc
  obtain ⟨d, hd, rfl⟩ := hc
  exact ⟨d, Nat.digits_lt_base (by omega) hd, rfl⟩

theorem digitChar_isDigit {d : ℕ} (hd : d < 10) : isDigit (digitChar d) = true := by
  interval_cases d <;> decide

theorem digitsText_isDigit {m : ℕ} : ∀ c ∈ digitsText digitChar m, isDigit c = true := by
  intro c hc
  obtain ⟨d, hd, rfl⟩ := digitsText_digits hc
  exact digitChar_isDigit hd

/-- The first digit is not a zero. -/
theorem digitsText_cons {m : ℕ} (hm : m ≠ 0) :
    ∃ d b, d ≠ 0 ∧ d < 10 ∧ digitsText digitChar m = digitChar d :: b := by
  induction m using Nat.strong_induction_on with
  | _ m ih =>
    rw [digitsText_succ digitChar hm]
    by_cases h0 : m / 10 = 0
    · refine ⟨m % 10, [], by omega, by omega, ?_⟩
      rw [h0]
      rfl
    · obtain ⟨d, b, hd, hlt, hb⟩ := ih (m / 10) (by omega) h0
      exact ⟨d, b ++ [digitChar (m % 10)], hd, hlt, by rw [hb]; rfl⟩

variable {log10 : ℤ → ℕ} {n : ℤ}

/-- The text that is copied from the buffer of a negative integer. -/
theorem integerText_neg {inp : ℕ → ℤ} {g : ℕ → UInt8} (hw : Writes inp g) (hl : LengthOk log10)
    (hn : n < 0) (hinp : negate n = inp n.natAbs) :
    integerText log10 n = some (chr '-' :: digitsText g n.natAbs) := by
  have hlen := hl n (by omega)
  set l := lengthN log10 n with hldef
  obtain ⟨output, hrun, hlength, hdrop⟩ := hw.itosDigits (l + 1) n.natAbs
    (List.replicate (l + 2) 0) (by omega) (by simp)
  obtain ⟨free, hfree⟩ : ∃ free, l + 1 - (Nat.digits 10 n.natAbs).length = free + 1 :=
    ⟨l - (Nat.digits 10 n.natAbs).length, by omega⟩
  rw [hfree] at hrun hdrop
  rw [List.length_replicate] at hlength
  have hitos : itos n (l + 2) = some (free, output.set free (chr '-')) := by
    simp [itos, hn, hinp, hrun]
  have hslice : (output.set free (chr '-')).drop free =
      (chr '-' :: digitsText g n.natAbs) ++ [0] := by
    rw [List.drop_eq_getElem_cons (by rw [List.length_set]; omega), List.getElem_set_self,
      List.drop_set_of_lt (by omega), hdrop, List.drop_replicate,
      show l + 2 - (l + 1) = 1 by omega]
    rfl
  have hcopy : l + 2 - 1 - free = (chr '-' :: digitsText g n.natAbs).length := by
    rw [List.length_cons, length_digitsText]
    omega
  rw [integerText, ← hldef]
  simp only [hitos, Option.bind_eq_bind, Option.bind_some, hslice, hcopy, List.take_left,
    Option.pure_def]

/-- The text of an integer does not depend on how long the buffer is. -/
theorem integerText_eq (hl : LengthOk log10) (h0 : n ≠ 0) (hmin : n ≠ -2 ^ 63) :
    integerText log10 n = some (decimal n) := by
  by_cases hneg : n < 0
  · have hinp : negate n = (n.natAbs : ℤ) := by
      rw [negate, if_neg hmin]
      omega
    rw [integerText_neg writes_nat hl hneg hinp, decimal, if_pos hneg]
  have hlen := hl n h0
  set l := lengthN log10 n with hldef
  obtain ⟨output, hrun, -, hdrop⟩ := writes_nat.itosDigits (l + 1) n.natAbs
    (List.replicate (l + 2) 0) (by omega) (by simp)
  have hitos : itos n (l + 2) = some (l + 1 - (Nat.digits 10 n.natAbs).length, output) := by
    rw [show ((n.natAbs : ℕ) : ℤ) = n by omega] at hrun
    simp [itos, hneg, hrun]
  have hslice : output.drop (l + 1 - (Nat.digits 10 n.natAbs).length) =
      digitsText digitChar n.natAbs ++ [0] := by
    rw [hdrop, List.drop_replicate, show l + 2 - (l + 1) = 1 by omega]
    rfl
  have hcopy : l + 2 - 1 - (l + 1 - (Nat.digits 10 n.natAbs).length) =
      (digitsText digitChar n.natAbs).length := by
    rw [length_digitsText]
    omega
  rw [integerText, ← hldef]
  simp only [hitos, Option.bind_eq_bind, Option.bind_some, hslice, hcopy, List.take_left,
    Option.pure_def, decimal, if_neg hneg, if_neg h0]

/-- The least integer has a text that is none. -/
theorem integerText_min (hl : LengthOk log10) :
    integerText log10 (-2 ^ 63) =
      some (chr '-' :: digitsText (fun d => UInt8.ofNat (48 - d)) (2 ^ 63)) :=
  integerText_neg writes_neg hl (by norm_num) (by rfl)

/-- A logarithm that is exact, and floats that are integers. -/
def exactPrinter : Printer ℤ where
  log10 n := (Nat.digits 10 n.natAbs).length - 1
  format n := decimal n ++ text ".000000"

theorem exactPrinter_lengthOk : LengthOk exactPrinter.log10 := by
  intro n hn
  rw [lengthN]
  split
  · have hlt : n.natAbs < 10 := by omega
    rw [Nat.digits_of_lt 10 n.natAbs (by omega) hlt]
    exact le_rfl
  · change _ ≤ (Nat.digits 10 n.natAbs).length - 1 + 1
    omega

/-! ## Trees that were built -/

namespace Doc

variable [Zero F]

/-- The fields a property is built with: as those of a parsed value, but with no integer for
`true`. -/
def property (name : Option Bytes) : Scalar F → Fields F
  | .true => { initJsonItem with key := name, type := some .true }
  | v => v.fields name

/-- The items the functions of `json.c` build for the members or elements. -/
def built : Doc F → Items F
  | nil => .nil
  | scalar name v next => .cons (property name v) .nil next.built
  | node name kind child next => .cons (kind.fields name) child.built next.built

omit [Zero F] in
def append : Doc F → Doc F → Doc F
  | nil, e => e
  | scalar name v next, e => scalar name v (next.append e)
  | node name kind child next, e => node name kind child (next.append e)

theorem built_append_scalar (d : Doc F) (name : Option Bytes) (v : Scalar F) :
    (d.append (scalar name v nil)).built = d.built.snoc ⟨property name v, .nil⟩ := by
  induction d with
  | nil => rfl
  | scalar name v next ih => rw [append, built, ih, built, Items.snoc]
  | node name kind child next _ ih => rw [append, built, ih, built, Items.snoc]

theorem built_append_node (d : Doc F) (name : Option Bytes) (kind : Kind) (child : Doc F) :
    (d.append (node name kind child nil)).built =
      d.built.snoc ⟨kind.fields name, child.built⟩ := by
  induction d with
  | nil => rfl
  | scalar name v next ih => rw [append, built, ih, built, Items.snoc]
  | node name kind child next _ ih => rw [append, built, ih, built, Items.snoc]

end Doc

section Built

variable [Zero F]

/-- A tree that was built is a container with the members or elements of a document. -/
theorem Built.doc {j : Item F} (h : Built j) :
    ∃ kind d, j = ⟨Kind.fields none kind, Doc.built d⟩ := by
  have hscalar : ∀ {o : Item F} (key : Option Bytes) (v : Scalar F),
      (∃ kind d, o = ⟨Kind.fields none kind, Doc.built d⟩) →
      ∃ kind d, o.append ⟨Doc.property (key.map copyText) v, .nil⟩ =
        ⟨Kind.fields none kind, Doc.built d⟩ := by
    rintro o key v ⟨kind, d, rfl⟩
    exact ⟨kind, d.append (.scalar (key.map copyText) v .nil), by
      rw [Doc.built_append_scalar, Item.append]⟩
  induction h with
  | object => exact ⟨.obj, .nil, rfl⟩
  | array => exact ⟨.arr, .nil, rfl⟩
  | obj key _ _ iho ihv =>
    obtain ⟨kind, d, rfl⟩ := iho
    obtain ⟨kind', d', rfl⟩ := ihv
    refine ⟨kind, d.append (.node (key.map copyText) kind' d' .nil), ?_⟩
    rw [Doc.built_append_node, jsonSetPropertyObj, Item.append]
    cases key <;> rfl
  | int key _ _ _ ih => exact hscalar key (.integer _) ih
  | float key x _ ih => exact hscalar key (.float x) ih
  | boolean key b _ ih =>
    cases b with
    | false => exact hscalar key .false ih
    | true => exact hscalar key .true ih
  | null key _ ih => exact hscalar key .null ih
  | str key s _ ih => exact hscalar key (.string (copyText s)) ih

end Built

/-! ## Their text -/

section Text

variable [Zero F] [DecidableEq F]

def Scalar.text (P : Printer F) : Scalar F → Bytes
  | integer n => if n = 0 then Json.text "0" else (integerText P.log10 n).getD []
  | float x => if x = 0 then Json.text "0" else (P.format x).take 16
  | null => Json.text "null"
  | true => Json.text "true"
  | false => Json.text "false"
  | string s => Json.text "\"" ++ escapeJsonString s ++ Json.text "\""

namespace Doc

def isNil : Doc F → Bool
  | nil => true
  | _ => false

/-- What follows a member or an element of the container. -/
def after (kind : Kind) : Doc F → Bytes
  | nil => closeText kind.childType
  | _ => Json.text ","

omit [Zero F] [DecidableEq F] in
theorem after_comma {d : Doc F} (hn : d.isNil = false) (kind : Kind) : d.after kind = [chr ','] := by
  cases d with
  | nil => cases hn
  | scalar _ _ _ => rfl
  | node _ _ _ _ => rfl

/-- The text from a member or an element on, to the bracket that closes the container. -/
def text (P : Printer F) (kind : Kind) : Doc F → Bytes
  | nil => []
  | scalar name v next => keyText name ++ v.text P ++ next.after kind ++ next.text P kind
  | node name kind' child next =>
    keyText name ++
      (if child.isNil then Json.text "0" else openText kind'.childType ++ child.text P kind') ++
      next.after kind ++ next.text P kind

end Doc

theorem integerText_getD {log10 : ℤ → ℕ} (hl : LengthOk log10) {n : ℤ} (h0 : n ≠ 0) :
    integerText log10 n = some ((integerText log10 n).getD []) := by
  by_cases hmin : n = -2 ^ 63
  · rw [hmin, integerText_min hl]
    rfl
  · rw [integerText_eq hl h0 hmin]
    rfl

variable {P : Printer F}

theorem valueText_property (hl : LengthOk P.log10) (name : Option Bytes) (v : Scalar F) :
    valueText P (Doc.property name v) .nil = some (v.text P) := by
  cases v with
  | integer n =>
    by_cases h0 : n = 0
    · simp [valueText, Doc.property, Scalar.fields, Scalar.text, initJsonItem, h0]
    · simpa [valueText, Doc.property, Scalar.fields, Scalar.text, initJsonItem, h0] using
        integerText_getD hl h0
  | float x =>
    by_cases h0 : x = 0
    · simp [valueText, Doc.property, Scalar.fields, Scalar.text, initJsonItem, h0]
    · simp [valueText, Doc.property, Scalar.fields, Scalar.text, initJsonItem, h0]
  | null => simp [valueText, Doc.property, Scalar.fields, Scalar.text, initJsonItem]
  | true => simp [valueText, Doc.property, Scalar.text, initJsonItem]
  | false => simp [valueText, Doc.property, Scalar.fields, Scalar.text, initJsonItem]
  | string s => simp [valueText, Doc.property, Scalar.fields, Scalar.text, initJsonItem]

/-- A container without children is printed as a number. -/
theorem valueText_container (name : Option Bytes) (kind : Kind) (d : Doc F) :
    valueText P (kind.fields name) d.built = some (if d.isNil then text "0" else []) := by
  cases d <;> simp [valueText, Kind.fields, initJsonItem, Doc.built, Doc.isNil]

omit [DecidableEq F] in
theorem property_key (name : Option Bytes) (v : Scalar F) :
    (Doc.property name v).key = name := by
  cases v <;> rfl

omit [DecidableEq F] in
@[simp] theorem Kind.childType_fields (name : Option Bytes) (kind : Kind) :
    (kind.fields name : Fields F).childType = kind.childType := rfl

omit [DecidableEq F] in
@[simp] theorem Kind.key_fields (name : Option Bytes) (kind : Kind) :
    (kind.fields name : Fields F).key = name := rfl

omit [DecidableEq F] in
theorem afterText_built (kind : Kind) (d : Doc F) :
    afterText (some kind.childType) d.built = d.after kind := by
  cases d <;> rfl

/-- `json_to_string` writes the text of the document. -/
theorem toStringFrom_built (hl : LengthOk P.log10) (kind : Kind) (d : Doc F) :
    toStringFrom P (some kind.childType) d.built = some (d.text P kind) := by
  induction d generalizing kind with
  | nil => rfl
  | scalar name v next ih =>
    simp only [Doc.built, toStringFrom, valueText_property hl, ih kind, Option.bind_eq_bind,
      Option.bind_some, Option.pure_def, property_key, afterText_built, if_true,
      List.append_nil, Doc.text]
  | node name kind' child next ihc ihn =>
    rw [Doc.built, toStringFrom, valueText_container]
    simp only [Kind.childType_fields, Kind.key_fields, ihc kind', ihn kind, afterText_built,
      Option.bind_eq_bind, Option.bind_some, Option.pure_def, Doc.text]
    cases child with
    | nil => simp [Doc.built, Doc.isNil, Doc.text]
    | scalar _ _ _ => simp [Doc.built, Doc.isNil]
    | node _ _ _ _ => simp [Doc.built, Doc.isNil]

/-- `json_to_string` of a whole document. -/
theorem jsonToString_built (hl : LengthOk P.log10) (kind : Kind) (d : Doc F) :
    jsonToString P ⟨kind.fields none, d.built⟩ =
      some (if d.isNil then text "0" else openText kind.childType ++ d.text P kind) := by
  rw [jsonToString, toStringFrom, valueText_container]
  simp only [Kind.childType_fields, Kind.key_fields, toStringFrom_built hl kind d,
    Option.bind_eq_bind, Option.bind_some, Option.pure_def, toStringFrom]
  cases d with
  | nil => simp [Doc.built, Doc.isNil, Doc.text, keyText, afterText]
  | scalar _ _ _ => simp [Doc.built, Doc.isNil, keyText, afterText]
  | node _ _ _ _ => simp [Doc.built, Doc.isNil, keyText, afterText]

end Text

end ApeServer.Json
