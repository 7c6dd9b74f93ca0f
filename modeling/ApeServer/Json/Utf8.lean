import Mathlib.Data.List.TakeWhile
import ApeServer.Json.RoundTrip

/-!
# Characters beyond ASCII

`init_json_parser` hands its text to the parser one `char` at a time. The bytes of a character
that is not ASCII are negative there, and the parser takes no negative character, in a string or
elsewhere.
-/
namespace ApeServer.Json

open Sock (Bytes)

variable {F σ : Type} {cfg : Config F σ}

/-! ## Texts in UTF-8 -/

/-- A character of one byte. -/
def Ascii (c : Char) : Prop := c.val ≤ 127

instance : DecidablePred Ascii := fun _ => inferInstanceAs (Decidable (_ ≤ _))

def utf8 (text : List Char) : Bytes := text.flatMap String.utf8EncodeChar

theorem le_or_high {k : UInt8} (hk : 128 ≤ k) (x : UInt8) : 128 ≤ x ||| k := by
  rw [UInt8.le_iff_toNat_le] at hk ⊢
  rw [UInt8.toNat_or]
  exact hk.trans Nat.right_le_or

/-- The bytes of any other character are all high. -/
theorem utf8EncodeChar_high {c : Char} (hc : ¬ Ascii c) :
    ∀ b ∈ String.utf8EncodeChar c, 128 ≤ b := by
  rcases c.utf8Size_eq with h | h | h | h
  · exact absurd (Char.utf8Size_eq_one_iff.mp h) hc
  · rw [String.utf8EncodeChar_eq_cons_cons h]
    simp only [List.forall_mem_cons]
    exact ⟨le_or_high (by decide) _, le_or_high (by decide) _, by simp⟩
  · rw [String.utf8EncodeChar_eq_cons_cons_cons h]
    simp only [List.forall_mem_cons]
    exact ⟨le_or_high (by decide) _, le_or_high (by decide) _, le_or_high (by decide) _, by simp⟩
  · rw [String.utf8EncodeChar_eq_cons_cons_cons_cons h]
    simp only [List.forall_mem_cons]
    exact ⟨le_or_high (by decide) _, le_or_high (by decide) _, le_or_high (by decide) _,
      le_or_high (by decide) _, by simp⟩

theorem utf8EncodeChar_ascii {c : Char} (hc : Ascii c) :
    String.utf8EncodeChar c = [c.val.toUInt8] :=
  String.utf8EncodeChar_eq_singleton (Char.utf8Size_eq_one_iff.mpr hc)

theorem utf8EncodeChar_nonzero {c : Char} (hc : c ≠ '\x00') :
    ∀ b ∈ String.utf8EncodeChar c, b ≠ 0 := by
  by_cases ha : Ascii c
  · rw [utf8EncodeChar_ascii ha]
    intro b hb hzero
    rw [List.mem_singleton.mp hb] at hzero
    have hval : c.val.toNat < 128 := Nat.lt_succ_of_le (UInt32.le_iff_toNat_le.mp ha)
    have htoNat := congrArg UInt8.toNat hzero
    rw [UInt32.toNat_toUInt8] at htoNat
    have hz : c.val.toNat = 0 := by
      change c.val.toNat % 256 = 0 at htoNat
      omega
    exact hc (Char.ext (UInt32.toNat_inj.mp hz))
  · rintro b hb rfl
    exact absurd (utf8EncodeChar_high ha 0 hb) (by decide)

/-! ## Letters in their place -/

/-- An ASCII letter for every character. -/
structure Letters where
  letter : Char → UInt8
  isLetter : ∀ c, 65 ≤ letter c ∧ letter c ≤ 90 ∨ 97 ≤ letter c ∧ letter c ≤ 122

/-- The text with a letter for each character that is not ASCII. -/
def Letters.replaced (l : Letters) (text : List Char) : Bytes :=
  text.map fun c => if Ascii c then c.val.toUInt8 else l.letter c

/-- A text, and one that has letters for some of its characters that are not ASCII. -/
inductive Letters.Replaces (l : Letters) : Bytes → Bytes → Prop where
  | nil : l.Replaces [] []
  | byte {s s' : Bytes} (c : UInt8) : l.Replaces s s' → l.Replaces (c :: s) (c :: s')
  | char {s s' : Bytes} {c : Char} : ¬ Ascii c → l.Replaces s s' →
      l.Replaces (String.utf8EncodeChar c ++ s) (l.letter c :: s')

/-- The same items, with letters in their keys and strings. -/
def Items.Replaces (l : Letters) : Items F → Items F → Prop
  | nil, nil => True
  | cons f child next, cons f' child' next' =>
    Option.Rel l.Replaces f.key f'.key ∧ Option.Rel l.Replaces f.str f'.str ∧
      f.integer = f'.integer ∧ f.float = f'.float ∧ f.type = f'.type ∧
      f.childType = f'.childType ∧ child.Replaces l child' ∧ next.Replaces l next'
  | _, _ => False

/-- The keys and strings of a tree, in the order of its text. -/
def Items.texts : Items F → Bytes
  | nil => []
  | cons f child next => f.key.getD [] ++ f.str.getD [] ++ child.texts ++ next.texts

theorem Letters.Replaces.refl (l : Letters) (s : Bytes) : l.Replaces s s := by
  induction s with
  | nil => exact .nil
  | cons c s ih => exact .byte c ih

theorem Items.Replaces.refl (l : Letters) (t : Items F) : t.Replaces l t := by
  have hrel : ∀ o : Option Bytes, Option.Rel l.Replaces o o := by
    intro o
    cases o with
    | none => exact .none
    | some s => exact .some (.refl l s)
  induction t with
  | nil => trivial
  | cons f child next ihc ihn => exact ⟨hrel _, hrel _, rfl, rfl, rfl, rfl, ihc, ihn⟩

theorem Letters.replaced_ascii (l : Letters) {text : List Char} (ht : ∀ c ∈ text, Ascii c) :
    l.replaced text = utf8 text := by
  induction text with
  | nil => rfl
  | cons c text ih =>
    obtain ⟨hc, ht⟩ := List.forall_mem_cons.mp ht
    have hhead : utf8 (c :: text) = c.val.toUInt8 :: utf8 text := by
      rw [utf8, List.flatMap_cons, utf8EncodeChar_ascii hc]
      rfl
    rw [hhead, ← ih ht, Letters.replaced, List.map_cons, if_pos hc]
    rfl

theorem utf8_ascii_filter {text : List Char} (ht : ∀ c ∈ text, Ascii c) :
    (utf8 text).filter (128 ≤ ·) = [] := by
  rw [List.filter_eq_nil_iff]
  intro b hb
  obtain ⟨c, hc, hb⟩ := List.mem_flatMap.mp hb
  rw [utf8EncodeChar_ascii (ht c hc), List.mem_singleton] at hb
  subst hb
  have hval : c.val.toNat ≤ 127 := UInt32.le_iff_toNat_le.mp (ht c hc)
  have htoNat : c.val.toUInt8.toNat = c.val.toNat % 256 := UInt32.toNat_toUInt8 _
  simp only [decide_eq_true_eq, UInt8.le_iff_toNat_le, htoNat]
  change ¬ 128 ≤ _
  omega

/-! ## The parser -/

/-- A text that the parser takes has no high byte. -/
theorem run_low {jc jc' : Parser σ} {b : Bytes} (h : run cfg jc b = some jc') :
    ∀ c ∈ b, c < 128 := by
  induction b generalizing jc with
  | nil => exact fun c hc => absurd hc List.not_mem_nil
  | cons c b ih =>
    rw [run_cons] at h
    obtain ⟨jc₁, hchar, hrest⟩ := Option.bind_eq_some_iff.mp h
    refine List.forall_mem_cons.mpr ⟨?_, ih hrest⟩
    by_contra hc
    have hlen : asciiClass[c.toNat]? = none := by
      rw [List.getElem?_eq_none_iff]
      exact UInt8.le_iff_toNat_le.mp (UInt8.not_lt.mp hc)
    rw [Parser.jsonParserChar, hlen] at hchar
    cases hchar

/-- A text that is accepted with a letter for each character that is not ASCII is accepted itself,
with the bytes of these characters in its keys and strings, if and only if there are none. -/
theorem utf8_accepted_iff [Zero F] (l : Letters) (decimalPoint : UInt8) (strtod : Bytes → F)
    {text : List Char} (hnul : ∀ c ∈ text, c ≠ '\x00') {h' : Heap F} {head' : Option ℕ}
    {items' : Items F} (hin : initJsonParser decimalPoint strtod (l.replaced text) =
      some (h', head')) (hholds : Holds h' none head' items') :
    (∃ h head items, initJsonParser decimalPoint strtod (utf8 text) = some (h, head) ∧
      Holds h none head items ∧ items.Replaces l items' ∧
      ((utf8 text).filter (128 ≤ ·)).Sublist items.texts) ↔
    ∀ c ∈ text, Ascii c := by
  constructor
  · rintro ⟨h, head, items, haccept, -⟩ c hc
    by_contra hhigh
    have hwhole : (utf8 text).takeWhile (· ≠ 0) = utf8 text := by
      rw [List.takeWhile_eq_self_iff]
      intro b hb
      obtain ⟨d, hd, hb⟩ := List.mem_flatMap.mp hb
      simpa using utf8EncodeChar_nonzero (hnul d hd) b hb
    rw [initJsonParser, hwhole, Option.bind_eq_bind, Option.bind_eq_some_iff] at haccept
    obtain ⟨jc, hrun, -⟩ := haccept
    obtain ⟨b, hb⟩ := List.exists_mem_of_ne_nil (String.utf8EncodeChar c)
      (by rw [← List.length_pos_iff, String.length_utf8EncodeChar]; exact c.utf8Size_pos)
    have hlow := run_low hrun b (List.mem_flatMap.mpr ⟨c, hc, hb⟩)
    exact absurd (utf8EncodeChar_high hhigh b hb) (UInt8.not_le.mpr hlow)
  · intro hascii
    rw [l.replaced_ascii hascii] at hin
    refine ⟨h', head', items', hin, hholds, .refl l items', ?_⟩
    rw [utf8_ascii_filter hascii]
    exact List.nil_sublist _

/-- An `e` for every character. -/
def plainLetters : Letters := ⟨fun _ => chr 'e', fun _ => .inr (by decide)⟩

/-- `["é"]`. -/
def accentedText : List Char := ['[', '"', '\u00e9', '"', ']']

theorem plain_accepted : ∃ (h : Heap ℤ) (head : Option ℕ),
    initJsonParser 46 (fun _ => 0) (plainLetters.replaced accentedText) = some (h, head) ∧
    Holds h none head (Doc.node none .arr (.scalar none (.string (text "e")) .nil) .nil).items := by
  have htext : plainLetters.replaced accentedText =
      openText Kind.arr.childType ++
        (Doc.scalar none (.string (text "e")) .nil).text exactPrinter .arr := by
    decide
  rw [htext]
  exact document_accepted exactPrinter_lengthOk 46 (fun _ => 0)
    ⟨trivial, by simp [Scalar.Clean, text, IsPrintable, chr], trivial⟩ rfl (by decide)

theorem utf8_accepted_accented : ∃ (h' : Heap ℤ) (head' : Option ℕ) (items' : Items ℤ),
    ((∃ h head items, initJsonParser 46 (fun _ => 0) (utf8 accentedText) = some (h, head) ∧
      Holds h none head items ∧ items.Replaces plainLetters items' ∧
      ((utf8 accentedText).filter (128 ≤ ·)).Sublist items.texts) ↔
    ∀ c ∈ accentedText, Ascii c) ∧ Holds h' none head' items' := by
  obtain ⟨h', head', hin, hholds⟩ := plain_accepted
  exact ⟨h', head', _,
    utf8_accepted_iff plainLetters 46 (fun _ => 0) (by simp [accentedText]) hin hholds, hholds⟩

/-- `["é"]` is refused, though `["e"]` is accepted. -/
theorem accented_refused :
    (∃ (h : Heap ℤ) (head : Option ℕ), initJsonParser 46 (fun _ => 0)
      (plainLetters.replaced accentedText) = some (h, head)) ∧
    initJsonParser 46 (fun _ => (0 : ℤ)) (utf8 accentedText) = none := by
  constructor
  · obtain ⟨h, head, hin, -⟩ := plain_accepted
    exact ⟨h, head, hin⟩
  · exact Option.isNone_iff_eq_none.mp (by decide)

end ApeServer.Json
