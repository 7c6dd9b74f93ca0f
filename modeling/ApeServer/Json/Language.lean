import ApeServer.Json.Spelling
import ApeServer.Json.Utf8

/-!
# The language of the parser

The texts `init_json_parser` reads, by a grammar of their own. A string denotes characters, and a
character beyond the first 65536 is written as two escapes. Of what JSON allows, there are no
bytes from 128 on, no exponent after a lone zero and no value that stands alone; besides, a point
needs no digit after it, and a text of blanks is read.
-/
namespace ApeServer.Json

open Sock (Bytes)

variable {F : Type}

/-! ## Strings -/

/-- The escapes of one character. -/
def escapes : List (UInt8 × Char) :=
  [(chr '"', '"'), (chr '\\', '\\'), (chr '/', '/'), (chr 'b', '\x08'), (chr 'f', '\x0c'),
    (chr 'n', '\n'), (chr 'r', '\r'), (chr 't', '\t')]

/-- Four hexadecimal digits. -/
def Quad (h : Bytes) (n : ℕ) : Prop :=
  h.length = 4 ∧ h.foldlM (fun n c => (hexUnit c).map (16 * n + ·)) 0 = some n

/-- The texts of a character in a string. -/
inductive CharText : Char → Bytes → Prop where
  | plain {c : Char} : 32 ≤ c.toNat → c.toNat < 128 → c ≠ '"' → c ≠ '\\' → CharText c [chr c]
  | escape {e : UInt8} {c : Char} : (e, c) ∈ escapes → CharText c [chr '\\', e]
  | unit {c : Char} {h : Bytes} : Quad h c.toNat → CharText c ([chr '\\', chr 'u'] ++ h)
  | pair {c : Char} {h₁ h₂ : Bytes} : 0x10000 ≤ c.toNat →
      Quad h₁ (0xD800 + (c.toNat - 0x10000) / 0x400) →
      Quad h₂ (0xDC00 + (c.toNat - 0x10000) % 0x400) →
      CharText c ([chr '\\', chr 'u'] ++ h₁ ++ ([chr '\\', chr 'u'] ++ h₂))

/-- What stands between quotation marks. -/
inductive CharsText : List Char → Bytes → Prop where
  | nil : CharsText [] []
  | cons {c : Char} {cs : List Char} {b b' : Bytes} : CharText c b → CharsText cs b' →
      CharsText (c :: cs) (b ++ b')

def quoted (b : Bytes) : Bytes := chr '"' :: b ++ [chr '"']

/-! ## Numbers -/

def Digits (b : Bytes) : Prop := ∀ c ∈ b, isDigit c = true

/-- The digits of a whole number. -/
inductive Magnitude : Bytes → Prop where
  | zero : Magnitude [chr '0']
  | digits {c : UInt8} {ds : Bytes} : isDigit c = true → c ≠ chr '0' → Digits ds →
      Magnitude (c :: ds)

def SignText (b : Bytes) : Prop := b = [] ∨ b = [chr '-']

inductive ExponentText : Bytes → Prop where
  | intro {e d : UInt8} {sign ds : Bytes} : e = chr 'e' ∨ e = chr 'E' →
      sign = [] ∨ sign = [chr '+'] ∨ sign = [chr '-'] → isDigit d = true → Digits ds →
      ExponentText (e :: sign ++ d :: ds)

inductive FloatText : Bytes → Prop where
  | point {sign m ds : Bytes} : SignText sign → Magnitude m → Digits ds →
      FloatText (sign ++ m ++ chr '.' :: ds)
  | pointExponent {sign m ds ex : Bytes} : SignText sign → Magnitude m → Digits ds →
      ExponentText ex → FloatText (sign ++ m ++ chr '.' :: ds ++ ex)
  | exponent {sign m ex : Bytes} : SignText sign → Magnitude m → m ≠ [chr '0'] →
      ExponentText ex → FloatText (sign ++ m ++ ex)

/-- The nearest `long long`. -/
def longLong (n : ℤ) : ℤ := max (-2 ^ 63) (min n (2 ^ 63 - 1))

/-- The number as `strtod` is given it, in the locale's spelling. -/
def localized (decimalPoint : UInt8) (b : Bytes) : Bytes :=
  b.map fun c => if c = chr '.' then decimalPoint else c

/-! ## Documents -/

section Documents

variable (decimalPoint : UInt8) (strtod : Bytes → F)

/-- The texts of a value that is no container. -/
inductive ValueText : Scalar F → Bytes → Prop where
  | null : ValueText .null (text "null")
  | true : ValueText .true (text "true")
  | false : ValueText .false (text "false")
  | string {cs : List Char} {b : Bytes} : CharsText cs b →
      ValueText (.string (utf8 cs)) (quoted b)
  | integer {m : Bytes} : Magnitude m → ValueText (.integer (longLong (digitsValue m))) m
  | negative {m : Bytes} : Magnitude m →
      ValueText (.integer (longLong (-digitsValue m))) (chr '-' :: m)
  | float {b : Bytes} : FloatText b → ValueText (.float (strtod (localized decimalPoint b))) b

/-- What a value has in front: blanks, and in an object its name and a colon. -/
inductive MemberText : Kind → Option Bytes → Bytes → Prop where
  | element {w : Bytes} : Blank w → MemberText .arr none w
  | member {cs : List Char} {b w₁ w₂ w₃ : Bytes} : CharsText cs b → Blank w₁ → Blank w₂ →
      Blank w₃ → MemberText .obj (some (utf8 cs)) (w₁ ++ quoted b ++ (w₂ ++ [chr ':']) ++ w₃)

/-- The texts of members or elements, up to the bracket that closes their container; the flag
says that no other stands before them. -/
inductive ItemsText : Kind → Bool → Doc F → Bytes → Prop where
  | close {kind : Kind} {first : Bool} {w : Bytes} : Blank w →
      ItemsText kind first .nil (w ++ closeText kind.childType)
  | scalar {kind : Kind} {first : Bool} {name : Option Bytes} {v : Scalar F} {next : Doc F}
      {sep nm val rest : Bytes} : SepText first sep → MemberText kind name nm →
      ValueText decimalPoint strtod v val → ItemsText kind Bool.false next rest →
      ItemsText kind first (.scalar name v next) (sep ++ nm ++ val ++ rest)
  | node {kind kind' : Kind} {first : Bool} {name : Option Bytes} {child next : Doc F}
      {sep nm inner rest : Bytes} : SepText first sep → MemberText kind name nm →
      ItemsText kind' Bool.true child inner → ItemsText kind Bool.false next rest →
      ItemsText kind first (.node name kind' child next)
        (sep ++ nm ++ openText kind'.childType ++ inner ++ rest)

/-- The texts of a container with the members or elements `d`. -/
def RootText (kind : Kind) (d : Doc F) (b : Bytes) : Prop :=
  ∃ w₁ inner w₂, Blank w₁ ∧ ItemsText decimalPoint strtod kind Bool.true d inner ∧ Blank w₂ ∧
    b = w₁ ++ openText kind.childType ++ inner ++ w₂

end Documents

end ApeServer.Json
