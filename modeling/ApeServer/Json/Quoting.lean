import Mathlib.Data.List.TakeWhile
import ApeServer.Json.Grammar
import ApeServer.Json.Print

/-!
# Keys, strings and values in a JSON text

`json_to_string` escapes the strings of a tree but writes its keys as they are. A key that holds
a quotation mark or a backslash is never read as itself, and a string with an apostrophe is not
read at all.
-/
namespace ApeServer.Json

open Sock (Bytes)

variable {b k rest rest' : Bytes} {c : UInt8} {name : List ℕ}

/-! ## Keys -/

/-- A character that a string may hold as it is. -/
def IsRaw (c : UInt8) : Prop := 32 ≤ c ∧ c ≠ chr '"' ∧ c ≠ chr '\\'

instance : DecidablePred IsRaw := fun _ => inferInstanceAs (Decidable (_ ∧ _))

theorem readString_quote : readString (chr '"' :: rest) = some ([], rest) := by
  rw [readString.eq_def]
  exact if_pos rfl

theorem readString_raw (hc : IsRaw c) :
    readString (c :: rest) = (readString rest).map fun r => (c.toNat :: r.1, r.2) := by
  obtain ⟨hlow, hquote, hback⟩ := hc
  rw [readString.eq_def]
  dsimp only
  rw [if_neg hquote, if_neg (by simpa using hlow), if_neg hback]
  cases readString rest <;> rfl

/-- A key without quotation marks, backslashes and control characters is read as itself. -/
theorem readString_key (hk : ∀ c ∈ k, IsRaw c) :
    readString (k ++ chr '"' :: rest) = some (units k, rest) := by
  induction k with
  | nil => exact readString_quote
  | cons c k ih =>
    rw [List.cons_append, readString_raw (hk c List.mem_cons_self),
      ih fun c hc => hk c (List.mem_cons_of_mem _ hc)]
    rfl

theorem hexUnit_quote {u : ℕ} (h : hexUnit c = some u) : c ≠ chr '"' := by
  rintro rfl
  cases h

/-- What the first character of a string does when it is read. -/
theorem readString_cons (h : readString (c :: b) = some (name, rest)) (hq : c ≠ chr '"') :
    (IsRaw c ∧ ∃ name', readString b = some (name', rest) ∧ name = c.toNat :: name') ∨
    (c = chr '\\' ∧ ((∃ e b' u name', b = e :: b' ∧ escapeUnit e = some u ∧
        readString b' = some (name', rest) ∧ name = u :: name') ∨
      ∃ x₁ x₂ x₃ x₄ b' u name', b = chr 'u' :: x₁ :: x₂ :: x₃ :: x₄ :: b' ∧
        (∀ x ∈ [x₁, x₂, x₃, x₄], x ≠ chr '"') ∧ readString b' = some (name', rest) ∧
        name = u :: name')) := by
  rw [readString.eq_def] at h
  dsimp only at h
  rw [if_neg hq] at h
  split at h
  · cases h
  rename_i hlow
  split at h
  · rename_i hback
    refine .inr ⟨hback, ?_⟩
    split at h
    · cases h
    rename_i e b'
    split at h
    · rename_i he
      subst he
      split at h
      · rename_i x₁ x₂ x₃ x₄ b''
        simp only [Option.bind_eq_bind, Option.bind_eq_some_iff, Option.pure_def,
          Option.some.injEq] at h
        obtain ⟨u₁, h₁, u₂, h₂, u₃, h₃, u₄, h₄, ⟨name', r⟩, hs, hr⟩ := h
        cases hr
        refine .inr ⟨x₁, x₂, x₃, x₄, b'', _, name', rfl, ?_, hs, rfl⟩
        simp [hexUnit_quote h₁, hexUnit_quote h₂, hexUnit_quote h₃, hexUnit_quote h₄]
      · cases h
    · simp only [Option.bind_eq_bind, Option.bind_eq_some_iff, Option.pure_def,
        Option.some.injEq] at h
      obtain ⟨u, hu, ⟨name', r⟩, hs, hr⟩ := h
      cases hr
      exact .inl ⟨e, b', u, name', rfl, hu, hs, rfl⟩
  · rename_i hback
    refine .inl ⟨⟨by simpa using hlow, hq, hback⟩, ?_⟩
    cases hb : readString b with
    | none =>
      rw [hb] at h
      cases h
    | some r =>
      rw [hb] at h
      cases h
      exact ⟨r.1, rfl, rfl⟩

/-- A name that is not the key: it is shorter, or has a quotation mark within its length. -/
def Differs (name : List ℕ) (k : Bytes) : Prop :=
  name.length < k.length ∨ ∃ i < k.length, name[i]? = some 34

theorem Differs.ne (h : Differs name k) (hk : ∀ c ∈ k, c ≠ chr '"') : name ≠ units k := by
  rintro rfl
  obtain h | ⟨i, -, hi⟩ := h
  · simp [units] at h
  · rw [units, List.getElem?_map, Option.map_eq_some_iff] at hi
    obtain ⟨c, hc, hu⟩ := hi
    exact hk c (List.mem_of_getElem? hc) (UInt8.toNat_inj.mp hu)

/-- What was read of a rest without quotation marks. -/
def ReadAs (name : List ℕ) (k rest rest' : Bytes) : Prop :=
  (∀ c ∈ k, IsRaw c) ∧ name = units k ∧ rest' = rest ∨ Differs name k

/-- A character that was read as itself. -/
theorem ReadAs.cons (h : ReadAs name k rest rest') (hc : IsRaw c) :
    ReadAs (c.toNat :: name) (c :: k) rest rest' := by
  obtain ⟨hk, hn, hr⟩ | h | ⟨i, hi, h⟩ := h
  · refine .inl ⟨fun d hd => ?_, by rw [hn]; rfl, hr⟩
    obtain rfl | hd := List.mem_cons.mp hd
    · exact hc
    · exact hk d hd
  · exact .inr (.inl (by simpa using h))
  · exact .inr (.inr ⟨i + 1, by simpa using hi, h⟩)

/-- An escape, which is longer than what it stands for. -/
theorem ReadAs.skip {k' : Bytes} (h : ReadAs name k rest rest') (u : ℕ)
    (hlen : k.length + 2 ≤ k'.length) : Differs (u :: name) k' := by
  obtain ⟨-, hn, -⟩ | h | ⟨i, hi, h⟩ := h
  · refine .inl ?_
    rw [hn, List.length_cons, units, List.length_map]
    omega
  · refine .inl ?_
    rw [List.length_cons]
    omega
  · exact .inr ⟨i + 1, by omega, h⟩

theorem cons_append_quote {e : UInt8} (h : k ++ chr '"' :: rest = e :: b) (he : e ≠ chr '"') :
    ∃ k', k = e :: k' ∧ b = k' ++ chr '"' :: rest := by
  cases k with
  | nil =>
    cases h
    exact absurd rfl he
  | cons c k =>
    cases h
    exact ⟨k, rfl, rfl⟩

/-- A text without quotation marks is read as itself, or differs from what is read. -/
theorem readString_escaped (hk : ∀ c ∈ k, c ≠ chr '"')
    (h : readString (k ++ chr '"' :: rest) = some (name, rest')) : ReadAs name k rest rest' := by
  induction hn : k.length using Nat.strong_induction_on generalizing k name with
  | _ n ih =>
    subst hn
    cases k with
    | nil =>
      rw [List.nil_append, readString_quote] at h
      cases h
      exact .inl ⟨by simp, rfl, rfl⟩
    | cons c k =>
      have hk' : ∀ d ∈ k, d ≠ chr '"' := fun d hd => hk d (List.mem_cons_of_mem _ hd)
      obtain ⟨hraw, name', hs, rfl⟩ | ⟨hback, ⟨e, b', u, name', hb, hu, hs, rfl⟩ |
        ⟨x₁, x₂, x₃, x₄, b', u, name', hb, hx, hs, rfl⟩⟩ :=
        readString_cons h (hk c List.mem_cons_self)
      · exact (ih k.length (by simp) hk' hs rfl).cons hraw
      · by_cases he : e = chr '"'
        · -- The backslash is the last character, and escapes the quotation mark after the key.
          subst he
          cases hu
          exact .inr (.inr ⟨0, by simp, rfl⟩)
        · obtain ⟨k', rfl, rfl⟩ := cons_append_quote hb he
          refine .inr ((ih k'.length ?_ (fun d hd => ?_) hs rfl).skip u ?_)
          · simp
          · exact hk' d (List.mem_cons_of_mem _ hd)
          · simp
      · obtain ⟨k₁, rfl, hb₁⟩ := cons_append_quote hb (by decide)
        obtain ⟨k₂, rfl, hb₂⟩ := cons_append_quote hb₁.symm (hx x₁ (by simp))
        obtain ⟨k₃, rfl, hb₃⟩ := cons_append_quote hb₂.symm (hx x₂ (by simp))
        obtain ⟨k₄, rfl, hb₄⟩ := cons_append_quote hb₃.symm (hx x₃ (by simp))
        obtain ⟨k', rfl, rfl⟩ := cons_append_quote hb₄.symm (hx x₄ (by simp))
        refine .inr ((ih k'.length ?_ (fun d hd => ?_) hs rfl).skip u ?_)
        · simp
          omega
        · exact hk' d (by simp [hd])
        · simp

/-- Only a key without quotation marks, backslashes and control characters is read as
itself. -/
theorem readString_own (h : readString (k ++ chr '"' :: rest) = some (units k, rest')) :
    (∀ c ∈ k, IsRaw c) ∧ rest' = rest := by
  by_cases hk : ∀ c ∈ k, c ≠ chr '"'
  · obtain ⟨hraw, -, hr⟩ | hd := readString_escaped hk h
    · exact ⟨hraw, hr⟩
    · exact absurd rfl (hd.ne hk)
  -- The key up to its first quotation mark, where the name ends or a quotation mark is read.
  · simp only [not_forall, not_not] at hk
    obtain ⟨c, hc, rfl⟩ := hk
    obtain ⟨p, q, rfl, hnot⟩ := List.eq_append_cons_of_mem hc
    have hp : ∀ c ∈ p, c ≠ chr '"' := fun c hc he => hnot (he ▸ hc)
    rw [List.append_assoc] at h
    obtain ⟨-, hn, -⟩ | hlt | ⟨i, hi, hq⟩ := readString_escaped hp h
    · have := congrArg List.length hn
      simp [units] at this
    · simp [units] at hlt
    · have hpi : (units p)[i]? = some 34 := by
        rw [units, List.map_append, List.getElem?_append_left (by simpa using hi)] at hq
        exact hq
      exact absurd rfl ((Differs.ne (.inr ⟨i, hi, hpi⟩)) hp)

/-! ## Strings -/

/-- A character that is read back from what `escape_json_string` makes of it. -/
def IsEscaped (c : UInt8) : Prop :=
  c ≠ 39 ∧ (32 ≤ c ∨ c = 8 ∨ c = 9 ∨ c = 10 ∨ c = 12 ∨ c = 13)

instance : DecidablePred IsEscaped := fun _ => inferInstanceAs (Decidable (_ ∧ _))

theorem readString_backslash {e : UInt8} (he : e ≠ chr 'u') :
    readString (chr '\\' :: e :: b) =
      (escapeUnit e).bind fun u => (readString b).map fun r => (u :: r.1, r.2) := by
  rw [readString.eq_def]
  dsimp only
  rw [if_neg (by decide), if_neg (by decide), if_pos rfl, if_neg he]
  cases escapeUnit e with
  | none => rfl
  | some u => cases readString b <;> rfl

theorem readString_control (hc : c < 32) : readString (c :: b) = none := by
  have hq : c ≠ chr '"' := by
    rintro rfl
    exact absurd hc (by decide)
  rw [readString.eq_def]
  dsimp only
  rw [if_neg hq, if_pos hc]

/-- The characters that `escape_json_string` leaves alone. -/
theorem escapeChar_self (hc : c ∉ ([chr '"', chr '\\', 10, 8, 9, 12, 13, 39] : Bytes)) :
    escapeChar c = [c] := by
  simp only [List.mem_cons, List.not_mem_nil, or_false, not_or] at hc
  obtain ⟨hquote, hback, hn, hb, ht, hf, hr, hapos⟩ := hc
  rw [escapeChar, if_neg hquote, if_neg hback, if_neg hn, if_neg hb, if_neg ht, if_neg hf,
    if_neg hr, if_neg hapos]

theorem readString_escapeChar :
    readString (escapeChar c ++ b) =
      if IsEscaped c then (readString b).map fun r => (c.toNat :: r.1, r.2) else none := by
  by_cases hsp : c ∈ ([chr '"', chr '\\', 10, 8, 9, 12, 13, 39] : Bytes)
  · simp only [List.mem_cons, List.not_mem_nil, or_false] at hsp
    obtain rfl | rfl | rfl | rfl | rfl | rfl | rfl | rfl := hsp <;>
      exact readString_backslash (by decide)
  · rw [escapeChar_self hsp, List.singleton_append]
    simp only [List.mem_cons, List.not_mem_nil, or_false, not_or] at hsp
    obtain ⟨hquote, hback, hn, hb, ht, hf, hr, hapos⟩ := hsp
    by_cases hlow : 32 ≤ c
    · rw [readString_raw ⟨hlow, hquote, hback⟩, if_pos ⟨hapos, .inl hlow⟩]
    · rw [readString_control (by simpa using hlow), if_neg]
      rintro ⟨-, h | h | h | h | h | h⟩
      exacts [hlow h, hb h, ht h, hn h, hf h, hr h]

/-- A string is read back from its escaped text, or it is not read at all. -/
theorem readString_escapeJsonString (s : Bytes) :
    ((∀ c ∈ s, IsEscaped c) →
      readString (escapeJsonString s ++ chr '"' :: rest) = some (units s, rest)) ∧
    ((¬ ∀ c ∈ s, IsEscaped c) →
      readString (escapeJsonString s ++ chr '"' :: rest) = none) := by
  induction s with
  | nil => exact ⟨fun _ => readString_quote, fun h => absurd (by simp) h⟩
  | cons c s ih =>
    have hread : readString (escapeJsonString (c :: s) ++ chr '"' :: rest) =
        if IsEscaped c then (readString (escapeJsonString s ++ chr '"' :: rest)).map fun r =>
          (c.toNat :: r.1, r.2) else none := by
      rw [← readString_escapeChar, escapeJsonString, List.flatMap_cons, List.append_assoc]
      rfl
    rw [hread, List.forall_mem_cons]
    refine ⟨fun ⟨hc, hs⟩ => ?_, fun h => ?_⟩
    · rw [if_pos hc, ih.1 hs]
      rfl
    · by_cases hc : IsEscaped c
      · rw [if_pos hc, ih.2 fun hs => h ⟨hc, hs⟩]
        rfl
      · rw [if_neg hc]

/-! ## Values -/

/-- What follows a value of a container. -/
def IsSep (c : UInt8) : Prop := c = chr ',' ∨ c = 125 ∨ c = 93

theorem IsSep.not_numChar (hc : IsSep c) : isNumChar c = false := by
  obtain rfl | rfl | rfl := hc <;> decide

theorem IsSep.not_ws (hc : IsSep c) : isWs c = false := by
  obtain rfl | rfl | rfl := hc <;> decide

theorem skipWs_cons (hc : isWs c = false) : skipWs (c :: b) = c :: b := by
  rw [skipWs, List.dropWhile_cons, if_neg (by simp [hc])]

theorem isNumChar_cases (hc : isNumChar c = true) :
    isWs c = false ∧ c ≠ 123 ∧ c ≠ 91 ∧ c ≠ chr '"' ∧ c ≠ chr 't' ∧ c ≠ chr 'f' ∧
      c ≠ chr 'n' := by
  have hall : ∀ n < 256, isNumChar (UInt8.ofNat n) = true →
      isWs (UInt8.ofNat n) = false ∧ UInt8.ofNat n ≠ 123 ∧ UInt8.ofNat n ≠ 91 ∧
        UInt8.ofNat n ≠ chr '"' ∧ UInt8.ofNat n ≠ chr 't' ∧ UInt8.ofNat n ≠ chr 'f' ∧
        UInt8.ofNat n ≠ chr 'n' := by
    decide +kernel
  have h := hall c.toNat c.toNat_lt
  rw [UInt8.ofNat_toNat] at h
  exact h hc

/-- A text of number characters is read as a whole. -/
theorem readValue_number {t : Bytes} (hne : t ≠ []) (ht : ∀ d ∈ t, isNumChar d = true)
    (hc : IsSep c) (fuel : ℕ) :
    readValue (fuel + 1) (t ++ c :: rest) =
      if isNumber t then some (.nil, c :: rest) else none := by
  obtain ⟨d, t, rfl⟩ := List.exists_cons_of_ne_nil hne
  obtain ⟨hws, h₁, h₂, h₃, h₄, h₅, h₆⟩ := isNumChar_cases (ht d List.mem_cons_self)
  have htake : (d :: t ++ c :: rest).takeWhile isNumChar = d :: t := by
    rw [List.takeWhile_append_of_pos ht, List.takeWhile_cons, if_neg (by simp [hc.not_numChar]),
      List.append_nil]
  have hdrop : (d :: t ++ c :: rest).dropWhile isNumChar = c :: rest := by
    rw [List.dropWhile_append_of_pos ht, List.dropWhile_cons, if_neg (by simp [hc.not_numChar])]
  rw [List.cons_append] at htake hdrop ⊢
  rw [readValue, skipWs_cons hws]
  dsimp only
  rw [if_neg h₁, if_neg h₂, if_neg h₃, if_neg h₄, if_neg h₅, if_neg h₆, readNumber, htake, hdrop]

theorem readValue_zero (hc : IsSep c) (fuel : ℕ) :
    readValue (fuel + 1) (text "0" ++ c :: rest) = some (.nil, c :: rest) := by
  rw [readValue_number (by decide) (List.all_eq_true.mp (by decide)) hc]
  rfl

theorem isDigit_isNumChar (hc : isDigit c = true) : isNumChar c = true := by
  simp [isNumChar, hc]

theorem isUnsigned_digitsText {m : ℕ} (hm : m ≠ 0) :
    isUnsigned (digitsText digitChar m) = true := by
  have htake : (digitsText digitChar m).takeWhile isDigit = digitsText digitChar m :=
    List.takeWhile_eq_self_iff.mpr digitsText_isDigit
  have hdrop : (digitsText digitChar m).dropWhile isDigit = [] :=
    List.dropWhile_eq_nil_iff.mpr digitsText_isDigit
  obtain ⟨d, b, hd, hlt, hb⟩ := digitsText_cons hm
  have hzero : digitChar d ≠ chr '0' := by
    interval_cases d
    · exact absurd rfl hd
    all_goals decide
  rw [isUnsigned, htake, hdrop, hb]
  simp [hzero, isFraction]

/-- The text of an integer is a number. -/
theorem decimal_number (n : ℤ) :
    decimal n ≠ [] ∧ (∀ c ∈ decimal n, isNumChar c = true) ∧ isNumber (decimal n) = true := by
  have hdigits : ∀ c ∈ digitsText digitChar n.natAbs, isNumChar c = true :=
    fun c hc => isDigit_isNumChar (digitsText_isDigit c hc)
  rw [decimal]
  split_ifs with hneg h0
  · refine ⟨by simp, List.forall_mem_cons.mpr ⟨by decide, hdigits⟩, ?_⟩
    rw [isNumber, if_pos rfl, isUnsigned_digitsText (by omega)]
  · exact ⟨by decide, List.all_eq_true.mp (by decide : (text "0").all isNumChar = true),
      by decide⟩
  · obtain ⟨d, b, -, hlt, hb⟩ := digitsText_cons (m := n.natAbs) (by omega)
    have hminus : digitChar d ≠ chr '-' := by
      interval_cases d <;> decide
    refine ⟨by simp [hb], hdigits, ?_⟩
    rw [hb, isNumber, if_neg hminus, ← hb, isUnsigned_digitsText (by omega)]

variable {F : Type}

/-- What `"%f"` gives: digits with a point and a sign, or a word for what is no number. -/
def FormatOk (format : F → Bytes) : Prop :=
  ∀ x, format x ≠ [] ∧ (∀ c ∈ format x, isNumChar c = true) ∨
    format x ∈ [text "inf", text "-inf", text "nan", text "-nan"]

variable [Zero F] [DecidableEq F] {P : Printer F}

/-- A value whose text is read back. -/
def Scalar.Good (P : Printer F) : Scalar F → Prop
  | integer n => n ≠ -2 ^ 63
  | float x => x ≠ 0 → isNumber ((P.format x).take 16)
  | string s => ∀ c ∈ s, IsEscaped c
  | _ => True

theorem readValue_word {w : Bytes} (hw : w ∈ [text "inf", text "-inf", text "nan", text "-nan"])
    (c : UInt8) (rest : Bytes) (fuel : ℕ) :
    readValue (fuel + 1) (w ++ c :: rest) = none ∧ isNumber w = false := by
  simp only [List.mem_cons, List.not_mem_nil, or_false] at hw
  obtain rfl | rfl | rfl | rfl := hw
  · exact ⟨rfl, by decide⟩
  · exact ⟨rfl, by decide⟩
  · exact ⟨rfl, by decide⟩
  · exact ⟨rfl, by decide⟩

theorem minText_eq : digitsText (fun d => UInt8.ofNat (48 - d)) (2 ^ 63) =
    [39, 46, 46, 45, 45, 41, 46, 48, 45, 42, 40, 43, 44, 41, 41, 43, 40, 48, 40] := by
  decide +kernel

/-- A value that is good is read, and one that is not ends the reading. -/
theorem readValue_scalar (hl : LengthOk P.log10) (hf : FormatOk P.format) (v : Scalar F)
    (hc : IsSep c) (rest : Bytes) (fuel : ℕ) :
    (v.Good P → readValue (fuel + 1) (v.text P ++ c :: rest) = some (.nil, c :: rest)) ∧
      (¬ v.Good P → readValue (fuel + 1) (v.text P ++ c :: rest) = none) := by
  have hzero : readValue (fuel + 1) (text "0" ++ c :: rest) = some (.nil, c :: rest) :=
    readValue_zero hc fuel
  cases v with
  | integer n =>
    by_cases h0 : n = 0
    · subst h0
      exact ⟨fun _ => hzero, fun h => absurd (by norm_num [Scalar.Good]) h⟩
    refine ⟨fun hg => ?_, fun hg => ?_⟩
    · obtain ⟨hne, hall, hnum⟩ := decimal_number n
      rw [Scalar.text, if_neg h0, integerText_eq hl h0 hg, Option.getD_some,
        readValue_number hne hall hc, if_pos hnum]
    · have hn : n = -2 ^ 63 := not_not.mp hg
      rw [Scalar.text, if_neg h0, hn, integerText_min hl, minText_eq]
      rfl
  | float x =>
    by_cases h0 : x = 0
    · rw [Scalar.text, if_pos h0]
      exact ⟨fun _ => hzero, fun h => absurd (fun hx => absurd h0 hx) h⟩
    rw [Scalar.text, if_neg h0]
    obtain ⟨hne, hall⟩ | hw := hf x
    · rw [readValue_number (by simpa using hne) (fun d hd => hall d (List.mem_of_mem_take hd)) hc]
      refine ⟨fun hg => if_pos (hg h0), fun hg => if_neg fun hnum => hg fun _ => hnum⟩
    · obtain ⟨hread, hnum⟩ := readValue_word hw c rest fuel
      have htake : (P.format x).take 16 = P.format x := by
        simp only [List.mem_cons, List.not_mem_nil, or_false] at hw
        obtain hw | hw | hw | hw := hw <;> rw [hw] <;> rfl
      rw [htake]
      refine ⟨fun hg => ?_, fun _ => hread⟩
      have := hg h0
      rw [htake, hnum] at this
      cases this
  | null => exact ⟨fun _ => rfl, fun h => absurd trivial h⟩
  | true => exact ⟨fun _ => rfl, fun h => absurd trivial h⟩
  | false => exact ⟨fun _ => rfl, fun h => absurd trivial h⟩
  | string s =>
    have hread : readValue (fuel + 1) ((Scalar.string s).text P ++ c :: rest) =
        (readString (escapeJsonString s ++ chr '"' :: c :: rest)).bind fun r =>
          some (.nil, r.2) := by
      rw [Scalar.text, List.append_assoc, List.append_assoc]
      rfl
    rw [hread]
    refine ⟨fun hg => ?_, fun hg => ?_⟩
    · rw [(readString_escapeJsonString s).1 hg]
      rfl
    · rw [(readString_escapeJsonString s).2 hg]
      rfl

end ApeServer.Json
