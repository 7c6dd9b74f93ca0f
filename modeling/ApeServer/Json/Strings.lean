import ApeServer.Json.Escapes
import ApeServer.Json.Rows

/-!
# Strings

The parser reads a string exactly if it is the text of characters, and keeps their UTF-8. A
character of two escapes is kept when its second half has been read, and a half without the other
ends the reading.
-/
namespace ApeServer.Json

open Sock (Bytes)
open ApeServer.Json.Parser (jsonParserChar)

variable {F σ : Type} {cfg : Config F σ} {s : State} {t : JsonType} {stack : List Mode}
  {buf b : Bytes} {ctx : σ} {c : UInt8} {high : ℕ} {jc jc' : Parser σ}

/-! ## Runs that end -/

/-- The text is read to its end, and `JSON_parser_done` agrees. -/
def Ends (cfg : Config F σ) (jc : Parser σ) (b : Bytes) (jc' : Parser σ) : Prop :=
  run cfg jc b = some jc' ∧ jc'.jsonParserDone = true

theorem Ends.step (h : Ends cfg jc b jc') (hd : jc.jsonParserDone = false) :
    ∃ c b₁ jc₁, b = c :: b₁ ∧ jsonParserChar cfg jc c = some jc₁ ∧ Ends cfg jc₁ b₁ jc' := by
  obtain ⟨hrun, hdone⟩ := h
  cases b with
  | nil =>
    obtain rfl := Option.some.inj hrun
    rw [hd] at hdone
    cases hdone
  | cons c b =>
    rw [run_cons, Option.bind_eq_some_iff] at hrun
    obtain ⟨jc₁, hchar, hrun⟩ := hrun
    exact ⟨c, b, jc₁, rfl, hchar, hrun, hdone⟩

theorem ends_append {a : Bytes} {jc₁ : Parser σ} (h : run cfg jc a = some jc₁) :
    Ends cfg jc (a ++ b) jc' ↔ Ends cfg jc₁ b jc' := by
  rw [Ends, Ends, run_append, h, Option.bind_some]

theorem ends_cons {jc₁ : Parser σ} (h : jsonParserChar cfg jc c = some jc₁) :
    Ends cfg jc (c :: b) jc' ↔ Ends cfg jc₁ b jc' := by
  rw [Ends, Ends, run_cons, h, Option.bind_some]

/-- A byte of a string or of another value goes to the buffer. -/
theorem char_held (hcfg : cfg.allowComments = false) (ht : t ≠ .none) :
    jsonParserChar cfg (within s t high stack buf ctx) c =
      follow cfg (within s t high stack (buf ++ [c]) ctx) (entry s c) := by
  rw [char_entry hcfg, if_neg (by tauto)]

theorem done_within (hs : s ≠ .OK) (hs' : s ≠ .GO) :
    (within s t high stack buf ctx).jsonParserDone = false := by
  simp [Parser.jsonParserDone, within, reading, hs, hs']

/-! ## Hexadecimal digits -/

theorem hexDigit_of_hexUnit : ∀ c, (hexUnit c).all fun n => n = Parser.hexDigit c ∧ n < 16 :=
  forall_byte (by decide +kernel)

theorem hexUnit_some {n : ℕ} (h : hexUnit c = some n) : n = Parser.hexDigit c ∧ n < 16 := by
  have := hexDigit_of_hexUnit c
  rw [h] at this
  simpa using this

theorem Quad.foldl {h : Bytes} {n : ℕ} (hq : Quad h n) :
    h.foldl (fun n c => 16 * n + Parser.hexDigit c) 0 = n := by
  have hall : ∀ (l : Bytes) (m : ℕ),
      l.foldlM (fun n c => (hexUnit c).map (16 * n + ·)) m = some n →
        l.foldl (fun n c => 16 * n + Parser.hexDigit c) m = n := by
    intro l
    induction l with
    | nil =>
      intro m h
      exact Option.some.inj h
    | cons c l ih =>
      intro m h
      rw [List.foldlM_cons, Option.bind_eq_bind, Option.bind_eq_some_iff] at h
      obtain ⟨k, hk, h⟩ := h
      obtain ⟨u, hu, rfl⟩ := Option.map_eq_some_iff.mp hk
      rw [List.foldl_cons, ← (hexUnit_some hu).1]
      exact ih _ h
  exact hall h 0 hq.2

/-- Four digits, one by one. -/
theorem quad_iff {h : Bytes} {n : ℕ} : Quad h n ↔ ∃ c₁ c₂ c₃ c₄ n₁ n₂ n₃ n₄,
    h = [c₁, c₂, c₃, c₄] ∧ hexUnit c₁ = some n₁ ∧ hexUnit c₂ = some n₂ ∧ hexUnit c₃ = some n₃ ∧
      hexUnit c₄ = some n₄ ∧ n = 16 * (16 * (16 * n₁ + n₂) + n₃) + n₄ := by
  constructor
  · rintro ⟨hlen, hfold⟩
    obtain ⟨c₁, c₂, c₃, c₄, rfl⟩ := List.length_eq_four.mp hlen
    simp only [List.foldlM_cons, List.foldlM_nil, Option.bind_eq_bind, Option.bind_eq_some_iff,
      Option.map_eq_some_iff] at hfold
    obtain ⟨_, ⟨n₁, h₁, rfl⟩, _, ⟨n₂, h₂, rfl⟩, _, ⟨n₃, h₃, rfl⟩, _, ⟨n₄, h₄, rfl⟩, hn⟩ := hfold
    refine ⟨c₁, c₂, c₃, c₄, n₁, n₂, n₃, n₄, rfl, h₁, h₂, h₃, h₄, ?_⟩
    have := Option.some.inj hn
    omega
  · rintro ⟨c₁, c₂, c₃, c₄, n₁, n₂, n₃, n₄, rfl, h₁, h₂, h₃, h₄, rfl⟩
    refine ⟨rfl, ?_⟩
    simp [h₁, h₂, h₃, h₄]

theorem Quad.lt {h : Bytes} {n : ℕ} (hq : Quad h n) : n < 0x10000 := by
  obtain ⟨c₁, c₂, c₃, c₄, n₁, n₂, n₃, n₄, -, h₁, h₂, h₃, h₄, rfl⟩ := quad_iff.mp hq
  have := (hexUnit_some h₁).2
  have := (hexUnit_some h₂).2
  have := (hexUnit_some h₃).2
  have := (hexUnit_some h₄).2
  omega

theorem run_quad (hcfg : cfg.allowComments = false) {h : Bytes} {n : ℕ} (hq : Quad h n) :
    run cfg (within .U1 .string high stack buf ctx) h =
      (within .U4 .string high stack (buf ++ h) ctx).act cfg .UC := by
  obtain ⟨c₁, c₂, c₃, c₄, n₁, n₂, n₃, n₄, rfl, h₁, h₂, h₃, h₄, -⟩ := quad_iff.mp hq
  have hstep : ∀ {s s' : State} {c : UInt8} {u : ℕ} {buf : Bytes},
      (∀ c, row s c = hexOnly (.state s') c) → hexUnit c = some u →
      jsonParserChar cfg (within s .string high stack buf ctx) c =
        some (within s' .string high stack (buf ++ [c]) ctx) := by
    intro s s' c u buf hs hu
    rw [char_held hcfg (by decide), entry_eq, hs, hexOnly, hu]
    rfl
  rw [run_cons, hstep (fun _ => rfl) h₁, Option.bind_some, run_cons, hstep (fun _ => rfl) h₂,
    Option.bind_some, run_cons, hstep (fun _ => rfl) h₃, Option.bind_some, run_cons,
    char_held hcfg (by decide), entry_eq, row, hexOnly, h₄]
  simp only [Option.isSome_some, if_true, follow, run, List.foldlM_nil, List.append_assoc,
    List.cons_append, List.nil_append]
  exact Option.bind_fun_some _

/-- What is read after `\u` begins with four digits. -/
theorem Ends.quad (hcfg : cfg.allowComments = false)
    (h : Ends cfg (within .U1 .string high stack buf ctx) b jc') :
    ∃ h n b₁ jc₁, Quad h n ∧ b = h ++ b₁ ∧
      (within .U4 .string high stack (buf ++ h) ctx).act cfg .UC = some jc₁ ∧
      Ends cfg jc₁ b₁ jc' := by
  have hstep : ∀ {s s' : State} {buf b : Bytes}, s ≠ .OK → s ≠ .GO →
      (∀ c, row s c = hexOnly (.state s') c) → Ends cfg (within s .string high stack buf ctx) b jc' →
      ∃ c u b₁, hexUnit c = some u ∧ b = c :: b₁ ∧
        Ends cfg (within s' .string high stack (buf ++ [c]) ctx) b₁ jc' := by
    intro s s' buf b hok hgo hs h
    obtain ⟨c, b₁, jc₁, rfl, hchar, h⟩ := h.step (done_within hok hgo)
    rw [char_held hcfg (by decide), entry_eq, hs, hexOnly] at hchar
    cases hu : hexUnit c with
    | none =>
      rw [hu] at hchar
      cases hchar
    | some u =>
      rw [hu] at hchar
      obtain rfl := Option.some.inj hchar
      exact ⟨c, u, b₁, hu, rfl, h⟩
  obtain ⟨c₁, n₁, b₁, h₁, rfl, hb₁⟩ := hstep (by decide) (by decide) (fun _ => rfl) h
  obtain ⟨c₂, n₂, b₂, h₂, rfl, hb₂⟩ := hstep (by decide) (by decide) (fun _ => rfl) hb₁
  obtain ⟨c₃, n₃, b₃, h₃, rfl, hb₃⟩ := hstep (by decide) (by decide) (fun _ => rfl) hb₂
  obtain ⟨c₄, b₄, jc₁, rfl, hchar, hb₄⟩ := hb₃.step (done_within (by decide) (by decide))
  rw [char_held hcfg (by decide), entry_eq, row, hexOnly] at hchar
  cases h₄ : hexUnit c₄ with
  | none =>
    rw [h₄] at hchar
    cases hchar
  | some n₄ =>
    rw [h₄] at hchar
    refine ⟨[c₁, c₂, c₃, c₄], _, b₄, jc₁, quad_iff.mpr ⟨c₁, c₂, c₃, c₄, n₁, n₂, n₃, n₄, rfl, h₁, h₂,
      h₃, h₄, rfl⟩, rfl, ?_, hb₄⟩
    simpa [follow] using hchar

/-! ## UTF-8 -/

theorem or_mask {n i : ℕ} (hn : n < 2 ^ i) (q : ℕ) : n ||| 2 ^ i * q = n + 2 ^ i * q := by
  have := Nat.two_pow_add_eq_or_of_lt hn q
  rw [Nat.or_comm]
  omega

/-- A byte of `decode_unicode_char` after the first. -/
theorem trail_eq (n i : ℕ) : ((n >>> (i * 6)) &&& 0x3F) ||| 0x80 = n / 64 ^ i % 64 + 128 := by
  have hand : (n >>> (i * 6)) &&& 0x3F = n / 64 ^ i % 64 := by
    rw [show 0x3F = 2 ^ 6 - 1 from rfl, Nat.and_two_pow_sub_one_eq_mod, Nat.shiftRight_eq_div_pow,
      Nat.mul_comm, Nat.pow_mul]
  rw [hand]
  exact or_mask (show n / 64 ^ i % 64 < 2 ^ 6 from Nat.mod_lt _ (by decide)) 2

/-- How many bytes come after the first. -/
def trailBytes (n : ℕ) : ℕ :=
  if n < 0x80 then 0 else if n < 0x800 then 1 else if n < 0x10000 then 2 else 3

/-- The bytes of a character are those of Lean's own encoding. -/
theorem utf8_eq (c : Char) :
    Parser.utf8 c.toNat (trailBytes c.toNat) = String.utf8EncodeChar c := by
  have hlt : c.toNat < 0x110000 := by
    rcases c.valid with h | h
    · exact Nat.lt_trans h (by decide)
    · exact h.2
  have hval : c.val.toNat = c.toNat := rfl
  simp only [String.utf8EncodeChar, hval, trailBytes, Parser.utf8]
  generalize c.toNat = n at hlt
  have hlead : ∀ k i q, n / 64 ^ k < 2 ^ i →
      n >>> (k * 6) ||| 2 ^ i * q = n / 64 ^ k + 2 ^ i * q := by
    intro k i q hk
    rw [Nat.shiftRight_eq_div_pow, Nat.mul_comm, Nat.pow_mul]
    exact or_mask hk q
  by_cases h₁ : n < 0x80
  · have hfirst : n >>> (0 * 6) ||| 0 = n := Nat.or_zero n
    simp only [h₁, show n ≤ 127 by omega, if_true, List.getD_cons_zero, hfirst]
    rfl
  by_cases h₂ : n < 0x800
  · have hfirst : n >>> (1 * 6) ||| 0xC0 = n / 64 % 32 + 0xC0 :=
      (hlead 1 5 6 (by omega)).trans (by omega)
    have hrange : (List.range 1).reverse = [0] := rfl
    simp only [h₁, h₂, show ¬ n ≤ 127 by omega, show n ≤ 2047 by omega, if_true, if_false,
      List.getD_cons_succ, List.getD_cons_zero, hfirst, hrange, List.map_cons, List.map_nil,
      trail_eq, Nat.pow_zero, Nat.div_one]
  by_cases h₃ : n < 0x10000
  · have hfirst : n >>> (2 * 6) ||| 0xE0 = n / 4096 % 16 + 0xE0 :=
      (hlead 2 4 14 (by omega)).trans (by omega)
    have hrange : (List.range 2).reverse = [1, 0] := rfl
    simp only [h₁, h₂, h₃, show ¬ n ≤ 127 by omega, show ¬ n ≤ 2047 by omega,
      show n ≤ 65535 by omega, if_true, if_false, List.getD_cons_succ, List.getD_cons_zero, hfirst,
      hrange, List.map_cons, List.map_nil, trail_eq, Nat.pow_zero, Nat.div_one, Nat.pow_one]
  · have hfirst : n >>> (3 * 6) ||| 0xF0 = n / 262144 % 8 + 0xF0 :=
      (hlead 3 3 30 (by omega)).trans (by omega)
    have hrange : (List.range 3).reverse = [2, 1, 0] := rfl
    simp only [h₁, h₂, h₃, show ¬ n ≤ 127 by omega, show ¬ n ≤ 2047 by omega,
      show ¬ n ≤ 65535 by omega, if_false, List.getD_cons_succ, List.getD_cons_zero, hfirst,
      hrange, List.map_cons, List.map_nil, trail_eq, Nat.pow_zero, Nat.div_one, Nat.pow_one,
      Nat.reducePow]

/-! ## Escapes of a code point -/

/-- The six bits that tell a surrogate. -/
theorem and_mask (n : ℕ) : n &&& 0xFC00 = 2 ^ 10 * (n / 2 ^ 10 % 2 ^ 6) := by
  apply Nat.eq_of_testBit_eq
  intro i
  have hmask : 0xFC00 = 2 ^ 10 * (2 ^ 6 - 1) := rfl
  rw [hmask, Nat.testBit_and, Nat.testBit_two_pow_mul, Nat.testBit_two_pow_mul,
    Nat.testBit_two_pow_sub_one, Nat.testBit_mod_two_pow, Nat.testBit_div_two_pow]
  by_cases h : 10 ≤ i
  · have : i - 10 + 10 = i := by omega
    simp only [h, decide_true, Bool.true_and, this]
    exact Bool.and_comm _ _
  · simp [h]

theorem high_iff {n : ℕ} (hn : n < 0x10000) : n &&& 0xFC00 = 0xD800 ↔ 0xD800 ≤ n ∧ n < 0xDC00 := by
  rw [and_mask]
  omega

theorem low_iff {n : ℕ} (hn : n < 0x10000) : n &&& 0xFC00 = 0xDC00 ↔ 0xDC00 ≤ n ∧ n < 0xE000 := by
  rw [and_mask]
  omega

variable {pre h : Bytes} {n : ℕ}

/-- `decode_unicode_char` behind an escape: the escape leaves the buffer. -/
theorem decode_eq (hq : Quad h n) :
    (within .U4 .string high stack (pre ++ [chr '\\', chr 'u'] ++ h) ctx).decodeUnicodeChar =
      if high ≠ 0 then
        if n &&& 0xFC00 = 0xDC00 then
          some (within .U4 .string 0 stack (pre ++ Parser.utf8
            (((high &&& 0x3FF) <<< 10) + (n &&& 0x3FF) + 0x10000) 3) ctx)
        else none
      else if n < 0x80 then some (within .U4 .string 0 stack (pre ++ Parser.utf8 n 0) ctx)
      else if n < 0x800 then some (within .U4 .string 0 stack (pre ++ Parser.utf8 n 1) ctx)
      else if n &&& 0xFC00 = 0xD800 then some (within .U4 .string n stack pre ctx)
      else if n &&& 0xFC00 = 0xDC00 then none
      else some (within .U4 .string 0 stack (pre ++ Parser.utf8 n 2) ctx) := by
  have hlen : (pre ++ [chr '\\', chr 'u'] ++ h).length = pre.length + 6 := by
    simp [hq.1]
  have hdrop : (pre ++ [chr '\\', chr 'u'] ++ h).drop (pre.length + 6 - 4) = h := by
    apply List.drop_left'
    simp
  have htake : (pre ++ [chr '\\', chr 'u'] ++ h).take (pre.length + 6 - 6) = pre := by
    rw [List.append_assoc]
    exact List.take_left' rfl
  have hbuf : (within .U4 .string high stack (pre ++ [chr '\\', chr 'u'] ++ h) ctx).parseBuffer =
    pre ++ [chr '\\', chr 'u'] ++ h := rfl
  have hhigh : (within .U4 .string high stack (pre ++ [chr '\\', chr 'u'] ++ h)
    ctx).utf16HighSurrogate = high := rfl
  simp only [Parser.decodeUnicodeChar, hbuf, hlen, hdrop, htake, hq.foldl, hhigh]
  rw [if_neg (by omega)]
  by_cases h0 : high = 0
  · subst h0
    rfl
  · simp only [h0, ne_eq, not_false_eq_true, if_true]
    rfl

theorem toNat_valid (c : Char) : c.toNat < 0xD800 ∨ 0xDFFF < c.toNat ∧ c.toNat < 0x110000 :=
  c.valid

/-- The escape of a character in one half. -/
theorem act_unit {c : Char} (hq : Quad h c.toNat) :
    (within .U4 .string 0 stack (pre ++ [chr '\\', chr 'u'] ++ h) ctx).act cfg .UC =
      some (reading .ST .string stack (pre ++ String.utf8EncodeChar c) ctx) := by
  have hlt := hq.lt
  have hvalid := toNat_valid c
  have hhigh := mt (high_iff hlt).mp (by omega)
  have hlow := mt (low_iff hlt).mp (by omega)
  rw [Parser.act, decode_eq hq, ← utf8_eq c, trailBytes]
  by_cases h₁ : c.toNat < 0x80
  · simp only [h₁, ne_eq, not_true_eq_false, if_false, if_true]
    rfl
  by_cases h₂ : c.toNat < 0x800
  · simp only [h₁, h₂, ne_eq, not_true_eq_false, if_false, if_true]
    rfl
  · simp only [h₁, h₂, hlt, hhigh, hlow, ne_eq, not_true_eq_false, if_false, if_true]
    rfl

/-- A first half is remembered, and leaves no byte. -/
theorem act_high (hq : Quad h n) (hn : 0xD800 ≤ n ∧ n < 0xDC00) :
    (within .U4 .string 0 stack (pre ++ [chr '\\', chr 'u'] ++ h) ctx).act cfg .UC =
      some (within .D1 .string n stack pre ctx) := by
  have hhigh := (high_iff hq.lt).mpr hn
  rw [Parser.act, decode_eq hq, if_neg (by omega), if_neg (by omega), if_neg (by omega),
    if_pos hhigh, Option.bind_eq_bind, Option.bind_some]
  have hne : (within .U4 .string n stack pre ctx).utf16HighSurrogate ≠ 0 := by
    change n ≠ 0
    omega
  rw [if_pos hne]
  rfl

/-- A second half without a first is refused. -/
theorem act_low (hq : Quad h n) (hn : 0xDC00 ≤ n ∧ n < 0xE000) :
    (within .U4 .string 0 stack (pre ++ [chr '\\', chr 'u'] ++ h) ctx).act cfg .UC = none := by
  have hlow := (low_iff hq.lt).mpr hn
  have hhigh := mt (high_iff hq.lt).mp (by omega)
  rw [Parser.act, decode_eq hq, if_neg (by omega), if_neg (by omega), if_neg (by omega),
    if_neg hhigh, if_pos hlow]
  rfl

/-- A second half after a first makes the character. -/
theorem act_pair {c : Char} (hq : Quad h n) (hhigh : 0xD800 ≤ high ∧ high < 0xDC00)
    (hn : 0xDC00 ≤ n ∧ n < 0xE000)
    (hc : c.toNat = 0x10000 + (high - 0xD800) * 0x400 + (n - 0xDC00)) :
    (within .U4 .string high stack (pre ++ [chr '\\', chr 'u'] ++ h) ctx).act cfg .UC =
      some (reading .ST .string stack (pre ++ String.utf8EncodeChar c) ctx) := by
  have hlow := (low_iff hq.lt).mpr hn
  have hten : (0x3FF : ℕ) = 2 ^ 10 - 1 := rfl
  have hcode : ((high &&& 0x3FF) <<< 10) + (n &&& 0x3FF) + 0x10000 = c.toNat := by
    rw [hten, Nat.and_two_pow_sub_one_eq_mod, Nat.and_two_pow_sub_one_eq_mod, Nat.shiftLeft_eq]
    omega
  have htrail : trailBytes c.toNat = 3 := by
    rw [trailBytes, if_neg (by omega), if_neg (by omega), if_neg (by omega)]
  rw [Parser.act, decode_eq hq, if_pos (by omega), if_pos hlow, hcode, ← htrail, utf8_eq]
  rfl

/-- Nothing else follows a first half. -/
theorem act_broken (hq : Quad h n) (hhigh : high ≠ 0) (hn : ¬ (0xDC00 ≤ n ∧ n < 0xE000)) :
    (within .U4 .string high stack (pre ++ [chr '\\', chr 'u'] ++ h) ctx).act cfg .UC = none := by
  have hlow := mt (low_iff hq.lt).mp hn
  rw [Parser.act, decode_eq hq, if_pos hhigh, if_neg hlow]
  rfl

/-! ## Characters -/

theorem plain_char : ∀ c, isPlainByte c = true → chr (Char.ofNat c.toNat) = c ∧
    (32 ≤ (Char.ofNat c.toNat).toNat ∧ (Char.ofNat c.toNat).toNat < 128 ∧
      Char.ofNat c.toNat ≠ '"' ∧ Char.ofNat c.toNat ≠ '\\') ∧
    String.utf8EncodeChar (Char.ofNat c.toNat) = [c] :=
  forall_byte (by decide +kernel)

theorem plain_byte {c : Char} (h : 32 ≤ c.toNat) (h' : c.toNat < 128) (hq : c ≠ '"')
    (hb : c ≠ '\\') : isPlainByte (chr c) = true ∧ String.utf8EncodeChar c = [chr c] := by
  have hall : ∀ n < 128, 32 ≤ n → Char.ofNat n ≠ '"' → Char.ofNat n ≠ '\\' →
      isPlainByte (chr (Char.ofNat n)) = true ∧
        String.utf8EncodeChar (Char.ofNat n) = [chr (Char.ofNat n)] := by
    decide +kernel
  have := hall c.toNat h' h
  rw [Char.ofNat_toNat] at this
  exact this hq hb

theorem add_escaped (e : UInt8) :
    (escaping stack buf ctx).addEscapedCharToParseBuffer e =
      match escapes.lookup e with
      | some c => some (reading .ES .string stack (buf ++ [chr c]) ctx)
      | none =>
        if e = chr 'u' then some (reading .ES .string stack (buf ++ [chr '\\', chr 'u']) ctx)
        else none := by
  rw [Parser.addEscapedCharToParseBuffer, escaping_pop, Option.bind_eq_bind, Option.bind_some]
  by_cases he : e ∈ [chr '"', chr '\\', chr '/', chr 'b', chr 'f', chr 'n', chr 'r', chr 't',
      chr 'u']
  · simp only [List.mem_cons, List.not_mem_nil, or_false] at he
    rcases he with rfl | rfl | rfl | rfl | rfl | rfl | rfl | rfl | rfl
    all_goals first
      | rfl
      | simp [Parser.parseBufferPushBackChar, reading]; rfl
  · simp only [List.mem_cons, List.not_mem_nil, or_false, not_or] at he
    obtain ⟨h₁, h₂, h₃, h₄, h₅, h₆, h₇, h₈, h₉⟩ := he
    have hl : escapes.lookup e = none := by
      rw [List.lookup_eq_none_iff]
      intro p hp
      simp only [escapes, List.mem_cons, List.not_mem_nil, or_false] at hp
      rcases hp with rfl | rfl | rfl | rfl | rfl | rfl | rfl | rfl <;> simpa
    simp only [h₁, h₂, h₃, h₄, h₅, h₆, h₇, h₈, h₉, hl, if_false]

/-- The entry of the row is the one of the table. -/
theorem table_of_entry {k : Class} {s' : State} (hk : classOf c = some k)
    (he : entry s c = .state s') : s.stateTransitionTable[k.ctorIdx]? = some (.state s') := by
  rw [entry, hk, Option.bind_some] at he
  cases ht : s.stateTransitionTable[k.ctorIdx]? with
  | none =>
    rw [ht] at he
    cases he
  | some n =>
    rw [ht] at he
    cases n with
    | state s₁ =>
      cases he
      rfl
    | action a =>
      dsimp only at he
      split at he <;> cases he
    | xx => cases he

/-- A byte that leads to a state, once it is in the buffer. -/
theorem char_leads {jc jc₁ : Parser σ} {e : UInt8} {k : Class} (hk : classOf e = some k)
    (hadd : jc.addCharToParseBuffer e k = some jc₁)
    (ht : jc₁.state.stateTransitionTable[k.ctorIdx]? = some (.state s)) :
    jsonParserChar cfg jc e = some { jc₁ with state := s } := by
  rw [classOf] at hk
  simp only [jsonParserChar, hk, hadd, Option.bind_eq_bind, Option.bind_some, ht]

/-- Behind a backslash. -/
theorem char_escaping (e : UInt8) :
    jsonParserChar cfg (escaping stack buf ctx) e =
      match escapes.lookup e with
      | some c => some (reading .ST .string stack (buf ++ [chr c]) ctx)
      | none =>
        if e = chr 'u' then some (reading .U1 .string stack (buf ++ [chr '\\', chr 'u']) ctx)
        else none := by
  have hrow := entry_eq .ES e
  rw [row] at hrow
  cases hk : classOf e with
  | none =>
    have hxx : entry .ES e = .xx := by
      rw [entry, hk]
      rfl
    have hnone : jsonParserChar cfg (escaping stack buf ctx) e = none := by
      rw [classOf] at hk
      rw [jsonParserChar, hk]
      rfl
    rw [hxx] at hrow
    rw [hnone]
    cases hl : escapes.lookup e with
    | some c =>
      rw [hl] at hrow
      cases hrow
    | none =>
      rw [hl] at hrow
      by_cases hu : e = chr 'u'
      · rw [if_neg (by simp), if_pos hu] at hrow
        cases hrow
      · exact (if_neg hu).symm
  | some k =>
    have hadd : (escaping stack buf ctx).addCharToParseBuffer e k = _ := add_escaped e
    cases hl : escapes.lookup e with
    | some c =>
      rw [hl] at hrow hadd
      have ht := table_of_entry hk hrow
      exact char_leads hk hadd ht
    | none =>
      rw [hl, if_neg (by simp)] at hrow
      rw [hl] at hadd
      by_cases hu : e = chr 'u'
      · subst hu
        have ht := table_of_entry hk hrow
        exact char_leads hk hadd ht
      · rw [if_neg hu] at hadd
        dsimp only
        rw [if_neg hu]
        rw [classOf] at hk
        simp only [jsonParserChar, hk, hadd, Option.bind_eq_bind, Option.bind_some,
          Option.bind_none]

theorem escapes_ascii : ∀ p ∈ escapes, String.utf8EncodeChar p.2 = [chr p.2] := by decide

theorem lookup_escapes {e : UInt8} {c : Char} (h : (e, c) ∈ escapes) :
    escapes.lookup e = some c := by
  simp only [escapes, List.mem_cons, Prod.mk.injEq, List.not_mem_nil, or_false] at h
  rcases h with ⟨rfl, rfl⟩ | ⟨rfl, rfl⟩ | ⟨rfl, rfl⟩ | ⟨rfl, rfl⟩ | ⟨rfl, rfl⟩ | ⟨rfl, rfl⟩ |
    ⟨rfl, rfl⟩ | ⟨rfl, rfl⟩ <;> rfl

theorem mem_of_lookup {e : UInt8} {c : Char} (h : escapes.lookup e = some c) :
    (e, c) ∈ escapes := by
  obtain ⟨l₁, l₂, hl, -⟩ := List.lookup_eq_some_iff.mp h
  rw [hl]
  simp

/-- A quotation mark's row. -/
theorem char_string (hcfg : cfg.allowComments = false) :
    jsonParserChar cfg (reading .ST .string stack buf ctx) c =
      if isPlainByte c then some (reading .ST .string stack (buf ++ [c]) ctx)
      else if c = chr '"' then (reading .ST .string stack (buf ++ [c]) ctx).act cfg .a4
      else if c = chr '\\' then some (escaping stack buf ctx)
      else none := by
  rw [← within_zero, char_held hcfg (by decide), entry_eq, row]
  split
  · rfl
  split
  · rfl
  split
  · rename_i hc
    subst hc
    rfl
  · rfl

/-- The text `\u` and four digits leads to `decode_unicode_char`. -/
theorem run_escape (hcfg : cfg.allowComments = false) (hq : Quad h n) :
    run cfg (reading .ST .string stack buf ctx) ([chr '\\', chr 'u'] ++ h) =
      (within .U4 .string 0 stack (buf ++ [chr '\\', chr 'u'] ++ h) ctx).act cfg .UC := by
  have hu : run cfg (reading .ST .string stack buf ctx) [chr '\\', chr 'u'] =
      some (within .U1 .string 0 stack (buf ++ [chr '\\', chr 'u']) ctx) := by
    rw [run_backslash, char_escaping]
    rfl
  rw [run_append, hu, Option.bind_some, run_quad hcfg hq]

/-- The same behind a first half. -/
theorem run_half (hcfg : cfg.allowComments = false) (hq : Quad h n) :
    run cfg (within .D1 .string high stack buf ctx) ([chr '\\', chr 'u'] ++ h) =
      (within .U4 .string high stack (buf ++ [chr '\\', chr 'u'] ++ h) ctx).act cfg .UC := by
  have hu : run cfg (within .D1 .string high stack buf ctx) [chr '\\', chr 'u'] =
      some (within .U1 .string high stack (buf ++ [chr '\\', chr 'u']) ctx) := by
    rw [run_cons, char_held hcfg (by decide), entry_eq, row, only, if_pos rfl]
    change run cfg (within .D2 .string high stack (buf ++ [chr '\\']) ctx) [chr 'u'] = _
    rw [run_single, char_held hcfg (by decide), entry_eq, row, only, if_pos rfl, List.append_assoc]
    rfl
  rw [run_append, hu, Option.bind_some, run_quad hcfg hq]

/-- A text of a character leaves its UTF-8. -/
theorem CharText.run (hcfg : cfg.allowComments = false) {c : Char} (hc : CharText c b) :
    Json.run cfg (reading .ST .string stack buf ctx) b =
      some (reading .ST .string stack (buf ++ String.utf8EncodeChar c) ctx) := by
  cases hc with
  | plain h₁ h₂ h₃ h₄ =>
    obtain ⟨hplain, hutf⟩ := plain_byte h₁ h₂ h₃ h₄
    rw [run_single, char_string hcfg, if_pos hplain, hutf]
  | escape he =>
    rw [run_backslash, char_escaping, lookup_escapes he, escapes_ascii _ he]
  | unit hq => rw [run_escape hcfg hq, act_unit hq]
  | pair hc h₁ h₂ =>
    have hlt := toNat_valid c
    rw [run_append, run_escape hcfg h₁, act_high h₁ (by omega), Option.bind_some, run_half hcfg h₂,
      act_pair (c := c) h₂ (by omega) (by omega) (by omega)]

theorem utf8_cons (c : Char) (cs : List Char) :
    utf8 (c :: cs) = String.utf8EncodeChar c ++ utf8 cs := List.flatMap_cons

theorem CharsText.run (hcfg : cfg.allowComments = false) {cs : List Char} (h : CharsText cs b) :
    Json.run cfg (reading .ST .string stack buf ctx) b =
      some (reading .ST .string stack (buf ++ utf8 cs) ctx) := by
  induction h generalizing buf with
  | nil =>
    rw [utf8, List.flatMap_nil, List.append_nil]
    rfl
  | cons hc _ ih =>
    rw [run_append, hc.run hcfg, Option.bind_some, ih, utf8_cons, List.append_assoc]
theorem exists_toNat (h : n.isValidChar) : ∃ c : Char, c.toNat = n := ⟨Char.ofNatAux n h, rfl⟩

/-- A row with one way on is left by it. -/
theorem Ends.only {s' : State} {x : UInt8} (hcfg : cfg.allowComments = false) (ht : t ≠ .none)
    (hd : (within s t high stack buf ctx).jsonParserDone = false)
    (hr : ∀ c, row s c = Json.only x s' c)
    (h : Ends cfg (within s t high stack buf ctx) b jc') :
    ∃ b₁, b = x :: b₁ ∧ Ends cfg (within s' t high stack (buf ++ [x]) ctx) b₁ jc' := by
  obtain ⟨c, b₁, jc₁, rfl, hchar, h⟩ := h.step hd
  rw [char_held hcfg ht, entry_eq, hr, Json.only] at hchar
  by_cases hc : c = x
  · subst hc
    rw [if_pos rfl] at hchar
    obtain rfl := Option.some.inj hchar
    exact ⟨b₁, rfl, h⟩
  · rw [if_neg hc] at hchar
    cases hchar

/-- Behind a first half stands a second escape. -/
theorem Ends.half (hcfg : cfg.allowComments = false)
    (h : Ends cfg (within .D1 .string high stack buf ctx) b jc') :
    ∃ h n b₁ jc₁, Quad h n ∧ b = [chr '\\', chr 'u'] ++ h ++ b₁ ∧
      (within .U4 .string high stack (buf ++ [chr '\\', chr 'u'] ++ h) ctx).act cfg .UC =
        some jc₁ ∧ Ends cfg jc₁ b₁ jc' := by
  obtain ⟨b₁, rfl, h₁⟩ := h.only hcfg (by decide) rfl fun _ => rfl
  obtain ⟨b₂, rfl, h₂⟩ := h₁.only hcfg (by decide) rfl fun _ => rfl
  obtain ⟨q, n, b₃, jc₁, hq, rfl, hact, h₃⟩ := h₂.quad hcfg
  refine ⟨q, n, b₃, jc₁, hq, rfl, ?_, h₃⟩
  have hbuf : buf ++ [chr '\\'] ++ [chr 'u'] ++ q = buf ++ [chr '\\', chr 'u'] ++ q := by simp
  rwa [hbuf] at hact

/-- An escape with four digits is that of a character, or the first of two that are. -/
theorem Ends.unicode (hcfg : cfg.allowComments = false)
    (h : Ends cfg (reading .U1 .string stack (buf ++ [chr '\\', chr 'u']) ctx) b jc') :
    ∃ c a b₁, CharText c ([chr '\\', chr 'u'] ++ a) ∧ b = a ++ b₁ ∧
      Ends cfg (reading .ST .string stack (buf ++ String.utf8EncodeChar c) ctx) b₁ jc' := by
  rw [← within_zero] at h
  obtain ⟨q, n, b₁, jc₁, hq, rfl, hact, h₁⟩ := h.quad hcfg
  have hlt := hq.lt
  by_cases hhigh : 0xD800 ≤ n ∧ n < 0xDC00
  · rw [act_high hq hhigh] at hact
    obtain rfl := Option.some.inj hact
    obtain ⟨q', m, b₂, jc₂, hq', rfl, hact', h₂⟩ := h₁.half hcfg
    by_cases hlow : 0xDC00 ≤ m ∧ m < 0xE000
    · have hvalid : (0x10000 + (n - 0xD800) * 0x400 + (m - 0xDC00)).isValidChar :=
        .inr ⟨by omega, by omega⟩
      obtain ⟨c, hc⟩ := exists_toNat hvalid
      rw [act_pair hq' hhigh hlow hc] at hact'
      obtain rfl := Option.some.inj hact'
      refine ⟨c, q ++ ([chr '\\', chr 'u'] ++ q'), b₂, ?_, by simp, h₂⟩
      rw [← List.append_assoc]
      refine .pair (by omega) ?_ ?_
      · have : 0xD800 + (c.toNat - 0x10000) / 0x400 = n := by omega
        rwa [this]
      · have : 0xDC00 + (c.toNat - 0x10000) % 0x400 = m := by omega
        rwa [this]
    · rw [act_broken hq' (by omega) hlow] at hact'
      cases hact'
  by_cases hlow : 0xDC00 ≤ n ∧ n < 0xE000
  · rw [act_low hq hlow] at hact
    cases hact
  · have hvalid : n.isValidChar := by
      by_cases hn : n < 0xD800
      · exact .inl hn
      · exact .inr ⟨by omega, by omega⟩
    obtain ⟨c, rfl⟩ := exists_toNat hvalid
    rw [act_unit hq] at hact
    obtain rfl := Option.some.inj hact
    exact ⟨c, q, b₁, .unit hq, rfl, h₁⟩

/-- A string goes on with its end or with a character. -/
theorem Ends.char (hcfg : cfg.allowComments = false)
    (h : Ends cfg (reading .ST .string stack buf ctx) b jc') :
    (∃ b₁ jc₁, b = chr '"' :: b₁ ∧
      (reading .ST .string stack (buf ++ [chr '"']) ctx).act cfg .a4 = some jc₁ ∧
      Ends cfg jc₁ b₁ jc') ∨
    ∃ c a b₁, CharText c a ∧ b = a ++ b₁ ∧
      Ends cfg (reading .ST .string stack (buf ++ String.utf8EncodeChar c) ctx) b₁ jc' := by
  obtain ⟨c, b₁, jc₁, rfl, hchar, h₁⟩ := h.step rfl
  rw [char_string hcfg] at hchar
  by_cases hp : isPlainByte c = true
  · obtain ⟨hchr, ⟨h₂, h₃, h₄, h₅⟩, hutf⟩ := plain_char c hp
    rw [if_pos hp] at hchar
    obtain rfl := Option.some.inj hchar
    refine .inr ⟨_, [c], b₁, ?_, rfl, by rwa [hutf]⟩
    have := CharText.plain h₂ h₃ h₄ h₅
    rwa [hchr] at this
  rw [if_neg hp] at hchar
  by_cases hq : c = chr '"'
  · subst hq
    rw [if_pos rfl] at hchar
    exact .inl ⟨b₁, jc₁, rfl, hchar, h₁⟩
  rw [if_neg hq] at hchar
  by_cases hb : c = chr '\\'
  · subst hb
    rw [if_pos rfl] at hchar
    obtain rfl := Option.some.inj hchar
    refine .inr ?_
    obtain ⟨e, b₂, jc₂, rfl, hchar₂, h₂⟩ := h₁.step rfl
    rw [char_escaping] at hchar₂
    cases hl : escapes.lookup e with
    | some c =>
      rw [hl] at hchar₂
      obtain rfl := Option.some.inj hchar₂
      have he := mem_of_lookup hl
      exact ⟨c, [chr '\\', e], b₂, .escape he, rfl, by rwa [escapes_ascii _ he]⟩
    | none =>
      rw [hl] at hchar₂
      by_cases hu : e = chr 'u'
      · subst hu
        rw [if_pos rfl] at hchar₂
        obtain rfl := Option.some.inj hchar₂
        obtain ⟨c, a, b₃, hc, rfl, h₃⟩ := h₂.unicode hcfg
        exact ⟨c, _, b₃, hc, rfl, h₃⟩
      · rw [if_neg hu] at hchar₂
        cases hchar₂
  · rw [if_neg hb] at hchar
    cases hchar

theorem CharText.ne_nil {c : Char} (h : CharText c b) : b ≠ [] := by
  cases h <;> simp

/-- What is read of a string up to its end is a text of characters. -/
theorem Ends.chars (hcfg : cfg.allowComments = false)
    (h : Ends cfg (reading .ST .string stack buf ctx) b jc') :
    ∃ cs a b₁ jc₁, CharsText cs a ∧ b = a ++ chr '"' :: b₁ ∧
      (reading .ST .string stack (buf ++ utf8 cs ++ [chr '"']) ctx).act cfg .a4 = some jc₁ ∧
      Ends cfg jc₁ b₁ jc' := by
  induction hn : b.length using Nat.strong_induction_on generalizing b buf with
  | _ n ih =>
    rcases h.char hcfg with ⟨b₁, jc₁, rfl, hact, h₁⟩ | ⟨c, a, b₁, hc, rfl, h₁⟩
    · refine ⟨[], [], b₁, jc₁, .nil, rfl, ?_, h₁⟩
      rw [utf8, List.flatMap_nil, List.append_nil]
      exact hact
    · have hlen : b₁.length < n := by
        have := List.length_pos_of_ne_nil hc.ne_nil
        rw [← hn, List.length_append]
        omega
      obtain ⟨cs, a', b₂, jc₁, hcs, rfl, hact, h₂⟩ := ih _ hlen h₁ rfl
      refine ⟨c :: cs, a ++ a', b₂, jc₁, .cons hc hcs, by rw [List.append_assoc], ?_, h₂⟩
      rw [utf8_cons, ← List.append_assoc]
      exact hact

end ApeServer.Json
