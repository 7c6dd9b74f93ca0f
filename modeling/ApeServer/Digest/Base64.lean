import ApeServer.Digest.Words
import ApeServer.Sock.Bufout
import ApeServer.Transports

/-!
# `base64.c`

The encoder keeps the bits it has not written yet in a word that it never clears, and leaves the
last six bits of every three bytes for the next turn of its loop; the decoder never clears its
word either. They are the two directions of one correspondence between bytes and groups of six
bits.
-/
namespace ApeServer.Base64

open Sock (toInt32)
open Digest (Bytes)

/-- `b64` -/
def b64 : Bytes := bytes "ABCDEFGHIJKLMNOPQRSTUVWXYZabcdefghijklmnopqrstuvwxyz0123456789+/"

def map2 : Bytes :=
  [0x3e, 0xff, 0xff, 0xff, 0x3f, 0x34, 0x35, 0x36,
   0x37, 0x38, 0x39, 0x3a, 0x3b, 0x3c, 0x3d, 0xff,
   0xff, 0xff, 0xff, 0xff, 0xff, 0xff, 0x00, 0x01,
   0x02, 0x03, 0x04, 0x05, 0x06, 0x07, 0x08, 0x09,
   0x0a, 0x0b, 0x0c, 0x0d, 0x0e, 0x0f, 0x10, 0x11,
   0x12, 0x13, 0x14, 0x15, 0x16, 0x17, 0x18, 0x19,
   0xff, 0xff, 0xff, 0xff, 0xff, 0xff, 0x1a, 0x1b,
   0x1c, 0x1d, 0x1e, 0x1f, 0x20, 0x21, 0x22, 0x23,
   0x24, 0x25, 0x26, 0x27, 0x28, 0x29, 0x2a, 0x2b,
   0x2c, 0x2d, 0x2e, 0x2f, 0x30, 0x31, 0x32, 0x33]

/-! ## The encoder -/

/-- `*dst++ = c` in a block of `size` bytes, `none` behind its end. -/
def put (size : ℤ) (dst : Bytes) (c : UInt8) : Option Bytes :=
  if dst.length < size then some (dst ++ [c]) else none

/-- `b64[(i_bits << 6 >> i_shift) & 0x3f]`; a shift by less than 0 or by 32 has no meaning. -/
def digit (i_bits : BitVec 32) (i_shift : ℤ) : Option UInt8 :=
  if 0 ≤ i_shift ∧ i_shift < 32 then b64[(i_bits <<< 6 >>> i_shift.toNat &&& 0x3f).toNat]?
  else none

/-- The `do` loop; `last` says that `bytes_remaining` is 0. -/
def emit (size : ℤ) (last : Bool) (i_bits : BitVec 32) (i_shift : ℤ) (dst : Bytes) :
    Option (ℤ × Bytes) :=
  ((digit i_bits i_shift).bind (put size dst)).bind fun dst =>
    if i_shift - 6 > 6 ∨ (last ∧ i_shift - 6 > 0) then emit size last i_bits (i_shift - 6) dst
    else some (i_shift - 6, dst)
termination_by i_shift.toNat
decreasing_by omega

/-- `i_bits = (i_bits << 8) + *src++` -/
def push (i_bits : BitVec 32) (b : UInt8) : BitVec 32 := (i_bits <<< 8) + b.toBitVec.setWidth 32

/-- The `while` loop over the bytes that remain. -/
def encodeLoop (size : ℤ) : Bytes → BitVec 32 → ℤ → Bytes → Option Bytes
  | [], _, _, dst => some dst
  | b :: src, i_bits, i_shift, dst =>
    (emit size src.isEmpty (push i_bits b) (i_shift + 8) dst).bind fun r =>
      encodeLoop size src (push i_bits b) r.1 r.2

/-- `while ((dst - ret) & 3) *dst++ = '=';` -/
def fill (size : ℤ) (dst : Bytes) : Option Bytes :=
  if dst.length % 4 ≠ 0 then
    if dst.length < size then fill size (dst ++ [61]) else none
  else some dst
termination_by (4 - dst.length % 4) % 4
decreasing_by simp only [List.length_append, List.length_singleton]; omega

/-- `base64_encode`: the text it returns, its terminator in the block too. -/
def base64_encode (src : Bytes) : Option Bytes := do
  let size := (toInt32 (src.length * 4)).tdiv 3 + 12
  let dst ← if src.length ≠ 0 then (encodeLoop size src 0 0 []).bind (fill size) else some []
  let _ ← put size dst 0
  return dst

/-! ## The decoder -/

/-- `map2[in[i] - 43]`, `none` where the source returns -1. -/
def value (c : UInt8) : Option UInt8 :=
  (map2[(c.toBitVec.signExtend 32 - 43).toNat]?).filter (· ≠ 0xff)

/-- `v = (v << 6) + map2[index]` -/
def shiftIn (v : BitVec 32) (m : UInt8) : BitVec 32 := (v <<< 6) + m.toBitVec.setWidth 32

/-- `if (i & 3)`: a byte is stored while there is room for one. -/
def store (out_length : ℤ) (i : ℕ) (v : BitVec 32) (dst : Bytes) : Bytes :=
  if i % 4 ≠ 0 ∧ dst.length < out_length then
    dst ++ [⟨(v.sshiftRight (6 - 2 * (i % 4))).setWidth 8⟩]
  else dst

/-- The loop of `base64_decode` from character `i` on; `none` stands for -1. -/
def decodeLoop (out_length : ℤ) : Bytes → ℕ → BitVec 32 → Bytes → Option Bytes
  | [], _, _, dst => some dst
  | c :: text, i, v, dst =>
    if c = 0 ∨ c = 61 then some dst
    else (value c).bind fun m =>
      decodeLoop out_length text (i + 1) (shiftIn v m) (store out_length i (shiftIn v m) dst)

/-- `base64_decode`: the bytes it has written to `out` when it returns their number. -/
def base64_decode (text : Bytes) (out_length : ℤ) : Option Bytes :=
  decodeLoop out_length text 0 0 []

/-! ## Groups of six bits -/

/-- The groups of six bits of a message; the last one is filled with zeros. -/
def sextets : Bytes → List ℕ
  | [] => []
  | [a] => [a.toNat / 4, a.toNat % 4 * 16]
  | [a, b] => [a.toNat / 4, a.toNat % 4 * 16 + b.toNat / 16, b.toNat % 16 * 4]
  | a :: b :: c :: l =>
    a.toNat / 4 :: (a.toNat % 4 * 16 + b.toNat / 16) :: (b.toNat % 16 * 4 + c.toNat / 64) ::
      c.toNat % 64 :: sextets l

/-- The bytes of groups of six bits; bits that do not fill a byte are dropped. -/
def octets : List ℕ → Bytes
  | [] => []
  | [_] => []
  | [x, y] => [UInt8.ofNat (x * 4 + y / 16)]
  | [x, y, z] => [UInt8.ofNat (x * 4 + y / 16), UInt8.ofNat (y * 16 + z / 4)]
  | x :: y :: z :: u :: l =>
    UInt8.ofNat (x * 4 + y / 16) :: UInt8.ofNat (y * 16 + z / 4) :: UInt8.ofNat (z * 64 + u) ::
      octets l

/-- The character of a group of six bits. -/
def char (n : ℕ) : UInt8 := b64.getD n 61

/-- The text of a message: its groups, and `=` up to a multiple of four characters. -/
def encoded (l : Bytes) : Bytes :=
  (sextets l).map char ++ List.replicate ((4 - (sextets l).length % 4) % 4) 61

theorem octets_sextets (l : Bytes) : octets (sextets l) = l := by
  have byte : ∀ (a : UInt8) (n : ℕ), n % 256 = a.toNat → UInt8.ofNat n = a := by
    intro a n h
    apply UInt8.toNat_inj.mp
    rw [UInt8.toNat_ofNat', h]
  induction l using sextets.induct with
  | case1 => rfl
  | case2 a =>
    have := a.toNat_lt
    rw [sextets, octets, byte a _ (by omega)]
  | case3 a b =>
    have := a.toNat_lt
    have := b.toNat_lt
    rw [sextets, octets, byte a _ (by omega), byte b _ (by omega)]
  | case4 a b c l ih =>
    have := a.toNat_lt
    have := b.toNat_lt
    have := c.toNat_lt
    rw [sextets, octets, byte a _ (by omega), byte b _ (by omega), byte c _ (by omega), ih]

theorem length_sextets (l : Bytes) : (sextets l).length = (4 * l.length + 2) / 3 := by
  induction l using sextets.induct with
  | case1 => rfl
  | case2 a => simp [sextets]
  | case3 a b => simp [sextets]
  | case4 a b c l ih =>
    simp only [sextets, List.length_cons, ih]
    omega

theorem length_b64 : b64.length = 64 := by decide

theorem b64_get {n : ℕ} (h : n < 64) : b64[n]? = some (char n) := by
  rw [char, List.getD_eq_getElem?_getD, List.getElem?_eq_getElem (by rw [length_b64]; exact h)]
  rfl

theorem digit_eq (x : BitVec 32) {k : ℕ} (hk : k < 32) :
    digit x k = some (char (x.toNat * 64 % 2 ^ 32 / 2 ^ k % 64)) := by
  have hidx : (x <<< 6 >>> k &&& 0x3f).toNat = x.toNat * 64 % 2 ^ 32 / 2 ^ k % 64 := by
    have h3f : (0x3f : BitVec 32).toNat = 2 ^ 6 - 1 := rfl
    rw [BitVec.toNat_and, h3f, Nat.and_two_pow_sub_one_eq_mod, BitVec.toNat_ushiftRight,
      BitVec.toNat_shiftLeft, Nat.shiftLeft_eq, Nat.shiftRight_eq_div_pow]
  rw [digit, if_pos (by omega), Int.toNat_natCast, hidx, b64_get (Nat.mod_lt _ (by omega))]

theorem put_ok {size : ℤ} {dst : Bytes} (h : dst.length < size) (c : UInt8) :
    put size dst c = some (dst ++ [c]) := if_pos h

section Emit

variable {size : ℤ} {last : Bool} {x : BitVec 32} {k n : ℕ} {dst : Bytes}

theorem emit_again_iff : ((k : ℤ) - 6 > 6 ∨ (last ∧ (k : ℤ) - 6 > 0)) ↔
    (12 < k ∨ (last ∧ 6 < k)) := by
  have h₁ : (k : ℤ) - 6 > 6 ↔ 12 < k := by omega
  have h₂ : (k : ℤ) - 6 > 0 ↔ 6 < k := by omega
  rw [h₁, h₂]

theorem emit_next {s s' : ℤ} (hs : s = k) (hk : k < 32) (h : 12 < k ∨ (last ∧ 6 < k))
    (hroom : dst.length < size) (hn : x.toNat * 64 % 2 ^ 32 / 2 ^ k % 64 = n) (hs' : s - 6 = s') :
    emit size last x s dst = emit size last x s' (dst ++ [char n]) := by
  subst hs
  rw [emit, digit_eq x hk, Option.bind_some, put_ok hroom, Option.bind_some,
    if_pos (emit_again_iff.mpr h), hn, hs']

theorem emit_done {s s' : ℤ} (hs : s = k) (hk : k < 32) (h : ¬ (12 < k ∨ (last ∧ 6 < k)))
    (hroom : dst.length < size) (hn : x.toNat * 64 % 2 ^ 32 / 2 ^ k % 64 = n) (hs' : s - 6 = s') :
    emit size last x s dst = some (s', dst ++ [char n]) := by
  subst hs
  rw [emit, digit_eq x hk, Option.bind_some, put_ok hroom, Option.bind_some,
    if_neg (mt emit_again_iff.mp h), hn, hs']

/-! What a byte of three writes; `x` ends with the byte and the ones before it. The last byte of
the message writes its remaining bits too. -/

theorem emit_first (hroom : dst.length < size) :
    emit size false x 8 dst = some (2, dst ++ [char (x.toNat % 256 / 4)]) :=
  emit_done (k := 8) rfl (by omega) (by simp) hroom (by omega) rfl

theorem emit_second (hroom : dst.length < size) :
    emit size false x 10 dst = some (4, dst ++ [char (x.toNat / 16 % 64)]) :=
  emit_done (k := 10) rfl (by omega) (by simp) hroom (by omega) rfl

theorem emit_third (hroom : dst.length < size) :
    emit size false x 12 dst = some (6, dst ++ [char (x.toNat / 64 % 64)]) :=
  emit_done (k := 12) rfl (by omega) (by simp) hroom (by omega) rfl

theorem emit_first_last (hroom : dst.length + 1 < size) :
    emit size true x 8 dst =
      some (-4, dst ++ [char (x.toNat % 256 / 4)] ++ [char (x.toNat % 4 * 16)]) :=
  (emit_next (k := 8) rfl (by omega) (by simp) (by omega) (by omega) rfl).trans
    (emit_done (k := 2) rfl (by omega) (by simp) (by simp; omega) (by omega) rfl)

theorem emit_second_last (hroom : dst.length + 1 < size) :
    emit size true x 10 dst =
      some (-2, dst ++ [char (x.toNat / 16 % 64)] ++ [char (x.toNat % 16 * 4)]) :=
  (emit_next (k := 10) rfl (by omega) (by simp) (by omega) (by omega) rfl).trans
    (emit_done (k := 4) rfl (by omega) (by simp) (by simp; omega) (by omega) rfl)

theorem emit_third_last (hroom : dst.length + 1 < size) :
    emit size true x 12 dst =
      some (0, dst ++ [char (x.toNat / 64 % 64)] ++ [char (x.toNat % 64)]) :=
  (emit_next (k := 12) rfl (by omega) (by simp) (by omega) (by omega) rfl).trans
    (emit_done (k := 6) rfl (by omega) (by simp) (by simp; omega) (by omega) rfl)

/-- Six bits that were kept back are written before anything else. -/
theorem emit_kept (hroom : dst.length < size) :
    emit size last x 14 dst = emit size last x 8 (dst ++ [char (x.toNat / 256 % 64)]) :=
  emit_next (k := 14) rfl (by omega) (by simp) hroom (by omega) rfl

end Emit

theorem toNat_push (x : BitVec 32) (b : UInt8) :
    (push x b).toNat = (x.toNat * 256 + b.toNat) % 2 ^ 32 := by
  have := b.toNat_lt
  rw [push, BitVec.toNat_add, BitVec.toNat_shiftLeft, BitVec.toNat_setWidth, Nat.shiftLeft_eq,
    UInt8.toNat_toBitVec, Nat.mod_eq_of_lt (a := b.toNat) (by omega)]
  omega

/-- The groups that a byte completes, from the byte and the word after it. -/
theorem push_groups (x : BitVec 32) (b : UInt8) :
    (push x b).toNat % 256 = b.toNat ∧
      (push x b).toNat / 16 % 64 = x.toNat % 4 * 16 + b.toNat / 16 ∧
      (push x b).toNat / 64 % 64 = x.toNat % 16 * 4 + b.toNat / 64 ∧
      (push x b).toNat / 256 % 64 = x.toNat % 64 := by
  have := b.toNat_lt
  rw [toNat_push]
  omega

section Loop

variable {size : ℤ} {x : BitVec 32} {dst l : Bytes} {b : UInt8}

theorem loop_kept (hroom : dst.length < size) :
    encodeLoop size (b :: l) x 6 dst =
      encodeLoop size (b :: l) x 0 (dst ++ [char (x.toNat % 64)]) := by
  obtain ⟨_, _, _, hx⟩ := push_groups x b
  simp only [encodeLoop]
  rw [show (6 : ℤ) + 8 = 14 from rfl, show (0 : ℤ) + 8 = 8 from rfl, emit_kept hroom, hx]

theorem loop_first (hl : l ≠ []) (hroom : dst.length < size) :
    encodeLoop size (b :: l) x 0 dst =
      encodeLoop size l (push x b) 2 (dst ++ [char (b.toNat / 4)]) := by
  obtain ⟨hx, _, _, _⟩ := push_groups x b
  rw [encodeLoop, List.isEmpty_eq_false_iff.mpr hl, show (0 : ℤ) + 8 = 8 from rfl,
    emit_first hroom, Option.bind_some, hx]

theorem loop_second (hl : l ≠ []) (hroom : dst.length < size) :
    encodeLoop size (b :: l) x 2 dst =
      encodeLoop size l (push x b) 4 (dst ++ [char (x.toNat % 4 * 16 + b.toNat / 16)]) := by
  obtain ⟨_, hx, _, _⟩ := push_groups x b
  rw [encodeLoop, List.isEmpty_eq_false_iff.mpr hl, show (2 : ℤ) + 8 = 10 from rfl,
    emit_second hroom, Option.bind_some, hx]

theorem loop_third (hl : l ≠ []) (hroom : dst.length < size) :
    encodeLoop size (b :: l) x 4 dst =
      encodeLoop size l (push x b) 6 (dst ++ [char (x.toNat % 16 * 4 + b.toNat / 64)]) := by
  obtain ⟨_, _, hx, _⟩ := push_groups x b
  rw [encodeLoop, List.isEmpty_eq_false_iff.mpr hl, show (4 : ℤ) + 8 = 12 from rfl,
    emit_third hroom, Option.bind_some, hx]

theorem loop_first_last (hroom : dst.length + 1 < size) :
    encodeLoop size [b] x 0 dst =
      some (dst ++ [char (b.toNat / 4)] ++ [char (b.toNat % 4 * 16)]) := by
  obtain ⟨hx, _, _, _⟩ := push_groups x b
  have h4 : (push x b).toNat % 4 = b.toNat % 4 := by omega
  rw [encodeLoop, List.isEmpty_nil, show (0 : ℤ) + 8 = 8 from rfl, emit_first_last hroom,
    Option.bind_some, encodeLoop, hx, h4]

theorem loop_second_last (hroom : dst.length + 1 < size) :
    encodeLoop size [b] x 2 dst =
      some (dst ++ [char (x.toNat % 4 * 16 + b.toNat / 16)] ++ [char (b.toNat % 16 * 4)]) := by
  obtain ⟨hb, hx, _, _⟩ := push_groups x b
  have h16 : (push x b).toNat % 16 = b.toNat % 16 := by omega
  rw [encodeLoop, List.isEmpty_nil, show (2 : ℤ) + 8 = 10 from rfl, emit_second_last hroom,
    Option.bind_some, encodeLoop, hx, h16]

theorem loop_third_last (hroom : dst.length + 1 < size) :
    encodeLoop size [b] x 4 dst =
      some (dst ++ [char (x.toNat % 16 * 4 + b.toNat / 64)] ++ [char (b.toNat % 64)]) := by
  obtain ⟨hb, _, hx, _⟩ := push_groups x b
  have h64 : (push x b).toNat % 64 = b.toNat % 64 := by omega
  rw [encodeLoop, List.isEmpty_nil, show (4 : ℤ) + 8 = 12 from rfl, emit_third_last hroom,
    Option.bind_some, encodeLoop, hx, h64]

end Loop

/-- What the loop writes from the start of three bytes on: the groups of what remains. -/
theorem encodeLoop_eq (size : ℤ) (l : Bytes) : ∀ (x : BitVec 32) (dst : Bytes),
    dst.length + (sextets l).length ≤ size →
    encodeLoop size l x 0 dst = some (dst ++ (sextets l).map char) := by
  induction l using sextets.induct with
  | case1 =>
    intro x dst _
    simp [encodeLoop, sextets]
  | case2 a =>
    intro x dst hroom
    simp only [sextets, List.length_cons, List.length_nil] at hroom
    rw [loop_first_last (by omega)]
    simp [sextets]
  | case3 a b =>
    intro x dst hroom
    obtain ⟨ha, _, _, _⟩ := push_groups x a
    have ha4 : (push x a).toNat % 4 = a.toNat % 4 := by omega
    simp only [sextets, List.length_cons, List.length_nil] at hroom
    rw [loop_first (by simp) (by omega), loop_second_last (by simp; omega), ha4]
    simp [sextets]
  | case4 a b c l ih =>
    intro x dst hroom
    obtain ⟨ha, _, _, _⟩ := push_groups x a
    obtain ⟨hb, _, _, _⟩ := push_groups (push x a) b
    obtain ⟨hc, _, _, _⟩ := push_groups (push (push x a) b) c
    have ha4 : (push x a).toNat % 4 = a.toNat % 4 := by omega
    have hb16 : (push (push x a) b).toNat % 16 = b.toNat % 16 := by omega
    have hc64 : (push (push (push x a) b) c).toNat % 64 = c.toNat % 64 := by omega
    simp only [sextets, List.length_cons] at hroom
    rw [loop_first (by simp) (by omega), loop_second (by simp) (by simp; omega), ha4]
    cases l with
    | nil =>
      rw [loop_third_last (by simp; omega), hb16]
      simp [sextets]
    | cons d l =>
      rw [loop_third (by simp) (by simp; omega), loop_kept (by simp; omega), hb16, hc64,
        ih _ _ (by simp; omega)]
      simp [sextets]

/-- The end of the text is filled up to a multiple of four characters. -/
theorem fill_eq {size : ℤ} {dst : Bytes}
    (hroom : dst.length + (4 - dst.length % 4) % 4 ≤ size) :
    fill size dst = some (dst ++ List.replicate ((4 - dst.length % 4) % 4) 61) := by
  induction hk : (4 - dst.length % 4) % 4 generalizing dst with
  | zero =>
    rw [fill, if_neg (by omega)]
    simp
  | succ k ih =>
    rw [fill, if_pos (by omega), if_pos (by omega), ih (by simp; omega) (by simp; omega),
      List.append_assoc]
    rfl

/-- **The encoder.** The text is the message's, and the block it is written to is large enough
for it and its terminator. -/
theorem base64_encode_eq {src : Bytes} (hlen : src.length < 2 ^ 29) :
    base64_encode src = some (encoded src) := by
  have hsize : (toInt32 (src.length * 4)).tdiv 3 + 12 = ((src.length * 4 / 3 + 12 : ℕ) : ℤ) := by
    rw [toInt32, Int.bmod_eq_of_le (by omega) (by omega), Int.tdiv_eq_ediv_of_nonneg (by omega)]
    omega
  have hs := length_sextets src
  have hfill : fill ((src.length * 4 / 3 + 12 : ℕ) : ℤ) ((sextets src).map char) =
      some (encoded src) := by
    rw [fill_eq (by rw [List.length_map]; omega), List.length_map]
    rfl
  have hput : (encoded src).length < ((src.length * 4 / 3 + 12 : ℕ) : ℤ) := by
    simp only [encoded, List.length_append, List.length_map, List.length_replicate]
    omega
  have hloop := encodeLoop_eq ((src.length * 4 / 3 + 12 : ℕ) : ℤ) src 0 []
    (by rw [List.length_nil]; omega)
  by_cases h0 : src.length = 0
  · rw [List.length_eq_zero_iff.mp h0]
    rfl
  · simp only [base64_encode, hsize, h0, ne_eq, not_false_eq_true, if_true, hloop, List.nil_append,
      Option.bind_eq_bind, Option.bind_some, hfill, put_ok hput]
    rfl

/-! ## What the decoder reads -/

/-- The part of a text in front of its end or its first `=`. -/
def body (text : Bytes) : Bytes := text.takeWhile fun c => c ≠ 0 ∧ c ≠ 61

theorem map2_lt : ∀ m ∈ map2, m ≠ 0xff → m.toNat < 64 := by decide +kernel

theorem value_lt {c m : UInt8} (h : value c = some m) : m.toNat < 64 := by
  obtain ⟨hget, hne⟩ := Option.filter_eq_some_iff.mp h
  exact map2_lt m (List.mem_of_getElem? hget) (by simpa using hne)

theorem value_char : ∀ n < 64, value (char n) = some (UInt8.ofNat n) := by
  decide +kernel

theorem char_body : ∀ n < 64, char n ≠ 0 ∧ char n ≠ 61 := by decide +kernel

/-- The loop over groups of six bits. -/
def storeAll (out_length : ℤ) : List UInt8 → ℕ → BitVec 32 → Bytes → Bytes
  | [], _, _, dst => dst
  | m :: ms, i, v, dst =>
    storeAll out_length ms (i + 1) (shiftIn v m) (store out_length i (shiftIn v m) dst)

theorem decodeLoop_eq (out_length : ℤ) (text : Bytes) : ∀ (i : ℕ) (v : BitVec 32) (dst : Bytes),
    decodeLoop out_length text i v dst =
      ((body text).mapM value).map fun ms => storeAll out_length ms i v dst := by
  induction text with
  | nil =>
    intro i v dst
    rfl
  | cons c text ih =>
    intro i v dst
    by_cases hc : c = 0 ∨ c = 61
    · have hbody : body (c :: text) = [] := by
        rw [body, List.takeWhile_cons_of_neg]
        simp only [ne_eq, decide_eq_true_eq]
        tauto
      rw [decodeLoop, if_pos hc, hbody]
      rfl
    · have hbody : body (c :: text) = c :: body text := by
        rw [body, List.takeWhile_cons_of_pos, ← body]
        simp only [ne_eq, decide_eq_true_eq]
        tauto
      rw [decodeLoop, if_neg hc, hbody, List.mapM_cons]
      cases hm : value c with
      | none => rfl
      | some m =>
        simp only [Option.bind_some, Option.bind_eq_bind, ih]
        cases (body text).mapM value <;> rfl

section Store

variable {N i : ℕ} {v : BitVec 32} {m : UInt8} {dst : Bytes}

/-- The low byte of a shifted word does not depend on its sign. -/
theorem low_sshiftRight (x : BitVec 32) {k : ℕ} (hk : k ≤ 24) :
    (⟨(x.sshiftRight k).setWidth 8⟩ : UInt8) = UInt8.ofNat (x.toNat / 2 ^ k) := by
  apply UInt8.toNat_inj.mp
  rw [UInt8.toNat_ofNat', ← Nat.shiftRight_eq_div_pow, ← BitVec.toNat_ushiftRight]
  have h : (x.sshiftRight k).setWidth 8 = (x >>> k).setWidth 8 := by
    apply BitVec.eq_of_getLsbD_eq
    intro j hj
    simp [BitVec.getLsbD_sshiftRight, hj, show k + j < 32 by omega, show ¬ 32 ≤ j by omega]
  change ((x.sshiftRight k).setWidth 8).toNat = _
  rw [h, BitVec.toNat_setWidth]

theorem toNat_shiftIn (hm : m.toNat < 64) :
    (shiftIn v m).toNat = (v.toNat * 64 + m.toNat) % 2 ^ 32 := by
  rw [shiftIn, BitVec.toNat_add, BitVec.toNat_shiftLeft, BitVec.toNat_setWidth, Nat.shiftLeft_eq,
    UInt8.toNat_toBitVec, Nat.mod_eq_of_lt (a := m.toNat) (by omega)]
  omega

/-- What a byte is made of: the group before it and its own. -/
theorem shiftIn_groups (hm : m.toNat < 64) :
    (shiftIn v m).toNat % 64 = m.toNat ∧
      (shiftIn v m).toNat / 2 ^ 4 % 256 = v.toNat % 64 * 4 + m.toNat / 16 ∧
      (shiftIn v m).toNat / 2 ^ 2 % 256 = (v.toNat % 64 * 16 + m.toNat / 4) % 256 ∧
      (shiftIn v m).toNat / 2 ^ 0 % 256 = (v.toNat % 64 * 64 + m.toNat) % 256 := by
  rw [toNat_shiftIn hm]
  omega

theorem store_zero (hi : i % 4 = 0) : store N i v dst = dst := if_neg (by simp [hi])

theorem store_eq (hi : i % 4 ≠ 0) (hdst : dst.length ≤ N) :
    store N i v dst = (dst ++ [UInt8.ofNat (v.toNat / 2 ^ (6 - 2 * (i % 4)))]).take N := by
  rw [← low_sshiftRight v (by omega), store]
  by_cases h : dst.length < N
  · rw [if_pos ⟨hi, by omega⟩, List.take_of_length_le (by simp; omega)]
  · rw [if_neg (by omega), List.take_append_of_le_length (by omega),
      List.take_of_length_le (by omega)]

theorem take_append_take {α : Type} (l r : List α) (N : ℕ) :
    (l.take N ++ r).take N = (l ++ r).take N := by
  rw [List.take_append, List.take_take, List.length_take, Nat.min_self, List.take_append]
  rcases Nat.le_total N l.length with h | h
  · simp [show N - min N l.length = 0 by omega, show N - l.length = 0 by omega]
  · rw [Nat.min_eq_right h]

theorem store_byte {k n : ℕ} (hi : i % 4 ≠ 0) (hk : 6 - 2 * (i % 4) = k) (hdst : dst.length ≤ N)
    (hb : v.toNat / 2 ^ k % 256 = n % 256) :
    store N i v dst = (dst ++ [UInt8.ofNat n]).take N := by
  have hbyte : UInt8.ofNat (v.toNat / 2 ^ k) = UInt8.ofNat n := by
    apply UInt8.toNat_inj.mp
    rw [UInt8.toNat_ofNat', UInt8.toNat_ofNat']
    exact hb
  rw [store_eq hi hdst, hk, hbyte]

variable {p : UInt8}

/-- The second of four groups completes a byte. -/
theorem store_second (hi : i % 4 = 1) (hdst : dst.length ≤ N) (hp : v.toNat % 64 = p.toNat)
    (hm : m.toNat < 64) :
    store N i (shiftIn v m) dst =
      (dst ++ [UInt8.ofNat (p.toNat * 4 + m.toNat / 16)]).take N := by
  apply store_byte (k := 4) (by omega) (by omega) hdst
  rw [(shiftIn_groups hm).2.1, hp]
  omega

theorem store_third (hi : i % 4 = 2) (hdst : dst.length ≤ N) (hp : v.toNat % 64 = p.toNat)
    (hm : m.toNat < 64) :
    store N i (shiftIn v m) dst =
      (dst ++ [UInt8.ofNat (p.toNat * 16 + m.toNat / 4)]).take N := by
  apply store_byte (k := 2) (by omega) (by omega) hdst
  rw [(shiftIn_groups hm).2.2.1, hp]

theorem store_fourth (hi : i % 4 = 3) (hdst : dst.length ≤ N) (hp : v.toNat % 64 = p.toNat)
    (hm : m.toNat < 64) :
    store N i (shiftIn v m) dst = (dst ++ [UInt8.ofNat (p.toNat * 64 + m.toNat)]).take N := by
  apply store_byte (k := 0) (by omega) (by omega) hdst
  rw [(shiftIn_groups hm).2.2.2, hp]

/-- Groups of six bits are stored as the bytes they make, as far as there is room. -/
theorem storeAll_eq : ∀ (ms : List UInt8) (i : ℕ) (v : BitVec 32) (dst : Bytes), i % 4 = 0 →
    dst.length ≤ N → (∀ m ∈ ms, m.toNat < 64) →
    storeAll N ms i v dst = (dst ++ octets (ms.map UInt8.toNat)).take N
  | [], i, v, dst, _, hdst, _ => by
    rw [storeAll, List.map_nil, octets, List.append_nil, List.take_of_length_le hdst]
  | [x], i, v, dst, hi, hdst, _ => by
    rw [storeAll, storeAll, store_zero hi]
    simp [octets, List.take_of_length_le hdst]
  | [x, y], i, v, dst, hi, hdst, hms => by
    have hx := (shiftIn_groups (v := v) (hms x (by simp))).1
    rw [storeAll, storeAll, storeAll, store_zero hi,
      store_second (by omega) hdst hx (hms y (by simp))]
    rfl
  | [x, y, z], i, v, dst, hi, hdst, hms => by
    have hx := (shiftIn_groups (v := v) (hms x (by simp))).1
    have hy := (shiftIn_groups (v := shiftIn v x) (hms y (by simp))).1
    rw [storeAll, storeAll, storeAll, storeAll, store_zero hi,
      store_second (by omega) hdst hx (hms y (by simp)),
      store_third (by omega) (by simp) hy (hms z (by simp)), take_append_take, List.append_assoc]
    rfl
  | x :: y :: z :: u :: ms, i, v, dst, hi, hdst, hms => by
    have hx := (shiftIn_groups (v := v) (hms x (by simp))).1
    have hy := (shiftIn_groups (v := shiftIn v x) (hms y (by simp))).1
    have hz := (shiftIn_groups (v := shiftIn (shiftIn v x) y) (hms z (by simp))).1
    have hrest : ∀ m ∈ ms, m.toNat < 64 := fun m hm => hms m (by simp [hm])
    rw [storeAll, storeAll, storeAll, storeAll, store_zero hi,
      store_second (by omega) hdst hx (hms y (by simp)),
      store_third (by omega) (by simp) hy (hms z (by simp)), take_append_take,
      store_fourth (by omega) (by simp) hz (hms u (by simp)), take_append_take,
      storeAll_eq ms (i + 1 + 1 + 1 + 1) _ _ (by omega) (by simp) hrest, take_append_take]
    simp only [List.append_assoc, List.cons_append, List.nil_append, List.map_cons, octets]

end Store

theorem mapM_value_lt (cs : Bytes) : ∀ {ms : List UInt8}, cs.mapM value = some ms →
    ∀ m ∈ ms, m.toNat < 64 := by
  induction cs with
  | nil =>
    intro ms h m hm
    cases h
    cases hm
  | cons c cs ih =>
    intro ms h m hm
    rw [List.mapM_cons] at h
    obtain ⟨n, hn, h⟩ := Option.bind_eq_some_iff.mp h
    obtain ⟨ns, hns, h⟩ := Option.bind_eq_some_iff.mp h
    cases h
    rcases List.mem_cons.mp hm with rfl | hm
    · exact value_lt hn
    · exact ih hns m hm

/-- **The decoder.** It writes the bytes of the groups in front of the first `=`, as far as `out`
has room for them, and fails exactly when one of their characters stands for no group. -/
theorem base64_decode_eq (text : Bytes) (N : ℕ) :
    base64_decode text N =
      ((body text).mapM value).map fun ms => (octets (ms.map UInt8.toNat)).take N := by
  rw [base64_decode, decodeLoop_eq]
  cases h : (body text).mapM value with
  | none => rfl
  | some ms =>
    rw [Option.map_some, Option.map_some, storeAll_eq ms 0 0 [] rfl (by simp)
      (mapM_value_lt _ h), List.nil_append]

theorem sextets_lt (l : Bytes) : ∀ n ∈ sextets l, n < 64 := by
  induction l using sextets.induct with
  | case1 => simp [sextets]
  | case2 a =>
    have := a.toNat_lt
    simp only [sextets, List.mem_cons, List.not_mem_nil, or_false]
    omega
  | case3 a b =>
    have := a.toNat_lt
    have := b.toNat_lt
    simp only [sextets, List.mem_cons, List.not_mem_nil, or_false]
    omega
  | case4 a b c l ih =>
    have := a.toNat_lt
    have := b.toNat_lt
    have := c.toNat_lt
    intro n hn
    simp only [sextets, List.mem_cons] at hn
    rcases hn with rfl | rfl | rfl | rfl | hn
    · omega
    · omega
    · omega
    · omega
    · exact ih n hn

theorem body_encoded (l : Bytes) : body (encoded l) = (sextets l).map char := by
  have hall : ∀ c ∈ (sextets l).map char, (fun c : UInt8 => decide (c ≠ 0 ∧ c ≠ 61)) c = true := by
    intro c hc
    obtain ⟨n, hn, rfl⟩ := List.mem_map.mp hc
    exact decide_eq_true (char_body n (sextets_lt l n hn))
  rw [body, encoded, List.takeWhile_append_of_pos hall]
  cases (4 - (sextets l).length % 4) % 4 with
  | zero => simp
  | succ k => rw [List.replicate_succ, List.takeWhile_cons_of_neg (by decide), List.append_nil]

theorem mapM_char (ns : List ℕ) (h : ∀ n ∈ ns, n < 64) :
    (ns.map char).mapM value = some (ns.map UInt8.ofNat) := by
  induction ns with
  | nil => rfl
  | cons n ns ih =>
    rw [List.map_cons, List.mapM_cons, value_char n (h n (by simp)),
      ih fun k hk => h k (by simp [hk])]
    rfl

theorem decode_encoded (src : Bytes) (N : ℕ) :
    base64_decode (encoded src) N = some (src.take N) := by
  have hback : ((sextets src).map UInt8.ofNat).map UInt8.toNat = sextets src := by
    rw [List.map_map]
    refine (List.map_congr_left ?_).trans (List.map_id _)
    intro n hn
    have := sextets_lt src n hn
    simp only [Function.comp_apply, UInt8.toNat_ofNat', id_eq]
    omega
  rw [base64_decode_eq, body_encoded, mapM_char _ (sextets_lt src), Option.map_some, hback,
    octets_sextets]

/-- **Round trip.** What the encoder writes is decoded to the message it was given, or to as much
of it as `out` has room for. -/
theorem base64_decode_encode {src : Bytes} (hlen : src.length < 2 ^ 29) (N : ℕ) :
    ((base64_encode src).bind fun text => base64_decode text N) = some (src.take N) := by
  rw [base64_encode_eq hlen, Option.bind_some, decode_encoded]

theorem base64_decode_encode_three :
    ((base64_encode [0, 255]).bind fun text => base64_decode text (3 : ℕ)) = some [0, 255] :=
  base64_decode_encode (by decide) 3

end ApeServer.Base64
