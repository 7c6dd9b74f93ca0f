import Mathlib.Tactic

/-!
# The words of the two digests

`md5.c` and `sha1.c` keep the 32-bit words of the algorithms in an `unsigned long`, which has
32 bits on one machine and 64 on another. Only the low 32 bits of a word ever count: every
operation on the wide words is the standard's on what is left of them.
-/
namespace ApeServer.Digest

abbrev Bytes := List UInt8

/-- A word of the standards. -/
abbrev Word := BitVec 32

variable {w : ℕ} {x y : BitVec w} {n : ℕ}

/-- What counts of an `unsigned long` of `w` bits. -/
def low (x : BitVec w) : Word := x.setWidth 32

/-- `#define S(x,n) ((x << n) | ((x & 0xFFFFFFFF) >> (32 - n)))` -/
def S (x : BitVec w) (n : ℕ) : BitVec w := (x <<< n) ||| ((x &&& 0xFFFFFFFF) >>> (32 - n))

/-- `GET_UINT32_BE(n, b, i)`; `none` where it reads outside of `b`. -/
def GET_UINT32_BE (w : ℕ) (b : Bytes) (i : ℕ) : Option (BitVec w) := do
  let b₀ ← b[i]?
  let b₁ ← b[i + 1]?
  let b₂ ← b[i + 2]?
  let b₃ ← b[i + 3]?
  return (b₀.toBitVec.setWidth w <<< 24) ||| (b₁.toBitVec.setWidth w <<< 16) |||
    (b₂.toBitVec.setWidth w <<< 8) ||| b₃.toBitVec.setWidth w

/-- `PUT_UINT32_BE(n, b, i)`: the four bytes it stores. -/
def PUT_UINT32_BE (n : BitVec w) : Bytes :=
  [⟨(n >>> 24).setWidth 8⟩, ⟨(n >>> 16).setWidth 8⟩, ⟨(n >>> 8).setWidth 8⟩, ⟨n.setWidth 8⟩]

/-- `GET_UINT32(n, b, i)` of `md5.c`, the low byte first. -/
def GET_UINT32 (w : ℕ) (b : Bytes) (i : ℕ) : Option (BitVec w) := do
  let b₀ ← b[i]?
  let b₁ ← b[i + 1]?
  let b₂ ← b[i + 2]?
  let b₃ ← b[i + 3]?
  return b₀.toBitVec.setWidth w ||| (b₁.toBitVec.setWidth w <<< 8) |||
    (b₂.toBitVec.setWidth w <<< 16) ||| (b₃.toBitVec.setWidth w <<< 24)

/-- `PUT_UINT32(n, b, i)` of `md5.c`. -/
def PUT_UINT32 (n : BitVec w) : Bytes :=
  [⟨n.setWidth 8⟩, ⟨(n >>> 8).setWidth 8⟩, ⟨(n >>> 16).setWidth 8⟩, ⟨(n >>> 24).setWidth 8⟩]

/-- The sixteen words that `get` reads of a block; `none` where it reads outside of it. -/
def words (get : ℕ → Option (BitVec w)) : Option (Fin 16 → BitVec w) :=
  if h : ∀ j : Fin 16, (get (4 * j)).isSome then some fun j => (get (4 * j)).get (h j) else none

/-- The word whose bytes are `b₃` to `b₀`, `b₃` the highest. -/
def ofBytes (b₃ b₂ b₁ b₀ : UInt8) : Word :=
  b₃.toBitVec ++ b₂.toBitVec ++ b₁.toBitVec ++ b₀.toBitVec

/-- Byte `i` of a word, byte 0 the lowest. -/
def byte (x : Word) (i : ℕ) : UInt8 := ⟨x.extractLsb' (8 * i) 8⟩

/-- The bytes of a word, the highest first. -/
def beBytes (x : Word) : Bytes := [byte x 3, byte x 2, byte x 1, byte x 0]

/-- The bytes of a word, the lowest first. -/
def leBytes (x : Word) : Bytes := [byte x 0, byte x 1, byte x 2, byte x 3]

theorem getLsbD_low (i : ℕ) : (low x).getLsbD i = (decide (i < 32) && x.getLsbD i) := by
  simp [low]

@[simp] theorem low_and : low (x &&& y) = low x &&& low y := by simp [low]

@[simp] theorem low_or : low (x ||| y) = low x ||| low y := by simp [low]

@[simp] theorem low_xor : low (x ^^^ y) = low x ^^^ low y := by simp [low]

section Wide

variable (hw : 32 ≤ w)
include hw

@[simp] theorem low_add : low (x + y) = low x + low y := by
  simp [low, BitVec.setWidth_add _ _ hw]

@[simp] theorem low_not : low (~~~x) = ~~~(low x) := by simp [low, hw]

theorem low_shiftLeft : low (x <<< n) = low x <<< n := by
  apply BitVec.eq_of_getLsbD_eq
  intro i hi
  have hiw : i < w := by omega
  simp only [getLsbD_low, BitVec.getLsbD_shiftLeft, hi, hiw, decide_true, Bool.true_and]
  by_cases hn : i < n
  · simp [hn]
  · simp [show i - n < 32 by omega]

theorem low_ofNat (m : ℕ) : low (BitVec.ofNat w m) = BitVec.ofNat 32 m := by
  apply BitVec.eq_of_toNat_eq
  simp [low, Nat.mod_mod_of_dvd _ (Nat.pow_dvd_pow 2 hw)]

theorem getLsbD_mask (i : ℕ) :
    (0xFFFFFFFF : BitVec w).getLsbD i = decide (i < 32) := by
  have h : (0xFFFFFFFF : BitVec w) = BitVec.ofNat w (2 ^ 32 - 1) := rfl
  rw [h, BitVec.getLsbD_ofNat, Nat.testBit_two_pow_sub_one]
  by_cases hi : i < 32
  · simp [hi, show i < w by omega]
  · simp [hi]

/-- The mask makes the shifted word come back in at the bottom of the low 32 bits, whatever
stands above them. -/
theorem low_S (hn : n < 32) (h0 : 0 < n) : low (S x n) = (low x).rotateLeft n := by
  apply BitVec.eq_of_getLsbD_eq
  intro i hi
  have hiw : i < w := by omega
  rw [BitVec.getLsbD_rotateLeft_of_le hn]
  simp only [S, getLsbD_low, BitVec.getLsbD_or, BitVec.getLsbD_shiftLeft, BitVec.getLsbD_ushiftRight,
    BitVec.getLsbD_and, getLsbD_mask hw, hi, hiw, decide_true, Bool.true_and]
  by_cases hin : i < n
  · simp [hin, show 32 - n + i < 32 by omega]
  · simp [hin, show ¬ 32 - n + i < 32 by omega, show i - n < 32 by omega]

theorem low_byte (b : UInt8) : low (b.toBitVec.setWidth w) = b.toBitVec.setWidth 32 := by
  apply BitVec.eq_of_getLsbD_eq
  intro i hi
  simp [low, hi, show i < w by omega]

end Wide

theorem low_PUT (x : BitVec w) (k : ℕ) (hk : k < 4) : (⟨(x >>> (8 * k)).setWidth 8⟩ : UInt8) = byte (low x) k := by
  apply UInt8.toBitVec_inj.mp
  apply BitVec.eq_of_getLsbD_eq
  intro i hi
  simp [byte, low, hi, show 8 * k + i < 32 by omega]

/-- Four bytes side by side. -/
theorem joined_eq_ofBytes (b₃ b₂ b₁ b₀ : UInt8) :
    (b₃.toBitVec.setWidth 32 <<< 24) ||| (b₂.toBitVec.setWidth 32 <<< 16) |||
      (b₁.toBitVec.setWidth 32 <<< 8) ||| b₀.toBitVec.setWidth 32 = ofBytes b₃ b₂ b₁ b₀ := by
  apply BitVec.eq_of_getLsbD_eq
  intro i hi
  simp only [ofBytes, BitVec.getLsbD_or, BitVec.getLsbD_shiftLeft, BitVec.getLsbD_setWidth,
    BitVec.getLsbD_append, hi, decide_true, Bool.true_and]
  have high : ∀ (b : UInt8) {j : ℕ}, 8 ≤ j → b.toBitVec.getLsbD j = false :=
    fun b j hj => BitVec.getLsbD_of_ge _ _ hj
  rcases Nat.lt_or_ge i 8 with h8 | h8
  · simp [h8, show i < 16 by omega, show i < 24 by omega]
  rcases Nat.lt_or_ge i 16 with h16 | h16
  · simp [h16, high b₀ h8, show i < 24 by omega, show i - 8 < 32 by omega,
      show i - 8 < 8 by omega, show ¬ i < 8 by omega]
  rcases Nat.lt_or_ge i 24 with h24 | h24
  · simp [h24, high b₀ h8, high b₁ (show 8 ≤ i - 8 by omega), show ¬ i < 8 by omega,
      show ¬ i < 16 by omega, show i - 16 < 32 by omega, show i - 8 - 8 = i - 16 by omega,
      show i - 16 < 8 by omega, show ¬ i - 8 < 8 by omega]
  · simp [high b₀ h8, high b₁ (show 8 ≤ i - 8 by omega), high b₂ (show 8 ≤ i - 16 by omega),
      show ¬ i < 8 by omega, show ¬ i < 16 by omega, show ¬ i < 24 by omega,
      show i - 24 < 32 by omega, show i - 8 - 8 - 8 = i - 24 by omega,
      show ¬ i - 8 < 8 by omega, show ¬ i - 8 - 8 < 8 by omega]

/-- The bytes of a word that is made of bytes. -/
theorem leBytes_ofBytes (b₃ b₂ b₁ b₀ : UInt8) : leBytes (ofBytes b₃ b₂ b₁ b₀) = [b₀, b₁, b₂, b₃] := by
  have hbyte : ∀ (x : Word) (b : UInt8) (i : ℕ),
      (∀ j < 8, x.getLsbD (8 * i + j) = b.toBitVec.getLsbD j) → byte x i = b := by
    intro x b i h
    apply UInt8.toBitVec_inj.mp
    apply BitVec.eq_of_getLsbD_eq
    intro j hj
    simpa [byte, hj] using h j hj
  have h₀ : byte (ofBytes b₃ b₂ b₁ b₀) 0 = b₀ := hbyte _ _ _ fun j hj => by
    simp only [ofBytes, BitVec.getLsbD_append, Nat.mul_zero, Nat.zero_add, hj, if_true]
  have h₁ : byte (ofBytes b₃ b₂ b₁ b₀) 1 = b₁ := hbyte _ _ _ fun j hj => by
    simp only [ofBytes, BitVec.getLsbD_append, show ¬ 8 * 1 + j < 8 by omega,
      show 8 * 1 + j - 8 = j by omega, hj]
    rfl
  have h₂ : byte (ofBytes b₃ b₂ b₁ b₀) 2 = b₂ := hbyte _ _ _ fun j hj => by
    simp only [ofBytes, BitVec.getLsbD_append, show ¬ 8 * 2 + j < 8 by omega,
      show ¬ 8 * 2 + j - 8 < 8 by omega, show 8 * 2 + j - 8 - 8 = j by omega, hj]
    rfl
  have h₃ : byte (ofBytes b₃ b₂ b₁ b₀) 3 = b₃ := hbyte _ _ _ fun j hj => by
    simp only [ofBytes, BitVec.getLsbD_append, show ¬ 8 * 3 + j < 8 by omega,
      show ¬ 8 * 3 + j - 8 < 8 by omega, show ¬ 8 * 3 + j - 8 - 8 < 8 by omega,
      show 8 * 3 + j - 8 - 8 - 8 = j by omega]
    rfl
  rw [leBytes, h₀, h₁, h₂, h₃]

theorem or_reverse (a b c d : Word) : a ||| b ||| c ||| d = d ||| c ||| b ||| a := by ac_rfl

variable {b : Bytes} {i : ℕ} {b₀ b₁ b₂ b₃ : UInt8}

/-- A word is read in the order of its bytes. -/
theorem GET_UINT32_BE_eq (hw : 32 ≤ w) (h₀ : b[i]? = some b₀) (h₁ : b[i + 1]? = some b₁)
    (h₂ : b[i + 2]? = some b₂) (h₃ : b[i + 3]? = some b₃) :
    (GET_UINT32_BE w b i).map low = some (ofBytes b₀ b₁ b₂ b₃) := by
  simp only [GET_UINT32_BE, h₀, h₁, h₂, h₃, Option.bind_eq_bind, Option.bind_some,
    Option.pure_def, Option.map_some, Option.some.injEq, low_or, low_shiftLeft hw, low_byte hw]
  exact joined_eq_ofBytes b₀ b₁ b₂ b₃

theorem GET_UINT32_eq (hw : 32 ≤ w) (h₀ : b[i]? = some b₀) (h₁ : b[i + 1]? = some b₁)
    (h₂ : b[i + 2]? = some b₂) (h₃ : b[i + 3]? = some b₃) :
    (GET_UINT32 w b i).map low = some (ofBytes b₃ b₂ b₁ b₀) := by
  simp only [GET_UINT32, h₀, h₁, h₂, h₃, Option.bind_eq_bind, Option.bind_some,
    Option.pure_def, Option.map_some, Option.some.injEq, low_or, low_shiftLeft hw, low_byte hw]
  rw [← joined_eq_ofBytes, or_reverse]

/-- Only the low 32 bits of a word are stored. -/
theorem PUT_UINT32_BE_eq (x : BitVec w) : PUT_UINT32_BE x = beBytes (low x) := by
  rw [beBytes, ← low_PUT x 3 (by omega), ← low_PUT x 2 (by omega), ← low_PUT x 1 (by omega),
    ← low_PUT x 0 (by omega)]
  rfl

theorem PUT_UINT32_eq (x : BitVec w) : PUT_UINT32 x = leBytes (low x) := by
  rw [leBytes, ← low_PUT x 3 (by omega), ← low_PUT x 2 (by omega), ← low_PUT x 1 (by omega),
    ← low_PUT x 0 (by omega)]
  rfl

theorem words_eq {get : ℕ → Option (BitVec w)} {M : ℕ → Word}
    (h : ∀ j < 16, (get (4 * j)).map low = some (M j)) :
    ∃ V, words get = some V ∧ ∀ j : Fin 16, low (V j) = M j := by
  have hsome : ∀ j : Fin 16, (get (4 * j)).isSome := by
    intro j
    simpa using congrArg Option.isSome (h j j.isLt)
  refine ⟨_, dif_pos hsome, ?_⟩
  intro j
  have hj := h j j.isLt
  rwa [← Option.some_get (hsome j), Option.map_some, Option.some.injEq] at hj

end ApeServer.Digest
