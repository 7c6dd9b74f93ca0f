import ApeServer.Sock.Bufout

/-!
# Room in the input buffer

`sockroutine` reads behind `length` and doubles a buffer that is full. `size` and `length` are
`unsigned int`.
-/
namespace ApeServer.Sock

/-- `_ape_buffer`; `alloc` counts the bytes that were allocated for `data`. -/
structure ApeBuffer where
  alloc : ℕ
  size : UInt32
  length : UInt32
deriving DecidableEq, Repr

/-- The most that one `read()` transfers. -/
def readMax : ℕ := 0x7ffff000

namespace ApeBuffer

/-- The buffer of a connection that was accepted. -/
def new : ApeBuffer :=
  { alloc := 2049
    size := 2048
    length := 0 }

/-- The third argument of `read()`. -/
def capacity (b : ApeBuffer) : UInt32 := b.size - b.length

/-- What happens to the buffer when a read has given `readb` bytes. -/
def stored (b : ApeBuffer) (readb : ℕ) : ApeBuffer :=
  let length := b.length + UInt32.ofNat readb
  if length = b.size then
    let size := b.size * 2
    { alloc := (size + 1).toNat
      size
      length }
  else { b with length }

/-- A read can give that many bytes. -/
def Fits (b : ApeBuffer) (readb : ℕ) : Prop :=
  0 < readb ∧ readb ≤ b.capacity.toNat ∧ readb ≤ readMax

instance (b : ApeBuffer) (readb : ℕ) : Decidable (b.Fits readb) :=
  inferInstanceAs (Decidable (_ ∧ _))

/-- The next read is given room, all of it in what was allocated. -/
def Room (b : ApeBuffer) : Prop := b.length < b.size ∧ b.size.toNat + 1 ≤ b.alloc

/-- The read fills a buffer whose size an `unsigned int` does not hold twice. -/
def Overflows (b : ApeBuffer) (readb : ℕ) : Prop :=
  b.size.toNat = 2 ^ 31 ∧ b.length.toNat + readb = 2 ^ 31

/-- A buffer that was doubled some times and has not overflowed. -/
structure Sized (b : ApeBuffer) : Prop where
  size : ∃ k ≤ 20, b.size.toNat = 2048 * 2 ^ k
  alloc : b.alloc = b.size.toNat + 1
  length : b.length.toNat < b.size.toNat

variable {b : ApeBuffer} {n : ℕ}

theorem new_sized : Sized new := ⟨⟨0, by decide, rfl⟩, rfl, by decide⟩

theorem Sized.room (h : Sized b) : Room b :=
  ⟨UInt32.lt_iff_toNat_lt.mpr h.length, h.alloc.ge⟩

theorem Sized.size_le (h : Sized b) : b.size.toNat ≤ 2 ^ 31 := by
  obtain ⟨k, hk, hs⟩ := h.size
  rw [hs]
  calc 2048 * 2 ^ k ≤ 2048 * 2 ^ 20 := Nat.mul_le_mul_left _ (Nat.pow_le_pow_right (by decide) hk)
    _ = 2 ^ 31 := by decide

theorem capacity_toNat (h : b.length.toNat < b.size.toNat) :
    b.capacity.toNat = b.size.toNat - b.length.toNat :=
  UInt32.toNat_sub_of_le _ _ (UInt32.le_iff_toNat_le.mpr h.le)

theorem Sized.capacity_pos (h : Sized b) : 0 < b.capacity.toNat := by
  have := h.length
  rw [capacity_toNat h.length]
  omega

theorem Sized.fits_le (h : Sized b) (hf : b.Fits n) : b.length.toNat + n ≤ b.size.toNat := by
  have hc := capacity_toNat h.length
  have hl := h.length
  have hn := hf.2.1
  omega

/-- `length` does not wrap. -/
theorem Sized.length_add (h : Sized b) (hf : b.Fits n) :
    (b.length + UInt32.ofNat n).toNat = b.length.toNat + n := by
  have hle := h.fits_le hf
  have hsize := h.size_le
  rw [UInt32.toNat_add, UInt32.toNat_ofNat']
  omega

theorem Sized.stored_length (h : Sized b) (hf : b.Fits n) :
    (b.stored n).length.toNat = b.length.toNat + n := by
  rw [← h.length_add hf]
  simp only [stored]
  split <;> rfl

theorem Sized.full_iff (h : Sized b) (hf : b.Fits n) :
    b.length + UInt32.ofNat n = b.size ↔ b.length.toNat + n = b.size.toNat := by
  rw [← UInt32.toNat_inj, h.length_add hf]

theorem Sized.stored_overflows (h : Sized b) (hf : b.Fits n) (ho : b.Overflows n) :
    (b.stored n).size = 0 := by
  have hfull : b.length + UInt32.ofNat n = b.size := (h.full_iff hf).mpr (ho.2.trans ho.1.symm)
  have hwrap : (b.size * 2).toNat = (0 : UInt32).toNat := by
    rw [UInt32.toNat_mul, ho.1]
    decide
  simp only [stored, if_pos hfull]
  exact UInt32.toNat_inj.mp hwrap

/-- The buffer is doubled before its size would wrap. -/
theorem Sized.stored (h : Sized b) (hf : b.Fits n) (ho : ¬b.Overflows n) :
    Sized (b.stored n) := by
  have hlen := h.stored_length hf
  by_cases hfull : b.length.toNat + n = b.size.toNat
  · obtain ⟨k, hk, hs⟩ := h.size
    have hk' : k < 20 := by
      refine lt_of_le_of_ne hk fun he => ho ?_
      subst he
      have hmax : b.size.toNat = 2 ^ 31 := hs
      exact ⟨hmax, hfull.trans hmax⟩
    have hpow : 2048 * 2 ^ (k + 1) ≤ 2048 * 2 ^ 20 :=
      Nat.mul_le_mul_left _ (Nat.pow_le_pow_right (by decide) hk')
    have htwice : 2048 * 2 ^ (k + 1) = b.size.toNat * 2 := by
      rw [hs, pow_succ]
      ring
    have hsize : (b.stored n).size.toNat = b.size.toNat * 2 := by
      simp only [ApeBuffer.stored, if_pos ((h.full_iff hf).mpr hfull), UInt32.toNat_mul,
        UInt32.reduceToNat]
      omega
    have halloc : (b.stored n).alloc = (b.stored n).size.toNat + 1 := by
      rw [hsize]
      simp only [ApeBuffer.stored, if_pos ((h.full_iff hf).mpr hfull), UInt32.toNat_add,
        UInt32.toNat_mul, UInt32.reduceToNat]
      omega
    refine ⟨⟨k + 1, hk', hsize.trans htwice.symm⟩, halloc, ?_⟩
    have := h.length
    omega
  · have hle := h.fits_le hf
    have hsame : b.stored n = { b with length := b.length + UInt32.ofNat n } := by
      simp only [ApeBuffer.stored, if_neg fun he => hfull ((h.full_iff hf).mp he)]
    have hsize : (b.stored n).size = b.size := by rw [hsame]
    have halloc : (b.stored n).alloc = b.alloc := by rw [hsame]
    refine ⟨hsize ▸ h.size, ?_, ?_⟩
    · rw [hsize, halloc, h.alloc]
    · rw [hlen, hsize]
      omega

/-- No buffer is smaller than that of an accepted connection. -/
theorem Sized.fits (h : Sized b) (hn : 0 < n) (hle : b.length.toNat + n ≤ 2048) : b.Fits n := by
  obtain ⟨k, -, hs⟩ := h.size
  have hsize : 2048 ≤ b.size.toNat := by
    rw [hs]
    exact Nat.le_mul_of_pos_right _ (Nat.two_pow_pos k)
  refine ⟨hn, ?_, ?_⟩
  · rw [capacity_toNat h.length]
    omega
  · rw [readMax]
    omega
/-- A smaller length leaves the room there is. -/
theorem Sized.shrink (h : Sized b) {m : UInt32} (hm : m.toNat ≤ b.length.toNat) :
    Sized { b with length := m } :=
  ⟨h.size, h.alloc, hm.trans_lt h.length⟩

end ApeBuffer

end ApeServer.Sock
