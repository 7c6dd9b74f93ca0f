import ApeServer.Digest.Words
import ApeServer.Lib.Blocks

/-!
# A message that arrives in pieces

`md5_update` and `sha1_update` are one algorithm over two compression functions, and so are
`md5_finish` and `sha1_finish`. A context that has taken any pieces stands for their
concatenation: its state has absorbed the whole blocks, its buffer starts with the block that
has only begun and its counter is the length.
-/
namespace ApeServer.Digest

variable {w : ℕ} {σ τ : Type}

/-- `md5_context` and `sha1_context`. -/
structure Context (w : ℕ) (σ : Type) where
  total : BitVec w × BitVec w
  state : σ
  buffer : Bytes

/-- `memcpy(buffer + left, input, length)`; `none` when it writes behind the buffer. -/
def memcpy (buffer : Bytes) (left : ℕ) (input : Bytes) : Option Bytes :=
  if left + input.length ≤ buffer.length then
    some (buffer.take left ++ input ++ buffer.drop (left + input.length))
  else none

/-- `while( length >= 64 )` of the update functions, with what is left of the input. -/
def whole (process : σ → Bytes → Option σ) (state : σ) (input : Bytes) : Option (σ × Bytes) :=
  if 64 ≤ input.length then
    (process state (input.take 64)).bind fun state => whole process state (input.drop 64)
  else some (state, input)
termination_by input.length
decreasing_by simp only [List.length_drop]; omega

/-- The counter of the update functions, which keeps 32 bits in `total[0]`. -/
def count (total : BitVec w × BitVec w) (length : BitVec w) : BitVec w × BitVec w :=
  let total₀ := (total.1 + length) &&& 0xFFFFFFFF
  (total₀, if total₀ < length then total.2 + 1 else total.2)

/-- The update functions from the loop on: whole blocks are read from the input in place, and
what is left of it goes into the buffer. -/
def absorb (process : σ → Bytes → Option σ) (ctx : Context w σ) (left : ℕ) (input : Bytes) :
    Option (Context w σ) := do
  let (state, input) ← whole process ctx.state input
  if input.length = 0 then return { ctx with state }
  let buffer ← memcpy ctx.buffer left input
  return { ctx with state, buffer }

/-- `md5_update` and `sha1_update` on the `length` bytes at `input`. -/
def update (process : σ → Bytes → Option σ) (ctx : Context w σ) (input : Bytes) :
    Option (Context w σ) :=
  if input.length = 0 then some ctx else
    let left := (ctx.total.1 &&& 0x3F).toNat
    let fill := 64 - left
    let ctx := { ctx with total := count ctx.total (BitVec.ofNat w input.length) }
    if left ≠ 0 ∧ fill ≤ input.length then do
      let buffer ← memcpy ctx.buffer left (input.take fill)
      let state ← process ctx.state buffer
      absorb process { ctx with state, buffer } 0 (input.drop fill)
    else absorb process ctx left input

/-- `md5_padding` and `sha1_padding`. -/
def padding : Bytes := 0x80 :: List.replicate 63 0

/-- The two words of the bit count, high word first. -/
def bitCount (total : BitVec w × BitVec w) : BitVec w × BitVec w :=
  ((total.1 >>> 29) ||| (total.2 <<< 3), total.1 <<< 3)

/-- `md5_finish` and `sha1_finish` up to the digest; `msglen` lays out the two words. -/
def finish (process : σ → Bytes → Option σ) (msglen : BitVec w × BitVec w → Bytes)
    (ctx : Context w σ) : Option (Context w σ) := do
  let msglen := msglen (bitCount ctx.total)
  let last := (ctx.total.1 &&& 0x3F).toNat
  let padn := if last < 56 then 56 - last else 120 - last
  let ctx ← update process ctx (padding.take padn)
  update process ctx msglen

/-- The zeros that bring a message with its `0x80` to eight bytes before a block's end. -/
def zeros (length : ℕ) : ℕ := (119 - length % 64) % 64

/-- The message as the standards hash it; `msglen` lays out its length. -/
def padded (msglen : ℕ → Bytes) (m : Bytes) : Bytes :=
  m ++ 0x80 :: List.replicate (zeros m.length) 0 ++ msglen m.length

/-- The code's compression of a block is the standard's, seen through `abs`. -/
structure Refines (process : σ → Bytes → Option σ) (abs : σ → τ)
    (compress : τ → Bytes → τ) : Prop where
  step : ∀ s b, b.length = 64 → ∃ s', process s b = some s' ∧ abs s' = compress (abs s) b

/-- The context has taken exactly the bytes of `m`. -/
structure Seen (abs : σ → τ) (compress : τ → Bytes → τ) (init : τ) (ctx : Context w σ)
    (m : Bytes) : Prop where
  size : ctx.buffer.length = 64
  total₀ : ctx.total.1 = BitVec.ofNat w (m.length % 2 ^ 32)
  total₁ : ctx.total.2 = BitVec.ofNat w (m.length / 2 ^ 32)
  state : abs ctx.state = Blocks.fold 64 compress init m
  tail : ctx.buffer.take (m.length % 64) = Blocks.tail 64 m

variable {process : σ → Bytes → Option σ} {abs : σ → τ} {compress : τ → Bytes → τ} {init : τ}
  {ctx : Context w σ} {m input : Bytes}

theorem Refines.whole (h : Refines process abs compress) (s : σ) (input : Bytes) :
    ∃ s', whole process s input = some (s', Blocks.tail 64 input) ∧
      abs s' = Blocks.fold 64 compress (abs s) input := by
  induction hn : input.length using Nat.strong_induction_on generalizing input s with
  | _ n ih =>
    rw [Digest.whole]
    by_cases hle : 64 ≤ input.length
    · obtain ⟨s₁, hs₁, habs⟩ := h.step s (input.take 64) (by simp; omega)
      obtain ⟨s', hs', h'⟩ := ih (input.drop 64).length (by simp; omega) s₁ _ rfl
      refine ⟨s', ?_, ?_⟩
      · rw [if_pos hle, hs₁, Option.bind_some, hs', ← Blocks.tail_drop (by omega) hle]
      · rw [h', habs, ← Blocks.fold_drop (by omega) hle]
    · exact ⟨s, by rw [if_neg hle, Blocks.tail_of_lt (by omega)],
        (Blocks.fold_of_lt (by omega)).symm⟩

theorem toNat_word (hw : 32 ≤ w) {n : ℕ} (hn : n < 2 ^ 32) : (BitVec.ofNat w n).toNat = n := by
  have hpow := Nat.pow_le_pow_right (show 0 < 2 by omega) hw
  rw [BitVec.toNat_ofNat, Nat.mod_eq_of_lt (by omega)]

theorem toNat_mask (hw : 32 ≤ w) (x : BitVec w) :
    (x &&& 0xFFFFFFFF).toNat = x.toNat % 2 ^ 32 := by
  have h : (0xFFFFFFFF : BitVec w).toNat = 2 ^ 32 - 1 := toNat_word hw (n := 2 ^ 32 - 1) (by omega)
  rw [BitVec.toNat_and, h, Nat.and_two_pow_sub_one_eq_mod]

/-- `total[0] & 0x3F` is how much of a block is in the buffer. -/
theorem toNat_left (hw : 32 ≤ w) (n : ℕ) :
    (BitVec.ofNat w (n % 2 ^ 32) &&& 0x3F).toNat = n % 64 := by
  have h : (0x3F : BitVec w).toNat = 2 ^ 6 - 1 := toNat_word hw (n := 2 ^ 6 - 1) (by omega)
  rw [BitVec.toNat_and, h, Nat.and_two_pow_sub_one_eq_mod, toNat_word hw (by omega)]
  omega

/-- The carry into `total[1]` is found by the sum being less than what was added. -/
theorem count_eq (hw : 32 ≤ w) (n k : ℕ) (hk : k < 2 ^ 32) :
    count (BitVec.ofNat w (n % 2 ^ 32), BitVec.ofNat w (n / 2 ^ 32)) (BitVec.ofNat w k) =
      (BitVec.ofNat w ((n + k) % 2 ^ 32), BitVec.ofNat w ((n + k) / 2 ^ 32)) := by
  have hn := toNat_word hw (Nat.mod_lt n (show 0 < 2 ^ 32 by omega))
  have hnk := toNat_word hw (Nat.mod_lt (n + k) (show 0 < 2 ^ 32 by omega))
  have hk' := toNat_word hw hk
  have hsum : (BitVec.ofNat w (n % 2 ^ 32) + BitVec.ofNat w k) &&& 0xFFFFFFFF =
      BitVec.ofNat w ((n + k) % 2 ^ 32) := by
    apply BitVec.eq_of_toNat_eq
    rw [toNat_mask hw, BitVec.toNat_add, Nat.mod_mod_of_dvd _ (Nat.pow_dvd_pow 2 hw), hn, hnk, hk']
    omega
  have hlt : BitVec.ofNat w ((n + k) % 2 ^ 32) < BitVec.ofNat w k ↔
      (n + k) / 2 ^ 32 = n / 2 ^ 32 + 1 := by
    rw [BitVec.lt_def, hnk, hk']
    omega
  simp only [count, hsum, Prod.mk.injEq, true_and]
  by_cases hc : BitVec.ofNat w ((n + k) % 2 ^ 32) < BitVec.ofNat w k
  · rw [if_pos hc, hlt.mp hc, BitVec.ofNat_add]
    rfl
  · have : (n + k) / 2 ^ 32 = n / 2 ^ 32 := by
      have := mt hlt.mpr hc
      omega
    rw [if_neg hc, this]

theorem memcpy_ok (buffer : Bytes) (left : ℕ) (input : Bytes)
    (h : left + input.length ≤ buffer.length) :
    ∃ b, memcpy buffer left input = some b ∧ b.length = buffer.length ∧
      b.take (left + input.length) = buffer.take left ++ input := by
  refine ⟨_, if_pos h, by simp; omega, ?_⟩
  rw [List.append_assoc, ← List.append_assoc, List.take_append_of_le_length (by simp; omega)]
  exact List.take_of_length_le (by simp)

/-- What `update` makes of the state, the buffer and the rest of the input when the block that
had begun is completed. -/
theorem Seen.filled (hr : Refines process abs compress) (h : Seen abs compress init ctx m)
    (hfill : 64 - m.length % 64 ≤ input.length) :
    ∃ b s, memcpy ctx.buffer (m.length % 64) (input.take (64 - m.length % 64)) = some b ∧
      b.length = 64 ∧ process ctx.state b = some s ∧
      abs s = compress (abs ctx.state) ((Blocks.tail 64 m ++ input).take 64) := by
  have hlt := Nat.mod_lt m.length (show 0 < 64 by omega)
  have hlen : (input.take (64 - m.length % 64)).length = 64 - m.length % 64 := by
    rw [List.length_take]
    omega
  obtain ⟨b, hb, hsize, htake⟩ := memcpy_ok ctx.buffer (m.length % 64)
    (input.take (64 - m.length % 64)) (by rw [h.size, hlen]; omega)
  rw [h.size] at hsize
  obtain ⟨s, hs, habs⟩ := hr.step ctx.state b hsize
  refine ⟨b, s, hb, hsize, hs, ?_⟩
  have hall : b.take (m.length % 64 + (64 - m.length % 64)) = b :=
    List.take_of_length_le (by omega)
  rw [hlen, hall, h.tail] at htake
  rw [habs, htake, List.take_append, List.take_of_length_le (l := Blocks.tail 64 m)
    (by rw [Blocks.length_tail]; omega), Blocks.length_tail]

/-- The loop and the last copy, for a context at the end of a block. -/
theorem absorb_aligned (hr : Refines process abs compress) (ctx : Context w σ) (input : Bytes)
    (hsize : ctx.buffer.length = 64) :
    ∃ ctx', absorb process ctx 0 input = some ctx' ∧ ctx'.buffer.length = 64 ∧
      ctx'.total = ctx.total ∧ abs ctx'.state = Blocks.fold 64 compress (abs ctx.state) input ∧
      ctx'.buffer.take (input.length % 64) = Blocks.tail 64 input := by
  obtain ⟨s, hs, habs⟩ := hr.whole ctx.state input
  have hlen : (Blocks.tail 64 input).length = input.length % 64 := Blocks.length_tail
  simp only [absorb, hs, Option.bind_eq_bind, Option.bind_some]
  by_cases h0 : (Blocks.tail 64 input).length = 0
  · refine ⟨_, if_pos h0, hsize, rfl, habs, ?_⟩
    rw [← hlen, h0, List.length_eq_zero_iff.mp h0, List.take_zero]
  · obtain ⟨b, hb, hbl, htake⟩ := memcpy_ok ctx.buffer 0 (Blocks.tail 64 input)
      (by rw [hlen, hsize]; omega)
    refine ⟨{ ctx with state := s, buffer := b }, ?_, hbl.trans hsize, rfl, habs, ?_⟩
    · rw [if_neg h0, hb]
      rfl
    · rw [← hlen]
      simpa using htake

/-- A piece that does not complete the block is copied behind what the buffer holds. -/
theorem absorb_short (process : σ → Bytes → Option σ) (ctx : Context w σ)
    (hsize : ctx.buffer.length = 64) {left : ℕ} (h0 : input.length ≠ 0)
    (hlt : left + input.length < 64) :
    ∃ b, absorb process ctx left input = some { ctx with buffer := b } ∧ b.length = 64 ∧
      b.take (left + input.length) = ctx.buffer.take left ++ input := by
  obtain ⟨b, hb, hbl, htake⟩ := memcpy_ok ctx.buffer left input (by omega)
  refine ⟨b, ?_, hbl.trans hsize, htake⟩
  have hw : whole process ctx.state input = some (ctx.state, input) := by
    rw [whole, if_neg (by omega)]
  simp only [absorb, hw, Option.bind_eq_bind, Option.bind_some, h0, if_false, hb]
  rfl

/-- A context after a piece, from what became of the block that had begun. -/
theorem Seen.append (hw : 32 ≤ w) (h : Seen abs compress init ctx m) (hk : input.length < 2 ^ 32)
    {ctx' : Context w σ} (hsize : ctx'.buffer.length = 64)
    (htotal : ctx'.total = count ctx.total (BitVec.ofNat w input.length))
    (hstate : abs ctx'.state =
      Blocks.fold 64 compress (abs ctx.state) (Blocks.tail 64 m ++ input))
    (htail : ctx'.buffer.take ((Blocks.tail 64 m ++ input).length % 64) =
      Blocks.tail 64 (Blocks.tail 64 m ++ input)) :
    Seen abs compress init ctx' (m ++ input) := by
  have ht : ctx'.total = (BitVec.ofNat w ((m ++ input).length % 2 ^ 32),
      BitVec.ofNat w ((m ++ input).length / 2 ^ 32)) := by
    rw [htotal, List.length_append, ← count_eq hw _ _ hk, ← h.total₀, ← h.total₁]
  refine ⟨hsize, by rw [ht], by rw [ht], ?_, ?_⟩
  · rw [hstate, h.state, ← Blocks.fold_append (by omega)]
  · rw [Blocks.tail_append (by omega), ← htail]
    simp only [List.length_append, Blocks.length_tail, Nat.mod_add_mod]

/-- **Update.** A piece of any length is appended to what the context has taken. -/
theorem Seen.update (hw : 32 ≤ w) (hr : Refines process abs compress)
    (h : Seen abs compress init ctx m) (hk : input.length < 2 ^ 32) :
    ∃ ctx', update process ctx input = some ctx' ∧
      Seen abs compress init ctx' (m ++ input) := by
  by_cases h0 : input.length = 0
  · rw [List.length_eq_zero_iff.mp h0, List.append_nil]
    exact ⟨ctx, if_pos rfl, h⟩
  have hleft : (ctx.total.1 &&& 0x3F).toNat = m.length % 64 := h.total₀ ▸ toNat_left hw _
  have hlen : (Blocks.tail 64 m).length = m.length % 64 := Blocks.length_tail
  have hlt := Nat.mod_lt m.length (show 0 < 64 by omega)
  simp only [Digest.update, h0, if_false, hleft]
  by_cases hf : m.length % 64 ≠ 0 ∧ 64 - m.length % 64 ≤ input.length
  · -- the block that had begun is completed in the buffer
    obtain ⟨b, s, hb, hbl, hs, habs⟩ := h.filled hr hf.2
    have hdrop : input.drop (64 - m.length % 64) = (Blocks.tail 64 m ++ input).drop 64 := by
      rw [List.drop_append, List.drop_of_length_le (l := Blocks.tail 64 m) (by omega), hlen,
        List.nil_append]
    have hle : 64 ≤ (Blocks.tail 64 m ++ input).length := by
      rw [List.length_append]
      omega
    obtain ⟨ctx', hctx, hsize, htotal, hstate, htail⟩ := absorb_aligned hr
      { ctx with total := count ctx.total (BitVec.ofNat w input.length), state := s, buffer := b }
      (input.drop (64 - m.length % 64)) hbl
    refine ⟨ctx', by simpa [hf, hb, hs] using hctx, h.append hw hk hsize htotal ?_ ?_⟩
    · rw [hstate, hdrop, Blocks.fold_drop (by omega) hle]
      exact congrArg (Blocks.fold 64 compress · _) habs
    · rw [Blocks.tail_drop (by omega) hle, ← hdrop, ← htail, hdrop, List.length_drop]
      congr 1
      omega
  rw [if_neg hf]
  by_cases hz : m.length % 64 = 0
  · -- nothing was in the buffer
    have hnil : Blocks.tail 64 m = [] := List.length_eq_zero_iff.mp (hlen.trans hz)
    obtain ⟨ctx', hctx, hsize, htotal, hstate, htail⟩ := absorb_aligned hr
      { ctx with total := count ctx.total (BitVec.ofNat w input.length) } input h.size
    refine ⟨ctx', by rw [hz]; exact hctx, h.append hw hk hsize htotal ?_ ?_⟩
    · rw [hstate, hnil, List.nil_append]
    · rw [hnil, List.nil_append, htail]
  · -- the block is not completed
    have hshort : m.length % 64 + input.length < 64 := by
      simp only [not_and, not_le] at hf
      have := hf hz
      omega
    have hall : (Blocks.tail 64 m ++ input).length = m.length % 64 + input.length := by
      rw [List.length_append, hlen]
    obtain ⟨b, hb, hbl, htake⟩ := absorb_short process
      { ctx with total := count ctx.total (BitVec.ofNat w input.length) } h.size h0 hshort
    refine ⟨_, hb, h.append hw hk hbl rfl ?_ ?_⟩
    · rw [Blocks.fold_of_lt (by omega)]
    · rw [Blocks.tail_of_lt (l := Blocks.tail 64 m ++ input) (by omega), hall,
        Nat.mod_eq_of_lt hshort, htake, h.tail]

/-- Pieces are taken one after the other. -/
theorem Seen.updates (hw : 32 ≤ w) (hr : Refines process abs compress) {pieces : List Bytes}
    (hk : ∀ p ∈ pieces, p.length < 2 ^ 32) :
    ∀ {ctx : Context w σ} {m : Bytes}, Seen abs compress init ctx m →
      ∃ ctx', pieces.foldlM (Digest.update process) ctx = some ctx' ∧
        Seen abs compress init ctx' (m ++ pieces.flatten) := by
  induction pieces with
  | nil =>
    intro ctx m h
    exact ⟨ctx, rfl, by simpa using h⟩
  | cons p pieces ih =>
    intro ctx m h
    obtain ⟨ctx₁, hp, h₁⟩ := h.update hw hr (hk p List.mem_cons_self)
    obtain ⟨ctx', hrest, h'⟩ := ih (fun q hq => hk q (List.mem_cons_of_mem p hq)) h₁
    refine ⟨ctx', ?_, ?_⟩
    · rw [List.foldlM_cons, hp]
      exact hrest
    · rw [List.flatten_cons, ← List.append_assoc]
      exact h'

theorem padding_take {n : ℕ} (hn : n < 64) :
    padding.take (n + 1) = 0x80 :: List.replicate n 0 := by
  rw [padding, List.take_succ_cons, List.take_replicate, Nat.min_eq_left (by omega)]

/-- **Finish.** The state after the padding is that of the padded message. -/
theorem Seen.finish (hw : 32 ≤ w) (hr : Refines process abs compress)
    (h : Seen abs compress init ctx m) (msglen : BitVec w × BitVec w → Bytes) (lay : ℕ → Bytes)
    (hlay : ∀ n, msglen (bitCount (BitVec.ofNat w (n % 2 ^ 32), BitVec.ofNat w (n / 2 ^ 32))) =
      lay n) (h8 : ∀ n, (lay n).length = 8) :
    ∃ ctx', finish process msglen ctx = some ctx' ∧ ctx'.buffer.length = 64 ∧
      abs ctx'.state = Blocks.fold 64 compress init (padded lay m) := by
  have hleft : (ctx.total.1 &&& 0x3F).toNat = m.length % 64 := h.total₀ ▸ toNat_left hw _
  have hcount : msglen (bitCount ctx.total) = lay m.length := by
    rw [← hlay, ← h.total₀, ← h.total₁]
  have hpadn : (if m.length % 64 < 56 then 56 - m.length % 64 else 120 - m.length % 64) =
      zeros m.length + 1 := by
    rw [zeros]
    split <;> omega
  have hz : zeros m.length < 64 := Nat.mod_lt _ (by omega)
  have hpad : (0x80 :: List.replicate (zeros m.length) 0 : Bytes).length < 2 ^ 32 := by
    rw [List.length_cons, List.length_replicate]
    omega
  have hlast : (lay m.length).length < 2 ^ 32 := by
    rw [h8]
    omega
  obtain ⟨ctx₁, h₁, hs₁⟩ := h.update hw hr hpad
  obtain ⟨ctx', h', hs'⟩ := hs₁.update hw hr hlast
  refine ⟨ctx', ?_, hs'.size, ?_⟩
  · simp only [Digest.finish, hleft, hpadn, padding_take hz, hcount, h₁, Option.bind_eq_bind,
      Option.bind_some, h']
  · rw [hs'.state]
    rfl

/-- The two stored words are those of eight times the length. -/
theorem low_bitCount (hw : 32 ≤ w) (n : ℕ) :
    low (bitCount (BitVec.ofNat w (n % 2 ^ 32), BitVec.ofNat w (n / 2 ^ 32))).1 =
        BitVec.ofNat 32 (8 * n / 2 ^ 32) ∧
      low (bitCount (BitVec.ofNat w (n % 2 ^ 32), BitVec.ofNat w (n / 2 ^ 32))).2 =
        BitVec.ofNat 32 (8 * n) := by
  have hn := toNat_word hw (Nat.mod_lt n (show 0 < 2 ^ 32 by omega))
  constructor
  · have hhigh : low (BitVec.ofNat w (n % 2 ^ 32) >>> 29) =
        BitVec.ofNat 32 (n % 2 ^ 32 / 2 ^ 29) := by
      apply BitVec.eq_of_toNat_eq
      simp only [low, BitVec.toNat_setWidth, BitVec.toNat_ushiftRight, hn, BitVec.toNat_ofNat,
        Nat.shiftRight_eq_div_pow]
    have hdisjoint : BitVec.ofNat 32 (n % 2 ^ 32 / 2 ^ 29) &&& BitVec.ofNat 32 (n / 2 ^ 32) <<< 3 =
        0#32 := by
      apply BitVec.eq_of_getLsbD_eq
      intro i hi
      rw [BitVec.getLsbD_and, BitVec.getLsbD_shiftLeft, BitVec.getLsbD_ofNat]
      by_cases h3 : i < 3
      · simp [h3]
      · have hlt : n % 2 ^ 32 / 2 ^ 29 < 2 ^ i := by
          have := Nat.pow_le_pow_right (show 0 < 2 by omega) (show 3 ≤ i by omega)
          omega
        rw [Nat.testBit_lt_two_pow hlt, Bool.and_false, Bool.false_and, BitVec.getLsbD_zero]
    rw [bitCount, low_or, hhigh, low_shiftLeft hw, low_ofNat hw,
      ← BitVec.add_eq_or_of_and_eq_zero _ _ hdisjoint]
    apply BitVec.eq_of_toNat_eq
    simp only [BitVec.toNat_add, BitVec.toNat_shiftLeft, BitVec.toNat_ofNat,
      Nat.shiftLeft_eq]
    omega
  · rw [bitCount, low_shiftLeft hw, low_ofNat hw]
    apply BitVec.eq_of_toNat_eq
    simp only [BitVec.toNat_shiftLeft, BitVec.toNat_ofNat, Nat.shiftLeft_eq]
    omega

end ApeServer.Digest
