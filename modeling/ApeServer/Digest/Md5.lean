import ApeServer.Digest.Stream

/-!
# `md5.c`

As for `sha1.c`: the four variables change their roles from step to step, and the words are
wider than the standard's. The digest of every message is the standard's.
-/
namespace ApeServer.Digest.Md5

variable {w : ℕ}

/-- `ctx->state`. -/
structure State (w : ℕ) where
  a : BitVec w
  b : BitVec w
  c : BitVec w
  d : BitVec w

/-- The variables of `md5_process`. -/
structure Work (w : ℕ) where
  A : BitVec w
  B : BitVec w
  C : BitVec w
  D : BitVec w

/-- The last three arguments of a `P`: an index into `X`, a rotation and a constant. -/
abbrev Row := Fin 16 × ℕ × ℕ

/-- `P(a, b, c, d, k, s, t)`: what it stores in `a`. -/
def P (F : BitVec w → BitVec w → BitVec w → BitVec w) (X : Fin 16 → BitVec w)
    (a b c d : BitVec w) (r : Row) : BitVec w :=
  S (a + (F b c d + X r.1 + BitVec.ofNat w r.2.2)) r.2.1 + b

/-- Four steps, after which every variable has its role again. -/
def turn (F : BitVec w → BitVec w → BitVec w → BitVec w) (X : Fin 16 → BitVec w) (s : Work w)
    (r : Row × Row × Row × Row) : Work w :=
  let A := P F X s.A s.B s.C s.D r.1
  let D := P F X s.D A s.B s.C r.2.1
  let C := P F X s.C D A s.B r.2.2.1
  let B := P F X s.B C D A r.2.2.2
  { A, B, C, D }

/-- `#define F(x,y,z) (z ^ (x & (y ^ z)))` -/
def F₁ (x y z : BitVec w) : BitVec w := z ^^^ (x &&& (y ^^^ z))

/-- `#define F(x,y,z) (y ^ (z & (x ^ y)))` -/
def F₂ (x y z : BitVec w) : BitVec w := y ^^^ (z &&& (x ^^^ y))

/-- `#define F(x,y,z) (x ^ y ^ z)` -/
def F₃ (x y z : BitVec w) : BitVec w := x ^^^ y ^^^ z

/-- `#define F(x,y,z) (y ^ (x | ~z))` -/
def F₄ (x y z : BitVec w) : BitVec w := y ^^^ (x ||| ~~~z)

/-- The steps with the first function. -/
def steps₁ : List (Row × Row × Row × Row) :=
  [((0, 7, 0xD76AA478), (1, 12, 0xE8C7B756), (2, 17, 0x242070DB), (3, 22, 0xC1BDCEEE)),
   ((4, 7, 0xF57C0FAF), (5, 12, 0x4787C62A), (6, 17, 0xA8304613), (7, 22, 0xFD469501)),
   ((8, 7, 0x698098D8), (9, 12, 0x8B44F7AF), (10, 17, 0xFFFF5BB1), (11, 22, 0x895CD7BE)),
   ((12, 7, 0x6B901122), (13, 12, 0xFD987193), (14, 17, 0xA679438E), (15, 22, 0x49B40821))]

def steps₂ : List (Row × Row × Row × Row) :=
  [((1, 5, 0xF61E2562), (6, 9, 0xC040B340), (11, 14, 0x265E5A51), (0, 20, 0xE9B6C7AA)),
   ((5, 5, 0xD62F105D), (10, 9, 0x02441453), (15, 14, 0xD8A1E681), (4, 20, 0xE7D3FBC8)),
   ((9, 5, 0x21E1CDE6), (14, 9, 0xC33707D6), (3, 14, 0xF4D50D87), (8, 20, 0x455A14ED)),
   ((13, 5, 0xA9E3E905), (2, 9, 0xFCEFA3F8), (7, 14, 0x676F02D9), (12, 20, 0x8D2A4C8A))]

def steps₃ : List (Row × Row × Row × Row) :=
  [((5, 4, 0xFFFA3942), (8, 11, 0x8771F681), (11, 16, 0x6D9D6122), (14, 23, 0xFDE5380C)),
   ((1, 4, 0xA4BEEA44), (4, 11, 0x4BDECFA9), (7, 16, 0xF6BB4B60), (10, 23, 0xBEBFBC70)),
   ((13, 4, 0x289B7EC6), (0, 11, 0xEAA127FA), (3, 16, 0xD4EF3085), (6, 23, 0x04881D05)),
   ((9, 4, 0xD9D4D039), (12, 11, 0xE6DB99E5), (15, 16, 0x1FA27CF8), (2, 23, 0xC4AC5665))]

def steps₄ : List (Row × Row × Row × Row) :=
  [((0, 6, 0xF4292244), (7, 10, 0x432AFF97), (14, 15, 0xAB9423A7), (5, 21, 0xFC93A039)),
   ((12, 6, 0x655B59C3), (3, 10, 0x8F0CCC92), (10, 15, 0xFFEFF47D), (1, 21, 0x85845DD1)),
   ((8, 6, 0x6FA87E4F), (15, 10, 0xFE2CE6E0), (6, 15, 0xA3014314), (13, 21, 0x4E0811A1)),
   ((4, 6, 0xF7537E82), (11, 10, 0xBD3AF235), (2, 15, 0x2AD7D2BB), (9, 21, 0xEB86D391))]

/-- `md5_process` -/
def md5_process (state : State w) (data : Bytes) : Option (State w) :=
  (words (GET_UINT32 w data)).map fun X =>
    let s : Work w := { A := state.a, B := state.b, C := state.c, D := state.d }
    let s := steps₁.foldl (turn F₁ X) s
    let s := steps₂.foldl (turn F₂ X) s
    let s := steps₃.foldl (turn F₃ X) s
    let s := steps₄.foldl (turn F₄ X) s
    { a := state.a + s.A, b := state.b + s.B, c := state.c + s.C, d := state.d + s.D }

/-- `md5_starts`; the buffer holds whatever was there. -/
def md5_starts (buffer : Bytes) : Context w (State w) :=
  { total := (0, 0)
    state := { a := 0x67452301, b := 0xEFCDAB89, c := 0x98BADCFE, d := 0x10325476 }
    buffer }

def md5_update (ctx : Context w (State w)) (input : Bytes) : Option (Context w (State w)) :=
  update md5_process ctx input

/-- `msglen` of `md5_finish`: the low word of the bit count and the high one. -/
def msglen (c : BitVec w × BitVec w) : Bytes := PUT_UINT32 c.2 ++ PUT_UINT32 c.1

/-- `md5_finish`, with the context it leaves. -/
def md5_finish (ctx : Context w (State w)) : Option (Context w (State w) × Bytes) :=
  (finish md5_process msglen ctx).map fun ctx =>
    (ctx, PUT_UINT32 ctx.state.a ++ PUT_UINT32 ctx.state.b ++ PUT_UINT32 ctx.state.c ++
      PUT_UINT32 ctx.state.d)

/-! ## The standard -/

namespace Standard

/-- The chaining value. -/
structure Chain where
  a : Word
  b : Word
  c : Word
  d : Word

/-- The function of step `t`. -/
def f (t : ℕ) (x y z : Word) : Word :=
  if t < 16 then (x &&& y) ||| (~~~x &&& z)
  else if t < 32 then (x &&& z) ||| (y &&& ~~~z)
  else if t < 48 then x ^^^ y ^^^ z
  else y ^^^ (x ||| ~~~z)

/-- The word of the block that step `t` adds. -/
def k (t : ℕ) : ℕ :=
  if t < 16 then t else if t < 32 then (5 * t + 1) % 16
  else if t < 48 then (3 * t + 5) % 16 else 7 * t % 16

/-- The rotation of step `t`. -/
def s (t : ℕ) : ℕ :=
  if t < 16 then [7, 12, 17, 22].getD (t % 4) 0 else if t < 32 then [5, 9, 14, 20].getD (t % 4) 0
  else if t < 48 then [4, 11, 16, 23].getD (t % 4) 0 else [6, 10, 15, 21].getD (t % 4) 0

/-- The table of sines. -/
def T : List ℕ :=
  [0xD76AA478, 0xE8C7B756, 0x242070DB, 0xC1BDCEEE, 0xF57C0FAF, 0x4787C62A, 0xA8304613, 0xFD469501,
   0x698098D8, 0x8B44F7AF, 0xFFFF5BB1, 0x895CD7BE, 0x6B901122, 0xFD987193, 0xA679438E, 0x49B40821,
   0xF61E2562, 0xC040B340, 0x265E5A51, 0xE9B6C7AA, 0xD62F105D, 0x02441453, 0xD8A1E681, 0xE7D3FBC8,
   0x21E1CDE6, 0xC33707D6, 0xF4D50D87, 0x455A14ED, 0xA9E3E905, 0xFCEFA3F8, 0x676F02D9, 0x8D2A4C8A,
   0xFFFA3942, 0x8771F681, 0x6D9D6122, 0xFDE5380C, 0xA4BEEA44, 0x4BDECFA9, 0xF6BB4B60, 0xBEBFBC70,
   0x289B7EC6, 0xEAA127FA, 0xD4EF3085, 0x04881D05, 0xD9D4D039, 0xE6DB99E5, 0x1FA27CF8, 0xC4AC5665,
   0xF4292244, 0x432AFF97, 0xAB9423A7, 0xFC93A039, 0x655B59C3, 0x8F0CCC92, 0xFFEFF47D, 0x85845DD1,
   0x6FA87E4F, 0xFE2CE6E0, 0xA3014314, 0x4E0811A1, 0xF7537E82, 0xBD3AF235, 0x2AD7D2BB, 0xEB86D391]

/-- The words of a block. -/
def block (b : Bytes) (j : ℕ) : Word :=
  ofBytes (b.getD (4 * j + 3) 0) (b.getD (4 * j + 2) 0) (b.getD (4 * j + 1) 0) (b.getD (4 * j) 0)

/-- Step `t`. -/
def step (M : ℕ → Word) (h : Chain) (t : ℕ) : Chain :=
  { a := h.d
    b := h.b + (h.a + f t h.b h.c h.d + M (k t) + BitVec.ofNat 32 (T.getD t 0)).rotateLeft (s t)
    c := h.b
    d := h.c }

/-- The chaining value after the first `t` steps. -/
def steps (M : ℕ → Word) (h : Chain) (t : ℕ) : Chain := (List.range t).foldl (step M) h

def compress (h : Chain) (b : Bytes) : Chain :=
  let s := steps (block b) h 64
  { a := h.a + s.a, b := h.b + s.b, c := h.c + s.c, d := h.d + s.d }

def init : Chain := { a := 0x67452301, b := 0xEFCDAB89, c := 0x98BADCFE, d := 0x10325476 }

/-- The number of bits of `n` bytes modulo `2 ^ 64`, the low word first. -/
def length (n : ℕ) : Bytes :=
  leBytes (BitVec.ofNat 32 (8 * n)) ++ leBytes (BitVec.ofNat 32 (8 * n / 2 ^ 32))

def digest (h : Chain) : Bytes := leBytes h.a ++ leBytes h.b ++ leBytes h.c ++ leBytes h.d

def md5 (m : Bytes) : Bytes := digest (Blocks.fold 64 compress init (padded length m))

theorem steps_succ (M : ℕ → Word) (h : Chain) (t : ℕ) :
    steps M h (t + 1) = step M (steps M h t) t := by
  simp [steps, List.range_succ]

end Standard

/-! ## The steps -/

section Steps

variable {M : ℕ → Word} {h : Standard.Chain} {t : ℕ} {X : Fin 16 → BitVec w}
  {F : BitVec w → BitVec w → BitVec w → BitVec w}

/-- Four words in the roles of the chaining value. -/
structure Matches (a b c d : BitVec w) (s : Standard.Chain) : Prop where
  a : low a = s.a
  b : low b = s.b
  c : low c = s.c
  d : low d = s.d

/-- The arguments of a `P` are those of step `t`. -/
def Row.Is (r : Row) (t : ℕ) : Prop :=
  r.1.val = Standard.k t ∧ r.2.1 = Standard.s t ∧ r.2.2 = Standard.T.getD t 0 ∧
    0 < r.2.1 ∧ r.2.1 < 32

/-- The arguments of a list of turns are those of the steps from `t` on. -/
def Rows : ℕ → List (Row × Row × Row × Row) → Prop
  | _, [] => True
  | t, r :: rs => r.1.Is t ∧ r.2.1.Is (t + 1) ∧ r.2.2.1.Is (t + 2) ∧ r.2.2.2.Is (t + 3) ∧
      Rows (t + 4) rs

/-- Step `t` has the function `F`. -/
def Has (F : BitVec w → BitVec w → BitVec w → BitVec w) (t : ℕ) : Prop :=
  ∀ x y z, low (F x y z) = Standard.f t (low x) (low y) (low z)

/-- One `P` is one step of the standard, after which the variables stand one role further. -/
theorem Matches.step (hw : 32 ≤ w) {a b c d : BitVec w} {s : Standard.Chain} {r : Row}
    (hs : Matches a b c d s) (hF : Has F t) (hX : ∀ j : Fin 16, low (X j) = M j) (hr : r.Is t) :
    Matches d (P F X a b c d r) b c (Standard.step M s t) where
  a := hs.d
  b := by
    obtain ⟨hk, hrot, hT, h0, h32⟩ := hr
    rw [P, low_add hw, low_S hw h32 h0, low_add hw, low_add hw, low_add hw, low_ofNat hw, hF, hX,
      hs.a, hs.b, hs.c, hs.d, hk, hrot, hT, BitVec.add_comm, ← BitVec.add_assoc,
      ← BitVec.add_assoc]
    rfl
  c := hs.b
  d := hs.c

/-- Four steps bring every variable back to its role. -/
theorem Matches.turn (hw : 32 ≤ w) {s : Work w} {r : Row × Row × Row × Row}
    (hs : Matches s.A s.B s.C s.D (Standard.steps M h t)) (hF : ∀ i < 4, Has F (t + i))
    (hX : ∀ j : Fin 16, low (X j) = M j) (hr : r.1.Is t ∧ r.2.1.Is (t + 1) ∧ r.2.2.1.Is (t + 2) ∧
      r.2.2.2.Is (t + 3)) :
    Matches (turn F X s r).A (turn F X s r).B (turn F X s r).C (turn F X s r).D
      (Standard.steps M h (t + 4)) := by
  have h₁ := hs.step hw (hF 0 (by omega)) hX hr.1
  have h₂ := h₁.step hw (hF 1 (by omega)) hX hr.2.1
  have h₃ := h₂.step hw (hF 2 (by omega)) hX hr.2.2.1
  have h₄ := h₃.step hw (hF 3 (by omega)) hX hr.2.2.2
  simp only [Nat.add_zero, ← Standard.steps_succ] at h₄
  exact h₄

/-- Turns with one function. -/
theorem Matches.turns (hw : 32 ≤ w) (hX : ∀ j : Fin 16, low (X j) = M j)
    {rs : List (Row × Row × Row × Row)} :
    ∀ {t : ℕ} {s : Work w}, Matches s.A s.B s.C s.D (Standard.steps M h t) →
      (∀ i < 4 * rs.length, Has F (t + i)) → Rows t rs →
      Matches (rs.foldl (Md5.turn F X) s).A (rs.foldl (Md5.turn F X) s).B
        (rs.foldl (Md5.turn F X) s).C (rs.foldl (Md5.turn F X) s).D
        (Standard.steps M h (t + 4 * rs.length)) := by
  induction rs with
  | nil =>
    intro t s hs _ _
    exact hs
  | cons r rs ih =>
    intro t s hs hF hr
    obtain ⟨h₀, h₁, h₂, h₃, hrs⟩ := hr
    rw [List.length_cons] at hF
    have hturn := hs.turn hw (fun i hi => hF i (by omega)) hX ⟨h₀, h₁, h₂, h₃⟩
    have hrest := ih hturn (fun i hi => by rw [Nat.add_assoc]; exact hF (4 + i) (by omega)) hrs
    rw [List.foldl_cons, List.length_cons, show t + 4 * (rs.length + 1) = t + 4 + 4 * rs.length by
      omega]
    exact hrest

theorem F₁_has (ht : t < 16) : Has (w := w) F₁ t := by
  intro x y z
  rw [Standard.f, if_pos ht, F₁, low_xor, low_and, low_xor]
  apply BitVec.eq_of_getLsbD_eq
  intro i hi
  simp only [BitVec.getLsbD_xor, BitVec.getLsbD_and, BitVec.getLsbD_or, BitVec.getLsbD_not, hi,
    decide_true, Bool.true_and]
  cases (low x).getLsbD i <;> cases (low y).getLsbD i <;> cases (low z).getLsbD i <;> rfl

theorem F₂_has (ht : 16 ≤ t) (ht' : t < 32) : Has (w := w) F₂ t := by
  intro x y z
  rw [Standard.f, if_neg (by omega), if_pos ht', F₂, low_xor, low_and, low_xor]
  apply BitVec.eq_of_getLsbD_eq
  intro i hi
  simp only [BitVec.getLsbD_xor, BitVec.getLsbD_and, BitVec.getLsbD_or, BitVec.getLsbD_not, hi,
    decide_true, Bool.true_and]
  cases (low x).getLsbD i <;> cases (low y).getLsbD i <;> cases (low z).getLsbD i <;> rfl

theorem F₃_has (ht : 32 ≤ t) (ht' : t < 48) : Has (w := w) F₃ t := by
  intro x y z
  rw [Standard.f, if_neg (by omega), if_neg (by omega), if_pos ht', F₃, low_xor, low_xor]

theorem F₄_has (hw : 32 ≤ w) (ht : 48 ≤ t) : Has (w := w) F₄ t := by
  intro x y z
  rw [Standard.f, if_neg (by omega), if_neg (by omega), if_neg (by omega), F₄, low_xor, low_or,
    low_not hw]

instance (r : Row) (t : ℕ) : Decidable (r.Is t) := by
  unfold Row.Is
  infer_instance

instance decidableRows : ∀ t rs, Decidable (Rows t rs)
  | _, [] => isTrue trivial
  | t, r :: rs =>
    have := decidableRows (t + 4) rs
    inferInstanceAs (Decidable (r.1.Is t ∧ r.2.1.Is (t + 1) ∧ r.2.2.1.Is (t + 2) ∧
      r.2.2.2.Is (t + 3) ∧ Rows (t + 4) rs))

theorem rows₁ : Rows 0 steps₁ := by decide
theorem rows₂ : Rows 16 steps₂ := by decide
theorem rows₃ : Rows 32 steps₃ := by decide
theorem rows₄ : Rows 48 steps₄ := by decide

/-- A block is read as the standard's sixteen words. -/
theorem words_block (hw : 32 ≤ w) {data : Bytes} (hlen : data.length = 64) :
    ∃ X, words (GET_UINT32 w data) = some X ∧
      ∀ j : Fin 16, low (X j) = Standard.block data j := by
  apply words_eq
  intro j hj
  have hin : ∀ i < 4, data[4 * j + i]? = some (data.getD (4 * j + i) 0) := by
    intro i hi
    simp [List.getD_eq_getElem?_getD, show 4 * j + i < data.length by omega]
  exact GET_UINT32_eq hw (hin 0 (by omega)) (hin 1 (by omega)) (hin 2 (by omega))
    (hin 3 (by omega))

end Steps

/-- The chaining value that the words of the source stand for. -/
def chain (s : State w) : Standard.Chain :=
  { a := low s.a, b := low s.b, c := low s.c, d := low s.d }

/-- `md5_process` compresses a block as the standard does. -/
theorem process_refines (hw : 32 ≤ w) :
    Refines (md5_process (w := w)) chain Standard.compress where
  step s data hlen := by
    obtain ⟨X, hX, hlow⟩ := words_block hw hlen
    refine ⟨_, by rw [md5_process, hX]; rfl, ?_⟩
    have h₀ : Matches s.a s.b s.c s.d (Standard.steps (Standard.block data) (chain s) 0) :=
      ⟨rfl, rfl, rfl, rfl⟩
    have h₁ := Matches.turns (s := ⟨s.a, s.b, s.c, s.d⟩) hw hlow h₀
      (fun i hi => F₁_has (by simp [steps₁] at hi; omega)) rows₁
    have h₂ := Matches.turns hw hlow h₁
      (fun i hi => F₂_has (by simp [steps₁]) (by simp [steps₁, steps₂] at hi ⊢; omega)) rows₂
    have h₃ := Matches.turns hw hlow h₂
      (fun i hi => F₃_has (by simp [steps₁, steps₂]) (by simp [steps₁, steps₂, steps₃] at hi ⊢; omega)) rows₃
    have h₄ := Matches.turns hw hlow h₃ (fun i hi => F₄_has hw (by simp [steps₁, steps₂, steps₃])) rows₄
    simp only [chain, low_add hw, Standard.compress, h₄.a, h₄.b, h₄.c, h₄.d]
    rfl

/-- The context has taken `m`. -/
abbrev Taken (ctx : Context w (State w)) (m : Bytes) : Prop :=
  Seen chain Standard.compress Standard.init ctx m

/-- A context just started has taken nothing. -/
theorem starts_seen (hw : 32 ≤ w) {buffer : Bytes} (hbuf : buffer.length = 64) :
    Taken (md5_starts (w := w) buffer) [] where
  size := hbuf
  total₀ := rfl
  total₁ := rfl
  state := by
    rw [Blocks.fold_of_lt (by simp)]
    simp only [md5_starts, chain, Standard.init, Standard.Chain.mk.injEq]
    exact ⟨low_ofNat hw _, low_ofNat hw _, low_ofNat hw _, low_ofNat hw _⟩
  tail := by simp [Blocks.tail]

theorem update_taken (hw : 32 ≤ w) {ctx : Context w (State w)} {m input : Bytes}
    (h : Taken ctx m) (hk : input.length < 2 ^ 32) :
    ∃ ctx', md5_update ctx input = some ctx' ∧ Taken ctx' (m ++ input) :=
  h.update hw (process_refines hw) hk

theorem finish_taken (hw : 32 ≤ w) {ctx : Context w (State w)} {m : Bytes} (h : Taken ctx m) :
    ∃ ctx', md5_finish ctx = some (ctx', Standard.md5 m) ∧ ctx'.buffer.length = 64 := by
  have hlay : ∀ n, msglen (bitCount (BitVec.ofNat w (n % 2 ^ 32), BitVec.ofNat w (n / 2 ^ 32))) =
      Standard.length n := by
    intro n
    obtain ⟨h₁, h₂⟩ := low_bitCount hw n
    simp only [msglen, PUT_UINT32_eq, h₁, h₂, Standard.length]
  obtain ⟨ctx', hctx, hsize, hstate⟩ := h.finish hw (process_refines hw)
    msglen Standard.length hlay fun n => rfl
  refine ⟨ctx', ?_, hsize⟩
  rw [md5_finish, hctx, Standard.md5, ← hstate]
  simp only [Option.map_some, PUT_UINT32_eq, Standard.digest, chain]

/-- **The digest of a message.** Whatever pieces it arrives in, whatever the buffer held before
and however wide an `unsigned long` is, the digest is the one of the standard. -/
theorem md5_updates (hw : 32 ≤ w) {buffer : Bytes} (hbuf : buffer.length = 64)
    {pieces : List Bytes} (hk : ∀ p ∈ pieces, p.length < 2 ^ 32) :
    ((pieces.foldlM md5_update (md5_starts (w := w) buffer)).bind md5_finish).map Prod.snd =
      some (Standard.md5 pieces.flatten) := by
  obtain ⟨ctx, hctx, htaken⟩ := (starts_seen hw hbuf).updates hw (process_refines hw) hk
  obtain ⟨ctx', hfin, _⟩ := finish_taken hw htaken
  have hrun : pieces.foldlM md5_update (md5_starts (w := w) buffer) = some ctx := hctx
  rw [hrun, Option.bind_some, hfin]
  rfl

theorem md5_updates_two :
    (([[97], [98, 99]].foldlM md5_update (md5_starts (w := 64) (List.replicate 64 0))).bind
      md5_finish).map Prod.snd = some (Standard.md5 [97, 98, 99]) :=
  md5_updates (by omega) List.length_replicate (by decide)

end ApeServer.Digest.Md5
