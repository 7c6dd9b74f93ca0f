import ApeServer.Digest.Stream

/-!
# `sha1.c`

The compression of the source keeps sixteen words of the schedule and lets the five variables
change their roles; the standard has eighty words and moves the variables. The two agree on
every block, and so do the digests of every message, whatever the pieces it arrives in and
however wide an `unsigned long` is.
-/
namespace ApeServer.Digest.Sha1

variable {w : ℕ}

/-- `ctx->state`. -/
structure State (w : ℕ) where
  a : BitVec w
  b : BitVec w
  c : BitVec w
  d : BitVec w
  e : BitVec w

/-- The variables of `sha1_process`. -/
structure Work (w : ℕ) where
  A : BitVec w
  B : BitVec w
  C : BitVec w
  D : BitVec w
  E : BitVec w
  W : Fin 16 → BitVec w

/-- `t & 0x0F` -/
def slot (t : ℕ) : Fin 16 := ⟨t % 16, Nat.mod_lt t (by omega)⟩

/-- `R(t)`, which also stores the word. -/
def R (W : Fin 16 → BitVec w) (t : ℕ) : BitVec w × (Fin 16 → BitVec w) :=
  let temp := W (slot (t - 3)) ^^^ W (slot (t - 8)) ^^^ W (slot (t - 14)) ^^^ W (slot t)
  (S temp 1, Function.update W (slot t) (S temp 1))

/-- The last argument of the `P` of round `t`: `W[t]`, from round 16 on `R(t)`. -/
def argument (W : Fin 16 → BitVec w) (t : ℕ) : BitVec w × (Fin 16 → BitVec w) :=
  if t < 16 then (W (slot t), W) else R W t

/-- `P(a, b, c, d, e, x)`: what it stores in `e` and in `b`. -/
def P (F : BitVec w → BitVec w → BitVec w → BitVec w) (K a b c d e x : BitVec w) :
    BitVec w × BitVec w :=
  (e + (S a 5 + F b c d + K + x), S b 30)

/-- Five rounds from round `t` on, after which every variable has its role again. -/
def turn (F : BitVec w → BitVec w → BitVec w → BitVec w) (K : BitVec w) (s : Work w) (t : ℕ) :
    Work w :=
  let (x, W) := argument s.W t
  let (E, B) := P F K s.A s.B s.C s.D s.E x
  let (x, W) := argument W (t + 1)
  let (D, A) := P F K E s.A B s.C s.D x
  let (x, W) := argument W (t + 2)
  let (C, E) := P F K D E A B s.C x
  let (x, W) := argument W (t + 3)
  let (B, D) := P F K C D E A B x
  let (x, W) := argument W (t + 4)
  let (A, C) := P F K B C D E A x
  { A, B, C, D, E, W }

/-- `#define F(x,y,z) (z ^ (x & (y ^ z)))` -/
def F₁ (x y z : BitVec w) : BitVec w := z ^^^ (x &&& (y ^^^ z))

/-- `#define F(x,y,z) (x ^ y ^ z)` -/
def F₂ (x y z : BitVec w) : BitVec w := x ^^^ y ^^^ z

/-- `#define F(x,y,z) ((x & y) | (z & (x | y)))` -/
def F₃ (x y z : BitVec w) : BitVec w := (x &&& y) ||| (z &&& (x ||| y))

/-- `sha1_process` -/
def sha1_process (state : State w) (data : Bytes) : Option (State w) :=
  (words (GET_UINT32_BE w data)).map fun W =>
    let s : Work w := { A := state.a, B := state.b, C := state.c, D := state.d, E := state.e, W }
    let s := [0, 5, 10, 15].foldl (turn F₁ 0x5A827999) s
    let s := [20, 25, 30, 35].foldl (turn F₂ 0x6ED9EBA1) s
    let s := [40, 45, 50, 55].foldl (turn F₃ 0x8F1BBCDC) s
    let s := [60, 65, 70, 75].foldl (turn F₂ 0xCA62C1D6) s
    { a := state.a + s.A, b := state.b + s.B, c := state.c + s.C, d := state.d + s.D,
      e := state.e + s.E }

/-- `sha1_starts`; the buffer holds whatever was there. -/
def sha1_starts (buffer : Bytes) : Context w (State w) :=
  { total := (0, 0)
    state := { a := 0x67452301, b := 0xEFCDAB89, c := 0x98BADCFE, d := 0x10325476,
               e := 0xC3D2E1F0 }
    buffer }

def sha1_update (ctx : Context w (State w)) (input : Bytes) : Option (Context w (State w)) :=
  update sha1_process ctx input

/-- `msglen` of `sha1_finish`: the high word and the low word of the bit count. -/
def msglen (c : BitVec w × BitVec w) : Bytes := PUT_UINT32_BE c.1 ++ PUT_UINT32_BE c.2

/-- `sha1_finish`, with the context it leaves. -/
def sha1_finish (ctx : Context w (State w)) : Option (Context w (State w) × Bytes) :=
  (finish sha1_process msglen ctx).map fun ctx =>
    (ctx, PUT_UINT32_BE ctx.state.a ++ PUT_UINT32_BE ctx.state.b ++ PUT_UINT32_BE ctx.state.c ++
      PUT_UINT32_BE ctx.state.d ++ PUT_UINT32_BE ctx.state.e)

/-- `sha1_csum`, whose context starts with `buffer` on the stack. -/
def sha1_csum (w : ℕ) (buffer buf : Bytes) : Option Bytes := do
  let ctx ← sha1_update (sha1_starts (w := w) buffer) buf
  let (_, digest) ← sha1_finish ctx
  return digest

/-- `k_ipad` and `k_opad`: `memset` to `fill`, then the key over it as far as it fits. -/
def pad (fill : UInt8) (key : Bytes) : Bytes :=
  (key.take 64).map (fill ^^^ ·) ++ List.replicate (64 - key.length) fill

/-- `sha1_hmac`; the second use of the context finds what the first left in its buffer. -/
def sha1_hmac (w : ℕ) (buffer key buf : Bytes) : Option Bytes := do
  let ctx ← sha1_update (sha1_starts (w := w) buffer) (pad 0x36 key)
  let ctx ← sha1_update ctx buf
  let (ctx, tmpbuf) ← sha1_finish ctx
  let ctx ← sha1_update (sha1_starts (w := w) ctx.buffer) (pad 0x5C key)
  let ctx ← sha1_update ctx tmpbuf
  let (_, digest) ← sha1_finish ctx
  return digest

/-! ## The standard -/

namespace Standard

/-- The chaining value. -/
structure Chain where
  a : Word
  b : Word
  c : Word
  d : Word
  e : Word

/-- The function of round `t`. -/
def f (t : ℕ) (x y z : Word) : Word :=
  if t < 20 then (x &&& y) ^^^ (~~~x &&& z)
  else if t < 40 then x ^^^ y ^^^ z
  else if t < 60 then (x &&& y) ^^^ (x &&& z) ^^^ (y &&& z)
  else x ^^^ y ^^^ z

/-- The constant of round `t`. -/
def K (t : ℕ) : Word :=
  if t < 20 then 0x5A827999 else if t < 40 then 0x6ED9EBA1
  else if t < 60 then 0x8F1BBCDC else 0xCA62C1D6

/-- The words of a block. -/
def block (b : Bytes) (j : ℕ) : Word :=
  ofBytes (b.getD (4 * j) 0) (b.getD (4 * j + 1) 0) (b.getD (4 * j + 2) 0) (b.getD (4 * j + 3) 0)

/-- The message schedule. -/
def W (M : ℕ → Word) (t : ℕ) : Word :=
  if t < 16 then M t
  else (W M (t - 3) ^^^ W M (t - 8) ^^^ W M (t - 14) ^^^ W M (t - 16)).rotateLeft 1
termination_by t

/-- Round `t`. -/
def round (M : ℕ → Word) (s : Chain) (t : ℕ) : Chain :=
  { a := s.a.rotateLeft 5 + f t s.b s.c s.d + s.e + K t + W M t
    b := s.a
    c := s.b.rotateLeft 30
    d := s.c
    e := s.d }

/-- The chaining value after the first `t` rounds. -/
def rounds (M : ℕ → Word) (h : Chain) (t : ℕ) : Chain := (List.range t).foldl (round M) h

def compress (h : Chain) (b : Bytes) : Chain :=
  let s := rounds (block b) h 80
  { a := h.a + s.a, b := h.b + s.b, c := h.c + s.c, d := h.d + s.d, e := h.e + s.e }

def init : Chain :=
  { a := 0x67452301, b := 0xEFCDAB89, c := 0x98BADCFE, d := 0x10325476, e := 0xC3D2E1F0 }

/-- The number of bits of `n` bytes, as 64 bits with the high word first. -/
def length (n : ℕ) : Bytes :=
  beBytes (BitVec.ofNat 32 (8 * n / 2 ^ 32)) ++ beBytes (BitVec.ofNat 32 (8 * n))

def digest (h : Chain) : Bytes :=
  beBytes h.a ++ beBytes h.b ++ beBytes h.c ++ beBytes h.d ++ beBytes h.e

def sha1 (m : Bytes) : Bytes := digest (Blocks.fold 64 compress init (padded length m))

/-- HMAC of a key that is at most a block long. -/
def hmac (key m : Bytes) : Bytes :=
  let key := key ++ List.replicate (64 - key.length) 0
  sha1 (key.map (0x5C ^^^ ·) ++ sha1 (key.map (0x36 ^^^ ·) ++ m))

theorem rounds_succ (M : ℕ → Word) (h : Chain) (t : ℕ) :
    rounds M h (t + 1) = round M (rounds M h t) t := by
  simp [rounds, List.range_succ]

theorem W_of_lt (M : ℕ → Word) {t : ℕ} (h : t < 16) : W M t = M t := by
  rw [W, if_pos h]

theorem W_of_ge (M : ℕ → Word) {t : ℕ} (h : 16 ≤ t) : W M t =
    (W M (t - 3) ^^^ W M (t - 8) ^^^ W M (t - 14) ^^^ W M (t - 16)).rotateLeft 1 := by
  rw [W, if_neg (by omega)]

end Standard

/-! ## The rounds -/

section Rounds

variable {M : ℕ → Word} {h : Standard.Chain} {t : ℕ} {V : Fin 16 → BitVec w}

/-- The sixteen words that are kept before round `t`. -/
def Scheduled (M : ℕ → Word) (t : ℕ) (V : Fin 16 → BitVec w) : Prop :=
  ∀ j, j < max t 16 → t ≤ j + 16 → low (V (slot j)) = Standard.W M j

/-- Five words in the roles of the chaining value. -/
structure Matches (a b c d e : BitVec w) (s : Standard.Chain) : Prop where
  a : low a = s.a
  b : low b = s.b
  c : low c = s.c
  d : low d = s.d
  e : low e = s.e

/-- The variables have the standard's values before round `t`. -/
structure Agrees (M : ℕ → Word) (h : Standard.Chain) (t : ℕ) (s : Work w) : Prop where
  regs : Matches s.A s.B s.C s.D s.E (Standard.rounds M h t)
  words : Scheduled M t s.W

/-- Round `t` has the function `F` and the constant `K`. -/
structure Has (F : BitVec w → BitVec w → BitVec w → BitVec w) (K : BitVec w) (t : ℕ) : Prop where
  f : ∀ x y z, low (F x y z) = Standard.f t (low x) (low y) (low z)
  k : low K = Standard.K t

theorem slot_inj {i j : ℕ} (h : slot i = slot j) : i % 16 = j % 16 := congrArg Fin.val h

/-- The word of a round is the standard's, and the ones that later rounds need stay. -/
theorem argument_agrees (hw : 32 ≤ w) (hV : Scheduled M t V) :
    low (argument V t).1 = Standard.W M t ∧ Scheduled M (t + 1) (argument V t).2 := by
  by_cases ht : t < 16
  · rw [argument, if_pos ht]
    refine ⟨hV t (by omega) (by omega), ?_⟩
    intro j hj hjt
    exact hV j (by omega) (by omega)
  · have hslot : slot t = slot (t - 16) := Fin.ext (by simp only [slot]; omega)
    have hlow : low (S (V (slot (t - 3)) ^^^ V (slot (t - 8)) ^^^ V (slot (t - 14)) ^^^
        V (slot t)) 1) = Standard.W M t := by
      rw [low_S hw (by omega) (by omega), Standard.W_of_ge M (by omega), hslot]
      simp only [low_xor]
      rw [hV (t - 3) (by omega) (by omega), hV (t - 8) (by omega) (by omega),
        hV (t - 14) (by omega) (by omega), hV (t - 16) (by omega) (by omega)]
    rw [argument, if_neg ht]
    refine ⟨hlow, ?_⟩
    intro j hj hjt
    by_cases he : j = t
    · subst he
      simpa [R] using hlow
    · have hne : slot j ≠ slot t := by
        intro hs
        have := slot_inj hs
        omega
      refine (congrArg low (Function.update_of_ne hne _ _)).trans ?_
      exact hV j (by omega) (by omega)

/-- One `P` is one round of the standard, after which the variables stand one role further. -/
theorem Matches.round (hw : 32 ≤ w) {F : BitVec w → BitVec w → BitVec w → BitVec w}
    {K a b c d e x : BitVec w} {s : Standard.Chain} (hs : Matches a b c d e s) (hF : Has F K t)
    (hx : low x = Standard.W M t) :
    Matches (P F K a b c d e x).1 a (P F K a b c d e x).2 c d (Standard.round M s t) where
  a := by
    simp only [P, Standard.round, low_add hw, low_S hw (show 5 < 32 by omega) (by omega), hF.f,
      hF.k, hs.a, hs.b, hs.c, hs.d, hs.e, hx]
    ac_rfl
  b := hs.a
  c := by simp only [P, Standard.round, low_S hw (show 30 < 32 by omega) (by omega), hs.b]
  d := hs.c
  e := hs.d

/-- Five rounds bring every variable back to its role. -/
theorem Agrees.turn (hw : 32 ≤ w) {F : BitVec w → BitVec w → BitVec w → BitVec w}
    {K : BitVec w} (hF : ∀ i < 5, Has F K (t + i)) {s : Work w} (hs : Agrees M h t s) :
    Agrees M h (t + 5) (turn F K s t) := by
  obtain ⟨hx₀, hW₁⟩ := argument_agrees hw hs.words
  have h₁ := hs.regs.round hw (hF 0 (by omega)) hx₀
  obtain ⟨hx₁, hW₂⟩ := argument_agrees hw hW₁
  have h₂ := h₁.round hw (hF 1 (by omega)) hx₁
  obtain ⟨hx₂, hW₃⟩ := argument_agrees hw hW₂
  have h₃ := h₂.round hw (hF 2 (by omega)) hx₂
  obtain ⟨hx₃, hW₄⟩ := argument_agrees hw hW₃
  have h₄ := h₃.round hw (hF 3 (by omega)) hx₃
  obtain ⟨hx₄, hW₅⟩ := argument_agrees hw hW₄
  have h₅ := h₄.round hw (hF 4 (by omega)) hx₄
  simp only [Nat.add_zero, ← Standard.rounds_succ] at h₅
  exact ⟨h₅, hW₅⟩

/-- Twenty rounds with one function. -/
theorem Agrees.turns (hw : 32 ≤ w) {F : BitVec w → BitVec w → BitVec w → BitVec w}
    {K : BitVec w} (hF : ∀ i < 20, Has F K (t + i)) {s : Work w} (hs : Agrees M h t s) :
    Agrees M h (t + 20) ([t, t + 5, t + 10, t + 15].foldl (Sha1.turn F K) s) := by
  have h₁ := hs.turn hw (fun i hi => hF i (by omega))
  have h₂ := h₁.turn hw (fun i hi => by
    simpa only [Nat.add_assoc] using hF (5 + i) (by omega))
  have h₃ := h₂.turn hw (fun i hi => by
    simpa only [Nat.add_assoc] using hF (5 + (5 + i)) (by omega))
  have h₄ := h₃.turn hw (fun i hi => by
    simpa only [Nat.add_assoc] using hF (5 + (5 + (5 + i))) (by omega))
  simpa only [List.foldl_cons, List.foldl_nil, Nat.add_assoc, Nat.reduceAdd] using h₄

theorem F₁_has (hw : 32 ≤ w) (ht : t < 20) : Has (w := w) F₁ 0x5A827999 t where
  f x y z := by
    rw [Standard.f, if_pos ht, F₁, low_xor, low_and, low_xor]
    apply BitVec.eq_of_getLsbD_eq
    intro i hi
    simp only [BitVec.getLsbD_xor, BitVec.getLsbD_and, BitVec.getLsbD_not, hi, decide_true,
      Bool.true_and]
    cases (low x).getLsbD i <;> cases (low y).getLsbD i <;> cases (low z).getLsbD i <;> rfl
  k := by
    rw [Standard.K, if_pos ht]
    exact low_ofNat hw _

theorem F₂_has (hw : 32 ≤ w) (ht : 20 ≤ t) (ht' : t < 40) : Has (w := w) F₂ 0x6ED9EBA1 t where
  f x y z := by rw [Standard.f, if_neg (by omega), if_pos ht', F₂, low_xor, low_xor]
  k := by
    rw [Standard.K, if_neg (by omega), if_pos ht']
    exact low_ofNat hw _

theorem F₃_has (hw : 32 ≤ w) (ht : 40 ≤ t) (ht' : t < 60) : Has (w := w) F₃ 0x8F1BBCDC t where
  f x y z := by
    rw [Standard.f, if_neg (by omega), if_neg (by omega), if_pos ht', F₃, low_or, low_and, low_and,
      low_or]
    apply BitVec.eq_of_getLsbD_eq
    intro i hi
    simp only [BitVec.getLsbD_xor, BitVec.getLsbD_and, BitVec.getLsbD_or]
    cases (low x).getLsbD i <;> cases (low y).getLsbD i <;> cases (low z).getLsbD i <;> rfl
  k := by
    rw [Standard.K, if_neg (by omega), if_neg (by omega), if_pos ht']
    exact low_ofNat hw _

theorem F₄_has (hw : 32 ≤ w) (ht : 60 ≤ t) : Has (w := w) F₂ 0xCA62C1D6 t where
  f x y z := by
    rw [Standard.f, if_neg (by omega), if_neg (by omega), if_neg (by omega), F₂, low_xor, low_xor]
  k := by
    rw [Standard.K, if_neg (by omega), if_neg (by omega), if_neg (by omega)]
    exact low_ofNat hw _

/-- A block is read as the standard's sixteen words. -/
theorem words_block (hw : 32 ≤ w) {data : Bytes} (hlen : data.length = 64) :
    ∃ V, words (GET_UINT32_BE w data) = some V ∧ Scheduled (Standard.block data) 0 V := by
  have hget : ∀ j < 16, (GET_UINT32_BE w data (4 * j)).map low = some (Standard.block data j) := by
    intro j hj
    have hin : ∀ i < 4, data[4 * j + i]? = some (data.getD (4 * j + i) 0) := by
      intro i hi
      simp [List.getD_eq_getElem?_getD, show 4 * j + i < data.length by omega]
    exact GET_UINT32_BE_eq hw (hin 0 (by omega)) (hin 1 (by omega)) (hin 2 (by omega))
      (hin 3 (by omega))
  obtain ⟨V, hV, hlow⟩ := words_eq hget
  refine ⟨V, hV, ?_⟩
  intro j hj _
  have hj : j < 16 := by omega
  have hslot : (slot j : ℕ) = j := Nat.mod_eq_of_lt hj
  rw [Standard.W_of_lt _ hj, hlow, hslot]

end Rounds

/-- The chaining value that the words of the source stand for. -/
def chain (s : State w) : Standard.Chain :=
  { a := low s.a, b := low s.b, c := low s.c, d := low s.d, e := low s.e }

/-- `sha1_process` compresses a block as the standard does. -/
theorem process_refines (hw : 32 ≤ w) :
    Refines (sha1_process (w := w)) chain Standard.compress where
  step s data hlen := by
    obtain ⟨V, hV, hsched⟩ := words_block hw hlen
    refine ⟨_, by rw [sha1_process, hV]; rfl, ?_⟩
    have h₀ : Agrees (Standard.block data) (chain s) 0
        { A := s.a, B := s.b, C := s.c, D := s.d, E := s.e, W := V } :=
      ⟨⟨rfl, rfl, rfl, rfl, rfl⟩, hsched⟩
    have h₁ := h₀.turns hw fun i hi => F₁_has hw (by omega)
    have h₂ := h₁.turns hw fun i hi => F₂_has hw (by omega) (by omega)
    have h₃ := h₂.turns hw fun i hi => F₃_has hw (by omega) (by omega)
    have h₄ := (h₃.turns hw fun i hi => F₄_has hw (by omega)).regs
    simp only [chain, low_add hw, Standard.compress, h₄.a, h₄.b, h₄.c, h₄.d, h₄.e]

/-- The context has taken `m`. -/
abbrev Taken (ctx : Context w (State w)) (m : Bytes) : Prop :=
  Seen chain Standard.compress Standard.init ctx m

/-- A context just started has taken nothing. -/
theorem starts_seen (hw : 32 ≤ w) {buffer : Bytes} (hbuf : buffer.length = 64) :
    Taken (sha1_starts (w := w) buffer) [] where
  size := hbuf
  total₀ := rfl
  total₁ := rfl
  state := by
    rw [Blocks.fold_of_lt (by simp)]
    simp only [sha1_starts, chain, Standard.init, Standard.Chain.mk.injEq]
    exact ⟨low_ofNat hw _, low_ofNat hw _, low_ofNat hw _, low_ofNat hw _, low_ofNat hw _⟩
  tail := by simp [Blocks.tail]

theorem update_taken (hw : 32 ≤ w) {ctx : Context w (State w)} {m input : Bytes}
    (h : Taken ctx m) (hk : input.length < 2 ^ 32) :
    ∃ ctx', sha1_update ctx input = some ctx' ∧ Taken ctx' (m ++ input) :=
  h.update hw (process_refines hw) hk

theorem finish_taken (hw : 32 ≤ w) {ctx : Context w (State w)} {m : Bytes} (h : Taken ctx m) :
    ∃ ctx', sha1_finish ctx = some (ctx', Standard.sha1 m) ∧ ctx'.buffer.length = 64 := by
  have hlay : ∀ n, msglen (bitCount (BitVec.ofNat w (n % 2 ^ 32), BitVec.ofNat w (n / 2 ^ 32))) =
      Standard.length n := by
    intro n
    obtain ⟨h₁, h₂⟩ := low_bitCount hw n
    simp only [msglen, PUT_UINT32_BE_eq, h₁, h₂, Standard.length]
  obtain ⟨ctx', hctx, hsize, hstate⟩ := h.finish hw (process_refines hw)
    msglen Standard.length hlay fun n => rfl
  refine ⟨ctx', ?_, hsize⟩
  rw [sha1_finish, hctx, Standard.sha1, ← hstate]
  simp only [Option.map_some, PUT_UINT32_BE_eq, Standard.digest, chain]

/-- **The digest of a message.** Whatever pieces it arrives in, whatever the buffer held before
and however wide an `unsigned long` is, the digest is the one of the standard. -/
theorem sha1_updates (hw : 32 ≤ w) {buffer : Bytes} (hbuf : buffer.length = 64)
    {pieces : List Bytes} (hk : ∀ p ∈ pieces, p.length < 2 ^ 32) :
    ((pieces.foldlM sha1_update (sha1_starts (w := w) buffer)).bind sha1_finish).map Prod.snd =
      some (Standard.sha1 pieces.flatten) := by
  obtain ⟨ctx, hctx, htaken⟩ := (starts_seen hw hbuf).updates hw (process_refines hw) hk
  obtain ⟨ctx', hfin, _⟩ := finish_taken hw htaken
  have hrun : pieces.foldlM sha1_update (sha1_starts (w := w) buffer) = some ctx := hctx
  rw [hrun, Option.bind_some, hfin]
  rfl

theorem sha1_updates_two :
    (([[97], [98, 99]].foldlM sha1_update (sha1_starts (w := 64) (List.replicate 64 0))).bind
      sha1_finish).map Prod.snd = some (Standard.sha1 [97, 98, 99]) :=
  sha1_updates (by omega) List.length_replicate (by decide)

theorem sha1_csum_eq (hw : 32 ≤ w) {buffer buf : Bytes} (hbuf : buffer.length = 64)
    (hk : buf.length < 2 ^ 32) : sha1_csum w buffer buf = some (Standard.sha1 buf) := by
  obtain ⟨ctx, hctx, htaken⟩ := update_taken hw (starts_seen hw hbuf) hk
  obtain ⟨ctx', hfin, _⟩ := finish_taken hw htaken
  simp only [sha1_csum, hctx, Option.bind_eq_bind, Option.bind_some, hfin]
  rfl

theorem length_sha1 (m : Bytes) : (Standard.sha1 m).length = 20 := rfl

theorem pad_eq (fill : UInt8) (key : Bytes) :
    pad fill key = (key.take 64 ++ List.replicate (64 - (key.take 64).length) 0).map (fill ^^^ ·) := by
  have hlen : 64 - key.length = 64 - (key.take 64).length := by
    rw [List.length_take]
    omega
  rw [pad, List.map_append, List.map_replicate, UInt8.xor_zero, ← hlen]

/-- **The keyed digest.** Of a key longer than a block only the first 64 bytes count: it is the
standard's for the key cut to a block. -/
theorem sha1_hmac_eq (hw : 32 ≤ w) {buffer key buf : Bytes} (hbuf : buffer.length = 64)
    (hk : buf.length < 2 ^ 32) :
    sha1_hmac w buffer key buf = some (Standard.hmac (key.take 64) buf) := by
  have hpad : ∀ fill, (pad fill key).length < 2 ^ 32 := by
    intro fill
    simp only [pad, List.length_append, List.length_map, List.length_take, List.length_replicate]
    omega
  obtain ⟨c₁, h₁, t₁⟩ := update_taken hw (starts_seen hw hbuf) (hpad 0x36)
  obtain ⟨c₂, h₂, t₂⟩ := update_taken hw t₁ hk
  obtain ⟨c₃, h₃, hsize⟩ := finish_taken hw t₂
  obtain ⟨c₄, h₄, t₄⟩ := update_taken hw (starts_seen hw hsize) (hpad 0x5C)
  have hinner : (Standard.sha1 (pad 0x36 key ++ buf)).length < 2 ^ 32 := by
    rw [length_sha1]
    omega
  obtain ⟨c₅, h₅, t₅⟩ := update_taken hw t₄ hinner
  obtain ⟨c₆, h₆, _⟩ := finish_taken hw t₅
  simp only [List.nil_append] at h₃ h₆
  simp only [sha1_hmac, h₁, h₂, h₃, h₄, h₅, h₆, Option.bind_eq_bind, Option.bind_some]
  simp only [Standard.hmac, pad_eq]
  rfl

theorem sha1_hmac_eq_long :
    sha1_hmac 64 (List.replicate 64 0) (List.replicate 65 1) [97] =
      some (Standard.hmac (List.replicate 64 1) [97]) :=
  sha1_hmac_eq (by omega) List.length_replicate (by decide)

end ApeServer.Digest.Sha1
