import ApeServer.Lib.Steps
import ApeServer.Server.Pipe

/-!
# Drawing an index

`rand_n` of `utils.c`, with the `int` arithmetic it computes its classes with. `randMax` is
`RAND_MAX`, and the list holds what `rand` is to return.
-/
namespace ApeServer

open Sock (Bytes)
open Steps (ok_bind)

/-- Why `rand_n` has no result. -/
inductive RandFault where
  /-- a result that an `int` does not hold -/
  | overflow
  /-- a division by zero -/
  | divZero
  /-- the loop is still drawing -/
  | draws
deriving DecidableEq, Repr

/-- The value of an operation on `int`s. -/
def intOf (x : ℤ) : Except RandFault ℤ :=
  if -2 ^ 31 ≤ x ∧ x < 2 ^ 31 then .ok x else .error .overflow

def intDiv (a b : ℤ) : Except RandFault ℤ :=
  if b = 0 then .error .divZero else intOf (a.tdiv b)

def partSize (randMax n : ℤ) : Except RandFault ℤ := do
  let q ← if n = randMax then intOf 0 else do intDiv (← intOf (randMax - n)) (← intOf (n + 1))
  intOf (1 + q)

def maxUsefull (partSize n : ℤ) : Except RandFault ℤ := do
  intOf ((← intOf (partSize * n)) + (← intOf (partSize - 1)))

/-- The loop of `rand_n` over the draws, and the quotient behind it. -/
def drawLoop (partSize maxUsefull : ℤ) : List ℤ → Except RandFault (ℤ × List ℤ)
  | [] => .error .draws
  | draw :: draws =>
    if draw > maxUsefull then drawLoop partSize maxUsefull draws
    else do return (← intDiv draw partSize, draws)

/-- `rand_n`: the result, and the draws after it. -/
def randN (randMax n : ℤ) (draws : List ℤ) : Except RandFault (ℤ × List ℤ) := do
  let partSize ← partSize randMax n
  let maxUsefull ← maxUsefull partSize n
  drawLoop partSize maxUsefull draws

/-- The inner loop of `gen_sessid_new`, with `i` characters still to write. -/
def writeChars (randMax : ℤ) : ℕ → List ℤ → Except RandFault (Bytes × List ℤ)
  | 0, draws => .ok ([], draws)
  | i + 1, draws => do
    let (k, draws) ← randN randMax 15 draws
    let (input, draws) ← writeChars randMax i draws
    return (Ape.basicChars.getD k.toNat 0 :: input, draws)

/-! ### The classes of draws -/

variable {randMax n d k p m : ℤ} {draws : List ℤ}

theorem intOf_eq {x : ℤ} (h₀ : 0 ≤ x) (h₁ : x < 2 ^ 31) : intOf x = .ok x :=
  if_pos ⟨by omega, h₁⟩

theorem intDiv_eq (hd : 0 ≤ d) (hm : d < 2 ^ 31) (hp : 0 < p) : intDiv d p = .ok (d / p) := by
  have hle : d / p ≤ d := Int.ediv_le_self p hd
  rw [intDiv, if_neg (by omega), Int.tdiv_eq_ediv_of_nonneg hd,
    intOf_eq (Int.ediv_nonneg hd hp.le) (by omega)]

/-- The classes fill the accepted draws, and all accepted draws are draws. -/
structure Classes (randMax n p m : ℤ) : Prop where
  pos : 0 < p
  fill : p * (n + 1) = m + 1
  within : m ≤ randMax

theorem Classes.nonneg (h : Classes randMax n p m) (hn : 0 ≤ n) : 0 ≤ m := by
  have hpos : 0 < p * (n + 1) := mul_pos h.pos (by omega)
  have := h.fill
  omega

theorem partSize_spec (hmax : randMax < 2 ^ 31) (h₀ : 0 ≤ n) (hn : n ≤ randMax)
    (hroom : 0 < n ∨ randMax < 2 ^ 31 - 1) :
    ∃ p, partSize randMax n = .ok p ∧ Classes randMax n p (p * (n + 1) - 1) := by
  by_cases heq : n = randMax
  · subst heq
    refine ⟨1, ?_, one_pos, by ring, by omega⟩
    rw [partSize, if_pos rfl, intOf_eq le_rfl (by omega), ok_bind]
    exact intOf_eq (by omega) (by omega)
  · have hq : 0 ≤ (randMax - n) / (n + 1) := Int.ediv_nonneg (by omega) (by omega)
    have hle : (randMax - n) / (n + 1) * (n + 1) ≤ randMax - n := Int.ediv_mul_le _ (by omega)
    have hself : (randMax - n) / (n + 1) ≤ randMax - n := Int.ediv_le_self _ (by omega)
    refine ⟨1 + (randMax - n) / (n + 1), ?_, by omega, by ring, ?_⟩
    · rw [partSize, if_neg heq, intOf_eq (by omega) (by omega), ok_bind,
        intOf_eq (by omega) (by omega), ok_bind, intDiv_eq (by omega) (by omega) (by omega),
        ok_bind]
      exact intOf_eq (by omega) (by omega)
    · rw [add_mul]
      omega

theorem maxUsefull_eq (h : Classes randMax n p m) (hmax : randMax < 2 ^ 31) (h₀ : 0 ≤ n) :
    maxUsefull p n = .ok m := by
  have hfill := h.fill
  have hin := h.within
  have hpos := h.pos
  have hn : 0 ≤ p * n := mul_nonneg hpos.le h₀
  rw [mul_add, mul_one] at hfill
  have hm : p * n + (p - 1) = m := by omega
  rw [maxUsefull, intOf_eq hn (by omega), ok_bind, intOf_eq (by omega) (by omega), ok_bind, hm,
    intOf_eq (by omega) (by omega)]

theorem Classes.quotient (h : Classes randMax n p m) (hd : 0 ≤ d) (hdm : d ≤ m) :
    0 ≤ d / p ∧ d / p ≤ n := by
  refine ⟨Int.ediv_nonneg hd h.pos.le, ?_⟩
  have hfill := h.fill
  have hlt : d / p < n + 1 := Int.ediv_lt_of_lt_mul h.pos (by rw [mul_comm]; omega)
  omega

/-- The accepted draws of one quotient are `p` in a row. -/
theorem Classes.interval (h : Classes randMax n p m) (hk : 0 ≤ k) (hkn : k ≤ n) :
    (0 ≤ d ∧ d ≤ m ∧ d / p = k) ↔ k * p ≤ d ∧ d < k * p + p := by
  have hfill := h.fill
  have hk0 : 0 ≤ k * p := mul_nonneg hk h.pos.le
  have hlast : k * p + p ≤ m + 1 := by
    calc k * p + p = p * (k + 1) := by ring
      _ ≤ p * (n + 1) := mul_le_mul_of_nonneg_left (by omega) h.pos.le
      _ = m + 1 := hfill
  rw [Int.ediv_eq_iff_of_pos h.pos]
  constructor
  · rintro ⟨-, -, h₁, h₂⟩
    exact ⟨h₁, h₂⟩
  · rintro ⟨h₁, h₂⟩
    exact ⟨by omega, by omega, h₁, h₂⟩

/-! ### The loop -/

theorem drawLoop_over (h : ∀ d ∈ draws, m < d) (rest : List ℤ) :
    drawLoop p m (draws ++ rest) = drawLoop p m rest := by
  induction draws with
  | nil => rfl
  | cons d draws ih =>
    rw [List.cons_append, drawLoop, if_pos (h d List.mem_cons_self)]
    exact ih fun x hx => h x (List.mem_cons_of_mem d hx)

theorem drawLoop_accept (h : Classes randMax n p m) (hmax : randMax < 2 ^ 31) (hd : 0 ≤ d)
    (hdm : d ≤ m) : drawLoop p m (d :: draws) = .ok (d / p, draws) := by
  have hin := h.within
  rw [drawLoop, if_neg (by omega), intDiv_eq hd (by omega) h.pos]
  rfl

/-- The draws before the first one that is accepted. -/
theorem first_accepted (m : ℤ) (draws : List ℤ) : (∀ d ∈ draws, m < d) ∨
    ∃ passed d rest, draws = passed ++ d :: rest ∧ (∀ x ∈ passed, m < x) ∧ d ≤ m := by
  induction draws with
  | nil => exact .inl (by simp)
  | cons d draws ih =>
    by_cases hd : m < d
    · rcases ih with hall | ⟨passed, e, rest, rfl, hpassed, he⟩
      · exact .inl (List.forall_mem_cons.mpr ⟨hd, hall⟩)
      · exact .inr ⟨d :: passed, e, rest, rfl, List.forall_mem_cons.mpr ⟨hd, hpassed⟩, he⟩
    · exact .inr ⟨[], d, draws, rfl, by simp, by omega⟩

theorem randN_eq (hmax : randMax < 2 ^ 31) (h₀ : 0 ≤ n) (hn : n ≤ randMax)
    (hroom : 0 < n ∨ randMax < 2 ^ 31 - 1) :
    ∃ p m, partSize randMax n = .ok p ∧ maxUsefull p n = .ok m ∧ Classes randMax n p m ∧
      ∀ draws, randN randMax n draws = drawLoop p m draws := by
  obtain ⟨p, hp, hc⟩ := partSize_spec hmax h₀ hn hroom
  have hm := maxUsefull_eq hc hmax h₀
  refine ⟨p, _, hp, hm, hc, fun draws => ?_⟩
  rw [randN, hp, ok_bind, hm, ok_bind]

/-- The loop takes the first accepted draw. -/
theorem Classes.first (h : Classes randMax n p m) (hmax : randMax < 2 ^ 31)
    (hd : ∀ d ∈ draws, 0 ≤ d ∧ d ≤ randMax) :
    ((∀ d ∈ draws, m < d) ∧ drawLoop p m draws = .error .draws) ∨
      ∃ passed d rest, draws = passed ++ d :: rest ∧ (∀ x ∈ passed, m < x) ∧ d ≤ m ∧
        drawLoop p m draws = .ok (d / p, rest) ∧ 0 ≤ d / p ∧ d / p ≤ n := by
  rcases first_accepted m draws with hall | ⟨passed, d, rest, rfl, hpassed, hdm⟩
  · refine .inl ⟨hall, ?_⟩
    have := drawLoop_over (p := p) hall []
    rw [List.append_nil] at this
    exact this
  · obtain ⟨h₀, -⟩ := hd d (by simp)
    refine .inr ⟨passed, d, rest, rfl, hpassed, hdm, ?_, h.quotient h₀ hdm⟩
    rw [drawLoop_over hpassed, drawLoop_accept h hmax h₀ hdm]

/-- The draws that lead to one result. -/
theorem Classes.card (h : Classes randMax n p m) (hmax : randMax < 2 ^ 31) (hk : 0 ≤ k)
    (hkn : k ≤ n) : ((Finset.Icc 0 randMax).filter fun d =>
      drawLoop p m [d] = .ok (k, [])).card = p.toNat := by
  have hclass : ((Finset.Icc 0 randMax).filter fun d => drawLoop p m [d] = .ok (k, [])) =
      Finset.Ico (k * p) (k * p + p) := by
    ext d
    rw [Finset.mem_filter, Finset.mem_Icc, Finset.mem_Ico, ← h.interval hk hkn]
    have hin := h.within
    by_cases hdm : d ≤ m
    · constructor
      · rintro ⟨⟨hd, -⟩, hok⟩
        rw [drawLoop_accept h hmax hd hdm] at hok
        cases hok
        exact ⟨hd, hdm, rfl⟩
      · rintro ⟨hd, -, rfl⟩
        exact ⟨⟨hd, by omega⟩, drawLoop_accept h hmax hd hdm⟩
    · constructor
      · rintro ⟨-, hok⟩
        rw [drawLoop, if_pos (by omega), drawLoop] at hok
        cases hok
      · rintro ⟨-, hle, -⟩
        exact absurd hle hdm
  rw [hclass, Int.card_Ico]
  congr 1
  omega

/-- No step of `rand_n` overflows or divides by zero, its result is from 0 to `n`, every result
has the same number of draws that lead to it, and the loop has draws to accept. -/
def Unbiased (randMax n : ℤ) : Prop :=
  ∃ p m, partSize randMax n = .ok p ∧ maxUsefull p n = .ok m ∧ 0 < p ∧ 0 ≤ m ∧ m ≤ randMax ∧
    (∀ k, 0 ≤ k → k ≤ n → ((Finset.Icc 0 randMax).filter fun d =>
      randN randMax n [d] = .ok (k, [])).card = p.toNat) ∧
    ∀ draws, (∀ d ∈ draws, 0 ≤ d ∧ d ≤ randMax) →
      ((∀ d ∈ draws, m < d) ∧ randN randMax n draws = .error .draws) ∨
      ∃ passed d rest, draws = passed ++ d :: rest ∧ (∀ x ∈ passed, m < x) ∧ d ≤ m ∧
        randN randMax n draws = .ok (d / p, rest) ∧ 0 ≤ d / p ∧ d / p ≤ n

/-- With the largest `RAND_MAX` there is no class for all draws: their number is no `int`. -/
theorem partSize_overflow (hroom : ¬(0 < n ∨ randMax < 2 ^ 31 - 1)) (hmax : randMax < 2 ^ 31)
    (h₀ : 0 ≤ n) : partSize randMax n = .error .overflow := by
  have hn : n = 0 := by omega
  have hr : randMax = 2147483647 := by omega
  subst hn hr
  rfl

theorem randN_unbiased_iff {randMax n : ℤ} (hmax : randMax < 2 ^ 31) (h₀ : 0 ≤ n)
    (hn : n ≤ randMax) : Unbiased randMax n ↔ 0 < n ∨ randMax < 2 ^ 31 - 1 := by
  constructor
  · rintro ⟨p, m, hp, -⟩
    by_contra hroom
    rw [partSize_overflow hroom hmax h₀] at hp
    cases hp
  · intro hroom
    obtain ⟨p, m, hp, hm, hc, heq⟩ := randN_eq hmax h₀ hn hroom
    refine ⟨p, m, hp, hm, hc.pos, hc.nonneg h₀, hc.within, ?_, ?_⟩
    · intro k hk hkn
      simp only [heq]
      exact hc.card hmax hk hkn
    · intro draws hd
      rw [heq]
      exact hc.first hmax hd

/-- Just above half of `RAND_MAX` a class is one draw, and every larger draw is rejected. -/
theorem randN_unbiased_half : Unbiased 2147483647 1073741824 :=
  (randN_unbiased_iff (by decide) (by decide) (by decide)).mpr (.inl (by decide))

/-- With one result the class of all draws overflows. -/
theorem randN_overflow : ¬∀ randMax n : ℤ, randMax < 2 ^ 31 → 0 ≤ n → n ≤ randMax →
    Unbiased randMax n := by
  intro h
  obtain ⟨p, m, hp, -⟩ := h 2147483647 0 (by decide) (by decide) (by decide)
  cases hp

/-! ### The characters of an identifier -/

/-- The characters that are written are some of `basic_chars`, whose index is never out of its
bounds. -/
theorem writeChars_spec (hmax : randMax < 2 ^ 31) (h15 : 15 ≤ randMax) (i : ℕ)
    (hd : ∀ d ∈ draws, 0 ≤ d ∧ d ≤ randMax) : writeChars randMax i draws = .error .draws ∨
    ∃ (ks : List (Fin 16)) (rest : List ℤ), ks.length = i ∧
      writeChars randMax i draws = .ok (ks.map fun k => Ape.basicChars.getD k.val 0, rest) := by
  induction i generalizing draws with
  | zero => exact .inr ⟨[], draws, rfl, rfl⟩
  | succ i ih =>
    obtain ⟨p, m, -, -, hc, heq⟩ := randN_eq hmax (n := 15) (by omega) h15 (.inl (by omega))
    rw [writeChars, heq]
    rcases hc.first hmax hd with ⟨-, hwait⟩ | ⟨passed, d, rest, rfl, -, -, hok, h₀, h₁⟩
    · rw [hwait]
      exact .inl rfl
    · rw [hok, ok_bind]
      dsimp only
      have hrest : ∀ x ∈ rest, 0 ≤ x ∧ x ≤ randMax := fun x hx => hd x (by simp [hx])
      rcases ih hrest with hwait | ⟨ks, rest', hlen, hks⟩
      · rw [hwait]
        exact .inl rfl
      · rw [hks]
        exact .inr ⟨⟨(d / p).toNat, by omega⟩ :: ks, rest', by simp [hlen], rfl⟩

/-- A round of `gen_sessid_new` writes one of the strings that `Ape.rand` lists. -/
theorem writeChars_drawn (hmax : randMax < 2 ^ 31) (h15 : 15 ≤ randMax)
    (hd : ∀ d ∈ draws, 0 ≤ d ∧ d ≤ randMax) : writeChars randMax 32 draws = .error .draws ∨
    ∃ d rest, writeChars randMax 32 draws = .ok (Ape.drawn d, rest) := by
  rcases writeChars_spec hmax h15 32 hd with hwait | ⟨ks, rest, hlen, hks⟩
  · exact .inl hwait
  · exact .inr ⟨⟨ks, hlen⟩, rest, hks⟩

end ApeServer
