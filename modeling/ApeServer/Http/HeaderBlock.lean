import ApeServer.Http.HeadersFields

/-!
# The header block of a response

What `http_send_headers` writes of a response: the status line, with the three digits of a code
that has three, and of its fields every second one, before it follows a NULL pointer or returns.
-/
namespace ApeServer.Http

open Sock (Bytes)
open HeadersResponse
open LinkedQueue (Path)

/-- Three decimal digits that are the code. -/
def Shown (code : ℤ) (t : Bytes) : Prop :=
  ∃ a b c : ℕ, a < 10 ∧ b < 10 ∧ c < 10 ∧ code = 100 * a + 10 * b + c ∧
    t = [Json.digitChar a, Json.digitChar b, Json.digitChar c]

theorem Shown.nonneg {code : ℤ} {t : Bytes} (h : Shown code t) : 0 ≤ code ∧ code ≤ 999 := by
  obtain ⟨a, b, c, ha, hb, hc, rfl, -⟩ := h
  omega

/-- A code of three digits fills the buffer, whatever was in it. -/
theorem itos_shown {code : ℤ} (hlow : 100 ≤ code) (hhigh : code ≤ 999) {stack : Bytes}
    (hstack : stack.length = 4) :
    ∃ start output, itos code stack = some (start, output) ∧ Shown code (output.take 3) := by
  obtain ⟨m, rfl⟩ : ∃ m : ℕ, code = m := ⟨code.toNat, by omega⟩
  have htext : Json.digitsText Json.digitChar m =
      [Json.digitChar (m / 100), Json.digitChar (m / 10 % 10), Json.digitChar (m % 10)] := by
    rw [Json.digitsText_succ _ (by omega), Json.digitsText_succ _ (by omega : m / 10 ≠ 0),
      Json.digitsText_succ _ (by omega : m / 10 / 10 ≠ 0),
      show m / 10 / 10 / 10 = 0 by omega, show m / 10 / 10 = m / 100 by omega,
      show m / 100 % 10 = m / 100 by omega]
    rfl
  have hlen : (Nat.digits 10 m).length = 3 := by
    rw [← Json.length_digitsText Json.digitChar, htext]
    rfl
  obtain ⟨output, hrun, -, hdrop⟩ := Json.writes_nat.itosDigits 3 m (stack.set 3 0)
    (by omega) (by rw [List.length_set]; omega)
  rw [hlen, Nat.sub_self, List.drop_zero] at hdrop
  rw [hlen, Nat.sub_self] at hrun
  have hneg : ¬ (m : ℤ) < 0 := by omega
  refine ⟨0, output, ?_, m / 100, m / 10 % 10, m % 10, ?_, ?_, ?_, ?_, ?_⟩
  · rw [itos, hstack, if_neg hneg, hrun]
    simp [hneg]
  · omega
  · omega
  · omega
  · omega
  · rw [hdrop, htext]
    rfl

/-- A number with more digits than there is room for is written in front of the buffer. -/
theorem itosDigits_overrun {free m : ℕ} (h : 10 ^ free ≤ m) (output : Bytes) :
    Json.itosDigits free m output = none := by
  induction free generalizing m output with
  | zero =>
    have hm : (m : ℤ) ≠ 0 := by omega
    rw [Json.itosDigits, if_neg hm]
  | succ free ih =>
    have hpos : 0 < 10 ^ (free + 1) := Nat.pow_pos (by omega)
    have hm : (m : ℤ) ≠ 0 := by omega
    have hdiv : 10 ^ free ≤ m / 10 := by
      rw [Nat.le_div_iff_mul_le (by omega), ← Nat.pow_succ]
      exact h
    rw [Json.itosDigits, if_neg hm, Json.writes_nat.div]
    exact ih hdiv _

/-- A code below 100 leaves the first byte as it was. -/
theorem itos_unfilled : ∀ n < 100, ∀ p, itos (n : ℕ) [0, 0, 0, 0] = some p → p.2.head? = some 0 := by
  have h : ∀ n < 100, (itos (n : ℕ) [0, 0, 0, 0]).all (·.2.head? = some 0) = true := by
    decide +kernel
  intro n hn p hp
  have := h n hn
  rw [hp] at this
  simpa using this

theorem digitChar_ne_zero {d : ℕ} (hd : d < 10) : Json.digitChar d ≠ 0 := by
  interval_cases d <;> decide

/-- On a stack of zeros the digits of any other code are not there. -/
theorem not_shown {code : ℤ} (h : ¬ (100 ≤ code ∧ code ≤ 999)) {p : ℕ × Bytes}
    (hp : itos code [0, 0, 0, 0] = some p) : ¬ Shown code (p.2.take 3) := by
  intro hs
  obtain ⟨hnonneg, hle⟩ := hs.nonneg
  obtain ⟨n, rfl⟩ : ∃ n : ℕ, code = n := ⟨code.toNat, by omega⟩
  have hhead := itos_unfilled n (by omega) p hp
  obtain ⟨a, b, c, ha, -, -, -, ht⟩ := hs
  cases hout : p.2 with
  | nil =>
    rw [hout] at hhead
    cases hhead
  | cons x output =>
    rw [hout] at hhead ht
    rw [List.take_succ_cons] at ht
    obtain rfl : x = 0 := Option.some.inj hhead
    exact digitChar_ne_zero ha (List.cons.inj ht).1.symm

/-! ## The status line -/

/-- The status line is written with the code in three decimal digits, whatever was on the
stack, and `itos` stays in its buffer. -/
def StatusShown (r : HeadersResponse) : Prop :=
  ∀ stack : Bytes, stack.length = 4 → ∃ t rest, Shown r.code t ∧
    (httpSendHeaders (some r) [] stack).writes =
      bytes "HTTP/1.1 " :: t :: bytes " " :: r.detail :: crlf :: rest

theorem statusShown_of_code {r : HeadersResponse} : StatusShown r ↔ 100 ≤ r.code ∧ r.code ≤ 999 := by
  constructor
  · intro h
    by_contra hcode
    obtain ⟨t, rest, hshown, hwrites⟩ := h [0, 0, 0, 0] rfl
    rw [httpSendHeaders] at hwrites
    split at hwrites
    · cases hwrites
    · next p hp =>
      obtain rfl := (List.cons.inj (List.cons.inj hwrites).2).1
      exact not_shown hcode hp hshown
  · rintro ⟨hlow, hhigh⟩ stack hstack
    obtain ⟨start, output, hitos, hshown⟩ := itos_shown hlow hhigh hstack
    refine ⟨output.take 3, (r.sendFields r.size r.fields).writes, hshown, ?_⟩
    simp [httpSendHeaders, hitos]

theorem httpHeadersSetField_code {r r' : HeadersResponse} {c : FieldCall}
    (h : r.httpHeadersSetField c = some r') : r'.code = r.code ∧ r'.detail = r.detail := by
  unfold httpHeadersSetField at h
  split at h
  · cases h
    exact ⟨rfl, rfl⟩
  · obtain ⟨found, -, h⟩ := Option.bind_eq_some_iff.mp h
    cases found with
    | none =>
      simp only [newField, setField] at h
      split at h
      · cases h
        exact ⟨rfl, rfl⟩
      · obtain ⟨l, -, h⟩ := Option.bind_eq_some_iff.mp h
        cases h
        exact ⟨rfl, rfl⟩
    | some a =>
      cases h
      exact ⟨rfl, rfl⟩

theorem setFields_code {r r' : HeadersResponse} {calls : List FieldCall}
    (h : r.setFields calls = some r') : r'.code = r.code ∧ r'.detail = r.detail := by
  induction calls generalizing r with
  | nil =>
    cases h
    exact ⟨rfl, rfl⟩
  | cons c calls ih =>
    obtain ⟨r₁, h₁, h₂⟩ := Option.bind_eq_some_iff.mp h
    have hset := httpHeadersSetField_code h₁
    have hrest := ih h₂
    exact ⟨hrest.1.trans hset.1, hrest.2.trans hset.2⟩

/-- A response that was returned, whatever fields it has been given, is sent with its code in
three digits if and only if the code has three digits. -/
theorem statusShown_iff {code : ℤ} {detail : Bytes} {calls : List FieldCall}
    {r₀ r : HeadersResponse} (h₀ : httpHeadersInit code detail = some r₀)
    (h : r₀.setFields calls = some r) : StatusShown r ↔ 100 ≤ code ∧ code ≤ 999 := by
  rw [statusShown_of_code, (setFields_code h).1, (init_fields h₀).2.1]

theorem statusShown_ok : StatusShown okResponse ↔ 100 ≤ (200 : ℤ) ∧ (200 : ℤ) ≤ 999 := by
  have h : httpHeadersInit 200 (bytes "OK") = some okResponse := rfl
  have hcalls : okResponse.setFields [] = some okResponse := rfl
  exact statusShown_iff h hcalls

/-- A response with the code 42 is returned, and its code is not sent. -/
theorem code_unshown : ∃ r, httpHeadersInit 42 [] = some r ∧ ¬ StatusShown r := by
  refine ⟨_, rfl, ?_⟩
  rw [statusShown_of_code]
  decide

/-! ## The fields -/

/-- The bytes of all fields, in the order of the list. -/
def fieldBytes (r : HeadersResponse) (l : List ℕ) : Bytes :=
  l.flatMap fun a => (fieldWrites (r.field a)).flatten

/-- The call returns, and has written the status line, every field and an empty line. -/
def BlockSent (r : HeadersResponse) (l : List ℕ) : Prop :=
  ∀ stack : Bytes, stack.length = 4 → ∃ t, Shown r.code t ∧
    (httpSendHeaders (some r) [] stack).fate = .returned ∧
    (httpSendHeaders (some r) [] stack).writes.flatten =
      bytes "HTTP/1.1 " ++ t ++ bytes " " ++ r.detail ++ crlf ++ fieldBytes r l ++ crlf

/-- A loop that returns has left out every second field. -/
theorem sendFields_short {r : HeadersResponse} : ∀ {l : List ℕ} {p : Option ℕ} {fuel : ℕ},
    Path r.next p l → l.length ≤ fuel → (r.sendFields fuel p).fate = .returned →
      (r.sendFields fuel p).writes.flatten.length + 2 * l.length ≤
        (fieldBytes r l).length + 2
  | [], p, fuel, hpath, _, _ => by
    obtain rfl : p = none := hpath
    cases fuel <;> exact le_rfl
  | [a], p, fuel, hpath, hfuel, hfate => by
    obtain ⟨rfl, hnext⟩ := hpath
    obtain ⟨fuel, rfl⟩ := Nat.exists_eq_add_of_le' hfuel
    have hnone : r.next a = none := hnext
    simp only [List.length_singleton, sendFields, hnone] at hfate
    cases hfate
  | a :: b :: l, p, fuel, hpath, hfuel, hfate => by
    obtain ⟨rfl, hnext, hl⟩ := hpath
    obtain ⟨fuel, rfl⟩ : ∃ k, fuel = k + 1 := ⟨fuel - 1, by simp at hfuel; omega⟩
    simp only [List.length_cons] at hfuel
    simp only [sendFields, hnext] at hfate ⊢
    have ih := sendFields_short hl (by omega) hfate
    simp only [fieldBytes, List.flatMap_cons, List.flatten_append, List.length_append,
      List.length_cons, fieldWrites, List.flatten_cons, List.flatten_nil] at ih ⊢
    have hcrlf : crlf.length = 2 := rfl
    have hcolon : (bytes ": ").length = 2 := rfl
    simp only [hcrlf, hcolon, List.length_nil]
    omega

theorem writes_eq {r : HeadersResponse} {stack : Bytes} {start : ℕ} {output : Bytes}
    (h : itos r.code stack = some (start, output)) :
    (httpSendHeaders (some r) [] stack).writes.flatten =
        bytes "HTTP/1.1 " ++ output.take 3 ++ bytes " " ++ r.detail ++ crlf ++
          (r.sendFields r.size r.fields).writes.flatten ∧
      (httpSendHeaders (some r) [] stack).fate = (r.sendFields r.size r.fields).fate := by
  simp [httpSendHeaders, h]

/-- The header block is sent in full if and only if there are no fields and the code has three
digits. -/
theorem blockSent_iff {r : HeadersResponse} {l : List ℕ} (h : Fields r l) :
    BlockSent r l ↔ r.fields = none ∧ 100 ≤ r.code ∧ r.code ≤ 999 := by
  constructor
  · intro hsent
    obtain ⟨t₀, ht₀, hfate₀, hwrites₀⟩ := hsent [0, 0, 0, 0] rfl
    cases hitos : itos r.code [0, 0, 0, 0] with
    | none =>
      simp [httpSendHeaders, hitos] at hfate₀
    | some p =>
      obtain ⟨start, output⟩ := p
      obtain ⟨hwrites, hfate⟩ := writes_eq hitos
      rw [hfate] at hfate₀
      have heq := hwrites.symm.trans hwrites₀
      have hlen := congrArg List.length heq
      have hshort := sendFields_short h.queue.path h.length_le hfate₀
      have hcrlf : crlf.length = 2 := rfl
      have ht₃ : t₀.length = 3 := by
        obtain ⟨a, b, c, -, -, -, -, rfl⟩ := ht₀
        rfl
      have htake : (output.take 3).length ≤ 3 := by simp
      simp only [List.length_append] at hlen
      have hnil : l = [] := List.length_eq_zero_iff.mp (by omega)
      refine ⟨h.queue.head_eq_none.mpr hnil, ?_⟩
      by_contra hcode
      refine not_shown hcode hitos ?_
      simp only [List.append_assoc] at heq
      obtain ⟨htext, -⟩ := List.append_inj (List.append_cancel_left heq) (by omega)
      rw [htext]
      exact ht₀
  · rintro ⟨hnone, hlow, hhigh⟩ stack hstack
    obtain ⟨start, output, hitos, hshown⟩ := itos_shown hlow hhigh hstack
    obtain ⟨hwrites, hfate⟩ := writes_eq hitos
    obtain rfl : l = [] := h.queue.head_eq_none.mp hnone
    have hsend : r.sendFields r.size none = ⟨[crlf], .returned⟩ := by
      cases r.size <;> rfl
    rw [hnone, hsend] at hwrites hfate
    refine ⟨_, hshown, hfate, ?_⟩
    rw [hwrites]
    simp [fieldBytes]

/-- A response with the two fields `content` and `Content-Type`. -/
def twoFields : HeadersResponse :=
  { code := 200, detail := bytes "OK", fields := some 0, last := some 1, size := 2
    field := fun a => if a = 0 then ⟨bytes "content", bytes "x", some 1⟩
      else ⟨bytes "Content-Type", bytes "text/plain", none⟩ }

theorem twoFields_list : Fields twoFields [0, 1] :=
  ⟨⟨⟨rfl, rfl, rfl⟩, rfl, by decide⟩, by decide⟩

theorem blockSent_iff_twoFields :
    BlockSent twoFields [0, 1] ↔ twoFields.fields = none ∧ 100 ≤ twoFields.code ∧
      twoFields.code ≤ 999 :=
  blockSent_iff twoFields_list

/-- Of two fields only the first is written. -/
theorem second_field_left_out : ∃ r l, Fields r l ∧ ¬ BlockSent r l := by
  refine ⟨twoFields, [0, 1], twoFields_list, ?_⟩
  intro h
  obtain ⟨t, ht, -, hwrites⟩ := h [0, 0, 0, 0] rfl
  obtain ⟨a, b, c, -, -, -, -, rfl⟩ := ht
  have hsent : (httpSendHeaders (some twoFields) [] [0, 0, 0, 0]).writes.flatten.length = 31 := by
    decide +kernel
  have hlen := hsent.symm.trans (congrArg List.length hwrites)
  exact absurd hlen (show (31 : ℕ) ≠ 57 by decide)

end ApeServer.Http
