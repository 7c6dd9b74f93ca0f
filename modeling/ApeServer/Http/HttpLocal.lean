import ApeServer.Http.HttpView

/-!
# What a line decides by itself

The parsing of a line does not look behind its line feed.
-/
namespace ApeServer.Http

open Sock (Bytes)

/-- What holds of 256 numbers holds of all bytes. -/
theorem byte_forall {p : UInt8 → Prop} (h : ∀ n < 256, p (UInt8.ofNat n)) (b : UInt8) : p b := by
  have hb := h b.toNat b.toNat_lt
  rwa [UInt8.ofNat_toNat] at hb

variable {l x : Bytes}

theorem seof_lf (hl : 0 ∉ l) (hlf : lf ∉ l) : seof lf (l ++ lf :: x) = some (l.length + 1) := by
  induction l with
  | nil => rfl
  | cons b l ih =>
    have ⟨hb, hl⟩ : 0 ≠ b ∧ 0 ∉ l := by simpa using hl
    have ⟨hbl, hlf⟩ : lf ≠ b ∧ lf ∉ l := by simpa using hlf
    simp [seof, hb.symm, hbl.symm, ih hl hlf]

theorem seof_nul (hl : 0 ∉ l) (hlf : lf ∉ l) : seof lf (l ++ 0 :: x) = none := by
  induction l with
  | nil => rfl
  | cons b l ih =>
    have ⟨hb, hl⟩ : 0 ≠ b ∧ 0 ∉ l := by simpa using hl
    have ⟨hbl, hlf⟩ : lf ≠ b ∧ lf ∉ l := by simpa using hlf
    simp [seof, hb.symm, hbl.symm, ih hl hlf]

theorem take_lf (lit : Bytes) (hlit : lf ∉ lit) :
    (l ++ lf :: x).take lit.length = lit ↔ l.take lit.length = lit := by
  rcases Nat.lt_or_ge l.length lit.length with hlen | hlen
  · constructor
    · intro h
      refine absurd ?_ hlit
      rw [← h, List.take_append, List.mem_append]
      right
      obtain ⟨n, hn⟩ : ∃ n, lit.length - l.length = n + 1 := ⟨lit.length - l.length - 1, by omega⟩
      simp [hn]
    · intro h
      have := congrArg List.length h
      simp only [List.length_take] at this
      omega
  · rw [List.take_append_of_le_length hlen]

theorem tolower_lf : tolower lf = lf := by decide

theorem startsWith_lf {lit : Bytes} (hlit : lf ∉ lit.map tolower) :
    startsWith lit (l ++ lf :: x) = startsWith lit l := by
  have h := take_lf (l := l.map tolower) (x := x.map tolower) _ hlit
  simp only [startsWith, List.map_take, List.map_append, List.map_cons, tolower_lf]
  simpa using h

theorem startsWith_length {lit : Bytes} (h : startsWith lit l = true) : lit.length ≤ l.length := by
  simp only [startsWith, decide_eq_true_eq] at h
  have := congrArg List.length h
  simp only [List.length_map, List.length_take] at this
  omega

theorem takeWhile_lf {p : UInt8 → Bool} (hp : p lf = false) :
    (l ++ lf :: x).takeWhile p = l.takeWhile p := by
  induction l with
  | nil => simp [hp]
  | cons b l ih =>
    cases hb : p b with
    | false => simp [hb]
    | true => simp [hb, ih]

theorem takeWhile_take_lf {p : UInt8 → Bool} (hp : p lf = false) (n : ℕ) :
    ((l ++ lf :: x).take n).takeWhile p = (l.take n).takeWhile p := by
  rcases Nat.lt_or_ge l.length n with hlen | hlen
  · obtain ⟨m, rfl⟩ : ∃ m, n = l.length + (m + 1) := ⟨n - l.length - 1, by omega⟩
    rw [List.take_length_add_append, List.take_succ_cons, takeWhile_lf hp,
      List.take_of_length_le (by omega)]
  · rw [List.take_append_of_le_length hlen]

theorem parseKey_lf (hlf : lf ∉ l) (i : ℕ) (key : Bytes) :
    parseKey i key (l ++ lf :: x) = parseKey i key l := by
  induction l generalizing i key with
  | nil => simp [parseKey, isEnd]
  | cons b l ih =>
    have ⟨_, hlf⟩ : lf ≠ b ∧ lf ∉ l := by simpa using hlf
    simp only [List.cons_append, parseKey, ih hlf]
    cases l with
    | nil =>
      by_cases hb : b = colon
      · simp [hb, show lf ≠ space by decide, show (0 : UInt8) ≠ space by decide]
      · simp [hb]
    | cons c l =>
      rw [List.cons_append, List.tail_cons, List.tail_cons, takeWhile_take_lf (by decide)]
      rfl

theorem parseHeaderLine_lf (hlf : lf ∉ l) : parseHeaderLine (l ++ lf :: x) = parseHeaderLine l :=
  parseKey_lf hlf 0 []

theorem dropWhile_append_cons {p : UInt8 → Bool} (h : l.all p = false) :
    ∃ b m, l.dropWhile p = b :: m ∧ (l ++ x).dropWhile p = b :: (m ++ x) := by
  induction l with
  | nil => cases h
  | cons b l ih =>
    cases hb : p b with
    | false => exact ⟨b, l, by simp [hb], by simp [hb]⟩
    | true =>
      simp only [List.all_cons, hb, Bool.true_and] at h
      obtain ⟨c, m, h1, h2⟩ := ih h
      exact ⟨c, m, by simp [hb, h1], by simp [hb, h2]⟩

theorem atoi_lf (h : l.all isspace = false) : atoi (l ++ lf :: x) = atoi l := by
  have hd : isdigit lf = false := by decide
  obtain ⟨b, m, h1, h2⟩ := dropWhile_append_cons (x := lf :: x) h
  have hbm : (b :: (m ++ lf :: x)).takeWhile isdigit = (b :: m).takeWhile isdigit :=
    takeWhile_lf (l := b :: m) hd
  simp only [atoi, h1, h2, takeWhile_lf hd, hbm]

/-- The scan ends with its line, or with the text received. -/
theorem scanTarget_end {b : UInt8} (hb : isEnd b = true) (p : ℕ) (q q' : Option ℕ) :
    (scanTarget p (l ++ b :: x) q).1 = (scanTarget p l q').1 := by
  induction l generalizing p q q' with
  | nil =>
    have hs : b ≠ space := by
      rintro rfl
      exact absurd hb (by decide)
    have hq : b ≠ question := by
      rintro rfl
      exact absurd hb (by decide)
    simp [scanTarget, hb, hs, hq]
  | cons c l ih =>
    simp only [List.cons_append, scanTarget]
    split
    · rfl
    · split
      · exact ih _ _ _
      · split
        · rfl
        · exact ih _ _ _

/-- A scan that finds the end of the target does not look further. -/
theorem scanTarget_append {p e : ℕ} {q q' : Option ℕ} (h : scanTarget p l q = (some e, q')) :
    scanTarget p (l ++ x) q = (some e, q') := by
  induction l generalizing p q with
  | nil => cases h
  | cons b l ih =>
    simp only [List.cons_append, scanTarget] at h ⊢
    split at h
    · next hb => rw [if_pos hb, h]
    · next hb =>
      rw [if_neg hb]
      split at h
      · next hq =>
        rw [if_pos hq]
        cases l with
        | nil => cases h
        | cons c l => exact ih h
      · next hq =>
        rw [if_neg hq]
        split at h
        · cases h
        · next he =>
          rw [if_neg he]
          exact ih h

/-- Where the scan can end. -/
theorem scanTarget_bounds {p e : ℕ} {q q' : Option ℕ} (h : scanTarget p l q = (some e, q')) :
    p ≤ e ∧ e < p + l.length ∧ ∀ k, q' = some k → q = some k ∨ (p < k ∧ k ≤ e) := by
  induction l generalizing p q with
  | nil => cases h
  | cons b l ih =>
    simp only [scanTarget] at h
    simp only [List.length_cons]
    split at h
    · cases h
      exact ⟨le_rfl, by omega, fun k hk => .inl hk⟩
    · split at h
      · obtain ⟨h1, h2, h3⟩ := ih h
        refine ⟨by omega, by omega, fun k hk => ?_⟩
        rcases h3 k hk with hq | hq
        · split at hq
          · cases hq
            exact .inr ⟨by omega, h1⟩
          · exact .inl hq
        · exact .inr ⟨by omega, hq.2⟩
      · split at h
        · cases h
        · obtain ⟨h1, h2, h3⟩ := ih h
          refine ⟨by omega, by omega, fun k hk => ?_⟩
          rcases h3 k hk with hq | hq
          · exact .inl hq
          · exact .inr ⟨by omega, hq.2⟩

end ApeServer.Http
