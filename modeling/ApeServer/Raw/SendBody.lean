import ApeServer.Raw.Send

/-! The two walks of `send_raws` write high raws backwards, then low raws forwards. -/
namespace ApeServer.RawPool

open Sock (Bytes toInt32)
open Chain

variable {mem : List Cell} {chain : List ℕ} {low : Pool} {right : Option Bytes}
  {raws lows highs : List Raw} {i k size : ℕ}

/-- The pieces the loop writes for the raws it has in front of it. -/
def emit (right : Option Bytes) : List Raw → List Bytes
  | [] => []
  | r :: rs => r.data :: (if rs = [] then bytes "]" :: right.toList else [bytes ","]) ++
      emit right rs

/-- The body of a non-empty queue: its raws between brackets, separated by commas. -/
def body (raws : List Raw) : Bytes :=
  bytes "[" ++ (bytes ",").intercalate (raws.map Raw.data) ++ bytes "]"

theorem emit_flatten (h : raws ≠ []) :
    (emit right raws).flatten =
      (bytes ",").intercalate (raws.map Raw.data) ++ bytes "]" ++ right.getD [] := by
  induction raws with
  | nil => exact absurd rfl h
  | cons r rs ih =>
    cases rs with
    | nil => cases right <;> simp [emit]
    | cons r' rs =>
      rw [emit, List.flatten_append, ih (by simp)]
      simp [List.intercalate]

/-- The slots a forward walk finds when it has emptied the cells below `i`. -/
def above (raws : List Raw) (i : ℕ) : ℕ → Option Raw := fun j => if i ≤ j then raws[j]? else none

/-- The slots a backward walk finds when it has emptied the cells from `k` on. -/
def below (raws : List Raw) (k : ℕ) : ℕ → Option Raw := fun j => if j < k then raws[j]? else none

theorem above_update : Function.update (above raws i) i none = above raws (i + 1) := by
  funext j
  by_cases hj : j = i
  · simp [hj, above]
  · rw [Function.update_of_ne hj]
    have : i ≤ j ↔ i + 1 ≤ j := by omega
    simp only [above, this]

theorem above_zero (raws : List Raw) : above raws 0 = fill raws := by
  funext j
  simp [above, fill]

theorem above_length (raws : List Raw) (h : raws.length ≤ i) : above raws i = fill [] := by
  funext j
  by_cases hj : i ≤ j
  · simp [above, fill, hj, List.getElem?_eq_none (show raws.length ≤ j by omega)]
  · simp [above, fill, hj]

theorem below_update : Function.update (below raws (k + 1)) k none = below raws k := by
  funext j
  by_cases hj : j = k
  · simp [hj, below]
  · rw [Function.update_of_ne hj]
    have : j < k + 1 ↔ j < k := by omega
    simp only [below, this]

theorem below_zero : below raws 0 = fill [] := by
  funext j
  simp [below, fill]

theorem below_length (raws : List Raw) : below raws raws.length = fill raws := by
  funext j
  by_cases hj : j < raws.length
  · simp [below, fill, hj]
  · simp [below, fill, hj]

theorem Holds.rawAt_get {slots : ℕ → Option Raw} (h : Holds mem chain slots)
    (hi : i < chain.length) : rawAt mem chain[i]? = slots i := by
  rw [List.getElem?_eq_getElem hi]
  exact h.raw (List.getElem?_eq_getElem hi)

/-- The forward walk over the low pool. -/
theorem sendLoop_forward (right : Option Bytes) (low : Pool) (h : Holds mem chain (above raws i))
    (hi : i ≤ raws.length) (hroom : raws.length < chain.length) :
    ∃ mem', sendLoop right low mem chain[i]? true = some (emit right (raws.drop i), mem') ∧
      Holds mem' chain (fill []) ∧ mem'.length = mem.length ∧
      ∀ b, b ∉ chain → mem'[b]? = mem[b]? := by
  -- each turn empties one cell, so the induction is on the raws that are left
  induction hn : raws.length - i generalizing mem i with
  | zero =>
    obtain ⟨a, ha⟩ : ∃ a, chain[i]? = some a := ⟨_, List.getElem?_eq_getElem (by omega)⟩
    obtain ⟨cell, hc, hr, -, -⟩ := h.get ha
    have hnone : cell.raw = none := by
      rw [hr, above_length raws (by omega)]
      simp [fill]
    refine ⟨mem, ?_, above_length raws (show raws.length ≤ i by omega) ▸ h, rfl, fun _ _ => rfl⟩
    rw [ha, sendLoop_empty true hc hnone]
    simp [List.drop_eq_nil_of_le (show raws.length ≤ i by omega), emit]
  | succ n ih =>
    have hlt : i < raws.length := by omega
    obtain ⟨a, ha⟩ : ∃ a, chain[i]? = some a := ⟨_, List.getElem?_eq_getElem (by omega)⟩
    obtain ⟨cell, hc, hr, hnext, -⟩ := h.get ha
    have hsome : cell.raw = some raws[i] := by simp [hr, above, hlt]
    have hahead : rawAt mem cell.next = raws[i + 1]? := by
      rw [hnext, h.rawAt_get (by omega)]
      simp [above]
    have h' := h.set_raw ha hc none
    rw [above_update] at h'
    obtain ⟨mem', he, hh, hlen, hkeep⟩ := ih h' (by omega) (by omega)
    rw [← hnext] at he
    refine ⟨mem', ?_, hh, by simpa using hlen, ?_⟩
    · have hdrop : raws.drop i = raws[i] :: raws.drop (i + 1) := List.drop_eq_getElem_cons hlt
      have hsep : raws.drop (i + 1) = [] ↔ ¬ i + 1 < raws.length := by
        rw [List.drop_eq_nil_iff, not_lt]
      rw [ha, sendLoop_raw true hc hsome, hdrop, emit]
      simp only [↓reduceIte, hahead, Bool.not_true, Bool.false_and, Bool.or_false,
        Bool.and_false, Bool.false_eq_true, he, Option.map_some, hsep]
      by_cases hd : i + 1 < raws.length <;> simp [hd]
    · intro b hb
      rw [hkeep b hb, List.getElem?_set_ne]
      rintro rfl
      exact hb (List.mem_of_getElem? ha)

/-- The backward walk over the high pool, which continues with the low pool. -/
theorem sendLoop_backward (right : Option Bytes) {cl : List ℕ}
    (h : Holds mem chain (below highs (k + 1))) (hk : k < highs.length)
    (hroom : highs.length < chain.length) (hl : Stores mem low cl lows)
    (hd : cl.Disjoint chain) :
    ∃ mem', sendLoop right low mem chain[k]? false =
        some (emit right ((highs.take (k + 1)).reverse ++ lows), mem') ∧
      Holds mem' chain (fill []) ∧ Holds mem' cl (fill []) := by
  induction k generalizing mem with
  | zero =>
    obtain ⟨a, ha⟩ : ∃ a, chain[0]? = some a := ⟨_, List.getElem?_eq_getElem (by omega)⟩
    obtain ⟨cell, hc, hr, -, hprev⟩ := h.get ha
    have hsome : cell.raw = some highs[0] := by simp [hr, below, hk]
    have hpz : cell.prev = none := by simpa using hprev
    have h' := h.set_raw ha hc none
    rw [below_update, below_zero] at h'
    have hl' := hl.holds.set_off (fun hm => hd hm (List.mem_of_getElem? ha))
      { cell with raw := none }
    rw [← above_zero] at hl'
    obtain ⟨mem', he, hh, hlen, hkeep⟩ := sendLoop_forward right low hl' (Nat.zero_le _)
      (by rw [← hl.nraw, ← hl.size]; exact hl.room)
    have hch : Holds mem' chain (fill []) :=
      h'.frame (by rw [hlen]) fun b hb => hkeep b fun hm => hd hm hb
    refine ⟨mem', ?_, hch, hh⟩
    have htake : (highs.take 1).reverse ++ lows = highs[0] :: lows := by
      rw [List.take_one, List.head?_eq_getElem?, List.getElem?_eq_getElem hk]
      simp
    rw [ha, sendLoop_raw false hc hsome, Nat.zero_add, htake, emit]
    simp only [hpz] at he ⊢
    by_cases hnil : lows = [] <;> simp [rawAt, hl.head, he, hnil, hl.nraw]
  | succ k ih =>
    obtain ⟨a, ha⟩ : ∃ a, chain[k + 1]? = some a := ⟨_, List.getElem?_eq_getElem (by omega)⟩
    obtain ⟨cell, hc, hr, -, hprev⟩ := h.get ha
    have hsome : cell.raw = some highs[k + 1] := by simp [hr, below, hk]
    have hpk : cell.prev = chain[k]? := by simpa using hprev
    have hbefore : rawAt mem cell.prev = some highs[k] := by
      rw [hpk, h.rawAt_get (by omega)]
      simp [below, show k < highs.length by omega]
    have h' := h.set_raw ha hc none
    rw [below_update] at h'
    have hafter : rawAt (mem.set a { cell with raw := none }) cell.prev = some highs[k] := by
      have hat := h'.rawAt_get (i := k) (by omega)
      rw [← hpk] at hat
      simpa [below, show k < highs.length by omega] using hat
    have hl' : Stores (mem.set a { cell with raw := none }) low cl lows :=
      { hl with holds := hl.holds.set_off (fun hm => hd hm (List.mem_of_getElem? ha)) _ }
    obtain ⟨mem', he, hch, hcl⟩ := ih h' (by omega) hl'
    rw [← hpk] at he
    refine ⟨mem', ?_, hch, hcl⟩
    have htake : (highs.take (k + 1 + 1)).reverse ++ lows =
        highs[k + 1] :: ((highs.take (k + 1)).reverse ++ lows) := by
      have ht : highs.take (k + 1 + 1) = highs.take (k + 1) ++ [highs[k + 1]] :=
        List.take_succ_eq_append_getElem hk
      rw [ht, List.reverse_append, List.reverse_singleton, List.singleton_append,
        List.cons_append]
    have hne : (highs.take (k + 1)).reverse ++ lows ≠ [] := by
      have hpos : highs ≠ [] := List.ne_nil_of_length_pos (by omega)
      simp [hpos]
    rw [ha, sendLoop_raw false hc hsome, htake, emit]
    simp only [Bool.false_eq_true, ↓reduceIte, hbefore, hafter, he, hne, Option.isSome_some,
      Bool.true_or, Option.isNone_some, Bool.false_and, Option.map_some]

/-- The bytes `raws_size` counts for some raws: each with its comma or bracket. -/
def cost (raws : List Raw) : ℕ := (raws.map fun r => r.data.length + 1).sum

theorem rawsSizeLoop_forward (size : ℕ) {s : Pools} (h : Holds s.mem chain (fill raws))
    (hroom : raws.length < chain.length) {fuel : ℕ} (hs : size < 2 ^ 32) (hi : i ≤ raws.length)
    (hf : raws.length - i < fuel) :
    rawsSizeLoop s fuel chain[i]? true size = some ((size + cost (raws.drop i)) % 2 ^ 32) := by
  induction fuel generalizing i size with
  | zero => omega
  | succ fuel ih =>
    obtain ⟨a, ha⟩ : ∃ a, chain[i]? = some a := ⟨_, List.getElem?_eq_getElem (by omega)⟩
    obtain ⟨cell, hc, hr, hnext, -⟩ := h.get ha
    by_cases hlt : i < raws.length
    · have hsome : cell.raw = some raws[i] := by simp [hr, fill, hlt]
      have hdrop : raws.drop i = raws[i] :: raws.drop (i + 1) := List.drop_eq_getElem_cons hlt
      have := ih ((size + raws[i].data.length + 1) % 2 ^ 32) (i := i + 1)
        (Nat.mod_lt _ (by decide)) (by omega) (by omega)
      simp only [rawsSizeLoop, ha, Option.bind_eq_bind, Option.bind_some, hc, hsome, ↓reduceIte,
        Bool.not_true, Bool.and_false, Bool.false_eq_true, hnext, this, hdrop, cost, List.map_cons,
        List.sum_cons]
      congr 1
      omega
    · have hnone : cell.raw = none := by rw [hr]; exact fill_free i (by omega)
      simp [rawsSizeLoop, ha, hc, hnone, cost,
        List.drop_eq_nil_of_le (show raws.length ≤ i by omega)]
      omega

theorem rawsSizeLoop_backward (size : ℕ) {s : Pools} {cl : List ℕ} (h : Holds s.mem chain (fill highs))
    (hk : k < highs.length) (hroom : highs.length < chain.length)
    (hl : Stores s.mem s.low cl lows) {fuel : ℕ} (hf : k + 1 + lows.length < fuel) :
    rawsSizeLoop s fuel chain[k]? false size =
      some ((size + cost (highs.take (k + 1)) + cost lows) % 2 ^ 32) := by
  have hlow : lows.length < cl.length := by rw [← hl.nraw, ← hl.size]; exact hl.room
  induction k generalizing fuel size with
  | zero =>
    obtain ⟨a, ha⟩ : ∃ a, chain[0]? = some a := ⟨_, List.getElem?_eq_getElem (by omega)⟩
    obtain ⟨cell, hc, hr, -, hprev⟩ := h.get ha
    obtain ⟨fuel, rfl⟩ : ∃ f, fuel = f + 1 := ⟨fuel - 1, by omega⟩
    have hsome : cell.raw = some highs[0] := by simp [hr, fill, hk]
    have hpz : cell.prev = none := by simpa using hprev
    have htake : highs.take 1 = [highs[0]] := by
      rw [List.take_one, List.head?_eq_getElem?, List.getElem?_eq_getElem hk]
      simp
    have := rawsSizeLoop_forward ((size + highs[0].data.length + 1) % 2 ^ 32) (s := s) (i := 0)
      hl.holds hlow
      (Nat.mod_lt _ (by decide)) (Nat.zero_le _) (show lows.length - 0 < fuel by omega)
    simp only [rawsSizeLoop, ha, Option.bind_eq_bind, Option.bind_some, hc, hsome, hpz, rawAt,
      Bool.false_eq_true, ↓reduceIte, Option.bind_none, Option.isNone_none, Bool.not_false,
      Bool.and_self, hl.head, this, List.drop_zero, Nat.zero_add, htake, cost, List.map_cons,
      List.map_nil, List.sum_cons, List.sum_nil]
    congr 1
    omega
  | succ k ih =>
    obtain ⟨a, ha⟩ : ∃ a, chain[k + 1]? = some a := ⟨_, List.getElem?_eq_getElem (by omega)⟩
    obtain ⟨cell, hc, hr, -, hprev⟩ := h.get ha
    obtain ⟨fuel, rfl⟩ : ∃ f, fuel = f + 1 := ⟨fuel - 1, by omega⟩
    have hsome : cell.raw = some highs[k + 1] := by simp [hr, fill, hk]
    have hpk : cell.prev = chain[k]? := by simpa using hprev
    have hbefore : rawAt s.mem chain[k]? = some highs[k] := by
      rw [h.rawAt_get (by omega)]
      simp [fill, show k < highs.length by omega]
    have htake : highs.take (k + 1 + 1) = highs.take (k + 1) ++ [highs[k + 1]] :=
      List.take_succ_eq_append_getElem hk
    have := ih ((size + highs[k + 1].data.length + 1) % 2 ^ 32) (by omega)
      (show k + 1 + lows.length < fuel by omega)
    simp only [rawsSizeLoop, ha, Option.bind_eq_bind, Option.bind_some, hc, hsome, hpk, hbefore,
      Bool.false_eq_true, ↓reduceIte, Option.isNone_some, Bool.false_and, this, htake, cost,
      List.map_append, List.map_cons, List.map_nil, List.sum_append, List.sum_cons, List.sum_nil]
    congr 1
    omega

/-- Two disjoint chains of valid cells fit into the memory together. -/
theorem chains_length {cl ch : List ℕ} (hl : cl.Nodup) (hh : ch.Nodup) (hd : cl.Disjoint ch)
    (hvl : ∀ a ∈ cl, a < mem.length) (hvh : ∀ a ∈ ch, a < mem.length) :
    cl.length + ch.length ≤ mem.length := by
  have hnd : (cl ++ ch).Nodup := List.nodup_append'.mpr ⟨hl, hh, hd⟩
  have hsub : (cl ++ ch).toFinset ⊆ Finset.range mem.length := by
    intro a ha
    rw [List.mem_toFinset, List.mem_append] at ha
    rw [Finset.mem_range]
    exact ha.elim (hvl a) (hvh a)
  have := Finset.card_le_card hsub
  rwa [List.toFinset_card_of_nodup hnd, List.length_append, Finset.card_range] at this

/-- `raws_size` counts the raws of both pools and the opening bracket. -/
theorem rawsSize_eq {s : Pools} (h : Inv s lows highs) (hne : highs.reverse ++ lows ≠ []) :
    rawsSize s = some ((1 + cost (highs.reverse ++ lows)) % 2 ^ 32) := by
  obtain ⟨⟨cl, ch, hl, hh, hd⟩, htot⟩ := h
  have hlow : lows.length < cl.length := by rw [← hl.nraw, ← hl.size]; exact hl.room
  have hhigh : highs.length < ch.length := by rw [← hh.nraw, ← hh.size]; exact hh.room
  have hlen := chains_length hl.holds.linked.nodup hh.holds.linked.nodup hd
    hl.holds.valid hh.holds.valid
  have hnz : s.nraw ≠ 0 := by
    intro hz
    rw [htot, hl.nraw, hh.nraw] at hz
    have h1 : lows = [] := List.length_eq_zero_iff.mp (by omega)
    have h2 : highs = [] := List.length_eq_zero_iff.mp (by omega)
    simp [h1, h2] at hne
  have hcost : cost (highs.reverse ++ lows) = cost highs + cost lows := by
    simp [cost, List.sum_reverse]
  rw [rawsSize, if_neg hnz, hcost, firstPool, hh.nraw]
  by_cases hz : highs = []
  · have := rawsSizeLoop_forward 1 (s := s) (i := 0) hl.holds hlow (by decide)
      (Nat.zero_le _) (show lows.length - 0 < s.mem.length + 1 by omega)
    simp [hz, hl.head, this, cost]
  · have hpos : 0 < highs.length := List.length_pos_iff.mpr hz
    obtain ⟨a, ha⟩ : ∃ a, ch[highs.length]? = some a := ⟨_, List.getElem?_eq_getElem hhigh⟩
    obtain ⟨cell, hc, -, -, hprev⟩ := hh.holds.get ha
    have hfoot : s.high.rawfoot = some a := by rw [hh.foot, hh.nraw, ha]
    have := rawsSizeLoop_backward 1 (s := s) (k := highs.length - 1) hh.holds
      (by omega) hhigh hl (show highs.length - 1 + 1 + lows.length < s.mem.length + 1 by omega)
    rw [if_pos (by omega)]
    simp only [hfoot, Option.bind_some, hc, hprev, if_neg (show highs.length ≠ 0 by omega), this]
    rw [show highs.length - 1 + 1 = highs.length by omega, List.take_length, Nat.add_assoc]

end ApeServer.RawPool
