import ApeServer.Raw.Pool
import ApeServer.Lib.Chain

/-! The representation invariant of the raw pools and what one post does to it. -/
namespace ApeServer.RawPool

open Sock (Bytes)
open Chain

variable {mem mem' : List Cell} {chain : List ℕ} {slots : ℕ → Option Raw} {a i n : ℕ}

def nextAt (mem : List Cell) (a : ℕ) : Option ℕ := mem[a]?.bind Cell.next
def prevAt (mem : List Cell) (a : ℕ) : Option ℕ := mem[a]?.bind Cell.prev

/-- The cells of `chain` are linked in that order, and cell `i` holds `slots i`. -/
structure Holds (mem : List Cell) (chain : List ℕ) (slots : ℕ → Option Raw) : Prop where
  linked : Linked (nextAt mem) (prevAt mem) chain
  valid : ∀ a ∈ chain, a < mem.length
  raw : ∀ {i a}, chain[i]? = some a → rawAt mem (some a) = slots i

/-- The slots of a pool that holds `raws` from its first cell on. -/
def fill (raws : List Raw) : ℕ → Option Raw := fun i => raws[i]?

/-- A pool whose chain of `size` cells holds `raws`, with the foot on the first free cell. -/
structure Stores (mem : List Cell) (p : Pool) (chain : List ℕ) (raws : List Raw) : Prop where
  holds : Holds mem chain (fill raws)
  size : p.size = chain.length
  nraw : p.nraw = raws.length
  room : p.nraw < p.size
  head : p.rawhead = chain[0]?
  foot : p.rawfoot = chain[p.nraw]?

/-- The invariant of `raw_pools`: two disjoint chains and the total of their raws. -/
structure Inv (s : Pools) (lows highs : List Raw) : Prop where
  pools : ∃ cl ch, Stores s.mem s.low cl lows ∧ Stores s.mem s.high ch highs ∧ cl.Disjoint ch
  total : s.nraw = s.low.nraw + s.high.nraw

theorem Holds.get (h : Holds mem chain slots) (hi : chain[i]? = some a) :
    ∃ cell, mem[a]? = some cell ∧ cell.raw = slots i ∧ cell.next = chain[i + 1]? ∧
      cell.prev = if i = 0 then none else chain[i - 1]? := by
  have hlt := h.valid a (List.mem_of_getElem? hi)
  have hn := h.linked.next_eq hi
  have hp := h.linked.prev_eq hi
  have hr := h.raw hi
  simp only [nextAt, prevAt, rawAt, List.getElem?_eq_getElem hlt, Option.bind_some] at hn hp hr
  exact ⟨mem[a], List.getElem?_eq_getElem hlt, hr, hn, hp⟩

/-- Cells off the chain may change freely. -/
theorem Holds.frame (h : Holds mem chain slots) (hlen : mem.length ≤ mem'.length)
    (heq : ∀ a ∈ chain, mem'[a]? = mem[a]?) : Holds mem' chain slots where
  linked := h.linked.congr (fun a ha => by rw [nextAt, nextAt, heq a ha])
    (fun a ha => by rw [prevAt, prevAt, heq a ha])
  valid a ha := lt_of_lt_of_le (h.valid a ha) hlen
  raw hi := by
    rw [← h.raw hi]
    simp [rawAt, heq _ (List.mem_of_getElem? hi)]

/-- Writing the `raw` field of a chain cell changes its slot and nothing else. -/
theorem Holds.set_raw (h : Holds mem chain slots) (hi : chain[i]? = some a) {cell : Cell}
    (hc : mem[a]? = some cell) (r : Option Raw) :
    Holds (mem.set a { cell with raw := r }) chain (Function.update slots i r) := by
  have ha : a < mem.length := (List.getElem?_eq_some_iff.mp hc).1
  have hne : ∀ b, b ≠ a → (mem.set a { cell with raw := r })[b]? = mem[b]? :=
    fun b hb => List.getElem?_set_ne (Ne.symm hb)
  have hself : (mem.set a { cell with raw := r })[a]? = some { cell with raw := r } :=
    List.getElem?_set_self ha
  refine ⟨h.linked.congr ?_ ?_, ?_, ?_⟩
  · intro b _
    by_cases hb : b = a
    · subst hb
      simp [nextAt, hself, hc]
    · rw [nextAt, nextAt, hne b hb]
  · intro b _
    by_cases hb : b = a
    · subst hb
      simp [prevAt, hself, hc]
    · rw [prevAt, prevAt, hne b hb]
  · intro b hb
    simpa using h.valid b hb
  · intro j b hj
    by_cases hb : b = a
    · subst hb
      rw [getElem?_inj h.linked.nodup hj hi]
      simp [rawAt, hself]
    · have hji : j ≠ i := by
        rintro rfl
        rw [hi] at hj
        exact hb (Option.some.inj hj).symm
      rw [Function.update_of_ne hji, ← h.raw hj]
      simp [rawAt, hne b hb]

theorem Holds.set_off (h : Holds mem chain slots) (ha : a ∉ chain) (cell : Cell) :
    Holds (mem.set a cell) chain slots :=
  h.frame (by simp) fun b hb => List.getElem?_set_ne (by rintro rfl; exact ha hb)

theorem initRawPool_getElem? (mem : List Cell) (hi : i < n) :
    (initRawPool mem n).1[mem.length + i]? = some (initCell mem.length n i) := by
  simp [initRawPool, hi]

theorem initRawPool_old (ha : a < mem.length) : (initRawPool mem n).1[a]? = mem[a]? := by
  simp [initRawPool, List.getElem?_append_left ha]

/-- A fresh block is a chain of its own, without raws. -/
theorem initRawPool_holds (mem : List Cell) (n : ℕ) :
    Holds (initRawPool mem n).1 (List.range' mem.length n) fun _ => none := by
  have hget : ∀ {i a : ℕ}, (List.range' mem.length n)[i]? = some a → i < n ∧ a = mem.length + i := by
    intro i a hi
    obtain ⟨hlt, he⟩ := List.getElem?_eq_some_iff.mp hi
    simp only [List.length_range', List.getElem_range', one_mul] at hlt he
    exact ⟨hlt, he.symm⟩
  refine ⟨⟨List.nodup_range', ?_, ?_⟩, ?_, ?_⟩
  · intro i a hi
    obtain ⟨hlt, rfl⟩ := hget hi
    simp only [nextAt, initRawPool_getElem? _ hlt, Option.bind_some, initCell]
    by_cases hl : i = n - 1
    · rw [if_pos hl, List.getElem?_eq_none (by simp; omega)]
    · rw [if_neg hl, List.getElem?_range' (by omega)]
      simp [Nat.add_assoc]
  · intro i a hi
    obtain ⟨hlt, rfl⟩ := hget hi
    simp only [prevAt, initRawPool_getElem? _ hlt, Option.bind_some, initCell]
    by_cases hz : i = 0
    · simp [hz]
    · rw [if_neg hz, if_neg hz, List.getElem?_range' (by omega)]
      congr 1
      omega
  · intro a ha
    rw [List.mem_range'_1] at ha
    simp only [initRawPool, List.length_append, List.length_map, List.length_range]
    omega
  · intro i a hi
    obtain ⟨hlt, rfl⟩ := hget hi
    simp [rawAt, initRawPool_getElem? _ hlt, initCell]

/-- The memory after `expend_raw_pool`, cell by cell. -/
theorem expendRawPool_get {last : Cell} (hla : mem[a]? = some last) (hn : 0 < n) :
    ∃ mem', expendRawPool mem (some a) n = some mem' ∧ mem'.length = mem.length + n ∧
      mem'[a]? = some { last with next := some mem.length } ∧
      mem'[mem.length]? = some { initCell mem.length n 0 with prev := some a } ∧
      ∀ b, b ≠ a → b ≠ mem.length → mem'[b]? = (initRawPool mem n).1[b]? := by
  have ha : a < mem.length := (List.getElem?_eq_some_iff.mp hla).1
  have hlen : (initRawPool mem n).1.length = mem.length + n := by simp [initRawPool]
  have hold : (initRawPool mem n).1[a]? = some last := (initRawPool_old ha).trans hla
  have hfirst : ((initRawPool mem n).1.set a { last with next := some mem.length })[mem.length]? =
      some (initCell mem.length n 0) := by
    rw [List.getElem?_set_ne (by omega)]
    simpa using initRawPool_getElem? mem hn
  refine ⟨((initRawPool mem n).1.set a { last with next := some mem.length }).set mem.length
    { initCell mem.length n 0 with prev := some a }, ?_, by simp [hlen], ?_, ?_, ?_⟩
  · simp only [expendRawPool, Option.bind_eq_bind, Option.bind_some, Option.pure_def, hold,
      show (initRawPool mem n).2 = mem.length from rfl, hfirst]
  · rw [List.getElem?_set_ne (by omega), List.getElem?_set_self (by omega)]
  · rw [List.getElem?_set_self (by simp; omega)]
  · intro b hb hb'
    rw [List.getElem?_set_ne (Ne.symm hb'), List.getElem?_set_ne (Ne.symm hb)]

/-- `expend_raw_pool` on the last cell of a chain makes the chain `n` cells longer. -/
theorem expendRawPool_holds (h : Holds mem chain slots) (hlast : chain.getLast? = some a)
    (hn : 0 < n) (hfree : ∀ j, chain.length ≤ j → slots j = none) :
    ∃ mem', expendRawPool mem (some a) n = some mem' ∧
      Holds mem' (chain ++ List.range' mem.length n) slots ∧ mem.length ≤ mem'.length ∧
      ∀ b < mem.length, b ≠ a → mem'[b]? = mem[b]? := by
  have ha : a < mem.length := h.valid a (List.mem_of_getLast? hlast)
  obtain ⟨mem', he, hlen, hga, hgf, hget⟩ :=
    expendRawPool_get (List.getElem?_eq_getElem ha) hn
  have hla := List.getElem?_eq_getElem ha
  have hfirst : (initRawPool mem n).1[mem.length]? = some (initCell mem.length n 0) := by
    simpa using initRawPool_getElem? mem hn
  have hkeep : ∀ b ∈ chain, b ≠ a → mem'[b]? = mem[b]? := by
    intro b hb hba
    have hlt := h.valid b hb
    rw [hget b hba (by omega), initRawPool_old hlt]
  have hnew := initRawPool_holds mem n
  have hdisj : chain.Disjoint (List.range' mem.length n) := by
    intro b hb hb'
    have := h.valid b hb
    rw [List.mem_range'_1] at hb'
    omega
  have hne : ∀ b ∈ List.range' mem.length n, b ≠ a := by
    rintro b hb rfl
    exact hdisj (List.mem_of_getLast? hlast) hb
  have hhead : (List.range' mem.length n).head? = some mem.length := by
    rw [List.head?_eq_getElem?, List.getElem?_range' hn]
    simp
  refine ⟨mem', he, ⟨h.linked.append hnew.linked hdisj ?_ ?_ ?_ ?_, ?_, ?_⟩, by omega, ?_⟩
  · intro b hb
    by_cases hba : b = a
    · subst hba
      simp [nextAt, hga, hlast, hhead]
    · rw [if_neg (by rw [hlast]; simpa using Ne.symm hba), nextAt, nextAt, hkeep b hb hba]
  · intro b hb
    by_cases hba : b = a
    · subst hba
      simp [prevAt, hga, hla]
    · rw [prevAt, prevAt, hkeep b hb hba]
  · intro b hb
    by_cases hbm : b = mem.length
    · simp [nextAt, hbm, hgf, hfirst]
    · rw [nextAt, nextAt, hget b (hne b hb) hbm]
  · intro b hb
    by_cases hbm : b = mem.length
    · simp [prevAt, hbm, hgf, hhead, hlast]
    · rw [if_neg (by rw [hhead]; simpa using Ne.symm hbm), prevAt, prevAt,
        hget b (hne b hb) hbm]
  · intro b hb
    rw [List.mem_append, List.mem_range'_1] at hb
    rcases hb with hb | hb
    · have := h.valid b hb
      omega
    · omega
  · intro i b hi
    by_cases hlt : i < chain.length
    · rw [List.getElem?_append_left hlt] at hi
      rw [← h.raw hi]
      by_cases hba : b = a
      · subst hba
        simp [rawAt, hga, hla]
      · rw [rawAt, rawAt, Option.bind_some, Option.bind_some,
          hkeep b (List.mem_of_getElem? hi) hba]
    · rw [List.getElem?_append_right (by omega)] at hi
      rw [hfree i (by omega)]
      by_cases hbm : b = mem.length
      · simp [rawAt, hbm, hgf, initCell]
      · rw [rawAt, Option.bind_some, hget b (hne b (List.mem_of_getElem? hi)) hbm]
        exact hnew.raw hi
  · intro b hb hba
    rw [hget b hba (by omega), initRawPool_old hb]

variable {p : Pool} {raws : List Raw} {raw : Raw}

theorem fill_free (j : ℕ) (h : raws.length ≤ j) : fill raws j = none :=
  List.getElem?_eq_none h

theorem fill_append : Function.update (fill raws) raws.length (some raw) = fill (raws ++ [raw]) := by
  funext j
  by_cases hj : j = raws.length
  · simp [hj, fill]
  · rw [Function.update_of_ne hj]
    by_cases hlt : j < raws.length
    · simp [fill, List.getElem?_append_left hlt]
    · simp [fill, List.getElem?_eq_none (show raws.length ≤ j by omega),
        List.getElem?_eq_none (show (raws ++ [raw]).length ≤ j by simp; omega)]

/-- Storing at the foot of a pool that keeps a free cell behind it. -/
theorem Stores.put (raw : Raw) (h : Stores mem p chain raws) (hroom : p.nraw + 1 < p.size) :
    ∃ a cell, p.rawfoot = some a ∧ a ∈ chain ∧ mem[a]? = some cell ∧
      Stores (mem.set a { cell with raw := some raw })
        { p with nraw := p.nraw + 1, rawfoot := cell.next } chain (raws ++ [raw]) := by
  have hlt : p.nraw < chain.length := by rw [← h.size]; exact h.room
  obtain ⟨a, ha⟩ : ∃ a, chain[p.nraw]? = some a := ⟨_, List.getElem?_eq_getElem hlt⟩
  obtain ⟨cell, hc, -, hn, -⟩ := h.holds.get ha
  refine ⟨a, cell, h.foot.trans ha, List.mem_of_getElem? ha, hc, ?_, h.size, ?_, hroom, h.head, hn⟩
  · have hs := h.holds.set_raw ha hc (some raw)
    rwa [h.nraw, fill_append] at hs
  · simp [h.nraw]

/-- `post_raw_sub` on one pool appends the raw, whether or not the chain has to grow. -/
theorem postPool_stores (raw : Raw) (h : Stores mem p chain raws) :
    ∃ mem' p' ext, postPool mem p raw = some (mem', p') ∧
      Stores mem' p' (chain ++ ext) (raws ++ [raw]) ∧ (∀ b ∈ ext, mem.length ≤ b) ∧
      mem.length ≤ mem'.length ∧ ∀ b < mem.length, b ∉ chain → mem'[b]? = mem[b]? := by
  have hroom := h.room
  by_cases hfull : p.nraw + 1 = p.size
  · -- the foot is the last cell: sixteen cells are linked behind it first
    have hlt : p.nraw < chain.length := by rw [← h.size]; exact h.room
    obtain ⟨a, ha⟩ : ∃ a, chain[p.nraw]? = some a := ⟨_, List.getElem?_eq_getElem hlt⟩
    have hlast : chain.getLast? = some a :=
      (getLast?_iff h.holds.linked.nodup ha).mpr (by rw [← h.size]; exact hfull)
    obtain ⟨mem₁, he, hholds, hlen, hkeep⟩ := expendRawPool_holds h.holds hlast
      (by omega : 0 < 16) (fun j hj => fill_free j (by rw [← h.nraw]; omega))
    have hfoot : p.rawfoot = some a := h.foot.trans ha
    have hst : Stores mem₁ { p with size := p.size + 16 } (chain ++ List.range' mem.length 16)
        raws := by
      refine ⟨hholds, by simp [h.size], h.nraw, by simp; omega, ?_, ?_⟩
      · rw [List.getElem?_append_left (by omega)]
        exact h.head
      · rw [List.getElem?_append_left hlt]
        exact h.foot
    obtain ⟨b, cell, hb, hbm, hc, hput⟩ := hst.put raw (by simp; omega)
    have hba : b = a := Option.some.inj (hb.symm.trans hfoot)
    refine ⟨_, _, _, ?_, hput, ?_, by simpa using hlen, ?_⟩
    · rw [hba] at hc ⊢
      simp [postPool, hfull, hfoot, he, hc]
    · intro b hb
      exact (List.mem_range'_1.mp hb).1
    · intro b' hb' hnot
      have hne : b' ≠ a := by rintro rfl; exact hnot (List.mem_of_getLast? hlast)
      rw [List.getElem?_set_ne (by rw [hba]; exact Ne.symm hne), hkeep b' hb' hne]
  · obtain ⟨a, cell, ha, ham, hc, hput⟩ := h.put raw (by omega)
    refine ⟨_, _, [], ?_, by simpa using hput, by simp, by simp, ?_⟩
    · simp [postPool, hfull, ha, hc]
    · intro b _ hnot
      exact List.getElem?_set_ne (by rintro rfl; exact hnot ham)

theorem Stores.frame (h : Stores mem p chain raws) (hlen : mem.length ≤ mem'.length)
    (heq : ∀ a ∈ chain, mem'[a]? = mem[a]?) : Stores mem' p chain raws :=
  { h with holds := h.holds.frame hlen heq }

/-- A chain that grows by fresh cells stays apart from every older chain. -/
theorem disjoint_ext {chain' ext : List ℕ} (hv : ∀ a ∈ chain', a < mem.length)
    (hd : chain.Disjoint chain') (he : ∀ b ∈ ext, mem.length ≤ b) :
    (chain ++ ext).Disjoint chain' := by
  intro b hb hb'
  rcases List.mem_append.mp hb with hb | hb
  · exact hd hb hb'
  · have := hv b hb'
    have := he b hb
    omega

theorem postRawSub_inv (raw : Raw) {s : Pools} {lows highs : List Raw} (h : Inv s lows highs) :
    ∃ s', postRawSub raw s = some s' ∧ match raw.priority with
      | .lo => Inv s' (lows ++ [raw]) highs
      | .hi => Inv s' lows (highs ++ [raw]) := by
  obtain ⟨⟨cl, ch, hl, hh, hd⟩, htot⟩ := h
  cases hp : raw.priority with
  | lo =>
    obtain ⟨mem', p', ext, he, hs, hext, hlen, hkeep⟩ := postPool_stores raw hl
    refine ⟨{ s with mem := mem', low := p', nraw := s.nraw + 1 }, ?_, ⟨_, ch, hs, ?_, ?_⟩, ?_⟩
    · simp [postRawSub, hp, he]
    · exact hh.frame hlen fun a ha => hkeep a (hh.holds.valid a ha) fun hc => hd hc ha
    · exact disjoint_ext hh.holds.valid hd hext
    · simp only [htot, hs.nraw, hl.nraw, List.length_append, List.length_singleton]
      omega
  | hi =>
    obtain ⟨mem', p', ext, he, hs, hext, hlen, hkeep⟩ := postPool_stores raw hh
    refine ⟨{ s with mem := mem', high := p', nraw := s.nraw + 1 }, ?_, ⟨cl, _, ?_, hs, ?_⟩, ?_⟩
    · simp [postRawSub, hp, he]
    · exact hl.frame hlen fun a ha => hkeep a (hl.holds.valid a ha) fun hc => hd ha hc
    · exact (disjoint_ext hl.holds.valid hd.symm hext).symm
    · simp only [htot, hs.nraw, hh.nraw, List.length_append, List.length_singleton]
      omega

theorem newPools_inv : Inv newPools [] [] := by
  have hl : Holds (initRawPool [] 32).1 (List.range' 0 32) (fun _ => none) :=
    initRawPool_holds [] 32
  have hh : Holds (initRawPool (initRawPool [] 32).1 8).1 (List.range' 32 8) (fun _ => none) :=
    initRawPool_holds (initRawPool [] 32).1 8
  have hempty : fill [] = fun _ => none := by funext j; simp [fill]
  have hl' : Holds newPools.mem (List.range' 0 32) (fill []) := by
    rw [hempty]
    exact hl.frame (by decide) fun a ha => initRawPool_old (hl.valid a ha)
  refine ⟨⟨List.range' 0 32, List.range' 32 8, ⟨hl', ?_, ?_, ?_, ?_, ?_⟩,
    ⟨hempty ▸ hh, ?_, ?_, ?_, ?_, ?_⟩, ?_⟩, rfl⟩
  all_goals try decide
  intro a ha hb
  rw [List.mem_range'_1] at ha hb
  omega

end ApeServer.RawPool
