import ApeServer.Hash.Table
import ApeServer.Server.Roster
import ApeServer.Lib.Chain

/-!
# A hash table is a map

In every table that appends and erases build, the chains of the buckets and the list of the
items hold the same items, and looking a key up gives what a map from keys would give.
-/
namespace ApeServer.Hash

open Sock (Bytes)
open Chain (Linked Threaded)
open Htbl (strcaseeq_refl strcaseeq_symm strcaseeq_trans)

/-- The hash does not see the case of a key. -/
theorem hachString_eq {k n : Bytes} (h : strcaseeq k n = true) : hachString k = hachString n := by
  have hfold : ∀ (key : Bytes) (h₀ : BitVec 32),
      key.foldl (fun (hash : BitVec 32) c => ((hash <<< 5) + hash) + char (Http.tolower c)) h₀ =
        (key.map Http.tolower).foldl (fun (hash : BitVec 32) c => ((hash <<< 5) + hash) + char c)
          h₀ := by
    intro key h₀
    rw [List.foldl_map]
  simp only [strcaseeq, decide_eq_true_eq] at h
  simp only [hachString, hfold, h]

namespace Table

variable {α : Type} {t t' : Table α} {key k : Bytes} {p q : ℕ} {item : HtblItem α} {v w : α}

def nextAt (t : Table α) (p : ℕ) : Option ℕ := (t.mem p).bind HtblItem.next
def lnextAt (t : Table α) (p : ℕ) : Option ℕ := (t.mem p).bind HtblItem.lnext
def lprevAt (t : Table α) (p : ℕ) : Option ℕ := (t.mem p).bind HtblItem.lprev

/-- The items are in the list `l` and in the chains `b` of the buckets of their keys. -/
structure Wf (t : Table α) (l : List ℕ) (b : ℕ → List ℕ) : Prop where
  first : t.first = l.head?
  linked : Linked t.lnextAt t.lprevAt l
  items : ∀ p, p ∈ l ↔ t.mem p ≠ none
  chain : ∀ h, Threaded t.nextAt (t.table h) (b h)
  nodup : ∀ h, (b h).Nodup
  bucket : ∀ h p, p ∈ b h ↔ ∃ item, t.mem p = some item ∧ hachString item.key = h
  keys : ∀ p q i j, t.mem p = some i → t.mem q = some j → strcaseeq i.key j.key = true → p = q
  bound : ∀ p, t.mem p ≠ none → p < t.brk

variable {l : List ℕ} {b : ℕ → List ℕ}

theorem init_wf : (hashtblInit : Table α).Wf [] fun _ => [] where
  first := rfl
  linked := .nil
  items := by simp [hashtblInit]
  chain _ := rfl
  nodup _ := .nil
  bucket := by simp [hashtblInit]
  keys := by simp [hashtblInit]
  bound := by simp [hashtblInit]

/-- A chain is not longer than the addresses in use. -/
theorem Wf.length_lt (h : t.Wf l b) (n : ℕ) : (b n).length < t.brk + 1 := by
  have hsub : b n ⊆ List.range t.brk := by
    intro p hp
    obtain ⟨item, hi, -⟩ := (h.bucket n p).mp hp
    exact List.mem_range.mpr (h.bound p (by simp [hi]))
  have := ((h.nodup n).subperm hsub).length_le
  rw [List.length_range] at this
  omega

/-- The item behind an address has the key. -/
def fits (t : Table α) (key : Bytes) (p : ℕ) : Bool :=
  match t.mem p with
  | some item => strcaseeq item.key key
  | none => false

theorem chase_eq {c : List ℕ} {q : Option ℕ} {fuel : ℕ} (hc : Threaded t.nextAt q c)
    (hlive : ∀ p ∈ c, t.mem p ≠ none) (hf : c.length < fuel) :
    t.chase key fuel q = some (c.find? (t.fits key)) := by
  induction c generalizing q fuel with
  | nil =>
    obtain ⟨fuel, rfl⟩ : ∃ n, fuel = n + 1 := ⟨fuel - 1, by omega⟩
    rw [show q = none from hc]
    rfl
  | cons p c ih =>
    obtain ⟨fuel, rfl⟩ : ∃ n, fuel = n + 1 := ⟨fuel - 1, by omega⟩
    obtain ⟨rfl, hc⟩ := hc
    obtain ⟨item, hi⟩ := Option.ne_none_iff_exists'.mp (hlive p List.mem_cons_self)
    simp only [List.length_cons] at hf
    rw [nextAt, hi, Option.bind_some] at hc
    have hrest : t.chase key fuel item.next = some (c.find? (t.fits key)) :=
      ih hc (fun q hq => hlive q (List.mem_cons_of_mem p hq)) (by omega)
    by_cases hk : strcaseeq item.key key = true
    · simp [chase, hi, hk, fits]
    · simp [chase, hi, hk, fits, hrest]

/-- The item with the key, if there is one, is in the bucket of the key. -/
theorem Wf.mem_bucket (h : t.Wf l b) (hi : t.mem p = some item)
    (hk : strcaseeq item.key key = true) : p ∈ b (hachString key) :=
  (h.bucket _ p).mpr ⟨item, hi, hachString_eq hk⟩

theorem Wf.find (h : t.Wf l b) (hi : t.mem p = some item) (hk : strcaseeq item.key key = true) :
    (b (hachString key)).find? (t.fits key) = some p := by
  cases hf : (b (hachString key)).find? (t.fits key) with
  | none =>
    have := List.find?_eq_none.mp hf p (h.mem_bucket hi hk)
    simp [fits, hi, hk] at this
  | some q =>
    have hq := List.find?_some hf
    unfold fits at hq
    split at hq
    · next j hj =>
      rw [h.keys p q item j hi hj (strcaseeq_trans hk (strcaseeq_symm hq))]
    · cases hq

theorem Wf.live (h : t.Wf l b) (n : ℕ) : ∀ p ∈ b n, t.mem p ≠ none := by
  intro p hp
  obtain ⟨item, hi, -⟩ := (h.bucket n p).mp hp
  simp [hi]

/-- The table has an item with the key and the value. -/
def Maps (t : Table α) (k : Bytes) (v : α) : Prop :=
  ∃ p item, t.mem p = some item ∧ strcaseeq item.key k = true ∧ item.addrs = v

theorem Wf.seek_some (h : t.Wf l b) (hm : t.Maps k v) : t.hashtblSeek k = some (some v) := by
  obtain ⟨p, item, hi, hk, rfl⟩ := hm
  simp [hashtblSeek, chase_eq (h.chain _) (h.live _) (h.length_lt _), h.find hi hk, hi]

theorem Wf.seek_none (h : t.Wf l b) (hm : ∀ v, ¬t.Maps k v) : t.hashtblSeek k = some none := by
  have hf : (b (hachString k)).find? (t.fits k) = none := by
    rw [List.find?_eq_none]
    intro p hp hfit
    unfold fits at hfit
    split at hfit
    · next item hi => exact hm _ ⟨p, item, hi, hfit, rfl⟩
    · cases hfit
  simp [hashtblSeek, chase_eq (h.chain _) (h.live _) (h.length_lt _), hf]

/-! ### Appending -/

theorem Wf.free (h : t.Wf l b) (hp : t.mem p = none) (n : ℕ) : p ∉ b n :=
  fun hm => h.live n p hm hp

theorem Wf.chase_store (h : t.Wf l b) (hp : t.mem p = none) (x : Option (HtblItem α)) (n : ℕ) :
    (t.store p x).chase key (t.brk + 1) (t.table n) = some ((b n).find? (t.fits key)) := by
  have hmem : ∀ q ∈ b n, (t.store p x).mem q = t.mem q := by
    intro q hq
    exact Function.update_of_ne (by rintro rfl; exact h.free hp n hq) _ _
  rw [chase_eq (c := b n) ((h.chain n).congr fun q hq => by simp only [nextAt, hmem q hq])
    (fun q hq => by rw [hmem q hq]; exact h.live n q hq) (h.length_lt n)]
  congr 1
  exact List.find?_congr fun q hq => by simp only [fits, hmem q hq]

/-- A new value for an item that is there. -/
theorem Wf.setAddrs (h : t.Wf l b) (hi : t.mem p = some item) (v : α) :
    (t.store p (some { item with addrs := v })).Wf l b := by
  have hmem : ∀ q, (t.store p (some { item with addrs := v })).mem q =
      (t.mem q).map fun i => if q = p then { i with addrs := v } else i := by
    intro q
    by_cases hq : q = p
    · subst hq
      simp [store, hi]
    · simp [store, hq]
  have hkey : ∀ q j, (t.store p (some { item with addrs := v })).mem q = some j →
      ∃ i, t.mem q = some i ∧ i.key = j.key := by
    intro q j hj
    rw [hmem] at hj
    obtain ⟨i, hi, rfl⟩ := Option.map_eq_some_iff.mp hj
    refine ⟨i, hi, ?_⟩
    split <;> rfl
  refine ⟨h.first, h.linked.congr ?_ ?_, fun q => ?_, fun n => (h.chain n).congr ?_, h.nodup,
    fun n q => ?_, fun q r i j hq hr hk => ?_, fun q hq => h.bound q ?_⟩
  · intro q _
    rw [lnextAt, lnextAt, hmem]
    cases t.mem q <;> simp
    split <;> rfl
  · intro q _
    rw [lprevAt, lprevAt, hmem]
    cases t.mem q <;> simp
    split <;> rfl
  · rw [h.items, hmem]
    simp
  · intro q _
    rw [nextAt, nextAt, hmem]
    cases t.mem q <;> simp
    split <;> rfl
  · rw [h.bucket]
    constructor
    · rintro ⟨i, hi, hk⟩
      refine ⟨if q = p then { i with addrs := v } else i, by rw [hmem, hi]; rfl, ?_⟩
      split <;> exact hk
    · rintro ⟨j, hj, hk⟩
      obtain ⟨i, hi, he⟩ := hkey q j hj
      exact ⟨i, hi, by rw [he, hk]⟩
  · obtain ⟨i', hi', he⟩ := hkey q i hq
    obtain ⟨j', hj', he'⟩ := hkey r j hr
    exact h.keys q r i' j' hi' hj' (by rw [he, he']; exact hk)
  · rw [hmem] at hq
    simpa using hq

/-- The memory after a new item was put in front. -/
def linkedMem (t : Table α) (key : Bytes) (v : α) (p q : ℕ) : Option (HtblItem α) :=
  if q = p then
    some { key, addrs := v, next := t.table (hachString key), lnext := t.first, lprev := none }
  else (t.mem q).map fun i => if t.first = some q then { i with lprev := some p } else i

/-- The table after a new item was put in front. -/
def linkedTable (t : Table α) (key : Bytes) (v : α) (p : ℕ) : Table α :=
  { first := some p
    table := Function.update t.table (hachString key) (some p)
    mem := t.linkedMem key v p
    brk := max t.brk (p + 1) }

theorem Wf.append_new (h : t.Wf l b) (hp : t.mem p = none)
    (hf : (b (hachString key)).find? (t.fits key) = none) :
    t.hashtblAppend key v p = some (t.linkedTable key v p) := by
  unfold hashtblAppend
  simp only [h.chase_store hp, hf, link, Option.bind_eq_bind, Option.bind_some]
  cases hfirst : t.first with
  | none =>
    simp only [store, hfirst, Option.pure_def, linkedTable, Option.some.injEq,
      mk.injEq, true_and]
    refine ⟨funext fun q => ?_, trivial⟩
    by_cases hq : q = p
    · simp [hq, linkedMem, hfirst]
    · simp [hq, linkedMem, hfirst]
  | some q =>
    have hq : q ∈ l := by
      rw [h.first] at hfirst
      exact List.mem_of_mem_head? hfirst
    obtain ⟨i, hi⟩ := Option.ne_none_iff_exists'.mp ((h.items q).mp hq)
    have hqp : q ≠ p := by
      rintro rfl
      rw [hp] at hi
      cases hi
    simp only [store, hfirst, write, Function.update_of_ne hqp, hi, Option.bind_eq_bind,
      Option.bind_some, Option.pure_def, linkedTable, Option.some.injEq, mk.injEq, true_and]
    refine ⟨funext fun r => ?_, trivial⟩
    by_cases hr : r = q
    · subst hr
      simp [linkedMem, hqp, hi, hfirst]
    · rw [Function.update_of_ne hr]
      by_cases hrp : r = p
      · simp [linkedMem, hrp, hfirst]
      · have hne : q ≠ r := fun he => hr he.symm
        simp [linkedMem, hrp, hfirst, hne]

theorem Wf.linked_wf (h : t.Wf l b) (hp : t.mem p = none)
    (hf : (b (hachString key)).find? (t.fits key) = none) :
    (t.linkedTable key v p).Wf (p :: l)
      (Function.update b (hachString key) (p :: b (hachString key))) := by
  have hpl : p ∉ l := fun hm => (h.items p).mp hm hp
  have hself : (t.linkedTable key v p).mem p =
      some ⟨key, v, t.table (hachString key), t.first, none⟩ := if_pos rfl
  have hother : ∀ q, q ≠ p → (t.linkedTable key v p).mem q =
      (t.mem q).map fun i => if t.first = some q then { i with lprev := some p } else i :=
    fun q hq => if_neg hq
  have hne : ∀ n, ∀ q ∈ b n, q ≠ p := fun n q hq he => h.free hp n (he ▸ hq)
  have hold : ∀ q j, q ≠ p → (t.linkedTable key v p).mem q = some j →
      ∃ i, t.mem q = some i ∧ i.key = j.key := by
    intro q j hq hj
    rw [hother q hq] at hj
    obtain ⟨i, hi, rfl⟩ := Option.map_eq_some_iff.mp hj
    refine ⟨i, hi, ?_⟩
    split <;> rfl
  have hnext : ∀ q, q ≠ p → (t.linkedTable key v p).nextAt q = t.nextAt q := by
    intro q hq
    rw [nextAt, nextAt, hother q hq]
    cases t.mem q <;> simp
    split <;> rfl
  -- no other item has the key
  have hfresh : ∀ q i, t.mem q = some i → strcaseeq i.key key = true → False := by
    intro q i hi hk
    rw [h.find hi hk] at hf
    cases hf
  refine ⟨rfl, h.linked.cons hpl ?_ ?_ ?_ ?_, fun q => ?_, fun n => ?_, fun n => ?_, fun n q => ?_,
    fun q r i j hq hr hk => ?_, fun q hq => ?_⟩
  · rw [lnextAt, hself]
    exact h.first
  · rw [lprevAt, hself]
    rfl
  · intro q hq
    rw [lnextAt, lnextAt, hother q (by rintro rfl; exact hpl hq)]
    cases t.mem q <;> simp
    split <;> rfl
  · intro q hq
    obtain ⟨i, hi⟩ := Option.ne_none_iff_exists'.mp ((h.items q).mp hq)
    rw [lprevAt, lprevAt, hother q (by rintro rfl; exact hpl hq), hi, ← h.first]
    simp only [Option.map_some, Option.bind_some]
    split <;> rfl
  · by_cases hq : q = p
    · simp [hq, hself]
    · simp [hq, hother q hq, h.items]
  · by_cases hn : n = hachString key
    · subst hn
      simp only [linkedTable, Function.update_self]
      refine ⟨rfl, ?_⟩
      have : (t.linkedTable key v p).nextAt p = t.table (hachString key) := by rw [nextAt, hself]; rfl
      change Threaded (t.linkedTable key v p).nextAt ((t.linkedTable key v p).nextAt p) _
      rw [this]
      exact (h.chain _).congr fun q hq => hnext q (hne _ q hq)
    · simp only [linkedTable, Function.update_of_ne hn]
      exact (h.chain n).congr fun q hq => hnext q (hne n q hq)
  · by_cases hn : n = hachString key
    · subst hn
      rw [Function.update_self]
      exact List.nodup_cons.mpr ⟨h.free hp _, h.nodup _⟩
    · rw [Function.update_of_ne hn]
      exact h.nodup n
  · by_cases hq : q = p
    · subst hq
      rw [hself]
      by_cases hn : n = hachString key
      · simp [hn]
      · rw [Function.update_of_ne hn]
        simp [h.free hp n, Ne.symm hn]
    · have hmem : q ∈ Function.update b (hachString key) (p :: b (hachString key)) n ↔ q ∈ b n := by
        by_cases hn : n = hachString key
        · simp [hn, hq]
        · rw [Function.update_of_ne hn]
      rw [hmem, h.bucket]
      constructor
      · rintro ⟨i, hi, hk⟩
        refine ⟨_, by rw [hother q hq, hi]; rfl, ?_⟩
        simp only
        split <;> exact hk
      · rintro ⟨j, hj, hk⟩
        obtain ⟨i, hi, he⟩ := hold q j hq hj
        exact ⟨i, hi, by rw [he, hk]⟩
  · by_cases hqp : q = p <;> by_cases hrp : r = p
    · rw [hqp, hrp]
    · subst hqp
      rw [hself] at hq
      cases hq
      obtain ⟨j', hj', he⟩ := hold r j hrp hr
      exact absurd (strcaseeq_symm hk) fun hk => hfresh r j' hj' (by rw [he]; exact hk)
    · subst hrp
      rw [hself] at hr
      cases hr
      obtain ⟨i', hi', he⟩ := hold q i hqp hq
      exact absurd hk fun hk => hfresh q i' hi' (by rw [he]; exact hk)
    · obtain ⟨i', hi', he⟩ := hold q i hqp hq
      obtain ⟨j', hj', he'⟩ := hold r j hrp hr
      exact h.keys q r i' j' hi' hj' (by rw [he, he']; exact hk)
  · by_cases hqp : q = p
    · subst hqp
      exact lt_of_lt_of_le (Nat.lt_succ_self q) (le_max_right _ _)
    · rw [hother q hqp] at hq
      exact lt_of_lt_of_le (h.bound q (by simpa using hq)) (le_max_left _ _)

/-! ### Erasing -/

theorem eraseLoop_none {c : List ℕ} {q : Option ℕ} {fuel : ℕ} (prev : Option ℕ) (n : ℕ)
    (hc : Threaded t.nextAt q c) (hlive : ∀ p ∈ c, t.mem p ≠ none) (hf : c.length < fuel)
    (hfit : ∀ p ∈ c, t.fits key p = false) : t.eraseLoop key n fuel prev q = some t := by
  induction c generalizing q fuel prev with
  | nil =>
    obtain ⟨fuel, rfl⟩ : ∃ m, fuel = m + 1 := ⟨fuel - 1, by omega⟩
    rw [show q = none from hc]
    rfl
  | cons p c ih =>
    obtain ⟨fuel, rfl⟩ : ∃ m, fuel = m + 1 := ⟨fuel - 1, by omega⟩
    obtain ⟨rfl, hc⟩ := hc
    obtain ⟨item, hi⟩ := Option.ne_none_iff_exists'.mp (hlive p List.mem_cons_self)
    have hp := hfit p List.mem_cons_self
    simp only [fits, hi] at hp
    simp only [List.length_cons] at hf
    rw [nextAt, hi, Option.bind_some] at hc
    have hrest : t.eraseLoop key n fuel (some p) item.next = some t :=
      ih (some p) hc (fun q hq => hlive q (List.mem_cons_of_mem p hq)) (by omega)
        fun q hq => hfit q (List.mem_cons_of_mem p hq)
    simp [eraseLoop, hi, hp, hrest]

theorem eraseLoop_some {c₁ c₂ : List ℕ} {q : Option ℕ} {fuel : ℕ} (prev : Option ℕ) (n : ℕ)
    (hc : Threaded t.nextAt q (c₁ ++ p :: c₂)) (hlive : ∀ p ∈ c₁, t.mem p ≠ none)
    (hf : c₁.length < fuel) (hfit : ∀ p ∈ c₁, t.fits key p = false) (hi : t.mem p = some item)
    (hk : strcaseeq item.key key = true) :
    t.eraseLoop key n fuel prev q = t.unlink n (c₁.getLast?.or prev) p item := by
  induction c₁ generalizing q fuel prev with
  | nil =>
    obtain ⟨fuel, rfl⟩ : ∃ m, fuel = m + 1 := ⟨fuel - 1, by omega⟩
    obtain ⟨rfl, -⟩ := hc
    simp [eraseLoop, hi, hk]
  | cons a c₁ ih =>
    obtain ⟨fuel, rfl⟩ : ∃ m, fuel = m + 1 := ⟨fuel - 1, by omega⟩
    obtain ⟨rfl, hc⟩ := hc
    obtain ⟨j, hj⟩ := Option.ne_none_iff_exists'.mp (hlive a List.mem_cons_self)
    have ha := hfit a List.mem_cons_self
    simp only [fits, hj] at ha
    simp only [List.length_cons] at hf
    rw [nextAt, hj, Option.bind_some] at hc
    have hrest : t.eraseLoop key n fuel (some a) j.next =
        t.unlink n (c₁.getLast?.or (some a)) p item :=
      ih (some a) hc (fun q hq => hlive q (List.mem_cons_of_mem a hq)) (by omega)
        fun q hq => hfit q (List.mem_cons_of_mem a hq)
    have hlast : (a :: c₁).getLast?.or prev = c₁.getLast?.or (some a) := by
      rw [List.getLast?_cons]
      cases c₁.getLast? <;> rfl
    rw [hlast, ← hrest]
    simp [eraseLoop, hj, ha]

/-- A write to the item behind a pointer, if it is not NULL. -/
def adjust (t : Table α) (q : Option ℕ) (f : HtblItem α → HtblItem α) : Table α :=
  { t with mem := fun r => if q = some r then (t.mem r).map f else t.mem r }

theorem write_eq {f : HtblItem α → HtblItem α} (hq : t.mem q ≠ none) :
    t.write q f = some (t.adjust (some q) f) := by
  obtain ⟨i, hi⟩ := Option.ne_none_iff_exists'.mp hq
  simp only [write, hi, Option.bind_eq_bind, Option.bind_some, Option.pure_def, store, adjust]
  congr 2
  funext r
  by_cases hr : q = r
  · subst hr
    simp [hi]
  · rw [Function.update_of_ne (Ne.symm hr), if_neg (by simpa using hr)]

theorem adjust_live {f : HtblItem α → HtblItem α} {c : Option ℕ} (hq : t.mem q ≠ none) :
    (t.adjust c f).mem q ≠ none := by
  simp only [adjust]
  split
  · simpa using hq
  · exact hq

/-- The table after `item`, at `p`, was unlinked from the chain behind `hPrev`. -/
def unlinkedTable (t : Table α) (n : ℕ) (hPrev : Option ℕ) (p : ℕ) (item : HtblItem α) :
    Table α :=
  { first := if item.lprev = none then item.lnext else t.first
    table := if hPrev = none then Function.update t.table n item.next else t.table
    mem := fun q => if q = p then none else (t.mem q).map fun i =>
      { i with
        next := if hPrev = some q then item.next else i.next
        lnext := if item.lprev = some q then item.lnext else i.lnext
        lprev := if item.lnext = some q then item.lprev else i.lprev }
    brk := t.brk }

section UnlinkedTable

variable {n : ℕ} {hPrev : Option ℕ}

theorem unlinkedTable_self : (t.unlinkedTable n hPrev p item).mem p = none := if_pos rfl

theorem unlinkedTable_of_ne (hq : q ≠ p) : (t.unlinkedTable n hPrev p item).mem q =
    (t.mem q).map fun i => { i with
      next := if hPrev = some q then item.next else i.next
      lnext := if item.lprev = some q then item.lnext else i.lnext
      lprev := if item.lnext = some q then item.lprev else i.lprev } := if_neg hq

theorem unlinkedTable_lnextAt (hq : q ≠ p) (hlive : t.mem q ≠ none) :
    (t.unlinkedTable n hPrev p item).lnextAt q =
      if item.lprev = some q then item.lnext else t.lnextAt q := by
  obtain ⟨i, hi⟩ := Option.ne_none_iff_exists'.mp hlive
  rw [lnextAt, lnextAt, unlinkedTable_of_ne hq, hi]
  rfl

theorem unlinkedTable_lprevAt (hq : q ≠ p) (hlive : t.mem q ≠ none) :
    (t.unlinkedTable n hPrev p item).lprevAt q =
      if item.lnext = some q then item.lprev else t.lprevAt q := by
  obtain ⟨i, hi⟩ := Option.ne_none_iff_exists'.mp hlive
  rw [lprevAt, lprevAt, unlinkedTable_of_ne hq, hi]
  rfl

theorem unlinkedTable_nextAt (hq : q ≠ p) (hlive : t.mem q ≠ none) :
    (t.unlinkedTable n hPrev p item).nextAt q =
      if hPrev = some q then item.next else t.nextAt q := by
  obtain ⟨i, hi⟩ := Option.ne_none_iff_exists'.mp hlive
  rw [nextAt, nextAt, unlinkedTable_of_ne hq, hi]
  rfl

/-- What is left was there before, under its key. -/
theorem unlinkedTable_back {j : HtblItem α}
    (hj : (t.unlinkedTable n hPrev p item).mem q = some j) :
    q ≠ p ∧ ∃ i, t.mem q = some i ∧ i.key = j.key := by
  have hqp : q ≠ p := by
    rintro rfl
    rw [unlinkedTable_self] at hj
    cases hj
  rw [unlinkedTable_of_ne hqp] at hj
  obtain ⟨i, hi, rfl⟩ := Option.map_eq_some_iff.mp hj
  exact ⟨hqp, i, hi, rfl⟩

theorem unlinkedTable_table_of_ne {m : ℕ} (hm : m ≠ n) :
    (t.unlinkedTable n hPrev p item).table m = t.table m := by
  simp only [unlinkedTable]
  split
  · exact Function.update_of_ne hm _ _
  · rfl

end UnlinkedTable

/-- An item is in one bucket only. -/
theorem Wf.bucket_unique (h : t.Wf l b) {m n : ℕ} (hm : q ∈ b m) (hn : q ∈ b n) : m = n := by
  obtain ⟨i, hi, rfl⟩ := (h.bucket m q).mp hm
  obtain ⟨j, hj, rfl⟩ := (h.bucket n q).mp hn
  rw [hi] at hj
  cases hj
  rfl

theorem unlink_eq {n : ℕ} {hPrev : Option ℕ} (h₁ : ∀ q, hPrev = some q → t.mem q ≠ none)
    (h₂ : ∀ q, item.lprev = some q → t.mem q ≠ none)
    (h₃ : ∀ q, item.lnext = some q → t.mem q ≠ none) :
    t.unlink n hPrev p item = some (t.unlinkedTable n hPrev p item) := by
  have step₁ : t.unlinkChain n hPrev item =
      some { t.adjust hPrev fun i => { i with next := item.next } with
        table := if hPrev = none then Function.update t.table n item.next else t.table } := by
    cases hPrev with
    | none => simp [unlinkChain, adjust]
    | some q => simp [unlinkChain, write_eq (h₁ q rfl), adjust]
  have step₂ : ∀ s : Table α, (∀ q, t.mem q ≠ none → s.mem q ≠ none) → s.unlinkPrev item =
      some { s.adjust item.lprev fun i => { i with lnext := item.lnext } with
        first := if item.lprev = none then item.lnext else s.first } := by
    intro s hs
    cases hq : item.lprev with
    | none => simp [unlinkPrev, hq, adjust]
    | some q => simp [unlinkPrev, hq, write_eq (hs q (h₂ q hq)), adjust]
  have step₃ : ∀ s : Table α, (∀ q, t.mem q ≠ none → s.mem q ≠ none) → s.unlinkNext item =
      some (s.adjust item.lnext fun i => { i with lprev := item.lprev }) := by
    intro s hs
    cases hq : item.lnext with
    | none => simp [unlinkNext, hq, adjust]
    | some q => simp [unlinkNext, hq, write_eq (hs q (h₃ q hq))]
  unfold unlink
  simp only [step₁, Option.bind_eq_bind, Option.bind_some]
  rw [step₂, Option.bind_some, step₃, Option.bind_some]
  · simp only [Option.pure_def, store, adjust, unlinkedTable, Option.some.injEq, mk.injEq, true_and,
      and_true]
    funext q
    by_cases hq : q = p
    · simp [hq]
    · rw [Function.update_of_ne hq, if_neg hq]
      cases t.mem q with
      | none => simp
      | some i => split_ifs <;> simp
  · exact fun q hq => adjust_live (t := { adjust t hPrev _ with table := _ }) (adjust_live hq)
  · exact fun q hq => adjust_live hq

/-- Erasing an item that is in the table. -/
theorem Wf.erase_wf (h : t.Wf l b) (hi : t.mem p = some item) {n : ℕ} {c₁ c₂ : List ℕ}
    (hn : b n = c₁ ++ p :: c₂) : ∃ l', (t.unlinkedTable n c₁.getLast? p item).Wf l'
      (Function.update b n (c₁ ++ c₂)) ∧
      t.unlink n c₁.getLast? p item = some (t.unlinkedTable n c₁.getLast? p item) := by
  have hpl : p ∈ l := (h.items p).mpr (by simp [hi])
  obtain ⟨l₁, l₂, rfl⟩ := List.append_of_mem hpl
  obtain ⟨hnu, hpu⟩ := h.linked.middle
  rw [lnextAt, hi, Option.bind_some] at hnu
  rw [lprevAt, hi, Option.bind_some] at hpu
  have hnext : t.nextAt p = item.next := by rw [nextAt, hi]; rfl
  have hlnext : t.lnextAt p = item.lnext := by rw [lnextAt, hi]; rfl
  have hlprev : t.lprevAt p = item.lprev := by rw [lprevAt, hi]; rfl
  have hnd := h.linked.nodup
  have hbd : (c₁ ++ p :: c₂).Nodup := hn ▸ h.nodup n
  have hp₁ : p ∉ l₁ ∧ p ∉ l₂ := by
    rw [List.nodup_append', List.nodup_cons] at hnd
    exact ⟨fun hm => hnd.2.2 hm List.mem_cons_self, hnd.2.1.1⟩
  have hpc : p ∉ c₁ ∧ p ∉ c₂ := by
    rw [List.nodup_append', List.nodup_cons] at hbd
    exact ⟨fun hm => hbd.2.2 hm List.mem_cons_self, hbd.2.1.1⟩
  have hdis : ∀ q ∈ l₁, q ∉ l₂ := by
    rw [List.nodup_append'] at hnd
    exact fun q hq hq' => hnd.2.2 hq (List.mem_cons_of_mem p hq')
  have hlive : ∀ q ∈ l₁ ++ p :: l₂, t.mem q ≠ none := fun q hq => (h.items q).mp hq
  have hnx : ∀ m, ∀ q ∈ b m, q ≠ p → (t.unlinkedTable n c₁.getLast? p item).nextAt q =
      if c₁.getLast? = some q then t.nextAt p else t.nextAt q := by
    intro m q hq hqp
    rw [hnext, unlinkedTable_nextAt hqp (h.live m q hq)]
  have hmem₁ : ∀ q ∈ l₁, q ∈ l₁ ++ p :: l₂ := fun q hq => List.mem_append_left _ hq
  have hmem₂ : ∀ q ∈ l₂, q ∈ l₁ ++ p :: l₂ := fun q hq =>
    List.mem_append_right _ (List.mem_cons_of_mem p hq)
  have hne₁ : ∀ q ∈ l₁, q ≠ p := fun q hq he => hp₁.1 (he ▸ hq)
  have hne₂ : ∀ q ∈ l₂, q ≠ p := fun q hq he => hp₁.2 (he ▸ hq)
  refine ⟨l₁ ++ l₂, ⟨?_, h.linked.unlink ?_ ?_ ?_ ?_, fun q => ?_, fun m => ?_, fun m => ?_,
    fun m q => ?_, fun q r i j hq hr hk => ?_, fun q hq => ?_⟩, unlink_eq ?_ ?_ ?_⟩
  · change (if item.lprev = none then item.lnext else t.first) = _
    rw [hpu, hnu, h.first]
    cases l₁ with
    | nil => rfl
    | cons a l₁ => rw [if_neg (by simp)]; rfl
  · intro q hq
    rw [unlinkedTable_lnextAt (hne₁ q hq) (hlive q (hmem₁ q hq)), hpu, hlnext]
  · intro q hq
    rw [unlinkedTable_lprevAt (hne₁ q hq) (hlive q (hmem₁ q hq)), hnu, if_neg]
    exact fun he => hdis q hq (List.mem_of_mem_head? he)
  · intro q hq
    rw [unlinkedTable_lnextAt (hne₂ q hq) (hlive q (hmem₂ q hq)), hpu, if_neg]
    exact fun he => hdis q (List.mem_of_getLast? he) hq
  · intro q hq
    rw [unlinkedTable_lprevAt (hne₂ q hq) (hlive q (hmem₂ q hq)), hnu, hlprev]
  · by_cases hqp : q = p
    · subst hqp
      simp [unlinkedTable_self, hp₁]
    · have := h.items q
      rw [unlinkedTable_of_ne hqp]
      simpa [hqp] using this
  · by_cases hm : m = n
    · subst hm
      have hunl := Chain.Threaded.unlink (hn ▸ h.chain m) hbd
        (fun q hq => hnx m q (by rw [hn]; exact List.mem_append_left _ hq)
          (fun he => hpc.1 (he ▸ hq)))
        (fun q hq => by
          rw [hnx m q (by rw [hn]; simp [hq]) (fun he => hpc.2 (he ▸ hq)), if_neg]
          intro he
          rw [List.nodup_append'] at hbd
          exact hbd.2.2 (List.mem_of_getLast? he) (List.mem_cons_of_mem p hq))
      rw [Function.update_self]
      convert hunl using 1
      change (if c₁.getLast? = none then Function.update t.table m item.next else t.table) m = _
      rw [hnext]
      by_cases hc : c₁ = []
      · simp [hc]
      · simp [hc]
    · rw [Function.update_of_ne hm]
      rw [unlinkedTable_table_of_ne hm]
      refine (h.chain m).congr fun q hq => ?_
      have hqn : q ∉ b n := fun hq' => hm (h.bucket_unique hq hq')
      rw [hnx m q hq (fun he => hqn (by rw [he, hn]; simp)), if_neg]
      exact fun he => hqn (by rw [hn]; exact List.mem_append_left _ (List.mem_of_getLast? he))
  · by_cases hm : m = n
    · subst hm
      rw [Function.update_self]
      exact hbd.sublist (List.Sublist.append_left (List.sublist_cons_self _ _) _)
    · rw [Function.update_of_ne hm]
      exact h.nodup m
  · by_cases hqp : q = p
    · subst hqp
      by_cases hm : m = n
      · simp [hm, hpc, unlinkedTable_self]
      · have : q ∉ b m := fun hq => hm (h.bucket_unique hq (by rw [hn]; simp))
        simp [Function.update_of_ne hm, this, unlinkedTable_self]
    · have hiff : q ∈ Function.update b n (c₁ ++ c₂) m ↔ q ∈ b m := by
        by_cases hm : m = n
        · subst hm
          simp [hn, hqp]
        · rw [Function.update_of_ne hm]
      rw [hiff, h.bucket, unlinkedTable_of_ne hqp]
      constructor
      · rintro ⟨i, hi, hk⟩
        rw [hi]
        exact ⟨_, rfl, hk⟩
      · rintro ⟨j, hj, hk⟩
        obtain ⟨i, hi, rfl⟩ := Option.map_eq_some_iff.mp hj
        exact ⟨i, hi, hk⟩
  · obtain ⟨-, i', hi', he⟩ := unlinkedTable_back hq
    obtain ⟨-, j', hj', he'⟩ := unlinkedTable_back hr
    exact h.keys q r i' j' hi' hj' (by rw [he, he']; exact hk)
  · obtain ⟨j, hj⟩ := Option.ne_none_iff_exists'.mp hq
    obtain ⟨-, i, hi, -⟩ := unlinkedTable_back hj
    exact h.bound q (by simp [hi])
  · exact fun q hq => h.live n q (by rw [hn]; exact List.mem_append_left _ (List.mem_of_getLast? hq))
  · exact fun q hq => (h.items q).mp (hmem₁ q (List.mem_of_getLast? (hpu ▸ hq)))
  · exact fun q hq => (h.items q).mp (hmem₂ q (List.mem_of_mem_head? (hnu ▸ hq)))

/-! ### Runs -/

/-- What an append does to the map. -/
theorem Wf.append (h : t.Wf l b) (key : Bytes) (v : α) (hp : t.mem p = none) :
    ∃ t' l' b', t.hashtblAppend key v p = some t' ∧ t'.Wf l' b' ∧
      ∀ k w, t'.Maps k w ↔ if strcaseeq key k = true then w = v else t.Maps k w := by
  cases hf : (b (hachString key)).find? (t.fits key) with
  | some q =>
    have hq := List.find?_some hf
    unfold fits at hq
    split at hq
    · next i hi =>
      have hqp : q ≠ p := by
        rintro rfl
        rw [hp] at hi
        cases hi
      have hnone : t.store p none = t := by
        simp only [store, ← hp, Function.update_eq_self]
      refine ⟨t.store q (some { i with addrs := v }), l, b, ?_, h.setAddrs hi v, fun k w => ?_⟩
      · simp [hashtblAppend, h.chase_store hp, hf, hnone, write, hi]
      · have hmem : ∀ r, (t.store q (some { i with addrs := v })).mem r =
            if r = q then some { i with addrs := v } else t.mem r := by
          intro r
          simp only [store, Function.update_apply]
        split
        · next hk =>
          refine ⟨?_, fun he => ⟨q, { i with addrs := v }, by rw [hmem, if_pos rfl],
            strcaseeq_trans hq hk, he.symm⟩⟩
          rintro ⟨r, j, hj, hjk, rfl⟩
          rw [hmem] at hj
          split at hj
          · cases hj
            rfl
          · next hr =>
            exact absurd (h.keys r q j i hj hi (strcaseeq_trans hjk
              (strcaseeq_symm (strcaseeq_trans hq hk)))) hr
        · next hk =>
          have hr : ∀ r j, t.mem r = some j → strcaseeq j.key k = true → r ≠ q := by
            rintro r j hj hjk rfl
            rw [hi] at hj
            cases hj
            exact hk (strcaseeq_trans (strcaseeq_symm hq) hjk)
          constructor
          · rintro ⟨r, j, hj, hjk, rfl⟩
            rw [hmem] at hj
            split at hj
            · cases hj
              exact absurd rfl (hr q i hi hjk)
            · exact ⟨r, j, hj, hjk, rfl⟩
          · rintro ⟨r, j, hj, hjk, rfl⟩
            exact ⟨r, j, by rw [hmem, if_neg (hr r j hj hjk), hj], hjk, rfl⟩
    · cases hq
  | none =>
    refine ⟨_, _, _, h.append_new hp hf, h.linked_wf hp hf, fun k w => ?_⟩
    have hother : ∀ r, r ≠ p → (t.linkedTable key v p).mem r =
        (t.mem r).map fun i => if t.first = some r then { i with lprev := some p } else i :=
      fun r hr => if_neg hr
    have hold : ∀ r j, r ≠ p → (t.linkedTable key v p).mem r = some j →
        ∃ i, t.mem r = some i ∧ i.key = j.key ∧ i.addrs = j.addrs := by
      intro r j hr hj
      rw [hother r hr] at hj
      obtain ⟨i, hi, rfl⟩ := Option.map_eq_some_iff.mp hj
      refine ⟨i, hi, ?_⟩
      split <;> exact ⟨rfl, rfl⟩
    split
    · next hk =>
      constructor
      · rintro ⟨r, j, hj, hjk, rfl⟩
        by_cases hr : r = p
        · subst hr
          rw [show (t.linkedTable key v r).mem r = _ from if_pos rfl] at hj
          cases hj
          rfl
        · obtain ⟨i, hi, he, -⟩ := hold r j hr hj
          have hik : strcaseeq i.key key = true :=
            strcaseeq_trans (he ▸ hjk) (strcaseeq_symm hk)
          rw [h.find hi hik] at hf
          cases hf
      · rintro rfl
        exact ⟨p, _, if_pos rfl, hk, rfl⟩
    · next hk =>
      constructor
      · rintro ⟨r, j, hj, hjk, rfl⟩
        by_cases hr : r = p
        · subst hr
          rw [show (t.linkedTable key v r).mem r = _ from if_pos rfl] at hj
          cases hj
          exact absurd hjk hk
        · obtain ⟨i, hi, he, he'⟩ := hold r j hr hj
          exact ⟨r, i, hi, he ▸ hjk, he'⟩
      · rintro ⟨r, i, hi, hik, rfl⟩
        have hr : r ≠ p := by
          rintro rfl
          rw [hp] at hi
          cases hi
        refine ⟨r, _, by rw [hother r hr, hi]; exact rfl, ?_, ?_⟩
        · split <;> exact hik
        · split <;> rfl

/-- What an erase does to the map. -/
theorem Wf.erase (h : t.Wf l b) (key : Bytes) :
    ∃ t' l' b', t.hashtblErase key = some t' ∧ t'.Wf l' b' ∧
      ∀ k w, t'.Maps k w ↔ strcaseeq key k = false ∧ t.Maps k w := by
  cases hf : (b (hachString key)).find? (t.fits key) with
  | none =>
    refine ⟨t, l, b, eraseLoop_none none _ (h.chain _) (h.live _) (h.length_lt _) ?_, h, fun k w => ?_⟩
    · intro p hp
      simpa using List.find?_eq_none.mp hf p hp
    · refine ⟨fun hm => ⟨?_, hm⟩, And.right⟩
      obtain ⟨r, j, hj, hjk, -⟩ := hm
      by_contra hk
      have hkey : strcaseeq j.key key = true :=
        strcaseeq_trans hjk (strcaseeq_symm (by simpa using hk))
      rw [h.find hj hkey] at hf
      cases hf
  | some p =>
    have hfit := List.find?_some hf
    obtain ⟨-, c₁, c₂, hc, hbefore⟩ := List.find?_eq_some_iff_append.mp hf
    unfold fits at hfit
    split at hfit
    · next item hi =>
      obtain ⟨l', hwf, hun⟩ := h.erase_wf hi hc
      refine ⟨_, l', _, ?_, hwf, fun k w => ?_⟩
      · have hlen : c₁.length < t.brk + 1 := by
          have := h.length_lt (hachString key)
          rw [hc] at this
          simp only [List.length_append, List.length_cons] at this
          omega
        have hl : ∀ q ∈ c₁, t.mem q ≠ none := fun q hq => h.live (hachString key) q (by simp [hc, hq])
        have := eraseLoop_some none (hachString key) (hc ▸ h.chain _) hl hlen
          (fun q hq => by simpa using hbefore q hq) hi hfit
        rw [Option.or_none, hun] at this
        exact this
      · have hgone : (t.unlinkedTable (hachString key) c₁.getLast? p item).mem p = none := if_pos rfl
        constructor
        · rintro ⟨r, j, hj, hjk, rfl⟩
          have hr : r ≠ p := by
            rintro rfl
            rw [hgone] at hj
            cases hj
          rw [show (t.unlinkedTable (hachString key) c₁.getLast? p item).mem r = _ from
            if_neg hr] at hj
          obtain ⟨i, hi', rfl⟩ := Option.map_eq_some_iff.mp hj
          refine ⟨?_, r, i, hi', hjk, rfl⟩
          by_contra hk
          exact hr (h.keys r p i item hi' hi (strcaseeq_trans hjk (strcaseeq_symm
            (strcaseeq_trans hfit (by simpa using hk)))))
        · rintro ⟨hk, r, i, hi', hik, rfl⟩
          have hr : r ≠ p := by
            rintro rfl
            rw [hi] at hi'
            cases hi'
            rw [strcaseeq_trans (strcaseeq_symm hfit) hik] at hk
            cases hk
          refine ⟨r, _, (if_neg hr).trans (by rw [hi']; exact rfl), ?_, ?_⟩
          · exact hik
          · rfl
    · cases hfit

end Table

/-- A change of a table. -/
inductive Op (α : Type)
  | append (key : Bytes) (structaddr : α)
  | erase (key : Bytes)

namespace Op

variable {α : Type}

def key : Op α → Bytes
  | append key _ => key
  | erase key => key

/-- The change as one of the map. -/
def apply (m : Htbl α) : Op α → Htbl α
  | append key v => m.append key v
  | erase key => m.erase key

/-- The value of the last append of the key, if no erase of it came later. -/
def latest (k : Bytes) (ops : List (Op α)) : Option α :=
  match ops.reverse.find? fun op => strcaseeq op.key k with
  | some (append _ v) => some v
  | _ => none

theorem latest_snoc (k : Bytes) (ops : List (Op α)) (op : Op α) : latest k (ops ++ [op]) =
    if strcaseeq op.key k = true then (match op with | append _ v => some v | erase _ => none)
    else latest k ops := by
  simp only [latest, List.reverse_append, List.reverse_singleton, List.singleton_append,
    List.find?_cons]
  by_cases hk : strcaseeq op.key k = true
  · simp only [hk, if_true]
    cases op <;> rfl
  · simp only [hk]
    rfl

/-- The map after the changes holds the latest values. -/
theorem seek_foldl (k : Bytes) (ops : List (Op α)) :
    (ops.foldl apply Htbl.init).seek k = latest k ops := by
  induction ops using List.reverseRecOn with
  | nil => rfl
  | append_singleton ops op ih =>
    have hsymm : strcaseeq k op.key = strcaseeq op.key k :=
      Bool.eq_iff_iff.mpr ⟨strcaseeq_symm, strcaseeq_symm⟩
    rw [List.foldl_append, List.foldl_cons, List.foldl_nil, latest_snoc, ← ih, ← hsymm]
    cases op <;> rfl

end Op

namespace Table

variable {α : Type} {t : Table α} {ops : List (Op α)}

/-- The tables that changes build, whatever unused memory the allocator gives. -/
inductive Runs : List (Op α) → Table α → Prop
  | init : Runs [] hashtblInit
  | append {ops : List (Op α)} {t t' : Table α} {key : Bytes} {v : α} {p : ℕ} : Runs ops t →
      t.mem p = none → t.hashtblAppend key v p = some t' → Runs (ops ++ [.append key v]) t'
  | erase {ops : List (Op α)} {t t' : Table α} {key : Bytes} : Runs ops t →
      t.hashtblErase key = some t' → Runs (ops ++ [.erase key]) t'

/-- The table holds the items of the map. -/
def Refines (t : Table α) (m : Htbl α) : Prop := ∀ k v, t.Maps k v ↔ m.seek k = some v

theorem Runs.spec (h : Runs ops t) :
    (∃ l b, t.Wf l b) ∧ t.Refines (ops.foldl Op.apply Htbl.init) := by
  induction h with
  | init => exact ⟨⟨_, _, init_wf⟩, fun k v => by simp [Maps, hashtblInit, Htbl.seek, Htbl.init]⟩
  | @append ops t t' key v p _ hp ht ih =>
    obtain ⟨⟨l, b, hwf⟩, hm⟩ := ih
    obtain ⟨t'', l', b', ht', hwf', hm'⟩ := hwf.append key v hp
    rw [ht] at ht'
    cases ht'
    refine ⟨⟨l', b', hwf'⟩, fun k w => ?_⟩
    have hsymm : strcaseeq k key = strcaseeq key k :=
      Bool.eq_iff_iff.mpr ⟨strcaseeq_symm, strcaseeq_symm⟩
    rw [hm', hm, List.foldl_append]
    simp only [List.foldl_cons, List.foldl_nil, Op.apply, Htbl.seek, Htbl.append, hsymm]
    split <;> simp [eq_comm]
  | @erase ops t t' key _ ht ih =>
    obtain ⟨⟨l, b, hwf⟩, hm⟩ := ih
    obtain ⟨t'', l', b', ht', hwf', hm'⟩ := hwf.erase key
    rw [ht] at ht'
    cases ht'
    refine ⟨⟨l', b', hwf'⟩, fun k w => ?_⟩
    have hsymm : strcaseeq k key = strcaseeq key k :=
      Bool.eq_iff_iff.mpr ⟨strcaseeq_symm, strcaseeq_symm⟩
    rw [hm', hm, List.foldl_append]
    simp only [List.foldl_cons, List.foldl_nil, Op.apply, Htbl.seek, Htbl.erase, hsymm]
    cases strcaseeq key k <;> simp

/-- The two structures of a table, over the same items. -/
structure Consistent (t : Table α) : Prop where
  distinct : ∀ p q i j, t.mem p = some i → t.mem q = some j → strcaseeq i.key j.key = true → p = q
  lists : ∃ (l : List ℕ) (b : ℕ → List ℕ),
    -- the chains of the buckets, each item in that of its key in any case
    (∀ h, Threaded t.nextAt (t.table h) (b h) ∧ (b h).Nodup) ∧
    (∀ h p, p ∈ b h → t.mem p ≠ none) ∧
    (∀ p item k, t.mem p = some item → strcaseeq k item.key = true →
      p ∈ b (hachString k) ∧ hachString k < hachTableMax + 1) ∧
    -- the list of all items
    t.first = l.head? ∧ Linked t.lnextAt t.lprevAt l ∧ (∀ p, p ∈ l ↔ ∃ h, p ∈ b h) ∧
    ∀ p ∈ l, ∀ q ∈ l, t.lnextAt p = some q ↔ t.lprevAt q = some p

theorem hachString_lt (k : Bytes) : hachString k < hachTableMax + 1 := by
  have : hachString k < hachTableMax - 1 := Nat.mod_lt _ (by decide)
  omega

theorem Wf.consistent {l : List ℕ} {b : ℕ → List ℕ} (h : t.Wf l b) : t.Consistent where
  distinct := h.keys
  lists := by
    refine ⟨l, b, fun n => ⟨h.chain n, h.nodup n⟩, h.live, fun p item k hi hk =>
      ⟨h.mem_bucket hi (strcaseeq_symm hk), hachString_lt k⟩, h.first, h.linked, fun p => ?_,
      fun p hp q hq => h.linked.next_iff_prev hp hq⟩
    rw [h.items]
    constructor
    · intro hp
      obtain ⟨item, hi⟩ := Option.ne_none_iff_exists'.mp hp
      exact ⟨_, (h.bucket _ p).mpr ⟨item, hi, rfl⟩⟩
    · rintro ⟨n, hp⟩
      exact h.live n p hp

/-- A table is the map of its changes: `hashtbl_seek` finds the latest value of a key, the
items are kept in two consistent structures, and every further change goes through. -/
theorem hashtbl_refines (h : Runs ops t) :
    (∀ k, t.hashtblSeek k = some (Op.latest k ops)) ∧ t.Consistent ∧
      (∀ key v p, t.mem p = none → ∃ t', t.hashtblAppend key v p = some t') ∧
      ∀ key, ∃ t', t.hashtblErase key = some t' := by
  obtain ⟨⟨l, b, hwf⟩, hm⟩ := h.spec
  refine ⟨fun k => ?_, hwf.consistent, fun key v p hp => ?_, fun key => ?_⟩
  · rw [← Op.seek_foldl]
    cases hs : (ops.foldl Op.apply Htbl.init).seek k with
    | some v => exact hwf.seek_some ((hm k v).mpr hs)
    | none =>
      refine hwf.seek_none fun v hv => ?_
      rw [(hm k v).mp hv] at hs
      cases hs
  · obtain ⟨t', -, -, ht', -⟩ := hwf.append key v hp
    exact ⟨t', ht'⟩
  · obtain ⟨t', -, -, ht', -⟩ := hwf.erase key
    exact ⟨t', ht'⟩

theorem hashtbl_refines_replaced : ∃ t : Table ℕ,
    Runs [.append (bytes "Key") 7, .append (bytes "kEY") 8] t ∧
      t.hashtblSeek (bytes "KEY") = some (some 8) ∧ t.Consistent := by
  have hfree : ((hashtblInit.hashtblAppend (bytes "Key") 7 0).map fun t : Table ℕ =>
      ((t.mem 1).isNone, (t.hashtblAppend (bytes "kEY") 8 1).isSome)) = some (true, true) := by
    decide +kernel
  obtain ⟨t, ht, he⟩ := Option.map_eq_some_iff.mp hfree
  simp only [Prod.mk.injEq, Option.isNone_iff_eq_none, Option.isSome_iff_exists] at he
  obtain ⟨hnone, t', ht'⟩ := he
  have h : Runs [.append (bytes "Key") 7, .append (bytes "kEY") 8] t' :=
    .append (.append .init rfl ht) hnone ht'
  obtain ⟨hseek, hcons, -⟩ := hashtbl_refines h
  exact ⟨t', h, hseek (bytes "KEY"), hcons⟩

end Table

end ApeServer.Hash
