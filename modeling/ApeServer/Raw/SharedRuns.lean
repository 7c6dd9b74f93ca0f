import ApeServer.Lib.Steps
import ApeServer.Raw.Shared

/-!
# Counters of shared raws over runs

What a post, a copy and a release do to the slots and the counters, and the invariant that
every run of the queues keeps.
-/
namespace ApeServer.Shared.Raws

open RefCount (Counted)
open RawPool (Queue)
open Steps (foldlM_completes Reach)

variable {s s' t : Raws} {r q : RawId} {i j : SubId} {u v : UserId} {x : SharedRaw} {p : Slots}
  {l rest : List RawId}

/-- A subuser that has not been deleted. -/
def Live (s : Raws) (i : SubId) : Prop := ∃ p, s.pools[i]? = some (some p)

theorem raw_eq (h : s.heap[r]? = some (some x)) : s.raw r = .ok x := by
  simp [raw, h]

theorem pool_eq (h : s.pools[i]? = some (some p)) : s.pool i = .ok p := by
  simp [pool, h]

theorem heap_of_refs {n : ℤ} (h : s.refs r = some n) :
    ∃ x, s.heap[r]? = some (some x) ∧ x.refcount = n := by
  obtain ⟨x, hx, hn⟩ := Option.map_eq_some_iff.mp h
  exact ⟨x, Option.join_eq_some_iff.mp hx, hn⟩

theorem heap_setRaw (h : s.heap[r]? = some (some x)) (y : Option SharedRaw) :
    (s.setRaw r y).heap[r]? = some y :=
  List.getElem?_set_self (List.getElem?_eq_some_iff.mp h).1

theorem heap_setRaw_ne (hq : q ≠ r) (y : Option SharedRaw) :
    (s.setRaw r y).heap[q]? = s.heap[q]? :=
  List.getElem?_set_ne (Ne.symm hq)

theorem refs_setRaw (h : s.heap[r]? = some (some x)) (y : Option SharedRaw) :
    (s.setRaw r y).refs = Function.update s.refs r (y.map SharedRaw.refcount) := by
  funext q
  by_cases hq : q = r
  · subst hq
    rw [Function.update_self, refs, heap_setRaw h]
    rfl
  · rw [Function.update_of_ne hq, refs, heap_setRaw_ne hq, refs]

@[simp]
theorem slots_setRaw {y : Option SharedRaw} : (s.setRaw r y).slots = s.slots := rfl

/-- The slots of one subuser and those of the others. -/
theorem slots_split {o : Option Slots} (h : s.pools[i]? = some o) :
    ∃ rest, s.slots.Perm (held o ++ rest) ∧
      ∀ o', (s.setPool i o').slots.Perm (held o' ++ rest) := by
  obtain ⟨hi, he⟩ := List.getElem?_eq_some_iff.mp h
  have hsplit : s.pools = s.pools.take i ++ o :: s.pools.drop (i + 1) := by
    rw [← he, List.getElem_cons_drop, List.take_append_drop]
  have hperm : ∀ o' : Option Slots,
      ((s.pools.take i ++ o' :: s.pools.drop (i + 1)).flatMap held).Perm
        (held o' ++ ((s.pools.take i).flatMap held ++ (s.pools.drop (i + 1)).flatMap held)) := by
    intro o'
    rw [List.flatMap_append, List.flatMap_cons]
    exact List.perm_append_comm_assoc ..
  refine ⟨(s.pools.take i).flatMap held ++ (s.pools.drop (i + 1)).flatMap held, ?_,
    fun o' => ?_⟩
  · have hs := hperm o
    rwa [← hsplit] at hs
  · rw [slots, setPool_pools, List.set_eq_take_append_cons_drop, if_pos hi]
    exact hperm o'

theorem live_setPool (h : Live s i) (p : Slots) : Live (s.setPool i (some p)) j ↔ Live s j := by
  obtain ⟨o, ho⟩ := h
  have hi := (List.getElem?_eq_some_iff.mp ho).1
  by_cases hj : j = i
  · subst hj
    exact ⟨fun _ => ⟨o, ho⟩, fun _ => ⟨p, List.getElem?_set_self hi⟩⟩
  · simp only [Live, setPool_pools, List.getElem?_set_ne (Ne.symm hj)]

/-! ### Growing -/

/-- Nothing is freed, no slot is emptied, and the subusers stay. -/
structure Grown (s s' : Raws) : Prop where
  subuser : s'.subuser = s.subuser
  live : ∀ i, Live s' i ↔ Live s i
  raw : ∀ {r : RawId} {x : SharedRaw}, s.heap[r]? = some (some x) →
    ∃ x' : SharedRaw, s'.heap[r]? = some (some x') ∧ x'.raw = x.raw
  slots : ∀ r ∈ s.slots, r ∈ s'.slots

theorem Grown.refl : Grown s s := ⟨rfl, fun _ => .rfl, fun h => ⟨_, h, rfl⟩, fun _ h => h⟩

theorem Grown.trans (h : Grown s t) (h' : Grown t s') : Grown s s' where
  subuser := h'.subuser.trans h.subuser
  live i := (h'.live i).trans (h.live i)
  raw hx := by
    obtain ⟨y, hy, he⟩ := h.raw hx
    obtain ⟨z, hz, he'⟩ := h'.raw hy
    exact ⟨z, hz, he'.trans he⟩
  slots r hr := h'.slots r (h.slots r hr)

theorem Grown.setRaw (h : s.heap[r]? = some (some x)) (n : ℤ) :
    Grown s (s.setRaw r (some { x with refcount := n })) where
  subuser := rfl
  live _ := .rfl
  raw := by
    intro q y hy
    by_cases hq : q = r
    · subst hq
      obtain rfl := Option.some.inj (Option.some.inj (hy.symm.trans h))
      exact ⟨_, heap_setRaw h _, rfl⟩
    · exact ⟨y, by rw [heap_setRaw_ne hq, hy], rfl⟩
  slots _ hr := hr

/-- `post_raw_sub` fills one slot and touches no counter. -/
theorem postRawSub_grown (hr : s.heap[r]? = some (some x)) (hi : Live s i) :
    ∃ s', s.postRawSub r i = .ok s' ∧ s'.heap = s.heap ∧ s'.slots.Perm (r :: s.slots) ∧
      Grown s s' := by
  obtain ⟨p, hp⟩ := hi
  obtain ⟨rest, hs, hset⟩ := slots_split hp
  have hpush : (held (some (p.push r x.raw.priority))).Perm (r :: held (some p)) := by
    cases hpr : x.raw.priority with
    | lo =>
      rw [held, held, Slots.push, Slots.all, Slots.all, List.append_assoc]
      exact List.perm_middle
    | hi =>
      rw [held, held, Slots.push, Slots.all, Slots.all, ← List.append_assoc]
      exact List.perm_append_singleton ..
  have hperm : (s.setPool i (some (p.push r x.raw.priority))).slots.Perm (r :: s.slots) :=
    ((hset _).trans (hpush.append_right rest)).trans (hs.symm.cons r)
  refine ⟨s.setPool i (some (p.push r x.raw.priority)), ?_, rfl, hperm, rfl,
    fun j => live_setPool ⟨p, hp⟩ _, fun h => ⟨_, h, rfl⟩, fun q hq => ?_⟩
  · rw [postRawSub, raw_eq hr, Steps.ok_bind, pool_eq hp]
    rfl
  · exact hperm.mem_iff.mpr (List.mem_cons_of_mem r hq)

/-- The loops that post `r` keep its counter equal to the number of its slots. -/
structure Posting (r : RawId) (s t : Raws) : Prop where
  grown : Grown s t
  counted : Counted t.refs t.slots
  exact : t.refs r = some (t.slots.count r : ℤ)

/-- One slot more for a raw whose counter is exact. -/
theorem Posting.postCopy (h : Posting r s t) (hi : Live s i) :
    ∃ t', t.postCopy r i = .ok t' ∧ Posting r s t' := by
  obtain ⟨x, hx, hn⟩ := heap_of_refs h.exact
  obtain ⟨t', ht, hheap, hperm, hg⟩ := postRawSub_grown (heap_setRaw hx
    (some { x with refcount := x.refcount + 1 })) (i := i) ((h.grown.live i).mpr hi)
  have hrefs : t'.refs = Function.update t.refs r (some (x.refcount + 1)) := by
    refine Eq.trans ?_ (refs_setRaw hx (some { x with refcount := x.refcount + 1 }))
    funext q
    rw [refs, hheap, refs]
  refine ⟨t', ?_, (h.grown.trans (.setRaw hx _)).trans hg, ?_, ?_⟩
  · rw [Raws.postCopy, copyRawZ, raw_eq hx]
    exact ht
  · rw [hrefs]
    exact (h.counted.retain hn).perm hperm.symm
  · rw [hrefs, Function.update_self, hperm.count_eq, slots_setRaw, List.count_cons_self, hn]
    push_cast
    rfl

theorem Posting.postRaw (h : Posting r s t) (hl : ∀ i ∈ s.subuser u, Live s i) :
    ∃ t', t.postRaw r u = .ok t' ∧ Posting r s t' := by
  rw [Raws.postRaw, h.grown.subuser]
  exact foldlM_completes (Posting r s) (fun t i hi ht => ht.postCopy (hl i hi)) h

theorem Posting.postRawRestricted (h : Posting r s t) (hl : ∀ i ∈ s.subuser u, Live s i)
    (sub : Option SubId) : ∃ t', t.postRawRestricted r u sub = .ok t' ∧ Posting r s t' := by
  cases sub with
  | none => exact ⟨t, rfl, h⟩
  | some j =>
    rw [Raws.postRawRestricted, h.grown.subuser]
    refine foldlM_completes (Posting r s) (fun t i hi ht => ?_) h
    by_cases hj : j = i
    · exact ⟨t, if_neg (not_not.mpr hj), ht⟩
    · rw [if_pos hj]
      exact ht.postCopy (hl i hi)

theorem Posting.postRawChannelRestricted (h : Posting r s t)
    (hl : ∀ u, ∀ i ∈ s.subuser u, Live s i) (chan : Option (List UserId)) (ruser : UserId) :
    ∃ t', t.postRawChannelRestricted r chan ruser = .ok t' ∧ Posting r s t' := by
  match chan with
  | none | some [] => exact ⟨t, rfl, h⟩
  | some (v :: list) =>
    refine foldlM_completes (Posting r s) (fun t u _ ht => ?_) h
    by_cases hu : u = ruser
    · exact ⟨t, if_neg (not_not.mpr hu), ht⟩
    · rw [if_pos hu]
      exact ht.postRaw (hl u)

theorem Posting.postRawChannel (h : Posting r s t) (hl : ∀ u, ∀ i ∈ s.subuser u, Live s i)
    (chan : Option (List UserId)) :
    ∃ t', t.postRawChannel r chan = .ok t' ∧ Posting r s t' := by
  match chan with
  | none | some [] => exact ⟨t, rfl, h⟩
  | some (v :: list) => exact foldlM_completes (Posting r s) (fun t u _ ht => ht.postRaw (hl u)) h

/-! ### Releasing -/

/-- Exactly the raws of `l` without a slot in `rest` have been freed. -/
structure Freed (l rest : List RawId) (s s' : Raws) : Prop where
  subuser : s'.subuser = s.subuser
  pools : s'.pools = s.pools
  counted : Counted s'.refs rest
  off : ∀ r, r ∉ l → s'.heap[r]? = s.heap[r]?
  raw : ∀ {r : RawId} {x : SharedRaw}, s.heap[r]? = some (some x) → ¬ (r ∈ l ∧ r ∉ rest) →
    ∃ x' : SharedRaw, s'.heap[r]? = some (some x') ∧ x'.raw = x.raw
  freed : ∀ r ∈ l, r ∉ rest → s'.heap[r]? = some none

theorem Freed.nil (h : Counted s.refs rest) : Freed [] rest s s :=
  ⟨rfl, rfl, h, fun _ _ => rfl, fun hx _ => ⟨_, hx, rfl⟩, fun _ hr => nomatch hr⟩

/-- `free_raw` on a slot: the raw goes with its last slot. -/
theorem freeRaw_freed (h : Counted s.refs (r :: rest)) :
    ∃ s', s.freeRaw r = .ok s' ∧ Freed [r] rest s s' := by
  obtain ⟨n, hn, -⟩ := h r List.mem_cons_self
  obtain ⟨x, hx, rfl⟩ := heap_of_refs hn
  obtain ⟨hlast, hc⟩ := h.release hn
  have hoff : ∀ (y : Option SharedRaw) (q : RawId), q ∉ [r] →
      (s.setRaw r y).heap[q]? = s.heap[q]? :=
    fun y q hq => heap_setRaw_ne (fun he => hq (List.mem_singleton.mpr he)) y
  by_cases hle : x.refcount - 1 ≤ 0
  · have hr : r ∉ rest := hlast.mp hle
    refine ⟨s.setRaw r none, ?_, rfl, rfl, ?_, hoff none, ?_, ?_⟩
    · rw [freeRaw, raw_eq hx, Steps.ok_bind, if_pos hle]
      rfl
    · rw [refs_setRaw hx]
      rwa [if_pos hle] at hc
    · intro q y hy hq
      have hne : q ∉ [r] := by
        intro he
        exact hq ⟨he, List.mem_singleton.mp he ▸ hr⟩
      exact ⟨y, by rw [hoff none q hne, hy], rfl⟩
    · intro q hq _
      obtain rfl := List.mem_singleton.mp hq
      exact heap_setRaw hx none
  · have hr : r ∈ rest := not_not.mp fun hr => hle (hlast.mpr hr)
    refine ⟨s.setRaw r (some { x with refcount := x.refcount - 1 }), ?_, rfl, rfl, ?_, hoff _,
      fun hy _ => (Grown.setRaw hx _).raw hy, ?_⟩
    · rw [freeRaw, raw_eq hx, Steps.ok_bind, if_neg hle]
      rfl
    · rw [refs_setRaw hx]
      rwa [if_neg hle] at hc
    · intro q hq hq'
      obtain rfl := List.mem_singleton.mp hq
      exact absurd hr hq'

/-- Releasing the slots of `l` and then those of `l'`. -/
theorem Freed.append {l' : List RawId} (h : Freed l (l' ++ rest) s t) (h' : Freed l' rest t s') :
    Freed (l ++ l') rest s s' where
  subuser := h'.subuser.trans h.subuser
  pools := h'.pools.trans h.pools
  counted := h'.counted
  off q hq := by
    rw [h'.off q fun hl => hq (List.mem_append_right l hl),
      h.off q fun hl => hq (List.mem_append_left l' hl)]
  raw := by
    intro q x hx hq
    have hq₁ : ¬ (q ∈ l ∧ q ∉ l' ++ rest) := fun hc =>
      hq ⟨List.mem_append_left l' hc.1, fun hr => hc.2 (List.mem_append_right l' hr)⟩
    obtain ⟨y, hy, he⟩ := h.raw hx hq₁
    obtain ⟨z, hz, he'⟩ := h'.raw hy fun hc => hq ⟨List.mem_append_right l hc.1, hc.2⟩
    exact ⟨z, hz, he'.trans he⟩
  freed := by
    intro q hq hrest
    by_cases hl : q ∈ l'
    · exact h'.freed q hl hrest
    · rw [h'.off q hl]
      exact h.freed q ((List.mem_append.mp hq).resolve_right hl) fun hc =>
        (List.mem_append.mp hc).elim hl hrest

theorem destroyRawPool_freed (h : Counted s.refs (l ++ rest)) :
    ∃ s', s.destroyRawPool l = .ok s' ∧ Freed l rest s s' := by
  induction l generalizing s with
  | nil => exact ⟨s, rfl, .nil h⟩
  | cons r l ih =>
    obtain ⟨t, ht, hf⟩ := freeRaw_freed h
    obtain ⟨s', hs, hf'⟩ := ih hf.counted
    refine ⟨s', ?_, hf.append hf'⟩
    rw [destroyRawPool, List.foldlM_cons, ht]
    exact hs

/-- The raw at an address. -/
def rawOf (s : Raws) (r : RawId) : Option Raw := s.heap[r]?.join.map SharedRaw.raw

/-- The writing loop reads no freed raw, and releases what `destroy_raw_pool` would. -/
theorem sendLoop_freed (h : Counted s.refs (l ++ rest)) :
    ∃ s', s.sendLoop l = .ok (l.filterMap s.rawOf, s') ∧ Freed l rest s s' := by
  induction l generalizing s with
  | nil => exact ⟨s, rfl, .nil h⟩
  | cons r l ih =>
    obtain ⟨n, hn, -⟩ := h r List.mem_cons_self
    obtain ⟨x, hx, -⟩ := heap_of_refs hn
    obtain ⟨t, ht, hf⟩ := freeRaw_freed h
    obtain ⟨s', hs, hf'⟩ := ih hf.counted
    -- a raw with two slots here is still there at the second one
    have hsame : l.filterMap t.rawOf = l.filterMap s.rawOf := by
      refine List.filterMap_congr fun q hq => ?_
      obtain ⟨m, hm, -⟩ := h q (List.mem_cons_of_mem r (List.mem_append_left rest hq))
      obtain ⟨y, hy, -⟩ := heap_of_refs hm
      obtain ⟨z, hz, he⟩ := hf.raw hy fun hc => hc.2 (List.mem_append_left rest hq)
      simp [rawOf, hy, hz, he]
    refine ⟨s', ?_, hf.append hf'⟩
    rw [sendLoop, raw_eq hx, Steps.ok_bind, ht, Steps.ok_bind, hs, hsame]
    simp [rawOf, hx]

/-! ### Runs -/

/-- The counters are right, and every subuser that a list holds lives and is held once. -/
structure Sound (s : Raws) : Prop where
  counted : Counted s.refs s.slots
  listed : ∀ u, ∀ i ∈ s.subuser u, Live s i
  nodup : ∀ u, (s.subuser u).Nodup
  owner : ∀ u v i, i ∈ s.subuser u → i ∈ s.subuser v → u = v

/-- What was freed on the way from `s` to `s'` are the raws that lost their last slot. -/
def FreesLast (s s' : Raws) : Prop :=
  ∀ r x, s.heap[r]? = some (some x) → (s'.heap[r]? = some none ↔ r ∈ s.slots ∧ r ∉ s'.slots)

theorem sound_init : Sound init where
  counted := .nil _
  listed _ _ hi := nomatch hi
  nodup _ := .nil
  owner _ _ _ hi := nomatch hi

theorem Sound.lt (h : Sound s) (hr : r ∈ s.slots) : r < s.heap.length := by
  obtain ⟨n, hn, -⟩ := h.counted r hr
  obtain ⟨x, hx, -⟩ := heap_of_refs hn
  exact (List.getElem?_eq_some_iff.mp hx).1

theorem Grown.freesLast (h : Grown s s') : FreesLast s s' := by
  intro r x hx
  obtain ⟨y, hy, -⟩ := h.raw hx
  rw [hy]
  exact ⟨fun he => by simp at he, fun hc => absurd (h.slots r hc.1) hc.2⟩

theorem Sound.grown (h : Sound s) (hg : Grown s s') (hc : Counted s'.refs s'.slots) :
    Sound s' where
  counted := hc
  listed u i hi := (hg.live i).mpr (h.listed u i (hg.subuser ▸ hi))
  nodup u := hg.subuser ▸ h.nodup u
  owner u v i hu hv := h.owner u v i (hg.subuser ▸ hu) (hg.subuser ▸ hv)

/-- A new raw has the counter zero and no slot. -/
theorem Sound.posting (h : Sound s) (raw : Raw) : Posting s.next s (s.forgeRaw raw) := by
  have hold : ∀ {r}, r < s.heap.length → (s.forgeRaw raw).heap[r]? = s.heap[r]? :=
    fun hr => List.getElem?_append_left hr
  refine ⟨⟨rfl, fun _ => .rfl, fun hx => ?_, fun _ hr => hr⟩, ?_, ?_⟩
  · exact ⟨_, (hold (List.getElem?_eq_some_iff.mp hx).1).trans hx, rfl⟩
  · refine h.counted.congr fun r hr => ?_
    rw [refs, hold (h.lt hr), refs]
  · have hnot : s.next ∉ s.slots := fun hc => Nat.lt_irrefl _ (h.lt hc)
    have hslots : (s.forgeRaw raw).slots = s.slots := rfl
    rw [hslots, List.count_eq_zero_of_not_mem hnot]
    simp [refs, next]

/-- The steps that post to a list of subusers. -/
theorem Sound.posted (h : Sound s) (hp : Posting s.next s s') :
    Sound s' ∧ FreesLast s s' :=
  ⟨h.grown hp.grown hp.counted, hp.grown.freesLast⟩

theorem Sound.postRawSub (h : Sound s) (raw : Raw) (hi : Live s i) :
    ∃ s', (s.forgeRaw raw).postRawSub s.next i = .ok s' ∧ Sound s' ∧ FreesLast s s' := by
  have hp := h.posting raw
  obtain ⟨x, hx, -⟩ := heap_of_refs hp.exact
  obtain ⟨s', hs, hheap, hperm, hg⟩ := postRawSub_grown hx ((hp.grown.live i).mpr hi)
  have hnot : s.next ∉ s.slots := fun hc => Nat.lt_irrefl _ (h.lt hc)
  have hrefs : s'.refs = (s.forgeRaw raw).refs := by
    funext q
    rw [refs, hheap, refs]
  have hzero : (s.forgeRaw raw).refs s.next = some 0 := by simp [refs, next]
  have hc : Counted s'.refs s'.slots := by
    rw [hrefs]
    exact (hp.counted.first hnot hzero).perm hperm.symm
  exact ⟨s', hs, h.grown (hp.grown.trans hg) hc, (hp.grown.trans hg).freesLast⟩

theorem shareRaw_grown (hc : Counted s.refs s.slots) (hr : r ∈ s.slots) (hi : Live s i) :
    ∃ s', shareRaw i s r = .ok s' ∧ Grown s s' ∧ Counted s'.refs s'.slots := by
  obtain ⟨n, hn, -⟩ := hc r hr
  obtain ⟨x, hx, rfl⟩ := heap_of_refs hn
  have hexact := hc.exact hr hn
  have hsettle := hc.settle hr hn
  have hp : Posting r s (if x.refcount = 0 then s.setRaw r (some { x with refcount := 1 })
      else s) := by
    by_cases hz : x.refcount = 0
    · rw [if_pos hz] at hexact hsettle ⊢
      refine ⟨.setRaw hx 1, ?_, ?_⟩
      · rw [refs_setRaw hx]
        exact hsettle
      · rw [refs_setRaw hx, Function.update_self, slots_setRaw, ← hexact]
        rfl
    · rw [if_neg hz] at hexact ⊢
      exact ⟨.refl, hc, by rw [hn, hexact]⟩
  obtain ⟨s', hs, hp'⟩ := hp.postCopy hi
  refine ⟨s', ?_, hp'.grown, hp'.counted⟩
  rw [shareRaw, raw_eq hx]
  exact hs

theorem Sound.addsubuser (h : Sound s) (u : UserId) :
    ∃ s', s.addsubuser u = .ok s' ∧ Sound s' ∧ FreesLast s s' := by
  set i := s.pools.length with hi
  set t : Raws := { s with
    pools := s.pools ++ [some ⟨[], []⟩]
    subuser := Function.update s.subuser u (i :: s.subuser u) } with ht
  have hlive : ∀ {j}, Live s j → Live t j := by
    rintro j ⟨p, hp⟩
    exact ⟨p, (List.getElem?_append_left (List.getElem?_eq_some_iff.mp hp).1).trans hp⟩
  have hnew : Live t i := ⟨⟨[], []⟩, by simp [ht, hi]⟩
  have hslots : t.slots = s.slots := by
    simp [slots, ht, held, Slots.all]
  -- the new address is in no list yet
  have hfresh : ∀ v, i ∉ s.subuser v := by
    intro v hv
    obtain ⟨p, hp⟩ := h.listed v i hv
    exact Nat.lt_irrefl _ (List.getElem?_eq_some_iff.mp hp).1
  have hmem : ∀ {v j}, j ∈ t.subuser v ↔ (j = i ∧ v = u) ∨ j ∈ s.subuser v := by
    intro v j
    by_cases hv : v = u
    · subst hv
      simp [ht]
    · simp [ht, hv]
  have hsound : Sound t := by
    refine ⟨hslots ▸ h.counted, ?_, ?_, ?_⟩
    · intro v j hj
      rcases hmem.mp hj with ⟨rfl, -⟩ | hj
      · exact hnew
      · exact hlive (h.listed v j hj)
    · intro v
      by_cases hv : v = u
      · subst hv
        simp only [ht, Function.update_self]
        exact List.nodup_cons.mpr ⟨hfresh v, h.nodup v⟩
      · simp only [ht, Function.update_of_ne hv]
        exact h.nodup v
    · intro v w j hj hj'
      rcases hmem.mp hj with ⟨rfl, rfl⟩ | hj
      · exact (hmem.mp hj').elim (fun hc => hc.2.symm) fun hc => absurd hc (hfresh w)
      · rcases hmem.mp hj' with ⟨rfl, rfl⟩ | hj'
        · rcases hmem.mp hj with ⟨-, rfl⟩ | hj
          · rfl
          · exact absurd hj (hfresh v)
        · exact h.owner v w j hj hj'
  have hend : ∀ {s'}, Grown t s' → Counted s'.refs s'.slots → Sound s' ∧ FreesLast s s' := by
    intro s' hg hc
    refine ⟨hsound.grown hg hc, fun r x hx => ?_⟩
    rw [← hslots]
    exact hg.freesLast r x hx
  cases hl : s.subuser u with
  | nil =>
    refine ⟨t, ?_, hend .refl hsound.counted⟩
    simp [Raws.addsubuser, ht, hi, hl]
  | cons j js =>
    obtain ⟨p, hp⟩ := hlive (h.listed u j (by rw [hl]; exact List.mem_cons_self))
    obtain ⟨rest, hperm, -⟩ := slots_split hp
    have hin : ∀ r ∈ p.low, r ∈ t.slots := fun r hr =>
      hperm.mem_iff.mpr (List.mem_append_left rest (List.mem_append_left p.high hr))
    obtain ⟨s', hs, hg, hc⟩ := foldlM_completes (f := shareRaw i) (l := p.low)
      (fun t' => Grown t t' ∧ Counted t'.refs t'.slots) (fun t' r hr ht' => by
        obtain ⟨s', hs, hg, hc⟩ := shareRaw_grown ht'.2 (ht'.1.slots r (hin r hr))
          ((ht'.1.live i).mpr hnew)
        exact ⟨s', hs, ht'.1.trans hg, hc⟩) ⟨.refl, hsound.counted⟩
    refine ⟨s', ?_, hend hg hc⟩
    rw [← hs]
    simp only [Raws.addsubuser, hl]
    rw [← hl, ← hi, ← ht, pool_eq hp]
    rfl

/-- A release of the slots of `l` leaves those of `rest` counted. -/
theorem Freed.slots (h : Freed l rest s t) (hs : s.slots.Perm (l ++ rest))
    (hheap : s'.heap = t.heap) (hs' : s'.slots.Perm rest) :
    Counted s'.refs s'.slots ∧ FreesLast s s' := by
  have hrefs : s'.refs = t.refs := by
    funext q
    rw [refs, hheap, refs]
  refine ⟨hrefs ▸ h.counted.perm hs'.symm, fun r x hx => ?_⟩
  rw [hheap, hs.mem_iff, hs'.mem_iff, List.mem_append]
  constructor
  · intro hnone
    have hr : r ∈ l ∧ r ∉ rest := by
      by_contra hc
      obtain ⟨y, hy, -⟩ := h.raw hx hc
      rw [hy] at hnone
      simp at hnone
    exact ⟨.inl hr.1, hr.2⟩
  · rintro ⟨hr, hrest⟩
    exact h.freed r (hr.resolve_right hrest) hrest

/-- The queue of raws that the slots of a subuser stand for. -/
def queue (s : Raws) (p : Slots) : Queue := ⟨p.low.filterMap s.rawOf, p.high.filterMap s.rawOf⟩

theorem queue_drain (s : Raws) (p : Slots) :
    (p.high.reverse ++ p.low).filterMap s.rawOf = (s.queue p).drain := by
  simp [queue, Queue.drain, List.filterMap_append, List.filterMap_reverse]

/-- A send writes the queue and releases each of its slots. -/
theorem Sound.sendRaws (h : Sound s) (hp : s.pools[i]? = some (some p)) :
    ∃ s', s.sendRaws i = .ok ((s.queue p).drain, s') ∧ Sound s' ∧ FreesLast s s' := by
  rw [Raws.sendRaws, pool_eq hp, Steps.ok_bind]
  by_cases hz : p.low.length + p.high.length = 0
  · have hlow : p.low = [] := List.length_eq_zero_iff.mp (by omega)
    have hhigh : p.high = [] := List.length_eq_zero_iff.mp (by omega)
    refine ⟨s, ?_, h, Grown.refl.freesLast⟩
    rw [if_pos hz, ← queue_drain, hlow, hhigh]
    rfl
  · obtain ⟨rest, hperm, hset⟩ := slots_split hp
    have hs : s.slots.Perm (p.high.reverse ++ p.low ++ rest) :=
      hperm.trans ((List.perm_append_comm.trans
        ((List.reverse_perm p.high).symm.append_right p.low)).append_right rest)
    obtain ⟨t, ht, hf⟩ := sendLoop_freed (h.counted.perm hs)
    have hpools : (t.setPool i (some ⟨[], []⟩)).pools = (s.setPool i (some ⟨[], []⟩)).pools := by
      rw [setPool_pools, setPool_pools, hf.pools]
    have hslots : (t.setPool i (some ⟨[], []⟩)).slots.Perm rest := by
      rw [Raws.slots, hpools]
      exact hset (some ⟨[], []⟩)
    have hheap : (t.setPool i (some ⟨[], []⟩)).heap = t.heap := rfl
    obtain ⟨hc, hl⟩ := hf.slots hs hheap hslots
    refine ⟨t.setPool i (some ⟨[], []⟩), ?_, ⟨hc, fun u j hj => ?_, ?_, ?_⟩, hl⟩
    · rw [if_neg hz, ht, ← queue_drain]
      rfl
    · rw [Live, hpools]
      exact (live_setPool ⟨p, hp⟩ _).mpr (h.listed u j (hf.subuser ▸ hj))
    · exact fun u => hf.subuser ▸ h.nodup u
    · exact fun u v j hu hv => h.owner u v j (hf.subuser ▸ hu) (hf.subuser ▸ hv)

theorem Sound.delsubuser (h : Sound s) (hi : i ∈ s.subuser u) :
    ∃ s', s.delsubuser u i = .ok s' ∧ Sound s' ∧ FreesLast s s' := by
  obtain ⟨p, hp⟩ := h.listed u i hi
  obtain ⟨rest, hperm, hset⟩ := slots_split hp
  set t : Raws :=
    { s with subuser := Function.update s.subuser u ((s.subuser u).erase i) } with ht
  have hs : t.slots.Perm (p.low ++ p.high ++ rest) := hperm
  have hc : Counted t.refs (p.low ++ (p.high ++ rest)) := by
    rw [← List.append_assoc]
    exact h.counted.perm hs
  obtain ⟨t₁, ht₁, hf₁⟩ := destroyRawPool_freed hc
  obtain ⟨t₂, ht₂, hf₂⟩ := destroyRawPool_freed hf₁.counted
  have hf := hf₁.append hf₂
  have hpools : (t₂.setPool i none).pools = (s.setPool i none).pools := by
    rw [setPool_pools, setPool_pools, hf.pools, ht]
  have hslots : (t₂.setPool i none).slots.Perm rest := by
    rw [Raws.slots, hpools]
    exact hset none
  have hheap : (t₂.setPool i none).heap = t₂.heap := rfl
  obtain ⟨hcount, hl⟩ := hf.slots hs hheap hslots
  have hsub : (t₂.setPool i none).subuser = t.subuser := hf.subuser
  have hmem : ∀ {v j}, j ∈ t.subuser v → j ∈ s.subuser v ∧ j ≠ i := by
    intro v j hj
    by_cases hv : v = u
    · subst hv
      simp only [ht, Function.update_self] at hj
      exact ⟨List.mem_of_mem_erase hj, fun he => (h.nodup v).not_mem_erase (he ▸ hj)⟩
    · simp only [ht, Function.update_of_ne hv] at hj
      exact ⟨hj, fun he => hv (h.owner v u i (he ▸ hj) hi)⟩
  refine ⟨t₂.setPool i none, ?_, ⟨hcount, fun v j hj => ?_, fun v => ?_, fun v w j hj hj' => ?_⟩, hl⟩
  · rw [Raws.delsubuser, pool_eq hp, Steps.ok_bind, ← ht]
    change (t.destroyRawPool p.low >>= fun s => s.destroyRawPool p.high >>= fun s =>
      .ok (s.setPool i none)) = _
    rw [ht₁, Steps.ok_bind, ht₂, Steps.ok_bind]
  · obtain ⟨hold, hne⟩ := hmem (hsub ▸ hj)
    obtain ⟨o, ho⟩ := h.listed v j hold
    refine ⟨o, ?_⟩
    rw [hpools, setPool_pools, List.getElem?_set_ne (Ne.symm hne)]
    exact ho
  · rw [hsub]
    by_cases hv : v = u
    · subst hv
      simp only [ht, Function.update_self]
      exact (h.nodup v).erase i
    · simp only [ht, Function.update_of_ne hv]
      exact h.nodup v
  · rw [hsub] at hj hj'
    exact h.owner v w j (hmem hj).1 (hmem hj').1

theorem live_of_allowed (hlt : i < s.pools.length) (hi : s.pools[i]? ≠ some none) :
    Live s i := by
  rw [List.getElem?_eq_getElem hlt] at hi
  cases hp : s.pools[i] with
  | none => exact absurd (by rw [hp]) hi
  | some p => exact ⟨p, by rw [List.getElem?_eq_getElem hlt, hp]⟩

/-- Every operation completes, and frees a raw exactly with its last slot. -/
theorem Sound.step (h : Sound s) {op : Op} (ha : s.Allowed op) :
    ∃ s', s.step op = .ok s' ∧ Sound s' ∧ FreesLast s s' := by
  cases op with
  | postRawSub raw i => exact h.postRawSub raw (live_of_allowed ha.1 ha.2)
  | postRaw raw u =>
    obtain ⟨s', hs, hp⟩ := (h.posting raw).postRaw (h.listed u)
    exact ⟨s', hs, h.posted hp⟩
  | postRawRestricted raw u sub =>
    obtain ⟨s', hs, hp⟩ := (h.posting raw).postRawRestricted (h.listed u) sub
    exact ⟨s', hs, h.posted hp⟩
  | postRawChannel raw chan =>
    obtain ⟨s', hs, hp⟩ := (h.posting raw).postRawChannel h.listed chan
    exact ⟨s', hs, h.posted hp⟩
  | postRawChannelRestricted raw chan ruser =>
    obtain ⟨s', hs, hp⟩ := (h.posting raw).postRawChannelRestricted h.listed chan ruser
    exact ⟨s', hs, h.posted hp⟩
  | addsubuser u => exact h.addsubuser u
  | sendRaws i =>
    obtain ⟨p, hp⟩ := live_of_allowed ha.1 ha.2
    obtain ⟨s', hs, hsound⟩ := h.sendRaws hp
    refine ⟨s', ?_, hsound⟩
    simp [Raws.step, hs, Except.map]
  | delsubuser u i => exact h.delsubuser ha

theorem sound_of_reach (h : Reach step Allowed init s) : Sound s :=
  h.keeps Sound sound_init fun s op s' hs ha hstep => by
    obtain ⟨t, ht, hsound, -⟩ := hs.step ha
    obtain rfl := Except.ok.inj (hstep.symm.trans ht)
    exact hsound

/-- In every reachable state the counter of a raw in a slot says how many slots hold it. A
`free_raw` on one of them frees it exactly when no other is left, and an operation
completes and frees exactly the raws whose last slot it empties. -/
theorem refcount_slots (h : Reach step Allowed init s) :
    (∀ r ∈ s.slots, ∃ x, s.heap[r]? = some (some x) ∧ max 1 x.refcount = s.slots.count r) ∧
      (∀ r rest, s.slots.Perm (r :: rest) →
        ∃ s', s.freeRaw r = .ok s' ∧ (s'.heap[r]? = some none ↔ r ∉ rest)) ∧
      ∀ op, s.Allowed op → ∃ s', s.step op = .ok s' ∧
        ∀ r x, s.heap[r]? = some (some x) →
          (s'.heap[r]? = some none ↔ r ∈ s.slots ∧ r ∉ s'.slots) := by
  have hs := sound_of_reach h
  refine ⟨fun r hr => ?_, fun r rest hp => ?_, fun op ha => ?_⟩
  · obtain ⟨n, hn, -, hc⟩ := hs.counted r hr
    obtain ⟨x, hx, rfl⟩ := heap_of_refs hn
    exact ⟨x, hx, hc⟩
  · obtain ⟨s', hfree, hf⟩ := freeRaw_freed (hs.counted.perm hp)
    refine ⟨s', hfree, fun hnone hr => ?_, hf.freed r (List.mem_singleton.mpr rfl)⟩
    obtain ⟨n, hn, -⟩ := hf.counted r hr
    obtain ⟨x, hx, -⟩ := heap_of_refs hn
    rw [hx] at hnone
    simp at hnone
  · obtain ⟨s', hstep, -, hl⟩ := hs.step ha
    exact ⟨s', hstep, hl⟩

/-- A raw for one subuser is copied to a second one, another goes to both, and the first
has sent its queue. -/
theorem refcount_slots_copied : ∃ s : Raws, s.slots = [0, 1] ∧
    (∀ r ∈ s.slots, ∃ x, s.heap[r]? = some (some x) ∧ max 1 x.refcount = s.slots.count r) ∧
      (∀ r rest, s.slots.Perm (r :: rest) →
        ∃ s', s.freeRaw r = .ok s' ∧ (s'.heap[r]? = some none ↔ r ∉ rest)) ∧
      ∀ op, s.Allowed op → ∃ s', s.step op = .ok s' ∧
        ∀ r x, s.heap[r]? = some (some x) →
          (s'.heap[r]? = some none ↔ r ∈ s.slots ∧ r ∉ s'.slots) := by
  have hrun : (Steps.runs step Allowed init
      [.addsubuser 0, .postRawSub ⟨[], .lo⟩ 0, .addsubuser 0, .postRaw ⟨[], .hi⟩ 0,
        .sendRaws 0]).map slots = some [0, 1] := by decide
  obtain ⟨s, hs, hslots⟩ := Option.map_eq_some_iff.mp hrun
  exact ⟨s, hslots, refcount_slots (.of_runs .start hs)⟩

end ApeServer.Shared.Raws
