import ApeServer.Lib.KeyedList
import ApeServer.Ticks.Unsigned

/-!
# Identifiers of timers

The nodes of `ticks.c` with their addresses, and `ntimers` as the `unsigned int` it is. A node
is re-armed through `add_timeout`, which takes an identifier that is then given back. The
callbacks run between a call and its return, and do what they like.
-/
namespace ApeServer.Ticks

open Sock (toInt32)
open Steps (Reach)

/-- The address of a node, its `protect` and callback, and which call of `add_timeout` by others
than `process_tick` it goes back to. -/
structure Stamp (φ : Type) where
  addr : ℕ
  serial : ℕ
  isProtected : Bool
  func : φ

/-- A node of the list. -/
abbrev Node (φ : Type) := TicksCallback (Stamp φ)

/-- `g_ape->timers`, with the addresses given out, the identifiers returned, and the node whose
callback runs with its `lastcall`. -/
structure Pending (φ : Type) where
  timers : List (Node φ)
  ntimers : UInt32
  heap : ℕ
  made : List ℕ
  running : Option (ℕ × Bool)

/-- What is done with the timers; `ret` is the return of a callback. -/
inductive IdOp (φ : Type)
  | add (r : Passed φ) (isProtected : Bool)
  | del (identifier : UInt32)
  | tick
  | ret (flag : Bool → Bool)

variable {φ : Type}

/-- The node at an address, and what is behind it. -/
def cut (addr : ℕ) : List (Node φ) → Option (Node φ × List (Node φ))
  | [] => none
  | t :: ts => if t.func.addr = addr then some (t, ts) else cut addr ts

namespace Pending

def init : Pending φ := ⟨[], 0, 0, [], none⟩

/-- `add_timeout`; the new node is at the next address. -/
def addTimeout (s : Pending φ) (need : ℤ) (stamp : Stamp φ) : Pending φ :=
  { s with
    timers := insert ⟨need, need, 1, s.ntimers.toNat, stamp⟩ s.timers
    ntimers := s.ntimers + 1
    heap := s.heap + 1 }

/-- A write through a pointer to a node. -/
def write (s : Pending φ) (addr : ℕ) (f : Node φ → Node φ) : Pending φ :=
  { s with timers := s.timers.map fun t => if t.func.addr = addr then f t else t }

/-- `add_periodical`, or `add_timeout`, and the write of `protect` that follows a call. -/
def addPeriodical (s : Pending φ) (r : Passed φ) (isProtected : Bool) : Pending φ :=
  let addr := s.heap
  let identifier := s.ntimers.toNat
  let s := s.addTimeout r.delta ⟨addr, s.made.length, true, r.func⟩
  let s := s.write addr fun t =>
    { t with times := r.times, func := { t.func with isProtected := isProtected } }
  { s with made := s.made ++ [identifier] }

/-- A node that is called again: a new one, which gets what the old one had. -/
def rearm (s : Pending φ) (t : Node φ) : Pending φ :=
  let addr := s.heap
  let s := s.addTimeout t.ticks_need ⟨addr, t.func.serial, true, t.func.func⟩
  let s := { s with ntimers := s.ntimers - 1 }
  s.write addr fun new =>
    { new with
      identifier := t.identifier
      times := t.times
      func := { new.func with isProtected := t.func.isProtected } }

/-- `--timers->delta <= 0`, and the call of the callback. -/
def check (s : Pending φ) : Pending φ :=
  match s.timers with
  | [] => s
  | t :: ts =>
    let t := { t with delta := toInt32 (t.delta - 1) }
    if t.delta ≤ 0 then
      { s with
        timers := { t with times := left t.times } :: ts
        running := some (t.func.addr, lastcall t.times) }
    else { s with timers := t :: ts }

/-- The body of the loop behind the call; the node is found at its address, unless it was
freed. -/
def finish (s : Pending φ) (addr : ℕ) (lastcall : Bool) : Except Unit (Pending φ) :=
  match cut addr s.timers with
  | none => .error ()
  | some (t, rest) =>
    let s := { s with timers := rest, running := none }
    let s := if lastcall then s else s.rearm t
    .ok { s with timers := Timers.bump s.timers }

/-- `get_timer_identifier`. -/
def getTimerIdentifier (s : Pending φ) (identifier : UInt32) : Option (Node φ) :=
  KeyedList.find TicksCallback.identifier identifier.toNat s.timers

/-- `del_timer_identifier`. -/
def delTimerIdentifier (s : Pending φ) (identifier : UInt32) : Pending φ :=
  { s with timers := KeyedList.erase TicksCallback.identifier identifier.toNat s.timers }

/-- The timer whose `params` `ape_sm_clear_timeout` marks. -/
def clearTimeout (s : Pending φ) (identifier : UInt32) : Option (Node φ) :=
  (s.getTimerIdentifier identifier).filter fun t => !t.func.isProtected

def step (s : Pending φ) : IdOp φ → Except Unit (Pending φ)
  | .add r isProtected => .ok (s.addPeriodical r isProtected)
  | .del identifier => .ok (s.delTimerIdentifier identifier)
  | .tick =>
    match s.running with
    | none => .ok s.check
    | some _ => .error ()
  | .ret flag =>
    match s.running with
    | none => .error ()
    | some (addr, lastcall) => do return (← s.finish addr (flag lastcall)).check

end Pending

/-! ### The marks of a list -/

/-- What a node keeps wherever it is in the list. -/
def marks (l : List (Node φ)) : List (ℕ × Stamp φ) := l.map fun t => (t.identifier, t.func)

variable {s s' : Pending φ} {l ts : List (Node φ)} {t new : Node φ} {r : Passed φ} {b : Bool}
  {addr n heap : ℕ} {ms ms' : List (ℕ × Stamp φ)} {m : ℕ × Stamp φ}

theorem insert_marks (new : Node φ) (l : List (Node φ)) :
    (marks (insert new l)).Perm ((new.identifier, new.func) :: marks l) := by
  have h := (insert_timers new l).map fun e => (e.identifier, e.func)
  rw [List.map_map, List.map_cons, List.map_map] at h
  exact h

theorem marks_bump (l : List (Node φ)) : marks (Timers.bump l) = marks l := by
  cases l <;> rfl

theorem marks_check : marks s.check.timers = marks s.timers ∧ s.check.ntimers = s.ntimers ∧
    s.check.heap = s.heap ∧ s.check.made = s.made := by
  unfold Pending.check
  split
  · exact ⟨rfl, rfl, rfl, rfl⟩
  · next t ts h =>
    dsimp only
    split
    · rw [h]
      exact ⟨rfl, rfl, rfl, rfl⟩
    · rw [h]
      exact ⟨rfl, rfl, rfl, rfl⟩

theorem cut_eq_some (h : cut addr l = some (t, ts)) :
    ∃ front, l = front ++ t :: ts ∧ t.func.addr = addr := by
  induction l with
  | nil => cases h
  | cons u l ih =>
    unfold cut at h
    split at h
    · next he =>
      cases h
      exact ⟨[], rfl, he⟩
    · obtain ⟨front, rfl, ht⟩ := ih h
      exact ⟨u :: front, rfl, ht⟩

/-- A write through a pointer to the node just inserted is one before it is inserted. -/
theorem write_insert {f : Node φ → Node φ}
    (hf : ∀ (t : Node φ) d, f { t with delta := d } = { f t with delta := d })
    (new : Node φ) (hnew : new.func.addr = addr) (hl : ∀ t ∈ l, t.func.addr < addr) :
    (insert new l).map (fun t => if t.func.addr = addr then f t else t) = insert (f new) l := by
  have hdelta (t : Node φ) : (f t).delta = t.delta := by
    have h := congrArg TicksCallback.delta (hf t t.delta)
    exact h
  have hkeep (l' : List (Node φ)) (hl' : ∀ t ∈ l', t.func.addr < addr) :
      l'.map (fun t => if t.func.addr = addr then f t else t) = l' := by
    conv_rhs => rw [← List.map_id l']
    exact List.map_congr_left fun t ht => if_neg (hl' t ht).ne
  induction l generalizing new with
  | nil => simp [insert, hnew]
  | cons t l ih =>
    have ht : t.func.addr ≠ addr := (hl t List.mem_cons_self).ne
    have hl' : ∀ u ∈ l, u.func.addr < addr := fun u hu => hl u (List.mem_cons_of_mem t hu)
    unfold insert
    rw [hdelta]
    split_ifs with h
    · rw [List.map_cons, if_pos hnew, List.map_cons, if_neg ht, hkeep l hl']
    · have hrest := ih { new with delta := toInt32 (new.delta - t.delta) } hnew hl'
      rw [List.map_cons, if_neg ht, hrest, hf]

/-- The marks of the pending timers after `n` calls of `add_timeout`: each timer has the
identifier of its call. -/
structure Known (n heap : ℕ) (ms : List (ℕ × Stamp φ)) : Prop where
  own : ∀ m ∈ ms, m.2.serial < n ∧ m.1 = m.2.serial % 2 ^ 32
  serials : (ms.map fun m => m.2.serial).Nodup
  addrs : ∀ m ∈ ms, m.2.addr < heap

namespace Known

theorem nil : Known (φ := φ) 0 0 [] := ⟨by simp, List.nodup_nil, by simp⟩

theorem perm (h : Known n heap ms) (hp : ms'.Perm ms) : Known n heap ms' :=
  ⟨fun m hm => h.own m (hp.mem_iff.mp hm), (hp.map _).nodup_iff.mpr h.serials,
    fun m hm => h.addrs m (hp.mem_iff.mp hm)⟩

theorem sublist (h : Known n heap ms) (hs : ms'.Sublist ms) : Known n heap ms' :=
  ⟨fun m hm => h.own m (hs.subset hm), h.serials.sublist (hs.map _),
    fun m hm => h.addrs m (hs.subset hm)⟩

/-- A timer that was not in the list, at a new address. -/
theorem cons (h : Known n heap ms) (hm : m.2.serial < n ∧ m.1 = m.2.serial % 2 ^ 32)
    (ha : m.2.addr = heap) (hnew : m.2.serial ∉ ms.map fun m => m.2.serial) :
    Known n (heap + 1) (m :: ms) := by
  refine ⟨?_, List.nodup_cons.mpr ⟨hnew, h.serials⟩, ?_⟩
  · intro m' hm'
    rcases List.mem_cons.mp hm' with rfl | hm'
    · exact hm
    · exact h.own m' hm'
  · intro m' hm'
    rcases List.mem_cons.mp hm' with rfl | hm'
    · omega
    · exact Nat.lt_succ_of_lt (h.addrs m' hm')

theorem more (h : Known n heap ms) : Known (n + 1) heap ms :=
  ⟨fun m hm => ⟨Nat.lt_succ_of_lt (h.own m hm).1, (h.own m hm).2⟩, h.serials, h.addrs⟩

theorem serial_new (h : Known n heap ms) : n ∉ ms.map fun m => m.2.serial := by
  intro hn
  obtain ⟨m, hm, he⟩ := List.mem_map.mp hn
  have := (h.own m hm).1
  omega

end Known

/-! ### The operations -/

/-- The node of `addPeriodical` as it is in the end. -/
def Pending.newTimer (s : Pending φ) (r : Passed φ) (isProtected : Bool) : Node φ :=
  ⟨r.delta, r.delta, r.times, s.ntimers.toNat, ⟨s.heap, s.made.length, isProtected, r.func⟩⟩

theorem addPeriodical_timers (h : ∀ t ∈ s.timers, t.func.addr < s.heap) :
    (s.addPeriodical r b).timers = insert (s.newTimer r b) s.timers := by
  have hw := write_insert (l := s.timers)
    (f := fun t => { t with times := r.times, func := { t.func with isProtected := b } })
    (fun _ _ => rfl) ⟨r.delta, r.delta, 1, s.ntimers.toNat, ⟨s.heap, s.made.length, true, r.func⟩⟩
    rfl h
  simp only [Pending.addPeriodical, Pending.addTimeout, Pending.write, Pending.newTimer]
  dsimp only at hw
  exact hw

theorem rearm_timers (h : ∀ u ∈ s.timers, u.func.addr < s.heap) :
    (s.rearm t).timers =
      insert { t with delta := t.ticks_need, func := { t.func with addr := s.heap } } s.timers :=
  write_insert
    (f := fun new => { new with
      identifier := t.identifier
      times := t.times
      func := { new.func with isProtected := t.func.isProtected } })
    (fun _ _ => rfl) _ rfl h

theorem rearm_ntimers : (s.rearm t).ntimers = s.ntimers := by
  simp [Pending.rearm, Pending.addTimeout, Pending.write]

/-- As many calls, as many identifiers; the one of the next call is their number. -/
structure Counted (s : Pending φ) : Prop where
  ntimers : s.ntimers.toNat = s.made.length % 2 ^ 32
  made : ∀ k, k < s.made.length → s.made[k]? = some (k % 2 ^ 32)
  known : Known s.made.length s.heap (marks s.timers)

theorem Counted.below (h : Counted s) : ∀ t ∈ s.timers, t.func.addr < s.heap :=
  fun t ht => h.known.addrs (t.identifier, t.func)
    (List.mem_map_of_mem (f := fun t : Node φ => (t.identifier, t.func)) ht)

theorem counted_init : Counted (Pending.init : Pending φ) :=
  ⟨rfl, fun k hk => absurd hk (Nat.not_lt_zero k), .nil⟩

theorem Counted.check (h : Counted s) : Counted s.check := by
  obtain ⟨hm, hn, hh, hmade⟩ := marks_check (s := s)
  refine ⟨by rw [hn, hmade]; exact h.ntimers, by rw [hmade]; exact h.made, ?_⟩
  rw [hmade, hh, hm]
  exact h.known

theorem Counted.add (h : Counted s) : Counted (s.addPeriodical r b) := by
  have hlen : (s.addPeriodical r b).made.length = s.made.length + 1 := by
    simp [Pending.addPeriodical, Pending.addTimeout, Pending.write]
  have hnum : (s.addPeriodical r b).ntimers = s.ntimers + 1 := rfl
  have hmade : (s.addPeriodical r b).made = s.made ++ [s.ntimers.toNat] := rfl
  refine ⟨?_, fun k hk => ?_, ?_⟩
  · rw [hnum, hlen, UInt32.toNat_add, h.ntimers]
    simp
  · rw [hlen] at hk
    rw [hmade]
    rcases Nat.lt_or_eq_of_le (Nat.le_of_lt_succ hk) with hlt | rfl
    · rw [List.getElem?_append_left hlt]
      exact h.made k hlt
    · rw [List.getElem?_append_right le_rfl, Nat.sub_self, h.ntimers]
      rfl
  · rw [hlen]
    rw [addPeriodical_timers h.below]
    refine Known.perm ?_ (insert_marks _ _)
    exact h.known.more.cons ⟨Nat.lt_succ_self _, h.ntimers⟩ rfl h.known.serial_new

theorem Counted.del (h : Counted s) (identifier : UInt32) :
    Counted (s.delTimerIdentifier identifier) :=
  ⟨h.ntimers, h.made, h.known.sublist (KeyedList.erase_sublist.map _)⟩

/-- The call is over: the node is gone, or is another one with the same identifier. -/
theorem Counted.finish (h : Counted s) (hl : s.finish addr b = .ok s') : Counted s' ∧
    s'.made = s.made ∧ ∃ t ∈ s.timers, t.func.addr = addr ∧
      (b = false → (t.identifier, { t.func with addr := s.heap }) ∈ marks s'.timers) := by
  unfold Pending.finish at hl
  split at hl
  · cases hl
  · next t rest hcut =>
    cases hl
    obtain ⟨front, hl, haddr⟩ := cut_eq_some hcut
    have hmarks : marks s.timers = marks front ++ (t.identifier, t.func) :: marks rest := by
      rw [hl, marks, List.map_append]
      rfl
    have hknown := h.known
    rw [hmarks] at hknown
    have hrest : Known s.made.length s.heap (marks rest) :=
      hknown.sublist ((List.sublist_cons_self ..).trans (List.sublist_append_right ..))
    have ht : t ∈ s.timers := by simp [hl]
    cases b with
    | true =>
      refine ⟨⟨h.ntimers, h.made, ?_⟩, rfl, t, ht, haddr, fun hb => by cases hb⟩
      rw [marks_bump]
      exact hrest
    | false =>
      let gone : Pending φ := { s with timers := rest, running := none }
      have hperm : (marks (gone.rearm t).timers).Perm
          ((t.identifier, { t.func with addr := s.heap }) :: marks rest) := by
        have hbelow : ∀ u ∈ rest, u.func.addr < s.heap := by
          intro u hu
          apply h.below
          rw [hl]
          exact List.mem_append_right _ (List.mem_cons_of_mem _ hu)
        rw [rearm_timers (s := gone) hbelow]
        exact insert_marks _ _
      refine ⟨⟨?_, h.made, ?_⟩, rfl, t, ht, haddr, fun _ => ?_⟩
      · exact (congrArg UInt32.toNat (rearm_ntimers (s := gone))).trans h.ntimers
      · refine Known.perm (Known.cons hrest ?_ rfl ?_) ((marks_bump _).symm ▸ hperm)
        · have hown := hknown.own (t.identifier, t.func) (by simp)
          exact hown
        · -- the timer was in the list, and is not there twice
          have hnodup := hknown.serials
          rw [List.map_append, List.map_cons] at hnodup
          exact (List.nodup_cons.mp (List.nodup_append.mp hnodup).2.1).1
      · rw [marks_bump]
        exact hperm.mem_iff.mpr List.mem_cons_self

/-- What a step can be. -/
theorem step_cases {op : IdOp φ} (hl : s.step op = .ok s') :
    (∃ r b, s' = s.addPeriodical r b) ∨ (∃ identifier, s' = s.delTimerIdentifier identifier) ∨
      s' = s.check ∨ ∃ addr b u, s.finish addr b = .ok u ∧ s' = u.check := by
  cases op with
  | add r b =>
    cases hl
    exact .inl ⟨r, b, rfl⟩
  | del identifier =>
    cases hl
    exact .inr (.inl ⟨identifier, rfl⟩)
  | tick =>
    cases hrun : s.running with
    | none =>
      simp only [Pending.step, hrun] at hl
      cases hl
      exact .inr (.inr (.inl rfl))
    | some p =>
      simp only [Pending.step, hrun] at hl
      cases hl
  | ret flag =>
    cases hrun : s.running with
    | none =>
      simp only [Pending.step, hrun] at hl
      cases hl
    | some p =>
      simp only [Pending.step, hrun] at hl
      obtain ⟨u, hu, hl⟩ := Steps.bind_ok hl
      cases hl
      exact .inr (.inr (.inr ⟨_, _, u, hu, rfl⟩))

theorem Counted.step (h : Counted s) {op : IdOp φ} (hl : s.step op = .ok s') : Counted s' := by
  rcases step_cases hl with ⟨r, b, rfl⟩ | ⟨identifier, rfl⟩ | rfl | ⟨addr, b, u, hu, rfl⟩
  · exact h.add
  · exact h.del identifier
  · exact h.check
  · exact (h.finish hu).1.check

/-! ### Runs -/

theorem Counted.identifier (h : Counted s) (ht : t ∈ s.timers) :
    s.made[t.func.serial]? = some t.identifier := by
  have hmem : (t.identifier, t.func) ∈ marks s.timers :=
    List.mem_map_of_mem (f := fun t : Node φ => (t.identifier, t.func)) ht
  obtain ⟨hlt, hid⟩ := h.known.own _ hmem
  rw [h.made _ hlt]
  exact congrArg some hid.symm

/-- With fewer calls than there are identifiers, no two calls return the same. -/
theorem Counted.made_nodup (h : Counted s) (hn : s.made.length < 2 ^ 32) : s.made.Nodup := by
  refine List.nodup_iff_getElem?_ne_getElem?.mpr fun i j hij hj he => ?_
  rw [h.made i (by omega), h.made j hj, Option.some.injEq] at he
  omega

theorem Counted.nodup (h : Counted s) (hn : s.made.length < 2 ^ 32) :
    (s.timers.map TicksCallback.identifier).Nodup := by
  have hserials := h.known.serials
  have hsame : s.timers.map TicksCallback.identifier =
      (marks s.timers).map fun m => m.2.serial := by
    rw [marks, List.map_map]
    refine List.map_congr_left fun t ht => ?_
    obtain ⟨hlt, hid⟩ := h.known.own (t.identifier, t.func) (List.mem_map_of_mem ht)
    exact hid.trans (Nat.mod_eq_of_lt (by omega))
  rw [hsame]
  exact hserials

/-- An identifier leads to the timer it was returned for, while that is in the list. -/
theorem Counted.getTimerIdentifier (h : Counted s) (hn : s.made.length < 2 ^ 32) {k : ℕ}
    {identifier : UInt32} (hk : s.made[k]? = some identifier.toNat) (t : Node φ) :
    s.getTimerIdentifier identifier = some t ↔ t ∈ s.timers ∧ t.func.serial = k := by
  have hlt : k < s.made.length := (List.getElem?_eq_some_iff.mp hk).1
  have hid : identifier.toNat = k := by
    rw [h.made k hlt, Option.some.injEq] at hk
    omega
  have hserial : ∀ u ∈ s.timers, u.identifier = u.func.serial := by
    intro u hu
    obtain ⟨hu', he⟩ := h.known.own (u.identifier, u.func) (List.mem_map_of_mem hu)
    exact he.trans (Nat.mod_eq_of_lt (by omega))
  constructor
  · intro hfind
    obtain ⟨ht, he⟩ := KeyedList.find_eq_some hfind
    exact ⟨ht, by rw [← hserial t ht, he, hid]⟩
  · rintro ⟨ht, he⟩
    have hkey : t.identifier = identifier.toNat := by rw [hserial t ht, he, hid]
    exact KeyedList.find_of_mem (h.nodup hn) ht hkey

/-- In every state a run with fewer calls of `add_timeout` than there are identifiers reaches,
also while a callback runs: the pending timers have different identifiers, each the one its call
returned, no two calls returned the same, the identifier of a call leads to its timer or to
nothing, and a timer that is called again has the identifier it had. -/
theorem identifiers_kept (h : Reach Pending.step (fun _ _ => True) Pending.init s)
    (hn : s.made.length < 2 ^ 32) :
    (s.timers.map TicksCallback.identifier).Nodup ∧ s.made.Nodup ∧
    (∀ t ∈ s.timers, s.made[t.func.serial]? = some t.identifier) ∧
    (∀ (k : ℕ) (identifier : UInt32), s.made[k]? = some identifier.toNat → ∀ t,
      (s.getTimerIdentifier identifier = some t ↔ t ∈ s.timers ∧ t.func.serial = k) ∧
      (s.clearTimeout identifier = some t ↔
        t ∈ s.timers ∧ t.func.serial = k ∧ t.func.isProtected = false)) ∧
    ∀ flag addr lastcall s', s.step (.ret flag) = .ok s' → s.running = some (addr, lastcall) →
      flag lastcall = false → s'.made = s.made ∧ ∃ t ∈ s.timers, t.func.addr = addr ∧
        ∃ t' ∈ s'.timers, t'.identifier = t.identifier ∧ t'.func.serial = t.func.serial ∧
          t'.func.isProtected = t.func.isProtected := by
  have hc : Counted s := h.keeps Counted counted_init fun _ _ _ h _ hl => h.step hl
  refine ⟨hc.nodup hn, hc.made_nodup hn, fun t ht => hc.identifier ht,
    fun k identifier hk t => ⟨hc.getTimerIdentifier hn hk t, ?_⟩, ?_⟩
  · rw [Pending.clearTimeout, Option.filter_eq_some_iff, hc.getTimerIdentifier hn hk, and_assoc,
      Bool.not_eq_true']
  intro flag addr lastcall s' hl hrun hflag
  simp only [Pending.step, hrun] at hl
  obtain ⟨u, hu, hl⟩ := Steps.bind_ok hl
  cases hl
  obtain ⟨-, hmade, t, ht, haddr, hkept⟩ := hc.finish hu
  obtain ⟨hmarks, -, -, hmade'⟩ := marks_check (s := u)
  refine ⟨hmade'.trans hmade, t, ht, haddr, ?_⟩
  have hmem := hkept hflag
  rw [← hmarks] at hmem
  obtain ⟨t', ht', he⟩ := List.mem_map.mp hmem
  obtain ⟨hid, hfunc⟩ := Prod.mk.inj he
  exact ⟨t', ht', hid, by rw [hfunc], by rw [hfunc]⟩

/-- A periodical is called and adds a timer, which is deleted before another one is added. -/
def addsAndDeletes : List (IdOp Unit) :=
  [.add ⟨1, 0, ()⟩ false, .tick, .add ⟨5, 1, ()⟩ true, .ret id, .del 1, .add ⟨7, 1, ()⟩ true]

theorem identifiers_kept_three : ∃ s, Steps.runs Pending.step (fun _ _ => True)
      (Pending.init : Pending Unit) addsAndDeletes = some s ∧
    s.made = [0, 1, 2] ∧ s.timers.map TicksCallback.identifier = [0, 2] ∧ s.made.Nodup := by
  have h : ((Steps.runs Pending.step (fun _ _ => True) (Pending.init : Pending Unit)
      addsAndDeletes).map fun s => (s.made, s.timers.map TicksCallback.identifier)) =
      some ([0, 1, 2], [0, 2]) := by decide +kernel
  obtain ⟨s, hs, h⟩ := Option.map_eq_some_iff.mp h
  obtain ⟨hmade, hids⟩ := Prod.mk.inj h
  have hn : s.made.length < 2 ^ 32 := by
    rw [hmade]
    decide
  exact ⟨s, hs, hmade, hids, (identifiers_kept (.of_runs .start hs) hn).2.1⟩

end ApeServer.Ticks
