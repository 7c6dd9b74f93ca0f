import ApeServer.Ticks.Identifiers

/-!
# Ticks with and without addresses

`process_tick` keeps a pointer to a node over the call of its callback. With fewer timers than
there are identifiers this is the tick of `Table`, which looks the node up by its identifier.
-/
namespace ApeServer.Ticks

open Sock (toInt32)
open Steps (Reach runs)

variable {φ : Type} {s s' : Pending φ} {l ts : List (Node φ)} {t u : Node φ} {r : Passed φ}
  {a : Reply φ} {b : Bool} {addr : ℕ}

/-- A node as `Table` has it. -/
def plain (t : Node φ) : TicksCallback φ :=
  { ticks_need := t.ticks_need, delta := t.delta, times := t.times, identifier := t.identifier,
    func := t.func.func }

def Pending.table (s : Pending φ) : Table φ := ⟨s.timers.map plain, s.ntimers.toNat⟩

theorem map_plain_insert (new : Node φ) (l : List (Node φ)) :
    (insert new l).map plain = insert (plain new) (l.map plain) := by
  induction l generalizing new with
  | nil => rfl
  | cons t l ih =>
    unfold insert
    by_cases h : new.delta ≤ t.delta
    · rw [if_pos h]
      exact (if_pos h).symm
    · rw [if_neg h, List.map_cons, ih]
      exact (if_neg h).symm

theorem map_plain_bump (l : List (Node φ)) :
    (Timers.bump l).map plain = Timers.bump (l.map plain) := by
  cases l <;> rfl

/-- But for the delta, a node is what `insert` leaves alone. -/
theorem plain_of_timer (h : t.timer = u.timer) (d : ℤ) :
    { plain t with delta := d } = { plain u with delta := d } := by
  have hneed : t.ticks_need = u.ticks_need := congrArg Entry.ticks_need h
  have htimes : t.times = u.times := congrArg Entry.times h
  have hid : t.identifier = u.identifier := congrArg Entry.identifier h
  have hfunc : t.func = u.func := congrArg Entry.func h
  simp [plain, hneed, htimes, hid, hfunc]

/-- Every node is at an address of its own. -/
structure Placed (s : Pending φ) : Prop where
  counted : Counted s
  apart : (s.timers.map fun t => t.func.addr).Nodup

theorem addrs_of_timers {l' : List (Node φ)}
    (h : (l.map TicksCallback.timer).Perm (l'.map TicksCallback.timer)) :
    (l.map fun t => t.func.addr).Perm (l'.map fun t => t.func.addr) := by
  have ha := h.map fun e => e.func.addr
  rw [List.map_map, List.map_map] at ha
  exact ha

theorem placed_init : Placed (Pending.init : Pending φ) := ⟨counted_init, List.nodup_nil⟩

/-- A node at the next address is put in the list. -/
theorem apart_insert {heap : ℕ} (hl : ∀ t ∈ l, t.func.addr < heap)
    (h : (l.map fun t => t.func.addr).Nodup) (hu : u.func.addr = heap) :
    ((insert u l).map fun t => t.func.addr).Nodup := by
  have hperm : ((insert u l).map fun t => t.func.addr).Perm ((u :: l).map fun t => t.func.addr) :=
    addrs_of_timers (insert_timers u l)
  rw [hperm.nodup_iff, List.map_cons, List.nodup_cons]
  refine ⟨fun hmem => ?_, h⟩
  obtain ⟨t, ht, he⟩ := List.mem_map.mp hmem
  have := hl t ht
  omega

theorem Placed.add (h : Placed s) : Placed (s.addPeriodical r b) := by
  refine ⟨h.counted.add, ?_⟩
  rw [addPeriodical_timers h.counted.below]
  exact apart_insert h.counted.below h.apart rfl

theorem timers_check : s.check.timers.map TicksCallback.identifier =
    s.timers.map TicksCallback.identifier ∧
    (s.check.timers.map fun t => t.func.addr) = s.timers.map fun t => t.func.addr := by
  unfold Pending.check
  split
  · exact ⟨rfl, rfl⟩
  · next t ts h =>
    dsimp only
    split <;> rw [h] <;> exact ⟨rfl, rfl⟩

theorem Placed.check (h : Placed s) : Placed s.check := by
  refine ⟨h.counted.check, ?_⟩
  rw [timers_check.2]
  exact h.apart

theorem Placed.finish (h : Placed s) (hl : s.finish addr b = .ok s') : Placed s' := by
  refine ⟨(h.counted.finish hl).1, ?_⟩
  unfold Pending.finish at hl
  split at hl
  · cases hl
  · next t rest hcut =>
    cases hl
    obtain ⟨front, htimers, -⟩ := cut_eq_some hcut
    have hsub : (t :: rest).Sublist s.timers := by
      rw [htimers]
      exact List.sublist_append_right ..
    have hrest : (rest.map fun t => t.func.addr).Nodup :=
      h.apart.sublist (((List.sublist_cons_self t rest).trans hsub).map _)
    have hbump (l : List (Node φ)) :
        ((Timers.bump l).map fun t => t.func.addr) = l.map fun t => t.func.addr := by
      cases l <;> rfl
    rw [hbump]
    cases b with
    | true => exact hrest
    | false =>
      have hbelow : ∀ u ∈ rest, u.func.addr < s.heap :=
        fun u hu => h.counted.below u (hsub.subset (List.mem_cons_of_mem _ hu))
      have hrearm := rearm_timers (s := { s with timers := rest, running := none }) (t := t) hbelow
      rw [if_neg (by decide), hrearm]
      exact apart_insert hbelow hrest rfl

theorem Placed.del (h : Placed s) (identifier : UInt32) :
    Placed (s.delTimerIdentifier identifier) :=
  ⟨h.counted.del identifier, h.apart.sublist (KeyedList.erase_sublist.map _)⟩

theorem Placed.step {op : IdOp φ} (h : Placed s) (hl : s.step op = .ok s') : Placed s' := by
  rcases step_cases hl with ⟨r, b, rfl⟩ | ⟨identifier, rfl⟩ | rfl | ⟨addr, b, u, hu, rfl⟩
  · exact h.add
  · exact h.del identifier
  · exact h.check
  · exact (h.finish hu).check

theorem placed_reach (h : Reach Pending.step (fun _ _ => True) Pending.init s) : Placed s :=
  h.keeps Placed placed_init fun _ _ _ h _ hl => h.step hl

/-! ### The operations on the table -/

theorem addPeriodical_table (h : Counted s) (hn : s.made.length + 1 < 2 ^ 32) :
    (s.addPeriodical r b).table = s.table.addTimer r := by
  have hnum : ((s.addPeriodical r b).ntimers).toNat = s.ntimers.toNat + 1 := by
    have hadd : (s.addPeriodical r b).ntimers = s.ntimers + 1 := rfl
    have hone : (1 : UInt32).toNat = 1 := rfl
    have hcount := h.ntimers
    rw [hadd, UInt32.toNat_add, hone]
    exact Nat.mod_eq_of_lt (by omega)
  rw [Pending.table, addPeriodical_timers h.below, hnum, map_plain_insert]
  simp only [plain, Pending.newTimer, Table.addTimer, Passed.node, Pending.table]

/-- The node at an address, found by its identifier. -/
theorem next_of_cut (h : cut addr l = some (t, ts))
    (hids : (l.map TicksCallback.identifier).Nodup) :
    Timers.next t.identifier (l.map plain) = ts.map plain := by
  induction l with
  | nil => cases h
  | cons u l ih =>
    rw [List.map_cons, List.nodup_cons] at hids
    unfold cut at h
    split at h
    · cases h
      exact if_pos rfl
    · obtain ⟨front, rfl, -⟩ := cut_eq_some h
      have hne : (plain u).identifier ≠ t.identifier := by
        intro he
        apply hids.1
        have hu : u.identifier = t.identifier := he
        simp [hu]
      rw [List.map_cons, Timers.next, if_neg hne]
      exact ih h hids.2

theorem cut_of_mem (hu : u ∈ l) (h : (l.map fun t => t.func.addr).Nodup) :
    ∃ rest, cut u.func.addr l = some (u, rest) := by
  induction l with
  | nil => cases hu
  | cons t l ih =>
    rw [List.map_cons, List.nodup_cons] at h
    rcases List.mem_cons.mp hu with rfl | hu
    · exact ⟨l, if_pos rfl⟩
    · have hne : t.func.addr ≠ u.func.addr := fun he =>
        h.1 (List.mem_map.mpr ⟨u, hu, he.symm⟩)
      obtain ⟨rest, hrest⟩ := ih hu h.2
      exact ⟨rest, (if_neg hne).trans hrest⟩

theorem bump_table (s : Pending φ) :
    Pending.table { s with timers := Timers.bump s.timers } =
      { timers := Timers.bump s.table.timers, ntimers := s.table.ntimers } := by
  rw [Pending.table, map_plain_bump]
  rfl

/-- What follows the call of the node that was `t`. -/
theorem finish_table (h : Placed s) (hn : s.made.length < 2 ^ 32)
    (ht : t.timer ∈ s.timers.map TicksCallback.timer) :
    ∃ s', s.finish t.func.addr b = .ok s' ∧ s'.running = none ∧ s'.made = s.made ∧
      s'.table =
        { timers := Timers.bump
            (if b then Timers.next t.identifier s.table.timers
            else insert { plain t with delta := t.ticks_need }
              (Timers.next t.identifier s.table.timers))
          ntimers := s.table.ntimers } := by
  obtain ⟨u, hu, he⟩ := List.mem_map.mp ht
  have haddr : u.func.addr = t.func.addr := congrArg (fun e => e.func.addr) he
  have hid : u.identifier = t.identifier := congrArg Entry.identifier he
  have hneed : u.ticks_need = t.ticks_need := congrArg Entry.ticks_need he
  obtain ⟨rest, hcut⟩ := cut_of_mem hu h.apart
  rw [haddr] at hcut
  have hnext : Timers.next t.identifier s.table.timers = rest.map plain := by
    rw [← hid]
    exact next_of_cut hcut (h.counted.nodup hn)
  rw [hnext]
  unfold Pending.finish
  rw [hcut]
  refine ⟨_, rfl, ?_, ?_, ?_⟩
  · cases b <;> rfl
  · cases b <;> rfl
  · cases b with
    | true => exact bump_table { s with timers := rest, running := none }
    | false =>
      have hbelow : ∀ v ∈ rest, v.func.addr < s.heap := by
        obtain ⟨front, htimers, -⟩ := cut_eq_some hcut
        intro v hv
        apply h.counted.below
        rw [htimers]
        exact List.mem_append_right _ (List.mem_cons_of_mem _ hv)
      have hplain : plain { u with delta := u.ticks_need, func := { u.func with addr := s.heap } } =
          { plain t with delta := t.ticks_need } := by
        rw [← hneed, ← plain_of_timer he]
        rfl
      have hrearm : (Pending.rearm { s with timers := rest, running := none } u).table =
          { timers := insert { plain t with delta := t.ticks_need } (rest.map plain)
            ntimers := s.table.ntimers } := by
        rw [Pending.table, rearm_timers hbelow, rearm_ntimers, map_plain_insert, hplain]
        rfl
      refine (bump_table _).trans ?_
      rw [if_neg (by decide), hrearm]
      rfl

/-! ### Ticks -/

/-- What the calls of a tick do, after the call of the first. -/
def replyOps (replies : List (Reply φ)) : List (IdOp φ) :=
  replies.flatMap fun a => a.adds.map (fun r => .add r true) ++ [.ret a.flag]

/-- How many timers the calls add. -/
def addsOf (replies : List (Reply φ)) : ℕ := (replies.map fun a => a.adds.length).sum

theorem adds_table (adds : List (Passed φ)) (h : Placed s)
    (hn : s.made.length + adds.length < 2 ^ 32) :
    ∃ s', runs Pending.step (fun _ _ => True) s (adds.map fun r => .add r true) = some s' ∧
      Placed s' ∧ s'.table = adds.foldl Table.addTimer s.table ∧
      s'.made.length = s.made.length + adds.length ∧ s'.running = s.running ∧
      ∀ e ∈ s.timers.map TicksCallback.timer, e ∈ s'.timers.map TicksCallback.timer := by
  induction adds generalizing s with
  | nil => exact ⟨s, rfl, h, rfl, rfl, rfl, fun _ he => he⟩
  | cons r adds ih =>
    rw [List.length_cons] at hn
    have hmade : (s.addPeriodical r true).made.length = s.made.length + 1 := by
      have happend : (s.addPeriodical r true).made = s.made ++ [s.ntimers.toNat] := rfl
      rw [happend, List.length_append, List.length_singleton]
    obtain ⟨s', hruns, hs', htable, hlen, hrunning, hstay⟩ :=
      ih (s := s.addPeriodical r true) h.add (by omega)
    refine ⟨s', ?_, hs', ?_, by rw [List.length_cons]; omega, hrunning, fun e he => ?_⟩
    · rw [List.map_cons, runs, if_pos trivial]
      exact hruns
    · rw [htable, addPeriodical_table h.counted (by omega), List.foldl_cons]
    · apply hstay
      rw [addPeriodical_timers h.counted.below, (insert_timers _ _).mem_iff]
      exact List.mem_cons_of_mem _ he

theorem check_due (hl : s.timers = t :: ts) (hdue : toInt32 (t.delta - 1) ≤ 0) :
    s.check =
      { s with
        timers := { t with delta := toInt32 (t.delta - 1), times := left t.times } :: ts
        running := some (t.func.addr, lastcall t.times) } := by
  unfold Pending.check
  rw [hl]
  exact if_pos hdue

theorem tickTimers_due (hl : s.timers = t :: ts) (hdue : toInt32 (t.delta - 1) ≤ 0) :
    s.table.tickTimers [] = none ∧ ∀ a replies, s.table.tickTimers (a :: replies) =
      (s.table.callTimer a { plain t with delta := toInt32 (t.delta - 1) }
        (ts.map plain)).tickTimers replies := by
  have htable : s.table.timers = plain t :: ts.map plain := by rw [Pending.table, hl]; rfl
  constructor
  · unfold Table.tickTimers
    rw [htable]
    exact if_pos hdue
  · intro a replies
    conv_lhs => unfold Table.tickTimers
    rw [htable]
    exact if_pos hdue

/-- Where no call is due the first node has one tick less to wait. -/
theorem check_idle (replies : List (Reply φ)) (hrun : s.running = none)
    (h : ∀ t ts, s.timers = t :: ts → ¬ toInt32 (t.delta - 1) ≤ 0) :
    s.check.running = none ∧ s.table.tickTimers replies = some s.check.table := by
  cases hl : s.timers with
  | nil =>
    have hcheck : s.check = s := by
      unfold Pending.check
      rw [hl]
    have htable : s.table.timers = [] := by rw [Pending.table, hl]; rfl
    rw [hcheck]
    refine ⟨hrun, ?_⟩
    unfold Table.tickTimers
    rw [htable]
  | cons t ts =>
    have hidle := h t ts hl
    have hcheck : s.check =
        { s with timers := { t with delta := toInt32 (t.delta - 1) } :: ts } := by
      unfold Pending.check
      rw [hl]
      exact if_neg hidle
    have htable : s.table.timers = plain t :: ts.map plain := by rw [Pending.table, hl]; rfl
    rw [hcheck]
    refine ⟨hrun, ?_⟩
    unfold Table.tickTimers
    rw [htable]
    exact if_neg hidle

/-- A call in a tick, from where its node is found due to the next node. -/
theorem call_table (h : Placed s) (hn : s.made.length + a.adds.length < 2 ^ 32)
    (hl : s.timers = t :: ts) (hdue : toInt32 (t.delta - 1) ≤ 0) :
    ∃ s', runs Pending.step (fun _ _ => True) s.check (replyOps [a]) = some s'.check ∧ Placed s' ∧
      s'.running = none ∧ s'.made.length = s.made.length + a.adds.length ∧
      s'.table =
        s.table.callTimer a { plain t with delta := toInt32 (t.delta - 1) } (ts.map plain) := by
  have hcheck := check_due hl hdue
  obtain ⟨s₂, hadds, hs₂, htable₂, hlen₂, hrun₂, hstay⟩ :=
    adds_table a.adds h.check (by rw [hcheck]; exact hn)
  have hmem : ({ t with delta := toInt32 (t.delta - 1), times := left t.times } : Node φ).timer ∈
      s.check.timers.map TicksCallback.timer := by
    rw [hcheck]
    exact List.mem_cons_self
  obtain ⟨s₃, hfinish, hrun₃, hmade₃, htable₃⟩ := finish_table (b := a.flag (lastcall t.times)) hs₂
    (by rw [hlen₂, hcheck]; exact hn) (hstay _ hmem)
  refine ⟨s₃, ?_, hs₂.finish hfinish, hrun₃, ?_, ?_⟩
  · rw [replyOps, List.flatMap_singleton]
    refine Steps.runs_trans hadds ?_
    have hret : s₂.step (.ret a.flag) = .ok s₃.check := by
      have hrunning : s₂.running = some (t.func.addr, lastcall t.times) := by rw [hrun₂, hcheck]
      simp only [Pending.step, hrunning, hfinish]
      rfl
    rw [runs, if_pos trivial, hret]
    rfl
  · rw [hmade₃, hlen₂, hcheck]
  · rw [htable₃, htable₂, hcheck]
    rfl

/-- The tick from `--timers->delta` on, with the calls it comes to. -/
theorem check_table {replies : List (Reply φ)} {T : Table φ} (h : Placed s)
    (hrun : s.running = none) (hn : s.made.length + addsOf replies < 2 ^ 32)
    (hT : s.table.tickTimers replies = some T) :
    ∃ used s', used <+: replies ∧
      runs Pending.step (fun _ _ => True) s.check (replyOps used) = some s' ∧
      Placed s' ∧ s'.running = none ∧ s'.table = T := by
  induction replies generalizing s with
  | nil =>
    have hidle : ∀ t ts, s.timers = t :: ts → ¬ toInt32 (t.delta - 1) ≤ 0 := by
      intro t ts hl hdue
      rw [(tickTimers_due hl hdue).1] at hT
      cases hT
    obtain ⟨hrun', hT'⟩ := check_idle [] hrun hidle
    rw [hT', Option.some.injEq] at hT
    exact ⟨[], s.check, List.prefix_refl _, rfl, h.check, hrun', hT⟩
  | cons a replies ih =>
    by_cases hidle : ∀ t ts, s.timers = t :: ts → ¬ toInt32 (t.delta - 1) ≤ 0
    · obtain ⟨hrun', hT'⟩ := check_idle (a :: replies) hrun hidle
      rw [hT', Option.some.injEq] at hT
      exact ⟨[], s.check, List.nil_prefix, rfl, h.check, hrun', hT⟩
    · push Not at hidle
      obtain ⟨t, ts, hl, hdue⟩ := hidle
      have hadds : addsOf (a :: replies) = a.adds.length + addsOf replies := by
        rw [addsOf, List.map_cons, List.sum_cons]
        rfl
      obtain ⟨s₁, hcall, hs₁, hrun₁, hlen₁, htable₁⟩ :=
        call_table (a := a) h (by omega) hl hdue
      have hrest : s₁.table.tickTimers replies = some T := by
        rw [htable₁, ← (tickTimers_due hl hdue).2]
        exact hT
      obtain ⟨used, s', hused, hruns, hs', hrun', hT'⟩ := ih hs₁ hrun₁ (by omega) hrest
      refine ⟨a :: used, s', List.cons_prefix_cons.mpr ⟨rfl, hused⟩, ?_, hs', hrun', hT'⟩
      have hops : replyOps (a :: used) = replyOps [a] ++ replyOps used := by
        rw [replyOps, replyOps, replyOps, List.flatMap_singleton, List.flatMap_cons]
      rw [hops]
      exact Steps.runs_trans hcall hruns

/-- In every state a run reaches between two ticks, the tick of the table is one of the nodes
with their addresses, which comes to as many of the calls as are due. -/
theorem tick_table {replies : List (Reply φ)} {T : Table φ}
    (h : Reach Pending.step (fun _ _ => True) Pending.init s) (hrun : s.running = none)
    (hn : s.made.length + addsOf replies < 2 ^ 32) (hT : s.table.tickTimers replies = some T) :
    ∃ used s', used <+: replies ∧
      runs Pending.step (fun _ _ => True) s (.tick :: replyOps used) = some s' ∧
      s'.running = none ∧ s'.table = T := by
  obtain ⟨used, s', hused, hruns, -, hs'⟩ := check_table (placed_reach h) hrun hn hT
  refine ⟨used, s', hused, ?_, hs'⟩
  have htick : s.step .tick = .ok s.check := by simp only [Pending.step, hrun]
  rw [runs, if_pos trivial, htick]
  exact hruns

end ApeServer.Ticks
