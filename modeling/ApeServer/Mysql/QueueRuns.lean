import ApeServer.Mysql.MysqlQueue
import ApeServer.Lib.LinkedQueue
import Mathlib.Logic.Relation

/-!
# Every query is sent and answered once

The queries pushed so far are those answered, the one in flight and those that wait in
the queue, in this order. Once the database is selected a query waits only while another
is in flight or a callback runs.
-/
namespace ApeServer.Mysql

open Sock (Bytes)
open LinkedQueue (Queue)

variable {κ : Type} {send : ℕ → Job κ → Answer} {s s' : MysqlData κ} {j : Job κ}
  {flight waiting : List (Job κ)}

/-- The entry of `j` still holds what was pushed. -/
def Holds (s : MysqlData κ) (j : Job κ) : Prop :=
  ∃ n, s.entries j.id = some ⟨n, j.query, j.callback⟩

def Frame.queue : Frame → Option ℕ
  | .callback queue => some queue
  | _ => none

/-- The entries whose callbacks run. -/
def running (stack : List Frame) : List ℕ := stack.filterMap Frame.queue

/-- What is pushed, sent and answered, and the entries in memory, agree. -/
structure Books (s : MysqlData κ) (flight waiting : List (Job κ)) : Prop where
  pushed_eq : s.pushed = s.sent ++ waiting
  sent_eq : s.sent = s.called.map Prod.fst ++ flight
  once : (s.pushed.map Job.id).Nodup
  minted : ∀ j ∈ s.pushed, j.id < s.fresh
  fresh : ∀ q, s.entries q ≠ none → q < s.fresh
  queue : Queue s.next s.head s.foot (waiting.map Job.id)
  holds : ∀ j ∈ flight ++ waiting, Holds s j
  live : ∀ q ∈ running s.stack, s.entries q ≠ none
  distinct : (running s.stack ++ (flight ++ waiting).map Job.id).Nodup

/-- The record keeping does not depend on the fields that steer the handlers. -/
theorem Books.steer (h : Books s flight waiting) (state : SqlState)
    (onSuccess : Option OnSuccess) (data : Option ℕ) (jsmysql callIt selected : Bool) :
    Books { s with state, onSuccess, data, jsmysql, callIt, selected } flight waiting :=
  ⟨h.pushed_eq, h.sent_eq, h.once, h.minted, h.fresh, h.queue, h.holds, h.live, h.distinct⟩

/-- A call that is not one of a query's callback changes nothing in the books. -/
theorem Books.frames (h : Books s flight waiting) (stack : List Frame)
    (hs : running stack = running s.stack) : Books { s with stack } flight waiting := by
  refine ⟨h.pushed_eq, h.sent_eq, h.once, h.minted, h.fresh, h.queue, h.holds, ?_, ?_⟩
  · exact fun q hq => h.live q (hs ▸ hq)
  · rw [hs]
    exact h.distinct

/-- `j` is handed to mysac. -/
def sending (s : MysqlData κ) (j : Job κ) : MysqlData κ :=
  bSetQuery j.query { s with
    state := .needQueue
    data := some j.id
    head := s.next j.id
    foot := if s.next j.id = none then none else s.foot
    sent := s.sent ++ [j] }

/-- The callback of `j` is called with what mysac reported. -/
def answered (s : MysqlData κ) (j : Job κ) (code : ℤ) (res : Res) : MysqlData κ :=
  { s with
    state := .readyForQuery
    onSuccess := none
    stack := .callback j.id :: s.stack
    called := s.called ++ [(j, params code res)] }

theorem entry_of_holds (h : Holds s j) :
    s.entry j.id = .ok ⟨s.next j.id, j.query, j.callback⟩ := by
  obtain ⟨n, hn⟩ := h
  simp [MysqlData.entry, MysqlData.next, hn]

theorem querySuccess_eq (code : ℤ) (res : Res) (hd : s.data = some j.id) (hj : Holds s j) :
    querySuccess code res s = .ok (answered s j code res) := by
  simp only [querySuccess, answered, hd, deref, Steps.ok_bind, entry_of_holds hj]

theorem bSetQuery_eq (query : Bytes) (s : MysqlData κ) :
    bSetQuery query s = { s with callIt := decide (Fits query) || s.callIt } := by
  unfold bSetQuery
  split <;> simp [*]

theorem sending_eq (s : MysqlData κ) (j : Job κ) : sending s j =
    { s with
      state := .needQueue
      data := some j.id
      head := s.next j.id
      foot := if s.next j.id = none then none else s.foot
      callIt := decide (Fits j.query) || s.callIt
      sent := s.sent ++ [j] } := by
  rw [sending, bSetQuery_eq]

theorem Books.sending (h : Books s [] (j :: waiting)) : Books (sending s j) [j] waiting := by
  rw [sending_eq]
  refine ⟨?_, ?_, h.once, h.minted, h.fresh, h.queue.pop, ?_, h.live, h.distinct⟩
  · rw [h.pushed_eq, List.append_assoc]
    rfl
  · rw [h.sent_eq, List.append_nil]
  · exact h.holds

theorem Books.answered (h : Books s [j] waiting) (code : ℤ) (res : Res) :
    Books (answered s j code res) [] waiting := by
  refine ⟨h.pushed_eq, ?_, h.once, h.minted, h.fresh, h.queue, ?_, ?_, ?_⟩
  · have hs : (Mysql.answered s j code res).sent = s.sent := rfl
    rw [hs, h.sent_eq]
    simp [Mysql.answered]
  · exact fun i hi => h.holds i (List.mem_cons_of_mem j hi)
  · intro q hq
    obtain rfl | hq := List.mem_cons.mp (show q ∈ j.id :: running s.stack from hq)
    · obtain ⟨n, hn⟩ := h.holds j List.mem_cons_self
      rw [Mysql.answered, hn]
      simp
    · exact h.live q hq
  · have hp : (running s.stack ++ j.id :: waiting.map Job.id).Perm
        (j.id :: (running s.stack ++ waiting.map Job.id)) := List.perm_middle
    exact hp.nodup_iff.mp h.distinct

/-- mysac takes up every query that it does not answer at once. -/
def Reports (send : ℕ → Job κ → Answer) : Prop := ∀ k j, send k j = .want → Fits j.query

/-- Between two queries the handle is ready and nothing is under way in mysac; otherwise
it waits for the report on the one in flight. -/
inductive Mode (send : ℕ → Job κ → Answer) (s : MysqlData κ) : List (Job κ) → Prop
  | ready : s.state = .readyForQuery → s.onSuccess ≠ some .query → s.callIt = false → Mode send s []
  | busy (j : Job κ) : s.state = .needQueue → s.onSuccess = some .query → s.data = some j.id →
      (Reports send → s.callIt = true) → Mode send s [j]

/-- Steps left until every query is answered, a report and a return for each. -/
def MysqlData.work (s : MysqlData κ) : ℕ := 2 * (s.pushed.length - s.called.length) + s.stack.length

theorem Books.length (h : Books s flight waiting) :
    s.pushed.length = s.called.length + flight.length + waiting.length := by
  rw [h.pushed_eq, h.sent_eq]
  simp only [List.length_append, List.length_map]

/-- No query waits behind an idle handle. -/
def Served (s : MysqlData κ) (flight waiting : List (Job κ)) : Prop :=
  flight = [] → waiting = [] ∨ ∃ q stack, s.stack = .callback q :: stack

/-- What a shift can do. -/
structure Shifted (send : ℕ → Job κ → Answer) (s s' : MysqlData κ)
    (flight waiting : List (Job κ)) : Prop where
  books : Books s' flight waiting
  mode : Mode send s' flight
  served : Served s' flight waiting
  stack : s'.stack = s.stack ∨ ∃ q, s'.stack = .callback q :: s.stack
  selected : s'.selected = s.selected
  pushed : s'.pushed = s.pushed
  work : s'.work ≤ s.work

/-- What the handlers read of the first query that waits. -/
theorem Books.first (h : Books s flight (j :: waiting)) : s.head = some j.id ∧
    s.entry j.id = .ok ⟨s.next j.id, j.query, j.callback⟩ ∧
    (s.next j.id = none ↔ waiting = []) := by
  refine ⟨h.queue.head_eq, entry_of_holds (h.holds j (by simp)), ?_⟩
  rw [h.queue.next_eq_none, List.map_eq_nil_iff]

theorem shiftQueue_ready (h : Books s [] (j :: waiting)) (hs : s.state = .readyForQuery) :
    shiftQueue send s = match send s.sent.length j with
      | .want => .ok { sending s j with onSuccess := some .query }
      | .done code res => .ok (answered
          { sending s j with onSuccess := none, callIt := false } j code res) := by
  obtain ⟨hhead, hentry, -⟩ := h.first
  have hj := h.holds j List.mem_cons_self
  rw [shiftQueue, hhead]
  simp only [hs, ↓reduceIte, hentry, Steps.ok_bind]
  cases send s.sent.length ⟨j.id, j.query, j.callback⟩ with
  | want => rfl
  | done code res =>
    simp only [sending, bSetQuery_eq]
    exact querySuccess_eq (j := j) code res rfl hj

theorem shiftQueue_busy (hs : s.state ≠ .readyForQuery) : shiftQueue send s = .ok s := by
  rw [shiftQueue]
  split
  · rfl
  · rw [if_neg hs]

theorem shiftQueue_idle (h : Books s flight waiting) (hm : Mode send s flight)
    (hw : flight = [] → waiting = []) : shiftQueue send s = .ok s := by
  cases hm with
  | ready => rw [shiftQueue, h.queue.head_eq_none.mpr (by rw [hw rfl]; rfl)]
  | busy j hs => exact shiftQueue_busy (by simp [hs])

theorem shiftQueue_shifted (h : Books s flight waiting) (hm : Mode send s flight) :
    ∃ s' flight' waiting', shiftQueue send s = .ok s' ∧ Shifted send s s' flight' waiting' := by
  by_cases hw : flight = [] → waiting = []
  · exact ⟨s, flight, waiting, shiftQueue_idle h hm hw,
      h, hm, fun hf => .inl (hw hf), .inl rfl, rfl, rfl, le_rfl⟩
  · obtain ⟨rfl, hne⟩ := Classical.not_imp.mp hw
    obtain ⟨j, waiting, rfl⟩ := List.exists_cons_of_ne_nil hne
    cases hm with
    | ready hs ho hc =>
      have hb := h.sending
      have hlen := h.length
      rw [shiftQueue_ready h hs]
      rw [sending_eq] at hb ⊢
      cases ha : send s.sent.length j with
      | want =>
        refine ⟨_, [j], waiting, rfl, hb.steer _ _ _ _ _ _, .busy j rfl rfl rfl ?_, ?_,
          .inl rfl, rfl, rfl, le_rfl⟩
        · intro hr
          simp [hr _ _ ha]
        · intro hf
          cases hf
      | done code res =>
        refine ⟨_, [], waiting, rfl, (hb.steer _ _ _ _ _ _).answered code res,
          .ready rfl (by simp [answered]) rfl, fun _ => .inr ⟨_, _, rfl⟩, .inr ⟨_, rfl⟩,
          rfl, rfl, ?_⟩
        simp only [List.length_cons] at hlen
        simp only [MysqlData.work, answered, List.length_append, List.length_cons, List.length_nil]
        omega

/-- The calls under way once the database is selected. -/
inductive Calls : List Frame → Prop
  | nil : Calls []
  | setdb : Calls [.setdb]
  | onConnect : Calls [.onConnect]
  | callback (queue : ℕ) {stack : List Frame} : Calls stack → Calls (.callback queue :: stack)

/-- What holds between two events. -/
structure Inv (send : ℕ → Job κ → Answer) (s : MysqlData κ) (flight waiting : List (Job κ)) :
    Prop where
  books : Books s flight waiting
  opened : s.selected = true → Mode send s flight ∧ Served s flight waiting ∧
    Calls s.stack ∧ s.stack.head? ≠ some .setdb
  closed : s.selected = false → flight = [] ∧ s.called = [] ∧ s.state = .needQueue ∧
    s.onSuccess ≠ some .query ∧ (s.stack = [] ∨ ∃ code, s.stack = [.onError code])

theorem inv_start : Inv send (start : MysqlData κ) [] [] where
  books := by
    refine ⟨rfl, rfl, List.nodup_nil, ?_, ?_, Queue.nil, ?_, ?_, List.nodup_nil⟩
    · intro j hj
      cases hj
    · intro q hq
      exact absurd rfl hq
    · intro j hj
      cases hj
    · intro q hq
      cases hq
  opened hs := by cases hs
  closed _ := ⟨rfl, rfl, rfl, by simp [start], .inl rfl⟩

/-- The events that serve queries: a return, and a report of mysac. -/
def Serves (s : MysqlData κ) : Event κ → Prop
  | .ret => True
  | .io (.done _ _) => s.callIt = true
  | _ => False

/-- What an event leads to. -/
structure Moved (send : ℕ → Job κ → Answer) (s : MysqlData κ) (e : Event κ) (s' : MysqlData κ)
    (flight waiting : List (Job κ)) : Prop where
  inv : Inv send s' flight waiting
  selected : s.selected = true → s'.selected = true
  serves : s.selected = true → Serves s e → s'.pushed = s.pushed ∧ s'.work < s.work

theorem Moved.of_closed {e : Event κ} (hsel : s.selected = false)
    (h : Inv send s' flight waiting) : Moved send s e s' flight waiting :=
  ⟨h, fun hs => absurd (hsel.symm.trans hs) (by simp),
    fun hs => absurd (hsel.symm.trans hs) (by simp)⟩

theorem Mode.congr (h : Mode send s flight) (hs : s'.state = s.state)
    (ho : s'.onSuccess = s.onSuccess) (hc : s'.callIt = s.callIt) (hd : s'.data = s.data) :
    Mode send s' flight := by
  cases h with
  | ready hs' ho' hc' => exact .ready (hs.trans hs') (ho ▸ ho') (hc.trans hc')
  | busy j hs' ho' hd' hr =>
    exact .busy j (hs.trans hs') (ho.trans ho') (hd.trans hd') fun h => hc.trans (hr h)

theorem Shifted.calls (hs : Shifted send s s' flight waiting) (hc : Calls s.stack) :
    Calls s'.stack := by
  obtain h | ⟨q, h⟩ := hs.stack
  · exact h ▸ hc
  · exact h ▸ hc.callback q

theorem Shifted.inv (hs : Shifted send s s' flight waiting) (hsel : s.selected = true)
    (hc : Calls s.stack) (htop : s'.stack.head? ≠ some .setdb) : Inv send s' flight waiting where
  books := hs.books
  opened _ := ⟨hs.mode, hs.served, hs.calls hc, htop⟩
  closed h := by rw [hs.selected, hsel] at h; cases h

/-- The handler that shifted goes on, if it is `mysac_setdb_success`. -/
theorem Shifted.settled (hs : Shifted send s s' flight waiting) (hsel : s.selected = true)
    (hc : Calls s.stack) : Inv send (afterShift s') flight waiting ∧
      (afterShift s').selected = true ∧ (afterShift s').pushed = s.pushed ∧
      (afterShift s').work ≤ s.work := by
  have hsel' := hs.selected.trans hsel
  have hcalls := hs.calls hc
  unfold afterShift
  split
  · next stack hst =>
    rw [hst] at hcalls
    have hnil : stack = [] := by
      cases hcalls
      rfl
    subst hnil
    refine ⟨⟨hs.books.frames _ (by rw [hst]; rfl), ?_, ?_⟩, hsel', hs.pushed, ?_⟩
    · refine fun _ => ⟨hs.mode.congr rfl rfl rfl rfl, ?_, .onConnect, by simp⟩
      intro hf
      obtain hw | ⟨q, st, hq⟩ := hs.served hf
      · exact .inl hw
      · rw [hst] at hq
        cases hq
    · intro h
      exact absurd (hsel'.symm.trans h) (by simp)
    · have hw := hs.work
      rw [MysqlData.work, hst] at hw
      exact hw
  · next hne =>
    refine ⟨hs.inv hsel hc ?_, hsel', hs.pushed, hs.work⟩
    intro hhead
    obtain ⟨st, hst⟩ := List.head?_eq_some_iff.mp hhead
    exact hne st hst

theorem Books.pushed_of_live (h : Books s flight waiting) {q : ℕ}
    (hq : q ∈ running s.stack ++ (flight ++ waiting).map Job.id) : q ≠ s.fresh := by
  obtain hq | hq := List.mem_append.mp hq
  · exact (h.fresh q (h.live q hq)).ne
  · obtain ⟨j, hj, rfl⟩ := List.mem_map.mp hq
    obtain ⟨n, hn⟩ := h.holds j hj
    exact (h.fresh j.id (by simp [hn])).ne

/-- The entry of a new query is linked in behind those that wait. -/
theorem Books.push (h : Books s flight waiting) (query : Bytes) (callback : κ)
    {entries : ℕ → Option (MysqlQueue κ)} {head foot : Option ℕ}
    (hnew : entries s.fresh = some ⟨none, query, callback⟩)
    (hold : ∀ q, q ≠ s.fresh → ∃ f : Option ℕ → Option ℕ,
      entries q = (s.entries q).map fun e => { e with next := f e.next })
    (hq : Queue (fun q => (entries q).bind MysqlQueue.next) head foot
      (waiting.map Job.id ++ [s.fresh])) :
    Books { s with
      entries, head, foot
      fresh := s.fresh + 1
      pushed := s.pushed ++ [⟨s.fresh, query, callback⟩] }
      flight (waiting ++ [⟨s.fresh, query, callback⟩]) := by
  refine ⟨?_, h.sent_eq, ?_, ?_, ?_, ?_, ?_, ?_, ?_⟩
  · rw [h.pushed_eq, List.append_assoc]
  · rw [List.map_append, List.nodup_append']
    refine ⟨h.once, List.nodup_singleton _, ?_⟩
    simp only [List.map_cons, List.map_nil, List.disjoint_singleton, List.mem_map, not_exists,
      not_and]
    exact fun j hj he => (h.minted j hj).ne he
  · intro j hj
    obtain hj | hj := List.mem_append.mp hj
    · exact Nat.lt_succ_of_lt (h.minted j hj)
    · rw [List.mem_singleton.mp hj]
      exact Nat.lt_succ_self _
  · intro q hne
    by_cases hqf : q = s.fresh
    · exact hqf ▸ Nat.lt_succ_self _
    · obtain ⟨f, hf⟩ := hold q hqf
      refine Nat.lt_succ_of_lt (h.fresh q ?_)
      intro hn
      exact hne (hf.trans (by rw [hn]; rfl))
  · rw [List.map_append]
    exact hq
  · intro j hj
    rw [← List.append_assoc] at hj
    obtain hj | hj := List.mem_append.mp hj
    · have hne := h.pushed_of_live (List.mem_append_right _ (List.mem_map_of_mem hj))
      obtain ⟨f, hf⟩ := hold j.id hne
      obtain ⟨n, hn⟩ := h.holds j hj
      exact ⟨f n, hf.trans (by rw [hn]; rfl)⟩
    · rw [List.mem_singleton.mp hj]
      exact ⟨none, hnew⟩
  · intro q hq
    obtain ⟨f, hf⟩ := hold q (h.pushed_of_live (List.mem_append_left _ hq))
    obtain ⟨e, he⟩ := Option.ne_none_iff_exists'.mp (h.live q hq)
    intro hnone
    have hsome := hf.symm.trans hnone
    rw [he] at hsome
    cases hsome
  · rw [← List.append_assoc, List.map_append, ← List.append_assoc, List.nodup_append']
    refine ⟨h.distinct, List.nodup_singleton _, ?_⟩
    simp only [List.map_cons, List.map_nil, List.disjoint_singleton]
    exact fun hm => h.pushed_of_live hm rfl

theorem link_books (h : Books s flight waiting) (query : Bytes) (callback : κ) :
    ∃ entries head foot,
      link s.fresh { s.setEntry s.fresh (some ⟨none, query, callback⟩) with
        fresh := s.fresh + 1
        pushed := s.pushed ++ [⟨s.fresh, query, callback⟩] } =
        .ok { s with
          entries, head, foot
          fresh := s.fresh + 1
          pushed := s.pushed ++ [⟨s.fresh, query, callback⟩] } ∧
      Books { s with
        entries, head, foot
        fresh := s.fresh + 1
        pushed := s.pushed ++ [⟨s.fresh, query, callback⟩] }
        flight (waiting ++ [⟨s.fresh, query, callback⟩]) := by
  have hfresh : s.fresh ∉ waiting.map Job.id := fun hm => h.pushed_of_live
    (List.mem_append_right _ (by rw [List.map_append]; exact List.mem_append_right _ hm)) rfl
  have hq := h.queue
  cases hfoot : s.foot with
  | none =>
    rw [hfoot] at hq
    have hq' : waiting.map Job.id = [] ∧ Queue (fun q =>
        (Function.update s.entries s.fresh (some ⟨none, query, callback⟩) q).bind
          MysqlQueue.next) (some s.fresh) (some s.fresh) [s.fresh] :=
      hq.push_empty (by simp)
    obtain ⟨hw, hq'⟩ := hq'
    refine ⟨Function.update s.entries s.fresh (some ⟨none, query, callback⟩), some s.fresh,
      some s.fresh, ?_, ?_⟩
    · simp only [link, MysqlData.setEntry, hfoot]
    · refine h.push query callback (by simp) ?_ (by rw [hw]; exact hq')
      intro q hne
      exact ⟨id, by simp [Function.update_of_ne hne]⟩
  | some foot =>
    rw [hfoot] at hq
    obtain ⟨j, hj, rfl⟩ := List.mem_map.mp hq.foot_mem
    have hne : j.id ≠ s.fresh := fun he => hfresh (he ▸ List.mem_map_of_mem hj)
    obtain ⟨n, hn⟩ := h.holds j (List.mem_append_right _ hj)
    refine ⟨Function.update (Function.update s.entries s.fresh (some ⟨none, query, callback⟩))
      j.id (some ⟨some s.fresh, j.query, j.callback⟩), s.head, some s.fresh, ?_, ?_⟩
    · simp [link, MysqlData.setEntry, MysqlData.entry, hfoot, Function.update_of_ne hne, hn]
    · refine h.push query callback (by simp [hne.symm]) ?_ ?_
      · intro q hqf
        by_cases hqj : q = j.id
        · subst hqj
          exact ⟨fun _ => some s.fresh, by simp [hn]⟩
        · exact ⟨id, by simp [Function.update_of_ne hqj, Function.update_of_ne hqf]⟩
      · refine hq.push hfresh (by simp [hne.symm]) (by simp) ?_
        intro b hb hbj
        have hbf : b ≠ s.fresh := fun he => hfresh (he ▸ hb)
        simp [Function.update_of_ne hbj, Function.update_of_ne hbf, MysqlData.next]

/-- The state after the entry of a new query is linked in. -/
def linked (s : MysqlData κ) (query : Bytes) (callback : κ)
    (entries : ℕ → Option (MysqlQueue κ)) (head foot : Option ℕ) : MysqlData κ :=
  { s with
    entries, head, foot
    fresh := s.fresh + 1
    pushed := s.pushed ++ [⟨s.fresh, query, callback⟩] }

/-- A push shifts only where no query waits. -/
theorem pushQueue_eq (send : ℕ → Job κ → Answer) (h : Books s flight waiting) (query : Bytes)
    (callback : κ) :
    ∃ entries head foot,
      pushQueue send query callback s =
        (if waiting = [] ∧ s.state = .readyForQuery then
          shiftQueue send (linked s query callback entries head foot)
        else .ok (linked s query callback entries head foot)) ∧
      Books (linked s query callback entries head foot) flight
        (waiting ++ [⟨s.fresh, query, callback⟩]) := by
  obtain ⟨entries, head, foot, hlink, hb⟩ := link_books h query callback
  refine ⟨entries, head, foot, ?_, hb⟩
  obtain ⟨j, rest, hj⟩ := List.exists_cons_of_ne_nil
    (show waiting ++ [(⟨s.fresh, query, callback⟩ : Job κ)] ≠ [] by simp)
  have hrest : rest = [] ↔ waiting = [] := by
    have hlen := congrArg List.length hj
    rw [← List.length_eq_zero_iff, ← List.length_eq_zero_iff]
    simp only [List.length_append, List.length_cons, List.length_nil] at hlen
    omega
  rw [hj] at hb
  obtain ⟨hhead, hentry, hnext⟩ := hb.first
  rw [hrest] at hnext
  simp only [linked] at hhead hentry hnext ⊢
  simp only [pushQueue, hlink, Steps.ok_bind, hhead, deref]
  rw [hhead] at hentry hnext
  simp only [hentry, hnext, Steps.ok_bind]

theorem push_moved (h : Inv send s flight waiting) (query : Bytes) (callback : κ) :
    ∃ s' flight' waiting', pushQueue send query callback s = .ok s' ∧
      Moved send s (.push query callback) s' flight' waiting' := by
  obtain ⟨entries, head, foot, hpush, hb⟩ := pushQueue_eq send h.books query callback
  rw [hpush]
  split
  · next hc =>
    have hsel : s.selected = true := by
      by_contra hn
      have hneed := (h.closed (by simpa using hn)).2.2.1
      rw [hc.2] at hneed
      cases hneed
    obtain ⟨hm, -, hcalls, htop⟩ := h.opened hsel
    obtain ⟨s', flight', waiting', hs', hsh⟩ :=
      shiftQueue_shifted hb (hm.congr rfl rfl rfl rfl)
    refine ⟨s', flight', waiting', hs', hsh.inv hsel hcalls ?_,
      fun _ => hsh.selected.trans hsel, fun _ hv => hv.elim⟩
    obtain hst | ⟨q, hst⟩ := hsh.stack
    · rw [hst]
      exact htop
    · simp [hst]
  · next hc =>
    refine ⟨_, flight, _, rfl, ⟨hb, fun hsel => ?_, h.closed⟩, id, fun _ hv => hv.elim⟩
    obtain ⟨hm, hserved, hcalls, htop⟩ := h.opened hsel
    refine ⟨hm.congr rfl rfl rfl rfl, fun hf => .inr ?_, hcalls, htop⟩
    obtain hw | hq := hserved hf
    · cases hm with
      | ready hs => exact absurd ⟨hw, hs⟩ hc
      | busy => cases hf
    · exact hq

/-- The entry of a query whose callback has returned is freed. -/
theorem Books.free (h : Books s flight waiting) {q : ℕ} {stack : List Frame}
    (hst : s.stack = .callback q :: stack) :
    Books { s.setEntry q none with stack } flight waiting := by
  have hrun : running s.stack = q :: running stack := by rw [hst]; rfl
  have hd := h.distinct
  rw [hrun, List.cons_append, List.nodup_cons] at hd
  have hother : ∀ i ∈ running stack ++ (flight ++ waiting).map Job.id,
      Function.update s.entries q none i = s.entries i :=
    fun i hi => Function.update_of_ne (fun he : i = q => hd.1 (he ▸ hi)) ..
  refine ⟨h.pushed_eq, h.sent_eq, h.once, h.minted, ?_, h.queue.congr ?_, ?_, ?_, hd.2⟩
  · intro i hi
    refine h.fresh i fun hn => hi ?_
    by_cases hiq : i = q
    · subst hiq
      exact Function.update_self ..
    · exact (Function.update_of_ne hiq ..).trans hn
  · intro i hi
    have hi' := hother i (List.mem_append_right _
      (by rw [List.map_append]; exact List.mem_append_right _ hi))
    exact congrArg (fun e => Option.bind e MysqlQueue.next) hi'
  · intro j hj
    obtain ⟨n, hn⟩ := h.holds j hj
    exact ⟨n, (hother j.id (List.mem_append_right _ (List.mem_map_of_mem hj))).trans hn⟩
  · intro i hi
    have hlive := h.live i (hrun ▸ List.mem_cons_of_mem q hi)
    exact fun hn => hlive ((hother i (List.mem_append_left _ hi)).symm.trans hn)

theorem ret_moved (h : Inv send s flight waiting) (hne : s.stack ≠ []) :
    ∃ s' flight' waiting', jsReturn send s = .ok s' ∧
      Moved send s .ret s' flight' waiting' := by
  cases hsel : s.selected with
  | false =>
    obtain ⟨rfl, hcalled, hneed, ho, hst | ⟨code, hst⟩⟩ := h.closed hsel
    · exact absurd hst hne
    · simp only [jsReturn, hst]
      have hb := h.books.frames [] (by rw [hst]; rfl)
      refine ⟨_, [], waiting, rfl, .of_closed hsel ⟨hb.steer _ _ _ _ _ _, ?_, ?_⟩⟩
      · exact fun hs => absurd (hsel.symm.trans hs) (by simp)
      · exact fun _ => ⟨rfl, hcalled, hneed, by simp, .inl rfl⟩
  | true =>
    obtain ⟨hm, hserved, hcalls, htop⟩ := h.opened hsel
    cases hst : s.stack with
    | nil => exact absurd hst hne
    | cons frame stack =>
      rw [hst] at hcalls htop
      cases hcalls with
      | setdb => exact absurd rfl htop
      | onConnect =>
        simp only [jsReturn, hst]
        refine ⟨_, flight, waiting, rfl, ⟨h.books.frames _ (by rw [hst]; rfl), fun _ => ?_, ?_⟩,
          fun _ => hsel, fun _ _ => ⟨rfl, ?_⟩⟩
        · refine ⟨hm.congr rfl rfl rfl rfl, fun hf => .inl ?_, .nil, by simp⟩
          obtain hw | ⟨q, st, hq⟩ := hserved hf
          · exact hw
          · rw [hst] at hq
            cases hq
        · exact fun hs => absurd (hsel.symm.trans hs) (by simp)
        · simp [MysqlData.work, hst]
      | callback q hcalls =>
        obtain ⟨e, he⟩ := Option.ne_none_iff_exists'.mp
          (h.books.live q (by rw [hst]; exact List.mem_cons_self))
        have hentry : s.entry q = .ok e := by rw [MysqlData.entry, he]
        have hm' : Mode send { s.setEntry q none with stack } flight := hm.congr rfl rfl rfl rfl
        obtain ⟨s', flight', waiting', hs', hsh⟩ := shiftQueue_shifted (h.books.free hst) hm'
        obtain ⟨hi, hsel', hp, hw⟩ := hsh.settled hsel hcalls
        simp only [jsReturn, hst, hentry, hs', Steps.ok_bind]
        refine ⟨_, flight', waiting', rfl, hi, fun _ => hsel', fun _ _ => ⟨hp, ?_⟩⟩
        refine lt_of_le_of_lt hw ?_
        simp [MysqlData.work, MysqlData.setEntry, hst]

/-- The database is selected: the queries pushed so far are taken up. -/
theorem setdbSuccess_moved (h : Inv send s [] waiting) (hsel : s.selected = false)
    (hst : s.stack = []) (hc : s.callIt = false) (ho : s.onSuccess ≠ some .query) (code : ℤ) :
    ∃ s' flight' waiting', setdbSuccess send code s = .ok s' ∧ Inv send s' flight' waiting' := by
  obtain ⟨-, hcalled, hneed, -⟩ := h.closed hsel
  unfold setdbSuccess
  split
  · split
    · have hb := h.books.frames (.setdb :: s.stack) rfl
      have hm : Mode send { s with
          state := .readyForQuery, stack := .setdb :: s.stack, selected := true } [] :=
        .ready rfl ho hc
      obtain ⟨s', flight', waiting', hs', hsh⟩ := shiftQueue_shifted
        (hb.steer .readyForQuery s.onSuccess s.data s.jsmysql s.callIt true) hm
      obtain ⟨hi, -⟩ := hsh.settled rfl (by rw [hst]; exact .setdb)
      simp only [hs', Steps.ok_bind]
      exact ⟨_, flight', waiting', rfl, hi⟩
    · refine ⟨_, [], waiting, rfl, h.books.frames _ rfl, fun hs => ?_, fun _ => ?_⟩
      · exact absurd (hsel.symm.trans hs) (by simp)
      · exact ⟨rfl, hcalled, hneed, ho, .inr ⟨code, by rw [hst]⟩⟩
  · exact ⟨s, [], waiting, rfl, h⟩

theorem connectSuccess_inv (h : Inv send s [] waiting) (hsel : s.selected = false)
    (hst : s.stack = []) (code : ℤ) : Inv send (connectSuccess code s) [] waiting := by
  obtain ⟨-, hcalled, hneed, ho, -⟩ := h.closed hsel
  unfold connectSuccess
  split
  · split
    · refine ⟨h.books.steer _ _ _ _ _ _, fun hs => ?_, fun _ => ?_⟩
      · exact absurd (hsel.symm.trans hs) (by simp)
      · exact ⟨rfl, hcalled, hneed, by simp, .inl hst⟩
    · refine ⟨h.books.frames _ rfl, fun hs => ?_, fun _ => ?_⟩
      · exact absurd (hsel.symm.trans hs) (by simp)
      · exact ⟨rfl, hcalled, hneed, ho, .inr ⟨code, by rw [hst]⟩⟩
  · exact h

/-- mysac reports on the connection or on the selection. -/
theorem report_closed (h : Inv send s flight waiting) (hst : s.stack = [])
    (hsel : s.selected = false) (hc : s.callIt = true) (code : ℤ) (res : Res) :
    ∃ s' flight' waiting', handleIo send (.done code res) s = .ok s' ∧
      Inv send s' flight' waiting' := by
  obtain ⟨rfl, hcalled, hneed, ho, -⟩ := h.closed hsel
  have hi : Inv send { s with callIt := false } [] waiting :=
    ⟨h.books.steer _ _ _ _ _ _, fun hs => absurd (hsel.symm.trans hs) (by simp), h.closed⟩
  unfold handleIo
  rw [if_pos hc]
  simp only
  split
  · exact ⟨_, [], waiting, rfl, hi⟩
  · exact ⟨_, [], waiting, rfl, connectSuccess_inv hi hsel hst code⟩
  · exact setdbSuccess_moved hi hsel hst rfl ho code
  · next hq => exact absurd hq ho

theorem handleIo_query (hc : s.callIt = true) (hq : s.onSuccess = some .query) (code : ℤ)
    (res : Res) : handleIo send (.done code res) s =
      querySuccess code res { s with callIt := false } := by
  unfold handleIo
  rw [if_pos hc]
  simp only [hq]

/-- mysac reports on the query in flight. -/
theorem report_opened (h : Inv send s flight waiting) (hst : s.stack = [])
    (hsel : s.selected = true) (hc : s.callIt = true) (code : ℤ) (res : Res) :
    ∃ s' flight' waiting', handleIo send (.done code res) s = .ok s' ∧
      Inv send s' flight' waiting' ∧ s'.selected = true ∧ s'.pushed = s.pushed ∧
      s'.work < s.work := by
  obtain ⟨hm, -⟩ := h.opened hsel
  cases hm with
  | ready _ _ hc' => exact absurd (hc.symm.trans hc') (by simp)
  | busy j hneed hq hd hr =>
    have hb := h.books.steer s.state s.onSuccess s.data s.jsmysql false s.selected
    have hj : Holds { s with callIt := false } j := h.books.holds j (by simp)
    have hlen := h.books.length
    rw [handleIo_query hc hq, querySuccess_eq (s := { s with callIt := false }) code res hd hj]
    refine ⟨_, [], waiting, rfl, ⟨hb.answered code res, fun _ => ?_, ?_⟩, hsel, rfl, ?_⟩
    · refine ⟨.ready rfl (by simp [answered]) rfl, fun _ => .inr ⟨_, _, rfl⟩, ?_, ?_⟩
      · simp only [answered, hst]
        exact .callback j.id .nil
      · simp [answered]
    · exact fun hs => absurd (hsel.symm.trans hs) (by simp)
    · simp only [List.length_cons, List.length_nil] at hlen
      simp only [MysqlData.work, answered, List.length_append, List.length_cons,
        List.length_nil]
      omega

theorem io_moved (h : Inv send s flight waiting) (hst : s.stack = []) (answer : Answer) :
    ∃ s' flight' waiting', handleIo send answer s = .ok s' ∧
      Moved send s (.io answer) s' flight' waiting' := by
  by_cases hc : s.callIt = true
  · cases answer with
    | want =>
      exact ⟨s, flight, waiting, if_pos hc, h, id, fun _ hv => hv.elim⟩
    | done code res =>
      obtain hsel | hsel := Bool.eq_false_or_eq_true s.selected
      · obtain ⟨s', flight', waiting', hs', hi, hsel', hp, hw⟩ :=
          report_opened h hst hsel hc code res
        exact ⟨s', flight', waiting', hs', hi, fun _ => hsel', fun _ _ => ⟨hp, hw⟩⟩
      · obtain ⟨s', flight', waiting', hs', hi⟩ := report_closed h hst hsel hc code res
        exact ⟨s', flight', waiting', hs', .of_closed hsel hi⟩
  · refine ⟨s, flight, waiting, if_neg hc, h, id, fun _ hv => ?_⟩
    cases answer with
    | want => exact hv.elim
    | done code res => exact absurd hv hc

theorem step_moved (h : Inv send s flight waiting) {e : Event κ} (ha : Allowed s e) :
    ∃ s' flight' waiting', step send s e = .ok s' ∧ Moved send s e s' flight' waiting' := by
  cases e with
  | push query callback => exact push_moved h query callback
  | ret => exact ret_moved h ha
  | io answer => exact io_moved h ha answer
  | finalize =>
    refine ⟨_, flight, waiting, rfl, ⟨h.books.steer _ _ _ _ _ _, fun hs => ?_, h.closed⟩,
      id, fun _ hv => hv.elim⟩
    obtain ⟨hm, hrest⟩ := h.opened hs
    exact ⟨hm.congr rfl rfl rfl rfl, hrest⟩

/-- The handle waits for mysac's report on a query. -/
def MysqlData.InFlight (s : MysqlData κ) : Prop := s.onSuccess = some .query

/-- A function returns or mysac reports, and nothing is pushed. -/
def Advances (send : ℕ → Job κ → Answer) (s s' : MysqlData κ) : Prop :=
  ∃ e, Allowed s e ∧ Serves s e ∧ step send s e = .ok s'

theorem reach_inv (h : Steps.Reach (step send) Allowed start s) :
    ∃ flight waiting, Inv send s flight waiting := by
  refine h.keeps (fun s => ∃ flight waiting, Inv send s flight waiting) ⟨_, _, inv_start⟩ ?_
  rintro s e s' ⟨flight, waiting, hi⟩ ha hs
  obtain ⟨t, flight', waiting', ht, hm⟩ := step_moved hi ha
  rw [hs] at ht
  cases ht
  exact ⟨flight', waiting', hm.inv⟩

theorem Inv.advances (h : Inv send s flight waiting) (hsel : s.selected = true)
    (ha : Advances send s s') : (∃ flight waiting, Inv send s' flight waiting) ∧
      s'.selected = true ∧ s'.pushed = s.pushed ∧ s'.work < s.work := by
  obtain ⟨e, hallow, hserves, hs⟩ := ha
  obtain ⟨t, flight', waiting', ht, hm⟩ := step_moved h hallow
  rw [hs] at ht
  cases ht
  exact ⟨⟨flight', waiting', hm.inv⟩, hm.selected hsel, hm.serves hsel hserves⟩

theorem Inv.acc (h : Inv send s flight waiting) (hsel : s.selected = true) :
    Acc (fun t s => Advances send s t) s := by
  induction hn : s.work using Nat.strong_induction_on generalizing s flight waiting with
  | _ n ih =>
    refine ⟨s, fun t ht => ?_⟩
    obtain ⟨⟨flight', waiting', hi⟩, hsel', -, hw⟩ := h.advances hsel ht
    exact ih t.work (hn ▸ hw) hi hsel' rfl

/-- A handle that cannot advance has answered everything. -/
theorem Inv.stuck (h : Inv send s flight waiting) (hsel : s.selected = true)
    (hr : Reports send) (hstuck : ∀ t, ¬ Advances send s t) :
    s.stack = [] ∧ flight = [] ∧ waiting = [] := by
  have hst : s.stack = [] := by
    by_contra hne
    obtain ⟨t, _, _, ht, -⟩ := step_moved h (e := .ret) hne
    exact hstuck t ⟨.ret, hne, trivial, ht⟩
  obtain ⟨hm, hserved, -⟩ := h.opened hsel
  have hf : flight = [] := by
    cases hm with
    | ready => rfl
    | busy j hs ho hd hc =>
      obtain ⟨t, _, _, ht, -⟩ := step_moved h (e := .io (.done 0 ⟨[], []⟩)) hst
      exact absurd ⟨.io (.done 0 ⟨[], []⟩), hst, hc hr, ht⟩ (hstuck t)
  refine ⟨hst, hf, ?_⟩
  obtain hw | ⟨q, st, hq⟩ := hserved hf
  · exact hw
  · rw [hst] at hq
    cases hq

theorem Inv.answers (h : Inv send s flight waiting) (hsel : s.selected = true)
    (hr : Reports send) (hs : Relation.ReflTransGen (Advances send) s s')
    (hstuck : ∀ t, ¬ Advances send s' t) :
    s'.stack = [] ∧ s'.called.map Prod.fst = s.pushed := by
  induction hs using Relation.ReflTransGen.head_induction_on generalizing flight waiting with
  | refl =>
    obtain ⟨hst, rfl, rfl⟩ := h.stuck hsel hr hstuck
    rw [h.books.pushed_eq, h.books.sent_eq]
    simp [hst]
  | head ha _ ih =>
    obtain ⟨⟨flight', waiting', hi⟩, hsel', hp, -⟩ := h.advances hsel ha
    rw [← hp]
    exact ih hi hsel'

/-- What holds of a handle that serves queries: `flight` is sent and not answered, `waiting`
is in the queue. -/
structure Orderly (send : ℕ → Job κ → Answer) (s : MysqlData κ)
    (flight waiting : List (Job κ)) : Prop where
  once : (s.pushed.map Job.id).Nodup
  pushed_eq : s.pushed = s.sent ++ waiting
  queue : Queue s.next s.head s.foot (waiting.map Job.id)
  sent_eq : s.sent = s.called.map Prod.fst ++ flight
  flight_le : flight.length ≤ 1
  flight_iff : flight ≠ [] ↔ s.InFlight
  /-- Without a query in flight and without a callback the queue is empty. -/
  idle : ¬ s.InFlight → (∀ q, .callback q ∉ s.stack) →
    s.head = none ∧ s.foot = none ∧ waiting = []
  completes : ∀ e, Allowed s e → ∃ s', step send s e = .ok s'
  /-- Returns and reports alone come to an end. -/
  finite : Acc (fun t s => Advances send s t) s
  /-- Where they do, every query pushed has had its callback called. -/
  answers : Reports send → ∀ s', Relation.ReflTransGen (Advances send) s s' →
    (∀ t, ¬ Advances send s' t) → s'.stack = [] ∧ s'.called.map Prod.fst = s.pushed

/-- Once the database is selected every query is sent once, in the order of the pushes,
one at a time, and its callback is called once. -/
theorem queue_orderly (h : Steps.Reach (step send) Allowed start s) (hsel : s.selected = true) :
    ∃ flight waiting, Orderly send s flight waiting := by
  obtain ⟨flight, waiting, hi⟩ := reach_inv h
  obtain ⟨hm, hserved, -⟩ := hi.opened hsel
  refine ⟨flight, waiting, hi.books.once, hi.books.pushed_eq, hi.books.queue,
    hi.books.sent_eq, ?_, ?_, ?_, ?_, hi.acc hsel, fun hr s' => hi.answers hsel hr⟩
  · cases hm <;> simp
  · cases hm with
    | ready _ ho => simpa [MysqlData.InFlight] using ho
    | busy j _ ho => simpa [MysqlData.InFlight] using ho
  · intro hf hcb
    have hw : waiting = [] := by
      cases hm with
      | ready =>
        obtain hw | ⟨q, st, hq⟩ := hserved rfl
        · exact hw
        · exact absurd (hq ▸ List.mem_cons_self) (hcb q)
      | busy j _ ho => exact absurd ho hf
    have hq := hi.books.queue
    rw [hw] at hq
    exact ⟨hq.head_eq, hq.foot_eq, hw⟩
  · intro e ha
    obtain ⟨s', _, _, hs', -⟩ := step_moved hi ha
    exact ⟨s', hs'⟩

/-- The second query is answered at once, the others by a report. -/
def secondAtOnce (k : ℕ) (_ : Job ℕ) : Answer := if k = 1 then .done 0 ⟨[[97]], [[none]]⟩ else .want

/-- A query is pushed before the database is selected, one while its callback runs, which
is answered at once, and a third from inside the second callback. -/
def nested : List (Event ℕ) :=
  [.push [1] 0, .io (.done 0 ⟨[], []⟩), .io (.done 0 ⟨[], []⟩), .ret, .io (.done 0 ⟨[], []⟩),
    .push [2] 1, .push [3] 2, .ret, .ret]

theorem queue_orderly_nested : ∃ s, Steps.runs (step secondAtOnce) Allowed start nested = some s ∧
    s.called.map (fun c => c.1.callback) = [0, 1] ∧ s.sent.map Job.callback = [0, 1, 2] ∧
    ∃ flight waiting, Orderly secondAtOnce s flight waiting := by
  have h : ((Steps.runs (step secondAtOnce) Allowed start nested).map fun s =>
      (s.selected, s.called.map fun c => c.1.callback, s.sent.map Job.callback)) =
      some (true, [0, 1], [0, 1, 2]) := by decide +kernel
  obtain ⟨s, hs, he⟩ := Option.map_eq_some_iff.mp h
  simp only [Prod.mk.injEq] at he
  obtain ⟨hsel, hcalled, hsent⟩ := he
  exact ⟨s, hs, hcalled, hsent, queue_orderly (.of_runs .start hs) hsel⟩

/-- Before the database is selected nothing is sent. -/
theorem unselected_unsent (h : Steps.Reach (step send) Allowed start s)
    (hsel : s.selected = false) : s.sent = [] ∧ s.called = [] := by
  obtain ⟨flight, waiting, hi⟩ := reach_inv h
  obtain ⟨rfl, hcalled, -⟩ := hi.closed hsel
  refine ⟨?_, hcalled⟩
  rw [hi.books.sent_eq, hcalled]
  rfl

/-- mysac has refused the query in flight. -/
structure Refused (s : MysqlData κ) : Prop where
  selected : s.selected = true
  inFlight : s.InFlight
  callIt : s.callIt = false

theorem refused_afterShift (hr : Refused s) : Refused (afterShift s) ∧
    (afterShift s).sent = s.sent ∧ (afterShift s).called = s.called := by
  unfold afterShift
  split
  · exact ⟨⟨hr.selected, hr.inFlight, hr.callIt⟩, rfl, rfl⟩
  · exact ⟨hr, rfl, rfl⟩

theorem refused_step {e : Event κ} (h : Inv send s flight waiting) (hr : Refused s)
    (ha : Allowed s e) (hs : step send s e = .ok s') :
    Refused s' ∧ s'.sent = s.sent ∧ s'.called = s.called := by
  obtain ⟨hm, -, hcalls, -⟩ := h.opened hr.selected
  have hneed : s.state ≠ .readyForQuery := by
    cases hm with
    | ready _ ho => exact absurd hr.inFlight ho
    | busy j hs' => simp [hs']
  cases e with
  | push query callback =>
    obtain ⟨entries, head, foot, hpush, -⟩ := pushQueue_eq send h.books query callback
    rw [if_neg fun hc => hneed hc.2] at hpush
    obtain rfl := Except.ok.inj (hpush.symm.trans hs)
    exact ⟨⟨hr.selected, hr.inFlight, hr.callIt⟩, rfl, rfl⟩
  | ret =>
    cases hst : s.stack with
    | nil => exact absurd hst ha
    | cons frame stack =>
      rw [hst] at hcalls
      simp only [step, jsReturn, hst] at hs
      cases hcalls with
      | setdb =>
        cases hs
        exact ⟨hr, rfl, rfl⟩
      | onConnect =>
        cases hs
        exact ⟨⟨hr.selected, hr.inFlight, hr.callIt⟩, rfl, rfl⟩
      | callback q =>
        obtain ⟨e, -, hs⟩ := Steps.bind_ok hs
        have hbusy : shiftQueue send { s.setEntry q none with stack := stack } = .ok _ :=
          shiftQueue_busy hneed
        rw [hbusy, Steps.ok_bind] at hs
        cases hs
        exact refused_afterShift ⟨hr.selected, hr.inFlight, hr.callIt⟩
  | io answer =>
    obtain rfl := Except.ok.inj ((if_neg (by simp [hr.callIt])).symm.trans hs)
    exact ⟨hr, rfl, rfl⟩
  | finalize =>
    cases hs
    exact ⟨⟨hr.selected, hr.inFlight, hr.callIt⟩, rfl, rfl⟩

/-- A query that mysac has refused while it answers `want` is never reported on, and stalls
all that are pushed after it. -/
theorem refused_stalls {t : MysqlData κ} (h : Steps.Reach (step send) Allowed start s)
    (hr : Refused s) (hs : Steps.Reach (step send) Allowed s t) :
    t.sent = s.sent ∧ t.called = s.called := by
  obtain ⟨flight, waiting, hi⟩ := reach_inv h
  have ht := hs.keeps (fun t => (∃ flight waiting, Inv send t flight waiting) ∧ Refused t ∧
    t.sent = s.sent ∧ t.called = s.called) ⟨⟨_, _, hi⟩, hr, rfl, rfl⟩ ?_
  · exact ht.2.2
  · rintro t e t' ⟨⟨flight', waiting', hi'⟩, hr', hsent, hcalled⟩ ha ht'
    obtain ⟨hr'', hsent', hcalled'⟩ := refused_step hi' hr' ha ht'
    obtain ⟨u, flight'', waiting'', hu, hm⟩ := step_moved hi' ha
    rw [ht'] at hu
    cases hu
    exact ⟨⟨_, _, hm.inv⟩, hr'', hsent'.trans hsent, hcalled'.trans hcalled⟩

end ApeServer.Mysql
