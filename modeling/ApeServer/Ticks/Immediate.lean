import ApeServer.Ticks.Deadlines

/-!
# Timers without a delay

`process_tick` calls a callback while its timer is still the first one, and then makes the
node behind that timer the first one. What the callback has added in front of its timer goes
with it.
-/
namespace ApeServer.Ticks

open Sock (toInt32 toInt32_of_range)

/-- The arguments of `add_periodical`, with any delay that an `int` holds; `add_timeout`
leaves `times` at 1. -/
structure Asked (φ : Type) where
  msec : ℕ
  times : ℤ
  func : φ
  range : msec < 2 ^ 31

/-- What one call of a callback does: the timers it adds, and what it leaves of its flag. -/
structure Answer (φ : Type) where
  adds : List (Asked φ)
  flag : Bool → Bool

/-- The timers. An identifier stands for its timer, so `ntimers` does not wrap. -/
structure Table (φ : Type) where
  timers : List (TicksCallback φ)
  ntimers : ℕ

/-- A call in a tick: its node as the callback finds it, but for `times`, the identifier of
the first timer it adds, and what it does. -/
structure Ran (φ : Type) where
  node : TicksCallback φ
  ntimers : ℕ
  answer : Answer φ

variable {φ : Type}

/-- The timer is not to be repeated. -/
def Ran.over (c : Ran φ) : Bool := c.answer.flag (lastcall c.node.times)

namespace Table

def addPeriodical (s : Table φ) (r : Asked φ) : Table φ :=
  { timers := insert ⟨r.msec, r.msec, r.times, s.ntimers, r.func⟩ s.timers
    ntimers := s.ntimers + 1 }

/-- The body of the loop of `process_tick`, for a node whose delta has run out. -/
def call (s : Table φ) (a : Answer φ) (t : TicksCallback φ) (ts : List (TicksCallback φ)) :
    Table φ :=
  let lastcall := a.flag (lastcall t.times)
  let t := { t with times := left t.times }
  let s := a.adds.foldl addPeriodical { s with timers := t :: ts }
  let rest := Timers.next t.identifier s.timers
  let rest := if lastcall then rest else insert { t with delta := t.ticks_need } rest
  { s with timers := Timers.bump rest }

/-- `del_timer_identifier`. -/
def delTimerIdentifier (s : Table φ) (identifier : ℕ) : Table φ :=
  { s with timers := s.timers.eraseP fun t => t.identifier = identifier }

/-- `process_tick` where the calls do the given, one after the other: the calls it makes and
what it leaves. `none` when it goes on after the last of them. -/
def processTick (answers : List (Answer φ)) (s : Table φ) :
    Option (List (Ran φ) × Table φ) :=
  match s.timers with
  | [] => some ([], s)
  | t :: ts =>
    let t := { t with delta := toInt32 (t.delta - 1) }
    if t.delta ≤ 0 then
      match answers with
      | [] => none
      | a :: answers =>
        (processTick answers (s.call a t ts)).map fun r => (⟨t, s.ntimers, a⟩ :: r.1, r.2)
    else some ([], { s with timers := t :: ts })

end Table

/-! ### One insertion -/

/-- A node without its delta. -/
def TicksCallback.timer (t : TicksCallback φ) : Entry φ := t.entry.2

variable {t new : TicksCallback φ} {l front back ts : List (TicksCallback φ)}

theorem insert_timers (new : TicksCallback φ) (l : List (TicksCallback φ)) :
    ((insert new l).map TicksCallback.timer).Perm (new.timer :: l.map TicksCallback.timer) := by
  induction l generalizing new with
  | nil => exact .refl _
  | cons t l ih =>
    unfold insert
    split
    · exact .refl _
    · exact ((ih _).cons t.timer).trans (.swap ..)

theorem bump_timers (l : List (TicksCallback φ)) :
    (Timers.bump l).map TicksCallback.timer = l.map TicksCallback.timer := by
  cases l <;> rfl

/-- A timer without a delay goes in front of a timer that has none left. -/
theorem insert_front (hf : ∀ u ∈ front, u.delta = 0) (ht : t.delta = 0) (hn : new.delta = 0) :
    insert new (front ++ t :: back) = new :: (front ++ t :: back) := by
  have hfirst : ∀ (u : TicksCallback φ) (us : List (TicksCallback φ)), u.delta = 0 →
      insert new (u :: us) = new :: u :: us := by
    intro u us hu
    have hu' : { u with delta := toInt32 (u.delta - new.delta) } = u := by
      rw [hu, hn]
      cases u
      cases hu
      rfl
    rw [insert, if_pos (by omega), hu']
  cases front with
  | nil => exact hfirst t back ht
  | cons u front => exact hfirst u _ (hf u List.mem_cons_self)

/-- Any other goes behind a timer that is due. -/
theorem insert_behind (hf : ∀ u ∈ front, u.delta = 0) (h₀ : front = [] ∨ 0 < new.delta)
    (h₁ : new.delta < 2 ^ 31) (ht : t.delta < new.delta) :
    insert new (front ++ t :: back) =
      front ++ t :: insert { new with delta := toInt32 (new.delta - t.delta) } back := by
  induction front with
  | nil => rw [List.nil_append, insert, if_neg (by omega), List.nil_append]
  | cons u front ih =>
    have hu : u.delta = 0 := hf u List.mem_cons_self
    have hpos : 0 < new.delta := by
      rcases h₀ with h | h
      · cases h
      · exact h
    have hsame : { new with delta := toInt32 (new.delta - u.delta) } = new := by
      rw [hu, sub_zero, toInt32_of_range (by omega) (by omega)]
    rw [List.cons_append, insert, if_neg (by omega), hsame,
      ih (fun w hw => hf w (List.mem_cons_of_mem u hw)) (.inr hpos), List.cons_append]

/-! ### One call -/

/-- The timer that is asked for. -/
def Asked.timer (r : Asked φ) (identifier : ℕ) : Entry φ :=
  ⟨r.msec, r.times, identifier, r.func⟩

/-- The timers that are asked for, the first with the identifier `n`. -/
def made (n : ℕ) : List (Asked φ) → List (Entry φ)
  | [] => []
  | r :: rs => r.timer n :: made (n + 1) rs

/-- Those of them that stay when the delta of the timer that is called is `d`. -/
def kept (d : ℤ) (n : ℕ) (rs : List (Asked φ)) : List (Entry φ) :=
  (made n rs).filter fun e => ¬(d = 0 ∧ e.ticks_need = 0)

/-- The list while `t` is called: in front of it only what goes with it, behind it `es`. -/
def Around (t : TicksCallback φ) (l : List (TicksCallback φ)) (es : List (Entry φ)) : Prop :=
  ∃ front back, l = front ++ t :: back ∧ (∀ u ∈ front, u.delta = 0) ∧
    (∀ u ∈ front, u.identifier ≠ t.identifier) ∧ (t.delta ≠ 0 → front = []) ∧
    (back.map TicksCallback.timer).Perm es

variable {s s' : Table φ} {es : List (Entry φ)} {rs : List (Asked φ)} {r : Asked φ}
  {a : Answer φ} {cs : List (Ran φ)} {e : Entry φ}

/-- One timer that is added during the call. -/
theorem Around.add (h : Around t s.timers es) (ht : t.delta ≤ 0) (hn : t.identifier < s.ntimers) :
    Around t (s.addPeriodical r).timers
      (if t.delta = 0 ∧ r.msec = 0 then es else r.timer s.ntimers :: es) := by
  obtain ⟨front, back, hl, hzero, hids, hneg, hback⟩ := h
  simp only [Table.addPeriodical, hl]
  split
  · next hz =>
    rw [insert_front hzero hz.1 (by simp [hz.2])]
    refine ⟨_ :: front, back, rfl, fun u hu => ?_, fun u hu => ?_, fun h => absurd hz.1 h,
      hback⟩
    · rcases List.mem_cons.mp hu with rfl | hu
      · simp [hz.2]
      · exact hzero u hu
    · rcases List.mem_cons.mp hu with rfl | hu
      · exact hn.ne'
      · exact hids u hu
  · next hz =>
    have hr : r.msec < 2 ^ 31 := r.range
    have hpos : front = [] ∨ 0 < (r.msec : ℤ) := by
      by_cases hd : t.delta = 0
      · have : r.msec ≠ 0 := fun h => hz ⟨hd, h⟩
        omega
      · exact .inl (hneg hd)
    have hlt : t.delta < (r.msec : ℤ) := by
      by_cases hd : t.delta = 0
      · have : r.msec ≠ 0 := fun h => hz ⟨hd, h⟩
        omega
      · omega
    rw [insert_behind hzero hpos (by simp only; omega) hlt]
    refine ⟨front, _, rfl, hzero, hids, hneg, (insert_timers _ _).trans ?_⟩
    exact hback.cons _

/-- All the timers that are added during the call. -/
theorem Around.adds (rs : List (Asked φ)) (h : Around t s.timers es) (ht : t.delta ≤ 0)
    (hn : t.identifier < s.ntimers) :
    Around t (rs.foldl Table.addPeriodical s).timers (kept t.delta s.ntimers rs ++ es) ∧
      (rs.foldl Table.addPeriodical s).ntimers = s.ntimers + rs.length := by
  induction rs generalizing s es with
  | nil => exact ⟨h, rfl⟩
  | cons r rs ih =>
    obtain ⟨⟨front, back, hl, hzero, hids, hneg, hback⟩, hnum⟩ :=
      ih (h.add (r := r) ht hn) (Nat.lt_succ_of_lt hn)
    refine ⟨⟨front, back, hl, hzero, hids, hneg, hback.trans ?_⟩, ?_⟩
    · simp only [kept, made]
      split
      · next hz =>
        rw [List.filter_cons_of_neg (by simp [Asked.timer, hz])]
        exact .refl _
      · next hz =>
        have hz' : ¬(t.delta = 0 ∧ (r.timer s.ntimers).ticks_need = 0) := by
          simpa [Asked.timer] using hz
        rw [List.filter_cons, if_pos (decide_eq_true hz')]
        exact List.perm_middle
    · rw [List.foldl_cons, hnum, List.length_cons]
      exact Nat.add_right_comm s.ntimers 1 rs.length

theorem Around.next (h : Around t l es) :
    ((Timers.next t.identifier l).map TicksCallback.timer).Perm es := by
  obtain ⟨front, back, rfl, -, hids, -, hback⟩ := h
  induction front with
  | nil => simpa [Timers.next] using hback
  | cons u front ih =>
    rw [List.cons_append, Timers.next, if_neg (hids u List.mem_cons_self)]
    exact ih (fun w hw => hids w (List.mem_cons_of_mem u hw))

/-- What a call leaves in the list: the timer itself when it is to be repeated, those of the
new timers that stay, and those behind it. -/
theorem call_timers (a : Answer φ) (ts : List (TicksCallback φ)) (ht : t.delta ≤ 0)
    (hn : t.identifier < s.ntimers) :
    ((s.call a t ts).timers.map TicksCallback.timer).Perm
      ((if (⟨t, s.ntimers, a⟩ : Ran φ).over = true then []
          else [{ t.timer with times := left t.times }]) ++
        (kept t.delta s.ntimers a.adds ++ ts.map TicksCallback.timer)) ∧
      (s.call a t ts).ntimers = s.ntimers + a.adds.length := by
  have hstart : Around { t with times := left t.times }
      ({ s with timers := { t with times := left t.times } :: ts } : Table φ).timers
      (ts.map TicksCallback.timer) := ⟨[], ts, rfl, by simp, by simp, fun _ => rfl, .refl _⟩
  obtain ⟨hadds, hnum⟩ := hstart.adds a.adds ht hn
  refine ⟨?_, hnum⟩
  simp only [Table.call, bump_timers]
  by_cases hover : (⟨t, s.ntimers, a⟩ : Ran φ).over = true
  · have hflag : a.flag (lastcall t.times) = true := hover
    rw [if_pos hover, if_pos hflag]
    exact hadds.next
  · have hflag : ¬a.flag (lastcall t.times) = true := hover
    rw [if_neg hover, if_neg hflag]
    exact (insert_timers _ _).trans (hadds.next.cons _)

/-! ### Identifiers -/

/-- The timers of the list. -/
def Table.entries (s : Table φ) : List (Entry φ) := s.timers.map TicksCallback.timer

/-- No two timers have one identifier, and the next one is new. -/
def Numbered (n : ℕ) (es : List (Entry φ)) : Prop :=
  (es.map Entry.identifier).Nodup ∧ ∀ k ∈ es.map Entry.identifier, k < n

theorem Numbered.lt {n : ℕ} (h : Numbered n es) (he : e ∈ es) : e.identifier < n :=
  h.2 e.identifier (List.mem_map_of_mem he)

theorem made_ids (n : ℕ) (rs : List (Asked φ)) :
    (made n rs).map Entry.identifier = List.range' n rs.length := by
  induction rs generalizing n with
  | nil => rfl
  | cons r rs ih =>
    rw [made, List.map_cons, ih, List.length_cons, List.range'_succ]
    rfl

theorem made_range {n : ℕ} (he : e ∈ made n rs) :
    n ≤ e.identifier ∧ e.identifier < n + rs.length := by
  have hmem : e.identifier ∈ (made n rs).map Entry.identifier := List.mem_map_of_mem he
  rwa [made_ids, List.mem_range'_1] at hmem

theorem made_nodup (n : ℕ) (rs : List (Asked φ)) :
    ((made n rs).map Entry.identifier).Nodup := by
  rw [made_ids]
  exact List.nodup_range'

theorem made_need (P : ℤ → Prop) (n : ℕ) (rs : List (Asked φ)) :
    (∀ e ∈ made n rs, P e.ticks_need) ↔ ∀ r ∈ rs, P r.msec := by
  induction rs generalizing n with
  | nil => simp [made]
  | cons r rs ih => simp [made, Asked.timer, ih]

/-- The identifiers after a call are among those before it and new ones. -/
theorem call_ids (a : Answer φ) (ts : List (TicksCallback φ)) (ht : t.delta ≤ 0)
    (hn : t.identifier < s.ntimers) :
    ∃ ks, ks.Sublist (t.identifier :: (List.range' s.ntimers a.adds.length ++
        ts.map TicksCallback.identifier)) ∧
      ((s.call a t ts).entries.map Entry.identifier).Perm ks := by
  refine ⟨_, ?_, (call_timers a ts ht hn).1.map _⟩
  rw [List.map_append, List.map_append, List.map_map, ← made_ids]
  have hkept : ((kept t.delta s.ntimers a.adds).map Entry.identifier).Sublist
      ((made s.ntimers a.adds).map Entry.identifier) := List.filter_sublist.map _
  have hself : ((if (⟨t, s.ntimers, a⟩ : Ran φ).over = true then []
      else [{ t.timer with times := left t.times }]).map Entry.identifier).Sublist
        [t.identifier] := by
    split
    · exact List.nil_sublist _
    · exact .refl _
  exact hself.append (hkept.append (.refl _))

/-- The new timers get new identifiers. -/
theorem call_numbered (a : Answer φ) (ht : t.delta ≤ 0)
    (hn : Numbered s.ntimers ((t :: ts).map TicksCallback.timer)) :
    Numbered (s.call a t ts).ntimers (s.call a t ts).entries := by
  obtain ⟨hnodup, hlt⟩ := hn
  rw [List.map_map] at hnodup hlt
  have htn : t.identifier < s.ntimers := hlt _ List.mem_cons_self
  obtain ⟨ks, hks, hp⟩ := call_ids a ts ht htn
  have hnew : ∀ k ∈ List.range' s.ntimers a.adds.length,
      s.ntimers ≤ k ∧ k < s.ntimers + a.adds.length := fun k hk => List.mem_range'_1.mp hk
  have hall : (List.range' s.ntimers a.adds.length ++
      (t :: ts).map TicksCallback.identifier).Nodup := by
    refine List.Nodup.append List.nodup_range' hnodup fun k hk hk' => ?_
    have := hnew k hk
    have := hlt k hk'
    omega
  refine ⟨hp.nodup_iff.mpr ((List.perm_middle.nodup_iff.mp hall).sublist hks), fun k hk => ?_⟩
  rw [(call_timers a ts ht htn).2]
  have hk := hks.subset (hp.mem_iff.mp hk)
  rcases List.mem_cons.mp hk with rfl | hk
  · omega
  · rcases List.mem_append.mp hk with hk | hk
    · exact (hnew k hk).2
    · have := hlt k (List.mem_cons_of_mem _ hk)
      omega

/-! ### A tick -/

/-- A tick with the calls it makes. -/
inductive Ticked : Table φ → List (Ran φ) → Table φ → Prop
  | stop {s s' : Table φ} : s'.entries = s.entries → s'.ntimers = s.ntimers → Ticked s [] s'
  | call {s s' : Table φ} {t : TicksCallback φ} {ts : List (TicksCallback φ)} {a : Answer φ}
      {cs : List (Ran φ)} : s.entries = (t :: ts).map TicksCallback.timer → t.delta ≤ 0 →
      Ticked (s.call a t ts) cs s' → Ticked s (⟨t, s.ntimers, a⟩ :: cs) s'

theorem ticked_of_processTick {answers : List (Answer φ)}
    (h : s.processTick answers = some (cs, s')) : Ticked s cs s' := by
  induction answers generalizing s cs with
  | nil =>
    unfold Table.processTick at h
    split at h
    · cases h
      exact .stop rfl rfl
    · next t ts hs =>
      simp only at h
      split at h
      · cases h
      · cases h
        exact .stop (by simp only [Table.entries, hs]; rfl) rfl
  | cons a answers ih =>
    unfold Table.processTick at h
    split at h
    · cases h
      exact .stop rfl rfl
    · next t ts hs =>
      simp only at h
      split at h
      · next hd =>
        obtain ⟨⟨cs', s''⟩, hrun, he⟩ := Option.map_eq_some_iff.mp h
        cases he
        exact .call (by simp only [Table.entries, hs]; rfl) hd (ih hrun)
      · cases h
        exact .stop (by simp only [Table.entries, hs]; rfl) rfl

theorem addPeriodical_numbered (hn : Numbered s.ntimers s.entries) (r : Asked φ) :
    Numbered (s.addPeriodical r).ntimers (s.addPeriodical r).entries := by
  have hp : ((s.addPeriodical r).entries.map Entry.identifier).Perm
      (s.ntimers :: s.entries.map Entry.identifier) := (insert_timers _ _).map _
  refine ⟨hp.nodup_iff.mpr (List.nodup_cons.mpr ⟨fun hm => ?_, hn.1⟩), fun k hk => ?_⟩
  · exact absurd (hn.2 _ hm) (lt_irrefl _)
  · rcases List.mem_cons.mp (hp.mem_iff.mp hk) with rfl | hk
    · exact Nat.lt_succ_self _
    · exact Nat.lt_succ_of_lt (hn.2 k hk)

/-- A tick leaves every timer an identifier of its own. -/
theorem Ticked.numbered (h : Ticked s cs s') (hn : Numbered s.ntimers s.entries) :
    Numbered s'.ntimers s'.entries := by
  induction h with
  | stop hs hm => rwa [hs, hm]
  | call hs ht _ ih =>
    rw [hs] at hn
    exact ih (call_numbered _ ht hn)

theorem delTimerIdentifier_numbered (hn : Numbered s.ntimers s.entries) (k : ℕ) :
    Numbered (s.delTimerIdentifier k).ntimers (s.delTimerIdentifier k).entries := by
  have hsub : ((s.delTimerIdentifier k).entries.map Entry.identifier).Sublist
      (s.entries.map Entry.identifier) := (List.eraseP_sublist.map _).map _
  exact ⟨hn.1.sublist hsub, fun j hj => hn.2 j (hsub.subset hj)⟩

/-- The tables that timers are added to and taken from, with ticks in between. -/
inductive Reached : Table φ → Prop
  | init : Reached ⟨[], 0⟩
  | add {s : Table φ} (r : Asked φ) : Reached s → Reached (s.addPeriodical r)
  | del {s : Table φ} (k : ℕ) : Reached s → Reached (s.delTimerIdentifier k)
  | tick {s s' : Table φ} {answers : List (Answer φ)} {cs : List (Ran φ)} : Reached s →
      s.processTick answers = some (cs, s') → Reached s'

theorem Reached.numbered (h : Reached s) : Numbered s.ntimers s.entries := by
  induction h with
  | init => simp [Numbered, Table.entries]
  | add r _ ih => exact addPeriodical_numbered ih r
  | del k _ ih => exact delTimerIdentifier_numbered ih k
  | tick _ h ih => exact (ticked_of_processTick h).numbered ih

/-- The same timer; its `times` may have changed. -/
def Entry.Same (e e' : Entry φ) : Prop :=
  e.identifier = e'.identifier ∧ e.ticks_need = e'.ticks_need ∧ e.func = e'.func

/-- The timer is in the list after the calls, or was called and is not to be repeated. -/
def Found (cs : List (Ran φ)) (s : Table φ) (e : Entry φ) : Prop :=
  (∃ e' ∈ s.entries, e'.Same e) ∨ ∃ c ∈ cs, c.node.timer.Same e ∧ c.over = true

/-- No timer that was added by one of the calls is lost. -/
def NoneLost (cs : List (Ran φ)) (s : Table φ) : Prop :=
  ∀ c ∈ cs, ∀ e ∈ made c.ntimers c.answer.adds, Found cs s e

/-- No call of a timer whose delta has come down to zero adds one without a delay. -/
def Delayed (cs : List (Ran φ)) : Prop :=
  ∀ c ∈ cs, c.node.delta = 0 → ∀ r ∈ c.answer.adds, r.msec ≠ 0

/-- What is in the list before a call is there after it, or its last call was that one. -/
theorem Ticked.found (h : Ticked s cs s') (hn : Numbered s.ntimers s.entries)
    (he : e ∈ s.entries) :
    Found cs s' e := by
  induction h generalizing e with
  | stop hs _ => exact .inl ⟨e, hs ▸ he, rfl, rfl, rfl⟩
  | @call s s' t ts a cs hs ht _ ih =>
    rw [hs] at hn he
    have hcalled := call_numbered a ht hn
    have hp := (call_timers a ts ht (hn.lt List.mem_cons_self)).1
    have hlater : ∀ {e'}, e' ∈ (s.call a t ts).entries → e'.Same e →
        Found (⟨t, s.ntimers, a⟩ :: cs) s' e := by
      intro e' he' hsame
      rcases ih hcalled he' with ⟨e'', hm, h1, h2, h3⟩ | ⟨c, hc, ⟨h1, h2, h3⟩, ho⟩
      · exact .inl ⟨e'', hm, h1.trans hsame.1, h2.trans hsame.2.1, h3.trans hsame.2.2⟩
      · exact .inr ⟨c, List.mem_cons_of_mem _ hc,
          ⟨h1.trans hsame.1, h2.trans hsame.2.1, h3.trans hsame.2.2⟩, ho⟩
    rcases List.mem_cons.mp he with rfl | he
    · by_cases hover : (⟨t, s.ntimers, a⟩ : Ran φ).over = true
      · exact .inr ⟨_, List.mem_cons_self, ⟨rfl, rfl, rfl⟩, hover⟩
      · have hagain : ({ t.timer with times := left t.times } : Entry φ) ∈
            (s.call a t ts).entries := by
          refine hp.mem_iff.mpr (List.mem_append_left _ ?_)
          rw [if_neg hover]
          exact List.mem_singleton_self _
        exact hlater hagain ⟨rfl, rfl, rfl⟩
    · exact hlater (hp.mem_iff.mpr (List.mem_append_right _ (List.mem_append_right _ he)))
        ⟨rfl, rfl, rfl⟩

/-- A timer that is gone stays away. -/
theorem Ticked.gone (h : Ticked s cs s') (hn : Numbered s.ntimers s.entries) {k : ℕ}
    (hk : k < s.ntimers) (hgone : k ∉ s.entries.map Entry.identifier) :
    k ∉ s'.entries.map Entry.identifier ∧ ∀ c ∈ cs, c.node.identifier ≠ k := by
  induction h with
  | stop hs _ =>
    rw [hs]
    exact ⟨hgone, by simp⟩
  | @call s s' t ts a cs hs ht _ ih =>
    rw [hs] at hn hgone
    have htn : t.identifier < s.ntimers := hn.lt List.mem_cons_self
    rw [List.map_map] at hgone
    have hne : t.identifier ≠ k := fun h => hgone (h ▸ List.mem_cons_self)
    obtain ⟨ks, hks, hp⟩ := call_ids a ts ht htn
    have hgone' : k ∉ (s.call a t ts).entries.map Entry.identifier := by
      intro hm
      rcases List.mem_cons.mp (hks.subset (hp.mem_iff.mp hm)) with hm | hm
      · exact hne hm.symm
      · rcases List.mem_append.mp hm with hm | hm
        · have := (List.mem_range'_1.mp hm).1
          omega
        · exact hgone (List.mem_cons_of_mem _ hm)
    have hlt : k < (s.call a t ts).ntimers := by
      rw [(call_timers a ts ht htn).2]
      omega
    obtain ⟨h1, h2⟩ := ih (call_numbered a ht hn) hlt hgone'
    refine ⟨h1, fun c hc => ?_⟩
    rcases List.mem_cons.mp hc with rfl | hc
    · exact hne
    · exact h2 c hc

/-- Identifiers are given out in order. -/
theorem Ticked.ntimers_le (h : Ticked s cs s') (hn : Numbered s.ntimers s.entries) :
    ∀ c ∈ cs, s.ntimers ≤ c.ntimers := by
  induction h with
  | stop => simp
  | @call s s' t ts a cs hs ht _ ih =>
    rw [hs] at hn
    intro c hc
    rcases List.mem_cons.mp hc with rfl | hc
    · exact le_rfl
    · have := ih (call_numbered a ht hn) c hc
      rw [(call_timers a ts ht (hn.lt List.mem_cons_self)).2] at this
      omega

/-- A timer that is added stays if it has a delay, or if the one that is called is overdue. -/
theorem Ticked.added_iff {t : TicksCallback φ} {ts : List (TicksCallback φ)}
    (h : Ticked (s.call a t ts) cs s') (ht : t.delta ≤ 0)
    (hn : Numbered s.ntimers ((t :: ts).map TicksCallback.timer))
    (he : e ∈ made s.ntimers a.adds) :
    Found cs s' e ↔ ¬(t.delta = 0 ∧ e.ticks_need = 0) := by
  have htn : t.identifier < s.ntimers := hn.lt List.mem_cons_self
  have hcalled := call_numbered a ht hn
  obtain ⟨hp, hnum⟩ := call_timers a ts ht htn
  obtain ⟨hge, hlt⟩ := made_range he
  constructor
  · intro hf hz
    -- it went with the nodes in front of the one that was called
    have hgone : e.identifier ∉ (s.call a t ts).entries.map Entry.identifier := by
      intro hm
      obtain ⟨e', he', hid⟩ := List.mem_map.mp hm
      rcases List.mem_append.mp (hp.mem_iff.mp he') with he' | he'
      · split at he'
        · cases he'
        · rw [List.mem_singleton.mp he'] at hid
          have hid : t.identifier = e.identifier := hid
          omega
      · rcases List.mem_append.mp he' with he' | he'
        · obtain ⟨hmade, hkept⟩ := List.mem_filter.mp he'
          rw [List.inj_on_of_nodup_map (made_nodup _ _) hmade he hid] at hkept
          exact of_decide_eq_true hkept hz
        · have := hn.lt (List.mem_cons_of_mem _ he')
          omega
    obtain ⟨hlist, hcalls⟩ := h.gone hcalled (by rw [hnum]; exact hlt) hgone
    rcases hf with ⟨e', he', hsame⟩ | ⟨c, hc, hsame, -⟩
    · exact hlist (hsame.1 ▸ List.mem_map_of_mem he')
    · exact hcalls c hc hsame.1
  · intro hz
    refine h.found hcalled (hp.mem_iff.mpr (List.mem_append_right _ (List.mem_append_left _ ?_)))
    exact List.mem_filter.mpr ⟨he, decide_eq_true hz⟩

theorem found_cons {c : Ran φ} (h : c.node.identifier ≠ e.identifier) :
    Found (c :: cs) s e ↔ Found cs s e := by
  unfold Found
  constructor
  · rintro (hl | ⟨d, hd, hsame, ho⟩)
    · exact .inl hl
    · rcases List.mem_cons.mp hd with rfl | hd
      · exact absurd hsame.1 h
      · exact .inr ⟨d, hd, hsame, ho⟩
  · rintro (hl | ⟨d, hd, hsame⟩)
    · exact .inl hl
    · exact .inr ⟨d, List.mem_cons_of_mem c hd, hsame⟩

theorem Ticked.noneLost_iff (h : Ticked s cs s') (hn : Numbered s.ntimers s.entries) :
    NoneLost cs s' ↔ Delayed cs := by
  induction h with
  | stop => simp [NoneLost, Delayed]
  | @call s s' t ts a cs hs ht hrun ih =>
    rw [hs] at hn
    have htn : t.identifier < s.ntimers := hn.lt List.mem_cons_self
    have hcalled := call_numbered a ht hn
    have hle := hrun.ntimers_le hcalled
    rw [(call_timers a ts ht htn).2] at hle
    have hfirst : (∀ e ∈ made s.ntimers a.adds, Found (⟨t, s.ntimers, a⟩ :: cs) s' e) ↔
        (t.delta = 0 → ∀ r ∈ a.adds, r.msec ≠ 0) := by
      have heach : ∀ e ∈ made s.ntimers a.adds, Found (⟨t, s.ntimers, a⟩ :: cs) s' e ↔
          ¬(t.delta = 0 ∧ e.ticks_need = 0) := by
        intro e he
        have hge := (made_range he).1
        rw [found_cons (by simp only; omega), hrun.added_iff ht hn he]
      have hneed := made_need (fun d => ¬(t.delta = 0 ∧ d = 0)) s.ntimers a.adds
      rw [forall₂_congr heach, hneed]
      refine ⟨fun h hz r hr h0 => h r hr ⟨hz, by simp [h0]⟩, fun h r hr ⟨hz, h0⟩ => ?_⟩
      exact h hz r hr (by simpa using h0)
    have hrest : (∀ c ∈ cs, ∀ e ∈ made c.ntimers c.answer.adds,
        Found (⟨t, s.ntimers, a⟩ :: cs) s' e) ↔ NoneLost cs s' := by
      refine forall₂_congr fun c hc => forall₂_congr fun e he => found_cons ?_
      have h1 := hle c hc
      have h2 := (made_range he).1
      simp only
      omega
    unfold NoneLost Delayed
    rw [List.forall_mem_cons, List.forall_mem_cons, hfirst, hrest, ih hcalled]
    rfl

/-- No timer is lost in a tick exactly when no callback whose timer has come down to zero
adds one without a delay. -/
theorem processTick_noneLost_iff {answers : List (Answer φ)}
    (hn : Numbered s.ntimers s.entries) (h : s.processTick answers = some (cs, s')) :
    NoneLost cs s' ↔ Delayed cs := (ticked_of_processTick h).noneLost_iff hn

/-- A tick whose only timer is due and whose callback adds a timer. -/
def single (msec : ℕ) (range : msec < 2 ^ 31) : List (Answer Unit) :=
  [⟨[⟨msec, 1, (), range⟩], id⟩]

theorem processTick_noneLost_five : NoneLost
    [⟨⟨1, 0, 1, 0, ()⟩, 1, ⟨[⟨5, 1, (), by decide⟩], id⟩⟩]
    (⟨[⟨5, 5, 1, 1, ()⟩], 2⟩ : Table Unit) := by
  have hrun : (⟨[⟨1, 1, 1, 0, ()⟩], 1⟩ : Table Unit).processTick (single 5 (by decide)) =
      some ([⟨⟨1, 0, 1, 0, ()⟩, 1, ⟨[⟨5, 1, (), by decide⟩], id⟩⟩], ⟨[⟨5, 5, 1, 1, ()⟩], 2⟩) := rfl
  refine (processTick_noneLost_iff ?_ hrun).mpr ?_
  · simp [Numbered, Table.entries, TicksCallback.timer, TicksCallback.entry]
  · simp [Delayed]

theorem immediate_lost : ¬∀ (answers : List (Answer Unit)) (s s' : Table Unit)
    (cs : List (Ran Unit)), Numbered s.ntimers s.entries →
    s.processTick answers = some (cs, s') → NoneLost cs s' := by
  intro h
  have hrun : (⟨[⟨1, 1, 1, 0, ()⟩], 1⟩ : Table Unit).processTick (single 0 (by decide)) =
      some ([⟨⟨1, 0, 1, 0, ()⟩, 1, ⟨[⟨0, 1, (), by decide⟩], id⟩⟩], ⟨[], 2⟩) := rfl
  have hnum : Numbered 1 (⟨[⟨1, 1, 1, 0, ()⟩], 1⟩ : Table Unit).entries := by
    simp [Numbered, Table.entries, TicksCallback.timer, TicksCallback.entry]
  have hlost := h _ _ _ _ hnum hrun _ (List.mem_singleton_self _) _ List.mem_cons_self
  simp [Found, Table.entries, Entry.Same, Asked.timer, TicksCallback.timer,
    TicksCallback.entry] at hlost

end ApeServer.Ticks
