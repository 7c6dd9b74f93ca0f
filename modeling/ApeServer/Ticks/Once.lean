import ApeServer.Ticks.Settling

/-!
# How often a timer runs in a tick

A timer that is put back without a delay is due again in the same tick.
-/
namespace ApeServer.Ticks

open Agenda (Settled due InOrder)

variable {φ : Type} {s s' : Table φ} {a : Answer φ} {answers : List (Answer φ)}
  {cs : List (Ran φ)} {e : Entry φ}

/-- The timers that the next tick finds due. -/
def dueNext (s : Table φ) : List (Entry φ) := due (elapse (remaining s.timers))

/-- The tick ends when its calls get the answers of `react` in turn, and no timer runs twice. -/
def RunsOnce (s : Table φ) (react : ℕ → Answer φ) : Prop :=
  ∃ n cs s', s.processTick ((List.range n).map react) = some (cs, s') ∧
    (cs.map fun c => c.node.identifier).Nodup

/-- Of the timers that are due, none without a delay is to be repeated. -/
def NoneImmediate (s : Table φ) (react : ℕ → Answer φ) : Prop :=
  ∀ k e, (dueNext s)[k]? = some e → e.ticks_need = 0 →
    (react k).flag (lastcall e.times) = true

theorem taken_identifiers (cs : List (Ran φ)) :
    ((cs.map Ran.taken).map fun c => c.1.identifier) = cs.map fun c => c.node.identifier := by
  rw [List.map_map]
  rfl

theorem dueNext_sublist (s : Table φ) : (dueNext s).Sublist s.entries := by
  have hall : ((elapse (remaining s.timers)).map Prod.snd) = s.entries := by
    rw [elapse_snd, remaining_snd]
    rfl
  rw [← hall]
  exact (List.takeWhile_sublist _).map _

theorem need_nonneg (h : Sound s) : ∀ e ∈ s.entries, 0 ≤ e.ticks_need := by
  intro e he
  obtain ⟨t, ht, rfl⟩ := List.mem_map.mp he
  exact (h.range.need t ht).1

theorem prefix_answer {n k : ℕ} {react : ℕ → Answer φ} {c : Ran φ}
    (h : cs.map Ran.answer <+: (List.range n).map react) (hk : cs[k]? = some c) :
    c.answer = react k := by
  obtain ⟨hlt, rfl⟩ := List.getElem?_eq_some_iff.mp hk
  have hget := h.getElem (i := k) (by simpa using hlt)
  simpa using hget

theorem RunsOnce.noneImmediate (hs : Sound s) {react : ℕ → Answer φ}
    (hq : ∀ k, (react k).adds = []) (h : RunsOnce s react) : NoneImmediate s react := by
  obtain ⟨n, cs, s', hrun, hd⟩ := h
  have hquiet : Quiet ((List.range n).map react) := by
    intro a ha
    obtain ⟨k, -, rfl⟩ := List.mem_map.mp ha
    exact hq k
  obtain ⟨hset, -⟩ := tick_settled hquiet hs.range hrun
  have horder := remaining_inOrder hs.range.delta
  have hentries : ∀ p ∈ elapse (remaining s.timers), 0 ≤ p.2.ticks_need ∧ 0 ≤ p.1 := by
    intro p hp
    refine ⟨need_nonneg hs p.2 ?_, elapse_nonneg horder (remaining_nonneg hs.range.delta) p hp⟩
    have hm : p.2 ∈ (elapse (remaining s.timers)).map Prod.snd := List.mem_map_of_mem hp
    rwa [elapse_snd, remaining_snd] at hm
  have hagain : ∀ e a p, 0 ≤ e.ticks_need → again e a = some p →
      0 ≤ (p.2 : Entry φ).ticks_need ∧ 0 ≤ p.1 := by
    intro e a p he hp
    rw [(again_some hp).2]
    exact ⟨he, he⟩
  obtain ⟨hfst, hpos⟩ := hset.once again_identifier hagain (elapse_inOrder horder) hentries
    (by rwa [taken_identifiers])
  intro k e hk hzero
  have hfst' : cs.map (fun c => c.node.timer) = dueNext s := by
    rw [List.map_map] at hfst
    exact hfst
  rw [← hfst', List.getElem?_map] at hk
  obtain ⟨c, hc, rfl⟩ := Option.map_eq_some_iff.mp hk
  have hanswer := prefix_answer (processTick_answers hrun) hc
  rw [← hanswer]
  by_contra hf
  have hp := hpos (c.node.timer, c.answer)
    (List.mem_map.mpr ⟨c, List.mem_of_getElem? hc, rfl⟩) (c.node.timer.ticks_need, _)
    (if_neg (by exact hf))
  exact absurd hzero hp.ne'

theorem NoneImmediate.runsOnce (hs : Sound s) {react : ℕ → Answer φ}
    (hq : ∀ k, (react k).adds = []) (h : NoneImmediate s react) : RunsOnce s react := by
  have hlen : ((List.range (dueNext s).length).map react).length = (dueNext s).length := by simp
  have hpos : ∀ c ∈ (dueNext s).zip ((List.range (dueNext s).length).map react),
      ∀ p, again c.1 c.2 = some p → 0 < p.1 := by
    intro c hc p hp
    obtain ⟨k, hk, hget⟩ := List.getElem_of_mem hc
    rw [List.getElem_zip, List.getElem_map, List.getElem_range] at hget
    have hkd : k < (dueNext s).length := by simpa using hk
    have hnn := need_nonneg hs c.1 ((dueNext_sublist s).subset (List.of_mem_zip hc).1)
    obtain ⟨hf, he⟩ := again_some hp
    rw [he]
    refine lt_of_le_of_ne hnn fun hzero => ?_
    have hover := h k c.1 (by rw [← hget]; exact List.getElem?_eq_getElem hkd) hzero.symm
    rw [← hget] at hf hover
    rw [hover] at hf
    cases hf
  obtain ⟨D, hD⟩ := Settled.of_due hlen hpos
  have hsnd : ((dueNext s).zip ((List.range (dueNext s).length).map react)).map Prod.snd =
      (List.range (dueNext s).length).map react := List.map_snd_zip hlen.le
  have hquiet : Quiet (((dueNext s).zip ((List.range (dueNext s).length).map react)).map
      Prod.snd) := by
    rw [hsnd]
    intro a ha
    obtain ⟨k, -, rfl⟩ := List.mem_map.mp ha
    exact hq k
  obtain ⟨cs, s', hrun, htaken, -⟩ := tick_of_settled hquiet hs.range hD
  rw [hsnd] at hrun
  refine ⟨_, cs, s', hrun, ?_⟩
  have hfst : cs.map (fun c => c.node.timer) = dueNext s := by
    have hmap := congrArg (List.map Prod.fst) htaken
    rw [List.map_map, List.map_fst_zip hlen.ge] at hmap
    exact hmap
  have hids : (cs.map fun c => c.node.identifier) = (dueNext s).map Entry.identifier := by
    rw [← hfst, List.map_map]
    rfl
  rw [hids]
  exact hs.numbered.1.sublist ((dueNext_sublist s).map _)

/-- A tick whose callbacks add no timers ends after one call of each timer that is due, exactly
when none of these is to be repeated without a delay. -/
theorem processTick_once_iff (hs : Built s) {react : ℕ → Answer φ}
    (hq : ∀ k, (react k).adds = []) : RunsOnce s react ↔ NoneImmediate s react :=
  ⟨fun h => h.noneImmediate hs.sound hq, fun h => h.runsOnce hs.sound hq⟩

/-- A timer that is repeated every tick. -/
def everyTick : Asked Unit := ⟨1, 0, (), by decide⟩

theorem processTick_once_every :
    RunsOnce ((⟨[], 0⟩ : Table Unit).addPeriodical everyTick) fun _ => ⟨[], id⟩ := by
  refine (processTick_once_iff (.add everyTick .init) fun _ => rfl).mpr fun k e hk hzero => ?_
  have hdue : dueNext ((⟨[], 0⟩ : Table Unit).addPeriodical everyTick) = [⟨1, 0, 0, ()⟩] := rfl
  rw [hdue] at hk
  rw [List.mem_singleton.mp (List.mem_of_getElem? hk)] at hzero
  cases hzero

theorem no_delay_range : 0 < 2 ^ 31 := by decide

/-- A timer that is repeated without a delay. -/
def noDelay : Asked Unit := ⟨0, 0, (), no_delay_range⟩

theorem processTick_endless : ¬∀ (s : Table Unit) (react : ℕ → Answer Unit), Built s →
    (∀ k, (react k).adds = []) → RunsOnce s react := by
  intro h
  have hs : Built ((⟨[], 0⟩ : Table Unit).addPeriodical noDelay) := .add noDelay .init
  have hnone := (h _ (fun _ => ⟨[], id⟩) hs fun _ => rfl).noneImmediate hs.sound fun _ => rfl
  have hdue : dueNext ((⟨[], 0⟩ : Table Unit).addPeriodical noDelay) = [⟨0, 0, 0, ()⟩] := rfl
  have hover := hnone 0 ⟨0, 0, 0, ()⟩ (by rw [hdue]; rfl) rfl
  cases hover

end ApeServer.Ticks
