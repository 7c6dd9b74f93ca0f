import ApeServer.Server.Sound

/-!
# `check_timeout`

The two loops of `check_timeout` delete users and subusers from the lists they walk over.
In a sound state they find every node, and they end.
-/
namespace ApeServer.Ape

open Sock (Bytes)
open Steps (ok_bind bind_ok)

variable {s s' : Ape} {u : UserId} {i : SubId} {x : User} {y : Subuser}

/-! ### What writing to a connection leaves alone -/

section Send

variable {fd : Fd} {w : Written}

@[simp]
theorem send_users : (s.send fd w).2.users = s.users := by
  unfold send
  simp only
  split_ifs <;> rfl

@[simp]
theorem send_subs : (s.send fd w).2.subs = s.subs := by
  unfold send
  simp only
  split_ifs <;> rfl

@[simp]
theorem safeShutdown_users : (s.safeShutdown fd).users = s.users := by
  unfold safeShutdown
  simp only
  split <;> rfl

@[simp]
theorem safeShutdown_subs : (s.safeShutdown fd).subs = s.subs := by
  unfold safeShutdown
  simp only
  split <;> rfl

variable {transport : Transport}

@[simp]
theorem sendHeaders_roster : (s.sendHeaders fd y transport).2.roster = s.roster := by
  unfold sendHeaders
  split <;> simp

@[simp]
theorem sendHeaders_users : (s.sendHeaders fd y transport).2.users = s.users := by
  unfold sendHeaders
  split <;> simp

@[simp]
theorem sendHeaders_subs : (s.sendHeaders fd y transport).2.subs = s.subs := by
  unfold sendHeaders
  split <;> simp

end Send

/-- `send_raws` on a subuser with a live user: what is queued is taken, and nothing else of
the records changes. -/
theorem sendRaws_spec (hy : s.subs i = some y) (hu : y.user = some u) (hx : s.users u = some x) :
    ∃ b s' y', s.sendRaws i = .ok (b, s') ∧ s'.roster = s.roster ∧ s'.users = s.users ∧
      s'.subs = Function.update s.subs i (some y') ∧ y'.user = some u ∧ y'.links = y.links := by
  simp only [sendRaws, sub_eq hy, ok_bind, deref_eq hu, user_eq hx]
  split
  · exact ⟨_, _, y, rfl, rfl, rfl, (Function.update_eq_self_iff.mpr hy.symm).symm, hu, rfl⟩
  · refine ⟨_, _, { y with headersSent := true, low := [], high := [] }, rfl, ?_, ?_, ?_, hu, rfl⟩
    · refine (roster_setSub_of (y := y) (by simpa using hy) ?_).trans ?_
      · rfl
      · simp
    · exact send_users.trans sendHeaders_users
    · exact congrArg (Function.update · i _) (send_subs.trans sendHeaders_subs)

theorem doDied_users (hl : s.doDied i = .ok s') : s'.users = s.users := by
  obtain ⟨y, hy, -⟩ := bind_ok hl
  rw [doDied_eq (sub_ok hy)] at hl
  cases hl
  split
  · exact safeShutdown_users
  · rfl

theorem transportDataCompletlySent_spec (hy : s.subs i = some y) (transport : Transport) :
    ∃ s', s.transportDataCompletlySent i transport = .ok s' ∧ s'.roster = s.roster ∧
      s'.users = s.users := by
  cases transport <;> simp only [transportDataCompletlySent] <;>
    first
      | exact ⟨s, rfl, rfl, rfl⟩
      | exact ⟨_, doDied_eq hy, doDied_roster (doDied_eq hy), doDied_users (doDied_eq hy)⟩

/-! ### The subusers of one user -/

/-- One round over a subuser of the list: it is deleted, or nobody's links change. -/
theorem tickSub_spec (h : s.roster.Sound) (hx : s.users u = some x) (hi : i ∈ x.subuser) :
    ∃ s', s.tickSub u i = .ok s' ∧ s'.roster.Sound ∧ (∀ l, s.roster.Lists l → s'.roster.Lists l) ∧
      ∃ x', s'.users u = some x' ∧ ∀ j ∈ x.subuser, j ≠ i → j ∈ x'.subuser := by
  obtain ⟨y, hy, hu⟩ := own_live h.wf.owned hx hi
  simp only [tickSub, sub_eq hy, ok_bind]
  split
  · obtain ⟨s', hs'⟩ := delsubuser_completes hx hy hu
    have huser := delsubuser_users hx hy hu hs'
    obtain ⟨x', hx', hl'⟩ := Option.map_eq_some_iff.mp huser
    refine ⟨s', hs', delsubuser_sound h hx hi hs', fun l hl => ?_, x', hx', fun j hj hne => ?_⟩
    · exact delsubuser_keeps (lists_keeps l) h.wf hl hx hy hu hs'
    · rw [show x'.subuser = x.subuser.erase i from congrArg UserLinks.subuser hl']
      exact (List.mem_erase_of_ne hne).mpr hj
  · split
    · obtain ⟨b, t, y', ht, hr, hus, hsubs, hu', -⟩ := sendRaws_spec hy hu hx
      have hy' : t.subs i = some y' := by simp [hsubs]
      have hxt : t.users u = some x := (congrFun hus u).trans hx
      simp only [ht, ok_bind, sub_eq hy', deref_eq hu', user_eq hxt]
      split
      · obtain ⟨s', hs', hr', hus'⟩ := transportDataCompletlySent_spec hy' x.transport
        refine ⟨s', hs', ?_, fun l hl => ?_, x, ?_, fun j hj _ => hj⟩
        · rw [hr', hr]
          exact h
        · rw [hr', hr]
          exact hl
        · rw [hus', hus]
          exact hx
      · have hr' : (t.setSub i { y' with burn_after_writing := true }).roster = s.roster := by
          rw [← hr]
          exact roster_setSub_of hy' rfl
        refine ⟨_, rfl, ?_, fun l hl => ?_, x, hxt, fun j hj _ => hj⟩
        · rw [hr']
          exact h
        · rw [hr']
          exact hl
    · exact ⟨s, rfl, h, fun l hl => hl, x, hx, fun j hj _ => hj⟩

/-- The inner loop, over subusers that are still in the list. -/
theorem tickSubs_spec {l : List SubId} (h : s.roster.Sound) (hx : s.users u = some x)
    (hd : l.Nodup) (hl : ∀ j ∈ l, j ∈ x.subuser) :
    ∃ s', s.tickSubs u l = .ok s' ∧ s'.roster.Sound ∧
      ∀ us, s.roster.Lists us → s'.roster.Lists us := by
  induction l generalizing s x with
  | nil => exact ⟨s, rfl, h, fun us hus => hus⟩
  | cons i l ih =>
    obtain ⟨hn, hd⟩ := List.nodup_cons.mp hd
    have hi := hl i List.mem_cons_self
    obtain ⟨t, ht, hs, hlist, x', hx', hkeep⟩ := tickSub_spec h hx hi
    have hrest : ∀ j ∈ l, j ∈ x'.subuser := by
      intro j hj
      exact hkeep j (hl j (List.mem_cons_of_mem i hj)) fun he => hn (he ▸ hj)
    obtain ⟨s', hs', hs'', hlist'⟩ := ih hs hx' hd hrest
    refine ⟨s', ?_, hs'', fun us hus => hlist' us (hlist us hus)⟩
    simp only [tickSubs, user_eq hx, ok_bind, hi, if_true, ht]
    exact hs'

/-! ### The users -/

/-- One round of the outer loop: the users after the one it is at stay in their places. -/
theorem tickUser_spec {l₁ l₂ : List UserId} (h : s.roster.Sound)
    (hl : s.roster.Lists (l₁ ++ u :: l₂)) (hx : s.users u = some x) :
    ∃ s' l₁', s.tickUser u = .ok s' ∧ s'.roster.Sound ∧ s'.roster.Lists (l₁' ++ l₂) := by
  simp only [tickUser, user_eq hx, ok_bind]
  split
  · split
    · obtain ⟨s', r, w, hs', hr, -, hlist, hw, -⟩ :=
        deluser_spec (lists_keeps (l₁ ++ u :: l₂)) h.wf hl hx
      refine ⟨s', l₁, hs', deluser_sound h hs', ?_⟩
      rw [hr]
      exact hlist.dropUser hw
    · obtain ⟨s', hs', hs'', hlist⟩ := tickSubs_spec h hx (subuser_nodup h.wf.owned hx)
        fun j hj => hj
      refine ⟨s', l₁ ++ [u], hs', hs'', ?_⟩
      have := hlist _ hl
      rwa [List.append_assoc, List.singleton_append]
  · refine ⟨s, l₁ ++ [u], rfl, h, ?_⟩
    rwa [List.append_assoc, List.singleton_append]

/-- The outer loop ends when it has at least as many rounds as users before it. -/
theorem tickFrom_spec (l₁ : List UserId) {l₂ : List UserId} {fuel : ℕ} (h : s.roster.Sound)
    (hl : s.roster.Lists (l₁ ++ l₂)) (hf : l₂.length ≤ fuel) :
    ∃ s', s.tickFrom fuel l₂.head? = .ok s' ∧ s'.roster.Sound := by
  induction l₂ generalizing s l₁ fuel with
  | nil => exact ⟨s, by cases fuel <;> rfl, h⟩
  | cons u l₂ ih =>
    obtain ⟨fuel, rfl⟩ : ∃ n, fuel = n + 1 := ⟨fuel - 1, by simp at hf; omega⟩
    have hlive : s.users u ≠ none := (roster_live u).mp ((hl.2.2 u).mp (by simp))
    obtain ⟨x, hx⟩ := Option.ne_none_iff_exists'.mp hlive
    have hnext : x.next = l₂.head? := by
      have := hl.1.middle.1
      simpa [Roster.nextOf, roster_users hx, User.links] using this
    obtain ⟨t, l₁', ht, hs, hlist⟩ := tickUser_spec h hl hx
    obtain ⟨s', hs', hs''⟩ := ih l₁' hs hlist (by simpa using hf)
    refine ⟨s', ?_, hs''⟩
    simp only [List.head?_cons, tickFrom, user_eq hx, ok_bind, ht, hnext]
    exact hs'

theorem checkTimeout_spec (h : s.roster.Sound) :
    ∃ s', s.checkTimeout = .ok s' ∧ s'.roster.Sound := by
  obtain ⟨l, hl⟩ := h.wf.listed
  have hlen : l.length ≤ s.fresh := by
    -- the users are different addresses below `fresh`
    have hsub : l ⊆ List.range s.fresh := by
      intro u hu
      rw [List.mem_range]
      by_contra hge
      exact (hl.2.2 u).mp hu (h.wf.bound u (not_lt.mp hge)).1
    simpa using (hl.1.nodup.subperm hsub).length_le
  have hhead : s.uHead = l.head? := hl.2.1
  rw [checkTimeout, hhead]
  exact tickFrom_spec [] h hl hlen

end ApeServer.Ape
