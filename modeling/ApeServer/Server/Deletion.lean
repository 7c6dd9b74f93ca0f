import ApeServer.Server.Membership

/-!
# Deletion

Deleting a subuser and deleting a user, as changes of the roster: the channels first, then
the subusers, then the user itself.
-/
namespace ApeServer

open Sock (Bytes)
open Steps (ok_bind bind_ok foldlM_keeps foldlM_completes)

namespace Ape

variable {s s' : Ape} {u : UserId} {i : SubId} {x : User} {y : Subuser}

@[simp]
theorem roster_safeShutdown {fd : Fd} : (s.safeShutdown fd).roster = s.roster := by
  unfold safeShutdown
  simp only
  split <;> rfl

@[simp]
theorem roster_send {fd : Fd} {w : Written} : (s.send fd w).2.roster = s.roster := by
  unfold send
  simp only
  split_ifs <;> rfl

@[simp]
theorem roster_sendRawInline {fd : Fd} {raw : RawMsg} :
    (s.sendRawInline fd raw).roster = s.roster := roster_send

theorem doDied_eq (hy : s.subs i = some y) : s.doDied i = .ok
    (if y.state = .alive then
      (s.setSub i { y with state := .adied, headersSent := false }).safeShutdown
        (s.co y.client).fd
    else s) := by
  simp only [doDied, sub_eq hy, ok_bind]
  split <;> rfl

theorem doDied_roster (h : s.doDied i = .ok s') : s'.roster = s.roster := by
  obtain ⟨y, hy, -⟩ := bind_ok h
  replace hy := sub_ok hy
  rw [doDied_eq hy] at h
  cases h
  split
  · rw [roster_safeShutdown]
    exact roster_setSub_of hy rfl
  · rfl

/-- The two writes of `delsubuser` to the user are one. -/
def dropSub (s : Ape) (u : UserId) (x : User) (i : SubId) : Ape :=
  s.setUser u { x with nsub := x.nsub - 1, subuser := x.subuser.erase i }

theorem delsubuser_eq (hx : s.users u = some x) (hy : s.subs i = some y) (hu : y.user = some u) :
    s.delsubuser u i =
      if y.state = .alive then
        ((s.dropSub u x i).setSub i
          { y with user := none, wait_for_free := true, low := [], high := [] }).doDied i
      else .ok { s.dropSub u x i with subs := Function.update s.subs i none } := by
  have h2 : (s.setUser u { x with nsub := x.nsub - 1 }).user u = .ok { x with nsub := x.nsub - 1 } :=
    user_eq (by simp)
  simp only [delsubuser, sub_eq hy, ok_bind, hu, deref, user_eq hx, h2]
  split
  · simp [dropSub, setUser, setSub]
  · simp [dropSub, setUser]
    rfl

/-- What `delsubuser` does to the roster. -/
theorem delsubuser_roster (hx : s.users u = some x) (hy : s.subs i = some y)
    (hu : y.user = some u) (hl : s.delsubuser u i = .ok s') :
    s'.roster = s.roster.dropSub u x.links i
      (if y.state = .alive then some { y.links with user := none } else none) := by
  rw [delsubuser_eq hx hy hu] at hl
  split at hl
  · next ha =>
    rw [doDied_roster hl, if_pos ha, roster_setSub, dropSub, roster_setUser]
    rfl
  · next ha =>
    cases hl
    rw [if_neg ha]
    simp only [roster, dropSub, setUser, Roster.dropSub, Roster.setUser]
    rw [Roster.map_update, Roster.map_update]
    rfl

theorem delsubuser_completes (hx : s.users u = some x) (hy : s.subs i = some y)
    (hu : y.user = some u) : ∃ s', s.delsubuser u i = .ok s' := by
  rw [delsubuser_eq hx hy hu]
  split
  · exact ⟨_, doDied_eq (Function.update_self ..)⟩
  · exact ⟨_, rfl⟩

/-! ### `clear_subusers` -/

/-- What a deletion keeps of a roster until the user itself goes: an invariant of these
changes. -/
structure Keeps (I : Roster → Prop) : Prop where
  left : ∀ {r} u c, r.Wf → I r → I (r.left u c)
  dropSub : ∀ {r u x i z v}, r.Wf → I r → r.users u = some x → r.subs i = some z →
    z.user = some u → (∀ w, v = some w → w.user = none) → I (r.dropSub u x i v)

theorem wf_keeps : Keeps Roster.Wf where
  left u c _ h := h.left u c
  dropSub _ h hx hz hu hv := h.dropSub hx hz hu hv

theorem lists_keeps (l : List UserId) : Keeps fun r => r.Lists l where
  left u c _ h := h.left u c
  dropSub _ h hx _ _ _ := h.dropSub hx

theorem delsubuser_keeps {I : Roster → Prop} (hI : Keeps I) (h : s.roster.Wf)
    (hi : I s.roster) (hx : s.users u = some x) (hy : s.subs i = some y) (hu : y.user = some u)
    (hl : s.delsubuser u i = .ok s') : I s'.roster := by
  rw [delsubuser_roster hx hy hu hl]
  refine hI.dropSub h hi (roster_users hx) (roster_subs hy) hu fun w hw => ?_
  split at hw <;> cases hw
  rfl

theorem delsubuser_users (hx : s.users u = some x) (hy : s.subs i = some y)
    (hu : y.user = some u) (hl : s.delsubuser u i = .ok s') :
    s'.roster.users u = some { x.links with nsub := x.nsub - 1, subuser := x.subuser.erase i } := by
  rw [delsubuser_roster hx hy hu hl]
  simp [Roster.dropSub]
  exact ⟨rfl, rfl⟩

/-- `clear_subusers` empties the list of subusers. -/
theorem clearSubs_spec {I : Roster → Prop} (hI : Keeps I) {l : List SubId} (h : s.roster.Wf)
    (hi : I s.roster) (hx : s.users u = some x) (hn : x.subuser.length ≤ l.length) :
    ∃ s', s.clearSubs u l = .ok s' ∧ s'.roster.Wf ∧ I s'.roster ∧
      ∃ x', s'.users u = some x' ∧ x'.subuser = [] ∧ x'.chan_foot = x.chan_foot := by
  induction l generalizing s x with
  | nil =>
    have hnil : x.subuser = [] := List.length_eq_zero_iff.mp (by simpa using hn)
    exact ⟨s, rfl, h, hi, x, hx, hnil, rfl⟩
  | cons a l ih =>
    simp only [clearSubs, user_eq hx, ok_bind]
    cases hsub : x.subuser with
    | nil => exact ⟨s, rfl, h, hi, x, hx, hsub, rfl⟩
    | cons i rest =>
      obtain ⟨y, hy, hu⟩ := own_live h.owned hx (by rw [hsub]; exact List.mem_cons_self)
      obtain ⟨t, ht⟩ := delsubuser_completes hx hy hu
      have huser := delsubuser_users hx hy hu ht
      obtain ⟨x', hx', hl'⟩ := Option.map_eq_some_iff.mp huser
      have hsub' : x'.subuser = rest := by
        rw [show x'.subuser = x'.links.subuser from rfl, hl', hsub]
        exact List.erase_cons_head ..
      have hfoot : x'.chan_foot = x.chan_foot := congrArg UserLinks.chan_foot hl'
      obtain ⟨s', hs', hwf, hi', x'', hx'', he, hf⟩ := ih
        (delsubuser_keeps wf_keeps h h hx hy hu ht) (delsubuser_keeps hI h hi hx hy hu ht) hx'
        (by rw [hsub']; rw [hsub] at hn; simpa using hn)
      refine ⟨s', ?_, hwf, hi', x'', hx'', he, hf.trans hfoot⟩
      simp only [ht, ok_bind]
      exact hs'

theorem clearSubusers_spec {I : Roster → Prop} (hI : Keeps I) (h : s.roster.Wf)
    (hi : I s.roster) (hx : s.users u = some x) :
    ∃ s', s.clearSubusers u = .ok s' ∧ s'.roster.Wf ∧ I s'.roster ∧
      ∃ x', s'.users u = some x' ∧ x'.subuser = [] ∧ x'.chan_foot = x.chan_foot := by
  simp only [clearSubusers, user_eq hx, ok_bind]
  exact clearSubs_spec hI h hi hx le_rfl

/-! ### `deluser` -/

theorem leftAll_spec {I : Roster → Prop} (hI : Keeps I) (h : s.roster.Wf)
    (hi : I s.roster) (hx : s.users u = some x) :
    ∃ s', s.leftAll u = .ok s' ∧ s'.roster.Wf ∧ I s'.roster ∧
      ∃ x', s'.users u = some x' ∧ x'.chan_foot = [] := by
  obtain ⟨s', hs'⟩ := leftAll_completes h hx
  obtain ⟨x₀, hx₀, hr⟩ := leftAll_roster h hs'
  rw [hx] at hx₀
  cases hx₀
  have hboth : s'.roster.Wf ∧ I s'.roster := by
    rw [hr]
    exact Roster.foldl_keeps (fun r => r.Wf ∧ I r)
      (fun r c hr => ⟨hr.1.left u c, hI.left u c hr.1 hr.2⟩) _ ⟨h, hi⟩
  have huser : s'.roster.users u = some { x.links with chan_foot := [] } := by
    have hq := Roster.quitAll_users h (roster_users hx) rfl
    rw [hr]
    exact (congrFun hq u).trans (Function.update_self ..)
  obtain ⟨x', hx', hl'⟩ := Option.map_eq_some_iff.mp huser
  exact ⟨s', hs', hboth.1, hboth.2, x', hx', congrArg UserLinks.chan_foot hl'⟩

theorem setNext_spec {p v : Option UserId} (hp : ∀ n, p = some n → s.users n ≠ none) :
    ∃ s', s.setNext p v = .ok s' ∧ s'.roster =
      { s.roster.modify p (fun y => { y with next := v }) with
        uHead := if p = none then v else s.uHead } := by
  cases p with
  | none =>
    refine ⟨_, rfl, ?_⟩
    rw [Roster.modify_none]
    rfl
  | some n =>
    obtain ⟨x, hx⟩ := Option.ne_none_iff_exists'.mp (hp n rfl)
    refine ⟨s.setUser n { x with next := v }, ?_, ?_⟩
    · simp only [setNext, user_eq hx, ok_bind]
      rfl
    · rw [Roster.modify_some (roster_users hx), roster_setUser]
      rfl

theorem setPrev_spec {p v : Option UserId} (hp : ∀ n, p = some n → s.users n ≠ none) :
    ∃ s', s.setPrev p v = .ok s' ∧
      s'.roster = s.roster.modify p fun y => { y with prev := v } := by
  cases p with
  | none => exact ⟨s, rfl, Roster.modify_none.symm⟩
  | some n =>
    obtain ⟨x, hx⟩ := Option.ne_none_iff_exists'.mp (hp n rfl)
    refine ⟨s.setUser n { x with prev := v }, ?_, ?_⟩
    · simp only [setPrev, user_eq hx, ok_bind]
      rfl
    · rw [Roster.modify_some (roster_users hx), roster_setUser]
      rfl

/-- The last part of `deluser`, after its channels and its subusers are gone. -/
theorem unlink_spec (h : s.roster.Wf) (hx : s.users u = some x) : ∃ t t' : Ape,
    { s with hSessid := s.hSessid.erase x.sessid, nConnected := s.nConnected - 1 }.setNext x.prev
      x.next = .ok t ∧ t.setPrev x.next x.prev = .ok t' ∧
    ({ t'.destroyPipe x.pubid with
        users := Function.update (t'.destroyPipe x.pubid).users u none } : Ape).roster =
      s.roster.dropUser u x.links := by
  have hnext : ∀ n, x.next = some n → s.users n ≠ none := fun n hn =>
    (roster_live n).mp (h.next_live (roster_users hx) hn)
  have hprev : ∀ n, x.prev = some n → s.users n ≠ none := fun n hn =>
    (roster_live n).mp (h.prev_live (roster_users hx) hn)
  set s₁ : Ape := { s with
    hSessid := s.hSessid.erase x.sessid, nConnected := s.nConnected - 1 } with hs₁
  obtain ⟨t, ht, hr⟩ := setNext_spec (s := s₁) (v := x.next) hprev
  have hlive : ∀ n, x.next = some n → t.users n ≠ none := by
    intro n hn
    rw [← roster_live, hr]
    exact (Roster.modify_live n).mpr ((roster_live n).mpr (hnext n hn))
  obtain ⟨t', ht', hr'⟩ := setPrev_spec (v := x.prev) hlive
  refine ⟨t, t', ht, ht', ?_⟩
  have hfinal : ({ t'.destroyPipe x.pubid with
      users := Function.update (t'.destroyPipe x.pubid).users u none } : Ape).roster =
      { t'.roster with
        users := Function.update t'.roster.users u none
        hPubid := t'.roster.hPubid.erase x.pubid } := by
    simp only [roster, destroyPipe]
    rw [Roster.map_update]
    rfl
  rw [hfinal, hr', hr]
  rfl

/-- `deluser` completes; just before the user goes it has neither channels nor subusers. -/
theorem deluser_spec {I : Roster → Prop} (hI : Keeps I) (h : s.roster.Wf) (hi : I s.roster)
    (hx : s.users u = some x) : ∃ s' r w, s.deluser u = .ok s' ∧ s'.roster = r.dropUser u w ∧
      r.Wf ∧ I r ∧ r.users u = some w ∧ w.chan_foot = [] ∧ w.subuser = [] := by
  obtain ⟨s₁, hs₁, hwf₁, hi₁, x₁, hx₁, hf₁⟩ := leftAll_spec hI h hi hx
  obtain ⟨s₂, hs₂, hwf₂, hi₂, x₂, hx₂, he₂, hf₂⟩ := clearSubusers_spec hI hwf₁ hi₁ hx₁
  obtain ⟨t, t', ht, ht', hr⟩ := unlink_spec hwf₂ hx₂
  refine ⟨{ t'.destroyPipe x₂.pubid with
    users := Function.update (t'.destroyPipe x₂.pubid).users u none }, s₂.roster, x₂.links, ?_, hr,
    hwf₂, hi₂, roster_users hx₂, hf₂.trans hf₁, he₂⟩
  simp only [deluser, hs₁, ok_bind, hs₂, user_eq hx₂, ht, ht']
  rfl

theorem deluser_completes (h : s.roster.Wf) (hx : s.users u = some x) :
    ∃ s', s.deluser u = .ok s' := by
  obtain ⟨s', -, -, hs', -⟩ := deluser_spec wf_keeps h h hx
  exact ⟨s', hs'⟩

/-- What `deluser` does to the roster. -/
theorem deluser_roster {I : Roster → Prop} (hI : Keeps I) (h : s.roster.Wf) (hi : I s.roster)
    (hl : s.deluser u = .ok s') : ∃ r w, s'.roster = r.dropUser u w ∧ r.Wf ∧ I r ∧
      r.users u = some w ∧ w.chan_foot = [] ∧ w.subuser = [] := by
  obtain ⟨t, ht, -⟩ := bind_ok hl
  obtain ⟨x, hx, -⟩ := bind_ok ht
  obtain ⟨s'', r, w, hs'', hrest⟩ := deluser_spec hI h hi (user_ok hx)
  rw [hl] at hs''
  cases hs''
  exact ⟨r, w, hrest⟩

theorem deluser_wf (h : s.roster.Wf) (hl : s.deluser u = .ok s') : s'.roster.Wf := by
  obtain ⟨r, w, hr, hwf, -, hw, hf, hs⟩ := deluser_roster wf_keeps h h hl
  rw [hr]
  exact hwf.dropUser hw hf hs

end Ape

end ApeServer
