import ApeServer.Server.Commands
import ApeServer.Server.Identity
import ApeServer.Server.Rounds

/-!
# What a connection is attached to

A connection is attached to the subuser that waits on it. The record of a subuser that does
not wait is freed at once when it is deleted, whatever is attached to it.
-/
namespace ApeServer

open Sock (Bytes)
open Steps (ok_bind bind_ok Reach)

namespace Ape

variable {s s' t : Ape} {u : UserId} {i j : SubId} {x : User} {y : Subuser} {fd : Fd}
  {pc : Pc} {domain : Bool} {cmd : Bytes} {ijson : JsonItem} {iuser : Option SubId}

/-- Every connection is attached to nothing or to a live subuser. -/
def Held (s : Ape) : Prop := ∀ fd i, (s.co fd).attach = some i → s.subs i ≠ none

/-- Every connection but `fd` is. -/
def HeldBut (s : Ape) (fd : Fd) : Prop :=
  ∀ e i, e ≠ fd → (s.co e).attach = some i → s.subs i ≠ none

/-! ### Steps that free nothing -/

/-- A step that frees no record and attaches no connection. -/
structure Safe (s s' : Ape) : Prop where
  live : ∀ i, s.subs i ≠ none → s'.subs i ≠ none
  attach : ∀ fd i, (s'.co fd).attach = some i → (s.co fd).attach = some i

namespace Safe

theorem refl : Safe s s := ⟨fun _ h => h, fun _ _ h => h⟩

theorem trans (h : Safe s t) (h' : Safe t s') : Safe s s' :=
  ⟨fun i hi => h'.live i (h.live i hi), fun fd i hi => h.attach fd i (h'.attach fd i hi)⟩

theorem of_still (h : Still s s') : Safe s s' :=
  ⟨fun j => (h.sub_live j).mpr, fun fd _ hi => (h.attach fd).symm.trans hi⟩

theorem of_level (h : Level s s') : Safe s s' := by
  refine ⟨fun i hi => ?_, fun fd i hi => (h.attach fd).symm.trans hi⟩
  obtain ⟨y, hy⟩ := Option.ne_none_iff_exists'.mp hi
  obtain ⟨y', hy', -⟩ := h.sub hy
  simp [hy']

theorem setSub {i : SubId} {y : Subuser} : Safe s (s.setSub i y) := by
  refine ⟨fun j hj => ?_, fun _ _ h => h⟩
  by_cases h : j = i
  · simp [h]
  · simpa [h] using hj

theorem setUser : Safe s (s.setUser u x) := ⟨fun _ h => h, fun _ _ h => h⟩

theorem setAttach : Safe s (s.setAttach fd none) := by
  refine ⟨fun _ h => h, fun e i hi => ?_⟩
  by_cases he : e = fd
  · subst he
    simp [Ape.setAttach] at hi
  · simpa [Ape.setAttach, he] using hi

theorem setCo {k : Socket} (hk : k.attach = (s.co fd).attach) : Safe s (s.setCo fd k) := by
  refine ⟨fun _ h => h, fun e i hi => ?_⟩
  by_cases he : e = fd
  · subst he
    simpa [hk] using hi
  · simpa [he] using hi

theorem held (h : Safe s s') (hs : s.Held) : s'.Held :=
  fun e i hi => h.live i (hs e i (h.attach e i hi))

theorem heldBut (h : Safe s s') (hs : s.HeldBut fd) : s'.HeldBut fd :=
  fun e i he hi => h.live i (hs e i he (h.attach e i hi))

end Safe

theorem addsubuser_safe {client : Fd} {channel : Bytes} {o : Option SubId}
    (h : s.addsubuser client channel u = .ok (o, s')) : Safe s s' := by
  obtain ⟨-, rfl⟩ | ⟨x, y, -, -, -, -, -, rfl⟩ := addsubuser_spec h
  · exact .refl
  · exact ⟨(Safe.setSub (s := s)).live, fun _ _ h => h⟩

theorem allocUser_safe {client : Fd} {host ip : Bytes}
    (h : s.allocUser client host ip = .ok (u, s')) : Safe s s' := by
  obtain ⟨t, o, ha, ht⟩ := allocUser_spec h
  refine Safe.trans ⟨fun i hi => ?_, fun fd i hi => ?_⟩ (addsubuser_safe ht)
  · rw [ha.rest.1]
    exact hi
  · rw [← ha.rest.2.1]
    exact hi

theorem openSub_safe {o : Opened} (h : s.openSub u pc = .ok o) : Safe s o.state := by
  obtain ⟨x, i, w, -, -, hopens, hstill, -⟩ := openSub_opens h
  refine Safe.trans ?_ (.of_still hstill)
  cases hopens with
  | same => exact Safe.setAttach.trans .setSub
  | found => exact .setSub
  | new ht => exact addsubuser_safe ht

theorem cmdSub_safe {o : Opened} (h : s.cmdSub pc = .ok o) : Safe s o.state := by
  unfold cmdSub at h
  split at h
  · exact openSub_safe h
  · cases h
    exact .refl

theorem doDied_safe (h : s.doDied i = .ok s') : Safe s s' := by
  obtain ⟨y, hy, -⟩ := bind_ok h
  rw [doDied_eq (sub_ok hy)] at h
  cases h
  split
  · exact Safe.setSub.trans (.of_level (.of_minor .safeShutdown))
  · exact .refl

/-! ### Deletion -/

/-- A deleted subuser that waits keeps its record, without a user. -/
theorem delsubuser_frees (h : s.delsubuser u i = .ok s') :
    (∀ fd, (s'.co fd).attach = (s.co fd).attach) ∧ (∀ j, j ≠ i → s'.subs j = s.subs j) ∧
      ∃ y, s.subs i = some y ∧ y.user ≠ none ∧
        (y.state = .alive → ∃ y', s'.subs i = some y' ∧ y'.user = none) := by
  obtain ⟨y, hy, h⟩ := bind_ok h
  obtain ⟨v, hv, h⟩ := bind_ok h
  obtain ⟨x₁, -, h⟩ := bind_ok h
  obtain ⟨x₂, -, h⟩ := bind_ok h
  replace hy := sub_ok hy
  replace hv := deref_ok hv
  simp only at h
  split at h
  · next ha =>
    rw [doDied_eq (Function.update_self ..), if_pos ha] at h
    cases h
    refine ⟨fun fd => ?_, fun j hj => ?_, y, hy, by simp [hv], fun _ => ?_⟩
    · exact congrArg Wire.attach (Minor.safeShutdown.co fd)
    · simp [hj]
    · simp
  · next ha =>
    cases h
    exact ⟨fun _ => rfl, fun j hj => by simp [hj], y, hy, by simp [hv], fun h => absurd h ha⟩

/-- What `clear_subusers` frees was in the list and did not wait. -/
theorem clearSubs_frees {l : List SubId} (hx : s.users u = some x) (h : s.clearSubs u l = .ok s') :
    (∀ fd, (s'.co fd).attach = (s.co fd).attach) ∧
      ∀ j y, s.subs j = some y → s'.subs j = none →
        y.state ≠ .alive ∧ y.user ≠ none ∧ j ∈ x.subuser := by
  induction l generalizing s x with
  | nil =>
    cases h
    exact ⟨fun _ => rfl, fun j y hy hn => by simp [hy] at hn⟩
  | cons a l ih =>
    simp only [clearSubs, user_eq hx, ok_bind] at h
    cases hsub : x.subuser with
    | nil =>
      rw [hsub] at h
      cases h
      exact ⟨fun _ => rfl, fun j y hy hn => by simp [hy] at hn⟩
    | cons i rest =>
      simp only [hsub] at h
      obtain ⟨t, ht, h⟩ := bind_ok h
      obtain ⟨hattach, hothers, y₀, hy₀, huser, hkeep⟩ := delsubuser_frees ht
      obtain ⟨-, -, x₀, x', hx₀, hx', he⟩ := delsubuser_calm (B := fun _ => False) ht
      obtain rfl := Option.some.inj (hx.symm.trans hx₀)
      rw [hsub, List.erase_cons_head] at he
      obtain ⟨hattach', hrest⟩ := ih hx' h
      refine ⟨fun fd => (hattach' fd).trans (hattach fd), fun j y hy hn => ?_⟩
      by_cases hj : j = i
      · subst hj
        obtain rfl := Option.some.inj (hy₀.symm.trans hy)
        refine ⟨fun ha => ?_, huser, List.mem_cons_self⟩
        -- its record has no user any more, so nothing deletes it again
        obtain ⟨y', hy', hnone⟩ := hkeep ha
        exact (hrest j y' hy' hn).2.1 hnone
      · obtain ⟨ha, hu, hmem⟩ := hrest j y ((hothers j hj).trans hy) hn
        exact ⟨ha, hu, List.mem_cons_of_mem i (he ▸ hmem)⟩

theorem deluser_frees (hx : s.users u = some x) (h : s.deluser u = .ok s') :
    (∀ fd, (s'.co fd).attach = (s.co fd).attach) ∧
      ∀ j y, s.subs j = some y → s'.subs j = none → y.state ≠ .alive ∧ j ∈ x.subuser := by
  obtain ⟨t₁, t₂, x₁, ht₁, hx₁, ht₂, hsubs, hco, -⟩ := deluser_ok h
  have hminor := leftAll_minor ht₁
  obtain ⟨hattach, hfree⟩ := clearSubs_frees hx₁ ht₂
  refine ⟨fun fd => ?_, fun j y hy hn => ?_⟩
  · rw [hco]
    exact (hattach fd).trans (congrArg Wire.attach (hminor.co fd))
  · obtain ⟨y₁, hy₁, he⟩ := hminor.sub hy
    obtain ⟨x₁', hx₁', hseat⟩ := hminor.user hx
    obtain rfl := Option.some.inj (hx₁.symm.trans hx₁')
    obtain ⟨ha, -, hmem⟩ := hfree j y₁ hy₁ (hsubs ▸ hn)
    have hlist : x₁.subuser = x.subuser := congrArg Seat.subuser hseat
    exact ⟨fun h => ha ((congrArg Line.state he).trans h), hlist ▸ hmem⟩

/-! ### Commands -/

/-- A `QUIT` frees a subuser that another connection is attached to: one that does not wait,
or that waits on a connection its transport turns away. -/
def QuitStrands (s : Ape) (pc : Pc) : Prop :=
  ∃ u x i y e, pc.guser = some u ∧ s.users u = some x ∧ i ∈ x.subuser ∧ s.subs i = some y ∧
    (s.co e).attach = some i ∧ e ≠ pc.client ∧
    (y.state ≠ .alive ∨ pc.sub = none ∧ y.channel = pc.host ∧
      (s.co y.client).fd ≠ (s.co pc.client).fd ∧ e ≠ (s.co y.client).fd ∧
      (transportOpenSameHost y pc.client x.transport).substate = .adied)

theorem Still.user_back {x' : User} (h : Still s s') (hx' : s'.users u = some x') :
    ∃ x, s.users u = some x ∧ x'.post = x.post := by
  have hu := h.users u
  rw [hx'] at hu
  obtain ⟨x, hx, he⟩ := Option.map_eq_some_iff.mp hu.symm
  exact ⟨x, hx, he.symm⟩

/-- A transport that turns the old connection away lets the subuser wait for its command. -/
theorem transportOpenSameHost_adied {client : Fd} {transport : Transport}
    (h : (transportOpenSameHost y client transport).substate ≠ .alive) :
    transportOpenSameHost y client transport =
      { client_close := y.client, client_listener := client, attach := true, substate := .adied } := by
  cases transport <;> first | rfl | exact absurd rfl h

/-- A subuser of `u` that does not wait after the lookup of a command did not wait before it,
or its connection was turned away. -/
theorem openSub_strands {o : Opened} (hs : s.roster.Sound) (h : s.openSub u pc = .ok o)
    {x' : User} (hx' : o.state.users u = some x') (hj : j ∈ x'.subuser) {y' : Subuser}
    (hy' : o.state.subs j = some y') (ha : y'.state ≠ .alive) {e : Fd}
    (hattach : (o.state.co e).attach = some j) (hy : s.subs j = some y) :
    ∃ x, s.users u = some x ∧ j ∈ x.subuser ∧
      (y.state ≠ .alive ∨ y.channel = pc.host ∧ (s.co y.client).fd ≠ (s.co pc.client).fd ∧
        e ≠ (s.co y.client).fd ∧
        (transportOpenSameHost y pc.client x.transport).substate = .adied) := by
  obtain ⟨x, i, w, hx, -, hopens, hstill, -⟩ := openSub_opens h
  obtain ⟨xw, hxw, hpost⟩ := hstill.user_back hx'
  obtain ⟨yw, hyw, hplug⟩ := hstill.sub_back hy'
  have hstate : yw.state ≠ .alive := fun h => ha ((congrArg (Line.state) hplug).trans h)
  have hlist : x'.subuser = xw.subuser := congrArg Seat.subuser hpost
  rw [hlist] at hj
  rw [hstill.attach] at hattach
  refine ⟨x, hx, ?_⟩
  cases hopens with
  | @same y₀ r hi hy₀ hc hne _ hr =>
    obtain rfl := Option.some.inj (hx.symm.trans hxw)
    refine ⟨hj, ?_⟩
    by_cases hji : j = i
    · subst hji
      obtain rfl := Option.some.inj (hy.symm.trans hy₀)
      have hyw' : yw.state = r.substate := by
        simp only [moved, setSub_subs, Function.update_self, Option.some.injEq] at hyw
        rw [← hyw]
      rw [hyw', hr] at hstate
      have hmoves := transportOpenSameHost_adied hstate
      refine .inr ⟨hc, hne, fun he => ?_, by rw [hmoves]⟩
      rw [hr, hmoves] at hattach
      simp [moved, Ape.setAttach, he] at hattach
    · have hyw' : s.subs j = some yw := by simpa [moved, Ape.setAttach, hji] using hyw
      obtain rfl := Option.some.inj (hy.symm.trans hyw')
      exact .inl hstate
  | @found y₀ hi hy₀ hc =>
    obtain rfl := Option.some.inj (hx.symm.trans hxw)
    refine ⟨hj, .inl fun halive => hstate ?_⟩
    by_cases hji : j = i
    · subst hji
      obtain rfl := Option.some.inj (hy.symm.trans hy₀)
      simp only [setSub_subs, Function.update_self, Option.some.injEq] at hyw
      rw [← hyw]
      exact halive
    · have hyw' : s.subs j = some yw := by simpa [hji] using hyw
      obtain rfl := Option.some.inj (hy.symm.trans hyw')
      exact halive
  | new ht =>
    obtain ⟨hnone, -⟩ | ⟨x₀, z, hx₀, -, -, -, -, rfl⟩ := addsubuser_spec ht
    · cases hnone
    · obtain rfl := Option.some.inj (hx.symm.trans hx₀)
      have hji : j ≠ s.fresh := by
        rintro rfl
        have hnone := (hs.wf.bound s.fresh le_rfl).2.1
        simp [roster, hy] at hnone
      have hyw' : s.subs j = some yw := by simpa [hji] using hyw
      obtain rfl := Option.some.inj (hy.symm.trans hyw')
      simp only [setSub_users, setUser_users, Function.update_self, Option.some.injEq] at hxw
      rw [← hxw] at hj
      exact ⟨(List.mem_cons.mp hj).resolve_left hji, .inl hstate⟩

/-- What a request on `fd` leaves: the other connections hold, and `fd` is to be attached to
nothing or to a live subuser. -/
def HeldFor (fd : Fd) (iuser : Option SubId) (s : Ape) : Prop :=
  s.HeldBut fd ∧ ∀ i, iuser = some i → s.subs i ≠ none

theorem Safe.heldFor (h : Safe s s') (hs : HeldFor fd iuser s) : HeldFor fd iuser s' :=
  ⟨h.heldBut hs.1, fun i hi => h.live i (hs.2 i hi)⟩

theorem AtWork.heldFor (h : AtWork fd pc iuser s) (hs : s.HeldBut fd) : HeldFor fd iuser s := by
  refine ⟨hs, fun i hi => ?_⟩
  obtain ⟨y, hy, -⟩ := h.waits i hi
  simp [hy]

/-- The user a `QUIT` deletes: what goes was attached to no other connection, and the subuser of
the request, which waits, keeps its record. -/
theorem quit_heldFor {o : Opened} {t₁ t₂ : Ape} (h : AtWork fd pc iuser s) (hh : s.HeldBut fd)
    (hu : pc.guser = some u) (hq : ¬s.QuitStrands pc) (ho : s.cmdSub pc = .ok o)
    (hlevel : Level o.state t₁) (hdel : t₁.deluser u = .ok t₂) : HeldFor fd iuser t₂ := by
  obtain ⟨x₁, hx₁⟩ : ∃ x₁, t₁.users u = some x₁ := by
    obtain ⟨t, ht, -⟩ := bind_ok hdel
    obtain ⟨x₁, hx₁, -⟩ := bind_ok ht
    exact ⟨x₁, user_ok hx₁⟩
  obtain ⟨hattach, hfree⟩ := deluser_frees hx₁ hdel
  obtain ⟨xo, hxo, hstation⟩ := hlevel.user_back hx₁
  have hlist : x₁.subuser = xo.subuser := congrArg Station.subuser hstation
  refine ⟨fun e i he hi hn => ?_, fun i hi hn => ?_⟩
  · rw [hattach, hlevel.attach] at hi
    have hi₀ := (cmdSub_safe ho).attach e i hi
    obtain ⟨y, hy⟩ := Option.ne_none_iff_exists'.mp (hh e i he hi₀)
    obtain ⟨yo, hyo⟩ := Option.ne_none_iff_exists'.mp ((cmdSub_safe ho).live i (hh e i he hi₀))
    obtain ⟨y₁, hy₁, hline, -⟩ := hlevel.sub hyo
    obtain ⟨ha, hmem⟩ := hfree i y₁ hy₁ hn
    replace ha : yo.state ≠ .alive := fun h => ha ((congrArg Line.state hline).trans h)
    rw [hlist] at hmem
    rw [← h.client] at he
    unfold cmdSub at ho
    split at ho
    · next v hv hsub =>
      obtain rfl := Option.some.inj (hu.symm.trans hv)
      obtain ⟨x, hx, hmem₀, hcase⟩ := openSub_strands h.sound ho hxo hmem hyo ha hi hy
      exact hq ⟨u, x, i, y, e, hu, hx, hmem₀, hy, hi₀, he, hcase.imp_right fun hc => ⟨hsub, hc⟩⟩
    · cases ho
      obtain rfl := Option.some.inj (hyo.symm.trans hy)
      exact hq ⟨u, xo, i, yo, e, hu, hxo, hmem, hyo, hi₀, he, .inl ha⟩
  · obtain ⟨y, hy, ha⟩ := h.waits i hi
    obtain rfl := cmdSub_seated (h.sub.trans hi) ho
    obtain ⟨y₁, hy₁, hline, -⟩ := hlevel.sub hy
    exact (hfree i y₁ hy₁ hn).1 ((congrArg Line.state hline).trans ha)

theorem heldFor_upheld (domain : Bool) (fd : Fd) : Upheld domain
    (fun _ cmd pc t => isQuit cmd = true → ¬t.QuitStrands pc)
    (fun pc iuser s => AtWork fd pc iuser s ∧ s.HeldBut fd) (HeldFor fd) where
  done h := h.1.heldFor h.2
  level h hl := (Safe.of_level hl).heldFor h
  cmd := by
    intro ijson cmd pc guser iuser s d h hq hd
    obtain ⟨hwork, hheld⟩ := h
    have hs := (execCmd_sound hwork.sound hd).1
    obtain ⟨o, t, ho, hlevel, hends⟩ := execCmd_ends hd
    have hsafe := (cmdSub_safe ho).trans (.of_level hlevel)
    cases hends with
    | stopped _ hl hret hiuser =>
      rw [hiuser]
      exact .inr ⟨hret, (hsafe.trans (.of_level hl)).heldFor (hwork.heldFor hheld)⟩
    | quit hquit hu hl hdel hlast hret hiuser =>
      rw [hiuser]
      have hwork' : AtWork fd { pc with guser := guser } iuser s :=
        ⟨hwork.sound, hwork.client, hwork.sub, hwork.waits⟩
      exact .inr ⟨hret, (Safe.of_level hlast).heldFor
        (quit_heldFor hwork' hheld hu (hq hquit) ho (hlevel.trans hl) hdel)⟩
    | took _ _ _ _ hl _ hstate hiuser hpc =>
      refine .inl ⟨hwork.next ho hs hstate hiuser (by rw [hpc]; exact ⟨rfl, rfl⟩), ?_⟩
      rw [hstate]
      exact ((hsafe.trans (.of_level hl)).trans .setSub).heldBut hheld
    | admitted _ halloc _ _ hl _ hstate hiuser hpc =>
      refine .inl ⟨hwork.next ho hs hstate hiuser (by rw [hpc]; exact ⟨rfl, rfl⟩), ?_⟩
      rw [hstate]
      exact ((((hsafe.trans (allocUser_safe halloc)).trans .setUser).trans (.of_level hl)).trans
        .setSub).heldBut hheld

/-! ### Events -/

/-- A round of `check_timeout` frees a subuser that a connection is attached to. -/
def ExpiryStrands (s : Ape) (u : UserId) : Option SubId → Prop
  | none => ∃ x i y e, s.users u = some x ∧ x.type = .human ∧ timeoutSec ≤ s.time - x.idle ∧
    i ∈ x.subuser ∧ s.subs i = some y ∧ y.state ≠ .alive ∧ (s.co e).attach = some i
  | some i => ∃ y e, s.subs i = some y ∧ timeoutSec ≤ s.time - y.idle ∧ y.state ≠ .alive ∧
    (s.co e).attach = some i

/-- A connection that goes down takes a subuser with it that another connection is attached
to: one that was only kept for it, or one of a user that was never connected. -/
def DropStrands (s : Ape) (fd : Fd) : Prop :=
  ∃ i y, (s.co fd).attach = some i ∧ s.subs i = some y ∧
    (y.wait_for_free = true ∧ (∃ e, e ≠ fd ∧ (s.co e).attach = some i) ∨
      y.wait_for_free = false ∧ (s.co fd).fd = (s.co y.client).fd ∧
        ∃ u x j z e, y.user = some u ∧ s.users u = some x ∧ x.istmp = true ∧ j ∈ x.subuser ∧
          s.subs j = some z ∧ (j = i ∨ z.state ≠ .alive) ∧ e ≠ fd ∧ (s.co e).attach = some j)

/-- The event frees no subuser that another connection is attached to. -/
def SparesAttached (domain : Bool) (s : Ape) (e : Event) : Prop :=
  (∀ ijson cmd pc t, Commands (.plain domain) s e ijson cmd pc t → isQuit cmd = true →
    ¬t.QuitStrands pc) ∧
  match e with
  | .disconnect fd => ¬s.DropStrands fd
  | .tick => ∀ u o t, Rounds s.fresh s.uHead s u o t → ¬t.ExpiryStrands u o
  | _ => True

theorem HeldFor.attach (h : HeldFor fd iuser s) : (s.setAttach fd iuser).Held := by
  intro e i hi
  by_cases he : e = fd
  · subst he
    exact h.2 i (by simpa [Ape.setAttach] using hi)
  · exact h.1 e i he (by simpa [Ape.setAttach, he] using hi)

theorem Held.heldBut (h : s.Held) : s.HeldBut fd := fun e i _ hi => h e i hi

theorem HeldBut.close (h : s.HeldBut fd) : (s.setCo fd .closed).Held := by
  intro e i hi
  by_cases he : e = fd
  · subst he
    simp [Socket.closed] at hi
  · exact h e i he (by simpa [he] using hi)

theorem transportDataCompletlySent_safe {transport : Transport}
    (h : s.transportDataCompletlySent i transport = .ok s') : Safe s s' := by
  rcases transportDataCompletlySent_cases h with rfl | hd
  · exact .refl
  · exact doDied_safe hd

theorem tickSub_held (hs : s.Held) (hx : ¬s.ExpiryStrands u (some i))
    (h : s.tickSub u i = .ok s') : s'.Held := by
  obtain ⟨y, hy, ⟨hidle, hdel⟩ | rfl | ⟨-, b, t, v, x, hsend, -, -, hend⟩⟩ := tickSub_cases h
  · obtain ⟨hattach, hothers, y', hy', -, hkeep⟩ := delsubuser_frees hdel
    obtain rfl := Option.some.inj (hy.symm.trans hy')
    intro e j hj
    rw [hattach] at hj
    by_cases hji : j = i
    · subst hji
      by_cases ha : y.state = .alive
      · obtain ⟨y₁, hy₁, -⟩ := hkeep ha
        simp [hy₁]
      · exact absurd ⟨y, e, hy, hidle, ha, hj⟩ hx
    · rw [hothers j hji]
      exact hs e j hj
  · exact hs
  · have hsafe := Safe.of_still (sendRaws_quiet hsend).still
    split at hend
    · exact (hsafe.trans (transportDataCompletlySent_safe hend)).held hs
    · rw [hend]
      exact (hsafe.trans .setSub).held hs

theorem expiry_held (hs : s.Held) (hx : s.users u = some x) (hhuman : x.type = .human)
    (hidle : timeoutSec ≤ s.time - x.idle) (he : ¬s.ExpiryStrands u none)
    (h : s.deluser u = .ok s') : s'.Held := by
  obtain ⟨hattach, hfree⟩ := deluser_frees hx h
  intro e i hi hn
  rw [hattach] at hi
  obtain ⟨y, hy⟩ := Option.ne_none_iff_exists'.mp (hs e i hi)
  obtain ⟨ha, hmem⟩ := hfree i y hy hn
  exact he ⟨x, i, y, e, hx, hhuman, hidle, hmem, hy, ha, hi⟩

theorem checkTimeout_held (hs : s.Held)
    (hx : ∀ u o t, Rounds s.fresh s.uHead s u o t → ¬t.ExpiryStrands u o)
    (h : s.checkTimeout = .ok s') : s'.Held :=
  tickFrom_keeps (fun u t _ _ hr ht hxu hhuman hidle hdel =>
      expiry_held ht hxu hhuman hidle (hx u none t hr) hdel)
    (fun u i t _ hr ht hsub => tickSub_held ht (hx u (some i) t hr) hsub) hs h

theorem apeSent_safe (h : s.apeSent fd = .ok s') : Safe s s' := by
  unfold apeSent at h
  split at h
  · cases h
    exact .refl
  · next i _ =>
    obtain ⟨y, -, h⟩ := bind_ok h
    split at h
    · obtain ⟨t, ht, h⟩ := bind_ok h
      obtain ⟨y', -, h⟩ := bind_ok h
      cases h
      refine Safe.trans ?_ .setSub
      unfold completeFor at ht
      split at ht
      · obtain ⟨x, -, ht⟩ := bind_ok ht
        exact transportDataCompletlySent_safe ht
      · cases ht
        exact .refl
    · cases h
      exact .refl

theorem apeDisconnect_held (hs : s.Held) (hd : ¬s.DropStrands fd)
    (h : s.apeDisconnect fd = .ok s') : s'.HeldBut fd := by
  unfold apeDisconnect at h
  split at h
  · cases h
    exact hs.heldBut
  · next i hi =>
    obtain ⟨y, hy, h⟩ := bind_ok h
    replace hy := sub_ok hy
    split at h
    · next hw =>
      cases h
      intro e j he hj
      have hj₀ : (s.co e).attach = some j := by simpa [Ape.setAttach, he] using hj
      have hji : j ≠ i := by
        rintro rfl
        exact hd ⟨j, y, hi, hy, .inl ⟨hw, e, he, hj₀⟩⟩
      simpa [Ape.setAttach, hji] using hs e j hj₀
    · next hw =>
      rw [Bool.not_eq_true] at hw
      split at h
      · next hfd =>
        have hmark : Safe s (s.setSub i { y with headersSent := false, state := .adied }) := .setSub
        have hs' := hmark.held hs
        unfold dropTmp at h
        split at h
        · next u hu =>
          obtain ⟨x, hx, h⟩ := bind_ok h
          replace hx := user_ok hx
          split at h
          · next htmp =>
            obtain ⟨t, ht, h⟩ := bind_ok h
            cases h
            obtain ⟨hattach, hfree⟩ := deluser_frees hx ht
            intro e j he hj hn
            have hj₀ : (s.co e).attach = some j := by
              have hjt : (t.co e).attach = some j := by simpa [Ape.setAttach, he] using hj
              exact (hattach e).symm.trans hjt
            obtain ⟨z, hz⟩ := Option.ne_none_iff_exists'.mp (hs e j hj₀)
            obtain ⟨z', hz'⟩ := Option.ne_none_iff_exists'.mp (hs' e j hj₀)
            obtain ⟨ha, hmem⟩ := hfree j z' hz' hn
            refine hd ⟨i, y, hi, hy, .inr ⟨hw, hfd, u, x, j, z, e, hu, hx, htmp, hmem, hz, ?_, he, hj₀⟩⟩
            by_cases hji : j = i
            · exact .inl hji
            · rw [setSub_subs, Function.update_of_ne hji] at hz'
              obtain rfl := Option.some.inj (hz.symm.trans hz')
              exact .inr ha
          · cases h
            exact hs'.heldBut
        · cases h
          exact hs'.heldBut
      · cases h
        exact hs.heldBut

theorem supersede_safe {tmp sub : Option SubId} (h : s.supersede tmp sub = .ok s') :
    Safe s s' := by
  unfold supersede at h
  split at h
  · split at h
    · obtain ⟨y, -, h⟩ := bind_ok h
      cases h
      exact .setSub
    · cases h
      exact .refl
  · cases h
    exact .refl

theorem step_held {e : Event} (hs : s.Healthy) (hh : s.Held) (ha : SparesAttached domain s e)
    (h : s.step (.plain domain) e = .ok s') : s'.Held := by
  obtain ⟨hquit, hcase⟩ := ha
  cases e with
  | accept fd ip =>
    simp only [step] at h
    split at h
    · cases h
      intro e i hi
      by_cases he : e = fd
      · subst he
        simp [Socket.closed] at hi
      · exact hh e i (by simpa [he] using hi)
    · cases h
  | request fd r =>
    simp only [step] at h
    split at h
    · obtain ⟨iuser, t, hF, rfl⟩ := (heldFor_upheld domain fd).request
        (fun _ _ _ => ⟨.start hs.sound, hh.heldBut⟩) (hquit _ _ _ _) h
      exact hF.attach
    · cases h
  | message fd objects =>
    simp only [step] at h
    split at h
    · next transport host hparser =>
      split at h
      · obtain ⟨iuser, t, hF, hsup⟩ := (heldFor_upheld domain fd).message hparser
          ⟨.start hs.sound, hh.heldBut⟩ (hquit _ _ _ _) h
        exact (supersede_safe hsup).held hF.attach
      · cases h
    · cases h
  | sent fd =>
    simp only [step] at h
    split at h
    · obtain ⟨t, ht, h⟩ := bind_ok h
      cases h
      have hset : Safe s (s.setCo fd { s.co fd with bufout := false }) := .setCo rfl
      have hsafe := hset.trans (apeSent_safe ht)
      split
      · exact (hsafe.trans (.of_level .shutdown)).held hh
      · exact hsafe.held hh
    · cases h
  | reset fd =>
    simp only [step] at h
    split at h
    · cases h
      exact (Safe.of_level .shutdown).held hh
    · cases h
  | disconnect fd =>
    simp only [step] at h
    split at h
    · obtain ⟨t, ht, h⟩ := bind_ok h
      cases h
      exact (apeDisconnect_held hh hcase ht).close
    · cases h
  | tick => exact checkTimeout_held hh hcase h
  | clock time =>
    cases h
    exact hh

/-- In every run that frees no subuser another connection is attached to, every connection is
attached to nothing or to a subuser that has not been freed. -/
theorem attached_live {rand : List (List.Vector (Fin 16) 32)} {io : ℕ → Bool} {time : ℤ}
    (h : Reach (step (.plain domain)) (SparesAttached domain) (init rand io time) s) :
    ∀ fd i, (s.co fd).attach = some i → ∃ y, s.subs i = some y := by
  have hboth : s.Healthy ∧ s.Held := by
    refine h.keeps (fun s => s.Healthy ∧ s.Held) ⟨init_healthy rand io time, ?_⟩
      fun _ _ _ ⟨hs, hh⟩ ha hl => ⟨step_healthy hs hl, step_held hs hh ha hl⟩
    intro fd i hi
    cases hi
  exact fun fd i hi => Option.ne_none_iff_exists'.mp (hboth.2 fd i hi)

theorem sparesAttached_request {uri : String} {objects : List JsonItem}
    (h : ∀ o ∈ objects, (jstr o.child (bytes "cmd")).map isQuit ≠ some true) :
    SparesAttached domain s (httpRequest fd uri objects) := by
  refine ⟨fun ijson cmd pc t hc hq => ?_, trivial⟩
  obtain ⟨hmem, hcmd⟩ := Commands.object hc
  exact absurd (by rw [hcmd, Option.map_some, hq]) (h ijson hmem)

/-- A user on a connection that it polls by a first request and uses again. -/
def connectAndCheck : List Event :=
  [.accept 5 (bytes "1.1.1.1"), httpRequest 5 "/0/" [connectObject],
    httpRequest 5 "/0/" [commandObject (bytes "CHECK") (List.replicate 32 97)]]

theorem attached_live_check : ∃ s, Steps.runs (step (.plain true)) (fun _ _ => True)
    (init sixteenDraws (fun _ => true) 0) connectAndCheck = some s ∧
      (s.co 5).attach = some 1 ∧ ∃ y, s.subs 1 = some y := by
  have h : ((Steps.runs (step (.plain true)) (fun _ _ => True)
      (init sixteenDraws (fun _ => true) 0) connectAndCheck).map fun s =>
        (s.co 5).attach) = some (some 1) := by decide +kernel
  obtain ⟨s, hs, hi⟩ := Option.map_eq_some_iff.mp h
  have hall : ∀ s, ∀ e ∈ connectAndCheck, SparesAttached true s e := ?_
  · exact ⟨s, hs, hi, attached_live (.of_always hall .start hs) 5 1 hi⟩
  intro s e he
  simp only [connectAndCheck, List.mem_cons, List.not_mem_nil, or_false] at he
  rcases he with rfl | rfl | rfl
  · exact ⟨fun _ _ _ _ h => h.elim, trivial⟩
  · exact sparesAttached_request (by decide)
  · exact sparesAttached_request (by decide)

/-- A long poll that was answered stays attached until its connection is closed; a `QUIT` over
another connection frees its subuser before that. -/
def pollAndQuit : List Event :=
  [.accept 5 (bytes "1.1.1.1"), httpRequest 5 "/0/" [connectObject], .tick,
    .accept 6 (bytes "1.1.1.1"),
    httpRequest 6 "/0/" [commandObject (bytes "QUIT") (List.replicate 32 97)]]

theorem attached_freed : ¬∀ s, Reach (step (.plain true)) (fun _ _ => True)
    (init sixteenDraws (fun _ => true) 0) s →
      ∀ fd i, (s.co fd).attach = some i → ∃ y, s.subs i = some y := by
  intro hall
  have h : ((Steps.runs (step (.plain true)) (fun _ _ => True)
      (init sixteenDraws (fun _ => true) 0) pollAndQuit).map fun s =>
        ((s.co 5).attach, (s.subs 1).isNone)) = some (some 1, true) := by decide +kernel
  obtain ⟨s, hs, h⟩ := Option.map_eq_some_iff.mp h
  obtain ⟨hi, hnone⟩ := Prod.mk.inj h
  obtain ⟨y, hy⟩ := hall s (.of_runs .start hs) 5 1 hi
  rw [hy] at hnone
  cases hnone

end Ape

end ApeServer
