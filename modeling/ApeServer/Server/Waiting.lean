import ApeServer.Server.Attached

/-!
# Where a subuser waits

A subuser that is `ALIVE` waits on a connection, and `check_timeout` writes there what is
queued for it. The connection knows of it as long as no request takes it for another.
-/
namespace ApeServer

open Sock (Bytes)
open Steps (ok_bind bind_ok Reach)

namespace Ape

variable {s s' t : Ape} {u : UserId} {i j : SubId} {x : User} {y : Subuser} {fd : Fd}
  {pc : Pc} {domain : Bool} {cmd : Bytes} {ijson : JsonItem} {iuser tmp : Option SubId}

/-- The subuser `i` waits on the connection `fd`. -/
def Waits (s : Ape) (fd : Fd) (i : SubId) : Prop :=
  ∃ y, s.subs i = some y ∧ y.state = .alive ∧ y.client = fd

/-- Every connection a subuser waits on is open and attached to it. -/
def Back (s : Ape) : Prop := ∀ e i, s.Waits e i → s.Open e ∧ (s.co e).attach = some i

/-- So it is during a request on `fd`, where `iuser` waits, and `tmp` if it did before. -/
structure BackFor (fd : Fd) (tmp iuser : Option SubId) (s : Ape) : Prop where
  self : s.Open fd
  others : ∀ e i, e ≠ fd → s.Waits e i → s.Open e ∧ (s.co e).attach = some i
  own : ∀ i, s.Waits fd i → iuser = some i ∨ tmp = some i

/-! ### Steps after which nobody waits who did not before -/

structure Fewer (s s' : Ape) : Prop where
  fd : ∀ e, (s'.co e).fd = (s.co e).fd
  attach : ∀ e, (s'.co e).attach = (s.co e).attach
  waits : ∀ e i, s'.Waits e i → s.Waits e i

namespace Fewer

theorem refl : Fewer s s := ⟨fun _ => rfl, fun _ => rfl, fun _ _ h => h⟩

theorem trans (h : Fewer s t) (h' : Fewer t s') : Fewer s s' :=
  ⟨fun e => (h'.fd e).trans (h.fd e), fun e => (h'.attach e).trans (h.attach e),
    fun e i hi => h.waits e i (h'.waits e i hi)⟩

theorem «open» (h : Fewer s s') {e : Fd} (ho : s.Open e) : s'.Open e := ⟨ho.1, (h.fd e).trans ho.2⟩

theorem back (h : Fewer s s') (hb : s.Back) : s'.Back := by
  intro e i hi
  obtain ⟨ho, ha⟩ := hb e i (h.waits e i hi)
  exact ⟨h.open ho, (h.attach e).trans ha⟩

theorem backFor (h : Fewer s s') (hb : BackFor fd tmp iuser s) : BackFor fd tmp iuser s' := by
  refine ⟨h.open hb.self, fun e i he hi => ?_, fun i hi => hb.own i (h.waits fd i hi)⟩
  obtain ⟨ho, ha⟩ := hb.others e i he (h.waits e i hi)
  exact ⟨h.open ho, (h.attach e).trans ha⟩

/-- Nobody waits after a calm step who did not before. -/
theorem of_calm (h : Calm (fun _ => False) s s')
    (ha : ∀ e, (s'.co e).attach = (s.co e).attach) : Fewer s s' := by
  refine ⟨fun e => (h.sockets e).1, ha, fun e i hi => ?_⟩
  obtain ⟨y', hy', halive, hc⟩ := hi
  obtain ⟨y, hy, halive', hcarries⟩ := h.subs i y' not_false hy' halive
  exact ⟨y, hy, halive', hcarries.client.symm.trans hc⟩

theorem of_level (h : Level s s') : Fewer s s' := of_calm h.calm h.attach

theorem of_quiet (h : Quiet s s') : Fewer s s' := by
  refine ⟨fun e => congrArg Wire.fd (h.co e), fun e => congrArg Wire.attach (h.co e),
    fun e i hi => ?_⟩
  obtain ⟨y', hy', halive, hc⟩ := hi
  obtain ⟨y, hy, he⟩ := h.sub_back hy'
  exact ⟨y, hy, (congrArg Line.state he).symm.trans halive, (congrArg Line.client he).symm.trans hc⟩

theorem setUser : Fewer s (s.setUser u x) := ⟨fun _ => rfl, fun _ => rfl, fun _ _ h => h⟩

/-- One subuser is written, and waits afterwards only where it waited before. -/
theorem setSub (h : y.state = .alive → s.Waits y.client i) : Fewer s (s.setSub i y) := by
  refine ⟨fun _ => rfl, fun _ => rfl, fun e j hj => ?_⟩
  obtain ⟨y', hy', halive, hc⟩ := hj
  by_cases hji : j = i
  · subst hji
    simp only [setSub_subs, Function.update_self, Option.some.injEq] at hy'
    subst hy'
    exact hc ▸ h halive
  · exact ⟨y', by simpa [hji] using hy', halive, hc⟩

end Fewer

theorem doDied_fewer (h : s.doDied i = .ok s') : Fewer s s' := by
  obtain ⟨y, hy, -⟩ := bind_ok h
  rw [doDied_eq (sub_ok hy)] at h
  cases h
  split
  · exact (Fewer.setSub fun ha => by cases ha).trans (.of_quiet .safeShutdown)
  · exact .refl

theorem delsubuser_fewer (h : s.delsubuser u i = .ok s') : Fewer s s' :=
  .of_calm (delsubuser_calm h).1 (delsubuser_frees h).1

theorem deluser_fewer (h : s.deluser u = .ok s') : Fewer s s' := by
  obtain ⟨t, ht, -⟩ := bind_ok h
  obtain ⟨x, hx, -⟩ := bind_ok ht
  exact .of_calm (deluser_calm h).1 (deluser_frees (user_ok hx) h).1

theorem transportDataCompletlySent_fewer {transport : Transport}
    (h : s.transportDataCompletlySent i transport = .ok s') : Fewer s s' := by
  rcases transportDataCompletlySent_cases h with rfl | hd
  · exact .refl
  · exact doDied_fewer hd

theorem tickSub_fewer (h : s.tickSub u i = .ok s') : Fewer s s' := by
  obtain ⟨y, hy, ⟨-, hdel⟩ | rfl | ⟨hsend, b, t, v, x, hraws, -, -, hend⟩⟩ := tickSub_cases h
  · exact delsubuser_fewer hdel
  · exact .refl
  · have hq := sendRaws_quiet hraws
    have hf := Fewer.of_quiet hq
    split at hend
    · exact hf.trans (transportDataCompletlySent_fewer hend)
    · rw [hend]
      refine hf.trans (.setSub fun ha => ?_)
      obtain ⟨y', hy', he⟩ := hq.sub hy
      exact ⟨y', hy', (congrArg Line.state he).trans ha, congrArg Line.client he⟩

theorem apeSent_fewer (h : s.apeSent fd = .ok s') : Fewer s s' := by
  unfold apeSent at h
  split at h
  · cases h
    exact .refl
  · next i _ =>
    obtain ⟨y, -, h⟩ := bind_ok h
    split at h
    · obtain ⟨t, ht, h⟩ := bind_ok h
      obtain ⟨y', hy', h⟩ := bind_ok h
      cases h
      have hf : Fewer s t := by
        unfold completeFor at ht
        split at ht
        · obtain ⟨x, -, ht⟩ := bind_ok ht
          exact transportDataCompletlySent_fewer ht
        · cases ht
          exact .refl
      exact hf.trans (.setSub fun ha => ⟨y', sub_ok hy', ha, rfl⟩)
    · cases h
      exact .refl

/-! ### The subuser of a command -/

/-- A lookup attaches nothing to the connection it turns away. -/
theorem openSub_attach {o : Opened} (h : s.openSub u pc = .ok o) (e : Fd) :
    (o.state.co e).attach = (s.co e).attach ∨ ∃ x i y, s.users u = some x ∧ o.sub = some i ∧
      s.subs i = some y ∧ y.state = .alive ∧ (s.co y.client).fd ≠ (s.co pc.client).fd ∧
      e = (s.co (transportOpenSameHost y pc.client x.transport).client_close).fd := by
  obtain ⟨x, i, w, hx, hi, hopens, hstill, -⟩ := openSub_opens h
  rw [hstill.attach]
  cases hopens with
  | @same y r _ hy _ hne ha hr =>
    by_cases he : e = (s.co r.client_close).fd
    · exact .inr ⟨x, i, y, hx, hi, hy, ha, hne, by rw [he, hr]⟩
    · exact .inl (by simp [moved, Ape.setAttach, he])
  | found => exact .inl rfl
  | new ht =>
    obtain ⟨-, rfl⟩ | ⟨-, -, -, -, -, -, -, rfl⟩ := addsubuser_spec ht
    · exact .inl rfl
    · exact .inl rfl

theorem transportOpenSameHost_alive {client : Fd} {transport : Transport}
    (h : (transportOpenSameHost y client transport).substate = .alive) :
    transportOpenSameHost y client transport =
      { client_close := client, client_listener := y.client, attach := false, substate := .alive } := by
  cases transport <;> first | rfl | cases h

/-- A subuser that still waits after a lookup waited before, and where it does now. Its response
is as far as it was, unless the transport has chosen its connection of the two. -/
theorem Opening.waiting {o : Opened} {y' : Subuser} (h : Opening s u x pc i o y')
    (ha : y'.state = .alive) (hstay : ∀ y, s.subs i = some y → y.state = .alive →
      (s.co y.client).fd = (s.co pc.client).fd → y.client = pc.client) :
    ∃ y, s.subs i = some y ∧ y.state = .alive ∧ y'.client = y.client ∧ y'.user = y.user ∧
      (y'.progress = y.progress ∨ y'.progress = ⟨false, false⟩ ∧
        s.getsubuser u pc.host = .ok (some i) ∧ (s.co y.client).fd ≠ (s.co pc.client).fd ∧
        (transportOpenSameHost y pc.client x.transport).attach = false) := by
  cases h with
  | @same y r hget hy hne hal hr hs hcl hp hu =>
    rw [hr] at hs hcl
    have hkept := transportOpenSameHost_alive (hs.symm.trans ha)
    rw [hkept] at hcl
    exact ⟨y, hy, hal, hcl, hu, .inr ⟨hp, hget, hne, by rw [hkept]⟩⟩
  | @found y _ hy hn hs hcl hp hu =>
    have hal := hs.symm.trans ha
    have hfd : (s.co y.client).fd = (s.co pc.client).fd := not_not.mp fun hne => hn ⟨hne, hal⟩
    exact ⟨y, hy, hal, hcl.trans (hstay y hy hal hfd).symm, hu, .inl hp⟩
  | new _ hs =>
    rw [hs] at ha
    cases ha

/-- Who waits after a lookup waited there before. -/
theorem openSub_waits {o : Opened} {e : Fd} (hb : BackFor pc.client tmp none s)
    (h : s.openSub u pc = .ok o) (hw : o.state.Waits e j) : s.Waits e j := by
  obtain ⟨x, i, y', hx, hi, hy', hcalm, hopening⟩ := openSub_opening h
  obtain ⟨z, hz, ha, hc⟩ := hw
  by_cases hj : j = i
  · subst hj
    obtain rfl := Option.some.inj (hy'.symm.trans hz)
    obtain ⟨y, hy, hal, hcl, -⟩ := hopening.waiting ha fun y hy hal hfd => by
      by_contra hyc
      obtain ⟨ho, -⟩ := hb.others y.client j hyc ⟨y, hy, hal, rfl⟩
      exact hyc (ho.2.symm.trans (hfd.trans hb.self.2))
    exact ⟨y, hy, hal, hcl.symm.trans hc⟩
  · obtain ⟨y, hy, hal, hcarries⟩ := hcalm.subs j z hj hz ha
    exact ⟨y, hy, hal, hcarries.client.symm.trans hc⟩

/-- The connection of a subuser that still waits is not the one that is turned away. -/
theorem openSub_keeps {o : Opened} {e : Fd} (hb : BackFor pc.client tmp none s)
    (h : s.openSub u pc = .ok o) (he : e ≠ pc.client) (hw : o.state.Waits e j) :
    (o.state.co e).attach = (s.co e).attach := by
  rcases openSub_attach h e with heq | ⟨x, i, y, hx, hi, hy, ha, hne, hclose⟩
  · exact heq
  exfalso
  by_cases hr : (transportOpenSameHost y pc.client x.transport).substate = .alive
  · rw [transportOpenSameHost_alive hr] at hclose
    exact he (hclose.trans hb.self.2)
  · rw [transportOpenSameHost_adied hr] at hclose
    have hyc : y.client ≠ pc.client := fun hc => hne (by rw [hc])
    obtain ⟨ho, hback⟩ := hb.others y.client i hyc ⟨y, hy, ha, rfl⟩
    obtain ⟨-, hback'⟩ := hb.others e j he (openSub_waits hb h hw)
    rw [hclose.trans ho.2, hback] at hback'
    obtain rfl := Option.some.inj hback'
    -- the subuser that was turned away does not wait any more
    obtain ⟨x', i', y', hx', hi', hy', -, hopening⟩ := openSub_opening h
    obtain rfl := Option.some.inj (hi.symm.trans hi')
    obtain rfl := Option.some.inj (hx.symm.trans hx')
    obtain ⟨z, hz, hal, -⟩ := hw
    obtain rfl := Option.some.inj (hy'.symm.trans hz)
    cases hopening with
    | @same y₁ r _ hy₁ _ _ hr₁ hs =>
      obtain rfl := Option.some.inj (hy.symm.trans hy₁)
      exact hr (by rw [← hr₁, ← hs, hal])
    | found _ hy₁ hn =>
      obtain rfl := Option.some.inj (hy.symm.trans hy₁)
      exact hn ⟨hne, ha⟩
    | new _ hs =>
      rw [hs] at hal
      cases hal

/-- The subuser of a command waits where it did, or is on the connection of the request. -/
theorem openSub_back {o : Opened} (hb : BackFor pc.client tmp none s)
    (h : s.openSub u pc = .ok o) : BackFor pc.client tmp none o.state ∧
      ∃ i y, o.sub = some i ∧ o.state.subs i = some y ∧
        (o.attach = true ∧ y.client = pc.client ∨ o.attach = false ∧ y.state = .alive) := by
  obtain ⟨x, i, y', hx, hi, hy', hcalm, hopening⟩ := openSub_opening h
  have hopen : ∀ {e}, s.Open e → o.state.Open e := fun ho => ⟨ho.1, (hcalm.sockets _).1.trans ho.2⟩
  refine ⟨⟨hopen hb.self, fun e j he hw => ?_, fun j hw => ?_⟩, i, y', hi, hy', ?_⟩
  · obtain ⟨ho, hback⟩ := hb.others e j he (openSub_waits hb h hw)
    exact ⟨hopen ho, (openSub_keeps hb h he hw).trans hback⟩
  · exact hb.own j (openSub_waits hb h hw)
  · cases hopening with
    | @same y r _ _ _ _ hr hs hcl _ _ _ hatt =>
      rw [hr] at hs hcl hatt
      by_cases hal : (transportOpenSameHost y pc.client x.transport).substate = .alive
      · rw [transportOpenSameHost_alive hal] at hs hatt
        exact .inr ⟨hatt, hs⟩
      · rw [transportOpenSameHost_adied hal] at hcl hatt
        exact .inl ⟨hatt, hcl⟩
    | found _ _ _ _ hcl _ _ _ hatt => exact .inl ⟨hatt, hcl⟩
    | new _ _ hcl _ _ _ hatt => exact .inl ⟨hatt, hcl⟩

/-- The subuser of a command waits and stays the one of the request, or becomes it. -/
theorem cmdSub_back {o : Opened} (hwork : AtWork fd pc iuser s) (hb : BackFor fd tmp iuser s)
    (h : s.cmdSub pc = .ok o) : BackFor fd tmp iuser o.state ∧
      ∀ i, o.sub = some i → ∃ y, o.state.subs i = some y ∧
        (y.state = .alive ∧ (if o.attach then some i else none) = iuser ∨
          y.client = fd ∧ o.attach = true ∧ iuser = none) := by
  obtain ⟨hs, rfl, rfl, hwaits⟩ := hwork
  cases hsub : pc.sub with
  | some k =>
    obtain rfl := cmdSub_seated hsub h
    rw [hsub] at hb hwaits
    refine ⟨hb, fun i hi => ?_⟩
    obtain rfl := Option.some.inj hi
    obtain ⟨y, hy, ha⟩ := hwaits k rfl
    exact ⟨y, hy, .inl ⟨ha, rfl⟩⟩
  | none =>
    rw [hsub] at hb
    unfold cmdSub at h
    split at h
    · obtain ⟨hback, i, y, hi, hy, hcase⟩ := openSub_back hb h
      refine ⟨hback, fun j hj => ?_⟩
      obtain rfl := Option.some.inj (hi.symm.trans hj)
      refine ⟨y, hy, ?_⟩
      rcases hcase with ⟨ha, hc⟩ | ⟨ha, halive⟩
      · exact .inr ⟨hc, ha, rfl⟩
      · exact .inl ⟨halive, by simp [ha]⟩
    · cases h
      refine ⟨hb, fun i hi => ?_⟩
      rw [hsub] at hi
      cases hi

/-- A subuser begins to wait. -/
theorem BackFor.seat {iuser' : Option SubId} (hb : BackFor fd tmp iuser s)
    (hy : s.subs i = some y) (hcase : y.state = .alive ∧ iuser' = iuser ∨
      y.client = fd ∧ iuser = none ∧ iuser' = some i) :
    BackFor fd tmp iuser' (s.setSub i { y with state := .alive }) := by
  rcases hcase with ⟨ha, rfl⟩ | ⟨hc, rfl, rfl⟩
  · have hf : Fewer s (s.setSub i { y with state := .alive }) := .setSub fun _ => ⟨y, hy, ha, rfl⟩
    exact hf.backFor hb
  · have hold : ∀ e j, j ≠ i → (s.setSub i { y with state := .alive }).Waits e j → s.Waits e j := by
      rintro e j hj ⟨z, hz, ha, he⟩
      exact ⟨z, by simpa [hj] using hz, ha, he⟩
    refine ⟨hb.self, fun e j he hw => ?_, fun j hw => ?_⟩
    · have hj : j ≠ i := by
        rintro rfl
        obtain ⟨z, hz, -, hze⟩ := hw
        simp only [setSub_subs, Function.update_self, Option.some.injEq] at hz
        rw [← hz] at hze
        exact he (hze.symm.trans hc)
      exact hb.others e j he (hold e j hj hw)
    · by_cases hj : j = i
      · exact .inl (by rw [hj])
      · exact .inr ((hb.own j (hold fd j hj hw)).resolve_left nofun)

/-! ### Commands -/

/-- `CONNECT` is run while another subuser than `tmp` waits on the connection, or by a user
whose transport turns the connection away. -/
def ConnectStrands (s : Ape) (pc : Pc) (tmp : Option SubId) : Prop :=
  (∃ i, s.Waits pc.client i ∧ tmp ≠ some i) ∨
    ∃ u x i y, pc.guser = some u ∧ pc.sub = none ∧ s.users u = some x ∧
      s.getsubuser u pc.host = .ok (some i) ∧ s.subs i = some y ∧ y.state = .alive ∧
      (s.co y.client).fd ≠ (s.co pc.client).fd ∧
      (transportOpenSameHost y pc.client x.transport).attach = false

/-- The user of a command has a subuser `y` that waits on another connection and stays there. -/
def TurnsAway (s : Ape) (pc : Pc) (y : Subuser) : Prop :=
  ∃ u x i, pc.guser = some u ∧ pc.sub = none ∧ s.users u = some x ∧
    s.getsubuser u pc.host = .ok (some i) ∧ s.subs i = some y ∧ y.state = .alive ∧
    (s.co y.client).fd ≠ (s.co pc.client).fd ∧
    (transportOpenSameHost y pc.client x.transport).attach = false

/-- Unless it is turned away, a command goes on with the connection of its request. -/
theorem cmdSub_here {o : Opened} (hc : ∀ y, ¬s.TurnsAway pc y) (h : s.cmdSub pc = .ok o) :
    o.attach = true ∧ o.client.getD pc.client = pc.client := by
  unfold cmdSub at h
  split at h
  · next u hu hsub =>
    obtain ⟨x, i, y', hx, hi, hy', -, hopening⟩ := openSub_opening h
    cases hopening with
    | @same y r hget hy hne ha hr _ _ _ _ hclient hatt =>
      by_cases hal : (transportOpenSameHost y pc.client x.transport).substate = .alive
      · refine absurd ⟨u, x, i, hu, hsub, hx, hget, hy, ha, hne, ?_⟩ (hc y)
        rw [transportOpenSameHost_alive hal]
      · rw [hr, transportOpenSameHost_adied hal] at hclient hatt
        exact ⟨hatt, by rw [hclient]; rfl⟩
    | found _ _ _ _ _ _ _ hclient hatt => exact ⟨hatt, by rw [hclient]; rfl⟩
    | new _ _ _ _ _ hclient hatt => exact ⟨hatt, by rw [hclient]; rfl⟩
  · cases h
    exact ⟨rfl, rfl⟩

/-- Otherwise its new user gets a subuser on the connection of the request. -/
theorem cmdSub_connect {o : Opened} (hc : ¬s.ConnectStrands pc tmp) (h : s.cmdSub pc = .ok o) :
    o.attach = true ∧ o.client.getD pc.client = pc.client := by
  refine cmdSub_here ?_ h
  rintro y ⟨u, x, i, hturns⟩
  exact hc (.inr ⟨u, x, i, y, hturns⟩)

/-- The subuser of a new user. -/
theorem allocUser_head {client : Fd} {host ip : Bytes} (h : s.allocUser client host ip = .ok (u, t))
    (hx : t.users u = some x) (hi : x.subuser.head? = some i) : t.co = s.co ∧
      (∀ j, j ≠ i → t.subs j = s.subs j) ∧ ∃ y, t.subs i = some y ∧
        y.unqueued = (s.newSub client host u).unqueued := by
  obtain ⟨t₀, o, ha, ht⟩ := allocUser_spec h
  obtain ⟨x₀, hx₀, hnil⟩ := ha.alone
  obtain ⟨-, rfl⟩ | ⟨x₁, y, hx₁, -, -, -, hy, rfl⟩ := addsubuser_spec ht
  · obtain rfl := Option.some.inj (hx₀.symm.trans hx)
    rw [hnil] at hi
    cases hi
  · simp only [setSub_users, setUser_users, Function.update_self, Option.some.injEq] at hx
    rw [← hx] at hi
    obtain rfl := Option.some.inj hi
    refine ⟨ha.rest.2.1, fun j hj => ?_, y, Function.update_self .., ?_⟩
    · rw [setSub_subs, Function.update_of_ne hj]
      exact congrFun ha.rest.1 j
    · rw [hy]
      simp only [newSub, ha.rest.2.2.2]

/-- Who waits beside a new user is a subuser of before. -/
theorem allocUser_alive {client : Fd} {host ip : Bytes}
    (h : s.allocUser client host ip = .ok (u, t)) (hx : t.users u = some x)
    (hi : x.subuser.head? = some i) (hy : t.subs j = some y) (ha : y.state = .alive) :
    j ≠ i ∧ s.subs j = some y := by
  obtain ⟨-, hsubs, y', hy', he⟩ := allocUser_head h hx hi
  have hj : j ≠ i := by
    rintro rfl
    obtain rfl := Option.some.inj (hy'.symm.trans hy)
    rw [show y'.state = .adied from congrArg Subuser.state he] at ha
    cases ha
  exact ⟨hj, (hsubs j hj).symm.trans hy⟩

theorem allocUser_fewer {client : Fd} {host ip : Bytes}
    (h : s.allocUser client host ip = .ok (u, t)) (hx : t.users u = some x)
    (hi : x.subuser.head? = some i) : Fewer s t := by
  obtain ⟨hco, -⟩ := allocUser_head h hx hi
  refine ⟨fun e => by rw [hco], fun e => by rw [hco], ?_⟩
  rintro e j ⟨z, hz, ha, hc⟩
  exact ⟨z, (allocUser_alive h hx hi hz ha).2, ha, hc⟩

theorem backFor_upheld (domain : Bool) (fd : Fd) (tmp : Option SubId) : Upheld domain
    (fun _ cmd pc t => isConnect cmd = true → ¬t.ConnectStrands pc tmp)
    (fun pc iuser s => AtWork fd pc iuser s ∧ BackFor fd tmp iuser s) (BackFor fd tmp) where
  done h := h.2
  level h hl := (Fewer.of_level hl).backFor h
  cmd := by
    intro ijson cmd pc guser iuser s d h hconn hd
    obtain ⟨hwork, hback⟩ := h
    have hs := (execCmd_sound hwork.sound hd).1
    have hwork' : AtWork fd { pc with guser := guser } iuser s :=
      ⟨hwork.sound, hwork.client, hwork.sub, hwork.waits⟩
    obtain ⟨o, t, ho, hlevel, hends⟩ := execCmd_ends hd
    obtain ⟨hback', hsub⟩ := cmdSub_back hwork' hback ho
    have ht := (Fewer.of_level hlevel).backFor hback'
    cases hends with
    | stopped _ hl hret hiuser =>
      rw [hiuser]
      exact .inr ⟨hret, (Fewer.of_level hl).backFor ht⟩
    | quit _ _ hl hdel hlast hret hiuser =>
      rw [hiuser]
      exact .inr ⟨hret, (((Fewer.of_level hl).trans (deluser_fewer hdel)).trans
        (.of_level hlast)).backFor ht⟩
    | @took u i t₁ y _ _ _ hi hl hy hstate hiuser hpc =>
      refine .inl ⟨hwork.next ho hs hstate hiuser (by rw [hpc]; exact ⟨rfl, rfl⟩), ?_⟩
      obtain ⟨y₀, hy₀, hcase⟩ := hsub i hi
      obtain ⟨y₁, hy₁, hline, -⟩ := (hlevel.trans hl).sub hy₀
      obtain rfl := Option.some.inj (hy.symm.trans hy₁)
      rw [hstate, hiuser]
      refine ((Fewer.of_level hl).backFor ht).seat hy ?_
      rcases hcase with ⟨ha, heq⟩ | ⟨hc, ha, hnone⟩
      · exact .inl ⟨(congrArg Line.state hline).trans ha, heq⟩
      · exact .inr ⟨(congrArg Line.client hline).trans hc, hnone, by simp [ha]⟩
    | @admitted u i t₁ t₂ x y hc halloc hx hi hl hy hstate hiuser hpc =>
      refine .inl ⟨hwork.next ho hs hstate hiuser (by rw [hpc]; exact ⟨rfl, rfl⟩), ?_⟩
      obtain ⟨hatt, hclient⟩ := cmdSub_connect (hconn hc) ho
      -- nobody but `tmp` waits here, so the new subuser is the one to be attached
      have hnone : BackFor fd tmp none s := by
        refine ⟨hback.self, hback.others, fun j hw => .inr ?_⟩
        by_contra hne
        exact hconn hc (.inl ⟨j, hwork.client ▸ hw, hne⟩)
      have hnone' : BackFor fd tmp none o.state := by
        cases hsub : pc.sub with
        | some k =>
          have hseat : ({ pc with guser := guser } : Pc).sub = some k := hsub
          obtain rfl := cmdSub_seated hseat ho
          exact hnone
        | none =>
          rw [← hwork.sub, hsub] at hback'
          exact hback'
      have hf : Fewer o.state t₂ := (((Fewer.of_level hlevel).trans (allocUser_fewer halloc hx hi)).trans
        .setUser).trans (.of_level hl)
      obtain ⟨-, -, y₀, hy₀, he⟩ := allocUser_head halloc hx hi
      obtain ⟨y₁, hy₁, hline, -⟩ := hl.sub hy₀
      obtain rfl := Option.some.inj (hy.symm.trans hy₁)
      rw [hstate, hiuser, hatt]
      refine (hf.backFor hnone').seat hy (.inr ⟨?_, rfl, rfl⟩)
      have hc₀ : y₀.client = o.client.getD pc.client := congrArg Subuser.client he
      exact (congrArg Line.client hline).trans (hc₀.trans (hclient.trans hwork.client))

/-! ### A request on a connection where a subuser waits -/

/-- The command takes the subuser `i` up, or deletes its user. -/
def TakesUp (s : Ape) (cmd : Bytes) (pc : Pc) (i : SubId) : Prop :=
  ∃ u, pc.guser = some u ∧
    (isQuit cmd = true ∧ (∃ x, s.users u = some x ∧ i ∈ x.subuser) ∨
      isQuit cmd = false ∧ isConnect cmd = false ∧ pc.sub = none ∧
        s.getsubuser u pc.host = .ok (some i))

theorem TakesUp.not_connect (h : s.TakesUp cmd pc i) : isConnect cmd = false := by
  obtain ⟨u, -, ⟨hq, -⟩ | ⟨-, hc, -⟩⟩ := h
  · exact connect_ne_quit hq
  · exact hc

/-- A lookup takes no subuser from a user. -/
theorem cmdSub_users {o : Opened} {x' : User} (h : s.cmdSub pc = .ok o) (hu : pc.guser = some u)
    (hx : s.users u = some x) (hx' : o.state.users u = some x') (hi : i ∈ x.subuser) :
    i ∈ x'.subuser := by
  unfold cmdSub at h
  split at h
  · next v hv _ =>
    obtain rfl := Option.some.inj (hu.symm.trans hv)
    obtain ⟨x₀, j, w, hx₀, -, hopens, hstill, -⟩ := openSub_opens h
    obtain ⟨xw, hxw, hpost⟩ := hstill.user_back hx'
    rw [show x'.subuser = xw.subuser from congrArg Seat.subuser hpost]
    cases hopens with
    | same =>
      obtain rfl := Option.some.inj (hx.symm.trans hxw)
      exact hi
    | found =>
      obtain rfl := Option.some.inj (hx.symm.trans hxw)
      exact hi
    | new ht =>
      obtain ⟨hn, -⟩ | ⟨x₁, z, hx₁, -, -, -, -, rfl⟩ := addsubuser_spec ht
      · cases hn
      · obtain rfl := Option.some.inj (hx.symm.trans hx₁)
        simp only [setSub_users, setUser_users, Function.update_self, Option.some.injEq] at hxw
        rw [← hxw]
        exact List.mem_cons_of_mem _ hi
  · cases h
    obtain rfl := Option.some.inj (hx.symm.trans hx')
    exact hi

/-- The subusers of a user that is deleted after the lookup do not wait. -/
theorem cmdSub_deleted {o : Opened} {t₁ t₂ : Ape} (h : s.cmdSub pc = .ok o)
    (hu : pc.guser = some u) (hx : s.users u = some x) (hi : i ∈ x.subuser)
    (hlevel : Level o.state t₁) (hdel : t₁.deluser u = .ok t₂) (hlast : Level t₂ s') :
    ∀ y, s'.subs i = some y → y.state ≠ .alive := by
  obtain ⟨x₁, hx₁⟩ : ∃ x₁, t₁.users u = some x₁ := by
    obtain ⟨t, ht, -⟩ := bind_ok hdel
    obtain ⟨x₁, hx₁, -⟩ := bind_ok ht
    exact ⟨x₁, user_ok hx₁⟩
  obtain ⟨xo, hxo, hstation⟩ := hlevel.user_back hx₁
  have hi₁ : i ∈ x₁.subuser := by
    rw [show x₁.subuser = xo.subuser from congrArg Station.subuser hstation]
    exact cmdSub_users h hu hx hxo hi
  intro y hy ha
  obtain ⟨y₂, hy₂, ha₂, -⟩ := (hlast.calm (B := fun _ => False)).subs i y not_false hy ha
  exact (deluser_calm (B := fun _ => False) hdel).2 x₁ hx₁ i hi₁ y₂ hy₂ ha₂

/-- After the command the subuser is the one of the request, or does not wait here. -/
theorem TakesUp.done {d : Done} (h : s.TakesUp cmd pc i)
    (hd : execCmd (.plain domain) ijson cmd pc iuser s = .ok d) :
    d.iuser = some i ∨ ¬d.state.Waits pc.client i := by
  obtain ⟨o, t, ho, hlevel, hends⟩ := execCmd_ends hd
  have hconn := h.not_connect
  obtain ⟨u, hu, hcase⟩ := h
  cases hends with
  | stopped hnone =>
    rw [hu] at hnone
    cases hnone
  | @quit v t₁ t₂ hq hv hl hdel hlast =>
    obtain rfl := Option.some.inj (hu.symm.trans hv)
    obtain ⟨x, hx, hi⟩ := (hcase.resolve_right fun hc => by simp [hc.1] at hq).2
    refine .inr fun ⟨y, hy, ha, _⟩ => ?_
    exact cmdSub_deleted ho hu hx hi (hlevel.trans hl) hdel hlast y hy ha
  | @took v j t₁ y hq hc hv hj hl hy hstate hiuser =>
    obtain ⟨-, -, hsub, hget⟩ := hcase.resolve_left fun hc => by simp [hc.1] at hq
    unfold cmdSub at ho
    rw [hu, hsub] at ho
    obtain ⟨x, i', y', hx, hi', hy', -, hopening⟩ := openSub_opening ho
    obtain rfl := Option.some.inj (hj.symm.trans hi')
    obtain ⟨y₁, hy₁, hline, -⟩ := (hlevel.trans hl).sub hy'
    obtain rfl := Option.some.inj (hy.symm.trans hy₁)
    cases hopening with
    | @same y₀ r hget' _ hne _ hr hs hcl _ _ _ hatt =>
      obtain rfl := Option.some.inj (Except.ok.inj (hget.symm.trans hget'))
      by_cases hal : (transportOpenSameHost y₀ pc.client x.transport).substate = .alive
      · refine .inr fun hw => hne ?_
        rw [hstate] at hw
        obtain ⟨z, hz, -, hze⟩ := hw
        simp only [setSub_subs, Function.update_self, Option.some.injEq] at hz
        rw [hr, transportOpenSameHost_alive hal] at hcl
        have hyc : y.client = y₀.client := (congrArg Line.client hline).trans hcl
        rw [← hyc, ← hze, ← hz]
      · rw [hr, transportOpenSameHost_adied hal] at hatt
        exact .inl (by rw [hiuser, hatt]; rfl)
    | found hget' _ _ _ _ _ _ _ hatt =>
      obtain rfl := Option.some.inj (Except.ok.inj (hget.symm.trans hget'))
      exact .inl (by rw [hiuser, hatt]; rfl)
    | new hget' =>
      rw [hget'] at hget
      cases hget
  | admitted hc =>
    rw [hconn] at hc
    cases hc

theorem BackFor.drop (h : BackFor fd (some i) iuser s) (hi : iuser = some i ∨ ¬s.Waits fd i) :
    BackFor fd none iuser s := by
  refine ⟨h.self, h.others, fun j hw => .inl ?_⟩
  rcases h.own j hw with hj | hj
  · exact hj
  · obtain rfl := Option.some.inj hj
    exact hi.resolve_right fun hn => hn hw

/-! ### Events -/

/-- The subuser a WebSocket was attached to before a message does not wait after it. -/
def Superseded (s : Ape) : Event → Option SubId
  | .message fd _ => (s.co fd).attach
  | _ => none

/-- No `CONNECT` leaves a waiting subuser behind, and a request over a connection on which a
subuser waits takes it up. -/
def TakesUpWaiting (domain : Bool) (s : Ape) (e : Event) : Prop :=
  (∀ ijson cmd pc t, Commands (.plain domain) s e ijson cmd pc t → isConnect cmd = true →
    ¬t.ConnectStrands pc (s.Superseded e)) ∧
  match e with
  | .request fd _ => ∀ i, s.Waits fd i → ∃ ijson cmd pc t,
    Commands (.plain domain) s e ijson cmd pc t ∧ t.TakesUp cmd pc i
  | _ => True

theorem Back.backFor (hb : s.Back) (ho : s.Open fd) : BackFor fd (s.co fd).attach none s :=
  ⟨ho, fun e i _ hw => hb e i hw, fun i hw => .inr (hb fd i hw).2⟩

theorem BackFor.attach (h : BackFor fd none iuser s) : (s.setAttach fd iuser).Back := by
  have hopen : ∀ e, s.Open e → (s.setAttach fd iuser).Open e := by
    intro e he
    refine ⟨he.1, Eq.trans ?_ he.2⟩
    by_cases h : e = fd <;> simp [Ape.setAttach, h]
  intro e i hw
  by_cases he : e = fd
  · subst he
    refine ⟨hopen e h.self, ?_⟩
    rw [(h.own i hw).resolve_right fun hn => by cases hn]
    simp [Ape.setAttach]
  · obtain ⟨ho, ha⟩ := h.others e i he hw
    exact ⟨hopen e ho, by simpa [Ape.setAttach, he] using ha⟩

theorem request_back {r : HttpRequest} (hs : s.Healthy) (hb : s.Back) (ho : s.Open fd)
    (ha : TakesUpWaiting domain s (.request fd r))
    (h : s.parserReadyHttp (.plain domain) fd r = .ok s') : s'.Back := by
  obtain ⟨hconn, htakes⟩ := ha
  have hnone := backFor_upheld domain fd none
  have hresult : ∃ iuser t, BackFor fd none iuser t ∧ s' = t.setAttach fd iuser := by
    by_cases hw : ∃ i, s.Waits fd i
    · obtain ⟨i, hw⟩ := hw
      obtain ⟨ijson, cmd, pc, t, hc, htake⟩ := htakes i hw
      have hsome : Upheld domain
          (fun _ cmd pc t => isConnect cmd = true → ¬t.ConnectStrands pc none)
          (fun pc iuser s => AtWork fd pc iuser s ∧ BackFor fd (some i) iuser s)
          (BackFor fd (some i)) :=
        (backFor_upheld domain fd (some i)).weaken fun hC hcmd hstrands =>
          hC hcmd (hstrands.imp_left fun ⟨j, hj, _⟩ => ⟨j, hj, nofun⟩)
      refine hsome.request_takes hnone (fun _ _ _ => ⟨.start hs.sound, ?_⟩) (hconn _ _ _ _) hc
        (fun {pc₁ iuser₁ d} hI hpc hd => ?_) h
      · rw [← (hb fd i hw).2]
        exact hb.backFor ho
      · have hdone := htake.done hd
        have hclient : pc.client = fd := by
          rw [hpc]
          exact hI.1.client
        rw [hclient] at hdone
        rw [hpc] at hd
        rcases hsome.cmd hI (fun hcmd => by simp [htake.not_connect] at hcmd) hd with hI' | ⟨hret, hF⟩
        · exact .inl ⟨hI'.1, hI'.2.drop hdone⟩
        · exact .inr ⟨hret, hF.drop hdone⟩
    · refine hnone.request (fun _ _ _ => ⟨.start hs.sound, ho, fun e i _ hw => hb e i hw, ?_⟩)
        (hconn _ _ _ _) h
      exact fun i hi => absurd ⟨i, hi⟩ hw
  obtain ⟨iuser, t, hF, rfl⟩ := hresult
  exact hF.attach

theorem supersede_back {tmp : Option SubId} (hb : BackFor fd tmp iuser s)
    (h : (s.setAttach fd iuser).supersede tmp iuser = .ok s') : s'.Back := by
  unfold supersede at h
  split at h
  · next i =>
    split at h
    · next hne =>
      obtain ⟨y, -, h⟩ := bind_ok h
      cases h
      have hf : Fewer s (s.setSub i { y with state := .adied }) := .setSub fun ha => by cases ha
      have hb' := (hf.backFor hb).drop (.inr fun hw => ?_)
      · exact hb'.attach
      · obtain ⟨z, hz, ha, -⟩ := hw
        simp only [setSub_subs, Function.update_self, Option.some.injEq] at hz
        rw [← hz] at ha
        cases ha
    · next heq =>
      cases h
      exact (hb.drop (.inl (not_not.mp heq))).attach
  · cases h
    exact hb.attach

/-- The subuser that a connection is attached to does not wait on it after it went down. -/
theorem apeDisconnect_calm (h : s.apeDisconnect fd = .ok s') :
    ∃ t, Calm (fun _ => False) s t ∧ (∀ e, (t.co e).attach = (s.co e).attach) ∧
      (∀ i, (s.co fd).attach = some i → ¬t.Waits fd i) ∧ (s' = t ∨ s' = t.setAttach fd none) := by
  unfold apeDisconnect at h
  split at h
  · next hnone =>
    cases h
    refine ⟨s, .refl, fun _ => rfl, fun i hi => ?_, .inl rfl⟩
    rw [hnone] at hi
    cases hi
  · next j hj =>
    have hself : ∀ i, (s.co fd).attach = some i → i = j := fun i hi =>
      Option.some.inj (hi.symm.trans hj)
    obtain ⟨y, hy, h⟩ := bind_ok h
    replace hy := sub_ok hy
    split at h
    · cases h
      refine ⟨_, .freeSub, fun _ => rfl, fun i hi hw => ?_, .inr rfl⟩
      obtain rfl := hself i hi
      obtain ⟨z, hz, -⟩ := hw
      simp at hz
    · split at h
      · have hmark : Calm (fun _ => False) s
            (s.setSub j { y with headersSent := false, state := .adied }) :=
          .setSub fun ha => by cases ha
        have hdead : ∀ t', Calm (fun _ => False)
            (s.setSub j { y with headersSent := false, state := .adied }) t' → ¬t'.Waits fd j := by
          rintro t' hcalm ⟨z, hz, ha, -⟩
          obtain ⟨z', hz', ha', -⟩ := hcalm.subs j z not_false hz ha
          simp only [setSub_subs, Function.update_self, Option.some.injEq] at hz'
          rw [← hz'] at ha'
          cases ha'
        have hkept : ∃ t, Calm (fun _ => False) s t ∧ (∀ e, (t.co e).attach = (s.co e).attach) ∧
            (∀ i, (s.co fd).attach = some i → ¬t.Waits fd i) ∧
            (s.setSub j { y with headersSent := false, state := .adied } = t ∨
              s.setSub j { y with headersSent := false, state := .adied } = t.setAttach fd none) :=
          ⟨_, hmark, fun _ => rfl, fun i hi => hself i hi ▸ hdead _ .refl, .inl rfl⟩
        unfold dropTmp at h
        split at h
        · obtain ⟨x, hx, h⟩ := bind_ok h
          split at h
          · obtain ⟨t, ht, h⟩ := bind_ok h
            cases h
            have hdel := (deluser_calm (B := fun _ => False) ht).1
            exact ⟨t, hmark.trans hdel, (deluser_frees (user_ok hx) ht).1,
              fun i hi => hself i hi ▸ hdead t hdel, .inr rfl⟩
          · cases h
            exact hkept
        · cases h
          exact hkept
      · next hne =>
        cases h
        refine ⟨s, .refl, fun _ => rfl, fun i hi hw => hne ?_, .inl rfl⟩
        obtain rfl := hself i hi
        obtain ⟨z, hz, -, hc⟩ := hw
        obtain rfl := Option.some.inj (hy.symm.trans hz)
        rw [hc]

theorem apeDisconnect_back (hb : s.Back) (h : s.apeDisconnect fd = .ok s') :
    (s'.setCo fd .closed).Back := by
  obtain ⟨t, hcalm, hattach, hnone, hs⟩ := apeDisconnect_calm h
  have hf : Fewer s t := .of_calm hcalm hattach
  have hw' : ∀ e i, (s'.setCo fd .closed).Waits e i → t.Waits e i := by
    intro e i hw
    rcases hs with rfl | rfl <;> exact hw
  intro e i hw
  have ht := hw' e i hw
  have he : e ≠ fd := by
    rintro rfl
    exact hnone i (hb e i (hf.waits e i ht)).2 ht
  obtain ⟨ho, hback⟩ := hf.back hb e i ht
  have hco : (s'.setCo fd .closed).co e = t.co e := by
    rcases hs with rfl | rfl <;> simp [Ape.setAttach, he]
  exact ⟨⟨ho.1, by rw [hco]; exact ho.2⟩, by rw [hco]; exact hback⟩

theorem checkTimeout_back (hb : s.Back) (h : s.checkTimeout = .ok s') : s'.Back :=
  tickFrom_keeps (fun _ _ _ _ _ ht _ _ _ hdel => (deluser_fewer hdel).back ht)
    (fun _ _ _ _ _ ht hsub => (tickSub_fewer hsub).back ht) hb h

theorem step_back {e : Event} (hs : s.Healthy) (hb : s.Back) (ha : TakesUpWaiting domain s e)
    (h : s.step (.plain domain) e = .ok s') : s'.Back := by
  cases e with
  | accept fd ip =>
    simp only [step] at h
    split at h
    · next hc =>
      cases h
      intro e i hw
      obtain ⟨ho, hback⟩ := hb e i hw
      have he : e ≠ fd := by
        rintro rfl
        exact ho.1 (ho.2.symm.trans hc.2)
      exact ⟨⟨ho.1, by simpa [he] using ho.2⟩, by simpa [he] using hback⟩
    · cases h
  | request fd r =>
    simp only [step] at h
    split at h
    · next ho => exact request_back hs hb ho.1 ha h
    · cases h
  | message fd objects =>
    simp only [step] at h
    split at h
    · next transport host hparser =>
      split at h
      · next ho =>
        obtain ⟨iuser, t, hF, hsup⟩ := (backFor_upheld domain fd (s.co fd).attach).message hparser
          ⟨.start hs.sound, hb.backFor ho⟩ (ha.1 _ _ _ _) h
        exact supersede_back hF hsup
      · cases h
    · cases h
  | sent fd =>
    simp only [step] at h
    split at h
    · obtain ⟨t, ht, h⟩ := bind_ok h
      cases h
      have hset : Fewer s (s.setCo fd { s.co fd with bufout := false }) := by
        refine ⟨fun e => ?_, fun e => ?_, fun _ _ h => h⟩
        · by_cases he : e = fd <;> simp [he]
        · by_cases he : e = fd <;> simp [he]
      have hf := hset.trans (apeSent_fewer ht)
      split
      · exact (hf.trans (.of_level .shutdown)).back hb
      · exact hf.back hb
    · cases h
  | reset fd =>
    simp only [step] at h
    split at h
    · cases h
      exact (Fewer.of_level .shutdown).back hb
    · cases h
  | disconnect fd =>
    simp only [step] at h
    split at h
    · obtain ⟨t, ht, h⟩ := bind_ok h
      cases h
      exact apeDisconnect_back hb ht
    · cases h
  | tick => exact checkTimeout_back hb h
  | clock time =>
    cases h
    exact hb

/-- In every run that lets no subuser wait behind a connection taken for another one, the
connection of every waiting subuser is attached to it, also while `check_timeout` is at
work. -/
theorem alive_attached {rand : List (List.Vector (Fin 16) 32)} {io : ℕ → Bool} {time : ℤ}
    (h : Reach (step (.plain domain)) (TakesUpWaiting domain) (init rand io time) s) :
    (∀ u x i y, s.users u = some x → i ∈ x.subuser → s.subs i = some y → y.state = .alive →
      (s.co (s.co y.client).fd).attach = some i) ∧
    ∀ u i t y, Rounds s.fresh s.uHead s u (some i) t → t.subs i = some y → y.state = .alive →
      (t.co (t.co y.client).fd).attach = some i := by
  have hboth : s.Healthy ∧ s.Back := by
    refine h.keeps (fun s => s.Healthy ∧ s.Back) ⟨init_healthy rand io time, ?_⟩
      fun _ _ _ ⟨hs, hb⟩ ha hl => ⟨step_healthy hs hl, step_back hs hb ha hl⟩
    rintro e i ⟨y, hy, -⟩
    cases hy
  have hback : ∀ t : Ape, t.Back → ∀ i y, t.subs i = some y → y.state = .alive →
      (t.co (t.co y.client).fd).attach = some i := by
    intro t ht i y hy ha
    obtain ⟨ho, hattach⟩ := ht y.client i ⟨y, hy, ha, rfl⟩
    rw [ho.2]
    exact hattach
  refine ⟨fun u x i y _ _ hy ha => hback s hboth.2 i y hy ha, fun u i t y hr hy ha => ?_⟩
  refine hback t (hr.keeps (fun _ _ _ ht hdel => (deluser_fewer hdel).back ht)
    (fun _ _ _ _ ht hsub => (tickSub_fewer hsub).back ht) hboth.2) i y hy ha

theorem connect_takesUp {s₀ : Ape} (hsubs : s₀.subs = fun _ => none) :
    TakesUpWaiting domain s₀ (httpRequest 5 "/0/" [connectObject]) := by
  have hwaits : ∀ e i, ¬s₀.Waits e i := by
    rintro e i ⟨y, hy, -⟩
    rw [hsubs] at hy
    cases hy
  refine ⟨fun ijson cmd pc t hc _ hstrands => ?_, fun i hw => absurd hw (hwaits 5 i)⟩
  obtain ⟨host, uri, objects, hhost, huri, hdata, hws, htakes⟩ := hc
  cases hdata
  cases htakes with
  | first =>
    obtain ⟨i, hw, -⟩ | ⟨u, -, -, -, hu, -⟩ := hstrands
    · exact hwaits _ i hw
    · cases hu
  | later _ _ _ hrest => cases hrest

/-- A user that waits on its first connection. -/
theorem alive_attached_connect : ∃ s y, Steps.runs (step (.plain true)) (fun _ _ => True)
    (init sixteenDraws (fun _ => true) 0)
      [.accept 5 (bytes "1.1.1.1"), httpRequest 5 "/0/" [connectObject]] = some s ∧
      s.subs 1 = some y ∧ y.state = .alive ∧ (s.co (s.co y.client).fd).attach = some 1 := by
  have h : ((Steps.runs (step (.plain true)) (fun _ _ => True)
      (init sixteenDraws (fun _ => true) 0)
        [.accept 5 (bytes "1.1.1.1"), httpRequest 5 "/0/" [connectObject]]).map fun s =>
          ((s.users 0).map User.subuser, (s.subs 1).map Subuser.state)) =
      some (some [1], some .alive) := by decide +kernel
  obtain ⟨s, hs, h⟩ := Option.map_eq_some_iff.mp h
  obtain ⟨hx, hy⟩ := Prod.mk.inj h
  obtain ⟨x, hx, hsub⟩ := Option.map_eq_some_iff.mp hx
  obtain ⟨y, hy, ha⟩ := Option.map_eq_some_iff.mp hy
  have hreach : Reach (step (.plain true)) (TakesUpWaiting true)
      (init sixteenDraws (fun _ => true) 0) s := by
    have hs' := hs
    simp only [Steps.runs, if_true] at hs'
    split at hs'
    · next s₁ h₁ =>
      split at hs'
      · next s₂ h₂ =>
        cases hs'
        have haccept : TakesUpWaiting true (init sixteenDraws (fun _ => true) 0)
            (.accept 5 (bytes "1.1.1.1")) := ⟨fun _ _ _ _ h => h.elim, trivial⟩
        refine .step (.step .start haccept h₁) (connect_takesUp ?_) h₂
        cases h₁
        rfl
      · cases hs'
    · cases hs'
  exact ⟨s, y, hs, hy, ha, (alive_attached hreach).1 0 x 1 y hx (by simp [hsub]) hy ha⟩

/-- A request that goes on as a new user: its connection is attached to that one's subuser, and
the one it began with waits there as well. -/
def checkAndConnect : List Event :=
  [.accept 5 (bytes "1.1.1.1"), httpRequest 5 "/0/" [connectObject], .accept 6 (bytes "1.1.1.1"),
    httpRequest 6 "/0/" [commandObject (bytes "CHECK") (List.replicate 32 97), connectObject]]

theorem alive_unattached : ¬∀ s, Reach (step (.plain true)) (fun _ _ => True)
    (init sixteenDraws (fun _ => true) 0) s →
      ∀ u x i y, s.users u = some x → i ∈ x.subuser → s.subs i = some y → y.state = .alive →
        (s.co (s.co y.client).fd).attach = some i := by
  intro hall
  have h : ((Steps.runs (step (.plain true)) (fun _ _ => True)
      (init sixteenDraws (fun _ => true) 0) checkAndConnect).map fun s =>
        ((s.users 0).map User.subuser, (s.subs 1).map fun y =>
          (y.state, (s.co (s.co y.client).fd).attach))) =
      some (some [1], some (.alive, some 3)) := by decide +kernel
  obtain ⟨s, hs, h⟩ := Option.map_eq_some_iff.mp h
  obtain ⟨hx, hy⟩ := Prod.mk.inj h
  obtain ⟨x, hx, hsub⟩ := Option.map_eq_some_iff.mp hx
  obtain ⟨y, hy, he⟩ := Option.map_eq_some_iff.mp hy
  obtain ⟨ha, hattach⟩ := Prod.mk.inj he
  have hself := hall s (.of_runs .start hs) 0 x 1 y hx (by simp [hsub]) hy ha
  rw [hself] at hattach
  exact absurd hattach (by decide)

end Ape

end ApeServer
