import ApeServer.Server.Waiting

/-!
# Responses that are still going out

`burn_after_writing` keeps `check_timeout` from sending to a subuser until the connection has
drained. The flag must not outlive what it waits for.
-/
namespace ApeServer

open Sock (Bytes)
open Steps (ok_bind bind_ok Reach)

namespace Ape

variable {s s' t : Ape} {u : UserId} {i j : SubId} {x : User} {y : Subuser} {fd : Fd}
  {pc : Pc} {domain : Bool} {cmd : Bytes} {ijson : JsonItem} {iuser : Option SubId}

/-- `check_timeout` sends nothing more to the subuser `i`, which waits on `fd`, until what is
queued there is gone. -/
def Burns (s : Ape) (fd : Fd) (i : SubId) : Prop :=
  ∃ y, s.subs i = some y ∧ y.state = .alive ∧ y.burn_after_writing = true ∧ y.client = fd

/-- A slot keeps its descriptor or none, and the connection of every subuser that burns has
output queued. -/
structure Draining (s : Ape) : Prop where
  slots : ∀ e, (s.co e).fd = e ∨ (s.co e).fd = 0
  burns : ∀ e i, s.Burns e i → s.Open e ∧ (s.co e).bufout = true

/-! ### Steps after which nothing burns that did not before -/

structure Damp (s s' : Ape) : Prop where
  fd : ∀ e, (s'.co e).fd = (s.co e).fd
  bufout : ∀ e, (s.co e).bufout = true → (s'.co e).bufout = true
  burns : ∀ e i, s'.Burns e i → s.Burns e i

namespace Damp

theorem refl : Damp s s := ⟨fun _ => rfl, fun _ h => h, fun _ _ h => h⟩

theorem trans (h : Damp s t) (h' : Damp t s') : Damp s s' :=
  ⟨fun e => (h'.fd e).trans (h.fd e), fun e hb => h'.bufout e (h.bufout e hb),
    fun e i hi => h.burns e i (h'.burns e i hi)⟩

theorem draining (h : Damp s s') (hd : s.Draining) : s'.Draining := by
  refine ⟨fun e => by rw [h.fd]; exact hd.slots e, fun e i hi => ?_⟩
  obtain ⟨ho, hb⟩ := hd.burns e i (h.burns e i hi)
  exact ⟨⟨ho.1, (h.fd e).trans ho.2⟩, h.bufout e hb⟩

theorem of_calm (h : Calm (fun _ => False) s s') : Damp s s' := by
  refine ⟨fun e => (h.sockets e).1, fun e => (h.sockets e).2.bufout, ?_⟩
  rintro e i ⟨y', hy', ha, hburn, hc⟩
  obtain ⟨y, hy, ha', hcarries⟩ := h.subs i y' not_false hy' ha
  exact ⟨y, hy, ha', (congrArg Progress.burn_after_writing hcarries.progress).symm.trans hburn,
    hcarries.client.symm.trans hc⟩

theorem of_level (h : Level s s') : Damp s s' := of_calm h.calm

theorem setSub (h : y.state = .alive → y.burn_after_writing = true → s.Burns y.client i) :
    Damp s (s.setSub i y) := by
  refine ⟨fun _ => rfl, fun _ h => h, ?_⟩
  rintro e j ⟨y', hy', ha, hburn, hc⟩
  by_cases hji : j = i
  · subst hji
    simp only [setSub_subs, Function.update_self, Option.some.injEq] at hy'
    subst hy'
    exact hc ▸ h ha hburn
  · exact ⟨y', by simpa [hji] using hy', ha, hburn, hc⟩

theorem setUser : Damp s (s.setUser u x) := ⟨fun _ => rfl, fun _ h => h, fun _ _ h => h⟩

theorem setAttach (o : Option SubId) : Damp s (s.setAttach fd o) := by
  refine ⟨fun e => ?_, fun e he => ?_, fun _ _ h => h⟩
  · by_cases h : e = fd <;> simp [Ape.setAttach, h]
  · by_cases h : e = fd
    · subst h
      simpa [Ape.setAttach] using he
    · simpa [Ape.setAttach, h] using he

end Damp

/-! ### What `send` queues -/

section Send

variable {w : Written} {e : Fd}

theorem send_fd : ((s.send fd w).2.co e).fd = (s.co e).fd := congrArg Wire.fd (Quiet.send.co e)

theorem send_bufout (h : (s.co e).bufout = true) : ((s.send fd w).2.co e).bufout = true := by
  unfold send
  simp only
  split_ifs with h1 h2 h3
  · exact h
  · by_cases he : e = fd
    · subst he
      simpa using h2
    · simpa [he] using h
  · exact h
  · by_cases he : e = fd
    · subst he
      exact absurd h h2
    · simpa [he] using h

theorem send_shut : ((s.send fd w).2.co e).shut = (s.co e).shut := by
  unfold send
  simp only
  split_ifs
  · rfl
  · by_cases he : e = fd <;> simp [he]
  · rfl
  · by_cases he : e = fd <;> simp [he]

/-- What is not written is queued, unless the connection is down. -/
theorem send_false (h : (s.send fd w).1 = false) : fd ≠ 0 ∧
    (((s.send fd w).2.co fd).bufout = true ∨
      (s.co fd).shut = true ∧ (s.co fd).bufout = false) := by
  unfold send at h ⊢
  simp only at h ⊢
  split_ifs at h ⊢ with h1 h2 h3
  · exact ⟨h1, .inl (by simpa using h2)⟩
  · exact ⟨h1, .inr ⟨h3, by simpa using h2⟩⟩
  · exact ⟨h1, .inl (by simpa using h)⟩

end Send

/-- `send_raws` does not write to the connection `e`. -/
def Unwritable (s : Ape) (e : Fd) : Prop :=
  e ≠ 0 ∧ (s.co e).shut = true ∧ (s.co e).bufout = false

theorem send_damp {w : Written} : Damp s (s.send fd w).2 :=
  ⟨fun _ => send_fd, fun _ => send_bufout, fun e i h => by simpa [Burns] using h⟩

/-- What `send_raws` could not write is queued on a connection that takes writes. -/
theorem sendRaws_damp {b : Bool} (hy : s.subs i = some y) (hraw : y.nraw ≠ 0)
    (h : s.sendRaws i = .ok (b, t)) : Damp s t ∧ (b = false →
      (s.co y.client).fd ≠ 0 ∧ (s.Unwritable (s.co y.client).fd ∨
        (t.co (s.co y.client).fd).bufout = true)) := by
  obtain ⟨u, x, -, -, he⟩ := sendRaws_sub hy hraw h
  obtain ⟨hb, rfl⟩ := Prod.mk.inj he
  set f := (s.co y.client).fd with hf
  obtain ⟨hdamp, hheaders⟩ : Damp s (s.sendHeaders f y x.transport).2 ∧
      ((s.sendHeaders f y x.transport).1 = false → f ≠ 0 ∧
        (s.Unwritable f ∨ ((s.sendHeaders f y x.transport).2.co f).bufout = true)) ∧
      ((s.sendHeaders f y x.transport).2.co f).shut = (s.co f).shut := by
    unfold sendHeaders
    split
    · refine ⟨send_damp, fun hfalse => ?_, send_shut⟩
      obtain ⟨h0, hcase⟩ := send_false hfalse
      exact ⟨h0, hcase.symm.imp_left fun hc => ⟨h0, hc⟩⟩
    · exact ⟨.refl, (fun hfalse => by cases hfalse), rfl⟩
  obtain ⟨hheaders, hshut⟩ := hheaders
  refine ⟨(hdamp.trans send_damp).trans (.setSub fun ha hburn => ?_), fun hfalse => ?_⟩
  · exact ⟨y, by simpa using hy, ha, hburn, rfl⟩
  · rw [hfalse, eq_comm, Bool.and_eq_false_iff] at hb
    rcases hb with hb | hb
    · obtain ⟨h0, hcase⟩ := hheaders hb
      exact ⟨h0, hcase.imp_right fun hc => send_bufout hc⟩
    · obtain ⟨h0, hc | ⟨hs, hn⟩⟩ := send_false hb
      · exact ⟨h0, .inr hc⟩
      · refine ⟨h0, .inl ⟨h0, hshut.symm.trans hs, ?_⟩⟩
        by_contra hne
        rw [hdamp.bufout f (by simpa using hne)] at hn
        cases hn

theorem doDied_damp (h : s.doDied i = .ok s') : Damp s s' := .of_calm (doDied_calm h).1

theorem transportDataCompletlySent_damp {transport : Transport}
    (h : s.transportDataCompletlySent i transport = .ok s') : Damp s s' := by
  rcases transportDataCompletlySent_cases h with rfl | hd
  · exact .refl
  · exact doDied_damp hd

/-! ### Commands -/

/-- The command lets a subuser wait that did not, that still burns from the response before,
and whose new connection has no output queued. -/
def TakesUpBurning (s : Ape) (pc : Pc) : Prop :=
  ∃ u i y, pc.guser = some u ∧ pc.sub = none ∧ s.getsubuser u pc.host = .ok (some i) ∧
    s.subs i = some y ∧ y.state ≠ .alive ∧ y.burn_after_writing = true ∧
    (s.co pc.client).bufout = false

/-- The slot of an open connection is the only one with its descriptor. -/
theorem Open.slot {e : Fd} (ho : s.Open fd) (hslots : ∀ e, (s.co e).fd = e ∨ (s.co e).fd = 0)
    (h : (s.co e).fd = (s.co fd).fd) : e = fd := by
  rw [ho.2] at h
  exact ((hslots e).resolve_right fun h0 => ho.1 (h.symm.trans h0)).symm.trans h

/-- Nothing burns after a lookup that did not before. -/
theorem openSub_damp {o : Opened} (hd : s.Draining) (ho : s.Open pc.client)
    (h : s.openSub u pc = .ok o) : Damp s o.state := by
  obtain ⟨x, i, y', hx, hi, hy', hcalm, hopening⟩ := openSub_opening h
  refine ⟨fun e => (hcalm.sockets e).1, fun e => (hcalm.sockets e).2.bufout, ?_⟩
  rintro e j ⟨z, hz, ha, hburn, he⟩
  by_cases hj : j = i
  · subst hj
    obtain rfl := Option.some.inj (hy'.symm.trans hz)
    obtain ⟨y, hy, hal, hcl, -, hp | ⟨hp, -⟩⟩ := hopening.waiting ha fun _ _ _ => ho.slot hd.slots
    · have hburn₀ := (congrArg Progress.burn_after_writing hp).symm.trans hburn
      exact ⟨y, hy, hal, hburn₀, hcl.symm.trans he⟩
    · rw [show y'.burn_after_writing = false from congrArg Progress.burn_after_writing hp] at hburn
      cases hburn
  · obtain ⟨y, hy, ha₀, hcarries⟩ := hcalm.subs j z hj hz ha
    exact ⟨y, hy, ha₀, (congrArg Progress.burn_after_writing hcarries.progress).symm.trans hburn,
      hcarries.client.symm.trans he⟩

theorem cmdSub_damp {o : Opened} (hd : s.Draining) (ho : s.Open pc.client)
    (h : s.cmdSub pc = .ok o) : Damp s o.state := by
  unfold cmdSub at h
  split at h
  · exact openSub_damp hd ho h
  · cases h
    exact .refl

/-- The subuser of a command waits already, or does not burn, or its connection has output
queued. -/
theorem cmdSub_unburnt {o : Opened} (hwork : AtWork fd pc iuser s) (hc : ¬s.TakesUpBurning pc)
    (h : s.cmdSub pc = .ok o) (hi : o.sub = some i) : ∃ y, o.state.subs i = some y ∧
      (y.state = .alive ∨
        (y.burn_after_writing = true → y.client = fd ∧ (o.state.co fd).bufout = true)) := by
  obtain ⟨hs, rfl, rfl, hwaits⟩ := hwork
  cases hsub : pc.sub with
  | some k =>
    obtain rfl := cmdSub_seated hsub h
    obtain rfl := Option.some.inj hi
    obtain ⟨y, hy, ha⟩ := hwaits k hsub
    exact ⟨y, hy, .inl ha⟩
  | none =>
    unfold cmdSub at h
    split at h
    · next u hu _ =>
      obtain ⟨x, i', y', hx, hi', hy', hcalm, hopening⟩ := openSub_opening h
      obtain rfl := Option.some.inj (hi.symm.trans hi')
      refine ⟨y', hy', ?_⟩
      have hclean : y'.progress = ⟨false, false⟩ → y'.burn_after_writing = true →
          y'.client = pc.client ∧ (o.state.co pc.client).bufout = true := by
        intro hp hburn
        rw [show y'.burn_after_writing = false from congrArg Progress.burn_after_writing hp] at hburn
        cases hburn
      cases hopening with
      | same _ _ _ _ _ _ _ hp => exact .inr (hclean hp)
      | @found y hget hy hn hst hcl hp =>
        by_cases ha : y.state = .alive
        · exact .inl (hst.trans ha)
        · refine .inr fun hburn => ⟨hcl, (hcalm.sockets _).2.bufout ?_⟩
          by_contra hb
          refine hc ⟨u, i, y, hu, hsub, hget, hy, ha, ?_, by simpa using hb⟩
          exact (congrArg Progress.burn_after_writing hp).symm.trans hburn
      | new _ _ _ hp => exact .inr (hclean hp)
    · cases h
      rw [hsub] at hi
      cases hi

/-- The subuser of a new user has not been sent anything. -/
theorem allocUser_damp {client : Fd} {host ip : Bytes} (h : s.allocUser client host ip = .ok (u, t))
    (hx : t.users u = some x) (hi : x.subuser.head? = some i) : Damp s t := by
  obtain ⟨hco, -⟩ := allocUser_head h hx hi
  refine ⟨fun e => by rw [hco], fun e => by rw [hco]; exact id, ?_⟩
  rintro e j ⟨z, hz, ha, hburn, hc⟩
  exact ⟨z, (allocUser_alive h hx hi hz ha).2, ha, hburn, hc⟩

/-- A subuser begins to wait. -/
theorem Draining.seat (hd : s.Draining) (ho : s.Open fd) (hy : s.subs i = some y)
    (hcase : y.state = .alive ∨ (y.burn_after_writing = true →
      y.client = fd ∧ (s.co fd).bufout = true)) :
    (s.setSub i { y with state := .alive }).Draining := by
  refine ⟨hd.slots, ?_⟩
  rintro e j ⟨z, hz, ha, hburn, he⟩
  by_cases hj : j = i
  · subst hj
    simp only [setSub_subs, Function.update_self, Option.some.injEq] at hz
    subst hz
    rcases hcase with ha | hcase
    · exact hd.burns e j ⟨y, hy, ha, hburn, he⟩
    · obtain ⟨hc, hb⟩ := hcase hburn
      obtain rfl := he.symm.trans hc
      exact ⟨ho, hb⟩
  · exact hd.burns e j ⟨z, by simpa [hj] using hz, ha, hburn, he⟩

theorem draining_upheld (domain : Bool) (fd : Fd) : Upheld domain
    (fun _ cmd pc t => isQuit cmd = false → isConnect cmd = false → ¬t.TakesUpBurning pc)
    (fun pc iuser s => AtWork fd pc iuser s ∧ s.Draining ∧ s.Open fd) (fun _ s => s.Draining) where
  done h := h.2.1
  level h hl := (Damp.of_level hl).draining h
  cmd := by
    intro ijson cmd pc guser iuser s d h hburn hd
    obtain ⟨hwork, hdrain, hopen⟩ := h
    have hs := (execCmd_sound hwork.sound hd).1
    have hwork' : AtWork fd { pc with guser := guser } iuser s :=
      ⟨hwork.sound, hwork.client, hwork.sub, hwork.waits⟩
    obtain ⟨o, t, ho, hlevel, hends⟩ := execCmd_ends hd
    have hopened : Damp s o.state := by
      refine cmdSub_damp hdrain ?_ ho
      rw [hwork'.client]
      exact hopen
    have hsub : Damp s t := hopened.trans (.of_level hlevel)
    have hkept : ∀ {t'}, Damp s t' → t'.Open fd := fun hf => ⟨hopen.1, (hf.fd fd).trans hopen.2⟩
    cases hends with
    | stopped _ hl hret hiuser => exact .inr ⟨hret, (hsub.trans (.of_level hl)).draining hdrain⟩
    | quit _ _ hl hdel hlast hret hiuser =>
      refine .inr ⟨hret, (((hsub.trans (.of_level hl)).trans (.of_calm (deluser_calm hdel).1)).trans
        (.of_level hlast)).draining hdrain⟩
    | @took u i t₁ y hq hc _ hi hl hy hstate hiuser hpc =>
      have hf := hsub.trans (.of_level hl)
      have hopen' := hkept hf
      obtain ⟨y₀, hy₀, hcase⟩ := cmdSub_unburnt hwork' (hburn hq hc) ho hi
      obtain ⟨y₁, hy₁, hline, hp⟩ := (hlevel.trans hl).sub hy₀
      obtain rfl := Option.some.inj (hy.symm.trans hy₁)
      refine .inl ⟨hwork.next ho hs hstate hiuser (by rw [hpc]; exact ⟨rfl, rfl⟩), ?_⟩
      rw [hstate]
      refine ⟨(hf.draining hdrain).seat hopen' hy ?_, hopen'⟩
      refine hcase.imp (congrArg Line.state hline).trans fun hcase hb => ?_
      obtain ⟨hc, hb'⟩ := hcase ((congrArg Progress.burn_after_writing hp).symm.trans hb)
      exact ⟨(congrArg Line.client hline).trans hc, (hlevel.trans hl).bufout hb'⟩
    | @admitted u i t₁ t₂ x y _ halloc hx hi hl hy hstate hiuser hpc =>
      have hf := ((hsub.trans (allocUser_damp halloc hx hi)).trans .setUser).trans (.of_level hl)
      have hopen' := hkept hf
      obtain ⟨-, -, y₀, hy₀, he⟩ := allocUser_head halloc hx hi
      obtain ⟨y₁, hy₁, hline, hp⟩ := hl.sub hy₀
      obtain rfl := Option.some.inj (hy.symm.trans hy₁)
      refine .inl ⟨hwork.next ho hs hstate hiuser (by rw [hpc]; exact ⟨rfl, rfl⟩), ?_⟩
      rw [hstate]
      refine ⟨(hf.draining hdrain).seat hopen' hy (.inr fun hb => ?_), hopen'⟩
      have hclean : y₀.burn_after_writing = false := congrArg Subuser.burn_after_writing he
      rw [show y.burn_after_writing = false from
        (congrArg Progress.burn_after_writing hp).trans hclean] at hb
      cases hb

/-! ### Events -/

/-- No subuser that still burns is taken up anew, `check_timeout` does not send to a
connection that is down, and a connection that drains or goes down is attached to the
subuser that burns for it. -/
def ClearsBurning (domain : Bool) (s : Ape) (e : Event) : Prop :=
  (∀ ijson cmd pc t, Commands (.plain domain) s e ijson cmd pc t → isQuit cmd = false →
    isConnect cmd = false → ¬t.TakesUpBurning pc) ∧
  match e with
  | .sent fd | .disconnect fd => ∀ i, s.Burns fd i → (s.co fd).attach = some i
  | .tick => ∀ u i t y, Rounds s.fresh s.uHead s u (some i) t → t.subs i = some y →
    t.Sendable y → ¬t.Unwritable (t.co y.client).fd
  | _ => True

theorem tickSub_draining (hd : s.Draining)
    (hw : ∀ y, s.subs i = some y → s.Sendable y → ¬s.Unwritable (s.co y.client).fd)
    (h : s.tickSub u i = .ok s') : s'.Draining := by
  obtain ⟨y, hy, ⟨-, hdel⟩ | rfl | ⟨hsend, b, t, v, x, hraws, -, -, hend⟩⟩ := tickSub_cases h
  · exact (Damp.of_calm (delsubuser_calm hdel).1).draining hd
  · exact hd
  · obtain ⟨hdamp, hqueued⟩ := sendRaws_damp hy hsend.2.2.1 hraws
    cases b with
    | true => exact (hdamp.trans (transportDataCompletlySent_damp hend)).draining hd
    | false =>
      obtain ⟨hfd, hcase⟩ := hqueued rfl
      have hbufout := hcase.resolve_left (hw y hy hsend)
      have hslot := (hd.slots y.client).resolve_right hfd
      have ht := hdamp.draining hd
      rw [show s' = _ from hend]
      refine ⟨ht.slots, ?_⟩
      rintro e j ⟨z, hz, ha, hburn, he⟩
      by_cases hj : j = i
      · subst hj
        simp only [setSub_subs, Function.update_self, Option.some.injEq] at hz
        subst hz
        subst he
        rw [hslot] at hbufout hfd
        exact ⟨⟨hfd, (hdamp.fd y.client).trans hslot⟩, hbufout⟩
      · exact ht.burns e j ⟨z, by simpa [hj] using hz, ha, hburn, he⟩

theorem checkTimeout_draining (hd : s.Draining) (hw : ∀ u i t y,
    Rounds s.fresh s.uHead s u (some i) t → t.subs i = some y → t.Sendable y →
      ¬t.Unwritable (t.co y.client).fd)
    (h : s.checkTimeout = .ok s') : s'.Draining :=
  tickFrom_keeps
    (fun _ _ _ _ _ ht _ _ _ hdel => (Damp.of_calm (deluser_calm hdel).1).draining ht)
    (fun u i t _ hr ht hsub => tickSub_draining ht (fun y => hw u i t y hr) hsub) hd h

/-- A connection that has drained clears the flag of the subuser it is attached to. -/
theorem apeSent_damp (h : s.apeSent fd = .ok s') : Damp s s' ∧
    ∀ i, (s.co fd).attach = some i → ¬s'.Burns fd i := by
  unfold apeSent at h
  split at h
  · next hnone =>
    cases h
    refine ⟨.refl, fun i hi => ?_⟩
    rw [hnone] at hi
    cases hi
  · next j hj =>
    have hself : ∀ i, (s.co fd).attach = some i → i = j := fun i hi =>
      Option.some.inj (hi.symm.trans hj)
    obtain ⟨y, hy, h⟩ := bind_ok h
    replace hy := sub_ok hy
    split at h
    · obtain ⟨t, ht, h⟩ := bind_ok h
      obtain ⟨y', hy', h⟩ := bind_ok h
      cases h
      have hdamp : Damp s t := by
        unfold completeFor at ht
        split at ht
        · obtain ⟨x, -, ht⟩ := bind_ok ht
          exact transportDataCompletlySent_damp ht
        · cases ht
          exact .refl
      refine ⟨hdamp.trans (.setSub fun _ hburn => by cases hburn), ?_⟩
      rintro i hi ⟨z, hz, -, hburn, -⟩
      obtain rfl := hself i hi
      simp only [setSub_subs, Function.update_self, Option.some.injEq] at hz
      rw [← hz] at hburn
      cases hburn
    · next hn =>
      cases h
      refine ⟨.refl, ?_⟩
      rintro i hi ⟨z, hz, -, hburn, -⟩
      obtain rfl := hself i hi
      obtain rfl := Option.some.inj (hy.symm.trans hz)
      exact hn hburn

theorem supersede_damp {tmp sub : Option SubId} (h : s.supersede tmp sub = .ok s') : Damp s s' := by
  unfold supersede at h
  split at h
  · split at h
    · obtain ⟨y, -, h⟩ := bind_ok h
      cases h
      exact .setSub fun ha => by cases ha
    · cases h
      exact .refl
  · cases h
    exact .refl

/-- Only the connection `fd` changes, and nothing burns there. -/
theorem Draining.except (hd : s.Draining) (fd : Fd) (hfd : (s'.co fd).fd = fd ∨ (s'.co fd).fd = 0)
    (hco : ∀ e, e ≠ fd → s'.co e = s.co e) (hb : ∀ e i, s'.Burns e i → e ≠ fd ∧ s.Burns e i) :
    s'.Draining := by
  refine ⟨fun e => ?_, fun e i hi => ?_⟩
  · by_cases he : e = fd
    · rw [he]
      exact hfd
    · rw [hco e he]
      exact hd.slots e
  · obtain ⟨he, hi'⟩ := hb e i hi
    obtain ⟨ho, hbuf⟩ := hd.burns e i hi'
    exact ⟨⟨ho.1, by rw [hco e he]; exact ho.2⟩, by rw [hco e he]; exact hbuf⟩

theorem sent_draining (hd : s.Draining) (ho : s.Open fd)
    (hself : ∀ i, s.Burns fd i → (s.co fd).attach = some i)
    (h : (s.setCo fd { s.co fd with bufout := false }).apeSent fd = .ok s') : s'.Draining := by
  obtain ⟨hdamp, hclear⟩ := apeSent_damp h
  have hburns : ∀ e i, s'.Burns e i → e ≠ fd ∧ s.Burns e i := by
    intro e i hi
    have hi' : s.Burns e i := hdamp.burns e i hi
    refine ⟨?_, hi'⟩
    rintro rfl
    exact hclear i (by simpa using hself i hi') hi
  refine ⟨fun e => ?_, fun e i hi => ?_⟩
  · rw [hdamp.fd]
    by_cases he : e = fd
    · subst he
      simpa using hd.slots e
    · simpa [he] using hd.slots e
  · obtain ⟨he, hi'⟩ := hburns e i hi
    obtain ⟨ho', hb⟩ := hd.burns e i hi'
    exact ⟨⟨ho'.1, by rw [hdamp.fd]; simpa [he] using ho'.2⟩, hdamp.bufout e (by simpa [he] using hb)⟩

theorem disconnect_draining (hd : s.Draining)
    (hself : ∀ i, s.Burns fd i → (s.co fd).attach = some i) (h : s.apeDisconnect fd = .ok t) :
    (t.setCo fd .closed).Draining := by
  obtain ⟨t', hcalm, -, hnone, ht⟩ := apeDisconnect_calm h
  have hdamp := Damp.of_calm hcalm
  have hburns : ∀ e i, (t.setCo fd .closed).Burns e i → t'.Burns e i := by
    intro e i hi
    rcases ht with rfl | rfl <;> exact hi
  refine (hdamp.draining hd).except fd (.inr ?_) (fun e he => ?_) fun e i hi => ⟨?_, hburns e i hi⟩
  · simp [Socket.closed]
  · rcases ht with rfl | rfl <;> simp [Ape.setAttach, he]
  · rintro rfl
    obtain ⟨y, hy, ha, -, hc⟩ := hburns e i hi
    exact hnone i (hself i (hdamp.burns e i (hburns e i hi))) ⟨y, hy, ha, hc⟩

theorem step_draining {e : Event} (hs : s.Healthy) (hd : s.Draining)
    (ha : ClearsBurning domain s e) (h : s.step (.plain domain) e = .ok s') : s'.Draining := by
  obtain ⟨hcmd, hcase⟩ := ha
  cases e with
  | accept fd ip =>
    simp only [step] at h
    split at h
    · next hc =>
      cases h
      refine hd.except fd (.inl (by simp)) (fun e he => by simp [he]) fun e i hi => ⟨?_, hi⟩
      rintro rfl
      obtain ⟨ho, -⟩ := hd.burns e i hi
      exact hc.1 (ho.2.symm.trans hc.2)
    · cases h
  | request fd r =>
    simp only [step] at h
    split at h
    · next ho =>
      obtain ⟨iuser, t, hF, rfl⟩ := (draining_upheld domain fd).request
        (fun _ _ _ => ⟨.start hs.sound, hd, ho.1⟩) (hcmd _ _ _ _) h
      exact (Damp.setAttach iuser).draining hF
    · cases h
  | message fd objects =>
    simp only [step] at h
    split at h
    · next transport host hparser =>
      split at h
      · next ho =>
        obtain ⟨iuser, t, hF, hsup⟩ := (draining_upheld domain fd).message hparser
          ⟨.start hs.sound, hd, ho⟩ (hcmd _ _ _ _) h
        exact ((Damp.setAttach iuser).trans (supersede_damp hsup)).draining hF
      · cases h
    · cases h
  | sent fd =>
    simp only [step] at h
    split at h
    · next ho =>
      obtain ⟨t, ht, h⟩ := bind_ok h
      cases h
      have hsent := sent_draining hd ho.1 hcase ht
      split
      · exact (Damp.of_level .shutdown).draining hsent
      · exact hsent
    · cases h
  | reset fd =>
    simp only [step] at h
    split at h
    · cases h
      exact (Damp.of_level .shutdown).draining hd
    · cases h
  | disconnect fd =>
    simp only [step] at h
    split at h
    · obtain ⟨t, ht, h⟩ := bind_ok h
      cases h
      exact disconnect_draining hd hcase ht
    · cases h
  | tick => exact checkTimeout_draining hd hcase h
  | clock time =>
    cases h
    exact ⟨hd.slots, hd.burns⟩

/-- In every run that takes no burning subuser up anew, sends to no connection that is down
and drains no connection behind the back of its subuser, a waiting subuser that burns has
output queued. -/
theorem burning_queued {rand : List (List.Vector (Fin 16) 32)} {io : ℕ → Bool} {time : ℤ}
    (h : Reach (step (.plain domain)) (ClearsBurning domain) (init rand io time) s) :
    ∀ i y, s.subs i = some y → y.state = .alive → y.burn_after_writing = true →
      (s.co (s.co y.client).fd).bufout = true := by
  have hboth : s.Healthy ∧ s.Draining := by
    refine h.keeps (fun s => s.Healthy ∧ s.Draining) ⟨init_healthy rand io time, ?_⟩
      fun _ _ _ ⟨hs, hd⟩ ha hl => ⟨step_healthy hs hl, step_draining hs hd ha hl⟩
    refine ⟨fun e => .inr rfl, ?_⟩
    rintro e i ⟨y, hy, -⟩
    cases hy
  intro i y hy ha hburn
  obtain ⟨ho, hb⟩ := hboth.2.burns y.client i ⟨y, hy, ha, hburn, rfl⟩
  rw [ho.2]
  exact hb

/-- A tick over one user with one subuser. -/
theorem tick_clears {z : Subuser} (hhead : s.uHead = some u) (hx : s.users u = some x)
    (hsub : x.subuser = [i]) (hnext : x.next = none) (hz : s.subs i = some z)
    (hw : ¬s.Unwritable (s.co z.client).fd) : ClearsBurning domain s .tick := by
  refine ⟨fun _ _ _ _ h => h.elim, fun v j t y hr hy _ => ?_⟩
  rw [hhead] at hr
  generalize s.fresh = n at hr
  cases hr with
  | sub hx' _ _ hr =>
    obtain rfl := Option.some.inj (hx.symm.trans hx')
    rw [hsub] at hr
    cases hr with
    | here =>
      obtain rfl := Option.some.inj (hz.symm.trans hy)
      exact hw
    | later _ hr => cases hr
  | later hx' _ hr =>
    obtain rfl := Option.some.inj (hx.symm.trans hx')
    rw [hnext] at hr
    cases hr

/-- A connection and a `CONNECT` over it, where the kernel takes nothing at once. -/
def slowConnect : List Event := [.accept 5 (bytes "1.1.1.1"), httpRequest 5 "/0/" [connectObject]]

theorem burning_queued_poll : ∃ s y, Steps.runs (step (.plain true)) (fun _ _ => True)
    (init sixteenDraws (fun _ => false) 0) (slowConnect ++ [.tick]) = some s ∧
      s.subs 1 = some y ∧ y.state = .alive ∧ y.burn_after_writing = true ∧
      (s.co (s.co y.client).fd).bufout = true := by
  have hpoll : ((Steps.runs (step (.plain true)) (fun _ _ => True)
      (init sixteenDraws (fun _ => false) 0) slowConnect).map fun s =>
        (s.uHead, (s.users 0).map fun x => (x.subuser, x.next),
          (s.subs 1).map fun y => (s.co (s.co y.client).fd).shut)) =
      some (some 0, some ([1], none), some false) := by decide +kernel
  have htick : ((Steps.runs (step (.plain true)) (fun _ _ => True)
      (init sixteenDraws (fun _ => false) 0) (slowConnect ++ [.tick])).map fun s =>
        (s.subs 1).map fun y => (y.state, y.burn_after_writing)) =
      some (some (.alive, true)) := by decide +kernel
  obtain ⟨s, hs, h⟩ := Option.map_eq_some_iff.mp htick
  obtain ⟨y, hy, h⟩ := Option.map_eq_some_iff.mp h
  obtain ⟨ha, hburn⟩ := Prod.mk.inj h
  obtain ⟨t, ht, hlast⟩ := Steps.runs_append hs
  rw [ht, Option.map_some, Option.some.injEq] at hpoll
  simp only [Prod.mk.injEq] at hpoll
  obtain ⟨hhead, hx, hz⟩ := hpoll
  obtain ⟨x, hx, he⟩ := Option.map_eq_some_iff.mp hx
  obtain ⟨hsub, hnext⟩ := Prod.mk.inj he
  obtain ⟨z, hz, hshut⟩ := Option.map_eq_some_iff.mp hz
  have hreach : Reach (step (.plain true)) (ClearsBurning true)
      (init sixteenDraws (fun _ => false) 0) t := by
    refine .of_always (fun s e he => ?_) .start ht
    simp only [slowConnect, List.mem_cons, List.not_mem_nil, or_false] at he
    rcases he with rfl | rfl
    · exact ⟨fun _ _ _ _ h => h.elim, trivial⟩
    · refine ⟨fun ijson cmd pc t hc _ hconn => ?_, trivial⟩
      obtain ⟨hmem, hcmd⟩ := Commands.object hc
      rw [List.mem_singleton.mp hmem] at hcmd
      cases hcmd
      exact absurd hconn (by decide)
  have htick : ClearsBurning true t .tick := by
    refine tick_clears hhead hx hsub hnext hz fun hw => ?_
    rw [hw.2.1] at hshut
    cases hshut
  have hs' : Reach (step (.plain true)) (ClearsBurning true)
      (init sixteenDraws (fun _ => false) 0) s := by
    simp only [Steps.runs, if_true] at hlast
    split at hlast
    · next h =>
      cases hlast
      exact hreach.step htick h
    · cases hlast
  exact ⟨s, y, hs, hy, ha, hburn, burning_queued hs' 1 y hy ha hburn⟩

/-- A poll that is cut off in the middle of its response, and a new one. -/
def cutOff : List Event :=
  slowConnect ++ [.tick, .disconnect 5, .accept 6 (bytes "1.1.1.1"),
    httpRequest 6 "/0/" [commandObject (bytes "CHECK") (List.replicate 32 97)]]

theorem burning_stays : ¬∀ s, Reach (step (.plain true)) (fun _ _ => True)
    (init sixteenDraws (fun _ => false) 0) s →
      ∀ i y, s.subs i = some y → y.state = .alive → y.burn_after_writing = true →
        (s.co (s.co y.client).fd).bufout = true := by
  intro hall
  have h : ((Steps.runs (step (.plain true)) (fun _ _ => True)
      (init sixteenDraws (fun _ => false) 0) cutOff).map fun s => (s.subs 1).map fun y =>
        (y.state, y.burn_after_writing, (s.co (s.co y.client).fd).bufout)) =
      some (some (.alive, true, false)) := by decide +kernel
  obtain ⟨s, hs, h⟩ := Option.map_eq_some_iff.mp h
  obtain ⟨y, hy, he⟩ := Option.map_eq_some_iff.mp h
  simp only [Prod.mk.injEq] at he
  obtain ⟨ha, hburn, hb⟩ := he
  rw [hall s (.of_runs .start hs) 1 y hy ha hburn] at hb
  cases hb

end Ape

end ApeServer
