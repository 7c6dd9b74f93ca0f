import ApeServer.Server.Draining

/-!
# Header blocks

`headers.sent` is a flag of the subuser, the header block goes to the connection. What
`send_raws` does with a connection is right as long as the two agree.
-/
namespace ApeServer

open Sock (Bytes)
open Steps (bind_ok)

def Written.isHeaders : Written → Bool
  | .headers => true
  | _ => false

/-- One header block at most, and no body of `send_raws` before it. -/
structure HeadedOnce (out : List Written) : Prop where
  once : out.countP Written.isHeaders ≤ 1
  first : ∀ l r low high, out = l ++ .headers :: r → .raws low high ∉ l

namespace HeadedOnce

variable {out ws : List Written}

theorem append (h : HeadedOnce out) (hws : ∀ w ∈ ws, w.isHeaders = false) :
    HeadedOnce (out ++ ws) := by
  have hnone : ∀ r bs, ws = bs ++ .headers :: r → False := by
    rintro r bs rfl
    cases hws .headers (by simp)
  refine ⟨?_, fun l r low high he => ?_⟩
  · have hzero : ws.countP Written.isHeaders = 0 :=
      List.countP_eq_zero.mpr fun w hw => by simp [hws w hw]
    rw [List.countP_append, hzero]
    exact h.once
  · obtain ⟨bs, rfl, hr⟩ | ⟨bs, rfl, hr⟩ := List.append_eq_append_iff.mp he
    · exact (hnone r bs hr).elim
    · cases bs with
      | nil => exact (hnone r [] hr.symm).elim
      | cons b bs =>
        cases hr
        exact h.first l bs low high rfl

/-- A header block where `send_raws` has not written before. -/
theorem start (h : ∀ w ∈ out, w.fromQueue = false) : HeadedOnce (out ++ [.headers]) := by
  refine ⟨?_, fun l r low high he hm => ?_⟩
  · rw [List.countP_append, List.countP_eq_zero.mpr fun w hw => ?_]
    · exact le_rfl
    · cases w with
      | headers => cases h .headers hw
      | raws | inline | other => exact Bool.false_ne_true
  · have hmem : .raws low high ∈ out ++ [.headers] := he ▸ List.mem_append_left _ hm
    rcases List.mem_append.mp hmem with hout | hlast
    · cases h _ hout
    · cases List.mem_singleton.mp hlast

end HeadedOnce

theorem Written.isHeaders_of_fromQueue {w : Written} (h : w.fromQueue = false) :
    w.isHeaders = false := by
  cases w with
  | headers => cases h
  | raws | inline | other => rfl

namespace Ape

variable {s s' t : Ape} {u : UserId} {i : SubId} {x : User} {y : Subuser} {fd e : Fd} {b : Bool}
  {transport : Transport}

/-- The subuser `i` waits on `fd` for a response with a header block, which was sent if `b`
says so. -/
def Answers (s : Ape) (fd : Fd) (i : SubId) (b : Bool) : Prop :=
  ∃ y u x, s.subs i = some y ∧ y.state = .alive ∧ y.client = fd ∧ y.headersSent = b ∧
    y.user = some u ∧ s.users u = some x ∧ hasHeaders x.transport = true

/-- What `send_raws` wrote to `fd` is what such a response needs: the header block if it was
sent, nothing at all if it was not. -/
def Fits (s : Ape) (fd : Fd) (b : Bool) : Prop :=
  s.Unwritable fd ∨ if b then .headers ∈ (s.co fd).out
    else ∀ w ∈ (s.co fd).out, w.fromQueue = false

theorem Answers.waits (h : s.Answers e i b) : s.Waits e i := by
  obtain ⟨y, -, -, hy, ha, hc, -⟩ := h
  exact ⟨y, hy, ha, hc⟩

/-- The flags of the subusers are right about the connections they wait on, and a connection
that one of them waits on for a response over HTTP is its own. -/
structure Headed (s : Ape) : Prop where
  slots : ∀ e, (s.co e).fd = e ∨ (s.co e).fd = 0
  once : ∀ e, HeadedOnce (s.co e).out
  opened : ∀ e i b, s.Answers e i b → s.Open e
  alone : ∀ e i j b, s.Answers e i b → s.Waits e j → i = j
  fits : ∀ e i b, s.Answers e i b → s.Fits e b

/-! ### Steps that send nothing from a queue and let nobody wait who did not before -/

structure Mute (s s' : Ape) : Prop where
  fd : ∀ e, (s'.co e).fd = (s.co e).fd
  out : ∀ e, ∃ ws, (s'.co e).out = (s.co e).out ++ ws ∧ ∀ w ∈ ws, w.fromQueue = false
  down : ∀ e, s.Unwritable e → s'.Unwritable e
  waits : ∀ e i, s'.Waits e i → s.Waits e i
  answers : ∀ e i b, s'.Answers e i b → s.Answers e i b

namespace Mute

theorem of_co (hco : s'.co = s.co) (hw : ∀ e i, s'.Waits e i → s.Waits e i)
    (ha : ∀ e i b, s'.Answers e i b → s.Answers e i b) : Mute s s' := by
  refine ⟨fun e => by rw [hco], fun e => ⟨[], by simp [hco]⟩, fun e hu => ?_, hw, ha⟩
  unfold Unwritable
  rw [hco]
  exact hu

theorem refl : Mute s s := of_co rfl (fun _ _ h => h) fun _ _ _ h => h

theorem trans (h : Mute s t) (h' : Mute t s') : Mute s s' := by
  refine ⟨fun e => (h'.fd e).trans (h.fd e), fun e => ?_, fun e hu => h'.down e (h.down e hu),
    fun e i hi => h.waits e i (h'.waits e i hi),
    fun e i b hi => h.answers e i b (h'.answers e i b hi)⟩
  obtain ⟨ws, hw, hn⟩ := h.out e
  obtain ⟨ws', hw', hn'⟩ := h'.out e
  refine ⟨ws ++ ws', by rw [hw', hw, List.append_assoc], fun w hm => ?_⟩
  exact (List.mem_append.mp hm).elim (hn w) (hn' w)

theorem fits (h : Mute s s') (hf : s.Fits e b) : s'.Fits e b := by
  obtain ⟨ws, hw, hn⟩ := h.out e
  refine hf.imp (h.down e) fun hout => ?_
  rw [hw]
  cases b with
  | true => exact List.mem_append_left _ hout
  | false => exact fun w hm => (List.mem_append.mp hm).elim (hout w) (hn w)

theorem «open» (h : Mute s s') (ho : s.Open e) : s'.Open e := ⟨ho.1, (h.fd e).trans ho.2⟩

theorem headed (h : Mute s s') (hs : s.Headed) : s'.Headed where
  slots e := by
    rw [h.fd]
    exact hs.slots e
  once e := by
    obtain ⟨ws, hw, hn⟩ := h.out e
    rw [hw]
    exact (hs.once e).append fun w hm => Written.isHeaders_of_fromQueue (hn w hm)
  opened e i b hi := h.open (hs.opened e i b (h.answers e i b hi))
  alone e i j b hi hj := hs.alone e i j b (h.answers e i b hi) (h.waits e j hj)
  fits e i b hi := h.fits (hs.fits e i b (h.answers e i b hi))

/-- A calm step, where those who may begin to wait do not. -/
theorem of_calm_but {B : SubId → Prop} (h : Calm B s s')
    (hw : ∀ e i, B i → s'.Waits e i → s.Waits e i)
    (ha : ∀ e i b, B i → s'.Answers e i b → s.Answers e i b) : Mute s s' := by
  refine ⟨fun e => (h.sockets e).1, fun e => (h.sockets e).2.out, fun e hu => ?_, fun e i hi => ?_,
    fun e i b hi => ?_⟩
  · exact ⟨hu.1, (h.sockets e).2.down hu.2.1 hu.2.2⟩
  · by_cases hB : B i
    · exact hw e i hB hi
    · obtain ⟨y', hy', hal, hc⟩ := hi
      obtain ⟨y, hy, hal', hcarries⟩ := h.subs i y' hB hy' hal
      exact ⟨y, hy, hal', hcarries.client.symm.trans hc⟩
  · by_cases hB : B i
    · exact ha e i b hB hi
    · obtain ⟨y', u, x', hy', hal, hc, hsent, hu, hx', hh⟩ := hi
      obtain ⟨y, hy, hal', hcarries⟩ := h.subs i y' hB hy' hal
      obtain ⟨hu', x, hx, ht⟩ := hcarries.user u x' hu hx'
      refine ⟨y, u, x, hy, hal', hcarries.client.symm.trans hc, ?_, hu', hx, ht ▸ hh⟩
      exact (congrArg Progress.headersSent hcarries.progress).symm.trans hsent

theorem of_calm (h : Calm (fun _ => False) s s') : Mute s s' :=
  of_calm_but h (fun _ _ hB => hB.elim) fun _ _ _ hB => hB.elim

/-- A calm step after which the one that may begin to wait does not wait. -/
theorem of_dead (h : Calm (· = i) s s') (hi : ∀ y, s'.subs i = some y → y.state ≠ .alive) :
    Mute s s' := by
  refine of_calm_but h ?_ ?_
  · rintro e j rfl ⟨y, hy, ha, -⟩
    exact absurd ha (hi y hy)
  · rintro e j b rfl ⟨y, -, -, hy, ha, -⟩
    exact absurd ha (hi y hy)

theorem of_level (h : Level s s') : Mute s s' := of_calm h.calm

/-- One subuser is written, and waits afterwards only where it waited before. -/
theorem setSub (h : y.state = .alive → ∃ z, s.subs i = some z ∧ z.state = .alive ∧
    y.client = z.client ∧ y.headersSent = z.headersSent ∧ y.user = z.user) :
    Mute s (s.setSub i y) := by
  refine of_co rfl ?_ ?_
  · rintro e j ⟨z, hz, ha, hc⟩
    by_cases hji : j = i
    · subst hji
      simp only [setSub_subs, Function.update_self, Option.some.injEq] at hz
      subst hz
      obtain ⟨z, hz, hal, he, -⟩ := h ha
      exact ⟨z, hz, hal, he.symm.trans hc⟩
    · exact ⟨z, by simpa [hji] using hz, ha, hc⟩
  · rintro e j b ⟨z, u, x, hz, ha, hc, hsent, hu, hx⟩
    by_cases hji : j = i
    · subst hji
      simp only [setSub_subs, Function.update_self, Option.some.injEq] at hz
      subst hz
      obtain ⟨z, hz, hal, he, hs, hu'⟩ := h ha
      exact ⟨z, u, x, hz, hal, he.symm.trans hc, hs.symm.trans hsent, hu'.symm.trans hu, hx⟩
    · exact ⟨z, u, x, by simpa [hji] using hz, ha, hc, hsent, hu, hx⟩

theorem setAttach (o : Option SubId) : Mute s (s.setAttach fd o) := of_calm (.setAttach o)

end Mute

/-! ### What `send_raws` writes -/

section Send

variable {w : Written}

/-- A write reaches its connection unless that is closed or down. -/
theorem send_written (s : Ape) (fd : Fd) (w : Written) :
    (fd = 0 ∨ s.Unwritable fd) ∧ (s.send fd w).2 = s ∨
      ¬(fd = 0 ∨ s.Unwritable fd) ∧ ¬(fd = 0 ∨ (s.send fd w).2.Unwritable fd) ∧
        ((s.send fd w).2.co fd).out = (s.co fd).out ++ [w] := by
  unfold send
  simp only
  split_ifs with h0 hb hs
  · exact .inl ⟨.inl h0, rfl⟩
  · have hn : ∀ t : Ape, (t.co fd).bufout = true → ¬(fd = 0 ∨ t.Unwritable fd) := by
      rintro t ht (hfd | hu)
      · exact h0 hfd
      · rw [hu.2.2] at ht
        cases ht
    exact .inr ⟨hn s hb, hn _ (by simpa using hb), by simp⟩
  · exact .inl ⟨.inr ⟨h0, hs, by simpa using hb⟩, rfl⟩
  · have hn : ∀ t : Ape, (t.co fd).shut ≠ true → ¬(fd = 0 ∨ t.Unwritable fd) := by
      rintro t ht (hfd | hu)
      · exact h0 hfd
      · exact ht hu.2.1
    exact .inr ⟨hn s hs, hn _ (by simpa using hs), by simp⟩

theorem send_other (he : e ≠ fd) : (s.send fd w).2.co e = s.co e := by
  unfold send
  simp only
  split_ifs <;> simp [he]

end Send

/-- What goes to a connection before the queue of the subuser `y`. -/
def headOf (y : Subuser) (transport : Transport) : List Written :=
  if !y.headersSent && hasHeaders transport then [.headers] else []

theorem sendHeaders_other (he : e ≠ fd) :
    (s.sendHeaders fd y transport).2.co e = s.co e := by
  unfold sendHeaders
  split
  · exact send_other he
  · rfl

theorem sendHeaders_written (s : Ape) (fd : Fd) (y : Subuser) (transport : Transport) :
    (fd = 0 ∨ s.Unwritable fd) ∧ (s.sendHeaders fd y transport).2 = s ∨
      ¬(fd = 0 ∨ s.Unwritable fd) ∧
        ¬(fd = 0 ∨ (s.sendHeaders fd y transport).2.Unwritable fd) ∧
        ((s.sendHeaders fd y transport).2.co fd).out = (s.co fd).out ++ headOf y transport := by
  unfold sendHeaders headOf
  split
  · exact send_written s fd .headers
  · by_cases hu : fd = 0 ∨ s.Unwritable fd
    · exact .inl ⟨hu, rfl⟩
    · exact .inr ⟨hu, hu, (List.append_nil _).symm⟩

/-- `send_raws` writes the header block, if it is due, and the queues, or nothing to a
connection that is closed or down. -/
theorem sendRaws_written (hy : s.subs i = some y) (hraw : y.nraw ≠ 0)
    (h : s.sendRaws i = .ok (b, t)) : ∃ u x, y.user = some u ∧ s.users u = some x ∧
      t.users = s.users ∧
      t.subs = Function.update s.subs i
        (some { y with headersSent := true, low := [], high := [] }) ∧
      (∀ e, (t.co e).fd = (s.co e).fd) ∧ (∀ e, e ≠ (s.co y.client).fd → t.co e = s.co e) ∧
      (((s.co y.client).fd = 0 ∨ s.Unwritable (s.co y.client).fd) ∧ t.co = s.co ∨
        ¬((s.co y.client).fd = 0 ∨ s.Unwritable (s.co y.client).fd) ∧
          (t.co (s.co y.client).fd).out =
            (s.co (s.co y.client).fd).out ++ headOf y x.transport ++ [.raws y.low y.high]) := by
  obtain ⟨u, x, hu, hx, he⟩ := sendRaws_sub hy hraw h
  obtain ⟨-, rfl⟩ := Prod.mk.inj he
  set f := (s.co y.client).fd
  refine ⟨u, x, hu, hx, send_users.trans sendHeaders_users,
    congrArg (Function.update · i _) (send_subs.trans sendHeaders_subs), fun e => ?_,
    fun e he => ?_, ?_⟩
  · refine send_fd.trans ?_
    unfold sendHeaders
    split
    · exact send_fd
    · rfl
  · exact (send_other he).trans (sendHeaders_other he)
  · obtain ⟨hdown, hsame⟩ | ⟨hn, hn', hout⟩ := sendHeaders_written s f y x.transport
    · obtain ⟨-, hsame'⟩ :=
        (send_written s f (.raws y.low y.high)).resolve_right fun hc => hc.1 hdown
      refine .inl ⟨hdown, ?_⟩
      rw [hsame]
      change (s.send f (.raws y.low y.high)).2.co = s.co
      rw [hsame']
    · obtain ⟨-, -, hraws⟩ :=
        (send_written _ f (.raws y.low y.high)).resolve_left fun hc => hn' hc.1
      refine .inr ⟨hn, ?_⟩
      rw [← hout]
      exact hraws

/-- Behind its header block a response goes to a connection that has one. -/
theorem sendRaws_led (hs : s.Headed) (hy : s.subs i = some y) (ha : y.state = .alive)
    (hraw : y.nraw ≠ 0) (hu : y.user = some u) (hx : s.users u = some x)
    (hh : hasHeaders x.transport = true) (h : s.sendRaws i = .ok (b, t)) :
    s.Unwritable (s.co y.client).fd ∧ t.co = s.co ∨ .headers ∈ (t.co (s.co y.client).fd).out := by
  obtain ⟨v, x', hv, hx', -, -, -, -, hself⟩ := sendRaws_written hy hraw h
  obtain rfl := Option.some.inj (hu.symm.trans hv)
  obtain rfl := Option.some.inj (hx.symm.trans hx')
  have hi : s.Answers y.client i y.headersSent := ⟨y, u, x, hy, ha, rfl, rfl, hu, hx, hh⟩
  obtain ⟨h0, hslot⟩ := hs.opened _ _ _ hi
  rw [hslot] at hself ⊢
  refine hself.imp (fun hc => ⟨hc.1.resolve_left h0, hc.2⟩) fun ⟨hn, hout⟩ => ?_
  rw [hout]
  refine List.mem_append_left _ ?_
  cases hsent : y.headersSent with
  | true =>
    rw [hsent] at hi
    refine List.mem_append_left _ ?_
    exact (hs.fits _ _ _ hi).resolve_left fun hdown => hn (.inr hdown)
  | false =>
    refine List.mem_append_right _ ?_
    simp [headOf, hsent, hh]

theorem sendRaws_headed (hs : s.Headed) (hy : s.subs i = some y) (ha : y.state = .alive)
    (hraw : y.nraw ≠ 0) (h : s.sendRaws i = .ok (b, t)) : t.Headed := by
  obtain ⟨u, x, hu, hx, husers, hsubs, hfd, hother, hself⟩ := sendRaws_written hy hraw h
  set f := (s.co y.client).fd with hf
  have hwaits : ∀ e j, t.Waits e j → s.Waits e j := by
    rintro e j ⟨z, hz, hza, hc⟩
    by_cases hj : j = i
    · subst hj
      rw [hsubs, Function.update_self, Option.some.injEq] at hz
      rw [← hz] at hc
      exact ⟨y, hy, ha, hc⟩
    · rw [hsubs, Function.update_of_ne hj] at hz
      exact ⟨z, hz, hza, hc⟩
  have hanswers : ∀ e j c, t.Answers e j c → s.Answers e j c ∧ j ≠ i ∨
      j = i ∧ e = y.client ∧ c = true ∧ hasHeaders x.transport = true ∧
        s.Answers e i y.headersSent := by
    rintro e j c ⟨z, v, x', hz, hza, hc, hsent, hv, hx', hh⟩
    rw [husers] at hx'
    by_cases hj : j = i
    · subst hj
      rw [hsubs, Function.update_self, Option.some.injEq] at hz
      subst hz
      obtain rfl := Option.some.inj (hu.symm.trans hv)
      obtain rfl := Option.some.inj (hx.symm.trans hx')
      exact .inr ⟨rfl, hc.symm, hsent.symm, hh, y, u, x, hy, ha, hc, rfl, hu, hx, hh⟩
    · rw [hsubs, Function.update_of_ne hj] at hz
      exact .inl ⟨⟨z, v, x', hz, hza, hc, hsent, hv, hx', hh⟩, hj⟩
  have hback : ∀ e j c, t.Answers e j c → ∃ c', s.Answers e j c' := by
    intro e j c hj
    obtain ⟨hj, -⟩ | ⟨rfl, -, -, -, hj⟩ := hanswers e j c hj
    · exact ⟨c, hj⟩
    · exact ⟨_, hj⟩
  -- a header block that is due goes to a connection nothing was written to
  have hfirst : headOf y x.transport = [] ∨ headOf y x.transport = [.headers] ∧
      (¬(f = 0 ∨ s.Unwritable f) → ∀ w ∈ (s.co f).out, w.fromQueue = false) := by
    unfold headOf
    split
    · next hdue =>
      rw [Bool.and_eq_true, Bool.not_eq_true'] at hdue
      have hi : s.Answers y.client i false := ⟨y, u, x, hy, ha, rfl, hdue.1, hu, hx, hdue.2⟩
      refine .inr ⟨rfl, fun hn => ?_⟩
      rw [hf, (hs.opened _ _ _ hi).2] at hn ⊢
      exact (hs.fits _ _ _ hi).resolve_left fun hdown => hn (.inr hdown)
    · exact .inl rfl
  refine ⟨fun e => by rw [hfd]; exact hs.slots e, fun e => ?_, fun e j c hj => ?_, ?_, ?_⟩
  · by_cases he : e = f
    · subst he
      obtain ⟨-, hsame⟩ | ⟨hn, hout⟩ := hself
      · rw [hsame]
        exact hs.once f
      · rw [hout]
        refine HeadedOnce.append ?_ (by simp [Written.isHeaders])
        obtain hnil | ⟨hhead, hnone⟩ := hfirst
        · rw [hnil, List.append_nil]
          exact hs.once f
        · rw [hhead]
          exact .start (hnone hn)
    · rw [hother e he]
      exact hs.once e
  · obtain ⟨c', hj'⟩ := hback e j c hj
    obtain ⟨h0, ho⟩ := hs.opened e j c' hj'
    exact ⟨h0, (hfd e).trans ho⟩
  · intro e j k c hj hk
    obtain ⟨c', hj'⟩ := hback e j c hj
    exact hs.alone e j k c' hj' (hwaits e k hk)
  · intro e j c hj
    obtain ⟨hj, hji⟩ | ⟨rfl, rfl, rfl, hh, hj⟩ := hanswers e j c hj
    · -- nobody else answers on the connection the queue goes to
      have he : e ≠ f := by
        rintro rfl
        obtain ⟨h0, -⟩ := hs.opened _ j c hj
        have hslot := (hs.slots y.client).resolve_right h0
        exact hji (hs.alone _ j i c hj ⟨y, hy, ha, hslot.symm⟩)
      have hfits := hs.fits e j c hj
      unfold Fits Unwritable at hfits ⊢
      rwa [hother e he]
    · have hled := sendRaws_led hs hy ha hraw hu hx hh h
      rw [(hs.opened _ j _ hj).2] at hled
      refine hled.imp_left fun ⟨hdown, hsame⟩ => ?_
      unfold Unwritable
      rw [hsame]
      exact hdown

theorem doDied_mute (h : s.doDied i = .ok s') : Mute s s' := .of_calm (doDied_calm h).1

theorem transportDataCompletlySent_mute (h : s.transportDataCompletlySent i transport = .ok s') :
    Mute s s' := by
  rcases transportDataCompletlySent_cases h with rfl | hd
  · exact .refl
  · exact doDied_mute hd

theorem tickSub_headed (hs : s.Headed) (h : s.tickSub u i = .ok s') : s'.Headed := by
  obtain ⟨y, hy, ⟨-, hdel⟩ | rfl | ⟨hsend, b, t, v, x, hraws, -, -, hend⟩⟩ := tickSub_cases h
  · exact (Mute.of_calm (delsubuser_calm hdel).1).headed hs
  · exact hs
  · have ht := sendRaws_headed hs hy hsend.2.1 hsend.2.2.1 hraws
    cases b with
    | true => exact (transportDataCompletlySent_mute hend).headed ht
    | false =>
      obtain ⟨-, -, -, -, -, hsubs, -⟩ := sendRaws_written hy hsend.2.2.1 hraws
      rw [show s' = _ from hend]
      refine (Mute.setSub fun ha => ?_).headed ht
      refine ⟨{ y with headersSent := true, low := [], high := [] }, ?_, ha, rfl, rfl, rfl⟩
      rw [hsubs, Function.update_self]

theorem checkTimeout_headed (hs : s.Headed) (h : s.checkTimeout = .ok s') : s'.Headed :=
  tickFrom_keeps (fun _ _ _ _ _ ht _ _ _ hdel => (Mute.of_calm (deluser_calm hdel).1).headed ht)
    (fun _ _ _ _ _ ht hsub => tickSub_headed ht hsub) hs h

end Ape

end ApeServer
