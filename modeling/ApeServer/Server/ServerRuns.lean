import ApeServer.Server.Identity

/-!
# Runs of a server without plugins

Every event keeps the state sound, and so does every command in the middle of a request.
-/
namespace ApeServer

open Sock (Bytes)
open Steps (ok_bind bind_ok Reach)

namespace Ape

variable {s s' t : Ape} {u : UserId} {i : SubId} {x : User} {y : Subuser} {cp : Callbackp}
  {flag : UInt32} {pc : Pc} {iuser : Option SubId} {ijson : JsonItem} {domain : Bool}

/-! ### One command -/

theorem moved_roster {r : OpenSameHost} (hy : s.subs i = some y) :
    (s.moved i y r).roster = s.roster := by
  refine roster_setSub_of (s := s.setAttach _ none) hy ?_
  rfl

theorem openSub_sound {o : Opened} (hs : s.roster.Sound) (h : s.openSub u pc = .ok o) :
    o.state.roster.Sound := by
  obtain ⟨x, i, w, -, -, hopens, -, hr⟩ := openSub_opens h
  rw [hr]
  cases hopens with
  | same hi hy =>
    rw [moved_roster hy]
    exact hs
  | @found y hi hy =>
    have he : (s.setSub i { y with client := pc.client }).roster = s.roster :=
      roster_setSub_of hy rfl
    rw [he]
    exact hs
  | new ht => exact addsubuser_sound hs ht

theorem cmdSub_sound {o : Opened} (hs : s.roster.Sound) (h : s.cmdSub pc = .ok o) :
    o.state.roster.Sound := by
  unfold cmdSub at h
  split at h
  · exact openSub_sound hs h
  · cases h
    exact hs

theorem preallocate_sound {cp' : Callbackp} {pc' : Pc} {sub sub' : Option SubId}
    (hs : s.roster.Sound) (h : s.preallocate cp pc sub = .ok (cp', pc', sub', s')) :
    s'.roster.Sound := by
  obtain ⟨-, -, -, -, rfl⟩ | ⟨u, t, x, -, ht, hx, -, -, -, rfl⟩ := preallocate_cases h
  · exact hs
  · have he : (t.setUser u { x with transport := pc.transport }).roster = t.roster :=
      roster_setUser_of hx rfl
    rw [he]
    exact allocUser_sound hs ht

theorem cmdConnect_roster (h : cmdConnect cp s = .ok (flag, s')) : s'.roster = s.roster := by
  obtain ⟨u, -, h⟩ := bind_ok h
  obtain ⟨t, ht, h⟩ := bind_ok h
  obtain ⟨x, -, h⟩ := bind_ok h
  obtain ⟨i, -, h⟩ := bind_ok h
  obtain ⟨t', ht', h⟩ := bind_ok h
  obtain ⟨t'', ht'', h⟩ := bind_ok h
  cases h
  rw [(postRaw_posted ht'').roster, (postRawSub_posted ht').roster, adduser_roster ht]

theorem cmdQuit_sound (hs : s.roster.Sound) (h : cmdQuit cp s = .ok (flag, s')) :
    s'.roster.Sound := by
  unfold cmdQuit at h
  simp only at h
  split at h
  · cases h
    rw [roster_sendRawInline]
    exact hs
  · obtain ⟨t, ht, h⟩ := bind_ok h
    cases h
    exact deluser_sound (by rw [roster_sendRawInline]; exact hs) ht

/-- Every callback of a server without plugins keeps the state sound. -/
theorem plain_sound {cmd : Bytes} (hs : s.roster.Sound)
    (h : ((Cmds.plain domain).seek cmd).func cp s = .ok (flag, s')) : s'.roster.Sound := by
  unfold Cmds.seek at h
  cases hcb : (Cmds.plain domain).hCallback.seek cmd with
  | none =>
    rw [hcb] at h
    cases h
    exact hs
  | some cb =>
    rw [hcb] at h
    rcases seek_builtins hcb with rfl | rfl | rfl | rfl | rfl | rfl | rfl | rfl
    · rw [(cmdSession_spec h).2]
      exact hs
    · exact cmdLeft_sound hs h
    · exact cmdJoin_sound hs h
    · exact cmdQuit_sound hs h
    · rw [(cmdSend_posted h).roster]
      exact hs
    · cases h
      exact hs
    · rw [(cmdScript_spec h).2]
      exact hs
    · rw [cmdConnect_roster h]
      exact hs

/-- Without plugins there is no hook, and the callback is called at once. -/
theorem runCallback_plain {cmdback : Callback} {called : Option Ape}
    (h : runCallback (.plain domain) cmdback cp s = .ok (flag, called, s')) :
    called = some s ∧ cmdback.func cp s = .ok (flag, s') := by
  obtain ⟨fl, t, ht, hcases⟩ := runCallback_ok h
  cases ht
  obtain ⟨-, hcalled, hf⟩ | ⟨hne, -⟩ := hcases
  · exact ⟨hcalled, hf⟩
  · exact absurd rfl hne

/-- The state stays sound, and is sound when the callback runs. -/
theorem execCmd_sound {cmd : Bytes} {d : Done} (hs : s.roster.Sound)
    (h : execCmd (.plain domain) ijson cmd pc iuser s = .ok d) :
    d.state.roster.Sound ∧ ∀ c t, d.call = some c → c.called = some t → t.roster.Sound := by
  obtain ⟨o, ho, h⟩ := bind_ok h
  obtain ⟨t₁, ht₁, h⟩ := bind_ok h
  obtain ⟨chl, -, h⟩ := bind_ok h
  obtain ⟨⟨cp, pc', sub, t₂⟩, ht₂, h⟩ := bind_ok h
  obtain ⟨⟨flag, called, t₃⟩, ht₃, h⟩ := bind_ok h
  obtain ⟨⟨ret, pc'', iuser', t₄⟩, ht₄, h⟩ := bind_ok h
  cases h
  have hs₁ : t₁.roster.Sound := by
    rw [(setChl_spec ht₁).2]
    exact cmdSub_sound hs ho
  have hs₂ := preallocate_sound hs₁ ht₂
  obtain ⟨hcalled, hf⟩ := runCallback_plain ht₃
  have hs₃ := plain_sound hs₂ hf
  obtain ⟨t, -, hr, hend⟩ := finishCmd_spec ht₄
  constructor
  · obtain ⟨-, -, -, -, rfl⟩ | ⟨u, i, y, -, -, -, hy, -, -, rfl⟩ := hend
    · rw [hr]
      exact hs₃
    · have he : (t.setSub i { y with state := .alive }).roster = t.roster :=
        roster_setSub_of hy rfl
      rw [he, hr]
      exact hs₃
  · intro c t' hc ht'
    cases hc
    rw [hcalled] at ht'
    cases ht'
    exact hs₂

theorem processCmd_sound {d : Done} (hs : s.roster.Sound)
    (h : processCmd (.plain domain) ijson pc iuser s = .ok d) :
    d.state.roster.Sound ∧ ∀ c t, d.call = some c → c.called = some t → t.roster.Sound := by
  unfold processCmd at h
  split at h
  · cases h
    exact ⟨by rw [roster_sendRawInline]; exact hs, fun c t hc => by cases hc⟩
  · simp only at h
    split at h
    · cases h
      exact ⟨by rw [roster_sendRawInline]; exact hs, fun c t hc => by cases hc⟩
    · exact execCmd_sound hs h

/-! ### One request -/

/-- The states the callbacks of the listed commands were called in are sound. -/
def SoundCalls (calls : List Call) : Prop :=
  ∀ c ∈ calls, ∀ t, c.called = some t → t.roster.Sound

theorem checkLoop_sound {rest : List JsonItem} {calls : List Call} {r : Checked}
    (hs : s.roster.Sound) (hc : SoundCalls calls)
    (h : checkLoop (.plain domain) rest pc iuser calls s = .ok r) :
    r.state.roster.Sound ∧ SoundCalls r.calls := by
  induction rest generalizing pc iuser calls s with
  | nil =>
    cases h
    exact ⟨hs, hc⟩
  | cons ijson rest ih =>
    obtain ⟨queued, -, h⟩ := bind_ok h
    split at h
    · obtain ⟨u, -, h⟩ := bind_ok h
      obtain ⟨x, hx, h⟩ := bind_ok h
      cases h
      have he : (s.setUser u { x with cmdqueue := ijson :: rest }).roster = s.roster :=
        roster_setUser_of (user_ok hx) rfl
      exact ⟨by rw [he]; exact hs, hc⟩
    · obtain ⟨d, hd, h⟩ := bind_ok h
      obtain ⟨hds, hdc⟩ := processCmd_sound hs hd
      have hc' : SoundCalls (calls ++ d.call.toList) := by
        intro c hmem t ht
        rcases List.mem_append.mp hmem with hmem | hmem
        · exact hc c hmem t ht
        · exact hdc c t (Option.mem_toList.mp hmem) ht
      split at h
      · cases h
        exact ⟨hds, hc'⟩
      · exact ih hds hc' h

theorem checkcmd_sound {objects : List JsonItem} {client : Fd} {host ip : Bytes}
    {transport : Transport} {r : Checked} (hs : s.roster.Sound)
    (h : checkcmd (.plain domain) objects client host ip transport s = .ok r) :
    r.state.roster.Sound ∧ SoundCalls r.calls := by
  unfold checkcmd at h
  split at h
  · cases h
    refine ⟨by rw [roster_sendRawInline]; exact hs, ?_⟩
    simp [SoundCalls]
  · exact checkLoop_sound hs (by simp [SoundCalls]) h

/-! ### Events -/

@[simp]
theorem roster_shutdown {fd : Fd} : (s.shutdown fd).roster = s.roster := rfl

@[simp]
theorem roster_setAttach {fd : Fd} {o : Option SubId} :
    (s.setAttach fd o).roster = s.roster := rfl

theorem foldl_send_roster {fd : Fd} (l : List ℕ) :
    (l.foldl (fun s _ => (s.send fd .other).2) s).roster = s.roster := by
  induction l generalizing s with
  | nil => rfl
  | cons n l ih => exact ih.trans roster_send

@[simp]
theorem roster_handshake {fd : Fd} {host : Bytes} {hlines : List Http.HeaderLine} :
    (s.handshake fd host hlines).roster = s.roster := by
  unfold handshake
  split
  · rfl
  · exact foldl_send_roster _

theorem checkrecv_sound {fd : Fd} {r : HttpRequest} {sub : Option SubId}
    (hs : s.roster.Sound) (h : s.checkrecv (.plain domain) fd r = .ok (sub, s')) :
    s'.roster.Sound := by
  unfold checkrecv at h
  split at h
  · cases h
    exact hs
  · obtain ⟨uri, -, h⟩ := bind_ok h
    split at h
    · cases h
      rw [roster_handshake]
      exact hs
    · split at h
      · cases h
        rw [roster_safeShutdown, roster_send, roster_send]
        exact hs
      · obtain ⟨c, hcheck, h⟩ := bind_ok h
        have hsc := (checkcmd_sound hs hcheck).1
        split at h
        · cases h
          rw [roster_safeShutdown]
          exact hsc
        · cases h
          exact hsc

theorem transportDataCompletlySent_roster {transport : Transport}
    (h : s.transportDataCompletlySent i transport = .ok s') : s'.roster = s.roster := by
  cases transport <;> simp only [transportDataCompletlySent] at h <;>
    first
      | exact doDied_roster h
      | (cases h; rfl)

theorem apeSent_roster {fd : Fd} (h : s.apeSent fd = .ok s') : s'.roster = s.roster := by
  unfold apeSent at h
  split at h
  · cases h
    rfl
  · obtain ⟨y, -, h⟩ := bind_ok h
    split at h
    · obtain ⟨t, ht, h⟩ := bind_ok h
      obtain ⟨y', hy', h⟩ := bind_ok h
      cases h
      refine (roster_setSub_of (sub_ok hy') ?_).trans ?_
      · rfl
      · unfold completeFor at ht
        split at ht
        · obtain ⟨x, -, ht⟩ := bind_ok ht
          exact transportDataCompletlySent_roster ht
        · cases ht
          rfl
    · cases h
      rfl

theorem supersede_roster {tmp sub : Option SubId} (h : s.supersede tmp sub = .ok s') :
    s'.roster = s.roster := by
  unfold supersede at h
  split at h
  · split at h
    · obtain ⟨y, hy, h⟩ := bind_ok h
      cases h
      exact roster_setSub_of (sub_ok hy) rfl
    · cases h
      rfl
  · cases h
    rfl

/-! ### Subusers that wait to be freed -/

/-- A subuser that is only kept until its connection closes has no user. -/
def Parted (s : Ape) : Prop := ∀ i y, s.subs i = some y → y.wait_for_free = true → y.user = none

namespace Parted

theorem still (hp : s.Parted) (h : Still s s') : s'.Parted := by
  intro i y' hy' hw
  obtain ⟨y, hy, he⟩ := h.sub_back hy'
  have hw' : y.wait_for_free = true := (congrArg Line.wait_for_free he).symm.trans hw
  exact (congrArg Line.user he).trans (hp i y hy hw')

theorem of_subs (hp : s.Parted) (h : s'.subs = s.subs) : s'.Parted := by
  intro i y hy
  rw [h] at hy
  exact hp i y hy

theorem update (hp : s.Parted) {o : Option Subuser}
    (ho : ∀ y, o = some y → y.wait_for_free = true → y.user = none)
    (h : s'.subs = Function.update s.subs i o) : s'.Parted := by
  intro j y hy
  rw [h] at hy
  by_cases hj : j = i
  · subst hj
    rw [Function.update_self] at hy
    exact ho y hy
  · rw [Function.update_of_ne hj] at hy
    exact hp j y hy

/-- Writing a subuser that keeps its user. -/
theorem setSub (hp : s.Parted) {y' : Subuser} (hy : s.subs i = some y)
    (hu : y'.user = y.user) (hw : y'.wait_for_free = y.wait_for_free) :
    (s.setSub i y').Parted := by
  refine hp.update (i := i) (o := some y') (fun z hz hwz => ?_) rfl
  cases hz
  rw [hu]
  exact hp i y hy (hw.symm.trans hwz)

end Parted

theorem doDied_parted (hp : s.Parted) (h : s.doDied i = .ok s') : s'.Parted := by
  obtain ⟨y, hy, -⟩ := bind_ok h
  replace hy := sub_ok hy
  rw [doDied_eq hy] at h
  cases h
  split
  · have h1 : (s.setSub i { y with state := .adied, headersSent := false }).Parted :=
      hp.setSub hy rfl rfl
    exact h1.of_subs safeShutdown_subs
  · exact hp

theorem delsubuser_parted (hp : s.Parted) (h : s.delsubuser u i = .ok s') : s'.Parted := by
  obtain ⟨y, -, h⟩ := bind_ok h
  obtain ⟨v, -, h⟩ := bind_ok h
  obtain ⟨x, -, h⟩ := bind_ok h
  obtain ⟨w, -, h⟩ := bind_ok h
  split at h
  · refine doDied_parted ?_ h
    refine Parted.update (s := s) (i := i) hp (fun z hz _ => ?_) rfl
    cases hz
    rfl
  · cases h
    refine Parted.update (s := s) (i := i) hp (fun z hz => ?_) rfl
    cases hz

theorem clearSubs_parted {l : List SubId} (hp : s.Parted) (h : s.clearSubs u l = .ok s') :
    s'.Parted := by
  induction l generalizing s with
  | nil =>
    cases h
    exact hp
  | cons a l ih =>
    obtain ⟨x, -, h⟩ := bind_ok h
    split at h
    · cases h
      exact hp
    · obtain ⟨t, ht, h⟩ := bind_ok h
      exact ih (delsubuser_parted hp ht) h

theorem deluser_parted (hp : s.Parted) (h : s.deluser u = .ok s') : s'.Parted := by
  obtain ⟨t₁, t₂, x₁, ht₁, -, ht₂, hsubs, -⟩ := deluser_ok h
  exact (clearSubs_parted (hp.still (leftAll_minor ht₁).still) ht₂).of_subs hsubs

theorem tickSub_parted (hp : s.Parted) (h : s.tickSub u i = .ok s') : s'.Parted := by
  obtain ⟨y, -, h⟩ := bind_ok h
  split at h
  · exact delsubuser_parted hp h
  · split at h
    · obtain ⟨⟨b, t⟩, ht, h⟩ := bind_ok h
      have hpt := hp.still (sendRaws_quiet ht).still
      obtain ⟨y', hy', h⟩ := bind_ok h
      split at h
      · obtain ⟨v, -, h⟩ := bind_ok h
        obtain ⟨x, -, h⟩ := bind_ok h
        generalize x.transport = transport at h
        cases transport <;> simp only [transportDataCompletlySent] at h <;>
          first
            | exact doDied_parted hpt h
            | (cases h; exact hpt)
      · cases h
        exact hpt.setSub (sub_ok hy') rfl rfl
    · cases h
      exact hp

theorem tickSubs_parted {l : List SubId} (hp : s.Parted) (h : s.tickSubs u l = .ok s') :
    s'.Parted := by
  induction l generalizing s with
  | nil =>
    cases h
    exact hp
  | cons i l ih =>
    obtain ⟨x, -, h⟩ := bind_ok h
    split at h
    · obtain ⟨t, ht, h⟩ := bind_ok h
      exact ih (tickSub_parted hp ht) h
    · cases h

theorem tickFrom_parted {fuel : ℕ} {p : Option UserId} (hp : s.Parted)
    (h : s.tickFrom fuel p = .ok s') : s'.Parted := by
  induction fuel generalizing s p with
  | zero =>
    cases p with
    | none =>
      cases h
      exact hp
    | some u => cases h
  | succ fuel ih =>
    cases p with
    | none =>
      cases h
      exact hp
    | some u =>
      obtain ⟨x, -, h⟩ := bind_ok h
      obtain ⟨t, ht, h⟩ := bind_ok h
      refine ih ?_ h
      obtain ⟨x', -, ht⟩ := bind_ok ht
      split at ht
      · split at ht
        · exact deluser_parted hp ht
        · exact tickSubs_parted hp ht
      · cases ht
        exact hp

theorem addsubuser_parted {client : Fd} {channel : Bytes} {o : Option SubId} (hp : s.Parted)
    (h : s.addsubuser client channel u = .ok (o, s')) : s'.Parted := by
  obtain ⟨-, rfl⟩ | ⟨x, y, -, -, -, -, hy, rfl⟩ := addsubuser_spec h
  · exact hp
  · have hwait : y.wait_for_free = false := congrArg Subuser.wait_for_free hy
    refine Parted.update (s := s) (i := s.fresh) hp (o := some y) (fun z hz hw => ?_) rfl
    cases hz
    rw [hwait] at hw
    cases hw

theorem allocUser_parted {client : Fd} {host ip : Bytes} (hp : s.Parted)
    (h : s.allocUser client host ip = .ok (u, s')) : s'.Parted := by
  obtain ⟨t, o, ha, hs⟩ := allocUser_spec h
  exact addsubuser_parted (hp.of_subs ha.rest.1) hs

theorem cmdSub_parted {o : Opened} (hp : s.Parted) (h : s.cmdSub pc = .ok o) :
    o.state.Parted := by
  unfold cmdSub at h
  split at h
  · obtain ⟨x, i, w, -, -, hopens, hstill, -⟩ := openSub_opens h
    refine Parted.still ?_ hstill
    cases hopens with
    | same hi hy => exact Parted.setSub (s := s.setAttach _ none) hp hy rfl rfl
    | found hi hy => exact hp.setSub hy rfl rfl
    | new ht => exact addsubuser_parted hp ht
  · cases h
    exact hp

theorem preallocate_parted {cp' : Callbackp} {pc' : Pc} {sub sub' : Option SubId}
    (hp : s.Parted) (h : s.preallocate cp pc sub = .ok (cp', pc', sub', s')) : s'.Parted := by
  obtain ⟨-, -, -, -, rfl⟩ | ⟨u, t, x, -, ht, -, -, -, -, rfl⟩ := preallocate_cases h
  · exact hp
  · exact (allocUser_parted hp ht).of_subs rfl

theorem adduser_subs (h : s.adduser u = .ok s') : s'.subs = s.subs ∧ s'.co = s.co := by
  obtain ⟨x, -, h⟩ := bind_ok h
  cases h
  exact ⟨rfl, rfl⟩

theorem plain_parted {cmd : Bytes} (hp : s.Parted)
    (h : ((Cmds.plain domain).seek cmd).func cp s = .ok (flag, s')) : s'.Parted := by
  unfold Cmds.seek at h
  cases hcb : (Cmds.plain domain).hCallback.seek cmd with
  | none =>
    rw [hcb] at h
    cases h
    exact hp
  | some cb =>
    rw [hcb] at h
    rcases seek_builtins hcb with rfl | rfl | rfl | rfl | rfl | rfl | rfl | rfl
    · exact hp.still (cmdSession_spec h).1.still
    · exact hp.still (cmdLeft_minor h).still
    · exact hp.still (cmdJoin_minor h).still
    · simp only [Option.getD_some, cmdQuit] at h
      split at h
      · cases h
        exact hp.still Quiet.sendRawInline.still
      · obtain ⟨t, ht, h⟩ := bind_ok h
        cases h
        exact deluser_parted (hp.still Quiet.sendRawInline.still) ht
    · exact hp.still (Quiet.of_posted (cmdSend_posted h)).still
    · cases h
      exact hp
    · exact hp.still (cmdScript_spec h).1.still
    · obtain ⟨u, -, h⟩ := bind_ok h
      obtain ⟨t, ht, h⟩ := bind_ok h
      obtain ⟨x, -, h⟩ := bind_ok h
      obtain ⟨i, -, h⟩ := bind_ok h
      obtain ⟨t', ht', h⟩ := bind_ok h
      obtain ⟨t'', ht'', h⟩ := bind_ok h
      cases h
      exact (hp.of_subs (adduser_subs ht).1).still
        (Quiet.of_posted ((postRawSub_posted ht').trans (postRaw_posted ht''))).still

theorem execCmd_parted {cmd : Bytes} {d : Done} (hp : s.Parted)
    (h : execCmd (.plain domain) ijson cmd pc iuser s = .ok d) : d.state.Parted := by
  obtain ⟨o, ho, h⟩ := bind_ok h
  obtain ⟨t₁, ht₁, h⟩ := bind_ok h
  obtain ⟨chl, -, h⟩ := bind_ok h
  obtain ⟨⟨cp, pc', sub, t₂⟩, ht₂, h⟩ := bind_ok h
  obtain ⟨⟨flag, called, t₃⟩, ht₃, h⟩ := bind_ok h
  obtain ⟨⟨ret, pc'', iuser', t₄⟩, ht₄, h⟩ := bind_ok h
  cases h
  have hp₁ := (cmdSub_parted hp ho).still (setChl_spec ht₁).1.still
  have hp₃ := plain_parted (preallocate_parted hp₁ ht₂) (runCallback_plain ht₃).2
  obtain ⟨t, hq, -, hend⟩ := finishCmd_spec ht₄
  obtain ⟨-, -, -, -, rfl⟩ | ⟨u, i, y, -, -, -, hy, -, -, rfl⟩ := hend
  · exact hp₃.still hq.still
  · exact (hp₃.still hq.still).setSub hy rfl rfl

theorem checkLoop_parted {rest : List JsonItem} {calls : List Call} {r : Checked} (hp : s.Parted)
    (h : checkLoop (.plain domain) rest pc iuser calls s = .ok r) : r.state.Parted := by
  induction rest generalizing pc iuser calls s with
  | nil =>
    cases h
    exact hp
  | cons ijson rest ih =>
    obtain ⟨queued, -, h⟩ := bind_ok h
    split at h
    · obtain ⟨u, -, h⟩ := bind_ok h
      obtain ⟨x, hx, h⟩ := bind_ok h
      cases h
      exact hp.of_subs rfl
    · obtain ⟨d, hd, h⟩ := bind_ok h
      have hpd : d.state.Parted := by
        unfold processCmd at hd
        split at hd
        · cases hd
          exact hp.still Quiet.sendRawInline.still
        · simp only at hd
          split at hd
          · cases hd
            exact hp.still Quiet.sendRawInline.still
          · exact execCmd_parted hp hd
      split at h
      · cases h
        exact hpd
      · exact ih hpd h

theorem checkcmd_parted {objects : List JsonItem} {client : Fd} {host ip : Bytes}
    {transport : Transport} {r : Checked} (hp : s.Parted)
    (h : checkcmd (.plain domain) objects client host ip transport s = .ok r) :
    r.state.Parted := by
  unfold checkcmd at h
  split at h
  · cases h
    exact hp.still Quiet.sendRawInline.still
  · exact checkLoop_parted hp h

/-! ### Every event -/

/-- What every event keeps. -/
structure Healthy (s : Ape) : Prop where
  sound : s.roster.Sound
  parted : s.Parted

theorem Healthy.setCo {fd : Fd} {k : Socket} (h : s.Healthy) : (s.setCo fd k).Healthy :=
  ⟨h.sound, h.parted⟩

theorem checkrecv_parted {fd : Fd} {r : HttpRequest} {sub : Option SubId} (hp : s.Parted)
    (h : s.checkrecv (.plain domain) fd r = .ok (sub, s')) : s'.Parted := by
  unfold checkrecv at h
  split at h
  · cases h
    exact hp.of_subs rfl
  · obtain ⟨uri, -, h⟩ := bind_ok h
    split at h
    · cases h
      unfold handshake
      split
      · exact hp.of_subs rfl
      · exact (hp.still (foldl_send_quiet _).still).of_subs rfl
    · split at h
      · cases h
        exact hp.still ((Quiet.send.trans .send).trans .safeShutdown).still
      · obtain ⟨c, hcheck, h⟩ := bind_ok h
        have hpc := checkcmd_parted hp hcheck
        split at h
        · cases h
          exact hpc.still Quiet.safeShutdown.still
        · cases h
          exact hpc

theorem apeSent_parted {fd : Fd} (hp : s.Parted) (h : s.apeSent fd = .ok s') : s'.Parted := by
  unfold apeSent at h
  split at h
  · cases h
    exact hp
  · obtain ⟨y, -, h⟩ := bind_ok h
    split at h
    · obtain ⟨t, ht, h⟩ := bind_ok h
      obtain ⟨y', hy', h⟩ := bind_ok h
      cases h
      have hpt : t.Parted := by
        unfold completeFor at ht
        split at ht
        · obtain ⟨x, -, ht⟩ := bind_ok ht
          generalize x.transport = transport at ht
          cases transport <;> simp only [transportDataCompletlySent] at ht <;>
            first
              | exact doDied_parted hp ht
              | (cases ht; exact hp)
        · cases ht
          exact hp
      exact hpt.setSub (sub_ok hy') rfl rfl
    · cases h
      exact hp

/-- The record of a parted subuser goes with its connection. -/
theorem free_sound (h : s.Healthy) (hy : s.subs i = some y) (hw : y.wait_for_free = true) :
    ({ s with subs := Function.update s.subs i none } : Ape).Healthy := by
  have hu := h.parted i y hy hw
  have hroster : ({ s with subs := Function.update s.subs i none } : Ape).roster =
      { s.roster with subs := Function.update s.roster.subs i none } := by
    simp only [roster]
    rw [Roster.map_update]
    rfl
  refine ⟨?_, ?_⟩
  · rw [hroster]
    exact h.sound.forget (roster_subs hy) hu
  · refine Parted.update (s := s) (i := i) h.parted (fun z hz => ?_) rfl
    cases hz

theorem apeDisconnect_healthy {fd : Fd} (hs : s.Healthy) (h : s.apeDisconnect fd = .ok s') :
    s'.Healthy := by
  unfold apeDisconnect at h
  split at h
  · cases h
    exact hs
  · next i _ =>
    obtain ⟨y, hy, h⟩ := bind_ok h
    replace hy := sub_ok hy
    split at h
    · next hw =>
      cases h
      obtain ⟨h1, h2⟩ := free_sound hs hy hw
      exact ⟨h1, h2.of_subs rfl⟩
    · split at h
      · have he : (s.setSub i { y with headersSent := false, state := .adied }).roster =
            s.roster := roster_setSub_of hy rfl
        have hs' : (s.setSub i { y with headersSent := false, state := .adied }).roster.Sound := by
          rw [he]
          exact hs.sound
        have hp' : (s.setSub i { y with headersSent := false, state := .adied }).Parted :=
          hs.parted.setSub hy rfl rfl
        unfold dropTmp at h
        split at h
        · obtain ⟨x, -, h⟩ := bind_ok h
          split at h
          · obtain ⟨t, ht, h⟩ := bind_ok h
            cases h
            exact Healthy.setCo ⟨deluser_sound hs' ht, deluser_parted hp' ht⟩
          · cases h
            exact ⟨hs', hp'⟩
        · cases h
          exact ⟨hs', hp'⟩
      · cases h
        exact hs

theorem supersede_parted {tmp sub : Option SubId} (hp : s.Parted)
    (h : s.supersede tmp sub = .ok s') : s'.Parted := by
  unfold supersede at h
  split at h
  · split at h
    · obtain ⟨y, hy, h⟩ := bind_ok h
      cases h
      exact hp.setSub (sub_ok hy) rfl rfl
    · cases h
      exact hp
  · cases h
    exact hp

theorem step_healthy {e : Event} (hs : s.Healthy) (h : s.step (.plain domain) e = .ok s') :
    s'.Healthy := by
  cases e with
  | accept fd ip =>
    simp only [step] at h
    split at h
    · cases h
      exact ⟨hs.sound, hs.parted.of_subs rfl⟩
    · cases h
  | request fd r =>
    simp only [step] at h
    split at h
    · obtain ⟨⟨sub, t⟩, ht, h⟩ := bind_ok h
      cases h
      exact Healthy.setCo ⟨checkrecv_sound hs.sound ht, checkrecv_parted hs.parted ht⟩
    · cases h
  | message fd objects =>
    simp only [step] at h
    split at h
    · split at h
      · obtain ⟨r, hr, h⟩ := bind_ok h
        have hr' : (r.state.setAttach fd r.iuser).Healthy :=
          Healthy.setCo ⟨(checkcmd_sound hs.sound hr).1, checkcmd_parted hs.parted hr⟩
        refine ⟨?_, supersede_parted hr'.parted h⟩
        rw [supersede_roster h]
        exact hr'.sound
      · cases h
    · cases h
  | sent fd =>
    simp only [step] at h
    split at h
    · obtain ⟨t, ht, h⟩ := bind_ok h
      cases h
      have hk : (s.setCo fd { s.co fd with bufout := false }).Healthy := hs.setCo
      have hst : t.Healthy := by
        refine ⟨?_, apeSent_parted hk.parted ht⟩
        rw [apeSent_roster ht]
        exact hk.sound
      split
      · exact hst.setCo
      · exact hst
    · cases h
  | reset fd =>
    simp only [step] at h
    split at h
    · cases h
      exact hs.setCo
    · cases h
  | disconnect fd =>
    simp only [step] at h
    split at h
    · obtain ⟨t, ht, h⟩ := bind_ok h
      cases h
      exact (apeDisconnect_healthy hs ht).setCo
    · cases h
  | tick =>
    obtain ⟨t, ht, hst⟩ := checkTimeout_spec hs.sound
    rw [show s.checkTimeout = .ok s' from h] at ht
    cases ht
    exact ⟨hst, tickFrom_parted hs.parted h⟩
  | clock time =>
    cases h
    exact ⟨hs.sound, hs.parted.of_subs rfl⟩

theorem init_healthy (rand : List (List.Vector (Fin 16) 32)) (io : ℕ → Bool) (time : ℤ) :
    (init rand io time).Healthy := by
  refine ⟨init_sound rand io time, fun i y hy => ?_⟩
  cases hy

/-- A state a server without plugins passes: between two events, or when it calls the
callback of a command. -/
inductive Visits (domain : Bool) (s₀ : Ape) : Ape → Prop
  | event {s : Ape} : Reach (step (.plain domain)) (fun _ _ => True) s₀ s → Visits domain s₀ s
  | command {s t : Ape} {objects : List JsonItem} {client : Fd} {host ip : Bytes}
      {transport : Transport} {r : Checked} {c : Call} :
      Reach (step (.plain domain)) (fun _ _ => True) s₀ s →
      checkcmd (.plain domain) objects client host ip transport s = .ok r → c ∈ r.calls →
      c.called = some t → Visits domain s₀ t

theorem reach_healthy {rand : List (List.Vector (Fin 16) 32)} {io : ℕ → Bool} {time : ℤ}
    {allowed : Ape → Event → Prop}
    (h : Reach (step (.plain domain)) allowed (init rand io time) s) : s.Healthy :=
  h.keeps Healthy (init_healthy rand io time) fun _ _ _ hs _ hl => step_healthy hs hl

theorem Visits.sound {rand : List (List.Vector (Fin 16) 32)} {io : ℕ → Bool} {time : ℤ}
    (h : Visits domain (init rand io time) s) : s.roster.Sound := by
  cases h with
  | event h => exact (reach_healthy h).sound
  | command h hr hc ht => exact (checkcmd_sound (reach_healthy h).sound hr).2 _ hc _ ht

end Ape

end ApeServer
