import ApeServer.Server.Requests

/-!
# The counter of connected users

`nConnected` goes up when a user stops being temporary and down when a user is deleted. It
counts the users that are not temporary as long as no temporary user is deleted.
-/
namespace ApeServer

open Sock (Bytes)
open Steps (ok_bind bind_ok foldlM_keeps Reach)

namespace Ape

variable {s s' t : Ape} {u v : UserId} {i : SubId} {x : User} {us : Finset UserId}
  {pc : Pc} {cp : Callbackp} {flag : UInt32} {domain : Bool} {cmd : Bytes} {ijson : JsonItem}
  {iuser : Option SubId}

/-- `us` are the users that are not temporary, and `nConnected` is their number. -/
structure Counts (s : Ape) (us : Finset UserId) : Prop where
  mem : ∀ u, u ∈ us ↔ (s.users u).map User.istmp = some false
  counter : s.nConnected = UInt32.ofNat us.card
  bound : ∀ n, s.fresh ≤ n → s.users n = none

theorem ofNat_succ_sub_one (n : ℕ) : UInt32.ofNat (n + 1) - 1 = UInt32.ofNat n := by
  rw [UInt32.ofNat_add]
  simp

theorem Steady.counts (h : Steady s s') (hc : s.Counts us) : s'.Counts us where
  mem u := by rw [h.istmp]; exact hc.mem u
  counter := h.nConnected.trans hc.counter
  bound n hn := by
    by_contra hne
    exact (h.live n).mp hne (hc.bound n (h.fresh.trans hn))

theorem Steady.tmp_back (h : Steady s s') (hx : s'.users u = some x) :
    ∃ x₀, s.users u = some x₀ ∧ x₀.istmp = x.istmp := by
  have hmap := h.istmp u
  rw [hx] at hmap
  exact Option.map_eq_some_iff.mp hmap.symm

/-- The second phase: one more. -/
theorem adduser_counts (hc : s.Counts us) (ht : (s.users u).map User.istmp = some true)
    (h : s.adduser u = .ok s') : s'.Counts (insert u us) := by
  obtain ⟨x, hx, h⟩ := bind_ok h
  replace hx := user_ok hx
  cases h
  have hnot : u ∉ us := by
    rw [hc.mem, ht]
    simp
  refine ⟨fun v => ?_, ?_, fun n hn => ?_⟩
  · rw [Finset.mem_insert]
    by_cases hv : v = u
    · subst hv
      simp
    · simp only [hv, false_or, hc.mem, setUser_users, ne_eq, not_false_eq_true,
        Function.update_of_ne]
  · rw [Finset.card_insert_of_notMem hnot, UInt32.ofNat_add, ← hc.counter]
    rfl
  · have hne : n ≠ u := by
      rintro rfl
      have hnone := hc.bound n hn
      rw [hx] at hnone
      cases hnone
    simp only [setUser_users, ne_eq, hne, not_false_eq_true, Function.update_of_ne]
    exact hc.bound n hn

/-- `deluser` counts down whoever the user is. -/
theorem deluser_counter (h : s.deluser u = .ok s') : ∃ t, Steady s t ∧
    s'.nConnected = t.nConnected - 1 ∧ s'.users u = none ∧ t.fresh ≤ s'.fresh ∧
    ∀ v ≠ u, (s'.users v).map User.istmp = (t.users v).map User.istmp := by
  obtain ⟨t₁, ht₁, h⟩ := bind_ok h
  obtain ⟨t₂, ht₂, h⟩ := bind_ok h
  obtain ⟨x, -, h⟩ := bind_ok h
  obtain ⟨t₃, ht₃, h⟩ := bind_ok h
  obtain ⟨t₄, ht₄, h⟩ := bind_ok h
  obtain ⟨x₁, -, ht₂⟩ := bind_ok ht₂
  cases h
  have hq := ((setNext_minor ht₃).trans (setPrev_minor ht₄)).still.steady
  refine ⟨t₂, (leftAll_minor ht₁).still.steady.trans (clearSubs_lasting ht₂).toSteady,
    hq.nConnected, Function.update_self .., hq.fresh, fun v hv => ?_⟩
  simp only [destroyPipe, ne_eq, hv, not_false_eq_true, Function.update_of_ne]
  exact hq.istmp v

/-- The deletion of a user that is not temporary: one less. -/
theorem deluser_counts (hc : s.Counts us) (hf : (s.users u).map User.istmp = some false)
    (h : s.deluser u = .ok s') : s'.Counts (us.erase u) := by
  obtain ⟨t, hst, hn, hnone, hfresh, hrest⟩ := deluser_counter h
  have hct := hst.counts hc
  have hmem : u ∈ us := (hc.mem u).mpr hf
  refine ⟨fun v => ?_, ?_, fun n hle => ?_⟩
  · rw [Finset.mem_erase]
    by_cases hv : v = u
    · subst hv
      simp [hnone]
    · rw [hrest v hv, ← hct.mem]
      simp [hv]
  · obtain ⟨n, hcard⟩ := Nat.exists_eq_succ_of_ne_zero (Finset.card_ne_zero_of_mem hmem)
    rw [hn, hct.counter, Finset.card_erase_of_mem hmem, hcard]
    exact ofNat_succ_sub_one n
  · by_cases hv : n = u
    · rw [hv]
      exact hnone
    · have := hrest n hv
      rw [hct.bound n (hfresh.trans hle)] at this
      simpa using this

/-- The first phase: the new user is temporary, and nobody else changes. -/
theorem allocUser_counts {client : Fd} {host ip : Bytes} (hc : s.Counts us)
    (h : s.allocUser client host ip = .ok (u, s')) :
    s'.Counts us ∧ (s'.users u).map User.istmp = some true := by
  obtain ⟨t, o, ha, hs⟩ := allocUser_spec h
  obtain ⟨x, hx, htmp⟩ := ha.user
  obtain ⟨sessid, pubid, -, hr⟩ := ha.names
  have hnone : s.users u = none := by
    rw [ha.id]
    exact hc.bound _ le_rfl
  have hfresh : t.fresh = s.fresh + 1 := congrArg Roster.fresh hr
  have hothers : ∀ v ≠ u, (t.users v).map User.istmp = (s.users v).map User.istmp := by
    intro v hv
    have hmap := congrArg (Option.map User.istmp) (ha.others v hv)
    rw [Option.map_map, Option.map_map] at hmap
    exact hmap
  have hct : t.Counts us := by
    refine ⟨fun v => ?_, ?_, fun n hn => ?_⟩
    · by_cases hv : v = u
      · rw [hv, hx, hc.mem, hnone]
        simp [htmp]
      · rw [hothers v hv]
        exact hc.mem v
    · exact ha.nConnected.trans hc.counter
    · have hv : n ≠ u := by
        rw [ha.id]
        omega
      have := hothers n hv
      rw [hc.bound n (by omega)] at this
      simpa using this
  have hst := addsubuser_steady hs
  refine ⟨hst.counts hct, ?_⟩
  rw [hst.istmp, hx]
  exact congrArg some htmp

end Ape

/-! ### Commands -/

/-- A hook that lets a command pass, refuses it or makes it wait: it makes, admits and deletes
no user itself. -/
def Hook.Decides (h : Hook) : Prop :=
  ∀ cp s flag s', h.func cp s = .ok (flag, s') → Ape.Steady s s'

/-- The built-in commands under hooks. -/
def Cmds.hooked (domain : Bool) (hooks : List Hook) : Cmds :=
  { Cmds.plain domain with hooks := hooks }

namespace Ape

variable {s s' t : Ape} {u v : UserId} {i : SubId} {x : User} {us : Finset UserId}
  {pc : Pc} {cp : Callbackp} {flag : UInt32} {domain : Bool} {cmd : Bytes} {ijson : JsonItem}
  {iuser : Option SubId} {hooks : List Hook}

theorem callHooks_steady (hh : ∀ h ∈ hooks, h.Decides)
    (hl : callHooks cp hooks s = .ok (flag, s')) : Steady s s' := by
  induction hooks generalizing s with
  | nil =>
    cases hl
    exact .refl
  | cons h l ih =>
    have hrest : ∀ h' ∈ l, h'.Decides := fun h' hm => hh h' (List.mem_cons_of_mem h hm)
    rw [callHooks] at hl
    split at hl
    · obtain ⟨⟨ret, t⟩, ht, hl⟩ := bind_ok hl
      have h1 := hh h List.mem_cons_self cp s ret t ht
      simp only at hl
      split at hl
      · cases hl
        exact h1
      · exact h1.trans (ih hrest hl)
    · exact ih hrest hl

theorem quit_ne_connect (h : isConnect cmd = true) : isQuit cmd = false := by
  rw [isQuit, strcaseeq_congr h]
  decide

theorem cmdConnect_counts (hc : s.Counts us)
    (ht : ∀ u, cp.call_user = some u → (s.users u).map User.istmp = some true)
    (h : cmdConnect cp s = .ok (flag, s')) : ∃ us', s'.Counts us' := by
  obtain ⟨u, hu, h⟩ := bind_ok h
  obtain ⟨t, ht', h⟩ := bind_ok h
  obtain ⟨x, -, h⟩ := bind_ok h
  obtain ⟨i, -, h⟩ := bind_ok h
  obtain ⟨t₁, ht₁, h⟩ := bind_ok h
  obtain ⟨t₂, ht₂, h⟩ := bind_ok h
  cases h
  have hp := (postRawSub_posted ht₁).trans (postRaw_posted ht₂)
  exact ⟨_, (Quiet.of_posted hp).still.steady.counts (adduser_counts hc (ht u (deref_ok hu)) ht')⟩

theorem cmdQuit_counts (hc : s.Counts us)
    (hf : ∀ u x, cp.call_user = some u → s.users u = some x → x.istmp = false)
    (h : cmdQuit cp s = .ok (flag, s')) : ∃ us', s'.Counts us' := by
  unfold cmdQuit at h
  simp only at h
  split at h
  · cases h
    exact ⟨us, Quiet.sendRawInline.still.steady.counts hc⟩
  · next u hu =>
    obtain ⟨t, ht, h⟩ := bind_ok h
    cases h
    have hquiet : Quiet s (s.sendRawInline cp.client (s.forgeRaw (bytes "QUIT")
        (JsonItem.newObject.setStr (bytes "value") (bytes "null")))) := .sendRawInline
    have hst := hquiet.still.steady
    obtain ⟨t₁, ht₁, -⟩ := bind_ok ht
    obtain ⟨x, hx, -⟩ := bind_ok ht₁
    obtain ⟨x₀, hx₀, -⟩ := hst.tmp_back (user_ok hx)
    have hfalse := hf u x₀ hu hx₀
    refine ⟨_, deluser_counts (hst.counts hc) ?_ ht⟩
    rw [hst.istmp, hx₀]
    exact congrArg some hfalse

/-- A callback counts the user it admits or deletes. -/
theorem callback_counts (hc : s.Counts us)
    (htmp : isConnect cmd = true → ∀ u, cp.call_user = some u →
      (s.users u).map User.istmp = some true)
    (hquit : isQuit cmd = true → ∀ u x, cp.call_user = some u → s.users u = some x →
      x.istmp = false)
    (h : ((Cmds.plain domain).seek cmd).func cp s = .ok (flag, s')) : ∃ us', s'.Counts us' := by
  obtain ⟨hq, hf⟩ | ⟨hcon, -, hf⟩ | ⟨-, -, hm⟩ := seek_plain domain cmd
  · rw [hf] at h
    exact cmdQuit_counts hc (hquit hq) h
  · rw [hf] at h
    exact cmdConnect_counts hc (htmp hcon) h
  · exact ⟨us, (hm _ _ _ _ h).still.steady.counts hc⟩

/-- A command that is no `QUIT` of a temporary user. -/
theorem execCmd_counts {d : Done} (hh : ∀ h ∈ hooks, h.Decides) (hc : s.Counts us)
    (hquit : isQuit cmd = true → ∀ u x, pc.guser = some u → s.users u = some x → x.istmp = false)
    (h : execCmd (.hooked domain hooks) ijson cmd pc iuser s = .ok d) :
    (∃ us', d.state.Counts us') ∧ (d.ret = none → d.next.guser ≠ none) := by
  obtain ⟨o, ho, h⟩ := bind_ok h
  obtain ⟨t₁, ht₁, h⟩ := bind_ok h
  obtain ⟨chl, -, h⟩ := bind_ok h
  obtain ⟨⟨cp, pc', sub, t₂⟩, ht₂, h⟩ := bind_ok h
  obtain ⟨⟨flag, called, t₃⟩, ht₃, h⟩ := bind_ok h
  obtain ⟨⟨ret, pc'', iuser', t₄⟩, ht₄, h⟩ := bind_ok h
  cases h
  have hst : Steady s t₁ := (cmdSub_steady ho).trans (setChl_spec ht₁).1.still.steady
  -- who the callback is run for, and whether it is temporary
  have hpre : t₂.Counts us ∧
      (isConnect cmd = true → ∀ u, cp.call_user = some u →
        (t₂.users u).map User.istmp = some true) ∧
      (isQuit cmd = true → ∀ u x, cp.call_user = some u → t₂.users u = some x →
        x.istmp = false) := by
    obtain ⟨hn, rfl, -, -, rfl⟩ | ⟨u, t, x, hcon, ht, hx, -, rfl, -, rfl⟩ := preallocate_cases ht₂
    · refine ⟨hst.counts hc, fun hcon => ?_, fun hq u x hu hx => ?_⟩
      · rw [show isConnect cmd = false from hn] at hcon
        cases hcon
      · obtain ⟨x₀, hx₀, he⟩ := hst.tmp_back hx
        rw [← he]
        exact hquit hq u x₀ hu hx₀
    · obtain ⟨hct, htmp⟩ := allocUser_counts (hst.counts hc) ht
      have hst' : Steady t (t.setUser u { x with transport := pc.transport }) :=
        .setUser hx rfl rfl
      refine ⟨hst'.counts hct, fun _ v hv => ?_, fun hq => ?_⟩
      · cases hv
        rw [hst'.istmp]
        exact htmp
      · rw [quit_ne_connect hcon] at hq
        cases hq
  obtain ⟨hc₂, htmp₂, hquit₂⟩ := hpre
  have hcb : ∃ us', t₃.Counts us' := by
    obtain ⟨fl, t, ht, hcases⟩ := runCallback_ok ht₃
    have hst' := callHooks_steady hh ht
    obtain ⟨-, -, hf⟩ | ⟨-, -, -, rfl⟩ := hcases
    · refine callback_counts (hst'.counts hc₂) (fun hcon u hu => ?_) (fun hq u x hu hx => ?_) hf
      · rw [hst'.istmp]
        exact htmp₂ hcon u hu
      · obtain ⟨x₀, hx₀, he⟩ := hst'.tmp_back hx
        rw [← he]
        exact hquit₂ hq u x₀ hu hx₀
    · exact ⟨us, hst'.counts hc₂⟩
  obtain ⟨us', hc₃⟩ := hcb
  obtain ⟨t, hm, -, hend⟩ := finishCmd_spec ht₄
  have hc₄ := hm.still.steady.counts hc₃
  obtain ⟨-, hne, -, -, rfl⟩ | ⟨u, j, y, -, hu, -, -, rfl, -, rfl⟩ := hend
  · exact ⟨⟨us', hc₄⟩, fun hret => absurd hret hne⟩
  · have hst₄ : Steady t (t.setSub j { y with state := .alive }) := .of_eq rfl rfl rfl le_rfl
    refine ⟨⟨us', hst₄.counts hc₄⟩, fun _ => ?_⟩
    rw [Done.next_guser]
    simp [hu]

/-- An object that is no `QUIT` of a temporary user. -/
theorem processCmd_counts {d : Done} (hh : ∀ h ∈ hooks, h.Decides) (hc : s.Counts us)
    (hquit : ∀ cmd u x, jstr ijson.child (bytes "cmd") = some cmd → isQuit cmd = true →
      identify s ijson pc = some u → s.users u = some x → x.istmp = false)
    (h : processCmd (.hooked domain hooks) ijson pc iuser s = .ok d) :
    (∃ us', d.state.Counts us') ∧ (d.ret = none → d.next.guser ≠ none) := by
  unfold processCmd at h
  split at h
  · cases h
    exact ⟨⟨us, Quiet.sendRawInline.still.steady.counts hc⟩, fun hret => by cases hret⟩
  · next cmd hcmd =>
    simp only at h
    split at h
    · cases h
      exact ⟨⟨us, Quiet.sendRawInline.still.steady.counts hc⟩, fun hret => by cases hret⟩
    · exact execCmd_counts hh hc (fun hq u x hu hx => hquit cmd u x hcmd hq hu hx) h

/-! ### Requests -/

/-- The request deletes a user that is still temporary: only its first object can, since the
rest of the request waits for a temporary user. -/
def QuitsTmp (s : Ape) (objects : List JsonItem) : Prop :=
  ∃ ijson rest cmd sessid u x, objects = ijson :: rest ∧
    jstr ijson.child (bytes "cmd") = some cmd ∧ isQuit cmd = true ∧
    jstr ijson.child (bytes "sessid") = some sessid ∧ s.seekUserId sessid = some u ∧
    s.users u = some x ∧ x.istmp = true

theorem isQueued_false (hu : pc.guser = some u) (hx : s.users u = some x)
    (hq : isQueued s pc.guser = .ok false) : x.istmp = false := by
  simp only [isQueued, hu, user_eq hx, ok_bind] at hq
  exact Except.ok.inj hq

theorem checkLoop_counts {objects : List JsonItem} {calls : List Call} {r : Checked}
    (hh : ∀ h ∈ hooks, h.Decides) (hc : s.Counts us)
    (hfirst : pc.guser = none → ¬s.QuitsTmp objects)
    (h : checkLoop (.hooked domain hooks) objects pc iuser calls s = .ok r) :
    ∃ us', r.state.Counts us' := by
  induction objects generalizing pc iuser calls s us with
  | nil =>
    cases h
    exact ⟨us, hc⟩
  | cons ijson rest ih =>
    obtain ⟨queued, hqueued, h⟩ := bind_ok h
    split at h
    · obtain ⟨u, -, h⟩ := bind_ok h
      obtain ⟨x, hx, h⟩ := bind_ok h
      cases h
      have hst : Steady s (s.setUser u { x with cmdqueue := ijson :: rest }) :=
        .setUser (user_ok hx) rfl rfl
      exact ⟨us, hst.counts hc⟩
    · next hq =>
      rw [Bool.not_eq_true] at hq
      subst hq
      obtain ⟨d, hd, h⟩ := bind_ok h
      have hquit : ∀ cmd u x, jstr ijson.child (bytes "cmd") = some cmd → isQuit cmd = true →
          identify s ijson pc = some u → s.users u = some x → x.istmp = false := by
        intro cmd u x hcmd hq hu hx
        unfold identify at hu
        split at hu
        · next v hv =>
          cases hu
          exact isQueued_false hv hx hqueued
        · next hnone =>
          obtain ⟨sessid, hs, hseek⟩ := Option.bind_eq_some_iff.mp hu
          by_contra htmp
          exact hfirst hnone ⟨ijson, rest, cmd, sessid, u, x, rfl, hcmd, hq, hs, hseek, hx,
            by simpa using htmp⟩
      obtain ⟨⟨us', hc'⟩, hnext⟩ := processCmd_counts hh hc hquit hd
      split at h
      · cases h
        exact ⟨us', hc'⟩
      · next hret => exact ih hc' (fun hnone => absurd hnone (hnext hret)) h

theorem checkcmd_counts {objects : List JsonItem} {client : Fd} {host ip : Bytes}
    {transport : Transport} {r : Checked} (hh : ∀ h ∈ hooks, h.Decides) (hc : s.Counts us)
    (hfirst : ¬s.QuitsTmp objects)
    (h : checkcmd (.hooked domain hooks) objects client host ip transport s = .ok r) :
    ∃ us', r.state.Counts us' := by
  unfold checkcmd at h
  split at h
  · cases h
    exact ⟨us, Quiet.sendRawInline.still.steady.counts hc⟩
  · exact checkLoop_counts hh hc (fun _ => hfirst) h

/-! ### Events -/

/-- The connection of a temporary user goes down. -/
def DropsTmp (s : Ape) (fd : Fd) : Prop :=
  ∃ i y u x, (s.co fd).attach = some i ∧ s.subs i = some y ∧ y.wait_for_free = false ∧
    (s.co fd).fd = (s.co y.client).fd ∧ y.user = some u ∧ s.users u = some x ∧ x.istmp = true

/-- A temporary user has been idle for too long. -/
def ExpiresTmp (s : Ape) : Prop :=
  ∃ u x, s.users u = some x ∧ x.istmp = true ∧ x.type = .human ∧ s.time - x.idle ≥ timeoutSec

theorem Lasting.expires (h : Lasting s s') (he : s'.ExpiresTmp) : s.ExpiresTmp := by
  obtain ⟨u, x, hx, htmp, htype, hidle⟩ := he
  have h1 := h.istmp u
  have h2 := h.type u
  have h3 := h.idle u
  rw [hx] at h1 h2 h3
  obtain ⟨x₀, hx₀, h1⟩ := Option.map_eq_some_iff.mp h1.symm
  rw [hx₀] at h2 h3
  refine ⟨u, x₀, hx₀, h1.trans htmp, (Option.some.inj h2).symm.trans htype, ?_⟩
  rw [← h.time, show x₀.idle = x.idle from (Option.some.inj h3).symm]
  exact hidle

/-- `deluser` makes nobody expire. -/
theorem deluser_expires (h : s.deluser u = .ok s') (he : s'.ExpiresTmp) : s.ExpiresTmp := by
  obtain ⟨t₁, ht₁, h⟩ := bind_ok h
  obtain ⟨t₂, ht₂, h⟩ := bind_ok h
  obtain ⟨x, -, h⟩ := bind_ok h
  obtain ⟨t₃, ht₃, h⟩ := bind_ok h
  obtain ⟨t₄, ht₄, h⟩ := bind_ok h
  obtain ⟨x₁, -, ht₂⟩ := bind_ok ht₂
  cases h
  have hlast := (leftAll_minor ht₁).toQuiet.lasting.trans (clearSubs_lasting ht₂)
  have hlast' := ((setNext_minor ht₃).trans (setPrev_minor ht₄)).toQuiet.lasting
  refine hlast.expires ?_
  obtain ⟨v, xv, hxv, htmp⟩ := he
  have hv : v ≠ u := by
    rintro rfl
    simp at hxv
  simp only [destroyPipe, ne_eq, hv, not_false_eq_true, Function.update_of_ne] at hxv
  have hfinal : t₄.ExpiresTmp := ⟨v, xv, hxv, htmp⟩
  exact hlast'.expires hfinal

theorem tickFrom_counts {fuel : ℕ} {p : Option UserId} (hc : s.Counts us) (hx : ¬s.ExpiresTmp)
    (h : s.tickFrom fuel p = .ok s') : ∃ us', s'.Counts us' := by
  induction fuel generalizing s p us with
  | zero =>
    cases p with
    | none =>
      cases h
      exact ⟨us, hc⟩
    | some u => cases h
  | succ fuel ih =>
    cases p with
    | none =>
      cases h
      exact ⟨us, hc⟩
    | some u =>
      obtain ⟨x, hxu, h⟩ := bind_ok h
      obtain ⟨t, ht, h⟩ := bind_ok h
      simp only [tickUser, hxu, ok_bind] at ht
      split at ht
      · next htype =>
        split at ht
        · next hidle =>
          have htmp : x.istmp = false := by
            by_contra htmp
            exact hx ⟨u, x, user_ok hxu, by simpa using htmp, htype, hidle⟩
          refine ih (deluser_counts hc ?_ ht) (fun he => hx (deluser_expires ht he)) h
          rw [user_ok hxu]
          exact congrArg some htmp
        · have hlast := tickSubs_lasting ht
          exact ih (hlast.counts hc) (fun he => hx (hlast.expires he)) h
      · cases ht
        exact ih hc hx h

theorem apeDisconnect_counts {fd : Fd} (hc : s.Counts us) (hd : ¬s.DropsTmp fd)
    (h : s.apeDisconnect fd = .ok s') : ∃ us', s'.Counts us' := by
  unfold apeDisconnect at h
  split at h
  · cases h
    exact ⟨us, hc⟩
  · next i hi =>
    obtain ⟨y, hy, h⟩ := bind_ok h
    split at h
    · cases h
      exact ⟨us, Steady.counts (s := s) (.of_eq rfl rfl rfl le_rfl) hc⟩
    · next hw =>
      split at h
      · next hfd =>
        have hst : Steady s (s.setSub i { y with headersSent := false, state := .adied }) :=
          .of_eq rfl rfl rfl le_rfl
        unfold dropTmp at h
        split at h
        · next u hu =>
          obtain ⟨x, hx, h⟩ := bind_ok h
          split at h
          · next htmp =>
            exact absurd ⟨i, y, u, x, hi, sub_ok hy, by simpa using hw, hfd, hu, user_ok hx, htmp⟩ hd
          · cases h
            exact ⟨us, hst.counts hc⟩
        · cases h
          exact ⟨us, hst.counts hc⟩
      · cases h
        exact ⟨us, hc⟩

theorem checkrecv_counts {fd : Fd} {r : HttpRequest} {sub : Option SubId}
    (hh : ∀ h ∈ hooks, h.Decides) (hc : s.Counts us)
    (hfirst : ∀ objects, r.data = some objects → ¬s.QuitsTmp objects)
    (h : s.checkrecv (.hooked domain hooks) fd r = .ok (sub, s')) : ∃ us', s'.Counts us' := by
  unfold checkrecv at h
  split at h
  · cases h
    exact ⟨us, setCo_steady.counts hc⟩
  · obtain ⟨uri, -, h⟩ := bind_ok h
    split at h
    · cases h
      exact ⟨us, handshake_steady.counts hc⟩
    · split at h
      · cases h
        exact ⟨us, ((Quiet.send.trans .send).trans .safeShutdown).still.steady.counts hc⟩
      · next objects hobjects =>
        obtain ⟨c, hcheck, h⟩ := bind_ok h
        obtain ⟨us', hc'⟩ := checkcmd_counts hh hc (hfirst objects hobjects) hcheck
        split at h
        · cases h
          exact ⟨us', Quiet.safeShutdown.still.steady.counts hc'⟩
        · cases h
          exact ⟨us', hc'⟩

/-- What may happen to a server whose `CONNECT`s may wait: an event, or the second phase of a
user that is still temporary. -/
inductive Move where
  | event (e : Event)
  | adduser (u : UserId)

def move (cmds : Cmds) (s : Ape) : Move → Except Halt Ape
  | .event e => s.step cmds e
  | .adduser u =>
    if (s.users u).map User.istmp = some true then s.adduser u else .error .event

/-- The move deletes no user between its two phases. -/
def SparesTmp (s : Ape) : Move → Prop
  | .event (.request _ r) => ∀ objects, r.data = some objects → ¬s.QuitsTmp objects
  | .event (.message _ objects) => ¬s.QuitsTmp objects
  | .event (.disconnect fd) => ¬s.DropsTmp fd
  | .event .tick => ¬s.ExpiresTmp
  | _ => True

theorem step_counts {e : Event} (hh : ∀ h ∈ hooks, h.Decides) (hc : s.Counts us)
    (hs : s.SparesTmp (.event e)) (h : s.step (.hooked domain hooks) e = .ok s') :
    ∃ us', s'.Counts us' := by
  cases e with
  | accept fd ip =>
    simp only [step] at h
    split at h
    · cases h
      exact ⟨us, setCo_steady.counts hc⟩
    · cases h
  | request fd r =>
    simp only [step] at h
    split at h
    · obtain ⟨⟨sub, t⟩, ht, h⟩ := bind_ok h
      cases h
      obtain ⟨us', hc'⟩ := checkrecv_counts hh hc hs ht
      exact ⟨us', setCo_steady.counts hc'⟩
    · cases h
  | message fd objects =>
    simp only [step] at h
    split at h
    · split at h
      · obtain ⟨r, hr, h⟩ := bind_ok h
        obtain ⟨us', hc'⟩ := checkcmd_counts hh hc hs hr
        exact ⟨us', (supersede_steady h).counts (setCo_steady.counts hc')⟩
      · cases h
    · cases h
  | sent fd =>
    simp only [step] at h
    split at h
    · obtain ⟨t, ht, h⟩ := bind_ok h
      cases h
      have hct := (setCo_steady.trans (apeSent_steady ht)).counts hc
      split
      · exact ⟨us, setCo_steady.counts hct⟩
      · exact ⟨us, hct⟩
    · cases h
  | reset fd =>
    simp only [step] at h
    split at h
    · cases h
      exact ⟨us, setCo_steady.counts hc⟩
    · cases h
  | disconnect fd =>
    simp only [step] at h
    split at h
    · obtain ⟨t, ht, h⟩ := bind_ok h
      cases h
      obtain ⟨us', hc'⟩ := apeDisconnect_counts hc hs ht
      exact ⟨us', setCo_steady.counts hc'⟩
    · cases h
  | tick => exact tickFrom_counts hc hs h
  | clock time =>
    cases h
    exact ⟨us, Steady.counts (s := s) (.of_eq rfl rfl rfl le_rfl) hc⟩

theorem move_counts {m : Move} (hh : ∀ h ∈ hooks, h.Decides) (hc : s.Counts us)
    (hs : s.SparesTmp m) (h : s.move (.hooked domain hooks) m = .ok s') :
    ∃ us', s'.Counts us' := by
  cases m with
  | event e => exact step_counts hh hc hs h
  | adduser u =>
    simp only [move] at h
    split at h
    · next htmp => exact ⟨_, adduser_counts hc htmp h⟩
    · cases h

theorem init_counts (rand : List (List.Vector (Fin 16) 32)) (io : ℕ → Bool) (time : ℤ) :
    (init rand io time).Counts ∅ where
  mem u := by simp [init]
  counter := rfl
  bound _ _ := rfl

/-- In every run that deletes no temporary user, `nConnected` is the number of the live users
that are not temporary. -/
theorem connected_counted {rand : List (List.Vector (Fin 16) 32)} {io : ℕ → Bool} {time : ℤ}
    (hh : ∀ h ∈ hooks, h.Decides)
    (h : Reach (move (.hooked domain hooks)) SparesTmp (init rand io time) s) :
    ∃ us : Finset UserId, (∀ u, u ∈ us ↔ ∃ x, s.users u = some x ∧ x.istmp = false) ∧
      s.nConnected = UInt32.ofNat us.card ∧
      (us.card < 2 ^ 32 → s.nConnected.toNat = us.card) := by
  obtain ⟨us, hc⟩ := h.keeps (fun s => ∃ us, s.Counts us) ⟨∅, init_counts rand io time⟩
    fun _ _ _ ⟨us, hc⟩ hs hl => move_counts hh hc hs hl
  refine ⟨us, fun u => ?_, hc.counter, fun hlt => ?_⟩
  · rw [hc.mem]
    exact Option.map_eq_some_iff
  · rw [hc.counter]
    exact UInt32.toNat_ofNat_of_lt' hlt

/-- A hook that makes every `CONNECT` wait. -/
def waitHook : Hook := ⟨bytes "CONNECT", fun _ s => .ok (returnHang, s)⟩

theorem waitHook_decides : ∀ h ∈ [waitHook], h.Decides := by
  intro h hm cp s flag s' hl
  rw [List.mem_singleton.mp hm] at hl
  cases hl
  exact .refl

/-- A request with a `CONNECT` on a new connection. -/
def connecting : List Move :=
  [.event (.accept 5 (bytes "1.1.1.1")), .event (.request 5
    { host := some (bytes "h"), uri := some (bytes "/0/"), hlines := [],
      data := some [JsonItem.newObject.setStr (bytes "cmd") (bytes "CONNECT")] })]

theorem connecting_spares (s : Ape) : ∀ m ∈ connecting, s.SparesTmp m := by
  intro m hm
  simp only [connecting, List.mem_cons, List.not_mem_nil, or_false] at hm
  rcases hm with rfl | rfl
  · trivial
  · rintro objects hobjects ⟨ijson, rest, cmd, -, -, -, rfl, hcmd, hquit, -⟩
    cases hobjects
    cases hcmd
    exact absurd hquit (by decide)

/-- A user that waited and was admitted is counted. -/
theorem connected_counted_admitted : ∃ s us, Steps.runs (move (.hooked true [waitHook]))
    (fun _ _ => True) (init sixteenDraws (fun _ => true) 0) (connecting ++ [.adduser 0]) = some s ∧
      s.nConnected = 1 ∧ s.nConnected = UInt32.ofNat (Finset.card us) ∧
      ∀ u, u ∈ us ↔ ∃ x, s.users u = some x ∧ x.istmp = false := by
  have h : ((Steps.runs (move (.hooked true [waitHook])) (fun _ _ => True)
      (init sixteenDraws (fun _ => true) 0) (connecting ++ [.adduser 0])).map
        Ape.nConnected) = some 1 := by decide +kernel
  obtain ⟨s, hs, hn⟩ := Option.map_eq_some_iff.mp h
  have hall : ∀ s : Ape, ∀ m ∈ connecting ++ [.adduser 0], s.SparesTmp m := by
    intro s m hm
    rcases List.mem_append.mp hm with hm | hm
    · exact connecting_spares s m hm
    · rw [List.mem_singleton.mp hm]
      trivial
  obtain ⟨us, hus, hcount, -⟩ := connected_counted waitHook_decides
    (.of_always hall .start hs)
  exact ⟨s, us, hs, hn, hcount, hus⟩

theorem hooked_tame (hh : ∀ h ∈ hooks, h.Decides) : (Cmds.hooked domain hooks).Tame where
  commands := (plain_tame domain).commands
  hooks h hm := .of_named fun cp s flag s' hl => (hh h hm cp s flag s' hl).toNamed
  bad := (plain_tame domain).bad

theorem move_keyed {cmds : Cmds} {m : Move} (hc : cmds.Tame) (hk : s.Keyed)
    (h : s.move cmds m = .ok s') : s'.Keyed := by
  cases m with
  | event e => exact step_keyed hc hk h
  | adduser u =>
    simp only [move] at h
    split at h
    · exact (adduser_named h).keyed hk
    · cases h

/-- A user that goes down while its `CONNECT` waits was never counted, and is counted down. -/
theorem uncounted_disconnect : ¬∀ s, Reach (move (.hooked true [waitHook])) (fun _ _ => True)
    (init sixteenDraws (fun _ => true) 0) s →
      ∃ us : Finset UserId, (∀ u, u ∈ us ↔ ∃ x, s.users u = some x ∧ x.istmp = false) ∧
        s.nConnected = UInt32.ofNat us.card := by
  intro hall
  have h : ((Steps.runs (move (.hooked true [waitHook])) (fun _ _ => True)
      (init sixteenDraws (fun _ => true) 0) (connecting ++ [.event (.disconnect 5)])).map
        fun s => (s.nConnected, (List.range s.fresh).all fun u => (s.users u).isNone)) =
      some (4294967295, true) := by decide +kernel
  obtain ⟨s, hs, h⟩ := Option.map_eq_some_iff.mp h
  obtain ⟨hn, hnone⟩ := Prod.mk.inj h
  have hreach : Reach (move (.hooked true [waitHook])) (fun _ _ => True)
    (init sixteenDraws (fun _ => true) 0) s := .of_runs .start hs
  have hk : s.Keyed := hreach.keeps Keyed (init_keyed _ _ _) fun _ _ _ hk _ hl =>
    move_keyed (hooked_tame waitHook_decides) hk hl
  obtain ⟨us, hus, hcount⟩ := hall s hreach
  have hempty : us = ∅ := by
    rw [Finset.eq_empty_iff_forall_notMem]
    intro u hu
    obtain ⟨x, hx, -⟩ := (hus u).mp hu
    by_cases hlt : u < s.fresh
    · have := List.all_eq_true.mp hnone u (List.mem_range.mpr hlt)
      simp [hx] at this
    · rw [hk.bound u (not_lt.mp hlt)] at hx
      cases hx
  rw [hempty, hn] at hcount
  exact absurd hcount (by decide)

end Ape

end ApeServer
