import ApeServer.Server.Served

/-!
# What a request does

Every command of a server without plugins is over without having moved a subuser, deletes the
user of its request, or leaves one subuser waiting: the one it took up, or that of a new user.
What each of the four keeps is kept by a request.
-/
namespace ApeServer

open Sock (Bytes)
open Steps (ok_bind bind_ok)

namespace Ape

variable {s s' t t' : Ape} {u : UserId} {i j : SubId} {x : User} {y y' : Subuser}
  {pc pc' : Pc} {cp : Callbackp} {flag : UInt32} {domain : Bool} {cmd host ip : Bytes}
  {ijson : JsonItem} {iuser : Option SubId} {guser : Option UserId} {transport : Transport}
  {objects : List JsonItem}

/-! ### Level steps -/

/-- A step that moves no subuser and attaches none. -/
structure Level (s s' : Ape) : Prop extends Even s s' where
  attach : ∀ fd, (s'.co fd).attach = (s.co fd).attach

namespace Level

theorem refl : Level s s := ⟨.refl, fun _ => rfl⟩

theorem trans (h : Level s t) (h' : Level t s') : Level s s' :=
  ⟨h.toEven.trans h'.toEven, fun fd => (h'.attach fd).trans (h.attach fd)⟩

theorem of_minor (h : Minor s s') : Level s s' :=
  ⟨.of_minor h, fun fd => congrArg Wire.attach (h.co fd)⟩

theorem fd (h : Level s s') (e : Fd) : (s'.co e).fd = (s.co e).fd := (h.sockets e).1

theorem bufout (h : Level s s') {e : Fd} (hb : (s.co e).bufout = true) :
    (s'.co e).bufout = true := (h.sockets e).2.bufout hb

theorem user_back {x' : User} (h : Level s s') (hx' : s'.users u = some x') :
    ∃ x, s.users u = some x ∧ x'.station = x.station := by
  have hu := h.users u
  rw [hx'] at hu
  obtain ⟨x, hx, he⟩ := Option.map_eq_some_iff.mp hu.symm
  exact ⟨x, hx, he.symm⟩

theorem setUser {x' : User} (hx : s.users u = some x) (hs : x'.station = x.station) :
    Level s (s.setUser u x') := ⟨.setUser hx hs, fun _ => rfl⟩

theorem setCo {e : Fd} {k : Socket} (hfd : k.fd = (s.co e).fd) (ha : k.attach = (s.co e).attach)
    (hw : Wet (s.co e) k) : Level s (s.setCo e k) := by
  refine ⟨⟨fun _ => rfl, fun _ => rfl, fun _ => rfl, fun d => ?_⟩, fun d => ?_⟩
  · by_cases hd : d = e
    · subst hd
      simpa using ⟨hfd, hw⟩
    · simpa [hd] using Sockets.refl d
  · by_cases hd : d = e
    · subst hd
      simpa using ha
    · simp [hd]

theorem shutdown {e : Fd} : Level s (s.shutdown e) :=
  .setCo rfl rfl (.of_eq rfl rfl fun _ => rfl)

end Level

theorem cmdConnect_level (h : cmdConnect cp s = .ok (flag, s')) :
    Level s s' ∧ hasFlag flag returnNull = false := by
  refine ⟨⟨(cmdConnect_even h).1, fun fd => ?_⟩, ?_⟩
  · obtain ⟨u, -, h⟩ := bind_ok h
    obtain ⟨t, ht, h⟩ := bind_ok h
    obtain ⟨x, -, h⟩ := bind_ok h
    obtain ⟨i, -, h⟩ := bind_ok h
    obtain ⟨t₁, ht₁, h⟩ := bind_ok h
    obtain ⟨t₂, ht₂, h⟩ := bind_ok h
    cases h
    rw [((postRawSub_posted ht₁).trans (postRaw_posted ht₂)).co, (adduser_subs ht).2]
  · obtain ⟨u, -, h⟩ := bind_ok h
    obtain ⟨t, -, h⟩ := bind_ok h
    obtain ⟨x, -, h⟩ := bind_ok h
    obtain ⟨i, -, h⟩ := bind_ok h
    obtain ⟨t₁, -, h⟩ := bind_ok h
    obtain ⟨t₂, -, h⟩ := bind_ok h
    cases h
    decide

/-! ### One command -/

theorem cmdSession_flag (h : cmdSession cp s = .ok (flag, s')) :
    hasFlag flag returnNull = false := by
  unfold cmdSession at h
  split at h
  · cases h
    decide
  · split at h
    · obtain ⟨t, -, h⟩ := bind_ok h
      cases h
      split <;> decide
    · split at h
      · simp only at h
        split at h
        · cases h
          decide
        · obtain ⟨u, -, h⟩ := bind_ok h
          obtain ⟨x, -, h⟩ := bind_ok h
          obtain ⟨i, -, h⟩ := bind_ok h
          obtain ⟨t, -, h⟩ := bind_ok h
          cases h
          decide
      · cases h
        decide

theorem cmdLeft_flag (h : cmdLeft cp s = .ok (flag, s')) : hasFlag flag returnNull = false := by
  unfold cmdLeft at h
  split at h
  · cases h
    decide
  · obtain ⟨u, -, h⟩ := bind_ok h
    split at h
    · obtain ⟨t, -, h⟩ := bind_ok h
      cases h
      decide
    · obtain ⟨x, -, h⟩ := bind_ok h
      split at h
      · obtain ⟨t, -, h⟩ := bind_ok h
        cases h
        decide
      · obtain ⟨t, -, h⟩ := bind_ok h
        cases h
        decide

theorem cmdSend_flag (h : cmdSend cp s = .ok (flag, s')) : hasFlag flag returnNull = false := by
  unfold cmdSend at h
  split at h
  · obtain ⟨i, -, h⟩ := bind_ok h
    obtain ⟨r, -, h⟩ := bind_ok h
    cases h
    decide
  · cases h
    decide

theorem cmdScript_flag (h : cmdScript domain cp s = .ok (flag, s')) :
    hasFlag flag returnNull = false := by
  unfold cmdScript at h
  split at h
  · obtain ⟨u, -, h⟩ := bind_ok h
    obtain ⟨t, -, h⟩ := bind_ok h
    cases h
    decide
  · cases h
    decide

theorem cmdJoin_flag (h : cmdJoin cp s = .ok (flag, s')) : hasFlag flag returnNull = false := by
  obtain ⟨t, -, h⟩ := bind_ok h
  cases h
  split <;> decide

/-- Only `QUIT` asks for the end of its request without an answer. -/
theorem plain_flag (hq : isQuit cmd = false)
    (h : ((Cmds.plain domain).seek cmd).func cp s = .ok (flag, s')) :
    hasFlag flag returnNull = false := by
  unfold Cmds.seek Cmds.plain builtins Htbl.seek at h
  simp only [List.foldl_cons, List.foldl_nil, Htbl.append] at h
  split_ifs at h with h1 h2 h3 h4 h5 h6 h7 h8
  · exact cmdSession_flag h
  · exact cmdLeft_flag h
  · exact cmdJoin_flag h
  · rw [isQuit] at hq
    rw [hq] at h4
    cases h4
  · exact cmdSend_flag h
  · cases h
    decide
  · exact cmdScript_flag h
  · exact (cmdConnect_level h).2
  · cases h
    decide

/-- How a command ends whose subuser was looked up in `t`. -/
inductive Ends (t : Ape) (cmd : Bytes) (pc : Pc) (o : Opened) (iuser : Option SubId) (d : Done) :
    Prop
  | stopped (hu : pc.guser = none) (hlevel : Level t d.state) (hret : d.ret ≠ none)
      (hiuser : d.iuser = iuser)
  | quit {u : UserId} {t₁ t₂ : Ape} (hquit : isQuit cmd = true) (hu : pc.guser = some u)
      (hlevel : Level t t₁) (hdel : t₁.deluser u = .ok t₂) (hlast : Level t₂ d.state)
      (hret : d.ret ≠ none) (hiuser : d.iuser = iuser)
  | took {u : UserId} {i : SubId} {t₁ : Ape} {y : Subuser} (hquit : isQuit cmd = false)
      (hconn : isConnect cmd = false) (hu : pc.guser = some u) (hi : o.sub = some i)
      (hlevel : Level t t₁) (hy : t₁.subs i = some y)
      (hstate : d.state = t₁.setSub i { y with state := .alive })
      (hiuser : d.iuser = if o.attach then some i else none) (hpc : d.pc = pc)
  | admitted {u : UserId} {i : SubId} {t₁ t₂ : Ape} {x : User} {y : Subuser}
      (hconn : isConnect cmd = true)
      (halloc : t.allocUser (o.client.getD pc.client) pc.host pc.ip = .ok (u, t₁))
      (hx : t₁.users u = some x) (hi : x.subuser.head? = some i)
      (hlevel : Level (t₁.setUser u { x with transport := pc.transport }) t₂)
      (hy : t₂.subs i = some y) (hstate : d.state = t₂.setSub i { y with state := .alive })
      (hiuser : d.iuser = if o.attach then some i else none)
      (hpc : d.pc = { pc with guser := some u })

theorem cmdSub_some {o : Opened} (hu : pc.guser = some u) (h : s.cmdSub pc = .ok o) :
    ∃ i, o.sub = some i := by
  unfold cmdSub at h
  split at h
  · obtain ⟨x, i, y, -, hi, -⟩ := openSub_opening h
    exact ⟨i, hi⟩
  · next hne =>
    cases h
    cases hsub : pc.sub with
    | none => exact absurd hsub (hne u hu)
    | some i => exact ⟨i, rfl⟩

theorem connect_ne_quit (h : isQuit cmd = true) : isConnect cmd = false := by
  rw [isConnect, strcaseeq_congr h]
  decide

/-- `QUIT` deletes the user it is run for. -/
theorem cmdQuit_level (h : cmdQuit cp s = .ok (flag, s')) :
    hasFlag flag returnNull = true ∧
      (cp.call_user = none ∧ Level s s' ∨
        ∃ u t, cp.call_user = some u ∧ Level s t ∧ t.deluser u = .ok s') := by
  unfold cmdQuit at h
  simp only at h
  split at h
  · next hu =>
    cases h
    exact ⟨by decide, .inl ⟨hu, .of_minor .sendRawInline⟩⟩
  · next u hu =>
    obtain ⟨t, ht, h⟩ := bind_ok h
    cases h
    exact ⟨by decide, .inr ⟨u, _, hu, .of_minor .sendRawInline, ht⟩⟩

theorem execCmd_ends {d : Done} (h : execCmd (.plain domain) ijson cmd pc iuser s = .ok d) :
    ∃ o t, s.cmdSub pc = .ok o ∧ Level o.state t ∧ Ends t cmd pc o iuser d := by
  obtain ⟨o, ho, h⟩ := bind_ok h
  obtain ⟨t, ht, h⟩ := bind_ok h
  obtain ⟨chl, -, h⟩ := bind_ok h
  obtain ⟨⟨cp, pc', sub, t₁⟩, hpre, h⟩ := bind_ok h
  obtain ⟨⟨flag, called, t₂⟩, hcall, h⟩ := bind_ok h
  obtain ⟨⟨ret, pc'', iuser', t₃⟩, hfin, h⟩ := bind_ok h
  cases h
  refine ⟨o, t, ho, .of_minor (setChl_spec ht).1, ?_⟩
  obtain ⟨-, hfunc⟩ := runCallback_plain hcall
  obtain ⟨t₄, hm, -, hend⟩ := finishCmd_spec hfin
  have hlast := Level.of_minor hm
  obtain ⟨hn, rfl, rfl, rfl, rfl⟩ | ⟨u, t₀, x, hconn, halloc, hx, rfl, rfl, rfl, rfl⟩ :=
    preallocate_cases hpre
  · replace hn : isConnect cmd = false := hn
    obtain ⟨hq, hf⟩ | ⟨hc, -⟩ | ⟨hq, -, hminor⟩ := seek_plain domain cmd
    · rw [hf] at hfunc
      obtain ⟨hnull, hcases⟩ := cmdQuit_level hfunc
      obtain ⟨-, hret, -, rfl, rfl⟩ | ⟨u, i, y, hnot, -⟩ := hend
      · obtain ⟨hu, hlevel⟩ | ⟨u, t₅, hu, hlevel, hdel⟩ := hcases
        · exact .stopped hu (hlevel.trans hlast) hret rfl
        · exact .quit hq hu hlevel hdel hlast hret rfl
      · rw [hnull] at hnot
        cases hnot
    · rw [hn] at hc
      cases hc
    · have hlevel := (Level.of_minor (hminor _ _ _ _ hfunc)).trans hlast
      obtain ⟨hover, hret, -, rfl, rfl⟩ | ⟨u, i, y, -, hu, hi, hy, rfl, rfl, rfl⟩ := hend
      · exact .stopped (hover.resolve_left (by simp [plain_flag hq hfunc])) hlevel hret rfl
      · obtain ⟨j, hj⟩ := cmdSub_some hu ho
        obtain rfl := hi j hj
        exact .took hq hn hu hj hlevel hy rfl rfl rfl
  · replace hconn : isConnect cmd = true := hconn
    obtain ⟨hq, -⟩ | ⟨-, -, hf⟩ | ⟨-, hc, -⟩ := seek_plain domain cmd
    · rw [connect_ne_quit hq] at hconn
      cases hconn
    · rw [hf] at hfunc
      obtain ⟨hlevel, hnull⟩ := cmdConnect_level hfunc
      obtain ⟨i, hi⟩ := (cmdConnect_even hfunc).2
      obtain ⟨hover, -⟩ | ⟨v, j, y, -, hv, hj, hy, rfl, rfl, rfl⟩ := hend
      · rw [hnull] at hover
        simp at hover
      · obtain rfl := hj i hi
        obtain rfl := Option.some.inj hv
        exact .admitted hconn halloc hx hi (hlevel.trans hlast) hy rfl rfl rfl
    · rw [hconn] at hc
      cases hc

/-! ### The commands of a request -/

/-- A request on `fd` between two commands: the subuser its commands are run with waits, and
is the one the connection is to be attached to. -/
structure AtWork (fd : Fd) (pc : Pc) (iuser : Option SubId) (s : Ape) : Prop where
  sound : s.roster.Sound
  client : pc.client = fd
  sub : pc.sub = iuser
  waits : ∀ i, iuser = some i → ∃ y, s.subs i = some y ∧ y.state = .alive

theorem AtWork.start {client : Fd} (h : s.roster.Sound) :
    AtWork client (.start client host ip transport) none s :=
  ⟨h, rfl, rfl, fun _ hi => nomatch hi⟩

theorem cmdSub_seated {o : Opened} (hi : pc.sub = some i) (h : s.cmdSub pc = .ok o) :
    o = ⟨some i, none, true, s⟩ := by
  unfold cmdSub at h
  rw [hi] at h
  split at h
  · next hnone => cases hnone
  · cases h
    rfl

theorem cmdSub_attach {o : Opened} (h : s.cmdSub pc = .ok o) (ha : o.attach = false) :
    pc.sub = none := by
  unfold cmdSub at h
  split at h
  · next hsub => exact hsub
  · cases h
    cases ha

/-- A command that leaves a subuser waiting leaves the request to its next command. -/
theorem AtWork.next {client : Fd} {o : Opened} {d : Done} (h : AtWork client pc iuser s)
    (ho : s.cmdSub { pc with guser := guser } = .ok o) (hs : d.state.roster.Sound)
    (hstate : d.state = t.setSub i { y with state := .alive })
    (hiuser : d.iuser = if o.attach then some i else none)
    (hpc : d.pc.client = pc.client ∧ d.pc.sub = pc.sub) : AtWork client d.next d.iuser d.state := by
  have hwaits : ∃ y', d.state.subs i = some y' ∧ y'.state = .alive := by
    rw [hstate]
    exact ⟨_, Function.update_self .., rfl⟩
  cases ha : o.attach with
  | true =>
    rw [ha, if_pos rfl] at hiuser
    refine ⟨hs, ?_, ?_, fun j hj => ?_⟩
    · simp only [Done.next, hiuser]
      exact hpc.1.trans h.client
    · simp only [Done.next, hiuser]
    · obtain rfl := Option.some.inj (hiuser.symm.trans hj)
      exact hwaits
  | false =>
    rw [ha, if_neg Bool.false_ne_true] at hiuser
    refine ⟨hs, ?_, ?_, fun j hj => ?_⟩
    · simp only [Done.next, hiuser]
      exact hpc.1.trans h.client
    · simp only [Done.next, hiuser]
      have hnone : ({ pc with guser := guser } : Pc).sub = none := cmdSub_attach ho ha
      exact hpc.2.trans hnone
    · rw [hiuser] at hj
      cases hj

/-- What a request keeps whose commands are all taken up under `C`: `I` between two commands
and `F` at its end. -/
structure Upheld (domain : Bool) (C : JsonItem → Bytes → Pc → Ape → Prop)
    (I : Pc → Option SubId → Ape → Prop) (F : Option SubId → Ape → Prop) : Prop where
  done : ∀ {pc iuser s}, I pc iuser s → F iuser s
  level : ∀ {iuser s s'}, F iuser s → Level s s' → F iuser s'
  cmd : ∀ {ijson cmd pc guser iuser s d}, I pc iuser s → C ijson cmd { pc with guser := guser } s →
    execCmd (.plain domain) ijson cmd { pc with guser := guser } iuser s = .ok d →
    I d.next d.iuser d.state ∨ d.ret ≠ none ∧ F d.iuser d.state

variable {C : JsonItem → Bytes → Pc → Ape → Prop} {I : Pc → Option SubId → Ape → Prop}
  {F : Option SubId → Ape → Prop}

theorem Upheld.weaken {C' : JsonItem → Bytes → Pc → Ape → Prop} (h : Upheld domain C I F)
    (hC : ∀ {ijson cmd pc t}, C' ijson cmd pc t → C ijson cmd pc t) : Upheld domain C' I F :=
  ⟨h.done, h.level, fun hI hc hd => h.cmd hI (hC hc) hd⟩

theorem Upheld.processCmd {d : Done} (h : Upheld domain C I F) (hI : I pc iuser s)
    (hall : ∀ {cmd}, jstr ijson.child (bytes "cmd") = some cmd →
      ¬(((Cmds.plain domain).seek cmd).need ≠ .nothing ∧ identify s ijson pc = none) →
      C ijson cmd { pc with guser := identify s ijson pc } s)
    (hd : processCmd (.plain domain) ijson pc iuser s = .ok d) :
    I d.next d.iuser d.state ∨ d.ret ≠ none ∧ F d.iuser d.state := by
  unfold ApeServer.processCmd at hd
  split at hd
  · cases hd
    exact .inr ⟨nofun, h.level (h.done hI) (.of_minor .sendRawInline)⟩
  · next cmd hcmd =>
    simp only at hd
    split at hd
    · cases hd
      exact .inr ⟨nofun, h.level (h.done hI) (.of_minor .sendRawInline)⟩
    · next hneed => exact h.cmd hI (hall hcmd hneed) hd

theorem Upheld.checkLoop {calls : List Call} {r : Checked} (h : Upheld domain C I F)
    (hI : I pc iuser s) (hall : ∀ {ijson cmd pc' t},
      Takes (.plain domain) objects pc iuser s ijson cmd pc' t → C ijson cmd pc' t)
    (hl : checkLoop (.plain domain) objects pc iuser calls s = .ok r) : F r.iuser r.state := by
  induction objects generalizing pc iuser calls s with
  | nil =>
    cases hl
    exact h.done hI
  | cons ijson rest ih =>
    obtain ⟨queued, hqueued, hl⟩ := bind_ok hl
    split at hl
    · obtain ⟨u, -, hl⟩ := bind_ok hl
      obtain ⟨x, hx, hl⟩ := bind_ok hl
      cases hl
      exact h.level (h.done hI) (.setUser (user_ok hx) rfl)
    · next hq =>
      rw [Bool.not_eq_true] at hq
      subst hq
      obtain ⟨d, hd, hl⟩ := bind_ok hl
      have hstep := h.processCmd hI (fun hcmd hneed => hall (.first hqueued hcmd hneed)) hd
      split at hl
      · cases hl
        rcases hstep with hI' | ⟨-, hF⟩
        · exact h.done hI'
        · exact hF
      · next hret =>
        have hI' := hstep.resolve_right fun hF => hF.1 hret
        exact ih hI' (fun ht => hall (.later hqueued hd hret ht)) hl

theorem Upheld.checkcmd {client : Fd} {r : Checked} (h : Upheld domain C I F)
    (hI : I (.start client host ip transport) none s) (hall : ∀ {ijson cmd pc' t},
      Takes (.plain domain) objects (.start client host ip transport) none s ijson cmd pc' t →
      C ijson cmd pc' t)
    (hl : checkcmd (.plain domain) objects client host ip transport s = .ok r) :
    F r.iuser r.state := by
  unfold ApeServer.checkcmd at hl
  split at hl
  · cases hl
    exact h.level (h.done hI) (.of_minor .sendRawInline)
  · exact h.checkLoop hI hall hl

/-- The request is in the state of each of its commands what it is between two commands. -/
theorem Upheld.checkLoop_takes {I' : Pc → Option SubId → Ape → Prop}
    {F' : Option SubId → Ape → Prop} {calls : List Call} {r : Checked}
    (h : Upheld domain C I F) (h' : Upheld domain C I' F')
    (ht : Takes (.plain domain) objects pc iuser s ijson cmd pc' t) (hI : I pc iuser s)
    (hall : ∀ {ijson cmd pc' t},
      Takes (.plain domain) objects pc iuser s ijson cmd pc' t → C ijson cmd pc' t)
    (hafter : ∀ {pc₁ iuser₁ d}, I pc₁ iuser₁ t → pc' = { pc₁ with guser := pc'.guser } →
      execCmd (.plain domain) ijson cmd pc' iuser₁ t = .ok d →
      I' d.next d.iuser d.state ∨ d.ret ≠ none ∧ F' d.iuser d.state)
    (hl : ApeServer.checkLoop (.plain domain) objects pc iuser calls s = .ok r) :
    F' r.iuser r.state := by
  induction ht generalizing calls with
  | @first ijson rest pc iuser s cmd hq hcmd hneed =>
    obtain ⟨queued, hqueued, hl⟩ := bind_ok hl
    obtain rfl := Except.ok.inj (hq.symm.trans hqueued)
    obtain ⟨d, hd, hl⟩ := bind_ok hl
    have hexec : execCmd (.plain domain) ijson cmd { pc with guser := identify s ijson pc } iuser s =
        .ok d := by
      have hd' := hd
      unfold ApeServer.processCmd at hd'
      rw [hcmd] at hd'
      simp only [if_neg hneed] at hd'
      exact hd'
    have hstep := hafter hI rfl hexec
    split at hl
    · cases hl
      rcases hstep with hI' | ⟨-, hF⟩
      · exact h'.done hI'
      · exact hF
    · next hret =>
      have hI' := hstep.resolve_right fun hF => hF.1 hret
      exact h'.checkLoop hI' (fun htakes => hall (.later hq hd hret htakes)) hl
  | @later ijson j rest pc pc' iuser s t cmd d hq hd hret _ ih =>
    obtain ⟨queued, hqueued, hl⟩ := bind_ok hl
    obtain rfl := Except.ok.inj (hq.symm.trans hqueued)
    obtain ⟨d', hd', hl⟩ := bind_ok hl
    obtain rfl := Except.ok.inj (hd.symm.trans hd')
    have hstep := h.processCmd hI (fun hcmd hneed => hall (.first hq hcmd hneed)) hd
    have hI' := hstep.resolve_right fun hF => hF.1 hret
    simp only [hret] at hl
    exact ih hI' (fun htakes => hall (.later hq hd hret htakes)) hafter hl

/-- The commands an event comes to. -/
def Commands (cmds : Cmds) (s : Ape) : Event → JsonItem → Bytes → Pc → Ape → Prop
  | .request fd r, ijson, cmd, pc, t => ∃ host uri objects, r.host = some host ∧ r.uri = some uri ∧
    r.data = some objects ∧ gettransport uri ≠ .websocket ∧ Takes cmds objects
      (.start fd host (s.co fd).ip_client (gettransport uri)) none s ijson cmd pc t
  | .message fd objects, ijson, cmd, pc, t => ∃ transport host,
    (s.co fd).parser = some (.websocket transport host) ∧ Takes cmds objects
      (.start fd host (s.co fd).ip_client transport) none s ijson cmd pc t
  | _, _, _, _, _ => False

theorem Takes.object {cmds : Cmds} (h : Takes cmds objects pc iuser s ijson cmd pc' t) :
    ijson ∈ objects ∧ jstr ijson.child (bytes "cmd") = some cmd := by
  induction h with
  | first _ hcmd _ => exact ⟨List.mem_cons_self, hcmd⟩
  | later _ _ _ _ ih => exact ⟨List.mem_cons_of_mem _ ih.1, ih.2⟩

/-- A request over HTTP for the host `h`. -/
def httpRequest (fd : Fd) (uri : String) (objects : List JsonItem) : Event :=
  .request fd { host := some (bytes "h"), uri := some (bytes uri), hlines := [], data := some objects }

theorem Commands.object {cmds : Cmds} {uri : String} {fd : Fd}
    (h : Commands cmds s (httpRequest fd uri objects) ijson cmd pc t) :
    ijson ∈ objects ∧ jstr ijson.child (bytes "cmd") = some cmd := by
  obtain ⟨host, uri, objects', -, -, hdata, -, htakes⟩ := h
  cases hdata
  exact Takes.object htakes

theorem handshake_level {fd : Fd} {hlines : List Http.HeaderLine} :
    Level s (s.handshake fd host hlines) := by
  have hsend : ∀ l : List ℕ, Minor s (l.foldl (fun s _ => (s.send fd .other).2) s) := by
    intro l
    refine List.foldlRecOn l _ .refl fun t ht _ _ => ht.trans (.send fd rfl)
  unfold handshake
  split
  · exact .shutdown
  · exact (Level.of_minor (hsend _)).trans (.setCo rfl rfl (.of_eq rfl rfl id))

/-- A request leaves its connection attached to nothing when it has no commands, and to what
they come to otherwise. -/
theorem parserReadyHttp_cases {cmds : Cmds} {fd : Fd} {r : HttpRequest}
    (hl : s.parserReadyHttp cmds fd r = .ok s') :
    (∃ t, Level s t ∧ s' = t.setAttach fd none ∧
      ∀ ijson cmd pc t, ¬Commands cmds s (.request fd r) ijson cmd pc t) ∨
    ∃ host uri objects c t, r.host = some host ∧ r.uri = some uri ∧ r.data = some objects ∧
      gettransport uri ≠ .websocket ∧
      checkcmd cmds objects fd host (s.co fd).ip_client (gettransport uri) s = .ok c ∧
      Level c.state t ∧ s' = t.setAttach fd c.iuser := by
  obtain ⟨⟨sub, t⟩, ht, hl⟩ := bind_ok hl
  cases hl
  unfold checkrecv at ht
  split at ht
  · next hhost =>
    cases ht
    refine .inl ⟨_, .shutdown, rfl, fun _ _ _ _ hc => ?_⟩
    obtain ⟨host, -, -, hhost', -⟩ := hc
    rw [hhost] at hhost'
    cases hhost'
  · next host hhost =>
    obtain ⟨uri, huri, ht⟩ := bind_ok ht
    replace huri := deref_ok huri
    split at ht
    · next hws =>
      cases ht
      refine .inl ⟨_, handshake_level, rfl, fun _ _ _ _ hc => ?_⟩
      obtain ⟨-, uri', -, -, huri', -, hne, -⟩ := hc
      obtain rfl := Option.some.inj (huri.symm.trans huri')
      exact hne hws
    · next hws =>
      split at ht
      · next hdata =>
        cases ht
        refine .inl ⟨_, .of_minor ((Minor.send _ rfl).trans (.trans (.send _ rfl) .safeShutdown)), rfl,
          fun _ _ _ _ hc => ?_⟩
        obtain ⟨-, -, objects, -, -, hdata', -⟩ := hc
        rw [hdata] at hdata'
        cases hdata'
      · next objects hdata =>
        obtain ⟨c, hc, ht⟩ := bind_ok ht
        refine .inr ⟨host, uri, objects, c, t, hhost, huri, hdata, hws, hc, ?_⟩
        split at ht
        · cases ht
          exact ⟨.of_minor .safeShutdown, rfl⟩
        · cases ht
          exact ⟨.refl, rfl⟩

theorem Upheld.request {fd : Fd} {r : HttpRequest} (h : Upheld domain C I F)
    (hI : ∀ host ip transport, I (.start fd host ip transport) none s)
    (hall : ∀ {ijson cmd pc t}, Commands (.plain domain) s (.request fd r) ijson cmd pc t →
      C ijson cmd pc t)
    (hl : s.parserReadyHttp (.plain domain) fd r = .ok s') :
    ∃ iuser t, F iuser t ∧ s' = t.setAttach fd iuser := by
  obtain ⟨t, hlevel, rfl, -⟩ | ⟨host, uri, objects, c, t, hhost, huri, hdata, hws, hc, hlevel, rfl⟩ :=
    parserReadyHttp_cases hl
  · exact ⟨none, t, h.level (h.done (hI [] [] .longpolling)) hlevel, rfl⟩
  · refine ⟨c.iuser, t, h.level (h.checkcmd (hI ..) (fun htakes => ?_) hc) hlevel, rfl⟩
    exact hall ⟨host, uri, objects, hhost, huri, hdata, hws, htakes⟩

/-- A request with a command after which `I'` holds. -/
theorem Upheld.request_takes {I' : Pc → Option SubId → Ape → Prop}
    {F' : Option SubId → Ape → Prop} {fd : Fd} {r : HttpRequest} (h : Upheld domain C I F)
    (h' : Upheld domain C I' F') (hI : ∀ host ip transport, I (.start fd host ip transport) none s)
    (hall : ∀ {ijson cmd pc t}, Commands (.plain domain) s (.request fd r) ijson cmd pc t →
      C ijson cmd pc t)
    (ht : Commands (.plain domain) s (.request fd r) ijson cmd pc' t)
    (hafter : ∀ {pc₁ iuser₁ d}, I pc₁ iuser₁ t → pc' = { pc₁ with guser := pc'.guser } →
      execCmd (.plain domain) ijson cmd pc' iuser₁ t = .ok d →
      I' d.next d.iuser d.state ∨ d.ret ≠ none ∧ F' d.iuser d.state)
    (hl : s.parserReadyHttp (.plain domain) fd r = .ok s') :
    ∃ iuser t, F' iuser t ∧ s' = t.setAttach fd iuser := by
  obtain ⟨t₀, -, -, hnone⟩ | ⟨host, uri, objects, c, t₀, hhost, huri, hdata, hws, hc, hlevel, rfl⟩ :=
    parserReadyHttp_cases hl
  · exact absurd ht (hnone _ _ _ _)
  · refine ⟨c.iuser, t₀, h'.level ?_ hlevel, rfl⟩
    obtain ⟨host', uri', objects', hhost', huri', hdata', -, htakes⟩ := ht
    obtain rfl := Option.some.inj (hhost.symm.trans hhost')
    obtain rfl := Option.some.inj (huri.symm.trans huri')
    obtain rfl := Option.some.inj (hdata.symm.trans hdata')
    unfold ApeServer.checkcmd at hc
    split at hc
    · next hnil =>
      rw [hnil] at htakes
      cases htakes
    · exact h.checkLoop_takes h' htakes (hI ..)
        (fun htakes => hall ⟨host, uri, objects, hhost, huri, hdata, hws, htakes⟩) hafter hc

theorem Upheld.message {fd : Fd} (h : Upheld domain C I F)
    (hparser : (s.co fd).parser = some (.websocket transport host))
    (hI : I (.start fd host (s.co fd).ip_client transport) none s)
    (hall : ∀ {ijson cmd pc t}, Commands (.plain domain) s (.message fd objects) ijson cmd pc t →
      C ijson cmd pc t)
    (hl : s.parserReadyWebsocket (.plain domain) fd transport host objects = .ok s') :
    ∃ iuser t, F iuser t ∧ (t.setAttach fd iuser).supersede (s.co fd).attach iuser = .ok s' := by
  obtain ⟨r, hr, hl⟩ := bind_ok hl
  exact ⟨r.iuser, r.state,
    h.checkcmd hI (fun htakes => hall ⟨transport, host, hparser, htakes⟩) hr, hl⟩

end Ape

end ApeServer
