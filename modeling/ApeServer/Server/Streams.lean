import ApeServer.Server.Headers

/-!
# Streams

A request over another connection resets `headers.sent`, also where the transport leaves the
subuser on the connection it waits on: its response goes on there with a second header block.
-/
namespace ApeServer

open Sock (Bytes)
open Steps (ok_bind bind_ok Reach)

namespace Ape

variable {s s' t : Ape} {u : UserId} {i j : SubId} {x : User} {y : Subuser} {fd e : Fd} {b : Bool}
  {pc : Pc} {domain : Bool} {cmd : Bytes} {ijson : JsonItem} {iuser : Option SubId}
  {transport : Transport} {o : Option SubId}

/-! ### The subuser of a command -/

/-- The subuser that `getsubuser` finds, or the new one in its place, comes to the connection
of the request, and its header block was sent if `b` says so. -/
def Arrives (s : Ape) (pc : Pc) (transport : Transport) : Option SubId → Bool → Prop
  | none, b => b = false
  | some i, b => ∃ y, s.subs i = some y ∧
    if y.state = .alive ∧ (s.co y.client).fd ≠ (s.co pc.client).fd then
      (transportOpenSameHost y pc.client transport).attach = true ∧ b = false
    else b = y.headersSent

/-- What `send_raws` wrote to `fd` is not what such a subuser needs, or another one waits there
and one of the two does so over HTTP. -/
def Unfit (s : Ape) (fd : Fd) (transport : Transport) (o : Option SubId) (b : Bool) : Prop :=
  hasHeaders transport = true ∧ ¬s.Fits fd b ∨
    ∃ j, o ≠ some j ∧ s.Waits fd j ∧ (hasHeaders transport = true ∨ ∃ c, s.Answers fd j c)

theorem Mute.unfit (h : Mute s s') (hu : s'.Unfit e transport o b) : s.Unfit e transport o b := by
  refine hu.imp (fun hf => ⟨hf.1, fun hfits => hf.2 (h.fits hfits)⟩) ?_
  rintro ⟨j, ho, hw, hh⟩
  exact ⟨j, ho, h.waits e j hw, hh.imp_right fun ⟨c, hc⟩ => ⟨c, h.answers e j c hc⟩⟩

theorem Unfit.none (h : s.Unfit e transport (some i) b) : s.Unfit e transport none b :=
  h.imp_right fun ⟨j, _, hw⟩ => ⟨j, nofun, hw⟩

/-- The users after a lookup are the same, with the same transports. -/
theorem openSub_users_back {o : Opened} {v : UserId} {x' : User} (h : s.openSub u pc = .ok o)
    (hx' : o.state.users v = some x') :
    ∃ x, s.users v = some x ∧ x'.transport = x.transport := by
  obtain ⟨x₀, i, w, hx₀, -, hopens, hstill, -⟩ := openSub_opens h
  obtain ⟨xw, hxw, hpost⟩ := hstill.user_back hx'
  rw [show x'.transport = xw.transport from congrArg Seat.transport hpost]
  cases hopens with
  | same => exact ⟨xw, hxw, rfl⟩
  | found => exact ⟨xw, hxw, rfl⟩
  | new ht =>
    obtain ⟨hn, -⟩ | ⟨x₁, z, hx₁, -, -, -, -, rfl⟩ := addsubuser_spec ht
    · cases hn
    · by_cases hv : v = u
      · subst hv
        simp only [setSub_users, setUser_users, Function.update_self, Option.some.injEq] at hxw
        exact ⟨x₁, hx₁, by rw [← hxw]⟩
      · simp only [setSub_users, setUser_users, ne_eq, hv, not_false_eq_true,
          Function.update_of_ne] at hxw
        exact ⟨xw, hxw, rfl⟩

/-- The subuser of a command that still waits after the lookup waited before, and where it
does now. -/
theorem openSub_mute {o : Opened} (hs : s.Headed) (ho : s.Open pc.client)
    (hu : pc.guser = some u) (hsub : pc.sub = none)
    (hn : ∀ y, s.TurnsAway pc y → y.headersSent = false) (h : s.openSub u pc = .ok o) :
    Mute s o.state := by
  obtain ⟨x, i, y', hx, hi, hy', hcalm, hopening⟩ := openSub_opening h
  have hwaiting := fun ha => hopening.waiting ha fun _ _ _ => ho.slot hs.slots
  refine .of_calm_but hcalm ?_ ?_
  · rintro e j rfl ⟨z, hz, ha, hc⟩
    obtain rfl := Option.some.inj (hy'.symm.trans hz)
    obtain ⟨y, hy, hal, hcl, -⟩ := hwaiting ha
    exact ⟨y, hy, hal, hcl.symm.trans hc⟩
  · rintro e j b rfl ⟨z, v, xv, hz, ha, hc, hsent, hv, hxv, hh⟩
    obtain rfl := Option.some.inj (hy'.symm.trans hz)
    obtain ⟨y, hy, hal, hcl, hu', hp⟩ := hwaiting ha
    have hsame : y'.headersSent = y.headersSent := by
      rcases hp with hp | ⟨hp, hget, hne, hatt⟩
      · exact congrArg Progress.headersSent hp
      · rw [hn y ⟨u, x, j, hu, hsub, hx, hget, hy, hal, hne, hatt⟩]
        exact congrArg Progress.headersSent hp
    obtain ⟨x₀, hx₀, ht⟩ := openSub_users_back h hxv
    exact ⟨y, v, x₀, hy, hal, hcl.symm.trans hc, hsame.symm.trans hsent, hu'.symm.trans hv, hx₀,
      ht ▸ hh⟩

theorem cmdSub_mute {o : Opened} (hs : s.Headed) (ho : s.Open pc.client)
    (hn : ∀ y, s.TurnsAway pc y → y.headersSent = false) (h : s.cmdSub pc = .ok o) :
    Mute s o.state := by
  unfold cmdSub at h
  split at h
  · next u hu hsub => exact openSub_mute hs ho hu hsub hn h
  · cases h
    exact .refl

/-- A subuser whose flag is reset on the connection it stays on goes with its user. -/
theorem cmdSub_quit {o : Opened} {t₁ t₂ : Ape} (hs : s.Headed) (ho : s.Open pc.client)
    (h : s.cmdSub pc = .ok o) (hlevel : Level o.state t₁) (hu : pc.guser = some u)
    (hdel : t₁.deluser u = .ok t₂) (hlast : Level t₂ s') : Mute s s' := by
  by_cases hn : ∀ y, s.TurnsAway pc y → y.headersSent = false
  · have hrest := (Mute.of_calm (deluser_calm hdel).1).trans (.of_level hlast)
    exact ((cmdSub_mute hs ho hn h).trans (.of_level hlevel)).trans hrest
  · push Not at hn
    obtain ⟨y, ⟨v, x, i, hv, hsub, hx, hget, -⟩, -⟩ := hn
    obtain rfl := Option.some.inj (hu.symm.trans hv)
    have hopen := h
    unfold cmdSub at hopen
    rw [hu, hsub] at hopen
    obtain ⟨x', j, y', -, -, -, hcalm, hopening⟩ := openSub_opening hopen
    have hji : j = i := by
      cases hopening with
      | same hget' | found hget' => exact Option.some.inj (Except.ok.inj (hget'.symm.trans hget))
      | new hget' =>
        rw [hget] at hget'
        cases hget'
    subst hji
    refine .of_dead (((hcalm.trans hlevel.calm).trans (deluser_calm hdel).1).trans hlast.calm) ?_
    obtain ⟨x₂, z, hx₂, hj, -⟩ := getsubuser_some hget
    exact cmdSub_deleted h hu hx₂ hj hlevel hdel hlast

/-- The subuser of a command waits already, or arrives. -/
theorem cmdSub_arrives {o : Opened} (hwork : AtWork fd pc iuser s) (hu : pc.guser = some u)
    (h : s.cmdSub pc = .ok o) (hi : o.sub = some i) : ∃ y, o.state.subs i = some y ∧
      (y.state = .alive ∨ y.client = pc.client ∧ pc.sub = none ∧
        ∃ x found, s.users u = some x ∧ s.getsubuser u pc.host = .ok found ∧
          (found = none ∨ found = some i) ∧ s.Arrives pc x.transport found y.headersSent ∧
          ∀ v x', y.user = some v → o.state.users v = some x' → x'.transport = x.transport) := by
  cases hsub : pc.sub with
  | some k =>
    obtain rfl := cmdSub_seated hsub h
    obtain rfl := Option.some.inj hi
    obtain ⟨y, hy, ha⟩ := hwork.waits k (hwork.sub.symm.trans hsub)
    exact ⟨y, hy, .inl ha⟩
  | none =>
    unfold cmdSub at h
    rw [hu, hsub] at h
    obtain ⟨x, j, y', hx, hj, hy', -, hopening⟩ := openSub_opening h
    obtain rfl := Option.some.inj (hi.symm.trans hj)
    refine ⟨y', hy', ?_⟩
    -- the subuser belongs to the user of the command
    have hown : ∀ y : Subuser, y'.user = y.user → s.getsubuser u pc.host = .ok (some i) →
        s.subs i = some y → y'.user = some u := by
      intro y huser hget hy
      obtain ⟨x₀, y₀, hx₀, hmem, -⟩ := getsubuser_some hget
      obtain ⟨y₁, hy₁, hown⟩ := own_live hwork.sound.wf.owned hx₀ hmem
      obtain rfl := Option.some.inj (hy.symm.trans hy₁)
      exact huser.trans hown
    have htransport : y'.user = some u → ∀ v x', y'.user = some v → o.state.users v = some x' →
        x'.transport = x.transport := by
      intro huser v x' hv hx'
      obtain rfl := Option.some.inj (huser.symm.trans hv)
      obtain ⟨x₀, hx₀, ht⟩ := openSub_users_back h hx'
      obtain rfl := Option.some.inj (hx.symm.trans hx₀)
      exact ht
    cases hopening with
    | @same y r hget hy hne hal hr hst hcl hp huser hclient hatt =>
      rw [hr] at hst hcl hatt
      by_cases hkept : (transportOpenSameHost y pc.client x.transport).substate = .alive
      · exact .inl (hst.trans hkept)
      · rw [transportOpenSameHost_adied hkept] at hcl
        refine .inr ⟨hcl, rfl, x, some i, hx, hget, .inr rfl, ⟨y, hy, ?_⟩,
          htransport (hown y huser hget hy)⟩
        rw [if_pos ⟨hal, hne⟩, transportOpenSameHost_adied hkept]
        exact ⟨rfl, congrArg Progress.headersSent hp⟩
    | @found y hget hy hn hst hcl hp huser =>
      refine .inr ⟨hcl, rfl, x, some i, hx, hget, .inr rfl, ⟨y, hy, ?_⟩,
        htransport (hown y huser hget hy)⟩
      rw [if_neg fun hc => hn hc.symm]
      exact congrArg Progress.headersSent hp
    | new hget hst hcl hp huser =>
      exact .inr ⟨hcl, rfl, x, none, hx, hget, .inl rfl, congrArg Progress.headersSent hp,
        htransport huser⟩

/-- A subuser begins to wait. -/
theorem Headed.seat (hs : s.Headed) (ho : s.Open fd) (hy : s.subs i = some y)
    (hc : y.client = fd)
    (ht : ∀ u x, y.user = some u → s.users u = some x → x.transport = transport)
    (hn : ¬s.Unfit fd transport (some i) y.headersSent) :
    (s.setSub i { y with state := .alive }).Headed := by
  have hwaits : ∀ e j, (s.setSub i { y with state := .alive }).Waits e j →
      j ≠ i ∧ s.Waits e j ∨ j = i ∧ e = fd := by
    rintro e j ⟨z, hz, ha, he⟩
    by_cases hj : j = i
    · subst hj
      simp only [setSub_subs, Function.update_self, Option.some.injEq] at hz
      rw [← hz] at he
      exact .inr ⟨rfl, he.symm.trans hc⟩
    · exact .inl ⟨hj, z, by simpa [hj] using hz, ha, he⟩
  have hanswers : ∀ e j b, (s.setSub i { y with state := .alive }).Answers e j b →
      j ≠ i ∧ s.Answers e j b ∨
        j = i ∧ e = fd ∧ b = y.headersSent ∧ hasHeaders transport = true := by
    rintro e j b ⟨z, u, x, hz, ha, he, hsent, hu, hx, hh⟩
    by_cases hj : j = i
    · subst hj
      simp only [setSub_subs, Function.update_self, Option.some.injEq] at hz
      rw [← hz] at he hsent hu
      exact .inr ⟨rfl, he.symm.trans hc, hsent.symm, ht u x hu hx ▸ hh⟩
    · exact .inl ⟨hj, z, u, x, by simpa [hj] using hz, ha, he, hsent, hu, hx, hh⟩
  refine ⟨hs.slots, hs.once, fun e j b hj => ?_, fun e j k b hj hk => ?_, fun e j b hj => ?_⟩
  · obtain ⟨-, hj⟩ | ⟨-, rfl, -⟩ := hanswers e j b hj
    · exact hs.opened e j b hj
    · exact ho
  · obtain ⟨hji, hj₀⟩ | ⟨rfl, rfl, -, hh⟩ := hanswers e j b hj
    · obtain ⟨-, hk₀⟩ | ⟨rfl, rfl⟩ := hwaits e k hk
      · exact hs.alone e j k b hj₀ hk₀
      · exact absurd (.inr ⟨j, fun h => hji (Option.some.inj h).symm, hj₀.waits, .inr ⟨b, hj₀⟩⟩) hn
    · obtain ⟨hki, hk₀⟩ | ⟨rfl, -⟩ := hwaits e k hk
      · exact absurd (.inr ⟨k, fun h => hki (Option.some.inj h).symm, hk₀, .inl hh⟩) hn
      · rfl
  · obtain ⟨-, hj⟩ | ⟨-, rfl, rfl, hh⟩ := hanswers e j b hj
    · exact hs.fits e j b hj
    · by_contra hfits
      exact hn (.inl ⟨hh, hfits⟩)

/-- The other users keep their transports. -/
theorem allocUser_others {client : Fd} {host ip : Bytes} {v : UserId} {x' : User}
    (h : s.allocUser client host ip = .ok (u, t)) (hv : v ≠ u) (hx' : t.users v = some x') :
    ∃ x, s.users v = some x ∧ x'.transport = x.transport := by
  obtain ⟨t₀, o, ha, ht⟩ := allocUser_spec h
  have hx₀ : t₀.users v = some x' := by
    obtain ⟨-, rfl⟩ | ⟨x₁, z, -, -, -, -, -, rfl⟩ := addsubuser_spec ht
    · exact hx'
    · simpa [hv] using hx'
  have hsame := ha.others v hv
  rw [hx₀] at hsame
  obtain ⟨x, hx, he⟩ := Option.map_eq_some_iff.mp hsame.symm
  exact ⟨x, hx, (congrArg User.transport he).symm⟩

theorem allocUser_subuser {client : Fd} {host ip : Bytes}
    (h : s.allocUser client host ip = .ok (u, t)) (hx : t.users u = some x)
    (hi : x.subuser.head? = some i) : x.subuser = [i] := by
  obtain ⟨t₀, o, ha, ht⟩ := allocUser_spec h
  obtain ⟨x₀, hx₀, hnil⟩ := ha.alone
  obtain ⟨-, rfl⟩ | ⟨x₁, z, hx₁, -, -, -, -, rfl⟩ := addsubuser_spec ht
  · obtain rfl := Option.some.inj (hx₀.symm.trans hx)
    rw [hnil] at hi
    cases hi
  · obtain rfl := Option.some.inj (hx₀.symm.trans hx₁)
    simp only [setSub_users, setUser_users, Function.update_self, Option.some.injEq] at hx
    rw [← hx, hnil] at hi ⊢
    rw [Option.some.inj hi]

/-- A new user and its subuser, where nobody waits who is of that user. -/
theorem allocUser_mute {client : Fd} {host ip : Bytes}
    (h : s.allocUser client host ip = .ok (u, t)) (hx : t.users u = some x)
    (hi : x.subuser.head? = some i)
    (hn : ∀ j z, t.subs j = some z → z.state = .alive → z.user ≠ some u) :
    Mute s (t.setUser u { x with transport := transport }) := by
  obtain ⟨hco, -⟩ := allocUser_head h hx hi
  refine .of_co hco ?_ ?_
  · rintro e j ⟨z, hz, ha, hc⟩
    exact ⟨z, (allocUser_alive h hx hi hz ha).2, ha, hc⟩
  · rintro e j b ⟨z, v, x', hz, ha, hc, hsent, hv, hx', hh⟩
    have hvu : v ≠ u := by
      rintro rfl
      exact hn j z hz ha hv
    simp only [setUser_users, ne_eq, hvu, not_false_eq_true, Function.update_of_ne] at hx'
    obtain ⟨x₁, hx₁, ht⟩ := allocUser_others h hvu hx'
    exact ⟨z, v, x₁, (allocUser_alive h hx hi hz ha).2, ha, hc, hsent, hv, hx₁, ht ▸ hh⟩

/-! ### Commands -/

/-- `CONNECT` puts its new subuser on a connection that is not fit for it, or another command
the one it is run with, or that one's flag is reset after its header block was sent. -/
def SpoilsStream (s : Ape) (cmd : Bytes) (pc : Pc) : Prop :=
  if isConnect cmd then
    (∃ y, s.TurnsAway pc y) ∨ s.Unfit pc.client pc.transport none false
  else if isQuit cmd then False
  else
    (∃ y, s.TurnsAway pc y ∧ y.headersSent = true) ∨
      ∃ u x o b, pc.guser = some u ∧ pc.sub = none ∧ s.users u = some x ∧
        s.getsubuser u pc.host = .ok o ∧ s.Arrives pc x.transport o b ∧
        s.Unfit pc.client x.transport o b

/-- The subuser that a command takes up begins to wait. -/
theorem took_headed {o : Opened} (hwork : AtWork fd pc iuser s) (hs : s.Headed) (ho : s.Open fd)
    (hq : isQuit cmd = false) (hc : isConnect cmd = false) (hn : ¬s.SpoilsStream cmd pc)
    (hu : pc.guser = some u) (h : s.cmdSub pc = .ok o) (hi : o.sub = some i)
    (hlevel : Level o.state t) (hy : t.subs i = some y) :
    (t.setSub i { y with state := .alive }).Headed ∧ t.Open fd := by
  simp only [SpoilsStream, hq, hc, Bool.false_eq_true, if_false, not_or, not_exists, not_and] at hn
  obtain ⟨hturns, harrives⟩ := hn
  have hopened : Mute s o.state := by
    refine cmdSub_mute hs (hwork.client ▸ ho) (fun y hy => ?_) h
    rw [← Bool.not_eq_true]
    exact hturns y hy
  have hmute := hopened.trans (.of_level hlevel)
  have ht := hmute.headed hs
  refine ⟨?_, hmute.open ho⟩
  obtain ⟨y₀, hy₀, hcase⟩ := cmdSub_arrives hwork hu h hi
  obtain ⟨y₁, hy₁, hline, hp⟩ := hlevel.sub hy₀
  obtain rfl := Option.some.inj (hy.symm.trans hy₁)
  rcases hcase with ha | ⟨hcl, hsub, x, found, hx, hget, hfound, harr, htransport⟩
  · refine (Mute.setSub fun _ => ?_).headed ht
    exact ⟨y, hy, (congrArg Line.state hline).trans ha, rfl, rfl, rfl⟩
  · have hclient := (congrArg Line.client hline).trans (hcl.trans hwork.client)
    have hsame : ∀ v x₁, y.user = some v → t.users v = some x₁ → x₁.transport = x.transport := by
      intro v x₁ hv hx₁
      obtain ⟨xo, hxo, hstation⟩ := hlevel.user_back hx₁
      have huser := (congrArg Line.user hline).symm.trans hv
      exact (congrArg Station.transport hstation).trans (htransport v xo huser hxo)
    refine ht.seat (hmute.open ho) hy hclient hsame fun hunfit => ?_
    rw [show y.headersSent = y₀.headersSent from congrArg Progress.headersSent hp,
      ← hwork.client] at hunfit
    refine harrives u x found y₀.headersSent hu hsub hx hget harr ?_
    rcases hfound with rfl | rfl
    · exact (hmute.unfit hunfit).none
    · exact hmute.unfit hunfit

/-- The subuser of a new user begins to wait. -/
theorem admitted_headed {o : Opened} {t₁ : Ape} (hwork : AtWork fd pc iuser s) (hs : s.Headed)
    (ho : s.Open fd) (hc : isConnect cmd = true) (hn : ¬s.SpoilsStream cmd pc)
    (h : s.cmdSub pc = .ok o) (hlevel : Level o.state t)
    (halloc : t.allocUser (o.client.getD pc.client) pc.host pc.ip = .ok (u, t₁))
    (hx : t₁.users u = some x) (hi : x.subuser.head? = some i)
    (hlast : Level (t₁.setUser u { x with transport := pc.transport }) s')
    (hy : s'.subs i = some y) (hsound : (s'.setSub i { y with state := .alive }).roster.Sound) :
    (s'.setSub i { y with state := .alive }).Headed ∧ s'.Open fd := by
  rw [SpoilsStream, if_pos hc, not_or, not_exists] at hn
  obtain ⟨hturns, hfit⟩ := hn
  obtain ⟨-, -, y₀, hy₀, he⟩ := allocUser_head halloc hx hi
  have hone : ∀ x', s'.users u = some x' → x'.subuser = [i] ∧ x'.transport = pc.transport := by
    intro x' hx'
    obtain ⟨xo, hxo, hstation⟩ := hlast.user_back hx'
    simp only [setUser_users, Function.update_self, Option.some.injEq] at hxo
    subst hxo
    exact ⟨(congrArg Station.subuser hstation).trans (allocUser_subuser halloc hx hi),
      congrArg Station.transport hstation⟩
  have hnobody : ∀ j z, t₁.subs j = some z → z.state = .alive → z.user ≠ some u := by
    intro j z hz ha hu
    have hj := (allocUser_alive halloc hx hi hz ha).1
    obtain ⟨z', hz', hline, -⟩ := hlast.sub hz
    have hz'' : (s'.setSub i { y with state := .alive }).subs j = some z' := by simpa [hj] using hz'
    have hu' := (congrArg Line.user hline).trans hu
    obtain ⟨x', hx', hmem⟩ := own_user hsound.wf.owned hz'' hu'
    rw [(hone x' hx').1] at hmem
    exact hj (List.mem_singleton.mp hmem)
  have hopened := cmdSub_mute hs (hwork.client ▸ ho) (fun y hy => absurd hy (hturns y)) h
  have hmute : Mute s s' := (hopened.trans (.of_level hlevel)).trans
    ((allocUser_mute halloc hx hi hnobody).trans (.of_level hlast))
  refine ⟨?_, hmute.open ho⟩
  obtain ⟨y₁, hy₁, hline, hp⟩ := hlast.sub hy₀
  obtain rfl := Option.some.inj (hy.symm.trans hy₁)
  have hclient : y.client = fd := by
    have hc₀ : y₀.client = o.client.getD pc.client := congrArg Subuser.client he
    have hhere := (cmdSub_here hturns h).2
    exact (congrArg Line.client hline).trans (hc₀.trans (hhere.trans hwork.client))
  have hsame : ∀ v x', y.user = some v → s'.users v = some x' → x'.transport = pc.transport := by
    intro v x' hv hx'
    have huser : y.user = some u := (congrArg Line.user hline).trans (congrArg Subuser.user he)
    obtain rfl := Option.some.inj (huser.symm.trans hv)
    exact (hone x' hx').2
  refine (hmute.headed hs).seat (hmute.open ho) hy hclient hsame fun hunfit => ?_
  have hfresh : y₀.headersSent = false := congrArg Subuser.headersSent he
  rw [show y.headersSent = false from (congrArg Progress.headersSent hp).trans hfresh,
    ← hwork.client] at hunfit
  exact hfit (hmute.unfit hunfit).none

theorem headed_upheld (domain : Bool) (fd : Fd) : Upheld domain
    (fun _ cmd pc t => ¬t.SpoilsStream cmd pc)
    (fun pc iuser s => AtWork fd pc iuser s ∧ s.Headed ∧ s.Open fd) (fun _ s => s.Headed) where
  done h := h.2.1
  level h hl := (Mute.of_level hl).headed h
  cmd := by
    intro ijson cmd pc guser iuser s d h hspoils hd
    obtain ⟨hwork, hhead, hopen⟩ := h
    have hs := (execCmd_sound hwork.sound hd).1
    have hwork' : AtWork fd { pc with guser := guser } iuser s :=
      ⟨hwork.sound, hwork.client, hwork.sub, hwork.waits⟩
    have hopen' : s.Open ({ pc with guser := guser } : Pc).client := by
      rw [hwork'.client]
      exact hopen
    obtain ⟨o, t, ho, hlevel, hends⟩ := execCmd_ends hd
    cases hends with
    | stopped hnone hl hret hiuser =>
      have hsame : Mute s o.state := by
        refine cmdSub_mute hhead hopen' ?_ ho
        rintro y ⟨u, -, -, hu, -⟩
        rw [hnone] at hu
        cases hu
      exact .inr ⟨hret, ((hsame.trans (.of_level hlevel)).trans (.of_level hl)).headed hhead⟩
    | quit hq hu hl hdel hlast hret hiuser =>
      exact .inr ⟨hret, (cmdSub_quit hhead hopen' ho (hlevel.trans hl) hu hdel hlast).headed hhead⟩
    | took hq hc hu hi hl hy hstate hiuser hpc =>
      refine .inl ⟨hwork.next ho hs hstate hiuser (by rw [hpc]; exact ⟨rfl, rfl⟩), ?_⟩
      rw [hstate]
      exact took_headed hwork' hhead hopen hq hc hspoils hu ho hi (hlevel.trans hl) hy
    | admitted hc halloc hx hi hl hy hstate hiuser hpc =>
      refine .inl ⟨hwork.next ho hs hstate hiuser (by rw [hpc]; exact ⟨rfl, rfl⟩), ?_⟩
      rw [hstate]
      exact admitted_headed hwork' hhead hopen hc hspoils ho hlevel halloc hx hi hl hy (hstate ▸ hs)

/-! ### Events -/

/-- No command spoils a response, and a connection that goes down is attached to the subuser
that waits there for a response over HTTP. -/
def KeepsStreams (domain : Bool) (s : Ape) (e : Event) : Prop :=
  (∀ ijson cmd pc t, Commands (.plain domain) s e ijson cmd pc t → ¬t.SpoilsStream cmd pc) ∧
  match e with
  | .disconnect fd => ∀ i b, s.Answers fd i b → (s.co fd).attach = some i
  | _ => True

theorem apeSent_mute (h : s.apeSent fd = .ok s') : Mute s s' := by
  unfold apeSent at h
  split at h
  · cases h
    exact .refl
  · obtain ⟨y, -, h⟩ := bind_ok h
    split at h
    · obtain ⟨t, ht, h⟩ := bind_ok h
      obtain ⟨y', hy', h⟩ := bind_ok h
      cases h
      have hmute : Mute s t := by
        unfold completeFor at ht
        split at ht
        · obtain ⟨x, -, ht⟩ := bind_ok ht
          exact transportDataCompletlySent_mute ht
        · cases ht
          exact .refl
      exact hmute.trans (.setSub fun ha => ⟨y', sub_ok hy', ha, rfl, rfl, rfl⟩)
    · cases h
      exact .refl

theorem drained_mute : Mute s (s.setCo fd { s.co fd with bufout := false }) := by
  refine ⟨fun e => ?_, fun e => ⟨[], ?_, nofun⟩, fun e hu => ?_, fun _ _ h => h, fun _ _ _ h => h⟩
  · by_cases he : e = fd <;> simp [he]
  · by_cases he : e = fd <;> simp [he]
  · refine ⟨hu.1, ?_⟩
    by_cases he : e = fd
    · subst he
      simpa using hu.2.1
    · simpa [he] using hu.2

theorem supersede_mute {tmp sub : Option SubId} (h : s.supersede tmp sub = .ok s') : Mute s s' := by
  unfold supersede at h
  split at h
  · split at h
    · obtain ⟨y, -, h⟩ := bind_ok h
      cases h
      exact .setSub fun ha => by cases ha
    · cases h
      exact .refl
  · cases h
    exact .refl

/-- Only the connection `fd` changes: nothing was written there, and nobody answers there. -/
theorem Headed.except (hs : s.Headed) (fd : Fd) (hfd : (s'.co fd).fd = fd ∨ (s'.co fd).fd = 0)
    (hout : (s'.co fd).out = []) (hco : ∀ e, e ≠ fd → s'.co e = s.co e)
    (hw : ∀ e i, s'.Waits e i → s.Waits e i)
    (ha : ∀ e i b, s'.Answers e i b → e ≠ fd ∧ s.Answers e i b) : s'.Headed := by
  refine ⟨fun e => ?_, fun e => ?_, fun e i b hi => ?_, fun e i j b hi hj => ?_, fun e i b hi => ?_⟩
  · by_cases he : e = fd
    · rw [he]
      exact hfd
    · rw [hco e he]
      exact hs.slots e
  · by_cases he : e = fd
    · rw [he, hout]
      exact ⟨Nat.zero_le _, fun l r low high h => by simp at h⟩
    · rw [hco e he]
      exact hs.once e
  · obtain ⟨he, hi⟩ := ha e i b hi
    obtain ⟨h0, ho⟩ := hs.opened e i b hi
    exact ⟨h0, by rw [hco e he]; exact ho⟩
  · exact hs.alone e i j b (ha e i b hi).2 (hw e j hj)
  · obtain ⟨he, hi⟩ := ha e i b hi
    have hfits := hs.fits e i b hi
    unfold Fits Unwritable at hfits ⊢
    rwa [hco e he]

theorem disconnect_headed (hs : s.Headed)
    (hself : ∀ i b, s.Answers fd i b → (s.co fd).attach = some i) (h : s.apeDisconnect fd = .ok t) :
    (t.setCo fd .closed).Headed := by
  obtain ⟨t', hcalm, -, hnone, ht⟩ := apeDisconnect_calm h
  have hmute := Mute.of_calm hcalm
  have hwaits : ∀ e i, (t.setCo fd .closed).Waits e i → t'.Waits e i := by
    intro e i hi
    rcases ht with rfl | rfl <;> exact hi
  have hanswers : ∀ e i b, (t.setCo fd .closed).Answers e i b → t'.Answers e i b := by
    intro e i b hi
    rcases ht with rfl | rfl <;> exact hi
  refine (hmute.headed hs).except fd (.inr ?_) ?_ (fun e he => ?_) hwaits fun e i b hi =>
    ⟨?_, hanswers e i b hi⟩
  · simp [Socket.closed]
  · simp [Socket.closed]
  · rcases ht with rfl | rfl <;> simp [Ape.setAttach, he]
  · rintro rfl
    have hi' := hanswers e i b hi
    exact hnone i (hself i b (hmute.answers e i b hi')) hi'.waits

theorem step_headed {e : Event} (hs : s.Healthy) (hh : s.Headed) (ha : KeepsStreams domain s e)
    (h : s.step (.plain domain) e = .ok s') : s'.Headed := by
  obtain ⟨hcmd, hcase⟩ := ha
  cases e with
  | accept fd ip =>
    simp only [step] at h
    split at h
    · next hc =>
      cases h
      refine hh.except fd (.inl (by simp)) (by simp [Socket.closed]) (fun e he => by simp [he])
        (fun _ _ h => h) fun e i b hi => ⟨?_, hi⟩
      rintro rfl
      obtain ⟨-, ho⟩ := hh.opened e i b hi
      exact hc.1 (ho.symm.trans hc.2)
    · cases h
  | request fd r =>
    simp only [step] at h
    split at h
    · next ho =>
      obtain ⟨iuser, t, hF, rfl⟩ := (headed_upheld domain fd).request
        (fun _ _ _ => ⟨.start hs.sound, hh, ho.1⟩) (hcmd _ _ _ _) h
      exact (Mute.setAttach iuser).headed hF
    · cases h
  | message fd objects =>
    simp only [step] at h
    split at h
    · next transport host hparser =>
      split at h
      · next ho =>
        obtain ⟨iuser, t, hF, hsup⟩ := (headed_upheld domain fd).message hparser
          ⟨.start hs.sound, hh, ho⟩ (hcmd _ _ _ _) h
        exact ((Mute.setAttach iuser).trans (supersede_mute hsup)).headed hF
      · cases h
    · cases h
  | sent fd =>
    simp only [step] at h
    split at h
    · obtain ⟨t, ht, h⟩ := bind_ok h
      cases h
      have hmute := drained_mute.trans (apeSent_mute ht)
      split
      · exact (hmute.trans (.of_level .shutdown)).headed hh
      · exact hmute.headed hh
    · cases h
  | reset fd =>
    simp only [step] at h
    split at h
    · cases h
      exact (Mute.of_level .shutdown).headed hh
    · cases h
  | disconnect fd =>
    simp only [step] at h
    split at h
    · obtain ⟨t, ht, h⟩ := bind_ok h
      cases h
      exact disconnect_headed hh hcase ht
    · cases h
  | tick => exact checkTimeout_headed hh h
  | clock time =>
    cases h
    have hsame : Mute s { s with time := time } := .of_co rfl (fun _ _ h => h) fun _ _ _ h => h
    exact hsame.headed hh

/-- In every run that spoils no response a connection gets one header block at most and no
body before it, and each body of a response over HTTP goes out behind one. -/
theorem headers_once {rand : List (List.Vector (Fin 16) 32)} {io : ℕ → Bool} {time : ℤ}
    (h : Reach (step (.plain domain)) (KeepsStreams domain) (init rand io time) s) :
    (∀ fd, HeadedOnce (s.co fd).out) ∧
    ∀ u i t y v x b t', Rounds s.fresh s.uHead s u (some i) t → t.subs i = some y →
      t.Sendable y → y.user = some v → t.users v = some x → hasHeaders x.transport = true →
      t.sendRaws i = .ok (b, t') →
        t.Unwritable (t.co y.client).fd ∨ .headers ∈ (t'.co (t.co y.client).fd).out := by
  have hboth : s.Healthy ∧ s.Headed := by
    refine h.keeps (fun s => s.Healthy ∧ s.Headed) ⟨init_healthy rand io time, ?_⟩
      fun _ _ _ ⟨hs, hh⟩ ha hl => ⟨step_healthy hs hl, step_headed hs hh ha hl⟩
    have hnone : ∀ e i, ¬(init rand io time).Waits e i := by
      rintro e i ⟨y, hy, -⟩
      cases hy
    refine ⟨fun e => .inr rfl, fun e => ⟨Nat.zero_le _, fun l r low high h => ?_⟩,
      fun e i b hi => (hnone e i hi.waits).elim, fun e i j b hi => (hnone e i hi.waits).elim,
      fun e i b hi => (hnone e i hi.waits).elim⟩
    simp [init, Socket.closed] at h
  refine ⟨hboth.2.once, fun u i t y v x b t' hr hy hsend hv hx hh hraws => ?_⟩
  have ht : t.Headed := hr.keeps
    (fun _ _ _ ht hdel => (Mute.of_calm (deluser_calm hdel).1).headed ht)
    (fun _ _ _ _ ht hsub => tickSub_headed ht hsub) hboth.2
  exact (sendRaws_led ht hy hsend.2.1 hsend.2.2.1 hv hx hh hraws).imp_left And.left

theorem connect_keeps {s₀ : Ape} {uri : String} (hsubs : s₀.subs = fun _ => none)
    (hout : (s₀.co 5).out = []) : KeepsStreams domain s₀ (httpRequest 5 uri [connectObject]) := by
  refine ⟨fun ijson cmd pc t hc hspoils => ?_, trivial⟩
  obtain ⟨hmem, hcmd⟩ := Commands.object hc
  rw [List.mem_singleton.mp hmem] at hcmd
  obtain ⟨host, uri', objects, hhost, huri, hdata, hws, htakes⟩ := hc
  cases hdata
  cases hcmd
  cases htakes with
  | first =>
    rw [SpoilsStream, if_pos (by decide)] at hspoils
    obtain ⟨y, u, x, i, hu, -⟩ | ⟨-, hfits⟩ | ⟨j, -, ⟨y, hy, -⟩, -⟩ := hspoils
    · cases hu
    · refine hfits (.inr fun w hw => ?_)
      replace hw : w ∈ (s₀.co 5).out := hw
      rw [hout] at hw
      cases hw
    · rw [hsubs] at hy
      cases hy
  | later _ _ _ hrest => cases hrest

/-- A stream, and what is queued for it sent. -/
def stream : List Event :=
  [.accept 5 (bytes "1.1.1.1"), httpRequest 5 "/1/" [connectObject], .tick]

theorem headers_once_stream : ∃ s, Steps.runs (step (.plain true)) (fun _ _ => True)
    (init sixteenDraws (fun _ => true) 0) stream = some s ∧
      (s.co 5).out.countP Written.isHeaders = 1 ∧ ∀ fd, HeadedOnce (s.co fd).out := by
  have h : ((Steps.runs (step (.plain true)) (fun _ _ => True)
      (init sixteenDraws (fun _ => true) 0) stream).map fun s =>
        (s.co 5).out.countP Written.isHeaders) = some 1 := by decide +kernel
  obtain ⟨s, hs, h⟩ := Option.map_eq_some_iff.mp h
  have hreach : Reach (step (.plain true)) (KeepsStreams true)
      (init sixteenDraws (fun _ => true) 0) s := by
    have hs' := hs
    simp only [stream, Steps.runs, if_true] at hs'
    split at hs'
    · next s₁ h₁ =>
      split at hs'
      · next s₂ h₂ =>
        split at hs'
        · next s₃ h₃ =>
          cases hs'
          have haccept : KeepsStreams true (init sixteenDraws (fun _ => true) 0)
              (.accept 5 (bytes "1.1.1.1")) := ⟨fun _ _ _ _ h => h.elim, trivial⟩
          have htick : KeepsStreams true s₂ .tick := ⟨fun _ _ _ _ h => h.elim, trivial⟩
          refine .step (.step (.step .start haccept h₁) (connect_keeps ?_ ?_) h₂) htick h₃
          · cases h₁
            rfl
          · cases h₁
            rfl
        · cases hs'
      · cases hs'
    · cases hs'
  exact ⟨s, hs, h, (headers_once hreach).1⟩

/-- A command over a second connection, and what it queued for the stream sent. -/
def secondConnection : List Event :=
  stream ++ [.accept 6 (bytes "1.1.1.1"),
    httpRequest 6 "/1/" [commandObject (bytes "JOIN") (List.replicate 32 97)], .tick]

theorem headers_twice : ¬∀ s, Reach (step (.plain true)) (fun _ _ => True)
    (init sixteenDraws (fun _ => true) 0) s → ∀ fd, HeadedOnce (s.co fd).out := by
  intro hall
  have h : ((Steps.runs (step (.plain true)) (fun _ _ => True)
      (init sixteenDraws (fun _ => true) 0) secondConnection).map fun s =>
        (s.co 5).out.countP Written.isHeaders) = some 2 := by decide +kernel
  obtain ⟨s, hs, h⟩ := Option.map_eq_some_iff.mp h
  have honce := (hall s (.of_runs .start hs) 5).once
  rw [h] at honce
  exact absurd honce (by decide)

end Ape

end ApeServer
