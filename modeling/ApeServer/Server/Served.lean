import ApeServer.Server.PipePosts
import ApeServer.Server.Requests

/-!
# The subuser of a command

`process_cmd` follows the subuser of its user without asking whether there is one. There is
one whenever the host of the request fits in the record of a subuser.
-/
namespace ApeServer

open Sock (Bytes)
open Steps (ok_bind bind_ok foldlM_completes StopsFor Reach)

/-- No NULL subuser and no freed record was used. -/
def Halt.Fair (e : Halt) : Prop := e ≠ .nosub ∧ e ≠ .freed

/-- The step completes, or stops for another reason than a subuser that is not there. -/
abbrev Served {α : Type} (x : Except Halt α) : Prop := StopsFor Halt.Fair x

theorem NoFault.served {α : Type} {x : Except Halt α} (h : NoFault x) : Served x := by
  intro e he
  rw [h e he]
  exact ⟨by decide, by decide⟩

namespace Ape

variable {s s' t : Ape} {u v : UserId} {i : SubId} {c : ChanId} {x : User} {y : Subuser}
  {pc pc' : Pc} {cp : Callbackp} {flag : UInt32} {domain : Bool} {cmd host : Bytes}
  {ijson : JsonItem} {iuser : Option SubId}

/-- `i` is a live subuser of the live user `u`. -/
def Owns (s : Ape) (u : UserId) (i : SubId) : Prop :=
  ∃ x y, s.users u = some x ∧ i ∈ x.subuser ∧ s.subs i = some y ∧ y.user = some u

namespace Owns

theorem of_mem (h : s.roster.Wf) (hx : s.users u = some x) (hi : i ∈ x.subuser) : s.Owns u i := by
  obtain ⟨y, hy, hu⟩ := own_live h.owned hx hi
  exact ⟨x, y, hx, hi, hy, hu⟩

theorem user (h : s.Owns u i) : ∃ x, s.users u = some x := by
  obtain ⟨x, -, hx, -⟩ := h
  exact ⟨x, hx⟩

theorem sub (h : s.Owns u i) : ∃ y, s.subs i = some y := by
  obtain ⟨-, y, -, -, hy, -⟩ := h
  exact ⟨y, hy⟩

/-- Who owns which subuser depends on the lists and on the way back only. -/
theorem congr (h : s.Owns u i) (hu : (s'.users u).map User.subuser = (s.users u).map User.subuser)
    (hs : (s'.subs i).map Subuser.user = (s.subs i).map Subuser.user) : s'.Owns u i := by
  obtain ⟨x, y, hx, hi, hy, ho⟩ := h
  rw [hx] at hu
  rw [hy] at hs
  obtain ⟨x', hx', hl⟩ := Option.map_eq_some_iff.mp hu
  obtain ⟨y', hy', hb⟩ := Option.map_eq_some_iff.mp hs
  exact ⟨x', y', hx', by rw [hl]; exact hi, hy', hb.trans ho⟩

theorem still (h : s.Owns u i) (hq : Still s s') : s'.Owns u i := by
  have hu := congrArg (Option.map Seat.subuser) (hq.users u)
  have hs := congrArg (Option.map Line.user) (hq.subs i)
  rw [Option.map_map, Option.map_map] at hu hs
  exact h.congr hu hs

theorem minor (h : s.Owns u i) (hm : Minor s s') : s'.Owns u i := h.still hm.toQuiet.still

theorem even (h : s.Owns u i) (he : Even s s') : s'.Owns u i := by
  have hu := congrArg (Option.map Station.subuser) (he.users u)
  have hs := congrArg (Option.map Line.user) (he.subs i)
  rw [Option.map_map, Option.map_map] at hu hs
  exact h.congr hu hs

theorem setSub (y' : Subuser) (h : s.Owns u i) (hy : s.subs i = some y) (hu : y'.user = y.user) :
    (s.setSub i y').Owns u i := by
  refine h.congr rfl ?_
  simp [hy, hu]

end Owns

/-! ### Finding the subuser -/

/-- The users of a request are found by their sessid, so they are live. -/
theorem seekUserId_live {sessid : Bytes} (h : s.roster.Sound) (hu : s.seekUserId sessid = some u) :
    ∃ x, s.users u = some x := by
  unfold seekUserId at hu
  split at hu
  · cases hu
  · obtain ⟨n, hn, -⟩ := (h.reg.sessid sessid u).mp hu
    cases hx : s.users u with
    | none => simp [Roster.sessKey, roster, hx] at hn
    | some x => exact ⟨x, rfl⟩

theorem restorObject_completes {z : Channel} (h : s.roster.Wf) (hz : s.chans c = some z) :
    ∃ j, s.restorObject z = .ok j := by
  unfold restorObject
  split
  · obtain ⟨j, hj⟩ := channelUsers_completes (s := s) (l := z.head) fun m hm => by
      obtain ⟨x, hx, -⟩ := member_live h hz (List.mem_map_of_mem hm)
      simp [hx]
    exact ⟨_, by rw [hj]; rfl⟩
  · exact ⟨_, rfl⟩

theorem Posted.sub (h : Posted s s') (hy : s.subs i = some y) : ∃ y', s'.subs i = some y' := by
  have hs := h.subs i
  rw [hy] at hs
  obtain ⟨y', hy', -⟩ := Option.map_eq_some_iff.mp hs
  exact ⟨y', hy'⟩

theorem postRawSub_completes (raw : RawMsg) (hy : s.subs i = some y) :
    ∃ s', s.postRawSub raw i = .ok s' := ⟨_, postRawSub_eq hy⟩

theorem subuserRestor_completes (h : s.roster.Wf) (ho : s.Owns u i) :
    ∃ s', s.subuserRestor i = .ok s' := by
  obtain ⟨x, y, hx, -, hy, hu⟩ := ho
  obtain ⟨t, ht, hp⟩ := foldlM_completes (Posted s)
    (f := fun s c => do
      let jlist ← s.restorObject (← s.chan c)
      s.postRawSub { s.forgeRaw (bytes "CHANNEL") jlist with priority := .hi } i)
    (l := x.chan_foot) (s := s) (fun t c hc hp => by
      obtain ⟨z, hz, -⟩ := foot_live h hx hc
      have hz' : t.chans c = some z := by rw [hp.chans]; exact hz
      have hwf : t.roster.Wf := by rw [hp.roster]; exact h
      obtain ⟨y', hy'⟩ := hp.sub hy
      obtain ⟨j, hj⟩ := restorObject_completes hwf hz'
      obtain ⟨t', ht'⟩ :=
        postRawSub_completes { t.forgeRaw (bytes "CHANNEL") j with priority := .hi } hy'
      exact ⟨t', by simp only [chan_eq hz', ok_bind, hj, ht'],
        hp.trans (postRawSub_posted ht')⟩) .refl
  obtain ⟨y', hy'⟩ := hp.sub hy
  obtain ⟨s', hs'⟩ := postRawSub_completes { t.forgeRaw (bytes "IDENT")
    (JsonItem.newObject.setObj (bytes "user") (getJsonObjectUser x)) with priority := .hi } hy'
  exact ⟨s', by simp only [subuserRestor, sub_eq hy, ok_bind, deref_eq hu, user_eq hx, ht, hs']⟩

theorem getsubuser_noFault {channel : Bytes} (h : s.roster.Wf) (hx : s.users u = some x) :
    NoFault (s.getsubuser u channel) := by
  simp only [getsubuser, user_eq hx, ok_bind]
  refine findSub_noFault fun i hi => ?_
  obtain ⟨y, hy, -⟩ := own_live h.owned hx hi
  simp [hy]

/-- `addsubuser` refuses a host that the user has a subuser for, and one that is too long. -/
theorem addsubuser_some {client : Fd} {channel : Bytes} {o : Option SubId}
    (hg : s.getsubuser u channel = .ok none) (hh : channel.length ≤ maxHostLength)
    (h : s.addsubuser client channel u = .ok (o, s')) : ∃ i, o = some i ∧ s'.Owns u i := by
  obtain ⟨o', ho', h⟩ := bind_ok h
  rw [hg] at ho'
  cases ho'
  rw [if_neg (by simpa using hh)] at h
  obtain ⟨x, hx, h⟩ := bind_ok h
  obtain ⟨low, -, h⟩ := bind_ok h
  cases h
  refine ⟨_, rfl, { x with nsub := x.nsub + 1, subuser := s.fresh :: x.subuser }, _, ?_,
    List.mem_cons_self, Function.update_self .., ?_⟩
  · exact Function.update_self ..
  · exact congrArg Subuser.user (foldl_push_unqueued low (s.newSub client channel u))

theorem findOrOpen_served (hs : s.roster.Sound) (hx : s.users u = some x)
    (hh : pc.host.length ≤ maxHostLength) : Served (s.findOrOpen u x pc) := by
  refine .bind (getsubuser_noFault hs.wf hx).served fun o ho => ?_
  cases o with
  | some i =>
    obtain ⟨x', y, -, -, hy, -⟩ := getsubuser_some ho
    simp only [sub_eq hy, ok_bind]
    split
    · exact .ok _
    · exact .ok _
  | none =>
    refine .bind (addsubuser_noFault hs.wf hx).served fun r hr => ?_
    obtain ⟨o, t⟩ := r
    obtain ⟨i, rfl, hown⟩ := addsubuser_some ho hh hr
    obtain ⟨t', ht'⟩ := subuserRestor_completes (addsubuser_wf hs.wf hr) hown
    simp only [ht']
    exact .ok _

/-- The subuser is there, found or new. -/
theorem findOrOpen_owns {o : Opened} (hs : s.roster.Wf) (hx : s.users u = some x)
    (hh : pc.host.length ≤ maxHostLength) (h : s.findOrOpen u x pc = .ok o) :
    ∃ i, o.sub = some i ∧ o.state.Owns u i := by
  have hsub : ∃ i, o.sub = some i := by
    obtain ⟨o₁, ho₁, h⟩ := bind_ok h
    cases o₁ with
    | some i =>
      obtain ⟨y, -, h⟩ := bind_ok h
      split at h
      · cases h
        exact ⟨i, rfl⟩
      · cases h
        exact ⟨i, rfl⟩
    | none =>
      obtain ⟨⟨o₂, t⟩, ht, h⟩ := bind_ok h
      obtain ⟨i, rfl, -⟩ := addsubuser_some ho₁ hh ht
      obtain ⟨t', -, h⟩ := bind_ok h
      cases h
      exact ⟨i, rfl⟩
  obtain ⟨i, hi⟩ := hsub
  refine ⟨i, hi, ?_⟩
  obtain ⟨w, hopens, hstill, -⟩ := findOrOpen_opens hx h hi
  refine Owns.still ?_ hstill
  cases hopens with
  | @same y r hmem hy =>
    refine (Owns.of_mem hs hx hmem).congr rfl ?_
    simp [moved, Ape.setAttach, hy]
  | @found y hmem hy => exact (Owns.of_mem hs hx hmem).setSub _ hy rfl
  | new ht =>
    obtain ⟨hnone, -⟩ | ⟨-, -, -, hg, -⟩ := addsubuser_spec ht
    · cases hnone
    · obtain ⟨j, hj, hown⟩ := addsubuser_some hg hh ht
      cases hj
      exact hown

theorem openSub_served (hs : s.roster.Sound) (hx : ∃ x, s.users u = some x)
    (hh : pc.host.length ≤ maxHostLength) : Served (s.openSub u pc) := by
  obtain ⟨x, hx⟩ := hx
  simp only [openSub, user_eq hx, ok_bind]
  refine .bind (findOrOpen_served hs hx hh) fun o ho => ?_
  obtain ⟨i, hi, hown⟩ := findOrOpen_owns hs.wf hx hh ho
  obtain ⟨x', hx'⟩ := hown.user
  obtain ⟨y, hy⟩ := hown.sub
  have hy' : (o.state.setUser u { x' with idle := o.state.time }).subs i = some y := hy
  simp only [user_eq hx', ok_bind, useSub_eq hi, sub_eq hy']
  exact .ok _

theorem openSub_owns {o : Opened} (hs : s.roster.Wf) (hh : pc.host.length ≤ maxHostLength)
    (h : s.openSub u pc = .ok o) : ∃ i, o.sub = some i ∧ o.state.Owns u i := by
  obtain ⟨x, hx, h⟩ := bind_ok h
  obtain ⟨o', ho', h⟩ := bind_ok h
  obtain ⟨x', hx', h⟩ := bind_ok h
  obtain ⟨i, hi, h⟩ := bind_ok h
  obtain ⟨y, hy, h⟩ := bind_ok h
  replace hi := useSub_ok hi
  cases h
  obtain ⟨j, hj, hown⟩ := findOrOpen_owns hs (user_ok hx) hh ho'
  rw [hi] at hj
  cases hj
  refine ⟨i, hi, Owns.still hown (.trans (.setUser_of (user_ok hx') ?_) (.setSub_of (sub_ok hy) ?_))⟩
  · rfl
  · rfl

/-- The user of a request is live, and its subuser is one of that user. -/
structure Seated (s : Ape) (pc : Pc) : Prop where
  user : ∀ u, pc.guser = some u → ∃ x, s.users u = some x
  sub : ∀ i, pc.sub = some i → ∃ u, pc.guser = some u ∧ s.Owns u i

theorem cmdSub_served (hs : s.roster.Sound) (hp : s.Seated pc)
    (hh : pc.host.length ≤ maxHostLength) : Served (s.cmdSub pc) := by
  unfold cmdSub
  split
  · next hu _ => exact openSub_served hs (hp.user _ hu) hh
  · exact .ok _

/-- A connection that is turned away is the first one its request meets. -/
theorem cmdSub_owns {o : Opened} (hs : s.roster.Wf) (hp : s.Seated pc)
    (hh : pc.host.length ≤ maxHostLength) (h : s.cmdSub pc = .ok o) :
    (∀ u, pc.guser = some u → ∃ i, o.sub = some i ∧ o.state.Owns u i) ∧
      (pc.guser = none → o.sub = none) ∧ (o.attach = false → pc.sub = none) := by
  unfold cmdSub at h
  split at h
  · next u hu hsub =>
    refine ⟨fun v hv => ?_, fun hnone => ?_, fun _ => hsub⟩
    · rw [hu] at hv
      cases hv
      exact openSub_owns hs hh h
    · rw [hu] at hnone
      cases hnone
  · next hne =>
    cases h
    refine ⟨fun v hv => ?_, fun hnone => ?_, fun ha => by cases ha⟩
    · cases hsub : pc.sub with
      | none => exact absurd hsub (hne v hv)
      | some i =>
        obtain ⟨u, hu, hown⟩ := hp.sub i hsub
        rw [hu] at hv
        cases hv
        exact ⟨i, rfl, hown⟩
    · by_contra hsub
      obtain ⟨i, hi⟩ := Option.ne_none_iff_exists'.mp hsub
      obtain ⟨u, hu, -⟩ := hp.sub i hi
      rw [hnone] at hu
      cases hu

theorem setChl_served {guser : Option UserId} {sub : Option SubId}
    (ho : ∀ u, guser = some u → ∃ i, sub = some i ∧ s.Owns u i) :
    Served (s.setChl ijson guser sub) := by
  unfold setChl
  split
  · next u i jchl _ =>
    obtain ⟨j, hj, hown⟩ := ho u rfl
    cases hj
    obtain ⟨y, hy⟩ := hown.sub
    simp only [sub_eq hy]
    exact .ok _
  · exact .ok _

theorem chlOf_served {sub : Option SubId} (ho : ∀ i, sub = some i → ∃ u, s.Owns u i) :
    Served (s.chlOf sub) := by
  cases sub with
  | none => exact .ok _
  | some i =>
    obtain ⟨u, hown⟩ := ho i rfl
    obtain ⟨y, hy⟩ := hown.sub
    simp only [chlOf, sub_eq hy]
    exact .ok _

/-! ### `CONNECT` -/

theorem Allocated.alone (ha : Allocated s u t) : ∃ x, t.users u = some x ∧ x.subuser = [] := by
  obtain ⟨x, hx, -⟩ := ha.user
  obtain ⟨sessid, pubid, -, hr⟩ := ha.names
  have hl := roster_users hx
  rw [hr, Roster.addUser, ha.id] at hl
  simp only [Ape.roster, Function.update_self, Option.some.injEq] at hl
  exact ⟨x, hx, (congrArg UserLinks.subuser hl).symm⟩

/-- The new user has a subuser. -/
theorem allocUser_owns {client : Fd} {ip : Bytes} (hh : host.length ≤ maxHostLength)
    (h : s.allocUser client host ip = .ok (u, t)) : ∃ i, t.Owns u i := by
  obtain ⟨t₀, o, ha, ht⟩ := allocUser_spec h
  obtain ⟨x, hx, hnil⟩ := ha.alone
  have hg : t₀.getsubuser u host = .ok none := by
    simp only [getsubuser, user_eq hx, ok_bind, hnil]
    rfl
  obtain ⟨i, -, hown⟩ := addsubuser_some hg hh ht
  exact ⟨i, hown⟩

/-- The arguments of a callback name the user of the request and a subuser of it. -/
structure Ready (s : Ape) (cp : Callbackp) (pc : Pc) (sub : Option SubId) : Prop where
  user : cp.call_user = pc.guser
  subuser : cp.call_subuser = sub
  owned : ∀ u, pc.guser = some u → ∃ i, sub = some i ∧ s.Owns u i

theorem preallocate_served {sub : Option SubId} (hs : s.roster.Sound)
    (hh : cp.host.length ≤ maxHostLength) : Served (s.preallocate cp pc sub) := by
  unfold preallocate
  split
  · refine .bind (allocUser_noFault hs.wf).served fun r hr => ?_
    obtain ⟨u, t⟩ := r
    obtain ⟨i, hown⟩ := allocUser_owns hh hr
    obtain ⟨x, hx⟩ := hown.user
    simp only [user_eq hx, ok_bind]
    exact .ok _
  · exact .ok _

theorem preallocate_ready {cp' : Callbackp} {sub sub' : Option SubId} (hs : s.roster.Sound)
    (hh : cp.host.length ≤ maxHostLength) (hr : s.Ready cp pc sub)
    (h : s.preallocate cp pc sub = .ok (cp', pc', sub', t)) : t.Ready cp' pc' sub' := by
  obtain ⟨-, rfl, rfl, rfl, rfl⟩ | ⟨u, t₀, x, -, ht, hx, rfl, rfl, rfl, rfl⟩ := preallocate_cases h
  · exact hr
  · refine ⟨rfl, rfl, fun v hv => ?_⟩
    cases hv
    obtain ⟨i, x', y, hx', hi, -⟩ := allocUser_owns hh ht
    rw [hx] at hx'
    cases hx'
    cases hl : x.subuser with
    | nil =>
      rw [hl] at hi
      cases hi
    | cons j l =>
      have hown : t₀.Owns u j := .of_mem (allocUser_wf hs.wf ht) hx (by simp [hl])
      exact ⟨j, rfl, hown.congr (by simp [hx, hl]) rfl⟩

end Ape

/-- `process_cmd` up to the hooks: whether the connection will be attached, the arguments of
the callback, the request and its subuser. -/
def lookup (ijson : JsonItem) (cmd : Bytes) (pc : Pc) (s : Ape) :
    Except Halt (Bool × Callbackp × Pc × Option SubId × Ape) := do
  let o ← s.cmdSub pc
  let t ← o.state.setChl ijson pc.guser o.sub
  let chl ← t.chlOf o.sub
  let cp : Callbackp :=
    { client := o.client.getD pc.client, param := jsonLookup (bytes "params") ijson.child,
      call_user := pc.guser, call_subuser := o.sub, ip := pc.ip, host := pc.host, cmd := cmd,
      transport := pc.transport, chl := chl }
  return (o.attach, ← t.preallocate cp pc o.sub)

/-- The rest of `process_cmd`. -/
def conclude (cmds : Cmds) (ijson : JsonItem) (cmd : Bytes) (iuser : Option SubId) (before : Ape)
    (attach : Bool) (cp : Callbackp) (pc : Pc) (sub : Option SubId) (s : Ape) :
    Except Halt Done := do
  let cmdback := cmds.seek cmd
  let (flag, called, t) ← runCallback cmds cmdback cp s
  let (ret, pc, iuser, t) ← t.finishCmd cp pc sub attach iuser flag
  let call : Call :=
    { object := ijson, before := before, need := cmdback.need, call_user := cp.call_user,
      called := called, flag := flag }
  return { ret := ret, pc := pc, iuser := iuser, call := some call, state := t }

theorem execCmd_eq (cmds : Cmds) (ijson : JsonItem) (cmd : Bytes) (pc : Pc)
    (iuser : Option SubId) (s : Ape) : execCmd cmds ijson cmd pc iuser s =
      lookup ijson cmd pc s >>= fun r =>
        conclude cmds ijson cmd iuser s r.1 r.2.1 r.2.2.1 r.2.2.2.1 r.2.2.2.2 := by
  simp only [execCmd, lookup, bind_assoc]
  rfl

namespace Ape

variable {s s' t : Ape} {u v : UserId} {i : SubId} {c : ChanId} {x : User} {y : Subuser}
  {pc pc' : Pc} {cp : Callbackp} {flag : UInt32} {domain attach : Bool} {cmd : Bytes}
  {ijson : JsonItem} {sub iuser : Option SubId}

theorem lookup_served (hs : s.roster.Sound) (hp : s.Seated pc)
    (hh : pc.host.length ≤ maxHostLength) : Served (lookup ijson cmd pc s) := by
  refine .bind (cmdSub_served hs hp hh) fun o ho => ?_
  obtain ⟨hown, hnone, -⟩ := cmdSub_owns hs.wf hp hh ho
  refine .bind (setChl_served hown) fun t ht => ?_
  obtain ⟨hm, hr⟩ := setChl_spec ht
  have hst : t.roster.Sound := by
    rw [hr]
    exact cmdSub_sound hs ho
  refine .bind (chlOf_served fun i hi => ?_) fun chl _ => ?_
  · cases hu : pc.guser with
    | none =>
      rw [hnone hu] at hi
      cases hi
    | some u =>
      obtain ⟨j, hj, hown⟩ := hown u hu
      rw [hi] at hj
      cases hj
      exact ⟨u, hown.minor hm⟩
  · exact .bind (preallocate_served hst hh) fun _ _ => .ok _

/-- What holds after the user was looked up or allocated. A connection is only turned away by
the first command that finds the user. -/
structure LookedUp (cmd : Bytes) (pc : Pc) (attach : Bool) (cp : Callbackp) (pc' : Pc)
    (sub : Option SubId) (t : Ape) : Prop where
  ready : t.Ready cp pc' sub
  sound : t.roster.Sound
  attach : attach = false → pc'.sub = none
  host : pc'.host = pc.host
  guser : isConnect cmd = true ∨ pc.guser ≠ none → pc'.guser ≠ none

theorem lookup_lookedUp (hs : s.roster.Sound) (hp : s.Seated pc)
    (hh : pc.host.length ≤ maxHostLength)
    (h : lookup ijson cmd pc s = .ok (attach, cp, pc', sub, t)) :
    LookedUp cmd pc attach cp pc' sub t := by
  obtain ⟨o, ho, h⟩ := bind_ok h
  obtain ⟨t₁, ht₁, h⟩ := bind_ok h
  obtain ⟨chl, -, h⟩ := bind_ok h
  obtain ⟨r, hr, h⟩ := bind_ok h
  cases h
  obtain ⟨hown, -, hatt⟩ := cmdSub_owns hs.wf hp hh ho
  obtain ⟨hm, hroster⟩ := setChl_spec ht₁
  have hst : t₁.roster.Sound := by
    rw [hroster]
    exact cmdSub_sound hs ho
  have hready := preallocate_ready hst hh ⟨rfl, rfl, fun u hu => ?_⟩ hr
  · have hsound := preallocate_sound hst hr
    obtain ⟨hc, rfl, rfl, rfl, rfl⟩ | ⟨u, t₀, x, -, -, -, rfl, rfl, rfl, rfl⟩ := preallocate_cases hr
    · refine ⟨hready, hsound, hatt, rfl, fun h => h.resolve_left fun hconn => ?_⟩
      rw [hc] at hconn
      cases hconn
    · exact ⟨hready, hsound, hatt, rfl, by simp⟩
  · obtain ⟨i, hi, hown⟩ := hown u hu
    exact ⟨i, hi, hown.minor hm⟩

/-! ### The callbacks -/

theorem adduser_completes (hx : s.users u = some x) : ∃ t, s.adduser u = .ok t := by
  simp only [adduser, user_eq hx, ok_bind]
  exact ⟨_, rfl⟩

theorem cmdConnect_served (hs : s.roster.Sound) (hr : s.Ready cp pc sub) (hu : pc.guser ≠ none) :
    Served (cmdConnect cp s) := by
  obtain ⟨u, hu⟩ := Option.ne_none_iff_exists'.mp hu
  obtain ⟨i, hi, hown⟩ := hr.owned u hu
  obtain ⟨x, hx⟩ := hown.user
  obtain ⟨t, ht⟩ := adduser_completes hx
  have hown₁ := hown.even (adduser_even ht)
  obtain ⟨x₁, hx₁⟩ := hown₁.user
  obtain ⟨y₁, hy₁⟩ := hown₁.sub
  simp only [cmdConnect, deref_eq (hr.user.trans hu), ok_bind, ht, user_eq hx₁,
    useSub_eq (hr.subuser.trans hi)]
  refine .bind (.of_completes (postRawSub_completes _ hy₁)) fun t₁ ht₁ => ?_
  have hp := postRawSub_posted ht₁
  have hwf : t₁.roster.Wf := by
    rw [hp.roster, adduser_roster ht]
    exact hs.wf
  have hx₂ : t₁.users u = some x₁ := by rw [hp.users]; exact hx₁
  exact .bind (.of_completes ⟨_, postRaw_eq hwf.owned hx₂⟩) fun _ _ => .ok _

theorem cmdScript_served (hs : s.roster.Sound)
    (hu : ∀ u, cp.call_user = some u → ∃ x, s.users u = some x) :
    Served (cmdScript domain cp s) := by
  unfold cmdScript
  split
  · cases hcu : cp.call_user with
    | none => exact .error ⟨by decide, by decide⟩
    | some u =>
      obtain ⟨x, hx⟩ := hu u hcu
      simp only [deref_eq (o := some u) rfl, ok_bind]
      exact .bind (.of_completes (sendError_completes hs hx)) fun _ _ => .ok _
  · exact .ok _

/-- The pipe a user sees under a pubid is registered, and a channel only seen by a member. -/
theorem getPipeStrict_some {pipe : Bytes} {p : Pipe} (h : s.roster.Sound)
    (hp : s.getPipeStrict pipe x = some p) :
    s.getPipe pipe = some p ∧ s.roster.pubKey p ≠ none ∧ ∀ c, p = .channel c → c ∈ x.chan_foot := by
  have hget : s.getPipe pipe = some p ∧ ∀ c, p = .channel c → c ∈ x.chan_foot := by
    unfold getPipeStrict at hp
    split at hp
    · next c hc =>
      split at hp
      · next hon =>
        cases hp
        refine ⟨hc, fun c' he => ?_⟩
        cases he
        simpa [isonchannel] using hon
      · cases hp
    · next hne =>
      refine ⟨hp, fun c he => ?_⟩
      rw [he] at hp
      exact absurd hp (hne c)
  refine ⟨hget.1, ?_, hget.2⟩
  have hseek := hget.1
  unfold getPipe at hseek
  split at hseek
  · cases hseek
  · obtain ⟨n, hn, -⟩ := (h.reg.pubid pipe p).mp hseek
    simp [hn]

theorem postToPipe_completes {rawname pipe : Bytes} {jlist : JsonItem} (hs : s.roster.Sound)
    (ho : s.Owns u i) : ∃ r, s.postToPipe jlist rawname pipe i = .ok r := by
  obtain ⟨x, y, hx, hi, hy, hu⟩ := ho
  cases hp : s.getPipeStrict pipe x with
  | none =>
    obtain ⟨s', hs', -⟩ := postToPipe_refused hs hy hu hx hp
    exact ⟨_, hs'⟩
  | some p =>
    obtain ⟨hget, hkey, hfoot⟩ := getPipeStrict_some hs hp
    cases p with
    | user v =>
      have hlive : s.users v ≠ none := fun hnone => hkey (by simp [Roster.pubKey, roster, hnone])
      obtain ⟨xv, hxv⟩ := Option.ne_none_iff_exists'.mp hlive
      have hj : ∃ j, s.getJsonObjectPipe (.user v) = .ok (some j) :=
        ⟨_, by simp only [getJsonObjectPipe, user_eq hxv, ok_bind]; rfl⟩
      obtain ⟨j, hj⟩ := hj
      have hecho : ∃ t, s.echo (jlist.setObj (bytes "from") (getJsonObjectUser x)) rawname
          (.user v) u x i = .ok t ∧ Posted s t := by
        unfold echo
        split
        · simp only [hj, ok_bind, setObjPtr, deref]
          refine ⟨_, postRawRestricted_eq hs.wf hx, post_posted _ _⟩
        · exact ⟨s, rfl, .refl⟩
      obtain ⟨t, ht, hpost⟩ := hecho
      have hwf : t.roster.Wf := by rw [hpost.roster]; exact hs.wf
      have hxv' : t.users v = some xv := by rw [hpost.users]; exact hxv
      simp only [postToPipe, sub_eq hy, ok_bind, deref_eq hu, user_eq hx, hp, ht, deliver,
        postRaw_eq hwf.owned hxv']
      exact ⟨_, rfl⟩
    | channel c =>
      obtain ⟨z, hz, hm⟩ := foot_live hs.wf hx (hfoot c rfl)
      obtain ⟨s', hs', -⟩ := postToPipe_member hs hy hu hx hget hz hm
      exact ⟨_, hs'⟩
    | proxy => exact absurd rfl hkey
    | custom => exact absurd rfl hkey

theorem cmdSend_served (hs : s.roster.Sound) (hr : s.Ready cp pc sub) (hu : pc.guser ≠ none) :
    Served (cmdSend cp s) := by
  obtain ⟨u, hu⟩ := Option.ne_none_iff_exists'.mp hu
  obtain ⟨i, hi, hown⟩ := hr.owned u hu
  unfold cmdSend
  split
  · simp only [useSub_eq (hr.subuser.trans hi), ok_bind]
    exact .bind (.of_completes (postToPipe_completes hs hown)) fun _ _ => .ok _
  · exact .ok _

theorem setOne_completes {p : Bytes × Bytes} (hs : s.roster.Sound) (hx : s.users u = some x) :
    ∃ s', s.setOne u p = .ok s' := by
  simp only [setOne, user_eq hx, ok_bind]
  split
  · exact ⟨_, rfl⟩
  · exact sendError_completes hs hx

theorem cmdSession_served (hs : s.roster.Sound) (hr : s.Ready cp pc sub) (hu : pc.guser ≠ none) :
    Served (cmdSession cp s) := by
  obtain ⟨u, hu⟩ := Option.ne_none_iff_exists'.mp hu
  obtain ⟨i, hi, hown⟩ := hr.owned u hu
  obtain ⟨x, hx⟩ := hown.user
  obtain ⟨y, hy⟩ := hown.sub
  have hcu := deref_eq (hr.user.trans hu)
  unfold cmdSession
  split
  · exact .ok _
  · split
    · refine .bind ?_ fun _ _ => .ok _
      refine StopsFor.foldlM (fun t => Minor s t ∧ t.roster = s.roster) (fun t p _ ht => ?_)
        (fun t p t' _ ht ht' => ?_) ⟨.refl, rfl⟩
      · obtain ⟨xt, hxt⟩ := (hown.minor ht.1).user
        simp only [hcu, ok_bind]
        exact .of_completes (setOne_completes (by rw [ht.2]; exact hs) hxt)
      · simp only [hcu, ok_bind] at ht'
        obtain ⟨hm, he⟩ := setOne_spec ht'
        exact ⟨ht.1.trans hm, he.trans ht.2⟩
    · split
      · simp only
        split
        · exact .ok _
        · simp only [hcu, ok_bind, user_eq hx, useSub_eq (hr.subuser.trans hi)]
          exact .bind (.of_completes (postRawSub_completes _ hy)) fun _ _ => .ok _
      · exact .ok _

theorem cmdQuit_served (hs : s.roster.Sound)
    (hu : ∀ u, cp.call_user = some u → ∃ x, s.users u = some x) : Served (cmdQuit cp s) := by
  unfold cmdQuit
  simp only
  split
  · exact .ok _
  · next u hcu =>
    obtain ⟨x, hx⟩ := hu u hcu
    set t := s.sendRawInline cp.client (s.forgeRaw (bytes "QUIT")
      (JsonItem.newObject.setStr (bytes "value") (bytes "null"))) with ht
    have hwf : t.roster.Wf := by
      rw [ht, roster_sendRawInline]
      exact hs.wf
    have hxt : t.users u ≠ none := by
      rw [ht, Quiet.sendRawInline.live]
      simp [hx]
    obtain ⟨xt, hxt⟩ := Option.ne_none_iff_exists'.mp hxt
    exact .bind (.of_completes (deluser_completes hwf hxt)) fun _ _ => .ok _

/-- No callback of a server without plugins uses a subuser that is not there. -/
theorem plain_served (hs : s.roster.Sound) (hr : s.Ready cp pc sub)
    (hneed : ((Cmds.plain domain).seek cmd).need ≠ .nothing → pc.guser ≠ none)
    (hconn : isConnect cmd = true → pc.guser ≠ none) :
    Served (((Cmds.plain domain).seek cmd).func cp s) := by
  have hlive : ∀ u, cp.call_user = some u → ∃ x, s.users u = some x := by
    intro u hu
    obtain ⟨i, -, hown⟩ := hr.owned u (hr.user.symm.trans hu)
    exact hown.user
  have huser : pc.guser ≠ none → ∃ u, cp.call_user = some u ∧ s.users u ≠ none := by
    intro h
    obtain ⟨u, hu⟩ := Option.ne_none_iff_exists'.mp h
    obtain ⟨x, hx⟩ := hlive u (hr.user.trans hu)
    exact ⟨u, hr.user.trans hu, by simp [hx]⟩
  unfold Cmds.seek Cmds.plain builtins Htbl.seek at hneed ⊢
  simp only [List.foldl_cons, List.foldl_nil, Htbl.append] at hneed ⊢
  split_ifs at hneed ⊢ with h1 h2 h3 h4 h5 h6 h7 h8
  · exact cmdSession_served hs hr (hneed (by decide))
  · obtain ⟨u, hcu, hu⟩ := huser (hneed (by decide))
    exact (cmdLeft_noFault hs hcu hu).served
  · obtain ⟨u, hcu, hu⟩ := huser (hneed (by decide))
    exact (cmdJoin_noFault hs hcu hu).served
  · exact cmdQuit_served hs hlive
  · exact cmdSend_served hs hr (hneed (by decide))
  · exact .ok _
  · exact cmdScript_served hs hlive
  · exact cmdConnect_served hs hr (hconn h8)
  · exact .ok _

/-- Only `QUIT` takes subusers from their users, and it ends its request. -/
theorem plain_keeps {s' : Ape} (h : ((Cmds.plain domain).seek cmd).func cp s = .ok (flag, s')) :
    hasFlag flag returnNull = true ∨ ∀ u i, s.Owns u i → s'.Owns u i := by
  obtain ⟨-, hf⟩ | ⟨-, -, hf⟩ | ⟨-, -, hm⟩ := seek_plain domain cmd
  · rw [hf] at h
    refine .inl ?_
    unfold cmdQuit at h
    simp only at h
    split at h
    · cases h
      decide
    · obtain ⟨t, -, h⟩ := bind_ok h
      cases h
      decide
  · rw [hf] at h
    exact .inr fun u i ho => ho.even (cmdConnect_even h).1
  · exact .inr fun u i ho => ho.minor (hm _ _ _ _ h)

/-! ### What follows the callback -/

theorem refuse_served {code value : Bytes} (hr : s.Ready cp pc sub) :
    Served (s.refuse cp pc sub code value) := by
  unfold refuse
  simp only
  split
  · next u hcu =>
    obtain ⟨i, hi, hown⟩ := hr.owned u (hr.user.symm.trans hcu)
    obtain ⟨y, hy⟩ := hown.sub
    subst hi
    simp only [subOrHost, ok_bind, useSub]
    exact .bind (.of_completes (postRawSub_completes _ hy)) fun _ _ => .ok _
  · exact .ok _

theorem finishCmd_served (hr : hasFlag flag returnNull = true ∨ s.Ready cp pc sub) :
    Served (s.finishCmd cp pc sub attach iuser flag) := by
  refine .bind ?_ fun r hreply => ?_
  · unfold reply
    split
    · exact .ok _
    · next hnull =>
      replace hr := hr.resolve_left hnull
      split
      · exact refuse_served hr
      · split
        · exact refuse_served hr
        · exact .ok _
  · obtain ⟨sub', t⟩ := r
    obtain ⟨hm, -, hsub⟩ := reply_spec hreply
    simp only
    split
    · next u hu =>
      have hnull : ¬hasFlag flag returnNull = true := fun hnull => by simp [hnull] at hu
      rw [if_neg hnull] at hu
      obtain ⟨i, hi, hown⟩ := (hr.resolve_left hnull).owned u hu
      obtain ⟨y, hy⟩ := (hown.minor hm).sub
      obtain rfl := hsub i hi
      simp only [subOrHost, ok_bind, useSub, sub_eq hy]
      exact .ok _
    · exact .ok _

/-! ### A request -/

/-- What is left of `process_cmd` after the user was looked up. -/
theorem conclude_served {before : Ape} (hs : s.roster.Sound) (hr : s.Ready cp pc sub)
    (hneed : ((Cmds.plain domain).seek cmd).need ≠ .nothing → pc.guser ≠ none)
    (hconn : isConnect cmd = true → pc.guser ≠ none) :
    Served (conclude (.plain domain) ijson cmd iuser before attach cp pc sub s) := by
  refine .bind ?_ fun r hcb => .bind ?_ fun _ _ => .ok _
  · refine .bind (.ok _) fun r hcalled => ?_
    cases hcalled
    exact .bind (plain_served hs hr hneed hconn) fun _ _ => .ok _
  · obtain ⟨flag, called, t⟩ := r
    obtain ⟨-, hf⟩ := runCallback_plain hcb
    refine finishCmd_served ?_
    refine (plain_keeps hf).imp_right fun hkeep => ⟨hr.user, hr.subuser, fun u hu => ?_⟩
    obtain ⟨i, hi, hown⟩ := hr.owned u hu
    exact ⟨i, hi, hkeep u i hown⟩

theorem execCmd_served (hs : s.roster.Sound) (hp : s.Seated pc)
    (hh : pc.host.length ≤ maxHostLength)
    (hneed : ((Cmds.plain domain).seek cmd).need ≠ .nothing → pc.guser ≠ none) :
    Served (execCmd (.plain domain) ijson cmd pc iuser s) := by
  rw [execCmd_eq]
  refine .bind (lookup_served hs hp hh) fun r hr => ?_
  obtain ⟨attach, cp, pc', sub, t⟩ := r
  have hl := lookup_lookedUp hs hp hh hr
  exact conclude_served hl.sound hl.ready (fun hn => hl.guser (.inr (hneed hn)))
    fun hc => hl.guser (.inl hc)

/-- The next command finds the same user, and its subuser if the connection stays. -/
theorem execCmd_seated {d : Done} (hs : s.roster.Sound) (hp : s.Seated pc)
    (hh : pc.host.length ≤ maxHostLength)
    (h : execCmd (.plain domain) ijson cmd pc iuser s = .ok d) (hret : d.ret = none) :
    d.state.Seated d.next ∧ d.next.host = pc.host := by
  rw [execCmd_eq] at h
  obtain ⟨⟨attach, cp, pc', sub, t⟩, hr, h⟩ := bind_ok h
  have hl := lookup_lookedUp hs hp hh hr
  obtain ⟨⟨flag, called, t₁⟩, ht₁, h⟩ := bind_ok h
  obtain ⟨⟨ret, pc'', iuser', t₂⟩, ht₂, h⟩ := bind_ok h
  cases h
  obtain ⟨-, hf⟩ := runCallback_plain ht₁
  obtain ⟨t', hm, -, ⟨-, hne, -⟩ | ⟨u, i, y, hnull, hu, hi, hy, rfl, rfl, rfl⟩⟩ :=
    finishCmd_spec ht₂
  · exact absurd hret hne
  · obtain ⟨j, hj, hown⟩ := hl.ready.owned u hu
    obtain rfl := hi j hj
    have hkeep := (plain_keeps hf).resolve_left (by simp [hnull])
    have hown' := ((hkeep u i hown).minor hm).setSub { y with state := .alive } hy rfl
    obtain ⟨x, hx⟩ := hown'.user
    cases hattach : attach with
    | true =>
      refine ⟨⟨fun v hv => ?_, fun k hk => ?_⟩, hl.host⟩
      · rw [show v = u from Option.some.inj (hv.symm.trans hu)]
        exact ⟨x, hx⟩
      · cases hk
        exact ⟨u, hu, hown'⟩
    | false =>
      refine ⟨⟨fun v hv => ?_, fun k hk => ?_⟩, hl.host⟩
      · rw [show v = u from Option.some.inj (hv.symm.trans hu)]
        exact ⟨x, hx⟩
      · -- the connection was turned away, and the next command looks again
        cases (hl.attach hattach).symm.trans hk

/-- The user of a command is the one of the request, or is found by its sessid. -/
theorem Seated.identify (hs : s.roster.Sound) (hp : s.Seated pc) :
    s.Seated { pc with guser := identify s ijson pc } := by
  refine ⟨fun u hu => ?_, fun i hi => ?_⟩
  · unfold ApeServer.identify at hu
    split at hu
    · next v hv => exact hp.user u (hv.trans hu)
    · obtain ⟨sessid, -, hseek⟩ := Option.bind_eq_some_iff.mp hu
      exact seekUserId_live hs hseek
  · obtain ⟨u, hu, hown⟩ := hp.sub i hi
    refine ⟨u, ?_, hown⟩
    simp only [ApeServer.identify, hu]

theorem processCmd_served (hs : s.roster.Sound) (hp : s.Seated pc)
    (hh : pc.host.length ≤ maxHostLength) :
    Served (processCmd (.plain domain) ijson pc iuser s) := by
  unfold processCmd
  split
  · exact .ok _
  · simp only
    split
    · exact .ok _
    · next hn =>
      push Not at hn
      exact execCmd_served hs (hp.identify hs) hh hn

theorem processCmd_seated {d : Done} (hs : s.roster.Sound) (hp : s.Seated pc)
    (hh : pc.host.length ≤ maxHostLength)
    (h : processCmd (.plain domain) ijson pc iuser s = .ok d) (hret : d.ret = none) :
    d.state.Seated d.next ∧ d.next.host = pc.host := by
  unfold processCmd at h
  split at h
  · cases h
    cases hret
  · simp only at h
    split at h
    · cases h
      cases hret
    · obtain ⟨hp', hhost⟩ := execCmd_seated hs (hp.identify hs) hh h hret
      exact ⟨hp', hhost⟩

end Ape

/-- The commands a request comes to, each with its user and in the state it is run in. -/
inductive Takes (cmds : Cmds) : List JsonItem → Pc → Option SubId → Ape →
    JsonItem → Bytes → Pc → Ape → Prop
  | first {ijson : JsonItem} {rest : List JsonItem} {pc : Pc} {iuser : Option SubId} {s : Ape}
      {cmd : Bytes} : isQueued s pc.guser = .ok false →
      jstr ijson.child (bytes "cmd") = some cmd →
      ¬((cmds.seek cmd).need ≠ .nothing ∧ identify s ijson pc = none) →
      Takes cmds (ijson :: rest) pc iuser s ijson cmd { pc with guser := identify s ijson pc } s
  | later {ijson j : JsonItem} {rest : List JsonItem} {pc pc' : Pc} {iuser : Option SubId}
      {s t : Ape} {cmd : Bytes} {d : Done} : isQueued s pc.guser = .ok false →
      processCmd cmds ijson pc iuser s = .ok d → d.ret = none →
      Takes cmds rest d.next d.iuser d.state j cmd pc' t →
      Takes cmds (ijson :: rest) pc iuser s j cmd pc' t

/-- The request of a connection before its first command. -/
def Pc.start (client : Fd) (host ip : Bytes) (transport : Transport) : Pc :=
  { guser := none, sub := none, client := client, host := host, ip := ip, transport := transport }

/-- No step of a request uses a NULL subuser or a freed record: whenever it has a user after
the lookup or after `CONNECT`, it has a live subuser of that user. -/
structure AlwaysSub (cmds : Cmds) (objects : List JsonItem) (client : Fd) (host ip : Bytes)
    (transport : Transport) (s : Ape) : Prop where
  served : Served (checkcmd cmds objects client host ip transport s)
  owned : ∀ {ijson : JsonItem} {cmd : Bytes} {pc pc' : Pc} {iuser : Option SubId} {t t' : Ape}
    {attach : Bool} {cp : Callbackp} {sub : Option SubId} {u : UserId},
    Takes cmds objects (.start client host ip transport) iuser s ijson cmd pc t →
    lookup ijson cmd pc t = .ok (attach, cp, pc', sub, t') → pc'.guser = some u →
    ∃ i, sub = some i ∧ cp.call_subuser = some i ∧ t'.Owns u i

namespace Ape

variable {s s' t : Ape} {u : UserId} {x : User} {pc pc' : Pc} {domain : Bool} {cmd host ip : Bytes}
  {ijson : JsonItem} {iuser : Option SubId} {client : Fd} {transport : Transport}
  {objects : List JsonItem}

theorem isQueued_served {guser : Option UserId}
    (hu : ∀ u, guser = some u → ∃ x, s.users u = some x) : Served (isQueued s guser) := by
  cases guser with
  | none => exact .ok _
  | some u =>
    obtain ⟨x, hx⟩ := hu u rfl
    simp only [isQueued, user_eq hx]
    exact .ok _

theorem checkLoop_served {calls : List Call} (hs : s.roster.Sound) (hp : s.Seated pc)
    (hh : pc.host.length ≤ maxHostLength) :
    Served (checkLoop (.plain domain) objects pc iuser calls s) := by
  induction objects generalizing pc iuser calls s with
  | nil => exact .ok _
  | cons ijson rest ih =>
    refine .bind (isQueued_served hp.user) fun queued hq => ?_
    split
    · cases hu : pc.guser with
      | none =>
        rw [hu] at hq
        cases hq
        contradiction
      | some u =>
        obtain ⟨x, hx⟩ := hp.user u hu
        simp only [deref, ok_bind, user_eq hx]
        exact .ok _
    · refine .bind (processCmd_served hs hp hh) fun d hd => ?_
      split
      · exact .ok _
      · next hret =>
        obtain ⟨hp', hhost⟩ := processCmd_seated hs hp hh hd hret
        exact ih (processCmd_sound hs hd).1 hp' (by rw [hhost]; exact hh)

theorem takes_lookedUp {attach : Bool} {cp : Callbackp} {pc₁ : Pc} {sub : Option SubId} {t' : Ape}
    (ht : Takes (.plain domain) objects pc iuser s ijson cmd pc' t) (hs : s.roster.Sound)
    (hp : s.Seated pc) (hh : pc.host.length ≤ maxHostLength)
    (hl : lookup ijson cmd pc' t = .ok (attach, cp, pc₁, sub, t')) :
    LookedUp cmd pc' attach cp pc₁ sub t' := by
  induction ht with
  | first => exact lookup_lookedUp hs (hp.identify hs) hh hl
  | later hq hd hret _ ih =>
    obtain ⟨hp', hhost⟩ := processCmd_seated hs hp hh hd hret
    exact ih (processCmd_sound hs hd).1 hp' (by rw [hhost]; exact hh) hl

theorem Seated.start : s.Seated (.start client host ip transport) where
  user _ h := nomatch h
  sub _ h := nomatch h

/-- The first command of a request has no user and does not ask for one. -/
def Unknown (s : Ape) (objects : List JsonItem) : Prop :=
  ∀ ijson rest cmd, objects = ijson :: rest → jstr ijson.child (bytes "cmd") = some cmd →
    (jstr ijson.child (bytes "sessid")).bind s.seekUserId = none ∧ isConnect cmd = false

/-- Without a user no subuser is looked up. -/
theorem lookup_unknown (s : Ape) (ijson : JsonItem) (cmd : Bytes) (pc : Pc)
    (hu : pc.guser = none) (hsub : pc.sub = none) :
    ∃ cp, cp.cmd = cmd ∧ cp.host = pc.host ∧ s.Ready cp pc none ∧
      lookup ijson cmd pc s = s.preallocate cp pc none >>= fun r => .ok (true, r) := by
  have hcmd : s.cmdSub pc = .ok ⟨none, none, true, s⟩ := by
    simp only [cmdSub, hu, hsub]
  let cp : Callbackp :=
    { client := pc.client, param := jsonLookup (bytes "params") ijson.child, call_user := none,
      call_subuser := none, ip := pc.ip, host := pc.host, cmd := cmd, transport := pc.transport,
      chl := 0 }
  refine ⟨cp, rfl, rfl, ⟨hu.symm, rfl, fun u hv => ?_⟩, ?_⟩
  · rw [hu] at hv
    cases hv
  · simp only [lookup, hcmd, ok_bind, setChl, chlOf, hu]
    rfl

theorem preallocate_skip {sub : Option SubId} {cp : Callbackp} (hc : isConnect cp.cmd = false) :
    s.preallocate cp pc sub = .ok (cp, pc, sub, s) := by
  simp [preallocate, hc]

/-- The first command of a request that is refused there. -/
theorem processCmd_unknown {rest : List JsonItem} (hs : s.roster.Sound)
    (hu : s.Unknown (ijson :: rest)) :
    Served (processCmd (.plain domain) ijson (.start client host ip transport) iuser s) ∧
      ∀ d, processCmd (.plain domain) ijson (.start client host ip transport) iuser s = .ok d →
        d.ret ≠ none := by
  unfold processCmd
  split
  · refine ⟨.ok _, fun d hd => ?_⟩
    cases hd
    simp
  · next cmd hcmd =>
    obtain ⟨hid, hc⟩ := hu _ _ _ rfl hcmd
    replace hid : identify s ijson (.start client host ip transport) = none := hid
    simp only [hid]
    split
    · refine ⟨.ok _, fun d hd => ?_⟩
      cases hd
      simp
    · next hn =>
      let pc : Pc := { Pc.start client host ip transport with guser := none }
      have hl := lookup_unknown s ijson cmd pc rfl rfl
      obtain ⟨cp, hcp, -, hr, hl⟩ := hl
      rw [preallocate_skip (by rw [hcp]; exact hc), ok_bind] at hl
      rw [execCmd_eq, hl, ok_bind]
      refine ⟨conclude_served hs hr (fun hneed => absurd ⟨hneed, trivial⟩ hn)
        fun hconn => ?_,
        fun d hd => ?_⟩
      · rw [hc] at hconn
        cases hconn
      · obtain ⟨⟨flag, called, t⟩, -, hd⟩ := bind_ok hd
        obtain ⟨⟨ret, pc', iuser', t'⟩, hfin, hd⟩ := bind_ok hd
        cases hd
        obtain ⟨-, -, -, ⟨-, hret, -⟩ | ⟨u, -, -, -, hguser, -⟩⟩ := finishCmd_spec hfin
        · exact hret
        · cases hguser

theorem unknown_always (hs : s.roster.Sound) (hu : s.Unknown objects) :
    AlwaysSub (.plain domain) objects client host ip transport s := by
  cases objects with
  | nil =>
    refine ⟨.ok _, fun ht _ _ => ?_⟩
    cases ht
  | cons ijson rest =>
    refine ⟨?_, fun ht hl hguser => ?_⟩
    · refine .bind (.ok false) fun queued hq => ?_
      cases hq
      refine .bind (processCmd_unknown hs hu).1 fun d hd => ?_
      split
      · exact .ok _
      · next hret => exact absurd hret ((processCmd_unknown hs hu).2 d hd)
    · cases ht with
      | first hq hcmd hn =>
        obtain ⟨hid, hc⟩ := hu _ _ _ rfl hcmd
        obtain ⟨cp, hcp, -, -, hl'⟩ := lookup_unknown s ijson _
          { Pc.start client host ip transport with
            guser := identify s ijson (.start client host ip transport) } hid rfl
        rw [hl', preallocate_skip (by rw [hcp]; exact hc)] at hl
        cases hl
        exact absurd (hid.symm.trans hguser) (by simp)
      | later hq hd hret => exact absurd hret ((processCmd_unknown hs hu).2 _ hd)

/-- A request whose host fits in the record of a subuser always has a subuser for its user,
in every state the server reaches, whatever requests came before it. A longer host is not used
by a request that is refused at its first command. -/
theorem always_sub {rand : List (List.Vector (Fin 16) 32)} {io : ℕ → Bool} {time : ℤ}
    {allowed : Ape → Event → Prop}
    (h : Reach (step (.plain domain)) allowed (init rand io time) s)
    (hc : host.length ≤ maxHostLength ∨ s.Unknown objects) :
    AlwaysSub (.plain domain) objects client host ip transport s := by
  have hs := (reach_healthy h).sound
  rcases hc with hh | hunknown
  · refine ⟨?_, fun ht hl hu => ?_⟩
    · unfold checkcmd
      split
      · exact .ok _
      · exact checkLoop_served hs .start hh
    · have hr := (takes_lookedUp ht hs .start hh hl).ready
      obtain ⟨i, hi, hown⟩ := hr.owned _ hu
      exact ⟨i, hi, hr.subuser.trans hi, hown⟩
  · exact unknown_always hs hunknown

/-- A user allocated for a longer host has no subuser. -/
theorem allocUser_longHost (hh : maxHostLength < host.length)
    (h : s.allocUser client host ip = .ok (u, t)) : ∃ x, t.users u = some x ∧ x.subuser = [] := by
  obtain ⟨t₀, o, ha, ht⟩ := allocUser_spec h
  obtain ⟨x, hx, hnil⟩ := ha.alone
  obtain ⟨-, rfl⟩ | ⟨-, -, -, -, hle, -⟩ := addsubuser_spec ht
  · exact ⟨x, hx, hnil⟩
  · omega

theorem cmdConnect_nosub {cp : Callbackp} (hu : cp.call_user = some u) (hx : s.users u = some x)
    (hsub : cp.call_subuser = none) : cmdConnect cp s = .error .nosub := by
  obtain ⟨t, ht⟩ := adduser_completes hx
  obtain ⟨x', hx', -⟩ := (adduser_even ht).user hx
  simp only [cmdConnect, deref_eq hu, ok_bind, ht, user_eq hx', hsub]
  rfl

/-- A callback that stops takes the command with it. -/
theorem conclude_error {cp : Callbackp} {sub : Option SubId} {attach : Bool} {before : Ape}
    {e : Halt} (h : ((Cmds.plain domain).seek cmd).func cp s = .error e) :
    conclude (.plain domain) ijson cmd iuser before attach cp pc sub s = .error e := by
  have hrun : runCallback (.plain domain) ((Cmds.plain domain).seek cmd) cp s = .error e := by
    change (((Cmds.plain domain).seek cmd).func cp s >>= fun r => .ok (r.1, some s, r.2)) = _
    rw [h]
    rfl
  simp only [conclude, hrun]
  rfl

/-- `CONNECT` through a longer host never comes back: its user has no subuser. -/
theorem connect_longHost {rest : List JsonItem} (hs : s.roster.Sound)
    (hh : maxHostLength < host.length) (hcmd : jstr ijson.child (bytes "cmd") = some cmd)
    (hc : isConnect cmd = true)
    (hid : (jstr ijson.child (bytes "sessid")).bind s.seekUserId = none) :
    ∃ e, checkcmd (.plain domain) (ijson :: rest) client host ip transport s = .error e ∧
      (e = .nosub ∨ e = .loops) := by
  have hname : ∀ n, strcaseeq cmd (bytes n) = strcaseeq (bytes "CONNECT") (bytes n) :=
    fun n => strcaseeq_congr hc _
  have hseek : (Cmds.plain domain).seek cmd = ⟨cmdConnect, .nothing⟩ := by
    unfold Cmds.seek Cmds.plain builtins Htbl.seek
    simp only [List.foldl_cons, List.foldl_nil, Htbl.append, hname]
    rfl
  set pc := Pc.start client host ip transport with hpc
  have hexec : ∃ e, execCmd (.plain domain) ijson cmd pc none s = .error e ∧
      (e = .nosub ∨ e = .loops) := by
    obtain ⟨cp, hcp, hhost, hr, hl⟩ := lookup_unknown s ijson cmd pc rfl rfl
    rw [execCmd_eq, hl]
    have hpre : isConnect cp.cmd = true := by
      rw [hcp]
      exact hc
    simp only [preallocate, hpre, if_true]
    cases halloc : s.allocUser cp.client cp.host cp.ip with
    | error e => exact ⟨e, rfl, .inr (allocUser_noFault hs.wf e halloc)⟩
    | ok r =>
      obtain ⟨u, t⟩ := r
      obtain ⟨x, hx, hnil⟩ := allocUser_longHost (by rw [hhost]; exact hh) halloc
      refine ⟨.nosub, ?_, .inl rfl⟩
      simp only [ok_bind, user_eq hx, hnil, List.head?_nil]
      refine conclude_error ?_
      rw [hseek]
      exact cmdConnect_nosub rfl (Function.update_self ..) rfl
  obtain ⟨e, he, hcase⟩ := hexec
  refine ⟨e, ?_, hcase⟩
  have hid' : identify s ijson pc = none := hid
  have hproc : processCmd (.plain domain) ijson pc none s = .error e := by
    simp only [processCmd, hcmd, hseek, hid', ne_eq, not_true_eq_false, false_and, if_false]
    exact he
  change processCmd (.plain domain) ijson pc none s >>= _ = _
  rw [hproc]
  rfl

def connectObject : JsonItem := JsonItem.newObject.setStr (bytes "cmd") (bytes "CONNECT")

/-- A server with one connection. -/
def oneConnection : List Event := [.accept 5 (bytes "1.1.1.1")]

theorem always_sub_host : ∃ s, Steps.runs (step (.plain true)) (fun _ _ => True)
    (init sixteenDraws (fun _ => true) 0) oneConnection = some s ∧
      AlwaysSub (.plain true) [connectObject] 5 (List.replicate 256 104) (bytes "1.1.1.1")
        .longpolling s := by
  have h : ((Steps.runs (step (.plain true)) (fun _ _ => True)
      (init sixteenDraws (fun _ => true) 0) oneConnection).map fun _ => ()) = some () := by
    decide +kernel
  obtain ⟨s, hs, -⟩ := Option.map_eq_some_iff.mp h
  exact ⟨s, hs, always_sub (.of_runs .start hs) (.inl (List.length_replicate ..).le)⟩

/-- The first byte too many: the new user has no subuser, and `cmd_connect` posts to it. -/
theorem nosub_host : ¬∀ (s : Ape) (host : Bytes),
    Reach (step (.plain true)) (fun _ _ => True) (init sixteenDraws (fun _ => true) 0) s →
    host.length ≤ 1022 →
    AlwaysSub (.plain true) [connectObject] 5 host (bytes "1.1.1.1") .longpolling s := by
  intro hall
  have h : ((Steps.runs (step (.plain true)) (fun _ _ => True)
      (init sixteenDraws (fun _ => true) 0) oneConnection).map fun s =>
        match checkcmd (.plain true) [connectObject] 5 (List.replicate 257 104) (bytes "1.1.1.1")
          .longpolling s with
        | .ok _ => none
        | .error e => some e) = some (some .nosub) := by decide +kernel
  obtain ⟨s, hs, h⟩ := Option.map_eq_some_iff.mp h
  split at h
  · cases h
  · next e he =>
    cases h
    have hlen : (List.replicate 257 (104 : UInt8)).length ≤ 1022 := by
      rw [List.length_replicate]
      decide
    exact ((hall s _ (.of_runs .start hs) hlen).served _ he).1 rfl

end Ape

end ApeServer
