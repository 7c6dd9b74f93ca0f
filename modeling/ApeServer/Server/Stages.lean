import ApeServer.Server.Events
import ApeServer.Server.Tick

/-!
# The stages of a command

What each stage of `process_cmd` can do, once for all: up to what does not matter for the
connections every stage is a few writes to users, subusers and sockets.
-/
namespace ApeServer

open Sock (Bytes)
open Steps (ok_bind bind_ok foldlM_keeps)

/-- The seat of a user whenever it was last active. -/
def User.post (x : User) : Seat := { x.seat with idle := 0 }

/-- The line of a subuser whenever it was last active. -/
def Subuser.plug (y : Subuser) : Line := { y.line with idle := 0 }

@[simp]
theorem Done.next_guser (d : Done) : d.next.guser = d.pc.guser := by
  unfold Done.next
  split <;> rfl

namespace Ape

variable {s s' t t' : Ape} {u : UserId} {i : SubId} {x x' : User} {y y' : Subuser} {pc : Pc}

/-- A step that may mark users and subusers as active and is quiet otherwise. -/
structure Still (s s' : Ape) : Prop where
  users : ∀ u, (s'.users u).map User.post = (s.users u).map User.post
  subs : ∀ i, (s'.subs i).map Subuser.plug = (s.subs i).map Subuser.plug
  co : ∀ fd, (s'.co fd).wire = (s.co fd).wire
  hSessid : s'.hSessid = s.hSessid
  nConnected : s'.nConnected = s.nConnected
  fresh : s.fresh ≤ s'.fresh

theorem Quiet.still (h : Quiet s s') : Still s s' where
  users u := by
    have := congrArg (Option.map fun k : Seat => { k with idle := 0 }) (h.users u)
    rw [Option.map_map, Option.map_map] at this
    exact this
  subs i := by
    have := congrArg (Option.map fun k : Line => { k with idle := 0 }) (h.subs i)
    rw [Option.map_map, Option.map_map] at this
    exact this
  co := h.co
  hSessid := h.hSessid
  nConnected := h.nConnected
  fresh := h.fresh

namespace Still

theorem refl : Still s s := ⟨fun _ => rfl, fun _ => rfl, fun _ => rfl, rfl, rfl, le_rfl⟩

theorem trans (h : Still s t) (h' : Still t s') : Still s s' :=
  ⟨fun u => (h'.users u).trans (h.users u), fun i => (h'.subs i).trans (h.subs i),
    fun fd => (h'.co fd).trans (h.co fd), h'.hSessid.trans h.hSessid,
    h'.nConnected.trans h.nConnected, h.fresh.trans h'.fresh⟩

theorem sub (h : Still s s') (hy : s.subs i = some y) :
    ∃ y', s'.subs i = some y' ∧ y'.plug = y.plug := by
  have := h.subs i
  rw [hy] at this
  exact Option.map_eq_some_iff.mp this

theorem sub_back (h : Still s s') (hy : s'.subs i = some y') :
    ∃ y, s.subs i = some y ∧ y'.plug = y.plug := by
  have := h.subs i
  rw [hy] at this
  obtain ⟨y, hy, he⟩ := Option.map_eq_some_iff.mp this.symm
  exact ⟨y, hy, he.symm⟩

theorem user (h : Still s s') (hx : s.users u = some x) :
    ∃ x', s'.users u = some x' ∧ x'.post = x.post := by
  have := h.users u
  rw [hx] at this
  exact Option.map_eq_some_iff.mp this

theorem live (h : Still s s') (u : UserId) : s'.users u ≠ none ↔ s.users u ≠ none := by
  have := h.users u
  cases hx : s.users u <;> cases hx' : s'.users u <;> simp_all

theorem sub_live (h : Still s s') (i : SubId) : s'.subs i ≠ none ↔ s.subs i ≠ none := by
  have := h.subs i
  cases hx : s.subs i <;> cases hx' : s'.subs i <;> simp_all

theorem fd (h : Still s s') (e : Fd) : (s'.co e).fd = (s.co e).fd := congrArg Wire.fd (h.co e)

theorem attach (h : Still s s') (e : Fd) : (s'.co e).attach = (s.co e).attach :=
  congrArg Wire.attach (h.co e)

/-- The same write on both sides. -/
theorem setUser (h : Still s s') (hx : x'.post = x.post) :
    Still (s.setUser u x) (s'.setUser u x') where
  users v := by
    by_cases hv : v = u
    · subst hv
      simp [hx]
    · simpa [hv] using h.users v
  subs := h.subs
  co := h.co
  hSessid := h.hSessid
  nConnected := h.nConnected
  fresh := h.fresh

theorem setSub (h : Still s s') (hy : y'.plug = y.plug) :
    Still (s.setSub i y) (s'.setSub i y') where
  users := h.users
  subs j := by
    by_cases hj : j = i
    · subst hj
      simp [hy]
    · simpa [hj] using h.subs j
  co := h.co
  hSessid := h.hSessid
  nConnected := h.nConnected
  fresh := h.fresh

theorem setAttach (h : Still s s') (e : Fd) (o : Option SubId) :
    Still (s.setAttach e o) (s'.setAttach e o) where
  users := h.users
  subs := h.subs
  co d := by
    by_cases hd : d = e
    · subst hd
      have h1 := congrArg Wire.fd (h.co d)
      have h2 := congrArg Wire.parser (h.co d)
      simp only [Ape.setAttach, setCo_co, Function.update_self, Socket.wire] at h1 h2 ⊢
      rw [h1, h2]
    · simpa [Ape.setAttach, hd] using h.co d
  hSessid := h.hSessid
  nConnected := h.nConnected
  fresh := h.fresh

theorem setUser_of (hx : s.users u = some x) (he : x'.post = x.post) :
    Still s (s.setUser u x') := by
  have : s.setUser u x = s := by simp [Ape.setUser, ← hx]
  have h := Still.setUser (s := s) (u := u) refl he
  rwa [this] at h

theorem setSub_of (hy : s.subs i = some y) (he : y'.plug = y.plug) :
    Still s (s.setSub i y') := by
  have : s.setSub i y = s := by simp [Ape.setSub, ← hy]
  have h := Still.setSub (s := s) (i := i) refl he
  rwa [this] at h

end Still

/-! ### The subuser of a command -/

theorem findSub_some {channel : Bytes} {l : List SubId} (h : s.findSub channel l = .ok (some i)) :
    i ∈ l ∧ ∃ y, s.subs i = some y ∧ y.channel = channel := by
  induction l with
  | nil => cases h
  | cons j l ih =>
    obtain ⟨y, hy, h⟩ := bind_ok h
    split at h
    · next hc =>
      cases h
      exact ⟨List.mem_cons_self, y, sub_ok hy, hc⟩
    · obtain ⟨hi, hrest⟩ := ih h
      exact ⟨List.mem_cons_of_mem j hi, hrest⟩

theorem getsubuser_some {channel : Bytes} (h : s.getsubuser u channel = .ok (some i)) :
    ∃ x y, s.users u = some x ∧ i ∈ x.subuser ∧ s.subs i = some y ∧ y.channel = channel := by
  obtain ⟨x, hx, h⟩ := bind_ok h
  obtain ⟨hi, y, hy, hc⟩ := findSub_some h
  exact ⟨x, y, user_ok hx, hi, hy, hc⟩

theorem subuserRestor_posted (h : s.subuserRestor i = .ok s') : Posted s s' := by
  obtain ⟨y, -, h⟩ := bind_ok h
  obtain ⟨u, -, h⟩ := bind_ok h
  obtain ⟨x, -, h⟩ := bind_ok h
  obtain ⟨t, ht, h⟩ := bind_ok h
  refine (foldlM_keeps (Posted s) (fun t c t' _ hs ht => ?_) .refl ht).trans (postRawSub_posted h)
  obtain ⟨z, -, ht⟩ := bind_ok ht
  obtain ⟨jlist, -, ht⟩ := bind_ok ht
  exact hs.trans (postRawSub_posted ht)

/-- A subuser that waits on another connection, after the transport has chosen one of the
two. -/
def moved (s : Ape) (i : SubId) (y : Subuser) (r : OpenSameHost) : Ape :=
  (s.setAttach (s.co r.client_close).fd none).setSub i
    { y with state := r.substate, client := r.client_listener }

/-- The writes of `openSameHost`, around what it sends. -/
theorem openSameHost_spec (x : User) (client : Fd) (hy : s.subs i = some y) :
    (s.openSameHost i y x client).state.roster = s.roster ∧
      Still (s.moved i y (transportOpenSameHost y client x.transport))
        (s.openSameHost i y x client).state := by
  set r := transportOpenSameHost y client x.transport with hr
  have hsend : ∀ (b : Bool) (e : Fd) (raw : RawMsg),
      Still s (if b then s else s.sendRawInline e raw) ∧
        (if b then s else s.sendRawInline e raw).roster = s.roster ∧
        (if b then s else s.sendRawInline e raw).subs = s.subs := by
    intro b e raw
    cases b with
    | true => exact ⟨.refl, rfl, rfl⟩
    | false => exact ⟨Quiet.sendRawInline.still, roster_sendRawInline, send_subs⟩
  obtain ⟨h1, h2, h3⟩ := hsend y.headersSent
    (if (s.co r.client_close).fd = (s.co client).fd then client else y.client)
    (s.forgeRaw (bytes "CLOSE") (JsonItem.newObject.setStr (bytes "value") (bytes "null")))
  constructor
  · refine (roster_setSub_of (y := y) ?_ ?_).trans ?_
    · rw [safeShutdown_subs]
      exact (congrFun h3 i).trans hy
    · rfl
    · rw [roster_safeShutdown, roster_setCo]
      exact h2
  · exact ((h1.setAttach _ none).trans Quiet.safeShutdown.still).setSub rfl

/-- How a command comes to the subuser `i` of `u`, and the state up to a still step: it
takes one that waits elsewhere, one that does not, or a new one. -/
inductive Opens (s : Ape) (u : UserId) (x : User) (pc : Pc) (i : SubId) (o : Opened) : Ape → Prop
  | same {y : Subuser} {r : OpenSameHost} (hi : i ∈ x.subuser) (hy : s.subs i = some y)
      (hc : y.channel = pc.host) (hne : (s.co y.client).fd ≠ (s.co pc.client).fd) (ha : y.state = .alive)
      (hr : r = transportOpenSameHost y pc.client x.transport)
      (hclient : o.client = some r.client_listener) (hattach : o.attach = r.attach) :
      Opens s u x pc i o (s.moved i y r)
  | found {y : Subuser} (hi : i ∈ x.subuser) (hy : s.subs i = some y) (hc : y.channel = pc.host)
      (hn : ¬((s.co y.client).fd ≠ (s.co pc.client).fd ∧ y.state = .alive))
      (hclient : o.client = none) (hattach : o.attach = true) :
      Opens s u x pc i o (s.setSub i { y with client := pc.client })
  | new {t : Ape} (ht : s.addsubuser pc.client pc.host u = .ok (some i, t))
      (hclient : o.client = none) (hattach : o.attach = true) : Opens s u x pc i o t

theorem findOrOpen_opens {o : Opened} (hx : s.users u = some x) (h : s.findOrOpen u x pc = .ok o)
    (hi : o.sub = some i) :
    ∃ w, Opens s u x pc i o w ∧ Still w o.state ∧ o.state.roster = w.roster := by
  obtain ⟨found, hfound, h⟩ := bind_ok h
  cases found with
  | some j =>
    obtain ⟨x', y, hx', hj, hy, hc⟩ := getsubuser_some hfound
    rw [hx] at hx'
    cases hx'
    simp only [sub_eq hy, ok_bind] at h
    split at h
    · next hcond =>
      cases h
      cases hi
      obtain ⟨hr, hstill⟩ := openSameHost_spec x pc.client hy
      refine ⟨_, .same hj hy hc hcond.1 hcond.2 rfl rfl rfl, hstill, hr.trans (Eq.symm ?_)⟩
      exact roster_setSub_of (s := s.setAttach _ none) hy rfl
    · next hcond =>
      cases h
      cases hi
      exact ⟨_, .found hj hy hc hcond rfl rfl, .refl, rfl⟩
  | none =>
    obtain ⟨⟨new, t⟩, ht, h⟩ := bind_ok h
    cases new with
    | some j =>
      obtain ⟨t', ht', h⟩ := bind_ok h
      cases h
      cases hi
      have hp := subuserRestor_posted ht'
      exact ⟨t, .new ht rfl rfl, (Quiet.of_posted hp).still, hp.roster⟩
    | none =>
      cases h
      cases hi

/-- The subuser of a user whose request has none yet. -/
theorem openSub_opens {o : Opened} (h : s.openSub u pc = .ok o) :
    ∃ x i w, s.users u = some x ∧ o.sub = some i ∧ Opens s u x pc i o w ∧ Still w o.state ∧
      o.state.roster = w.roster := by
  obtain ⟨x, hx, h⟩ := bind_ok h
  obtain ⟨o', ho', h⟩ := bind_ok h
  obtain ⟨x', hx', h⟩ := bind_ok h
  obtain ⟨i, hi, h⟩ := bind_ok h
  obtain ⟨y, hy, h⟩ := bind_ok h
  replace hi := useSub_ok hi
  cases h
  obtain ⟨w, hw, hstill, hr⟩ := findOrOpen_opens (user_ok hx) ho' hi
  refine ⟨x, i, w, user_ok hx, hi, ?_, ?_, ?_⟩
  · cases hw with
    | same hi hy hc hne ha he hclient hattach => exact .same hi hy hc hne ha he hclient hattach
    | found hi hy hc hn hclient hattach => exact .found hi hy hc hn hclient hattach
    | new ht hclient hattach => exact .new ht hclient hattach
  · refine hstill.trans (.trans (.setUser_of (user_ok hx') ?_) (.setSub_of (sub_ok hy) ?_))
    · rfl
    · rfl
  · refine (roster_setSub_of (sub_ok hy) ?_).trans ((roster_setUser_of (user_ok hx') ?_).trans hr)
    · rfl
    · rfl

theorem setChl_spec {ijson : JsonItem} {guser : Option UserId} {sub : Option SubId}
    (h : s.setChl ijson guser sub = .ok s') : Minor s s' ∧ s'.roster = s.roster := by
  unfold setChl at h
  split at h
  · obtain ⟨y, hy, h⟩ := bind_ok h
    cases h
    refine ⟨.setSub (sub_ok hy) ?_ ?_, roster_setSub_of (sub_ok hy) ?_⟩
    · rfl
    · rfl
    · rfl
  · cases h
    exact ⟨.refl, rfl⟩

/-! ### What follows the callback -/

theorem subOrHost_some {sub o : Option SubId} {guser : Option UserId} {host : Bytes}
    (h : s.subOrHost sub guser host = .ok o) (hs : sub = some i) : o = some i := by
  subst hs
  cases h
  rfl

section Finish

variable {cp : Callbackp} {sub sub' iuser iuser' : Option SubId} {flag : UInt32} {attach : Bool}
  {ret : Option Ret} {pc' : Pc}

theorem refuse_spec {code value : Bytes} (h : s.refuse cp pc sub code value = .ok (sub', s')) :
    Minor s s' ∧ s'.roster = s.roster ∧ ∀ i, sub = some i → sub' = some i := by
  unfold refuse at h
  simp only at h
  split at h
  · obtain ⟨o, ho, h⟩ := bind_ok h
    obtain ⟨i, -, h⟩ := bind_ok h
    obtain ⟨t, ht, h⟩ := bind_ok h
    cases h
    have hp := postRawSub_posted ht
    exact ⟨.of_posted hp, hp.roster, fun i hi => subOrHost_some ho hi⟩
  · cases h
    exact ⟨.sendRawInline, roster_sendRawInline, fun i hi => hi⟩

theorem reply_spec (h : s.reply cp pc sub flag = .ok (sub', s')) :
    Minor s s' ∧ s'.roster = s.roster ∧ ∀ i, sub = some i → sub' = some i := by
  unfold reply at h
  split at h
  · cases h
    exact ⟨.refl, rfl, fun i hi => hi⟩
  · split at h
    · exact refuse_spec h
    · split at h
      · exact refuse_spec h
      · cases h
        exact ⟨.refl, rfl, fun i hi => hi⟩

/-- The end of a command: its request has no user any more and is over, or its subuser is
marked as waiting. -/
theorem finishCmd_spec
    (h : s.finishCmd cp pc sub attach iuser flag = .ok (ret, pc', iuser', s')) :
    ∃ t, Minor s t ∧ t.roster = s.roster ∧
      ((hasFlag flag returnNull = true ∨ pc.guser = none) ∧ ret ≠ none ∧
          pc' = { pc with guser := none } ∧ iuser' = iuser ∧ s' = t ∨
        ∃ u i y, hasFlag flag returnNull = false ∧ pc.guser = some u ∧
          (∀ j, sub = some j → i = j) ∧ t.subs i = some y ∧ pc' = pc ∧
          iuser' = (if attach then some i else none) ∧
          s' = t.setSub i { y with state := .alive }) := by
  obtain ⟨⟨sub₁, t⟩, ht, h⟩ := bind_ok h
  obtain ⟨hq, hr, hsub⟩ := reply_spec ht
  refine ⟨t, hq, hr, ?_⟩
  simp only at h
  split at h
  · next u hu =>
    obtain ⟨o, ho, h⟩ := bind_ok h
    obtain ⟨i, hi, h⟩ := bind_ok h
    obtain ⟨y, hy, h⟩ := bind_ok h
    replace hi := useSub_ok hi
    cases h
    have hnull : hasFlag flag returnNull = false := by
      by_contra hne
      simp [Bool.eq_true_of_not_eq_false hne] at hu
    simp only [hnull, Bool.false_eq_true, if_false] at hu
    refine .inr ⟨u, i, y, hnull, hu, fun j hj => ?_, sub_ok hy, ?_, by rw [hi], rfl⟩
    · have := subOrHost_some ho (hsub j hj)
      rw [hi] at this
      exact Option.some.inj this
    · rw [← hu]
  · next hu =>
    cases h
    refine .inl ⟨?_, by simp, rfl, rfl, rfl⟩
    by_cases hnull : hasFlag flag returnNull = true
    · exact .inl hnull
    · rw [if_neg hnull] at hu
      exact .inr hu

end Finish

/-! ### `CONNECT` -/

theorem preallocate_cases {cp cp' : Callbackp} {pc' : Pc} {sub sub' : Option SubId}
    (h : s.preallocate cp pc sub = .ok (cp', pc', sub', s')) :
    (isConnect cp.cmd = false ∧ cp' = cp ∧ pc' = pc ∧ sub' = sub ∧ s' = s) ∨
    ∃ u t x, isConnect cp.cmd = true ∧ s.allocUser cp.client cp.host cp.ip = .ok (u, t) ∧
      t.users u = some x ∧ sub' = x.subuser.head? ∧
      cp' = { cp with call_user := some u, call_subuser := sub' } ∧
      pc' = { pc with guser := some u } ∧ s' = t.setUser u { x with transport := pc.transport } := by
  unfold preallocate at h
  split at h
  · next hc =>
    obtain ⟨⟨u, t⟩, ht, h⟩ := bind_ok h
    obtain ⟨x, hx, h⟩ := bind_ok h
    cases h
    exact .inr ⟨u, t, x, hc, ht, user_ok hx, rfl, rfl, rfl, rfl⟩
  · next hc =>
    cases h
    exact .inl ⟨by simpa using hc, rfl, rfl, rfl, rfl⟩

end Ape

theorem runCallback_ok {cmds : Cmds} {cmdback : Callback} {cp : Callbackp} {s s' : Ape}
    {flag : UInt32} {called : Option Ape}
    (h : runCallback cmds cmdback cp s = .ok (flag, called, s')) :
    ∃ fl t, callHooks cp cmds.hooks s = .ok (fl, t) ∧
      (fl = returnContinue ∧ called = some t ∧ cmdback.func cp t = .ok (flag, s') ∨
        fl ≠ returnContinue ∧ called = none ∧ flag = fl ∧ s' = t) := by
  obtain ⟨⟨fl, t⟩, ht, h⟩ := bind_ok h
  refine ⟨fl, t, ht, ?_⟩
  simp only at h
  split at h
  · next hc =>
    obtain ⟨⟨flag', t'⟩, ht', h⟩ := bind_ok h
    cases h
    exact .inl ⟨hc, rfl, ht'⟩
  · next hc =>
    cases h
    exact .inr ⟨hc, rfl, rfl, rfl⟩

end ApeServer
