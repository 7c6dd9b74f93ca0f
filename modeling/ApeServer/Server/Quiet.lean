import ApeServer.Server.Process
import ApeServer.Server.Deletion
import ApeServer.Server.Sessions

/-!
# Quiet steps

Most of what the server does touches neither who is connected to what nor who is timed out
when. A quiet step leaves every user its seat, every subuser its line and every socket its
wire.
-/
namespace ApeServer

open Sock (Bytes)
open Steps (ok_bind bind_ok foldlM_keeps)

/-- What of a user the connections depend on. -/
structure Seat where
  subuser : List SubId
  istmp : Bool
  sessid : Bytes
  transport : Transport
  type : UserType
  idle : ℤ

/-- What of a subuser the connections depend on. -/
structure Line where
  client : Fd
  user : Option UserId
  channel : Bytes
  state : SubState
  wait_for_free : Bool
  idle : ℤ

/-- What of a socket the connections depend on. -/
structure Wire where
  fd : Fd
  attach : Option SubId
  parser : Option Parser

def User.seat (x : User) : Seat := ⟨x.subuser, x.istmp, x.sessid, x.transport, x.type, x.idle⟩

def Subuser.line (y : Subuser) : Line :=
  ⟨y.client, y.user, y.channel, y.state, y.wait_for_free, y.idle⟩

def Socket.wire (k : Socket) : Wire := ⟨k.fd, k.attach, k.parser⟩

/-- What of a subuser says how far its response is. -/
structure Progress where
  burn_after_writing : Bool
  headersSent : Bool

def Subuser.progress (y : Subuser) : Progress := ⟨y.burn_after_writing, y.headersSent⟩

/-- What `send_raws` writes, as opposed to what goes out past the queues. -/
def Written.fromQueue : Written → Bool
  | .headers | .raws _ _ => true
  | .inline _ | .other => false

/-- Nothing was sent from a queue, what was pending still is, and a connection that takes no
more writes takes none. -/
structure Wet (k k' : Socket) : Prop where
  bufout : k.bufout = true → k'.bufout = true
  out : ∃ ws, k'.out = k.out ++ ws ∧ ∀ w ∈ ws, w.fromQueue = false
  down : k.shut = true → k.bufout = false → k'.shut = true ∧ k'.bufout = false

theorem Wet.of_eq {k k' : Socket} (hb : k'.bufout = k.bufout) (ho : k'.out = k.out)
    (hs : k.shut = true → k'.shut = true) : Wet k k' :=
  ⟨fun h => hb.trans h, ⟨[], by simp [ho], by simp⟩, fun h h' => ⟨hs h, hb.trans h'⟩⟩

theorem Wet.refl {k : Socket} : Wet k k := .of_eq rfl rfl id

theorem Wet.trans {k k' k'' : Socket} (h : Wet k k') (h' : Wet k' k'') : Wet k k'' := by
  obtain ⟨ws, hw, hn⟩ := h.out
  obtain ⟨ws', hw', hn'⟩ := h'.out
  refine ⟨fun hb => h'.bufout (h.bufout hb), ⟨ws ++ ws', ?_, fun w hm => ?_⟩, fun hs hb => ?_⟩
  · rw [hw', hw, List.append_assoc]
  · exact (List.mem_append.mp hm).elim (hn w) (hn' w)
  · obtain ⟨hs', hb'⟩ := h.down hs hb
    exact h'.down hs' hb'

namespace Ape

variable {s s' t : Ape} {u : UserId} {i : SubId} {c : ChanId} {x x' : User} {y y' : Subuser}
  {z : Channel}

structure Quiet (s s' : Ape) : Prop where
  users : ∀ u, (s'.users u).map User.seat = (s.users u).map User.seat
  subs : ∀ i, (s'.subs i).map Subuser.line = (s.subs i).map Subuser.line
  co : ∀ fd, (s'.co fd).wire = (s.co fd).wire
  hSessid : s'.hSessid = s.hSessid
  time : s'.time = s.time
  nConnected : s'.nConnected = s.nConnected
  fresh : s.fresh ≤ s'.fresh

namespace Quiet

theorem refl : Quiet s s := ⟨fun _ => rfl, fun _ => rfl, fun _ => rfl, rfl, rfl, rfl, le_rfl⟩

theorem trans (h : Quiet s t) (h' : Quiet t s') : Quiet s s' :=
  ⟨fun u => (h'.users u).trans (h.users u), fun i => (h'.subs i).trans (h.subs i),
    fun fd => (h'.co fd).trans (h.co fd), h'.hSessid.trans h.hSessid, h'.time.trans h.time,
    h'.nConnected.trans h.nConnected, h.fresh.trans h'.fresh⟩

theorem user (h : Quiet s s') (hx : s.users u = some x) :
    ∃ x', s'.users u = some x' ∧ x'.seat = x.seat := by
  have := h.users u
  rw [hx] at this
  exact Option.map_eq_some_iff.mp this

theorem user_back (h : Quiet s s') (hx : s'.users u = some x') :
    ∃ x, s.users u = some x ∧ x'.seat = x.seat := by
  have := h.users u
  rw [hx] at this
  obtain ⟨x, hx, he⟩ := Option.map_eq_some_iff.mp this.symm
  exact ⟨x, hx, he.symm⟩

theorem sub (h : Quiet s s') (hy : s.subs i = some y) :
    ∃ y', s'.subs i = some y' ∧ y'.line = y.line := by
  have := h.subs i
  rw [hy] at this
  exact Option.map_eq_some_iff.mp this

theorem sub_back (h : Quiet s s') (hy : s'.subs i = some y') :
    ∃ y, s.subs i = some y ∧ y'.line = y.line := by
  have := h.subs i
  rw [hy] at this
  obtain ⟨y, hy, he⟩ := Option.map_eq_some_iff.mp this.symm
  exact ⟨y, hy, he.symm⟩

theorem live (h : Quiet s s') (u : UserId) : s'.users u ≠ none ↔ s.users u ≠ none := by
  have := h.users u
  cases hx : s.users u <;> cases hx' : s'.users u <;> simp_all

/-! ### Single writes -/

theorem setUser (hx : s.users u = some x) (hs : x'.seat = x.seat) : Quiet s (s.setUser u x') where
  users v := by
    by_cases hv : v = u
    · subst hv
      simp [hx, hs]
    · simp [hv]
  subs _ := rfl
  co _ := rfl
  hSessid := rfl
  time := rfl
  nConnected := rfl
  fresh := le_rfl

theorem setSub (hy : s.subs i = some y) (hs : y'.line = y.line) : Quiet s (s.setSub i y') where
  users _ := rfl
  subs j := by
    by_cases hj : j = i
    · subst hj
      simp [hy, hs]
    · simp [hj]
  co _ := rfl
  hSessid := rfl
  time := rfl
  nConnected := rfl
  fresh := le_rfl

theorem setChan : Quiet s (s.setChan c z) :=
  ⟨fun _ => rfl, fun _ => rfl, fun _ => rfl, rfl, rfl, rfl, le_rfl⟩

theorem setCo {fd : Fd} {k : Socket} (hk : k.wire = (s.co fd).wire) : Quiet s (s.setCo fd k) where
  users _ := rfl
  subs _ := rfl
  co e := by
    by_cases he : e = fd
    · subst he
      simp [hk]
    · simp [he]
  hSessid := rfl
  time := rfl
  nConnected := rfl
  fresh := le_rfl

theorem send {fd : Fd} {w : Written} : Quiet s (s.send fd w).2 := by
  unfold Ape.send
  simp only
  split_ifs
  · exact .refl
  · exact .setCo rfl
  · exact .refl
  · set k : Socket := { s.co fd with out := (s.co fd).out ++ [w], bufout := !s.io s.nio }
    have hk : Quiet s (s.setCo fd k) := .setCo rfl
    exact ⟨hk.users, hk.subs, hk.co, hk.hSessid, hk.time, hk.nConnected, hk.fresh⟩

theorem safeShutdown {fd : Fd} : Quiet s (s.safeShutdown fd) := by
  unfold Ape.safeShutdown
  simp only
  split <;> exact .setCo rfl

theorem sendRawInline {fd : Fd} {raw : RawMsg} : Quiet s (s.sendRawInline fd raw) := send

theorem of_posted (h : Posted s s') : Quiet s s' := by
  refine ⟨fun u => ?_, fun i => ?_, fun fd => ?_, ?_, ?_, ?_, ?_⟩
  · rw [h.users]
  · have := congrArg (Option.map Subuser.line) (h.subs i)
    rw [Option.map_map, Option.map_map] at this
    exact this
  · rw [h.co]
  · rw [h.rest]
  · rw [h.rest]
  · rw [h.rest]
  · rw [h.rest]

end Quiet

/-! ### Minor steps -/

/-- A quiet step that sends nothing from a queue and leaves every response where it is. -/
structure Minor (s s' : Ape) : Prop extends Quiet s s' where
  progress : ∀ i, (s'.subs i).map Subuser.progress = (s.subs i).map Subuser.progress
  wet : ∀ fd, Wet (s.co fd) (s'.co fd)

namespace Minor

theorem of_eq (hu : s'.users = s.users) (hs : s'.subs = s.subs) (hc : s'.co = s.co)
    (hh : s'.hSessid = s.hSessid) (ht : s'.time = s.time)
    (hn : s'.nConnected = s.nConnected) (hf : s.fresh ≤ s'.fresh) : Minor s s' where
  users u := by rw [hu]
  subs i := by rw [hs]
  co fd := by rw [hc]
  hSessid := hh
  time := ht
  nConnected := hn
  fresh := hf
  progress i := by rw [hs]
  wet fd := by
    rw [hc]
    exact .refl

theorem refl : Minor s s := of_eq rfl rfl rfl rfl rfl rfl le_rfl

theorem trans (h : Minor s t) (h' : Minor t s') : Minor s s' :=
  ⟨h.toQuiet.trans h'.toQuiet, fun i => (h'.progress i).trans (h.progress i),
    fun fd => (h.wet fd).trans (h'.wet fd)⟩

theorem setUser (hx : s.users u = some x) (hs : x'.seat = x.seat) : Minor s (s.setUser u x') :=
  ⟨.setUser hx hs, fun _ => rfl, fun _ => .refl⟩

theorem setSub (hy : s.subs i = some y) (hs : y'.line = y.line) (hp : y'.progress = y.progress) :
    Minor s (s.setSub i y') := by
  refine ⟨.setSub hy hs, fun j => ?_, fun _ => .refl⟩
  by_cases hj : j = i
  · subst hj
    simp [hy, hp]
  · simp [hj]

theorem setChan : Minor s (s.setChan c z) := of_eq rfl rfl rfl rfl rfl rfl le_rfl

theorem foot (hx : s.users u = some x) (l : List ChanId) :
    Minor s (s.setUser u { x with chan_foot := l }) := setUser hx rfl

theorem of_posted (h : Posted s s') : Minor s s' := by
  refine ⟨.of_posted h, fun i => ?_, fun fd => ?_⟩
  · have hi := congrArg (Option.map Subuser.progress) (h.subs i)
    rw [Option.map_map, Option.map_map] at hi
    exact hi
  · rw [h.co]
    exact .refl

theorem send {w : Written} (fd : Fd) (hw : w.fromQueue = false) : Minor s (s.send fd w).2 := by
  refine ⟨.send, fun i => ?_, fun e => ?_⟩
  · unfold Ape.send
    simp only
    split_ifs <;> rfl
  · have hadd : ∀ b, (b = true ∧ (s.co fd).bufout = true ∨
        (s.co fd).bufout = false ∧ (s.co fd).shut ≠ true) →
        Wet (s.co fd) { s.co fd with out := (s.co fd).out ++ [w], bufout := b } := by
      intro b hb
      refine ⟨fun hp => ?_, ⟨[w], rfl, by simpa using hw⟩, fun hs hn => ?_⟩
      · rcases hb with ⟨hb, -⟩ | ⟨hb, -⟩
        · exact hb
        · rw [hp] at hb
          cases hb
      · rcases hb with ⟨-, hb⟩ | ⟨-, hb⟩
        · rw [hn] at hb
          cases hb
        · exact absurd hs hb
    have hset : ∀ k, Wet (s.co fd) k → Wet (s.co e) (Function.update s.co fd k e) := by
      intro k hk
      by_cases he : e = fd
      · subst he
        rwa [Function.update_self]
      · rw [Function.update_of_ne he]
        exact .refl
    unfold Ape.send
    simp only
    split_ifs with h1 h2 h3
    · exact .refl
    · have := hadd true (.inl ⟨rfl, h2⟩)
      rw [← h2] at this
      exact hset _ this
    · exact .refl
    · exact hset _ (hadd _ (.inr ⟨by simpa using h2, h3⟩))

theorem sendRawInline {fd : Fd} {raw : RawMsg} : Minor s (s.sendRawInline fd raw) := send _ rfl

theorem setCo {fd : Fd} {k : Socket} (hk : k.wire = (s.co fd).wire) (hw : Wet (s.co fd) k) :
    Minor s (s.setCo fd k) := by
  refine ⟨.setCo hk, fun _ => rfl, fun e => ?_⟩
  by_cases he : e = fd
  · subst he
    simpa using hw
  · simp only [setCo_co, ne_eq, he, not_false_eq_true, Function.update_of_ne]
    exact .refl

theorem safeShutdown {fd : Fd} : Minor s (s.safeShutdown fd) := by
  unfold Ape.safeShutdown
  simp only
  split
  · exact .setCo rfl (.of_eq rfl rfl id)
  · exact .setCo rfl (.of_eq rfl rfl fun _ => rfl)

end Minor

/-! ### Channels -/

theorem freeChan_minor (hl : s.freeChan c = .ok s') : Minor s s' := by
  obtain ⟨z, -, hl⟩ := bind_ok hl
  cases hl
  exact .of_eq rfl rfl rfl rfl rfl rfl le_rfl

theorem left_minor (hl : s.left u c = .ok s') : Minor s s' := by
  obtain ⟨x, hx, hl⟩ := bind_ok hl
  split at hl
  · cases hl
    exact .refl
  · have h1 : Minor s (s.setUser u (x.leave c)) := .setUser (user_ok hx) rfl
    obtain ⟨z, -, hl⟩ := bind_ok hl
    split at hl
    · cases hl
      exact h1
    · obtain ⟨t, ht, hl⟩ := bind_ok hl
      have h2 : Minor s (t.setChan c (z.leave u)) :=
        (h1.trans (.of_posted (postRaw_posted ht))).trans .setChan
      simp only at hl
      split at hl
      · exact h2.trans (.of_posted (postRawChannel_posted hl))
      · split at hl
        · exact h2.trans (freeChan_minor hl)
        · cases hl
          exact h2

theorem leftChans_minor {l : List ChanId} (hl : s.leftChans u l = .ok s') : Minor s s' := by
  induction l generalizing s with
  | nil =>
    cases hl
    exact .refl
  | cons c l ih =>
    obtain ⟨x, -, hl⟩ := bind_ok hl
    split at hl
    · obtain ⟨t, ht, hl⟩ := bind_ok hl
      exact (left_minor ht).trans (ih hl)
    · cases hl

theorem leftAll_minor (hl : s.leftAll u = .ok s') : Minor s s' := by
  obtain ⟨x, -, hl⟩ := bind_ok hl
  exact leftChans_minor hl

theorem join_minor (hl : s.join u c = .ok s') : Minor s s' := by
  obtain ⟨x, hx, hl⟩ := bind_ok hl
  split at hl
  · cases hl
    exact .refl
  · obtain ⟨z, -, hl⟩ := bind_ok hl
    obtain ⟨⟨jlist, t⟩, ht, hl⟩ := bind_ok hl
    have h1 : Minor s (s.setChan c { z with head := ⟨u, 1⟩ :: z.head }) := .setChan
    have h2 : Minor (s.setChan c { z with head := ⟨u, 1⟩ :: z.head }) _ :=
      Minor.foot (s := s.setChan c _) (user_ok hx) (c :: x.chan_foot)
    exact ((h1.trans h2).trans (.of_posted (welcome_posted ht))).trans (.of_posted (postRaw_posted hl))

theorem setNext_minor {p v : Option UserId} (hl : s.setNext p v = .ok s') : Minor s s' := by
  cases p with
  | none =>
    cases hl
    exact .of_eq rfl rfl rfl rfl rfl rfl le_rfl
  | some n =>
    obtain ⟨x, hx, hl⟩ := bind_ok hl
    cases hl
    exact .setUser (user_ok hx) rfl

theorem setPrev_minor {p v : Option UserId} (hl : s.setPrev p v = .ok s') : Minor s s' := by
  cases p with
  | none =>
    cases hl
    exact .refl
  | some n =>
    obtain ⟨x, hx, hl⟩ := bind_ok hl
    cases hl
    exact .setUser (user_ok hx) rfl

theorem setNext_subs {p v : Option UserId} (hl : s.setNext p v = .ok s') :
    s'.subs = s.subs ∧ s'.co = s.co := by
  cases p with
  | none =>
    cases hl
    exact ⟨rfl, rfl⟩
  | some n =>
    obtain ⟨x, -, hl⟩ := bind_ok hl
    cases hl
    exact ⟨rfl, rfl⟩

theorem setPrev_subs {p v : Option UserId} (hl : s.setPrev p v = .ok s') :
    s'.subs = s.subs ∧ s'.co = s.co := by
  cases p with
  | none =>
    cases hl
    exact ⟨rfl, rfl⟩
  | some n =>
    obtain ⟨x, -, hl⟩ := bind_ok hl
    cases hl
    exact ⟨rfl, rfl⟩

/-- `deluser`: the channels are left, the subusers are deleted, and the user goes. -/
theorem deluser_ok (hl : s.deluser u = .ok s') : ∃ t₁ t₂ x₁, s.leftAll u = .ok t₁ ∧
    t₁.users u = some x₁ ∧ t₁.clearSubs u x₁.subuser = .ok t₂ ∧ s'.subs = t₂.subs ∧
    s'.co = t₂.co ∧ s'.users u = none ∧
    (∀ v, v ≠ u → (s'.users v).map User.seat = (t₂.users v).map User.seat) ∧
    s'.time = t₂.time ∧ t₂.fresh ≤ s'.fresh := by
  obtain ⟨t₁, ht₁, hl⟩ := bind_ok hl
  obtain ⟨t₂, ht₂, hl⟩ := bind_ok hl
  obtain ⟨x, -, hl⟩ := bind_ok hl
  obtain ⟨t₃, ht₃, hl⟩ := bind_ok hl
  obtain ⟨t₄, ht₄, hl⟩ := bind_ok hl
  obtain ⟨x₁, hx₁, ht₂⟩ := bind_ok ht₂
  cases hl
  have hq := (setNext_minor ht₃).trans (setPrev_minor ht₄)
  obtain ⟨hs₃, hc₃⟩ := setNext_subs ht₃
  obtain ⟨hs₄, hc₄⟩ := setPrev_subs ht₄
  refine ⟨t₁, t₂, x₁, ht₁, user_ok hx₁, ht₂, hs₄.trans hs₃, hc₄.trans hc₃,
    Function.update_self .., fun v hv => ?_, hq.time, hq.fresh⟩
  simp only [destroyPipe, ne_eq, hv, not_false_eq_true, Function.update_of_ne]
  exact hq.users v

theorem genSessidNew_minor {id : Bytes} (hl : s.genSessidNew = .ok (id, s')) : Minor s s' := by
  obtain ⟨⟨id', ds⟩, -, hl⟩ := bind_ok hl
  cases hl
  exact .of_eq rfl rfl rfl rfl rfl rfl le_rfl

theorem initPipe_minor {p : Pipe} {pubid : Bytes} (hl : s.initPipe p = .ok (pubid, s')) :
    Minor s s' := by
  obtain ⟨⟨id, t⟩, ht, hl⟩ := bind_ok hl
  cases hl
  exact (genSessidNew_minor ht).trans (.of_eq rfl rfl rfl rfl rfl rfl le_rfl)

theorem mkchan_minor {name : Bytes} {auto : Bool} {o : Option ChanId}
    (hl : s.mkchan name auto = .ok (o, s')) : Minor s s' := by
  unfold mkchan at hl
  split at hl
  · cases hl
    exact .refl
  · obtain ⟨⟨pubid, t⟩, ht, hl⟩ := bind_ok hl
    cases hl
    have h1 : Minor s { s with fresh := s.fresh + 1 } :=
      .of_eq rfl rfl rfl rfl rfl rfl (Nat.le_succ _)
    exact (h1.trans (initPipe_minor ht)).trans (.of_eq rfl rfl rfl rfl rfl rfl le_rfl)

theorem getban_minor {ip : Bytes} {b : Option Banned} (hl : s.getban c ip = .ok (b, s')) :
    Minor s s' := by
  obtain ⟨z, -, hl⟩ := bind_ok hl
  cases hl
  exact .setChan

/-! ### The built-in commands -/

theorem sendError_minor {msg code : Bytes} (hl : s.sendError u msg code = .ok s') : Minor s s' :=
  .of_posted (sendError_posted hl)

theorem joinOne_minor {name : Bytes} (hl : s.joinOne u name = .ok s') : Minor s s' := by
  unfold joinOne at hl
  split at hl
  · obtain ⟨⟨o, t⟩, ht, hl⟩ := bind_ok hl
    refine (mkchan_minor ht).trans ?_
    cases o with
    | none => exact sendError_minor hl
    | some c => exact join_minor hl
  · obtain ⟨x, -, hl⟩ := bind_ok hl
    split at hl
    · exact sendError_minor hl
    · obtain ⟨⟨b, t⟩, ht, hl⟩ := bind_ok hl
      refine (getban_minor ht).trans ?_
      cases b with
      | some b => exact .of_posted (postRaw_posted hl)
      | none => exact join_minor hl

section Commands

variable {cp : Callbackp} {flag : UInt32}

theorem cmdJoin_minor (hl : cmdJoin cp s = .ok (flag, s')) : Minor s s' := by
  obtain ⟨t, ht, hl⟩ := bind_ok hl
  cases hl
  refine foldlM_keeps (Minor s) (fun t name t' _ hs ht => ?_) .refl ht
  obtain ⟨u, -, ht⟩ := bind_ok ht
  exact hs.trans (joinOne_minor ht)

theorem cmdLeft_minor (hl : cmdLeft cp s = .ok (flag, s')) : Minor s s' := by
  unfold cmdLeft at hl
  split at hl
  · cases hl
    exact .refl
  · obtain ⟨u, -, hl⟩ := bind_ok hl
    split at hl
    · obtain ⟨t, ht, hl⟩ := bind_ok hl
      cases hl
      exact sendError_minor ht
    · obtain ⟨x, -, hl⟩ := bind_ok hl
      split at hl
      · obtain ⟨t, ht, hl⟩ := bind_ok hl
        cases hl
        exact sendError_minor ht
      · obtain ⟨t, ht, hl⟩ := bind_ok hl
        cases hl
        exact left_minor ht

theorem echo_posted {jlist : JsonItem} {rawname : Bytes} {recver : Pipe}
    (hl : s.echo jlist rawname recver u x i = .ok s') : Posted s s' := by
  unfold echo at hl
  split at hl
  · obtain ⟨o, -, hl⟩ := bind_ok hl
    obtain ⟨copy, -, hl⟩ := bind_ok hl
    exact postRawRestricted_posted hl
  · cases hl
    exact .refl

theorem deliver_posted {jlist : JsonItem} {rawname : Bytes} {recver : Pipe}
    (hl : s.deliver jlist rawname u x recver = .ok s') : Posted s s' := by
  cases recver with
  | user v => exact postRaw_posted hl
  | channel c =>
    obtain ⟨z, -, hl⟩ := bind_ok hl
    split at hl
    · exact postRawChannelRestricted_posted hl
    · cases hl
      exact .refl
  | proxy =>
    cases hl
    exact .refl
  | custom =>
    cases hl
    exact .refl

/-- A message changes queues and nothing else. -/
theorem postToPipe_posted {jlist : JsonItem} {rawname pipe : Bytes} {b : Bool}
    (hl : s.postToPipe jlist rawname pipe i = .ok (b, s')) : Posted s s' := by
  obtain ⟨y, -, hl⟩ := bind_ok hl
  obtain ⟨u, -, hl⟩ := bind_ok hl
  obtain ⟨x, -, hl⟩ := bind_ok hl
  split at hl
  · obtain ⟨t, ht, hl⟩ := bind_ok hl
    cases hl
    exact sendError_posted ht
  · obtain ⟨t, ht, hl⟩ := bind_ok hl
    obtain ⟨t', ht', hl⟩ := bind_ok hl
    cases hl
    exact (echo_posted ht).trans (deliver_posted ht')

theorem cmdSend_posted (hl : cmdSend cp s = .ok (flag, s')) : Posted s s' := by
  unfold cmdSend at hl
  split at hl
  · obtain ⟨i, -, hl⟩ := bind_ok hl
    obtain ⟨⟨b, t⟩, ht, hl⟩ := bind_ok hl
    cases hl
    exact postToPipe_posted ht
  · cases hl
    exact .refl

theorem setSession_seat {key val : Bytes} (h : setSession x key val = some x') :
    x'.seat = x.seat ∧ x'.links = x.links := by
  obtain ⟨-, -, ⟨old, -, rfl⟩ | ⟨-, rfl⟩⟩ := setSession_cases h
  · exact ⟨rfl, rfl⟩
  · exact ⟨rfl, rfl⟩

/-- One pair of a session changes the sessions of its user, or posts an error. -/
theorem setOne_spec {p : Bytes × Bytes} (hl : s.setOne u p = .ok s') :
    Minor s s' ∧ s'.roster = s.roster := by
  obtain ⟨x, hx, hl⟩ := bind_ok hl
  split at hl
  · next x' hset =>
    cases hl
    obtain ⟨hs, hk⟩ := setSession_seat hset
    exact ⟨.setUser (user_ok hx) hs, roster_setUser_of (user_ok hx) hk⟩
  · exact ⟨sendError_minor hl, (sendError_posted hl).roster⟩

theorem cmdSession_spec (hl : cmdSession cp s = .ok (flag, s')) :
    Minor s s' ∧ s'.roster = s.roster := by
  unfold cmdSession at hl
  split at hl
  · cases hl
    exact ⟨.refl, rfl⟩
  · split at hl
    · obtain ⟨t, ht, hl⟩ := bind_ok hl
      cases hl
      refine foldlM_keeps (fun t => Minor s t ∧ t.roster = s.roster)
        (fun t p t' _ hs ht => ?_) ⟨.refl, rfl⟩ ht
      obtain ⟨u, -, ht⟩ := bind_ok ht
      obtain ⟨h1, h2⟩ := setOne_spec ht
      exact ⟨hs.1.trans h1, h2.trans hs.2⟩
    · split at hl
      · simp only at hl
        split at hl
        · cases hl
          exact ⟨.refl, rfl⟩
        · obtain ⟨u, -, hl⟩ := bind_ok hl
          obtain ⟨x, -, hl⟩ := bind_ok hl
          obtain ⟨j, -, hl⟩ := bind_ok hl
          obtain ⟨t, ht, hl⟩ := bind_ok hl
          cases hl
          have hp := postRawSub_posted ht
          exact ⟨.of_posted hp, hp.roster⟩
      · cases hl
        exact ⟨.refl, rfl⟩

theorem cmdScript_spec {domain : Bool} (hl : cmdScript domain cp s = .ok (flag, s')) :
    Minor s s' ∧ s'.roster = s.roster := by
  unfold cmdScript at hl
  split at hl
  · obtain ⟨u, -, hl⟩ := bind_ok hl
    obtain ⟨t, ht, hl⟩ := bind_ok hl
    cases hl
    exact ⟨sendError_minor ht, (sendError_posted ht).roster⟩
  · cases hl
    have hfold : ∀ (fd : Fd) (l : List Bytes) (t : Ape), Minor s t ∧ t.roster = s.roster →
        Minor s (l.foldl (fun s _ => (s.send fd .other).2) t) ∧
          (l.foldl (fun s _ => (s.send fd .other).2) t).roster = s.roster := by
      intro fd l
      induction l with
      | nil => exact fun t ht => ht
      | cons b l ih => exact fun t ht => ih _ ⟨ht.1.trans (.send _ rfl), by simp [ht.2]⟩
    obtain ⟨h1, h2⟩ := hfold (s.co cp.client).fd (jforeach cp.param (bytes "scripts")) _
      ⟨Minor.send (w := .other) _ rfl, roster_send⟩
    exact ⟨h1.trans (.send _ rfl), roster_send.trans h2⟩

end Commands

end Ape

end ApeServer
