import ApeServer.Sock.Sockroutine
import ApeServer.Sock.Shutdown
import ApeServer.Lib.Triple

/-!
# What becomes of a descriptor

The events of one descriptor follow the phases of a connection: it is opened, has its callbacks
called while it is online, and is told once that its peer is gone before it is closed and may be
opened again.
-/
namespace ApeServer.Sock

open Steps (Yields)

/-- What a descriptor is in the middle of. -/
inductive Phase where
  | closed
  /-- a connection is being made -/
  | opening
  /-- online, and yet to be greeted -/
  | fresh (greeting : CallbackName)
  | online
  /-- the peer is gone, and `on_disconnect` is to be called if `told` -/
  | ending (told : Bool)
  | ended
  | listening
  | delegated
deriving DecidableEq, Repr

def Trace.fd : Trace → ℕ
  | .listening fd | .accepted fd | .dialled fd | .delegated fd | .connected fd | .called fd _ _
  | .hungUp fd _ | .closed fd => fd

namespace Phase

/-- Where an event leads a descriptor that may have it. -/
def next : Phase → Trace → Option Phase
  | .closed, .listening _ => some .listening
  | .closed, .accepted _ => some (.fresh .on_accept)
  | .closed, .dialled _ => some .opening
  | .closed, .delegated _ => some .delegated
  | .opening, .connected _ => some (.fresh .on_connect)
  | .fresh greeting, .called _ name _ =>
    if name ∈ [greeting, .on_read, .on_read_lf, .on_data_completly_sent] then some .online else none
  | .online, .called _ name _ =>
    if name ∈ [.on_read, .on_read_lf, .on_data_completly_sent] then some .online else none
  | .delegated, .called _ name _ =>
    if name ∈ [.on_read, .on_write, .on_data_completly_sent] then some .delegated else none
  | .opening, .hungUp _ told | .fresh _, .hungUp _ told | .online, .hungUp _ told
  | .delegated, .hungUp _ told => some (.ending told)
  | .ending true, .called _ .on_disconnect _ => some .ended
  | .ending false, .closed _ | .ended, .closed _ | .listening, .closed _ => some .closed
  | _, _ => none

/-- The phase a descriptor is in after its events. -/
def follow (fd : ℕ) (trace : List Trace) : Option Phase :=
  (trace.filter (·.fd = fd)).foldlM next .closed

/-- No call is running that has to end in a `close`. -/
def Settled : Phase → Prop
  | .ending _ | .ended => False
  | _ => True

/-- The buffer of a socket has room. -/
def Buffered (x : ApeSocket) : Prop := ∃ b, x.buffer_in = some b ∧ b.buffer.Sized

/-- The socket of a descriptor in a phase. -/
def Fits (x : ApeSocket) : Phase → Prop
  | .closed => False
  | .opening => x.stream_type = .streamOut ∧ x.state = .progress ∧ Buffered x
  | .fresh _ | .online =>
    (x.stream_type = .streamIn ∨ x.stream_type = .streamOut) ∧ x.state = .online ∧ Buffered x
  | .ending _ | .ended => True
  | .listening => x.stream_type = .streamServer
  | .delegated => x.stream_type = .streamDelegate ∧ x.buffer_in = none

/-- Phases in which the peer may be found gone. -/
def Live : Phase → Prop
  | .opening | .fresh _ | .online | .delegated => True
  | _ => False

theorem Live.next {p : Phase} {fd : ℕ} {told : Bool} (h : p.Live) :
    p.next (.hungUp fd told) = some (.ending told) := by
  cases p <;> first | rfl | cases h

theorem Live.settled {p : Phase} (h : p.Live) : p.Settled := by
  cases p <;> trivial

end Phase

/-- A run stops over what the kernel and the callbacks cannot do, or over 2^31 bytes. -/
def Fault.Outside (e : Fault) : Prop := e = .input ∨ e = .full

namespace Loop

variable {s s' : Loop} {ph ph' : ℕ → Phase} {fd e : ℕ} {x : ApeSocket} {o : Bufout} {k : Session}
  {p p' : Phase} {t : Trace}

/-- An open descriptor with its socket and its output. -/
structure Held (s : Loop) (fd : ℕ) (k : Session) (p : Phase) (x : ApeSocket) (o : Bufout) :
    Prop where
  co : s.co[fd]? = some (some x)
  bufout : s.bufout[fd]? = some o
  nonzero : fd ≠ 0
  own : x.fd = fd
  sent : Accounted k.given (conn fd x o k)
  fits : p.Fits x

/-- A descriptor that is not open: its socket is marked and it has nothing queued. -/
structure Free (s : Loop) (fd : ℕ) (p : Phase) : Prop where
  phase : p = .closed
  unmarked : ∀ x, s.co[fd]? = some (some x) → x.fd = 0
  empty : ∀ o, fd ≠ 0 → s.bufout[fd]? = some o → o.Inv ∧ o.buf = none

def Slot (s : Loop) (fd : ℕ) (p : Phase) : Prop :=
  match s.kernel fd with
  | none => s.Free fd p
  | some k => ∃ x o, s.Held fd k p x o

/-- The arrays have `basemem` entries, every descriptor is in the phase its events lead to, and
`on_data_completly_sent` is called when everything has been taken. -/
structure Wired (s : Loop) (ph : ℕ → Phase) : Prop where
  co_length : s.co.length = s.basemem
  bufout_length : s.bufout.length = s.basemem
  pos : 0 < s.basemem
  events : s.basemem ≤ s.events
  follow : ∀ fd, Phase.follow fd s.trace = some (ph fd)
  slot : ∀ fd, s.Slot fd (ph fd)
  drained : ∀ fd k, Trace.called fd .on_data_completly_sent k ∈ s.trace →
    ∃ k', k = some k' ∧ k'.taken = k'.given

/-! ## What the operations leave alone -/

/-- Two states that agree about one descriptor. -/
structure Alike (s s' : Loop) (fd : ℕ) : Prop where
  co : s'.co[fd]? = s.co[fd]?
  bufout : s'.bufout[fd]? = s.bufout[fd]?
  kernel : s'.kernel fd = s.kernel fd

theorem Alike.refl (s : Loop) (fd : ℕ) : Alike s s fd := ⟨rfl, rfl, rfl⟩

theorem Held.alike (h : s.Held fd k p x o) (ha : Alike s s' fd) : s'.Held fd k p x o where
  co := ha.co.trans h.co
  bufout := ha.bufout.trans h.bufout
  nonzero := h.nonzero
  own := h.own
  sent := h.sent
  fits := h.fits

theorem Slot.alike (h : s.Slot fd p) (ha : Alike s s' fd) : s'.Slot fd p := by
  unfold Slot at *
  rw [ha.kernel]
  cases hk : s.kernel fd with
  | none =>
    rw [hk] at h
    exact ⟨h.phase, fun x hx => h.unmarked x (ha.co ▸ hx),
      fun o h0 ho => h.empty o h0 (ha.bufout ▸ ho)⟩
  | some k =>
    rw [hk] at h
    obtain ⟨x, o, hh⟩ := h
    exact ⟨x, o, hh.alike ha⟩

/-- Nothing but the entries of one descriptor is changed. -/
structure Only (s s' : Loop) (fd : ℕ) : Prop where
  basemem : s'.basemem = s.basemem
  events : s'.events = s.events
  co_length : s'.co.length = s.co.length
  bufout_length : s'.bufout.length = s.bufout.length
  alike : ∀ e, e ≠ fd → Alike s s' e

theorem Only.refl (s : Loop) (fd : ℕ) : Only s s fd :=
  ⟨rfl, rfl, rfl, rfl, fun e _ => .refl s e⟩

theorem Only.trans {s'' : Loop} (h : Only s s' fd) (h' : Only s' s'' fd) : Only s s'' fd where
  basemem := h'.basemem.trans h.basemem
  events := h'.events.trans h.events
  co_length := h'.co_length.trans h.co_length
  bufout_length := h'.bufout_length.trans h.bufout_length
  alike e he :=
    have ha := h.alike e he
    have ha' := h'.alike e he
    ⟨ha'.co.trans ha.co, ha'.bufout.trans ha.bufout, ha'.kernel.trans ha.kernel⟩

theorem only_setSocket : Only s (s.setSocket fd x) fd :=
  ⟨rfl, rfl, List.length_set, rfl, fun _ he => ⟨List.getElem?_set_ne he.symm, rfl, rfl⟩⟩

theorem only_setOut : Only s (s.setOut fd o) fd :=
  ⟨rfl, rfl, rfl, List.length_set, fun _ he => ⟨rfl, List.getElem?_set_ne he.symm, rfl⟩⟩

theorem only_setKernel {q : Option Session} : Only s (s.setKernel fd q) fd :=
  ⟨rfl, rfl, rfl, rfl, fun _ he => ⟨rfl, rfl, Function.update_of_ne he _ _⟩⟩

/-- A change at one descriptor without an event. -/
theorem Wired.change (h : s.Wired ph) (ho : Only s s' fd) (ht : s'.trace = s.trace)
    (hs : s'.Slot fd (ph fd)) : s'.Wired ph where
  co_length := by rw [ho.co_length, ho.basemem, h.co_length]
  bufout_length := by rw [ho.bufout_length, ho.basemem, h.bufout_length]
  pos := ho.basemem ▸ h.pos
  events := by
    rw [ho.basemem, ho.events]
    exact h.events
  follow e := ht ▸ h.follow e
  slot e := by
    by_cases he : e = fd
    · exact he ▸ hs
    · exact (h.slot e).alike (ho.alike e he)
  drained := ht ▸ h.drained

theorem Held.socket (h : s.Held fd k p x o) : s.socket fd = .ok x := by
  rw [Loop.socket, h.co]

theorem Held.client (h : s.Held fd k p x o) : s.client fd = .ok x := by
  rw [Loop.client, h.co]

theorem Held.out (h : s.Held fd k p x o) : s.out fd = .ok o := by
  rw [Loop.out, h.bufout]

theorem Held.socket_eq (h : s.Held fd k p x o) {y : ApeSocket} (hy : s.co[fd]? = some (some y)) :
    y = x := by
  rw [h.co] at hy
  exact (Option.some.inj (Option.some.inj hy)).symm

theorem Held.lt_co (h : s.Held fd k p x o) : fd < s.co.length :=
  (List.getElem?_eq_some_iff.mp h.co).1

theorem Held.lt_bufout (h : s.Held fd k p x o) : fd < s.bufout.length :=
  (List.getElem?_eq_some_iff.mp h.bufout).1

theorem Held.phase (h : s.Held fd k p x o) (hf : p'.Fits x) : s.Held fd k p' x o :=
  { h with fits := hf }

/-- An open descriptor keeps its output when its socket is written. -/
theorem Held.setSocket (h : s.Held fd k p x o) {x' : ApeSocket} (hfd : x'.fd = fd)
    (hf : p'.Fits x') : (s.setSocket fd x').Held fd k p' x' o where
  co := List.getElem?_set_self h.lt_co
  bufout := h.bufout
  nonzero := h.nonzero
  own := hfd
  sent := h.sent.of_eq rfl rfl rfl
  fits := hf

theorem Slot.intro (hk : s.kernel fd = some k) (h : s.Held fd k p x o) : s.Slot fd p := by
  rw [Slot, hk]
  exact ⟨x, o, h⟩

theorem Wired.held (h : s.Wired ph) (hk : s.kernel fd = some k) :
    ∃ x o, s.Held fd k (ph fd) x o := by
  have hs := h.slot fd
  rw [Slot, hk] at hs
  exact hs

theorem Wired.free (h : s.Wired ph) (hk : s.kernel fd = none) : s.Free fd (ph fd) := by
  have hs := h.slot fd
  rw [Slot, hk] at hs
  exact hs

theorem Wired.open (h : s.Wired ph) (hp : ph fd ≠ .closed) :
    ∃ k x o, s.kernel fd = some k ∧ s.Held fd k (ph fd) x o := by
  cases hk : s.kernel fd with
  | none => exact absurd (h.free hk).phase hp
  | some k =>
    obtain ⟨x, o, hh⟩ := h.held hk
    exact ⟨k, x, o, rfl, hh⟩

theorem Wired.open_iff (h : s.Wired ph) : s.kernel fd ≠ none ↔ ph fd ≠ .closed := by
  constructor
  · intro hk hp
    obtain ⟨k, hk⟩ := Option.ne_none_iff_exists'.mp hk
    obtain ⟨x, o, hh⟩ := h.held hk
    have := hh.fits
    rw [hp] at this
    exact this
  · intro hp hk
    exact hp (h.free hk).phase

/-- A pointer to a socket leads to descriptor 0 or to the open descriptor of the socket. -/
theorem Wired.pointer (h : s.Wired ph) {c : ℕ} (hx : s.co[c]? = some (some x)) :
    x.fd = 0 ∨ x.fd = c ∧ ph c ≠ .closed := by
  cases hk : s.kernel c with
  | none => exact .inl ((h.free hk).unmarked x hx)
  | some k =>
    obtain ⟨y, o, hh⟩ := h.held hk
    obtain rfl := hh.socket_eq hx
    exact .inr ⟨hh.own, h.open_iff.mp (by rw [hk]; exact Option.some_ne_none k)⟩

/-! ## Output -/

theorem fits_of (h : p.Fits x) {x' : ApeSocket} (ht : x'.stream_type = x.stream_type)
    (hs : x'.state = x.state) (hb : x'.buffer_in = x.buffer_in) : p.Fits x' := by
  cases p <;> simp only [Phase.Fits, Phase.Buffered, ht, hs, hb] at h ⊢ <;> exact h

theorem conn_putConn {c : Conn} {given : Bytes} (hfd : c.fd = fd) :
    conn fd { x with burn_after_writing := c.burnAfterWriting } c.out
      ⟨given, c.kernel, c.shutdowns⟩ = c := by
  subst hfd
  rfl

theorem only_putConn {c : Conn} {given : Bytes} : Only s (s.putConn fd x given c) fd :=
  (only_setSocket.trans only_setOut).trans only_setKernel

theorem Held.putConn (h : s.Held fd k p x o) {c : Conn} {given : Bytes} (hfd : c.fd = fd)
    (hc : Accounted given c) : (s.putConn fd x given c).Held fd ⟨given, c.kernel, c.shutdowns⟩ p
      { x with burn_after_writing := c.burnAfterWriting } c.out where
  co := List.getElem?_set_self h.lt_co
  bufout := List.getElem?_set_self h.lt_bufout
  nonzero := h.nonzero
  own := h.own
  sent := by
    rw [conn_putConn hfd]
    exact hc
  fits := fits_of h.fits rfl rfl rfl

theorem putConn_kernel {c : Conn} {given : Bytes} :
    (s.putConn fd x given c).kernel fd = some ⟨given, c.kernel, c.shutdowns⟩ :=
  Function.update_self ..

theorem Wired.putConn (h : s.Wired ph) (hh : s.Held fd k (ph fd) x o) {c : Conn} {given : Bytes}
    (hfd : c.fd = fd) (hc : Accounted given c) : (s.putConn fd x given c).Wired ph :=
  h.change only_putConn rfl (.intro putConn_kernel (hh.putConn hfd hc))

/-- The slot of a descriptor that has been opened and prepared. -/
structure Entered (s : Loop) (fd : ℕ) (ph : ℕ → Phase) (s' : Loop) : Prop where
  closed : ph fd = .closed
  nonzero : fd ≠ 0
  from_wired : ∃ (s₁ : Loop) (o : Bufout), s₁.Wired ph ∧ s₁.kernel = s.kernel ∧ fd < s₁.co.length ∧
    s₁.bufout[fd]? = some o ∧ o.Inv ∧ o.buf = none ∧
    s' = (s₁.setKernel fd (some ⟨[], [], 0⟩)).setSocket fd .zero

/-- A phase that has begun goes on, and a descriptor that was closed is not left in the middle. -/
def Goes (p p' : Phase) : Prop := (p ≠ .closed → p' = p) ∧ (p = .closed → p'.Settled)

def Kept (ph ph' : ℕ → Phase) : Prop := ∀ fd, Goes (ph fd) (ph' fd)

theorem Goes.refl (p : Phase) : Goes p p := ⟨fun _ => rfl, by rintro rfl; trivial⟩

theorem Goes.trans {p'' : Phase} (h : Goes p p') (h' : Goes p' p'') : Goes p p'' := by
  refine ⟨fun hp => ?_, fun hp => ?_⟩
  · have := h.1 hp
    subst this
    exact h'.1 hp
  · by_cases hc : p' = .closed
    · exact h'.2 hc
    · rw [h'.1 hc]
      exact h.2 hp

theorem Kept.refl (ph : ℕ → Phase) : Kept ph ph := fun _ => .refl _

theorem Kept.trans {ph'' : ℕ → Phase} (h : Kept ph ph') (h' : Kept ph' ph'') : Kept ph ph'' :=
  fun fd => (h fd).trans (h' fd)

theorem Kept.update (hc : ph fd = .closed) (hp : p.Settled) :
    Kept ph (Function.update ph fd p) := by
  intro e
  by_cases he : e = fd
  · subst he
    rw [Function.update_self]
    exact ⟨fun h => absurd hc h, fun _ => hp⟩
  · rw [Function.update_of_ne he]
    exact .refl _

/-- The sockets stay wired, and the phases that have begun go on. -/
def Stays (ph : ℕ → Phase) (s' : Loop) : Prop := ∃ ph', s'.Wired ph' ∧ Kept ph ph'

/-- The socket behind a pointer is given other contents that fit its phase. -/
theorem Wired.write (h : s.Wired ph) (hx : s.co[fd]? = some (some x)) {x' : ApeSocket}
    (hfd : x'.fd = x.fd) (hf : ∀ p : Phase, p.Fits x → p.Fits x') :
    (s.setSocket fd x').Wired ph := by
  refine h.change only_setSocket rfl ?_
  have hlt := (List.getElem?_eq_some_iff.mp hx).1
  have hset : (s.setSocket fd x').co[fd]? = some (some x') := List.getElem?_set_self hlt
  cases hk : s.kernel fd with
  | none =>
    have hfree := h.free hk
    have hk' : (s.setSocket fd x').kernel fd = none := hk
    rw [Slot, hk']
    refine ⟨hfree.phase, fun y hy => ?_, hfree.empty⟩
    rw [hset] at hy
    obtain rfl := Option.some.inj (Option.some.inj hy)
    rw [hfd]
    exact hfree.unmarked x hx
  | some k =>
    obtain ⟨y, o, hh⟩ := h.held hk
    obtain rfl := hh.socket_eq hx
    exact .intro (k := k) hk (hh.setSocket (hfd.trans hh.own) (hf _ hh.fits))

variable {react : Loop → ℕ → CallbackName → Bytes → List Action}

/-- What may happen to the other descriptors. -/
def Others (fd : ℕ) (ph ph' : ℕ → Phase) : Prop := ∀ e, e ≠ fd → Goes (ph e) (ph' e)

theorem Kept.others (h : Kept (Function.update ph fd p) ph') : Others fd ph ph' := by
  intro e he
  have := h e
  rwa [Function.update_of_ne he] at this

theorem Others.trans {ph'' : ℕ → Phase} (h : Others fd ph ph') (h' : Others fd ph' ph'') :
    Others fd ph ph'' := fun e he => (h e he).trans (h' e he)

theorem Others.update : Others fd ph (Function.update ph fd p) := by
  intro e he
  rw [Function.update_of_ne he]
  exact .refl _

theorem Kept.at (h : Kept (Function.update ph fd p) ph') (hp : p ≠ .closed) : ph' fd = p := by
  have := (h fd).1
  rw [Function.update_self] at this
  exact this hp

/-- The descriptor is in a phase of `S`, and the others are kept. -/
def Leads (ph : ℕ → Phase) (fd : ℕ) (S : Phase → Prop) (s' : Loop) : Prop :=
  ∃ ph', s'.Wired ph' ∧ Others fd ph ph' ∧ S (ph' fd)

theorem Stays.leads (h : s.Stays (Function.update ph fd p)) (hp : p ≠ .closed) :
    s.Leads ph fd (· = p) := by
  obtain ⟨ph', hw, hk⟩ := h
  exact ⟨ph', hw, hk.others, hk.at hp⟩

theorem Leads.trans {S T : Phase → Prop} {x' : Except Fault Loop} (h : s.Leads ph fd S)
    (hS : ∀ ph', s.Wired ph' → S (ph' fd) → Yields Fault.Outside (·.Leads ph' fd T) x') :
    Yields Fault.Outside (·.Leads ph fd T) x' := by
  obtain ⟨ph', hw, ho, hp⟩ := h
  refine (hS ph' hw hp).mono fun t ht => ?_
  obtain ⟨ph'', hw', ho', hp'⟩ := ht
  exact ⟨ph'', hw', ho.trans ho', hp'⟩

theorem Entered.other (h : s.Entered fd ph s') (hp : ph e ≠ .closed) :
    ∃ k x o, s'.Held e k (ph e) x o := by
  obtain ⟨s₁, o, hw, -, -, -, -, -, rfl⟩ := h.from_wired
  obtain ⟨k, x, o, -, hh⟩ := hw.open hp
  have hne : e ≠ fd := by
    rintro rfl
    exact hp h.closed
  exact ⟨k, x, o, hh.alike ((only_setKernel.trans only_setSocket).alike e hne)⟩

/-- Phases of an accepted or connected descriptor. -/
def Talks (p : Phase) : Prop := p = .online ∨ ∃ greeting, p = .fresh greeting

theorem Talks.live (h : Talks p) : p.Live := by
  rcases h with rfl | ⟨g, rfl⟩ <;> trivial

theorem Talks.next (h : Talks p) {name : CallbackName} {q : Option Session}
    (hn : name ∈ [CallbackName.on_read, .on_read_lf, .on_data_completly_sent]) :
    p.next (.called fd name q) = some .online := by
  rcases h with rfl | ⟨g, rfl⟩
  · exact if_pos hn
  · exact if_pos (List.mem_cons_of_mem _ hn)

theorem Talks.fits (h : Talks p) (hf : p.Fits x) : Phase.online.Fits x := by
  rcases h with rfl | ⟨g, rfl⟩ <;> exact hf

theorem Leads.mono {S T : Phase → Prop} (h : s.Leads ph fd S) (hS : ∀ p, S p → T p) :
    s.Leads ph fd T := by
  obtain ⟨ph', hw, ho, hp⟩ := h
  exact ⟨ph', hw, ho, hS _ hp⟩

theorem Wired.leads {S : Phase → Prop} (h : s.Wired ph) (hp : S (ph fd)) : s.Leads ph fd S :=
  ⟨ph, h, fun _ _ => .refl _, hp⟩

/-- Phases in which something may be queued and written. -/
def Sends (p : Phase) : Prop := Talks p ∨ p = .delegated

theorem Sends.live (h : Sends p) : p.Live := by
  rcases h with h | rfl
  · exact h.live
  · trivial

/-! The socket of a descriptor tells its phase as far as the loop has to know it. -/

/-- Every descriptor is in a phase in which the loop is not inside a call for it. -/
def Rests (s : Loop) (ph : ℕ → Phase) : Prop := s.Wired ph ∧ ∀ fd, (ph fd).Settled

/-- The descriptors of the events still to come are open. -/
def Awaits (ready : List Ready) (s : Loop) : Prop :=
  ∃ ph, s.Rests ph ∧ (ready.map (·.fd)).Nodup ∧ ∀ r ∈ ready, ph r.fd ≠ .closed

/-- The states of a server that listens on `fd`, turn after turn. -/
def Runs (react : Loop → ℕ → CallbackName → Bytes → List Action) (o : Bufout) (fd : ℕ)
    (callbacks : Callbacks) (s : Loop) : Prop :=
  ∃ s₀, (boot o).apeListen fd callbacks = .ok s₀ ∧
    Steps.Reach (turn react) (fun _ _ => True) s₀ s

variable {callbacks : Callbacks}

/-- The callbacks of `servers_init`. -/
def mainServer : Callbacks := ⟨true, false, true, true, false, true, false⟩

/-- Nothing is asked for by any callback. -/
def idle : Loop → ℕ → CallbackName → Bytes → List Action := fun _ _ _ _ => []

/-- The server on 3 accepts 4. -/
def accepting : Turn :=
  ⟨[⟨3, true, false, [(4, [49])], false, fun _ => .again, [], false, 0⟩], []⟩

/-- The peer of 4 sends a byte and goes. -/
def leaving : Turn := ⟨[⟨4, true, true, [], false, fun _ => .again, [[71]], true, 0⟩], []⟩

def listening : Loop := (boot .zero |>.apeListen 3 mainServer).toOption.getD (boot .zero)

def accepted : Loop := (listening.turn idle accepting).toOption.getD listening

/-- Descriptor 4 is accepted, greeted, read from, told that its peer is gone, and closed. -/
example : ((accepted.turn idle leaving).toOption.map fun s => Phase.follow 4 s.trace) =
    some (some .closed) := rfl

end Loop

end ApeServer.Sock
