import ApeServer.Sock.ReadLines
import ApeServer.Lib.Steps

/-!
# The main loop

`sockroutine` with the arrays of sockets it serves. What the callbacks of a socket do is a
parameter, and a turn of the loop is given what the kernel answers in it.
-/
namespace ApeServer.Sock

/-- `ape_socket_t`. -/
inductive StreamType where
  | streamIn
  | streamOut
  | streamServer
  | streamDelegate
deriving DecidableEq, Repr

/-- `ape_socket_state_t`. -/
inductive SocketState where
  | online
  | progress
deriving DecidableEq, Repr

/-- Which callbacks of a socket are set. -/
structure Callbacks where
  on_accept : Bool
  on_connect : Bool
  on_disconnect : Bool
  on_read : Bool
  on_read_lf : Bool
  on_data_completly_sent : Bool
  on_write : Bool
deriving DecidableEq, Repr

inductive CallbackName where
  | on_accept
  | on_connect
  | on_disconnect
  | on_read
  | on_read_lf
  | on_data_completly_sent
  | on_write
deriving DecidableEq, Repr

/-- `buffer_in` whose `data` is set, with what has been read into it. -/
structure BufferIn where
  buffer : ApeBuffer
  data : Bytes
deriving DecidableEq, Repr

/-- `struct _ape_socket`; `parser` says whether `parser.data` is set. -/
structure ApeSocket where
  callbacks : Callbacks
  parser : Bool
  buffer_in : Option BufferIn
  ip_client : Bytes
  idle : ℤ
  attach : Option ℕ
  fd : ℕ
  burn_after_writing : ℕ
  state : SocketState
  stream_type : StreamType
deriving DecidableEq, Repr

def Callbacks.none : Callbacks := ⟨false, false, false, false, false, false, false⟩

/-- A socket after `memset`. -/
def ApeSocket.zero : ApeSocket :=
  { callbacks := .none
    parser := false
    buffer_in := none
    ip_client := []
    idle := 0
    attach := none
    fd := 0
    burn_after_writing := 0
    state := .online
    stream_type := .streamIn }

def Bufout.zero : Bufout := ⟨none, 0, 0⟩

/-- What has happened to a descriptor since it was opened: what `sendbin` was given for it,
what `write` has taken of that, and how often it was shut down. -/
structure Session where
  given : Bytes
  taken : Bytes
  shutdowns : ℕ

/-- What can be seen of the loop. A call comes with the session it was made in. -/
inductive Trace where
  | listening (fd : ℕ)
  | accepted (fd : ℕ)
  | dialled (fd : ℕ)
  | delegated (fd : ℕ)
  | connected (fd : ℕ)
  | called (fd : ℕ) (name : CallbackName) (session : Option Session)
  /-- the peer is gone, and `told` says whether there is an `on_disconnect` to call -/
  | hungUp (fd : ℕ) (told : Bool)
  | closed (fd : ℕ)

inductive Fault where
  /-- an entry or a socket that is not there, or a descriptor that is not open, is used -/
  | undefined
  /-- a buffer has grown to 2^31 bytes -/
  | full
  /-- the kernel does not answer like that, or no callback asks for that -/
  | input
  | fuel
deriving DecidableEq, Repr

/-- The sockets of `g_ape`, with the room of `events->events` and the open descriptors. -/
structure Loop where
  basemem : ℕ
  co : List (Option ApeSocket)
  bufout : List Bufout
  events : ℕ
  kernel : ℕ → Option Session
  trace : List Trace

/-- What a callback asks for. It knows a socket by its `ape_socket`. -/
inductive Action where
  | sendbin (client : ℕ) (bin : Bytes) (burn : Bool) (w : ℕ → Write) (len : bin.length < 2 ^ 32)
  | safeShutdown (client : ℕ)
  | connect (fd : ℕ) (callbacks : Callbacks) (attach : Option ℕ)
  | delegate (fd : ℕ) (callbacks : Callbacks)
  | arrange (client : ℕ) (callbacks : Callbacks) (parser : Bool) (attach : Option ℕ)
  /-- what a parser leaves in `buffer_in` -/
  | keep (client : ℕ) (length : UInt32) (data : Bytes)

/-- One entry of the array of events, and what the calls made for it give. -/
structure Ready where
  fd : ℕ
  read : Bool
  write : Bool
  /-- descriptors and addresses, until `accept` fails -/
  accepts : List (ℕ × Bytes)
  /-- `getsockopt` finds no error -/
  connected : Bool
  writes : ℕ → Write
  reads : List Bytes
  /-- the last `read` gives 0 or an error, and not `EWOULDBLOCK` -/
  ends : Bool
  time : ℤ

/-- One turn of the loop, and what the timers that run in it ask for. -/
structure Turn where
  ready : List Ready
  timers : List Action

instance (b : ApeBuffer) (readb : ℕ) : Decidable (b.Overflows readb) :=
  inferInstanceAs (Decidable (_ ∧ _))

namespace Loop

/-! ## The arrays -/

def socket (s : Loop) (fd : ℕ) : Except Fault ApeSocket :=
  match s.co[fd]? with
  | some (some x) => .ok x
  | _ => .error .undefined

/-- A callback has no pointer to a socket that was never made. -/
def client (s : Loop) (fd : ℕ) : Except Fault ApeSocket :=
  match s.co[fd]? with
  | some (some x) => .ok x
  | _ => .error .input

def out (s : Loop) (fd : ℕ) : Except Fault Bufout :=
  match s.bufout[fd]? with
  | some o => .ok o
  | none => .error .undefined

def session (s : Loop) (fd : ℕ) : Except Fault Session :=
  match s.kernel fd with
  | some k => .ok k
  | none => .error .undefined

def setSocket (s : Loop) (fd : ℕ) (x : ApeSocket) : Loop := { s with co := s.co.set fd (some x) }

def setOut (s : Loop) (fd : ℕ) (o : Bufout) : Loop := { s with bufout := s.bufout.set fd o }

def setKernel (s : Loop) (fd : ℕ) (k : Option Session) : Loop :=
  { s with kernel := Function.update s.kernel fd k }

def note (s : Loop) (t : Trace) : Loop := { s with trace := s.trace ++ [t] }

/-- `growup`. -/
def growup (s : Loop) : Loop :=
  let basemem := s.basemem * 2
  { s with
    basemem
    events := basemem
    -- the entries from `basemem - old_basemem` on are zeroed
    co := s.co.take (basemem - s.basemem) ++ List.replicate (basemem - s.basemem) none
    bufout := s.bufout.take (basemem - s.basemem) ++
      List.replicate (basemem - s.basemem) .zero }

/-- The loop of `prepare_ape_socket`. -/
def grow (fd : ℕ) : ℕ → Loop → Except Fault Loop
  | 0, _ => .error .fuel
  | fuel + 1, s => if s.basemem ≤ fd then grow fd fuel s.growup else .ok s

def prepareApeSocket (s : Loop) (fd : ℕ) : Except Fault Loop := do
  let s ← grow fd (fd + 1) s
  return s.setSocket fd .zero

/-- The kernel opens a descriptor. -/
def opened (s : Loop) (fd : ℕ) : Except Fault Loop :=
  if fd ≠ 0 ∧ (s.kernel fd).isNone then .ok (s.setKernel fd (some ⟨[], [], 0⟩))
  else .error .input

/-- `ape_listen`, and the callbacks that `servers_init` sets. -/
def apeListen (s : Loop) (fd : ℕ) (callbacks : Callbacks) : Except Fault Loop := do
  let s ← s.opened fd
  let s ← s.prepareApeSocket fd
  let x := { ApeSocket.zero with callbacks, fd, state := .online, stream_type := .streamServer }
  return (s.setSocket fd x).note (.listening fd)

/-- `ape_connect`, and what `ape_connect_name_cb` copies to the new socket. -/
def apeConnect (s : Loop) (fd : ℕ) (callbacks : Callbacks) (attach : Option ℕ) :
    Except Fault Loop := do
  let s ← s.opened fd
  let s ← s.prepareApeSocket fd
  let x := { ApeSocket.zero with
    callbacks, buffer_in := some ⟨.new, []⟩, attach, fd, state := .progress,
    stream_type := .streamOut }
  return ((s.setSocket fd x).setOut fd .zero).note (.dialled fd)

/-- A descriptor of a library, as `ape_dns_init` gives it to the loop. -/
def delegate (s : Loop) (fd : ℕ) (callbacks : Callbacks) : Except Fault Loop := do
  let s ← s.opened fd
  let s ← s.prepareApeSocket fd
  let x := { ApeSocket.zero with callbacks, fd, stream_type := .streamDelegate }
  return (s.setSocket fd x).note (.delegated fd)

/-- `close_socket`. -/
def closeSocket (s : Loop) (fd : ℕ) : Except Fault Loop := do
  let x ← s.socket fd
  let o ← s.out fd
  let s := if o.buf.isSome then s.setOut fd .zero else s
  let x := { x with buffer_in := none, parser := false, fd := 0, attach := none }
  return ((s.setSocket fd x).setKernel fd none).note (.closed fd)

/-! ## Output -/

/-- The parts of a connection that `sendbin` and `sendqueue` use. -/
def conn (fd : ℕ) (x : ApeSocket) (o : Bufout) (k : Session) : Conn :=
  { fd, out := o, burnAfterWriting := x.burn_after_writing, kernel := k.taken,
    shutdowns := k.shutdowns }

/-- The connection after they were used, with what has been given for it. -/
def putConn (s : Loop) (fd : ℕ) (x : ApeSocket) (given : Bytes) (c : Conn) : Loop :=
  ((s.setSocket fd { x with burn_after_writing := c.burnAfterWriting }).setOut fd c.out).setKernel
    fd (some ⟨given, c.kernel, c.shutdowns⟩)

/-- `sendbin`. -/
def sendbin (s : Loop) (fd : ℕ) (bin : Bytes) (burn : Bool) (w : ℕ → Write) :
    Except Fault Loop :=
  if fd = 0 then .ok s
  else do
    let x ← s.socket fd
    let o ← s.out fd
    let k ← s.session fd
    match Sock.sendbin (conn fd x o k) bin burn w with
    | some (_, c) => .ok (s.putConn fd x (k.given ++ bin) c)
    | none => .error .full

/-- `safe_shutdown`. -/
def safeShutdown (s : Loop) (fd : ℕ) : Except Fault Loop :=
  if fd = 0 then .error .input
  else do
    let x ← s.socket fd
    let o ← s.out fd
    let k ← s.session fd
    return s.putConn fd x k.given (Sock.safeShutdown (conn fd x o k))

/-- `shutdown`. -/
def shutdown (s : Loop) (fd : ℕ) : Except Fault Loop := do
  let k ← s.session fd
  return s.setKernel fd (some { k with shutdowns := k.shutdowns + 1 })

/-! ## Callbacks -/

/-- A parser leaves less in the buffer than it was given. -/
def keep (s : Loop) (fd : ℕ) (length : UInt32) (data : Bytes) : Except Fault Loop := do
  let x ← s.client fd
  match x.buffer_in with
  | some b =>
    if length ≤ b.buffer.length then
      .ok (s.setSocket fd { x with buffer_in := some ⟨{ b.buffer with length }, data⟩ })
    else .error .input
  | none => .error .input

def perform (s : Loop) : Action → Except Fault Loop
  | .sendbin client bin burn w _ => do
    let x ← s.client client
    s.sendbin x.fd bin burn w
  | .safeShutdown client => do
    let x ← s.client client
    s.safeShutdown x.fd
  | .connect fd callbacks attach => s.apeConnect fd callbacks attach
  | .delegate fd callbacks => s.delegate fd callbacks
  | .arrange client callbacks parser attach => do
    let x ← s.client client
    return s.setSocket client { x with callbacks, parser, attach }
  | .keep client length data => s.keep client length data

variable (react : Loop → ℕ → CallbackName → Bytes → List Action)

/-- A callback that is set. -/
def call (s : Loop) (fd : ℕ) (name : CallbackName) (arg : Bytes) : Except Fault Loop :=
  let s := s.note (.called fd name (s.kernel fd))
  (react s fd name arg).foldlM perform s

def callIf (is_set : Bool) (s : Loop) (fd : ℕ) (name : CallbackName) (arg : Bytes) :
    Except Fault Loop :=
  if is_set then s.call react fd name arg else .ok s

/-- The peer is gone. -/
def hangUp (s : Loop) (fd : ℕ) : Except Fault Loop := do
  let x ← s.socket fd
  let s := s.note (.hungUp fd x.callbacks.on_disconnect)
  let s ← s.callIf react x.callbacks.on_disconnect fd .on_disconnect []
  s.closeSocket fd

/-! ## Events -/

/-- What `accept` gives. -/
def acceptOne (s : Loop) (server : ℕ) (time : ℤ) (new : ℕ × Bytes) : Except Fault Loop := do
  let s ← s.opened new.1
  let s ← s.prepareApeSocket new.1
  let l ← s.socket server
  let x : ApeSocket :=
    { callbacks := { l.callbacks with on_accept := false, on_connect := false }
      parser := false
      buffer_in := some ⟨.new, []⟩
      ip_client := new.2.take 16
      idle := time
      attach := l.attach
      fd := new.1
      burn_after_writing := 0
      state := .online
      stream_type := .streamIn }
  let s := ((s.setSocket new.1 x).setOut new.1 .zero).note (.accepted new.1)
  s.callIf react l.callbacks.on_accept new.1 .on_accept []

def serverEvent (s : Loop) (r : Ready) : Except Fault Loop :=
  if r.read then r.accepts.foldlM (fun s new => s.acceptOne react r.fd r.time new) s
  else s.closeSocket r.fd

/-- The end of `connect`; the flag says that the event is over. -/
def connectEvent (s : Loop) (r : Ready) (x : ApeSocket) : Except Fault (Loop × Bool) :=
  if r.connected then do
    let s := (s.setSocket r.fd { x with state := .online }).note (.connected r.fd)
    let s ← s.callIf react x.callbacks.on_connect r.fd .on_connect []
    return (s, false)
  else do
    let s ← s.hangUp react r.fd
    return (s, true)

/-- What is done when all that was queued has been written. -/
def sent (s : Loop) (fd : ℕ) (x : ApeSocket) : Except Fault Loop := do
  let s ← s.callIf react x.callbacks.on_data_completly_sent fd .on_data_completly_sent []
  let x ← s.socket fd
  if x.burn_after_writing ≠ 0 then s.shutdown fd else return s

def queueEvent (s : Loop) (r : Ready) (x : ApeSocket) (o : Bufout) : Except Fault Loop := do
  let k ← s.session r.fd
  let (ret, c) := sendqueue (conn r.fd x o k) r.writes
  let s := s.putConn r.fd x k.given c
  if ret = 1 then s.sent react r.fd x else return s

def writeEvent (s : Loop) (r : Ready) : Except Fault (Loop × Bool) := do
  let x ← s.socket r.fd
  if x.stream_type = .streamOut ∧ x.state = .progress then s.connectEvent react r x
  else
    let o ← s.out r.fd
    let s ← if o.buf.isSome then s.queueEvent react r x o
      else s.callIf react (x.stream_type = .streamDelegate ∧ x.callbacks.on_write) r.fd .on_write []
    return (s, false)

/-- What is left in the buffer by a read, and the lines for `on_read_lf`. -/
def stored (x : ApeSocket) (b : BufferIn) (bytes : Bytes) : BufferIn × List Bytes :=
  if x.callbacks.on_read_lf then
    let l := LineSocket.read ⟨b.buffer, b.data, []⟩ bytes
    (⟨l.buffer, l.data⟩, l.calls)
  else
    (⟨b.buffer.stored bytes.length, b.data.take b.buffer.length.toNat ++ bytes ++
      b.data.drop (b.buffer.length.toNat + bytes.length)⟩, [])

/-- A read that gives bytes. No data comes before the connection stands. -/
def readOne (s : Loop) (fd : ℕ) (bytes : Bytes) : Except Fault Loop := do
  let x ← s.socket fd
  match x.buffer_in with
  | some b =>
    if x.state = .online ∧ b.buffer.Fits bytes.length then
      if b.buffer.Overflows bytes.length then .error .full
      else
        let (b, lines) := stored x b bytes
        let s := s.setSocket fd { x with buffer_in := some b }
        let s ← lines.foldlM (fun s line => s.call react fd .on_read_lf line) s
        let x ← s.socket fd
        s.callIf react (x.callbacks.on_read ∧ ¬x.callbacks.on_read_lf) fd .on_read bytes
    else .error .input
  -- without a buffer `read` is asked for nothing
  | none => .error .input

def readEvent (s : Loop) (r : Ready) : Except Fault Loop := do
  let x ← s.socket r.fd
  if x.stream_type = .streamDelegate ∧ x.callbacks.on_read then s.call react r.fd .on_read []
  else
    let s ← r.reads.foldlM (fun s bytes => s.readOne react r.fd bytes) s
    if r.ends then s.hangUp react r.fd else return s

/-- One entry of the array of events. -/
def handle (s : Loop) (r : Ready) : Except Fault Loop := do
  let x ← s.socket r.fd
  if x.stream_type = .streamServer then s.serverEvent react r
  else
    let (s, is_over) ← if r.write then s.writeEvent react r else .ok (s, false)
    if r.read ∧ ¬is_over then s.readEvent react r else return s

/-- The events are those of distinct open descriptors, `basemem` at most. -/
def Polled (s : Loop) (ready : List Ready) : Prop :=
  ready.length ≤ s.basemem ∧ (ready.map (·.fd)).Nodup ∧ ∀ r ∈ ready, (s.kernel r.fd).isSome

instance (s : Loop) (ready : List Ready) : Decidable (s.Polled ready) :=
  inferInstanceAs (Decidable (_ ∧ _ ∧ _))

/-- A turn of `sockroutine`. -/
def turn (s : Loop) (t : Turn) : Except Fault Loop :=
  if s.events < s.basemem then .error .undefined
  else if s.Polled t.ready then do
    let s ← t.ready.foldlM (fun s r => s.handle react r) s
    t.timers.foldlM perform s
  else .error .input

/-- The state `main` sets up; the one entry of `bufout` is not initialised. -/
def boot (o : Bufout) : Loop := ⟨1, [none], [o], 1, fun _ => none, []⟩

end Loop

end ApeServer.Sock
