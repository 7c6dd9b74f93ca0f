import ApeServer.Raw.Pool
import ApeServer.Server.Json

/-!
# The state of the server

Users, subusers and channels are records at addresses; a freed address holds `none` and is
never given out again. Sockets are the slots of `g_ape->co`.
-/
namespace ApeServer

open Sock (Bytes)

abbrev UserId := ℕ
abbrev SubId := ℕ
abbrev ChanId := ℕ
abbrev Fd := ℕ

/-- Why a step has no result. -/
inductive Halt where
  /-- a NULL pointer was followed -/
  | null
  /-- a NULL subuser was used -/
  | nosub
  /-- a freed record was used -/
  | freed
  /-- a loop of the source is still running -/
  | loops
  /-- the event cannot occur in this state -/
  | event
deriving DecidableEq, Repr

/-- A raw as it is forged, before it is printed. -/
structure RawMsg where
  raw : Bytes
  time : ℤ
  data : JsonItem
  priority : Priority

/-- `extend`, with its value as the tree it prints to. -/
structure Extend where
  key : Bytes
  val : JsonItem
  isPublic : Bool

inductive UserType where
  | human
  | bot
deriving DecidableEq, Repr

inductive SubState where
  | alive
  | adied
deriving DecidableEq, Repr

/-- `USERS`. The lists `chan_foot` and `subuser` are in list order, the newest first. -/
structure User where
  next : Option UserId
  prev : Option UserId
  chan_foot : List ChanId
  pubid : Bytes
  properties : List Extend
  subuser : List SubId
  nsub : ℤ
  sessions : List (Bytes × Bytes)
  sessionsLength : ℤ
  cmdqueue : List JsonItem
  idle : ℤ
  transport : Transport
  type : UserType
  istmp : Bool
  ip : Bytes
  sessid : Bytes

/-- `subuser`; `low` and `high` are the two raw pools. -/
structure Subuser where
  client : Fd
  user : Option UserId
  channel : Bytes
  idle : ℤ
  state : SubState
  need_update : Bool
  wait_for_free : Bool
  burn_after_writing : Bool
  headersSent : Bool
  current_chl : ℤ
  low : List RawMsg
  high : List RawMsg

/-- `userslist`. -/
structure Member where
  userinfo : UserId
  level : ℕ
deriving DecidableEq, Repr

/-- `BANNED`. -/
structure Banned where
  ip : Bytes
  reason : Bytes
  expire : ℤ
deriving DecidableEq, Repr

/-- `CHANNEL`, with its two flags. -/
structure Channel where
  pubid : Bytes
  head : List Member
  banned : List Banned
  properties : List Extend
  nonInteractive : Bool
  autodestroy : Bool
  name : Bytes

/-- What a `transpipe` leads to. -/
inductive Pipe where
  | channel (c : ChanId)
  | user (u : UserId)
  | proxy
  | custom
deriving DecidableEq, Repr

/-- The parser of a connection; a WebSocket parser keeps the host of its handshake. -/
inductive Parser where
  | http
  | websocket (transport : Transport) (host : Bytes)
deriving DecidableEq, Repr

/-- What is written to a connection. -/
inductive Written where
  | headers
  | raws (low high : List RawMsg)
  | inline (raw : RawMsg)
  | other

/-- `ape_socket` and its `bufout` slot. `fd` is 0 in a closed slot; `shut` says that the
connection takes no more writes. -/
structure Socket where
  fd : Fd
  attach : Option SubId
  ip_client : Bytes
  parser : Option Parser
  bufout : Bool
  burn_after_writing : Bool
  shut : Bool
  out : List Written

def Socket.closed : Socket :=
  { fd := 0, attach := none, ip_client := [], parser := none, bufout := false,
    burn_after_writing := false, shut := false, out := [] }

/-- A hash table as the map it is: keys are compared by `strcasecmp`. -/
def Htbl (α : Type) : Type := Bytes → Option α

namespace Htbl

variable {α : Type}

def init : Htbl α := fun _ => none

def seek (t : Htbl α) (key : Bytes) : Option α := t key

def append (t : Htbl α) (key : Bytes) (v : α) : Htbl α :=
  fun k => if strcaseeq k key then some v else t k

def erase (t : Htbl α) (key : Bytes) : Htbl α :=
  fun k => if strcaseeq k key then none else t k

end Htbl

/-- `acetables`. `rand` holds the index strings the generator is to draw, `io` says of each
write to come whether the kernel takes all of it, `fresh` is the next address. -/
structure Ape where
  users : UserId → Option User
  subs : SubId → Option Subuser
  chans : ChanId → Option Channel
  co : Fd → Socket
  uHead : Option UserId
  hSessid : Htbl UserId
  hPubid : Htbl Pipe
  hLusers : Htbl ChanId
  nConnected : UInt32
  time : ℤ
  rand : List (List.Vector (Fin 16) 32)
  io : ℕ → Bool
  nio : ℕ
  fresh : ℕ

namespace Ape

/-- The server before the first connection. -/
def init (rand : List (List.Vector (Fin 16) 32)) (io : ℕ → Bool) (time : ℤ) : Ape :=
  { users := fun _ => none, subs := fun _ => none, chans := fun _ => none
    co := fun _ => .closed, uHead := none, hSessid := .init, hPubid := .init, hLusers := .init
    nConnected := 0, time := time, rand := rand, io := io, nio := 0, fresh := 0 }

/-- Following a pointer to a user. -/
def user (s : Ape) (u : UserId) : Except Halt User :=
  match s.users u with
  | some x => .ok x
  | none => .error .freed

def sub (s : Ape) (i : SubId) : Except Halt Subuser :=
  match s.subs i with
  | some x => .ok x
  | none => .error .freed

def chan (s : Ape) (c : ChanId) : Except Halt Channel :=
  match s.chans c with
  | some x => .ok x
  | none => .error .freed

/-- Following a pointer that may be NULL. -/
def deref {α : Type} : Option α → Except Halt α
  | some a => .ok a
  | none => .error .null

/-- Using a subuser that may be NULL. -/
def useSub : Option SubId → Except Halt SubId
  | some i => .ok i
  | none => .error .nosub

@[simps]
def setUser (s : Ape) (u : UserId) (x : User) : Ape :=
  { s with users := Function.update s.users u (some x) }

@[simps]
def setSub (s : Ape) (i : SubId) (x : Subuser) : Ape :=
  { s with subs := Function.update s.subs i (some x) }

@[simps]
def setChan (s : Ape) (c : ChanId) (x : Channel) : Ape :=
  { s with chans := Function.update s.chans c (some x) }

@[simps]
def setCo (s : Ape) (fd : Fd) (x : Socket) : Ape :=
  { s with co := Function.update s.co fd x }

/-- `write` on a connection through `sendbin`: queued behind what is already queued, refused
by a connection that is down, and queued itself when the kernel does not take all of it. The
descriptor of a closed slot is 0, where `sendbin` writes nothing. -/
def send (s : Ape) (fd : Fd) (w : Written) : Bool × Ape :=
  let x := s.co fd
  if fd = 0 then (true, s)
  else if x.bufout then (false, s.setCo fd { x with out := x.out ++ [w] })
  else if x.shut then (false, s)
  else
    (s.io s.nio, { s.setCo fd { x with out := x.out ++ [w], bufout := !s.io s.nio } with
      nio := s.nio + 1 })

/-- `safe_shutdown`. -/
def safeShutdown (s : Ape) (fd : Fd) : Ape :=
  let x := s.co fd
  if x.bufout then s.setCo fd { x with burn_after_writing := true }
  else s.setCo fd { x with shut := true }

end Ape

end ApeServer
