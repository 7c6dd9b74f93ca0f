import ApeServer.Server.Channel

/-! Users and subusers: `users.c`, and the two transport decisions it and `cmd.c` take. -/
namespace ApeServer

open Sock (Bytes toInt32)

def timeoutSec : ℤ := 45

def maxHostLength : ℕ := 256

def maxSessionLength : ℤ := 102400

namespace Ape

/-- `p->prev = v`, when `p` is not NULL. -/
def setPrev (s : Ape) (p v : Option UserId) : Except Halt Ape :=
  match p with
  | none => .ok s
  | some n => do
    let x ← s.user n
    return s.setUser n { x with prev := v }

/-- `p->next = v`, or the head of the list when `p` is NULL. -/
def setNext (s : Ape) (p v : Option UserId) : Except Halt Ape :=
  match p with
  | none => .ok { s with uHead := v }
  | some n => do
    let x ← s.user n
    return s.setUser n { x with next := v }

/-- `init_user`: the new record at the head of the list of users. -/
def initUser (s : Ape) : Except Halt (UserId × Ape) := do
  let u := s.fresh
  let next := s.uHead
  let s ← { s with fresh := s.fresh + 1 }.setPrev next (some u)
  let s := { s with uHead := some u }
  let (sessid, s) ← s.genSessidNew
  let x : User :=
    { next := next, prev := none, chan_foot := [], pubid := [], properties := [],
      subuser := [], nsub := 0, sessions := [], sessionsLength := 0, cmdqueue := [],
      idle := s.time, transport := .longpolling, type := .human, istmp := false, ip := [],
      sessid := sessid }
  return (u, s.setUser u x)

/-- The walk of `getsubuser`. -/
def findSub (s : Ape) (channel : Bytes) : List SubId → Except Halt (Option SubId)
  | [] => .ok none
  | i :: rest => do
    let y ← s.sub i
    if y.channel = channel then return some i
    s.findSub channel rest

def getsubuser (s : Ape) (u : UserId) (channel : Bytes) : Except Halt (Option SubId) := do
  let x ← s.user u
  s.findSub channel x.subuser

/-- What the subuser at the head of the list has queued low. -/
def headLow (s : Ape) : List SubId → Except Halt (List RawMsg)
  | [] => .ok []
  | i :: _ => do return (← s.sub i).low

/-- `addsubuser`; `none` is NULL. The low raws of the previous subuser are posted to the
new one. -/
def addsubuser (s : Ape) (client : Fd) (channel : Bytes) (u : UserId) :
    Except Halt (Option SubId × Ape) := do
  if (← s.getsubuser u channel) ≠ none ∨ channel.length > maxHostLength then return (none, s)
  let x ← s.user u
  let low ← s.headLow x.subuser
  let i := s.fresh
  let y : Subuser :=
    { client := client, user := some u, channel := channel, idle := s.time, state := .adied,
      need_update := false, wait_for_free := false, burn_after_writing := false,
      headersSent := false, current_chl := 0, low := [], high := [] }
  let s := { s with fresh := s.fresh + 1 }
  let s := s.setUser u { x with nsub := x.nsub + 1, subuser := i :: x.subuser }
  return (some i, s.setSub i (low.foldl Subuser.push y))

/-- The first half of `adduser` for a new user: its record, its pipe and its sessid. -/
def newUser (s : Ape) (ip : Bytes) : Except Halt (UserId × Ape) := do
  let (u, s) ← s.initUser
  let (pubid, s) ← s.initPipe (.user u)
  let x ← s.user u
  let x := { x with ip := ip.take 16, pubid := pubid, type := .human, istmp := true }
  let s := s.setUser u x
  return (u, { s with hSessid := s.hSessid.append x.sessid u })

/-- `adduser` with no user allocated yet, for a connection. -/
def allocUser (s : Ape) (client : Fd) (host ip : Bytes) : Except Halt (UserId × Ape) := do
  let (u, s) ← s.newUser ip
  let (_, s) ← s.addsubuser client host u
  return (u, s)

/-- `adduser` with the user already allocated. -/
def adduser (s : Ape) (u : UserId) : Except Halt Ape := do
  let x ← s.user u
  let s := s.setUser u { x with istmp := false }
  return { s with nConnected := s.nConnected + 1 }

def doDied (s : Ape) (i : SubId) : Except Halt Ape := do
  let y ← s.sub i
  if y.state = .alive then
    let s := s.setSub i { y with state := .adied, headersSent := false }
    return s.safeShutdown (s.co y.client).fd
  else return s

/-- `delsubuser` on the link of the list of `holder` that points to `i`. -/
def delsubuser (s : Ape) (holder : UserId) (i : SubId) : Except Halt Ape := do
  let y ← s.sub i
  let u ← deref y.user
  let x ← s.user u
  let s := s.setUser u { x with nsub := x.nsub - 1 }
  let h ← s.user holder
  let s := s.setUser holder { h with subuser := h.subuser.erase i }
  if y.state = .alive then
    let s := s.setSub i { y with user := none, wait_for_free := true, low := [], high := [] }
    s.doDied i
  else return { s with subs := Function.update s.subs i none }

/-- The loop of `clear_subusers`, with one entry per round left. -/
def clearSubs (s : Ape) (u : UserId) : List SubId → Except Halt Ape
  | [] => .ok s
  | _ :: rest => do
    let x ← s.user u
    match x.subuser with
    | [] => return s
    | i :: _ =>
      let s ← s.delsubuser u i
      s.clearSubs u rest

def clearSubusers (s : Ape) (u : UserId) : Except Halt Ape := do
  let x ← s.user u
  s.clearSubs u x.subuser

def deluser (s : Ape) (u : UserId) : Except Halt Ape := do
  let s ← s.leftAll u
  let s ← s.clearSubusers u
  let x ← s.user u
  let s := { s with hSessid := s.hSessid.erase x.sessid, nConnected := s.nConnected - 1 }
  let s ← s.setNext x.prev x.next
  let s ← s.setPrev x.next x.prev
  let s := s.destroyPipe x.pubid
  return { s with users := Function.update s.users u none }

/-- `transport_data_completly_sent`. -/
def transportDataCompletlySent (s : Ape) (i : SubId) : Transport → Except Halt Ape
  | .persistant | .xhrstreaming | .sseLongpolling | .websocket | .websocketIetf => .ok s
  | .longpolling | .jsonp | .sseJsonp => s.doDied i

/-- One round of the inner loop of `check_timeout`, for a subuser in the list of `u`. -/
def tickSub (s : Ape) (u : UserId) (i : SubId) : Except Halt Ape := do
  let y ← s.sub i
  if s.time - y.idle ≥ timeoutSec then s.delsubuser u i
  else if y.state = .alive ∧ y.nraw ≠ 0 ∧ y.need_update = false ∧
      y.burn_after_writing = false then
    let (finish, s) ← s.sendRaws i
    let y ← s.sub i
    if finish then
      let x ← s.user (← deref y.user)
      s.transportDataCompletlySent i x.transport
    else return s.setSub i { y with burn_after_writing := true }
  else return s

/-- The inner loop over the nodes it has still to visit. -/
def tickSubs (s : Ape) (u : UserId) : List SubId → Except Halt Ape
  | [] => .ok s
  | i :: rest => do
    let x ← s.user u
    if i ∈ x.subuser then
      let s ← s.tickSub u i
      s.tickSubs u rest
    else .error .freed

/-- One round of the outer loop. -/
def tickUser (s : Ape) (u : UserId) : Except Halt Ape := do
  let x ← s.user u
  if x.type = .human then
    if s.time - x.idle ≥ timeoutSec then s.deluser u else s.tickSubs u x.subuser
  else return s

/-- The outer loop from a pointer on; the fuel is the number of rounds left. -/
def tickFrom (s : Ape) : ℕ → Option UserId → Except Halt Ape
  | _, none => .ok s
  | 0, some _ => .error .loops
  | fuel + 1, some list => do
    let x ← s.user list
    let wait := x.next
    let s ← s.tickUser list
    s.tickFrom fuel wait

/-- `check_timeout`; there are at most as many users as addresses given out. -/
def checkTimeout (s : Ape) : Except Halt Ape := s.tickFrom s.fresh s.uHead

/-- The object of `RAW_CHANNEL` in `subuser_restor`. -/
def restorObject (s : Ape) (chan : Channel) : Except Halt JsonItem :=
  if chan.nonInteractive = false ∧ chan.head ≠ [] then do
    let users ← s.channelUsers chan.head
    return (JsonItem.newObject.setObj (bytes "users") users).setObj (bytes "pipe")
      (getJsonObjectChannel chan)
  else .ok (JsonItem.newObject.setObj (bytes "pipe") (getJsonObjectChannel chan))

/-- `subuser_restor`: the channels of the user and its identity, to one subuser. -/
def subuserRestor (s : Ape) (i : SubId) : Except Halt Ape := do
  let y ← s.sub i
  let x ← s.user (← deref y.user)
  let s ← x.chan_foot.foldlM (fun s c => do
    let jlist ← s.restorObject (← s.chan c)
    s.postRawSub { s.forgeRaw (bytes "CHANNEL") jlist with priority := .hi } i) s
  let jlist := JsonItem.newObject.setObj (bytes "user") (getJsonObjectUser x)
  s.postRawSub { s.forgeRaw (bytes "IDENT") jlist with priority := .hi } i

/-- `get_session`: the value stored under a key of at most 32 bytes. -/
def getSession (x : User) (key : Bytes) : Option Bytes :=
  if key.length > 32 then none else (x.sessions.find? fun p => p.1 = key).map Prod.snd

/-- A new value for the first pair with a key. -/
def replaceFirst (key val : Bytes) : List (Bytes × Bytes) → List (Bytes × Bytes)
  | [] => []
  | p :: rest => if p.1 = key then (key, val) :: rest else p :: replaceFirst key val rest

/-- `set_session` without an update of the other subusers; `none` is NULL. The lengths are of
type `int`. -/
def setSession (x : User) (key val : Bytes) : Option User :=
  let vlen := toInt32 val.length
  if key.length > 32 ∨ toInt32 (x.sessionsLength + vlen) > maxSessionLength then none
  else
    match getSession x key with
    | some old =>
      let tvlen := toInt32 old.length
      some { x with
        sessions := replaceFirst key val x.sessions
        sessionsLength := toInt32 (x.sessionsLength + toInt32 (vlen - tvlen)) }
    | none =>
      some { x with
        sessions := (key, val) :: x.sessions
        sessionsLength := toInt32 (x.sessionsLength + vlen) }

/-- `struct _transport_open_same_host_p`. -/
structure OpenSameHost where
  client_close : Fd
  client_listener : Fd
  attach : Bool
  substate : SubState

/-- `transport_open_same_host`. -/
def transportOpenSameHost (y : Subuser) (client : Fd) : Transport → OpenSameHost
  | .persistant | .xhrstreaming | .sseLongpolling =>
    { client_close := client, client_listener := y.client, attach := false, substate := .alive }
  | .longpolling | .jsonp | .sseJsonp | .websocket | .websocketIetf =>
    { client_close := y.client, client_listener := client, attach := true, substate := .adied }

end Ape

end ApeServer
