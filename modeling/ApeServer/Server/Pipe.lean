import ApeServer.Server.State

/-! Raws and pipes: `raw.c` above the pools, and `pipe.c`. -/
namespace ApeServer

open Sock (Bytes)

/-- The public properties, added to an object. -/
def setProperties (o : JsonItem) (l : List Extend) : JsonItem :=
  l.foldl (fun o e => if e.isPublic then o.setObj e.key e.val else o) o

/-- `get_json_object_user`. -/
def getJsonObjectUser (x : User) : JsonItem :=
  let jstr := (JsonItem.newObject.setStr (bytes "casttype") (bytes "uni")).setStr
    (bytes "pubid") x.pubid
  if x.properties.any Extend.isPublic then
    jstr.setObj (bytes "properties") (setProperties .newObject x.properties)
  else jstr

/-- `get_json_object_channel`. -/
def getJsonObjectChannel (x : Channel) : JsonItem :=
  let jstr := (JsonItem.newObject.setStr (bytes "casttype") (bytes "multi")).setStr
    (bytes "pubid") x.pubid
  jstr.setObj (bytes "properties")
    (setProperties (JsonItem.newObject.setStr (bytes "name") x.name) x.properties)

namespace Subuser

def nraw (x : Subuser) : ℕ := x.low.length + x.high.length

/-- A raw at the end of the pool its priority names. -/
def push (x : Subuser) (raw : RawMsg) : Subuser :=
  match raw.priority with
  | .lo => { x with low := x.low ++ [raw] }
  | .hi => { x with high := x.high ++ [raw] }

end Subuser

namespace Ape

def forgeRaw (s : Ape) (raw : Bytes) (jlist : JsonItem) : RawMsg :=
  { raw := raw, time := s.time, data := jlist, priority := .lo }

def postRawSub (s : Ape) (raw : RawMsg) (i : SubId) : Except Halt Ape := do
  let x ← s.sub i
  return s.setSub i (x.push raw)

def postRaw (s : Ape) (raw : RawMsg) (u : UserId) : Except Halt Ape := do
  let x ← s.user u
  x.subuser.foldlM (fun s i => s.postRawSub raw i) s

/-- `post_raw_restricted`, with a `sub` that is not NULL. -/
def postRawRestricted (s : Ape) (raw : RawMsg) (u : UserId) (sub : SubId) :
    Except Halt Ape := do
  let x ← s.user u
  x.subuser.foldlM (fun s i => if i ≠ sub then s.postRawSub raw i else pure s) s

def postRawChannel (s : Ape) (raw : RawMsg) (c : ChanId) : Except Halt Ape := do
  let x ← s.chan c
  x.head.foldlM (fun s m => s.postRaw raw m.userinfo) s

def postRawChannelRestricted (s : Ape) (raw : RawMsg) (c : ChanId) (ruser : UserId) :
    Except Halt Ape := do
  let x ← s.chan c
  x.head.foldlM (fun s m => if m.userinfo ≠ ruser then s.postRaw raw m.userinfo else pure s) s

def sendError (s : Ape) (u : UserId) (msg code : Bytes) : Except Halt Ape :=
  s.postRaw (s.forgeRaw (bytes "ERR")
    ((JsonItem.newObject.setStr (bytes "code") code).setStr (bytes "value") msg)) u

/-- `send_raw_inline`: the header block of the transport and the raw, at once. -/
def sendRawInline (s : Ape) (client : Fd) (raw : RawMsg) : Ape :=
  (s.send (s.co client).fd (.inline raw)).2

/-- The transports whose responses start with an HTTP header block. -/
def hasHeaders : Transport → Bool
  | .websocket | .websocketIetf => false
  | _ => true

/-- The header block of a response, unless it was sent before. -/
def sendHeaders (s : Ape) (fd : Fd) (x : Subuser) (transport : Transport) : Bool × Ape :=
  if !x.headersSent && hasHeaders transport then s.send fd .headers else (true, s)

/-- `send_raws`: the headers, then both pools. -/
def sendRaws (s : Ape) (i : SubId) : Except Halt (Bool × Ape) := do
  let x ← s.sub i
  if x.nraw = 0 then return (true, s)
  let u ← deref x.user
  let user ← s.user u
  let fd := (s.co x.client).fd
  let headed := s.sendHeaders fd x user.transport
  let finish := headed.2.send fd (.raws x.low x.high)
  return (headed.1 && finish.1,
    finish.2.setSub i { x with headersSent := true, low := [], high := [] })

/-! ### Pipes -/

def basicChars : List UInt8 := bytes "abcdef0123456789"

/-- The string one round of `gen_sessid_new` writes. -/
def drawn (d : List.Vector (Fin 16) 32) : Bytes := d.toList.map fun k => basicChars.getD k.val 0

def seekUserId (s : Ape) (sessid : Bytes) : Option UserId :=
  if sessid.length ≠ 32 then none else s.hSessid.seek sessid

def getPipe (s : Ape) (pubid : Bytes) : Option Pipe :=
  if pubid.length ≠ 32 then none else s.hPubid.seek pubid

/-- The loop of `gen_sessid_new` over the draws: the first string that names neither a user
nor a pipe, and the draws after it. -/
def firstFree (s : Ape) : List (List.Vector (Fin 16) 32) →
    Except Halt (Bytes × List (List.Vector (Fin 16) 32))
  | [] => .error .loops
  | d :: ds =>
    if s.seekUserId (drawn d) ≠ none ∨ s.getPipe (drawn d) ≠ none then firstFree s ds
    else .ok (drawn d, ds)

def genSessidNew (s : Ape) : Except Halt (Bytes × Ape) := do
  let (id, ds) ← s.firstFree s.rand
  return (id, { s with rand := ds })

/-- `init_pipe`: the new pubid, already in `hPubid`. -/
def initPipe (s : Ape) (p : Pipe) : Except Halt (Bytes × Ape) := do
  let (pubid, s) ← s.genSessidNew
  return (pubid, { s with hPubid := s.hPubid.append pubid p })

/-- `destroy_pipe`; no pipe is linked to another one without a plugin. -/
def destroyPipe (s : Ape) (pubid : Bytes) : Ape :=
  { s with hPubid := s.hPubid.erase pubid }

/-- `isonchannel`. -/
def isonchannel (x : User) (c : ChanId) : Bool := c ∈ x.chan_foot

/-- `get_pipe_strict`: a channel is only seen by its members. -/
def getPipeStrict (s : Ape) (pubid : Bytes) (x : User) : Option Pipe :=
  match s.getPipe pubid with
  | some (.channel c) => if isonchannel x c then some (.channel c) else none
  | p => p

/-- `get_json_object_pipe`; `none` is NULL. -/
def getJsonObjectPipe (s : Ape) : Pipe → Except Halt (Option JsonItem)
  | .user u => do return some (getJsonObjectUser (← s.user u))
  | .channel c => do return some (getJsonObjectChannel (← s.chan c))
  | .proxy | .custom => .ok none

/-- `json_set_property_objN` with a value that may be NULL. -/
def setObjPtr (o : JsonItem) (k : Bytes) (v : Option JsonItem) : Except Halt JsonItem := do
  return o.setObj k (← deref v)

/-- The copy of a message for the other subusers of its sender. -/
def echo (s : Ape) (jlist : JsonItem) (rawname : Bytes) (recver : Pipe) (sender : UserId)
    (user : User) (src : SubId) : Except Halt Ape :=
  if user.nsub > 1 then do
    let copy ← setObjPtr jlist (bytes "pipe") (← s.getJsonObjectPipe recver)
    s.postRawRestricted (s.forgeRaw rawname copy) sender src
  else .ok s

/-- The message itself, by the type of the pipe. A custom pipe has no `on_send` without a
plugin. -/
def deliver (s : Ape) (jlist : JsonItem) (rawname : Bytes) (sender : UserId) (user : User) :
    Pipe → Except Halt Ape
  | .user u =>
    s.postRaw (s.forgeRaw rawname (jlist.setObj (bytes "pipe") (getJsonObjectUser user))) u
  | .channel c => do
    let chan ← s.chan c
    if chan.head.length > 1 then
      s.postRawChannelRestricted
        (s.forgeRaw rawname (jlist.setObj (bytes "pipe") (getJsonObjectChannel chan))) c sender
    else return s
  | .proxy | .custom => .ok s

/-- `post_to_pipe` from a subuser with a user; the result is the returned flag. -/
def postToPipe (s : Ape) (jlist : JsonItem) (rawname pipe : Bytes) (src : SubId) :
    Except Halt (Bool × Ape) := do
  let x ← s.sub src
  let sender ← deref x.user
  let user ← s.user sender
  match s.getPipeStrict pipe user with
  | none => return (false, ← s.sendError sender (bytes "UNKNOWN_PIPE") (bytes "109"))
  | some recver =>
    let jlist := jlist.setObj (bytes "from") (getJsonObjectUser user)
    let s ← s.echo jlist rawname recver sender user src
    return (true, ← s.deliver jlist rawname sender user recver)

end Ape

end ApeServer
