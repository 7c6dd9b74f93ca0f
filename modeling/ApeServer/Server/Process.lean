import ApeServer.Server.Cmd

/-!
# One request

`process_cmd` in the stages the source has them in, and the loop of `checkcmd`. Every
command that is run leaves a `Call`, which says as whom it was run and in which state.
-/
namespace ApeServer

open Sock (Bytes)

/-- `struct _cmd_process`. -/
structure Pc where
  guser : Option UserId
  sub : Option SubId
  client : Fd
  host : Bytes
  ip : Bytes
  transport : Transport

/-- What `process_cmd` returns when it does not return -1. -/
inductive Ret where
  | shutdown
  | keepalive
deriving DecidableEq, Repr

/-- A command that was run: its object, the state it was taken up in, what it needs, whom
it was called for, the state its callback was called in (`none` when a hook stopped it) and
the flags. -/
structure Call where
  object : JsonItem
  before : Ape
  need : Need
  call_user : Option UserId
  called : Option Ape
  flag : UInt32

/-- The result of `process_cmd`: `ret = none` is -1. -/
structure Done where
  ret : Option Ret
  pc : Pc
  iuser : Option SubId
  call : Option Call
  state : Ape

def isConnect (cmd : Bytes) : Bool := strcaseeq cmd (bytes "CONNECT")

/-- The user the object names, unless the request has one already. -/
def identify (s : Ape) (ijson : JsonItem) (pc : Pc) : Option UserId :=
  match pc.guser with
  | some u => some u
  | none => (jstr ijson.child (bytes "sessid")).bind s.seekUserId

namespace Ape

/-- What `process_cmd` knows of the subuser of a command: the subuser itself, the client of
the callback if it is not the connection, and whether the connection will be attached. -/
structure Opened where
  sub : Option SubId
  client : Option Fd
  attach : Bool
  state : Ape

/-- A second connection for a subuser that is waiting on another one: the transport says
which of the two is closed. -/
def openSameHost (s : Ape) (i : SubId) (y : Subuser) (x : User) (client : Fd) : Opened :=
  let retval := transportOpenSameHost y client x.transport
  let close := (s.co retval.client_close).fd
  let s :=
    if y.headersSent then s
    else s.sendRawInline (if close = (s.co client).fd then client else y.client)
      (s.forgeRaw (bytes "CLOSE") (JsonItem.newObject.setStr (bytes "value") (bytes "null")))
  -- the subuser may be deleted while this connection finishes on its own
  let s := s.setCo close { s.co close with attach := none }
  let s := s.safeShutdown close
  let s := s.setSub i { y with
    state := retval.substate, headersSent := false, burn_after_writing := false,
    client := retval.client_listener }
  ⟨some i, some retval.client_listener, retval.attach, s⟩

/-- The subuser of a user for the host of the request: found, moved to the connection, or
new. -/
def findOrOpen (s : Ape) (u : UserId) (x : User) (pc : Pc) : Except Halt Opened := do
  match ← s.getsubuser u pc.host with
  | some i =>
    let y ← s.sub i
    if (s.co y.client).fd ≠ (s.co pc.client).fd ∧ y.state = .alive then
      return s.openSameHost i y x pc.client
    else return ⟨some i, none, true, s.setSub i { y with client := pc.client }⟩
  | none =>
    match ← s.addsubuser pc.client pc.host u with
    | (some i, s) => return ⟨some i, none, true, ← s.subuserRestor i⟩
    | (none, s) => return ⟨none, none, true, s⟩

/-- The subuser for a user whose request has none yet, with both marked as active. -/
def openSub (s : Ape) (u : UserId) (pc : Pc) : Except Halt Opened := do
  let x ← s.user u
  let o ← s.findOrOpen u x pc
  let x ← o.state.user u
  let s := o.state.setUser u { x with idle := o.state.time }
  let i ← useSub o.sub
  let y ← s.sub i
  return { o with state := s.setSub i { y with idle := s.time } }

/-- The subuser a command is run with. -/
def cmdSub (s : Ape) (pc : Pc) : Except Halt Opened :=
  match pc.guser, pc.sub with
  | some u, none => s.openSub u pc
  | _, sub => .ok ⟨sub, none, true, s⟩

/-- The challenge of the object, kept with the subuser. -/
def setChl (s : Ape) (ijson : JsonItem) (guser : Option UserId) (sub : Option SubId) :
    Except Halt Ape :=
  match guser, sub, (jsonLookup (bytes "chl") ijson.child).head? with
  | some _, some i, some jchl => do
    let y ← s.sub i
    return s.setSub i { y with current_chl := jchl.int }
  | _, _, _ => .ok s

/-- The challenge of the subuser, 0 without one. -/
def chlOf (s : Ape) : Option SubId → Except Halt ℤ
  | some i => do return (← s.sub i).current_chl
  | none => .ok 0

/-- `CONNECT` allocates its user before the hooks run. -/
def preallocate (s : Ape) (cp : Callbackp) (pc : Pc) (sub : Option SubId) :
    Except Halt (Callbackp × Pc × Option SubId × Ape) :=
  if isConnect cp.cmd then do
    let (u, s) ← s.allocUser cp.client cp.host cp.ip
    let x ← s.user u
    let s := s.setUser u { x with transport := pc.transport }
    let sub := x.subuser.head?
    return ({ cp with call_user := some u, call_subuser := sub }, { pc with guser := some u },
      sub, s)
  else .ok (cp, pc, sub, s)

/-- The subuser, or the one of the user for the host when there is none. -/
def subOrHost (s : Ape) (sub : Option SubId) (guser : Option UserId) (host : Bytes) :
    Except Halt (Option SubId) :=
  match sub with
  | some i => .ok (some i)
  | none => do s.getsubuser (← deref guser) host

/-- The raw of a refused command, to the subuser or straight to the connection. -/
def refuse (s : Ape) (cp : Callbackp) (pc : Pc) (sub : Option SubId) (code value : Bytes) :
    Except Halt (Option SubId × Ape) :=
  let jlist :=
    if cp.chl ≠ 0 then JsonItem.newObject.setInt (bytes "chl") cp.chl else JsonItem.newObject
  let raw := s.forgeRaw (bytes "ERR")
    ((jlist.setStr (bytes "code") code).setStr (bytes "value") value)
  match cp.call_user with
  | some _ => do
    let sub ← s.subOrHost sub pc.guser pc.host
    return (sub, ← s.postRawSub raw (← useSub sub))
  | none => .ok (sub, s.sendRawInline pc.client raw)

/-- The raw the flags of a callback ask for. -/
def reply (s : Ape) (cp : Callbackp) (pc : Pc) (sub : Option SubId) (flag : UInt32) :
    Except Halt (Option SubId × Ape) :=
  if hasFlag flag returnNull then .ok (sub, s)
  else if hasFlag flag returnBadParams then
    s.refuse cp pc sub (bytes "001") (bytes "BAD_PARAMS")
  else if hasFlag flag returnBadCmd then s.refuse cp pc sub (bytes "003") (bytes "BAD_CMD")
  else .ok (sub, s)

/-- What follows the callback, by its flags. -/
def finishCmd (s : Ape) (cp : Callbackp) (pc : Pc) (sub : Option SubId) (attach : Bool)
    (iuser : Option SubId) (flag : UInt32) :
    Except Halt (Option Ret × Pc × Option SubId × Ape) := do
  let (sub, s) ← s.reply cp pc sub flag
  match if hasFlag flag returnNull then none else pc.guser with
  | some u =>
    let sub ← s.subOrHost sub (some u) pc.host
    let i ← useSub sub
    let y ← s.sub i
    let s := s.setSub i { y with state := .alive }
    let ret := if hasFlag flag returnHang || hasFlag flag returnBadParams then some .keepalive
      else none
    return (ret, { pc with guser := some u }, if attach then sub else none, s)
  | none =>
    return (some (if hasFlag flag returnHang then .keepalive else .shutdown),
      { pc with guser := none }, iuser, s)

end Ape

/-- The hooks of a command, then its callback unless a hook stopped it. -/
def runCallback (cmds : Cmds) (cmdback : Callback) (cp : Callbackp) (s : Ape) :
    Except Halt (UInt32 × Option Ape × Ape) := do
  let (flag, s) ← callHooks cp cmds.hooks s
  if flag = returnContinue then
    let (flag, s') ← cmdback.func cp s
    return (flag, some s, s')
  else return (flag, none, s)

/-- The callback of a command, or the handler of unknown ones. -/
def Cmds.seek (cmds : Cmds) (cmd : Bytes) : Callback :=
  (cmds.hCallback.seek cmd).getD ⟨handleBadCmd cmds.bad, .nothing⟩

/-- `process_cmd` once the user is known, or known not to be needed. -/
def execCmd (cmds : Cmds) (ijson : JsonItem) (cmd : Bytes) (pc : Pc) (iuser : Option SubId)
    (s : Ape) : Except Halt Done := do
  let cmdback := cmds.seek cmd
  let o ← s.cmdSub pc
  let t ← o.state.setChl ijson pc.guser o.sub
  let chl ← t.chlOf o.sub
  let cp : Callbackp :=
    { client := o.client.getD pc.client, param := jsonLookup (bytes "params") ijson.child,
      call_user := pc.guser, call_subuser := o.sub, ip := pc.ip, host := pc.host, cmd := cmd,
      transport := pc.transport, chl := chl }
  let (cp, pc, sub, t) ← t.preallocate cp pc o.sub
  let (flag, called, t) ← runCallback cmds cmdback cp t
  let (ret, pc, iuser, t) ← t.finishCmd cp pc sub o.attach iuser flag
  let call : Call :=
    { object := ijson, before := s, need := cmdback.need, call_user := cp.call_user,
      called := called, flag := flag }
  return { ret := ret, pc := pc, iuser := iuser, call := some call, state := t }

/-- `process_cmd`. -/
def processCmd (cmds : Cmds) (ijson : JsonItem) (pc : Pc) (iuser : Option SubId) (s : Ape) :
    Except Halt Done :=
  match jstr ijson.child (bytes "cmd") with
  | none =>
    let s := s.sendRawInline pc.client (s.forgeRaw (bytes "ERR")
      (Ape.errObject (bytes "003") (bytes "NO_CMD")))
    .ok { ret := some .shutdown, pc := pc, iuser := iuser, call := none, state := s }
  | some cmd =>
    let pc := { pc with guser := identify s ijson pc }
    if (cmds.seek cmd).need ≠ .nothing ∧ pc.guser = none then
      let s := s.sendRawInline pc.client (s.forgeRaw (bytes "ERR")
        (Ape.errObject (bytes "004") (bytes "BAD_SESSID")))
      .ok { ret := some .shutdown, pc := pc, iuser := iuser, call := none, state := s }
    else execCmd cmds ijson cmd pc iuser s

/-- The result of a request: what to do with the connection, the subuser to attach to it,
the commands that were run and the state. -/
structure Checked where
  ret : Ret
  iuser : Option SubId
  calls : List Call
  state : Ape

/-- A `CONNECT` that waits for a hook queues the rest of its request. -/
def isQueued (s : Ape) : Option UserId → Except Halt Bool
  | some u => do return (← s.user u).istmp
  | none => .ok false

/-- `pc.sub` for the next command. -/
def Done.next (d : Done) : Pc :=
  match d.iuser with
  | some i => { d.pc with sub := some i }
  | none => d.pc

/-- The loop of `checkcmd`. -/
def checkLoop (cmds : Cmds) : List JsonItem → Pc → Option SubId → List Call → Ape →
    Except Halt Checked
  | [], _, iuser, calls, s =>
    .ok { ret := .keepalive, iuser := iuser, calls := calls, state := s }
  | ijson :: rest, pc, iuser, calls, s => do
    let queued ← isQueued s pc.guser
    if queued then
      let u ← Ape.deref pc.guser
      let x ← s.user u
      let s := s.setUser u { x with cmdqueue := ijson :: rest }
      return { ret := .keepalive, iuser := iuser, calls := calls, state := s }
    let d ← processCmd cmds ijson pc iuser s
    match d.ret with
    | some ret =>
      return { ret := ret, iuser := d.iuser, calls := calls ++ d.call.toList, state := d.state }
    | none => checkLoop cmds rest d.next d.iuser (calls ++ d.call.toList) d.state

/-- `checkcmd` on the children of the parsed document, `[]` when there are none. -/
def checkcmd (cmds : Cmds) (objects : List JsonItem) (client : Fd) (host ip : Bytes)
    (transport : Transport) (s : Ape) : Except Halt Checked :=
  if objects = [] then
    let s := s.sendRawInline client (s.forgeRaw (bytes "ERR")
      (Ape.errObject (bytes "005") (bytes "BAD_JSON")))
    .ok { ret := .shutdown, iuser := none, calls := [], state := s }
  else
    let pc : Pc :=
      { guser := none, sub := none, client := client, host := host, ip := ip,
        transport := transport }
    checkLoop cmds objects pc none [] s

end ApeServer
