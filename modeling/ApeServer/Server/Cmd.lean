import ApeServer.Server.Users

/-!
# Commands

`cmd.c`: the built-in commands, the dispatch of one command object and the loop over a
request. Hooks and added commands are parameters.
-/
namespace ApeServer

open Sock (Bytes)

/-- `NEED_NICK`, `NEED_SESSID`, `NEED_NOTHING`. -/
inductive Need where
  | nick
  | sessid
  | nothing
deriving DecidableEq, Repr

/-- `callbackp`. -/
structure Callbackp where
  client : Fd
  param : List JsonItem
  call_user : Option UserId
  call_subuser : Option SubId
  ip : Bytes
  host : Bytes
  cmd : Bytes
  transport : Transport
  chl : ℤ

/-- A callback and the flags it returns. -/
abbrev CmdFunc := Callbackp → Ape → Except Halt (UInt32 × Ape)

def returnNull : UInt32 := 0x04
def returnNothing : UInt32 := 0x10
def returnBadParams : UInt32 := 0x20
def returnContinue : UInt32 := 0x40
def returnBadCmd : UInt32 := 0x80
def returnHang : UInt32 := 0x100

/-- `flag & bit`. -/
def hasFlag (flag bit : UInt32) : Bool := flag &&& bit ≠ 0

/-- `callback`. -/
structure Callback where
  func : CmdFunc
  need : Need

/-- `callback_hook`. -/
structure Hook where
  cmd : Bytes
  func : CmdFunc

/-- The registered commands, their hooks and the handlers of unknown commands. -/
structure Cmds where
  hCallback : Htbl Callback
  hooks : List Hook
  bad : List CmdFunc

/-- `call_cmd_hook`. -/
def callHooks (cp : Callbackp) : List Hook → Ape → Except Halt (UInt32 × Ape)
  | [], s => .ok (returnContinue, s)
  | h :: rest, s =>
    if strcaseeq h.cmd cp.cmd then do
      let (ret, s) ← h.func cp s
      if ret ≠ returnContinue then return (ret, s)
      callHooks cp rest s
    else callHooks cp rest s

/-- `handle_bad_cmd`. -/
def handleBadCmd : List CmdFunc → CmdFunc
  | [], _, s => .ok (returnBadCmd, s)
  | f :: rest, cp, s => do
    let (flagret, s) ← f cp s
    if flagret ≠ returnBadCmd then return (flagret, s)
    handleBadCmd rest cp s

namespace Ape

/-- An object with the `code` and `value` of an error. -/
def errObject (code value : Bytes) : JsonItem :=
  (JsonItem.newObject.setStr (bytes "code") code).setStr (bytes "value") value

def hi (raw : RawMsg) : RawMsg := { raw with priority := .hi }

/-! ### The built-in commands -/

def cmdConnect : CmdFunc := fun cp s => do
  let u ← deref cp.call_user
  let s ← s.adduser u
  let x ← s.user u
  let i ← useSub cp.call_subuser
  let s ← s.postRawSub (hi (s.forgeRaw (bytes "IDENT")
    (JsonItem.newObject.setObj (bytes "user") (getJsonObjectUser x)))) i
  let s ← s.postRaw (hi (s.forgeRaw (bytes "LOGIN")
    (JsonItem.newObject.setStr (bytes "sessid") x.sessid))) u
  return (returnNothing, s)

/-- `cmd_script`; `domain` says that the configuration names one. -/
def cmdScript (domain : Bool) : CmdFunc := fun cp s => do
  if !domain then
    let u ← deref cp.call_user
    let s ← s.sendError u (bytes "NO_DOMAIN") (bytes "201")
    return (returnNothing, s)
  else
    let fd := (s.co cp.client).fd
    let s := (jforeach cp.param (bytes "scripts")).foldl (fun s _ => (s.send fd .other).2)
      (s.send fd .other).2
    return (returnNothing, (s.send fd .other).2)

/-- One channel of `cmd_join`. -/
def joinOne (s : Ape) (u : UserId) (chan_name : Bytes) : Except Halt Ape := do
  match s.getchan chan_name with
  | none =>
    match ← s.mkchan chan_name true with
    | (none, s) => s.sendError u (bytes "CANT_JOIN_CHANNEL") (bytes "202")
    | (some c, s) => s.join u c
  | some c =>
    let x ← s.user u
    if isonchannel x c then s.sendError u (bytes "ALREADY_ON_CHANNEL") (bytes "100")
    else
      match ← s.getban c x.ip with
      | (some b, s) =>
        s.postRaw (s.forgeRaw (bytes "ERR") ((JsonItem.newObject.setStr (bytes "reason")
          b.reason).setStr (bytes "error") (bytes "YOU_ARE_BANNED"))) u
      | (none, s) => s.join u c

def cmdJoin : CmdFunc := fun cp s => do
  let names := jforeach cp.param (bytes "channels")
  let s ← names.foldlM (fun s name => do s.joinOne (← deref cp.call_user) name) s
  return (if names = [] then returnBadParams else returnNothing, s)

def cmdCheck : CmdFunc := fun _ s => .ok (returnNothing, s)

def cmdSend : CmdFunc := fun cp s => do
  match jstr cp.param (bytes "msg"), jstr cp.param (bytes "pipe") with
  | some msg, some pipe =>
    let i ← useSub cp.call_subuser
    let (_, s) ← s.postToPipe (JsonItem.newObject.setStr (bytes "msg") msg) (bytes "DATA") pipe i
    return (returnNothing, s)
  | _, _ => return (returnBadParams, s)

def cmdQuit : CmdFunc := fun cp s => do
  let s := s.sendRawInline cp.client (s.forgeRaw (bytes "QUIT")
    (JsonItem.newObject.setStr (bytes "value") (bytes "null")))
  match cp.call_user with
  | none => return (returnNull, s)
  | some u => return (returnNull, ← s.deluser u)

def cmdLeft : CmdFunc := fun cp s => do
  match jstr cp.param (bytes "channel") with
  | none => return (returnBadParams, s)
  | some chan_name =>
    let u ← deref cp.call_user
    match s.getchan chan_name with
    | none => return (returnNothing, ← s.sendError u (bytes "UNKNOWN_CHANNEL") (bytes "103"))
    | some c =>
      let x ← s.user u
      if !isonchannel x c then
        return (returnNothing, ← s.sendError u (bytes "NOT_IN_CHANNEL") (bytes "104"))
      else return (returnNothing, ← s.left u c)

/-- One pair of `cmd_session` with action `set`. -/
def setOne (s : Ape) (u : UserId) (p : Bytes × Bytes) : Except Halt Ape := do
  let x ← s.user u
  match setSession x p.1 p.2 with
  | some x => return s.setUser u x
  | none => s.sendError u (bytes "SESSION_ERROR") (bytes "203")

def cmdSession : CmdFunc := fun cp s => do
  match jstr cp.param (bytes "action") with
  | none => return (returnBadParams, s)
  | some action =>
    if strcaseeq action (bytes "set") then
      let pairs := jforeachK cp.param (bytes "values")
      let s ← pairs.foldlM (fun s p => do s.setOne (← deref cp.call_user) p) s
      return (if pairs = [] then returnBadParams else returnNothing, s)
    else if strcaseeq action (bytes "get") then
      let keys := jforeach cp.param (bytes "values")
      if keys = [] then return (returnBadParams, s)
      let x ← s.user (← deref cp.call_user)
      let jobj := keys.foldl (fun o k => o.setStr k ((getSession x k).getD (bytes "null")))
        JsonItem.newObject
      let i ← useSub cp.call_subuser
      let s ← s.postRawSub (s.forgeRaw (bytes "SESSIONS")
        ((JsonItem.newObject.setObj (bytes "sessions") jobj).setInt (bytes "chl") cp.chl)) i
      return (returnNothing, s)
    else return (returnBadParams, s)

end Ape

/-- `do_register`. -/
def builtins (domain : Bool) : Htbl Callback :=
  [(bytes "CONNECT", ⟨Ape.cmdConnect, .nothing⟩), (bytes "SCRIPT", ⟨Ape.cmdScript domain, .nothing⟩),
    (bytes "CHECK", ⟨Ape.cmdCheck, .sessid⟩), (bytes "SEND", ⟨Ape.cmdSend, .sessid⟩),
    (bytes "QUIT", ⟨Ape.cmdQuit, .sessid⟩), (bytes "JOIN", ⟨Ape.cmdJoin, .sessid⟩),
    (bytes "LEFT", ⟨Ape.cmdLeft, .sessid⟩), (bytes "SESSION", ⟨Ape.cmdSession, .sessid⟩)].foldl
    (fun t p => t.append p.1 p.2) Htbl.init

/-- The commands of a server without plugins. -/
def Cmds.plain (domain : Bool) : Cmds := { hCallback := builtins domain, hooks := [], bad := [] }

end ApeServer
