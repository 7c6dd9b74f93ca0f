import ApeServer.Server.Pipe

/-!
# Channels

`channel.c` without its levels. The loops that call `left` walk over list nodes they have
read before; a node is freed with the membership it records, so meeting one whose
membership is gone is a use of freed memory.
-/
namespace ApeServer

open Sock (Bytes)

def maxChanLen : ℕ := 40

def isalnum (b : UInt8) : Bool :=
  (48 ≤ b && b ≤ 57) || (65 ≤ b && b ≤ 90) || (97 ≤ b && b ≤ 122)

/-- The letters a channel name may have after its optional star. -/
def validChanChar (b : UInt8) : Bool := (bytes "_|:.").contains b || isalnum b

/-- `isvalidchan`: the name with its letters lowered, `none` when it is refused. -/
def isvalidchan (name : Bytes) : Option Bytes :=
  if name.length > maxChanLen then none
  else
    let (star, rest) := if name.head? = some 42 then ([42], name.tail) else ([], name)
    if (rest.map Http.tolower).all validChanChar then some (star ++ rest.map Http.tolower)
    else none

namespace Channel

/-- The users of `head`. -/
def users (x : Channel) : List UserId := x.head.map Member.userinfo

/-- The first node of a user is taken out of `head`. -/
def leave (x : Channel) (u : UserId) : Channel :=
  { x with head := x.head.eraseP fun m => m.userinfo = u }

end Channel

/-- The first node of a channel is taken out of `chan_foot`. -/
def User.leave (x : User) (c : ChanId) : User := { x with chan_foot := x.chan_foot.erase c }

namespace Ape

/-- `mkchan`; `none` is NULL. -/
def mkchan (s : Ape) (chan : Bytes) (autodestroy : Bool) :
    Except Halt (Option ChanId × Ape) :=
  match isvalidchan chan with
  | none => .ok (none, s)
  | some name => do
    let c := s.fresh
    let s := { s with fresh := s.fresh + 1 }
    let (pubid, s) ← s.initPipe (.channel c)
    let x : Channel :=
      { pubid := pubid, head := [], banned := [], properties := [],
        nonInteractive := name.head? = some 42, autodestroy := autodestroy, name := name }
    let s := s.setChan c x
    return (some c, { s with hLusers := s.hLusers.append name c })

def getchan (s : Ape) (chan : Bytes) : Option ChanId :=
  if chan.length > maxChanLen then none else s.hLusers.seek chan

/-- The second half of `rmchan`, after its members have left. -/
def freeChan (s : Ape) (c : ChanId) : Except Halt Ape := do
  let x ← s.chan c
  let s := { s with hLusers := s.hLusers.erase x.name }
  let s := s.destroyPipe x.pubid
  return { s with chans := Function.update s.chans c none }

/-- The object of `RAW_LEFT`, and of `RAW_JOIN`. -/
def userAndPipe (x : User) (y : Channel) : JsonItem :=
  (JsonItem.newObject.setObj (bytes "user") (getJsonObjectUser x)).setObj (bytes "pipe")
    (getJsonObjectChannel y)

/-- `left`. The channel it destroys has no member, so `rmchan` is only its second half
there. -/
def left (s : Ape) (u : UserId) (c : ChanId) : Except Halt Ape := do
  let x ← s.user u
  if !isonchannel x c then return s
  let s := s.setUser u (x.leave c)
  let y ← s.chan c
  if !(u ∈ y.users) then return s
  let raw := s.forgeRaw (bytes "LEFT") (userAndPipe x y)
  let s ← s.postRaw raw u
  let y := y.leave u
  let s := s.setChan c y
  if y.head ≠ [] ∧ y.nonInteractive = false then s.postRawChannel raw c
  else if y.head = [] ∧ y.autodestroy = true then s.freeChan c
  else return s

/-- The loop of `rmchan` over the nodes it has still to visit. -/
def leftMembers (s : Ape) (c : ChanId) : List Member → Except Halt Ape
  | [] => .ok s
  | m :: rest => do
    let y ← s.chan c
    if m.userinfo ∈ y.users then
      let s ← s.left m.userinfo c
      s.leftMembers c rest
    else .error .freed

/-- The first half of `rmchan`: all members leave, without a raw to the others. -/
def evict (s : Ape) (c : ChanId) (y : Channel) : Except Halt Ape :=
  if y.head ≠ [] then
    (s.setChan c { y with nonInteractive := true, autodestroy := false }).leftMembers c y.head
  else .ok s

def rmchan (s : Ape) (c : ChanId) : Except Halt Ape := do
  let y ← s.chan c
  let s ← s.evict c y
  s.freeChan c

/-- The `users` array of `RAW_CHANNEL`. -/
def channelUsers (s : Ape) (head : List Member) : Except Halt JsonItem :=
  head.foldlM (fun l m => do
    let x ← s.user m.userinfo
    return l.setElement ((getJsonObjectUser x).setInt (bytes "level") m.level)) .newArray

/-- What an interactive channel is told of a new member, and what the member is told. -/
def welcome (s : Ape) (u : UserId) (x : User) (c : ChanId) (y : Channel) (head : List Member) :
    Except Halt (JsonItem × Ape) :=
  if y.nonInteractive = true then .ok (JsonItem.newObject, s)
  else if y.head ≠ [] then do
    let s ← s.postRawChannelRestricted (s.forgeRaw (bytes "JOIN") (userAndPipe x y)) c u
    return (JsonItem.newObject.setObj (bytes "users") (← s.channelUsers head), s)
  else do
    return (JsonItem.newObject.setObj (bytes "users") (← s.channelUsers head), s)

def join (s : Ape) (u : UserId) (c : ChanId) : Except Halt Ape := do
  let x ← s.user u
  if isonchannel x c then return s
  let y ← s.chan c
  let head := ⟨u, 1⟩ :: y.head
  let s := s.setChan c { y with head := head }
  let s := s.setUser u { x with chan_foot := c :: x.chan_foot }
  let (jlist, s) ← s.welcome u x c y head
  s.postRaw (s.forgeRaw (bytes "CHANNEL")
    (jlist.setObj (bytes "pipe") (getJsonObjectChannel y))) u

/-- The loop of `left_all` over the nodes it has still to visit. -/
def leftChans (s : Ape) (u : UserId) : List ChanId → Except Halt Ape
  | [] => .ok s
  | c :: rest => do
    let x ← s.user u
    if c ∈ x.chan_foot then
      let s ← s.left u c
      s.leftChans u rest
    else .error .freed

/-- `left_all`. -/
def leftAll (s : Ape) (u : UserId) : Except Halt Ape := do
  let x ← s.user u
  s.leftChans u x.chan_foot

/-- The ban of an address, in front of the list `ban` started from. -/
def recordBan (s : Ape) (c : ChanId) (y : Channel) (isban : Bool) (b : Banned)
    (bTmp : List Banned) : Ape :=
  if isban then s else s.setChan c { y with banned := b :: bTmp }

/-- What `ban` does with a member that has the address. -/
def banOne (s : Ape) (c : ChanId) (y : Channel) (banner : Option UserId) (reason : Bytes)
    (isban : Bool) (b : Banned) (bTmp : List Banned) (u : UserId) : Except Halt Ape := do
  let x ← s.user (← deref banner)
  let jlist := ((JsonItem.newObject.setStr (bytes "reason") reason).setObj (bytes "banner")
    (getJsonObjectUser x)).setObj (bytes "pipe") (getJsonObjectChannel y)
  let s ← s.postRaw (s.forgeRaw (bytes "BANNED") jlist) u
  (s.recordBan c y isban b bTmp).left u c

/-- The loop of `ban` over the nodes it has still to visit: `bTmp` is the ban list it
started from, `isban` says that the new ban is recorded already. -/
def banMembers (s : Ape) (c : ChanId) (banner : Option UserId) (ip reason : Bytes)
    (nextime : ℤ) (bTmp : List Banned) : Bool → List Member → Except Halt Ape
  | _, [] => .ok s
  | isban, m :: rest => do
    let y ← s.chan c
    if m.userinfo ∈ y.users then
      let x ← s.user m.userinfo
      if x.ip = ip then
        let s ← s.banOne c y banner reason isban ⟨ip.take 16, reason.take 255, nextime⟩ bTmp
          m.userinfo
        s.banMembers c banner ip reason nextime bTmp true rest
      else s.banMembers c banner ip reason nextime bTmp isban rest
    else .error .freed

def ban (s : Ape) (c : ChanId) (banner : Option UserId) (ip reason : Bytes)
    (expire : UInt32) : Except Halt Ape := do
  let y ← s.chan c
  s.banMembers c banner ip reason ((expire * 60).toNat + s.time) y.banned false y.head

/-- The scan of `getban`: expired bans before the one found are dropped. -/
def seekBan (time : ℤ) (ip : Bytes) : List Banned → Option Banned × List Banned
  | [] => (none, [])
  | b :: rest =>
    if b.expire < time then seekBan time ip rest
    else if b.ip = ip then (some b, b :: rest)
    else
      let (r, l) := seekBan time ip rest
      (r, b :: l)

def getban (s : Ape) (c : ChanId) (ip : Bytes) : Except Halt (Option Banned × Ape) := do
  let y ← s.chan c
  let (b, l) := seekBan s.time ip y.banned
  return (b, s.setChan c { y with banned := l })

end Ape

end ApeServer
