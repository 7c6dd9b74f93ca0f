import ApeServer.Http.Websocket
import ApeServer.Server.Process

/-!
# The events of the main server

What arrives at a connection accepted by the main server: `handle_http.c`, the callbacks of
`parser.c` and of `servers.c`, and the timer. Between two events the server is in one state.
-/
namespace ApeServer

open Sock (Bytes)

/-- What `process_http` hands over. `data` holds the children of the parsed document, `none`
when there was no data. -/
structure HttpRequest where
  host : Option Bytes
  uri : Option Bytes
  hlines : List Http.HeaderLine
  data : Option (List JsonItem)

/-- `get_header_line`. -/
def getHeaderLine (lines : List Http.HeaderLine) (key : Bytes) : Option Bytes :=
  (lines.find? fun l => strcaseeq l.key key).map Http.HeaderLine.value

/-- `gettransport`. -/
def gettransport (input : Bytes) : Transport :=
  match input.dropWhile (· ≠ 47) with
  | _ :: d :: 47 :: _ =>
    if d = 49 then .xhrstreaming
    else if d = 50 then .jsonp
    else if d = 51 then .persistant
    else if d = 52 then .sseLongpolling
    else if d = 53 then .sseJsonp
    else if d = 54 then .websocket
    else .longpolling
  | _ => .longpolling

/-- The version of a WebSocket handshake, `none` when it is refused. -/
def wsVersion (hlines : List Http.HeaderLine) : Option Websocket.Version :=
  if getHeaderLine hlines (bytes "Origin") = none ∧
      getHeaderLine hlines (bytes "Sec-WebSocket-Origin") = none then none
  else
    match getHeaderLine hlines (bytes "Sec-WebSocket-Key1"),
      getHeaderLine hlines (bytes "Sec-WebSocket-Key2"),
      getHeaderLine hlines (bytes "Sec-WebSocket-Key") with
    | some _, some _, _ => some .v76
    | _, _, some keybase =>
      if keybase.length > 32 then none
      else
        match getHeaderLine hlines (bytes "Sec-WebSocket-Version") with
        | some v => some (if Http.atoi v = 6 then .ietf06 else .ietf07)
        | none => some .old
    | _, _, none => some .old

/-- The number of writes that answer a handshake. -/
def handshakeWrites (hlines : List Http.HeaderLine) : Websocket.Version → ℕ
  | .old => 7
  | .v76 => 8
  | .ietf06 | .ietf07 =>
    if getHeaderLine hlines (bytes "Sec-WebSocket-Protocol") = none then 4 else 6

/-- The transport of the messages of a WebSocket. -/
def wsTransport : Websocket.Version → Transport
  | .old | .v76 => .websocket
  | .ietf06 | .ietf07 => .websocketIetf

/-- What may happen next. -/
inductive Event where
  | accept (fd : Fd) (ip : Bytes)
  | request (fd : Fd) (r : HttpRequest)
  | message (fd : Fd) (objects : List JsonItem)
  /-- the kernel has taken all that was queued -/
  | sent (fd : Fd)
  /-- the peer has reset the connection, which `read` has not reported yet -/
  | reset (fd : Fd)
  | disconnect (fd : Fd)
  /-- `check_timeout` -/
  | tick
  | clock (time : ℤ)

namespace Ape

/-- `shutdown(fd, 2)`. -/
def shutdown (s : Ape) (fd : Fd) : Ape := s.setCo fd { s.co fd with shut := true }

def setAttach (s : Ape) (fd : Fd) (sub : Option SubId) : Ape :=
  s.setCo fd { s.co fd with attach := sub }

/-- The answer to a WebSocket handshake, and the parser of what follows. -/
def handshake (s : Ape) (fd : Fd) (host : Bytes) (hlines : List Http.HeaderLine) : Ape :=
  match wsVersion hlines with
  | none => s.shutdown fd
  | some version =>
    let s := (List.range (handshakeWrites hlines version)).foldl
      (fun s _ => (s.send fd .other).2) s
    s.setCo fd { s.co fd with parser := some (.websocket (wsTransport version) host) }

/-- `checkrecv`: the subuser to attach. -/
def checkrecv (cmds : Cmds) (s : Ape) (fd : Fd) (r : HttpRequest) :
    Except Halt (Option SubId × Ape) :=
  match r.host with
  | none => .ok (none, s.shutdown fd)
  | some host => do
    let uri ← deref r.uri
    if gettransport uri = .websocket then return (none, s.handshake fd host r.hlines)
    else
      match r.data with
      | none => return (none, ((s.send fd .other).2.send fd .other).2.safeShutdown fd)
      | some objects =>
        let c ← checkcmd cmds objects fd host (s.co fd).ip_client (gettransport uri) s
        match c.ret with
        | .shutdown => return (c.iuser, c.state.safeShutdown fd)
        | .keepalive => return (c.iuser, c.state)

/-- `parser_ready_http`. -/
def parserReadyHttp (cmds : Cmds) (s : Ape) (fd : Fd) (r : HttpRequest) : Except Halt Ape := do
  let (sub, s) ← s.checkrecv cmds fd r
  return s.setAttach fd sub

/-- The subuser a WebSocket was attached to before is not connected any more. -/
def supersede (s : Ape) (tmp sub : Option SubId) : Except Halt Ape :=
  match tmp with
  | some i =>
    if sub ≠ some i then do
      let y ← s.sub i
      return s.setSub i { y with state := .adied }
    else .ok s
  | none => .ok s

/-- `parser_ready_websocket`. -/
def parserReadyWebsocket (cmds : Cmds) (s : Ape) (fd : Fd) (transport : Transport) (host : Bytes)
    (objects : List JsonItem) : Except Halt Ape := do
  let tmp := (s.co fd).attach
  let c ← checkcmd cmds objects fd host (s.co fd).ip_client transport s
  (c.state.setAttach fd c.iuser).supersede tmp c.iuser

/-- `transport_data_completly_sent` for the user of a subuser, if it has one. -/
def completeFor (s : Ape) (i : SubId) : Option UserId → Except Halt Ape
  | some u => do
    let x ← s.user u
    s.transportDataCompletlySent i x.transport
  | none => .ok s

/-- `ape_sent`. -/
def apeSent (s : Ape) (fd : Fd) : Except Halt Ape :=
  match (s.co fd).attach with
  | none => .ok s
  | some i => do
    let y ← s.sub i
    if y.burn_after_writing then
      let s ← s.completeFor i y.user
      let y ← s.sub i
      return s.setSub i { y with burn_after_writing := false }
    else return s

/-- A user that was never connected goes with its connection. -/
def dropTmp (s : Ape) (fd : Fd) : Option UserId → Except Halt Ape
  | some u => do
    let x ← s.user u
    if x.istmp then
      let s ← s.deluser u
      return s.setAttach fd none
    else return s
  | none => .ok s

/-- `ape_disconnect`. -/
def apeDisconnect (s : Ape) (fd : Fd) : Except Halt Ape :=
  match (s.co fd).attach with
  | none => .ok s
  | some i => do
    let y ← s.sub i
    if y.wait_for_free then
      return { s with subs := Function.update s.subs i none }.setAttach fd none
    else if (s.co fd).fd = (s.co y.client).fd then
      (s.setSub i { y with headersSent := false, state := .adied }).dropTmp fd y.user
    else return s

/-- The slot of an open connection. -/
def Open (s : Ape) (fd : Fd) : Prop := fd ≠ 0 ∧ (s.co fd).fd = fd

instance (s : Ape) (fd : Fd) : Decidable (s.Open fd) := by unfold Open; infer_instance

/-- One event. -/
def step (cmds : Cmds) (s : Ape) : Event → Except Halt Ape
  | .accept fd ip =>
    if fd ≠ 0 ∧ (s.co fd).fd = 0 then
      .ok (s.setCo fd { Socket.closed with fd := fd, ip_client := ip.take 16, parser := some .http })
    else .error .event
  | .request fd r =>
    if s.Open fd ∧ (s.co fd).parser = some .http then s.parserReadyHttp cmds fd r
    else .error .event
  | .message fd objects =>
    match (s.co fd).parser with
    | some (.websocket transport host) =>
      if s.Open fd then s.parserReadyWebsocket cmds fd transport host objects else .error .event
    | _ => .error .event
  | .sent fd =>
    if s.Open fd ∧ (s.co fd).bufout = true then do
      let s ← (s.setCo fd { s.co fd with bufout := false }).apeSent fd
      return if (s.co fd).burn_after_writing then s.shutdown fd else s
    else .error .event
  | .reset fd => if s.Open fd then .ok (s.shutdown fd) else .error .event
  | .disconnect fd =>
    if s.Open fd then do
      let s ← s.apeDisconnect fd
      return s.setCo fd .closed
    else .error .event
  | .tick => s.checkTimeout
  | .clock time => .ok { s with time := time }

end Ape

end ApeServer
