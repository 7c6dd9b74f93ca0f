import ApeServer.Transports

/-!
# WebSocket input

`process_websocket` and the two frame parsers of `http.c` on a little-endian machine.
The packed `frame_payload` is its ten bytes of memory, a pointer into `buffer_in` is
an index, and the bytes of `buffer_in` below `length` are a list.
-/
namespace ApeServer.Websocket

open Sock (Bytes)

/-- `ws_version`. -/
inductive Version where
  | old
  | v76
  | ietf06
  | ietf07
deriving DecidableEq, Repr

/-- `ws_payload_step`. -/
inductive Step where
  | key
  | start
  | length
  | shortLength
  | extendedLength
  | data
  | finish
deriving DecidableEq, Repr

/-- What a parser does to the outside. -/
inductive Event where
  | ready (data : Bytes)
  | send (bin : Bytes) (burn : Bool)
  | shutdown
deriving DecidableEq, Repr

/-- The fields of `websocket_state` that move while bytes are read. -/
structure State where
  offset : ℕ
  step : Step
  key : Bytes
  keyPos : ℕ
  payload : Bytes
  dataPos : ℕ
  dataInkey : ℕ
  framePos : Int
deriving DecidableEq, Repr

/-- One socket: its parser, `buffer_in` and the effects so far. -/
structure Socket where
  version : Version
  ready : Int
  ws : State
  buf : Bytes
  log : List Event
deriving DecidableEq, Repr

/-- The number written in some bytes, least significant first. -/
def leNat : Bytes → ℕ
  | [] => 0
  | b :: bs => b.toNat + 256 * leNat bs

/-- The same for network order. -/
def beNat (bs : Bytes) : ℕ := leNat bs.reverse

/-- The `n` low bytes of `x` in memory order. -/
def leBytes : ℕ → ℕ → Bytes
  | 0, _ => []
  | n + 1, x => UInt8.ofNat x :: leBytes n (x / 256)

/-- `frame_payload.extended_length`, the union member over bytes 2 to 9. -/
def extended (payload : Bytes) : ℕ := leNat ((payload.drop 2).take 8)

def setExtended (payload : Bytes) (x : ℕ) : Bytes := payload.take 2 ++ leBytes 8 x

/-- `--frame_payload.extended_length`, on an unsigned 64-bit number. -/
def decrement (x : ℕ) : ℕ := (x + (2 ^ 64 - 1)) % 2 ^ 64

/-- `ntohs(frame_payload.short_length)`. -/
def shortHost (payload : Bytes) : ℕ := beNat ((payload.drop 2).take 2)

/-- `ntohl(frame_payload.extended_length >> 32)`: only the low half arrives. -/
def extendedHost (payload : Bytes) : ℕ := beNat ((payload.drop 6).take 4)

/-- The constants in which the end of a frame differs between the two parsers. -/
structure Draft where
  first : Step
  close : UInt8
  ping : UInt8
  pong : UInt8
  closeHead : UInt8
  pongHead : UInt8

def draft07 : Draft :=
  { first := .start, close := 0x8, ping := 0x9, pong := 0xA, closeHead := 0x88, pongHead := 0x8a }

def draft06 : Draft :=
  { first := .key, close := 0x1, ping := 0x2, pong := 0x3, closeHead := 0x81, pongHead := 0x83 }

/-- How one turn of the byte loop ends: with the next byte, or with a `return`. -/
inductive Turn where
  | go (s : Socket)
  | stop (s : Socket)

namespace Socket

def setWs (s : Socket) (ws : State) : Socket := { s with ws }

def emit (s : Socket) (es : List Event) : Socket := { s with log := s.log ++ es }

/-- The byte under `pData`. -/
def byte (s : Socket) : UInt8 := s.buf.getD s.ws.offset 0

/-- `*pData = b`. -/
def setByte (s : Socket) (b : UInt8) : Socket := { s with buf := s.buf.set s.ws.offset b }

end Socket

/-- `if (offset+1 == buffer->length)`: a read that ends with a frame empties the buffer. -/
def frameDone (s : Socket) : Turn :=
  if s.ws.offset + 1 = s.buf.length then
    .stop { s with buf := [], ws := { s.ws with offset := 0, framePos := 0, keyPos := 0 } }
  else .go s

/-- The last byte of a frame has been read: `data` is `websocket->data` up to it. -/
def endFrame (d : Draft) (s : Socket) : Turn :=
  let data := (s.buf.take (s.ws.offset + 1)).drop s.ws.dataPos
  let s := s.setWs { s.ws with
    step := d.first, framePos := -1, payload := setExtended s.ws.payload 0, dataPos := 0,
    keyPos := 0 }
  let op := s.ws.payload.getD 0 0 &&& 0x0F
  if op = d.close then .stop (s.emit [.send [d.closeHead, 0x00] false])
  else if op = d.ping then
    -- control frames must be 125 bytes or less
    if data.length > 125 then .stop (s.emit [.send [d.closeHead, 0x00] true])
    else frameDone (s.emit (.send [d.pongHead, UInt8.ofNat data.length &&& 0x7F] false ::
      if data = [] then [] else [.send data false]))
  else if op = d.pong then frameDone s
  else frameDone (s.emit [.ready data])

/-- The part of `WS_STEP_DATA` that counts the byte down. -/
def countDown (d : Draft) (s : Socket) : Turn :=
  let dataPos := if s.ws.dataPos = 0 then s.ws.offset else s.ws.dataPos
  let left := decrement (extended s.ws.payload)
  let s := s.setWs { s.ws with dataPos, payload := setExtended s.ws.payload left }
  if left = 0 then endFrame d s else .go s

/-- One turn of the loop of `process_websocket_frame`. -/
def frameByte07 (s : Socket) : Turn :=
  let b := s.byte
  let ws := s.ws
  match ws.step with
  | .key =>
    let ws := { ws with key := ws.key.set ws.keyPos b, keyPos := ws.keyPos + 1 }
    .go (s.setWs (if ws.keyPos = 4 then { ws with step := .data, dataInkey := 0 } else ws))
  | .start => .go (s.setWs { ws with payload := ws.payload.set 0 b, step := .length })
  | .length =>
    if b &&& 0x80 = 0 then .stop s
    else if b &&& 0x7F = 126 then .go (s.setWs { ws with step := .shortLength })
    else if b &&& 0x7F = 127 then .go (s.setWs { ws with step := .extendedLength })
    else .go (s.setWs { ws with
      payload := setExtended ws.payload (b &&& 0x7F).toNat, step := .key })
  | .shortLength =>
    let payload := ws.payload.set ws.framePos.toNat b
    .go (s.setWs (if ws.framePos = 3 then
      { ws with payload := setExtended payload (shortHost payload), step := .key }
      else { ws with payload }))
  | .extendedLength =>
    let payload := ws.payload.set ws.framePos.toNat b
    .go (s.setWs (if ws.framePos = 9 then
      { ws with payload := setExtended payload (extendedHost payload), step := .key }
      else { ws with payload }))
  | .data =>
    let s := s.setByte (b ^^^ ws.key.getD (ws.dataInkey % 4) 0)
    countDown draft07 (s.setWs { ws with dataInkey := ws.dataInkey + 1 })
  | .finish => .go s

/-- One turn of the loop of `process_websocket_frame_06`, which deciphers in place every
byte behind the key. -/
def frameByte06 (s : Socket) : Turn :=
  let ws := s.ws
  let b := if ws.step = .key then s.byte
    else s.byte ^^^ ws.key.getD ((ws.framePos - 4).tmod 4).toNat 0
  let s := s.setByte b
  match ws.step with
  | .key =>
    let ws := { ws with key := ws.key.set ws.framePos.toNat b }
    .go (s.setWs (if ws.framePos = 3 then { ws with step := .start } else ws))
  | .start => .go (s.setWs { ws with payload := ws.payload.set 0 b, step := .length })
  | .length =>
    if b &&& 0x7F = 126 then .go (s.setWs { ws with step := .shortLength })
    else if b &&& 0x7F = 127 then .go (s.setWs { ws with step := .extendedLength })
    else .go (s.setWs { ws with
      payload := setExtended ws.payload (b &&& 0x7F).toNat, step := .data })
  | .shortLength =>
    let payload := ws.payload.set (ws.framePos - 4).toNat b
    .go (s.setWs (if ws.framePos = 7 then
      { ws with payload := setExtended payload (shortHost payload), step := .data }
      else { ws with payload }))
  | .extendedLength =>
    let payload := ws.payload.set (ws.framePos - 4).toNat b
    .go (s.setWs (if ws.framePos = 13 then
      { ws with payload := setExtended payload (extendedHost payload), step := .data }
      else { ws with payload }))
  | .data => countDown draft06 s
  | .finish => .go s

/-- The byte loop over the `n` bytes between `offset` and `length`; a turn that does not
return leaves `length` alone. -/
def frameLoop (turn : Socket → Turn) : ℕ → Socket → Socket
  | 0, s => s
  | n + 1, s =>
    match turn s with
    | .stop s => s
    | .go s => frameLoop turn n
        (s.setWs { s.ws with offset := s.ws.offset + 1, framePos := s.ws.framePos + 1 })

/-- The message scan of the older framings: the index of the first 0xFF behind `data`. -/
def scanOld (buf : Bytes) (data : ℕ) : Option ℕ :=
  ((buf.drop (data + 1)).findIdx? (· = 0xFF)).map (· + data + 1)

theorem scanOld_bound {buf : Bytes} {data j : ℕ} (h : scanOld buf data = some j) :
    data < j ∧ j < buf.length := by
  simp only [scanOld, Option.map_eq_some_iff] at h
  obtain ⟨i, hi, rfl⟩ := h
  have := (List.findIdx?_eq_some_iff_getElem.mp hi).1
  simp only [List.length_drop] at this
  omega

/-- The rest of `process_websocket` for `WS_OLD` and `WS_76`, with its recursion. -/
def processOld (s : Socket) : Socket :=
  let first := if s.byte = 0 then s.ws.offset + 1 else s.ws.offset
  match hs : scanOld s.buf first with
  | none => s
  | some j =>
    let data := (s.buf.take j).drop (s.ws.offset + 1)
    let t := { s with buf := s.buf.set j 0 }.emit [.ready data]
    if j + 1 = t.buf.length then
      { t with ready := -1, buf := [], ws := { t.ws with offset := 0 } }
    else processOld (t.setWs { t.ws with offset := j + 1 })
termination_by s.buf.length - s.ws.offset
decreasing_by
  have hbound := scanOld_bound hs
  have hfirst : s.ws.offset ≤ first := by
    simp only [first]
    split <;> omega
  simp only [Socket.setWs, Socket.emit, List.length_set]
  omega

/-- `process_websocket`, called after every read. -/
def processWebsocket (s : Socket) : Socket :=
  if s.buf = [] ∨ s.ready = 1 then s
  else if s.buf.length > 502400 then s.emit [.shutdown]
  else
    match s.version with
    | .ietf06 => frameLoop frameByte06 (s.buf.length - s.ws.offset) s
    | .ietf07 => frameLoop frameByte07 (s.buf.length - s.ws.offset) s
    | .old | .v76 => processOld s

/-- A read appends to `buffer_in` and runs the parser. -/
def receive (s : Socket) (read : Bytes) : Socket :=
  processWebsocket { s with buf := s.buf ++ read }

/-- The parser as `checkrecv` sets it up with `parser_init_stream` after the handshake.
`data_inkey` and `key.val` are not initialised there. -/
def newSocket (version : Version) (key : Bytes) (inkey : ℕ) : Socket :=
  { version
    ready := -1
    ws :=
      { offset := 0
        step := match version with
          | .ietf06 => .key
          | _ => .start
        key, keyPos := 0, payload := List.replicate 10 0, dataPos := 0, dataInkey := inkey
        framePos := 0 }
    buf := []
    log := [] }

end ApeServer.Websocket
