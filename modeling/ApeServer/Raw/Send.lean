import ApeServer.Raw.PoolInv

/-! `send_raws` with its headers, paddings and frame, as the pieces given to `sendbin`. -/
namespace ApeServer.RawPool

open Sock (Bytes toInt32)

/-- What `send_raws` reads and writes of a subuser. `content` is a custom header block. -/
structure Sub where
  pools : Pools
  headersSent : Bool
  content : Option (List Bytes)

def newSub : Sub := { pools := newPools, headersSent := false, content := none }

/-- `http_send_headers`: a custom block, else the default one. -/
def httpSendHeaders (content : Option (List Bytes)) (default : Bytes) : List Bytes :=
  content.getD [default]

/-- The header block of a transport; the WebSocket ones have had their handshake. -/
def transportHeaders (content : Option (List Bytes)) : Transport → List Bytes
  | .xhrstreaming => httpSendHeaders content headerXhr
  | .sseLongpolling => httpSendHeaders content headerSse
  | .jsonp => httpSendHeaders content headerJsonp
  | .websocket | .websocketIetf => []
  | .longpolling | .persistant | .sseJsonp => httpSendHeaders content headerDefault

/-- The loop of `raws_size`; a walk visits every cell at most once. -/
def rawsSizeLoop (s : Pools) : ℕ → Option ℕ → Bool → ℕ → Option ℕ
  | 0, _, _, _ => none
  | fuel + 1, pool, state, size => do
    let a ← pool
    let cell ← s.mem[a]?
    match cell.raw with
    | none => pure size
    | some raw =>
      let poolNext := if state then cell.next else cell.prev
      let size := (size + raw.data.length + 1) % 2 ^ 32
      if (rawAt s.mem poolNext).isNone && !state then
        rawsSizeLoop s fuel s.low.rawhead true size
      else rawsSizeLoop s fuel poolNext state size

/-- Where both walks begin: the last high raw, or the head of the low pool. -/
def firstPool (s : Pools) : Option ℕ × Bool :=
  if s.high.nraw ≠ 0 then ((s.high.rawfoot.bind (s.mem[·]?)).bind Cell.prev, false)
  else (s.low.rawhead, true)

def rawsSize (s : Pools) : Option ℕ :=
  if s.nraw = 0 then some 0
  else rawsSizeLoop s (s.mem.length + 1) (firstPool s).1 (firstPool s).2 1

/-- Big-endian bytes, as `htons` and `htonl` lay them out. -/
def be : ℕ → ℕ → Bytes
  | 0, _ => []
  | n + 1, x => be n (x / 256) ++ [UInt8.ofNat x]

/-- The frame head of a payload of `size` bytes. `size` is an `int`; the last comparison
of the source is an unsigned one and always true. -/
def payloadHead (start : UInt8) (size : Int) : Bytes :=
  if size ≤ 125 then [start, UInt8.ofInt size &&& 0x7F]
  else if size ≤ 65535 then [start, 126] ++ be 2 size.toNat
  else [start, 127, 0, 0, 0, 0] ++ be 4 size.toNat

/-- `WS_IETF_06` uses opcode 4 for text, the later drafts opcode 1. -/
def frameStart (ietf06 : Bool) : UInt8 := if ietf06 then 0x84 else 0x81

/-- What `send_raws` writes before the body. -/
def preamble (t : Option Padding) (transport : Transport) (ietf06 : Bool) (s : Sub) :
    Option (List Bytes) := do
  let headers := if s.headersSent then [] else transportHeaders s.content transport
  let left := (t.bind Padding.left).toList
  let frame ←
    if transport = .websocketIetf then do
      let size ← rawsSize s.pools
      pure [payloadHead (frameStart ietf06) (toInt32 size)]
    else pure []
  pure (headers ++ left ++ frame)

/-- The subuser after the loop: no raws, and both feet back on their heads. -/
def emptied (s : Sub) (mem : List Cell) : Sub :=
  { s with
    headersSent := true
    pools :=
      { mem
        low := { s.pools.low with nraw := 0, rawfoot := s.pools.low.rawhead }
        high := { s.pools.high with nraw := 0, rawfoot := s.pools.high.rawhead }
        nraw := 0 } }

/-- `send_raws`: the pieces it passes to `sendbin`, in order, and the new subuser. -/
def sendRaws (t : ApeTransports) (transport : Transport) (ietf06 : Bool) (s : Sub) :
    Option (List Bytes × Sub) :=
  if s.pools.nraw = 0 then some ([], s)
  else do
    let properties := transportGetProperties t transport
    let before ← preamble properties transport ietf06 s
    let (pool, state) := firstPool s.pools
    let (out, mem) ← sendLoop (properties.bind Padding.right) s.pools.low s.pools.mem pool state
    pure (before ++ bytes "[" :: out, emptied s mem)

end ApeServer.RawPool
