import ApeServer.Sock.Bufout

/-! The transports of `transports.h` and what each of them puts around a body. -/
namespace ApeServer

open Sock (Bytes)

/-- The bytes of a C string literal. -/
def bytes (s : String) : Bytes := s.toList.map fun c => UInt8.ofNat c.toNat

/-- `transport_t`. -/
inductive Transport where
  | longpolling
  | xhrstreaming
  | jsonp
  | persistant
  | sseLongpolling
  | sseJsonp
  | websocket
  | websocketIetf
deriving DecidableEq, Repr

/-- The padding of `struct _transport_properties`; `none` is a NULL `val`. -/
structure Padding where
  left : Option Bytes
  right : Option Bytes

/-- `struct _ape_transports`. -/
structure ApeTransports where
  jsonp : Padding
  xhrstreaming : Padding
  sse : Padding
  websocket : Padding
  websocketIetf : Padding

/-- `transport_start`. With an empty `eval_func` the right padding of JSONP keeps what
the record held before. The SSE prefix is sent with its terminating NUL. -/
def transportStart (evalFunc : Bytes) (before : ApeTransports) : ApeTransports :=
  { jsonp :=
      if evalFunc ≠ [] then
        { left := some (evalFunc ++ bytes "('"), right := some (bytes "')") }
      else { left := none, right := before.jsonp.right }
    xhrstreaming := { left := none, right := some (bytes "\n\n") }
    sse := { left := some (bytes "Event: ape-event\nData: " ++ [0]), right := some (bytes "\n\n") }
    websocket := { left := some [0], right := some [0xFF] }
    websocketIetf := { left := none, right := none } }

/-- `transport_get_properties`; NULL for the transports without a record. -/
def transportGetProperties (t : ApeTransports) : Transport → Option Padding
  | .longpolling | .persistant | .sseJsonp => none
  | .xhrstreaming => some t.xhrstreaming
  | .jsonp => some t.jsonp
  | .sseLongpolling => some t.sse
  | .websocket => some t.websocket
  | .websocketIetf => some t.websocketIetf

def headerDefault : Bytes := bytes <|
  "HTTP/1.1 200 OK\r\nPragma: no-cache\r\nCache-Control: no-cache, must-revalidate\r\n" ++
  "Expires: Thu, 27 Dec 1986 07:30:00 GMT\r\nContent-Type: text/html\r\n\r\n"

def headerSse : Bytes := bytes <|
  "HTTP/1.1 200 OK\r\nPragma: no-cache\r\nCache-Control: no-cache, must-revalidate\r\n" ++
  "Expires: Thu, 27 Dec 1986 07:30:00 GMT\r\n" ++
  "Content-Type: application/x-dom-event-stream\r\n\r\n"

/-- The XHR header block is followed by 256 blanks. -/
def headerXhr : Bytes := bytes
  ("HTTP/1.1 200 OK\r\nPragma: no-cache\r\nCache-Control: no-cache, must-revalidate\r\n" ++
  "Expires: Thu, 27 Dec 1986 07:30:00 GMT\r\n" ++
  "Content-Type: application/x-ape-event-stream\r\n\r\n") ++ List.replicate 256 32

def headerJsonp : Bytes := bytes <|
  "HTTP/1.1 200 OK\r\nPragma: no-cache\r\nCache-Control: no-cache, must-revalidate\r\n" ++
  "Expires: Thu, 27 Dec 1986 07:30:00 GMT\r\nContent-Type: application/javascript\r\n\r\n"

end ApeServer
