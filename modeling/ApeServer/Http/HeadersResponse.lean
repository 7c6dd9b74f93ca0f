import ApeServer.Http.ProcessHttp
import ApeServer.Json.Print
import ApeServer.Lib.LinkedQueue

/-!
# Custom response headers

`http_headers_init`, `http_headers_set_field` and `http_send_headers` of `http.c`. The fields of
a response are linked from `fields` to `last`; the address of a field is the number of fields
allocated before it.
-/
namespace ApeServer.Http

open Sock (Bytes)

/-- `struct _http_headers_fields`: the texts are those of `key.val` and `value.val` up to their
`len`. -/
structure HeadersField where
  key : Bytes
  value : Bytes
  next : Option ℕ

/-- `http_headers_response`, and the fields it has allocated. -/
structure HeadersResponse where
  code : ℤ
  detail : Bytes
  fields : Option ℕ
  last : Option ℕ
  size : ℕ
  field : ℕ → HeadersField

/-- `http_headers_init`. No `code` is below 100 and not below 600 at once. -/
def httpHeadersInit (code : ℤ) (detail : Bytes) : Option HeadersResponse :=
  if detail.length > 63 ∨ (code < 100 ∧ code ≥ 600) then none
  else some
    { code, detail, fields := none, last := none, size := 0
      field := fun _ => ⟨[], [], none⟩ }

def strlen (s : Bytes) : ℕ := (s.takeWhile (· ≠ 0)).length

/-- The arguments of `http_headers_set_field`: what stands behind its pointers, and the lengths. -/
structure FieldCall where
  key : Bytes
  keylen : ℕ
  value : Bytes
  valuelen : ℕ

namespace FieldCall

/-- The `key_l` bytes that are the key. -/
def keyText (c : FieldCall) : Bytes :=
  c.key.take (if c.keylen ≠ 0 then c.keylen else strlen c.key)

/-- The `value_l` bytes that are the value. -/
def valueText (c : FieldCall) : Bytes :=
  c.value.take (if c.valuelen ≠ 0 then c.valuelen else strlen c.value)

end FieldCall

namespace HeadersResponse

def next (r : HeadersResponse) (a : ℕ) : Option ℕ := (r.field a).next

/-- The loop that looks for the field of a key: `strncasecmp` compares as many bytes as the key
has. `none` is a loop that has not ended. -/
def lookField (r : HeadersResponse) (key : Bytes) : ℕ → Option ℕ → Option (Option ℕ)
  | _, none => some none
  | 0, some _ => none
  | fuel + 1, some a =>
    if startsWith key (r.field a).key then some (some a) else lookField r key fuel (r.next a)

def setField (r : HeadersResponse) (a : ℕ) (f : HeadersField) : HeadersResponse :=
  { r with field := Function.update r.field a f }

/-- A new field becomes the last one. `none` is `last` followed while it is NULL. -/
def newField (r : HeadersResponse) (key value : Bytes) : Option HeadersResponse := do
  let a := r.size
  let r := { r.setField a ⟨key, value, none⟩ with size := a + 1 }
  match r.fields with
  | none => return { r with fields := some a, last := some a }
  | some _ =>
    let l ← r.last
    return { r.setField l { r.field l with next := some a } with last := some a }

/-- `http_headers_set_field`. -/
def httpHeadersSetField (r : HeadersResponse) (c : FieldCall) : Option HeadersResponse :=
  if 32 ≤ c.keyText.length then some r
  else do
    let found ← r.lookField c.keyText r.size r.fields
    match found with
    | none => r.newField c.keyText c.valueText
    | some a => return r.setField a { r.field a with key := c.keyText, value := c.valueText }

def setFields (r : HeadersResponse) (calls : List FieldCall) : Option HeadersResponse :=
  calls.foldlM httpHeadersSetField r

/-- How `http_send_headers` ends: it returns, `itos` writes in front of its buffer, the pointer
that is followed is NULL, or the loop goes on. -/
inductive Fate where
  | returned
  | overrun
  | null
  | unended
deriving DecidableEq

/-- What `http_send_headers` gives to `sendbin`, and how it ends. -/
structure Sent where
  writes : List Bytes
  fate : Fate
deriving DecidableEq

def crlf : Bytes := [cr, lf]

/-- What is written for a field. -/
def fieldWrites (f : HeadersField) : List Bytes := [f.key, bytes ": ", f.value, crlf]

/-- The loop over the fields, which goes from a field to the next one twice. -/
def sendFields (r : HeadersResponse) : ℕ → Option ℕ → Sent
  | _, none => ⟨[crlf], .returned⟩
  | 0, some _ => ⟨[], .unended⟩
  | fuel + 1, some a =>
    match r.next a with
    | none => ⟨fieldWrites (r.field a), .null⟩
    | some b =>
      let sent := sendFields r fuel (r.next b)
      ⟨fieldWrites (r.field a) ++ sent.writes, sent.fate⟩

end HeadersResponse

/-- `itos` of `utils.c` in a buffer: where the text begins and the buffer after it, `none` for a
write in front of its first byte. -/
def itos (input : ℤ) (output : Bytes) : Option (ℕ × Bytes) := do
  let (free, output) ← Json.itosDigits (output.length - 1)
    (if input < 0 then Json.negate input else input) (output.set (output.length - 1) 0)
  if input < 0 then
    if free = 0 then none else some (free - 1, output.set (free - 1) (Json.chr '-'))
  else some (free, output)

open HeadersResponse

/-- `http_send_headers`; `code` holds what was on the stack before. -/
def httpSendHeaders (headers : Option HeadersResponse) (default code : Bytes) : Sent :=
  match headers with
  | none => ⟨[default], .returned⟩
  | some r =>
    match itos r.code code with
    | none => ⟨[], .overrun⟩
    | some (_, code) =>
      let sent := r.sendFields r.size r.fields
      ⟨bytes "HTTP/1.1 " :: code.take 3 :: bytes " " :: r.detail :: crlf :: sent.writes,
        sent.fate⟩

end ApeServer.Http
