import ApeServer.Http.ProcessHttp

/-!
# The request parser without the buffer

A `View` is what `process_http` knows between two bytes. It keeps the text it has parsed
in place of positions and addresses, and takes one byte at a time.
-/
namespace ApeServer.Http

open Sock (Bytes)

/-- Behind the request line: `before ++ target`, the NUL behind the target, and `after` up to
the line that comes next. `query` is an index of `target`. -/
structure Head where
  type : Method
  before : Bytes
  target : Bytes
  query : Option ℕ
  after : Bytes
  hlines : List HeaderLine
  host : Option Bytes
  contentlength : ℤ

/-- The parsed part of the buffer. -/
def Head.done (h : Head) : Bytes := h.before ++ h.target ++ 0 :: h.after

/-- What a valid head keeps. -/
structure Head.Ok (h : Head) : Prop where
  target_ne : 0 ∉ h.target
  query_le : ∀ k, h.query = some k → k ≤ h.target.length
  after_ne : h.after ≠ []
  length_ok : h.contentlength = -1 ∨ 1 ≤ h.contentlength

inductive View where
  | line (text : Bytes)
  | head (h : Head) (text : Bytes)
  | body (h : Head) (text : Bytes)
  | rejected
  | called (call : Call)

/-- The target and the NUL behind it once `urldecode` has run over them. -/
def decoded (target : Bytes) : Bytes :=
  urldecode target ++ 0 :: (target ++ [0]).drop ((urldecode target).length + 1)

def Head.call (h : Head) (data : Option Bytes) : Call :=
  { type := h.type, uri := some (cstr (decoded h.target) 0), hlines := h.hlines, host := h.host, data }

/-- The `Content-Length` lines that `process_http` recognises. -/
def isLength (l : Bytes) : Bool := l.length + 1 ≤ 25 ∧ startsWith (bytes "content-length: ") l

namespace View

/-- A request line whose target starts at `p`. -/
def targetDone (l : Bytes) (type : Method) (p : ℕ) : View :=
  if l.getD p 0 ≠ slash then rejected
  else
    match scanTarget (p + 1) (l.drop (p + 1)) none with
    | (none, _) => rejected
    | (some e, query) => head
        { type
          before := l.take p
          target := (l.drop p).take (e - p)
          query := query.map (· - p)
          after := l.drop (e + 1) ++ [lf]
          hlines := []
          host := none
          contentlength := -1 } []

def lineDone (l : Bytes) : View :=
  if l.take 4 = bytes "GET " then targetDone l .get 4
  else if l.take 4 = bytes "POST" then targetDone l .post 5
  else rejected

/-- The head with one more line behind it. -/
def addText (h : Head) (l : Bytes) : Head := { h with after := h.after ++ l ++ [lf] }

def blankDone (h : Head) (l : Bytes) : View :=
  match h.type with
  | .get => called (h.call (h.query.map (cstr (decoded h.target))))
  | .getWs => body { addText h l with contentlength := 8 } []
  | _ => body (addText h l) []

def addField (h : Head) : Option HeaderLine → Head
  | none => h
  | some hl => { h with
      hlines := hl :: h.hlines
      host := if hl.key.map tolower = bytes "host" then some hl.value else h.host }

/-- `none` for a `Content-Length` line without a value: `atoi` leaves it. -/
def fieldDone (h : Head) (l : Bytes) : Option View :=
  let h := addField (addText h l) (parseHeaderLine l)
  match h.type with
  | .post =>
    if isLength l then
      let cl := atoi (l.drop 16)
      if (l.drop 16).all isspace then none
      else if cl < 1 ∨ cl > 51200 then some rejected
      else some (head { h with contentlength := cl } [])
    else some (head h [])
  | .get =>
    if startsWith (bytes "Sec-WebSocket-Key1: ") l then some (head { h with type := .getWs } [])
    else some (head h [])
  | _ => some (head h [])

def headDone (h : Head) (l : Bytes) : Option View :=
  if l = [] ∨ l = [cr] then some (blankDone h l) else fieldDone h l

/-- The body is complete with `contentlength` bytes, or with the first one where no length
was recognised. -/
def bodyDone (h : Head) (text : Bytes) : View :=
  if (text.length : ℤ) ≥ h.contentlength then called (h.call (some text)) else body h text

def byte (v : View) (b : UInt8) : Option View :=
  if b = 0 then none
  else
    match v with
    | line text => some (if b = lf then lineDone text else line (text ++ [b]))
    | head h text => if b = lf then headDone h text else some (head h (text ++ [b]))
    | body h text => some (bodyDone h (text ++ [b]))
    | rejected => some rejected
    | called _ => none

def run (v : View) : Bytes → Option View
  | [] => some v
  | b :: bs => (v.byte b).bind fun w => run w bs

theorem run_append (v : View) (x y : Bytes) : run v (x ++ y) = (run v x).bind fun w => run w y := by
  induction x generalizing v with
  | nil => rfl
  | cons b x ih =>
    simp only [List.cons_append, run]
    cases v.byte b with
    | none => rfl
    | some w => exact ih w

theorem run_rejected {x : Bytes} (hx : 0 ∉ x) : run rejected x = some rejected := by
  induction x with
  | nil => rfl
  | cons b x ih =>
    have ⟨hb, hx⟩ : 0 ≠ b ∧ 0 ∉ x := by simpa using hx
    simp [run, byte, hb.symm, ih hx]

theorem run_line {text x : Bytes} (hx : 0 ∉ x) (hlf : lf ∉ x) :
    run (line text) x = some (line (text ++ x)) := by
  induction x generalizing text with
  | nil => simp [run]
  | cons b x ih =>
    have ⟨hb, hx⟩ : 0 ≠ b ∧ 0 ∉ x := by simpa using hx
    have ⟨hbl, hlf⟩ : lf ≠ b ∧ lf ∉ x := by simpa using hlf
    simp [run, byte, hb.symm, hbl.symm, ih hx hlf]

theorem run_head {h : Head} {text x : Bytes} (hx : 0 ∉ x) (hlf : lf ∉ x) :
    run (head h text) x = some (head h (text ++ x)) := by
  induction x generalizing text with
  | nil => simp [run]
  | cons b x ih =>
    have ⟨hb, hx⟩ : 0 ≠ b ∧ 0 ∉ x := by simpa using hx
    have ⟨hbl, hlf⟩ : lf ≠ b ∧ lf ∉ x := by simpa using hlf
    simp [run, byte, hb.symm, hbl.symm, ih hx hlf]

/-- A whole line from its start. -/
theorem run_line_lf {l u : Bytes} (hl : 0 ∉ l) (hlf : lf ∉ l) :
    run (line []) (l ++ lf :: u) = run (lineDone l) u := by
  rw [run_append, run_line hl hlf]
  simp [run, byte, show lf ≠ 0 by decide]

theorem run_head_lf {h : Head} {l u : Bytes} (hl : 0 ∉ l) (hlf : lf ∉ l) :
    run (head h []) (l ++ lf :: u) = (headDone h l).bind fun w => run w u := by
  rw [run_append, run_head hl hlf]
  simp [run, byte, show lf ≠ 0 by decide]

end View

end ApeServer.Http
