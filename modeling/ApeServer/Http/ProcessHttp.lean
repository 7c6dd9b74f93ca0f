import ApeServer.Transports

/-!
# HTTP input

`process_http` of `http.c` with `parse_header_line`, and `seof` and `urldecode` of
`utils.c`. Pointers into `buffer_in` are addresses, so that a read may move the buffer. The
`int` counters are unbounded here; it takes a request of 2 GiB to see them wrap.
-/
namespace ApeServer.Http

open Sock (Bytes)

def lf : UInt8 := 10
def cr : UInt8 := 13
def space : UInt8 := 32
def slash : UInt8 := 47
def colon : UInt8 := 58
def question : UInt8 := 63

/-- `http_method`. -/
inductive Method where
  | null
  | get
  | getWs
  | post
deriving DecidableEq, Repr

/-- `struct _http_header_line`. -/
structure HeaderLine where
  key : Bytes
  value : Bytes
deriving DecidableEq, Repr

/-- The values 0, 1 and 2 of `http->step`. -/
inductive Stage where
  | requestLine
  | headers
  | body
deriving DecidableEq, Repr

/-- `struct _http_state`; the newest header line is the first of `hlines`. -/
structure State where
  hlines : List HeaderLine
  uri : Option ℕ
  bufferAddr : Option ℕ
  data : Option ℕ
  host : Option Bytes
  pos : ℕ
  contentlength : ℤ
  read : ℤ
  step : Stage
  type : Method
  error : Bool
deriving DecidableEq, Repr

/-- What `onready` finds in the parser. -/
structure Call where
  type : Method
  uri : Option Bytes
  hlines : List HeaderLine
  host : Option Bytes
  data : Option Bytes
deriving DecidableEq, Repr

/-- One connection: `buffer_in` (its address, what its memory holds and `length`), the
parser and the calls of `onready`. -/
structure Client where
  base : ℕ
  mem : Bytes
  length : ℕ
  ready : ℤ
  http : State
  log : List Call
deriving DecidableEq, Repr

/-- `seof`: the length of the line that `stop` ends. The list ends where memory has the
terminating NUL. -/
def seof (stop : UInt8) : Bytes → Option ℕ
  | [] => none
  | b :: buf => if b = 0 then none else if b = stop then some 1 else (seof stop buf).map (· + 1)

/-- The C string at index `i`. -/
def cstr (mem : Bytes) (i : ℕ) : Bytes := (mem.drop i).takeWhile (· ≠ 0)

/-- `mem[i] = b`. -/
def poke (mem : Bytes) (i : ℕ) (b : UInt8) : Bytes := mem.take i ++ b :: mem.drop (i + 1)

def tolower (b : UInt8) : UInt8 := if 65 ≤ b ∧ b ≤ 90 then b + 32 else b

/-- `strncasecmp(lit, s, strlen(lit)) == 0`. -/
def startsWith (lit s : Bytes) : Bool := (s.take lit.length).map tolower = lit.map tolower

def isspace (b : UInt8) : Bool := b = 32 ∨ 9 ≤ b ∧ b ≤ 13

def isdigit (b : UInt8) : Bool := 48 ≤ b ∧ b ≤ 57

def digits (s : Bytes) : ℕ := s.foldl (fun n b => 10 * n + (b.toNat - 48)) 0

/-- `atoi`; `process_http` only asks for numbers of at most nine characters. -/
def atoi (s : Bytes) : ℤ :=
  match s.dropWhile isspace with
  | [] => 0
  | b :: s =>
    if b = 45 then -(digits (s.takeWhile isdigit) : ℤ)
    else if b = 43 then digits (s.takeWhile isdigit)
    else digits ((b :: s).takeWhile isdigit)

def hex2int (hex : UInt8) : UInt8 :=
  let hex := hex - 48
  let hex := if hex > 9 then ((hex + 48 - 1) ||| 0x20) - 97 + 11 else hex
  if hex > 15 then 0xFF else hex

/-- The text that `urldecode` leaves in place of its argument. -/
def urldecode : Bytes → Bytes
  | 37 :: h :: l :: rest =>
    if hex2int h ≠ 0xFF ∧ hex2int l ≠ 0xFF then
      let c := hex2int h <<< 4 ||| hex2int l
      (if c < 32 ∨ c = 127 then 95 else c) :: urldecode rest
    else 37 :: urldecode (h :: l :: rest)
  | b :: rest => b :: urldecode rest
  | [] => []

/-- The bytes at which `parse_header_line` stops. -/
def isEnd (b : UInt8) : Bool := b = 0 ∨ b = cr ∨ b = lf

/-- The loop of `parse_header_line` in state 0 at index `i`; the value of state 1 ends with
the line or before index 1024. -/
def parseKey : ℕ → Bytes → Bytes → Option HeaderLine
  | _, _, [] => none
  | i, key, b :: rest =>
    if 1024 ≤ i ∨ isEnd b then none
    else if (i = 0 ∧ (b = colon ∨ b = space)) ∨ (b = colon ∧ rest.headD 0 ≠ space) ∨ 63 < i then
      none
    else if b = colon then
      some ⟨key, (rest.tail.take (1024 - (i + 2))).takeWhile (! isEnd ·)⟩
    else parseKey (i + 1) (key ++ [b]) rest

def parseHeaderLine (line : Bytes) : Option HeaderLine := parseKey 0 [] line

/-- The loop over the request target: the index of the space behind it, and of the text
behind the last question mark. -/
def scanTarget : ℕ → Bytes → Option ℕ → Option ℕ × Option ℕ
  | _, [], query => (none, query)
  | p, b :: rest, query =>
    if b = space then (some p, query)
    else if b = question then
      scanTarget (p + 1) rest
        (if rest.headD 0 ∉ [space, cr, lf] then some (p + 1) else query)
    else if isEnd b then (none, query)
    else scanTarget (p + 1) rest query

/-- How one call of `process_http` ends: with the recursive call or with `return`. -/
inductive Turn where
  | go (c : Client)
  | stop (c : Client)

namespace Client

/-- `&buffer->data[http->pos]`. -/
def rest (c : Client) : Bytes := c.mem.drop c.http.pos

def reject (c : Client) : Client := { c with http := { c.http with error := true } }

/-- `http->data` and `http->uri` follow a buffer that has moved. -/
def rebase (c : Client) : Client :=
  match c.http.bufferAddr with
  | none => c
  | some old =>
    if c.base = old then c
    else { c with http := { c.http with
      data := c.http.data.map fun p => c.base + (p - old)
      uri := c.http.uri.map fun p => c.base + (p - old)
      bufferAddr := some c.base } }

/-- `urldecode(http->uri)`. -/
def decodeUri (c : Client) : Client :=
  match c.http.uri with
  | none => c
  | some p =>
    let i := p - c.base
    let text := urldecode (cstr c.mem i)
    { c with mem := c.mem.take i ++ text ++ 0 :: c.mem.drop (i + text.length + 1) }

def onready (c : Client) : Client :=
  { c with log := c.log ++ [{
      type := c.http.type
      uri := c.http.uri.map fun p => cstr c.mem (p - c.base)
      hlines := c.http.hlines
      host := c.http.host
      data := c.http.data.map fun p => cstr c.mem (p - c.base) }] }

end Client

open Client

/-- Step 0 behind the method: `p` is where the target starts. -/
def target (c : Client) (pos : ℕ) (type : Method) (p : ℕ) : Turn :=
  let c := { c with http := { c.http with type } }
  if c.rest.getD p 0 ≠ slash then .stop c.reject
  else
    let found := scanTarget (p + 1) (c.rest.drop (p + 1)) none
    let http := match found.2 with
      | none => c.http
      | some q => { c.http with bufferAddr := some c.base, data := some (c.base + c.http.pos + q) }
    match found.1 with
    | none => .stop { c with http }.reject
    | some e => .go { c with
        mem := poke c.mem (c.http.pos + e) 0
        http := { http with
          pos, step := .headers, uri := some (c.base + c.http.pos + p), bufferAddr := some c.base } }

/-- Step 0. -/
def requestLine (c : Client) : Turn :=
  match seof lf c.rest with
  | none => .stop c
  | some pos =>
    if c.rest.take 4 = bytes "GET " then target c pos .get 4
    else if c.rest.take 4 = bytes "POST" then target c pos .post 5
    else .stop c.reject

/-- The body starts `pos` bytes further. -/
def startBody (c : Client) (pos : ℕ) : Turn :=
  .go { c with http := { c.http with
    bufferAddr := some c.base, data := some (c.base + c.http.pos + pos), step := .body
    pos := c.http.pos + pos } }

/-- A blank line in step 1. -/
def blankLine (c : Client) (pos : ℕ) : Turn :=
  match c.http.type with
  | .get =>
    let c := ({ c with mem := poke c.mem c.http.pos 0 }).decodeUri.onready
    .stop { c with ready := -1, length := 0, http := { c.http with pos := 0 } }
  | .getWs => startBody { c with http := { c.http with contentlength := 8 } } pos
  | _ => if c.http.contentlength = 0 then .stop c.reject else startBody c pos

/-- The list of header lines with one more, if it is one. -/
def addLine (http : State) : Option HeaderLine → State
  | none => http
  | some hl => { http with
      hlines := hl :: http.hlines
      host := if hl.key.map tolower = bytes "host" then some hl.value else http.host }

/-- Any other line in step 1. -/
def headerLine (c : Client) (pos : ℕ) : Turn :=
  let data := c.rest
  let http := addLine c.http (parseHeaderLine data)
  let next := fun (http : State) => Turn.go { c with http := { http with pos := http.pos + pos } }
  match http.type with
  | .post =>
    if pos ≤ 25 ∧ startsWith (bytes "content-length: ") data then
      let cl := atoi (data.drop 16)
      if cl < 1 ∨ cl > 51200 then .stop { c with http }.reject
      else next { http with contentlength := cl }
    else next http
  | .get =>
    if startsWith (bytes "Sec-WebSocket-Key1: ") data then next { http with type := .getWs }
    else next http
  | _ => next http

/-- Step 1. -/
def headers (c : Client) : Turn :=
  match seof lf c.rest with
  | none => .stop c
  | some pos =>
    if pos = 1 ∨ (pos = 2 ∧ c.rest.headD 0 = cr) then blankLine c pos else headerLine c pos

/-- Step 2. -/
def body (c : Client) : Client :=
  let read := c.http.read + ((c.length : ℤ) - c.http.pos)
  let c := { c with http := { c.http with pos := c.length, read } }
  if read ≥ c.http.contentlength then
    let c := c.decodeUri
    let c := { c with mem := poke c.mem (c.http.pos - (read - c.http.contentlength)).toNat 0 }
    { c.onready with ready := -1, length := 0 }
  else c

/-- One call of `process_http` up to its recursive call. -/
def turn (c : Client) : Turn :=
  if c.length = 0 ∨ c.ready = 1 ∨ c.http.error = true then .stop c
  else
    let c := { c with mem := poke c.mem c.length 0 }
    if c.rest.headD 0 = 0 then .stop c
    else
      let c := c.rebase
      match c.http.step with
      | .requestLine => requestLine c
      | .headers => headers c
      | .body => .stop (body c)

/-- How far `step` is from its last value. -/
def Stage.rank : Stage → ℕ
  | .requestLine => 2
  | .headers => 1
  | .body => 0

/-- The memory that a call can look at. -/
def Client.reach (c : Client) : ℕ := max c.mem.length (c.length + 1)

theorem seof_bounds {stop : UInt8} {buf : Bytes} {n : ℕ} (h : seof stop buf = some n) :
    0 < n ∧ n ≤ buf.length := by
  induction buf generalizing n with
  | nil => cases h
  | cons b buf ih =>
    simp only [seof] at h
    split at h
    · cases h
    · split at h
      · cases h
        simp
      · obtain ⟨m, hm, rfl⟩ := Option.map_eq_some_iff.mp h
        have := ih hm
        simp only [List.length_cons]
        omega

theorem rebase_same (c : Client) :
    c.rebase.mem = c.mem ∧ c.rebase.length = c.length ∧ c.rebase.http.pos = c.http.pos ∧
      c.rebase.http.step = c.http.step := by
  unfold Client.rebase
  split
  · exact ⟨rfl, rfl, rfl, rfl⟩
  · split <;> exact ⟨rfl, rfl, rfl, rfl⟩

theorem requestLine_go {c t : Client} (h : requestLine c = .go t) : t.http.step = .headers := by
  have htarget : ∀ pos type p, target c pos type p = .go t → t.http.step = .headers := by
    intro pos type p ht
    simp only [target] at ht
    split at ht
    · cases ht
    · split at ht
      · cases ht
      · cases ht
        rfl
  unfold requestLine at h
  split at h
  · cases h
  · split at h
    · exact htarget _ _ _ h
    · split at h
      · exact htarget _ _ _ h
      · cases h

theorem addLine_same (http : State) (hl : Option HeaderLine) :
    (addLine http hl).pos = http.pos ∧ (addLine http hl).step = http.step := by
  cases hl <;> exact ⟨rfl, rfl⟩

theorem headerLine_go {c t : Client} {pos : ℕ} (h : headerLine c pos = .go t) :
    t.http.step = c.http.step ∧ t.http.pos = c.http.pos + pos ∧ t.mem = c.mem ∧
      t.length = c.length := by
  have ⟨hpos, hstep⟩ := addLine_same c.http (parseHeaderLine c.rest)
  unfold headerLine at h
  simp only at h
  split at h
  · split at h
    · split at h
      · cases h
      · cases h
        exact ⟨hstep, congrArg (· + pos) hpos, rfl, rfl⟩
    · cases h
      exact ⟨hstep, congrArg (· + pos) hpos, rfl, rfl⟩
  · split at h <;> cases h <;> exact ⟨hstep, congrArg (· + pos) hpos, rfl, rfl⟩
  · cases h
    exact ⟨hstep, congrArg (· + pos) hpos, rfl, rfl⟩

theorem headers_go {c t : Client} (h : headers c = .go t) :
    t.http.step = .body ∨ (t.http.step = c.http.step ∧ c.http.pos < t.http.pos ∧
      t.http.pos ≤ c.mem.length ∧ t.mem = c.mem ∧ t.length = c.length) := by
  unfold headers at h
  split at h
  · cases h
  · next pos hpos =>
    have hb := seof_bounds hpos
    simp only [Client.rest, List.length_drop] at hb
    split at h
    · left
      unfold blankLine startBody at h
      split at h
      · cases h
      · cases h
        rfl
      · split at h <;> cases h
        rfl
    · obtain ⟨hs, hp, hm, hl⟩ := headerLine_go h
      refine .inr ⟨hs, ?_, ?_, hm, hl⟩ <;> omega

theorem poke_length (mem : Bytes) (i : ℕ) (b : UInt8) :
    (poke mem i b).length = max mem.length (min i mem.length + 1) := by
  simp only [poke, List.length_append, List.length_take, List.length_cons, List.length_drop]
  omega

/-- A recursive call is made in a later step, or further on in the buffer. -/
theorem turn_go {c t : Client} (h : turn c = .go t) :
    t.http.step.rank < c.http.step.rank ∨ (t.http.step = c.http.step ∧
      t.reach - t.http.pos < c.reach - c.http.pos) := by
  unfold turn at h
  split at h
  · cases h
  · simp only at h
    split at h
    · cases h
    · have ⟨hm, hl, hp, hs⟩ := rebase_same { c with mem := poke c.mem c.length 0 }
      have hlen := poke_length c.mem c.length 0
      simp only at hs hm hl hp
      split at h
      · next hstep =>
        left
        rw [requestLine_go h, ← hs, hstep]
        decide
      · next hstep =>
        rcases headers_go h with hbody | ⟨h1, h2, h3, h4, h5⟩
        · left
          rw [hbody, ← hs, hstep]
          decide
        · right
          refine ⟨h1.trans hs, ?_⟩
          rw [hp] at h2
          simp only [Client.reach, h4, h5, hm, hl, hlen] at h3 ⊢
          omega
      · cases h

/-- `process_http`. -/
def processHttp (c : Client) : Client :=
  match _h : turn c with
  | .stop t => t
  | .go t => processHttp t
termination_by (c.http.step.rank, c.reach - c.http.pos)
decreasing_by
  rcases turn_go _h with hrank | ⟨hstep, hlt⟩
  · exact Prod.Lex.left _ _ hrank
  · rw [hstep]
    exact Prod.Lex.right _ hlt

/-- A read: its bytes, and where the buffer stands when it has been stored. -/
structure Read where
  bytes : Bytes
  base : ℕ

/-- `read` behind `length`, then `process_http`. -/
def receive (c : Client) (r : Read) : Client :=
  processHttp { c with
    base := r.base
    mem := c.mem.take c.length ++ r.bytes ++ c.mem.drop (c.length + r.bytes.length)
    length := c.length + r.bytes.length }

/-- A connection as `parser_init_http` leaves it. -/
def newClient : Client :=
  { base := 0
    mem := []
    length := 0
    ready := 0
    http :=
      { hlines := [], uri := none, bufferAddr := none, data := none, host := none, pos := 0
        contentlength := -1, read := 0, step := .requestLine, type := .null, error := false }
    log := [] }

end ApeServer.Http
