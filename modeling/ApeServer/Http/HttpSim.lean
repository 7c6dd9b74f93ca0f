import ApeServer.Http.HttpLocal

/-!
# The parser follows its view

Between two reads the parser knows what its view knows, so what it does depends on the
bytes received and not on the reads they came in, nor on where the buffer stands.
-/
namespace ApeServer.Http

open Sock (Bytes)

/-- The buffer holds the parsed text `d` and then `u`, and no call has been made. -/
structure Live (d u : Bytes) (c : Client) : Prop where
  mem : c.mem.take c.length = d ++ u
  length : c.length = (d ++ u).length
  pos : c.http.pos = d.length
  ready : c.ready ≠ 1
  error : c.http.error = false
  log : c.log = []

/-- The fields of the parser behind the request line, for a buffer at `a` in which
`http->data` is at index `d`. -/
structure Knows (h : Head) (d : Option ℕ) (a : ℕ) (http : State) : Prop where
  type : http.type = h.type
  hlines : http.hlines = h.hlines
  host : http.host = h.host
  contentlength : http.contentlength = h.contentlength
  addr : http.bufferAddr = some a
  uri : http.uri = some (a + h.before.length)
  data : http.data = d.map (a + ·)

/-- In front of the request line. -/
structure AtLine (u : Bytes) (c : Client) : Prop where
  live : Live [] u c
  http : c.http = newClient.http

/-- Behind the lines of `h`. -/
structure AtHead (h : Head) (u : Bytes) (c : Client) : Prop where
  live : Live h.done u c
  ok : h.Ok
  step : c.http.step = .headers
  read : c.http.read = 0
  knows : ∃ a, Knows h (h.query.map (h.before.length + ·)) a c.http

/-- In the body, of which `t` has been counted. -/
structure AtBody (h : Head) (t u : Bytes) (c : Client) : Prop where
  live : Live (h.done ++ t) u c
  ok : h.Ok
  step : c.http.step = .body
  read : c.http.read = t.length
  knows : ∃ a, Knows h (some h.done.length) a c.http

/-- The parser of a client knows what the view knows. -/
inductive Sim : View → Client → Prop where
  | line {t : Bytes} {c : Client} (at_line : AtLine t c) (nul : 0 ∉ t) (noLf : lf ∉ t) :
    Sim (.line t) c
  | head {h : Head} {t : Bytes} {c : Client} (at_head : AtHead h t c) (nul : 0 ∉ t)
      (noLf : lf ∉ t) : Sim (.head h t) c
  | body {h : Head} {t : Bytes} {c : Client} (at_body : AtBody h t [] c) (nul : 0 ∉ t)
      (short : t = [] ∨ (t.length : ℤ) < h.contentlength) : Sim (.body h t) c
  | rejected {c : Client} (error : c.http.error = true) (log : c.log = []) : Sim .rejected c
  | called {c : Client} {call : Call} (error : c.http.error = false) (log : c.log = [call]) :
    Sim (.called call) c

theorem rebase_knows {h : Head} {d : Option ℕ} {a : ℕ} {c : Client} (k : Knows h d a c.http) :
    Knows h d c.base c.rebase.http := by
  unfold Client.rebase
  rw [k.addr]
  simp only
  split
  · next hbase =>
    rw [hbase]
    exact k
  · refine ⟨k.type, k.hlines, k.host, k.contentlength, rfl, ?_, ?_⟩
    · simp [k.uri]
    · cases d <;> simp [k.data]

/-- The client behind the guards of `process_http`. -/
def entered (c : Client) : Client := ({ c with mem := poke c.mem c.length 0 }).rebase

/-- The part of the state that `rebase` leaves alone. -/
theorem rebase_rest (c : Client) :
    c.rebase.base = c.base ∧ c.rebase.ready = c.ready ∧ c.rebase.log = c.log ∧
      c.rebase.http.error = c.http.error ∧ c.rebase.http.read = c.http.read := by
  unfold Client.rebase
  split
  · exact ⟨rfl, rfl, rfl, rfl, rfl⟩
  · split <;> exact ⟨rfl, rfl, rfl, rfl, rfl⟩

namespace Live

variable {d u : Bytes} {c : Client}

/-- Memory with the terminator in place. -/
theorem poked (h : Live d u c) :
    poke c.mem c.length 0 = d ++ u ++ 0 :: c.mem.drop (c.length + 1) := by
  rw [poke, h.mem]

theorem entered_mem (h : Live d u c) :
    ∃ junk, (entered c).mem = d ++ u ++ 0 :: junk := by
  refine ⟨c.mem.drop (c.length + 1), ?_⟩
  rw [entered, (rebase_same _).1]
  exact h.poked

theorem entered_rest (h : Live d u c) : ∃ junk, (entered c).rest = u ++ 0 :: junk := by
  obtain ⟨junk, hj⟩ := h.entered_mem
  refine ⟨junk, ?_⟩
  have hp : (entered c).http.pos = d.length := (rebase_same _).2.2.1.trans h.pos
  rw [Client.rest, hj, hp, List.append_assoc, List.drop_left]

/-- Nothing of a live client is lost on entry. -/
theorem of_entered (h : Live d u c) : Live d u (entered c) := by
  have ⟨hm, hl, hp, _⟩ := rebase_same { c with mem := poke c.mem c.length 0 }
  have ⟨_, hr, hg, he, _⟩ := rebase_rest { c with mem := poke c.mem c.length 0 }
  refine ⟨?_, hl.trans h.length, hp.trans h.pos, hr ▸ h.ready, he.trans h.error, hg.trans h.log⟩
  rw [entered, hm, hl]
  show (poke c.mem c.length 0).take c.length = d ++ u
  rw [h.poked, h.length, List.take_left]

/-- Without bytes to parse, or with a NUL as the first of them, a call returns. -/
theorem process_nul (h : Live d u c) (hu : u.headD 0 = 0) :
    ∃ mem, processHttp c = { c with mem } ∧ Live d u { c with mem } := by
  have hturn : ∃ mem, turn c = .stop { c with mem } ∧ mem.take c.length = d ++ u := by
    unfold turn
    split
    · exact ⟨c.mem, rfl, h.mem⟩
    · have hrest : (Client.rest { c with mem := poke c.mem c.length 0 }).headD 0 = 0 := by
        rw [Client.rest, h.poked, h.pos, List.append_assoc, List.drop_left]
        cases u with
        | nil => rfl
        | cons b u => exact hu
      simp only [hrest, ↓reduceIte]
      refine ⟨_, rfl, ?_⟩
      rw [h.poked, h.length, List.take_left]
  obtain ⟨mem, ht, hm⟩ := hturn
  refine ⟨mem, ?_, hm, h.length, h.pos, h.ready, h.error, h.log⟩
  rw [processHttp]
  split
  · next t hstop => exact (Turn.stop.inj (hstop.symm.trans ht))
  · next t hgo => exact absurd (hgo.symm.trans ht) (by simp)

theorem process_nil (h : Live d [] c) :
    ∃ mem, processHttp c = { c with mem } ∧ Live d [] { c with mem } :=
  h.process_nul rfl

/-- With a byte to parse a call gets to its `switch`. -/
theorem turn_cons {b : UInt8} (h : Live d (b :: u) c) (hb : b ≠ 0) :
    turn c = match c.http.step with
      | .requestLine => requestLine (entered c)
      | .headers => headers (entered c)
      | .body => .stop (body (entered c)) := by
  have hlen : c.length ≠ 0 := by
    rw [h.length, List.length_append, List.length_cons]
    omega
  have hrest : (Client.rest { c with mem := poke c.mem c.length 0 }).headD 0 ≠ 0 := by
    rw [Client.rest, h.poked, h.pos, List.append_assoc, List.drop_left]
    exact hb
  unfold turn
  rw [if_neg (by simp [hlen, h.ready, h.error])]
  simp only [if_neg hrest, (rebase_same _).2.2.2]
  rfl

theorem turn_eq (h : Live d u c) (hne : u ≠ []) (hnul : 0 ∉ u) :
    turn c = match c.http.step with
      | .requestLine => requestLine (entered c)
      | .headers => headers (entered c)
      | .body => .stop (body (entered c)) := by
  cases u with
  | nil => exact absurd rfl hne
  | cons b u =>
    refine h.turn_cons ?_
    rintro rfl
    exact hnul List.mem_cons_self

/-- A whole line has a byte to parse, whatever comes behind it. -/
theorem turn_lf {l : Bytes} (h : Live d (l ++ lf :: u) c) (hl : 0 ∉ l) :
    turn c = match c.http.step with
      | .requestLine => requestLine (entered c)
      | .headers => headers (entered c)
      | .body => .stop (body (entered c)) := by
  cases l with
  | nil => exact h.turn_cons (by decide)
  | cons b l =>
    refine h.turn_cons ?_
    rintro rfl
    exact hl List.mem_cons_self

end Live

theorem process_of_stop {c t : Client} (h : turn c = .stop t) : processHttp c = t := by
  rw [processHttp]
  split
  · next u hu => exact Turn.stop.inj (hu.symm.trans h)
  · next u hu => exact absurd (hu.symm.trans h) (by simp)

theorem process_of_go {c t : Client} (h : turn c = .go t) : processHttp c = processHttp t := by
  rw [processHttp]
  split
  · next u hu => exact absurd (hu.symm.trans h) (by simp)
  · next u hu => rw [Turn.go.inj (hu.symm.trans h)]

/-- A call at `c` gets to the view `w` with `u` left to parse. -/
inductive Reaches (w : View) (u : Bytes) (c : Client) : Prop where
  | head (h : Head) (hw : w = .head h []) (t : Client) (same : processHttp c = processHttp t)
      (at_head : AtHead h u t)
  | body (h : Head) (hw : w = .body h []) (t : Client) (same : processHttp c = processHttp t)
      (at_body : AtBody h [] u t)
  | rejected (hw : w = .rejected) (sim : Sim .rejected (processHttp c))
  | called (call : Call) (hw : w = .called call) (sim : Sim (.called call) (processHttp c))

theorem urldecode_length (t : Bytes) : (urldecode t).length ≤ t.length := by
  fun_induction urldecode t with
  | case1 h l rest _ c ih =>
    simp only [List.length_cons] at ih ⊢
    omega
  | case2 h l rest _ ih =>
    simp only [List.length_cons] at ih ⊢
    omega
  | case3 b rest _ ih =>
    simp only [List.length_cons] at ih ⊢
    omega
  | case4 => exact le_rfl

theorem takeWhile_nul_append {r y : Bytes} (h : 0 ∈ r) :
    (r ++ y).takeWhile (· ≠ 0) = r.takeWhile (· ≠ 0) := by
  induction r with
  | nil => cases h
  | cons b r ih =>
    by_cases hb : b = 0
    · simp [hb]
    · have hr : 0 ∈ r := by
        rcases List.mem_cons.mp h with h0 | h0
        · exact absurd h0.symm hb
        · exact h0
      simp only [List.cons_append, List.takeWhile_cons, ih hr]

theorem takeWhile_nul {t y : Bytes} (h : 0 ∉ t) : (t ++ 0 :: y).takeWhile (· ≠ 0) = t := by
  induction t with
  | nil => rfl
  | cons b t ih =>
    have ⟨hb, ht⟩ : 0 ≠ b ∧ 0 ∉ t := by simpa using h
    rw [List.cons_append, List.takeWhile_cons, if_pos (by simpa using hb.symm), ih ht]

theorem decoded_length (t : Bytes) : (decoded t).length = t.length + 1 := by
  have := urldecode_length t
  simp only [decoded, List.length_append, List.length_cons, List.length_drop, List.length_nil]
  omega

/-- A C string that starts in the decoded target ends in it. -/
theorem nul_mem_decoded (t : Bytes) {k : ℕ} (hk : k ≤ t.length) : 0 ∈ (decoded t).drop k := by
  have hlen := urldecode_length t
  rcases Nat.lt_or_ge (urldecode t).length t.length with hlt | hge
  · -- the target's own NUL is still there
    have hlast : decoded t = (urldecode t ++ 0 :: t.drop ((urldecode t).length + 1)) ++ [0] := by
      rw [decoded, List.drop_append_of_le_length hlt]
      simp
    rw [hlast, List.drop_append_of_le_length]
    · simp
    · simp only [List.length_append, List.length_cons, List.length_drop]
      omega
  · have hlast : decoded t = urldecode t ++ [0] := by
      rw [decoded, List.drop_eq_nil_of_le (by simp; omega)]
    rw [hlast, List.drop_append_of_le_length (by omega)]
    simp

theorem decoded_mem {pre t y : Bytes} (ht : 0 ∉ t) :
    (pre ++ t ++ 0 :: y).take pre.length ++ urldecode (cstr (pre ++ t ++ 0 :: y) pre.length) ++
      0 :: (pre ++ t ++ 0 :: y).drop
        (pre.length + (urldecode (cstr (pre ++ t ++ 0 :: y) pre.length)).length + 1) =
      pre ++ decoded t ++ y := by
  have hc : cstr (pre ++ t ++ 0 :: y) pre.length = t := by
    rw [cstr, List.append_assoc, List.drop_left]
    exact takeWhile_nul ht
  have hlen := urldecode_length t
  rw [hc, List.append_assoc pre t, List.take_left, Nat.add_assoc, List.drop_length_add_append,
    decoded, show t ++ 0 :: y = (t ++ [0]) ++ y by simp,
    List.drop_append_of_le_length (by simp; omega)]
  simp

theorem cstr_decoded {pre t y : Bytes} {k : ℕ} (hk : k ≤ t.length) :
    cstr (pre ++ decoded t ++ y) (pre.length + k) = cstr (decoded t) k := by
  have hlen := decoded_length t
  rw [cstr, List.append_assoc, List.drop_length_add_append,
    List.drop_append_of_le_length (by omega), takeWhile_nul_append (nul_mem_decoded t hk), cstr]

/-- `urldecode` changes the target and the NUL behind it. -/
theorem decodeUri_mem {h : Head} {d : Option ℕ} {y : Bytes} {c : Client} (hok : h.Ok)
    (k : Knows h d c.base c.http) (hm : c.mem = h.before ++ h.target ++ 0 :: y) :
    c.decodeUri = { c with mem := h.before ++ decoded h.target ++ y } := by
  have hidx : c.base + h.before.length - c.base = h.before.length := by omega
  simp only [Client.decodeUri, k.uri, hidx, hm]
  rw [decoded_mem hok.target_ne]

/-- The call that `onready` gets with the decoded target in place. -/
theorem onready_log {h : Head} {d : Option ℕ} {y : Bytes} {c : Client}
    (k : Knows h d c.base c.http) (hm : c.mem = h.before ++ decoded h.target ++ y)
    (hlog : c.log = []) :
    c.onready.log = [h.call (d.map fun i => cstr c.mem i)] := by
  have huri : cstr c.mem (c.base + h.before.length - c.base) = cstr (decoded h.target) 0 := by
    rw [hm, show c.base + h.before.length - c.base = h.before.length + 0 by omega,
      cstr_decoded (Nat.zero_le _)]
  simp only [Client.onready, hlog, List.nil_append, Head.call, k.type, k.hlines, k.host, k.uri,
    k.data, Option.map_some, huri, Option.map_map]
  cases d with
  | none => rfl
  | some i => simp

theorem addText_done (h : Head) (l : Bytes) :
    (View.addText h l).done = h.done ++ l ++ [lf] := by
  simp [Head.done, View.addText]

theorem addText_ok {h : Head} (hok : h.Ok) (l : Bytes) : (View.addText h l).Ok :=
  ⟨hok.target_ne, hok.query_le, by simp [View.addText], hok.length_ok⟩

section Head

variable {h : Head} {l u : Bytes} {c : Client}

theorem AtHead.entered_knows (hc : AtHead h u c) :
    Knows h (h.query.map (h.before.length + ·)) (entered c).base (entered c).http := by
  obtain ⟨a, ha⟩ := hc.knows
  have hk := rebase_knows (c := { c with mem := poke c.mem c.length 0 }) ha
  have hbase : (entered c).base = c.base := (rebase_rest _).1
  rw [hbase]
  exact hk

theorem AtHead.entered_step (hc : AtHead h u c) : (entered c).http.step = .headers :=
  (rebase_same _).2.2.2.trans hc.step

theorem AtHead.entered_read (hc : AtHead h u c) : (entered c).http.read = 0 :=
  (rebase_rest _).2.2.2.2.trans hc.read

/-- A call at a whole line gets to that line. -/
theorem AtHead.turn_line (hc : AtHead h (l ++ lf :: u) c) (hl : 0 ∉ l) (hlf : lf ∉ l) :
    turn c = if l = [] ∨ l = [cr] then blankLine (entered c) (l.length + 1)
      else headerLine (entered c) (l.length + 1) := by
  obtain ⟨junk, hrest⟩ := hc.live.entered_rest
  rw [hc.live.turn_lf hl, hc.step]
  rw [List.append_assoc, List.cons_append] at hrest
  simp only [headers, hrest, seof_lf hl hlf]
  have hblank : (l.length + 1 = 1 ∨ l.length + 1 = 2 ∧
      (l ++ lf :: (u ++ 0 :: junk)).headD 0 = cr) ↔ (l = [] ∨ l = [cr]) := by
    cases l with
    | nil => simp
    | cons b l =>
      cases l with
      | nil => simp
      | cons b' l => simp
  simp only [hblank]

theorem startBody_at (hc : AtHead h (l ++ lf :: u) c) (cl : ℤ) (hcl : cl = -1 ∨ 1 ≤ cl) :
    ∃ t, startBody { entered c with http := { (entered c).http with contentlength := cl } }
        (l.length + 1) = .go t ∧
      AtBody { View.addText h l with contentlength := cl } [] u t := by
  have hlive := hc.live.of_entered
  have hk := hc.entered_knows
  have hlen : (h.done ++ l ++ [lf]).length = h.done.length + (l.length + 1) := by
    simp
  have hdone : Head.done { View.addText h l with contentlength := cl } = h.done ++ l ++ [lf] :=
    addText_done h l
  refine ⟨_, rfl, ⟨?_, ?_, ?_, hlive.ready, hlive.error, hlive.log⟩, ?_, rfl, hc.entered_read,
    (entered c).base, hk.type, hk.hlines, hk.host, rfl, rfl, hk.uri, ?_⟩
  · rw [hdone]
    simpa using hlive.mem
  · rw [hdone]
    simpa using hlive.length
  · rw [hdone, List.append_nil, hlen]
    exact congrArg (· + (l.length + 1)) hlive.pos
  · exact ⟨hc.ok.target_ne, hc.ok.query_le, by simp [View.addText], hcl⟩
  · rw [hdone, hlen]
    simp only [Option.map_some, hlive.pos, Nat.add_assoc]

theorem blankLine_getWs {pos : ℕ} (ht : c.http.type = .getWs) :
    blankLine c pos = startBody { c with http := { c.http with contentlength := 8 } } pos := by
  unfold blankLine
  split
  · next hget => exact absurd (ht.symm.trans hget) (by decide)
  · rfl
  · next hws => exact absurd ht hws

theorem blank_reaches (hc : AtHead h (l ++ lf :: u) c) (hl : 0 ∉ l) (hlf : lf ∉ l)
    (hb : l = [] ∨ l = [cr]) : Reaches (View.blankDone h l) u c := by
  have hk := hc.entered_knows
  have hlive := hc.live.of_entered
  have hturn := hc.turn_line hl hlf
  rw [if_pos hb] at hturn
  have hbody : ∀ cl : ℤ, cl = -1 ∨ 1 ≤ cl →
      turn c = startBody { entered c with http := { (entered c).http with contentlength := cl } }
        (l.length + 1) →
      Reaches (.body { View.addText h l with contentlength := cl } []) u c := by
    intro cl hcl ht
    obtain ⟨t, hgo, hat⟩ := startBody_at hc cl hcl
    exact .body _ rfl t (process_of_go (ht.trans hgo)) hat
  unfold View.blankDone
  cases htype : h.type with
  | get =>
    simp only [blankLine, hk.type, htype] at hturn
    refine .called _ rfl ?_
    rw [process_of_stop hturn]
    obtain ⟨junk, hmem⟩ := hc.live.entered_mem
    -- the NUL at the blank line ends the last header line, behind the target
    have hm : poke (entered c).mem (entered c).http.pos 0 = h.before ++ h.target ++ 0 ::
        (h.after ++ 0 :: ((l ++ lf :: u) ++ 0 :: junk).drop 1) := by
      rw [poke, hlive.pos, hmem, List.append_assoc, List.take_left, List.drop_length_add_append]
      simp [Head.done]
    have hdec := decodeUri_mem (c := { entered c with
      mem := poke (entered c).mem (entered c).http.pos 0 }) hc.ok hk hm
    have hlog := onready_log (c := { entered c with mem := h.before ++ decoded h.target ++
      (h.after ++ 0 :: ((l ++ lf :: u) ++ 0 :: junk).drop 1) }) hk rfl hlive.log
    refine .called ?_ ?_
    · rw [hdec]
      exact hlive.error
    · simp only [hdec]
      rw [hlog, Option.map_map]
      cases hq : h.query with
      | none => rfl
      | some k =>
        have hle := hc.ok.query_le k hq
        simp only [Option.map_some, Function.comp, cstr_decoded hle]
  | getWs =>
    rw [blankLine_getWs (hk.type.trans htype)] at hturn
    exact hbody 8 (.inr (by decide)) hturn
  | null | post =>
    have hne : (entered c).http.contentlength ≠ 0 := by
      rw [hk.contentlength]
      rcases hc.ok.length_ok with h1 | h1 <;> omega
    unfold blankLine at hturn
    simp only [if_neg hne] at hturn
    split at hturn
    · next hget => exact absurd ((hk.type.symm.trans hget).symm.trans htype) (by decide)
    · next hws => exact absurd ((hk.type.symm.trans hws).symm.trans htype) (by decide)
    · exact hbody h.contentlength hc.ok.length_ok (by rw [hturn, ← hk.contentlength])

theorem addField_done (h : Head) (hl : Option HeaderLine) :
    (View.addField h hl).done = h.done := by
  cases hl <;> rfl

theorem addField_ok {h : Head} (hok : h.Ok) (hl : Option HeaderLine) : (View.addField h hl).Ok := by
  cases hl with
  | none => exact hok
  | some hl => exact ⟨hok.target_ne, hok.query_le, hok.after_ne, hok.length_ok⟩

/-- The list of header lines of the parser and of the view grow alike. -/
theorem addLine_knows {d : Option ℕ} {a : ℕ} {http : State} (hk : Knows h d a http) (l : Bytes)
    (hl : Option HeaderLine) :
    Knows (View.addField (View.addText h l) hl) d a (addLine http hl) := by
  cases hl with
  | none => exact ⟨hk.type, hk.hlines, hk.host, hk.contentlength, hk.addr, hk.uri, hk.data⟩
  | some hl =>
    refine ⟨hk.type, ?_, ?_, hk.contentlength, hk.addr, hk.uri, hk.data⟩
    · simp [addLine, View.addField, View.addText, hk.hlines]
    · simp [addLine, View.addField, View.addText, hk.host]

/-- The parser behind a header line that was accepted. -/
theorem field_at (hc : AtHead h (l ++ lf :: u) c) {h' : Head} (http : State)
    (hok : h'.Ok) (hdone : h'.done = h.done ++ l ++ [lf])
    (hk : Knows h' (h'.query.map (h'.before.length + ·)) (entered c).base http)
    (hpos : http.pos = (entered c).http.pos) (hstep : http.step = (entered c).http.step)
    (hread : http.read = (entered c).http.read) (herr : http.error = (entered c).http.error) :
    AtHead h' u { entered c with http := { http with pos := http.pos + (l.length + 1) } } := by
  have hlive := hc.live.of_entered
  refine ⟨⟨?_, ?_, ?_, hlive.ready, herr.trans hlive.error, hlive.log⟩, hok,
    hstep.trans hc.entered_step, hread.trans hc.entered_read, (entered c).base, hk.type, hk.hlines,
    hk.host, hk.contentlength, hk.addr, hk.uri, hk.data⟩
  · rw [hdone]
    simpa using hlive.mem
  · rw [hdone]
    simpa using hlive.length
  · simp only [hdone, hpos, hlive.pos, List.length_append, List.length_singleton]
    omega

theorem addLine_rest (http : State) (hl : Option HeaderLine) :
    (addLine http hl).read = http.read ∧ (addLine http hl).error = http.error := by
  cases hl <;> exact ⟨rfl, rfl⟩

theorem addField_type (h : Head) (hl : Option HeaderLine) : (View.addField h hl).type = h.type := by
  cases hl <;> rfl

theorem field_reaches (hc : AtHead h (l ++ lf :: u) c) (hl : 0 ∉ l) (hlf : lf ∉ l)
    (hb : ¬ (l = [] ∨ l = [cr])) {w : View} (hw : View.fieldDone h l = some w) :
    Reaches w u c := by
  have hlive := hc.live.of_entered
  have hturn := hc.turn_line hl hlf
  rw [if_neg hb] at hturn
  obtain ⟨junk, hrest⟩ := hc.live.entered_rest
  rw [List.append_assoc, List.cons_append] at hrest
  have hlit : lf ∉ (bytes "content-length: ").map tolower := by decide
  have hlit' : lf ∉ (bytes "Sec-WebSocket-Key1: ").map tolower := by decide
  unfold headerLine at hturn
  simp only [hrest, parseHeaderLine_lf hlf, startsWith_lf hlit, startsWith_lf hlit'] at hturn
  unfold View.fieldDone at hw
  have hk := addLine_knows hc.entered_knows l (parseHeaderLine l)
  have hok := addField_ok (addText_ok hc.ok l) (parseHeaderLine l)
  have hdone := (addField_done (View.addText h l) (parseHeaderLine l)).trans (addText_done h l)
  have hquery : (View.addField (View.addText h l) (parseHeaderLine l)).query = h.query ∧
      (View.addField (View.addText h l) (parseHeaderLine l)).before = h.before := by
    cases parseHeaderLine l <;> exact ⟨rfl, rfl⟩
  rw [← hquery.1, ← hquery.2] at hk
  have ⟨hp, hs⟩ := addLine_same (entered c).http (parseHeaderLine l)
  have ⟨hr, he⟩ := addLine_rest (entered c).http (parseHeaderLine l)
  generalize addLine (entered c).http (parseHeaderLine l) = http at hturn hk hp hs hr he
  generalize View.addField (View.addText h l) (parseHeaderLine l) = h' at hw hk hok hdone
  have hgo : ∀ (cl : ℤ) (type : Method), cl = -1 ∨ 1 ≤ cl →
      turn c = .go { entered c with http := { http with
        contentlength := cl, type, pos := http.pos + (l.length + 1) } } →
      Reaches (.head { h' with contentlength := cl, type } []) u c := by
    intro cl type hcl ht
    refine .head _ rfl _ (process_of_go ht) (field_at hc { http with contentlength := cl, type }
      ?_ hdone ?_ hp hs hr he)
    · exact ⟨hok.target_ne, hok.query_le, hok.after_ne, hcl⟩
    · exact ⟨rfl, hk.hlines, hk.host, rfl, hk.addr, hk.uri, hk.data⟩
  have hsame : ∀ type, h'.type = type → turn c = .go { entered c with http := { http with
      type, pos := http.pos + (l.length + 1) } } → Reaches (.head h' []) u c := by
    intro type htype ht
    have hr := hgo h'.contentlength h'.type hok.length_ok (by rw [ht, hk.contentlength, htype])
    exact hr
  cases htype : h'.type with
  | post =>
    simp only [htype] at hw
    simp only [hk.type.trans htype] at hturn
    by_cases hlength : isLength l = true
    · have hrec : l.length + 1 ≤ 25 ∧ startsWith (bytes "content-length: ") l = true := by
        simpa [isLength] using hlength
      have h16 : 16 ≤ l.length := startsWith_length hrec.2
      rw [if_pos hlength] at hw
      split at hw
      · cases hw
      · next hspace =>
        have hatoi : atoi ((l ++ lf :: (u ++ 0 :: junk)).drop 16) = atoi (l.drop 16) := by
          rw [List.drop_append_of_le_length h16]
          exact atoi_lf (by simpa using hspace)
        rw [if_pos hrec, hatoi] at hturn
        split at hw
        · next hrange =>
          cases hw
          rw [if_pos hrange] at hturn
          refine .rejected rfl ?_
          rw [process_of_stop hturn]
          exact .rejected rfl hlive.log
        · next hrange =>
          cases hw
          rw [if_neg hrange] at hturn
          exact hgo (atoi (l.drop 16)) .post (.inr (by omega)) hturn
    · rw [if_neg hlength] at hw
      have hrec : ¬ (l.length + 1 ≤ 25 ∧ startsWith (bytes "content-length: ") l = true) := by
        simpa [isLength] using hlength
      cases hw
      rw [if_neg hrec] at hturn
      exact hsame .post htype hturn
  | get =>
    simp only [htype] at hw
    simp only [hk.type.trans htype] at hturn
    split at hw
    · next hkey =>
      cases hw
      rw [if_pos hkey] at hturn
      exact hgo h'.contentlength .getWs hok.length_ok (by rw [hturn, hk.contentlength])
    · next hkey =>
      cases hw
      rw [if_neg hkey] at hturn
      exact hsame .get htype hturn
  | getWs | null =>
    simp only [htype] at hw
    simp only [hk.type.trans htype] at hturn
    cases hw
    exact hsame _ htype hturn

theorem head_reaches (hc : AtHead h (l ++ lf :: u) c) (hl : 0 ∉ l) (hlf : lf ∉ l)
    {w : View} (hw : View.headDone h l = some w) : Reaches w u c := by
  unfold View.headDone at hw
  split at hw
  · next hb =>
    cases hw
    exact blank_reaches hc hl hlf hb
  · next hb => exact field_reaches hc hl hlf hb hw

end Head

/-- A text without a line feed behind the last line waits for more. -/
theorem head_waits {h : Head} {u : Bytes} {c : Client} (hc : AtHead h u c) (hu : 0 ∉ u)
    (hlf : lf ∉ u) : Sim (.head h u) (processHttp c) := by
  cases u with
  | nil =>
    obtain ⟨mem, hp, hlive⟩ := hc.live.process_nil
    rw [hp]
    exact .head ⟨hlive, hc.ok, hc.step, hc.read, hc.knows⟩ hu hlf
  | cons b u =>
    obtain ⟨junk, hrest⟩ := hc.live.entered_rest
    have hturn := hc.live.turn_eq (by simp) hu
    simp only [hc.step, headers, hrest, seof_nul hu hlf] at hturn
    rw [process_of_stop hturn]
    exact .head ⟨hc.live.of_entered, hc.ok, hc.entered_step, hc.entered_read, _, hc.entered_knows⟩
      hu hlf

section Body

variable {h : Head} {t u : Bytes} {c : Client}

theorem AtBody.entered_knows (hc : AtBody h t u c) :
    Knows h (some h.done.length) (entered c).base (entered c).http := by
  obtain ⟨a, ha⟩ := hc.knows
  have hk := rebase_knows (c := { c with mem := poke c.mem c.length 0 }) ha
  have hbase : (entered c).base = c.base := (rebase_rest _).1
  rw [hbase]
  exact hk

theorem Knows.setRead {d : Option ℕ} {a : ℕ} {http : State} (hk : Knows h d a http) (pos : ℕ)
    (read : ℤ) : Knows h d a { http with pos, read } :=
  ⟨hk.type, hk.hlines, hk.host, hk.contentlength, hk.addr, hk.uri, hk.data⟩

theorem poke_append (x y : Bytes) (i : ℕ) (b : UInt8) :
    poke (x ++ y) (x.length + i) b = x ++ poke y i b := by
  simp only [poke, List.take_length_add_append, Nat.add_assoc, List.drop_length_add_append,
    List.append_assoc]

/-- The NUL of step 2 stands behind the body, or in front of it where no length was
recognised. -/
theorem poke_body (a x j : Bytes) {i : ℕ} (hi : i = a.length + x.length ∨ i + 1 = a.length) :
    ∃ a' j', a'.length = a.length ∧ poke (a ++ x ++ 0 :: j) i 0 = a' ++ x ++ 0 :: j' := by
  rcases hi with rfl | hi
  · refine ⟨a, j, rfl, ?_⟩
    have hlen : a.length + x.length = (a ++ x).length + 0 := by simp
    rw [hlen, poke_append]
    rfl
  · obtain ⟨a', b, rfl⟩ : ∃ a' b, a = a' ++ [b] := by
      rcases List.eq_nil_or_concat a with rfl | ⟨a', b, rfl⟩
      · simp at hi
      · exact ⟨a', b, by simp⟩
    refine ⟨a' ++ [0], j, by simp, ?_⟩
    have hlen : i = a'.length + 0 := by simpa using hi
    rw [hlen, List.append_assoc, List.append_assoc, poke_append]
    simp [poke]

/-- The counters of step 2 at the `switch`. -/
theorem AtBody.entered_read (hc : AtBody h t u c) :
    (entered c).http.read + (((entered c).length : ℤ) - (entered c).http.pos) = (t ++ u).length := by
  have hlive := hc.live.of_entered
  have hr : (entered c).http.read = t.length := (rebase_rest _).2.2.2.2.trans hc.read
  rw [hr, hlive.length, hlive.pos]
  simp only [List.length_append]
  omega

/-- Step 2 is taken when the first byte that is not counted is no NUL. -/
theorem AtBody.turn_eq (hc : AtBody h t u c) (hne : u ≠ []) (hfirst : u.head? ≠ some 0) :
    turn c = .stop (body (entered c)) := by
  cases u with
  | nil => exact absurd rfl hne
  | cons b u =>
    have hb : b ≠ 0 := fun h0 => hfirst (by rw [h0]; rfl)
    rw [hc.live.turn_cons hb, hc.step]

/-- The body with the bytes of one call is complete: `http->data` is where it stands. -/
theorem body_full (hc : AtBody h t u c) (hne : u ≠ []) (hfirst : u.head? ≠ some 0)
    (hfull : (h.contentlength = -1 ∧ t = []) ∨ h.contentlength = (t ++ u).length) :
    ∃ pre j, pre.length = h.done.length ∧ (processHttp c).mem = pre ++ (t ++ u) ++ 0 :: j ∧
      (processHttp c).http.data = some ((processHttp c).base + h.done.length) ∧
      (processHttp c).http.error = false ∧
      (processHttp c).log = [h.call (some (cstr (pre ++ (t ++ u) ++ 0 :: j) h.done.length))] := by
  have hlive := hc.live.of_entered
  have hk := hc.entered_knows
  have hturn := hc.turn_eq hne hfirst
  obtain ⟨junk, hmem⟩ := hc.live.entered_mem
  have hread := hc.entered_read
  have hge : ((t ++ u).length : ℤ) ≥ (entered c).http.contentlength := by
    rw [hk.contentlength]
    rcases hfull with ⟨hcl, -⟩ | hcl <;> omega
  have hm : (entered c).mem = h.before ++ h.target ++ 0 :: (h.after ++ (t ++ u) ++ 0 :: junk) := by
    rw [hmem]
    simp [Head.done]
  have hafter := List.length_pos_iff.mpr hc.ok.after_ne
  have hdone : h.done.length = (h.before ++ decoded h.target).length + h.after.length := by
    simp [Head.done, decoded_length]
    omega
  -- where the terminator goes, counted from the end of the target
  obtain ⟨i, hidx, hi⟩ : ∃ i, (((entered c).length : ℤ) - (((t ++ u).length : ℤ) -
      (entered c).http.contentlength)).toNat = (h.before ++ decoded h.target).length + i ∧
      (i = h.after.length + (t ++ u).length ∨ i + 1 = h.after.length) := by
    rw [hk.contentlength, hlive.length, List.append_assoc, List.length_append, hdone]
    rcases hfull with ⟨hcl, rfl⟩ | hcl
    · refine ⟨h.after.length - 1, ?_, .inr (by omega)⟩
      rw [hcl]
      omega
    · refine ⟨h.after.length + (t ++ u).length, ?_, .inl rfl⟩
      rw [hcl]
      omega
  obtain ⟨a', j, ha', hpoke⟩ := poke_body h.after (t ++ u) junk hi
  have hdec := decodeUri_mem (c := { entered c with http := { (entered c).http with
    pos := (entered c).length, read := (t ++ u).length } }) hc.ok (hk.setRead _ _) hm
  simp only [body, hread, if_pos hge, hdec, hidx, poke_append, hpoke] at hturn
  rw [process_of_stop hturn]
  have hlog := onready_log (c := { entered c with
    mem := h.before ++ decoded h.target ++ (a' ++ (t ++ u) ++ 0 :: j)
    http := { (entered c).http with pos := (entered c).length, read := (t ++ u).length } })
    (hk.setRead _ _) rfl hlive.log
  have hpre : h.before ++ decoded h.target ++ (a' ++ (t ++ u) ++ 0 :: j) =
      h.before ++ decoded h.target ++ a' ++ (t ++ u) ++ 0 :: j := by
    simp only [List.append_assoc]
  refine ⟨h.before ++ decoded h.target ++ a', j, ?_, hpre, hk.data, hlive.error, hlog.trans ?_⟩
  · rw [List.length_append, ha', hdone]
  · rw [← hpre, Option.map_some]

theorem body_call (hc : AtBody h t u c) (hne : u ≠ []) (hnul : 0 ∉ t ++ u)
    (hfull : (h.contentlength = -1 ∧ t = []) ∨ h.contentlength = (t ++ u).length) :
    Sim (.called (h.call (some (t ++ u)))) (processHttp c) := by
  have hfirst : u.head? ≠ some 0 := fun h0 =>
    hnul (List.mem_append_right _ (List.mem_of_mem_head? h0))
  obtain ⟨pre, j, hpre, -, -, herror, hlog⟩ := body_full hc hne hfirst hfull
  refine .called herror (hlog.trans ?_)
  rw [cstr, ← hpre, List.append_assoc, List.drop_left, takeWhile_nul hnul]

theorem body_waits_nil (hc : AtBody h t [] c) (hnul : 0 ∉ t)
    (hshort : t = [] ∨ (t.length : ℤ) < h.contentlength) : Sim (.body h t) (processHttp c) := by
  obtain ⟨mem, hp, hlive⟩ := hc.live.process_nil
  rw [hp]
  exact .body ⟨hlive, hc.ok, hc.step, hc.read, hc.knows⟩ hnul hshort

/-- The bytes of one call are counted, and more are to come. -/
theorem body_counted (hc : AtBody h t u c) (hne : u ≠ []) (hfirst : u.head? ≠ some 0)
    (hless : ((t ++ u).length : ℤ) < h.contentlength) : AtBody h (t ++ u) [] (processHttp c) := by
  have hlive := hc.live.of_entered
  have hk := hc.entered_knows
  have hturn := hc.turn_eq hne hfirst
  have hlt : ¬ ((t ++ u).length : ℤ) ≥ (entered c).http.contentlength := by
    rw [hk.contentlength]
    omega
  simp only [body, hc.entered_read, if_neg hlt] at hturn
  rw [process_of_stop hturn]
  refine ⟨⟨?_, ?_, ?_, hlive.ready, hlive.error, hlive.log⟩, hc.ok,
    (rebase_same _).2.2.2.trans hc.step, rfl, _, hk.setRead _ _⟩
  · simpa using hlive.mem
  · simpa using hlive.length
  · simpa using hlive.length

theorem body_waits (hc : AtBody h t u c) (hne : u ≠ []) (hnul : 0 ∉ t ++ u)
    (hless : ((t ++ u).length : ℤ) < h.contentlength) :
    Sim (.body h (t ++ u)) (processHttp c) := by
  have hfirst : u.head? ≠ some 0 := fun h0 =>
    hnul (List.mem_append_right _ (List.mem_of_mem_head? h0))
  exact .body (body_counted hc hne hfirst hless) hnul (.inr hless)

end Body

end ApeServer.Http
