import ApeServer.Http.Request

/-!
# The length of a POST

What `process_http` makes of a stream that starts with a POST: which `Content-Length` it
obeys, and what `http->data` points at when `onready` runs. `http->error = 1` stands for
the `shutdown` that follows it everywhere.
-/
namespace ApeServer.Http

open Sock (Bytes)

/-- A header line `Content-Length` with the value that `atoi` reads as `n`. -/
def HasLength (n : ℕ) (l : Bytes) : Prop :=
  ∃ name value, l = name ++ colon :: value ∧ name.map tolower = bytes "content-length" ∧
    atoi value = n

/-- `http->data` points at `text` with a NUL behind it. -/
def Client.PointsAt (c : Client) (text : Bytes) : Prop :=
  ∃ p, c.http.data = some (c.base + p) ∧ text ++ [0] <+: c.mem.drop p

namespace Request

/-- The parts of the request are lines, and the first blank one ends the header lines. -/
structure Lined (q : Request) : Prop where
  line : lf ∉ q.line
  header : ∀ l ∈ q.headers, lf ∉ l ∧ ¬ (l = [] ∨ l = [cr])
  blank : q.blank = [] ∨ q.blank = [cr]

/-- A `Content-Length` between 1 and `MAX_CONTENT_LENGTH` in front of the blank line. -/
def Announces (q : Request) (n : ℕ) : Prop :=
  1 ≤ n ∧ n ≤ 51200 ∧ ∃ l ∈ q.headers, HasLength n l

end Request

/-- Behind the bytes `s`, `onready` has been given the announced body and nothing else. -/
def Served (s : Bytes) (c : Client) : Prop :=
  ∃ (q : Request) (n : ℕ), q.Lined ∧ q.bytes = s ∧ q.Announces n ∧ n ≤ q.body.length ∧
    c.PointsAt (q.body.take n)

/-- A request without a length has been refused. -/
def Refused (s : Bytes) (c : Client) : Prop :=
  ∀ q : Request, q.Lined → q.bytes = s → (¬ ∃ n, q.Announces n) →
    c.http.error = true ∧ c.log = []

/-- In the run from `c`, behind the bytes `s`: a read makes at most one call, and that with
the announced body; and a request without a length is refused. -/
def Correct (s : Bytes) (c : Client) : List Read → Prop
  | [] => True
  | r :: reads =>
    ((receive c r).log ≠ c.log →
      (∃ call, (receive c r).log = c.log ++ [call]) ∧ Served (s ++ r.bytes) (receive c r)) ∧
    Refused (s ++ r.bytes) (receive c r) ∧ Correct (s ++ r.bytes) (receive c r) reads

/-- No NUL comes in front of the body, a `Content-Length` line that is recognised has a
value, and there is one in front of the blank line unless the request line is refused. -/
structure Fine (s : Bytes) : Prop where
  nul : 0 ∉ s ∨ ∃ q : Request, q.Lined ∧ q.bytes = s ∧ 0 ∉ q.head
  value : ∀ line ls rest, s = line ++ lf :: (lines ls ++ rest) → lf ∉ line →
    (∀ l ∈ ls, lf ∉ l ∧ ¬ (l = [] ∨ l = [cr])) →
    ∀ l ∈ ls, isLength l = true → (l.drop 16).all isspace = false
  length : ∀ q : Request, q.Lined → q.bytes = s → q.IsPost → q.headers.any isLength = true

/-- One read, with what must hold of the stream up to it and of the state in front of it:
once `onready` has been called, the buffer does not grow beyond `http->pos`. -/
def ReadOk (s : Bytes) (c : Client) (r : Read) : Prop :=
  Fine (s ++ r.bytes) ∧ (c.log ≠ [] → c.length + r.bytes.length ≤ c.http.pos)

def ReadsOk (s : Bytes) (c : Client) : List Read → Prop
  | [] => True
  | r :: reads => ReadOk s c r ∧ ReadsOk (s ++ r.bytes) (receive c r) reads

section Lines

variable {l l' x x' : Bytes} {ls hs : List Bytes}

theorem line_unique (hl : lf ∉ l) (hl' : lf ∉ l') (h : l ++ lf :: x = l' ++ lf :: x') :
    l = l' ∧ x = x' := by
  rw [List.append_eq_append_iff] at h
  obtain ⟨m, rfl, hx⟩ | ⟨m, rfl, hx⟩ := h
  · cases m with
    | nil => exact ⟨by simp, by simpa using hx⟩
    | cons b m =>
      obtain ⟨rfl, -⟩ := List.cons.inj hx
      exact absurd (by simp) hl'
  · cases m with
    | nil => exact ⟨by simp, by simpa using hx.symm⟩
    | cons b m =>
      obtain ⟨rfl, -⟩ := List.cons.inj hx
      exact absurd (by simp) hl

/-- Complete lines that are not blank are the first header lines of a request. -/
theorem lines_match {blank body z : Bytes} (hls : ∀ l ∈ ls, lf ∉ l ∧ ¬ (l = [] ∨ l = [cr]))
    (hblank : blank = [] ∨ blank = [cr]) : ∀ {hs : List Bytes},
    (∀ l ∈ hs, lf ∉ l ∧ ¬ (l = [] ∨ l = [cr])) →
    lines ls ++ z = lines hs ++ (blank ++ lf :: body) →
    ∃ hs', hs = ls ++ hs' ∧ z = lines hs' ++ (blank ++ lf :: body) := by
  induction ls with
  | nil =>
    intro hs _ h
    exact ⟨hs, rfl, by simpa [lines] using h⟩
  | cons l ls ih =>
    intro hs hhs h
    obtain ⟨hl, hne⟩ := hls l List.mem_cons_self
    rw [lines_cons, List.append_assoc, List.cons_append] at h
    cases hs with
    | nil =>
      have hb : lf ∉ blank := by rcases hblank with rfl | rfl <;> decide
      have hsame := (line_unique hl hb (by simpa [lines] using h)).1
      exact absurd (hsame ▸ hblank) hne
    | cons l' hs =>
      rw [lines_cons, List.append_assoc, List.cons_append] at h
      obtain ⟨rfl, hrest⟩ := line_unique hl (hhs l' List.mem_cons_self).1 h
      obtain ⟨hs', rfl, hz⟩ := ih (fun l hm => hls l (List.mem_cons_of_mem _ hm))
        (fun l hm => hhs l (List.mem_cons_of_mem _ hm)) hrest
      exact ⟨hs', rfl, hz⟩

namespace Request

theorem bytes_eq (q : Request) :
    q.bytes = q.line ++ lf :: (lines q.headers ++ (q.blank ++ lf :: q.body)) := by
  simp [bytes, head]

theorem Lined.blank_lf {q : Request} (h : q.Lined) : lf ∉ q.blank := by
  rcases h.blank with hb | hb <;> rw [hb] <;> decide

/-- A stream is cut into a request in one way only. -/
theorem Lined.unique {q q' : Request} (h : q.Lined) (h' : q'.Lined) (hs : q.bytes = q'.bytes) :
    q = q' := by
  rw [bytes_eq, bytes_eq] at hs
  obtain ⟨hline, hs⟩ := line_unique h.line h'.line hs
  obtain ⟨more, hmore, hrest⟩ := lines_match h.header h'.blank h'.header hs
  cases more with
  | nil =>
    obtain ⟨hblank, hbody⟩ := line_unique h.blank_lf h'.blank_lf (by simpa [lines] using hrest)
    obtain ⟨line, headers, blank, body⟩ := q
    obtain ⟨line', headers', blank', body'⟩ := q'
    simp only [List.append_nil] at hmore
    simp_all
  | cons l more =>
    have hl := h'.header l (by simp [hmore])
    rw [lines_cons, List.append_assoc, List.cons_append] at hrest
    obtain ⟨hblank, -⟩ := line_unique h.blank_lf hl.1 hrest
    exact absurd (hblank ▸ h.blank) hl.2

end Request

/-- A line of a fine stream in front of the body has no NUL. -/
theorem Fine.line_nul {s line y : Bytes} (hf : Fine s) (hline : lf ∉ line)
    (hls : ∀ l ∈ ls, lf ∉ l ∧ ¬ (l = [] ∨ l = [cr]))
    (hs : s = line ++ lf :: (lines ls ++ (x ++ y))) (hx : lf ∉ x)
    (hy : y = [] ∨ y.head? = some lf) : 0 ∉ x := by
  intro h0
  rcases hf.nul with hnul | ⟨q, hq, hqs, hhead⟩
  · exact hnul (by simp [hs, h0])
  · rw [hs, Request.bytes_eq] at hqs
    obtain ⟨-, hrest⟩ := line_unique hq.line hline hqs
    obtain ⟨more, hmore, hxy⟩ := lines_match hls hq.blank hq.header hrest.symm
    have hcut : ∀ m z, lf ∉ m → x ++ y = m ++ lf :: z → x = m := by
      intro m z hm he
      rcases hy with rfl | hy
      · rw [List.append_nil] at he
        exact absurd (by simp [he]) hx
      · cases y with
        | nil => cases hy
        | cons b y =>
          cases hy
          exact (line_unique hx hm he).1
    cases more with
    | nil =>
      have hx' := hcut q.blank q.body hq.blank_lf (by simpa [lines] using hxy)
      exact hhead (by simp [Request.head, ← hx', h0])
    | cons l more =>
      have hl := hq.header l (by simp [hmore])
      rw [lines_cons, List.append_assoc, List.cons_append] at hxy
      have hx' := hcut l _ hl.1 hxy
      refine hhead ?_
      simp [Request.head, hmore, lines, ← hx', h0]

end Lines

/-- What a recognised line announces is what `atoi` reads behind the colon. -/
theorem hasLength_of_isLength {l : Bytes} {n : ℕ} (h : isLength l = true)
    (hn : atoi (l.drop 16) = n) : HasLength n l := by
  obtain ⟨hlen, -, hblank, hname⟩ := length_punctuation h
  refine ⟨l.take 14, l.drop 15, (length_cut h).symm, hname, ?_⟩
  rw [List.drop_eq_getElem_cons (show 15 < l.length by omega),
    (List.getElem?_eq_some_iff.mp hblank).2]
  exact hn

/-- The parser behind the request line and the header lines `ls` of a POST. -/
structure After (line : Bytes) (ls : List Bytes) (h : Head) : Prop where
  line_lf : lf ∉ line
  line_nul : 0 ∉ line
  post : Request.IsPost ⟨line, [], [], []⟩
  fields : ∀ l ∈ ls, Field l
  type : h.type = .post
  length : (h.contentlength = -1 ∧ ls.any isLength = false) ∨
    ∃ n : ℕ, h.contentlength = n ∧ 1 ≤ n ∧ n ≤ 51200 ∧ ∃ l ∈ ls, HasLength n l

theorem After.lined {line : Bytes} {ls : List Bytes} {h : Head} (ha : After line ls h) :
    ∀ l ∈ ls, lf ∉ l ∧ ¬ (l = [] ∨ l = [cr]) :=
  fun l hl => ⟨(ha.fields l hl).noLf, (ha.fields l hl).notBlank⟩

/-- A request line that starts with `POST ` is refused, or is the line of a POST. -/
theorem after_line {l : Bytes} (hlf : lf ∉ l) (hnul : 0 ∉ l) (hpost : bytes "POST " <+: l) :
    View.lineDone l = .rejected ∨ ∃ h, View.lineDone l = .head h [] ∧ After l [] h := by
  obtain ⟨m, rfl⟩ := hpost
  have htake : (bytes "POST " ++ m).take 4 = bytes "POST" := by
    rw [show bytes "POST " = [80, 79, 83, 84, 32] by decide]
    rfl
  have hget : (bytes "POST " ++ m).take 4 ≠ bytes "GET " := by
    rw [htake]
    decide
  rw [View.lineDone, if_neg hget, if_pos htake, View.targetDone]
  split
  · exact .inl rfl
  · next hslash =>
    split
    · exact .inl rfl
    · next e query hscan =>
      refine .inr ⟨_, rfl, hlf, hnul, ⟨htake, not_not.mp hslash, ?_⟩, by simp, rfl, .inl ⟨rfl, rfl⟩⟩
      rw [hscan]
      simp

/-- One more header line: the request is refused, or its length is still accounted for. -/
theorem After.field {line l : Bytes} {ls : List Bytes} {h : Head} (ha : After line ls h)
    (hl : Field l) (hvalue : isLength l = true → (l.drop 16).all isspace = false) :
    View.fieldDone h l = some .rejected ∨
      ∃ h', View.fieldDone h l = some (.head h' []) ∧ After line (ls ++ [l]) h' := by
  have htype : (View.addField (View.addText h l) (parseHeaderLine l)).type = .post := by
    rw [addField_type]
    exact ha.type
  have hcl : (View.addField (View.addText h l) (parseHeaderLine l)).contentlength =
      h.contentlength := by
    cases parseHeaderLine l <;> rfl
  have hfields : ∀ x ∈ ls ++ [l], Field x := by
    intro x hx
    rcases List.mem_append.mp hx with hx | hx
    · exact ha.fields x hx
    · exact List.mem_singleton.mp hx ▸ hl
  unfold View.fieldDone
  simp only [htype]
  by_cases hrec : isLength l = true
  · simp only [if_pos hrec, hvalue hrec, Bool.false_eq_true, if_false]
    split
    · exact .inl rfl
    · next hrange =>
      obtain ⟨n, hn⟩ := Int.eq_ofNat_of_zero_le (show 0 ≤ atoi (l.drop 16) by omega)
      refine .inr ⟨_, rfl, ha.line_lf, ha.line_nul, ha.post, hfields, rfl, .inr ⟨n, hn, ?_, ?_, l,
        by simp, hasLength_of_isLength hrec hn⟩⟩ <;> omega
  · simp only [if_neg hrec]
    refine .inr ⟨_, rfl, ha.line_lf, ha.line_nul, ha.post, hfields, htype, ?_⟩
    rw [hcl]
    rcases ha.length with ⟨hnone, hany⟩ | ⟨n, hn, h1, h2, x, hx, hv⟩
    · exact .inl ⟨hnone, by simp [hany, hrec]⟩
    · exact .inr ⟨n, hn, h1, h2, x, by simp [hx], hv⟩

/-- Where a client that has been given the bytes `s` of a POST stands. -/
inductive Phase (s : Bytes) (c : Client) : Prop where
  | line (at_line : AtLine s c) (nul : 0 ∉ s) (noLf : lf ∉ s)
  | head {line : Bytes} {ls : List Bytes} {h : Head} {t : Bytes} (after : After line ls h)
      (at_head : AtHead h t c) (text : s = line ++ lf :: (lines ls ++ t)) (nul : 0 ∉ t)
      (noLf : lf ∉ t)
  | rejected (error : c.http.error = true) (log : c.log = [])
  | body {q : Request} {n : ℕ} {h : Head} {t u : Bytes} (lined : q.Lined) (text : q.bytes = s)
      (announced : q.Announces n) (at_body : AtBody h t u c) (length : h.contentlength = n)
      (split : q.body = t ++ u) (short : t.length < n) (waits : u = [] ∨ u.head? = some 0)
  | served {q : Request} {n : ℕ} (lined : q.Lined) (text : q.bytes = s)
      (announced : q.Announces n) (error : c.http.error = false) (called : c.log ≠ [])
      (ready : c.ready ≠ 1) (nul : c.mem.getD c.http.pos 0 = 0) (length : c.length ≤ c.http.pos)
      (inside : c.http.pos < c.mem.length)

theorem Phase.refused {s : Bytes} {c : Client} (hp : Phase s c) : Refused s c := by
  intro q hq hqs hno
  cases hp with
  | line at_line nul noLf =>
    refine absurd ?_ noLf
    simp [← hqs, Request.bytes_eq]
  | head after at_head text nul noLf =>
    rw [text, Request.bytes_eq] at hqs
    obtain ⟨-, hrest⟩ := line_unique hq.line after.line_lf hqs
    obtain ⟨more, -, ht⟩ := lines_match after.lined hq.blank hq.header hrest.symm
    refine absurd ?_ noLf
    simp [ht]
  | rejected error log => exact ⟨error, log⟩
  | body lined text announced at_body length split short waits =>
    obtain rfl := hq.unique lined (hqs.trans text.symm)
    exact absurd ⟨_, announced⟩ hno
  | served lined text announced error called ready nul length inside =>
    obtain rfl := hq.unique lined (hqs.trans text.symm)
    exact absurd ⟨_, announced⟩ hno

/-- A client behind the bytes `s`, if it had made no call in front of its last one. -/
structure Arrives (s : Bytes) (c : Client) : Prop where
  phase : Phase s c
  served : c.log ≠ [] → (∃ call, c.log = [call]) ∧ Served s c

theorem poke_getD {mem : Bytes} {i j : ℕ} (hj : j ≤ mem.length) (h : mem.getD i 0 = 0) :
    (poke mem j 0).getD i 0 = 0 := by
  have hlen : (mem.take j).length = j := by simp [hj]
  rw [List.getD_eq_getElem?_getD] at h ⊢
  rcases Nat.lt_trichotomy i j with hlt | rfl | hlt
  · rw [poke, List.getElem?_append_left (by omega), List.getElem?_take_of_lt hlt]
    exact h
  · rw [poke, List.getElem?_append_right (by omega), hlen]
    simp
  · rw [poke, List.getElem?_append_right (by omega), hlen]
    obtain ⟨k, rfl⟩ := Nat.exists_eq_add_of_lt hlt
    rw [show j + k + 1 - j = k + 1 by omega, List.getElem?_cons_succ, List.getElem?_drop,
      show j + 1 + k = j + k + 1 by omega]
    exact h

section Body

variable {q : Request} {n : ℕ} {h : Head} {t u : Bytes} {c : Client}

/-- The announced number of bytes is there: `http->data` is cut behind the last of them. -/
theorem body_served (hc : AtBody h t u c) (hu : u.head? ≠ some 0) (hne : u ≠ [])
    (hq : q.Lined) (hann : q.Announces n) (hcl : h.contentlength = n)
    (hsplit : q.body = t ++ u) (hfull : n ≤ (t ++ u).length) :
    Arrives q.bytes (processHttp c) := by
  have hlive := hc.live.of_entered
  have hk := hc.entered_knows
  obtain ⟨b, u', rfl⟩ := List.exists_cons_of_ne_nil hne
  have hb : b ≠ 0 := by simpa using hu
  have hturn := hc.live.turn_cons hb
  generalize b :: u' = u at *
  obtain ⟨junk, hmem⟩ := hc.live.entered_mem
  have hge : ((t ++ u).length : ℤ) ≥ (entered c).http.contentlength := by
    rw [hk.contentlength, hcl]
    exact_mod_cast hfull
  have hm : (entered c).mem = h.before ++ h.target ++ 0 :: (h.after ++ (t ++ u) ++ 0 :: junk) := by
    rw [hmem]
    simp [Head.done]
  have hdone : h.done.length = (h.before ++ decoded h.target).length + h.after.length := by
    simp [Head.done, decoded_length]
    omega
  -- the terminator goes behind the announced bytes
  have hidx : (((entered c).length : ℤ) - (((t ++ u).length : ℤ) -
      (entered c).http.contentlength)).toNat =
      (h.before ++ decoded h.target).length + (h.after.length + n) := by
    rw [hk.contentlength, hcl, hlive.length, List.append_assoc, List.length_append, hdone]
    omega
  have hdec := decodeUri_mem (c := { entered c with http := { (entered c).http with
    pos := (entered c).length, read := (t ++ u).length } }) hc.ok (hk.setRead _ _) hm
  simp only [hc.step, body, hc.entered_read, if_pos hge, hdec, hidx] at hturn
  rw [process_of_stop hturn]
  have hpos : (entered c).length = (h.before ++ decoded h.target ++
      (h.after ++ (t ++ u))).length := by
    simp only [hlive.length, List.length_append, hdone]
    omega
  have hnul : (h.before ++ decoded h.target ++ (h.after ++ (t ++ u) ++ 0 :: junk)).getD
      (entered c).length 0 = 0 := by
    rw [hpos, ← List.append_assoc, List.getD_eq_getElem?_getD]
    simp
  have hready : (-1 : ℤ) ≠ 1 := by decide
  refine ⟨.served hq rfl hann hlive.error ?_ hready ?_ (Nat.zero_le _) ?_, fun _ => ⟨?_, ?_⟩⟩
  · simp [Client.onready]
  · refine poke_getD ?_ hnul
    simp only [List.length_append] at hfull ⊢
    omega
  · show (entered c).length < List.length (poke _ _ 0)
    rw [poke_length, hpos]
    simp only [List.length_append, List.length_cons]
    omega
  · simp only [Client.onready, hlive.log, List.nil_append]
    exact ⟨_, rfl⟩
  · refine ⟨q, n, hq, rfl, hann, by rw [hsplit]; exact hfull, h.done.length, hk.data, ?_⟩
    have hcut : poke (h.before ++ decoded h.target ++ (h.after ++ (t ++ u) ++ 0 :: junk))
        ((h.before ++ decoded h.target).length + (h.after.length + n)) 0 =
        h.before ++ decoded h.target ++ (h.after ++ ((t ++ u).take n ++
          0 :: (t ++ u ++ 0 :: junk).drop (n + 1))) := by
      rw [poke_append, List.append_assoc h.after, poke_append, poke,
        List.take_append_of_le_length hfull]
    refine ⟨(t ++ u ++ 0 :: junk).drop (n + 1), ?_⟩
    show _ = List.drop h.done.length (poke _ _ 0)
    rw [hcut, hdone, List.drop_length_add_append, List.drop_left, hsplit]
    simp

/-- Bytes of the body, NULs among them: the call is made, or the parser waits for more. -/
theorem body_arrives (hc : AtBody h t u c) (hq : q.Lined) (hann : q.Announces n)
    (hcl : h.contentlength = n) (hsplit : q.body = t ++ u) (hshort : t.length < n) :
    Arrives q.bytes (processHttp c) := by
  have hwait : ∀ (t' u' : Bytes) {c' : Client}, AtBody h t' u' c' → q.body = t' ++ u' →
      t'.length < n → (u' = [] ∨ u'.head? = some 0) → Arrives q.bytes c' := by
    intro t' u' c' hat hs hlt hw
    exact ⟨.body hq rfl hann hat hcl hs hlt hw, fun hlog => absurd hat.live.log hlog⟩
  cases u with
  | nil =>
    obtain ⟨mem, hp, hlive⟩ := hc.live.process_nil
    rw [hp]
    exact hwait _ _ ⟨hlive, hc.ok, hc.step, hc.read, hc.knows⟩ hsplit hshort (.inl rfl)
  | cons b u =>
    by_cases hb : b = 0
    · subst hb
      obtain ⟨mem, hp, hlive⟩ := hc.live.process_nul rfl
      rw [hp]
      exact hwait _ _ ⟨hlive, hc.ok, hc.step, hc.read, hc.knows⟩ hsplit hshort (.inr rfl)
    · rcases Nat.lt_or_ge (t ++ b :: u).length n with hlt | hge
      · have hless : ((t ++ b :: u).length : ℤ) < h.contentlength := by
          rw [hcl]
          exact_mod_cast hlt
        have hcount := body_counted hc (List.cons_ne_nil b u) (by simpa using hb) hless
        exact hwait (t ++ b :: u) [] hcount (by simpa using hsplit) hlt (.inl rfl)
      · exact body_served hc (by simpa using hb) (List.cons_ne_nil b u) hq hann hcl hsplit hge

end Body

/-- A refused request line or header line ends the call. -/
theorem rejected_arrives {s u : Bytes} {c : Client} (hr : Reaches .rejected u c) :
    Arrives s (processHttp c) := by
  cases hr with
  | head h hw => cases hw
  | body h hw => cases hw
  | called call hw => cases hw
  | rejected hw sim =>
    cases sim with
    | rejected error log => exact ⟨.rejected error log, fun hlog => absurd log hlog⟩

theorem Reaches.to_head {h : Head} {u : Bytes} {c : Client} (hr : Reaches (.head h []) u c) :
    ∃ t, processHttp c = processHttp t ∧ AtHead h u t := by
  cases hr with
  | head h' hw t same at_head =>
    cases hw
    exact ⟨t, same, at_head⟩
  | body h' hw => cases hw
  | rejected hw => cases hw
  | called call hw => cases hw

theorem lines_snoc (ls : List Bytes) (l x : Bytes) :
    lines ls ++ (l ++ lf :: x) = lines (ls ++ [l]) ++ x := by
  simp [lines]

/-- From the start of a header line of a POST. -/
theorem head_arrives {s : Bytes} (hf : Fine s) {n : ℕ} : ∀ {u : Bytes}, u.length < n →
    ∀ {line : Bytes} {ls : List Bytes} {h : Head} {c : Client}, After line ls h → AtHead h u c →
    s = line ++ lf :: (lines ls ++ u) → Arrives s (processHttp c) := by
  induction n with
  | zero =>
    intro u hn
    omega
  | succ n ih =>
    intro u hn line ls h c ha hc hs
    rcases split_lf u with hlf | ⟨l, u', rfl, hlf⟩
    · have hnul := hf.line_nul (y := []) ha.line_lf ha.lined (by simpa using hs) hlf (.inl rfl)
      cases head_waits hc hnul hlf with
      | head at_head nul noLf =>
        exact ⟨.head ha at_head hs nul noLf, fun hlog => absurd at_head.live.log hlog⟩
    · have hnul := hf.line_nul (y := lf :: u') ha.line_lf ha.lined hs hlf (.inr rfl)
      simp only [List.length_append, List.length_cons] at hn
      by_cases hblank : l = [] ∨ l = [cr]
      · -- the blank line: a length has been recognised, since the stream is fine
        let q : Request := ⟨line, ls, l, u'⟩
        have hq : q.Lined := ⟨ha.line_lf, ha.lined, hblank⟩
        have hqs : q.bytes = s := by rw [hs, Request.bytes_eq]
        obtain ⟨-, hany⟩ | ⟨k, hk, h1, h2, hmem⟩ := ha.length
        · have := hf.length q hq hqs ha.post
          simp [q, hany] at this
        · have hdone : View.headDone h l = some (.body (View.addText h l) []) := by
            rw [View.headDone, if_pos hblank, View.blankDone, ha.type]
          cases head_reaches hc hnul hlf hdone with
          | head h' hw => cases hw
          | rejected hw => cases hw
          | called call hw => cases hw
          | body h' hw t same at_body =>
            cases hw
            rw [same, ← hqs]
            exact body_arrives at_body hq ⟨h1, h2, hmem⟩ hk rfl h1
      · have hfield : Field l := ⟨hnul, hlf, hblank⟩
        have hvalue : isLength l = true → (l.drop 16).all isspace = false := by
          refine hf.value line (ls ++ [l]) u' ?_ ha.line_lf ?_ l (by simp)
          · rw [hs, lines_snoc]
          · intro x hx
            rcases List.mem_append.mp hx with hx | hx
            · exact ha.lined x hx
            · exact List.mem_singleton.mp hx ▸ ⟨hlf, hblank⟩
        have hdone : View.headDone h l = View.fieldDone h l := by
          rw [View.headDone, if_neg hblank]
        rcases ha.field hfield hvalue with hrej | ⟨h', hgo, ha'⟩
        · exact rejected_arrives (head_reaches hc hnul hlf (hdone.trans hrej))
        · obtain ⟨t, same, hat⟩ := (head_reaches hc hnul hlf (hdone.trans hgo)).to_head
          rw [same]
          exact ih (by omega) ha' hat (by rw [hs, lines_snoc])

/-- The beginnings of a stream that starts with `POST `. -/
def Posting (s : Bytes) : Prop := s <+: bytes "POST " ∨ bytes "POST " <+: s

theorem Posting.line {l u : Bytes} (h : Posting (l ++ lf :: u)) : bytes "POST " <+: l := by
  have hword : lf ∉ bytes "POST " := by decide
  rcases h with h | ⟨m, hm⟩
  · exact absurd (h.subset (by simp)) hword
  · rw [List.append_eq_append_iff] at hm
    obtain ⟨k, rfl, -⟩ | ⟨k, hk, hu⟩ := hm
    · exact ⟨k, rfl⟩
    · cases k with
      | nil => exact ⟨[], by simpa using hk⟩
      | cons b k =>
        obtain ⟨rfl, -⟩ := List.cons.inj hu
        exact absurd (by simp [hk]) hword

/-- From the start of the request line. -/
theorem line_arrives {s : Bytes} (hf : Fine s) (hpost : Posting s) {c : Client}
    (hc : AtLine s c) : Arrives s (processHttp c) := by
  rcases split_lf s with hlf | ⟨l, u, rfl, hlf⟩
  · have hnul : 0 ∉ s := by
      rcases hf.nul with hnul | ⟨q, -, hqs, -⟩
      · exact hnul
      · exact absurd (by simp [← hqs, Request.bytes_eq]) hlf
    cases line_waits hc hnul hlf with
    | line at_line nul noLf =>
      exact ⟨.line at_line nul noLf, fun hlog => absurd at_line.live.log hlog⟩
  · have hnul : 0 ∉ l := by
      intro h0
      rcases hf.nul with hnul | ⟨q, hq, hqs, hhead⟩
      · exact hnul (by simp [h0])
      · rw [Request.bytes_eq] at hqs
        obtain ⟨hline, -⟩ := line_unique hq.line hlf hqs
        exact hhead (by simp [Request.head, hline, h0])
    have hword := hpost.line
    have hbare : l = bytes "POST" → NoTarget u := by
      rintro rfl
      exact absurd hword (by decide)
    have hreach := line_reaches hc hnul hlf hbare
    rcases after_line hlf hnul hword with hrej | ⟨h, hgo, ha⟩
    · exact rejected_arrives (hrej ▸ hreach)
    · obtain ⟨t, same, hat⟩ := (hgo ▸ hreach : Reaches (.head h []) u c).to_head
      rw [same]
      exact head_arrives hf (Nat.lt_succ_self _) ha hat (by simp [lines])

/-- A read that is stored over a finished request and stays below its end changes nothing
that the parser looks at. -/
theorem served_receive {q : Request} {n : ℕ} {c : Client} {r : Read} (hq : q.Lined)
    (hann : q.Announces n) (herr : c.http.error = false) (hlog : c.log ≠ []) (hready : c.ready ≠ 1)
    (hnul : c.mem.getD c.http.pos 0 = 0) (hin : c.http.pos < c.mem.length)
    (hlen : c.length + r.bytes.length ≤ c.http.pos) (hr : r.bytes ≠ []) :
    Phase (q.bytes ++ r.bytes) (receive c r) ∧ (receive c r).log = c.log := by
  have hpos := List.length_pos_iff.mpr hr
  have htake : (c.mem.take c.length).length = c.length := by
    rw [List.length_take]
    omega
  have hstored : (stored c r).mem.length = c.mem.length := by
    simp only [stored, List.length_append, htake, List.length_drop]
    omega
  have hkeep : (stored c r).mem.getD c.http.pos 0 = 0 := by
    obtain ⟨k, hk⟩ := Nat.exists_eq_add_of_le hlen
    rw [hk, List.getD_eq_getElem?_getD] at hnul ⊢
    have hfront : (c.mem.take c.length ++ r.bytes).length = c.length + r.bytes.length := by
      rw [List.length_append, htake]
    simp only [stored]
    rw [List.getElem?_append_right (by omega), hfront, Nat.add_sub_cancel_left,
      List.getElem?_drop]
    exact hnul
  have hpoked : (poke (stored c r).mem (stored c r).length 0).getD c.http.pos 0 = 0 := by
    refine poke_getD ?_ hkeep
    rw [hstored]
    exact hlen.trans hin.le
  have hturn : turn (stored c r) =
      .stop { stored c r with mem := poke (stored c r).mem (stored c r).length 0 } := by
    have hlength : (stored c r).length ≠ 0 := by
      simp only [stored]
      omega
    have hstop : (Client.rest { stored c r with
        mem := poke (stored c r).mem (stored c r).length 0 }).headD 0 = 0 := by
      rw [Client.rest, List.headD_eq_head?_getD, List.head?_drop, ← List.getD_eq_getElem?_getD]
      exact hpoked
    unfold turn
    rw [if_neg (by simp [hlength, show (stored c r).ready = c.ready from rfl, hready,
      show (stored c r).http.error = c.http.error from rfl, herr])]
    simp only [hstop, ↓reduceIte]
  have hrec : receive c r = { stored c r with
      mem := poke (stored c r).mem (stored c r).length 0 } := process_of_stop hturn
  rw [hrec]
  refine ⟨.served (q := { q with body := q.body ++ r.bytes }) ⟨hq.line, hq.header, hq.blank⟩ ?_ hann
    herr hlog hready hpoked hlen ?_, rfl⟩
  · simp [Request.bytes, Request.head]
  · show c.http.pos < List.length (poke _ _ 0)
    rw [poke_length, hstored]
    omega

/-- One read. -/
theorem receive_arrives {s : Bytes} {c : Client} {r : Read} (hp : Phase s c)
    (hok : ReadOk s c r) (hpost : Posting (s ++ r.bytes)) (hr : r.bytes ≠ []) :
    Phase (s ++ r.bytes) (receive c r) ∧ ((receive c r).log ≠ c.log →
      (∃ call, (receive c r).log = c.log ++ [call]) ∧ Served (s ++ r.bytes) (receive c r)) := by
  obtain ⟨hf, hover⟩ := hok
  have hfirst : c.log = [] → Arrives (s ++ r.bytes) (receive c r) →
      Phase (s ++ r.bytes) (receive c r) ∧ ((receive c r).log ≠ c.log →
        (∃ call, (receive c r).log = c.log ++ [call]) ∧ Served (s ++ r.bytes) (receive c r)) := by
    intro hlog ha
    refine ⟨ha.phase, fun hne => ?_⟩
    rw [hlog] at hne ⊢
    simpa using ha.served hne
  cases hp with
  | line at_line nul noLf =>
    refine hfirst at_line.live.log (line_arrives hf hpost (c := stored c r) ⟨?_, at_line.http⟩)
    exact at_line.live.stored r
  | head after at_head text nul noLf =>
    refine hfirst at_head.live.log (head_arrives hf (Nat.lt_succ_self _) after (c := stored c r)
      ⟨at_head.live.stored r, at_head.ok, at_head.step, at_head.read, at_head.knows⟩ ?_)
    simp [text]
  | rejected error log =>
    have hturn : turn (stored c r) = .stop (stored c r) := by
      unfold turn
      rw [if_pos (.inr (.inr error))]
    have hrec : receive c r = stored c r := process_of_stop hturn
    rw [hrec]
    exact ⟨.rejected error log, fun hne => absurd rfl hne⟩
  | @body q n h t u lined text announced at_body length split short waits =>
    let q' : Request := { q with body := q.body ++ r.bytes }
    have hq' : q'.Lined := ⟨lined.line, lined.header, lined.blank⟩
    have htext : q'.bytes = s ++ r.bytes := by
      rw [← text]
      simp [q', Request.bytes, Request.head]
    rw [← htext] at hfirst ⊢
    refine hfirst at_body.live.log (body_arrives (c := stored c r) ⟨at_body.live.stored r, at_body.ok,
      at_body.step, at_body.read, at_body.knows⟩ hq' announced length ?_ short)
    simp [q', split]
  | served lined text announced error called ready nul length inside =>
    obtain ⟨hp', hsame⟩ := served_receive lined announced error called ready nul inside
      (hover called) hr
    exact ⟨text ▸ hp', fun hne => absurd hsame hne⟩

theorem reads_correct {reads : List Read} (hreads : ∀ r ∈ reads, r.bytes ≠ []) :
    ∀ {s : Bytes} {c : Client}, Phase s c → ReadsOk s c reads →
    bytes "POST " <+: s ++ reads.flatMap Read.bytes → Correct s c reads := by
  induction reads with
  | nil =>
    intro s c _ _ _
    trivial
  | cons r reads ih =>
    intro s c hp hok hpost
    rw [List.flatMap_cons, ← List.append_assoc] at hpost
    have hposting : Posting (s ++ r.bytes) := by
      rcases List.prefix_or_prefix_of_prefix hpost (List.prefix_append _ _) with h | h
      · exact .inr h
      · exact .inl h
    obtain ⟨hp', hserved⟩ := receive_arrives hp hok.1 hposting (hreads r List.mem_cons_self)
    exact ⟨hserved, hp'.refused,
      ih (fun x hx => hreads x (List.mem_cons_of_mem _ hx)) hp' hok.2 hpost⟩

/-- In every run whose reads are all in order, `onready` gets the body that the POST
announced, and a POST that announces none is refused. -/
theorem post_correct (reads : List Read) (hreads : ∀ r ∈ reads, r.bytes ≠ [])
    (hpost : bytes "POST " <+: reads.flatMap Read.bytes) (hok : ReadsOk [] newClient reads) :
    Correct [] newClient reads := by
  have hnew : Phase [] newClient :=
    .line ⟨⟨rfl, rfl, rfl, by decide, rfl, rfl⟩, rfl⟩ (by simp) (by simp)
  exact reads_correct hreads hnew hok (by simpa using hpost)

/-- A request without a NUL whose recognised lines have values, one of them at least. -/
theorem fine_of_request {q : Request} (hq : q.Lined) (hnul : 0 ∉ q.bytes)
    (hvalue : ∀ l ∈ q.headers, isLength l = true → (l.drop 16).all isspace = false)
    (hany : q.headers.any isLength = true) : Fine q.bytes := by
  refine ⟨.inl hnul, ?_, ?_⟩
  · intro line ls rest hs hline hls l hl
    rw [Request.bytes_eq] at hs
    obtain ⟨-, hrest⟩ := line_unique hq.line hline hs
    obtain ⟨more, hmore, -⟩ := lines_match hls hq.blank hq.header hrest.symm
    exact hvalue l (by simp [hmore, hl])
  · intro q' hq' hs _
    rw [hq'.unique hq hs]
    exact hany

theorem hello_lined : (hello [space]).Lined := by
  have hc := hello_complete (.inr rfl)
  refine ⟨hc.line_lf, fun l hl => ?_, hc.blank⟩
  obtain ⟨h1, h2, h3⟩ := hc.header l hl
  exact ⟨h1, fun h => h.elim h2 h3⟩

/-- Five announced bytes in one read. -/
theorem post_correct_hello : Correct [] newClient [⟨(hello [space]).bytes, 0⟩] := by
  have hc := hello_complete (.inr rfl)
  refine post_correct _ (by simp [Request.bytes, Request.head]) ⟨_, by simp; rfl⟩
    ⟨⟨?_, fun h => absurd rfl h⟩, trivial⟩
  refine fine_of_request hello_lined hc.nul ?_ (by decide)
  intro l hl hrec
  obtain ⟨h1, -⟩ := length_value (((hc.post rfl).2 l hl) (namesLength_of_isLength hrec)) hrec
  exact h1

/-- A POST of one byte without any header line. -/
def bare : Request :=
  { line := bytes "POST / HTTP/1.1\r", headers := [], blank := [cr], body := bytes "x" }

/-- It is not refused: `onready` runs with whatever the first read of the body brings. -/
theorem bare_not_refused :
    bytes "POST " <+: bare.bytes ∧ ¬ Correct [] newClient [⟨bare.bytes, 0⟩] := by
  have hrun : ∃ call, View.run (.line []) bare.bytes = some (.called call) := ⟨_, rfl⟩
  obtain ⟨call, hrun⟩ := hrun
  have hsim : Sim (.called call) (receive newClient ⟨bare.bytes, 0⟩) := by
    refine receive_sim newClient_sim (r := ⟨bare.bytes, 0⟩) (by decide) (by decide) ?_ hrun
    rintro t x ht hx
    cases ht
    have h4 : some space = some lf := congrArg (fun l => l[4]?) hx
    exact absurd h4 (by decide)
  refine ⟨⟨_, rfl⟩, fun h => ?_⟩
  have hq : bare.Lined := ⟨by decide, by simp [bare], .inr rfl⟩
  have hno : ¬ ∃ n, bare.Announces n := by
    rintro ⟨n, -, -, l, hl, -⟩
    simp [bare] at hl
  obtain ⟨herr, -⟩ := h.2.1 bare hq rfl hno
  cases hsim with
  | called error log => simp [error] at herr

end ApeServer.Http
