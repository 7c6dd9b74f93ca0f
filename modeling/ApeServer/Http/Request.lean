import ApeServer.Http.HttpReads

/-!
# Complete requests

When the outcome of one complete request is the same for every split of its bytes into
reads.
-/
namespace ApeServer.Http

open Sock (Bytes)

/-- A request, without the line feeds that end its lines. -/
structure Request where
  line : Bytes
  headers : List Bytes
  blank : Bytes
  body : Bytes

/-- The lines of a request, each with its line feed. -/
def lines (ls : List Bytes) : Bytes := ls.flatMap (· ++ [lf])

/-- The test for the draft-76 handshake in `process_http`. -/
def isKey (l : Bytes) : Bool := startsWith (bytes "Sec-WebSocket-Key1: ") l

/-- A header line with the name `Content-Length`. -/
def NamesLength (l : Bytes) : Prop :=
  ∃ name value, l = name ++ colon :: value ∧ name.map tolower = bytes "content-length"

/-- A valid `Content-Length` line: decimal digits, with blanks around them. -/
def LengthLine (n : ℕ) (l : Bytes) : Prop :=
  ∃ name pad ds pad' fin, l = name ++ colon :: (pad ++ ds ++ pad' ++ fin) ∧
    name.map tolower = bytes "content-length" ∧ (∀ b ∈ pad ++ pad', b = space ∨ b = 9) ∧
    ds ≠ [] ∧ (∀ b ∈ ds, isdigit b = true) ∧ digits ds = n ∧ (fin = [] ∨ fin = [cr])

namespace Request

/-- Everything up to the body. -/
def head (r : Request) : Bytes := r.line ++ lf :: (lines r.headers ++ (r.blank ++ [lf]))

def bytes (r : Request) : Bytes := r.head ++ r.body

/-- One complete request. A POST has a body of the length it announces, and the handshake of
draft 76 ends with eight bytes behind the blank line. -/
structure Complete (r : Request) : Prop where
  nul : 0 ∉ r.bytes
  line_lf : lf ∉ r.line
  header : ∀ l ∈ r.headers, lf ∉ l ∧ l ≠ [] ∧ l ≠ [cr]
  blank : r.blank = [] ∨ r.blank = [cr]
  get : r.line.take 4 = ApeServer.bytes "GET " →
    r.body.length = if r.headers.any isKey then 8 else 0
  post : r.line.take 4 = ApeServer.bytes "POST" →
    (∃ l ∈ r.headers, LengthLine r.body.length l) ∧
      ∀ l ∈ r.headers, NamesLength l → LengthLine r.body.length l

/-- A POST whose request line `process_http` accepts. -/
def IsPost (r : Request) : Prop :=
  r.line.take 4 = ApeServer.bytes "POST" ∧ r.line.getD 5 0 = slash ∧
    (scanTarget 6 (r.line.drop 6) none).1 ≠ none

/-- The word `POST` alone in a line, and something like a target in the next one. -/
def IsBare (r : Request) : Prop :=
  r.line = ApeServer.bytes "POST" ∧ ∃ l ls, r.headers = (slash :: l) :: ls ∧
    (scanTarget 6 l none).1 ≠ none

end Request

/-- How a request ends. -/
inductive Outcome where
  | rejected
  | ready (call : Call)
deriving DecidableEq

/-- A rejection without a call, or exactly one call. -/
def outcome (c : Client) : Option Outcome :=
  match c.http.error, c.log with
  | true, [] => some .rejected
  | false, [call] => some (.ready call)
  | _, _ => none

/-- The request has one outcome, whatever the reads. -/
def SplitFree (r : Request) : Prop :=
  ∃ o, ∀ reads : List Read, (∀ x ∈ reads, x.bytes ≠ []) → reads.flatMap Read.bytes = r.bytes →
    outcome (reads.foldl receive newClient) = some o

section Length

variable {l : Bytes} {n : ℕ}

theorem digit_facts {b : UInt8} (h : isdigit b = true) :
    isspace b = false ∧ b ≠ 45 ∧ b ≠ 43 ∧ tolower b ≠ space := by
  have hall : ∀ b, isdigit b = true → isspace b = false ∧ b ≠ 45 ∧ b ≠ 43 ∧ tolower b ≠ space :=
    byte_forall (by decide +kernel)
  exact hall b h

theorem tolower_colon {b : UInt8} (h : tolower b = colon) : b = colon := by
  have hall : ∀ b, tolower b = colon → b = colon := byte_forall (by decide +kernel)
  exact hall b h

/-- The name, the colon and the blank of a line `get_header_line` takes for a length. -/
theorem length_punctuation (h : isLength l = true) : 16 ≤ l.length ∧ l[14]? = some colon ∧
    l[15]? = some space ∧ (l.take 14).map tolower = bytes "content-length" := by
  simp only [isLength, decide_eq_true_eq] at h
  obtain ⟨-, hpre⟩ := h
  have hlen : 16 ≤ l.length := startsWith_length hpre
  simp only [startsWith, decide_eq_true_eq] at hpre
  have hlit : (bytes "content-length: ").length = 16 := by decide
  rw [hlit] at hpre
  have hspace : ∀ b, tolower b = space → b = space := byte_forall (by decide +kernel)
  refine ⟨hlen, ?_, ?_, ?_⟩
  · rw [List.getElem?_eq_getElem (by omega), tolower_colon (b := l[14]) ?_]
    have h14 := congrArg (fun x => x[14]?) hpre
    simp only [List.getElem?_map, List.getElem?_take] at h14
    simpa [show 14 < l.length by omega, bytes, tolower, colon] using h14
  · rw [List.getElem?_eq_getElem (by omega), hspace l[15] ?_]
    have h15 := congrArg (fun x => x[15]?) hpre
    simp only [List.getElem?_map, List.getElem?_take] at h15
    simpa [show 15 < l.length by omega, bytes, tolower, space] using h15
  · have h14 := congrArg (List.take 14) hpre
    rw [← List.map_take, List.take_take] at h14
    simpa [bytes, tolower] using h14

/-- Such a line, cut behind its colon. -/
theorem length_cut (h : isLength l = true) : l.take 14 ++ colon :: l.drop 15 = l := by
  obtain ⟨hlen, hcolon, -⟩ := length_punctuation h
  rw [← (List.getElem?_eq_some_iff.mp hcolon).2, List.getElem_cons_drop, List.take_append_drop]

theorem namesLength_of_isLength (h : isLength l = true) : NamesLength l :=
  ⟨l.take 14, l.drop 15, (length_cut h).symm, (length_punctuation h).2.2.2⟩

theorem dropWhile_blanks {pad y : Bytes} (h : ∀ b ∈ pad, b = space ∨ b = 9) :
    (pad ++ y).dropWhile isspace = y.dropWhile isspace := by
  induction pad with
  | nil => rfl
  | cons b pad ih =>
    have hb : isspace b = true := by
      rcases h b List.mem_cons_self with rfl | rfl <;> decide
    rw [List.cons_append, List.dropWhile_cons, if_pos hb]
    exact ih fun c hc => h c (List.mem_cons_of_mem _ hc)

theorem takeWhile_digits {ds y : Bytes} (hds : ∀ b ∈ ds, isdigit b = true)
    (hy : ∀ b, y.head? = some b → isdigit b = false) : (ds ++ y).takeWhile isdigit = ds := by
  induction ds with
  | nil =>
    cases y with
    | nil => rfl
    | cons b y => simp [hy b rfl]
  | cons b ds ih =>
    rw [List.cons_append, List.takeWhile_cons, if_pos (hds b List.mem_cons_self),
      ih fun c hc => hds c (List.mem_cons_of_mem _ hc)]

/-- The number that a recognised line announces is the one `atoi` finds. -/
theorem length_value (h : LengthLine n l) (hrec : isLength l = true) :
    (l.drop 16).all isspace = false ∧ atoi (l.drop 16) = n := by
  obtain ⟨name, pad, ds, pad', fin, rfl, hname, hpad, hds, hdigit, hn, hfin⟩ := h
  have hlen : name.length = 14 := by
    have := congrArg List.length hname
    simpa [bytes] using this
  obtain ⟨d, ds, rfl⟩ := List.exists_cons_of_ne_nil hds
  have ⟨hspace, hminus, hplus, hlower⟩ := digit_facts (hdigit d List.mem_cons_self)
  -- the byte behind the colon is a blank
  have hpadne : pad ≠ [] := by
    rintro rfl
    simp only [isLength, decide_eq_true_eq, startsWith,
      show (bytes "content-length: ").length = 16 by decide] at hrec
    have h15 := congrArg (fun x => x[15]?) hrec.2
    simp [List.getElem?_append_right, hlen, bytes] at h15
    exact hlower (h15.trans (by decide))
  obtain ⟨b, pad, rfl⟩ := List.exists_cons_of_ne_nil hpadne
  have hdrop : (name ++ colon :: (b :: pad ++ d :: ds ++ pad' ++ fin)).drop 16 =
      pad ++ (d :: ds ++ (pad' ++ fin)) := by
    rw [show 16 = name.length + 2 by omega, List.drop_length_add_append]
    simp
  have hrest : ∀ c, (pad' ++ fin).head? = some c → isdigit c = false := by
    intro c hc
    have hcases : c = space ∨ c = 9 ∨ c = cr := by
      cases pad' with
      | nil =>
        rcases hfin with rfl | rfl
        · cases hc
        · cases hc
          exact .inr (.inr rfl)
      | cons e pad' =>
        cases hc
        rcases hpad c (by simp) with h1 | h1
        · exact .inl h1
        · exact .inr (.inl h1)
    rcases hcases with rfl | rfl | rfl <;> decide
  rw [hdrop]
  constructor
  · rw [List.all_eq_false]
    exact ⟨d, by simp, by simp [hspace]⟩
  · have hblanks : ∀ c ∈ pad, c = space ∨ c = 9 := fun c hc => hpad c (by simp [hc])
    have hskip : (pad ++ (d :: ds ++ (pad' ++ fin))).dropWhile isspace =
        d :: (ds ++ (pad' ++ fin)) := by
      rw [dropWhile_blanks hblanks, List.cons_append, List.dropWhile_cons, if_neg (by simp [hspace])]
    have htake : (d :: (ds ++ (pad' ++ fin))).takeWhile isdigit = d :: ds :=
      takeWhile_digits hdigit hrest
    simp only [atoi, hskip, hminus, hplus, if_false, htake, hn]

end Length

section Fields

variable {h : Head} {l : Bytes} {ls : List Bytes} {n : ℕ}

/-- A line that the view of `headers` reads as a field. -/
structure Field (l : Bytes) : Prop where
  nul : 0 ∉ l
  noLf : lf ∉ l
  notBlank : ¬ (l = [] ∨ l = [cr])

theorem lines_cons (l : Bytes) (ls : List Bytes) : lines (l :: ls) = l ++ lf :: lines ls := by
  simp [lines]

theorem lines_nul (hls : ∀ l ∈ ls, Field l) : 0 ∉ lines ls := by
  intro h0
  obtain ⟨l, hl, h0⟩ := List.mem_flatMap.mp h0
  rcases List.mem_append.mp h0 with h0 | h0
  · exact (hls l hl).nul h0
  · exact absurd (List.mem_singleton.mp h0) (by decide)

theorem run_field (hl : Field l) (u : Bytes) :
    View.run (.head h []) (l ++ lf :: u) = (View.fieldDone h l).bind fun w => View.run w u := by
  rw [View.run_head_lf hl.nul hl.noLf, View.headDone, if_neg hl.notBlank]

theorem field_post (htype : h.type = .post) (hlen : NamesLength l → LengthLine n l) :
    (isLength l = true ∧ View.fieldDone h l = some .rejected) ∨
      ∃ h', View.fieldDone h l = some (.head h' []) ∧ h'.type = .post ∧
        h'.contentlength = (if isLength l then (n : ℤ) else h.contentlength) ∧
        (isLength l = true → 1 ≤ n) := by
  have htype' : (View.addField (View.addText h l) (parseHeaderLine l)).type = .post := by
    rw [addField_type]
    exact htype
  have hcl : (View.addField (View.addText h l) (parseHeaderLine l)).contentlength =
      h.contentlength := by
    cases parseHeaderLine l <;> rfl
  unfold View.fieldDone
  simp only [htype']
  by_cases hrec : isLength l = true
  · obtain ⟨hspace, hatoi⟩ := length_value (hlen (namesLength_of_isLength hrec)) hrec
    simp only [if_pos hrec, hspace, Bool.false_eq_true, if_false, hatoi]
    split
    · exact .inl ⟨hrec, rfl⟩
    · next hrange =>
      exact .inr ⟨_, rfl, rfl, rfl, fun _ => by omega⟩
  · simp only [if_neg hrec]
    exact .inr ⟨_, rfl, htype', hcl, fun h1 => absurd h1 hrec⟩

theorem fields_post (htype : h.type = .post) (hls : ∀ l ∈ ls, Field l)
    (hlen : ∀ l ∈ ls, NamesLength l → LengthLine n l) :
    (ls.any isLength = true ∧ View.run (.head h []) (lines ls) = some .rejected) ∨
      ∃ h', View.run (.head h []) (lines ls) = some (.head h' []) ∧ h'.type = .post ∧
        h'.contentlength = (if ls.any isLength then (n : ℤ) else h.contentlength) ∧
        (ls.any isLength = true → 1 ≤ n) := by
  induction ls generalizing h with
  | nil => exact .inr ⟨h, rfl, htype, rfl, fun h0 => absurd h0 (by simp)⟩
  | cons l ls ih =>
    have hfield := hls l List.mem_cons_self
    have hrest : ∀ l ∈ ls, Field l := fun l hl => hls l (List.mem_cons_of_mem _ hl)
    rw [lines_cons, run_field hfield]
    simp only [List.any_cons]
    rcases field_post htype (hlen l List.mem_cons_self) with ⟨hrec, hrej⟩ | ⟨h₁, hdone, ht₁, hc₁, hn₁⟩
    · refine .inl ⟨by simp [hrec], ?_⟩
      rw [hrej]
      exact View.run_rejected (lines_nul hrest)
    · rw [hdone, Option.bind_some]
      rcases ih ht₁ hrest (fun l hl => hlen l (List.mem_cons_of_mem _ hl)) with
        ⟨hrec, hrej⟩ | ⟨h₂, hrun, ht₂, hc₂, hn₂⟩
      · exact .inl ⟨by simp [hrec], hrej⟩
      · refine .inr ⟨h₂, hrun, ht₂, ?_, ?_⟩
        · rw [hc₂, hc₁]
          rcases Bool.eq_false_or_eq_true (isLength l) with h1 | h1
          · simp only [h1, Bool.true_or, if_true, ite_self]
          · simp only [h1, Bool.false_or, Bool.false_eq_true, if_false]
        · intro hany
          rcases Bool.or_eq_true_iff.mp hany with h0 | h0
          · exact hn₁ h0
          · exact hn₂ h0

theorem fields_get (htype : h.type = .get ∨ h.type = .getWs) (hls : ∀ l ∈ ls, Field l) :
    ∃ h', View.run (.head h []) (lines ls) = some (.head h' []) ∧
      h'.type = if ls.any isKey = true ∨ h.type = .getWs then .getWs else .get := by
  induction ls generalizing h with
  | nil =>
    refine ⟨h, rfl, ?_⟩
    rcases htype with htype | htype <;> simp [htype]
  | cons l ls ih =>
    have hfield := hls l List.mem_cons_self
    have hrest : ∀ l ∈ ls, Field l := fun l hl => hls l (List.mem_cons_of_mem _ hl)
    rw [lines_cons, run_field hfield]
    have htype' : (View.addField (View.addText h l) (parseHeaderLine l)).type = h.type :=
      addField_type _ _
    obtain ⟨h₁, hdone, ht₁⟩ : ∃ h₁, View.fieldDone h l = some (.head h₁ []) ∧
        h₁.type = if isKey l = true ∨ h.type = .getWs then .getWs else .get := by
      unfold View.fieldDone
      rcases htype with htype | htype
      · simp only [htype', htype]
        by_cases hkey : isKey l = true
        · have hkey' : startsWith (bytes "Sec-WebSocket-Key1: ") l = true := hkey
          exact ⟨_, if_pos hkey', by simp [hkey]⟩
        · have hkey' : ¬ startsWith (bytes "Sec-WebSocket-Key1: ") l = true := hkey
          exact ⟨_, if_neg hkey', by simp [hkey, htype', htype]⟩
      · simp only [htype', htype]
        exact ⟨_, rfl, by simp [htype', htype]⟩
    rw [hdone, Option.bind_some]
    have htype₁ : h₁.type = .get ∨ h₁.type = .getWs := by
      rw [ht₁]
      split
      · exact .inr rfl
      · exact .inl rfl
    obtain ⟨h₂, hrun, ht₂⟩ := ih htype₁ hrest
    refine ⟨h₂, hrun, ?_⟩
    rw [ht₂, ht₁]
    cases hk : isKey l <;> cases ha : ls.any isKey <;> rcases htype with ht | ht <;>
      simp [hk, ha, ht]

end Fields

theorem run_body_exact {h : Head} {t u : Bytes} (hu : 0 ∉ u) (hne : u ≠ [])
    (hcl : h.contentlength = (t ++ u).length) :
    View.run (.body h t) u = some (.called (h.call (some (t ++ u)))) := by
  induction u generalizing t with
  | nil => exact absurd rfl hne
  | cons b u ih =>
    have ⟨hb, hu⟩ : 0 ≠ b ∧ 0 ∉ u := by simpa using hu
    simp only [View.run, View.byte, hb.symm, if_false, Option.bind_some, View.bodyDone, hcl]
    cases u with
    | nil =>
      rw [if_pos le_rfl]
      rfl
    | cons b' u =>
      rw [if_neg (by simp)]
      have hnext := ih (t := t ++ [b]) hu (by simp) (by rw [hcl]; simp)
      simpa using hnext

theorem run_body_one {h : Head} {b : UInt8} (hb : b ≠ 0) (hcl : h.contentlength = -1) :
    View.run (.body h []) [b] = some (.called (h.call (some [b]))) := by
  simp [View.run, View.byte, hb, View.bodyDone, hcl]

namespace Request

variable {r : Request}

theorem Complete.field (hc : r.Complete) : ∀ l ∈ r.headers, Field l := by
  intro l hl
  obtain ⟨hlf, hne, hcr⟩ := hc.header l hl
  refine ⟨fun h0 => hc.nul ?_, hlf, fun h0 => ?_⟩
  · have hmem : 0 ∈ lines r.headers := List.mem_flatMap.mpr ⟨l, hl, List.mem_append_left _ h0⟩
    simp only [bytes, head, List.mem_append, List.mem_cons]
    exact .inl (.inr (.inr (.inl hmem)))
  · rcases h0 with h0 | h0
    · exact hne h0
    · exact hcr h0

theorem Complete.line_nul (hc : r.Complete) : 0 ∉ r.line := fun h0 =>
  hc.nul (by simp [bytes, head, h0])

theorem Complete.body_nul (hc : r.Complete) : 0 ∉ r.body := fun h0 =>
  hc.nul (by simp [bytes, h0])

theorem Complete.head_nul (hc : r.Complete) : 0 ∉ r.head := fun h0 =>
  hc.nul (List.mem_append_left _ h0)

theorem Complete.blank_nul (hc : r.Complete) : 0 ∉ r.blank ∧ lf ∉ r.blank := by
  rcases hc.blank with h | h <;> rw [h] <;> decide

/-- The view behind the request line. -/
theorem run_head_eq (hc : r.Complete) : View.run (.line []) r.head =
    View.run (View.lineDone r.line) (lines r.headers ++ (r.blank ++ [lf])) :=
  View.run_line_lf hc.line_nul hc.line_lf

theorem run_blank (hc : r.Complete) (h : Head) :
    View.run (.head h []) (r.blank ++ [lf]) = some (View.blankDone h r.blank) := by
  rw [View.run_head_lf hc.blank_nul.1 hc.blank_nul.2, View.headDone, if_pos hc.blank]
  rfl

theorem run_head_rejected (hc : r.Complete) (hrej : View.lineDone r.line = .rejected) :
    View.run (.line []) r.head = some .rejected := by
  rw [run_head_eq hc, hrej]
  refine View.run_rejected fun h0 => hc.head_nul ?_
  simp only [head, List.mem_append, List.mem_cons] at h0 ⊢
  exact .inr (.inr h0)

theorem lineDone_post (hp : r.IsPost) : ∃ h, View.lineDone r.line = .head h [] ∧ h.type = .post ∧
    h.contentlength = -1 := by
  obtain ⟨h4, hslash, hscan⟩ := hp
  have hget : r.line.take 4 ≠ ApeServer.bytes "GET " := by
    rw [h4]
    decide
  unfold View.lineDone View.targetDone
  rw [if_neg hget, if_pos h4, if_neg (by simpa using hslash)]
  cases hs : scanTarget 6 (r.line.drop 6) none with
  | mk found query =>
    cases found with
    | none => simp [hs] at hscan
    | some e => exact ⟨_, rfl, rfl, rfl⟩

/-- The lines of a POST that is accepted. -/
theorem head_post (hc : r.Complete) (hp : r.IsPost) :
    (r.headers.any isLength = true ∧ View.run (.line []) r.head = some .rejected) ∨
      ∃ h, View.run (.line []) r.head = some (.body h []) ∧
        h.contentlength = (if r.headers.any isLength then (r.body.length : ℤ) else -1) ∧
        (r.headers.any isLength = true → 1 ≤ r.body.length) := by
  obtain ⟨h, hline, htype, hcl⟩ := lineDone_post hp
  rw [run_head_eq hc, hline, View.run_append]
  rcases fields_post htype hc.field (hc.post hp.1).2 with ⟨hany, hrun⟩ | ⟨h', hrun, ht', hc', hn'⟩
  · refine .inl ⟨hany, ?_⟩
    rw [hrun]
    exact View.run_rejected (by simp [hc.blank_nul.1, show (0 : UInt8) ≠ lf by decide])
  · refine .inr ⟨View.addText h' r.blank, ?_, ?_, hn'⟩
    · rw [hrun, Option.bind_some, run_blank hc, View.blankDone]
      simp only [ht']
    · rw [← hcl]
      exact hc'

/-- A request line that starts like a GET. -/
theorem lineDone_get (h4 : r.line.take 4 = ApeServer.bytes "GET ") :
    View.lineDone r.line = .rejected ∨ ∃ h, View.lineDone r.line = .head h [] ∧ h.type = .get := by
  unfold View.lineDone View.targetDone
  rw [if_pos h4]
  split
  · exact .inl rfl
  · split
    · exact .inl rfl
    · exact .inr ⟨_, rfl, rfl⟩

theorem head_get (hc : r.Complete) (h4 : r.line.take 4 = ApeServer.bytes "GET ") :
    View.run (.line []) r.head = some .rejected ∨
      (r.headers.any isKey = false ∧ ∃ call, View.run (.line []) r.head = some (.called call)) ∨
      (r.headers.any isKey = true ∧ ∃ h, View.run (.line []) r.head = some (.body h []) ∧
        h.contentlength = 8) := by
  rcases lineDone_get h4 with hrej | ⟨h, hline, htype⟩
  · exact .inl (run_head_rejected hc hrej)
  · obtain ⟨h', hrun, ht'⟩ := fields_get (.inl htype) hc.field
    have hblank : View.run (.line []) r.head = some (View.blankDone h' r.blank) := by
      rw [run_head_eq hc, hline, View.run_append, hrun, Option.bind_some, run_blank hc]
    right
    cases hany : r.headers.any isKey with
    | false =>
      have hget : h'.type = .get := by simpa [hany, htype] using ht'
      refine .inl ⟨rfl, ?_⟩
      rw [hblank, View.blankDone, hget]
      exact ⟨_, rfl⟩
    | true =>
      have hws : h'.type = .getWs := by simpa [hany] using ht'
      refine .inr ⟨rfl, ?_⟩
      rw [hblank, View.blankDone, hws]
      exact ⟨_, rfl, rfl⟩

theorem lineDone_not_post (h4 : r.line.take 4 = ApeServer.bytes "POST") (hp : ¬ r.IsPost) :
    View.lineDone r.line = .rejected := by
  have hget : r.line.take 4 ≠ ApeServer.bytes "GET " := by
    rw [h4]
    decide
  unfold View.lineDone View.targetDone
  rw [if_neg hget, if_pos h4]
  split
  · rfl
  · next hslash =>
    have hscan : (scanTarget 6 (r.line.drop 6) none).1 = none := by
      by_contra hne
      exact hp ⟨h4, by simpa using hslash, hne⟩
    split
    · rfl
    · next e query hs => simp [hs] at hscan

/-- The condition: a line that is `POST` alone is not followed by what looks like a target,
and of the `Content-Length` lines of a POST one is recognised or the body is one byte. -/
structure Understood (r : Request) : Prop where
  notBare : ¬ r.IsBare
  length : r.IsPost → r.headers.any isLength = true ∨ r.body.length = 1

/-- The view of an understood request ends with a rejection or with the call. -/
theorem run_understood (hc : r.Complete) (hu : r.Understood) :
    View.run (.line []) r.bytes = some .rejected ∨
      ∃ call, View.run (.line []) r.bytes = some (.called call) := by
  have hrej : View.run (.line []) r.head = some .rejected →
      View.run (.line []) r.bytes = some .rejected := by
    intro h
    rw [bytes, View.run_append, h]
    exact View.run_rejected hc.body_nul
  have hbody : ∀ h : Head, View.run (.line []) r.head = some (.body h []) →
      (h.contentlength = r.body.length ∧ r.body ≠ []) ∨
        (h.contentlength = -1 ∧ r.body.length = 1) →
      ∃ call, View.run (.line []) r.bytes = some (.called call) := by
    intro h hrun hfull
    refine ⟨h.call (some r.body), ?_⟩
    rw [bytes, View.run_append, hrun, Option.bind_some]
    rcases hfull with ⟨hcl, hne⟩ | ⟨hcl, hone⟩
    · simpa using run_body_exact (t := []) hc.body_nul hne (by simpa using hcl)
    · obtain ⟨b, hb⟩ := List.length_eq_one_iff.mp hone
      rw [hb]
      refine run_body_one ?_ hcl
      rintro rfl
      exact hc.body_nul (by simp [hb])
  by_cases h4 : r.line.take 4 = ApeServer.bytes "GET "
  · have hlen := hc.get h4
    rcases head_get hc h4 with hrun | ⟨hany, call, hrun⟩ | ⟨hany, h, hrun, hcl⟩
    · exact .inl (hrej hrun)
    · rw [hany] at hlen
      have hnil : r.body = [] := List.length_eq_zero_iff.mp (by simpa using hlen)
      refine .inr ⟨call, ?_⟩
      rw [bytes, hnil, List.append_nil, hrun]
    · rw [hany] at hlen
      have h8 : r.body.length = 8 := by simpa using hlen
      refine .inr (hbody h hrun (.inl ⟨by omega, ?_⟩))
      rintro hnil
      simp [hnil] at h8
  · by_cases h4' : r.line.take 4 = ApeServer.bytes "POST"
    · by_cases hp : r.IsPost
      · rcases head_post hc hp with ⟨-, hrun⟩ | ⟨h, hrun, hcl, hpos⟩
        · exact .inl (hrej hrun)
        · refine .inr (hbody h hrun ?_)
          by_cases hany : r.headers.any isLength = true
          · rw [if_pos hany] at hcl
            refine .inl ⟨hcl, fun hnil => ?_⟩
            have := hpos hany
            simp [hnil] at this
          · rw [if_neg hany] at hcl
            exact .inr ⟨hcl, (hu.length hp).resolve_left hany⟩
      · exact .inl (hrej (run_head_rejected hc (lineDone_not_post h4' hp)))
    · refine .inl (hrej (run_head_rejected hc ?_))
      rw [View.lineDone, if_neg h4, if_neg h4']

/-- No target behind the word `POST` in any part of the request that has arrived. -/
theorem noTarget (hc : r.Complete) (hbare : ¬ r.IsBare) {x : Bytes}
    (hx : r.bytes = ApeServer.bytes "POST" ++ lf :: x) : NoTarget x := by
  have hsplit : r.bytes = r.line ++ lf :: (lines r.headers ++ (r.blank ++ [lf]) ++ r.body) := by
    simp [bytes, head]
  have hlen : r.line.length = (ApeServer.bytes "POST").length := by
    have h1 := seof_lf (x := lines r.headers ++ (r.blank ++ [lf]) ++ r.body) hc.line_nul hc.line_lf
    have h2 : seof lf (ApeServer.bytes "POST" ++ lf :: x) = some ((ApeServer.bytes "POST").length + 1) :=
      seof_lf (by decide) (by decide)
    rw [← hsplit, hx, h2] at h1
    simp only [Option.some.injEq] at h1
    omega
  obtain ⟨hline, hrest⟩ := List.append_inj (hsplit.symm.trans hx) hlen
  have hrest := (List.cons.inj hrest).2
  intro hslash
  rw [← hrest] at hslash ⊢
  cases hh : r.headers with
  | nil =>
    rcases hc.blank with hb | hb <;> simp [hh, hb, lines, lf, cr, slash] at hslash
  | cons l ls =>
    rw [hh] at hslash
    rw [lines_cons] at hslash ⊢
    cases l with
    | nil => exact absurd rfl (hc.header [] (by simp [hh])).2.1
    | cons b l =>
      have hb : b = slash := by simpa using hslash
      subst hb
      by_contra hne
      refine hbare ⟨hline, l, ls, hh, ?_⟩
      simp only [List.cons_append, List.append_assoc, List.tail_cons] at hne
      rwa [scanTarget_end (by decide) _ _ none] at hne

theorem splitFree_of_understood (hc : r.Complete) (hu : r.Understood) : SplitFree r := by
  have hsim : ∀ w, View.run (.line []) r.bytes = some w → ∀ reads : List Read,
      (∀ x ∈ reads, x.bytes ≠ []) → reads.flatMap Read.bytes = r.bytes →
      Sim w (reads.foldl receive newClient) := by
    intro w hw reads hreads hbytes
    refine reads_sim hreads newClient_sim (hbytes ▸ hc.nul) ?_ (hbytes ▸ hw)
    intro t x ht hx
    cases ht
    rw [List.nil_append, hbytes] at hx
    exact noTarget hc hu.notBare hx
  rcases run_understood hc hu with hw | ⟨call, hw⟩
  · refine ⟨.rejected, fun reads hreads hbytes => ?_⟩
    cases hsim _ hw reads hreads hbytes with
    | rejected error log => simp [outcome, error, log]
  · refine ⟨.ready call, fun reads hreads hbytes => ?_⟩
    cases hsim _ hw reads hreads hbytes with
    | called error log => simp [outcome, error, log]

end Request

/-- The client that a call leaves, or hands to its recursive call. -/
def Turn.client : Turn → Client
  | .go c => c
  | .stop c => c

theorem decodeUri_log (c : Client) : c.decodeUri.log = c.log := by
  unfold Client.decodeUri
  split <;> rfl

theorem requestLine_log (c : Client) : (requestLine c).client.log = c.log := by
  have htarget : ∀ pos type p, (target c pos type p).client.log = c.log := by
    intro pos type p
    unfold target
    simp only
    split
    · rfl
    · split <;> rfl
  unfold requestLine
  split
  · rfl
  · split
    · exact htarget _ _ _
    · split
      · exact htarget _ _ _
      · rfl

theorem headerLine_log (c : Client) (pos : ℕ) : (headerLine c pos).client.log = c.log := by
  unfold headerLine
  simp only
  split
  · split
    · split <;> rfl
    · rfl
  · split <;> rfl
  · rfl

theorem headers_log (c : Client) : ∃ more, (headers c).client.log = c.log ++ more := by
  unfold headers
  split
  · exact ⟨[], by simp [Turn.client]⟩
  · split
    · unfold blankLine startBody
      split
      · exact ⟨_, congrArg (· ++ _) (decodeUri_log _)⟩
      · exact ⟨[], by simp [Turn.client]⟩
      · split <;> exact ⟨[], by simp [Turn.client, Client.reject]⟩
    · exact ⟨[], by rw [headerLine_log, List.append_nil]⟩

theorem body_log (c : Client) : ∃ more, (body c).log = c.log ++ more := by
  unfold body
  simp only
  split
  · exact ⟨_, congrArg (· ++ _) (decodeUri_log _)⟩
  · exact ⟨[], by simp⟩

/-- Calls of `onready` are not taken back. -/
theorem turn_log (c : Client) : ∃ more, (turn c).client.log = c.log ++ more := by
  unfold turn
  split
  · exact ⟨[], by simp [Turn.client]⟩
  · simp only
    split
    · exact ⟨[], by simp [Turn.client]⟩
    · have hlog := (rebase_rest { c with mem := poke c.mem c.length 0 }).2.2.1
      simp only at hlog
      split
      · exact ⟨[], by rw [requestLine_log, hlog, List.append_nil]⟩
      · obtain ⟨more, hmore⟩ := headers_log ({ c with mem := poke c.mem c.length 0 }).rebase
        exact ⟨more, hmore.trans (by rw [hlog])⟩
      · obtain ⟨more, hmore⟩ := body_log ({ c with mem := poke c.mem c.length 0 }).rebase
        exact ⟨more, hmore.trans (by rw [hlog])⟩

theorem process_log (c : Client) : ∃ more, (processHttp c).log = c.log ++ more := by
  induction c using processHttp.induct with
  | case1 c t hturn =>
    rw [process_of_stop hturn]
    have hlog := turn_log c
    rwa [hturn] at hlog
  | case2 c t hturn ih =>
    rw [process_of_go hturn]
    obtain ⟨more, hmore⟩ := ih
    obtain ⟨more', hmore'⟩ := turn_log c
    rw [hturn] at hmore'
    refine ⟨more' ++ more, ?_⟩
    rw [hmore, ← List.append_assoc, ← hmore']
    rfl

section Bare

variable {c : Client} {l y : Bytes}

/-- The client behind the word `POST` alone and a target found in the next line. -/
theorem bare_go (hc : AtLine (bytes "POST" ++ lf :: slash :: (l ++ lf :: y)) c)
    (hl : 0 ∉ l) (hy : 0 ∉ y) (hscan : (scanTarget 6 l none).1 ≠ none) :
    ∃ t k, turn c = .go t ∧ k < l.length ∧ t.http.step = .headers ∧
      Live (bytes "POST" ++ [lf]) (slash :: (l.take k ++ 0 :: (l.drop (k + 1) ++ lf :: y))) t := by
  have hlive := hc.live.of_entered
  have hhttp := hc.entered_http
  obtain ⟨junk, hmem⟩ := hc.live.entered_mem
  have hmem' : (entered c).mem = [80, 79, 83, 84, lf, slash] ++ (l ++ lf :: (y ++ 0 :: junk)) := by
    rw [hmem, show bytes "POST" = [80, 79, 83, 84] by decide]
    simp
  have hrest : (entered c).rest = [80, 79, 83, 84, lf, slash] ++ (l ++ lf :: (y ++ 0 :: junk)) := by
    rw [Client.rest, hmem', hlive.pos]
    rfl
  have hnul : 0 ∉ bytes "POST" ++ lf :: slash :: (l ++ lf :: y) := by
    simp [hl, hy, show (0 : UInt8) ≠ lf by decide, show (0 : UInt8) ≠ slash by decide,
      show (0 : UInt8) ∉ bytes "POST" by decide]
  have hturn := hc.live.turn_eq (by simp) hnul
  have hstep : c.http.step = .requestLine := by
    rw [hc.http]
    rfl
  cases hs : scanTarget 6 l none with
  | mk found query =>
    cases found with
    | none => simp [hs] at hscan
    | some e =>
      obtain ⟨he, he', -⟩ := scanTarget_bounds hs
      obtain ⟨k, rfl⟩ := Nat.exists_eq_add_of_le he
      have hk : k < l.length := by omega
      have hfound := scanTarget_append (x := lf :: (y ++ 0 :: junk)) hs
      have hpoke : poke (entered c).mem (6 + k) 0 = [80, 79, 83, 84, lf, slash] ++
          (l.take k ++ 0 :: (l.drop (k + 1) ++ lf :: (y ++ 0 :: junk))) := by
        rw [hmem']
        refine (poke_append [80, 79, 83, 84, lf, slash] _ k 0).trans ?_
        rw [poke, List.take_append_of_le_length hk.le, List.drop_append_of_le_length hk]
      have htarget : ∃ http : State, target (entered c) 5 .post 5 =
          .go { entered c with mem := poke (entered c).mem (6 + k) 0, http } ∧ http.pos = 5 ∧
          http.step = .headers ∧ http.error = false := by
        have hrest' : Client.rest { entered c with http := { (entered c).http with
            type := .post } } = [80, 79, 83, 84, lf, slash] ++ (l ++ lf :: (y ++ 0 :: junk)) :=
          hrest
        have hpos : (entered c).http.pos = 0 := hlive.pos
        unfold target
        simp only [hrest']
        rw [if_neg (by simp)]
        simp only [List.cons_append, List.nil_append, Nat.reduceAdd, List.drop_succ_cons,
          List.drop_zero, hfound, hpos, Nat.zero_add]
        refine ⟨_, rfl, rfl, rfl, ?_⟩
        cases query <;> exact hlive.error
      obtain ⟨http, ht, hpos, hhs, herr⟩ := htarget
      refine ⟨{ entered c with mem := poke (entered c).mem (6 + k) 0, http }, k, ?_, hk, hhs, ?_⟩
      · have hseof : seof lf (entered c).rest = some 5 := by
          rw [hrest]
          rfl
        have htake : (entered c).rest.take 4 = bytes "POST" := by
          rw [hrest]
          rfl
        have hget : (entered c).rest.take 4 ≠ bytes "GET " := by
          rw [htake]
          decide
        rw [← ht, hturn]
        simp only [hstep, requestLine, hseof]
        rw [if_neg hget, if_pos htake]
      · have htext : (bytes "POST" ++ [lf]) ++ slash :: (l.take k ++ 0 :: (l.drop (k + 1) ++ lf :: y)) =
            [80, 79, 83, 84, lf, slash] ++ (l.take k ++ 0 :: (l.drop (k + 1) ++ lf :: y)) := by
          rw [show bytes "POST" = [80, 79, 83, 84] by decide]
          rfl
        have hlength : (entered c).length = ((bytes "POST" ++ [lf]) ++
            slash :: (l.take k ++ 0 :: (l.drop (k + 1) ++ lf :: y))).length := by
          rw [hlive.length]
          simp only [List.length_append, List.length_cons, List.length_take, List.length_drop,
            List.length_nil]
          omega
        refine ⟨?_, hlength, hpos, hlive.ready, herr, hlive.log⟩
        have hmem₂ : poke (entered c).mem (6 + k) 0 = ((bytes "POST" ++ [lf]) ++
            slash :: (l.take k ++ 0 :: (l.drop (k + 1) ++ lf :: y))) ++ 0 :: junk := by
          rw [hpoke, htext]
          simp
        simp only [hmem₂, hlength]
        exact List.take_left

/-- With a target in the next line, a call behind the word `POST` alone ends nowhere: the NUL
behind that target hides the line feed of its line for good. -/
theorem bare_stuck (hc : AtLine (bytes "POST" ++ lf :: slash :: (l ++ lf :: y)) c)
    (hl : 0 ∉ l) (hlf : lf ∉ l) (hy : 0 ∉ y) (hscan : (scanTarget 6 l none).1 ≠ none) :
    outcome (processHttp c) = none := by
  obtain ⟨t, k, hgo, -, hstep, hlive⟩ := bare_go hc hl hy hscan
  have hturn := hlive.turn_cons (by decide)
  obtain ⟨junk, hrest⟩ := hlive.entered_rest
  have hnul : 0 ∉ slash :: l.take k := by
    intro h0
    rcases List.mem_cons.mp h0 with h0 | h0
    · exact absurd h0 (by decide)
    · exact hl (List.mem_of_mem_take h0)
  have hnoLf : lf ∉ slash :: l.take k := by
    intro h0
    rcases List.mem_cons.mp h0 with h0 | h0
    · exact absurd h0 (by decide)
    · exact hlf (List.mem_of_mem_take h0)
  have hrest' : (entered t).rest =
      slash :: l.take k ++ 0 :: (l.drop (k + 1) ++ lf :: y ++ 0 :: junk) := by
    rw [hrest]
    simp
  simp only [hstep, headers, hrest', seof_nul hnul hnoLf] at hturn
  rw [process_of_go hgo, process_of_stop hturn]
  have hend := hlive.of_entered
  simp [outcome, hend.error, hend.log]

end Bare

namespace Request

variable {r : Request}

theorem single_bytes (x : Bytes) : [Read.mk x 0].flatMap Read.bytes = x := by simp

/-- A request that starts with the word alone and has a target in the next line gets no
outcome from a single read. -/
theorem not_bare (hc : r.Complete) (hs : SplitFree r) : ¬ r.IsBare := by
  rintro ⟨hline, l, ls, hheaders, hscan⟩
  obtain ⟨o, ho⟩ := hs
  have hfield := hc.field (slash :: l) (by simp [hheaders])
  have hbytes : r.bytes = ApeServer.bytes "POST" ++ lf :: slash :: (l ++ lf ::
      (lines ls ++ (r.blank ++ [lf]) ++ r.body)) := by
    simp [bytes, head, hline, hheaders, lines_cons]
  have hne : r.bytes ≠ [] := by simp [hbytes]
  have hnul := hc.nul
  rw [hbytes] at hnul
  have hsingle := ho [⟨r.bytes, 0⟩] (by simpa using hne) (single_bytes _)
  have hlive : AtLine ([] ++ r.bytes) (stored newClient ⟨r.bytes, 0⟩) :=
    ⟨(Live.stored (d := []) (u := []) ⟨rfl, rfl, rfl, by decide, rfl, rfl⟩ ⟨r.bytes, 0⟩), rfl⟩
  rw [List.nil_append, hbytes] at hlive
  have hstuck := bare_stuck hlive (fun h0 => hfield.nul (List.mem_cons_of_mem _ h0))
    (fun h0 => hfield.noLf (List.mem_cons_of_mem _ h0))
    (fun h0 => hnul (List.mem_append_right _ (List.mem_cons_of_mem _ (List.mem_cons_of_mem _
      (List.mem_append_right _ (List.mem_cons_of_mem _ h0)))))) hscan
  rw [← hbytes] at hstuck
  exact absurd (hstuck.symm.trans hsingle) (by simp)

/-- The client behind a read of the lines of a request. -/
theorem head_sim (hc : r.Complete) (hbare : ¬ r.IsBare) {w : View}
    (hrun : View.run (.line []) r.head = some w) : Sim w (receive newClient ⟨r.head, 0⟩) := by
  have hne : r.head ≠ [] := by simp [head]
  refine receive_sim newClient_sim hne hc.head_nul ?_ hrun
  intro t x ht hx
  cases ht
  refine NoTarget.of_append (y := r.body) (noTarget hc hbare ?_)
  have hx : r.head = ApeServer.bytes "POST" ++ lf :: x := hx
  rw [bytes, hx, List.append_assoc, List.cons_append]

/-- Without a recognised length, the first read of the body is all of it. -/
theorem first_read_called {h : Head} {c : Client} (hs : Sim (.body h []) c)
    (hcl : h.contentlength = -1) {x : Bytes} (hx : x ≠ []) (hnul : 0 ∉ x) :
    (receive c ⟨x, 0⟩).log = [h.call (some x)] ∧ (receive c ⟨x, 0⟩).http.error = false := by
  cases hs with
  | body at_body _ _ =>
    have hat : AtBody h [] x (stored c ⟨x, 0⟩) :=
      ⟨at_body.live.stored ⟨x, 0⟩, at_body.ok, at_body.step, at_body.read, at_body.knows⟩
    cases body_call hat hx hnul (.inl ⟨hcl, rfl⟩) with
    | called error log => exact ⟨log, error⟩

theorem outcome_ready {c : Client} {call : Call} {more : List Call} {o : Outcome}
    (hlog : c.log = [call] ++ more) (ho : outcome c = some o) : o = .ready call := by
  unfold outcome at ho
  rw [hlog] at ho
  cases more with
  | nil =>
    cases he : c.http.error <;> rw [he] at ho <;> cases ho
    rfl
  | cons m more => cases he : c.http.error <;> rw [he] at ho <;> cases ho

/-- A POST without a recognised length has its outcome from the first bytes of its body. -/
theorem recognised_of_splitFree (hc : r.Complete) (hs : SplitFree r) (hp : r.IsPost) :
    r.headers.any isLength = true ∨ r.body.length = 1 := by
  by_contra hnot
  rw [not_or] at hnot
  obtain ⟨hany, hone⟩ := hnot
  have hbare := not_bare hc hs
  obtain ⟨o, ho⟩ := hs
  rcases head_post hc hp with ⟨h1, -⟩ | ⟨h, hrun, hcl, -⟩
  · exact hany h1
  · rw [if_neg hany] at hcl
    have hhead := head_sim hc hbare hrun
    have hne : r.head ≠ [] := by simp [head]
    cases hbody : r.body with
    | nil =>
      have hout := ho [⟨r.head, 0⟩] (by simpa using hne) (by simp [bytes, hbody])
      cases hhead with
      | body at_body _ _ => simp [outcome, at_body.live.log, at_body.live.error] at hout
    | cons b rest =>
      have hnul := hc.body_nul
      rw [hbody] at hnul
      have hb : 0 ∉ [b] := by
        intro h0
        exact hnul (List.mem_cons.mpr (.inl (List.mem_singleton.mp h0)))
      have hrest : rest ≠ [] := by
        rintro rfl
        exact hone (by simp [hbody])
      -- the body in one read, and its first byte in a read of its own
      have hall := first_read_called hhead hcl (List.cons_ne_nil b rest) hnul
      have hfirst := first_read_called hhead hcl (List.cons_ne_nil b []) hb
      have hout₁ := ho [⟨r.head, 0⟩, ⟨b :: rest, 0⟩] (by simp [hne]) (by simp [bytes, hbody])
      have hout₂ := ho [⟨r.head, 0⟩, ⟨[b], 0⟩, ⟨rest, 0⟩] (by simp [hne, hrest])
        (by simp [bytes, hbody])
      obtain ⟨more, hmore⟩ := process_log
        (stored (receive (receive newClient ⟨r.head, 0⟩) ⟨[b], 0⟩) ⟨rest, 0⟩)
      have h₁ := outcome_ready (hall.1.trans (List.append_nil _).symm) hout₁
      have h₂ := outcome_ready (hmore.trans (congrArg (· ++ more) hfirst.1)) hout₂
      have hcall := Outcome.ready.inj (h₁.symm.trans h₂)
      have hdata := Option.some.inj (congrArg Call.data hcall)
      exact hrest (List.cons.inj hdata).2

end Request

/-- A complete request has one outcome for all splits of its bytes into reads if and only if
it is understood. -/
theorem splitFree_iff {r : Request} (hc : r.Complete) : SplitFree r ↔ r.Understood := by
  constructor
  · intro hs
    exact ⟨Request.not_bare hc hs, Request.recognised_of_splitFree hc hs⟩
  · exact Request.splitFree_of_understood hc

/-- A POST of five bytes, with `pad` between the colon and the length. -/
def hello (pad : Bytes) : Request :=
  { line := bytes "POST / HTTP/1.1\r"
    headers := [bytes "Content-Length" ++ colon :: (pad ++ bytes "5" ++ [] ++ [cr])]
    blank := [cr]
    body := bytes "hello" }

theorem hello_complete {pad : Bytes} (hpad : pad = [] ∨ pad = [space]) :
    (hello pad).Complete := by
  have hlength : LengthLine 5 (bytes "Content-Length" ++ colon :: (pad ++ bytes "5" ++ [] ++ [cr])) := by
    refine ⟨bytes "Content-Length", pad, bytes "5", [], [cr], rfl, by decide, ?_, by decide,
      List.all_eq_true.mp (by decide), by decide, .inr rfl⟩
    rcases hpad with rfl | rfl
    · intro b hb
      cases hb
    · intro b hb
      exact .inl (List.mem_singleton.mp hb)
  refine ⟨?_, by simp only [hello]; decide, ?_, .inr rfl, ?_, fun _ => ⟨?_, ?_⟩⟩
  · rcases hpad with rfl | rfl <;> decide
  · rcases hpad with rfl | rfl <;> decide
  · intro h4
    exact absurd h4 (by simp only [hello]; decide)
  · exact ⟨_, List.mem_singleton.mpr rfl, hlength⟩
  · intro l hl _
    obtain rfl := List.mem_singleton.mp hl
    exact hlength

theorem hello_isPost (pad : Bytes) : (hello pad).IsPost := by
  simp only [Request.IsPost, hello]
  decide

/-- With the blank behind the colon that `process_http` looks for. -/
theorem hello_spaced : SplitFree (hello [space]) := by
  refine (splitFree_iff (hello_complete (.inr rfl))).mpr ⟨?_, fun _ => .inl (by decide)⟩
  rintro ⟨hline, -⟩
  exact absurd hline (by decide)

/-- Without it the body is cut where the first read of it ends. -/
theorem hello_glued : (hello []).Complete ∧ ¬ SplitFree (hello []) := by
  have hc := hello_complete (.inl rfl)
  refine ⟨hc, fun hs => ?_⟩
  rcases Request.recognised_of_splitFree hc hs (hello_isPost []) with h | h
  · exact absurd h (by decide)
  · exact absurd h (by decide)

end ApeServer.Http
