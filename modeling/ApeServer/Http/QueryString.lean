import ApeServer.Http.Request

/-!
# The query of a GET

`http->data` is set behind the last question mark of the target, before `urldecode` moves
the bytes of the target to the left.
-/
namespace ApeServer.Http

open Sock (Bytes)

/-- The value of a hexadecimal digit. -/
def hexDigit (b : UInt8) : Option UInt8 :=
  if 48 ≤ b ∧ b ≤ 57 then some (b - 48)
  else if 65 ≤ b ∧ b ≤ 70 then some (b - 55)
  else if 97 ≤ b ∧ b ≤ 102 then some (b - 87)
  else none

/-- Percent-decoding of a text of its own. The byte of an escape that is a control
character is replaced by an underscore. -/
def percentDecode : Bytes → Bytes
  | 37 :: h :: l :: rest =>
    match hexDigit h, hexDigit l with
    | some x, some y =>
      (if 16 * x + y < 32 ∨ 16 * x + y = 127 then 95 else 16 * x + y) :: percentDecode rest
    | _, _ => 37 :: percentDecode (h :: l :: rest)
  | b :: rest => b :: percentDecode rest
  | [] => []

theorem hex2int_eq : ∀ b, hex2int b = (hexDigit b).getD 0xFF := byte_forall (by decide +kernel)

theorem hexDigit_lt {b x : UInt8} (h : hexDigit b = some x) : x < 16 := by
  have hall : ∀ b, (hexDigit b).getD 0 < 16 := byte_forall (by decide +kernel)
  simpa [h] using hall b

theorem nibbles {x y : UInt8} (hx : x < 16) (hy : y < 16) : x <<< 4 ||| y = 16 * x + y := by
  have hall : ∀ n < 16, ∀ m < 16, UInt8.ofNat n <<< 4 ||| UInt8.ofNat m =
      16 * UInt8.ofNat n + UInt8.ofNat m := by decide +kernel
  have hxy := hall x.toNat (UInt8.lt_iff_toNat_lt.mp hx) y.toNat (UInt8.lt_iff_toNat_lt.mp hy)
  rwa [UInt8.ofNat_toNat, UInt8.ofNat_toNat] at hxy

/-- What `urldecode` leaves is the decoded text. -/
theorem urldecode_eq (t : Bytes) : urldecode t = percentDecode t := by
  have hne : ∀ {b x : UInt8}, hexDigit b = some x → x ≠ 0xFF := by
    rintro b x hb rfl
    exact absurd (hexDigit_lt hb) (by decide)
  fun_induction percentDecode t with
  | case1 h l rest x y hl hh ih =>
    rw [urldecode]
    simp only [hex2int_eq, hh, hl, Option.getD_some, ne_eq, hne hh, hne hl, not_false_eq_true,
      and_self, ↓reduceIte, nibbles (hexDigit_lt hh) (hexDigit_lt hl), ih]
  | case2 h l rest hno ih =>
    rw [urldecode, if_neg, ih]
    rintro ⟨hh, hl⟩
    rw [hex2int_eq] at hh hl
    cases hx : hexDigit h with
    | none => simp [hx] at hh
    | some x =>
      cases hy : hexDigit l with
      | none => simp [hy] at hl
      | some y => exact hno x y hx hy
  | case3 b rest hno ih => rw [urldecode, ih]; exact hno
  | case4 => rfl

theorem hexDigit_question : hexDigit question = none := by decide

/-- A byte that starts no escape stays. -/
theorem percentDecode_cons {b : UInt8} {rest : Bytes}
    (h : b = 37 → ∀ x y r, rest = x :: y :: r → hexDigit x = none ∨ hexDigit y = none) :
    percentDecode (b :: rest) = b :: percentDecode rest := by
  by_cases hb : b = 37
  · subst hb
    rcases rest with _ | ⟨x, _ | ⟨y, r⟩⟩
    · rfl
    · rfl
    · rw [percentDecode]
      rcases h rfl x y r rfl with hx | hy
      · rw [hx]
      · rw [hy]
        cases hexDigit x <;> rfl
  · rw [percentDecode]
    rintro h l r rfl
    exact absurd rfl hb

/-- A question mark ends every escape in front of it. -/
theorem percentDecode_question (a b : Bytes) :
    percentDecode (a ++ question :: b) = percentDecode a ++ question :: percentDecode b := by
  fun_induction percentDecode a with
  | case1 h l rest x y hl hh ih =>
    simp only [List.cons_append, percentDecode, hl, hh, ih]
  | case2 h l rest hno ih =>
    rw [List.cons_append, percentDecode_cons, ih, List.cons_append]
    rintro - x y r hxy
    obtain ⟨rfl, htail⟩ := List.cons.inj hxy
    obtain ⟨rfl, -⟩ := List.cons.inj htail
    cases hx : hexDigit h with
    | none => exact .inl rfl
    | some x =>
      cases hy : hexDigit l with
      | none => exact .inr rfl
      | some y => exact (hno x y hx hy).elim
  | case3 c rest hno ih =>
    rw [List.cons_append, percentDecode_cons, ih, List.cons_append]
    rintro rfl x y r hxy
    rcases rest with _ | ⟨x', _ | ⟨y', r'⟩⟩
    · obtain ⟨rfl, -⟩ := List.cons.inj hxy
      exact .inl hexDigit_question
    · obtain ⟨rfl, htail⟩ := List.cons.inj hxy
      obtain ⟨rfl, -⟩ := List.cons.inj htail
      exact .inr hexDigit_question
    · exact (hno x' y' r' rfl rfl).elim
  | case4 =>
    refine percentDecode_cons fun hq => ?_
    exact absurd hq (by decide)

theorem percentDecode_length (t : Bytes) : (percentDecode t).length ≤ t.length := by
  rw [← urldecode_eq]
  exact urldecode_length t

theorem percentDecode_nul {t : Bytes} (h : 0 ∉ t) : 0 ∉ percentDecode t := by
  fun_induction percentDecode t with
  | case1 hi lo rest x y hl hh ih =>
    simp only [List.mem_cons, not_or] at h ⊢
    refine ⟨?_, ih h.2.2.2⟩
    split
    · decide
    · next hno =>
      intro h0
      rw [← h0] at hno
      exact hno (.inl (by decide))
  | case2 hi lo rest hno ih =>
    simp only [List.mem_cons, not_or] at h ⊢
    exact ⟨h.1, ih (by simpa using h.2)⟩
  | case3 c rest hno ih =>
    simp only [List.mem_cons, not_or] at h ⊢
    exact ⟨h.1, ih h.2⟩
  | case4 => simp

theorem percentDecode_ne_nil {t : Bytes} (h : t ≠ []) : percentDecode t ≠ [] := by
  fun_cases percentDecode t with
  | case1 => simp
  | case2 => simp
  | case3 => simp
  | case4 => exact absurd rfl h

/-- A text that keeps its length had no escape. -/
theorem percentDecode_same {t : Bytes} (h : (percentDecode t).length = t.length) :
    percentDecode t = t := by
  fun_induction percentDecode t with
  | case1 hi lo rest x y hl hh ih =>
    have := percentDecode_length rest
    simp only [List.length_cons] at h
    omega
  | case2 hi lo rest hno ih =>
    simp only [List.length_cons, Nat.add_right_cancel_iff] at h
    rw [ih (by simpa using h)]
  | case3 c rest hno ih =>
    simp only [List.length_cons, Nat.add_right_cancel_iff] at h
    rw [ih h]
  | case4 => rfl

/-- What a pointer to `s` in the target `pre?s` finds once `urldecode` has run over the
target: it has been left behind by the escapes of `pre`. -/
theorem cstr_decoded_query {s : Bytes} (pre : Bytes) (hs : 0 ∉ s) :
    cstr (decoded (pre ++ question :: s)) (pre.length + 1) =
      if pre.length ≤ (percentDecode pre).length + (percentDecode s).length then
        (percentDecode s).drop (pre.length - (percentDecode pre).length)
      else s := by
  have hlen := percentDecode_length pre
  have hdec : urldecode (pre ++ question :: s) =
      percentDecode pre ++ question :: percentDecode s := by
    rw [urldecode_eq, percentDecode_question]
  have hu : 0 ∉ percentDecode s := percentDecode_nul hs
  rw [cstr, decoded, hdec]
  split
  · next hle =>
    -- the pointer is inside the decoded target
    have hdrop : (percentDecode pre ++ question :: percentDecode s).drop (pre.length + 1) =
        (percentDecode s).drop (pre.length - (percentDecode pre).length) := by
      rw [show pre.length + 1 = (percentDecode pre).length +
        (pre.length - (percentDecode pre).length + 1) by omega, List.drop_length_add_append]
      rfl
    rw [List.drop_append_of_le_length (by simp; omega), hdrop]
    exact takeWhile_nul fun h0 => hu (List.mem_of_mem_drop h0)
  · next hgt =>
    -- behind the NUL the target is as it was received
    obtain ⟨k, hk⟩ : ∃ k, pre.length = (percentDecode pre).length + (percentDecode s).length +
        (k + 1) := ⟨pre.length - ((percentDecode pre).length + (percentDecode s).length) - 1,
          by omega⟩
    have hfront : (percentDecode pre ++ question :: percentDecode s).length + (k + 1) =
        pre.length + 1 := by
      simp only [List.length_append, List.length_cons]
      omega
    have hold : (pre ++ question :: s ++ [0]).drop (pre.length + 1) = s ++ [0] := by
      simp [List.drop_append]
    rw [← hfront, List.drop_length_add_append, List.drop_succ_cons, List.drop_drop,
      show (percentDecode pre ++ question :: percentDecode s).length + 1 + k = pre.length + 1 by
        omega, hold]
    exact takeWhile_nul hs

/-- A question mark in `s` can only be its last byte, where the scan of the target does not
take it for the start of a query. -/
def NoQuery (s : Bytes) : Prop := ∀ a b, s = a ++ question :: b → b = []

theorem noQuery_of_not_mem {s : Bytes} (h : question ∉ s) : NoQuery s := by
  rintro a b rfl
  exact absurd (by simp) h

/-- The index behind the last question mark of the text at `p` that has a query. -/
def mark : ℕ → Bytes → Option ℕ → Option ℕ
  | _, [], q => q
  | p, b :: t, q => mark (p + 1) t (if b = question ∧ t ≠ [] then some (p + 1) else q)

theorem scanTarget_mark {t x : Bytes} (ht : ∀ b ∈ t, b ≠ space ∧ isEnd b = false) (p : ℕ)
    (q : Option ℕ) : scanTarget p (t ++ space :: x) q = (some (p + t.length), mark p t q) := by
  induction t generalizing p q with
  | nil => simp [scanTarget, mark]
  | cons b t ih =>
    obtain ⟨hb, hend⟩ := ht b List.mem_cons_self
    have hrest : ∀ c ∈ t, c ≠ space ∧ isEnd c = false := fun c hc => ht c (List.mem_cons_of_mem _ hc)
    have hnext : (t ++ space :: x).headD 0 ∉ [space, cr, lf] ↔ t ≠ [] := by
      cases t with
      | nil => simp
      | cons c t =>
        obtain ⟨hc, hcend⟩ := ht c (by simp)
        simp only [isEnd, decide_eq_false_iff_not, not_or] at hcend
        simp [hc, hcend.2.1, hcend.2.2]
    simp only [List.cons_append, scanTarget, hb, hend, if_false, Bool.false_eq_true, hnext, mark,
      List.length_cons, ih hrest]
    by_cases hq : b = question
    · simp only [hq, true_and, if_true]
      congr 2
      omega
    · simp only [hq, false_and, if_false]
      congr 2
      omega

theorem mark_noQuery {s : Bytes} (hs : NoQuery s) (p : ℕ) (q : Option ℕ) : mark p s q = q := by
  induction s generalizing p q with
  | nil => rfl
  | cons b t ih =>
    have ht : NoQuery t := by
      rintro a c rfl
      exact hs (b :: a) c rfl
    have hno : ¬ (b = question ∧ t ≠ []) := by
      rintro ⟨rfl, hne⟩
      exact hne (hs [] t rfl)
    rw [mark, if_neg hno, ih ht]

theorem mark_last {pre s : Bytes} (hs : NoQuery s) (hne : s ≠ []) (p : ℕ) (q : Option ℕ) :
    mark p (pre ++ question :: s) q = some (p + pre.length + 1) := by
  induction pre generalizing p q with
  | nil =>
    rw [List.nil_append, mark, if_pos ⟨rfl, hne⟩, mark_noQuery hs]
    rfl
  | cons b pre ih =>
    rw [List.cons_append, mark, ih, List.length_cons]
    congr 1
    omega

/-- The text behind the last question mark that has a query. -/
theorem noQuery_or_last (s : Bytes) :
    NoQuery s ∨ ∃ a b, s = a ++ question :: b ∧ b ≠ [] ∧ NoQuery b := by
  induction s with
  | nil => exact .inl fun a b h => by simp at h
  | cons c t ih =>
    rcases ih with ht | ⟨a, b, rfl, hb, hno⟩
    · by_cases hc : c = question ∧ t ≠ []
      · obtain ⟨rfl, hne⟩ := hc
        exact .inr ⟨[], t, rfl, hne, ht⟩
      · refine .inl fun a b h => ?_
        cases a with
        | nil =>
          obtain ⟨rfl, rfl⟩ := List.cons.inj h
          by_contra hne
          exact hc ⟨rfl, hne⟩
        | cons d a => exact ht a b (List.cons.inj h).2
    · exact .inr ⟨c :: a, b, rfl, hb, hno⟩

namespace Request

/-- A GET for `path?query`. A GET with a `Sec-WebSocket-Key1` line is a WebSocket handshake,
for which `http->data` is the key behind the blank line. -/
structure Gets (r : Request) (path query : Bytes) : Prop where
  line : ∃ version, r.line =
    ApeServer.bytes "GET " ++ (path ++ question :: query) ++ space :: version
  path_head : path.head? = some slash
  path_clean : ∀ b ∈ path, b ≠ space ∧ b ≠ cr ∧ b ≠ question
  query_clean : ∀ b ∈ query, b ≠ space ∧ b ≠ cr
  query_ne : query ≠ []
  plain : r.headers.any isKey = false

variable {r : Request} {path query : Bytes}

/-- The target is one of the texts of a complete request. -/
theorem Gets.clean (hg : r.Gets path query) (hc : r.Complete) :
    ∀ b ∈ path ++ question :: query, b ≠ 0 ∧ b ≠ space ∧ isEnd b = false := by
  obtain ⟨version, hline⟩ := hg.line
  intro b hb
  have hmem : b ∈ r.line := by
    rw [hline]
    exact List.mem_append_left _ (List.mem_append_right _ hb)
  have h0 : b ≠ 0 := fun h => hc.line_nul (h ▸ hmem)
  have hlf : b ≠ lf := fun h => hc.line_lf (h ▸ hmem)
  have hrest : b ≠ space ∧ b ≠ cr := by
    rcases List.mem_append.mp hb with hb | hb
    · exact ⟨(hg.path_clean b hb).1, (hg.path_clean b hb).2.1⟩
    · rcases List.mem_cons.mp hb with rfl | hb
      · decide
      · exact hg.query_clean b hb
  exact ⟨h0, hrest.1, by simp [isEnd, h0, hrest.2, hlf]⟩

/-- The request line: the query is looked for behind the last question mark. -/
theorem Gets.lineDone (hg : r.Gets path query) (hc : r.Complete) {pre s : Bytes}
    (ht : path ++ question :: query = pre ++ question :: s) (hpre : pre ≠ []) (hs : NoQuery s)
    (hne : s ≠ []) : ∃ h, View.lineDone r.line = .head h [] ∧ h.type = .get ∧
      h.target = pre ++ question :: s ∧ h.query = some (pre.length + 1) := by
  have hclean := hg.clean hc
  obtain ⟨version, hline⟩ := hg.line
  obtain ⟨p', rfl⟩ := List.head?_eq_some_iff.mp hg.path_head
  obtain ⟨b, pre, rfl⟩ := List.exists_cons_of_ne_nil hpre
  obtain ⟨rfl, -⟩ := List.cons.inj ht
  rw [ht] at hline hclean
  have hlit : ApeServer.bytes "GET " = [71, 69, 84, 32] := by decide
  have htake : r.line.take 4 = ApeServer.bytes "GET " := by simp [hline, hlit]
  have hdrop : r.line.drop 5 = pre ++ question :: s ++ space :: version := by
    simp [hline, hlit]
  have hscan : scanTarget 5 (r.line.drop 5) none =
      (some (5 + (pre ++ question :: s).length), some (5 + pre.length + 1)) := by
    have htext : ∀ c ∈ pre ++ question :: s, c ≠ space ∧ isEnd c = false :=
      fun c hc => (hclean c (List.mem_cons_of_mem _ hc)).2
    rw [hdrop, scanTarget_mark htext, mark_last hs hne]
  have hslash : r.line.getD 4 0 = slash := by simp [hline, hlit]
  rw [View.lineDone, if_pos htake, View.targetDone, if_neg (not_not.mpr hslash), hscan]
  refine ⟨_, rfl, rfl, ?_, ?_⟩
  · have hfour : r.line.drop 4 = slash :: (pre ++ question :: s) ++ space :: version := by
      simp [hline, hlit]
    have hlen : 5 + (pre ++ question :: s).length - 4 =
        (slash :: (pre ++ question :: s)).length := by
      rw [List.length_cons]
      omega
    simp only [hfour, hlen, List.take_left]
    rfl
  · simp only [Option.map_some, List.length_cons, Option.some.injEq]
    omega

/-- Header lines do not change what is known of the target. -/
theorem fields_plain {ls : List Bytes} (hls : ∀ l ∈ ls, Field l) (hplain : ls.any isKey = false) :
    ∀ {h : Head}, h.type = .get → ∃ h', View.run (.head h []) (lines ls) = some (.head h' []) ∧
      h'.type = .get ∧ h'.target = h.target ∧ h'.query = h.query := by
  induction ls with
  | nil => exact fun {h} htype => ⟨h, rfl, htype, rfl, rfl⟩
  | cons l ls ih =>
    intro h htype
    simp only [List.any_cons, Bool.or_eq_false_iff] at hplain
    have hkey : ¬ startsWith (ApeServer.bytes "Sec-WebSocket-Key1: ") l = true := by
      simpa [isKey] using hplain.1
    have htype' : (View.addField (View.addText h l) (parseHeaderLine l)).type = .get := by
      rw [addField_type]
      exact htype
    obtain ⟨h', hrun, ht, htarget, hquery⟩ :=
      ih (fun x hx => hls x (List.mem_cons_of_mem _ hx)) hplain.2 htype'
    refine ⟨h', ?_, ht, htarget.trans ?_, hquery.trans ?_⟩
    · rw [lines_cons, run_field (hls l List.mem_cons_self), View.fieldDone]
      simp only [htype', if_neg hkey, Option.bind_some]
      exact hrun
    · cases parseHeaderLine l <;> rfl
    · cases parseHeaderLine l <;> rfl

/-- What `onready` finds, for every split of the request into reads. -/
theorem Gets.called (hg : r.Gets path query) (hc : r.Complete) {pre s : Bytes}
    (ht : path ++ question :: query = pre ++ question :: s) (hpre : pre ≠ []) (hs : NoQuery s)
    (hne : s ≠ []) (reads : List Read) (hreads : ∀ x ∈ reads, x.bytes ≠ [])
    (hbytes : reads.flatMap Read.bytes = r.bytes) :
    ∃ call, outcome (reads.foldl receive newClient) = some (.ready call) ∧
      call.uri = some (percentDecode (path ++ question :: query)) ∧
      call.data = some (cstr (decoded (pre ++ question :: s)) (pre.length + 1)) := by
  have hclean := hg.clean hc
  obtain ⟨version, hline⟩ := hg.line
  have h4 : r.line.take 4 = ApeServer.bytes "GET " := by
    simp [hline, show ApeServer.bytes "GET " = [71, 69, 84, 32] by decide]
  obtain ⟨h, hdone, htype, htarget, hquery⟩ := hg.lineDone hc ht hpre hs hne
  obtain ⟨h', hrun, ht', htarget', hquery'⟩ := fields_plain hc.field hg.plain htype
  have hbody : r.body = [] := by
    have := hc.get h4
    rw [if_neg (by simp [hg.plain])] at this
    exact List.length_eq_zero_iff.mp this
  have hview : View.run (.line []) r.bytes =
      some (.called (h'.call (h'.query.map (cstr (decoded h'.target))))) := by
    rw [bytes, hbody, List.append_nil, run_head_eq hc, hdone, View.run_append, hrun,
      Option.bind_some, run_blank hc, View.blankDone, ht']
  have hsim : Sim (.called (h'.call (h'.query.map (cstr (decoded h'.target)))))
      (reads.foldl receive newClient) := by
    refine reads_sim hreads newClient_sim (hbytes ▸ hc.nul) ?_ (hbytes ▸ hview)
    intro t x hv hx
    cases hv
    rw [List.nil_append, hbytes] at hx
    refine noTarget hc ?_ hx
    rintro ⟨hpost, -⟩
    rw [hpost] at h4
    exact absurd h4 (by decide)
  cases hsim with
  | called error log =>
    refine ⟨h'.call (h'.query.map (cstr (decoded h'.target))), ?_, ?_, ?_⟩
    · simp only [outcome, error, log]
    · have hnul : 0 ∉ percentDecode (path ++ question :: query) :=
        percentDecode_nul fun h0 => (hclean 0 h0).1 rfl
      simp only [Head.call, htarget', htarget, ← ht, decoded, urldecode_eq, cstr, List.drop_zero]
      rw [takeWhile_nul hnul]
    · simp only [Head.call, hquery', hquery, htarget', htarget, Option.map_some]

end Request

/-- The condition: the query has no further question mark, but for its last byte, and the
path has no escape; or it has some, and the query has none and is so short that the decoded
target ends in front of it. -/
def QueryKept (path query : Bytes) : Prop :=
  NoQuery query ∧ (percentDecode path = path ∨
    (percentDecode query = query ∧ (percentDecode path).length + query.length < path.length))

/-- `onready` is called once, with the decoded query and the decoded target. -/
def QueryExact (path query : Bytes) (c : Client) : Prop :=
  ∃ call, outcome c = some (.ready call) ∧
    call.uri = some (percentDecode (path ++ question :: query)) ∧
    call.data = some (percentDecode query)

/-- The decoded query is found if and only if nothing moves it and no second question mark
hides its beginning. -/
theorem queryExact_iff {r : Request} {path query : Bytes} (hc : r.Complete)
    (hg : r.Gets path query) (reads : List Read) (hreads : ∀ x ∈ reads, x.bytes ≠ [])
    (hbytes : reads.flatMap Read.bytes = r.bytes) :
    QueryExact path query (reads.foldl receive newClient) ↔ QueryKept path query := by
  have hclean := hg.clean hc
  have hpath : path ≠ [] := by
    rintro rfl
    simpa using hg.path_head
  have hsame : ∀ (pre s : Bytes), path ++ question :: query = pre ++ question :: s → pre ≠ [] →
      NoQuery s → s ≠ [] → (QueryExact path query (reads.foldl receive newClient) ↔
        (if pre.length ≤ (percentDecode pre).length + (percentDecode s).length then
          (percentDecode s).drop (pre.length - (percentDecode pre).length) else s) =
          percentDecode query) := by
    intro pre s ht hpre hs hne
    obtain ⟨call, hout, huri, hdata⟩ := hg.called hc ht hpre hs hne reads hreads hbytes
    have hnul : 0 ∉ s := by
      intro h0
      refine (hclean 0 ?_).1 rfl
      simp [ht, h0]
    rw [cstr_decoded_query pre hnul] at hdata
    constructor
    · rintro ⟨call', hout', -, hdata'⟩
      rw [hout, Option.some.injEq, Outcome.ready.injEq] at hout'
      rw [hout', hdata', Option.some.injEq] at hdata
      exact hdata.symm
    · intro heq
      exact ⟨call, hout, huri, by rw [hdata, heq]⟩
  have hlen := percentDecode_length path
  have hq := List.length_pos_iff.mpr (percentDecode_ne_nil hg.query_ne)
  rcases noQuery_or_last query with hno | ⟨a, b, rfl, hb, hlast⟩
  · rw [hsame _ _ rfl hpath hno hg.query_ne]
    constructor
    · intro heq
      refine ⟨hno, ?_⟩
      split at heq
      · -- what is left of the decoded query is shorter if anything was cut off
        left
        have hcut := congrArg List.length heq
        simp only [List.length_drop] at hcut
        exact percentDecode_same (by omega)
      · next hgt =>
        rw [← heq] at hgt
        exact .inr ⟨heq.symm, by omega⟩
    · rintro ⟨-, hsame | ⟨hquery, hshort⟩⟩
      · rw [hsame, if_pos (by omega), Nat.sub_self, List.drop_zero]
      · rw [hquery, if_neg (by omega)]
  · -- a later question mark: the text behind it is never the whole query
    rw [hsame (path ++ question :: a) b (by simp) (by simp) hlast hb]
    have hkept : ¬ QueryKept path (a ++ question :: b) := fun h => hb (h.1 a b rfl)
    refine iff_of_false (fun heq => ?_) hkept
    rw [percentDecode_question a b] at heq
    split at heq
    · have hcut := congrArg List.length heq
      simp only [List.length_drop, List.length_append, List.length_cons] at hcut
      omega
    · exact percentDecode_ne_nil hb (hlast (percentDecode a) (percentDecode b) heq)

/-- A GET without header lines. -/
def getRequest (target : Bytes) : Request :=
  { line := bytes "GET " ++ target ++ space :: bytes "HTTP/1.1\r"
    headers := [], blank := [cr], body := [] }

theorem getRequest_complete {target : Bytes} (h0 : 0 ∉ target) (hlf : lf ∉ target) :
    (getRequest target).Complete := by
  have hget : (getRequest target).line.take 4 = bytes "GET " := by
    simp [getRequest, show bytes "GET " = [71, 69, 84, 32] by decide]
  have hword : 0 ∉ bytes "GET " ∧ lf ∉ bytes "GET " ∧ 0 ∉ bytes "HTTP/1.1\r" ∧
      lf ∉ bytes "HTTP/1.1\r" := by decide
  have hsep : (0 : UInt8) ≠ space ∧ (0 : UInt8) ≠ lf ∧ (0 : UInt8) ≠ cr ∧ lf ≠ space := by decide
  refine ⟨?_, ?_, by simp [getRequest], .inr rfl, fun _ => rfl, fun hpost => ?_⟩
  · simp [Request.bytes, Request.head, getRequest, lines, h0, hword, hsep]
  · simp [getRequest, hlf, hword, hsep]
  · rw [hget] at hpost
    exact absurd hpost (by decide)

theorem getRequest_gets (path query : Bytes) (hhead : path.head? = some slash)
    (hpath : path.all fun b => b ≠ space ∧ b ≠ cr ∧ b ≠ question)
    (hquery : query.all fun b => b ≠ space ∧ b ≠ cr) (hne : query ≠ []) :
    (getRequest (path ++ question :: query)).Gets path query := by
  refine ⟨⟨bytes "HTTP/1.1\r", rfl⟩, hhead, fun b hb => ?_, fun b hb => ?_, hne, rfl⟩
  · simpa using List.all_eq_true.mp hpath b hb
  · simpa using List.all_eq_true.mp hquery b hb

/-- An escape in the query alone: `/?a=%41` gives `a=A`. -/
theorem queryExact_escape : QueryExact (bytes "/") (bytes "a=%41")
    ([⟨(getRequest (bytes "/" ++ question :: bytes "a=%41")).bytes, 0⟩].foldl receive newClient) := by
  refine (queryExact_iff (r := getRequest (bytes "/" ++ question :: bytes "a=%41"))
    (getRequest_complete (by decide) (by decide)) ?_ _ ?_ (by simp)).mpr ?_
  · exact getRequest_gets (bytes "/") (bytes "a=%41") rfl (by decide) (by decide) (by decide)
  · simp [Request.bytes, Request.head]
  · exact ⟨noQuery_of_not_mem (by decide), .inl rfl⟩

/-- A second question mark: of `/?a?b` only `b` is found. -/
theorem queryExact_second_mark :
    (getRequest (bytes "/" ++ question :: bytes "a?b")).Complete ∧
    (getRequest (bytes "/" ++ question :: bytes "a?b")).Gets (bytes "/") (bytes "a?b") ∧
    ¬ QueryExact (bytes "/") (bytes "a?b")
      ([⟨(getRequest (bytes "/" ++ question :: bytes "a?b")).bytes, 0⟩].foldl receive newClient) := by
  have hc : (getRequest (bytes "/" ++ question :: bytes "a?b")).Complete :=
    getRequest_complete (by decide) (by decide)
  have hg := getRequest_gets (bytes "/") (bytes "a?b") rfl (by decide) (by decide) (by decide)
  refine ⟨hc, hg, ?_⟩
  rw [queryExact_iff hc hg _ (by simp [Request.bytes, Request.head]) (by simp)]
  rintro ⟨hno, -⟩
  exact absurd (hno (bytes "a") (bytes "b") rfl) (by decide)

end ApeServer.Http
