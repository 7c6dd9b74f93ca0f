import ApeServer.Http.HttpSim

/-!
# The parser over a run of reads

The request line, and from single lines the whole run: after any reads the parser is where
the view is after their bytes.
-/
namespace ApeServer.Http

open Sock (Bytes)

/-- Behind a request line that is the word `POST` alone, `process_http` looks for the target
in the next line. It finds none there. -/
def NoTarget (u : Bytes) : Prop :=
  u.head? = some slash → (scanTarget 6 u.tail none).1 = none

section Line

variable {l u : Bytes} {c : Client}

theorem AtLine.entered_http (hc : AtLine u c) : (entered c).http = newClient.http := by
  have haddr : c.http.bufferAddr = none := by
    rw [hc.http]
    rfl
  rw [entered, Client.rebase]
  simp only [haddr]
  exact hc.http

theorem getD_slash {x : Bytes} {p : ℕ} (hp : p ≤ l.length) :
    (l ++ lf :: x).getD p 0 = slash ↔ l.getD p 0 = slash := by
  rcases Nat.lt_or_ge p l.length with hlt | hge
  · simp [List.getD, List.getElem?_append_left hlt]
  · have heq : p = l.length := by omega
    subst heq
    simp [List.getD, lf, slash]

/-- A line in three parts around its byte `e`. -/
theorem split_line {p e : ℕ} (hp : p ≤ e) (he : e < l.length) :
    ∃ b, l = l.take p ++ (l.drop p).take (e - p) ++ b :: l.drop (e + 1) := by
  refine ⟨l[e], ?_⟩
  have h1 : l.take p ++ (l.drop p).take (e - p) = l.take e := by
    rw [List.take_drop, show p + (e - p) = e by omega]
    conv_rhs => rw [← List.take_append_drop p (l.take e), List.take_take, Nat.min_eq_left hp]
  rw [h1, List.getElem_cons_drop, List.take_append_drop]

/-- The head behind a request line that was accepted. -/
def lineHead (l : Bytes) (type : Method) (p e : ℕ) (query : Option ℕ) : Head :=
  { type
    before := l.take p
    target := (l.drop p).take (e - p)
    query := query.map (· - p)
    after := l.drop (e + 1) ++ [lf]
    hlines := []
    host := none
    contentlength := -1 }

theorem lineHead_ok {type : Method} {p e : ℕ} {query : Option ℕ} (hl : 0 ∉ l) (hpe : p ≤ e)
    (he : e < l.length) (hq : ∀ k, query = some k → k ≤ e) : (lineHead l type p e query).Ok := by
  refine ⟨?_, ?_, by simp [lineHead], .inl rfl⟩
  · intro h0
    exact hl (List.mem_of_mem_drop (List.mem_of_mem_take h0))
  · intro k hk
    obtain ⟨m, hm, rfl⟩ := Option.map_eq_some_iff.mp hk
    have := hq m hm
    simp only [lineHead, List.length_take, List.length_drop]
    omega

/-- The NUL behind the target turns the line into the head's text. -/
theorem lineHead_mem (type : Method) {p e : ℕ} (query : Option ℕ) (hpe : p ≤ e)
    (he : e < l.length) (x : Bytes) :
    poke (l ++ lf :: x) e 0 = (lineHead l type p e query).done ++ x := by
  obtain ⟨b, hb⟩ := split_line hpe he
  simp only [Head.done, lineHead]
  generalize hpre : l.take p ++ (l.drop p).take (e - p) = pre at hb ⊢
  generalize l.drop (e + 1) = post at hb ⊢
  have hlen : pre.length + 0 = e := by
    rw [← hpre]
    simp only [List.length_append, List.length_take, List.length_drop]
    omega
  rw [hb, ← hlen, List.append_assoc, poke_append]
  simp [poke]

theorem lineHead_length (type : Method) {p e : ℕ} (query : Option ℕ) (hpe : p ≤ e)
    (he : e < l.length) : (lineHead l type p e query).done.length = l.length + 1 := by
  simp only [Head.done, lineHead, List.length_append, List.length_take, List.length_drop,
    List.length_cons, List.length_nil]
  omega

theorem target_at {type : Method} {p e : ℕ} {query : Option ℕ} (hc : AtLine (l ++ lf :: u) c)
    (hl : 0 ∉ l) (hpe : p ≤ e) (he : e < l.length) (hq : ∀ k, query = some k → p ≤ k ∧ k ≤ e)
    (http : State) (htype : http.type = type) (hlines : http.hlines = []) (hhost : http.host = none)
    (hcl : http.contentlength = -1) (hread : http.read = 0) (herr : http.error = false)
    (hdata : http.data = query.map ((entered c).base + ·)) :
    AtHead (lineHead l type p e query) u { entered c with
      mem := poke (entered c).mem e 0
      http := { http with
        pos := l.length + 1, step := .headers, uri := some ((entered c).base + p)
        bufferAddr := some (entered c).base } } := by
  have hlive := hc.live.of_entered
  obtain ⟨junk, hmem⟩ := hc.live.entered_mem
  have hm : poke (entered c).mem e 0 = (lineHead l type p e query).done ++ u ++ 0 :: junk := by
    rw [hmem, List.nil_append, List.append_assoc, List.cons_append,
      lineHead_mem type query hpe he, List.append_assoc]
  have hlen := lineHead_length type query hpe he
  have htotal : (entered c).length = ((lineHead l type p e query).done ++ u).length := by
    rw [hlive.length]
    simp only [List.nil_append, List.length_append, List.length_cons, hlen]
    omega
  refine ⟨⟨?_, htotal, hlen.symm, hlive.ready, herr, hlive.log⟩,
    lineHead_ok hl hpe he fun k hk => (hq k hk).2, rfl, hread, (entered c).base, htype, hlines,
    hhost, hcl, rfl, ?_, ?_⟩
  · simp only [hm, htotal]
    exact List.take_left
  · simp only [lineHead, List.length_take, Nat.min_eq_left (show p ≤ l.length by omega)]
  · simp only [hdata, lineHead, Option.map_map, List.length_take,
      Nat.min_eq_left (show p ≤ l.length by omega)]
    cases query with
    | none => rfl
    | some k =>
      have := (hq k rfl).1
      simp only [Option.map_some, Function.comp, Option.some.injEq]
      omega

theorem target_reaches {type : Method} {p : ℕ} (hc : AtLine (l ++ lf :: u) c) (hl : 0 ∉ l)
    (hp : p ≤ l.length) (hturn : turn c = target (entered c) (l.length + 1) type p) :
    Reaches (View.targetDone l type p) u c := by
  have hlive := hc.live.of_entered
  have hhttp := hc.entered_http
  obtain ⟨junk, hmem⟩ := hc.live.entered_mem
  have hrest : (entered c).rest = l ++ lf :: (u ++ 0 :: junk) := by
    rw [Client.rest, hmem, hlive.pos]
    simp
  have hrej : ∀ http : State, turn c = .stop { entered c with http }.reject →
      Reaches .rejected u c := by
    intro http ht
    refine .rejected rfl ?_
    rw [process_of_stop ht]
    exact .rejected rfl hlive.log
  unfold target at hturn
  have hrest' : Client.rest { entered c with http := { (entered c).http with type } } =
      l ++ lf :: (u ++ 0 :: junk) := hrest
  simp only [hrest', ne_eq, getD_slash hp] at hturn
  unfold View.targetDone
  split
  · next hslash =>
    rw [if_pos hslash] at hturn
    exact hrej _ hturn
  · next hslash =>
    rw [if_neg hslash] at hturn
    have hlt : p + 1 ≤ l.length := by
      by_contra hcon
      have hnone : l[p]? = none := List.getElem?_eq_none (by omega)
      simp [List.getD, hnone, slash] at hslash
    rw [List.drop_append_of_le_length hlt] at hturn
    cases hscan : scanTarget (p + 1) (l.drop (p + 1)) none with
    | mk found query =>
      cases found with
      | none =>
        have hnone : (scanTarget (p + 1) (l.drop (p + 1) ++ lf :: (u ++ 0 :: junk)) none).1 = none := by
          rw [scanTarget_end (by decide) _ _ none, hscan]
        simp only [hnone] at hturn
        exact hrej _ hturn
      | some e =>
        obtain ⟨h1, h2, h3⟩ := scanTarget_bounds hscan
        rw [List.length_drop] at h2
        simp only [scanTarget_append hscan, hhttp] at hturn
        have hpos : (newClient.http).pos = 0 := rfl
        have hq : ∀ k, query = some k → p ≤ k ∧ k ≤ e := by
          intro k hk
          rcases h3 k hk with hn | hn
          · cases hn
          · omega
        simp only [hpos, Nat.zero_add, Nat.add_zero] at hturn
        refine .head (lineHead l type p e query) rfl _ (process_of_go hturn) ?_
        cases query with
        | none =>
          exact target_at hc hl (by omega) (by omega) hq { newClient.http with type } rfl rfl rfl
            rfl rfl rfl rfl
        | some q =>
          exact target_at hc hl (by omega) (by omega) hq { newClient.http with
            type, data := some ((entered c).base + q) } rfl rfl rfl rfl rfl rfl rfl

/-- The word `POST` alone is rejected if no target follows in the next line. -/
theorem bare_rejected (hc : AtLine (bytes "POST" ++ lf :: u) c) (hno : NoTarget u)
    (hturn : turn c = target (entered c) 5 .post 5) : Sim .rejected (processHttp c) := by
  have hlive := hc.live.of_entered
  obtain ⟨junk, hrest⟩ := hc.live.entered_rest
  have hrest' : Client.rest { entered c with http := { (entered c).http with type := .post } } =
      [80, 79, 83, 84, lf] ++ (u ++ 0 :: junk) := by
    refine Eq.trans hrest ?_
    rw [show bytes "POST" = [80, 79, 83, 84] by decide]
    simp
  have hrej : ∀ http : State, turn c = .stop { entered c with http }.reject →
      Sim .rejected (processHttp c) := by
    intro http ht
    rw [process_of_stop ht]
    exact .rejected rfl hlive.log
  unfold target at hturn
  simp only [hrest'] at hturn
  cases u with
  | nil =>
    rw [if_pos (by simp [slash])] at hturn
    exact hrej _ hturn
  | cons b u =>
    by_cases hb : b = slash
    · have hscan : (scanTarget 6 (u ++ 0 :: junk) none).1 = none := by
        rw [scanTarget_end (by decide) _ _ none]
        exact hno (by simp [hb])
      rw [if_neg (by simp [hb])] at hturn
      simp only [List.cons_append, List.nil_append, Nat.reduceAdd, List.drop_succ_cons,
        List.drop_zero, hscan] at hturn
      exact hrej _ hturn
    · rw [if_pos (by simpa using hb)] at hturn
      exact hrej _ hturn

theorem line_reaches (hc : AtLine (l ++ lf :: u) c) (hl : 0 ∉ l) (hlf : lf ∉ l)
    (hbare : l = bytes "POST" → NoTarget u) : Reaches (View.lineDone l) u c := by
  have hlive := hc.live.of_entered
  obtain ⟨junk, hrest⟩ := hc.live.entered_rest
  rw [List.append_assoc, List.cons_append] at hrest
  have hturn := hc.live.turn_lf hl
  have hstep : c.http.step = .requestLine := by
    rw [hc.http]
    rfl
  have hget : (l ++ lf :: (u ++ 0 :: junk)).take 4 = bytes "GET " ↔ l.take 4 = bytes "GET " :=
    take_lf (bytes "GET ") (by decide)
  have hpost : (l ++ lf :: (u ++ 0 :: junk)).take 4 = bytes "POST" ↔ l.take 4 = bytes "POST" :=
    take_lf (bytes "POST") (by decide)
  simp only [hstep, requestLine, hrest, seof_lf hl hlf, hget, hpost] at hturn
  unfold View.lineDone
  split
  · next h4 =>
    rw [if_pos h4] at hturn
    have hlen := congrArg List.length h4
    simp only [List.length_take, show (bytes "GET ").length = 4 by decide] at hlen
    exact target_reaches hc hl (by omega) hturn
  · next hnget =>
    rw [if_neg hnget] at hturn
    split
    · next h4 =>
      rw [if_pos h4] at hturn
      have hlen := congrArg List.length h4
      simp only [List.length_take, show (bytes "POST").length = 4 by decide] at hlen
      rcases Nat.lt_or_ge l.length 5 with hshort | hlong
      · -- the word alone: the target is looked for behind the line feed
        have hword : l = bytes "POST" := by
          rw [← h4, List.take_of_length_le (by omega)]
        subst hword
        have hdone : View.targetDone (bytes "POST") .post 5 = .rejected := rfl
        rw [hdone]
        exact .rejected rfl (bare_rejected hc (hbare rfl) hturn)
      · exact target_reaches hc hl hlong hturn
    · next hnpost =>
      rw [if_neg hnpost] at hturn
      refine .rejected rfl ?_
      rw [process_of_stop hturn]
      exact .rejected rfl hlive.log

/-- A text without a line feed waits for more. -/
theorem line_waits (hc : AtLine u c) (hu : 0 ∉ u) (hlf : lf ∉ u) :
    Sim (.line u) (processHttp c) := by
  cases u with
  | nil =>
    obtain ⟨mem, hp, hlive⟩ := hc.live.process_nil
    rw [hp]
    exact .line ⟨hlive, hc.http⟩ hu hlf
  | cons b u =>
    obtain ⟨junk, hrest⟩ := hc.live.entered_rest
    have hturn := hc.live.turn_eq (by simp) hu
    have hstep : c.http.step = .requestLine := by
      rw [hc.http]
      rfl
    simp only [hstep, requestLine, hrest, seof_nul hu hlf] at hturn
    rw [process_of_stop hturn]
    exact .line ⟨hc.live.of_entered, hc.entered_http⟩ hu hlf

end Line

/-- A text is one line and what follows, or has no line feed. -/
theorem split_lf (u : Bytes) : lf ∉ u ∨ ∃ l u', u = l ++ lf :: u' ∧ lf ∉ l := by
  by_cases h : lf ∈ u
  · exact .inr (List.eq_append_cons_of_mem h)
  · exact .inl h

theorem run_called {call : Call} {u : Bytes} {w : View} (h : View.run (.called call) u = some w) :
    w = .called call := by
  cases u with
  | nil =>
    cases h
    rfl
  | cons b u =>
    simp only [View.run, View.byte] at h
    split at h <;> cases h

/-- The view in the body: it waits, or it is complete with the last byte. -/
theorem run_body {h : Head} {t u : Bytes} {w : View} (hok : h.Ok)
    (ht : t = [] ∨ (t.length : ℤ) < h.contentlength) (hw : View.run (.body h t) u = some w) :
    (w = .body h (t ++ u) ∧ (u = [] ∨ ((t ++ u).length : ℤ) < h.contentlength)) ∨
      (w = .called (h.call (some (t ++ u))) ∧ u ≠ [] ∧
        ((h.contentlength = -1 ∧ t = []) ∨ h.contentlength = (t ++ u).length)) := by
  induction u generalizing t with
  | nil =>
    cases hw
    exact .inl ⟨by simp, .inl rfl⟩
  | cons b u ih =>
    simp only [View.run, View.byte] at hw
    split at hw
    · cases hw
    · simp only [Option.bind_some, View.bodyDone] at hw
      split at hw
      · next hge =>
        obtain rfl := run_called hw
        cases u with
        | nil =>
          refine .inr ⟨rfl, by simp, ?_⟩
          simp only [List.length_append, List.length_singleton] at hge ⊢
          rcases ht with rfl | ht
          · rcases hok.length_ok with hcl | hcl
            · exact .inl ⟨hcl, rfl⟩
            · right
              simp only [List.length_nil] at hge ⊢
              omega
          · right
            omega
        | cons b' u =>
          simp only [View.run, View.byte] at hw
          split at hw <;> cases hw
      · next hlt =>
        have hnext := ih (t := t ++ [b]) (.inr (by omega)) hw
        simp only [List.append_assoc, List.singleton_append] at hnext
        rcases hnext with ⟨rfl, hle⟩ | ⟨rfl, -, hfull⟩
        · refine .inl ⟨rfl, .inr ?_⟩
          rcases hle with rfl | hle
          · simp only [List.length_append] at hlt ⊢
            omega
          · exact hle
        · refine .inr ⟨rfl, by simp, .inr ?_⟩
          rcases hfull with ⟨-, hnil⟩ | hfull
          · simp at hnil
          · exact hfull

theorem body_run {h : Head} {t u : Bytes} {c : Client} {w : View} (hu : 0 ∉ t ++ u)
    (hc : AtBody h t u c) (ht : t = [] ∨ (t.length : ℤ) < h.contentlength)
    (hw : View.run (.body h t) u = some w) : Sim w (processHttp c) := by
  rcases run_body hc.ok ht hw with ⟨rfl, hle⟩ | ⟨rfl, hne, hfull⟩
  · by_cases hnil : u = []
    · subst hnil
      rw [List.append_nil] at hu ⊢
      exact body_waits_nil hc hu ht
    · exact body_waits hc hnil hu (hle.resolve_left hnil)
  · exact body_call hc hne hu hfull

/-- A call goes on from where it got to. -/
theorem Reaches.run {v w : View} {u : Bytes} {c : Client} (hr : Reaches v u c) (hu : 0 ∉ u)
    (hhead : ∀ h t, AtHead h u t → View.run (.head h []) u = some w → Sim w (processHttp t))
    (hw : View.run v u = some w) : Sim w (processHttp c) := by
  cases hr with
  | head h hv t same at_head =>
    subst hv
    rw [same]
    exact hhead h t at_head hw
  | body h hv t same at_body =>
    subst hv
    rw [same]
    exact body_run (by simpa using hu) at_body (.inl rfl) hw
  | rejected hv sim =>
    subst hv
    rw [View.run_rejected hu] at hw
    cases hw
    exact sim
  | called call hv sim =>
    subst hv
    obtain rfl := run_called hw
    exact sim

/-- From the start of a header line a call does what the view does. -/
theorem head_run {n : ℕ} : ∀ {u : Bytes}, u.length < n → 0 ∉ u → ∀ {h : Head} {c : Client}
    {w : View}, AtHead h u c → View.run (.head h []) u = some w → Sim w (processHttp c) := by
  induction n with
  | zero =>
    intro u hn
    omega
  | succ n ih =>
    intro u hn hu h c w hc hw
    rcases split_lf u with hlf | ⟨l, u', rfl, hlf⟩
    · rw [View.run_head hu hlf] at hw
      cases hw
      exact head_waits hc hu hlf
    · have hl : 0 ∉ l := fun h0 => hu (List.mem_append_left _ h0)
      have hu' : 0 ∉ u' := fun h0 => hu (List.mem_append_right _ (List.mem_cons_of_mem _ h0))
      simp only [List.length_append, List.length_cons] at hn
      rw [View.run_head_lf hl hlf] at hw
      obtain ⟨v, hdone, hw⟩ := Option.bind_eq_some_iff.mp hw
      exact (head_reaches hc hl hlf hdone).run hu'
        (fun _ _ hat hrun => ih (by omega) hu' hat hrun) hw

/-- From the start of the request line. -/
theorem line_run {u : Bytes} (hu : 0 ∉ u) {c : Client} {w : View} (hc : AtLine u c)
    (hbare : ∀ x, u = bytes "POST" ++ lf :: x → NoTarget x)
    (hw : View.run (.line []) u = some w) : Sim w (processHttp c) := by
  rcases split_lf u with hlf | ⟨l, u', rfl, hlf⟩
  · rw [View.run_line hu hlf] at hw
    cases hw
    exact line_waits hc hu hlf
  · have hl : 0 ∉ l := fun h0 => hu (List.mem_append_left _ h0)
    have hu' : 0 ∉ u' := fun h0 => hu (List.mem_append_right _ (List.mem_cons_of_mem _ h0))
    rw [View.run_line_lf hl hlf] at hw
    exact (line_reaches hc hl hlf fun heq => hbare u' (by rw [heq])).run hu'
      (fun _ _ hat hrun => head_run (Nat.lt_succ_self _) hu' hat hrun) hw

/-- The client when a read has been stored. -/
def stored (c : Client) (r : Read) : Client :=
  { c with
    base := r.base
    mem := c.mem.take c.length ++ r.bytes ++ c.mem.drop (c.length + r.bytes.length)
    length := c.length + r.bytes.length }

theorem Live.stored {d u : Bytes} {c : Client} (h : Live d u c) (r : Read) :
    Live d (u ++ r.bytes) (stored c r) := by
  refine ⟨?_, ?_, h.pos, h.ready, h.error, h.log⟩
  · have hlen : c.length + r.bytes.length = (d ++ u ++ r.bytes).length := by
      rw [h.length]
      simp [Nat.add_assoc]
    simp only [Http.stored, h.mem, hlen]
    rw [List.take_left, List.append_assoc]
  · simp only [Http.stored, h.length, List.length_append]
    omega

/-- One read: the parser is where the view is behind its bytes. -/
theorem receive_sim {v w : View} {c : Client} {r : Read} (hs : Sim v c) (hr : r.bytes ≠ [])
    (hnul : 0 ∉ r.bytes)
    (hbare : ∀ t x, v = .line t → t ++ r.bytes = bytes "POST" ++ lf :: x → NoTarget x)
    (hw : View.run v r.bytes = some w) : Sim w (receive c r) := by
  have hadd : ∀ {t : Bytes}, 0 ∉ t → 0 ∉ t ++ r.bytes := by
    intro t ht h0
    rcases List.mem_append.mp h0 with h0 | h0
    · exact ht h0
    · exact hnul h0
  cases hs with
  | @line t _ at_line nul noLf =>
    refine line_run (hadd nul) (c := stored c r) ⟨?_, at_line.http⟩ (fun x hx => hbare t x rfl hx) ?_
    · exact at_line.live.stored r
    · rw [View.run_append, View.run_line nul noLf]
      exact hw
  | @head h t _ at_head nul noLf =>
    refine head_run (Nat.lt_succ_self _) (hadd nul) (c := stored c r)
      ⟨at_head.live.stored r, at_head.ok, at_head.step, at_head.read, at_head.knows⟩ ?_
    rw [View.run_append, View.run_head nul noLf]
    exact hw
  | @body h t _ at_body nul short =>
    refine body_run (hadd nul) (c := stored c r) ⟨?_, at_body.ok, at_body.step, at_body.read,
      at_body.knows⟩ short hw
    exact at_body.live.stored r
  | rejected error log =>
    rw [View.run_rejected hnul] at hw
    cases hw
    have hturn : turn (stored c r) = .stop (stored c r) := by
      unfold turn
      rw [if_pos (.inr (.inr error))]
    have hp : receive c r = stored c r := process_of_stop hturn
    rw [hp]
    exact .rejected error log
  | called error log =>
    cases hb : r.bytes with
    | nil => exact absurd hb hr
    | cons b bs =>
      rw [hb] at hw
      simp only [View.run, View.byte] at hw
      split at hw <;> cases hw

/-- A text in which no target is found has no beginning in which one is found. -/
theorem NoTarget.of_append {x y : Bytes} (h : NoTarget (x ++ y)) : NoTarget x := by
  intro hx
  cases x with
  | nil => cases hx
  | cons b x =>
    have hnone := h (by simpa using hx)
    cases hscan : scanTarget 6 x none with
    | mk found query =>
      cases found with
      | none => simp [hscan]
      | some e => 
        exact absurd hnone (by
          rw [List.cons_append, List.tail_cons, scanTarget_append hscan]
          simp)

theorem lineDone_ne_line (l t : Bytes) : View.lineDone l ≠ .line t := by
  intro h
  have htarget : ∀ type p, View.targetDone l type p ≠ .line t := by
    intro type p h
    unfold View.targetDone at h
    split at h
    · cases h
    · split at h <;> cases h
  unfold View.lineDone at h
  split at h
  · exact htarget _ _ h
  · split at h
    · exact htarget _ _ h
    · cases h

theorem headDone_ne_line (h : Head) (l t : Bytes) : View.headDone h l ≠ some (.line t) := by
  intro hw
  unfold View.headDone View.blankDone View.fieldDone at hw
  split at hw
  · simp only [Option.some.injEq] at hw
    split at hw <;> cases hw
  · simp only at hw
    repeat' split at hw
    all_goals cases hw

/-- The request line is never entered again. -/
theorem byte_line {v : View} {b : UInt8} {t : Bytes} (h : v.byte b = some (.line t)) :
    ∃ t', v = .line t' ∧ t = t' ++ [b] := by
  unfold View.byte at h
  split at h
  · cases h
  · cases v with
    | line t' =>
      simp only [Option.some.injEq] at h
      split at h
      · exact absurd h (lineDone_ne_line _ _)
      · cases h
        exact ⟨t', rfl, rfl⟩
    | head hd t' =>
      simp only at h
      split at h
      · exact absurd h (headDone_ne_line _ _ _)
      · cases h
    | body hd t' =>
      simp only [View.bodyDone, Option.some.injEq] at h
      split at h <;> cases h
    | rejected => cases h
    | called call => cases h

theorem run_to_line {v : View} {x t : Bytes} (h : View.run v x = some (.line t)) :
    ∃ t', v = .line t' ∧ t = t' ++ x := by
  induction x generalizing v with
  | nil =>
    cases h
    exact ⟨t, rfl, by simp⟩
  | cons b x ih =>
    obtain ⟨v', hv, hrun⟩ := Option.bind_eq_some_iff.mp h
    obtain ⟨t₁, rfl, rfl⟩ := ih hrun
    obtain ⟨t₂, rfl, rfl⟩ := byte_line hv
    exact ⟨t₂, rfl, by simp⟩

/-- A run of reads: the parser is where the view is behind all their bytes. -/
theorem reads_sim {reads : List Read} (hreads : ∀ r ∈ reads, r.bytes ≠ []) :
    ∀ {v w : View} {c : Client}, Sim v c → 0 ∉ reads.flatMap Read.bytes →
      (∀ t x, v = .line t → t ++ reads.flatMap Read.bytes = bytes "POST" ++ lf :: x → NoTarget x) →
      View.run v (reads.flatMap Read.bytes) = some w → Sim w (reads.foldl receive c) := by
  induction reads with
  | nil =>
    intro v w c hs _ _ hw
    cases hw
    exact hs
  | cons r reads ih =>
    intro v w c hs hnul hbare hw
    simp only [List.flatMap_cons] at hnul hbare hw
    have hnul₁ : 0 ∉ r.bytes := fun h0 => hnul (List.mem_append_left _ h0)
    have hnul₂ : 0 ∉ reads.flatMap Read.bytes := fun h0 => hnul (List.mem_append_right _ h0)
    rw [View.run_append] at hw
    obtain ⟨v', hv', hw⟩ := Option.bind_eq_some_iff.mp hw
    have hsim : Sim v' (receive c r) := by
      refine receive_sim hs (hreads r List.mem_cons_self) hnul₁ ?_ hv'
      intro t x ht hx
      refine NoTarget.of_append (y := reads.flatMap Read.bytes) ?_
      refine hbare t (x ++ reads.flatMap Read.bytes) ht ?_
      rw [← List.append_assoc, hx, List.append_assoc, List.cons_append]
    refine ih (fun r' hr' => hreads r' (List.mem_cons_of_mem _ hr')) hsim hnul₂ ?_ hw
    intro t x ht hx
    subst ht
    obtain ⟨t', rfl, rfl⟩ := run_to_line hv'
    refine hbare t' x rfl ?_
    rw [← hx, List.append_assoc]

theorem newClient_sim : Sim (.line []) newClient :=
  .line ⟨⟨rfl, rfl, rfl, by decide, rfl, rfl⟩, rfl⟩ (by simp) (by simp)

end ApeServer.Http
