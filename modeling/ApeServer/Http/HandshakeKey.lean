import ApeServer.Http.Request

/-!
# The key of a draft-76 handshake

The eight bytes behind the blank line may have any values, and any read may end between them. A
call of `process_http` looks at the first byte it has not counted before it goes on: a NUL there
is taken for the end of the buffer, and is never passed.
-/
namespace ApeServer.Http

open Sock (Bytes)

namespace Request

/-- A GET with a `Sec-WebSocket-Key1` header and eight bytes behind its blank line. -/
structure Handshake (r : Request) : Prop where
  nul : 0 ∉ r.head
  line_lf : lf ∉ r.line
  header : ∀ l ∈ r.headers, lf ∉ l ∧ l ≠ [] ∧ l ≠ [cr]
  blank : r.blank = [] ∨ r.blank = [cr]
  get : r.line.take 4 = ApeServer.bytes "GET "
  slash : r.line.getD 4 0 = Http.slash
  target : (scanTarget 5 (r.line.drop 5) none).1 ≠ none
  key1 : r.headers.any isKey = true
  key : r.body.length = 8

variable {r : Request}

/-- The same head before a key without NUL. -/
theorem Handshake.complete (hr : r.Handshake) :
    Complete { r with body := List.replicate 8 1 } := by
  refine ⟨?_, hr.line_lf, hr.header, hr.blank, fun _ => ?_, fun h => ?_⟩
  · intro h0
    rcases List.mem_append.mp h0 with h0 | h0
    · exact hr.nul h0
    · exact absurd (List.eq_of_mem_replicate h0) (by decide)
  · rw [if_pos hr.key1]
    rfl
  · have hget := hr.get
    rw [h] at hget
    exact absurd hget (by decide)

/-- The head leads to a body of eight bytes. -/
theorem Handshake.run_head (hr : r.Handshake) :
    ∃ h, View.run (.line []) r.head = some (.body h []) ∧ h.contentlength = 8 := by
  have hc := hr.complete
  obtain ⟨h, hline, htype⟩ : ∃ h, View.lineDone r.line = .head h [] ∧ h.type = .get := by
    unfold View.lineDone View.targetDone
    rw [if_pos hr.get, if_neg (by simpa using hr.slash)]
    cases hs : scanTarget 5 (r.line.drop 5) none with
    | mk found query =>
      cases found with
      | none => exact absurd (by rw [hs]) hr.target
      | some e => exact ⟨_, rfl, rfl⟩
  obtain ⟨h', hrun, ht'⟩ := fields_get (.inl htype) hc.field
  have hws : h'.type = .getWs := by
    rw [ht', if_pos (.inl hr.key1)]
  have hblank : View.run (.line []) r.head = some (View.blankDone h' r.blank) := by
    have heq := run_head_eq hc
    simp only at heq hrun
    change View.run (.line []) r.head = _ at heq
    rw [heq, hline, View.run_append, hrun, Option.bind_some]
    exact run_blank hc h'
  refine ⟨{ View.addText h' r.blank with contentlength := 8 }, hblank.trans ?_, rfl⟩
  rw [View.blankDone, hws]

end Request

/-! ## A call that crosses the end of the head -/

section Crossing

variable {h h' : Head} {x k : Bytes} {c : Client}

theorem run_body_end (hok : h'.Ok) (hx : View.run (.body h' []) x = some (.body h [])) :
    x = [] ∧ h' = h := by
  rcases run_body hok (.inl rfl) hx with ⟨hw, -⟩ | ⟨hw, -, -⟩
  · obtain ⟨rfl, hnil⟩ := View.body.inj hw
    exact ⟨by simpa using hnil.symm, rfl⟩
  · cases hw

/-- A call goes on to the body with what stands behind the head. -/
theorem Reaches.crosses {v : View} (hr : Reaches v (x ++ k) c) (hx : 0 ∉ x)
    (hhead : ∀ h₁ t, AtHead h₁ (x ++ k) t → View.run (.head h₁ []) x = some (.body h []) →
      ∃ t', processHttp t = processHttp t' ∧ AtBody h [] k t')
    (hw : View.run v x = some (.body h [])) :
    ∃ t, processHttp c = processHttp t ∧ AtBody h [] k t := by
  cases hr with
  | head h₁ hv t same at_head =>
    subst hv
    obtain ⟨t', ht', hat⟩ := hhead h₁ t at_head hw
    exact ⟨t', same.trans ht', hat⟩
  | body h₁ hv t same at_body =>
    subst hv
    obtain ⟨rfl, rfl⟩ := run_body_end at_body.ok hw
    exact ⟨t, same, at_body⟩
  | rejected hv sim =>
    subst hv
    rw [View.run_rejected hx] at hw
    cases hw
  | called call hv sim =>
    subst hv
    cases run_called hw

theorem head_crosses {n : ℕ} : ∀ {x : Bytes}, x.length < n → 0 ∉ x → ∀ {h₁ : Head} {c : Client},
    AtHead h₁ (x ++ k) c → View.run (.head h₁ []) x = some (.body h []) →
      ∃ t, processHttp c = processHttp t ∧ AtBody h [] k t := by
  induction n with
  | zero =>
    intro x hn
    omega
  | succ n ih =>
    intro x hn hx h₁ c hc hw
    rcases split_lf x with hlf | ⟨l, x', rfl, hlf⟩
    · rw [View.run_head hx hlf] at hw
      cases hw
    · have hl : 0 ∉ l := fun h0 => hx (List.mem_append_left _ h0)
      have hx' : 0 ∉ x' := fun h0 => hx (List.mem_append_right _ (List.mem_cons_of_mem _ h0))
      simp only [List.length_append, List.length_cons] at hn
      rw [View.run_head_lf hl hlf] at hw
      obtain ⟨v, hdone, hw⟩ := Option.bind_eq_some_iff.mp hw
      rw [List.append_assoc, List.cons_append] at hc
      exact (head_reaches hc hl hlf hdone).crosses hx'
        (fun _ _ hat hrun => ih (by omega) hx' hat hrun) hw

theorem line_crosses (hx : 0 ∉ x) (hget : x.take 4 = bytes "GET ") (hc : AtLine (x ++ k) c)
    (hw : View.run (.line []) x = some (.body h [])) :
    ∃ t, processHttp c = processHttp t ∧ AtBody h [] k t := by
  rcases split_lf x with hlf | ⟨l, x', rfl, hlf⟩
  · rw [View.run_line hx hlf] at hw
    cases hw
  · have hl : 0 ∉ l := fun h0 => hx (List.mem_append_left _ h0)
    have hx' : 0 ∉ x' := fun h0 => hx (List.mem_append_right _ (List.mem_cons_of_mem _ h0))
    rw [View.run_line_lf hl hlf] at hw
    rw [List.append_assoc, List.cons_append] at hc
    refine (line_reaches hc hl hlf ?_).crosses hx'
      (fun _ _ hat hrun => head_crosses (Nat.lt_succ_self _) hx' hat hrun) hw
    rintro rfl
    exact absurd hget (by simp [bytes])

/-- The read that ends the head: what it brings of the key is still to be counted. -/
theorem receive_crosses {v : View} {r : Read} (hs : Sim v c) (hr : r.bytes = x ++ k) (hx : 0 ∉ x)
    (hget : ∀ t, v = .line t → (t ++ x).take 4 = bytes "GET ")
    (hw : View.run v x = some (.body h [])) :
    ∃ t, receive c r = processHttp t ∧ AtBody h [] k t := by
  have hstored : ∀ {t : Bytes}, t ++ r.bytes = t ++ x ++ k := by
    intro t
    rw [hr, List.append_assoc]
  have hadd : ∀ {t : Bytes}, 0 ∉ t → 0 ∉ t ++ x := by
    intro t ht h0
    rcases List.mem_append.mp h0 with h0 | h0
    · exact ht h0
    · exact hx h0
  cases hs with
  | @line t _ at_line nul noLf =>
    refine line_crosses (c := stored c r) (hadd nul) (hget t rfl) ⟨?_, at_line.http⟩ ?_
    · rw [← hstored]
      exact at_line.live.stored r
    · rw [View.run_append, View.run_line nul noLf]
      exact hw
  | @head h₁ t _ at_head nul noLf =>
    refine head_crosses (c := stored c r) (Nat.lt_succ_self _) (hadd nul)
      ⟨?_, at_head.ok, at_head.step, at_head.read, at_head.knows⟩ ?_
    · rw [← hstored]
      exact at_head.live.stored r
    · rw [View.run_append, View.run_head nul noLf]
      exact hw
  | @body h₁ t _ at_body nul short =>
    rcases run_body at_body.ok short hw with ⟨heq, -⟩ | ⟨heq, -, -⟩
    · obtain ⟨rfl, hnil⟩ := View.body.inj heq
      obtain ⟨rfl, rfl⟩ : t = [] ∧ x = [] := by simpa using hnil.symm
      refine ⟨stored c r, rfl, ?_, at_body.ok, at_body.step, at_body.read, at_body.knows⟩
      have hlive := at_body.live.stored r
      rw [hr] at hlive
      exact hlive
    · cases heq
  | rejected error log =>
    rw [View.run_rejected hx] at hw
    cases hw
  | called error log => cases run_called hw

end Crossing

/-! ## The key -/

/-- One call has been made, and `http->data` points at the key. -/
structure KeyCalled (key : Bytes) (c : Client) : Prop where
  once : ∃ call, c.log = [call]
  data : ∃ p, c.http.data = some (c.base + p) ∧ (c.mem.drop p).take key.length = key

/-- There is no call before the last of the reads, and the one for the key with it. -/
def Awaits (key : Bytes) : Client → List Read → Prop
  | c, [] => KeyCalled key c
  | c, r :: reads => c.log = [] ∧ Awaits key (receive c r) reads

/-- No read brings a NUL as its first byte behind the head, of which `skip` bytes are to come. -/
def NoNulFirst : ℕ → List Read → Prop
  | _, [] => True
  | skip, r :: reads =>
    (r.bytes.drop skip).head? ≠ some 0 ∧ NoNulFirst (skip - r.bytes.length) reads

section Key

variable {h : Head} {t u : Bytes} {c : Client} {reads : List Read}

theorem body_called (hc : AtBody h t u c) (hne : u ≠ []) (hfirst : u.head? ≠ some 0)
    (hfull : h.contentlength = (t ++ u).length) : KeyCalled (t ++ u) (processHttp c) := by
  obtain ⟨pre, j, hpre, hmem, hdata, -, hlog⟩ := body_full hc hne hfirst (.inr hfull)
  refine ⟨⟨_, hlog⟩, h.done.length, hdata, ?_⟩
  rw [hmem, ← hpre, List.append_assoc, List.drop_left, List.take_left]

theorem AtBody.stored (hc : AtBody h t u c) (r : Read) : AtBody h t (u ++ r.bytes) (stored c r) :=
  ⟨hc.live.stored r, hc.ok, hc.step, hc.read, hc.knows⟩

/-- A NUL that is to be counted next stays there. -/
theorem AtBody.stuck (hc : AtBody h t (0 :: u) c) : AtBody h t (0 :: u) (processHttp c) := by
  obtain ⟨mem, hp, hlive⟩ := hc.live.process_nul rfl
  rw [hp]
  exact ⟨hlive, hc.ok, hc.step, hc.read, hc.knows⟩

theorem AtBody.never (hc : AtBody h t (0 :: u) c) (key : Bytes) : ¬ Awaits key c reads := by
  induction reads generalizing u c with
  | nil =>
    rintro ⟨⟨call, hlog⟩, -⟩
    rw [hc.live.log] at hlog
    cases hlog
  | cons r reads ih =>
    rintro ⟨-, hrest⟩
    exact ih (hc.stored r).stuck hrest

/-- The bytes of one call, and the reads after it. -/
theorem body_awaits (hc : AtBody h t u c) (hreads : ∀ r ∈ reads, r.bytes ≠ [])
    (hne : u ≠ [] ∨ reads ≠ [])
    (hfull : h.contentlength = (t ++ u ++ reads.flatMap Read.bytes).length) :
    Awaits (t ++ u ++ reads.flatMap Read.bytes) (processHttp c) reads ↔
      u.head? ≠ some 0 ∧ NoNulFirst 0 reads := by
  induction reads generalizing t u c with
  | nil =>
    have hu : u ≠ [] := hne.resolve_right fun h => h rfl
    rw [List.flatMap_nil, List.append_nil] at hfull ⊢
    by_cases hfirst : u.head? = some 0
    · obtain ⟨u, rfl⟩ := List.head?_eq_some_iff.mp hfirst
      exact ⟨fun hw => absurd hw (hc.stuck.never _), fun hw => absurd hfirst hw.1⟩
    · exact ⟨fun _ => ⟨hfirst, trivial⟩, fun _ => body_called hc hu hfirst hfull⟩
  | cons r reads ih =>
    have hr := hreads r List.mem_cons_self
    have hrest : ∀ r ∈ reads, r.bytes ≠ [] := fun x hx => hreads x (List.mem_cons_of_mem r hx)
    by_cases hfirst : u.head? = some 0
    · obtain ⟨u, rfl⟩ := List.head?_eq_some_iff.mp hfirst
      exact ⟨fun hw => absurd hw (hc.stuck.never _), fun hw => absurd hfirst hw.1⟩
    · have hnext : AtBody h (t ++ u) [] (processHttp c) := by
        by_cases hu : u = []
        · subst hu
          obtain ⟨mem, hp, hlive⟩ := hc.live.process_nil
          rw [hp, List.append_nil]
          exact ⟨hlive, hc.ok, hc.step, hc.read, hc.knows⟩
        · apply body_counted hc hu hfirst
          have hpos := List.length_pos_iff.mpr hr
          rw [hfull, List.flatMap_cons]
          simp only [List.length_append]
          omega
      rw [List.flatMap_cons, ← List.append_assoc] at hfull ⊢
      have hiff := ih (hnext.stored r) hrest (.inl hr) hfull
      rw [List.nil_append] at hiff
      rw [Awaits, NoNulFirst, Nat.zero_sub, List.drop_zero, ← hiff]
      exact ⟨fun hw => ⟨hfirst, hw.2⟩, fun hw => ⟨hnext.live.log, hw.2⟩⟩

theorem Sim.log_eq_nil {v : View} (hs : Sim v c) (hv : ∀ call, v ≠ .called call) : c.log = [] := by
  cases hs with
  | line at_line => exact at_line.live.log
  | head at_head => exact at_head.live.log
  | body at_body => exact at_body.live.log
  | rejected error log => exact log
  | @called _ call error log => exact absurd rfl (hv call)

/-- The reads of a handshake from any point of its head on. -/
theorem head_awaits {v : View} {x key : Bytes} (hs : Sim v c) (hx : 0 ∉ x)
    (hget : ∀ t, v = .line t → (t ++ x).take 4 = bytes "GET ")
    (hw : View.run v x = some (.body h [])) (hlen : h.contentlength = key.length)
    (hkey : key ≠ []) (hreads : ∀ r ∈ reads, r.bytes ≠ [])
    (hall : reads.flatMap Read.bytes = x ++ key) :
    Awaits key c reads ↔ NoNulFirst x.length reads := by
  induction reads generalizing v x c with
  | nil =>
    obtain ⟨-, hnil⟩ : x = [] ∧ key = [] := by simpa using hall.symm
    exact absurd hnil hkey
  | cons r reads ih =>
    have hrest : ∀ r ∈ reads, r.bytes ≠ [] := fun y hy => hreads y (List.mem_cons_of_mem r hy)
    have hlog : c.log = [] := by
      apply hs.log_eq_nil
      rintro call rfl
      cases run_called hw
    rw [List.flatMap_cons] at hall
    rw [Awaits, NoNulFirst]
    rcases List.append_eq_append_iff.mp hall with ⟨x₂, hxr, hrs⟩ | ⟨k, hr, hk⟩
    · -- the read ends in the head
      subst hxr
      have hx₁ : 0 ∉ r.bytes := fun h0 => hx (List.mem_append_left _ h0)
      have hx₂ : 0 ∉ x₂ := fun h0 => hx (List.mem_append_right _ h0)
      rw [View.run_append] at hw
      obtain ⟨w, hw₁, hw₂⟩ := Option.bind_eq_some_iff.mp hw
      have hget₁ : ∀ t, v = .line t → (t ++ r.bytes ++ x₂).take 4 = bytes "GET " := by
        intro t ht
        rw [List.append_assoc]
        exact hget t ht
      have hnext : Sim w (receive c r) := by
        apply receive_sim hs (hreads r List.mem_cons_self) hx₁ _ hw₁
        intro t y ht hpost
        have := hget₁ t ht
        rw [hpost] at this
        exact absurd this (by simp [bytes])
      have hget₂ : ∀ t, w = .line t → (t ++ x₂).take 4 = bytes "GET " := by
        rintro t rfl
        obtain ⟨t', hv, rfl⟩ := run_to_line hw₁
        exact hget₁ t' hv
      have hdrop : r.bytes.drop (r.bytes ++ x₂).length = [] := by
        apply List.drop_eq_nil_of_le
        simp
      have hskip : (r.bytes ++ x₂).length - r.bytes.length = x₂.length := by simp
      rw [hdrop, hskip, ← ih hnext hx₂ hget₂ hw₂ hrest hrs]
      simp [hlog]
    · -- it brings the end of the head
      obtain ⟨t, hreceive, hat⟩ := receive_crosses hs hr hx hget hw
      have hne : k ≠ [] ∨ reads ≠ [] := by
        by_contra hno
        push Not at hno
        rw [hno.1, hno.2] at hk
        exact hkey (by simpa using hk)
      have hiff := body_awaits hat hrest hne (by rw [hlen, hk]; rfl)
      rw [List.nil_append, ← hk, ← hreceive] at hiff
      have hdrop : r.bytes.drop x.length = k := by rw [hr, List.drop_left]
      have hskip : x.length - r.bytes.length = 0 := by
        rw [hr, List.length_append]
        omega
      rw [hdrop, hskip, ← hiff]
      exact ⟨fun h => h.2, fun h => ⟨hlog, h⟩⟩

end Key

theorem handshake_awaits {r : Request} (hr : r.Handshake) {reads : List Read}
    (hreads : ∀ x ∈ reads, x.bytes ≠ []) (hall : reads.flatMap Read.bytes = r.bytes) :
    Awaits r.body newClient reads ↔ NoNulFirst r.head.length reads := by
  obtain ⟨h, hrun, hcl⟩ := hr.run_head
  refine head_awaits newClient_sim hr.nul ?_ hrun (by rw [hcl, hr.key]; rfl) ?_ hreads hall
  · intro t ht
    obtain rfl : t = [] := (View.line.inj ht).symm
    have hlen := congrArg List.length hr.get
    rw [List.length_take, show (bytes "GET ").length = 4 from rfl] at hlen
    rw [List.nil_append, Request.head, List.take_append_of_le_length (by omega)]
    exact hr.get
  · intro hnil
    have hlen := hr.key
    rw [hnil] at hlen
    cases hlen

/-- A handshake is called once, as soon as the eighth byte of its key has arrived and with the
key behind `http->data`, if and only if no read brings a NUL as its first byte of the key. -/
theorem keyAwaited_iff {r : Request} (hr : r.Handshake) {reads : List Read}
    (hreads : ∀ x ∈ reads, x.bytes ≠ []) (hall : reads.flatMap Read.bytes = r.bytes) :
    Awaits r.body newClient reads ↔ NoNulFirst r.head.length reads :=
  handshake_awaits hr hreads hall

/-- A handshake with a key, as it is sent. -/
def handshake (key : Bytes) : Request :=
  { line := bytes "GET / HTTP/1.1\r"
    headers := [bytes "Sec-WebSocket-Key1: 1 2\r"]
    blank := [cr]
    body := key }

theorem handshake_ok {key : Bytes} (hkey : key.length = 8) : (handshake key).Handshake :=
  { nul := by simp only [Request.head, handshake]; decide
    line_lf := by simp only [handshake]; decide
    header := by simp only [handshake]; decide
    blank := .inr rfl
    get := by simp only [handshake]; decide
    slash := by simp only [handshake]; decide
    target := by simp only [handshake]; decide
    key1 := by simp only [handshake]; decide
    key := hkey }

theorem keyAwaited_whole : ∃ reads : List Read,
    Awaits (handshake [1, 0, 3, 4, 5, 6, 7, 0]).body newClient reads := by
  refine ⟨[⟨(handshake [1, 0, 3, 4, 5, 6, 7, 0]).bytes, 0⟩],
    (keyAwaited_iff (handshake_ok rfl) ?_ (by simp)).mpr ?_⟩
  · simp [Request.bytes, handshake]
  · simp only [NoNulFirst, Request.bytes, List.drop_left]
    decide

/-- A key that begins with a NUL is not called, also when it comes with its head. -/
theorem nul_key_waits : ∃ (r : Request) (reads : List Read), r.Handshake ∧
    (∀ x ∈ reads, x.bytes ≠ []) ∧ reads.flatMap Read.bytes = r.bytes ∧
      ¬ Awaits r.body newClient reads := by
  have hreads : ∀ x ∈ [Read.mk (handshake [0, 2, 3, 4, 5, 6, 7, 8]).bytes 0], x.bytes ≠ [] := by
    simp [Request.bytes, handshake]
  refine ⟨handshake [0, 2, 3, 4, 5, 6, 7, 8], _, handshake_ok rfl, hreads, by simp, ?_⟩
  rw [handshake_awaits (handshake_ok rfl) hreads (by simp), NoNulFirst, Request.bytes,
    List.drop_left]
  exact fun h => h.1 rfl

end ApeServer.Http
