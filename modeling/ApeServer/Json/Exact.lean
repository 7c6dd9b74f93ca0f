import ApeServer.Json.Values

/-!
# What the parser accepts

A text is read to its end exactly if the grammar derives it and no more containers are open in it
than the stack has room for. One direction is an induction on the derivation, the other on the
length of the text: what is left of it after a member or an element is shorter.
-/
namespace ApeServer.Json

open Sock (Bytes)
open ApeServer.Json.Parser (jsonParserChar)

variable {F σ : Type} {cfg : Config F σ} {s s' : State} {t : JsonType} {stack rest : List Mode}
  {buf a b w : Bytes} {ctx ctx' : σ} {c : UInt8} {jc jc' : Parser σ} {es es₁ es₂ : List (Event F)}
  {kind : Kind} {f g h : σ → Parser σ} {first : Bool} {d : Doc F}

/-! ## What the grammar derives is read -/

/-- The text is read event by event. -/
def Reports (cfg : Config F σ) (f : σ → Parser σ) (b : Bytes) (es : List (Event F))
    (g : σ → Parser σ) : Prop :=
  ∀ ctx, run cfg (f ctx) b = (es.foldlM cfg.callback ctx).bind fun ctx => some (g ctx)

theorem Reports.append (h₁ : Reports cfg f a es₁ g) (h₂ : Reports cfg g b es₂ h) :
    Reports cfg f (a ++ b) (es₁ ++ es₂) h := by
  intro ctx
  rw [run_append, h₁ ctx, List.foldlM_append, Option.bind_assoc, Option.bind_eq_bind,
    Option.bind_assoc]
  congr 1
  funext ctx
  exact h₂ ctx

theorem reports_blank (hs : s ∈ [State.GO, .OK, .OB, .KE, .CO, .VA, .AR]) (hw : Blank w) :
    Reports cfg (reading s .none stack []) w [] (reading s .none stack []) :=
  fun _ => run_blank hs hw

/-- The quotation mark behind a key. -/
theorem char_keyEnd {v : Bytes} :
    jsonParserChar cfg (reading .ST .string (.key :: rest) v ctx) (chr '"') =
      (cfg.callback ctx (.key v)).bind fun ctx =>
        some (reading .CO .none (.key :: rest) [] ctx) := by
  rw [char_action (k := .QUOTE) rfl (.inl (by decide)) rfl]
  simp [Parser.act, Parser.endString, Option.bind_assoc]

theorem reports_key (hcfg : cfg.allowComments = false) {cs : List Char} (hcs : CharsText cs b)
    (hs : s = .OB ∨ s = .KE) :
    Reports cfg (reading s .none (.key :: rest) []) (quoted b) [.key (utf8 cs)]
      (reading .CO .none (.key :: rest) []) := by
  intro ctx
  have hquote : jsonParserChar cfg (reading s .none (.key :: rest) [] ctx) (chr '"') =
      some (reading .ST .string (.key :: rest) [] ctx) := char_quote (by tauto)
  rw [quoted, List.cons_append, run_cons, hquote, Option.bind_some, run_append, hcs.run hcfg,
    Option.bind_some, run_single, List.nil_append, char_keyEnd]
  simp

theorem reports_colon (hd : rest.length ≤ cfg.depth) :
    Reports cfg (reading .CO .none (.key :: rest) []) [chr ':'] []
      (reading .VA .none (.object :: rest) []) := fun ctx => by
  rw [run_single, char_colon hd]
  rfl

theorem MemberText.reports (hcfg : cfg.allowComments = false) {name : Option Bytes}
    (h : MemberText kind name b) (hs : kind.Starts s) (hd : rest.length ≤ cfg.depth) :
    ∃ s', (s' = .VA ∨ s' = .AR) ∧ Reports cfg (reading s .none (kind.mode :: rest) []) b
      (Doc.nameEvents name) (reading s' .none (kind.valueMode :: rest) []) := by
  cases h with
  | element hw =>
    refine ⟨s, hs.symm, reports_blank ?_ hw⟩
    rcases hs with rfl | rfl <;> decide
  | member hcs hw₁ hw₂ hw₃ =>
    have hwhite : s ∈ [State.GO, .OK, .OB, .KE, .CO, .VA, .AR] := by
      rcases hs with rfl | rfl <;> decide
    refine ⟨.VA, .inl rfl, ?_⟩
    exact (((reports_blank hwhite hw₁).append (reports_key hcfg hcs hs)).append
      ((reports_blank (by decide) hw₂).append (reports_colon hd))).append
      (reports_blank (by decide) hw₃)

/-- The parser before a member or an element or before the bracket after them, with the events
it has not reported yet. -/
inductive Turn (cfg : Config F σ) (kind : Kind) (rest : List Mode) :
    Bool → (σ → Parser σ) → List (Event F) → Prop where
  | first : Turn cfg kind rest Bool.true (reading kind.openState .none (kind.mode :: rest) []) []
  | after {t : JsonType} {buf : Bytes} {es : List (Event F)} : Waits cfg t buf es →
      Turn cfg kind rest Bool.false (reading .OK t (kind.valueMode :: rest) buf) es

/-- The bracket behind no members or elements at all. -/
theorem reports_empty : Reports cfg (reading kind.openState .none (kind.mode :: rest) [])
    (closeText kind.childType) [kind.endEvent] (reading .OK .none rest []) := by
  intro ctx
  cases kind with
  | obj =>
    change run cfg _ [125] = _
    rw [run_single, char_action (k := .RCURB) (a := .a9) rfl (.inr (by decide)) rfl]
    simp [Parser.act, Option.bind_assoc, Kind.mode]
    rfl
  | arr =>
    change run cfg _ [93] = _
    rw [run_single, char_action (k := .RSQRB) (a := .a7) rfl (.inr (by decide)) rfl, Parser.act,
      Parser.closeContainer, popBack_reading, Option.bind_eq_bind, Option.bind_some]
    simp [Parser.parseParseBuffer, Option.bind_assoc, Kind.mode]
    rfl

theorem Waits.reports {es' : List (Event F)} (hw : Waits cfg t buf es) (hb : Blank w)
    (h : ∀ buf', Held cfg .OK t buf' es → Reports cfg (reading .OK t stack buf') b es' g) :
    Reports cfg (reading .OK t stack buf) (w ++ b) es' g := by
  obtain ⟨buf', hheld, hrun⟩ := hw w hb
  intro ctx
  rw [run_append, hrun, Option.bind_some]
  exact h buf' hheld ctx

theorem Turn.close (ht : Turn cfg kind rest first f es) (hw : Blank w) :
    Reports cfg f (w ++ closeText kind.childType) (es ++ [kind.endEvent])
      (reading .OK .none rest []) := by
  cases ht with
  | first => exact (reports_blank (by cases kind <;> decide) hw).append reports_empty
  | after hwait => exact hwait.reports hw fun _ hheld _ => hheld.close

theorem Turn.sep {sep : Bytes} (ht : Turn cfg kind rest first f es) (hsep : SepText first sep)
    (hd : rest.length ≤ cfg.depth) :
    ∃ s, kind.Starts s ∧ Reports cfg f sep es (reading s .none (kind.mode :: rest) []) := by
  cases hsep with
  | first =>
    cases ht with
    | first => exact ⟨_, kind.starts_open, fun _ => rfl⟩
  | comma hw =>
    cases ht with
    | after hwait =>
      refine ⟨_, kind.starts_comma, hwait.reports hw fun buf' hheld ctx => ?_⟩
      change run cfg _ [chr ','] = _
      rw [run_single, hheld.comma hd]

theorem ItemsText.stops {p : UInt8} {strtod : Bytes → F} (h : ItemsText p strtod kind first d b)
    (hf : first = false) : ∃ c b₁, b = c :: b₁ ∧ Stops c := by
  have hblank : ∀ {w b : Bytes} {c : UInt8}, Blank w → Stops c →
      ∃ c₁ b₁, w ++ c :: b = c₁ :: b₁ ∧ Stops c₁ := by
    intro w b c hw hc
    cases w with
    | nil => exact ⟨c, b, rfl, hc⟩
    | cons c₁ w =>
      refine ⟨c₁, w ++ c :: b, rfl, ?_⟩
      rw [Stops, ending, if_pos (hw c₁ List.mem_cons_self)]
      decide
  have hsep : ∀ {sep b : Bytes}, SepText first sep → ∃ c₁ b₁, sep ++ b = c₁ :: b₁ ∧ Stops c₁ := by
    intro sep b hsep
    subst hf
    cases hsep with
    | comma hw =>
      obtain ⟨c₁, b₁, hb, hc₁⟩ := hblank (b := b) (c := chr ',') hw (by decide)
      exact ⟨c₁, b₁, by rw [← hb, List.append_assoc]; rfl, hc₁⟩
  cases h with
  | close hw =>
    cases kind
    · exact hblank (b := []) (c := 125) hw (by decide)
    · exact hblank (b := []) (c := 93) hw (by decide)
  | scalar hs _ _ _ =>
    rw [List.append_assoc, List.append_assoc]
    exact hsep hs
  | node hs _ _ _ =>
    rw [List.append_assoc, List.append_assoc, List.append_assoc]
    exact hsep hs

theorem Kind.valueMode_cases (kind : Kind) :
    kind.valueMode = .object ∨ kind.valueMode = .array := by
  cases kind
  · exact .inl rfl
  · exact .inr rfl

/-- Members and elements are read, by induction on their text. -/
theorem ItemsText.reports (hcfg : cfg.allowComments = false) (hstr : Stable cfg.strtod)
    (hi : ItemsText cfg.decimalPoint cfg.strtod kind first d b)
    (ht : Turn cfg kind rest first f es) (hd : rest.length + d.depth ≤ cfg.depth) :
    Reports cfg f b (es ++ (d.events ++ [kind.endEvent])) (reading .OK .none rest []) := by
  induction hi generalizing f es rest with
  | close hw => exact ht.close hw
  | @scalar kind first name v next sep nm val tail hsep hname hval hnext ih =>
    rw [Doc.depth] at hd
    have hlen : rest.length ≤ cfg.depth := by omega
    obtain ⟨s, hs, hlead⟩ := ht.sep hsep hlen
    obtain ⟨s', hs', hnm⟩ := hname.reports hcfg hs hlen
    obtain ⟨t, buf, es₁, es₂, hafter, htaken⟩ := hval.taken hcfg hstr
    obtain ⟨c, b₁, rfl, hc⟩ := hnext.stops rfl
    have hrest := ih (.after hafter.waits) hd
    have hv : Reports cfg (reading s' .none (kind.valueMode :: rest) []) (val ++ c :: b₁)
        (es₁ ++ (es₂ ++ (next.events ++ [kind.endEvent]))) (reading .OK .none rest []) := by
      intro ctx
      rw [htaken s' _ rest ctx c b₁ hs' kind.valueMode_cases hc, List.foldlM_append,
        Option.bind_eq_bind, Option.bind_assoc]
      congr 1
      funext ctx
      exact hrest ctx
    have hall := (hlead.append hnm).append hv
    have hevents : es ++ Doc.nameEvents name ++
        (es₁ ++ (es₂ ++ (next.events ++ [kind.endEvent]))) =
          es ++ ((Doc.scalar name v next).events ++ [kind.endEvent]) := by
      rw [Doc.events, ← List.singleton_append (x := v.event), hafter.event]
      simp only [List.append_assoc]
    rwa [hevents, ← List.append_assoc] at hall
  | @node kind kind' first name child next sep nm inner tail hsep hname _ _ ihc ihn =>
    rw [Doc.depth] at hd
    have hlen : rest.length ≤ cfg.depth := by omega
    obtain ⟨s, hs, hlead⟩ := ht.sep hsep hlen
    obtain ⟨s', hs', hnm⟩ := hname.reports hcfg hs hlen
    have hopen : Reports cfg (reading s' .none (kind.valueMode :: rest) [])
        (openText kind'.childType) [kind'.beginEvent]
        (reading kind'.openState .none (kind'.mode :: kind.valueMode :: rest) []) := by
      intro ctx
      rw [run_open (by tauto) (by rw [List.length_cons]; omega)]
      simp
    have hchild := ihc (.first : Turn cfg kind' (kind.valueMode :: rest) _ _ _)
      (by rw [List.length_cons]; omega)
    have hall := (((hlead.append hnm).append hopen).append hchild).append
      (ihn (.after waits_nil) (by omega))
    have hevents : (es ++ Doc.nameEvents name ++ [kind'.beginEvent] ++
          ([] ++ (child.events ++ [kind'.endEvent]))) ++ ([] ++ (next.events ++ [kind.endEvent])) =
        es ++ ((Doc.node name kind' child next).events ++ [kind.endEvent]) := by
      rw [Doc.events]
      simp only [List.append_assoc, List.nil_append, List.cons_append]
    rwa [hevents] at hall

/-! ## What is read is derived by the grammar -/

theorem takeWhile_blank (b : Bytes) : Blank (b.takeWhile isWs) :=
  fun _ hc => List.mem_takeWhile_imp hc

theorem Ends.skip (hs : s ∈ [State.GO, .OK, .OB, .KE, .CO, .VA, .AR])
    (h : Ends cfg (reading s .none stack [] ctx) b jc') :
    ∃ w b₁, Blank w ∧ b = w ++ b₁ ∧ (∀ c b₂, b₁ = c :: b₂ → isWs c = false) ∧
      Ends cfg (reading s .none stack [] ctx) b₁ jc' := by
  have hb : b = b.takeWhile isWs ++ b.dropWhile isWs := List.takeWhile_append_dropWhile.symm
  refine ⟨_, _, takeWhile_blank b, hb, ?_, ?_⟩
  · intro c b₂ hc
    have := List.head?_dropWhile_not isWs b
    rw [hc] at this
    simpa using this
  · rw [hb] at h
    exact (ends_append (run_blank hs (takeWhile_blank b))).mp h

/-- A byte that is no blank, where nothing is held. -/
theorem char_free (hcfg : cfg.allowComments = false) (hc : isWs c = false) :
    jsonParserChar cfg (reading s .none stack [] ctx) c =
      follow cfg (reading s .none stack [c] ctx) (row s c) := by
  rw [← within_zero, char_entry hcfg, if_neg (by simp [hc]), entry_eq]
  rfl

/-- The key of a member, and its colon. -/
theorem Ends.key (hcfg : cfg.allowComments = false) (hs : s = .OB ∨ s = .KE)
    (h : Ends cfg (reading s .none (.key :: rest) [] ctx) (chr '"' :: b) jc') :
    ∃ cs a w₁ w₂ b₁ ctx', CharsText cs a ∧ Blank w₁ ∧ Blank w₂ ∧
      chr '"' :: b = quoted a ++ (w₁ ++ [chr ':']) ++ w₂ ++ b₁ ∧
      cfg.callback ctx (.key (utf8 cs)) = some ctx' ∧
      (∃ c b₂, b₁ = c :: b₂ ∧ row .VA c = opening c) ∧
      Ends cfg (reading .VA .none (.object :: rest) [] ctx') b₁ jc' := by
  have hquote : jsonParserChar cfg (reading s .none (.key :: rest) [] ctx) (chr '"') =
      some (reading .ST .string (.key :: rest) [] ctx) := char_quote (by tauto)
  obtain ⟨cs, a, b₁, jc₁, hcs, rfl, hact, h₁⟩ := ((ends_cons hquote).mp h).chars hcfg
  have hend : (reading .ST .string (.key :: rest) ([] ++ utf8 cs ++ [chr '"']) ctx).act cfg .a4 =
      (cfg.callback ctx (.key (utf8 cs))).bind fun ctx =>
        some (reading .CO .none (.key :: rest) [] ctx) := by
    simp [Parser.act, Parser.endString, Option.bind_assoc]
  rw [hend, Option.bind_eq_some_iff] at hact
  obtain ⟨ctx₁, hcall, hjc⟩ := hact
  obtain rfl := Option.some.inj hjc
  obtain ⟨w₁, b₂, hw₁, rfl, hhead, h₂⟩ := h₁.skip (by decide)
  obtain ⟨c, b₃, jc₂, rfl, hchar, h₃⟩ := h₂.step rfl
  have hcolon : c = chr ':' := by
    by_contra hne
    rw [char_free hcfg (hhead c b₃ rfl), row, if_neg (by simp [hhead c b₃ rfl]), if_neg hne]
      at hchar
    cases hchar
  subst hcolon
  have hleads : Leads cfg (reading .CO .none (.key :: rest) []) [chr ':'] []
      (reading .VA .none (.object :: rest) []) := leads_colon
  obtain ⟨ctx₂, hes, rfl⟩ := hleads ctx₁ jc₂ ((run_single _).trans hchar)
  obtain rfl := Option.some.inj hes
  obtain ⟨w₂, b₄, hw₂, rfl, hhead₂, h₄⟩ := h₃.skip (by decide)
  obtain ⟨c₂, b₅, jc₃, rfl, -, -⟩ := h₄.step rfl
  refine ⟨cs, a, w₁, w₂, _, ctx₁, hcs, hw₁, hw₂, by simp [quoted], hcall,
    ⟨c₂, b₅, rfl, ?_⟩, h₄⟩
  rw [row, if_neg (by simp [hhead₂ c₂ b₅ rfl])]

/-- A container ends before its first member or element, or has what comes before a value. -/
theorem Ends.name (hcfg : cfg.allowComments = false) (hs : kind.Starts s)
    (h : Ends cfg (reading s .none (kind.mode :: rest) [] ctx) b jc') :
    (s = kind.openState ∧ ∃ w b₁ ctx', Blank w ∧ b = w ++ closeText kind.childType ++ b₁ ∧
      cfg.callback ctx kind.endEvent = some ctx' ∧
      Ends cfg (reading .OK .none rest [] ctx') b₁ jc') ∨
    ∃ name nm b₁ ctx' s', MemberText kind name nm ∧ b = nm ++ b₁ ∧
      (Doc.nameEvents name).foldlM cfg.callback ctx = some ctx' ∧ (s' = .VA ∨ s' = .AR) ∧
      (∃ c b₂, b₁ = c :: b₂ ∧ row s' c = opening c) ∧
      Ends cfg (reading s' .none (kind.valueMode :: rest) [] ctx') b₁ jc' := by
  have hclose : ∀ {w b₁ : Bytes}, s = kind.openState → Blank w →
      b = w ++ closeText kind.childType ++ b₁ →
      Ends cfg (reading s .none (kind.mode :: rest) [] ctx) (closeText kind.childType ++ b₁) jc' →
      ∃ w b₁ ctx', Blank w ∧ b = w ++ closeText kind.childType ++ b₁ ∧
        cfg.callback ctx kind.endEvent = some ctx' ∧
        Ends cfg (reading .OK .none rest [] ctx') b₁ jc' := by
    rintro w b₁ rfl hw hb h
    have hrun : run cfg (reading kind.openState .none (kind.mode :: rest) [] ctx)
        (closeText kind.childType) = _ := reports_empty ctx
    rw [Ends, run_append, hrun] at h
    cases hcall : cfg.callback ctx kind.endEvent with
    | none =>
      rw [List.foldlM_cons, hcall] at h
      cases h.1
    | some ctx' =>
      rw [List.foldlM_cons, hcall] at h
      exact ⟨w, b₁, ctx', hw, hb, rfl, h⟩
  have hwhite : s ∈ [State.GO, .OK, .OB, .KE, .CO, .VA, .AR] := by
    cases kind <;> rcases hs with rfl | rfl <;> decide
  obtain ⟨w, b₁, hw, rfl, hhead, h₁⟩ := h.skip hwhite
  have hdone : (reading s .none (kind.mode :: rest) [] ctx).jsonParserDone = false := by
    cases kind <;> rcases hs with rfl | rfl <;> rfl
  obtain ⟨c, b₂, jc₁, rfl, hchar, -⟩ := h₁.step hdone
  have hws := hhead c b₂ rfl
  rw [char_free hcfg hws] at hchar
  cases kind with
  | obj =>
    have hrow : c = chr '"' ∨ s = .OB ∧ c = chr '\x7d' := by
      by_contra hne
      rw [not_or, not_and] at hne
      have hxx : row s c = .xx := by
        rcases hs with rfl | rfl <;> simp [row, hws, hne.1]
        exact hne.2 rfl
      rw [hxx] at hchar
      cases hchar
    rcases hrow with rfl | ⟨rfl, rfl⟩
    · obtain ⟨cs, a, w₁, w₂, b₃, ctx', hcs, hw₁, hw₂, hb, hcall, hnext, h₂⟩ := h₁.key hcfg hs
      refine .inr ⟨_, _, b₃, ctx', .VA, .member hcs hw hw₁ hw₂, ?_, ?_, .inl rfl, hnext, h₂⟩
      · rw [hb]
        simp only [List.append_assoc]
      · simp [Doc.nameEvents, hcall]
    · exact .inl ⟨rfl, hclose rfl hw (by simp [closeText, Kind.childType, text]) h₁⟩
  | arr =>
    rcases hs with rfl | rfl
    · by_cases hc : c = chr ']'
      · subst hc
        exact .inl ⟨rfl, hclose rfl hw (by simp [closeText, Kind.childType, text]) h₁⟩
      · refine .inr ⟨none, w, _, ctx, .AR, .element hw, rfl, rfl, .inr rfl, ⟨c, b₂, rfl, ?_⟩, h₁⟩
        rw [row, if_neg (by simp [hws]), if_neg hc]
    · refine .inr ⟨none, w, _, ctx, .VA, .element hw, rfl, rfl, .inl rfl, ⟨c, b₂, rfl, ?_⟩, h₁⟩
      rw [row, if_neg (by simp [hws])]

/-- A container that is opened has room on the stack. -/
theorem Ends.opened (hcfg : cfg.allowComments = false) (hs : s = .VA ∨ s = .AR ∨ s = .GO)
    (hlen : stack.length ≤ cfg.depth + 1)
    (h : Ends cfg (reading s .none stack [] ctx) (openText kind.childType ++ b) jc') :
    stack.length ≤ cfg.depth ∧ ∃ ctx', cfg.callback ctx kind.beginEvent = some ctx' ∧
      Ends cfg (reading kind.openState .none (kind.mode :: stack) [] ctx') b jc' := by
  by_cases hfull : stack.length = cfg.depth + 1
  · have hpush : ∀ (e : Event F) (m : Mode) (s' : State) (c : UInt8),
        (reading s .none stack [c] ctx).openContainer cfg e m s' = none := by
      intro e m s' c
      have hpop : (reading s .none stack [c] ctx).parseBufferPopBackChar =
        some (reading s .none stack [] ctx) := rfl
      simp only [Parser.openContainer, hpop, Option.bind_eq_bind, Option.bind_some,
        report_reading, Option.bind_assoc]
      cases cfg.callback ctx e with
      | none => rfl
      | some ctx' => simp [Parser.push, reading, hfull]
    have hnone : run cfg (reading s .none stack [] ctx) (openText kind.childType) = none := by
      cases kind with
      | obj =>
        change run cfg _ [chr '\x7b'] = none
        have hrow : row s (chr '\x7b') = .action .a6 := by rcases hs with rfl | rfl | rfl <;> rfl
        rw [run_single, char_free hcfg (by decide), hrow]
        exact hpush _ _ _ _
      | arr =>
        change run cfg _ [chr '['] = none
        have hrow : row s (chr '[') = .action .a5 := by rcases hs with rfl | rfl | rfl <;> rfl
        rw [run_single, char_free hcfg (by decide), hrow]
        exact hpush _ _ _ _
    rw [Ends, run_append, hnone] at h
    cases h.1
  · have hroom : stack.length ≤ cfg.depth := by omega
    refine ⟨hroom, ?_⟩
    rw [Ends, run_append, run_open hs hroom] at h
    cases hcall : cfg.callback ctx kind.beginEvent with
    | none =>
      rw [hcall] at h
      cases h.1
    | some ctx' =>
      rw [hcall] at h
      exact ⟨ctx', rfl, h⟩

/-- No container is closed by a bracket that its mode is not for. -/
theorem Held.close_other (hh : Held cfg .OK t buf es) {top m : Mode} (hm : top ≠ m) (e : Event F) :
    (reading .OK t (top :: rest) (buf ++ [c]) ctx).closeContainer cfg e m = none := by
  have hpop : ∀ ctx : σ, (reading .OK t (top :: rest) [] ctx).pop m = none := by
    intro ctx
    rw [Parser.pop]
    exact if_neg hm
  simp only [Parser.closeContainer, popBack_reading, Option.bind_eq_bind, Option.bind_some,
    hh.flush, Option.bind_assoc, report_reading, hpop, Option.bind_none, Option.bind_fun_none]

theorem Held.mismatch (hh : Held cfg .OK t buf es) {kind' : Kind} (hk : kind' ≠ kind) :
    run cfg (reading .OK t (kind.valueMode :: rest) buf ctx) (closeText kind'.childType) =
      none := by
  cases kind' with
  | obj =>
    change run cfg _ [125] = none
    rw [run_single, char_action (k := .RCURB) (a := .a8) rfl (.inr (by decide)) rfl]
    exact hh.close_other (by cases kind <;> simp [Kind.valueMode] at hk ⊢) _
  | arr =>
    change run cfg _ [93] = none
    rw [run_single, char_action (k := .RSQRB) (a := .a7) rfl (.inr (by decide)) rfl]
    exact hh.close_other (by cases kind <;> simp [Kind.valueMode] at hk ⊢) _

theorem ValueText.ne_nil {p : UInt8} {strtod : Bytes → F} {v : Scalar F}
    (h : ValueText p strtod v b) : b ≠ [] := by
  cases h with
  | string _ => simp [quoted]
  | integer hm => cases hm <;> simp
  | negative _ => simp
  | float hf =>
    cases hf with
    | exponent _ hm _ _ => cases hm <;> simp
    | _ => simp
  | _ => simp [text]

/-- What is left of the text begins with members or elements and the bracket after them. -/
def Derived (cfg : Config F σ) (kind : Kind) (rest : List Mode) (first : Bool)
    (es : List (Event F)) (ctx : σ) (b : Bytes) (jc' : Parser σ) : Prop :=
  ∃ d inner b₁ ctx', ItemsText cfg.decimalPoint cfg.strtod kind first d inner ∧ b = inner ++ b₁ ∧
    rest.length + d.depth ≤ cfg.depth ∧
    (es ++ (d.events ++ [kind.endEvent])).foldlM cfg.callback ctx = some ctx' ∧
    Ends cfg (reading .OK .none rest [] ctx') b₁ jc'

/-- The grammar derives what is read of every text shorter than `n`. -/
def Sound (cfg : Config F σ) (jc' : Parser σ) (n : ℕ) : Prop :=
  ∀ kind first f es rest ctx b, b.length < n → Turn cfg kind rest first f es →
    rest.length ≤ cfg.depth → Ends cfg (f ctx) b jc' → Derived cfg kind rest first es ctx b jc'

/-- A value and what comes after it, behind the separator `sep` and the name `nm`. -/
theorem Ends.item (hcfg : cfg.allowComments = false) (hstr : Stable cfg.strtod)
    (ih : Sound cfg jc' b.length) {name : Option Bytes} {sep nm : Bytes}
    (hsep : SepText first sep) (hname : MemberText kind name nm) (hs : s = .VA ∨ s = .AR)
    (hlen : rest.length ≤ cfg.depth) (hb : ∃ c b₂, b = c :: b₂ ∧ row s c = opening c)
    (h : Ends cfg (reading s .none (kind.valueMode :: rest) [] ctx) b jc') :
    ∃ d inner b₁ ctx' es', ItemsText cfg.decimalPoint cfg.strtod kind first d inner ∧
      sep ++ nm ++ b = inner ++ b₁ ∧ rest.length + d.depth ≤ cfg.depth ∧
      d.events = Doc.nameEvents name ++ es' ∧
      (es' ++ [kind.endEvent]).foldlM cfg.callback ctx = some ctx' ∧
      Ends cfg (reading .OK .none rest [] ctx') b₁ jc' := by
  obtain ⟨c, b₂, rfl, hrow⟩ := hb
  have hdone : (reading s .none (kind.valueMode :: rest) [] ctx).jsonParserDone = false := by
    rcases hs with rfl | rfl <;> rfl
  have hopening : opening c ≠ .xx := by
    intro hxx
    obtain ⟨c', b', jc₁, hc, hchar, -⟩ := h.step hdone
    obtain ⟨rfl, rfl⟩ := List.cons.inj hc
    rw [← within_zero, char_entry hcfg, entry_eq, hrow, hxx] at hchar
    cases hchar
  have hcontainer : ∀ {kind' : Kind}, c :: b₂ = openText kind'.childType ++ b₂ →
      ∃ d inner b₁ ctx' es', ItemsText cfg.decimalPoint cfg.strtod kind first d inner ∧
      sep ++ nm ++ (c :: b₂) = inner ++ b₁ ∧ rest.length + d.depth ≤ cfg.depth ∧
      d.events = Doc.nameEvents name ++ es' ∧
      (es' ++ [kind.endEvent]).foldlM cfg.callback ctx = some ctx' ∧
      Ends cfg (reading .OK .none rest [] ctx') b₁ jc' := by
    intro kind' hc
    rw [hc] at h
    obtain ⟨hroom, ctx₁, hbegin, h₁⟩ := h.opened hcfg (by tauto) (by rw [List.length_cons]; omega)
    obtain ⟨child, inner, b₃, ctx₂, hinner, rfl, hdepth, hes, h₂⟩ :=
      ih _ _ _ _ _ _ _ (by simp) .first hroom h₁
    obtain ⟨next, tail, b₄, ctx₃, htail, rfl, hdepth', hes', h₃⟩ :=
      ih _ _ _ _ _ _ _ (by simp) (.after waits_nil) hlen h₂
    refine ⟨.node name kind' child next, _, b₄, ctx₃,
      kind'.beginEvent :: (child.events ++ kind'.endEvent :: next.events),
      .node hsep hname hinner htail, ?_, ?_, rfl, ?_, h₃⟩
    · rw [hc]
      simp only [List.append_assoc]
    · rw [Doc.depth]
      rw [List.length_cons] at hdepth
      omega
    · have hsplit : kind'.beginEvent :: (child.events ++ kind'.endEvent :: next.events) ++
          [kind.endEvent] = kind'.beginEvent :: ([] ++ (child.events ++ [kind'.endEvent]) ++
            ([] ++ (next.events ++ [kind.endEvent]))) := by simp
      rw [hsplit, List.foldlM_cons, hbegin, Option.bind_eq_bind, Option.bind_some,
        List.foldlM_append, hes, Option.bind_eq_bind, Option.bind_some, hes']
  rcases opening_cases c hopening with rfl | rfl | hc
  · exact @hcontainer .obj rfl
  · exact @hcontainer .arr rfl
  obtain ⟨v, val, b₃, t, buf, es₁, es₂, ctx₁, hval, hb, hafter, hes, h₁⟩ :=
    h.value hcfg hstr hs kind.valueMode_cases hc
  have hshort : b₃.length < (c :: b₂).length := by
    have := List.length_pos_of_ne_nil hval.ne_nil
    rw [hb, List.length_append]
    omega
  obtain ⟨next, tail, b₄, ctx₂, htail, rfl, hdepth, hes', h₂⟩ :=
    ih _ _ _ _ _ _ _ hshort (.after hafter.waits) hlen h₁
  refine ⟨.scalar name v next, _, b₄, ctx₂, v.event :: next.events,
    .scalar hsep hname hval htail, ?_, hdepth, rfl, ?_, h₂⟩
  · rw [hb]
    simp only [List.append_assoc]
  · have hsplit : v.event :: next.events ++ [kind.endEvent] =
        es₁ ++ (es₂ ++ (next.events ++ [kind.endEvent])) := by
      rw [← List.append_assoc, ← hafter.event]
      rfl
    rw [hsplit, List.foldlM_append, hes, Option.bind_eq_bind, Option.bind_some, hes']

theorem ending_cases : ∀ c, isWs c = false → ending c ≠ .xx →
    c = chr '\x7d' ∨ c = chr ']' ∨ c = chr ',' :=
  forall_byte (by decide +kernel)

/-- Members and elements that are read are derived, by induction on the length of the text. -/
theorem sound (hcfg : cfg.allowComments = false) (hstr : Stable cfg.strtod) (jc' : Parser σ)
    (n : ℕ) : Sound cfg jc' n := by
  induction n with
  | zero =>
    intro kind first f es rest ctx b hb
    exact absurd hb (by omega)
  | succ n ih =>
    intro kind first f es rest ctx b hb ht hlen h
    have hitem : ∀ {s : State} {first : Bool} {sep b' : Bytes} {ctx₁ : σ}, kind.Starts s →
        (s = kind.openState → first = Bool.true) → SepText first sep → b'.length ≤ n →
        Ends cfg (reading s .none (kind.mode :: rest) [] ctx₁) b' jc' →
        ∃ d inner b₁ ctx', ItemsText cfg.decimalPoint cfg.strtod kind first d inner ∧
          sep ++ b' = inner ++ b₁ ∧ rest.length + d.depth ≤ cfg.depth ∧
          (d.events ++ [kind.endEvent]).foldlM cfg.callback ctx₁ = some ctx' ∧
          Ends cfg (reading .OK .none rest [] ctx') b₁ jc' := by
      intro s first sep b' ctx₁ hs hfirst hsep hb' h
      rcases h.name hcfg hs with ⟨hopen, w, b₁, ctx', hw, rfl, hcall, h₁⟩ |
        ⟨name, nm, b₁, ctx₂, s', hname, rfl, hes, hs', hnext, h₁⟩
      · obtain rfl := hfirst hopen
        cases hsep with
        | first =>
          refine ⟨.nil, _, b₁, ctx', .close hw, rfl, ?_, ?_, h₁⟩
          · rw [Doc.depth]
            omega
          · simp [Doc.events, hcall]
      · have hshort : Sound cfg jc' b₁.length := by
          intro kind' first' f' es' rest' ctx' b' hlt
          refine ih kind' first' f' es' rest' ctx' b' ?_
          rw [List.length_append] at hb'
          omega
        obtain ⟨d, inner, b₂, ctx', es', hinner, hbytes, hdepth, hev, hes', h₂⟩ :=
          h₁.item hcfg hstr hshort hsep hname hs' hlen hnext
        refine ⟨d, inner, b₂, ctx', hinner, by rw [← hbytes, List.append_assoc], hdepth, ?_, h₂⟩
        rw [hev, List.append_assoc, List.foldlM_append, hes, Option.bind_eq_bind,
          Option.bind_some, hes']
    cases ht with
    | first => exact hitem kind.starts_open (fun _ => rfl) .first (by omega) h
    | @after t buf es hwait =>
      have hblank := takeWhile_blank b
      have hb₀ : b = b.takeWhile isWs ++ b.dropWhile isWs :=
        List.takeWhile_append_dropWhile.symm
      obtain ⟨buf', hheld, hrun⟩ := hwait _ hblank
      have h₁ : Ends cfg (reading .OK t (kind.valueMode :: rest) buf' ctx) (b.dropWhile isWs)
          jc' := by
        rw [hb₀] at h
        exact (ends_append (hrun _ ctx)).mp h
      have hdone : (reading .OK t (kind.valueMode :: rest) buf' ctx).jsonParserDone = false := by
        cases kind <;> rfl
      obtain ⟨c, b₁, jc₁, hc, hchar, h₂⟩ := h₁.step hdone
      have hws : isWs c = false := by
        have := List.head?_dropWhile_not isWs b
        rw [hc] at this
        simpa using this
      have hending : ending c ≠ .xx := by
        intro hxx
        rw [← within_zero, char_entry hcfg, entry_eq, row, hxx] at hchar
        cases hchar
      rw [hc] at hb₀ h₁
      rw [hb₀]
      have hclose : ∀ kind' : Kind, closeText kind'.childType = [c] →
          Derived cfg kind rest Bool.false es ctx (b.takeWhile isWs ++ c :: b₁) jc' := by
        intro kind' hk'
        have hchar' : run cfg (reading .OK t (kind.valueMode :: rest) buf' ctx)
            (closeText kind'.childType) = some jc₁ := by
          rw [hk', run_single, hchar]
        by_cases hk : kind' = kind
        · subst hk
          rw [hheld.close, Option.bind_eq_some_iff] at hchar'
          obtain ⟨ctx', hes, hjc⟩ := hchar'
          obtain rfl := Option.some.inj hjc
          refine ⟨.nil, _, b₁, ctx', .close hblank, by rw [hk', List.append_assoc]; rfl, ?_, hes, h₂⟩
          rw [Doc.depth]
          omega
        · rw [hheld.mismatch hk] at hchar'
          cases hchar'
      rcases ending_cases c hws hending with rfl | rfl | rfl
      · exact hclose .obj rfl
      · exact hclose .arr rfl
      · obtain ⟨ctx₁, hes, rfl⟩ := hheld.leads_comma ctx jc₁ ((run_single _).trans hchar)
        have hlt : b₁.length ≤ n := by
          rw [hb₀, List.length_append, List.length_cons] at hb
          omega
        have hne : kind.commaState ≠ kind.openState := by
          cases kind <;> simp [Kind.commaState, Kind.openState]
        obtain ⟨d, inner, b₂, ctx', hinner, hbytes, hdepth, hes', h₃⟩ :=
          hitem kind.starts_comma (fun h => absurd h hne) (.comma hblank) hlt h₂
        refine ⟨d, inner, b₂, ctx', hinner, ?_, hdepth, ?_, h₃⟩
        · rw [← hbytes, List.append_assoc]
          rfl
        · rw [List.foldlM_append, hes, Option.bind_eq_bind, Option.bind_some, hes']

/-! ## Whole texts -/

/-- Nothing but blanks comes after the root. -/
theorem char_root (hcfg : cfg.allowComments = false) (hc : isWs c = false) :
    jsonParserChar cfg (reading .OK .none [.done] [] ctx) c = none := by
  rw [char_free hcfg hc, row]
  by_cases hx : ending c = .xx
  · rw [hx]
    rfl
  · rcases ending_cases c hc hx with rfl | rfl | rfl
    · exact held_nil.close_other (by decide) _
    · exact held_nil.close_other (by decide) _
    · rfl

/-- What is read to its end is blank or a text of a container. -/
theorem Ends.root (hcfg : cfg.allowComments = false) (hstr : Stable cfg.strtod)
    (h : Ends cfg (reading .GO .none [.done] [] ctx) b jc') :
    (Blank b ∧ jc' = reading .GO .none [.done] [] ctx) ∨
    ∃ kind d ctx', RootText cfg.decimalPoint cfg.strtod kind d b ∧ d.depth + 1 ≤ cfg.depth ∧
      (kind.beginEvent :: (d.events ++ [kind.endEvent])).foldlM cfg.callback ctx = some ctx' ∧
      jc' = reading .OK .none [.done] [] ctx' := by
  obtain ⟨w, b₁, hw, rfl, hhead, h₁⟩ := h.skip (by decide)
  cases b₁ with
  | nil =>
    rw [List.append_nil]
    exact .inl ⟨hw, (Option.some.inj h₁.1).symm⟩
  | cons c b₂ =>
    have hws := hhead c b₂ rfl
    have hroot : ∀ kind : Kind, [c] = openText kind.childType →
        ∃ kind d ctx', RootText cfg.decimalPoint cfg.strtod kind d (w ++ c :: b₂) ∧
          d.depth + 1 ≤ cfg.depth ∧
          (kind.beginEvent :: (d.events ++ [kind.endEvent])).foldlM cfg.callback ctx =
            some ctx' ∧ jc' = reading .OK .none [.done] [] ctx' := by
      intro kind hk
      have hb : c :: b₂ = openText kind.childType ++ b₂ := by
        rw [← hk]
        rfl
      rw [hb] at h₁
      obtain ⟨hroom, ctx₁, hbegin, h₂⟩ := h₁.opened hcfg (.inr (.inr rfl))
        (by rw [List.length_singleton]; omega)
      obtain ⟨d, inner, b₃, ctx₂, hinner, rfl, hdepth, hes, h₃⟩ :=
        sound hcfg hstr jc' _ _ _ _ _ _ _ _ (Nat.lt_succ_self _) .first hroom h₂
      obtain ⟨w', b₄, hw', rfl, hhead', h₄⟩ := h₃.skip (by decide)
      cases b₄ with
      | nil =>
        refine ⟨kind, d, ctx₂, ⟨w, inner, w', hw, hinner, hw', ?_⟩, ?_, ?_,
          (Option.some.inj h₄.1).symm⟩
        · rw [hb]
          simp
        · rw [List.length_singleton] at hdepth
          omega
        · rw [List.foldlM_cons, hbegin, Option.bind_eq_bind, Option.bind_some]
          exact hes
      | cons c' b₅ =>
        have hrun := h₄.1
        rw [run_cons, char_root hcfg (hhead' c' b₅ rfl)] at hrun
        cases hrun
    refine .inr ?_
    obtain ⟨c', b', jc₁, hc, hchar, -⟩ : ∃ c' b' jc₁, c :: b₂ = c' :: b' ∧
        jsonParserChar cfg (reading .GO .none [.done] [] ctx) c' = some jc₁ ∧
        Ends cfg jc₁ b' jc' := by
      have hrun := h₁.1
      rw [run_cons, Option.bind_eq_some_iff] at hrun
      obtain ⟨jc₁, hchar, hrun⟩ := hrun
      exact ⟨c, b₂, jc₁, rfl, hchar, hrun, h₁.2⟩
    obtain ⟨rfl, rfl⟩ := List.cons.inj hc
    rw [char_free hcfg hws, row, if_neg (by simp [hws])] at hchar
    by_cases hobj : c = chr '\x7b'
    · exact hroot .obj (by rw [hobj]; rfl)
    rw [if_neg hobj] at hchar
    by_cases harr : c = chr '['
    · exact hroot .arr (by rw [harr]; rfl)
    rw [if_neg harr] at hchar
    cases hchar

/-- A text of a container is read to its end, if there is room for those that are open in it. -/
theorem RootText.reports (hcfg : cfg.allowComments = false) (hstr : Stable cfg.strtod)
    (h : RootText cfg.decimalPoint cfg.strtod kind d b) (hd : d.depth + 1 ≤ cfg.depth) :
    Reports cfg (reading .GO .none [.done] []) b
      (kind.beginEvent :: (d.events ++ [kind.endEvent])) (reading .OK .none [.done] []) := by
  obtain ⟨w₁, inner, w₂, hw₁, hinner, hw₂, rfl⟩ := h
  have hroom : [Mode.done].length + d.depth ≤ cfg.depth := by
    rw [List.length_singleton]
    omega
  have hopen : Reports cfg (reading .GO .none [.done] []) (openText kind.childType)
      [kind.beginEvent] (reading kind.openState .none [kind.mode, .done] []) := by
    intro ctx
    rw [run_open (.inr (.inr rfl)) (by omega)]
    simp
  have hall := (((reports_blank (by decide) hw₁).append hopen).append
    (hinner.reports hcfg hstr .first hroom)).append (reports_blank (by decide) hw₂)
  simpa only [List.nil_append, List.append_nil, List.singleton_append] using hall

section Init

variable [Zero F] {decimalPoint : UInt8} {strtod : Bytes → F}

/-- The configuration of `init_json_parser`. -/
def initConfig (decimalPoint : UInt8) (strtod : Bytes → F) : Config F (Context F) :=
  { depth := 15, allowComments := false, decimalPoint, strtod, callback := Context.jsonCallback }

theorem initJsonParser_eq_some {text : Bytes} {h : Heap F} {head : Option ℕ} :
    initJsonParser decimalPoint strtod text = some (h, head) ↔
      ∃ jc, Ends (initConfig decimalPoint strtod) (reading .GO .none [.done] [] Context.start)
        (text.takeWhile (· ≠ 0)) jc ∧ jc.ctx.heap = h ∧ jc.ctx.head = head := by
  change ((run (initConfig decimalPoint strtod) _ _).bind fun jc => _) = _ ↔ _
  rw [Option.bind_eq_some_iff]
  constructor
  · rintro ⟨jc, hrun, hdone⟩
    by_cases hd : jc.jsonParserDone = true
    · rw [if_pos hd] at hdone
      obtain ⟨rfl, rfl⟩ := Prod.mk.inj (Option.some.inj hdone)
      exact ⟨jc, ⟨hrun, hd⟩, rfl, rfl⟩
    · rw [if_neg hd] at hdone
      cases hdone
  · rintro ⟨jc, ⟨hrun, hd⟩, rfl, rfl⟩
    exact ⟨jc, hrun, if_pos hd⟩

theorem RootText.initJsonParser (hstr : Stable strtod) {text : Bytes}
    (hr : RootText decimalPoint strtod kind d (text.takeWhile (· ≠ 0))) (hd : d.depth + 1 ≤ 15) :
    ∃ h head, Json.initJsonParser decimalPoint strtod text = some (h, head) ∧
      Holds h none head (Doc.node none kind d .nil).items := by
  obtain ⟨cx, hevents, hhead, hlaid, -⟩ := Doc.run_root kind d
  have hrun : run (initConfig decimalPoint strtod) _ _ = _ :=
    RootText.reports rfl hstr hr hd Context.start
  change (kind.beginEvent :: (d.events ++ [kind.endEvent])).foldlM
    (initConfig decimalPoint strtod).callback _ = _ at hevents
  rw [hevents, Option.bind_some] at hrun
  refine ⟨cx.heap, cx.head, initJsonParser_eq_some.mpr ⟨_, ⟨hrun, rfl⟩, rfl, rfl⟩, ?_⟩
  rw [hhead]
  exact hlaid.holds

/-- **The language.** A text is accepted exactly if it is blank up to its NUL, or is there a text
of a container with at most fifteen open at a time. -/
theorem initJsonParser_isSome_iff (hstr : Stable strtod) (text : Bytes) :
    (Json.initJsonParser decimalPoint strtod text).isSome ↔
      Blank (text.takeWhile (· ≠ 0)) ∨ ∃ kind d,
        RootText decimalPoint strtod kind d (text.takeWhile (· ≠ 0)) ∧ d.depth + 1 ≤ 15 := by
  rw [Option.isSome_iff_exists]
  constructor
  · rintro ⟨⟨h, head⟩, hin⟩
    obtain ⟨jc, hends, -, -⟩ := initJsonParser_eq_some.mp hin
    rcases hends.root rfl hstr with ⟨hblank, -⟩ | ⟨kind, d, ctx', hroot, hd, -, -⟩
    · exact .inl hblank
    · exact .inr ⟨kind, d, hroot, hd⟩
  · rintro (hblank | ⟨kind, d, hroot, hd⟩)
    · exact ⟨_, initJsonParser_eq_some.mpr ⟨_, ⟨run_blank (by decide) hblank, rfl⟩, rfl, rfl⟩⟩
    · obtain ⟨h, head, hin, -⟩ := hroot.initJsonParser hstr hd
      exact ⟨_, hin⟩

/-- A text is the text of one document only. -/
theorem RootText.unique (hstr : Stable strtod) {kind' : Kind} {d' : Doc F}
    (hr : RootText decimalPoint strtod kind d b) (hr' : RootText decimalPoint strtod kind' d' b) :
    kind = kind' ∧ d = d' := by
  let cfg : Config F (Context F) :=
    { initConfig decimalPoint strtod with depth := max d.depth d'.depth + 1 }
  obtain ⟨cx, hevents, -, hlaid, -⟩ := Doc.run_root kind d
  obtain ⟨cx', hevents', -, hlaid', -⟩ := Doc.run_root kind' d'
  have hrun : run cfg _ b = _ := RootText.reports rfl hstr hr
    (Nat.succ_le_succ (Nat.le_max_left _ _)) Context.start
  have hrun' : run cfg _ b = _ := RootText.reports rfl hstr hr'
    (Nat.succ_le_succ (Nat.le_max_right _ _)) Context.start
  change (kind.beginEvent :: (d.events ++ [kind.endEvent])).foldlM cfg.callback _ = _ at hevents
  change (kind'.beginEvent :: (d'.events ++ [kind'.endEvent])).foldlM cfg.callback _ = _ at hevents'
  rw [hevents, Option.bind_some] at hrun
  rw [hevents', Option.bind_some, hrun] at hrun'
  obtain rfl : cx = cx' := congrArg Parser.ctx (Option.some.inj hrun')
  have hitems : (Doc.node none kind d .nil).items = (Doc.node none kind' d' .nil).items :=
    (hlaid.holds : Holds cx.heap none (some 0) _).unique hlaid'.holds
  obtain ⟨hfields, hchild, -⟩ := Items.cons.inj hitems
  have hkind : kind.childType = kind'.childType := congrArg Fields.childType hfields
  refine ⟨?_, Doc.items_inj hchild⟩
  cases kind <;> cases kind' <;> first | rfl | cases hkind

/-- **The tree.** For a blank text no item is returned, and for any other that is accepted the
tree of the one document it is a text of. -/
theorem initJsonParser_tree (hstr : Stable strtod) {text : Bytes} {h : Heap F} {head : Option ℕ}
    (hin : Json.initJsonParser decimalPoint strtod text = some (h, head)) :
    (Blank (text.takeWhile (· ≠ 0)) ∧ head = none) ∨
    ∃ kind d, RootText decimalPoint strtod kind d (text.takeWhile (· ≠ 0)) ∧
      (∀ kind' d', RootText decimalPoint strtod kind' d' (text.takeWhile (· ≠ 0)) →
        kind' = kind ∧ d' = d) ∧
      Holds h none head (Doc.node none kind d .nil).items := by
  obtain ⟨jc, hends, -, hhead⟩ := initJsonParser_eq_some.mp hin
  rcases hends.root rfl hstr with ⟨hblank, rfl⟩ | ⟨kind, d, ctx', hroot, hd, -, -⟩
  · exact .inl ⟨hblank, hhead.symm⟩
  · refine .inr ⟨kind, d, hroot, fun kind' d' hroot' => hroot'.unique hstr hroot, ?_⟩
    have hroot' : RootText decimalPoint strtod kind d _ := hroot
    obtain ⟨h', head', hin', hholds⟩ := hroot'.initJsonParser hstr hd
    rw [hin] at hin'
    obtain ⟨rfl, rfl⟩ := Prod.mk.inj (Option.some.inj hin')
    exact hholds

/-- A `strtod` that reads the digits in front of the point. -/
def wholePart (b : Bytes) : ℤ := digitsValue (b.takeWhile isDigit)

theorem wholePart_stable : Stable wholePart := by
  intro b w hw
  have htake : (b ++ w).takeWhile isDigit = b.takeWhile isDigit := by
    rw [List.takeWhile_append]
    split
    · rename_i hall
      rw [blank_takeWhile hw, List.append_nil]
      exact ((List.takeWhile_prefix isDigit).eq_of_length hall).symm
    · rfl
  rw [wholePart, wholePart, htake]

/-- `[1. ]` -/
theorem initJsonParser_isSome_iff_point :
    (Json.initJsonParser 46 wholePart (text "[1. ]")).isSome ↔
      Blank ((text "[1. ]").takeWhile (· ≠ 0)) ∨ ∃ kind d,
        RootText 46 wholePart kind d ((text "[1. ]").takeWhile (· ≠ 0)) ∧ d.depth + 1 ≤ 15 :=
  initJsonParser_isSome_iff wholePart_stable _

theorem initJsonParser_tree_point : ∃ h head,
    Json.initJsonParser 46 wholePart (text "[1. ]") = some (h, head) ∧
    ((Blank ((text "[1. ]").takeWhile (· ≠ 0)) ∧ head = none) ∨
      ∃ kind d, RootText 46 wholePart kind d ((text "[1. ]").takeWhile (· ≠ 0)) ∧
        (∀ kind' d', RootText 46 wholePart kind' d' ((text "[1. ]").takeWhile (· ≠ 0)) →
          kind' = kind ∧ d' = d) ∧
        Holds h none head (Doc.node none kind d .nil).items) := by
  obtain ⟨⟨h, head⟩, hin⟩ : ∃ r, Json.initJsonParser 46 wholePart (text "[1. ]") = some r :=
    Option.isSome_iff_exists.mp (by decide)
  exact ⟨h, head, hin, initJsonParser_tree wholePart_stable hin⟩

end Init

end ApeServer.Json
