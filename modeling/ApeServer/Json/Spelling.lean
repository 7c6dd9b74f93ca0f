import ApeServer.Json.Accept
import ApeServer.Json.Grammar

/-!
# The texts of a document

The texts a document is written by, with white space wherever JSON has it, and what the parser
makes of them. A text may still be rejected, for too many containers are open in it; a text
that is not is reported event by event.
-/
namespace ApeServer.Json

open Sock (Bytes)
open ApeServer.Json.Parser (jsonParserChar)

variable {F σ : Type}

/-! ## The grammar -/

def Blank (w : Bytes) : Prop := ∀ c ∈ w, isWs c = true

/-- The texts of a value that is no container: an integer is written without a zero in front,
and zero also as `-0`. -/
inductive ScalarText : Scalar F → Bytes → Prop where
  | null : ScalarText .null (text "null")
  | true : ScalarText .true (text "true")
  | false : ScalarText .false (text "false")
  | integer {n : ℤ} : -2 ^ 63 < n → n < 2 ^ 63 → ScalarText (.integer n) (decimal n)
  | minusZero : ScalarText (.integer 0) (text "-0")
  | string {s : Bytes} : (∀ c ∈ s, IsPrintable c) →
      ScalarText (.string s) (text "\"" ++ s ++ text "\"")

/-- What a value has in front: the name of a member and its colon, or nothing. -/
inductive NameText : Kind → Option Bytes → Bytes → Prop where
  | element {w : Bytes} : Blank w → NameText .arr none w
  | member {name w₁ w₂ w₃ : Bytes} : (∀ c ∈ name, IsPrintable c) → Blank w₁ → Blank w₂ →
      Blank w₃ → NameText .obj (some name)
        (w₁ ++ (text "\"" ++ name ++ text "\"") ++ (w₂ ++ text ":") ++ w₃)

/-- A comma stands before every member or element but the first. -/
inductive SepText : Bool → Bytes → Prop where
  | first : SepText Bool.true []
  | comma {w : Bytes} : Blank w → SepText Bool.false (w ++ text ",")

/-- The texts of members or elements, up to the bracket that closes their container. They are
all there are in it, or come after others. -/
inductive Spells : Kind → Bool → Doc F → Bytes → Prop where
  | close {kind : Kind} {first : Bool} {w : Bytes} : Blank w →
      Spells kind first .nil (w ++ closeText kind.childType)
  | scalar {kind : Kind} {first : Bool} {name : Option Bytes} {v : Scalar F} {next : Doc F}
      {sep nm val rest : Bytes} : SepText first sep → NameText kind name nm → ScalarText v val →
      Spells kind Bool.false next rest →
      Spells kind first (.scalar name v next) (sep ++ nm ++ val ++ rest)
  | node {kind kind' : Kind} {first : Bool} {name : Option Bytes} {child next : Doc F}
      {sep nm inner rest : Bytes} : SepText first sep → NameText kind name nm →
      Spells kind' Bool.true child inner → Spells kind Bool.false next rest →
      Spells kind first (.node name kind' child next)
        (sep ++ nm ++ openText kind'.childType ++ inner ++ rest)

/-- The text denotes the container with the members or elements `d`. -/
def JsonText (kind : Kind) (d : Doc F) (b : Bytes) : Prop :=
  ∃ w₁ inner w₂, Blank w₁ ∧ Spells kind Bool.true d inner ∧ Blank w₂ ∧
    b = w₁ ++ openText kind.childType ++ inner ++ w₂

/-! ## White space -/

variable {cfg : Config F σ} {s : State} {t : JsonType} {stack rest : List Mode} {buf w : Bytes}
  {ctx : σ} {c : UInt8} {kind : Kind} {es es₁ es₂ : List (Event F)} {f g h : σ → Parser σ}

theorem isWs_cases (hc : isWs c = true) : c = 32 ∨ c = 9 ∨ c = 10 ∨ c = 13 := by
  simpa [isWs] using hc

theorem blank_takeWhile (hw : Blank w) : w.takeWhile isDigit = [] := by
  cases w with
  | nil => rfl
  | cons c w =>
    have hc : isDigit c = false := by
      obtain rfl | rfl | rfl | rfl := isWs_cases (hw c List.mem_cons_self) <;> decide
    rw [List.takeWhile_cons, hc]
    rfl

/-- White space before a value, a name, a comma or a colon is passed over. -/
theorem run_blank (hs : s ∈ [State.GO, .OK, .OB, .KE, .CO, .VA, .AR]) (hw : Blank w) :
    run cfg (reading s .none stack [] ctx) w = some (reading s .none stack [] ctx) := by
  have hchar : ∀ c, isWs c = true →
      jsonParserChar cfg (reading s .none stack [] ctx) c =
        some (reading s .none stack [] ctx) := by
    intro c hc
    simp only [List.mem_cons, List.not_mem_nil, or_false] at hs
    obtain rfl | rfl | rfl | rfl := isWs_cases hc <;>
      obtain rfl | rfl | rfl | rfl | rfl | rfl | rfl := hs <;> rfl
  induction w with
  | nil => rfl
  | cons c w ih =>
    rw [run_cons, hchar c (hw c List.mem_cons_self), Option.bind_some,
      ih fun c hc => hw c (List.mem_cons_of_mem _ hc)]

/-- After an integer or a word it goes to the buffer. -/
theorem run_blank_after (cfg : Config F σ) (buf : Bytes) (hs : s = .OK ∨ s = .ZE ∨ s = .IT)
    (ht : t ≠ .none) (hw : Blank w) :
    ∃ s', (s' = .OK ∨ s' = .ZE ∨ s' = .IT) ∧ ∀ stack (ctx : σ),
      run cfg (reading s t stack buf ctx) w = some (reading s' t stack (buf ++ w) ctx) := by
  induction w generalizing s buf with
  | nil => exact ⟨s, hs, fun stack ctx => by rw [List.append_nil]; rfl⟩
  | cons c w ih =>
    have hclass : ∃ k, classOf c = some k ∧ s.stateTransitionTable[k.ctorIdx]? =
        some (.state .OK) := by
      obtain rfl | rfl | rfl | rfl := isWs_cases (hw c List.mem_cons_self)
      · exact ⟨.SPACE, rfl, by obtain rfl | rfl | rfl := hs <;> rfl⟩
      all_goals exact ⟨.WHITE, rfl, by obtain rfl | rfl | rfl := hs <;> rfl⟩
    obtain ⟨k, hk, hnext⟩ := hclass
    obtain ⟨s', hs', hrun⟩ := ih (buf ++ [c]) (.inl rfl)
      fun c hc => hw c (List.mem_cons_of_mem _ hc)
    refine ⟨s', hs', fun stack ctx => ?_⟩
    rw [run_cons, char_state hk (.inl ht) hnext, Option.bind_some, hrun, List.append_assoc]
    rfl

/-- A value has been read, and is held whatever white space comes after it. -/
def Settled (cfg : Config F σ) (s : State) (t : JsonType) (buf : Bytes) (es : List (Event F)) :
    Prop :=
  ∀ w, Blank w → ∃ s' buf', Held cfg s' t buf' es ∧ ∀ stack ctx,
    run cfg (reading s t stack buf ctx) w = some (reading s' t stack buf' ctx)

theorem settled_nil : Settled cfg .OK .none [] [] := fun _ hw =>
  ⟨.OK, [], held_nil, fun _ _ => run_blank (by decide) hw⟩

theorem settled_report {e : Event F} (hs : s = .OK ∨ s = .ZE ∨ s = .IT) (hn : t ≠ .none)
    (ht : t ≠ .string)
    (h : ∀ s w stack ctx, Blank w → (reading s t stack (buf ++ w) ctx).parseParseBuffer cfg =
      Parser.parseBufferClear <$> (reading s t stack (buf ++ w) ctx).report cfg e) :
    Settled cfg s t buf [e] := by
  intro w hw
  obtain ⟨s', hs', hrun⟩ := run_blank_after cfg buf hs hn hw
  exact ⟨s', buf ++ w, held_report hs' ht fun stack ctx => h s' w stack ctx hw, hrun⟩

/-! ## What a text leads to -/

/-- A run that is not rejected has reported the events. -/
def Leads (cfg : Config F σ) (f : σ → Parser σ) (b : Bytes) (es : List (Event F))
    (g : σ → Parser σ) : Prop :=
  ∀ ctx jc, run cfg (f ctx) b = some jc →
    ∃ ctx', es.foldlM cfg.callback ctx = some ctx' ∧ jc = g ctx'

theorem Leads.append {a b : Bytes} (h₁ : Leads cfg f a es₁ g) (h₂ : Leads cfg g b es₂ h) :
    Leads cfg f (a ++ b) (es₁ ++ es₂) h := by
  intro ctx jc hrun
  rw [run_append, Option.bind_eq_some_iff] at hrun
  obtain ⟨jc₁, hrun₁, hrun₂⟩ := hrun
  obtain ⟨ctx₁, hes₁, rfl⟩ := h₁ ctx jc₁ hrun₁
  obtain ⟨ctx₂, hes₂, rfl⟩ := h₂ ctx₁ jc hrun₂
  exact ⟨ctx₂, by rw [List.foldlM_append, hes₁]; exact hes₂, rfl⟩

theorem leads_of_run {b : Bytes}
    (hrun : ∀ ctx, run cfg (f ctx) b =
      (es.foldlM cfg.callback ctx).bind fun ctx => some (g ctx)) : Leads cfg f b es g := by
  intro ctx jc hjc
  rw [hrun, Option.bind_eq_some_iff] at hjc
  obtain ⟨ctx', hes, hg⟩ := hjc
  exact ⟨ctx', hes, (Option.some.inj hg).symm⟩

theorem run_single (jc : Parser σ) : run cfg jc [c] = jsonParserChar cfg jc c := by
  simp [run]

theorem leads_blank (hs : s ∈ [State.GO, .OK, .OB, .KE, .CO, .VA, .AR]) (hw : Blank w) :
    Leads cfg (reading s .none stack []) w [] (reading s .none stack []) :=
  leads_of_run fun _ => run_blank hs hw

/-- A mode is pushed on a stack that is not full. -/
theorem push_eq {m : Mode} {jc : Parser σ}
    (hp : (reading s t stack buf ctx).push cfg m = some jc) :
    jc = reading s t (m :: stack) buf ctx := by
  rw [Parser.push] at hp
  split at hp
  · cases hp
  · exact (Option.some.inj hp).symm

theorem leads_open (hs : s = .VA ∨ s = .AR ∨ s = .GO) :
    Leads cfg (reading s .none stack []) (openText kind.childType) [kind.beginEvent]
      (reading kind.openState .none (kind.mode :: stack) []) := by
  have hopen : ∀ (c : UInt8) (k : Class) (a : Action), classOf c = some k →
      ¬ (k = .SPACE ∨ k = .WHITE) → s.stateTransitionTable[k.ctorIdx]? = some (.action a) →
      (∀ jc : Parser σ, jc.act cfg a =
        jc.openContainer cfg kind.beginEvent kind.mode kind.openState) →
      Leads cfg (reading s .none stack []) [c] [kind.beginEvent]
        (reading kind.openState .none (kind.mode :: stack) []) := by
    intro c k a hk hw ha hact ctx jc hrun
    rw [run_single, char_action hk (.inr hw) ha, hact] at hrun
    simp only [Parser.openContainer, popBack_reading, Option.bind_eq_bind, Option.bind_some,
      report_reading, Option.bind_assoc, Option.bind_eq_some_iff] at hrun
    obtain ⟨ctx', hcall, jc₁, hpush, htype⟩ := hrun
    obtain rfl := push_eq hpush
    rw [type_reading, if_pos rfl] at htype
    exact ⟨ctx', by simp [hcall], (Option.some.inj htype).symm⟩
  cases kind with
  | obj =>
    have ha : s.stateTransitionTable[Class.LCURB.ctorIdx]? = some (.action .a6) := by
      obtain rfl | rfl | rfl := hs <;> rfl
    exact hopen 123 .LCURB .a6 rfl (by decide) ha fun _ => rfl
  | arr =>
    have ha : s.stateTransitionTable[Class.LSQRB.ctorIdx]? = some (.action .a5) := by
      obtain rfl | rfl | rfl := hs <;> rfl
    exact hopen 91 .LSQRB .a5 rfl (by decide) ha fun _ => rfl

theorem leads_colon : Leads cfg (reading .CO .none (.key :: rest) []) (text ":") []
    (reading .VA .none (.object :: rest) []) := by
  intro ctx jc hrun
  change run cfg _ [chr ':'] = some jc at hrun
  rw [run_single, char_action (k := .COLON) rfl (.inr (by decide)) rfl, Parser.act] at hrun
  simp only [Parser.colon, popBack_reading, pop_reading, Option.bind_eq_bind, Option.bind_some,
    Option.bind_eq_some_iff] at hrun
  obtain ⟨jc₁, hpush, htype⟩ := hrun
  obtain rfl := push_eq hpush
  rw [type_reading, if_pos rfl] at htype
  exact ⟨ctx, rfl, (Option.some.inj htype).symm⟩

/-- A comma, as `Held.comma` has it where there is room for a key. -/
theorem Held.leads_comma (hh : Held cfg s t buf es) :
    Leads cfg (reading s t (kind.valueMode :: rest) buf) (text ",") es
      (reading kind.commaState .none (kind.mode :: rest) []) := by
  intro ctx jc hrun
  change run cfg _ [chr ','] = some jc at hrun
  have ha : s.stateTransitionTable[Class.COMMA.ctorIdx]? = some (.action .a3) := by
    obtain rfl | rfl | rfl := hh.state <;> rfl
  rw [run_single, char_action (k := .COMMA) rfl (.inr (by decide)) ha, Parser.act, Parser.comma,
    popBack_reading, Option.bind_eq_bind, Option.bind_some, hh.flush, Option.bind_assoc,
    Option.bind_eq_some_iff] at hrun
  obtain ⟨ctx', hes, hcomma⟩ := hrun
  refine ⟨ctx', hes, ?_⟩
  cases kind with
  | obj =>
    simp only [Kind.valueMode, Option.bind_some, stack_reading, List.head?_cons, pop_reading,
      Option.bind_eq_some_iff] at hcomma
    obtain ⟨jc₂, hpush, htype⟩ := hcomma
    obtain rfl := push_eq hpush
    rw [type_reading, if_neg hh.type] at htype
    exact (Option.some.inj htype).symm
  | arr =>
    simp only [Kind.valueMode, Option.bind_some, stack_reading, List.head?_cons] at hcomma
    rw [type_reading, if_neg hh.type] at hcomma
    exact (Option.some.inj hcomma).symm

/-! ## Members and elements -/

/-- The parser before a member or an element or before the bracket after them, with the events
that it has not reported yet. -/
inductive Before (cfg : Config F σ) (kind : Kind) (rest : List Mode) :
    Bool → (σ → Parser σ) → List (Event F) → Prop where
  | first : Before cfg kind rest Bool.true
      (reading kind.openState .none (kind.mode :: rest) []) []
  | held {s : State} {t : JsonType} {buf : Bytes} {es : List (Event F)} :
      Settled cfg s t buf es →
      Before cfg kind rest Bool.false (reading s t (kind.valueMode :: rest) buf) es

theorem Settled.leads (hs : Settled cfg s t buf es₁) (hw : Blank w) {b : Bytes}
    (h : ∀ s' buf', Held cfg s' t buf' es₁ → Leads cfg (reading s' t stack buf') b es g) :
    Leads cfg (reading s t stack buf) (w ++ b) es g := by
  obtain ⟨s', buf', hheld, hrun⟩ := hs w hw
  intro ctx jc hjc
  rw [run_append, hrun, Option.bind_some] at hjc
  exact h s' buf' hheld ctx jc hjc

theorem Before.sep {first : Bool} {sep : Bytes} (hb : Before cfg kind rest first f es)
    (hsep : SepText first sep) :
    ∃ s, kind.Starts s ∧ Leads cfg f sep es (reading s .none (kind.mode :: rest) []) := by
  cases hsep with
  | first =>
    cases hb with
    | first => exact ⟨_, kind.starts_open, leads_of_run fun _ => rfl⟩
  | comma hw =>
    cases hb with
    | held hs =>
      exact ⟨_, kind.starts_comma, hs.leads hw fun _ _ hheld => hheld.leads_comma⟩

theorem Before.close {first : Bool} (hb : Before cfg kind rest first f es) (hw : Blank w) :
    Leads cfg f (w ++ closeText kind.childType) (es ++ [kind.endEvent])
      (reading .OK .none rest []) := by
  cases hb with
  | first =>
    refine (leads_blank (by cases kind <;> decide) hw).append (leads_of_run fun ctx => ?_)
    cases kind with
    | obj =>
      change run cfg _ [125] = _
      rw [run_single, char_action (k := .RCURB) (a := .a9) rfl (.inr (by decide)) rfl]
      simp [Parser.act, Option.bind_assoc, Kind.mode]
      rfl
    | arr =>
      change run cfg _ [93] = _
      rw [run_single, char_action (k := .RSQRB) (a := .a7) rfl (.inr (by decide)) rfl, Parser.act,
        Parser.closeContainer, popBack_reading, Option.bind_eq_bind, Option.bind_some]
      simp [Parser.parseParseBuffer, Option.bind_assoc, Kind.mode]
      rfl
  | held hs => exact hs.leads hw fun _ _ hheld => leads_of_run fun _ => hheld.close

theorem leads_name (cfg : Config F σ) (rest : List Mode) {name : Option Bytes} {nm : Bytes}
    (hn : NameText kind name nm) (hs : kind.Starts s) :
    ∃ s', (s' = .VA ∨ s' = .AR) ∧ Leads cfg (reading s .none (kind.mode :: rest) []) nm
      (Doc.nameEvents name) (reading s' .none (kind.valueMode :: rest) []) := by
  cases hn with
  | element hw =>
    refine ⟨s, hs.symm, leads_blank ?_ hw⟩
    obtain rfl | rfl := hs <;> decide
  | member hk hw₁ hw₂ hw₃ =>
    have hwhite : s ∈ [State.GO, .OK, .OB, .KE, .CO, .VA, .AR] := by
      obtain rfl | rfl := hs <;> decide
    have hkey : Leads cfg (reading s .none (.key :: rest) []) _ [.key _]
        (reading .CO .none (.key :: rest) []) :=
      leads_of_run fun ctx => (run_keyString hk hs).trans (by simp; rfl)
    refine ⟨.VA, .inl rfl, ?_⟩
    exact (((leads_blank hwhite hw₁).append hkey).append
      ((leads_blank (by decide) hw₂).append leads_colon)).append (leads_blank (by decide) hw₃)

/-- The value is read, and some of its events may be held back. -/
theorem leads_scalar (cfg : Config F σ) (kind : Kind) (rest : List Mode) {v : Scalar F}
    {val : Bytes} (hv : ScalarText v val) (hs : s = .VA ∨ s = .AR) :
    ∃ g es₁ es₂, [v.event] = es₁ ++ es₂ ∧ Before cfg kind rest Bool.false g es₂ ∧
      Leads cfg (reading s .none (kind.valueMode :: rest) []) val es₁ g := by
  have hword : ∀ {t : JsonType} {e : Event F}, t ≠ .none → t ≠ .string →
      (∀ s w stack ctx, Blank w → (reading s t stack (val ++ w) ctx).parseParseBuffer cfg =
        Parser.parseBufferClear <$> (reading s t stack (val ++ w) ctx).report cfg e) →
      (∃ s', (s' = .OK ∨ s' = .ZE ∨ s' = .IT) ∧ ∀ ctx,
        run cfg (reading s .none (kind.valueMode :: rest) [] ctx) val =
          some (reading s' t (kind.valueMode :: rest) val ctx)) →
      ∃ g es₁ es₂, [e] = es₁ ++ es₂ ∧ Before cfg kind rest Bool.false g es₂ ∧
        Leads cfg (reading s .none (kind.valueMode :: rest) []) val es₁ g := by
    rintro t e hn ht hflush ⟨s', hs', hrun⟩
    exact ⟨_, [], [e], rfl, .held (settled_report hs' hn ht hflush), leads_of_run hrun⟩
  have hint : ∀ {n : ℤ}, (∀ w, Blank w → scanInteger (val ++ w) = n) →
      ∀ s w (stack : List Mode) (ctx : σ), Blank w →
        (reading s .integer stack (val ++ w) ctx).parseParseBuffer cfg =
          Parser.parseBufferClear <$>
            (reading s .integer stack (val ++ w) ctx).report cfg (.integer n) := by
    intro n hscan s w stack ctx hw
    rw [Parser.parseParseBuffer, type_reading, parseBuffer_reading, hscan w hw]
  cases hv with
  | null =>
    refine hword (t := .null) (by decide) (by decide) (fun _ _ _ _ _ => rfl)
      ⟨.OK, .inl rfl, fun ctx => ?_⟩
    obtain rfl | rfl := hs <;> rfl
  | true =>
    refine hword (t := .true) (by decide) (by decide) (fun _ _ _ _ _ => rfl)
      ⟨.OK, .inl rfl, fun ctx => ?_⟩
    obtain rfl | rfl := hs <;> rfl
  | false =>
    refine hword (t := .false) (by decide) (by decide) (fun _ _ _ _ _ => rfl)
      ⟨.OK, .inl rfl, fun ctx => ?_⟩
    obtain rfl | rfl := hs <;> rfl
  | integer hmin hmax =>
    obtain ⟨s', hs', hrun⟩ := run_decimal cfg _
    exact hword (t := .integer) (by decide) (by decide)
      (hint fun w hw => scanInteger_decimal (blank_takeWhile hw) hmin hmax)
      ⟨s', .inr hs', fun ctx => hrun s _ ctx hs⟩
  | minusZero =>
    refine hword (t := .integer) (by decide) (by decide) (hint fun w hw => ?_)
      ⟨.ZE, .inr (.inl rfl), fun ctx => ?_⟩
    · have htake : (chr '0' :: w).takeWhile isDigit = text "0" := by
        rw [List.takeWhile_cons, if_pos (by decide), blank_takeWhile hw]
        rfl
      change max (-((digitsValue ((chr '0' :: w).takeWhile isDigit) : ℕ) : ℤ)) (-2 ^ 63) = 0
      rw [htake]
      rfl
    · obtain rfl | rfl := hs <;> rfl
  | string hs' =>
    refine ⟨_, [_], [], rfl, .held settled_nil, leads_of_run fun ctx => ?_⟩
    rw [run_string hs' hs (by cases kind; exacts [.inl rfl, .inr rfl])]
    simp [Scalar.event]

/-- The text of members or elements is reported event by event, by induction on the text. -/
theorem Spells.leads {first : Bool} {d : Doc F} {b : Bytes} (h : Spells kind first d b)
    (hb : Before cfg kind rest first f es) :
    Leads cfg f b (es ++ (d.events ++ [kind.endEvent])) (reading .OK .none rest []) := by
  induction h generalizing f es rest with
  | close hw => exact hb.close hw
  | @scalar kind first name v next sep nm val rest' hsep hname hval _ ih =>
    obtain ⟨s, hs, hlead⟩ := hb.sep hsep
    obtain ⟨s', hs', hnm⟩ := leads_name cfg rest hname hs
    obtain ⟨g, es₁, es₂, hes, hafter, hlv⟩ :=
      leads_scalar cfg kind rest hval hs'
    have hall := ((hlead.append hnm).append hlv).append (ih hafter)
    have hevents : (es ++ Doc.nameEvents name ++ es₁) ++ (es₂ ++ (next.events ++ [kind.endEvent])) =
        es ++ ((Doc.scalar name v next).events ++ [kind.endEvent]) := by
      rw [Doc.events, ← List.singleton_append (x := v.event), hes]
      simp only [List.append_assoc]
    rwa [hevents] at hall
  | @node kind kind' first name child next sep nm inner rest' hsep hname _ _ ihc ihn =>
    obtain ⟨s, hs, hlead⟩ := hb.sep hsep
    obtain ⟨s', hs', hnm⟩ := leads_name cfg rest hname hs
    have hopen : Leads cfg (reading s' .none (kind.valueMode :: rest) []) _ [kind'.beginEvent] _ :=
      leads_open (by tauto)
    have hchild := ihc (.first : Before cfg kind' (kind.valueMode :: rest) _ _ _)
    have hall := (((hlead.append hnm).append hopen).append hchild).append (ihn (.held settled_nil))
    have hevents : (es ++ Doc.nameEvents name ++ [kind'.beginEvent] ++
          ([] ++ (child.events ++ [kind'.endEvent]))) ++ ([] ++ (next.events ++ [kind.endEvent])) =
        es ++ ((Doc.node name kind' child next).events ++ [kind.endEvent]) := by
      rw [Doc.events]
      simp only [List.append_assoc, List.nil_append, List.cons_append]
    rwa [hevents] at hall

/-- A text that is not rejected is reported as its document. -/
theorem JsonText.leads {d : Doc F} {b : Bytes} (h : JsonText kind d b) (cfg : Config F σ) :
    Leads cfg (reading .GO .none [.done] []) b
      (kind.beginEvent :: (d.events ++ [kind.endEvent])) (reading .OK .none [.done] []) := by
  obtain ⟨w₁, inner, w₂, hw₁, hinner, hw₂, rfl⟩ := h
  have hopen : Leads cfg (reading .GO .none [.done] []) _ [kind.beginEvent] _ :=
    leads_open (by simp)
  have hafter : Leads cfg (reading .OK .none [.done] []) w₂ [] _ := leads_blank (by decide) hw₂
  have hall := (((leads_blank (by decide) hw₁).append hopen).append
    (hinner.leads .first)).append hafter
  simpa only [List.nil_append, List.append_nil, List.singleton_append] using hall

end ApeServer.Json
