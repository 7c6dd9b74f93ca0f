import ApeServer.Json.Strings

/-!
# Values

A number or a word is reported when the byte after it is read, and blanks that stand in between
go to its buffer. Whatever state it ends in, the parser goes on as from `OK`.
-/
namespace ApeServer.Json

open Sock (Bytes)
open ApeServer.Json.Parser (jsonParserChar)

variable {F σ : Type} {cfg : Config F σ} {s s' : State} {t : JsonType} {stack rest : List Mode}
  {buf b w : Bytes} {ctx : σ} {c : UInt8} {jc jc' : Parser σ} {es : List (Event F)} {e : Event F}

/-! ## What is held of a value -/

/-- The events of what is held; `none` where the type of a container fails its `assert`. -/
def pending (cfg : Config F σ) (t : JsonType) (buf : Bytes) : Option (List (Event F)) :=
  match t with
  | .none => some []
  | .float => some [.float (cfg.strtod buf)]
  | .integer => some [.integer (scanInteger buf)]
  | .string => some [.string buf]
  | .null => some [.null]
  | .true => some [.true]
  | .false => some [.false]
  | _ => none

theorem parse_reading : (reading s t stack buf ctx).parseParseBuffer cfg =
    (pending cfg t buf).bind fun es => (es.foldlM cfg.callback ctx).bind fun ctx =>
      some (reading s t stack [] ctx) := by
  have hone : ∀ e : Event F, Parser.parseBufferClear <$> (reading s t stack buf ctx).report cfg e =
      ([e].foldlM cfg.callback ctx).bind fun ctx => some (reading s t stack [] ctx) := by
    intro e
    rw [report_reading]
    cases hc : cfg.callback ctx e <;> simp [hc]
  cases t with
  | none => rfl
  | float => exact hone _
  | integer => exact hone _
  | string => exact hone _
  | null => exact hone _
  | true => exact hone _
  | false => exact hone _
  | _ => rfl

theorem held_of_pending (ht : t ≠ .string) (hp : pending cfg t buf = some es) :
    Held cfg .OK t buf es :=
  ⟨.inl rfl, ht, fun stack ctx => by rw [parse_reading, hp, Option.bind_some]⟩

theorem run_blank_held (hcfg : cfg.allowComments = false) (ht : t ≠ .none) (hw : Blank w) :
    run cfg (reading .OK t stack buf ctx) w = some (reading .OK t stack (buf ++ w) ctx) := by
  induction w generalizing buf with
  | nil =>
    rw [List.append_nil]
    rfl
  | cons c w ih =>
    have hc := hw c List.mem_cons_self
    have hchar : jsonParserChar cfg (reading .OK t stack buf ctx) c =
        some (reading .OK t stack (buf ++ [c]) ctx) := by
      rw [← within_zero, char_held hcfg ht, entry_eq, row, ending, if_pos hc]
      rfl
    rw [run_cons, hchar, Option.bind_some, ih fun c hc => hw c (List.mem_cons_of_mem _ hc),
      List.append_assoc]
    rfl

/-- A value has been read to its end, and is held whatever blanks come after it. -/
def Waits (cfg : Config F σ) (t : JsonType) (buf : Bytes) (es : List (Event F)) : Prop :=
  ∀ w, Blank w → ∃ buf', Held cfg .OK t buf' es ∧ ∀ stack ctx,
    run cfg (reading .OK t stack buf ctx) w = some (reading .OK t stack buf' ctx)

theorem waits_nil : Waits cfg .none [] [] := fun _ hw =>
  ⟨[], held_nil, fun _ _ => run_blank (by decide) hw⟩

theorem waits_pending (hcfg : cfg.allowComments = false) (hn : t ≠ .none) (ht : t ≠ .string)
    (h : ∀ w, Blank w → pending cfg t (buf ++ w) = some es) : Waits cfg t buf es := fun w hw =>
  ⟨buf ++ w, held_of_pending ht (h w hw), fun _ _ => run_blank_held hcfg hn hw⟩

/-! ## The byte after a value -/

/-- The bytes that may come after a value. -/
def Stops (c : UInt8) : Prop := ending c ≠ .xx

instance : DecidablePred Stops := fun _ => inferInstanceAs (Decidable (_ ≠ _))

theorem stops_row : ∀ c, Stops c → isDigit c = false ∧ c ≠ chr '.' ∧ isE c = false :=
  forall_byte (by decide +kernel)

/-- What comes after a value does not ask how the value ended. -/
theorem follow_ending : follow cfg (reading s t stack (buf ++ [c]) ctx) (ending c) =
    follow cfg (reading s' t stack (buf ++ [c]) ctx) (ending c) := by
  have hclose : ∀ (e : Event F) (m : Mode),
      (reading s t stack (buf ++ [c]) ctx).closeContainer cfg e m =
        (reading s' t stack (buf ++ [c]) ctx).closeContainer cfg e m := by
    intro e m
    simp only [Parser.closeContainer, popBack_reading, parse_reading, Option.bind_eq_bind,
      Option.bind_some, Option.bind_assoc, report_reading]
    congr 1
    funext es
    congr 1
    funext ctx
    congr 1
    funext ctx
    cases stack with
    | nil => rfl
    | cons m' rest =>
      by_cases hm : m' = m
      · subst hm
        rw [pop_reading, pop_reading]
        rfl
      · simp [Parser.pop, reading, hm]
  unfold ending
  split
  · rfl
  split
  · exact hclose _ _
  split
  · exact hclose _ _
  split
  · simp only [follow, Parser.act, Parser.comma, popBack_reading, parse_reading,
      Option.bind_eq_bind, Option.bind_some, Option.bind_assoc]
    congr 1
    funext es
    congr 1
    funext ctx
    cases stack with
    | nil => rfl
    | cons m rest =>
      cases m with
      | object =>
        simp only [stack_reading, List.head?_cons, pop_reading, Option.bind_some]
        by_cases hd : rest.length = cfg.depth + 1
        · simp [Parser.push, reading, hd]
        · simp [Parser.push, reading, hd]
          rfl
      | _ => rfl
  · rfl

theorem char_stop (hcfg : cfg.allowComments = false) (ht : t ≠ .none) (hs : row s c = ending c) :
    jsonParserChar cfg (reading s t stack buf ctx) c =
      jsonParserChar cfg (reading .OK t stack buf ctx) c := by
  rw [← within_zero, ← within_zero, char_held hcfg ht, char_held hcfg ht, entry_eq, entry_eq, hs,
    row]
  exact follow_ending

/-! ## Numbers that are read -/

section Numbers

variable {sign m ds : Bytes}

/-- A change of state where something is held. -/
theorem char_row (hcfg : cfg.allowComments = false) (ht : t ≠ .none) (hr : row s c = .state s') :
    jsonParserChar cfg (reading s t stack buf ctx) c =
      some (reading s' t stack (buf ++ [c]) ctx) := by
  rw [← within_zero, char_held hcfg ht, entry_eq, hr]
  rfl

theorem run_loop (hcfg : cfg.allowComments = false) (ht : t ≠ .none)
    (hr : ∀ c, isDigit c = true → row s c = .state s) (hd : Digits ds) :
    run cfg (reading s t stack buf ctx) ds = some (reading s t stack (buf ++ ds) ctx) := by
  induction ds generalizing buf with
  | nil =>
    rw [List.append_nil]
    rfl
  | cons c ds ih =>
    rw [run_cons, char_row hcfg ht (hr c (hd c List.mem_cons_self)), Option.bind_some,
      ih fun c hc => hd c (List.mem_cons_of_mem _ hc), List.append_assoc]
    rfl

theorem row_IT_digit (hc : isDigit c = true) : row .IT c = .state .IT := if_pos hc

theorem row_FR_digit (hc : isDigit c = true) : row .FR c = .state .FR := if_pos hc

theorem row_E3_digit (hc : isDigit c = true) : row .E3 c = .state .E3 := if_pos hc

/-- The rows in front of a value differ in the white space and the bracket only. -/
theorem opening_row : ∀ c, isDigit c = true ∨ c = chr '-' →
    row .VA c = opening c ∧ row .AR c = opening c :=
  forall_byte (by decide +kernel)

theorem opening_digit : ∀ c, isDigit c = true →
    opening c = .action (if c = chr '0' then .ZX else .IX) ∧
    row .MI c = .state (if c = chr '0' then .ZE else .IT) :=
  forall_byte (by decide +kernel)

/-- The first byte of a number. -/
theorem char_first (hcfg : cfg.allowComments = false) (hs : s = .VA ∨ s = .AR)
    (hc : isDigit c = true ∨ c = chr '-') :
    jsonParserChar cfg (reading s .none stack [] ctx) c =
      some (reading (if c = chr '-' then .MI else if c = chr '0' then .ZE else .IT) .integer stack
        [c] ctx) := by
  have hrow : row s c = opening c := by
    obtain ⟨hva, har⟩ := opening_row c hc
    rcases hs with rfl | rfl
    · exact hva
    · exact har
  have hws : isWs c = false := by
    have : ∀ c, isDigit c = true ∨ c = chr '-' → isWs c = false := forall_byte (by decide +kernel)
    exact this c hc
  rw [← within_zero, char_entry hcfg, if_neg (by simp [hws]), entry_eq, hrow, List.nil_append]
  by_cases hm : c = chr '-'
  · subst hm
    rfl
  · have hd := hc.resolve_right hm
    rw [(opening_digit c hd).1, if_neg hm]
    split <;> rfl

theorem row_MI_digit (hc : isDigit c = true) :
    row .MI c = .state (if c = chr '0' then .ZE else .IT) := (opening_digit c hc).2

/-- The states behind the digits of a whole number. -/
def Whole (m : Bytes) (s : State) : Prop := m = [chr '0'] ∧ s = .ZE ∨ m ≠ [chr '0'] ∧ s = .IT

theorem run_whole (hcfg : cfg.allowComments = false) (hsign : SignText sign) (hm : Magnitude m) :
    ∃ s', Whole m s' ∧ ∀ s stack (ctx : σ), s = .VA ∨ s = .AR →
      run cfg (reading s .none stack [] ctx) (sign ++ m) =
        some (reading s' .integer stack (sign ++ m) ctx) := by
  obtain ⟨c, ds, s', rfl, hc, hds, hw, hs', hloop⟩ : ∃ c ds s', m = c :: ds ∧ isDigit c = true ∧
      Digits ds ∧ Whole m s' ∧ (if c = chr '0' then State.ZE else .IT) = s' ∧
      ∀ stack buf (ctx : σ), run cfg (reading s' .integer stack buf ctx) ds =
        some (reading s' .integer stack (buf ++ ds) ctx) := by
    cases hm with
    | zero =>
      refine ⟨_, [], .ZE, rfl, by decide, by simp [Digits], .inl ⟨rfl, rfl⟩, rfl, ?_⟩
      intro stack buf ctx
      rw [List.append_nil]
      rfl
    | digits hc hne hds =>
      refine ⟨_, _, .IT, rfl, hc, hds, .inr ⟨by simp [hne], rfl⟩, if_neg hne, ?_⟩
      intro stack buf ctx
      exact run_loop hcfg (by decide) (fun _ => row_IT_digit) hds
  have hminus : c ≠ chr '-' := by
    rintro rfl
    exact absurd hc (by decide)
  refine ⟨s', hw, fun s stack ctx hs => ?_⟩
  rcases hsign with rfl | rfl
  · rw [List.nil_append, run_cons, char_first hcfg hs (.inl hc), if_neg hminus, hs',
      Option.bind_some, hloop]
    rfl
  · rw [List.singleton_append, run_cons, char_first hcfg hs (.inr rfl), if_pos rfl,
      Option.bind_some, run_cons, char_row hcfg (by decide) (row_MI_digit hc), hs',
      Option.bind_some, hloop]
    rfl

/-- The point is put into the buffer in the locale's spelling. -/
theorem char_point (hcfg : cfg.allowComments = false) (hs : s = .ZE ∨ s = .IT) :
    jsonParserChar cfg (reading s .integer stack buf ctx) (chr '.') =
      some (reading .FX .float stack (buf ++ [cfg.decimalPoint]) ctx) := by
  have hrow : row s (chr '.') = .action .DF := by rcases hs with rfl | rfl <;> rfl
  rw [← within_zero, char_held hcfg (by decide), entry_eq, hrow, follow, within_zero, Parser.act,
    if_pos (by simp [Parser.isPlain])]
  simp [reading]

theorem run_fraction (hcfg : cfg.allowComments = false) (hd : Digits ds) :
    ∃ s', (s' = .FX ∨ s' = .FR) ∧ ∀ stack buf (ctx : σ),
      run cfg (reading .FX .float stack buf ctx) ds =
        some (reading s' .float stack (buf ++ ds) ctx) := by
  cases ds with
  | nil => exact ⟨.FX, .inl rfl, fun stack buf ctx => by rw [List.append_nil]; rfl⟩
  | cons c ds =>
    refine ⟨.FR, .inr rfl, fun stack buf ctx => ?_⟩
    have hrow : row .FX c = .state .FR := if_pos (hd c List.mem_cons_self)
    rw [run_cons, char_row hcfg (by decide) hrow, Option.bind_some,
      run_loop hcfg (by decide) (fun _ => row_FR_digit) fun c hc => hd c (List.mem_cons_of_mem _ hc),
      List.append_assoc]
    rfl

/-- What an exponent begins with. -/
theorem char_e (hcfg : cfg.allowComments = false) (hc : isE c = true)
    (hs : s = .IT ∧ t = .integer ∨ (s = .FX ∨ s = .FR) ∧ t = .float) :
    jsonParserChar cfg (reading s t stack buf ctx) c =
      some (reading .E1 .float stack (buf ++ [c]) ctx) := by
  have hrows : ∀ c, isE c = true → row .IT c = .action .DE ∧ row .FX c = .state .E1 ∧
      row .FR c = .state .E1 := forall_byte (by decide +kernel)
  obtain ⟨hit, hfx, hfr⟩ := hrows c hc
  rcases hs with ⟨rfl, rfl⟩ | ⟨rfl | rfl, rfl⟩
  · rw [← within_zero, char_held hcfg (by decide), entry_eq, hit]
    rfl
  · exact char_row hcfg (by decide) hfx
  · exact char_row hcfg (by decide) hfr

theorem isE_iff : isE c = true ↔ c = chr 'e' ∨ c = chr 'E' := by simp [isE]

theorem run_exponent (hcfg : cfg.allowComments = false) (h : ExponentText b)
    (hs : s = .IT ∧ t = .integer ∨ (s = .FX ∨ s = .FR) ∧ t = .float) :
    run cfg (reading s t stack buf ctx) b = some (reading .E3 .float stack (buf ++ b) ctx) := by
  obtain ⟨he, hsign, hd, hds⟩ := h
  rename_i e d sign ds
  have hE1 : row .E1 d = .state .E3 := by
    have : ∀ d, isDigit d = true → row .E1 d = .state .E3 := forall_byte (by decide +kernel)
    exact this d hd
  have hE2 : row .E2 d = .state .E3 := if_pos hd
  have hsigns : ∀ c, c = chr '+' ∨ c = chr '-' → row .E1 c = .state .E2 := fun _ h => if_pos h
  have hloop : ∀ buf, run cfg (reading .E3 .float stack buf ctx) ds =
      some (reading .E3 .float stack (buf ++ ds) ctx) := fun buf =>
    run_loop hcfg (by decide) (fun _ => row_E3_digit) hds
  rw [List.cons_append, run_cons, char_e hcfg (isE_iff.mpr he) hs, Option.bind_some]
  rcases hsign with rfl | rfl | rfl
  · rw [List.nil_append, run_cons, char_row hcfg (by decide) hE1, Option.bind_some, hloop]
    simp
  · rw [List.singleton_append, run_cons, char_row hcfg (by decide) (hsigns _ (.inl rfl)),
      Option.bind_some, run_cons, char_row hcfg (by decide) hE2, Option.bind_some, hloop]
    simp
  · rw [List.singleton_append, run_cons, char_row hcfg (by decide) (hsigns _ (.inr rfl)),
      Option.bind_some, run_cons, char_row hcfg (by decide) hE2, Option.bind_some, hloop]
    simp

theorem localized_append (p : UInt8) (a b : Bytes) :
    localized p (a ++ b) = localized p a ++ localized p b := List.map_append

theorem localized_digits (p : UInt8) (hd : Digits ds) : localized p ds = ds := by
  refine (List.map_congr_left fun c hc => ?_).trans (List.map_id _)
  have hne : c ≠ chr '.' := by
    rintro rfl
    exact absurd (hd _ hc) (by decide)
  exact if_neg hne

theorem Magnitude.all (hm : Magnitude m) : Digits m := by
  cases hm with
  | zero => simp [Digits, isDigit, chr]
  | digits hc _ hds => exact List.forall_mem_cons.mpr ⟨hc, hds⟩

theorem localized_whole (p : UInt8) (hsign : SignText sign) (hm : Magnitude m) :
    localized p (sign ++ m) = sign ++ m := by
  rw [localized_append, localized_digits p hm.all]
  rcases hsign with rfl | rfl
  · rfl
  · rfl

theorem localized_exponent (p : UInt8) (h : ExponentText b) : localized p b = b := by
  obtain ⟨he, hsign, hd, hds⟩ := h
  rename_i e d sign ds
  have hds' : localized p (d :: ds) = d :: ds :=
    localized_digits p (List.forall_mem_cons.mpr ⟨hd, hds⟩)
  rw [localized_append, hds']
  rcases he with rfl | rfl <;> rcases hsign with rfl | rfl | rfl <;> rfl

/-- A float is read into the buffer in the locale's spelling. -/
theorem FloatText.run (hcfg : cfg.allowComments = false) (h : FloatText b) :
    ∃ s', (s' = .FX ∨ s' = .FR ∨ s' = .E3) ∧ ∀ s stack (ctx : σ), s = .VA ∨ s = .AR →
      Json.run cfg (reading s .none stack [] ctx) b =
        some (reading s' .float stack (localized cfg.decimalPoint b) ctx) := by
  have hpoint : ∀ {sign m ds : Bytes}, SignText sign → Magnitude m → Digits ds →
      localized cfg.decimalPoint (sign ++ m ++ chr '.' :: ds) =
        sign ++ m ++ [cfg.decimalPoint] ++ ds ∧
      ∃ s', (s' = .FX ∨ s' = .FR) ∧ ∀ s stack (ctx : σ), s = .VA ∨ s = .AR →
        Json.run cfg (reading s .none stack [] ctx) (sign ++ m ++ chr '.' :: ds) =
          some (reading s' .float stack (sign ++ m ++ [cfg.decimalPoint] ++ ds) ctx) := by
    intro sign m ds hsign hm hds
    obtain ⟨s₁, hw, hrun⟩ := run_whole hcfg hsign hm
    obtain ⟨s₂, hs₂, hfrac⟩ := run_fraction hcfg hds
    constructor
    · have hone : localized cfg.decimalPoint (chr '.' :: ds) = cfg.decimalPoint :: ds := by
        change cfg.decimalPoint :: localized cfg.decimalPoint ds = _
        rw [localized_digits _ hds]
      rw [localized_append, localized_whole _ hsign hm, hone, List.append_assoc (sign ++ m)]
      rfl
    · refine ⟨s₂, hs₂, fun s stack ctx hs => ?_⟩
      have hs₁ : s₁ = .ZE ∨ s₁ = .IT := by
        rcases hw with ⟨-, rfl⟩ | ⟨-, rfl⟩
        · exact .inl rfl
        · exact .inr rfl
      rw [run_append, hrun s stack ctx hs, Option.bind_some, run_cons, char_point hcfg hs₁,
        Option.bind_some, hfrac]
  cases h with
  | point hsign hm hds =>
    obtain ⟨hloc, s', hs', hrun⟩ := hpoint hsign hm hds
    rw [hloc]
    exact ⟨s', by tauto, hrun⟩
  | pointExponent hsign hm hds hex =>
    obtain ⟨hloc, s', hs', hrun⟩ := hpoint hsign hm hds
    refine ⟨.E3, by tauto, fun s stack ctx hs => ?_⟩
    rw [run_append, hrun s stack ctx hs, Option.bind_some,
      run_exponent hcfg hex (.inr ⟨hs', rfl⟩), localized_append, hloc, localized_exponent _ hex]
  | exponent hsign hm hne hex =>
    obtain ⟨s₁, hw, hrun⟩ := run_whole hcfg hsign hm
    obtain rfl : s₁ = .IT := by
      rcases hw with ⟨h0, -⟩ | ⟨-, rfl⟩
      · exact absurd h0 hne
      · rfl
    refine ⟨.E3, by tauto, fun s stack ctx hs => ?_⟩
    rw [run_append, hrun s stack ctx hs, Option.bind_some,
      run_exponent hcfg hex (.inl ⟨rfl, rfl⟩), localized_append, localized_whole _ hsign hm,
      localized_exponent _ hex]

/-- `%lld` reads up to a blank. -/
theorem scanInteger_whole (hm : Magnitude m) (hw : Blank w) :
    scanInteger (m ++ w) = longLong (digitsValue m) ∧
      scanInteger (chr '-' :: m ++ w) = longLong (-digitsValue m) := by
  have htake : (m ++ w).takeWhile isDigit = m := by
    rw [List.takeWhile_append_of_pos hm.all, blank_takeWhile hw, List.append_nil]
  constructor
  · obtain ⟨c, ds, rfl, hc⟩ : ∃ c ds, m = c :: ds ∧ isDigit c = true := by
      cases hm with
      | zero => exact ⟨_, _, rfl, by decide⟩
      | digits hc _ _ => exact ⟨_, _, rfl, hc⟩
    have hne : c ≠ chr '-' := by
      rintro rfl
      exact absurd hc (by decide)
    rw [List.cons_append] at htake ⊢
    rw [scanInteger, if_neg hne, htake, longLong]
    omega
  · rw [List.cons_append, scanInteger, if_pos rfl, htake, longLong]
    omega

/-! ## Numbers in a text that is read -/

theorem Ends.loop (hcfg : cfg.allowComments = false) (ht : t ≠ .none)
    (hr : ∀ c, isDigit c = true → row s c = .state s)
    (h : Ends cfg (reading s t stack buf ctx) b jc') :
    ∃ ds b₁, Digits ds ∧ b = ds ++ b₁ ∧ (∀ c b₂, b₁ = c :: b₂ → isDigit c = false) ∧
      Ends cfg (reading s t stack (buf ++ ds) ctx) b₁ jc' := by
  have hd : Digits (b.takeWhile isDigit) := fun c hc => List.mem_takeWhile_imp hc
  have hb : b = b.takeWhile isDigit ++ b.dropWhile isDigit := List.takeWhile_append_dropWhile.symm
  refine ⟨_, _, hd, hb, ?_, ?_⟩
  · intro c b₂ hc
    have := List.head?_dropWhile_not isDigit b
    rw [hc] at this
    simpa using this
  · rw [hb] at h
    exact (ends_append (run_loop hcfg ht hr hd)).mp h

/-- What is held goes on as from `OK`, if no more of it is read. -/
theorem Ends.stop (hcfg : cfg.allowComments = false) (ht : t ≠ .none)
    (h : Ends cfg (reading s t stack buf ctx) (c :: b) jc') (hr : row s c = ending c) :
    Ends cfg (reading .OK t stack buf ctx) (c :: b) jc' := by
  rw [Ends, run_cons] at h ⊢
  rwa [char_stop hcfg ht hr] at h

theorem Ends.exponent (hcfg : cfg.allowComments = false)
    (h : Ends cfg (reading .E1 .float stack buf ctx) b jc') :
    ∃ sign d ds b₁, (sign = [] ∨ sign = [chr '+'] ∨ sign = [chr '-']) ∧ isDigit d = true ∧
      Digits ds ∧ b = sign ++ d :: ds ++ b₁ ∧
      Ends cfg (reading .OK .float stack (buf ++ (sign ++ d :: ds)) ctx) b₁ jc' := by
  have hdigits : ∀ {buf b}, Ends cfg (reading .E3 .float stack buf ctx) b jc' →
      ∃ ds b₁, Digits ds ∧ b = ds ++ b₁ ∧
        Ends cfg (reading .OK .float stack (buf ++ ds) ctx) b₁ jc' := by
    intro buf b h
    obtain ⟨ds, b₁, hds, rfl, hhead, h₁⟩ := h.loop hcfg (by decide) fun _ => row_E3_digit
    obtain ⟨c, b₂, jc₁, rfl, -, -⟩ := h₁.step rfl
    refine ⟨ds, _, hds, rfl, h₁.stop hcfg (by decide) ?_⟩
    exact if_neg (by rw [hhead c b₂ rfl]; decide)
  have hfirst : ∀ {s : State} {c : UInt8} {b : Bytes} {buf : Bytes} {jc₁ : Parser σ},
      row s c = (if isDigit c = true then .state .E3 else .xx) →
      jsonParserChar cfg (reading s .float stack buf ctx) c = some jc₁ → Ends cfg jc₁ b jc' →
      isDigit c = true ∧ Ends cfg (reading .E3 .float stack (buf ++ [c]) ctx) b jc' := by
    intro s c b buf jc₁ hr hchar h
    rw [← within_zero, char_held hcfg (by decide), entry_eq, hr] at hchar
    by_cases hd : isDigit c = true
    · rw [if_pos hd] at hchar
      obtain rfl := Option.some.inj hchar
      exact ⟨hd, h⟩
    · rw [if_neg hd] at hchar
      cases hchar
  obtain ⟨c, b₁, jc₁, rfl, hchar, h₁⟩ := h.step rfl
  by_cases hsign : c = chr '+' ∨ c = chr '-'
  · rw [char_row hcfg (by decide) (show row .E1 c = .state .E2 from if_pos hsign)] at hchar
    obtain rfl := Option.some.inj hchar
    obtain ⟨d, b₂, jc₂, rfl, hchar₂, h₂⟩ := h₁.step rfl
    obtain ⟨hd, h₃⟩ := hfirst rfl hchar₂ h₂
    obtain ⟨ds, b₃, hds, rfl, h₄⟩ := hdigits h₃
    refine ⟨[c], d, ds, b₃, ?_, hd, hds, by simp, by simpa using h₄⟩
    rcases hsign with rfl | rfl
    · exact .inr (.inl rfl)
    · exact .inr (.inr rfl)
  · have hr : row .E1 c = if isDigit c = true then .state .E3 else .xx := if_neg hsign
    obtain ⟨hd, h₂⟩ := hfirst hr hchar h₁
    obtain ⟨ds, b₃, hds, rfl, h₃⟩ := hdigits h₂
    exact ⟨[], c, ds, b₃, .inl rfl, hd, hds, by simp, by simpa using h₃⟩

/-- Behind an `e`. -/
theorem Ends.fromE (hcfg : cfg.allowComments = false) (hc : isE c = true)
    (hs : s = .IT ∧ t = .integer ∨ (s = .FX ∨ s = .FR) ∧ t = .float)
    (h : Ends cfg (reading s t stack buf ctx) (c :: b) jc') :
    ∃ ex b₁, ExponentText ex ∧ c :: b = ex ++ b₁ ∧
      Ends cfg (reading .OK .float stack (buf ++ ex) ctx) b₁ jc' := by
  have h₁ := (ends_cons (char_e hcfg hc hs)).mp h
  obtain ⟨sign, d, ds, b₁, hsign, hd, hds, rfl, h₂⟩ := h₁.exponent hcfg
  refine ⟨c :: sign ++ d :: ds, b₁, .intro (isE_iff.mp hc) hsign hd hds, by simp, ?_⟩
  simpa using h₂

theorem Ends.fraction (hcfg : cfg.allowComments = false)
    (h : Ends cfg (reading .FX .float stack buf ctx) b jc') :
    ∃ ds ex b₁, Digits ds ∧ (ex = [] ∨ ExponentText ex) ∧ b = ds ++ ex ++ b₁ ∧
      Ends cfg (reading .OK .float stack (buf ++ ds ++ ex) ctx) b₁ jc' := by
  have hd : Digits (b.takeWhile isDigit) := fun c hc => List.mem_takeWhile_imp hc
  have hb : b = b.takeWhile isDigit ++ b.dropWhile isDigit := List.takeWhile_append_dropWhile.symm
  obtain ⟨s', hs', hrun⟩ := run_fraction hcfg hd
  have h₁ : Ends cfg (reading s' .float stack (buf ++ b.takeWhile isDigit) ctx)
      (b.dropWhile isDigit) jc' := by
    rw [hb] at h
    exact (ends_append (hrun stack buf ctx)).mp h
  have hdone : (reading s' .float stack (buf ++ b.takeWhile isDigit) ctx).jsonParserDone =
      false := by
    rcases hs' with rfl | rfl <;> rfl
  obtain ⟨c, b₂, jc₁, hc, -, -⟩ := h₁.step hdone
  have hnd : ¬ isDigit c = true := by
    have := List.head?_dropWhile_not isDigit b
    rw [hc] at this
    simpa using this
  rw [hc] at h₁
  by_cases he : isE c = true
  · obtain ⟨ex, b₃, hex, hb₃, h₂⟩ := h₁.fromE hcfg he (.inr ⟨hs', rfl⟩)
    refine ⟨_, ex, b₃, hd, .inr hex, ?_, h₂⟩
    rw [List.append_assoc, ← hb₃, ← hc]
    exact hb
  · refine ⟨_, [], c :: b₂, hd, .inl rfl, ?_, ?_⟩
    · rw [List.append_nil, ← hc]
      exact hb
    · rw [List.append_nil]
      refine h₁.stop hcfg (by decide) ?_
      rcases hs' with rfl | rfl
      · rw [row, if_neg hnd, if_neg he]
      · rw [row, if_neg hnd, if_neg he]

/-- The digits in front of a point or an exponent. -/
theorem Ends.whole (hcfg : cfg.allowComments = false) (hs : s = .VA ∨ s = .AR)
    (hc : isDigit c = true ∨ c = chr '-')
    (h : Ends cfg (reading s .none stack [] ctx) (c :: b) jc') :
    ∃ sign m b₁ s', SignText sign ∧ Magnitude m ∧ Whole m s' ∧ c :: b = sign ++ m ++ b₁ ∧
      (s' = .IT → ∀ c b₂, b₁ = c :: b₂ → isDigit c = false) ∧
      Ends cfg (reading s' .integer stack (sign ++ m) ctx) b₁ jc' := by
  have hrest : ∀ {sign : Bytes} {c : UInt8} {b : Bytes}, SignText sign → isDigit c = true →
      Ends cfg (reading (if c = chr '0' then .ZE else .IT) .integer stack (sign ++ [c]) ctx) b jc' →
      ∃ m b₁ s', Magnitude m ∧ Whole m s' ∧ c :: b = m ++ b₁ ∧
        (s' = .IT → ∀ c b₂, b₁ = c :: b₂ → isDigit c = false) ∧
        Ends cfg (reading s' .integer stack (sign ++ m) ctx) b₁ jc' := by
    intro sign c b hsign hd h
    by_cases h0 : c = chr '0'
    · subst h0
      exact ⟨_, b, .ZE, .zero, .inl ⟨rfl, rfl⟩, rfl,
        fun h => absurd h (by decide), h⟩
    · rw [if_neg h0] at h
      obtain ⟨ds, b₁, hds, rfl, hhead, h₁⟩ := h.loop hcfg (by decide) fun _ => row_IT_digit
      refine ⟨c :: ds, b₁, .IT, .digits hd h0 hds, .inr ⟨by simp [h0], rfl⟩, rfl,
        fun _ => hhead, ?_⟩
      simpa using h₁
  have h₁ := (ends_cons (char_first hcfg hs hc)).mp h
  by_cases hm : c = chr '-'
  · subst hm
    rw [if_pos rfl] at h₁
    obtain ⟨d, b₁, jc₁, rfl, hchar, h₂⟩ := h₁.step rfl
    by_cases hd : isDigit d = true
    · rw [char_row hcfg (by decide) (row_MI_digit hd)] at hchar
      obtain rfl := Option.some.inj hchar
      obtain ⟨m, b₂, s', hmag, hw, hb, hhead, h₃⟩ := hrest (.inr rfl) hd h₂
      exact ⟨[chr '-'], m, b₂, s', .inr rfl, hmag, hw, by rw [hb]; rfl, hhead, h₃⟩
    · have hrow : row .MI d = .xx := by
        have hne : d ≠ chr '0' := by
          rintro rfl
          exact hd (by decide)
        rw [row, if_neg hne, if_neg hd]
      rw [← within_zero, char_held hcfg (by decide), entry_eq, hrow] at hchar
      cases hchar
  · rw [if_neg hm] at h₁
    obtain ⟨m, b₁, s', hmag, hw, hb, hhead, h₂⟩ := hrest (.inl rfl) (hc.resolve_right hm) h₁
    exact ⟨[], m, b₁, s', .inl rfl, hmag, hw, hb, hhead, h₂⟩

/-- Blanks behind a number are not read. -/
def Stable (strtod : Bytes → F) : Prop := ∀ b w, Blank w → strtod (b ++ w) = strtod b

theorem waits_integer (hcfg : cfg.allowComments = false) (hsign : SignText sign)
    (hm : Magnitude m) : ∃ n, ValueText cfg.decimalPoint cfg.strtod (.integer n) (sign ++ m) ∧
      Waits cfg .integer (sign ++ m) [.integer n] := by
  rcases hsign with rfl | rfl
  · refine ⟨_, .integer hm, waits_pending hcfg (by decide) (by decide) fun w hw => ?_⟩
    rw [pending, List.nil_append, (scanInteger_whole hm hw).1]
  · refine ⟨_, .negative hm, waits_pending hcfg (by decide) (by decide) fun w hw => ?_⟩
    exact congrArg (fun n => some [Event.integer n]) (scanInteger_whole hm hw).2

theorem waits_float (hcfg : cfg.allowComments = false) (hstr : Stable cfg.strtod) :
    Waits cfg .float buf [.float (cfg.strtod buf)] :=
  waits_pending hcfg (by decide) (by decide) fun w hw => by rw [pending, hstr buf w hw]

/-- A number that is read. -/
theorem Ends.number (hcfg : cfg.allowComments = false) (hstr : Stable cfg.strtod)
    (hs : s = .VA ∨ s = .AR) (hc : isDigit c = true ∨ c = chr '-')
    (h : Ends cfg (reading s .none stack [] ctx) (c :: b) jc') :
    ∃ v val b₁ t buf, ValueText cfg.decimalPoint cfg.strtod v val ∧ c :: b = val ++ b₁ ∧
      Waits cfg t buf [v.event] ∧ Ends cfg (reading .OK t stack buf ctx) b₁ jc' := by
  have hfloat : ∀ {val b₁ buf}, FloatText val → c :: b = val ++ b₁ →
      buf = localized cfg.decimalPoint val →
      Ends cfg (reading .OK .float stack buf ctx) b₁ jc' →
      ∃ v val b₁ t buf, ValueText cfg.decimalPoint cfg.strtod v val ∧ c :: b = val ++ b₁ ∧
        Waits cfg t buf [v.event] ∧ Ends cfg (reading .OK t stack buf ctx) b₁ jc' := by
    rintro val b₁ buf hval hb rfl h
    exact ⟨_, val, b₁, .float, _, .float hval, hb, waits_float hcfg hstr, h⟩
  obtain ⟨sign, m, b₁, s', hsign, hm, hw, hb, hhead, h₁⟩ := h.whole hcfg hs hc
  have hloc := localized_whole cfg.decimalPoint hsign hm
  have hs' : s' = .ZE ∨ s' = .IT := by
    rcases hw with ⟨-, rfl⟩ | ⟨-, rfl⟩
    · exact .inl rfl
    · exact .inr rfl
  have hdone : (reading s' .integer stack (sign ++ m) ctx).jsonParserDone = false := by
    rcases hs' with rfl | rfl <;> rfl
  obtain ⟨d, b₂, jc₁, rfl, -, -⟩ := h₁.step hdone
  by_cases hp : d = chr '.'
  · subst hp
    obtain ⟨ds, ex, b₃, hds, hex, rfl, h₂⟩ :=
      ((ends_cons (char_point hcfg hs')).mp h₁).fraction hcfg
    have hone : localized cfg.decimalPoint (chr '.' :: ds) = cfg.decimalPoint :: ds := by
      change cfg.decimalPoint :: localized cfg.decimalPoint ds = _
      rw [localized_digits _ hds]
    rcases hex with rfl | hex
    · refine hfloat (.point hsign hm hds) (by rw [hb]; simp) ?_ h₂
      rw [localized_append, hloc, hone]
      simp
    · refine hfloat (.pointExponent hsign hm hds hex) (by rw [hb]; simp) ?_ h₂
      rw [localized_append, localized_append, hloc, hone, localized_exponent _ hex]
      simp
  rcases hw with ⟨rfl, rfl⟩ | ⟨hne, rfl⟩
  · obtain ⟨n, hval, hwait⟩ := waits_integer hcfg hsign hm
    exact ⟨_, _, _, _, _, hval, hb, hwait, h₁.stop hcfg (by decide) (if_neg hp)⟩
  have hnd : ¬ isDigit d = true := by
    rw [hhead rfl d b₂ rfl]
    decide
  by_cases he : isE d = true
  · obtain ⟨ex, b₃, hex, hb₃, h₂⟩ := h₁.fromE hcfg he (.inl ⟨rfl, rfl⟩)
    refine hfloat (.exponent hsign hm hne hex) (by rw [hb, hb₃]; simp) ?_ h₂
    rw [localized_append, hloc, localized_exponent _ hex]
  · obtain ⟨n, hval, hwait⟩ := waits_integer hcfg hsign hm
    refine ⟨_, _, _, _, _, hval, hb, hwait, h₁.stop hcfg (by decide) ?_⟩
    rw [row, if_neg hnd, if_neg hp, if_neg he]

end Numbers

/-! ## Values -/

/-- The words, each with its type. -/
inductive Word : Scalar F → JsonType → Bytes → Prop where
  | null : Word .null .null (text "null")
  | true : Word .true .true (text "true")
  | false : Word .false .false (text "false")

theorem Word.valueText {v : Scalar F} (h : Word v t b) (p : UInt8) (strtod : Bytes → F) :
    ValueText p strtod v b := by
  cases h
  · exact .null
  · exact .true
  · exact .false

theorem Word.waits (hcfg : cfg.allowComments = Bool.false) {v : Scalar F} (h : Word v t b) :
    Waits cfg t b [v.event] := by
  cases h <;> exact waits_pending hcfg (by decide) (by decide) fun _ _ => rfl

theorem Word.run {v : Scalar F} (h : Word v t b) (hs : s = .VA ∨ s = .AR) :
    Json.run cfg (reading s .none stack [] ctx) b = some (reading .OK t stack b ctx) := by
  cases h <;> rcases hs with rfl | rfl <;> rfl

theorem Ends.word (hcfg : cfg.allowComments = false) (hs : s = .VA ∨ s = .AR)
    (hc : c = chr 'n' ∨ c = chr 't' ∨ c = chr 'f')
    (h : Ends cfg (reading s .none stack [] ctx) (c :: b) jc') :
    ∃ (v : Scalar F) (t : JsonType) (val b₁ : Bytes), Word v t val ∧ c :: b = val ++ b₁ ∧
      Ends cfg (reading .OK t stack val ctx) b₁ jc' := by
  have hfirst : ∀ {c : UInt8} {jc₁ : Parser σ},
      jsonParserChar cfg (reading s .none stack [] ctx) c = some jc₁ →
      Ends cfg (reading s .none stack [] ctx) (c :: b) jc' → Ends cfg jc₁ b jc' :=
    fun hchar h => (ends_cons hchar).mp h
  rcases hc with rfl | rfl | rfl
  · have hchar : jsonParserChar cfg (reading s .none stack [] ctx) (chr 'n') =
        some (within .N1 .null 0 stack [chr 'n'] ctx) := by
      rcases hs with rfl | rfl <;> rfl
    obtain ⟨b₁, rfl, h₁⟩ := (hfirst hchar h).only hcfg (by decide) rfl fun _ => rfl
    obtain ⟨b₂, rfl, h₂⟩ := h₁.only hcfg (by decide) rfl fun _ => rfl
    obtain ⟨b₃, rfl, h₃⟩ := h₂.only hcfg (by decide) rfl fun _ => rfl
    exact ⟨_, _, _, b₃, .null, rfl, h₃⟩
  · have hchar : jsonParserChar cfg (reading s .none stack [] ctx) (chr 't') =
        some (within .T1 .true 0 stack [chr 't'] ctx) := by
      rcases hs with rfl | rfl <;> rfl
    obtain ⟨b₁, rfl, h₁⟩ := (hfirst hchar h).only hcfg (by decide) rfl fun _ => rfl
    obtain ⟨b₂, rfl, h₂⟩ := h₁.only hcfg (by decide) rfl fun _ => rfl
    obtain ⟨b₃, rfl, h₃⟩ := h₂.only hcfg (by decide) rfl fun _ => rfl
    exact ⟨_, _, _, b₃, .true, rfl, h₃⟩
  · have hchar : jsonParserChar cfg (reading s .none stack [] ctx) (chr 'f') =
        some (within .F1 .false 0 stack [chr 'f'] ctx) := by
      rcases hs with rfl | rfl <;> rfl
    obtain ⟨b₁, rfl, h₁⟩ := (hfirst hchar h).only hcfg (by decide) rfl fun _ => rfl
    obtain ⟨b₂, rfl, h₂⟩ := h₁.only hcfg (by decide) rfl fun _ => rfl
    obtain ⟨b₃, rfl, h₃⟩ := h₂.only hcfg (by decide) rfl fun _ => rfl
    obtain ⟨b₄, rfl, h₄⟩ := h₃.only hcfg (by decide) rfl fun _ => rfl
    exact ⟨_, _, _, b₄, .false, rfl, h₄⟩

variable {m : Mode} {v : Scalar F} {val : Bytes}

/-- The event of a value is reported or held when the byte after the value comes. -/
structure After (cfg : Config F σ) (e : Event F) (t : JsonType) (buf : Bytes)
    (es₁ es₂ : List (Event F)) : Prop where
  event : [e] = es₁ ++ es₂
  waits : Waits cfg t buf es₂

theorem quoted_eq (b : Bytes) : quoted b = text "\"" ++ b ++ text "\"" := rfl

theorem row_stops (hs : s ∈ [State.OK, .ZE, .IT, .FX, .FR, .E3]) (hc : Stops c) :
    row s c = ending c := by
  obtain ⟨hd, hp, he⟩ := stops_row c hc
  simp only [List.mem_cons, List.not_mem_nil, or_false] at hs
  rcases hs with rfl | rfl | rfl | rfl | rfl | rfl <;> simp [row, hd, hp, he]

/-- A value is read, as long as a byte comes after it that may. -/
def Taken (cfg : Config F σ) (val : Bytes) (e : Event F) : Prop :=
  ∃ t buf es₁ es₂, After cfg e t buf es₁ es₂ ∧ ∀ s m rest ctx c b, s = .VA ∨ s = .AR →
    m = .object ∨ m = .array → Stops c →
    run cfg (reading s .none (m :: rest) [] ctx) (val ++ c :: b) =
      (es₁.foldlM cfg.callback ctx).bind fun ctx =>
        run cfg (reading .OK t (m :: rest) buf ctx) (c :: b)

theorem ValueText.taken (hcfg : cfg.allowComments = Bool.false) (hstr : Stable cfg.strtod)
    (hv : ValueText cfg.decimalPoint cfg.strtod v val) : Taken cfg val v.event := by
  have hheld : ∀ {t : JsonType} {buf : Bytes}, t ≠ .none → Waits cfg t buf [v.event] →
      (∃ s' ∈ [State.OK, .ZE, .IT, .FX, .FR, .E3], ∀ s stack ctx, s = .VA ∨ s = .AR →
        run cfg (reading s .none stack [] ctx) val = some (reading s' t stack buf ctx)) →
      Taken cfg val v.event := by
    rintro t buf ht hwait ⟨s', hs', hrun⟩
    refine ⟨t, buf, [], [v.event], ⟨rfl, hwait⟩, fun s m rest ctx c b hs _ hc => ?_⟩
    rw [run_append, hrun s _ ctx hs, Option.bind_some, run_cons,
      char_stop hcfg ht (row_stops hs' hc), ← run_cons]
    rfl
  have hword : ∀ {t : JsonType}, t ≠ .none → Word v t val →
      Taken cfg val v.event := fun ht hw =>
    hheld ht (hw.waits hcfg) ⟨.OK, by decide, fun _ _ _ hs => hw.run hs⟩
  have hwhole : ∀ {sign m : Bytes}, SignText sign → Magnitude m →
      ∃ s' ∈ [State.OK, .ZE, .IT, .FX, .FR, .E3], ∀ s stack (ctx : σ), s = .VA ∨ s = .AR →
        run cfg (reading s .none stack [] ctx) (sign ++ m) =
          some (reading s' .integer stack (sign ++ m) ctx) := by
    intro sign m hsign hm
    obtain ⟨s', hw, hrun⟩ := run_whole hcfg hsign hm
    refine ⟨s', ?_, hrun⟩
    rcases hw with ⟨-, rfl⟩ | ⟨-, rfl⟩ <;> decide
  cases hv with
  | null => exact hword (by decide) .null
  | true => exact hword (by decide) .true
  | false => exact hword (by decide) .false
  | string hcs =>
    refine ⟨.none, [], [_], [], ⟨rfl, waits_nil⟩, fun s m rest ctx c b hs hm _ => ?_⟩
    rw [quoted_eq, run_append, run_quoted (hcs.run hcfg) hs hm rfl, Option.bind_assoc]
    simp [Scalar.event]
  | integer hm =>
    exact hheld (t := .integer) (by decide) (waits_pending hcfg (by decide) (by decide)
      fun w hw => congrArg (fun n => some [Event.integer n]) (scanInteger_whole hm hw).1)
      (hwhole (.inl rfl) hm)
  | negative hm =>
    exact hheld (t := .integer) (by decide) (waits_pending hcfg (by decide) (by decide)
      fun w hw => congrArg (fun n => some [Event.integer n]) (scanInteger_whole hm hw).2)
      (hwhole (.inr rfl) hm)
  | float hf =>
    obtain ⟨s', hs', hrun⟩ := hf.run hcfg
    refine hheld (t := .float) (by decide) (waits_float hcfg hstr) ⟨s', ?_, hrun⟩
    rcases hs' with rfl | rfl | rfl <;> decide

theorem opening_cases : ∀ c, opening c ≠ .xx →
    c = chr '\x7b' ∨ c = chr '[' ∨ c = chr '"' ∨ (isDigit c = true ∨ c = chr '-') ∨
      (c = chr 'n' ∨ c = chr 't' ∨ c = chr 'f') :=
  forall_byte (by decide +kernel)

/-- What is read and opens no container is a value. -/
theorem Ends.value (hcfg : cfg.allowComments = false) (hstr : Stable cfg.strtod)
    (hs : s = .VA ∨ s = .AR) (hm : m = .object ∨ m = .array)
    (hc : c = chr '"' ∨ (isDigit c = true ∨ c = chr '-') ∨
      (c = chr 'n' ∨ c = chr 't' ∨ c = chr 'f'))
    (h : Ends cfg (reading s .none (m :: rest) [] ctx) (c :: b) jc') :
    ∃ v val b₁ t buf es₁ es₂ ctx', ValueText cfg.decimalPoint cfg.strtod v val ∧
      c :: b = val ++ b₁ ∧ After cfg v.event t buf es₁ es₂ ∧
      es₁.foldlM cfg.callback ctx = some ctx' ∧
      Ends cfg (reading .OK t (m :: rest) buf ctx') b₁ jc' := by
  rcases hc with rfl | hc | hc
  · have hquote : jsonParserChar cfg (reading s .none (m :: rest) [] ctx) (chr '"') =
        some (reading .ST .string (m :: rest) [] ctx) := char_quote (by tauto)
    obtain ⟨cs, a, b₁, jc₁, hcs, rfl, hact, h₁⟩ := ((ends_cons hquote).mp h).chars hcfg
    refine ⟨.string (utf8 cs), quoted a, b₁, .none, [], [.string (utf8 cs)], [], ?_⟩
    have hend : (reading .ST .string (m :: rest) ([] ++ utf8 cs ++ [chr '"']) ctx).act cfg .a4 =
        (cfg.callback ctx (.string (utf8 cs))).bind fun ctx =>
          some (reading .OK .none (m :: rest) [] ctx) := by
      rcases hm with rfl | rfl <;>
        simp [Parser.act, Parser.endString, Parser.parseParseBuffer, Option.bind_assoc]
    rw [hend, Option.bind_eq_some_iff] at hact
    obtain ⟨ctx', hcall, hjc⟩ := hact
    obtain rfl := Option.some.inj hjc
    refine ⟨ctx', .string hcs, by simp [quoted], ⟨rfl, waits_nil⟩, ?_, h₁⟩
    simp [hcall]
  · obtain ⟨v, val, b₁, t, buf, hval, hb, hwait, h₁⟩ := h.number hcfg hstr hs hc
    exact ⟨v, val, b₁, t, buf, [], _, ctx, hval, hb, ⟨rfl, hwait⟩, rfl, h₁⟩
  · obtain ⟨v, t, val, b₁, hw, hb, h₁⟩ := h.word hcfg hs hc
    exact ⟨v, val, b₁, t, val, [], _, ctx, hw.valueText _ _, hb, ⟨rfl, hw.waits hcfg⟩, rfl, h₁⟩

end ApeServer.Json
