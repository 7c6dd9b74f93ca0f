import ApeServer.Json.Quoting

/-!
# The member names of a printed tree

The text of a tree is read member by member: as long as every key is read as itself and every
value up to what follows it, the reading is where the printing was, and at the first key or
value for which this fails it stops or reads another name.
-/
namespace ApeServer.Json

open Sock (Bytes)

variable {b k rest rest' : Bytes} {c : UInt8} {F : Type}

/-! ## Documents -/

/-- A name that is in its place and is read as itself. -/
def NameGood : Kind → Option Bytes → Prop
  | .obj, some k => ∀ c ∈ k, IsRaw c
  | .arr, none => True
  | _, _ => False

variable [Zero F] [DecidableEq F] {P : Printer F}

namespace Doc

def Good (P : Printer F) : Kind → Doc F → Prop
  | _, nil => True
  | kind, scalar name v next => NameGood kind name ∧ v.Good P ∧ next.Good P kind
  | kind, node name kind' child next =>
    NameGood kind name ∧ child.Good P kind' ∧ next.Good P kind

omit [Zero F] [DecidableEq F] in
def names : Doc F → Names
  | nil => .nil
  | scalar name _ next => .cons (name.map units) .nil next.names
  | node name _ child next => .cons (name.map units) child.names next.names

end Doc

/-- The bracket that closes a container. -/
def Kind.close : Kind → UInt8
  | .obj => 125
  | .arr => 93

theorem closeText_eq (kind : Kind) : closeText kind.childType = [kind.close] := by
  cases kind <;> rfl

theorem Kind.isSep_close (kind : Kind) : IsSep kind.close := by
  cases kind
  · exact .inr (.inl rfl)
  · exact .inr (.inr rfl)

theorem Kind.close_ne_comma (kind : Kind) : kind.close ≠ chr ',' := by
  cases kind <;> decide

/-- The reading of members or elements after a value. -/
theorem readItems_sep {kind : Kind} {fuel : ℕ} {nm : Option (List ℕ)} {child : Names}
    {value : Bytes} (hname : readName kind b = some (nm, value))
    (hvalue : readValue fuel value = some (child, c :: rest)) (hc : isWs c = false) :
    readItems kind kind.close (fuel + 1) b =
      if c = chr ',' then (readItems kind kind.close fuel rest).map fun r =>
        (.cons nm child r.1, r.2)
      else if c = kind.close then some (.cons nm child .nil, rest) else none := by
  rw [readItems, hname, Option.bind_eq_bind, Option.bind_some]
  dsimp only
  rw [hvalue, Option.bind_eq_bind, Option.bind_some]
  dsimp only
  rw [skipWs_cons hc]
  dsimp only
  congr 1
  cases readItems kind kind.close fuel rest <;> rfl

theorem readItems_after {kind : Kind} {fuel : ℕ} {nm : Option (List ℕ)} {child : Names}
    {value : Bytes} (hname : readName kind b = some (nm, value)) {d : Doc F}
    (hvalue : readValue fuel value = some (child, d.after kind ++ (d.text P kind ++ rest))) :
    readItems kind kind.close (fuel + 1) b =
      if d.isNil then some (.cons nm child .nil, rest)
      else (readItems kind kind.close fuel (d.text P kind ++ rest)).map fun r =>
        (.cons nm child r.1, r.2) := by
  cases hn : d.isNil with
  | true =>
    have hsep : d.after kind ++ (d.text P kind ++ rest) = kind.close :: rest := by
      cases d with
      | nil =>
        rw [Doc.after, closeText_eq]
        rfl
      | scalar _ _ _ => cases hn
      | node _ _ _ _ => cases hn
    rw [hsep] at hvalue
    rw [readItems_sep hname hvalue kind.isSep_close.not_ws, if_neg kind.close_ne_comma,
      if_pos rfl, if_pos rfl]
  | false =>
    rw [Doc.after_comma hn, List.singleton_append] at hvalue
    rw [readItems_sep hname hvalue (by decide), if_pos rfl, if_neg Bool.false_ne_true]

theorem readName_quote :
    readName .obj (chr '"' :: rest) = (readString rest).bind fun r =>
      match skipWs r.2 with
      | c :: b => if c = chr ':' then some (some r.1, b) else none
      | [] => none := by
  rw [readName, skipWs_cons (by decide)]
  dsimp only
  rw [if_pos rfl]
  rfl

theorem keyText_append : keyText (some k) ++ rest = chr '"' :: (k ++ chr '"' :: chr ':' :: rest) := by
  rw [keyText, List.append_assoc, List.append_assoc]
  rfl

/-- A name that is good is read, up to the value after it. -/
theorem readName_good {kind : Kind} {nm : Option Bytes} (hn : NameGood kind nm) :
    readName kind (keyText nm ++ rest) = some (nm.map units, rest) := by
  cases kind with
  | obj =>
    cases nm with
    | none => exact hn.elim
    | some k =>
      rw [keyText_append, readName_quote, readString_key hn]
      rfl
  | arr =>
    cases nm with
    | none => rfl
    | some k => exact hn.elim

/-- A value that stands where a name should is not read as one. -/
def NoName (b : Bytes) : Prop := readName .obj b = none

/-- Only a name that is good is read as itself. -/
theorem nameGood_of_read {kind : Kind} {nm : Option Bytes} {value : Bytes} (hno : NoName rest)
    (h : readName kind (keyText nm ++ rest) = some (nm.map units, value)) :
    NameGood kind nm ∧ value = rest := by
  cases kind with
  | obj =>
    cases nm with
    | none =>
      rw [keyText, List.nil_append, hno] at h
      cases h
    | some k =>
      rw [keyText_append, readName_quote, Option.bind_eq_some_iff] at h
      obtain ⟨⟨name, r⟩, hs, h⟩ := h
      dsimp only at h
      split at h
      · rename_i d b' hskip
        split at h
        · rename_i hd
          cases h
          obtain ⟨hk, rfl⟩ := readString_own hs
          rw [skipWs_cons (by decide)] at hskip
          cases hskip
          exact ⟨hk, rfl⟩
        · cases h
      · cases h
  | arr =>
    cases nm with
    | none =>
      cases h
      exact ⟨trivial, rfl⟩
    | some k => cases h

/-- A character a value or a name may begin with. -/
def IsStart (c : UInt8) : Prop := isWs c = false ∧ c ≠ 125 ∧ c ≠ 93

instance : DecidablePred IsStart := fun _ => inferInstanceAs (Decidable (_ ∧ _))

theorem isStart_of_numChar (hc : isNumChar c = true) : IsStart c ∧ c ≠ chr '"' := by
  obtain ⟨hws, -, -, hquote, -⟩ := isNumChar_cases hc
  refine ⟨⟨hws, ?_, ?_⟩, hquote⟩
  · rintro rfl
    exact absurd hc (by decide)
  · rintro rfl
    exact absurd hc (by decide)

theorem readName_of_start (hc : IsStart c) (hq : c ≠ chr '"') : NoName (c :: b) := by
  rw [NoName, readName, skipWs_cons hc.1]
  dsimp only
  rw [if_neg hq]

/-- The text of a value that is no string does not begin as a name does. -/
def Bare (b : Bytes) : Prop := ∃ c b', b = c :: b' ∧ IsStart c ∧ c ≠ chr '"'

theorem bare_of_numbers {t : Bytes} (hne : t ≠ []) (ht : ∀ d ∈ t, isNumChar d = true) :
    Bare t := by
  obtain ⟨d, t, rfl⟩ := List.exists_cons_of_ne_nil hne
  exact ⟨d, t, rfl, isStart_of_numChar (ht d List.mem_cons_self)⟩

theorem Scalar.bare (hl : LengthOk P.log10) (hf : FormatOk P.format) (v : Scalar F)
    (hv : ∀ s, v ≠ .string s) : Bare (v.text P) := by
  have hzero : Bare (Json.text "0") := ⟨48, [], rfl, by decide, by decide⟩
  cases v with
  | integer n =>
    rw [Scalar.text]
    split_ifs with h0
    · exact hzero
    · by_cases hmin : n = -2 ^ 63
      · rw [hmin, integerText_min hl]
        exact ⟨chr '-', _, rfl, by decide, by decide⟩
      · rw [integerText_eq hl h0 hmin]
        exact bare_of_numbers (decimal_number n).1 (decimal_number n).2.1
  | float x =>
    rw [Scalar.text]
    split_ifs with h0
    · exact hzero
    · obtain ⟨hne, hall⟩ | hw := hf x
      · exact bare_of_numbers (by simpa using hne) fun d hd => hall d (List.mem_of_mem_take hd)
      · simp only [List.mem_cons, List.not_mem_nil, or_false] at hw
        obtain hw | hw | hw | hw := hw <;> rw [hw] <;>
          exact ⟨_, _, rfl, by decide, by decide⟩
  | null => exact ⟨_, _, rfl, by decide, by decide⟩
  | true => exact ⟨_, _, rfl, by decide, by decide⟩
  | false => exact ⟨_, _, rfl, by decide, by decide⟩
  | string s => exact absurd rfl (hv s)

/-- No value of a member is read as a name. -/
theorem Scalar.noName (hl : LengthOk P.log10) (hf : FormatOk P.format) (v : Scalar F)
    (hc : IsSep c) : NoName (v.text P ++ c :: rest) := by
  by_cases hv : ∀ s, v ≠ .string s
  · obtain ⟨d, b, ht, hd, hq⟩ := v.bare hl hf hv
    rw [ht]
    exact readName_of_start hd hq
  · simp only [not_forall, not_not] at hv
    obtain ⟨s, rfl⟩ := hv
    have htext : (Scalar.string s).text P ++ c :: rest =
        chr '"' :: (escapeJsonString s ++ chr '"' :: c :: rest) := by
      rw [Scalar.text, List.append_assoc, List.append_assoc]
      rfl
    have hcolon : c ≠ chr ':' := by
      obtain rfl | rfl | rfl := hc <;> decide
    rw [NoName, htext, readName_quote]
    by_cases hs : ∀ c ∈ s, IsEscaped c
    · rw [(readString_escapeJsonString s).1 hs, Option.bind_some]
      dsimp only
      rw [skipWs_cons hc.not_ws]
      exact if_neg hcolon
    · rw [(readString_escapeJsonString s).2 hs]
      rfl

/-- The value of a member or an element that is a container. -/
def Doc.valueText (P : Printer F) (kind : Kind) (child : Doc F) : Bytes :=
  if child.isNil then Json.text "0" else openText kind.childType ++ child.text P kind

theorem openText_eq (kind : Kind) :
    ∃ c, openText kind.childType = [c] ∧ IsStart c ∧ c ≠ chr '"' := by
  cases kind
  · exact ⟨123, rfl, by decide, by decide⟩
  · exact ⟨91, rfl, by decide, by decide⟩

theorem Doc.bare_valueText (kind : Kind) (child : Doc F) : Bare (child.valueText P kind) := by
  rw [Doc.valueText]
  split_ifs
  · exact ⟨48, [], rfl, by decide, by decide⟩
  · obtain ⟨c, hc, hs⟩ := openText_eq kind
    exact ⟨c, child.text P kind, by rw [hc]; rfl, hs⟩

theorem Doc.text_start (hl : LengthOk P.log10) (hf : FormatOk P.format) {kind : Kind} {d : Doc F}
    (hn : d.isNil = false) : ∃ c b, d.text P kind = c :: b ∧ IsStart c := by
  have hkey : ∀ (name : Option Bytes) (value b : Bytes), (∃ c b, value = c :: b ∧ IsStart c) →
      ∃ c b', keyText name ++ value ++ b = c :: b' ∧ IsStart c := by
    rintro (_ | k) value b ⟨c, v, rfl, hc⟩
    · exact ⟨c, v ++ b, rfl, hc⟩
    · rw [List.append_assoc, keyText_append]
      exact ⟨chr '"', _, rfl, by decide⟩
  cases d with
  | nil => cases hn
  | scalar name v next =>
    rw [Doc.text, List.append_assoc]
    refine hkey name _ _ ?_
    by_cases hv : ∀ s, v ≠ .string s
    · obtain ⟨c, b, ht, hc, -⟩ := v.bare hl hf hv
      exact ⟨c, b, ht, hc⟩
    · simp only [not_forall, not_not] at hv
      obtain ⟨s, rfl⟩ := hv
      exact ⟨chr '"', _, rfl, by decide⟩
  | node name kind' child next =>
    rw [Doc.text, List.append_assoc]
    refine hkey name _ _ ?_
    obtain ⟨c, b, ht, hc, -⟩ := Doc.bare_valueText (P := P) kind' child
    exact ⟨c, b, ht, hc⟩

/-- A container is read by reading what is in it. -/
theorem readValue_open {kind : Kind} (hb : ∃ c b', b = c :: b' ∧ IsStart c) (fuel : ℕ) :
    readValue (fuel + 2) (openText kind.childType ++ b) = readItems kind kind.close fuel b := by
  obtain ⟨c, b, rfl, hws, hobj, harr⟩ := hb
  have hcontainer : ∀ kind : Kind, readContainer kind kind.close (fuel + 1) (c :: b) =
      readItems kind kind.close fuel (c :: b) := by
    intro kind
    have hc : c ≠ kind.close := by
      cases kind
      · exact hobj
      · exact harr
    rw [readContainer, skipWs_cons hws]
    exact if_neg hc
  cases kind with
  | obj =>
    rw [← hcontainer .obj]
    rfl
  | arr =>
    rw [← hcontainer .arr]
    rfl

/-- How far the reading of members or elements has to go. -/
def Doc.cost : Doc F → ℕ
  | nil => 0
  | scalar _ _ next => next.cost + 2
  | node _ _ child next => child.cost + next.cost + 3

omit [Zero F] [DecidableEq F] in
theorem Doc.after_sep (kind : Kind) (d : Doc F) (b : Bytes) :
    ∃ c b', d.after kind ++ b = c :: b' ∧ IsSep c := by
  cases d with
  | nil =>
    rw [Doc.after, closeText_eq]
    exact ⟨kind.close, b, rfl, kind.isSep_close⟩
  | scalar _ _ _ => exact ⟨chr ',', b, rfl, .inl rfl⟩
  | node _ _ _ _ => exact ⟨chr ',', b, rfl, .inl rfl⟩

omit [Zero F] [DecidableEq F] in
theorem names_of_isNil {d : Doc F} (h : d.isNil = true) : d.names = .nil := by
  cases d with
  | nil => rfl
  | scalar _ _ _ => cases h
  | node _ _ _ _ => cases h

/-- The members or elements after a value, when they are read as they should be. -/
theorem after_good {kind : Kind} {d : Doc F} {fuel : ℕ} {nm : Option (List ℕ)} {child : Names}
    (h : d.isNil = false →
      readItems kind kind.close fuel (d.text P kind ++ rest) = some (d.names, rest)) :
    (if d.isNil then some (.cons nm child .nil, rest)
      else (readItems kind kind.close fuel (d.text P kind ++ rest)).map fun r =>
        (.cons nm child r.1, r.2)) = some (Names.cons nm child d.names, rest) := by
  cases hn : d.isNil with
  | true => rw [if_pos rfl, names_of_isNil hn]
  | false =>
    rw [if_neg Bool.false_ne_true, h hn]
    rfl

/-- The names of a good document are its keys. -/
theorem Doc.readItems_good (hl : LengthOk P.log10) (hf : FormatOk P.format) {kind : Kind}
    {d : Doc F} (hd : d.Good P kind) (hn : d.isNil = false) {fuel : ℕ} (hfuel : d.cost ≤ fuel) :
    readItems kind kind.close fuel (d.text P kind ++ rest) = some (d.names, rest) := by
  induction d generalizing kind fuel rest with
  | nil => cases hn
  | scalar name v next ih =>
    obtain ⟨hname, hv, hnext⟩ := hd
    rw [Doc.cost] at hfuel
    obtain ⟨fuel, rfl⟩ : ∃ n, fuel = n + 2 := ⟨fuel - 2, by omega⟩
    obtain ⟨c, b, hsep, hc⟩ := next.after_sep kind (next.text P kind ++ rest)
    have hvalue := (readValue_scalar hl hf v hc b fuel).1 hv
    rw [← hsep] at hvalue
    rw [Doc.text, List.append_assoc, List.append_assoc, List.append_assoc,
      readItems_after (readName_good hname) hvalue]
    exact after_good fun hnil => ih hnext hnil (by omega)
  | node name kind' child next ihc ihn =>
    obtain ⟨hname, hchild, hnext⟩ := hd
    rw [Doc.cost] at hfuel
    obtain ⟨fuel, rfl⟩ : ∃ n, fuel = n + 3 := ⟨fuel - 3, by omega⟩
    have hvalue : readValue (fuel + 2)
        (child.valueText P kind' ++ (next.after kind ++ (next.text P kind ++ rest))) =
        some (child.names, next.after kind ++ (next.text P kind ++ rest)) := by
      rw [Doc.valueText]
      cases hnil : child.isNil with
      | true =>
        obtain ⟨c, b, hsep, hc⟩ := next.after_sep kind (next.text P kind ++ rest)
        rw [hsep, if_pos rfl, readValue_zero hc, names_of_isNil hnil]
      | false =>
        obtain ⟨c, b, ht, hc⟩ : ∃ c b, child.text P kind' = c :: b ∧ IsStart c :=
          Doc.text_start hl hf hnil
        rw [if_neg Bool.false_ne_true, List.append_assoc,
          readValue_open ⟨c, _, by rw [ht]; rfl, hc⟩, ihc hchild hnil (by omega)]
    change readItems kind kind.close (fuel + 2 + 1) (keyText name ++ child.valueText P kind' ++
      next.after kind ++ next.text P kind ++ rest) = _
    rw [List.append_assoc, List.append_assoc, List.append_assoc,
      readItems_after (readName_good hname) hvalue]
    exact after_good fun hnil => ihn hnext hnil (by omega)

/-- What was read before the first separator. -/
theorem readItems_inv {kind : Kind} {fuel : ℕ} {nm : Option (List ℕ)} {child next : Names}
    (h : readItems kind kind.close fuel b = some (.cons nm child next, rest)) :
    ∃ n value r, fuel = n + 1 ∧ readName kind b = some (nm, value) ∧
      readValue n value = some (child, r) := by
  cases fuel with
  | zero => cases h
  | succ fuel =>
    rw [readItems] at h
    simp only [Option.bind_eq_bind, Option.bind_eq_some_iff] at h
    obtain ⟨⟨nm', value⟩, hname, ⟨child', r⟩, hvalue, h⟩ := h
    dsimp only at h hvalue
    split at h
    · cases h
    split at h
    · simp only [Option.bind_eq_some_iff, Option.pure_def, Option.some.injEq] at h
      obtain ⟨⟨next', r'⟩, -, h⟩ := h
      cases h
      exact ⟨fuel, value, r, rfl, hname, hvalue⟩
    · split at h
      · cases h
        exact ⟨fuel, value, r, rfl, hname, hvalue⟩
      · cases h

theorem after_inv {kind : Kind} {d : Doc F} {fuel : ℕ} {nm : Option (List ℕ)} {child : Names}
    (hread : d.isNil = false →
      readItems kind kind.close fuel (d.text P kind ++ rest) = some (d.names, rest') →
      d.Good P kind ∧ rest' = rest)
    (h : (if d.isNil then some (.cons nm child .nil, rest)
      else (readItems kind kind.close fuel (d.text P kind ++ rest)).map fun r =>
        (.cons nm child r.1, r.2)) = some (Names.cons nm child d.names, rest')) :
    d.Good P kind ∧ rest' = rest := by
  cases hn : d.isNil with
  | true =>
    cases d with
    | nil =>
      cases h
      exact ⟨trivial, rfl⟩
    | scalar _ _ _ => cases hn
    | node _ _ _ _ => cases hn
  | false =>
    rw [hn, if_neg Bool.false_ne_true, Option.map_eq_some_iff] at h
    obtain ⟨⟨names, r⟩, hr, h⟩ := h
    cases h
    exact hread hn hr

/-- Only a good document is read with its keys as names. -/
theorem Doc.good_of_readItems (hl : LengthOk P.log10) (hf : FormatOk P.format) {kind : Kind}
    {d : Doc F} (hn : d.isNil = false) {fuel : ℕ}
    (h : readItems kind kind.close fuel (d.text P kind ++ rest) = some (d.names, rest')) :
    d.Good P kind ∧ rest' = rest := by
  induction d generalizing kind fuel rest rest' with
  | nil => cases hn
  | scalar name v next ih =>
    obtain ⟨n, value, r, rfl, hname, hvalue⟩ := readItems_inv h
    rw [Doc.text, List.append_assoc, List.append_assoc, List.append_assoc] at h hname
    obtain ⟨c, b, hsep, hc⟩ := next.after_sep kind (next.text P kind ++ rest)
    have hno : NoName (v.text P ++ (next.after kind ++ (next.text P kind ++ rest))) := by
      rw [hsep]
      exact v.noName hl hf hc
    obtain ⟨hgood, rfl⟩ := nameGood_of_read hno hname
    -- The value was read, so it is good, and what follows it is where it should be.
    obtain ⟨n, rfl⟩ : ∃ m, n = m + 1 := by
      cases n with
      | zero => cases hvalue
      | succ n => exact ⟨n, rfl⟩
    have hread := readValue_scalar hl hf v hc b n
    rw [← hsep] at hread
    have hv : v.Good P := by
      by_contra hv
      rw [hread.2 hv] at hvalue
      cases hvalue
    rw [readItems_after (readName_good hgood) (hread.1 hv)] at h
    obtain ⟨hnext, hrest⟩ := after_inv (fun hnil h => ih hnil h) h
    exact ⟨⟨hgood, hv, hnext⟩, hrest⟩
  | node name kind' child next ihc ihn =>
    obtain ⟨n, value, r, rfl, hname, hvalue⟩ := readItems_inv h
    change readItems kind kind.close (n + 1) (keyText name ++ child.valueText P kind' ++
      next.after kind ++ next.text P kind ++ rest) = _ at h
    change readName kind (keyText name ++ child.valueText P kind' ++
      next.after kind ++ next.text P kind ++ rest) = _ at hname
    rw [List.append_assoc, List.append_assoc, List.append_assoc] at h hname
    have hno : NoName (child.valueText P kind' ++
        (next.after kind ++ (next.text P kind ++ rest))) := by
      obtain ⟨c, b, ht, hc, hq⟩ := Doc.bare_valueText (P := P) kind' child
      rw [ht]
      exact readName_of_start hc hq
    obtain ⟨hgood, rfl⟩ := nameGood_of_read hno hname
    have hchild : child.Good P kind' ∧ r = next.after kind ++ (next.text P kind ++ rest) := by
      rw [Doc.valueText] at hvalue
      cases hnil : child.isNil with
      | true =>
        obtain ⟨c, b, hsep, hc⟩ := next.after_sep kind (next.text P kind ++ rest)
        rw [hnil, if_pos rfl, hsep] at hvalue
        rw [hsep]
        cases n with
        | zero => cases hvalue
        | succ n =>
          rw [readValue_zero hc] at hvalue
          cases child with
          | nil =>
            cases hvalue
            exact ⟨trivial, rfl⟩
          | scalar _ _ _ => cases hnil
          | node _ _ _ _ => cases hnil
      | false =>
        obtain ⟨c, b, ht, hc⟩ : ∃ c b, child.text P kind' = c :: b ∧ IsStart c :=
          Doc.text_start hl hf hnil
        rw [hnil, if_neg Bool.false_ne_true, List.append_assoc] at hvalue
        obtain ⟨n, rfl⟩ : ∃ m, n = m + 2 := by
          cases n with
          | zero => cases hvalue
          | succ n =>
            cases n with
            | zero => cases kind' <;> cases hvalue
            | succ n => exact ⟨n, rfl⟩
        rw [readValue_open ⟨c, _, by rw [ht]; rfl, hc⟩] at hvalue
        exact ihc hnil hvalue
    obtain ⟨hcg, rfl⟩ := hchild
    rw [readItems_after (readName_good hgood) hvalue] at h
    obtain ⟨hnext, hrest⟩ := after_inv (fun hnil h => ihn hnil h) h
    exact ⟨⟨hgood, hcg, hnext⟩, hrest⟩

/-! ## Trees -/

omit [Zero F] [DecidableEq F] in
theorem Doc.cost_of_isNil {d : Doc F} (h : d.isNil = true) : d.cost = 0 := by
  cases d with
  | nil => rfl
  | scalar _ _ _ => cases h
  | node _ _ _ _ => cases h

theorem Doc.cost_le (kind : Kind) (d : Doc F) : d.cost ≤ 3 * (d.text P kind).length := by
  have hafter : ∀ (kind : Kind) (d : Doc F), 1 ≤ (d.after kind).length := by
    intro kind d
    obtain ⟨c, b, hsep, -⟩ := d.after_sep kind []
    have := congrArg List.length hsep
    simp only [List.append_nil, List.length_cons] at this
    omega
  induction d generalizing kind with
  | nil => exact Nat.zero_le _
  | scalar name v next ih =>
    have := ih kind
    have := hafter kind next
    simp only [Doc.cost, Doc.text, List.length_append]
    omega
  | node name kind' child next ihc ihn =>
    have hchild : child.cost ≤ 3 * (child.valueText P kind').length := by
      have := ihc kind'
      cases hnil : child.isNil with
      | true =>
        rw [Doc.cost_of_isNil hnil]
        exact Nat.zero_le _
      | false =>
        rw [Doc.valueText, hnil, if_neg Bool.false_ne_true, List.length_append]
        omega
    have := ihn kind
    have := hafter kind next
    rw [Doc.cost]
    change _ ≤ 3 * (keyText name ++ child.valueText P kind' ++ next.after kind ++
      next.text P kind).length
    simp only [List.length_append]
    omega

omit [DecidableEq F] in
theorem Doc.names_built (d : Doc F) : d.built.names = d.names := by
  induction d with
  | nil => rfl
  | scalar name v next ih => rw [Doc.built, Items.names, property_key, ih]; rfl
  | node name kind child next ihc ihn => rw [Doc.built, Items.names, ihc, ihn]; rfl

/-- The text of a document is a JSON text with its keys as names exactly when it is good. -/
theorem Doc.memberNames_iff (hl : LengthOk P.log10) (hf : FormatOk P.format) {kind : Kind}
    {d : Doc F} (hn : d.isNil = false) :
    memberNames (openText kind.childType ++ d.text P kind) = some d.names ↔ d.Good P kind := by
  have hopen : ∀ fuel, readValue (fuel + 2) (openText kind.childType ++ d.text P kind) =
      readItems kind kind.close fuel (d.text P kind ++ []) := by
    intro fuel
    rw [readValue_open (Doc.text_start hl hf hn), List.append_nil]
  obtain ⟨c, hc, -⟩ := openText_eq kind
  have hlen : 3 * (openText kind.childType ++ d.text P kind).length + 1 =
      3 * (d.text P kind).length + 2 + 2 := by
    rw [hc, List.length_append, List.length_singleton]
    omega
  rw [memberNames, hlen, hopen]
  refine ⟨fun h => ?_, fun hg => ?_⟩
  · rw [Option.bind_eq_bind, Option.bind_eq_some_iff] at h
    obtain ⟨⟨names, rest⟩, hread, h⟩ := h
    dsimp only at h
    split at h
    · cases h
      exact (Doc.good_of_readItems hl hf hn hread).1
    · cases h
  · have hcost : d.cost ≤ 3 * (d.text P kind).length := d.cost_le kind
    rw [Doc.readItems_good hl hf hg hn (by omega)]
    rfl

/-- An item whose key and value are read back from the text: it has a key exactly if its father
is an object, the key needs no escape, the string has no apostrophe and no control character
other than those with an escape of their own, the integer has a negative, and what is kept of
the text of the float is a number. -/
structure Quotable (P : Printer F) (father : ChildType) (f : Fields F) (child : Items F) :
    Prop where
  keyed : Keyed father f child
  key : AllText IsRaw f.key
  str : AllText IsEscaped f.str
  integer : f.integer ≠ -2 ^ 63
  float : f.float ≠ 0 → isNumber ((P.format f.float).take 16)

instance (father : ChildType) (f : Fields F) (child : Items F) :
    Decidable (Quotable P father f child) :=
  decidable_of_iff (Keyed father f child ∧ AllText IsRaw f.key ∧
      AllText IsEscaped f.str ∧ f.integer ≠ -2 ^ 63 ∧
      (f.float ≠ 0 → isNumber ((P.format f.float).take 16)))
    ⟨fun ⟨h₁, h₂, h₃, h₄, h₅⟩ => ⟨h₁, h₂, h₃, h₄, h₅⟩, fun h => ⟨h.1, h.2, h.3, h.4, h.5⟩⟩

omit [Zero F] [DecidableEq F] in
theorem nameGood_iff {kind : Kind} {f : Fields F} {child : Items F} :
    NameGood kind f.key ↔
      Keyed kind.childType f child ∧ AllText IsRaw f.key := by
  cases kind with
  | obj => cases hk : f.key <;> simp [Keyed, NameGood, AllText, Kind.childType, hk]
  | arr => cases hk : f.key <;> simp [Keyed, NameGood, AllText, Kind.childType, hk]

omit [DecidableEq F] in
theorem Scalar.quotable_iff {kind : Kind} (name : Option Bytes) (v : Scalar F) :
    Quotable P kind.childType (Doc.property name v) .nil ↔ NameGood kind name ∧ v.Good P := by
  have hname : NameGood kind name ↔ Keyed kind.childType (Doc.property name v) .nil ∧
      AllText IsRaw (Doc.property name v).key := by
    rw [← nameGood_iff, property_key]
  rw [hname]
  refine ⟨fun h => ⟨⟨h.keyed, h.key⟩, ?_⟩, fun ⟨⟨hkeyed, hkey⟩, hv⟩ => ⟨hkeyed, hkey, ?_, ?_, ?_⟩⟩
  · cases v with
    | integer n => exact h.integer
    | float x => exact h.float
    | string s => exact h.str s rfl
    | _ => trivial
  · cases v with
    | string s =>
      rintro _ ⟨⟩
      exact hv
    | _ => nofun
  · cases v with
    | integer n => exact hv
    | _ => exact (by norm_num : (0 : ℤ) ≠ -2 ^ 63)
  · cases v with
    | float x => exact hv
    | _ => exact fun h => absurd rfl h

omit [DecidableEq F] in
theorem Kind.quotable_iff {kind kind' : Kind} (name : Option Bytes) (child : Items F) :
    Quotable P kind.childType (kind'.fields name) child ↔ NameGood kind name := by
  have hname : NameGood kind name ↔ Keyed kind.childType (kind'.fields name : Fields F) child ∧
      AllText IsRaw (kind'.fields name : Fields F).key := by
    rw [← nameGood_iff, Kind.key_fields]
  rw [hname]
  exact ⟨fun h => ⟨h.keyed, h.key⟩, fun ⟨hkeyed, hkey⟩ =>
    ⟨hkeyed, hkey, nofun, (by norm_num : (0 : ℤ) ≠ -2 ^ 63), fun h => absurd rfl h⟩⟩

omit [DecidableEq F] in
theorem Doc.quotable_iff {kind : Kind} {d : Doc F} :
    Items.All (Quotable P) kind.childType d.built ↔ d.Good P kind := by
  induction d generalizing kind with
  | nil => exact Iff.rfl
  | scalar name v next ih =>
    refine ⟨fun ⟨h, _, hn⟩ => ?_, fun ⟨hname, hv, hn⟩ => ?_⟩
    · obtain ⟨hname, hv⟩ := (v.quotable_iff name).mp h
      exact ⟨hname, hv, ih.mp hn⟩
    · exact ⟨(v.quotable_iff name).mpr ⟨hname, hv⟩, trivial, ih.mpr hn⟩
  | node name kind' child next ihc ihn =>
    refine ⟨fun ⟨h, hc, hn⟩ => ?_, fun ⟨hname, hc, hn⟩ => ?_⟩
    · exact ⟨(Kind.quotable_iff name _).mp h, ihc.mp hc, ihn.mp hn⟩
    · exact ⟨(Kind.quotable_iff name _).mpr hname, ihc.mpr hc, ihn.mpr hn⟩

/-- Printing a tree gives a JSON text whose member names are the keys of the tree, each in its
place, exactly when every item is quotable. -/
theorem printed_names_iff (hl : LengthOk P.log10) (hf : FormatOk P.format) {j : Item F}
    (hb : Built j) :
    (∃ b, jsonToString P j = some b ∧ memberNames b = some j.child.names) ↔
      Items.All (Quotable P) .null j.items := by
  obtain ⟨kind, d, rfl⟩ := hb.doc
  have hroot : Quotable P .null (kind.fields none) d.built := by
    refine ⟨⟨nofun, nofun⟩, nofun, nofun, ?_, fun h => absurd rfl h⟩
    change (0 : ℤ) ≠ -2 ^ 63
    norm_num
  have hall : Items.All (Quotable P) .null (Item.items ⟨kind.fields none, d.built⟩) ↔
      d.Good P kind := by
    rw [← Doc.quotable_iff]
    exact ⟨fun h => h.2.1, fun h => ⟨hroot, h, trivial⟩⟩
  rw [hall, jsonToString_built hl, Doc.names_built]
  cases hn : d.isNil with
  | true =>
    have hgood : d.Good P kind := by
      cases d with
      | nil => trivial
      | scalar _ _ _ => cases hn
      | node _ _ _ _ => cases hn
    rw [if_pos rfl, names_of_isNil hn]
    exact ⟨fun _ => hgood, fun _ => ⟨_, rfl, by decide⟩⟩
  | false =>
    rw [if_neg Bool.false_ne_true, ← Doc.memberNames_iff hl hf hn]
    exact ⟨fun ⟨b, hb, h⟩ => by cases hb; exact h, fun h => ⟨_, rfl, h⟩⟩

theorem exactPrinter_formatOk : FormatOk exactPrinter.format := by
  intro n
  obtain ⟨hne, hall, -⟩ := decimal_number n
  refine .inl ⟨by simp [exactPrinter, hne], fun c hc => ?_⟩
  obtain hc | hc := List.mem_append.mp hc
  · exact hall c hc
  · exact List.all_eq_true.mp (by decide : (text ".000000").all isNumChar = true) c hc

/-- A string may hold a quotation mark: it is escaped. -/
theorem printed_names_quoted_string :
    ∃ b, jsonToString exactPrinter (jsonSetPropertyStr jsonNewObject (some (text "k"))
        (text "a\"b")) = some b ∧
      memberNames b = some (.cons (some (units (text "k"))) .nil .nil) :=
  (printed_names_iff exactPrinter_lengthOk exactPrinter_formatOk
    (.str (some (text "k")) (text "a\"b") .object)).mpr (by decide)

/-- A key may not: `\x7b"a"b":1\x7d` is no JSON text. -/
theorem quoted_key_breaks :
    ∃ j : Item ℤ, Built j ∧ j.child.names = .cons (some (units (text "a\"b"))) .nil .nil ∧
      ∃ b, jsonToString exactPrinter j = some b ∧ memberNames b = none :=
  ⟨jsonSetPropertyInt jsonNewObject (some (text "a\"b")) 1,
    .int _ (by decide) (by decide) .object, by decide,
    text "\x7b\"a\"b\":1\x7d", by decide, by decide +kernel⟩

end ApeServer.Json
