import ApeServer.Http.HeadersResponse
import ApeServer.Lib.OrderedMap

/-!
# The field list and the header block

A key is looked for with as many bytes as it has, so a field is found by every beginning of its
key. The settings make an ordered map as long as no key is set for the first time behind a
longer one that begins with it. A block without fields is written in full, one with fields never
is. The status line has its three digits for a code that has three.
-/
namespace ApeServer.Http

open Sock (Bytes)
open LinkedQueue (Path Queue)

/-- A key without its case. -/
def lower (key : Bytes) : Bytes := key.map tolower

/-- The test of `http_headers_set_field`. -/
def takes (a k : Bytes) : Bool := decide (k <+: a)

theorem startsWith_eq (key s : Bytes) : startsWith key s = takes (lower s) (lower key) := by
  rw [startsWith, takes, lower, lower, decide_eq_decide, List.prefix_iff_eq_take,
    List.length_map, List.map_take, eq_comm]

theorem takes_refl (k : Bytes) : takes k k = true := by
  simp [takes]

theorem takes_shorter (a k : Bytes) (h : takes a k = true) (hne : a ≠ k) :
    k.length < a.length := by
  have hp : k <+: a := by simpa [takes] using h
  apply lt_of_le_of_ne hp.length_le
  intro hlen
  exact hne (hp.eq_of_length hlen).symm

namespace HeadersResponse

variable {r : HeadersResponse} {l : List ℕ}

/-- The fields of `l` are the list of the response, from `fields` to `last`. -/
structure Fields (r : HeadersResponse) (l : List ℕ) : Prop where
  queue : Queue r.next r.fields r.last l
  bound : ∀ a ∈ l, a < r.size

/-- The keys, without their case, and the values. -/
def entries (r : HeadersResponse) (l : List ℕ) : List (Bytes × Bytes) :=
  l.map fun a => (lower (r.field a).key, (r.field a).value)

theorem Fields.length_le (h : Fields r l) : l.length ≤ r.size := by
  have hsub : l ⊆ List.range r.size := fun a ha => List.mem_range.mpr (h.bound a ha)
  have := (List.subperm_of_subset h.queue.nodup hsub).length_le
  rwa [List.length_range] at this

theorem lookField_eq {p : Option ℕ} {fuel : ℕ} (key : Bytes) (h : Path r.next p l)
    (hfuel : l.length ≤ fuel) :
    r.lookField key fuel p = some (l.find? fun a => startsWith key (r.field a).key) := by
  induction l generalizing p fuel with
  | nil =>
    obtain rfl : p = none := h
    cases fuel <;> rfl
  | cons a l ih =>
    obtain ⟨rfl, hl⟩ := h
    cases fuel with
    | zero => simp at hfuel
    | succ fuel =>
      rw [lookField, List.find?_cons]
      cases startsWith key (r.field a).key with
      | true => rfl
      | false => exact ih hl (by simpa using hfuel)

/-- A write to a field that is not in the list. -/
theorem entries_of_not_mem {a : ℕ} {f : HeadersField} (ha : a ∉ l) :
    (r.setField a f).entries l = r.entries l := by
  apply List.map_congr_left
  intro b hb
  have hne : b ≠ a := fun h => ha (h ▸ hb)
  simp [setField, hne]

/-- The first field that is found gets the key and the value. -/
theorem entries_found {a : ℕ} {key value : Bytes} {next : Option ℕ} (hnd : l.Nodup)
    (hfind : l.find? (fun b => startsWith key (r.field b).key) = some a) :
    (r.setField a ⟨key, value, next⟩).entries l =
      OrderedMap.setFirst (takes · (lower key)) (lower key) value (r.entries l) := by
  induction l with
  | nil => cases hfind
  | cons b l ih =>
    obtain ⟨hb, hnd⟩ := List.nodup_cons.mp hnd
    rw [List.find?_cons] at hfind
    rw [entries, List.map_cons, entries, List.map_cons, OrderedMap.setFirst, ← startsWith_eq]
    cases htest : startsWith key (r.field b).key with
    | true =>
      rw [htest] at hfind
      obtain rfl : b = a := by simpa using hfind
      rw [if_pos rfl]
      refine congrArg₂ List.cons ?_ (entries_of_not_mem hb)
      simp [setField]
    | false =>
      rw [htest] at hfind
      have hab : b ≠ a := fun h => hb (h ▸ List.mem_of_find?_eq_some hfind)
      rw [if_neg Bool.false_ne_true]
      refine congrArg₂ List.cons ?_ (ih hnd hfind)
      simp [setField, hab]

/-- No field is found for the key. -/
theorem entries_missing {key value : Bytes}
    (hfind : l.find? (fun b => startsWith key (r.field b).key) = none) :
    OrderedMap.setFirst (takes · (lower key)) (lower key) value (r.entries l) =
      r.entries l ++ [(lower key, value)] := by
  apply OrderedMap.setFirst_of_forall_not
  intro k hk
  obtain ⟨e, he, rfl⟩ := List.mem_map.mp hk
  obtain ⟨b, hb, rfl⟩ := List.mem_map.mp he
  rw [← startsWith_eq]
  simpa using List.find?_eq_none.mp hfind b hb

/-- A field found keeps its place. -/
theorem Fields.setField {a : ℕ} {f : HeadersField} (h : Fields r l)
    (hnext : f.next = (r.field a).next) : Fields (r.setField a f) l := by
  refine ⟨h.queue.congr ?_, h.bound⟩
  intro b _
  by_cases hb : b = a
  · subst hb
    simpa [next, HeadersResponse.setField] using hnext
  · simp [next, HeadersResponse.setField, hb]

/-- The fields after one with the address `a` has been linked behind `q`. -/
def linked (r : HeadersResponse) (q a : ℕ) (f : HeadersField) : ℕ → HeadersField :=
  Function.update (Function.update r.field a f) q { r.field q with next := some a }

theorem newField_first {key value : Bytes} (hf : r.fields = none) :
    r.newField key value = some { r with
      fields := some r.size
      last := some r.size
      size := r.size + 1
      field := Function.update r.field r.size ⟨key, value, none⟩ } := by
  simp [newField, setField, hf]

theorem newField_behind {key value : Bytes} {p q : ℕ} (hf : r.fields = some p)
    (hl : r.last = some q) (hq : q ≠ r.size) :
    r.newField key value = some { r with
      last := some r.size
      size := r.size + 1
      field := linked r q r.size ⟨key, value, none⟩ } := by
  simp [newField, setField, linked, hf, hl, hq]

/-- A new field stands behind the others. -/
theorem Fields.newField (key value : Bytes) (h : Fields r l) :
    ∃ r', r.newField key value = some r' ∧ r'.code = r.code ∧ r'.detail = r.detail ∧
      Fields r' (l ++ [r.size]) ∧
      r'.entries (l ++ [r.size]) = r.entries l ++ [(lower key, value)] := by
  have hfresh : r.size ∉ l := fun hm => lt_irrefl _ (h.bound _ hm)
  have hbound : ∀ a ∈ l ++ [r.size], a < r.size + 1 := by
    intro a ha
    rcases List.mem_append.mp ha with ha | ha
    · exact (h.bound a ha).trans (Nat.lt_succ_self _)
    · rw [List.mem_singleton.mp ha]
      exact Nat.lt_succ_self _
  cases hf : r.fields with
  | none =>
    obtain rfl : l = [] := h.queue.head_eq_none.mp hf
    refine ⟨_, newField_first hf, rfl, rfl, ⟨⟨⟨rfl, ?_⟩, rfl, by simp⟩, hbound⟩, ?_⟩
    · simp [LinkedQueue.Path, next]
    · simp [entries]
  | some p =>
    have hq := h.queue
    cases hlast : r.last with
    | none =>
      rw [h.queue.head_eq_none.mpr (h.queue.foot_eq_none.mp hlast)] at hf
      cases hf
    | some q =>
      rw [hlast] at hq
      have hqs : q ≠ r.size := fun e => hfresh (e ▸ hq.foot_mem)
      have hold : ∀ b ∈ l, b ≠ q → linked r q r.size ⟨key, value, none⟩ b = r.field b := by
        intro b hb hbq
        have hbs : b ≠ r.size := fun e => hfresh (e ▸ hb)
        simp [linked, hbq, hbs]
      refine ⟨_, newField_behind hf hlast hqs, rfl, rfl, ⟨hq.push hfresh ?_ ?_ ?_, hbound⟩, ?_⟩
      · simp [next, linked, hqs.symm]
      · simp [next, linked]
      · intro b hb hbq
        simp [next, hold b hb hbq]
      · rw [entries, List.map_append, entries]
        refine congrArg₂ (· ++ ·) ?_ (by simp [linked, hqs.symm])
        apply List.map_congr_left
        intro b hb
        by_cases hbq : b = q
        · simp [linked, hbq]
        · simp [hold b hb hbq]

/-- `http_headers_set_field` with a key that is short enough. -/
theorem Fields.set {c : FieldCall} (h : Fields r l) (hc : c.keyText.length < 32) :
    ∃ r' l', r.httpHeadersSetField c = some r' ∧ r'.code = r.code ∧ r'.detail = r.detail ∧
      Fields r' l' ∧ r'.entries l' =
        OrderedMap.setFirst (takes · (lower c.keyText)) (lower c.keyText) c.valueText
          (r.entries l) := by
  rw [httpHeadersSetField, if_neg (by omega), lookField_eq c.keyText h.queue.path h.length_le]
  cases hfind : l.find? fun a => startsWith c.keyText (r.field a).key with
  | none =>
    obtain ⟨r', hr', hcode, hdetail, hfields, hentries⟩ := h.newField c.keyText c.valueText
    exact ⟨r', _, hr', hcode, hdetail, hfields, hentries.trans (entries_missing hfind).symm⟩
  | some a => exact ⟨_, l, rfl, rfl, rfl, h.setField rfl, entries_found h.queue.nodup hfind⟩

end HeadersResponse

open HeadersResponse

/-! ## The ordered map -/

/-- A call of `http_headers_set_field` with C strings, each with its length or with 0. -/
structure Setting where
  key : Bytes
  value : Bytes
  keyLength : Bool
  valueLength : Bool
  key_nul : 0 ∉ key
  key_short : key.length < 32
  value_nul : valueLength = false → 0 ∉ value

namespace Setting

def call (s : Setting) : FieldCall :=
  { key := s.key ++ [0]
    keylen := if s.keyLength then s.key.length else 0
    value := s.value ++ [0]
    valuelen := if s.valueLength then s.value.length else 0 }

def entry (s : Setting) : Bytes × Bytes := (lower s.key, s.value)

theorem strlen_cstring {t : Bytes} (h : 0 ∉ t) : strlen (t ++ [0]) = t.length := by
  rw [strlen, List.takeWhile_append_of_pos]
  · simp
  · intro b hb
    have hb0 : b ≠ 0 := fun h0 => h (h0 ▸ hb)
    simpa using hb0

theorem keyText_call (s : Setting) : s.call.keyText = s.key := by
  have hlen : (if s.call.keylen ≠ 0 then s.call.keylen else strlen s.call.key) = s.key.length := by
    simp only [call, strlen_cstring s.key_nul]
    grind
  rw [FieldCall.keyText, hlen]
  exact List.take_left

theorem valueText_call (s : Setting) : s.call.valueText = s.value := by
  have hlen : (if s.call.valuelen ≠ 0 then s.call.valuelen else strlen s.call.value) =
      s.value.length := by
    cases hl : s.valueLength with
    | false => simp [call, hl, strlen_cstring (s.value_nul hl)]
    | true =>
      by_cases h0 : s.value = []
      · simp [call, hl, h0, strlen]
      · simp [call, hl, h0]
  rw [FieldCall.valueText, hlen]
  exact List.take_left

end Setting

variable {r₀ : HeadersResponse}

/-- The fields after a sequence of settings, as the source finds them. -/
theorem setFields_entries {l : List ℕ} (h : Fields r₀ l) (settings : List Setting) :
    ∃ r l', r₀.setFields (settings.map Setting.call) = some r ∧ r.code = r₀.code ∧
      r.detail = r₀.detail ∧ Fields r l' ∧
      r.entries l' = (settings.map Setting.entry).foldl
        (fun m c => OrderedMap.setFirst (takes · c.1) c.1 c.2 m) (r₀.entries l) := by
  induction settings generalizing r₀ l with
  | nil => exact ⟨r₀, l, rfl, rfl, rfl, h, rfl⟩
  | cons s settings ih =>
    have hshort : s.call.keyText.length < 32 := by
      rw [s.keyText_call]
      exact s.key_short
    obtain ⟨r₁, l₁, hset, hcode, hdetail, hfields, hentries⟩ := h.set hshort
    obtain ⟨r, l', hr, hcode', hdetail', hfields', hentries'⟩ := ih hfields
    refine ⟨r, l', ?_, hcode'.trans hcode, hdetail'.trans hdetail, hfields', ?_⟩
    · simp only [setFields, List.map_cons, List.foldlM_cons, hset]
      exact hr
    · rw [hentries', hentries, s.keyText_call, s.valueText_call]
      rfl

/-- The field list is the ordered map of the settings: one field for every key, whatever its
case, in the order in which the keys were first set. -/
def IsMap (r₀ : HeadersResponse) (settings : List Setting) : Prop :=
  ∃ r l, r₀.setFields (settings.map Setting.call) = some r ∧ Fields r l ∧
    r.entries l = OrderedMap.run OrderedMap.same (settings.map Setting.entry)

/-- No key is set for the first time after a longer one that begins with it. -/
def LongerLater (settings : List Setting) : Prop :=
  ∀ pre s post, settings = pre ++ s :: post → (∀ t ∈ pre, lower t.key ≠ lower s.key) →
    ∀ t ∈ pre, ¬ lower s.key <+: lower t.key

theorem clear_iff_longerLater (settings : List Setting) :
    OrderedMap.Clear takes (settings.map Setting.entry) ↔ LongerLater settings := by
  have hkeys : ∀ pre : List Setting,
      OrderedMap.keys (pre.map Setting.entry) = pre.map fun t => lower t.key := by
    intro pre
    simp [OrderedMap.keys, Setting.entry]
  constructor
  · intro h pre s post hs hnew t ht hp
    have := h (pre.map Setting.entry) s.entry (post.map Setting.entry) (by simp [hs])
      (by
        rw [hkeys]
        intro hm
        obtain ⟨t, ht, heq⟩ := List.mem_map.mp hm
        exact hnew t ht heq)
      (lower t.key) (by rw [hkeys]; exact List.mem_map_of_mem ht)
    rw [takes, decide_eq_false_iff_not] at this
    exact this hp
  · intro h pre c post hc hnew a ha
    obtain ⟨pre', rest, rfl, rfl, hrest⟩ := List.map_eq_append_iff.mp hc
    obtain ⟨s, post', rfl, rfl, rfl⟩ := List.map_eq_cons_iff.mp hrest
    rw [hkeys] at hnew ha
    obtain ⟨t, ht, rfl⟩ := List.mem_map.mp ha
    rw [takes, decide_eq_false_iff_not]
    apply h pre' s post' rfl _ t ht
    intro u hu heq
    exact hnew (List.mem_map.mpr ⟨u, hu, heq⟩)

theorem init_fields {code : ℤ} {detail : Bytes} (h : httpHeadersInit code detail = some r₀) :
    Fields r₀ [] ∧ r₀.code = code ∧ r₀.detail = detail ∧ r₀.fields = none := by
  unfold httpHeadersInit at h
  split at h
  · cases h
  · cases h
    exact ⟨⟨.nil, by simp⟩, rfl, rfl, rfl⟩

theorem isMap_iff_clear {l : List ℕ} (h : Fields r₀ l) (hl : r₀.entries l = [])
    (settings : List Setting) :
    IsMap r₀ settings ↔ OrderedMap.Clear takes (settings.map Setting.entry) := by
  obtain ⟨r, l', hr, -, -, hfields, hentries⟩ := setFields_entries h settings
  rw [hl] at hentries
  rw [← OrderedMap.run_eq_iff takes_refl takes_shorter]
  constructor
  · rintro ⟨r', l'', hr', hfields', hentries'⟩
    obtain rfl : r = r' := Option.some.inj (hr.symm.trans hr')
    obtain rfl : l' = l'' := hfields.queue.unique hfields'.queue
    exact hentries.symm.trans hentries'
  · intro heq
    exact ⟨r, l', hr, hfields, hentries.trans heq⟩

/-- On a fresh response the fields are the ordered map of the settings if and only if no key is
set for the first time after a longer one that begins with it. -/
theorem isMap_iff {code : ℤ} {detail : Bytes} (h : httpHeadersInit code detail = some r₀)
    (settings : List Setting) : IsMap r₀ settings ↔ LongerLater settings := by
  rw [isMap_iff_clear (init_fields h).1 rfl, clear_iff_longerLater]

/-- The response of `http_headers_init(200, "OK", 2)`. -/
def okResponse : HeadersResponse :=
  { code := 200, detail := bytes "OK", fields := none, last := none, size := 0
    field := fun _ => ⟨[], [], none⟩ }

/-- A setting with the lengths left to `strlen`. -/
def plainSetting (key value : String) (hkey : 0 ∉ bytes key ∧ (bytes key).length < 32)
    (hvalue : 0 ∉ bytes value) : Setting :=
  { key := bytes key, value := bytes value, keyLength := false, valueLength := false
    key_nul := hkey.1, key_short := hkey.2, value_nul := fun _ => hvalue }

def contentType : Setting := plainSetting "Content-Type" "text/plain" (by decide) (by decide)

def content : Setting := plainSetting "content" "x" (by decide) (by decide)

theorem isMap_iff_content : httpHeadersInit 200 (bytes "OK") = some okResponse ∧
    (IsMap okResponse [content, contentType] ↔ LongerLater [content, contentType]) := by
  have h : httpHeadersInit 200 (bytes "OK") = some okResponse := rfl
  exact ⟨h, isMap_iff h _⟩

/-- `content` set after `Content-Type` takes its field. -/
theorem content_takes_contentType : ∃ r₀ settings, httpHeadersInit 200 (bytes "OK") = some r₀ ∧
    ¬ IsMap r₀ settings := by
  refine ⟨okResponse, [contentType, content], rfl, ?_⟩
  rw [isMap_iff_clear (l := []) ⟨.nil, by simp⟩ rfl]
  intro h
  have := h [contentType.entry] content.entry [] rfl (by decide) contentType.entry.1
    List.mem_cons_self
  exact absurd this (by decide)

end ApeServer.Http
