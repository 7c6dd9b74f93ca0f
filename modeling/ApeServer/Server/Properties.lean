import ApeServer.Lib.Chain
import ApeServer.Lib.KeyedList
import ApeServer.Lib.Steps
import ApeServer.Server.Extend

/-!
# Properties are a map

The entries in memory are a list with one entry for a key.
-/
namespace ApeServer

open Sock (Bytes)
open Chain (Threaded)
open KeyedList (Edit Holds held)

/-- A pointer, or what is taken for one. -/
def ExtendVal.isPointer : ExtendVal → Bool
  | .pointer _ | .other _ _ => true
  | .str _ | .json _ => false

namespace Property

/-- What a public entry becomes in the object. -/
def member (e : Property) : Option JsonItem :=
  match e.val with
  | .json val => some (val.copy.withKey e.key)
  | .str val => some (.mk (some e.key) .val (some val) 0 [])
  | .pointer _ | .other _ _ => none

/-- The entries that are shown, in the order of the list. -/
def shown (es : List Property) : List Property := es.filter fun e => e.visibility = .isPublic

def members (es : List Property) : List JsonItem := (shown es).filterMap member

variable {e : Property} {es es' : List Property}

theorem members_cons : members (e :: es) = members [e] ++ members es := by
  rw [members, members, members, ← List.filterMap_append, shown, shown, shown, ← List.filter_append]
  rfl

/-- No pointer is public. -/
def Guarded (e : Property) : Prop := e.val.isPointer = true → e.visibility = .isPrivate

theorem Guarded.member (h : e.Guarded) (hp : e.visibility = .isPublic) :
    ∃ m, e.member = some m ∧ m.key = some e.key := by
  obtain ⟨key, val, visibility⟩ := e
  cases val with
  | str val => exact ⟨_, rfl, rfl⟩
  | json val =>
    refine ⟨_, rfl, ?_⟩
    cases val.copy
    rfl
  | pointer val => cases hp.symm.trans (h rfl)
  | other etype val => cases hp.symm.trans (h rfl)

theorem guarded_new (key : Bytes) (val : ExtendVal) (visibility : ExtendPublic) :
    (newProperty key val visibility).Guarded := by
  cases val with
  | str val => exact fun h => nomatch h
  | json val => exact fun h => nomatch h
  | pointer val => exact fun _ => rfl
  | other etype val => exact fun _ => rfl

/-- The members have the keys of the entries that are shown. -/
theorem map_members (h : ∀ e ∈ es, e.Guarded) :
    (members es).map JsonItem.key = (shown es).map fun e => some e.key := by
  induction es with
  | nil => rfl
  | cons e es ih =>
    have hes := ih fun a ha => h a (List.mem_cons_of_mem e ha)
    rw [members_cons, List.map_append, hes]
    by_cases hp : e.visibility = .isPublic
    · obtain ⟨m, hm, hk⟩ := (h e List.mem_cons_self).member hp
      simp [members, shown, hp, hm, hk]
    · simp [members, shown, hp]

theorem members_eq_nil (h : ∀ e ∈ es, e.Guarded) :
    members es = [] ↔ ¬∃ e ∈ es, e.visibility = .isPublic := by
  rw [← List.map_eq_nil_iff (f := JsonItem.key), map_members h, List.map_eq_nil_iff, shown,
    List.filter_eq_nil_iff]
  simp

/-- Of a public entry there is one member, and of another one there is none. -/
theorem countP_members (h : ∀ e ∈ es, e.Guarded) (hnd : (es.map key).Nodup) (he : e ∈ es) :
    (members es).countP (fun m => m.key = some e.key) =
      if e.visibility = .isPublic then 1 else 0 := by
  have hcount : (members es).countP (fun m => m.key = some e.key) =
      ((shown es).map key).count e.key := by
    rw [List.count_eq_countP, List.countP_map]
    have := congrArg (List.countP fun k => k = some e.key) (map_members h)
    rw [List.countP_map, List.countP_map] at this
    refine this.trans (List.countP_congr fun a _ => ?_)
    simp
  have hsub : ((shown es).map key).Sublist (es.map key) := List.filter_sublist.map key
  rw [hcount, (hnd.sublist hsub).count]
  refine if_congr ?_ rfl rfl
  constructor
  · intro hmem
    obtain ⟨a, ha, hk⟩ := List.mem_map.mp hmem
    obtain ⟨hes, hp⟩ := List.mem_filter.mp ha
    have hae : a = e := List.inj_on_of_nodup_map hnd hes he hk
    subst hae
    simpa using hp
  · intro hp
    exact List.mem_map_of_mem (List.mem_filter.mpr ⟨he, by simpa using hp⟩)

theorem mem_members {m : JsonItem} (hm : m ∈ members es) :
    ∃ e ∈ es, e.visibility = .isPublic ∧ e.member = some m := by
  obtain ⟨e, he, hm⟩ := List.mem_filterMap.mp hm
  obtain ⟨hes, hp⟩ := List.mem_filter.mp he
  exact ⟨e, hes, by simpa using hp, hm⟩

end Property

namespace Properties

variable {t t' : Properties} {l l' : List ℕ} {p : ℕ} {q : Option ℕ} {fuel : ℕ} {key k : Bytes}
  {e : ExtendItem} {lnk : Link}

def nextAt (t : Properties) (p : ℕ) : Option ℕ := (t.mem p).bind ExtendItem.next

/-- What the entry at an address holds. -/
def content (t : Properties) (p : ℕ) : Option Property := (t.mem p).map ExtendItem.toProperty

/-- What the entries at some addresses hold. -/
def contents (t : Properties) (l : List ℕ) : List Property := l.filterMap t.content

/-- A list of entries in memory that a pointer leads to. -/
structure Lists (t : Properties) (q : Option ℕ) (l : List ℕ) : Prop where
  chain : Threaded t.nextAt q l
  nodup : l.Nodup
  live : ∀ p ∈ l, t.mem p ≠ none

theorem Lists.nil (h : t.Lists q []) : q = none := h.chain

theorem Lists.cons (h : t.Lists q (p :: l)) :
    ∃ e, q = some p ∧ t.mem p = some e ∧ p ∉ l ∧ t.Lists e.next l := by
  obtain ⟨rfl, hc⟩ := h.chain
  obtain ⟨hp, hl⟩ := List.nodup_cons.mp h.nodup
  obtain ⟨e, he⟩ := Option.ne_none_iff_exists'.mp (h.live p List.mem_cons_self)
  rw [nextAt, he, Option.bind_some] at hc
  exact ⟨e, rfl, he, hp, hc, hl, fun a ha => h.live a (List.mem_cons_of_mem p ha)⟩

theorem lists_cons (he : t.mem p = some e) (hp : p ∉ l) (h : t.Lists e.next l) :
    t.Lists (some p) (p :: l) where
  chain := by
    refine ⟨rfl, ?_⟩
    rw [nextAt, he]
    exact h.chain
  nodup := List.nodup_cons.mpr ⟨hp, h.nodup⟩
  live := List.forall_mem_cons.mpr ⟨by simp [he], h.live⟩

theorem Lists.congr (h : t.Lists q l) (hm : ∀ p ∈ l, t'.mem p = t.mem p) : t'.Lists q l where
  chain := h.chain.congr fun p hp => by rw [nextAt, nextAt, hm p hp]
  nodup := h.nodup
  live p hp := by
    rw [hm p hp]
    exact h.live p hp

theorem contents_cons (he : t.mem p = some e) :
    t.contents (p :: l) = e.toProperty :: t.contents l := by
  simp [contents, content, he]

theorem contents_congr (hm : ∀ p ∈ l, t'.content p = t.content p) :
    t'.contents l = t.contents l :=
  List.filterMap_congr hm

/-! ### Looking for an entry -/

theorem Lists.getLoop (h : t.Lists q l) (hf : l.length < fuel) :
    ∃ r, t.getLoop key fuel q = some r ∧
      r.bind t.content = KeyedList.find Property.key key (t.contents l) := by
  induction l generalizing q fuel with
  | nil =>
    obtain ⟨fuel, rfl⟩ : ∃ n, fuel = n + 1 := ⟨fuel - 1, by omega⟩
    cases h.nil
    exact ⟨none, rfl, rfl⟩
  | cons p l ih =>
    obtain ⟨fuel, rfl⟩ : ∃ n, fuel = n + 1 := ⟨fuel - 1, by omega⟩
    obtain ⟨e, rfl, he, -, hl⟩ := h.cons
    rw [contents_cons he, KeyedList.find_cons]
    by_cases hk : e.key = key
    · refine ⟨some p, by simp [Properties.getLoop, he, hk], ?_⟩
      rw [if_pos hk, Option.bind_some, content, he]
      rfl
    · obtain ⟨r, hr, hfind⟩ := ih hl (by simpa using hf)
      refine ⟨r, by simp [Properties.getLoop, he, hk, hr], ?_⟩
      rw [if_neg hk, hfind]

/-! ### Deleting an entry -/

/-- What the loop of `del_property` does, from the pointer `lnk` to the entries `l` on. -/
structure Deleted (key : Bytes) (lnk : Link) (l : List ℕ) (t t' : Properties) (l' : List ℕ) :
    Prop where
  list : ∃ q, t'.deref lnk = some q ∧ t'.Lists q l'
  sublist : l'.Sublist l
  contents : t'.contents l' = KeyedList.erase Property.key key (t.contents l)
  other : ∀ p ∉ l, lnk ≠ .next p → t'.mem p = t.mem p
  entry : lnk ≠ .head → t'.entry = t.entry
  owner : ∀ p ∉ l, t'.content p = t.content p
  brk : t'.brk = t.brk

theorem assign_spec (hq : t.deref lnk = some q) (q' : Option ℕ) : ∃ t', t.assign q' lnk = some t' ∧
    t'.deref lnk = some q' ∧ (∀ p, lnk ≠ .next p → t'.mem p = t.mem p) ∧
    (lnk ≠ .head → t'.entry = t.entry) ∧ (∀ p, t'.content p = t.content p) ∧ t'.brk = t.brk := by
  cases lnk with
  | head => exact ⟨_, rfl, rfl, fun _ _ => rfl, fun h => absurd rfl h, fun _ => rfl, rfl⟩
  | next p =>
    rw [deref, Option.map_eq_some_iff] at hq
    obtain ⟨e, he, -⟩ := hq
    refine ⟨t.store p (some { e with next := q' }), by rw [assign, he]; rfl, ?_, ?_, fun _ => rfl,
      ?_, rfl⟩
    · simp [deref, store]
    · intro a ha
      have hne : a ≠ p := fun h => ha (h ▸ rfl)
      exact Function.update_of_ne hne _ _
    · intro a
      by_cases ha : a = p
      · subst ha
        simp [content, store, he]
      · simp [content, store, ha]

theorem deref_congr (hentry : lnk = .head → t'.entry = t.entry)
    (hm : ∀ p, lnk = .next p → t'.mem p = t.mem p) : t'.deref lnk = t.deref lnk := by
  cases lnk with
  | head => rw [deref, deref, hentry rfl]
  | next p => rw [deref, deref, hm p rfl]

theorem store_mem_of_ne {x : Option ExtendItem} {a : ℕ} (h : a ≠ p) :
    (t.store p x).mem a = t.mem a :=
  Function.update_of_ne h _ _

theorem Lists.delLoop (hq : t.deref lnk = some q) (h : t.Lists q l)
    (hout : ∀ p ∈ l, lnk ≠ .next p) (hf : l.length < fuel) :
    ∃ t' l', t.delLoop key fuel lnk = some t' ∧ Deleted key lnk l t t' l' := by
  induction l generalizing q fuel lnk with
  | nil =>
    obtain ⟨fuel, rfl⟩ : ∃ n, fuel = n + 1 := ⟨fuel - 1, by omega⟩
    cases h.nil
    refine ⟨t, [], by simp [Properties.delLoop, hq], ⟨none, hq, h⟩, .slnil, rfl, fun _ _ _ => rfl,
      fun _ => rfl, fun _ _ => rfl, rfl⟩
  | cons p l ih =>
    obtain ⟨fuel, rfl⟩ : ∃ n, fuel = n + 1 := ⟨fuel - 1, by omega⟩
    obtain ⟨e, rfl, he, hp, hl⟩ := h.cons
    have hlnk : lnk ≠ .next p := hout p List.mem_cons_self
    by_cases hk : e.key = key
    · obtain ⟨t', ht', hd, hmem, hentry, hcont, hbrk⟩ := assign_spec hq e.next
      have hrest : ∀ a ∈ l, (t'.store p none).mem a = t.mem a := by
        intro a ha
        have hne : a ≠ p := fun he => hp (he ▸ ha)
        rw [store_mem_of_ne hne, hmem a (hout a (List.mem_cons_of_mem p ha))]
      refine ⟨t'.store p none, l, by simp [Properties.delLoop, hq, he, hk, ht'], ⟨e.next, ?_, ?_⟩,
        List.sublist_cons_self p l, ?_, ?_, hentry, ?_, hbrk⟩
      · rw [← hd]
        refine deref_congr (fun _ => rfl) fun a ha => store_mem_of_ne ?_
        rintro rfl
        exact hlnk ha
      · exact hl.congr hrest
      · rw [contents_cons he, KeyedList.erase, if_pos hk]
        exact contents_congr fun a ha => by rw [content, content, hrest a ha]
      · intro a ha hne
        obtain ⟨hap, -⟩ := List.ne_and_not_mem_of_not_mem_cons ha
        rw [store_mem_of_ne hap, hmem a hne]
      · intro a ha
        obtain ⟨hap, -⟩ := List.ne_and_not_mem_of_not_mem_cons ha
        rw [content, store_mem_of_ne hap]
        exact hcont a
    · have hnext : t.deref (.next p) = some e.next := by rw [deref, he]; rfl
      have hne : ∀ a, a ≠ p → Link.next p ≠ .next a := by
        intro a ha h
        cases h
        exact ha rfl
      obtain ⟨t', l', ht', hdel⟩ := ih hnext hl
        (fun a ha => hne a fun h => hp (h ▸ ha)) (by simpa using hf)
      obtain ⟨q', hq', hl'⟩ := hdel.list
      obtain ⟨e', he', rfl⟩ := Option.map_eq_some_iff.mp hq'
      have hsame : e'.toProperty = e.toProperty := by
        have := hdel.owner p hp
        rw [content, content, he, he'] at this
        exact Option.some.inj this
      refine ⟨t', p :: l', by simp [Properties.delLoop, hq, he, hk, ht'], ⟨some p, ?_, ?_⟩,
        hdel.sublist.cons_cons p, ?_, ?_, fun _ => hdel.entry (by simp), ?_, hdel.brk⟩
      · rw [← hq]
        refine deref_congr (fun _ => hdel.entry (by simp)) fun a ha => ?_
        have hal : a ∉ p :: l := fun h => hout a h ha
        obtain ⟨hap, hal⟩ := List.ne_and_not_mem_of_not_mem_cons hal
        exact hdel.other a hal (hne a hap)
      · exact lists_cons he' (fun h => hp (hdel.sublist.mem h)) hl'
      · rw [contents_cons he, contents_cons he', hsame, hdel.contents, KeyedList.erase, if_neg hk]
      · intro a ha _
        obtain ⟨hap, hal⟩ := List.ne_and_not_mem_of_not_mem_cons ha
        exact hdel.other a hal (hne a hap)
      · intro a ha
        exact hdel.owner a (List.ne_and_not_mem_of_not_mem_cons ha).2

/-! ### The list of an object -/

structure Wf (t : Properties) (l : List ℕ) : Prop where
  list : t.Lists t.entry l
  below : ∀ p ∈ l, p < t.brk

/-- The list is not longer than the addresses in use. -/
theorem Wf.length_lt (h : t.Wf l) : l.length < t.brk + 1 := by
  have hsub : l ⊆ List.range t.brk := fun p hp => List.mem_range.mpr (h.below p hp)
  have := (h.list.nodup.subperm hsub).length_le
  rw [List.length_range] at this
  omega

theorem init_wf : init.Wf [] := ⟨⟨rfl, .nil, by simp⟩, by simp⟩

theorem Wf.getProperty (h : t.Wf l) (key : Bytes) : ∃ r, t.getProperty key = some r ∧
    r.bind t.content = KeyedList.find Property.key key (t.contents l) :=
  h.list.getLoop h.length_lt

theorem Wf.delProperty (h : t.Wf l) (key : Bytes) : ∃ t' l', t.delProperty key = some t' ∧
    t'.Wf l' ∧ t'.contents l' = KeyedList.erase Property.key key (t.contents l) := by
  have hhead : t.deref .head = some t.entry := rfl
  obtain ⟨t', l', ht', hdel⟩ := h.list.delLoop hhead (fun _ _ h => nomatch h) h.length_lt
  obtain ⟨q, hq, hl'⟩ := hdel.list
  cases hq
  refine ⟨t', l', ht', ⟨hl', fun p hp => ?_⟩, hdel.contents⟩
  rw [hdel.brk]
  exact h.below p (hdel.sublist.mem hp)

@[simp]
theorem newProperty_key (val : ExtendVal) (visibility : ExtendPublic) :
    (newProperty key val visibility).key = key := by
  cases val <;> rfl

theorem Wf.addProperty (h : t.Wf l) (hk : key.length ≤ extendKeyLength) (val : ExtendVal)
    (visibility : ExtendPublic) (hp : ∀ t₁, t.delProperty key = some t₁ → t₁.mem p = none) :
    ∃ t' l', t.addProperty key val visibility p = some (some p, t') ∧ t'.Wf l' ∧
      t'.contents l' = newProperty key val visibility ::
        KeyedList.erase Property.key key (t.contents l) := by
  obtain ⟨t₁, l₁, ht₁, hwf, hcont⟩ := h.delProperty key
  have hfree := hp t₁ ht₁
  have hnew : p ∉ l₁ := fun hmem => hwf.list.live p hmem hfree
  set e : ExtendItem := { newProperty key val visibility with next := t₁.entry } with he
  set t' : Properties := { t₁.store p (some e) with entry := some p, brk := max t₁.brk (p + 1) }
    with ht'
  have hmem : t'.mem p = some e := Function.update_self _ _ _
  have hrest : ∀ a ∈ l₁, t'.mem a = t₁.mem a := fun a ha =>
    store_mem_of_ne fun h => hnew (h ▸ ha)
  refine ⟨t', p :: l₁, ?_, ⟨lists_cons hmem hnew (hwf.list.congr hrest), ?_⟩, ?_⟩
  · rw [Properties.addProperty, if_neg (not_lt.mpr hk), ht₁]
    rfl
  · refine List.forall_mem_cons.mpr ⟨lt_max_of_lt_right (Nat.lt_succ_self p), fun a ha => ?_⟩
    exact lt_max_of_lt_left (hwf.below a ha)
  · rw [contents_cons hmem, ← hcont]
    exact congrArg _ (contents_congr fun a ha => by rw [content, content, hrest a ha])

/-! ### What is shown -/

/-! ### What is shown -/

/-- The members that are added to an object, which is made when there is none. -/
def addMembers (jprop : Option JsonItem) (ms : List JsonItem) : Option JsonItem :=
  ms.foldl (fun o m => some ((o.getD .newObject).append m)) jprop

theorem showProperty_eq {e : Property} (h : e.Guarded) (jprop : Option JsonItem) :
    showProperty jprop e = some (addMembers jprop (Property.members [e])) := by
  by_cases hp : e.visibility = .isPublic
  · obtain ⟨key, val, visibility⟩ := e
    cases hp
    cases val with
    | str val => rfl
    | json val => rfl
    | pointer val => cases h rfl
    | other etype val => cases h rfl
  · simp [showProperty, Property.members, Property.shown, addMembers, hp]

theorem Lists.showLoop (h : t.Lists q l) (hg : ∀ e ∈ t.contents l, e.Guarded)
    (hf : l.length < fuel) (jprop : Option JsonItem) :
    t.showLoop fuel q jprop = some (addMembers jprop (Property.members (t.contents l))) := by
  induction l generalizing q fuel jprop with
  | nil =>
    obtain ⟨fuel, rfl⟩ : ∃ n, fuel = n + 1 := ⟨fuel - 1, by omega⟩
    cases h.nil
    rfl
  | cons p l ih =>
    obtain ⟨fuel, rfl⟩ : ∃ n, fuel = n + 1 := ⟨fuel - 1, by omega⟩
    obtain ⟨e, rfl, he, -, hl⟩ := h.cons
    rw [contents_cons he] at hg ⊢
    obtain ⟨hge, hg⟩ := List.forall_mem_cons.mp hg
    have hrest := ih hl hg (by simpa using hf)
      (addMembers jprop (Property.members [e.toProperty]))
    have happ : addMembers jprop (Property.members (e.toProperty :: t.contents l)) =
        addMembers (addMembers jprop (Property.members [e.toProperty]))
          (Property.members (t.contents l)) := by
      rw [Property.members_cons, addMembers, List.foldl_append]
      rfl
    rw [happ, ← hrest]
    simp [Properties.showLoop, he, showProperty_eq hge]

theorem foldl_append_child (o : JsonItem) (ms : List JsonItem) :
    (ms.foldl JsonItem.append o).child = o.child ++ ms := by
  induction ms generalizing o with
  | nil => simp
  | cons m ms ih =>
    obtain ⟨k, kind, str, int, child⟩ := o
    rw [List.foldl_cons, ih]
    simp [JsonItem.append, JsonItem.child]

theorem addMembers_some (o : JsonItem) (ms : List JsonItem) :
    addMembers (some o) ms = some (ms.foldl JsonItem.append o) := by
  induction ms generalizing o with
  | nil => rfl
  | cons m ms ih => exact ih (o.append m)

/-- There is an object with the members, unless there are none. -/
theorem addMembers_none (ms : List JsonItem) : ms = [] ∧ addMembers none ms = none ∨
    ms ≠ [] ∧ ∃ o, addMembers none ms = some o ∧ o.child = ms := by
  cases ms with
  | nil => exact .inl ⟨rfl, rfl⟩
  | cons m ms =>
    refine .inr ⟨List.cons_ne_nil m ms, _, addMembers_some (JsonItem.newObject.append m) ms, ?_⟩
    rw [foldl_append_child]
    rfl

/-- The members called `properties`. -/
def propertiesOf (o : JsonItem) : List JsonItem :=
  o.child.filter fun m => m.key = some (bytes "properties")

/-- The object shows the public entries, each once, and nothing else. -/
structure Shows (es : List Property) (o : JsonItem) : Prop where
  object : (propertiesOf o).length = if ∃ e ∈ es, e.visibility = .isPublic then 1 else 0
  once : ∀ e ∈ es, ((propertiesOf o).flatMap JsonItem.child).countP (fun m => m.key = some e.key) =
    if e.visibility = .isPublic then 1 else 0
  only : ∀ m ∈ (propertiesOf o).flatMap JsonItem.child,
    ∃ e ∈ es, e.visibility = .isPublic ∧ e.member = some m

theorem Wf.shows (h : t.Wf l) (hg : ∀ e ∈ t.contents l, e.Guarded)
    (hnd : ((t.contents l).map Property.key).Nodup) (pubid : Bytes) :
    ∃ o, t.jsonObjectUser pubid = some o ∧ Shows (t.contents l) o := by
  have hshow := h.list.showLoop hg h.length_lt none
  have hnil := Property.members_eq_nil hg
  rcases addMembers_none (Property.members (t.contents l)) with ⟨hms, hadd⟩ | ⟨hms, jprop, hadd, hc⟩
  · refine ⟨_, by rw [jsonObjectUser, hshow, hadd]; rfl, ?_, fun e he => ?_, fun m hm => ?_⟩
    · rw [if_neg (hnil.mp hms)]
      rfl
    · rw [← Property.countP_members hg hnd he, hms]
      rfl
    · have hnone : m ∈ ([] : List JsonItem) := hm
      cases hnone
  · have hpub := not_not.mp (mt hnil.mpr hms)
    have hmembers : (propertiesOf (((JsonItem.newObject.setStr (bytes "casttype")
        (bytes "uni")).setStr (bytes "pubid") pubid).setObj (bytes "properties") jprop)).flatMap
          JsonItem.child = Property.members (t.contents l) := by
      rw [← hc]
      cases jprop
      exact List.append_nil _
    refine ⟨_, by rw [jsonObjectUser, hshow, hadd]; rfl, ?_, fun e he => ?_, fun m hm => ?_⟩
    · rw [if_pos hpub]
      cases jprop
      rfl
    · rw [hmembers]
      exact Property.countP_members hg hnd he
    · rw [hmembers] at hm
      exact Property.mem_members hm

/-- An entry as the record of a user has it: with the tree that it is shown as. -/
def extendOf (e : Property) : Extend where
  key := e.key
  val := e.member.getD .newObject
  isPublic := e.visibility = .isPublic

theorem setProperties_eq {es : List Property} (h : ∀ e ∈ es, e.Guarded) (o : JsonItem) :
    setProperties o (es.map extendOf) = (Property.members es).foldl JsonItem.append o := by
  induction es generalizing o with
  | nil => rfl
  | cons e es ih =>
    obtain ⟨he, hes⟩ := List.forall_mem_cons.mp h
    have hone : (if (extendOf e).isPublic then o.setObj (extendOf e).key (extendOf e).val else o) =
        (Property.members [e]).foldl JsonItem.append o := by
      by_cases hp : e.visibility = .isPublic
      · obtain ⟨m, hm, hk⟩ := he.member hp
        obtain ⟨key, kind, str, int, child⟩ := m
        cases hk
        simp [extendOf, Property.members, Property.shown, hp, hm, JsonItem.setObj,
          JsonItem.withKey]
      · simp [extendOf, Property.members, Property.shown, hp]
    rw [Property.members_cons, List.foldl_append, ← hone]
    exact ih hes _

/-- The object is that of a user with such a record. -/
theorem Wf.jsonObjectUser_eq (h : t.Wf l) (hg : ∀ e ∈ t.contents l, e.Guarded) {x : User}
    (hx : x.properties = (t.contents l).map extendOf) :
    t.jsonObjectUser x.pubid = some (getJsonObjectUser x) := by
  have hshow := h.list.showLoop hg h.length_lt none
  have hnil := Property.members_eq_nil hg
  have hany : x.properties.any Extend.isPublic = true ↔
      ∃ e ∈ t.contents l, e.visibility = .isPublic := by
    simp [hx, extendOf]
  rw [jsonObjectUser, hshow, getJsonObjectUser]
  cases hms : Property.members (t.contents l) with
  | nil =>
    rw [if_neg (mt hany.mp (hnil.mp hms))]
    rfl
  | cons m ms =>
    have hpub := not_not.mp (mt hnil.mpr (by simp [hms]))
    rw [if_pos (hany.mpr hpub), hx, setProperties_eq hg, hms, addMembers, List.foldl_cons,
      ← addMembers, addMembers_some]
    rfl

/-! ### Runs -/

/-- A call on the properties of an object; `p` is what `xmalloc` gives. -/
inductive PropertyCall where
  | add (key : Bytes) (val : ExtendVal) (visibility : ExtendPublic) (p : ℕ)
  | del (key : Bytes)

/-- The properties of an object, with what was done to them, the last first. -/
structure History where
  list : Properties
  log : List (Edit Bytes Property)

/-- An `add_property` that gives NULL is no change. -/
def stepProperties (s : History) : PropertyCall → Except Halt History
  | .add key val visibility p => do
    let (added, list) ← Ape.deref (s.list.addProperty key val visibility p)
    match added with
    | some _ => return { list, log := .put key (newProperty key val visibility) :: s.log }
    | none => return { list, log := s.log }
  | .del key => do
    let list ← Ape.deref (s.list.delProperty key)
    return { list, log := .drop key :: s.log }

/-- `xmalloc` gives an address that is not in use. -/
def Fresh (s : History) : PropertyCall → Prop
  | .add key _ _ p => ∀ t, s.list.delProperty key = some t → t.mem p = none
  | .del _ => True

/-- The list is the map of the calls, and no pointer is public. -/
structure Represents (s : History) (l : List ℕ) : Prop where
  wf : s.list.Wf l
  holds : Holds Property.key id (s.list.contents l) s.log
  guarded : ∀ e ∈ s.list.contents l, e.Guarded

variable {s s' : History} {c : PropertyCall}

/-- A call that meets `xmalloc` goes through. -/
theorem Represents.step (h : Represents s l) (hc : Fresh s c) :
    ∃ s' l', stepProperties s c = .ok s' ∧ Represents s' l' := by
  have hsub : ∀ key, ∀ e ∈ KeyedList.erase Property.key key (s.list.contents l), e.Guarded :=
    fun key e he => h.guarded e (KeyedList.erase_sublist.mem he)
  cases c with
  | add key val visibility p =>
    by_cases hk : key.length ≤ extendKeyLength
    · obtain ⟨t, l', ht, hwf, hcont⟩ := h.wf.addProperty hk val visibility hc
      refine ⟨⟨t, .put key (newProperty key val visibility) :: s.log⟩, l', ?_, hwf, ?_, ?_⟩
      · rw [stepProperties, ht]
        rfl
      · show Holds Property.key id (t.contents l') _
        have := h.holds.overwrite (newProperty key val visibility)
        rw [newProperty_key] at this
        rw [hcont]
        exact this
      · show ∀ e ∈ t.contents l', e.Guarded
        rw [hcont]
        exact List.forall_mem_cons.mpr ⟨Property.guarded_new key val visibility, hsub key⟩
    · refine ⟨s, l, ?_, h⟩
      rw [stepProperties, Properties.addProperty, if_pos (not_le.mp hk)]
      rfl
  | del key =>
    obtain ⟨t, l', ht, hwf, hcont⟩ := h.wf.delProperty key
    refine ⟨⟨t, .drop key :: s.log⟩, l', ?_, hwf, ?_, ?_⟩
    · rw [stepProperties, ht]
      rfl
    · show Holds Property.key id (t.contents l') _
      rw [hcont]
      exact h.holds.erase key
    · show ∀ e ∈ t.contents l', e.Guarded
      rw [hcont]
      exact hsub key

theorem represents_of_reach (h : Steps.Reach stepProperties Fresh ⟨init, []⟩ s) :
    ∃ l, Represents s l := by
  refine h.keeps (fun s => ∃ l, Represents s l) ⟨[], init_wf, .nil, by simp [contents]⟩ ?_
  rintro s c s' ⟨l, hl⟩ hc hs
  obtain ⟨t, l', ht, hl'⟩ := hl.step hc
  rw [hs] at ht
  cases ht
  exact ⟨l', hl'⟩

/-- The entries in memory at `l` are the map that the calls made, and its public part is what
others are shown. -/
structure Kept (s : History) (l : List ℕ) : Prop where
  list : s.list.Wf l
  distinct : ((s.list.contents l).map Property.key).Nodup
  get : ∀ k, ∃ r, s.list.getProperty k = some r ∧ r.bind s.list.content = held s.log k
  refused : ∀ key val visibility p, extendKeyLength < key.length →
    s.list.addProperty key val visibility p = some (none, s.list)
  guarded : ∀ e ∈ s.list.contents l, e.val.isPointer = true → e.visibility = .isPrivate
  shows : ∀ pubid, ∃ o, s.list.jsonObjectUser pubid = some o ∧ Shows (s.list.contents l) o

theorem Represents.kept (h : Represents s l) : Kept s l where
  list := h.wf
  distinct := h.holds.nodup
  get k := by
    obtain ⟨r, hr, hfind⟩ := h.wf.getProperty k
    refine ⟨r, hr, ?_⟩
    rw [hfind, ← h.holds.find k, Option.map_id_fun, id]
  refused key val visibility p hk := if_pos hk
  guarded := h.guarded
  shows := h.wf.shows h.guarded h.holds.nodup

/-- After any calls the properties are a map of which others see the public entries, and the
next call goes through. -/
theorem properties_kept (h : Steps.Reach stepProperties Fresh ⟨init, []⟩ s) :
    (∃ l, Kept s l) ∧ ∀ c, Fresh s c → ∃ s', stepProperties s c = .ok s' := by
  obtain ⟨l, hl⟩ := represents_of_reach h
  refine ⟨⟨l, hl.kept⟩, fun c hc => ?_⟩
  obtain ⟨s', -, hs', -⟩ := hl.step hc
  exact ⟨s', hs'⟩

/-- A text, a pointer said to be public, and a tree in the place of the text. -/
theorem properties_kept_replaced : ∃ s : History,
    s.log = [.put (bytes "a") ⟨bytes "a", .json .newArray, .isPublic⟩,
      .put (bytes "b") ⟨bytes "b", .pointer 7, .isPrivate⟩,
      .put (bytes "a") ⟨bytes "a", .str (bytes "x"), .isPublic⟩] ∧
    (∃ l, Kept s l) ∧ ∀ c, Fresh s c → ∃ s', stepProperties s c = .ok s' := by
  have hone : Fresh ⟨init, []⟩ (.add (bytes "a") (.str (bytes "x")) .isPublic 0) := by
    intro t ht
    cases ht
    rfl
  refine ⟨_, ?_, properties_kept (.step (.step (.step .start hone rfl)
    (e := .add (bytes "b") (.pointer 7) .isPublic 1) ?_ rfl)
    (e := .add (bytes "a") (.json .newArray) .isPublic 0) ?_ rfl)⟩
  · rfl
  · intro t ht
    cases ht
    rfl
  · intro t ht
    cases ht
    rfl

end Properties

end ApeServer
