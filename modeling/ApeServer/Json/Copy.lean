import Mathlib.Logic.Relation
import ApeServer.Json.Document

/-!
# `json_item_copy` and the functions that set a property, in memory

An item points to its first child and, by `jchild.head`, to the last one: a property is set
behind that. The parser never sets this pointer and `json_item_copy` does, so a copy can be
appended to whatever tree it was made of.
-/
namespace ApeServer.Json

open Sock (Bytes)

variable {F : Type}

/-- `json_item` with its `jchild.head`. -/
structure Node (F : Type) extends Cell F where
  head : Option ℕ

/-- The items allocated so far. -/
structure Store (F : Type) where
  size : ℕ
  node : ℕ → Node F

namespace Store

def alloc (s : Store F) (i : Node F) : Store F :=
  { size := s.size + 1, node := Function.update s.node s.size i }

def modify (s : Store F) (p : ℕ) (g : Node F → Node F) : Store F :=
  { s with node := Function.update s.node p (g (s.node p)) }

/-- A write behind a pointer that may be NULL. -/
def modifyAt (s : Store F) (p : Option ℕ) (g : Node F → Node F) : Store F :=
  match p with
  | some p => s.modify p g
  | none => s

variable (s : Store F) (g : Node F → Node F) {p q : ℕ}

@[simp] theorem size_alloc (i : Node F) : (s.alloc i).size = s.size + 1 := rfl

@[simp] theorem size_modify (p : ℕ) : (s.modify p g).size = s.size := rfl

@[simp] theorem size_modifyAt (p : Option ℕ) : (s.modifyAt p g).size = s.size := by
  cases p <;> rfl

@[simp] theorem node_alloc_self (i : Node F) : (s.alloc i).node s.size = i := by
  simp [alloc]

theorem node_alloc_of_ne (i : Node F) (hp : p ≠ s.size) : (s.alloc i).node p = s.node p := by
  simp [alloc, hp]

@[simp] theorem node_modify_self (p : ℕ) : (s.modify p g).node p = g (s.node p) := by
  simp [modify]

theorem node_modify_of_ne (hq : q ≠ p) : (s.modify p g).node q = s.node q := by
  simp [modify, hq]

theorem node_modifyAt_of_ne {p : Option ℕ} (hq : p ≠ some q) :
    (s.modifyAt p g).node q = s.node q := by
  cases p with
  | none => rfl
  | some p => exact s.node_modify_of_ne g fun h => hq (h ▸ rfl)

end Store

/-! ## The functions -/

section Functions

variable [Zero F]

/-- An item of `init_json_item` with its fields and its father set. -/
def newNode (f : Fields F) (father : Option ℕ) : Node F :=
  { toFields := f, father, child := none, next := none, head := none }

/-- What `json_item_copy` copies of an item: of its value, the first field that is set. -/
def Fields.copied [DecidableEq F] (f : Fields F) : Fields F :=
  let newItem : Fields F :=
    { initJsonItem with type := f.type, childType := f.childType, key := f.key }
  if f.str ≠ none then { newItem with str := f.str }
  else if f.integer ≠ 0 then { newItem with integer := f.integer }
  else if f.float ≠ 0 then { newItem with float := f.float }
  else newItem

/-- The loop of `json_item_copy`; a call of it begins with no item to return and none copied
before. -/
def itemCopyLoop [DecidableEq F] :
    ℕ → Store F → (father returnItem tempItem cx : Option ℕ) → Option (Option ℕ × Store F)
  | _, s, _, returnItem, _, none => some (returnItem, s)
  | 0, _, _, _, _, some _ => none
  | fuel + 1, s, father, returnItem, tempItem, some cx => do
    let newItem := s.size
    let s := s.alloc (newNode (s.node cx).copied father)
    let s := s.modifyAt tempItem fun i => { i with next := some newItem }
    let s ← (
      if (s.node cx).child = none then some s
      else do
        let (child, s) ← itemCopyLoop fuel s (some newItem) none none (s.node cx).child
        return s.modify newItem fun i => { i with child })
    let s := s.modifyAt father fun i => { i with head := some newItem }
    itemCopyLoop fuel s father (returnItem.or (some newItem)) (some newItem) (s.node cx).next

/-- `json_item_copy`. -/
def jsonItemCopy [DecidableEq F] (fuel : ℕ) (s : Store F) (cx father : Option ℕ) :
    Option (Option ℕ × Store F) :=
  itemCopyLoop fuel s father none none cx

/-- The last part of the functions that set a property; `none` is a NULL pointer followed. -/
def Store.appendChild (s : Store F) (obj newItem : ℕ) : Option (Store F) := do
  let s ←
    match (s.node obj).child with
    | none => some (s.modify obj fun i => { i with child := some newItem })
    | some _ => do
      let head ← (s.node obj).head
      pure (s.modify head fun i => { i with next := some newItem })
  return s.modify obj fun i => { i with head := some newItem }

/-- A new item as the last child of `obj`. -/
def Store.setProperty (s : Store F) (obj : ℕ) (f : Fields F) : Option (Store F) :=
  (s.alloc (newNode f (some obj))).appendChild obj s.size

/-- `json_set_property_objN`. -/
def Store.jsonSetPropertyObj (s : Store F) (obj : ℕ) (key : Option Bytes) (value : ℕ) :
    Option (Store F) :=
  (s.modify value fun i =>
    { i with key := (key.map copyText).or i.key, father := some obj }).appendChild obj value

/-- A call of one of the other functions that set a property or an element. -/
inductive Call (F : Type) where
  | int (key : Option Bytes) (value : ℤ)
  | float (key : Option Bytes) (value : F)
  | boolean (key : Option Bytes) (value : Bool)
  | null (key : Option Bytes)
  | str (key : Option Bytes) (value : Bytes)

/-- The fields of the item that is made. -/
def Call.fields : Call F → Fields F
  | int key value => { newProperty key with integer := value, type := some .integer }
  | float key value => { (newProperty key : Fields F) with float := value, type := some .float }
  | boolean key value =>
    { (newProperty key : Fields F) with type := some (if value then .true else .false) }
  | null key => { (newProperty key : Fields F) with type := some .null }
  | str key value => { newProperty key with str := some (copyText value), type := some .string }

/-- What it builds of an object or array. -/
def Call.build (obj : Item F) : Call F → Item F
  | int key value => jsonSetPropertyInt obj key value
  | float key value => jsonSetPropertyFloat obj key value
  | boolean key value => jsonSetPropertyBoolean obj key value
  | null key => Json.jsonSetPropertyNull obj key
  | str key value => jsonSetPropertyStr obj key value

theorem Call.build_eq (obj : Item F) (c : Call F) : c.build obj = obj.append ⟨c.fields, .nil⟩ := by
  cases c <;> rfl

end Functions

/-! ## Trees in memory -/

/-- Items with their addresses. -/
inductive Placed (F : Type) where
  | nil
  | cons (addr : ℕ) (fields : Fields F) (child next : Placed F)

namespace Placed

def items : Placed F → Items F
  | nil => .nil
  | cons _ f child next => .cons f child.items next.items

def addrs : Placed F → List ℕ
  | nil => []
  | cons a _ child next => a :: (child.addrs ++ next.addrs)

def first : Placed F → Option ℕ
  | nil => none
  | cons a _ _ _ => some a

/-- The last of the siblings. -/
def last : Placed F → Option ℕ
  | nil => none
  | cons a _ _ next => next.last.or (some a)

/-- The tree is in memory: its items are allocated, and their pointers are the right ones. -/
def InStore (s : Store F) : Option ℕ → Placed F → Prop
  | _, nil => True
  | father, cons a f child next => a < s.size ∧
      (s.node a).toCell = ⟨f, father, child.first, next.first⟩ ∧ child.InStore s (some a) ∧
      next.InStore s father

/-- The head pointers lead to the last children. -/
def Headed (s : Store F) : Placed F → Prop
  | nil => True
  | cons a _ child next =>
    (child ≠ nil → (s.node a).head = child.last) ∧ child.Headed s ∧ next.Headed s

/-- The items in document order, from an address on. -/
def laid : ℕ → Items F → Placed F
  | _, .nil => nil
  | a, .cons f child next => cons a f (laid (a + 1) child) (laid (a + 1 + child.count) next)

def snoc : Placed F → Placed F → Placed F
  | nil, v => v
  | cons a f child next, v => cons a f child (next.snoc v)

/-- `v` as the last child of the item at `o`. -/
def appendAt : Placed F → ℕ → Placed F → Placed F
  | nil, _, _ => nil
  | cons a f child next, o, v =>
    cons a f (if a = o then child.snoc v else child.appendAt o v) (next.appendAt o v)

/-- The items, with what `g` builds of the item at `o` in its place. -/
def buildAt : Placed F → ℕ → (Item F → Item F) → Items F
  | nil, _, _ => .nil
  | cons a f child next, o, g =>
    let j := if a = o then g ⟨f, child.items⟩ else ⟨f, child.buildAt o g⟩
    .cons j.fields j.child (next.buildAt o g)

variable {s s' : Store F} {father : Option ℕ} {a o : ℕ} {f : Fields F} {t v child next : Placed F}
  {q : Items F}

/-- Only the addresses of the items matter. -/
theorem InStore.congr (h : t.InStore s father) (hsize : s.size ≤ s'.size)
    (hn : ∀ a ∈ t.addrs, s'.node a = s.node a) : t.InStore s' father := by
  induction t generalizing father with
  | nil => trivial
  | cons a f child next ihc ihn =>
    obtain ⟨hlt, hcell, hchild, hnext⟩ := h
    simp only [addrs, List.forall_mem_cons, List.forall_mem_append] at hn
    refine ⟨hlt.trans_le hsize, ?_, ihc hchild hn.2.1, ihn hnext hn.2.2⟩
    rw [hn.1, hcell]

theorem Headed.congr (h : t.Headed s) (hn : ∀ a ∈ t.addrs, s'.node a = s.node a) :
    t.Headed s' := by
  induction t with
  | nil => trivial
  | cons a f child next ihc ihn =>
    obtain ⟨hhead, hchild, hnext⟩ := h
    simp only [addrs, List.forall_mem_cons, List.forall_mem_append] at hn
    refine ⟨fun hne => ?_, ihc hchild hn.2.1, ihn hnext hn.2.2⟩
    rw [hn.1, hhead hne]

theorem InStore.lt (h : t.InStore s father) : ∀ a ∈ t.addrs, a < s.size := by
  induction t generalizing father with
  | nil => exact fun a ha => absurd ha List.not_mem_nil
  | cons a f child next ihc ihn =>
    obtain ⟨hlt, -, hchild, hnext⟩ := h
    simp only [addrs, List.forall_mem_cons, List.forall_mem_append]
    exact ⟨hlt, ihc hchild, ihn hnext⟩

theorem first_eq_none : t.first = none ↔ t = nil := by
  cases t <;> simp [first]

theorem last_isSome (h : t ≠ nil) : ∃ a ∈ t.addrs, t.last = some a := by
  induction t with
  | nil => exact absurd rfl h
  | cons a f child next _ ihn =>
    by_cases hn : next = nil
    · subst hn
      exact ⟨a, List.mem_cons_self, rfl⟩
    · obtain ⟨b, hb, hlast⟩ := ihn hn
      refine ⟨b, ?_, by rw [last, hlast]; rfl⟩
      exact List.mem_cons_of_mem _ (List.mem_append_right _ hb)

/-! ### Trees in document order -/

theorem items_laid (a : ℕ) (q : Items F) : (laid a q).items = q := by
  induction q generalizing a with
  | nil => rfl
  | cons f child next ihc ihn => rw [laid, items, ihc, ihn]

theorem addrs_laid (a : ℕ) (q : Items F) : (laid a q).addrs = List.range' a q.count := by
  induction q generalizing a with
  | nil => rfl
  | cons f child next ihc ihn =>
    rw [laid, addrs, ihc, ihn, Items.count, List.range'_succ, List.range'_append_1]

theorem mem_addrs_laid {p : ℕ} : p ∈ (laid a q).addrs ↔ a ≤ p ∧ p < a + q.count := by
  rw [addrs_laid, List.mem_range'_1]

theorem first_laid (a : ℕ) (q : Items F) : (laid a q).first = q.first a := by
  cases q <;> rfl

end Placed

/-! ## The copy -/

namespace Items

variable [Zero F] [DecidableEq F]

/-- The items that are copied. -/
def copied : Items F → Items F
  | nil => nil
  | cons f child next => cons f.copied child.copied next.copied

theorem count_copied (q : Items F) : q.copied.count = q.count := by
  induction q with
  | nil => rfl
  | cons f child next ihc ihn => rw [copied, count, count, ihc, ihn]

theorem valueText_copied (P : Printer F) (f : Fields F) (child : Items F) :
    valueText P f.copied child.copied = valueText P f child := by
  have hchild : child.copied = nil ↔ child = nil := by
    cases child <;> simp [copied]
  simp only [valueText, Fields.copied, hchild]
  by_cases hs : f.str = none
  · by_cases hi : f.integer = 0
    · by_cases hx : f.float = 0
      · simp [hs, hi, hx, initJsonItem]
      · simp [hs, hi, hx, initJsonItem]
    · simp [hs, hi, initJsonItem]
  · obtain ⟨v, hv⟩ := Option.ne_none_iff_exists'.mp hs
    simp [hv]

/-- What is copied prints as the original does. -/
theorem toStringFrom_copied (P : Printer F) (father : Option ChildType) (q : Items F) :
    toStringFrom P father q.copied = toStringFrom P father q := by
  have hkeep : ∀ f : Fields F, f.copied.key = f.key ∧ f.copied.childType = f.childType := by
    intro f
    simp only [Fields.copied]
    split_ifs <;> exact ⟨rfl, rfl⟩
  induction q generalizing father with
  | nil => rfl
  | cons f child next ihc ihn =>
    have hchild : child.copied = nil ↔ child = nil := by
      cases child <;> simp [copied]
    have hafter : afterText father next.copied = afterText father next := by
      cases father <;> cases next <;> rfl
    simp only [copied, toStringFrom, valueText_copied, hkeep, ihc, ihn, hchild, hafter]

end Items

section Copy

variable [Zero F] [DecidableEq F] {s s' : Store F}

open Placed (laid)

/-- The copy of some items is in memory, behind the ones there were: of these, the father has got
the last item as its head and the item before has got the first as the next. -/
structure Copied (s s' : Store F) (father tempItem : Option ℕ) (q : Items F) : Prop where
  size : s'.size = s.size + q.count
  inStore : (laid s.size q.copied).InStore s' father
  headed : (laid s.size q.copied).Headed s'
  same : ∀ p < s.size, father ≠ some p → tempItem ≠ some p → s'.node p = s.node p
  father : ∀ p, father = some p → s'.node p =
    { s.node p with head := (laid s.size q.copied).last.or (s.node p).head }
  before : ∀ p, tempItem = some p → s'.node p =
    { s.node p with next := (laid s.size q.copied).first.or (s.node p).next }

theorem itemCopyLoop_spec {t : Placed F} {b : ℕ} {of : Option ℕ} (fuel : ℕ)
    (father tempItem returnItem : Option ℕ) (ht : t.InStore s of) (htb : ∀ a ∈ t.addrs, a < b)
    (hb : b ≤ s.size)
    (hf : ∀ p, father = some p → b ≤ p ∧ p < s.size)
    (hp : ∀ p, tempItem = some p → b ≤ p ∧ p < s.size ∧ father ≠ some p)
    (hfuel : t.items.count ≤ fuel) :
    ∃ s', itemCopyLoop fuel s father returnItem tempItem t.first =
        some (returnItem.or (laid s.size t.items.copied).first, s') ∧
      Copied s s' father tempItem t.items := by
  induction t generalizing s fuel b of father tempItem returnItem with
  | nil =>
    refine ⟨s, ?_, rfl, trivial, trivial, fun _ _ _ _ => rfl, fun p h => ?_, fun p h => ?_⟩
    · cases fuel <;> simp [itemCopyLoop, Placed.first, Placed.items, Items.copied, laid]
    · rfl
    · rfl
  | cons a f child next ihc ihn =>
    obtain ⟨hlt, hcell, hchild, hnext⟩ := ht
    simp only [Placed.addrs, List.forall_mem_cons, List.forall_mem_append] at htb
    obtain ⟨hab, hcb, hnb⟩ := htb
    simp only [Placed.items, Items.count] at hfuel
    obtain ⟨fuel, rfl⟩ : ∃ n, fuel = n + 1 := ⟨fuel - 1, by omega⟩
    have hta : tempItem ≠ some a := fun h => by have := (hp a h).1; omega
    have hfa : father ≠ some a := fun h => by have := (hf a h).1; omega
    have htn : tempItem ≠ some s.size := fun h => absurd (hp _ h).2.1 (lt_irrefl _)
    have hfn : father ≠ some s.size := fun h => absurd (hf _ h).2 (lt_irrefl _)
    -- the new item, linked to the one before
    set s₂ := (s.alloc (newNode f.copied father)).modifyAt tempItem
      fun i => { i with next := some s.size } with hs₂
    have hsize₂ : s₂.size = s.size + 1 := by simp [hs₂]
    have hold₂ : ∀ p < s.size, tempItem ≠ some p → s₂.node p = s.node p := by
      intro p hlt hne
      rw [hs₂, Store.node_modifyAt_of_ne _ _ hne, Store.node_alloc_of_ne _ _ (by omega)]
    have hnew₂ : s₂.node s.size = newNode f.copied father := by
      rw [hs₂, Store.node_modifyAt_of_ne _ _ htn, Store.node_alloc_self]
    have hcx₂ : s₂.node a = s.node a := hold₂ a (by omega) hta
    -- its children
    obtain ⟨s₄, hrun₄, hsize₄, hin₄, hhead₄, hold₄, hnew₄⟩ : ∃ s₄,
        (if (s₂.node a).child = none then some s₂ else do
          let (child, s₃) ← itemCopyLoop fuel s₂ (some s.size) none none (s₂.node a).child
          return s₃.modify s.size fun i => { i with child }) = some s₄ ∧
        s₄.size = s.size + 1 + child.items.count ∧
        (laid (s.size + 1) child.items.copied).InStore s₄ (some s.size) ∧
        (laid (s.size + 1) child.items.copied).Headed s₄ ∧
        (∀ p < s.size, s₄.node p = s₂.node p) ∧
        s₄.node s.size = { newNode f.copied father with
          child := (laid (s.size + 1) child.items.copied).first
          head := (laid (s.size + 1) child.items.copied).last } := by
      have hfirst : (s₂.node a).child = child.first := by rw [hcx₂, hcell]
      rw [hfirst]
      by_cases hc : child.first = none
      · have hnil := Placed.first_eq_none.mp hc
        subst hnil
        exact ⟨s₂, if_pos rfl, hsize₂, trivial, trivial, fun _ _ => rfl, hnew₂⟩
      · have hchild₂ : child.InStore s₂ (some a) := by
          refine hchild.congr (by omega) fun p hpm => hold₂ p ?_ ?_
          · have := hcb p hpm
            omega
          · intro h
            have := (hp p h).1
            have := hcb p hpm
            omega
        obtain ⟨s₃, hrun, hcop⟩ := ihc fuel (some s.size) none none hchild₂ hcb (by omega)
          (fun p h => by cases h; omega) (fun p h => by cases h) (by omega)
        obtain ⟨hsize₃, hin₃, hhead₃, hsame₃, hfather₃, -⟩ := hcop
        rw [hsize₂] at hrun hsize₃ hin₃ hhead₃ hfather₃
        have hout : ∀ p ∈ (laid (s.size + 1) child.items.copied).addrs,
            (s₃.modify s.size fun i => { i with
              child := (laid (s.size + 1) child.items.copied).first }).node p = s₃.node p := by
          intro p hpm
          have := (Placed.mem_addrs_laid.mp hpm).1
          exact s₃.node_modify_of_ne _ (by omega)
        refine ⟨s₃.modify s.size fun i => { i with
          child := (laid (s.size + 1) child.items.copied).first }, ?_, hsize₃,
          hin₃.congr le_rfl hout, hhead₃.congr hout, fun p hlt => ?_, ?_⟩
        · rw [if_neg hc, hrun]
          rfl
        · rw [Store.node_modify_of_ne _ _ (by omega), hsame₃ p (by omega) (by simp; omega) (by simp)]
        · rw [Store.node_modify_self, hfather₃ _ rfl, hnew₂]
          simp [newNode]
    -- the father's head, and the items after it
    set s₅ := s₄.modifyAt father fun i => { i with head := some s.size } with hs₅
    have hsize₅ : s₅.size = s.size + 1 + child.items.count := by
      rw [hs₅, Store.size_modifyAt, hsize₄]
    have hold₅ : ∀ p < s.size, father ≠ some p → s₅.node p = s₂.node p := by
      intro p hlt hne
      rw [hs₅, Store.node_modifyAt_of_ne _ _ hne, hold₄ p hlt]
    have hnew₅ : s₅.node s.size = s₄.node s.size := by
      rw [hs₅, Store.node_modifyAt_of_ne _ _ hfn]
    have hcx₅ : s₅.node a = s.node a := by rw [hold₅ a (by omega) hfa, hcx₂]
    have hnext₅ : next.InStore s₅ of := by
      refine hnext.congr (by omega) fun p hpm => ?_
      have hpb := hnb p hpm
      rw [hold₅ p (by omega) fun h => by have := (hf p h).1; omega,
        hold₂ p (by omega) fun h => by have := (hp p h).1; omega]
    obtain ⟨s', hrun', hcop⟩ := ihn fuel father (some s.size) (returnItem.or (some s.size))
      hnext₅ hnb (by omega) (fun p h => by have := hf p h; omega)
      (fun p h => by cases h; exact ⟨by omega, by omega, hfn⟩) (by omega)
    refine ⟨s', ?_, ?_⟩
    · have hnxt : (s₅.node a).next = next.first := by rw [hcx₅, hcell]
      have hfields : (s.node a).copied = f.copied := by rw [hcell]
      rw [Placed.first, itemCopyLoop]
      dsimp only
      rw [hfields, ← hs₂, hrun₄, Option.bind_eq_bind, Option.bind_some, ← hs₅, hnxt, hrun']
      cases returnItem <;> rfl
    obtain ⟨hsize', hin', hhead', hsame', hfather', hbefore'⟩ := hcop
    rw [hsize₅] at hsize' hin' hhead' hfather' hbefore'
    have hnew' : s'.node s.size = { s₄.node s.size with
        next := (laid (s.size + 1 + child.items.count) next.items.copied).first } := by
      rw [hbefore' _ rfl, hnew₅, hnew₄]
      simp [newNode]
    have hchild' : ∀ p ∈ (laid (s.size + 1) child.items.copied).addrs,
        s'.node p = s₄.node p := by
      intro p hpm
      rw [Placed.mem_addrs_laid, Items.count_copied] at hpm
      have hne : father ≠ some p := fun h => by have := (hf p h).2; omega
      rw [hsame' p (by omega) hne (by simp; omega), hs₅, Store.node_modifyAt_of_ne _ _ hne]
    have hlaid : laid s.size (Placed.cons a f child next).items.copied =
        .cons s.size f.copied (laid (s.size + 1) child.items.copied)
          (laid (s.size + 1 + child.items.count) next.items.copied) := by
      rw [Placed.items, Items.copied, laid, Items.count_copied]
    have hle : s₄.size ≤ s'.size := by omega
    constructor
    · rw [hsize', Placed.items, Items.count]
      omega
    · rw [hlaid]
      refine ⟨by omega, ?_, hin₄.congr hle hchild', hin'⟩
      rw [hnew', hnew₄]
      rfl
    · rw [hlaid]
      refine ⟨fun _ => ?_, hhead₄.congr hchild', hhead'⟩
      rw [hnew', hnew₄]
    · intro p hlt hfp htp
      rw [hsame' p (by omega) hfp (by simp; omega), hold₅ p hlt hfp, hold₂ p hlt htp]
    · intro p h
      have hlt := (hf p h).2
      have htp : tempItem ≠ some p := fun ht => (hp p ht).2.2 h
      have hnode : s₅.node p = { s.node p with head := some s.size } := by
        rw [hs₅, h, Store.modifyAt, Store.node_modify_self, hold₄ p hlt, hold₂ p hlt htp]
      rw [hfather' p h, hnode, hlaid, Placed.last]
      cases (laid (s.size + 1 + child.items.count) next.items.copied).last <;> rfl
    · intro p h
      obtain ⟨-, hlt, hfp⟩ := hp p h
      have hnode : s₂.node p = { s.node p with next := some s.size } := by
        rw [hs₂, h, Store.modifyAt, Store.node_modify_self, Store.node_alloc_of_ne _ _ (by omega)]
      rw [hsame' p (by omega) hfp (by simp; omega), hold₅ p hlt hfp, hnode, hlaid]
      rfl

end Copy

/-! ## Setting a property -/

namespace Placed

variable {s s' : Store F} {father : Option ℕ} {a b o : ℕ} {f : Fields F} {t v child next : Placed F}

theorem appendAt_of_notMem (h : o ∉ t.addrs) : t.appendAt o v = t := by
  induction t with
  | nil => rfl
  | cons a f child next ihc ihn =>
    simp only [addrs, List.mem_cons, List.mem_append, not_or] at h
    rw [appendAt, if_neg (Ne.symm h.1), ihc h.2.1, ihn h.2.2]

theorem addrs_snoc (t v : Placed F) : (t.snoc v).addrs = t.addrs ++ v.addrs := by
  induction t with
  | nil => rfl
  | cons a f child next _ ihn => simp [snoc, addrs, ihn]

theorem items_snoc (t : Placed F) (a : ℕ) (f : Fields F) (child : Placed F) :
    (t.snoc (.cons a f child .nil)).items = t.items.snoc ⟨f, child.items⟩ := by
  induction t with
  | nil => rfl
  | cons a f child next _ ihn => rw [snoc, items, ihn, items, Items.snoc]

theorem first_snoc (h : t ≠ nil) (v : Placed F) : (t.snoc v).first = t.first := by
  cases t with
  | nil => exact absurd rfl h
  | cons _ _ _ _ => rfl

theorem last_snoc (t : Placed F) (a : ℕ) (f : Fields F) (child : Placed F) :
    (t.snoc (.cons a f child .nil)).last = some a := by
  induction t with
  | nil => rfl
  | cons _ _ _ next _ ihn => rw [snoc, last, ihn]; rfl

theorem first_appendAt (t : Placed F) (o : ℕ) (v : Placed F) : (t.appendAt o v).first = t.first := by
  cases t <;> rfl

theorem last_appendAt (t : Placed F) (o : ℕ) (v : Placed F) : (t.appendAt o v).last = t.last := by
  induction t with
  | nil => rfl
  | cons a f child next _ ihn => rw [appendAt, last, ihn, last]

/-- The addresses are those of both trees. -/
theorem addrs_appendAt (hnd : t.addrs.Nodup) (ho : o ∈ t.addrs) :
    (t.appendAt o v).addrs.Perm (t.addrs ++ v.addrs) := by
  induction t with
  | nil => exact absurd ho List.not_mem_nil
  | cons a f child next ihc ihn =>
    rw [addrs, List.nodup_cons, List.nodup_append'] at hnd
    obtain ⟨ha, hc, hn, hd⟩ := hnd
    simp only [addrs, List.mem_cons, List.mem_append] at ho ha
    have hswap : (a :: (child.addrs ++ v.addrs ++ next.addrs)).Perm
        (a :: (child.addrs ++ next.addrs) ++ v.addrs) := by
      rw [List.cons_append, List.append_assoc, List.append_assoc]
      exact (List.perm_append_comm.append_left child.addrs).cons a
    rcases ho with rfl | ho | ho
    · rw [appendAt, if_pos rfl, addrs, addrs_snoc, appendAt_of_notMem fun h => ha (.inr h)]
      exact hswap
    · have hne : a ≠ o := fun h => ha (.inl (h ▸ ho))
      rw [appendAt, if_neg hne, addrs, appendAt_of_notMem fun h => hd ho h]
      exact (((ihc hc ho).append_right _).cons a).trans hswap
    · have hne : a ≠ o := fun h => ha (.inr (h ▸ ho))
      rw [appendAt, if_neg hne, addrs, appendAt_of_notMem fun h => hd h ho, addrs,
        List.cons_append, List.append_assoc]
      exact ((ihn hn ho).append_left _).cons a

/-- An item that builds what `g` does is the item with `v` appended. -/
theorem items_appendAt {g : Item F → Item F} {a : ℕ} {f : Fields F} {child : Placed F}
    (hg : ∀ j, g j = j.append ⟨f, child.items⟩) (t : Placed F) (o : ℕ) :
    (t.appendAt o (.cons a f child .nil)).items = t.buildAt o g := by
  induction t with
  | nil => rfl
  | cons b f' child' next ihc ihn =>
    rw [appendAt, items, buildAt, ihn]
    by_cases hb : b = o
    · rw [if_pos hb, if_pos hb, hg, items_snoc]
      rfl
    · rw [if_neg hb, if_neg hb, ihc]

/-- A tree in memory that can be appended to. -/
structure Ready (s : Store F) (father : Option ℕ) (t : Placed F) : Prop where
  inStore : t.InStore s father
  headed : t.Headed s
  nodup : t.addrs.Nodup

theorem Ready.congr (h : t.Ready s father) (hsize : s.size ≤ s'.size)
    (hn : ∀ a ∈ t.addrs, s'.node a = s.node a) : t.Ready s' father :=
  ⟨h.inStore.congr hsize hn, h.headed.congr hn, h.nodup⟩

/-- Siblings with a new last one: it is linked to the one before, and nothing else changes. -/
theorem snoc_ready {l : ℕ} (ht : t.InStore s father) (hh : t.Headed s) (hnd : t.addrs.Nodup)
    (hl : t.last = some l) (hsize : s.size ≤ s'.size)
    (hsame : ∀ p ∈ t.addrs, p ≠ l → s'.node p = s.node p)
    (hlink : s'.node l = { s.node l with next := v.first }) (hv : v.InStore s' father)
    (hvh : v.Headed s') : (t.snoc v).InStore s' father ∧ (t.snoc v).Headed s' := by
  induction t with
  | nil => cases hl
  | cons a f child next _ ihn =>
    obtain ⟨hlt, hcell, hchild, hnext⟩ := ht
    obtain ⟨hhead, hhc, hhn⟩ := hh
    rw [addrs, List.nodup_cons, List.nodup_append'] at hnd
    obtain ⟨ha, hc, hn, hd⟩ := hnd
    simp only [addrs, List.mem_cons, List.mem_append, not_or] at ha hsame
    rw [last] at hl
    by_cases hnil : next = nil
    · subst hnil
      cases hl
      have hsame' : ∀ p ∈ child.addrs, s'.node p = s.node p :=
        fun p hp => hsame p (.inr (.inl hp)) fun h => ha.1 (h ▸ hp)
      refine ⟨⟨by omega, ?_, hchild.congr hsize hsame', hv⟩, fun hne => ?_,
        hhc.congr hsame', hvh⟩
      · rw [hlink]
        change (⟨(s.node l).toFields, (s.node l).father, (s.node l).child, v.first⟩ : Cell F) = _
        rw [hcell]
        rfl
      · rw [hlink]
        exact hhead hne
    · obtain ⟨l', hl', hlast⟩ := last_isSome hnil
      rw [hlast] at hl
      cases hl
      have hal : a ≠ l := fun h => ha.2 (h ▸ hl')
      have hsame' : ∀ p ∈ child.addrs, s'.node p = s.node p :=
        fun p hp => hsame p (.inr (.inl hp)) fun h => hd hp (h ▸ hl')
      obtain ⟨hin, hhd⟩ := ihn hnext hhn hn hlast
        (fun p hp hne => hsame p (.inr (.inr hp)) hne)
      refine ⟨⟨by omega, ?_, hchild.congr hsize hsame', hin⟩, fun hne => ?_,
        hhc.congr hsame', hhd⟩
      · rw [hsame a (.inl rfl) hal, hcell, first_snoc hnil]
      · rw [hsame a (.inl rfl) hal]
        exact hhead hne

/-- A new last child: the store has got the tree with it, and is otherwise the same. -/
theorem Ready.appendChild {vchild : Placed F} (ht : t.Ready s father) (ho : o ∈ t.addrs)
    (hv : (Placed.cons b f vchild .nil).Ready s (some o))
    (hd : t.addrs.Disjoint (Placed.cons b f vchild .nil).addrs) :
    ∃ s', s.appendChild o b = some s' ∧
      (t.appendAt o (.cons b f vchild .nil)).Ready s' father ∧ s'.size = s.size ∧
      ∀ p ∉ t.addrs, s'.node p = s.node p := by
  have hperm := addrs_appendAt (v := .cons b f vchild .nil) ht.nodup ho
  have hnodup : (t.appendAt o (.cons b f vchild .nil)).addrs.Nodup :=
    hperm.nodup_iff.mpr (List.nodup_append'.mpr ⟨ht.nodup, hv.nodup, hd⟩)
  set v : Placed F := .cons b f vchild .nil with hvdef
  suffices h : ∃ s', s.appendChild o b = some s' ∧ (t.appendAt o v).InStore s' father ∧
      (t.appendAt o v).Headed s' ∧ s'.size = s.size ∧ ∀ p ∉ t.addrs, s'.node p = s.node p by
    obtain ⟨s', hs, hin, hh, hsize, hsame⟩ := h
    exact ⟨s', hs, ⟨hin, hh, hnodup⟩, hsize, hsame⟩
  obtain ⟨hin, hh, hnd⟩ := ht
  clear hperm hnodup
  induction t generalizing father with
  | nil => exact absurd ho List.not_mem_nil
  | cons a f' child next ihc ihn =>
    obtain ⟨hlt, hcell, hchild, hnext⟩ := hin
    obtain ⟨hhead, hhc, hhn⟩ := hh
    rw [addrs, List.nodup_cons, List.nodup_append'] at hnd
    obtain ⟨ha, hc, hn, hdis⟩ := hnd
    simp only [addrs, List.mem_cons, List.mem_append, not_or] at ho ha ⊢
    rw [addrs, List.disjoint_cons_left, List.disjoint_append_left] at hd
    obtain ⟨hav, hdc, hdn⟩ := hd
    rcases ho with rfl | ho | ho
    · have hnode : (s.node o).child = child.first := by rw [hcell]
      rw [appendAt, if_pos rfl, appendAt_of_notMem ha.2]
      by_cases hnil : child = nil
      · subst hnil
        set s' := (s.modify o fun i => { i with child := some b }).modify o
          fun i => { i with head := some b } with hs'
        have hself : s'.node o = { s.node o with child := some b, head := some b } := by
          rw [hs', Store.node_modify_self, Store.node_modify_self]
        have hother : ∀ p, p ≠ o → s'.node p = s.node p := by
          intro p hp
          rw [hs', Store.node_modify_of_ne _ _ hp, Store.node_modify_of_ne _ _ hp]
        have hnext' : ∀ p ∈ next.addrs, s'.node p = s.node p :=
          fun p hp => hother p fun h => ha.2 (h ▸ hp)
        have hv' : v.Ready s' (some o) :=
          hv.congr le_rfl fun p hp => hother p fun h => hav (h ▸ hp)
        refine ⟨s', ?_, ⟨hlt, ?_, hv'.inStore, hnext.congr le_rfl hnext'⟩, ⟨fun _ => ?_,
          hv'.headed, hhn.congr hnext'⟩, rfl, fun p hp => hother p hp.1⟩
        · rw [Store.appendChild, hnode]
          rfl
        · rw [hself]
          change (⟨(s.node o).toFields, (s.node o).father, some b, (s.node o).next⟩ : Cell F) = _
          rw [hcell]
          rfl
        · rw [hself]
          rfl
      · obtain ⟨l, hl, hlast⟩ := last_isSome hnil
        have hla : l ≠ o := fun h => ha.1 (h ▸ hl)
        set s' := (s.modify l fun i => { i with next := some b }).modify o
          fun i => { i with head := some b } with hs'
        have hself : s'.node o = { s.node o with head := some b } := by
          rw [hs', Store.node_modify_self, Store.node_modify_of_ne _ _ hla.symm]
        have hlink : s'.node l = { s.node l with next := v.first } := by
          rw [hs', Store.node_modify_of_ne _ _ hla, Store.node_modify_self]
          rfl
        have hother : ∀ p, p ≠ o → p ≠ l → s'.node p = s.node p := by
          intro p hp hpl
          rw [hs', Store.node_modify_of_ne _ _ hp, Store.node_modify_of_ne _ _ hpl]
        have hnext' : ∀ p ∈ next.addrs, s'.node p = s.node p :=
          fun p hp => hother p (fun h => ha.2 (h ▸ hp)) fun h => hdis hl (h ▸ hp)
        have hv' : v.Ready s' (some o) :=
          hv.congr le_rfl fun p hp => hother p (fun h => hav (h ▸ hp)) fun h => hdc hl (h ▸ hp)
        obtain ⟨hsnoc, hsnoch⟩ := snoc_ready hchild hhc hc hlast (show s.size ≤ s'.size from le_rfl)
          (fun p hp hpl => hother p (fun h => ha.1 (h ▸ hp)) hpl) hlink hv'.inStore hv'.headed
        refine ⟨s', ?_, ⟨hlt, ?_, hsnoc, hnext.congr le_rfl hnext'⟩, ⟨fun _ => ?_, hsnoch,
          hhn.congr hnext'⟩, rfl, fun p hp => hother p hp.1 fun h => hp.2.1 (h ▸ hl)⟩
        · obtain ⟨c, hc⟩ := Option.ne_none_iff_exists'.mp fun h => hnil (first_eq_none.mp h)
          rw [Store.appendChild, hnode, hc, hhead hnil, hlast]
          rfl
        · rw [hself, first_snoc hnil]
          exact hcell
        · rw [hself, last_snoc]
    · have hne : a ≠ o := fun h => ha.1 (h ▸ ho)
      obtain ⟨s', hs, hin', hh', hsize, hsame⟩ := ihc ho hdc hchild hhc hc
      have hnext' : ∀ p ∈ next.addrs, s'.node p = s.node p :=
        fun p hp => hsame p fun h => hdis h hp
      rw [appendAt, if_neg hne, appendAt_of_notMem fun h => hdis ho h]
      refine ⟨s', hs, ⟨by omega, ?_, hin', hnext.congr hsize.ge hnext'⟩, ⟨fun hne => ?_, hh',
        hhn.congr hnext'⟩, hsize, fun p hp => hsame p hp.2.1⟩
      · rw [hsame a ha.1, hcell, first_appendAt]
      · rw [hsame a ha.1, last_appendAt]
        exact hhead fun h => hne (by rw [h]; rfl)
    · have hne : a ≠ o := fun h => ha.2 (h ▸ ho)
      obtain ⟨s', hs, hin', hh', hsize, hsame⟩ := ihn ho hdn hnext hhn hn
      have hchild' : ∀ p ∈ child.addrs, s'.node p = s.node p :=
        fun p hp => hsame p fun h => hdis hp h
      rw [appendAt, if_neg hne, appendAt_of_notMem fun h => hdis h ho]
      refine ⟨s', hs, ⟨by omega, ?_, hchild.congr hsize.ge hchild', hin'⟩, ⟨fun hne => ?_,
        hhc.congr hchild', hh'⟩, hsize, fun p hp => hsame p hp.2.2⟩
      · rw [hsame a ha.2, hcell, first_appendAt]
      · rw [hsame a ha.2]
        exact hhead hne

section Calls

variable [Zero F]

/-- A property that is set is the last child, and built as in the tree. -/
theorem Ready.setProperty (ht : t.Ready s father) (ho : o ∈ t.addrs) (c : Call F) :
    ∃ s', s.setProperty o c.fields = some s' ∧
      (t.appendAt o (.cons s.size c.fields .nil .nil)).Ready s' father ∧
      (t.appendAt o (.cons s.size c.fields .nil .nil)).items = t.buildAt o c.build := by
  have hfresh : s.size ∉ t.addrs := fun h => absurd (ht.inStore.lt _ h) (lt_irrefl _)
  have ht' : t.Ready (s.alloc (newNode c.fields (some o))) father := by
    refine ht.congr (Nat.le_succ _) fun p hp => ?_
    exact s.node_alloc_of_ne _ fun h => hfresh (h ▸ hp)
  have hv : (Placed.cons s.size c.fields .nil .nil).Ready
      (s.alloc (newNode c.fields (some o))) (some o) := by
    refine ⟨⟨Nat.lt_succ_self _, ?_, trivial, trivial⟩, ⟨fun h => absurd rfl h, trivial, trivial⟩,
      by simp [addrs]⟩
    rw [Store.node_alloc_self]
    rfl
  obtain ⟨s', hs, hready, -⟩ := ht'.appendChild ho hv (by simp [addrs, hfresh])
  exact ⟨s', hs, hready, items_appendAt c.build_eq t o⟩

omit [Zero F] in
/-- A tree that is set as a property of another one. -/
theorem Ready.jsonSetPropertyObj {vfather : Option ℕ} {vchild : Placed F} (ht : t.Ready s father)
    (ho : o ∈ t.addrs) (hv : (Placed.cons b f vchild .nil).Ready s vfather)
    (hd : t.addrs.Disjoint (Placed.cons b f vchild .nil).addrs) (key : Option Bytes) :
    ∃ s', s.jsonSetPropertyObj o key b = some s' ∧
      (t.appendAt o (.cons b { f with key := (key.map copyText).or f.key } vchild .nil)).Ready
        s' father ∧
      (t.appendAt o (.cons b { f with key := (key.map copyText).or f.key } vchild .nil)).items =
        t.buildAt o fun j => Json.jsonSetPropertyObj j key ⟨f, vchild.items⟩ := by
  set s₁ := s.modify b fun i => { i with
    key := (key.map copyText).or i.key, father := some o } with hs₁
  have hother : ∀ p, p ≠ b → s₁.node p = s.node p := fun p hp => s.node_modify_of_ne _ hp
  have hbt : b ∉ t.addrs := fun h => hd h List.mem_cons_self
  have ht₁ : t.Ready s₁ father := ht.congr le_rfl fun p hp => hother p fun h => hbt (h ▸ hp)
  have hv₁ : (Placed.cons b { f with key := (key.map copyText).or f.key } vchild .nil).Ready
      s₁ (some o) := by
    obtain ⟨⟨hlt, hcell, hchild, -⟩, ⟨hhead, hhc, -⟩, hnd⟩ := hv
    have hbc : b ∉ vchild.addrs := by
      rw [addrs, List.nodup_cons] at hnd
      exact fun h => hnd.1 (List.mem_append_left _ h)
    have hsame : ∀ p ∈ vchild.addrs, s₁.node p = s.node p :=
      fun p hp => hother p fun h => hbc (h ▸ hp)
    have hself : s₁.node b = { s.node b with
        key := (key.map copyText).or (s.node b).key, father := some o } :=
      s.node_modify_self _ _
    refine ⟨⟨hlt, ?_, hchild.congr le_rfl hsame, trivial⟩, ⟨fun hne => ?_, hhc.congr hsame,
      trivial⟩, hnd⟩
    · rw [hself]
      change ({ (s.node b).toCell with
        key := (key.map copyText).or (s.node b).toCell.key, father := some o } : Cell F) = _
      rw [hcell]
    · rw [hself]
      exact hhead hne
  obtain ⟨s', hs, hready, -⟩ := ht₁.appendChild ho hv₁ hd
  exact ⟨s', hs, hready, items_appendAt (fun _ => rfl) t o⟩

end Calls

end Placed

section Runs

variable [Zero F]

/-- A call that sets a property in the tree, or whatever happens outside of it. -/
inductive SetStep : Store F × Placed F → Store F × Placed F → Prop where
  | set {s s' : Store F} {t : Placed F} {o : ℕ} (c : Call F) : o ∈ t.addrs →
      s.setProperty o c.fields = some s' →
      SetStep (s, t) (s', t.appendAt o (.cons s.size c.fields .nil .nil))
  | obj {s s' : Store F} {t vchild : Placed F} {o b : ℕ} {f : Fields F} {vfather : Option ℕ}
      (key : Option Bytes) : o ∈ t.addrs → (Placed.cons b f vchild .nil).Ready s vfather →
      t.addrs.Disjoint (Placed.cons b f vchild .nil).addrs →
      s.jsonSetPropertyObj o key b = some s' →
      SetStep (s, t)
        (s', t.appendAt o (.cons b { f with key := (key.map copyText).or f.key } vchild .nil))
  | outside {s s' : Store F} {t : Placed F} : s.size ≤ s'.size →
      (∀ a ∈ t.addrs, s'.node a = s.node a) → SetStep (s, t) (s', t)

/-- A tree that can be appended to stays one. -/
theorem SetStep.ready {x y : Store F × Placed F} {father : Option ℕ} (h : SetStep x y)
    (hx : x.2.Ready x.1 father) : y.2.Ready y.1 father := by
  cases h with
  | set c ho hs =>
    obtain ⟨s', hs', hready, -⟩ := hx.setProperty ho c
    rw [hs] at hs'
    cases hs'
    exact hready
  | obj key ho hv hd hs =>
    obtain ⟨s', hs', hready, -⟩ := hx.jsonSetPropertyObj ho hv hd key
    rw [hs] at hs'
    cases hs'
    exact hready
  | outside hsize hsame => exact hx.congr hsize hsame

theorem ready_of_run {x y : Store F × Placed F} {father : Option ℕ}
    (h : Relation.ReflTransGen SetStep x y) (hx : x.2.Ready x.1 father) :
    y.2.Ready y.1 father := by
  induction h with
  | refl => exact hx
  | tail _ hstep ih => exact hstep.ready ih

/-- The calls that set a property of an item of the tree return, and the tree is what the builder
makes of it. -/
def Extendable (s : Store F) (father : Option ℕ) (t : Placed F) : Prop :=
  ∀ o ∈ t.addrs,
    (∀ c : Call F, ∃ s' t', s.setProperty o c.fields = some s' ∧ SetStep (s, t) (s', t') ∧
      t'.InStore s' father ∧ t'.items = t.buildAt o c.build) ∧
    ∀ key vfather b f vchild, (Placed.cons b f vchild .nil).Ready s vfather →
      t.addrs.Disjoint (Placed.cons b f vchild .nil).addrs →
      ∃ s' t', s.jsonSetPropertyObj o key b = some s' ∧ SetStep (s, t) (s', t') ∧
        t'.InStore s' father ∧
        t'.items = t.buildAt o fun j => jsonSetPropertyObj j key ⟨f, vchild.items⟩

theorem Placed.Ready.extendable {s : Store F} {father : Option ℕ} {t : Placed F}
    (ht : t.Ready s father) : Extendable s father t := by
  intro o ho
  constructor
  · intro c
    obtain ⟨s', hs, hready, hitems⟩ := ht.setProperty ho c
    exact ⟨s', _, hs, .set c ho hs, hready.inStore, hitems⟩
  · intro key vfather b f vchild hv hd
    obtain ⟨s', hs, hready, hitems⟩ := ht.jsonSetPropertyObj ho hv hd key
    exact ⟨s', _, hs, .obj key ho hv hd hs, hready.inStore, hitems⟩

end Runs

/-! ## Trees that were built or parsed -/

section Origins

variable [Zero F]

/-- What is built of a new object or array is in memory and can be appended to. -/
theorem built_ready {s s' : Store F} {f : Fields F} {t : Placed F}
    (h : Relation.ReflTransGen SetStep
      (s.alloc (newNode f none), .cons s.size f .nil .nil) (s', t)) : t.Ready s' none := by
  refine ready_of_run h ⟨⟨Nat.lt_succ_self _, ?_, trivial, trivial⟩,
    ⟨fun h => absurd rfl h, trivial, trivial⟩, by simp [Placed.addrs]⟩
  rw [Store.node_alloc_self]
  rfl

/-- The items the parser has made: it leaves the heads as they were. -/
def Heap.store (h : Heap F) : Store F :=
  { size := h.size, node := fun a => { h.cell a with head := none } }

omit [Zero F] in
theorem Laid.inStore {h : Heap F} {father : Option ℕ} {a : ℕ} {q : Items F}
    (hl : Laid h father a q) (hsize : a + q.count ≤ h.size) :
    (Placed.laid a q).InStore h.store father := by
  induction q generalizing a father with
  | nil => trivial
  | cons f child next ihc ihn =>
    obtain ⟨hcell, hchild, hnext⟩ := hl
    rw [Items.count] at hsize
    refine ⟨by change a < h.size; omega, ?_, ihc hchild (by omega), ihn hnext (by omega)⟩
    rw [Placed.first_laid, Placed.first_laid]
    exact hcell

/-- What is parsed is in memory. -/
theorem parsed_inStore (kind : Kind) (d : Doc F) :
    ∃ cx : Context F, (Doc.node none kind d .nil).events.foldlM Context.jsonCallback
        Context.start = some cx ∧ cx.head = some 0 ∧
      (Placed.laid 0 (Doc.node none kind d .nil).items).InStore cx.heap.store none := by
  obtain ⟨cx, hevents, hhead, hlaid, hsize⟩ := Doc.run_root kind d
  exact ⟨cx, hevents, hhead, hlaid.inStore (by rw [hsize, Nat.zero_add])⟩

end Origins

/-! ## `json_item_copy` -/

variable [Zero F] [DecidableEq F]

/-- The copy of a tree with a single root is a tree of new items that prints as the original does,
with the right fathers and heads, and after any calls on it the next one builds as it should. -/
theorem jsonItemCopy_ready {s : Store F} {father : Option ℕ} {a : ℕ} {f : Fields F}
    {child : Placed F} (ht : (Placed.cons a f child .nil).InStore s father) {fuel : ℕ}
    (hfuel : (Placed.cons a f child .nil).items.count ≤ fuel) :
    ∃ s' t, jsonItemCopy fuel s (some a) none = some (t.first, s') ∧ t.InStore s' none ∧
      t.Headed s' ∧ t.addrs.Nodup ∧ t.addrs.Disjoint (Placed.cons a f child .nil).addrs ∧
      (∀ p < s.size, s'.node p = s.node p) ∧
      (∀ P, toStringFrom P none t.items =
        toStringFrom P none (Placed.cons a f child .nil).items) ∧
      ∀ s'' t', Relation.ReflTransGen SetStep (s', t) (s'', t') →
        t'.InStore s'' none ∧ t'.Headed s'' ∧ Extendable s'' none t' := by
  obtain ⟨s', hrun, hcop⟩ := itemCopyLoop_spec fuel none none none ht ht.lt le_rfl
    (fun p h => nomatch h) (fun p h => nomatch h) hfuel
  have hnodup : (Placed.laid s.size (Placed.cons a f child .nil).items.copied).addrs.Nodup := by
    rw [Placed.addrs_laid]
    exact List.nodup_range'
  refine ⟨s', Placed.laid s.size (Placed.cons a f child .nil).items.copied, hrun, hcop.inStore,
    hcop.headed, hnodup, ?_, ?_, ?_, ?_⟩
  · intro p hp hold
    have := ht.lt p hold
    have := (Placed.mem_addrs_laid.mp hp).1
    omega
  · exact fun p hlt => hcop.same p hlt (by simp) (by simp)
  · intro P
    rw [Placed.items_laid, Items.toStringFrom_copied]
  · intro s'' t' hcalls
    have hready := ready_of_run hcalls ⟨hcop.inStore, hcop.headed, hnodup⟩
    exact ⟨hready.inStore, hready.headed, hready.extendable⟩

/-- `[1]`, as it is parsed. -/
def parsedArray : Placed ℤ :=
  .cons 0 (Kind.fields none .arr) (.cons 1 (Scalar.fields none (.integer 1)) .nil .nil) .nil

theorem jsonItemCopy_ready_parsed : ∃ (s s' : Store ℤ) (t : Placed ℤ),
    parsedArray.InStore s none ∧ jsonItemCopy 2 s (some 0) none = some (t.first, s') ∧
    t.InStore s' none ∧ t.Headed s' ∧ t.addrs.Nodup ∧ t.addrs.Disjoint parsedArray.addrs ∧
    (∀ p < s.size, s'.node p = s.node p) ∧
    (∀ P, toStringFrom P none t.items = toStringFrom P none parsedArray.items) ∧
    ∀ (s'' : Store ℤ) (t' : Placed ℤ), Relation.ReflTransGen SetStep (s', t) (s'', t') →
      t'.InStore s'' none ∧ t'.Headed s'' ∧ Extendable s'' none t' := by
  obtain ⟨cx, -, -, hin⟩ := parsed_inStore .arr (.scalar none (.integer 1) .nil : Doc ℤ)
  have hparsed : parsedArray.InStore cx.heap.store none := hin
  have hcount : parsedArray.items.count ≤ 2 := by decide
  obtain ⟨s', t, h⟩ := jsonItemCopy_ready hparsed hcount
  exact ⟨cx.heap.store, s', t, hparsed, h⟩

end ApeServer.Json
