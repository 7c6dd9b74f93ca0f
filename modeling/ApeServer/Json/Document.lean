import ApeServer.Json.Callback

/-!
# The tree of a document

A JSON value with a container at its root, the events it is reported by and the items it is
kept in. Every prefix of the events leaves a tree in memory, laid out in document order: the
first child of an item is the item after it, its next sibling the item after its subtree.
-/
namespace ApeServer.Json

open Sock (Bytes)

/-- A value that is no container. -/
inductive Scalar (F : Type) where
  | integer (n : ℤ)
  | float (x : F)
  | null
  | true
  | false
  | string (s : Bytes)

inductive Kind where
  | obj
  | arr
deriving DecidableEq, Repr

/-- The members of an object, each under its name, or the elements of an array, from one of
them on. -/
inductive Doc (F : Type) where
  | nil
  | scalar (name : Option Bytes) (v : Scalar F) (next : Doc F)
  | node (name : Option Bytes) (kind : Kind) (child next : Doc F)

variable {F : Type}

def Scalar.event : Scalar F → Event F
  | integer n => .integer n
  | float x => .float x
  | null => .null
  | true => .true
  | false => .false
  | string s => .string s

namespace Kind

def childType : Kind → ChildType
  | obj => .obj
  | arr => .arr

def beginEvent : Kind → Event F
  | obj => .objectBegin
  | arr => .arrayBegin

def endEvent : Kind → Event F
  | obj => .objectEnd
  | arr => .arrayEnd

end Kind

/-- What an item of the tree holds for a value. -/
def Scalar.fields [Zero F] (name : Option Bytes) : Scalar F → Fields F
  | integer n => { initJsonItem with key := name, integer := n, type := some .integer }
  | float x => { (initJsonItem : Fields F) with key := name, float := x, type := some .float }
  | null => { initJsonItem with key := name, type := some .null }
  | true => { initJsonItem with key := name, integer := 1, type := some .true }
  | false => { initJsonItem with key := name, type := some .false }
  | string s => { initJsonItem with key := name, str := some s, type := some .string }

def Kind.fields [Zero F] (name : Option Bytes) (kind : Kind) : Fields F :=
  { initJsonItem with key := name, childType := kind.childType }

namespace Doc

def nameEvents : Option Bytes → List (Event F)
  | some name => [.key name]
  | none => []

/-- The events the members or elements are reported by. -/
def events : Doc F → List (Event F)
  | nil => []
  | scalar name v next => nameEvents name ++ v.event :: next.events
  | node name kind child next =>
    nameEvents name ++ kind.beginEvent :: (child.events ++ kind.endEvent :: next.events)

/-- The items they are kept in. -/
def items [Zero F] : Doc F → Items F
  | nil => .nil
  | scalar name v next => .cons (v.fields name) .nil next.items
  | node name kind child next => .cons (kind.fields name) child.items next.items

end Doc

/-- A pointer to the item at the address, if there is one. -/
def Items.first (a : ℕ) : Items F → Option ℕ
  | nil => none
  | cons _ _ _ => some a

/-- The items stand behind the pointer, each with the right father and linked to its first
child and to its next sibling. -/
def Holds (h : Heap F) : Option ℕ → Option ℕ → Items F → Prop
  | _, p, .nil => p = none
  | father, p, .cons f child next => ∃ a, p = some a ∧ (h.cell a).toFields = f ∧
      (h.cell a).father = father ∧ Holds h (some a) (h.cell a).child child ∧
      Holds h father (h.cell a).next next

/-- The items stand in document order from the address on. -/
def Laid (h : Heap F) : Option ℕ → ℕ → Items F → Prop
  | _, _, .nil => True
  | father, a, .cons f child next =>
    h.cell a = ⟨f, father, child.first (a + 1), next.first (a + 1 + child.count)⟩ ∧
      Laid h (some a) (a + 1) child ∧ Laid h father (a + 1 + child.count) next

namespace Laid

variable {h h' : Heap F} {father : Option ℕ} {a : ℕ} {t : Items F}

theorem holds (hl : Laid h father a t) : Holds h father (t.first a) t := by
  induction t generalizing father a with
  | nil => rfl
  | cons f child next ihc ihn =>
    obtain ⟨hcell, hchild, hnext⟩ := hl
    refine ⟨a, rfl, by rw [hcell], by rw [hcell], ?_, ?_⟩
    · rw [hcell]
      exact ihc hchild
    · rw [hcell]
      exact ihn hnext

/-- Only the addresses the items take up matter. -/
theorem congr (hl : Laid h father a t)
    (hc : ∀ p, a ≤ p → p < a + t.count → h'.cell p = h.cell p) : Laid h' father a t := by
  induction t generalizing father a with
  | nil => trivial
  | cons f child next ihc ihn =>
    obtain ⟨hcell, hchild, hnext⟩ := hl
    simp only [Items.count] at hc
    refine ⟨?_, ihc hchild fun p hp hlt => hc p (by omega) (by omega),
      ihn hnext fun p hp hlt => hc p (by omega) (by omega)⟩
    rw [hc a le_rfl (by omega), hcell]

/-- Freeing from the first item on frees every item once. -/
theorem freed (hl : Laid h father a t) {fuel : ℕ} (hf : t.count ≤ fuel) :
    ∃ l, h.freeJsonItem fuel (t.first a) = some l ∧ l.Perm (List.range' a t.count) := by
  induction t generalizing father a fuel with
  | nil =>
    refine ⟨[], ?_, by simp [Items.count]⟩
    cases fuel <;> rfl
  | cons f child next ihc ihn =>
    obtain ⟨hcell, hchild, hnext⟩ := hl
    simp only [Items.count] at hf
    obtain ⟨fuel, rfl⟩ : ∃ n, fuel = n + 1 := ⟨fuel - 1, by omega⟩
    obtain ⟨below, hbelow, hpb⟩ := ihc hchild (by omega : child.count ≤ fuel)
    obtain ⟨after, hafter, hpa⟩ := ihn hnext (by omega : next.count ≤ fuel)
    refine ⟨below ++ a :: after, ?_, ?_⟩
    · change h.freeJsonItem (fuel + 1) (some a) = _
      rw [Heap.freeJsonItem, hcell]
      dsimp only
      rw [hbelow, hafter]
      rfl
    · have hrange : List.range' a (child.count + next.count + 1) =
          a :: (List.range' (a + 1) child.count ++
            List.range' (a + 1 + child.count) next.count) := by
        rw [List.range'_succ, List.range'_append_1]
      rw [Items.count, hrange]
      exact List.perm_middle.trans ((hpb.append hpa).cons a)

end Laid

/-! ## How a heap grows -/

/-- A cell with its link to the first child or to the next sibling set. -/
def Cell.link (down : Bool) (p : Option ℕ) (i : Cell F) : Cell F :=
  if down then { i with child := p } else { i with next := p }

/-- The father of what is linked below or after the item. -/
def Heap.fatherFor (h : Heap F) (down : Bool) (c : ℕ) : Option ℕ :=
  if down then some c else (h.cell c).father

/-- The heap has got the items, linked below or after `c`, and is otherwise the same. -/
structure Grown (h h' : Heap F) (down : Bool) (c : ℕ) (t : Items F) : Prop where
  size : h'.size = h.size + t.count
  laid : Laid h' (h.fatherFor down c) h.size t
  linked : h'.cell c = (h.cell c).link down (t.first h.size)
  same : ∀ p < h.size, p ≠ c → h'.cell p = h.cell p

/-- The slot the next item goes to is free. -/
def Heap.Free (h : Heap F) (down : Bool) (c : ℕ) : Prop :=
  c < h.size ∧ if down then (h.cell c).child = none else (h.cell c).next = none

namespace Grown

variable {h h₁ h₂ h₃ : Heap F} {down : Bool} {c : ℕ} {f : Fields F} {child next : Items F}

theorem refl (hf : h.Free down c) : Grown h h down c .nil := by
  refine ⟨rfl, trivial, ?_, fun _ _ _ => rfl⟩
  obtain ⟨-, hf⟩ := hf
  cases down with
  | false => simp only [Cell.link, Items.first, Bool.false_eq_true, if_false] at hf ⊢; rw [← hf]
  | true => simp only [Cell.link, Items.first, if_true] at hf ⊢; rw [← hf]

theorem cell_new (hg : Grown h h₁ down c (.cons f child next)) :
    h₁.cell h.size = ⟨f, h.fatherFor down c, child.first (h.size + 1),
      next.first (h.size + 1 + child.count)⟩ :=
  hg.laid.1

/-- An item, then its children, then its siblings. -/
theorem cons (hc : c < h.size) (h1 : Grown h h₁ down c (.cons f .nil .nil))
    (h2 : Grown h₁ h₂ true h.size child) (h3 : Grown h₂ h₃ false h.size next) :
    Grown h h₃ down c (.cons f child next) := by
  have hs1 := h1.size
  have hs2 := h2.size
  have hs3 := h3.size
  simp only [Items.count] at hs1 hs2 hs3
  have hnew := h1.cell_new
  have hfather : h₂.fatherFor false h.size = h.fatherFor down c := by
    simp only [Heap.fatherFor, Bool.false_eq_true, if_false]
    rw [h2.linked, hnew]
    rfl
  refine ⟨by simp only [Items.count]; omega, ⟨?_, ?_, ?_⟩, ?_, ?_⟩
  · rw [h3.linked, h2.linked, hnew, hs1, hs2, hs1]
    rfl
  · have hl := h2.laid
    rw [hs1] at hl
    exact hl.congr fun p hp hlt => h3.same p (by omega) (by omega)
  · have hl := h3.laid
    rw [hfather, hs2, hs1] at hl
    exact hl
  · rw [h3.same c (by omega) (by omega), h2.same c (by omega) (by omega), h1.linked]
    rfl
  · intro p hp hne
    rw [h3.same p (by omega) (by omega), h2.same p (by omega) (by omega), h1.same p hp hne]

/-- A write to fields of the item that is new. -/
theorem setFields (hg : Grown h h₁ down c (.cons f .nil .nil)) (hc : c < h.size)
    (g : Fields F → Fields F) :
    Grown h (h₁.modify h.size fun i => { i with toFields := g i.toFields }) down c
      (.cons (g f) .nil .nil) := by
  refine ⟨hg.size, ⟨?_, trivial, trivial⟩, ?_, fun p hp hne => ?_⟩
  · rw [Heap.cell_modify_self, hg.cell_new]
  · rw [Heap.cell_modify_of_ne _ _ (by omega), hg.linked]
    rfl
  · rw [Heap.cell_modify_of_ne _ _ (by omega), hg.same p hp hne]

end Grown

/-! ## What the events of a document do -/

/-- The next item goes below or after `c`, and no key waits for its value. -/
structure Ready (cx : Context F) (down : Bool) (c : ℕ) : Prop where
  keyUnder : cx.keyUnder = false
  startDepth : cx.startDepth = down
  current : cx.current = some c
  free : cx.heap.Free down c
  head : cx.head = some 0

/-- `current_cx` is the item made last, and holds `f`. -/
structure Made (cx cx' : Context F) (down : Bool) (c : ℕ) (f : Fields F) : Prop where
  current : cx'.current = some cx.heap.size
  head : cx'.head = some 0
  before : c < cx.heap.size
  grown : Grown cx.heap cx'.heap down c (.cons f .nil .nil)

variable {cx cx₁ : Context F} {down : Bool} {c : ℕ} {f : Fields F}

theorem Made.free (hm : Made cx cx₁ down c f) (below : Bool) :
    cx₁.heap.Free below cx.heap.size := by
  refine ⟨?_, ?_⟩
  · rw [hm.grown.size]
    exact Nat.lt_add_of_pos_right (by simp [Items.count])
  · rw [hm.grown.cell_new]
    cases below <;> rfl

theorem Made.ready (hm : Made cx cx₁ down c f) (hk : cx₁.keyUnder = false)
    {below : Bool} (hd : cx₁.startDepth = below) : Ready cx₁ below cx.heap.size :=
  ⟨hk, hd, hm.current, hm.free _, hm.head⟩

/-- A write to fields of the item made last. -/
theorem Made.setCurrent (hm : Made cx cx₁ down c f) (g : Fields F → Fields F) :
    ∃ cx₂, cx₁.setCurrent g = some cx₂ ∧ Made cx cx₂ down c (g f) ∧
      cx₂.keyUnder = cx₁.keyUnder ∧ cx₂.startDepth = cx₁.startDepth := by
  refine ⟨{ cx₁ with
    heap := cx₁.heap.modify cx.heap.size fun i => { i with toFields := g i.toFields } }, ?_,
    ⟨hm.current, hm.head, hm.before, hm.grown.setFields hm.before g⟩, rfl, rfl⟩
  simp [Context.setCurrent, hm.current]

theorem Made.keepHead (hm : Made cx cx₁ down c f) : cx₁.keepHead = cx₁ := by
  have hh : cx₁.head.or cx₁.current = cx₁.head := by
    rw [hm.head]
    rfl
  rw [Context.keepHead, hh]

section Runs

variable [Zero F]

theorem Context.grow_eq (cx : Context F) (c : ℕ) :
    cx.grow c = { cx with
      heap := (cx.heap.alloc (newCell (cx.heap.fatherFor cx.startDepth c))).modify c
        (Cell.link cx.startDepth (some cx.heap.size))
      current := some cx.heap.size } := by
  cases hd : cx.startDepth with
  | false =>
    simp only [Context.grow, hd]
    rfl
  | true =>
    simp only [Context.grow, hd]
    rfl

theorem Ready.grow (hr : Ready cx down c) : Made cx (cx.grow c) down c initJsonItem := by
  have hc := hr.free.1
  rw [Context.grow_eq, hr.startDepth]
  refine ⟨rfl, hr.head, hc, rfl, ⟨?_, trivial, trivial⟩, ?_, fun p hp hne => ?_⟩
  · rw [Heap.cell_modify_of_ne _ _ (by omega), Heap.cell_alloc_self]
    rfl
  · rw [Heap.cell_modify_self, Heap.cell_alloc_of_ne _ _ (by omega)]
    rfl
  · rw [Heap.cell_modify_of_ne _ _ hne, Heap.cell_alloc_of_ne _ _ (by omega)]

/-- A key makes the item its value is written to. -/
theorem Ready.key (hr : Ready cx down c) (name : Bytes) :
    ∃ cx₁, cx.jsonCallback (.key name) = some cx₁ ∧
      Made cx cx₁ down c { (initJsonItem : Fields F) with key := some name } ∧
      cx₁.keyUnder = true ∧ cx₁.startDepth = false := by
  have hm : Made cx { cx.grow c with startDepth := false, keyUnder := true } down c
      initJsonItem := ⟨hr.grow.current, hr.grow.head, hr.grow.before, hr.grow.grown⟩
  obtain ⟨cx₁, hset, hm₁, hk, hd⟩ := hm.setCurrent fun f => { f with key := some name }
  refine ⟨cx₁, ?_, hm₁, hk, hd⟩
  simp only [Context.jsonCallback, Context.keyOf, hr.current, Option.bind_eq_bind,
    Option.bind_some, hset, Option.map_eq_map, Option.map_some, hm₁.keepHead]

/-- The first part of a value: the item of its key, or a new one. -/
theorem Ready.value (hr : Ready cx down c) (g : Fields F → Fields F) :
    ∃ cx₁, cx.value g = some cx₁ ∧ Made cx cx₁ down c (g initJsonItem) ∧
      cx₁.keyUnder = false ∧ cx₁.startDepth = false := by
  have hm : Made cx { cx.grow c with startDepth := false } down c initJsonItem :=
    ⟨hr.grow.current, hr.grow.head, hr.grow.before, hr.grow.grown⟩
  obtain ⟨cx₁, hset, hm₁, -, hd⟩ := hm.setCurrent g
  refine ⟨{ cx₁ with keyUnder := false }, ?_,
    ⟨hm₁.current, hm₁.head, hm₁.before, hm₁.grown⟩, rfl, hd⟩
  simp [Context.value, Context.growValue, hr.keyUnder, hr.current, hset]

theorem Made.value (hm : Made cx cx₁ down c f) (hk : cx₁.keyUnder = true)
    (hd : cx₁.startDepth = false) (g : Fields F → Fields F) :
    ∃ cx₂, cx₁.value g = some cx₂ ∧ Made cx cx₂ down c (g f) ∧
      cx₂.keyUnder = false ∧ cx₂.startDepth = false := by
  obtain ⟨cx₂, hset, hm₂, -, hd₂⟩ := hm.setCurrent g
  refine ⟨{ cx₂ with keyUnder := false }, ?_,
    ⟨hm₂.current, hm₂.head, hm₂.before, hm₂.grown⟩, rfl, hd₂.trans hd⟩
  simp [Context.value, Context.growValue, hk, hset]

theorem Ready.beginContainer (hr : Ready cx down c) (t : ChildType) :
    ∃ cx₁, cx.beginContainer t = some cx₁ ∧
      Made cx cx₁ down c { (initJsonItem : Fields F) with childType := t } ∧
      cx₁.keyUnder = false ∧ cx₁.startDepth = true := by
  obtain ⟨cx₁, hset, hm₁, -⟩ := hr.grow.setCurrent fun f => { f with childType := t }
  refine ⟨{ cx₁ with startDepth := true, keyUnder := false }, ?_,
    ⟨hm₁.current, hm₁.head, hm₁.before, hm₁.grown⟩, rfl, rfl⟩
  simp [Context.beginContainer, Context.growBegin, hr.keyUnder, hr.current, hset]

theorem Made.beginContainer (hm : Made cx cx₁ down c f) (hk : cx₁.keyUnder = true)
    (t : ChildType) :
    ∃ cx₂, cx₁.beginContainer t = some cx₂ ∧ Made cx cx₂ down c { f with childType := t } ∧
      cx₂.keyUnder = false ∧ cx₂.startDepth = true := by
  obtain ⟨cx₂, hset, hm₂, -⟩ := hm.setCurrent fun f => { f with childType := t }
  refine ⟨{ cx₂ with startDepth := true, keyUnder := false }, ?_,
    ⟨hm₂.current, hm₂.head, hm₂.before, hm₂.grown⟩, rfl, rfl⟩
  simp [Context.beginContainer, Context.growBegin, hk, hset]

/-- What the value of an item writes to it. -/
def Scalar.write : Scalar F → Fields F → Fields F
  | integer n, f => { f with integer := n, type := some .integer }
  | float x, f => { f with float := x, type := some .float }
  | null, f => { f with integer := 0, type := some .null }
  | true, f => { f with integer := 1, type := some .true }
  | false, f => { f with integer := 0, type := some .false }
  | string s, f => { f with str := some s, type := some .string }

theorem Scalar.callback (v : Scalar F) (cx : Context F) :
    cx.jsonCallback v.event = Context.keepHead <$> cx.value v.write := by
  cases v <;> rfl

theorem Kind.callback_begin (kind : Kind) (cx : Context F) :
    cx.jsonCallback kind.beginEvent = Context.keepHead <$> cx.beginContainer kind.childType := by
  cases kind <;> rfl

theorem Kind.callback_end (kind : Kind) (cx : Context F) :
    cx.jsonCallback kind.endEvent = Context.keepHead <$> cx.endContainer := by
  cases kind <;> rfl

theorem Scalar.write_named (v : Scalar F) (name : Option Bytes) :
    v.write { (initJsonItem : Fields F) with key := name } = v.fields name := by
  cases v <;> rfl

open Doc (nameEvents)

/-- The event of a value makes its item, or fills the one its name has made. -/
theorem Ready.scalar (hr : Ready cx down c) (name : Option Bytes) (v : Scalar F) :
    ∃ cx₁, (nameEvents name ++ [v.event]).foldlM Context.jsonCallback cx = some cx₁ ∧
      Made cx cx₁ down c (v.fields name) ∧ Ready cx₁ false cx.heap.size := by
  cases name with
  | none =>
    obtain ⟨cx₁, hv, hm, hk, hd⟩ := hr.value v.write
    rw [show v.write initJsonItem = v.fields none from v.write_named none] at hm
    refine ⟨cx₁, ?_, hm, hm.ready hk hd⟩
    simp [nameEvents, v.callback, hv, hm.keepHead]
  | some name =>
    obtain ⟨cx₁, hn, hm₁, hk₁, hd₁⟩ := hr.key name
    obtain ⟨cx₂, hv, hm, hk, hd⟩ := hm₁.value hk₁ hd₁ v.write
    rw [v.write_named] at hm
    refine ⟨cx₂, ?_, hm, hm.ready hk hd⟩
    simp [nameEvents, hn, v.callback, hv, hm.keepHead]

theorem Ready.opened (hr : Ready cx down c) (name : Option Bytes) (kind : Kind) :
    ∃ cx₁, (nameEvents name ++ [kind.beginEvent]).foldlM Context.jsonCallback cx = some cx₁ ∧
      Made cx cx₁ down c (kind.fields name) ∧ Ready cx₁ true cx.heap.size := by
  cases name with
  | none =>
    obtain ⟨cx₁, hb, hm, hk, hd⟩ := hr.beginContainer kind.childType
    refine ⟨cx₁, ?_, hm, hm.ready hk hd⟩
    simp [nameEvents, kind.callback_begin, hb, hm.keepHead]
  | some name =>
    obtain ⟨cx₁, hn, hm₁, hk₁, -⟩ := hr.key name
    obtain ⟨cx₂, hb, hm, hk, hd⟩ := hm₁.beginContainer hk₁ kind.childType
    refine ⟨cx₂, ?_, hm, hm.ready hk hd⟩
    simp [nameEvents, hn, kind.callback_begin, hb, hm.keepHead]

/-- The items are in the heap, and the next one goes after the last of them. -/
structure Ran (cx cx' : Context F) (down : Bool) (c : ℕ) (t : Items F) : Prop where
  grown : Grown cx.heap cx'.heap down c t
  last : t = .nil ∧ cx' = cx ∨
    ∃ l, Ready cx' false l ∧ (cx'.heap.cell l).father = cx.heap.fatherFor down c

variable {cx₂ cx₃ : Context F} {child next : Items F}

omit [Zero F] in
theorem Made.father_after (hm : Made cx cx₁ down c f)
    (hg : Grown cx₁.heap cx₂.heap true cx.heap.size child) :
    (cx₂.heap.cell cx.heap.size).father = cx.heap.fatherFor down c := by
  rw [hg.linked, hm.grown.cell_new]
  rfl

omit [Zero F] in
theorem Made.ran (hm : Made cx cx₁ down c f)
    (hg : Grown cx₁.heap cx₂.heap true cx.heap.size child)
    (hr : Ready cx₂ false cx.heap.size) (hn : Ran cx₂ cx₃ false cx.heap.size next) :
    Ran cx cx₃ down c (.cons f child next) := by
  have hfather := hm.father_after hg
  refine ⟨.cons hm.before hm.grown hg hn.grown, .inr ?_⟩
  obtain ⟨-, rfl⟩ | ⟨l, hl, hlf⟩ := hn.last
  · exact ⟨_, hr, hfather⟩
  · exact ⟨l, hl, hlf.trans hfather⟩

omit [Zero F] in
/-- What follows a container still has its place when the container has got children. -/
theorem Made.free_after (hm : Made cx cx₁ down c f)
    (hg : Grown cx₁.heap cx₂.heap true cx.heap.size child) :
    cx₂.heap.Free false cx.heap.size := by
  refine ⟨?_, ?_⟩
  · have := (hm.free false).1
    rw [hg.size]
    omega
  · rw [hg.linked, hm.grown.cell_new]
    rfl

/-- Closing a container goes back to it, whether or not it has children. -/
theorem Ready.close (hr : Ready cx₁ true c) (hc : Ran cx₁ cx₂ true c child) (kind : Kind) :
    cx₂.jsonCallback kind.endEvent = some { cx₂ with
      head := some 0, current := some c, startDepth := false, keyUnder := false } := by
  have hend : cx₂.endContainer = some { cx₂ with
      current := some c, startDepth := false, keyUnder := false } ∧ cx₂.head = some 0 := by
    obtain ⟨-, rfl⟩ | ⟨l, hl, hlf⟩ := hc.last
    · exact ⟨by simp [Context.endContainer, hr.current, hr.startDepth], hr.head⟩
    · refine ⟨?_, hl.head⟩
      simp only [Heap.fatherFor, if_true] at hlf
      simp [Context.endContainer, hl.current, hl.startDepth, hlf]
  rw [kind.callback_end, hend.1]
  simp [Context.keepHead, hend.2]

theorem Made.closed (hm : Made cx cx₁ down c f) (hr : Ready cx₁ true cx.heap.size)
    (hc : Ran cx₁ cx₂ true cx.heap.size child) (kind : Kind) :
    ∃ cx₃, cx₂.jsonCallback kind.endEvent = some cx₃ ∧ cx₃.heap = cx₂.heap ∧
      Ready cx₃ false cx.heap.size :=
  ⟨_, hr.close hc kind, rfl, rfl, rfl, rfl, hm.free_after hc.grown, rfl⟩

/-- The events of members or elements append their items. -/
theorem Doc.run (d : Doc F) (hr : Ready cx down c) :
    ∃ cx', d.events.foldlM Context.jsonCallback cx = some cx' ∧ Ran cx cx' down c d.items := by
  induction d generalizing cx down c with
  | nil => exact ⟨cx, rfl, .refl hr.free, .inl ⟨rfl, rfl⟩⟩
  | scalar name v next ih =>
    obtain ⟨cx₁, hv, hm, hr₁⟩ := hr.scalar name v
    obtain ⟨cx₂, hn, hran⟩ := ih hr₁
    refine ⟨cx₂, ?_, hm.ran (.refl (hm.free true)) hr₁ hran⟩
    rw [Doc.events, List.append_cons, List.foldlM_append, hv]
    exact hn
  | node name kind child next ihc ihn =>
    obtain ⟨cx₁, hb, hm, hr₁⟩ := hr.opened name kind
    obtain ⟨cx₂, hc, hranc⟩ := ihc hr₁
    obtain ⟨cx₃, he, hheap, hr₃⟩ := hm.closed hr₁ hranc kind
    obtain ⟨cx₄, hn, hrann⟩ := ihn hr₃
    refine ⟨cx₄, ?_, hm.ran (hheap ▸ hranc.grown) hr₃ hrann⟩
    rw [Doc.events, List.append_cons, List.foldlM_append, hb, Option.bind_eq_bind,
      Option.bind_some, List.foldlM_append, hc, Option.bind_eq_bind, Option.bind_some,
      List.foldlM_cons, he]
    exact hn

theorem prefix_append_cons {α : Type} {pre l r : List α} {a : α} (h : pre <+: l ++ a :: r) :
    pre <+: l ∨ ∃ q, pre = l ++ a :: q ∧ q <+: r := by
  obtain hl | hl := List.prefix_or_prefix_of_prefix h (List.prefix_append l (a :: r))
  · exact .inl hl
  · obtain ⟨q, rfl⟩ := hl
    obtain rfl | ⟨q, rfl, hq⟩ :=
      List.prefix_cons_iff.mp ((List.prefix_append_right_inj l).mp h)
    · exact .inl (by simp)
    · exact .inr ⟨q, rfl, hq⟩

/-- What a prefix of the events does: the heap has grown by some items. -/
def Grows (cx : Context F) (pre : List (Event F)) (down : Bool) (c : ℕ) : Prop :=
  ∃ cx' t, pre.foldlM Context.jsonCallback cx = some cx' ∧
    Grown cx.heap cx'.heap down c t ∧ cx'.head = some 0

theorem Ready.grows_name (hr : Ready cx down c) {name : Option Bytes} {pre : List (Event F)}
    (hp : pre <+: nameEvents name) : Grows cx pre down c := by
  obtain rfl | hne := eq_or_ne pre []
  · exact ⟨cx, .nil, rfl, .refl hr.free, hr.head⟩
  cases name with
  | none => exact absurd (List.prefix_nil.mp hp) hne
  | some name =>
    obtain h | ⟨q, rfl, hq⟩ := List.prefix_cons_iff.mp hp
    · exact absurd h hne
    · obtain ⟨cx', hk, hm', -⟩ := hr.key name
      rw [List.prefix_nil] at hq
      subst hq
      refine ⟨cx', _, ?_, hm'.grown, hm'.head⟩
      rw [List.foldlM_cons, hk]
      rfl

/-- Every prefix of the events of members or elements leaves a part of their items. -/
theorem Doc.grows (d : Doc F) (hr : Ready cx down c) {pre : List (Event F)}
    (hp : pre <+: d.events) : Grows cx pre down c := by
  induction d generalizing cx down c pre with
  | nil =>
    rw [Doc.events, List.prefix_nil] at hp
    subst hp
    exact ⟨cx, .nil, rfl, .refl hr.free, hr.head⟩
  | scalar name v next ih =>
    obtain ⟨cx₁, hv, hm, hr₁⟩ := hr.scalar name v
    obtain hp | ⟨q, rfl, hq⟩ := prefix_append_cons hp
    · exact hr.grows_name hp
    · obtain ⟨cx₂, t, hrun, hg, hh⟩ := ih hr₁ hq
      refine ⟨cx₂, _, ?_, .cons hm.before hm.grown (.refl (hm.free true)) hg, hh⟩
      rw [List.append_cons, List.foldlM_append, hv]
      exact hrun
  | node name kind child next ihc ihn =>
    obtain ⟨cx₁, hb, hm, hr₁⟩ := hr.opened name kind
    obtain hp | ⟨q, rfl, hq⟩ := prefix_append_cons hp
    · exact hr.grows_name hp
    have hopen : (nameEvents name ++ kind.beginEvent :: q).foldlM Context.jsonCallback cx =
        q.foldlM Context.jsonCallback cx₁ := by
      rw [List.append_cons, List.foldlM_append, hb]
      rfl
    rw [Grows, hopen]
    obtain hq | ⟨r, rfl, hr'⟩ := prefix_append_cons hq
    · -- Inside the container: it has a part of its children, and no sibling.
      obtain ⟨cx₂, t, hrun, hg, hh⟩ := ihc hr₁ hq
      exact ⟨cx₂, _, hrun, .cons hm.before hm.grown hg (.refl (hm.free_after hg)), hh⟩
    · obtain ⟨cx₂, hc, hran⟩ := child.run hr₁
      obtain ⟨cx₃, he, hheap, hr₃⟩ := hm.closed hr₁ hran kind
      obtain ⟨cx₄, t, hrun, hg, hh⟩ := ihn hr₃ hr'
      refine ⟨cx₄, _, ?_, .cons hm.before hm.grown (hheap ▸ hran.grown) hg, hh⟩
      rw [List.foldlM_append, hc, Option.bind_eq_bind, Option.bind_some, List.foldlM_cons, he]
      exact hrun

/-! ## Whole documents -/

/-- The root of a document, before its first child. -/
theorem Kind.root (kind : Kind) :
    ∃ cx : Context F, Context.start.jsonCallback kind.beginEvent = some cx ∧ Ready cx true 0 ∧
      cx.heap.size = 1 ∧ cx.heap.cell 0 = ⟨kind.fields none, none, none, none⟩ := by
  refine ⟨{ keyUnder := false, startDepth := true, head := some 0, current := some 0
            heap := ((Context.start : Context F).heap.alloc (newCell none)).modify 0 fun i =>
              { i with toFields := { i.toFields with childType := kind.childType } } },
    ?_, ⟨rfl, rfl, rfl, ⟨Nat.zero_lt_one, rfl⟩, rfl⟩, rfl, rfl⟩
  rw [kind.callback_begin]
  rfl

omit [Zero F] in
/-- What has grown below the root is the whole heap. -/
theorem Grown.root {h h' : Heap F} {t : Items F} (hg : Grown h h' true 0 t)
    (hs : h.size = 1) (hc : h.cell 0 = ⟨f, none, none, none⟩) :
    Laid h' none 0 (.cons f t .nil) ∧ h'.size = (Items.cons f t .nil).count := by
  have hl := hg.laid
  have hsize := hg.size
  rw [hs] at hl hsize
  refine ⟨⟨?_, hl, trivial⟩, ?_⟩
  · rw [hg.linked, hc, hs]
    rfl
  · rw [hsize, Items.count, Items.count]
    omega

omit [Zero F] in
/-- Freeing a heap that holds one tree frees all of it. -/
theorem Laid.all_freed {h : Heap F} {t : Items F} (hl : Laid h none 0 t)
    (hs : h.size = t.count) :
    ∃ freed, h.freeJsonItem h.size (t.first 0) = some freed ∧
      freed.Perm (List.range h.size) := by
  obtain ⟨l, hfree, hperm⟩ := hl.freed hs.ge
  refine ⟨l, hfree, ?_⟩
  rw [List.range_eq_range', hs]
  exact hperm

/-- A whole document leaves its tree in memory, which is then all of it. -/
theorem Doc.run_root (kind : Kind) (d : Doc F) :
    ∃ cx, (Doc.node none kind d .nil).events.foldlM Context.jsonCallback Context.start =
        some cx ∧ cx.head = some 0 ∧ Laid cx.heap none 0 (Doc.node none kind d .nil).items ∧
      cx.heap.size = (Doc.node none kind d .nil).items.count := by
  obtain ⟨cx₀, hbegin, hr, hs, hc⟩ := kind.root (F := F)
  obtain ⟨cx₁, hrun, hran⟩ := d.run hr
  obtain ⟨hlaid, hsize⟩ := hran.grown.root hs hc
  refine ⟨{ cx₁ with head := some 0, current := some 0, startDepth := false, keyUnder := false },
    ?_, rfl, hlaid, hsize⟩
  change (kind.beginEvent :: (d.events ++ [kind.endEvent])).foldlM Context.jsonCallback _ = _
  rw [List.foldlM_cons, hbegin, Option.bind_eq_bind, Option.bind_some, List.foldlM_append, hrun]
  simp [hr.close hran kind]

/-- A part of a document leaves a tree in memory, or nothing. -/
theorem Doc.run_prefix (kind : Kind) (d : Doc F) {pre : List (Event F)}
    (hp : pre <+: (Doc.node none kind d .nil).events) :
    ∃ cx t, pre.foldlM Context.jsonCallback Context.start = some cx ∧
      cx.head = t.first 0 ∧ Laid cx.heap none 0 t ∧ cx.heap.size = t.count := by
  obtain rfl | ⟨q, rfl, hq⟩ := List.prefix_cons_iff.mp hp
  · exact ⟨Context.start, .nil, rfl, rfl, trivial, rfl⟩
  obtain rfl | hq := List.prefix_concat_iff.mp hq
  · obtain ⟨cx, hrun, hh, hl, hs⟩ := Doc.run_root kind d
    exact ⟨cx, (Doc.node none kind d .nil).items, hrun, hh, hl, hs⟩
  · obtain ⟨cx₀, hbegin, hr, hs, hc⟩ := kind.root (F := F)
    obtain ⟨cx, t, hpre, hg, hh⟩ := d.grows hr hq
    obtain ⟨hl, hsz⟩ := hg.root hs hc
    refine ⟨cx, .cons (kind.fields none) t .nil, ?_, hh, hl, hsz⟩
    rw [List.foldlM_cons, hbegin]
    exact hpre

/-- The events of a document build its tree, and after each of them a `free_json_item` of the
head frees every item that was allocated, each of them once. -/
theorem document_built (kind : Kind) (d : Doc F) :
    (∃ cx, (Doc.node none kind d .nil).events.foldlM Context.jsonCallback Context.start =
        some cx ∧ Holds cx.heap none cx.head (Doc.node none kind d .nil).items) ∧
    ∀ pre, pre <+: (Doc.node none kind d .nil).events →
      ∃ cx freed, pre.foldlM Context.jsonCallback Context.start = some cx ∧
        cx.heap.freeJsonItem cx.heap.size cx.head = some freed ∧
        freed.Perm (List.range cx.heap.size) := by
  refine ⟨?_, fun pre hp => ?_⟩
  · obtain ⟨cx, hrun, hh, hl, -⟩ := Doc.run_root kind d
    refine ⟨cx, hrun, ?_⟩
    rw [hh]
    exact hl.holds
  · obtain ⟨cx, t, hrun, hh, hl, hs⟩ := Doc.run_prefix kind d hp
    obtain ⟨freed, hfree, hperm⟩ := hl.all_freed hs
    refine ⟨cx, freed, hrun, ?_, hperm⟩
    rw [hh]
    exact hfree

end Runs

end ApeServer.Json
