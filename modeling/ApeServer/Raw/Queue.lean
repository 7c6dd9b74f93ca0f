import ApeServer.Raw.SendBody

/-!
# The queue of a subuser

What the two pools are for: a list of low raws and a list of high raws. Every run of
posts and sends on the cells refines a run on these lists.
-/
namespace ApeServer.RawPool

open Sock (Bytes)

variable {t : ApeTransports} {transport : Transport} {ietf06 : Bool}

/-- The raws posted since the last send, each list in posting order. -/
structure Queue where
  low : List Raw
  high : List Raw

namespace Queue

def empty : Queue := ⟨[], []⟩

def post (q : Queue) (raw : Raw) : Queue :=
  match raw.priority with
  | .lo => { q with low := q.low ++ [raw] }
  | .hi => { q with high := q.high ++ [raw] }

/-- The order in which a send writes the queue. -/
def drain (q : Queue) : List Raw := q.high.reverse ++ q.low

theorem drain_post (q : Queue) (raw : Raw) : (q.post raw).drain.Perm (q.drain ++ [raw]) := by
  unfold post drain
  cases raw.priority with
  | lo => simp
  | hi => simpa using (List.perm_append_singleton raw (q.high.reverse ++ q.low)).symm

end Queue

/-- `raw_pools` of `s` represent the queue `q`. -/
def Represents (s : Sub) (q : Queue) : Prop := Inv s.pools q.low q.high

theorem emptied_stores {mem mem' : List Cell} {p : Pool} {chain : List ℕ} {raws : List Raw}
    (h : Stores mem p chain raws) (hh : Holds mem' chain (fill [])) :
    Stores mem' { p with nraw := 0, rawfoot := p.rawhead } chain [] where
  holds := hh
  size := h.size
  nraw := rfl
  room := Nat.lt_of_le_of_lt (Nat.zero_le _) h.room
  head := h.head
  foot := h.head

theorem preamble_some {s : Sub} {q : Queue} (h : Represents s q) (hne : q.drain ≠ [])
    (p : Option Padding) (transport : Transport) (ietf06 : Bool) :
    ∃ before, preamble p transport ietf06 s = some before := by
  by_cases ht : transport = .websocketIetf
  · simp [preamble, ht, rawsSize_eq h hne]
  · simp [preamble, ht]

/-- A send writes what precedes the body, the body and the right padding, and empties
both pools. -/
theorem sendRaws_drain (t : ApeTransports) (transport : Transport) (ietf06 : Bool) {s : Sub}
    {q : Queue} (h : Represents s q) (hne : q.drain ≠ []) :
    ∃ before out s', preamble (transportGetProperties t transport) transport ietf06 s =
        some before ∧ sendRaws t transport ietf06 s = some (out, s') ∧
      out.flatten = before.flatten ++ body q.drain ++
        ((transportGetProperties t transport).bind Padding.right).getD [] ∧
      Represents s' .empty := by
  obtain ⟨before, hb⟩ := preamble_some h hne (transportGetProperties t transport)
    transport ietf06
  obtain ⟨⟨cl, ch, hl, hh, hd⟩, htot⟩ := h
  have hlow : q.low.length < cl.length := by rw [← hl.nraw, ← hl.size]; exact hl.room
  have hhigh : q.high.length < ch.length := by rw [← hh.nraw, ← hh.size]; exact hh.room
  have hnz : s.pools.nraw ≠ 0 := by
    intro hz
    rw [htot, hl.nraw, hh.nraw] at hz
    have h1 : q.low = [] := List.length_eq_zero_iff.mp (by omega)
    have h2 : q.high = [] := List.length_eq_zero_iff.mp (by omega)
    simp [Queue.drain, h1, h2] at hne
  set right := (transportGetProperties t transport).bind Padding.right with hright
  -- both walks end with every cell of both chains empty
  have hloop : ∃ mem', sendLoop right s.pools.low s.pools.mem (firstPool s.pools).1
        (firstPool s.pools).2 = some (emit right q.drain, mem') ∧
      Holds mem' ch (fill []) ∧ Holds mem' cl (fill []) := by
    rw [firstPool, hh.nraw]
    by_cases hz : q.high = []
    · have hh' := hh.holds
      rw [hz] at hh'
      obtain ⟨mem', he, hcl, hlen, hkeep⟩ := sendLoop_forward right s.pools.low
        (above_zero q.low ▸ hl.holds) (Nat.zero_le _) hlow
      refine ⟨mem', ?_, hh'.frame (by omega) fun b hb => hkeep b fun hm => hd hm hb, hcl⟩
      simpa [hz, hl.head, Queue.drain] using he
    · have hpos : 0 < q.high.length := List.length_pos_iff.mpr hz
      obtain ⟨a, ha⟩ : ∃ a, ch[q.high.length]? = some a := ⟨_, List.getElem?_eq_getElem hhigh⟩
      obtain ⟨cell, hc, -, -, hprev⟩ := hh.holds.get ha
      have hfoot : s.pools.high.rawfoot = some a := by rw [hh.foot, hh.nraw, ha]
      have hb := below_length q.high
      rw [show q.high.length = q.high.length - 1 + 1 by omega] at hb
      obtain ⟨mem', he, hch, hcl⟩ := sendLoop_backward right (hb ▸ hh.holds)
        (by omega) hhigh hl hd
      refine ⟨mem', ?_, hch, hcl⟩
      rw [if_pos (by omega)]
      simp only [hfoot, Option.bind_some, hc, hprev, if_neg (show q.high.length ≠ 0 by omega), he]
      rw [show q.high.length - 1 + 1 = q.high.length by omega, List.take_length, Queue.drain]
  obtain ⟨mem', he, hch, hcl⟩ := hloop
  refine ⟨before, before ++ bytes "[" :: emit right q.drain, emptied s mem', hb, ?_, ?_,
    ⟨⟨cl, ch, emptied_stores hl hcl, emptied_stores hh hch, hd⟩, rfl⟩⟩
  · simp only [sendRaws, hnz, ↓reduceIte, hb, Option.bind_eq_bind, Option.bind_some, he,
      ← hright, Option.pure_def]
  · simp [emit_flatten hne, body]

theorem sendRaws_empty {s : Sub} (h : Represents s .empty) :
    sendRaws t transport ietf06 s = some ([], s) := by
  obtain ⟨⟨cl, ch, hl, hh, -⟩, htot⟩ := h
  have hz : s.pools.nraw = 0 := by
    rw [htot, hl.nraw, hh.nraw]
    rfl
  simp [sendRaws, hz]

inductive Op where
  | post (raw : Raw)
  | send (transport : Transport) (ietf06 : Bool)

/-- The run of `ops` from a subuser that represents `q`: every call returns, the
representation holds before and after each of them, and each send that finds a raw
writes exactly the body of the queue between its preamble and its right padding. -/
def Serves (t : ApeTransports) (s : Sub) (q : Queue) : List Op → Prop
  | [] => Represents s q
  | .post raw :: ops => Represents s q ∧ ∃ pools, postRawSub raw s.pools = some pools ∧
      Serves t { s with pools } (q.post raw) ops
  | .send transport ietf06 :: ops => Represents s q ∧ ∃ out s',
      sendRaws t transport ietf06 s = some (out, s') ∧
      (q.drain = [] → out = []) ∧
      (q.drain ≠ [] → ∃ before,
        preamble (transportGetProperties t transport) transport ietf06 s = some before ∧
        out.flatten = before.flatten ++ body q.drain ++
          ((transportGetProperties t transport).bind Padding.right).getD []) ∧
      Serves t s' .empty ops

/-- The raws of each send and those still queued at the end. -/
def batches (q : Queue) : List Op → List (List Raw) × Queue
  | [] => ([], q)
  | .post raw :: ops => batches (q.post raw) ops
  | .send _ _ :: ops => (q.drain :: (batches .empty ops).1, (batches .empty ops).2)

def posted : List Op → List Raw
  | [] => []
  | .post raw :: ops => raw :: posted ops
  | .send _ _ :: ops => posted ops

/-- Written and still queued raws are the posted ones, each once. -/
theorem batches_perm (q : Queue) (ops : List Op) :
    ((batches q ops).1.flatten ++ (batches q ops).2.drain).Perm (q.drain ++ posted ops) := by
  induction ops generalizing q with
  | nil => simp [batches, posted]
  | cons op ops ih =>
    cases op with
    | post raw =>
      have hp := (q.drain_post raw).append_right (posted ops)
      simpa [batches, posted] using (ih (q.post raw)).trans hp
    | send transport ietf06 =>
      have he := (ih .empty).append_left q.drain
      simpa [batches, posted, Queue.drain, Queue.empty, List.append_assoc] using he

theorem serves_of_represents (t : ApeTransports) (ops : List Op) :
    ∀ {s : Sub} {q : Queue}, Represents s q → Serves t s q ops := by
  induction ops with
  | nil => exact fun h => h
  | cons op ops ih =>
    intro s q h
    cases op with
    | post raw =>
      obtain ⟨pools, hp, hinv⟩ := postRawSub_inv raw h
      refine ⟨h, pools, hp, ih ?_⟩
      unfold Represents Queue.post
      cases hpr : raw.priority <;> simpa [hpr] using hinv
    | send transport ietf06 =>
      refine ⟨h, ?_⟩
      by_cases hne : q.drain = []
      · have hq : q = .empty := by
          simp only [Queue.drain, List.append_eq_nil_iff, List.reverse_eq_nil_iff] at hne
          cases q
          simp_all [Queue.empty]
        subst hq
        exact ⟨[], s, sendRaws_empty h, fun _ => rfl, fun hc => absurd hne hc, ih h⟩
      · obtain ⟨before, out, s', hb, hs, hout, hr⟩ := sendRaws_drain t transport ietf06 h
          hne
        exact ⟨out, s', hs, fun hc => absurd hc hne, fun _ => ⟨before, hb, hout⟩, ih hr⟩

/-- Every run of posts and sends of a new subuser writes each posted raw once, in the
order of the queue, and keeps the representation of its pools. -/
theorem posts_and_sends_exact (t : ApeTransports) (ops : List Op) :
    Serves t newSub .empty ops ∧
      ((batches .empty ops).1.flatten ++ (batches .empty ops).2.drain).Perm (posted ops) :=
  ⟨serves_of_represents t ops newPools_inv, batches_perm .empty ops⟩

/-- On an empty queue not even the brackets are written. -/
theorem send_empty_writes_nothing :
    ¬ ∃ out s' before after, sendRaws
        (transportStart (bytes "f") ⟨⟨none, none⟩, ⟨none, none⟩, ⟨none, none⟩, ⟨none, none⟩,
          ⟨none, none⟩⟩) .longpolling false newSub = some (out, s') ∧
      out.flatten = before ++ body [] ++ after := by
  rintro ⟨out, s', before, after, hs, hout⟩
  rw [sendRaws_empty (s := newSub) newPools_inv] at hs
  obtain ⟨rfl, rfl⟩ := Prod.mk.inj (Option.some.inj hs)
  have hl := congrArg List.length hout
  simp [body, bytes] at hl

end ApeServer.RawPool
