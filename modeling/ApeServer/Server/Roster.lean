import ApeServer.Lib.Chain
import ApeServer.Lib.Incidence
import ApeServer.Server.State

/-!
# The roster

What the server's tables and lists say about each other, without queues, sockets and
timers: who is a member of what, who owns which subuser, and which names lead to whom.
Every operation of the server is a composition of a few changes of the roster.
-/
namespace ApeServer

open Sock (Bytes)
open Incidence (Incident)

/-- The part of a user the registries speak of. -/
@[ext]
structure UserLinks where
  next : Option UserId
  prev : Option UserId
  chan_foot : List ChanId
  pubid : Bytes
  subuser : List SubId
  nsub : ℤ
  sessid : Bytes

@[ext]
structure SubLinks where
  user : Option UserId
  channel : Bytes

@[ext]
structure ChanLinks where
  pubid : Bytes
  users : List UserId
  autodestroy : Bool
  name : Bytes

structure Roster where
  users : UserId → Option UserLinks
  subs : SubId → Option SubLinks
  chans : ChanId → Option ChanLinks
  uHead : Option UserId
  hSessid : Htbl UserId
  hPubid : Htbl Pipe
  hLusers : Htbl ChanId
  fresh : ℕ

namespace Htbl

variable {α : Type} {t : Htbl α} {key : α → Option Bytes} {a : α} {n : Bytes}

/-- The table leads from the key of every record, and only from those, to the record. -/
def Indexes (t : Htbl α) (key : α → Option Bytes) : Prop :=
  ∀ k a, t.seek k = some a ↔ ∃ n, key a = some n ∧ strcaseeq k n = true

theorem strcaseeq_refl (k : Bytes) : strcaseeq k k = true := by simp [strcaseeq]

theorem strcaseeq_symm {k n : Bytes} (h : strcaseeq k n = true) : strcaseeq n k = true := by
  simp only [strcaseeq, decide_eq_true_eq] at h ⊢
  exact h.symm

theorem strcaseeq_trans {k m n : Bytes} (h : strcaseeq k m = true) (h' : strcaseeq m n = true) :
    strcaseeq k n = true := by
  simp only [strcaseeq, decide_eq_true_eq] at h h' ⊢
  exact h.trans h'

theorem Indexes.init : Indexes (init : Htbl α) fun _ => none := by
  intro k a
  simp [Htbl.init, seek]

theorem Indexes.seek_key (h : t.Indexes key) (ha : key a = some n) : t.seek n = some a :=
  (h n a).mpr ⟨n, ha, strcaseeq_refl n⟩

variable [DecidableEq α]

theorem Indexes.append (h : t.Indexes key) (ha : key a = none) (hn : t.seek n = none) :
    (t.append n a).Indexes (Function.update key a (some n)) := by
  intro k b
  have hseek : (t.append n a).seek k = if strcaseeq k n then some a else t.seek k := rfl
  rw [hseek]
  by_cases hk : strcaseeq k n = true
  · rw [if_pos hk]
    by_cases hb : b = a
    · subst hb
      simp [hk]
    · rw [Function.update_of_ne hb]
      refine ⟨fun he => absurd (Option.some.inj he).symm hb, fun ⟨m, hm, hkm⟩ => ?_⟩
      -- a second record under an equal key would already be in the table
      have := (h n b).mpr ⟨m, hm, strcaseeq_trans (strcaseeq_symm hk) hkm⟩
      rw [hn] at this
      cases this
  · rw [if_neg hk]
    by_cases hb : b = a
    · subst hb
      rw [Function.update_self]
      refine ⟨fun he => ?_, fun ⟨m, hm, hkm⟩ => absurd (Option.some.inj hm ▸ hkm) hk⟩
      obtain ⟨m, hm, -⟩ := (h k b).mp he
      rw [ha] at hm
      cases hm
    · rw [Function.update_of_ne hb]
      exact h k b

theorem Indexes.erase (h : t.Indexes key) (ha : key a = some n) :
    (t.erase n).Indexes (Function.update key a none) := by
  intro k b
  have hseek : (t.erase n).seek k = if strcaseeq k n then none else t.seek k := rfl
  rw [hseek]
  have hown : ∀ k, strcaseeq k n = true → t.seek k = some a := fun k hk => (h k a).mpr ⟨n, ha, hk⟩
  by_cases hb : b = a
  · subst hb
    rw [Function.update_self]
    by_cases hk : strcaseeq k n = true
    · simp [hk]
    · rw [if_neg hk]
      refine ⟨fun he => ?_, fun ⟨m, hm, _⟩ => by cases hm⟩
      obtain ⟨m, hm, hkm⟩ := (h k b).mp he
      rw [ha] at hm
      cases hm
      exact absurd hkm hk
  · rw [Function.update_of_ne hb]
    by_cases hk : strcaseeq k n = true
    · rw [if_pos hk]
      constructor
      · intro he
        cases he
      · intro hm
        have := (hown k hk).symm.trans ((h k b).mpr hm)
        exact absurd (Option.some.inj this).symm hb
    · rw [if_neg hk]
      exact h k b

end Htbl

namespace Roster

@[simps]
def setUser (r : Roster) (u : UserId) (x : UserLinks) : Roster :=
  { r with users := Function.update r.users u (some x) }

@[simps]
def setSub (r : Roster) (i : SubId) (y : SubLinks) : Roster :=
  { r with subs := Function.update r.subs i (some y) }

@[simps]
def setChan (r : Roster) (c : ChanId) (y : ChanLinks) : Roster :=
  { r with chans := Function.update r.chans c (some y) }

def foot (r : Roster) (u : UserId) : Option (List ChanId) := (r.users u).map UserLinks.chan_foot

def roll (r : Roster) (c : ChanId) : Option (List UserId) := (r.chans c).map ChanLinks.users

def own (r : Roster) (u : UserId) : Option (List SubId) := (r.users u).map UserLinks.subuser

def owners (r : Roster) (i : SubId) : Option (List UserId) :=
  (r.subs i).map fun y => y.user.toList

def nextOf (r : Roster) (u : UserId) : Option UserId := (r.users u).bind UserLinks.next

def prevOf (r : Roster) (u : UserId) : Option UserId := (r.users u).bind UserLinks.prev

def sessKey (r : Roster) (u : UserId) : Option Bytes := (r.users u).map UserLinks.sessid

def nameKey (r : Roster) (c : ChanId) : Option Bytes := (r.chans c).map ChanLinks.name

def pubKey (r : Roster) : Pipe → Option Bytes
  | .user u => (r.users u).map UserLinks.pubid
  | .channel c => (r.chans c).map ChanLinks.pubid
  | .proxy | .custom => none

/-- The host a subuser is connected through. -/
def hostOf (r : Roster) (i : SubId) : Option Bytes := (r.subs i).map SubLinks.channel

/-- `l` is the list of users, from `uHead` on. -/
def Lists (r : Roster) (l : List UserId) : Prop :=
  Chain.Linked r.nextOf r.prevOf l ∧ r.uHead = l.head? ∧ ∀ u, u ∈ l ↔ r.users u ≠ none

/-- Memberships and subusers agree on both sides, the list of users is a chain, and no
record sits at an address that has not been given out. -/
structure Wf (r : Roster) : Prop where
  member : Incident r.foot r.roll
  owned : Incident r.own r.owners
  listed : ∃ l, r.Lists l
  bound : ∀ n, r.fresh ≤ n → r.users n = none ∧ r.subs n = none ∧ r.chans n = none

/-- The tables lead to the live records, an `AUTODESTROY` channel has members, and the
subusers of a user are counted and come from different hosts. -/
structure Registered (r : Roster) : Prop where
  sessid : r.hSessid.Indexes r.sessKey
  pubid : r.hPubid.Indexes r.pubKey
  name : r.hLusers.Indexes r.nameKey
  auto : ∀ c y, r.chans c = some y → y.autodestroy = true → y.users ≠ []
  hosts : ∀ u x, r.users u = some x →
    x.nsub = x.subuser.length ∧ (x.subuser.map r.hostOf).Nodup

end Roster

end ApeServer
