import ApeServer.Server.Sound

/-!
# Sessids and pubids

A pubid is published, a sessid is the secret of one user: no live identifier is used twice, as
long as every user that is allocated gets two different ones. `adduser` draws the pubid of a
user before its sessid is in a table, so the two may be the same.
-/
namespace ApeServer

open Sock (Bytes)
open Steps (ok_bind bind_ok Reach)

namespace Roster

variable {r r' : Roster} {u : UserId} {c : ChanId} {x x' : UserLinks} {y y' : ChanLinks}

/-- Every identifier is found in the table of its kind, and no sessid is a pubid. -/
structure Ids (r : Roster) : Prop where
  sessid : r.hSessid.Indexes r.sessKey
  pubid : r.hPubid.Indexes r.pubKey
  apart : ∀ u p k, r.sessKey u = some k → r.pubKey p ≠ some k
  sessLength : ∀ u k, r.sessKey u = some k → k.length = 32
  pubLength : ∀ p k, r.pubKey p = some k → k.length = 32

theorem Ids.congr (h : r.Ids) (h1 : r'.hSessid = r.hSessid) (h2 : r'.hPubid = r.hPubid)
    (k1 : r'.sessKey = r.sessKey) (k2 : r'.pubKey = r.pubKey) : r'.Ids where
  sessid := by
    rw [h1, k1]
    exact h.sessid
  pubid := by
    rw [h2, k2]
    exact h.pubid
  apart := by
    rw [k1, k2]
    exact h.apart
  sessLength := by
    rw [k1]
    exact h.sessLength
  pubLength := by
    rw [k2]
    exact h.pubLength

/-! ### Changes that touch no identifier -/

theorem Ids.setUser (h : r.Ids) (hx : r.users u = some x) (hs : x'.sessid = x.sessid)
    (hp : x'.pubid = x.pubid) : (r.setUser u x').Ids := by
  refine h.congr rfl rfl ?_ ?_
  · rw [sessKey_setUser, hs, ← sessKey_eq hx, Function.update_eq_self]
  · rw [pubKey_setUser, hp, ← userKey_eq hx, Function.update_eq_self]

theorem Ids.setChan (h : r.Ids) (hy : r.chans c = some y) (hp : y'.pubid = y.pubid) :
    (r.setChan c y').Ids := by
  refine h.congr rfl rfl rfl ?_
  rw [pubKey_setChan, hp, ← chanKey_eq hy, Function.update_eq_self]

theorem Ids.link (h : r.Ids) (hx : r.users u = some x) (hy : r.chans c = some y) :
    (r.link u x c y).Ids := by
  have h1 : (r.setChan c { y with users := u :: y.users }).Ids := h.setChan hy rfl
  exact h1.setUser hx rfl rfl

theorem Ids.addSub (h : r.Ids) (hx : r.users u = some x) (host : Bytes) :
    (r.addSub u x host).Ids :=
  h.congr rfl rfl (sessKey_setUser.trans (sessKey_write hx rfl))
    (pubKey_setUser.trans (userKey_write hx rfl))

theorem Ids.dropSub (h : r.Ids) (hx : r.users u = some x) (i : SubId) (v : Option SubLinks) :
    (r.dropSub u x i v).Ids :=
  h.congr rfl rfl (sessKey_setUser.trans (sessKey_write hx rfl))
    (pubKey_setUser.trans (userKey_write hx rfl))

/-! ### Identifiers that are given up -/

theorem erased {α : Type} [DecidableEq α] {key : α → Option Bytes} {a b : α} {k : Bytes}
    (h : Function.update key a none b = some k) : key b = some k := by
  by_cases hb : b = a
  · subst hb
    simp at h
  · rwa [Function.update_of_ne hb] at h

theorem Ids.freeChan (h : r.Ids) (hy : r.chans c = some y) : (r.freeChan c y).Ids where
  sessid := h.sessid
  pubid := by
    rw [pubKey_freeChan]
    exact h.pubid.erase (chanKey_eq hy)
  apart u p k hu hp := by
    rw [pubKey_freeChan] at hp
    exact h.apart u p k hu (erased hp)
  sessLength := h.sessLength
  pubLength p k hp := by
    rw [pubKey_freeChan] at hp
    exact h.pubLength p k (erased hp)

theorem Ids.left (h : r.Ids) (u : UserId) (c : ChanId) : (r.left u c).Ids := by
  unfold Roster.left
  split
  · next x y hx hy =>
    have h1 : (r.setUser u { x with chan_foot := x.chan_foot.erase c }).Ids :=
      h.setUser hx rfl rfl
    split
    · split
      · rw [freeChan_unlink]
        exact h1.freeChan hy
      · exact h1.setChan hy rfl
    · exact h
  · exact h

theorem Ids.rmchan (h : r.Ids) (hw : r.Wf) (hy : r.chans c = some y) : (r.rmchan c y).Ids := by
  unfold Roster.rmchan
  split
  · exact h.freeChan hy
  · have h1 : (r.setChan c { y with autodestroy := false }).Ids := h.setChan hy rfl
    have hw1 : (r.setChan c { y with autodestroy := false }).Wf := hw.setChan hy rfl
    have h2 := leaveAll_chan hw1 (Function.update_self ..) rfl rfl
    exact (foldl_keeps Ids (fun _ v h => h.left v c) _ h1).freeChan h2

theorem Ids.dropUser (h : r.Ids) (hx : r.users u = some x) : (r.dropUser u x).Ids where
  sessid := by
    rw [sessKey_dropUser]
    exact h.sessid.erase (sessKey_eq hx)
  pubid := by
    rw [pubKey_dropUser]
    exact h.pubid.erase (userKey_eq hx)
  apart v p k hv hp := by
    rw [sessKey_dropUser] at hv
    rw [pubKey_dropUser] at hp
    exact h.apart v p k (erased hv) (erased hp)
  sessLength v k hv := by
    rw [sessKey_dropUser] at hv
    exact h.sessLength v k (erased hv)
  pubLength p k hp := by
    rw [pubKey_dropUser] at hp
    exact h.pubLength p k (erased hp)

/-! ### New identifiers -/

theorem added {α : Type} [DecidableEq α] {key : α → Option Bytes} {a b : α} {n k : Bytes}
    (h : Function.update key a (some n) b = some k) : k = n ∨ key b = some k := by
  by_cases hb : b = a
  · subst hb
    simp only [Function.update_self, Option.some.injEq] at h
    exact .inl h.symm
  · rw [Function.update_of_ne hb] at h
    exact .inr h

/-- A string that names nobody is no identifier. -/
theorem Ids.not_sessid (h : r.Ids) {n : Bytes} (hn : r.hSessid.seek n = none) (u : UserId) :
    r.sessKey u ≠ some n := by
  intro hu
  rw [h.sessid.seek_key hu] at hn
  cases hn

theorem Ids.not_pubid (h : r.Ids) {n : Bytes} (hn : r.hPubid.seek n = none) (p : Pipe) :
    r.pubKey p ≠ some n := by
  intro hp
  rw [h.pubid.seek_key hp] at hn
  cases hn

theorem pubKey_addChan {pubid name : Bytes} {auto : Bool} :
    (r.addChan pubid name auto).pubKey =
      Function.update r.pubKey (.channel r.fresh) (some pubid) := by
  funext p
  cases p with
  | user v => simp [pubKey, Roster.addChan]
  | channel d =>
    by_cases hd : d = r.fresh
    · subst hd
      simp [pubKey, Roster.addChan]
    · simp [pubKey, Roster.addChan, hd]
  | proxy => simp [pubKey]
  | custom => simp [pubKey]

theorem Ids.addChan (h : r.Ids) (hw : r.Wf) {pubid : Bytes} (hl : pubid.length = 32)
    (hs : r.hSessid.seek pubid = none) (hp : r.hPubid.seek pubid = none) (name : Bytes)
    (auto : Bool) : (r.addChan pubid name auto).Ids where
  sessid := h.sessid
  pubid := by
    rw [pubKey_addChan]
    exact h.pubid.append (by simp [pubKey, (hw.bound _ le_rfl).2.2]) hp
  apart u p k hu hk := by
    rw [pubKey_addChan] at hk
    obtain rfl | hk := added hk
    · exact h.not_sessid hs u hu
    · exact h.apart u p k hu hk
  sessLength := h.sessLength
  pubLength p k hk := by
    rw [pubKey_addChan] at hk
    obtain rfl | hk := added hk
    · exact hl
    · exact h.pubLength p k hk

theorem Ids.addUser (h : r.Ids) (hw : r.Wf) {sessid pubid : Bytes} (hls : sessid.length = 32)
    (hlp : pubid.length = 32) (hss : r.hSessid.seek sessid = none)
    (hsp : r.hPubid.seek sessid = none) (hps : r.hSessid.seek pubid = none)
    (hpp : r.hPubid.seek pubid = none) (hne : sessid ≠ pubid) : (r.addUser sessid pubid).Ids where
  sessid := by
    rw [sessKey_addUser]
    exact h.sessid.append (by simp [sessKey, (hw.bound _ le_rfl).1]) hss
  pubid := by
    rw [pubKey_addUser]
    exact h.pubid.append (by simp [pubKey, (hw.bound _ le_rfl).1]) hpp
  apart u p k hu hk := by
    rw [sessKey_addUser] at hu
    rw [pubKey_addUser] at hk
    obtain rfl | hu := added hu
    · obtain rfl | hk := added hk
      · exact hne rfl
      · exact h.not_pubid hsp p hk
    · obtain rfl | hk := added hk
      · exact h.not_sessid hps u hu
      · exact h.apart u p k hu hk
  sessLength u k hu := by
    rw [sessKey_addUser] at hu
    obtain rfl | hu := added hu
    · exact hls
    · exact h.sessLength u k hu
  pubLength p k hk := by
    rw [pubKey_addUser] at hk
    obtain rfl | hk := added hk
    · exact hlp
    · exact h.pubLength p k hk

end Roster

/-! ## Runs -/

/-- A live identifier: the sessid of a user, or the pubid of a pipe. -/
inductive Ident where
  | sessid (u : UserId)
  | pubid (p : Pipe)
deriving DecidableEq

/-- An operation that creates or destroys users and channels, or moves a user between two
channels. -/
inductive IdOp where
  /-- `adduser` with no user allocated yet -/
  | allocUser (client : Fd) (host ip : Bytes)
  /-- `adduser` with the user already allocated -/
  | adduser (u : UserId)
  | deluser (u : UserId)
  | mkchan (name : Bytes) (autodestroy : Bool)
  | rmchan (c : ChanId)
  | join (u : UserId) (c : ChanId)
  | left (u : UserId) (c : ChanId)

namespace IdOp

def run (s : Ape) : IdOp → Except Halt Ape
  | allocUser client host ip => do return (← s.allocUser client host ip).2
  | adduser u => s.adduser u
  | deluser u => s.deluser u
  | mkchan name autodestroy => do return (← s.mkchan name autodestroy).2
  | rmchan c => s.rmchan c
  | join u c => s.join u c
  | left u c => s.left u c

/-- The first two free strings of the draws to come differ, where a user is allocated. -/
def Apart (s : Ape) : IdOp → Prop
  | allocUser _ _ _ => s.freeDraws[0]? ≠ s.freeDraws[1]?
  | _ => True

instance (s : Ape) (op : IdOp) : Decidable (op.Apart s) := by
  cases op <;> unfold Apart <;> infer_instance

end IdOp

namespace Ape

variable {s s' : Ape} {u : UserId} {c : ChanId}

/-- What an identifier is, while what it names is live. -/
def ident (s : Ape) : Ident → Option Bytes
  | .sessid u => (s.users u).map User.sessid
  | .pubid (.user u) => (s.users u).map User.pubid
  | .pubid (.channel c) => (s.chans c).map Channel.pubid
  | .pubid .proxy | .pubid .custom => none

theorem ident_sessid (u : UserId) : s.ident (.sessid u) = s.roster.sessKey u := by
  cases hx : s.users u <;> simp [ident, Roster.sessKey, roster, hx, User.links]

theorem ident_pubid (p : Pipe) : s.ident (.pubid p) = s.roster.pubKey p := by
  cases p with
  | user u => cases hx : s.users u <;> simp [ident, Roster.pubKey, roster, hx, User.links]
  | channel c => cases hy : s.chans c <;> simp [ident, Roster.pubKey, roster, hy, Channel.links]
  | proxy => rfl
  | custom => rfl

/-- The live identifiers are strings of 32 characters, and no two of them are the same. -/
structure Distinct (s : Ape) : Prop where
  length : ∀ a k, s.ident a = some k → k.length = 32
  distinct : ∀ a b k, s.ident a = some k → s.ident b = some k → a = b

theorem distinct_of_ids (h : s.roster.Ids) : Distinct s where
  length a k ha := by
    cases a with
    | sessid u => exact h.sessLength u k ((ident_sessid u).symm.trans ha)
    | pubid p => exact h.pubLength p k ((ident_pubid p).symm.trans ha)
  distinct a b k ha hb := by
    cases a with
    | sessid u =>
      rw [ident_sessid] at ha
      cases b with
      | sessid v =>
        rw [ident_sessid] at hb
        have := (h.sessid.seek_key ha).symm.trans (h.sessid.seek_key hb)
        rw [Option.some.inj this]
      | pubid p =>
        rw [ident_pubid] at hb
        exact absurd hb (h.apart u p k ha)
    | pubid p =>
      rw [ident_pubid] at ha
      cases b with
      | sessid v =>
        rw [ident_sessid] at hb
        exact absurd ha (h.apart v p k hb)
      | pubid q =>
        rw [ident_pubid] at hb
        have := (h.pubid.seek_key ha).symm.trans (h.pubid.seek_key hb)
        rw [Option.some.inj this]

theorem ids_keeps : Keeps Roster.Ids where
  left u c _ h := h.left u c
  dropSub _ h hx _ _ _ := h.dropSub hx _ _

theorem allocUser_ids {client : Fd} {host ip : Bytes} (hw : s.roster.Wf) (h : s.roster.Ids)
    (ha : s.freeDraws[0]? ≠ s.freeDraws[1]?) (hl : s.allocUser client host ip = .ok (u, s')) :
    s'.roster.Ids := by
  obtain ⟨t, o, halloc, hsub⟩ := allocUser_spec hl
  obtain ⟨sessid, pubid, ⟨ds, hds⟩, hr⟩ := halloc.names
  have hs : s.Free sessid := free_of_draws (by simp [hds])
  have hp : s.Free pubid := free_of_draws (by simp [hds])
  have hne : sessid ≠ pubid := by
    rintro rfl
    exact ha (by simp [hds])
  have ht : t.roster.Ids := by
    rw [hr]
    exact h.addUser hw hs.length hp.length hs.sessid hs.pubid hp.sessid hp.pubid hne
  obtain ⟨-, rfl⟩ | ⟨x, hx, -, hr'⟩ := addsubuser_roster hsub
  · exact ht
  · rw [hr']
    exact ht.addSub (roster_users hx) host

/-- Every operation keeps the roster well formed and its identifiers apart. -/
theorem idOp_ids {op : IdOp} (hw : s.roster.Wf) (h : s.roster.Ids) (ha : op.Apart s)
    (hl : op.run s = .ok s') : s'.roster.Wf ∧ s'.roster.Ids := by
  cases op with
  | allocUser client host ip =>
    obtain ⟨⟨u, t⟩, ht, hl⟩ := bind_ok hl
    cases hl
    exact ⟨allocUser_wf hw ht, allocUser_ids hw h ha ht⟩
  | adduser u =>
    rw [adduser_roster hl]
    exact ⟨hw, h⟩
  | deluser u =>
    obtain ⟨r, w, hr, -, hids, hx, -⟩ := deluser_roster ids_keeps hw h hl
    exact ⟨deluser_wf hw hl, hr ▸ hids.dropUser hx⟩
  | mkchan name auto =>
    obtain ⟨⟨o, t⟩, ht, hl⟩ := bind_ok hl
    cases hl
    refine ⟨mkchan_wf hw ht, ?_⟩
    obtain ⟨-, -, rfl⟩ | ⟨n, pubid, y, -, -, hfree, hr, -⟩ := mkchan_roster ht
    · exact h
    · rw [hr]
      exact h.addChan hw hfree.length hfree.sessid hfree.pubid n auto
  | rmchan c =>
    obtain ⟨y, hy, hr⟩ := rmchan_roster hw hl
    rw [hr]
    exact ⟨hw.rmchan (roster_chans hy), h.rmchan hw (roster_chans hy)⟩
  | join u c =>
    refine ⟨join_wf hw hl, ?_⟩
    obtain ⟨x, hx, ⟨-, rfl⟩ | ⟨-, y, hy, hr⟩⟩ := join_roster hl
    · exact h
    · rw [hr]
      exact h.link (roster_users hx) (roster_chans hy)
  | left u c =>
    refine ⟨left_wf hw hl, ?_⟩
    rw [left_roster hw hl]
    exact h.left u c

theorem init_ids (rand : List (List.Vector (Fin 16) 32)) (io : ℕ → Bool) (time : ℤ) :
    (init rand io time).roster.Ids := by
  have hreg := (init_sound rand io time).reg
  refine ⟨hreg.sessid, hreg.pubid, fun u p k hu => ?_, fun u k hu => ?_, fun p k hp => ?_⟩
  · cases hu
  · cases hu
  · cases p <;> cases hp

/-- Where the first two free strings are the same, so are the names of the new user. -/
theorem not_distinct_of_same {op : IdOp} (ha : ¬ op.Apart s) (hl : op.run s = .ok s') :
    ¬ Distinct s' := by
  cases op with
  | allocUser client host ip =>
    obtain ⟨⟨u, t'⟩, ht, hl⟩ := bind_ok hl
    cases hl
    obtain ⟨t, o, halloc, hsub⟩ := allocUser_spec ht
    obtain ⟨sessid, pubid, ⟨ds, hds⟩, hr⟩ := halloc.names
    obtain rfl : sessid = pubid := by
      have hsame := not_not.mp ha
      simpa [hds] using hsame
    have hsess : t.roster.sessKey s.fresh = some sessid := by
      rw [hr, Roster.sessKey_addUser]
      exact Function.update_self ..
    have hpub : t.roster.pubKey (.user s.fresh) = some sessid := by
      rw [hr, Roster.pubKey_addUser]
      exact Function.update_self ..
    have hkeys : t'.roster.sessKey = t.roster.sessKey ∧ t'.roster.pubKey = t.roster.pubKey := by
      obtain ⟨-, rfl⟩ | ⟨x, hx, -, hr'⟩ := addsubuser_roster hsub
      · exact ⟨rfl, rfl⟩
      · rw [hr']
        exact ⟨Roster.sessKey_setUser.trans (Roster.sessKey_write (roster_users hx) rfl),
          Roster.pubKey_setUser.trans (Roster.userKey_write (roster_users hx) rfl)⟩
    intro hd
    have hone : t'.ident (.sessid s.fresh) = some sessid := by rw [ident_sessid, hkeys.1, hsess]
    have htwo : t'.ident (.pubid (.user s.fresh)) = some sessid := by
      rw [ident_pubid, hkeys.2, hpub]
    cases hd.distinct _ _ _ hone htwo
  | _ => exact absurd trivial ha

/-- In every run in which each user that is allocated gets two different identifiers, the live
identifiers are pairwise distinct strings of 32 characters; and after a step that allocates a
user otherwise, they are not. -/
theorem identifiers_distinct {rand : List (List.Vector (Fin 16) 32)} {io : ℕ → Bool} {time : ℤ}
    (h : Reach IdOp.run (fun s op => op.Apart s) (init rand io time) s) :
    Distinct s ∧ ∀ (op : IdOp) s', ¬ op.Apart s → op.run s = .ok s' → ¬ Distinct s' := by
  have hids : s.roster.Wf ∧ s.roster.Ids := h.keeps (fun s => s.roster.Wf ∧ s.roster.Ids)
    ⟨init_wf rand io time, init_ids rand io time⟩
    fun _ _ _ h ha hl => idOp_ids h.1 h.2 ha hl
  exact ⟨distinct_of_ids hids.2, fun op s' => not_distinct_of_same⟩

/-- Two users and a channel, and the first user goes. -/
def comeAndGo : List IdOp :=
  [.allocUser 5 (bytes "h") (bytes "1.1.1.1"), .adduser 0, .mkchan (bytes "room") true,
    .allocUser 6 (bytes "h") (bytes "2.2.2.2"), .deluser 0]

theorem identifiers_distinct_gone : ∃ s, Steps.runs IdOp.run (fun s op => op.Apart s)
    (init sixteenDraws (fun _ => true) 0) comeAndGo = some s ∧
      (s.users 3).isSome = true ∧ Distinct s := by
  have h : ((Steps.runs IdOp.run (fun s op => op.Apart s) (init sixteenDraws (fun _ => true) 0)
      comeAndGo).map fun s => (s.users 3).isSome) = some true := by decide +kernel
  obtain ⟨s, hs, hu⟩ := Option.map_eq_some_iff.mp h
  exact ⟨s, hs, hu, (identifiers_distinct (.of_runs .start hs)).1⟩

/-- The same string is drawn twice in a row: a user is published under its own sessid. -/
theorem sessid_published : ∃ s, Reach IdOp.run (fun _ _ => True)
    (init [.replicate 32 0, .replicate 32 0] (fun _ => true) 0) s ∧
      s.ident (.sessid 0) = some (List.replicate 32 97) ∧
      s.ident (.pubid (.user 0)) = some (List.replicate 32 97) ∧ ¬ Distinct s := by
  have h : ((Steps.runs IdOp.run (fun _ _ => True)
      (init [.replicate 32 0, .replicate 32 0] (fun _ => true) 0)
      [.allocUser 5 (bytes "h") (bytes "1.1.1.1")]).map fun s =>
        (s.ident (.sessid 0), s.ident (.pubid (.user 0)))) =
      some (some (List.replicate 32 97), some (List.replicate 32 97)) := by decide +kernel
  obtain ⟨s, hs, hu⟩ := Option.map_eq_some_iff.mp h
  obtain ⟨h1, h2⟩ := Prod.mk.inj hu
  refine ⟨s, .of_runs .start hs, h1, h2, fun hd => ?_⟩
  cases hd.distinct _ _ _ h1 h2

end Ape

end ApeServer
