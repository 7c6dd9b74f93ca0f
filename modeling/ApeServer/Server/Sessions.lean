import ApeServer.Lib.KeyedList
import ApeServer.Lib.Steps
import ApeServer.Server.Users
import ApeServer.Sock.Delivery

/-!
# Sessions

The sessions of a user are a map from keys to values, and `sessions.length` is what the values
take together. `set_session` compares the sum with the limit as an `int`.
-/
namespace ApeServer.Ape

open Sock (Bytes toInt32 toInt32_of_range)
open KeyedList (Edit Holds held)

variable {x x' : User} {key val k : Bytes} {n : ℤ}

theorem replaceFirst_eq (l : List (Bytes × Bytes)) :
    replaceFirst key val l = KeyedList.replace Prod.fst (key, val) l := by
  induction l with
  | nil => rfl
  | cons p l ih => rw [replaceFirst, KeyedList.replace, ih]

theorem getSession_eq (hk : k.length ≤ 32) :
    getSession x k = (KeyedList.find Prod.fst k x.sessions).map Prod.snd :=
  if_neg (not_lt.mpr hk)

/-- How many bytes the values take. -/
def stored (l : List (Bytes × Bytes)) : ℕ := (l.map fun p => p.2.length).sum

theorem toInt32_add (a b : ℤ) : toInt32 (a + toInt32 b) = toInt32 (a + b) := Int.add_bmod_bmod

/-- What a `set_session` that is not refused does. -/
theorem setSession_cases (h : setSession x key val = some x') :
    key.length ≤ 32 ∧ toInt32 (x.sessionsLength + val.length) ≤ maxSessionLength ∧
      ((∃ old, KeyedList.find Prod.fst key x.sessions = some old ∧
          x' = { x with
            sessions := KeyedList.replace Prod.fst (key, val) x.sessions
            sessionsLength := toInt32 (x.sessionsLength + val.length - old.2.length) }) ∨
        key ∉ x.sessions.map Prod.fst ∧
          x' = { x with
            sessions := (key, val) :: x.sessions
            sessionsLength := toInt32 (x.sessionsLength + val.length) }) := by
  simp only [setSession, toInt32_add] at h
  split at h
  · cases h
  · next hpass =>
    rw [not_or, not_lt, not_lt] at hpass
    obtain ⟨hkey, hlimit⟩ := hpass
    refine ⟨hkey, hlimit, ?_⟩
    split at h
    · next v hv =>
      cases h
      rw [getSession_eq hkey, Option.map_eq_some_iff] at hv
      obtain ⟨old, hold, rfl⟩ := hv
      have hdiff : toInt32 (x.sessionsLength + toInt32 (toInt32 val.length -
          toInt32 old.2.length)) = toInt32 (x.sessionsLength + val.length - old.2.length) := by
        simp only [toInt32, Int.add_bmod_bmod, Int.bmod_sub_bmod, Int.sub_bmod_bmod]
        rw [add_sub_assoc]
      refine .inl ⟨old, hold, ?_⟩
      rw [replaceFirst_eq, ← hdiff, toInt32_add]
    · next hv =>
      cases h
      rw [getSession_eq hkey, Option.map_eq_none_iff, KeyedList.find_eq_none] at hv
      exact .inr ⟨hv, rfl⟩

/-- A session that is set holds the value under the key, and what it held under the others. -/
theorem getSession_setSession (h : setSession x key val = some x') (k : Bytes) :
    getSession x' k = if k = key then some val else getSession x k := by
  obtain ⟨hkey, -, ⟨old, hold, rfl⟩ | ⟨hnew, rfl⟩⟩ := setSession_cases h
  · by_cases hk : k = key
    · subst hk
      rw [if_pos rfl, getSession_eq hkey,
        KeyedList.find_replace_self (b := (k, val)) (KeyedList.key_mem_of_find hold)]
      rfl
    · rw [if_neg hk, getSession, getSession]
      exact congrArg _ (congrArg _ (KeyedList.find_replace_of_ne (b := (key, val)) hk))
  · by_cases hk : k = key
    · simp [getSession, hk, hkey]
    · simp [getSession, hk, Ne.symm hk]

/-- What is stored after a `set_session`: the new value in the place of an old one. -/
theorem setSession_stored (h : setSession x key val = some x') :
    ∃ old ≤ stored x.sessions, stored x'.sessions + old = stored x.sessions + val.length ∧
      (x.sessionsLength = stored x.sessions →
        x'.sessionsLength = toInt32 (stored x'.sessions)) := by
  obtain ⟨-, -, ⟨p, hp, rfl⟩ | ⟨-, rfl⟩⟩ := setSession_cases h
  · have hsum : stored (KeyedList.replace Prod.fst (key, val) x.sessions) + p.2.length =
        stored x.sessions + val.length :=
      KeyedList.sum_replace (b := (key, val)) (fun p => p.2.length) hp
    have hold : p.2.length ≤ stored x.sessions :=
      KeyedList.le_sum_of_find (fun p => p.2.length) hp
    refine ⟨p.2.length, hold, hsum, fun hx => congrArg toInt32 ?_⟩
    show x.sessionsLength + val.length - p.2.length =
      stored (KeyedList.replace Prod.fst (key, val) x.sessions)
    omega
  · have hsum : stored ((key, val) :: x.sessions) = val.length + stored x.sessions := rfl
    refine ⟨0, Nat.zero_le _, ?_, fun hx => congrArg toInt32 ?_⟩
    · show stored ((key, val) :: x.sessions) + 0 = stored x.sessions + val.length
      omega
    · rw [hsum, hx, Nat.cast_add, add_comm]

/-- When `set_session` is refused. -/
theorem setSession_eq_none : setSession x key val = none ↔
    32 < key.length ∨ maxSessionLength < toInt32 (x.sessionsLength + val.length) := by
  simp only [setSession, toInt32_add]
  split
  · next h => exact ⟨fun _ => h, fun _ => rfl⟩
  · next h =>
    refine ⟨fun hn => ?_, fun hn => absurd hn h⟩
    split at hn <;> cases hn

/-! ### The calls -/

def clearSessions (x : User) : User := { x with sessions := [], sessionsLength := 0 }

/-- A call on the sessions of a user. -/
inductive SessionCall where
  | set (key val : Bytes)
  | get (key : Bytes)
  | clear

/-- A user, with what was done to its sessions, the last first. -/
structure Sessions where
  user : User
  log : List (Edit Bytes Bytes)

/-- A `set_session` that gives NULL does nothing. -/
def Sessions.call (s : Sessions) : SessionCall → Sessions
  | .set key val =>
    match setSession s.user key val with
    | some user => ⟨user, .put key val :: s.log⟩
    | none => s
  | .get _ => s
  | .clear => ⟨clearSessions s.user, .clear :: s.log⟩

def stepSessions (s : Sessions) (c : SessionCall) : Except Halt Sessions := .ok (s.call c)

theorem call_set {s : Sessions} (h : setSession s.user key val = some x') :
    s.call (.set key val) = ⟨x', .put key val :: s.log⟩ := by
  rw [Sessions.call, h]

theorem stepSessions_call (s : Sessions) (c : SessionCall) : stepSessions s c = .ok (s.call c) := rfl

/-- As an `int`, the number is over the limit if it is. -/
def Compared (n : ℤ) : Prop :=
  n ≤ maxSessionLength ∨ maxSessionLength < n % 2 ^ 32 ∧ n % 2 ^ 32 < 2 ^ 31

/-- A key that is refused, or a sum that is compared with the limit as it is. -/
def Counted (s : Sessions) : SessionCall → Prop
  | .set key val => 32 < key.length ∨ Compared (s.user.sessionsLength + val.length)
  | .get _ | .clear => True

/-- The store is the map that the calls made, within its limits. -/
structure Kept (s : Sessions) : Prop where
  map : ∀ k, getSession s.user k = held s.log k
  nodup : (s.user.sessions.map Prod.fst).Nodup
  keys : ∀ k ∈ s.user.sessions.map Prod.fst, k.length ≤ 32
  length : s.user.sessionsLength = stored s.user.sessions
  limit : s.user.sessionsLength ≤ maxSessionLength

variable {s : Sessions} {c : SessionCall}

theorem toInt32_le_iff : toInt32 n ≤ maxSessionLength ↔
    n % 2 ^ 32 ≤ maxSessionLength ∨ 2 ^ 31 ≤ n % 2 ^ 32 := by
  rw [toInt32, Int.bmod_def, maxSessionLength]
  split <;> omega

theorem compared_of_lt (h : maxSessionLength < toInt32 n) : Compared n := by
  have hn := mt toInt32_le_iff.mpr (not_le.mpr h)
  rw [not_or, not_le, not_le] at hn
  exact .inr hn

/-- A sum that passes the comparison is within the limit, or more than an `int` holds. -/
theorem compared_of_le (h : toInt32 n ≤ maxSessionLength) :
    Compared n ↔ n ≤ maxSessionLength :=
  or_iff_left fun hn => (toInt32_le_iff.mp h).elim (not_le.mpr hn.1) (not_le.mpr hn.2)

theorem over_of_not_compared (h : toInt32 n ≤ maxSessionLength) (hc : ¬Compared n) :
    2 ^ 31 ≤ n := by
  have hn := mt (compared_of_le h).mpr hc
  have hmod := toInt32_le_iff.mp h
  rw [maxSessionLength] at hn hmod
  omega

/-- The store holds what the log says for the keys that are not refused, and nothing for the
others. -/
theorem getSession_of_keys (h : ∀ k ∈ x.sessions.map Prod.fst, k.length ≤ 32) (k : Bytes) :
    getSession x k = (KeyedList.find Prod.fst k x.sessions).map Prod.snd := by
  by_cases hk : k.length ≤ 32
  · exact getSession_eq hk
  · have hnone : KeyedList.find Prod.fst k x.sessions = none :=
      KeyedList.find_eq_none.mpr fun hmem => hk (h k hmem)
    rw [hnone, getSession, if_pos (not_le.mp hk)]
    rfl

theorem Kept.holds (h : Kept s) : Holds Prod.fst Prod.snd s.user.sessions s.log :=
  ⟨h.nodup, fun k => (getSession_of_keys h.keys k).symm.trans (h.map k)⟩

theorem kept_of_holds (h : Holds Prod.fst Prod.snd s.user.sessions s.log)
    (hk : ∀ k ∈ s.user.sessions.map Prod.fst, k.length ≤ 32)
    (hl : s.user.sessionsLength = stored s.user.sessions)
    (hle : s.user.sessionsLength ≤ maxSessionLength) : Kept s :=
  ⟨fun k => (getSession_of_keys hk k).trans (h.find k), h.nodup, hk, hl, hle⟩

/-- The store as a map, whatever the length is. -/
theorem Kept.set_holds (h : Kept s) (hset : setSession s.user key val = some x') :
    Holds Prod.fst Prod.snd x'.sessions (.put key val :: s.log) ∧
      ∀ k ∈ x'.sessions.map Prod.fst, k.length ≤ 32 := by
  obtain ⟨hkey, -, ⟨old, hold, rfl⟩ | ⟨hnew, rfl⟩⟩ := setSession_cases hset
  · refine ⟨h.holds.replace (b := (key, val)) (KeyedList.key_mem_of_find hold), ?_⟩
    rw [KeyedList.map_replace]
    exact h.keys
  · exact ⟨h.holds.cons (a := (key, val)) hnew, List.forall_mem_cons.mpr ⟨hkey, h.keys⟩⟩

/-- A `set_session` that is not refused keeps the store if and only if the sum was compared as
it is. -/
theorem Kept.set_iff (h : Kept s) (hset : setSession s.user key val = some x') :
    Kept ⟨x', .put key val :: s.log⟩ ↔ Compared (s.user.sessionsLength + val.length) := by
  obtain ⟨-, hpass, -⟩ := setSession_cases hset
  obtain ⟨hholds, hkeys⟩ := h.set_holds hset
  obtain ⟨old, hold, hsum, hlength⟩ := setSession_stored hset
  have hlen := h.length
  have hlim := h.limit
  rw [maxSessionLength] at hlim
  constructor
  · intro hk
    have hle : (stored x'.sessions : ℤ) ≤ 102400 := hk.length ▸ hk.limit
    by_contra hc
    have := over_of_not_compared hpass hc
    omega
  · intro hc
    have hle := (compared_of_le hpass).mp hc
    rw [maxSessionLength] at hle
    have hx' : x'.sessionsLength = stored x'.sessions := by
      rw [hlength hlen]
      exact toInt32_of_range (by omega) (by omega)
    refine kept_of_holds hholds hkeys hx' ?_
    rw [maxSessionLength]
    show x'.sessionsLength ≤ 102400
    omega

theorem Kept.call_iff (h : Kept s) (c : SessionCall) : Kept (s.call c) ↔ Counted s c := by
  cases c with
  | set key val =>
    rw [Sessions.call, Counted]
    split
    · next x' hset =>
      have hkey : ¬32 < key.length := not_lt.mpr (setSession_cases hset).1
      rw [h.set_iff hset, or_iff_right hkey]
    · next hset =>
      refine ⟨fun _ => ?_, fun _ => h⟩
      exact (setSession_eq_none.mp hset).imp_right compared_of_lt
  | get key => exact ⟨fun _ => trivial, fun _ => h⟩
  | clear =>
    refine ⟨fun _ => trivial, fun _ => kept_of_holds .clear ?_ rfl ?_⟩
    · simp [Sessions.call, clearSessions]
    · show (0 : ℤ) ≤ maxSessionLength
      decide

theorem kept_of_empty (hs : x.sessions = []) (hl : x.sessionsLength = 0) : Kept ⟨x, []⟩ := by
  refine kept_of_holds ?_ ?_ ?_ ?_
  · rw [hs]
    exact .nil
  · simp [hs]
  · rw [hs, hl]
    rfl
  · rw [hl]
    decide

theorem kept_of_reach (hs : x.sessions = []) (hl : x.sessionsLength = 0)
    (h : Steps.Reach stepSessions Counted ⟨x, []⟩ s) : Kept s := by
  refine h.keeps Kept (kept_of_empty hs hl) fun s c s' hk hc hstep => ?_
  cases hstep
  exact (hk.call_iff c).mpr hc

/-- While the sums are compared as they are, the store is the map that the calls made, and it is
within its limits. The next call keeps it so if and only if its sum is compared so as well. What
is refused leaves the store. -/
theorem sessions_kept_iff (hs : x.sessions = []) (hl : x.sessionsLength = 0)
    (h : Steps.Reach stepSessions Counted ⟨x, []⟩ s) :
    Kept s ∧ (∀ c, Kept (s.call c) ↔ Counted s c) ∧
      ∀ key val, setSession s.user key val = none → s.call (.set key val) = s := by
  have hk := kept_of_reach hs hl h
  refine ⟨hk, hk.call_iff, fun key val hnone => ?_⟩
  rw [Sessions.call, hnone]

/-- A user without sessions. -/
def guest : User where
  next := none
  prev := none
  chan_foot := []
  pubid := []
  properties := []
  subuser := []
  nsub := 0
  sessions := []
  sessionsLength := 0
  cmdqueue := []
  idle := 0
  transport := .longpolling
  type := .human
  istmp := false
  ip := []
  sessid := []

theorem sessions_kept_pair : ∃ s : Sessions, Kept s ∧
    getSession s.user (bytes "a") = some (bytes "bc") ∧ s.user.sessionsLength = 2 ∧
    ∀ v : Bytes, v.length = 2 ^ 31 - 2 → ¬Kept (s.call (.set (bytes "d") v)) := by
  have hset : Counted ⟨guest, []⟩ (.set (bytes "a") (bytes "bc")) := .inr (.inl (by decide))
  obtain ⟨hk, hiff, -⟩ := sessions_kept_iff (x := guest) rfl rfl (.step .start hset rfl)
  refine ⟨_, hk, rfl, rfl, fun v hv hnext => ?_⟩
  have hcompared : Compared (2 + v.length) := ((hiff _).mp hnext).resolve_left (by decide)
  rw [hv] at hcompared
  revert hcompared
  unfold Compared maxSessionLength
  decide

/-- A value that fills the store, and then one whose sum with it is more than an `int` holds. -/
theorem fill_then_wrap {a b : Bytes} (hs : x.sessions = []) (hl : x.sessionsLength = 0)
    (ha : a.length = 102400) (hb : b.length = 2 ^ 31 - 102400) :
    ¬Kept (Sessions.call (Sessions.call ⟨x, []⟩ (.set (bytes "a") a)) (.set (bytes "b") b)) := by
  intro hnext
  have hpass : toInt32 (x.sessionsLength + a.length) = 102400 := by
    rw [hl, ha]
    decide
  have hcounted : Counted ⟨x, []⟩ (.set (bytes "a") a) := by
    refine .inr (.inl ?_)
    show x.sessionsLength + a.length ≤ 102400
    omega
  have hk := ((kept_of_empty hs hl).call_iff _).mpr hcounted
  have hsome : setSession x (bytes "a") a ≠ none := by
    rw [Ne, setSession_eq_none, hpass]
    decide
  obtain ⟨x', hx'⟩ := Option.ne_none_iff_exists'.mp hsome
  rw [call_set (s := ⟨x, []⟩) hx'] at hk hnext
  have hlength : x'.sessionsLength = 102400 := by
    obtain ⟨old, hold, hsum, -⟩ := setSession_stored hx'
    have hlen : x'.sessionsLength = stored x'.sessions := hk.length
    have hzero : stored x.sessions = 0 := congrArg stored hs
    omega
  have hcompared : Compared (x'.sessionsLength + b.length) :=
    ((hk.call_iff _).mp hnext).resolve_left (by decide)
  rw [hlength, hb] at hcompared
  revert hcompared
  unfold Compared maxSessionLength
  decide

theorem sum_wraps : ¬∀ (x : User) (s : Sessions), x.sessions = [] → x.sessionsLength = 0 →
    Steps.Reach stepSessions (fun _ _ => True) ⟨x, []⟩ s → Kept s := by
  intro hall
  have hlength : ∀ n, ∃ a : Bytes, a.length = n := fun n =>
    ⟨List.replicate n 0, List.length_replicate⟩
  obtain ⟨a, ha⟩ := hlength 102400
  obtain ⟨b, hb⟩ := hlength (2 ^ 31 - 102400)
  refine fill_then_wrap (x := guest) rfl rfl ha hb (hall guest _ rfl rfl ?_)
  exact .step (.step .start trivial (stepSessions_call _ _)) trivial (stepSessions_call _ _)

end ApeServer.Ape
