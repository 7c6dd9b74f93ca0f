import ApeServer.Server.Tick

/-!
# Runs of operations on the registries

The five containers agree with the live records after any sequence of the operations that
create and destroy users, subusers and channels, whatever the clock says.
-/
namespace ApeServer

open Sock (Bytes)
open Steps (ok_bind bind_ok Reach)

/-- An operation on the registries. -/
inductive RegOp where
  /-- `adduser` with no user allocated yet -/
  | allocUser (client : Fd) (host ip : Bytes)
  /-- `adduser` with the user already allocated -/
  | adduser (u : UserId)
  | deluser (u : UserId)
  | addsubuser (client : Fd) (channel : Bytes) (u : UserId)
  /-- `delsubuser` on a link of the list of a user -/
  | delsubuser (u : UserId) (i : SubId)
  | cmdJoin (cp : Callbackp)
  | cmdLeft (cp : Callbackp)
  | rmchan (c : ChanId)
  | checkTimeout
  /-- time passes -/
  | clock (time : ℤ)

namespace RegOp

def run (s : Ape) : RegOp → Except Halt Ape
  | allocUser client host ip => do return (← s.allocUser client host ip).2
  | adduser u => s.adduser u
  | deluser u => s.deluser u
  | addsubuser client channel u => do return (← s.addsubuser client channel u).2
  | delsubuser u i => s.delsubuser u i
  | cmdJoin cp => do return (← Ape.cmdJoin cp s).2
  | cmdLeft cp => do return (← Ape.cmdLeft cp s).2
  | rmchan c => s.rmchan c
  | checkTimeout => s.checkTimeout
  | clock time => .ok { s with time := time }

/-- The user a command is called for is live. -/
def Called (s : Ape) (cp : Callbackp) : Prop := cp.call_user.bind s.users ≠ none

/-- The operation is called on live records. -/
def Live (s : Ape) : RegOp → Prop
  | allocUser _ _ _ | checkTimeout | clock _ => True
  | adduser u | deluser u | addsubuser _ _ u => s.users u ≠ none
  | delsubuser u i => ∃ x, s.users u = some x ∧ i ∈ x.subuser
  | cmdJoin cp | cmdLeft cp => Called s cp
  | rmchan c => s.chans c ≠ none

instance (s : Ape) (op : RegOp) : Decidable (op.Live s) := by
  cases op <;> unfold Live <;> unfold Called <;> infer_instance

end RegOp

/-- The registries agree with the live records. -/
structure Registries (s : Ape) : Prop where
  /-- `hSessid` leads from the sessids of the live users to them -/
  sessid : ∀ k u, s.hSessid.seek k = some u ↔
    ∃ x, s.users u = some x ∧ strcaseeq k x.sessid = true
  /-- the list from `uHead` on has the live users, linked both ways -/
  listed : ∃ l : List UserId, l.Nodup ∧ s.uHead = l.head? ∧ (∀ u, u ∈ l ↔ s.users u ≠ none) ∧
    ∀ n u x, l[n]? = some u → s.users u = some x →
      x.next = l[n + 1]? ∧ x.prev = if n = 0 then none else l[n - 1]?
  /-- `hLusers` leads from the names of the live channels to them -/
  name : ∀ k c, s.hLusers.seek k = some c ↔
    ∃ y, s.chans c = some y ∧ strcaseeq k y.name = true
  /-- no `AUTODESTROY` channel is left without members -/
  auto : ∀ k c y, s.hLusers.seek k = some c → s.chans c = some y → y.autodestroy = true →
    y.head ≠ []
  /-- `hPubid` leads from the pubids of the live users and channels to their pipes -/
  pubid : ∀ k p, s.hPubid.seek k = some p ↔
    (∃ u x, p = .user u ∧ s.users u = some x ∧ strcaseeq k x.pubid = true) ∨
    ∃ c y, p = .channel c ∧ s.chans c = some y ∧ strcaseeq k y.pubid = true
  /-- the subusers of a user are counted, point back to it and come from different hosts -/
  subuser : ∀ u x, s.users u = some x → x.nsub = x.subuser.length ∧
    (∀ i ∈ x.subuser, ∃ y, s.subs i = some y ∧ y.user = some u) ∧
    (x.subuser.map fun i => (s.subs i).map Subuser.channel).Nodup

namespace Ape

variable {s s' : Ape}

theorem pubKey_some {r : Roster} {p : Pipe} {n : Bytes} : r.pubKey p = some n ↔
    (∃ u x, p = .user u ∧ r.users u = some x ∧ x.pubid = n) ∨
    ∃ c y, p = .channel c ∧ r.chans c = some y ∧ y.pubid = n := by
  cases p <;> simp [Roster.pubKey]

theorem registries_of_sound (h : s.roster.Sound) : Registries s where
  sessid k u := by
    refine (h.reg.sessid k u).trans ?_
    cases hx : s.users u with
    | none => simp [Roster.sessKey, roster, hx]
    | some x => simp [Roster.sessKey, roster, hx, User.links]
  listed := by
    obtain ⟨l, hl, hh, hm⟩ := h.wf.listed
    refine ⟨l, hl.nodup, hh, fun u => (hm u).trans (roster_live u), fun n u x hu hx => ?_⟩
    have h1 := hl.next_eq hu
    have h2 := hl.prev_eq hu
    simp only [Roster.nextOf, Roster.prevOf, roster_users hx, Option.bind_some] at h1 h2
    exact ⟨h1, h2⟩
  name k c := by
    refine (h.reg.name k c).trans ?_
    cases hy : s.chans c with
    | none => simp [Roster.nameKey, roster, hy]
    | some y => simp [Roster.nameKey, roster, hy, Channel.links]
  auto k c y _ hy ha hn := h.reg.auto c _ (roster_chans hy) ha (users_eq_nil.mpr hn)
  pubid k p := by
    refine (h.reg.pubid k p).trans ?_
    simp only [pubKey_some, roster, Option.map_eq_some_iff]
    constructor
    · rintro ⟨n, ⟨u, _, rfl, ⟨x, hx, rfl⟩, rfl⟩ | ⟨c, _, rfl, ⟨y, hy, rfl⟩, rfl⟩, hk⟩
      · exact .inl ⟨u, x, rfl, hx, hk⟩
      · exact .inr ⟨c, y, rfl, hy, hk⟩
    · rintro (⟨u, x, rfl, hx, hk⟩ | ⟨c, y, rfl, hy, hk⟩)
      · exact ⟨x.pubid, .inl ⟨u, x.links, rfl, ⟨x, hx, rfl⟩, rfl⟩, hk⟩
      · exact ⟨y.pubid, .inr ⟨c, y.links, rfl, ⟨y, hy, rfl⟩, rfl⟩, hk⟩
  subuser u x hx := by
    obtain ⟨h1, h2⟩ := h.reg.hosts u _ (roster_users hx)
    refine ⟨h1, fun i hi => own_live h.wf.owned hx hi, ?_⟩
    have hhost : s.roster.hostOf = fun i => (s.subs i).map Subuser.channel := by
      funext i
      simp only [Roster.hostOf, roster, Option.map_map]
      rfl
    rwa [hhost] at h2

/-! ### One operation -/

theorem called_live {cp : Callbackp} (h : RegOp.Called s cp) :
    ∃ u, cp.call_user = some u ∧ s.users u ≠ none := by
  unfold RegOp.Called at h
  cases hu : cp.call_user with
  | none => simp [hu] at h
  | some u => exact ⟨u, rfl, by simpa [hu] using h⟩

theorem run_sound (h : s.roster.Sound) {op : RegOp} (hlive : op.Live s)
    (hl : op.run s = .ok s') : s'.roster.Sound := by
  cases op with
  | allocUser client host ip =>
    obtain ⟨⟨u, t⟩, ht, hl⟩ := bind_ok hl
    cases hl
    exact allocUser_sound h ht
  | adduser u =>
    rw [adduser_roster hl]
    exact h
  | deluser u => exact deluser_sound h hl
  | addsubuser client channel u =>
    obtain ⟨⟨o, t⟩, ht, hl⟩ := bind_ok hl
    cases hl
    exact addsubuser_sound h ht
  | delsubuser u i =>
    obtain ⟨x, hx, hi⟩ := hlive
    exact delsubuser_sound h hx hi hl
  | cmdJoin cp =>
    obtain ⟨⟨flag, t⟩, ht, hl⟩ := bind_ok hl
    cases hl
    exact cmdJoin_sound h ht
  | cmdLeft cp =>
    obtain ⟨⟨flag, t⟩, ht, hl⟩ := bind_ok hl
    cases hl
    exact cmdLeft_sound h ht
  | rmchan c => exact rmchan_sound h hl
  | checkTimeout =>
    obtain ⟨t, ht, hs⟩ := checkTimeout_spec h
    rw [show s.checkTimeout = .ok s' from hl] at ht
    cases ht
    exact hs
  | clock time =>
    cases hl
    exact h

/-- An operation on live records finds every record it uses, and `check_timeout` ends. -/
theorem regOp_noFault (h : s.roster.Sound) {op : RegOp} (hlive : op.Live s) :
    NoFault (op.run s) := by
  cases op with
  | allocUser client host ip => exact .bind (allocUser_noFault h.wf) fun _ _ => .ok _
  | adduser u =>
    obtain ⟨x, hx⟩ := Option.ne_none_iff_exists'.mp hlive
    exact .bind (.of_completes ⟨x, user_eq hx⟩) fun _ _ => .ok _
  | deluser u =>
    obtain ⟨x, hx⟩ := Option.ne_none_iff_exists'.mp hlive
    exact .of_completes (deluser_completes h.wf hx)
  | addsubuser client channel u =>
    obtain ⟨x, hx⟩ := Option.ne_none_iff_exists'.mp hlive
    exact .bind (addsubuser_noFault h.wf hx) fun _ _ => .ok _
  | delsubuser u i =>
    obtain ⟨x, hx, hi⟩ := hlive
    obtain ⟨y, hy, hu⟩ := own_live h.wf.owned hx hi
    exact .of_completes (delsubuser_completes hx hy hu)
  | cmdJoin cp =>
    obtain ⟨u, hu, hx⟩ := called_live hlive
    exact .bind (cmdJoin_noFault h hu hx) fun _ _ => .ok _
  | cmdLeft cp =>
    obtain ⟨u, hu, hx⟩ := called_live hlive
    exact .bind (cmdLeft_noFault h hu hx) fun _ _ => .ok _
  | rmchan c =>
    obtain ⟨y, hy⟩ := Option.ne_none_iff_exists'.mp hlive
    exact .of_completes (rmchan_completes h.wf hy)
  | checkTimeout =>
    obtain ⟨t, ht, -⟩ := checkTimeout_spec h
    exact .of_completes ⟨t, ht⟩
  | clock time => exact .ok _

/-- In every state a run of operations reaches, the registries agree with the live records,
and no further operation, on live records, uses a freed one. -/
theorem registries_agree {rand : List (List.Vector (Fin 16) 32)} {io : ℕ → Bool} {time : ℤ}
    (h : Reach RegOp.run RegOp.Live (init rand io time) s) :
    Registries s ∧ ∀ op : RegOp, op.Live s → NoFault (op.run s) := by
  have hs : s.roster.Sound := h.keeps (fun s => s.roster.Sound) (init_sound rand io time)
    fun _ _ _ h hlive hl => run_sound h hlive hl
  exact ⟨registries_of_sound hs, fun op hlive => regOp_noFault hs hlive⟩

/-- A command of a user with a parameter. -/
def commandOf (u : UserId) (param : List JsonItem) : Callbackp :=
  { client := 5, param := param, call_user := some u, call_subuser := none, ip := [], host := [],
    cmd := [], transport := .longpolling, chl := 0 }

/-- The parameters of a `JOIN`. -/
def channelsParam (name : Bytes) : List JsonItem :=
  [.mk (some (bytes "channels")) .val (some name) 0 []]

/-- A user with two subusers joins a channel; a second user joins it later, and the first
one times out. -/
def joinAndExpire : List RegOp :=
  [.allocUser 5 (bytes "h") (bytes "1.1.1.1"), .adduser 0, .addsubuser 6 (bytes "g") 0,
    .cmdJoin (commandOf 0 (channelsParam (bytes "Room"))), .clock 50,
    .allocUser 7 (bytes "h") (bytes "2.2.2.2"),
    .cmdJoin (commandOf 4 (channelsParam (bytes "room"))), .checkTimeout]

theorem registries_agree_expired : ∃ s, Steps.runs RegOp.run RegOp.Live
    (init sixteenDraws (fun _ => true) 0) joinAndExpire = some s ∧
      (s.users 0).isNone = true ∧ (s.chans 3).map Channel.users = some [4] ∧ Registries s := by
  have h : ((Steps.runs RegOp.run RegOp.Live (init sixteenDraws (fun _ => true) 0)
      joinAndExpire).map fun s => ((s.users 0).isNone, (s.chans 3).map Channel.users)) =
      some (true, some [4]) := by decide +kernel
  obtain ⟨s, hs, hu⟩ := Option.map_eq_some_iff.mp h
  obtain ⟨h1, h2⟩ := Prod.mk.inj hu
  exact ⟨s, hs, h1, h2, (registries_agree (.of_runs .start hs)).1⟩

end Ape

end ApeServer
