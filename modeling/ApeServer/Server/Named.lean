import ApeServer.Server.Stages

/-!
# Sessids

In every state `hSessid` agrees with the users, whatever hooks and added commands do, as
long as they delete no user and leave the table in agreement.
-/
namespace ApeServer

open Sock (Bytes)
open Steps (ok_bind bind_ok foldlM_keeps Reach)

namespace Ape

variable {s s' t : Ape} {u : UserId} {i : SubId} {c : ChanId} {x x' : User} {y y' : Subuser}
  {cmds : Cmds}

/-- `hSessid` leads to the live users, and there is none at an address not given out. -/
structure Keyed (s : Ape) : Prop where
  sessid : s.hSessid.Indexes s.roster.sessKey
  bound : ∀ n, s.fresh ≤ n → s.users n = none

/-- A step that leaves the users their sessids, and the table as it is. -/
structure Named (s s' : Ape) : Prop where
  hSessid : s'.hSessid = s.hSessid
  sessid : ∀ u, (s'.users u).map User.sessid = (s.users u).map User.sessid
  fresh : s.fresh ≤ s'.fresh

theorem Still.named (h : Still s s') : Named s s' where
  hSessid := h.hSessid
  sessid u := by
    have := congrArg (Option.map Seat.sessid) (h.users u)
    rw [Option.map_map, Option.map_map] at this
    exact this
  fresh := h.fresh

theorem sessKey_users (u : UserId) : s.roster.sessKey u = (s.users u).map User.sessid := by
  simp only [Roster.sessKey, roster, Option.map_map]
  rfl

namespace Named

theorem refl : Named s s := ⟨rfl, fun _ => rfl, le_rfl⟩

theorem trans (h : Named s t) (h' : Named t s') : Named s s' :=
  ⟨h'.hSessid.trans h.hSessid, fun u => (h'.sessid u).trans (h.sessid u), h.fresh.trans h'.fresh⟩

theorem live (h : Named s s') (u : UserId) : s'.users u ≠ none ↔ s.users u ≠ none := by
  have := h.sessid u
  cases hx : s.users u <;> cases hx' : s'.users u <;> simp_all

theorem setUser (hx : s.users u = some x) (he : x'.sessid = x.sessid) :
    Named s (s.setUser u x') := ⟨rfl, map_setUser _ hx he, le_rfl⟩

theorem keyed (h : Named s s') (hk : s.Keyed) : s'.Keyed where
  sessid := by
    have : s'.roster.sessKey = s.roster.sessKey := by
      funext u
      rw [sessKey_users, sessKey_users, h.sessid]
    rw [this, h.hSessid]
    exact hk.sessid
  bound n hn := by
    by_contra hne
    exact (h.live n).mp hne (hk.bound n (h.fresh.trans hn))

end Named

/-- A named step that makes nobody temporary or known, and does not count either. -/
structure Steady (s s' : Ape) : Prop extends Named s s' where
  istmp : ∀ u, (s'.users u).map User.istmp = (s.users u).map User.istmp
  nConnected : s'.nConnected = s.nConnected

theorem Still.steady (h : Still s s') : Steady s s' := by
  refine ⟨h.named, fun u => ?_, h.nConnected⟩
  have hu := congrArg (Option.map Seat.istmp) (h.users u)
  rw [Option.map_map, Option.map_map] at hu
  exact hu

namespace Steady

theorem of_eq (hu : s'.users = s.users) (hh : s'.hSessid = s.hSessid)
    (hn : s'.nConnected = s.nConnected) (hf : s.fresh ≤ s'.fresh) : Steady s s' :=
  ⟨⟨hh, fun u => by rw [hu], hf⟩, fun u => by rw [hu], hn⟩

theorem refl : Steady s s := of_eq rfl rfl rfl le_rfl

theorem trans (h : Steady s t) (h' : Steady t s') : Steady s s' :=
  ⟨h.toNamed.trans h'.toNamed, fun u => (h'.istmp u).trans (h.istmp u),
    h'.nConnected.trans h.nConnected⟩

theorem setUser (hx : s.users u = some x) (he : x'.sessid = x.sessid) (ht : x'.istmp = x.istmp) :
    Steady s (s.setUser u x') := ⟨.setUser hx he, map_setUser _ hx ht, rfl⟩

theorem subuser (hx : s.users u = some x) (l : List SubId) (n : ℤ) :
    Steady s (s.setUser u { x with subuser := l, nsub := n }) := setUser hx rfl rfl

end Steady

/-- A steady step that marks nobody as active. -/
structure Lasting (s s' : Ape) : Prop extends Steady s s' where
  type : ∀ u, (s'.users u).map User.type = (s.users u).map User.type
  idle : ∀ u, (s'.users u).map User.idle = (s.users u).map User.idle
  time : s'.time = s.time

theorem Quiet.lasting (h : Quiet s s') : Lasting s s' := by
  refine ⟨h.still.steady, fun u => ?_, fun u => ?_, h.time⟩
  · have hu := congrArg (Option.map Seat.type) (h.users u)
    rw [Option.map_map, Option.map_map] at hu
    exact hu
  · have hu := congrArg (Option.map Seat.idle) (h.users u)
    rw [Option.map_map, Option.map_map] at hu
    exact hu

namespace Lasting

theorem of_eq (hu : s'.users = s.users) (hh : s'.hSessid = s.hSessid)
    (hn : s'.nConnected = s.nConnected) (hf : s.fresh ≤ s'.fresh) (ht : s'.time = s.time) :
    Lasting s s' := ⟨.of_eq hu hh hn hf, fun u => by rw [hu], fun u => by rw [hu], ht⟩

theorem refl : Lasting s s := of_eq rfl rfl rfl le_rfl rfl

theorem trans (h : Lasting s t) (h' : Lasting t s') : Lasting s s' :=
  ⟨h.toSteady.trans h'.toSteady, fun u => (h'.type u).trans (h.type u),
    fun u => (h'.idle u).trans (h.idle u), h'.time.trans h.time⟩

theorem subuser (hx : s.users u = some x) (l : List SubId) (n : ℤ) :
    Lasting s (s.setUser u { x with subuser := l, nsub := n }) :=
  ⟨.subuser hx l n, map_setUser _ hx rfl, map_setUser _ hx rfl, rfl⟩

end Lasting

/-- A sessid leads to a live user. -/
theorem Keyed.live (h : s.Keyed) {k : Bytes} (hk : s.hSessid.seek k = some u) :
    s.users u ≠ none := by
  obtain ⟨n, hn, -⟩ := (h.sessid k u).mp hk
  rw [sessKey_users] at hn
  intro hnone
  simp [hnone] at hn

/-! ### Deletion -/

theorem doDied_lasting (hl : s.doDied i = .ok s') : Lasting s s' := by
  obtain ⟨y, hy, -⟩ := bind_ok hl
  rw [doDied_eq (sub_ok hy)] at hl
  cases hl
  split
  · have h1 : Lasting s (s.setSub i { y with state := .adied, headersSent := false }) :=
      .of_eq rfl rfl rfl le_rfl rfl
    exact h1.trans Quiet.safeShutdown.lasting
  · exact .refl

theorem delsubuser_lasting (hl : s.delsubuser u i = .ok s') : Lasting s s' := by
  obtain ⟨y, -, hl⟩ := bind_ok hl
  obtain ⟨v, -, hl⟩ := bind_ok hl
  obtain ⟨x, hx, hl⟩ := bind_ok hl
  obtain ⟨h, hh, hl⟩ := bind_ok hl
  have h1 : Lasting s (s.setUser v { x with nsub := x.nsub - 1 }) :=
    .subuser (user_ok hx) x.subuser (x.nsub - 1)
  have h2 := h1.trans (.subuser (user_ok hh) (h.subuser.erase i) h.nsub)
  split at hl
  · have h3 := doDied_lasting hl
    refine h2.trans (Lasting.trans ?_ h3)
    exact .of_eq rfl rfl rfl le_rfl rfl
  · cases hl
    exact h2.trans (.of_eq rfl rfl rfl le_rfl rfl)

theorem clearSubs_lasting {l : List SubId} (hl : s.clearSubs u l = .ok s') : Lasting s s' := by
  induction l generalizing s with
  | nil =>
    cases hl
    exact .refl
  | cons a l ih =>
    obtain ⟨x, -, hl⟩ := bind_ok hl
    split at hl
    · cases hl
      exact .refl
    · obtain ⟨t, ht, hl⟩ := bind_ok hl
      exact (delsubuser_lasting ht).trans (ih hl)

/-- `deluser` takes the user and its sessid out, and no other. -/
theorem deluser_keyed (h : s.Keyed) (hl : s.deluser u = .ok s') : s'.Keyed := by
  obtain ⟨t₁, ht₁, hl⟩ := bind_ok hl
  obtain ⟨t₂, ht₂, hl⟩ := bind_ok hl
  obtain ⟨x, hx, hl⟩ := bind_ok hl
  obtain ⟨t₃, ht₃, hl⟩ := bind_ok hl
  obtain ⟨t₄, ht₄, hl⟩ := bind_ok hl
  obtain ⟨x₂, -, ht₂⟩ := bind_ok ht₂
  cases hl
  have hk : t₂.Keyed :=
    ((leftAll_minor ht₁).lasting.trans (clearSubs_lasting ht₂)).keyed h
  have hn := ((setNext_minor ht₃).trans (setPrev_minor ht₄)).still.named
  have hkey : t₂.roster.sessKey u = some x.sessid := by
    rw [sessKey_users, user_ok hx]
    rfl
  refine ⟨?_, fun n hn' => ?_⟩
  · have hsess : Roster.sessKey (roster { t₄.destroyPipe x.pubid with
        users := Function.update (t₄.destroyPipe x.pubid).users u none }) =
        Function.update t₂.roster.sessKey u none := by
      funext w
      rw [sessKey_users]
      by_cases hw : w = u
      · subst hw
        simp
      · simp only [destroyPipe, ne_eq, hw, not_false_eq_true, Function.update_of_ne]
        rw [hn.sessid w, sessKey_users]
    have htable : t₄.hSessid = t₂.hSessid.erase x.sessid := hn.hSessid
    rw [hsess]
    change t₄.hSessid.Indexes _
    rw [htable]
    exact hk.sessid.erase hkey
  · have hn'' : t₂.fresh ≤ n := hn.fresh.trans hn'
    by_cases hw : n = u
    · simp [hw]
    · simp only [destroyPipe, ne_eq, hw, not_false_eq_true, Function.update_of_ne]
      by_contra hne
      exact (hn.live n).mp hne (hk.bound n hn'')

/-! ### `check_timeout` -/

theorem sendHeaders_quiet {fd : Fd} {transport : Transport} :
    Quiet s (s.sendHeaders fd y transport).2 := by
  unfold sendHeaders
  split
  · exact .send
  · exact .refl

theorem sendRaws_quiet {b : Bool} (hl : s.sendRaws i = .ok (b, s')) : Quiet s s' := by
  obtain ⟨y, hy, hl⟩ := bind_ok hl
  split at hl
  · cases hl
    exact .refl
  · obtain ⟨u, -, hl⟩ := bind_ok hl
    obtain ⟨x, -, hl⟩ := bind_ok hl
    cases hl
    refine (sendHeaders_quiet.trans .send).trans (.setSub (y := y) ?_ ?_)
    · simpa using sub_ok hy
    · rfl

theorem transportDataCompletlySent_lasting {transport : Transport}
    (hl : s.transportDataCompletlySent i transport = .ok s') : Lasting s s' := by
  cases transport <;> simp only [transportDataCompletlySent] at hl <;>
    first
      | exact doDied_lasting hl
      | (cases hl; exact .refl)

theorem tickSub_lasting (hl : s.tickSub u i = .ok s') : Lasting s s' := by
  obtain ⟨y, -, hl⟩ := bind_ok hl
  split at hl
  · exact delsubuser_lasting hl
  · split at hl
    · obtain ⟨⟨b, t⟩, ht, hl⟩ := bind_ok hl
      refine (sendRaws_quiet ht).lasting.trans ?_
      obtain ⟨y', -, hl⟩ := bind_ok hl
      split at hl
      · obtain ⟨v, -, hl⟩ := bind_ok hl
        obtain ⟨x, -, hl⟩ := bind_ok hl
        exact transportDataCompletlySent_lasting hl
      · cases hl
        exact .of_eq rfl rfl rfl le_rfl rfl
    · cases hl
      exact .refl

theorem tickSubs_lasting {l : List SubId} (hl : s.tickSubs u l = .ok s') : Lasting s s' := by
  induction l generalizing s with
  | nil =>
    cases hl
    exact .refl
  | cons i l ih =>
    obtain ⟨x, -, hl⟩ := bind_ok hl
    split at hl
    · obtain ⟨t, ht, hl⟩ := bind_ok hl
      exact (tickSub_lasting ht).trans (ih hl)
    · cases hl

theorem tickFrom_keyed {fuel : ℕ} {p : Option UserId} (h : s.Keyed)
    (hl : s.tickFrom fuel p = .ok s') : s'.Keyed := by
  induction fuel generalizing s p with
  | zero =>
    cases p with
    | none =>
      cases hl
      exact h
    | some u => cases hl
  | succ fuel ih =>
    cases p with
    | none =>
      cases hl
      exact h
    | some u =>
      obtain ⟨x, -, hl⟩ := bind_ok hl
      obtain ⟨t, ht, hl⟩ := bind_ok hl
      refine ih ?_ hl
      obtain ⟨x', -, ht⟩ := bind_ok ht
      split at ht
      · split at ht
        · exact deluser_keyed h ht
        · exact (tickSubs_lasting ht).keyed h
      · cases ht
        exact h

/-! ### Creation -/

theorem addsubuser_steady {client : Fd} {channel : Bytes} {o : Option SubId}
    (hl : s.addsubuser client channel u = .ok (o, s')) : Steady s s' := by
  obtain ⟨-, rfl⟩ | ⟨x, y, hx, -, -, -, -, rfl⟩ := addsubuser_spec hl
  · exact .refl
  · have h1 : Steady s { s with fresh := s.fresh + 1 } := .of_eq rfl rfl rfl (Nat.le_succ _)
    have h2 : Steady { s with fresh := s.fresh + 1 } _ :=
      Steady.subuser (s := { s with fresh := s.fresh + 1 }) hx (s.fresh :: x.subuser) (x.nsub + 1)
    exact (h1.trans h2).trans (.of_eq rfl rfl rfl le_rfl)

/-- A new user: under a sessid of its own, at an address that nobody had. -/
theorem allocUser_keyed {client : Fd} {host ip : Bytes} (h : s.Keyed)
    (hl : s.allocUser client host ip = .ok (u, s')) :
    s'.Keyed ∧ s.users u = none ∧ s'.users u ≠ none ∧
      ∀ v, s.users v ≠ none → s'.users v ≠ none := by
  obtain ⟨t, o, ha, hs⟩ := allocUser_spec hl
  obtain ⟨sessid, pubid, hfree, -, hr⟩ := ha.free
  have hnone : s.users s.fresh = none := h.bound _ le_rfl
  have hkey : t.roster.sessKey = Function.update s.roster.sessKey s.fresh (some sessid) := by
    rw [hr]
    exact Roster.sessKey_addUser
  have hfresh : t.fresh = s.fresh + 1 := congrArg Roster.fresh hr
  have hlive : ∀ v, v ≠ s.fresh → (t.users v ≠ none ↔ s.users v ≠ none) := by
    intro v hv
    have hk := congrFun hkey v
    rw [Function.update_of_ne hv, sessKey_users, sessKey_users] at hk
    cases hx : s.users v <;> cases hx' : t.users v <;> simp_all
  have ht : t.Keyed := by
    refine ⟨?_, fun n hn => ?_⟩
    · have htable : t.hSessid = s.hSessid.append sessid s.fresh := congrArg Roster.hSessid hr
      rw [hkey, htable]
      exact h.sessid.append (by rw [sessKey_users, hnone]; rfl) hfree.sessid
    · by_contra hne
      exact (hlive n (by omega)).mp hne (h.bound n (by omega))
  have hn := addsubuser_steady hs
  obtain ⟨x, hx, -⟩ := ha.user
  refine ⟨hn.keyed ht, ha.id ▸ hnone, (hn.live u).mpr (by simp [hx]), fun v hv => ?_⟩
  have hne : v ≠ s.fresh := by
    rintro rfl
    exact hv hnone
  exact (hn.live v).mpr ((hlive v hne).mpr hv)

/-! ### Hooks and added commands -/

/-- A command that deletes no user and leaves the sessids in agreement. -/
def Harmless (f : CmdFunc) : Prop := ∀ cp s flag s', f cp s = .ok (flag, s') →
  (∀ u, s.users u ≠ none → s'.users u ≠ none) ∧ (s.Keyed → s'.Keyed)

theorem Harmless.of_named {f : CmdFunc}
    (h : ∀ cp s flag s', f cp s = .ok (flag, s') → Named s s') : Harmless f :=
  fun cp s flag s' hl => ⟨fun u => ((h cp s flag s' hl).live u).mpr, (h cp s flag s' hl).keyed⟩

end Ape

/-- Hooks, handlers and commands delete no user, except for `cmd_quit`. -/
structure Cmds.Tame (cmds : Cmds) : Prop where
  commands : ∀ cmd cb, cmds.hCallback.seek cmd = some cb →
    cb.func = Ape.cmdQuit ∨ Ape.Harmless cb.func
  hooks : ∀ h ∈ cmds.hooks, Ape.Harmless h.func
  bad : ∀ f ∈ cmds.bad, Ape.Harmless f

end ApeServer
