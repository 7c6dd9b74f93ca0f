import ApeServer.Server.ChannelRuns
import ApeServer.Server.Setlevel
import ApeServer.Server.Traffic

/-!
# Runs of levels

Whatever the members of a channel do to each other's levels, the levels stay within their
bounds, and no chain of grants leads above the highest level there was.
-/
namespace ApeServer

open Sock (Bytes)
open Steps (ok_bind bind_ok Reach)

/-- An operation on users and channels, or a call of `setlevel`, of a user or of the server. -/
inductive LevelOp where
  | chan (op : ChanOp)
  | setlevel (actif passif : Option UserId) (c : ChanId) (lvl : UInt32)

namespace LevelOp

def run (autoop : UserId → Bool) (s : Ape) : LevelOp → Except Halt Ape
  | chan op => op.run s
  | setlevel actif passif c lvl => do
    return (← s.setlevel autoop actif passif (some c) lvl).2

/-- The users and channels of an operation are live. -/
def Live (s : Ape) : LevelOp → Prop
  | chan op => op.Live s
  | setlevel none _ c _ => s.chans c ≠ none
  | setlevel (some a) _ c _ => s.chans c ≠ none ∧ s.users a ≠ none

/-- Levels are set by members, and those have not got `FLG_AUTOOP`. -/
def ByMember (autoop : UserId → Bool) (s : Ape) : LevelOp → Prop
  | chan op => op.Live s
  | setlevel none _ _ _ => False
  | setlevel (some a) _ c _ => autoop a = false ∧ a ∈ ((s.chans c).map Channel.users).getD []

instance (s : Ape) (op : LevelOp) : Decidable (op.Live s) := by
  cases op with
  | chan op => exact inferInstanceAs (Decidable (op.Live s))
  | setlevel p _ c _ => cases p <;> unfold Live <;> infer_instance

instance (autoop : UserId → Bool) (s : Ape) (op : LevelOp) : Decidable (op.ByMember autoop s) := by
  cases op with
  | chan op => exact inferInstanceAs (Decidable (op.Live s))
  | setlevel p _ c _ => cases p <;> unfold ByMember <;> infer_instance

end LevelOp

/-- Every level is one that a user may grant. -/
def Ape.Levelled (s : Ape) : Prop :=
  ∀ c y, s.chans c = some y → ∀ m ∈ y.head, 1 ≤ m.level ∧ m.level ≤ 32

/-- What a call of `a`, with the result `r`, may change of a channel. -/
structure Channel.Authorised (a : UserId) (r : Bool) (y y' : Channel) : Prop where
  users : y'.users = y.users
  max : y'.maxLevel ≤ y.maxLevel
  outranks : ∀ v, y'.level v ≠ y.level v →
    ∃ n k, y.level a = some n ∧ y.level v = some k ∧ k ≤ n
  refused : r = false → y' = y

namespace Ape

variable {autoop : UserId → Bool} {s t s' s₀ : Ape} {a u : UserId} {p q : Option UserId}
  {c : ChanId} {y z : Channel} {lvl : UInt32} {r : Bool}

/-! ### Members that come and go -/

/-- Members go, and those that come have level 1. -/
def Fresh (s s' : Ape) : Prop :=
  ∀ c y', s'.chans c = some y' → ∀ m ∈ y'.head,
    m.level = 1 ∨ ∃ y, s.chans c = some y ∧ m ∈ y.head

theorem Fresh.of_chans (h : s'.chans = s.chans) : Fresh s s' :=
  fun _ y hy _ hm => .inr ⟨y, h ▸ hy, hm⟩

theorem Fresh.of_thinned (h : Thinned s s') : Fresh s s' := by
  intro c y' hy' m hm
  obtain ⟨y, hy, hsub, -, -⟩ := h.chans c y' hy'
  exact .inr ⟨y, hy, hsub.subset hm⟩

theorem Fresh.trans (h : Fresh s t) (h' : Fresh t s') : Fresh s s' := by
  intro c y' hy' m hm
  rcases h' c y' hy' m hm with hone | ⟨z, hz, hmz⟩
  · exact .inl hone
  · exact h c z hz m hmz

theorem join_fresh (h : s.join u c = .ok s') : Fresh s s' := by
  obtain ⟨x, -, ⟨-, rfl⟩ | ⟨-, y, hy, hpost⟩⟩ := join_posted h
  · exact .of_chans rfl
  · intro d z hz m hm
    rw [hpost.chans] at hz
    by_cases hd : d = c
    · subst hd
      simp only [setUser_chans, setChan_chans, Function.update_self, Option.some.injEq] at hz
      subst hz
      rcases List.mem_cons.mp hm with rfl | hm
      · exact .inl rfl
      · exact .inr ⟨y, hy, hm⟩
    · rw [setUser_chans, setChan_chans, Function.update_of_ne hd] at hz
      exact .inr ⟨z, hz, hm⟩

theorem mkchan_fresh {name : Bytes} {auto : Bool} {o : Option ChanId}
    (h : s.mkchan name auto = .ok (o, s')) : Fresh s s' := by
  obtain ⟨-, -, ⟨-, rfl⟩ | ⟨n, y, -, -, hchans, hhead, -⟩⟩ := mkchan_spec h
  · exact .of_chans rfl
  · intro d z hz m hm
    rw [hchans] at hz
    by_cases hd : d = s.fresh
    · subst hd
      rw [Function.update_self, Option.some.injEq] at hz
      subst hz
      rw [hhead] at hm
      cases hm
    · rw [Function.update_of_ne hd] at hz
      exact .inr ⟨z, hz, hm⟩

theorem run_fresh {op : ChanOp} (h : op.run s = .ok s') : Fresh s s' := by
  cases op with
  | connect client host ip =>
    obtain ⟨⟨u, t⟩, ht, h⟩ := bind_ok h
    cases h
    exact .of_chans (allocUser_chans ht).1
  | create name auto u =>
    obtain ⟨⟨o, t⟩, ht, h⟩ := bind_ok h
    have hmk := mkchan_fresh ht
    cases o with
    | none =>
      cases h
      exact hmk
    | some c => exact hmk.trans (join_fresh h)
  | join u c => exact join_fresh h
  | left u c => exact .of_thinned (left_thinned h)
  | leftAll u => exact .of_thinned (leftAll_thinned h)
  | ban c banner ip reason expire => exact .of_thinned (ban_thinned h)
  | rmchan c => exact .of_thinned (rmchan_thinned h)
  | deluser u => exact .of_thinned (deluser_thinned h)

theorem Fresh.levelled (h : Fresh s s') (hs : s.Levelled) : s'.Levelled := by
  intro c y' hy' m hm
  rcases h c y' hy' m hm with hone | ⟨y, hy, hmy⟩
  · omega
  · exact hs c y hy m hmy

/-! ### Levels that are set -/

/-- Every call leaves the other channels, and at most sets one level of its own. -/
theorem setlevel_chans (h : s.setlevel autoop p q (some c) lvl = .ok (r, s')) :
    s'.chans = s.chans ∨ ∃ u y, s.chans c = some y ∧ 1 ≤ lvl.toNat ∧ lvl.toNat ≤ 32 ∧
      s'.chans = Function.update s.chans c (some (y.setLevel u lvl)) := by
  cases p with
  | none =>
    rcases setlevel_null_cases h with ⟨-, rfl⟩ | ⟨-, hlo, hhi, u, y, hy, -, rfl⟩
    · exact .inl rfl
    · rw [UInt32.lt_iff_toNat_lt] at hlo hhi
      exact .inr ⟨u, y, hy, hlo, hhi.le, rfl⟩
  | some a =>
    obtain ⟨y, hy, ⟨-, hpost⟩ | ⟨-, u, mp, ma, -, -, -, href, hpost⟩⟩ := setlevel_cases h
    · exact .inl hpost.chans
    · have hrange : 1 ≤ lvl.toNat ∧ lvl.toNat ≤ 32 := by
        cases hauto : autoop a with
        | true =>
          rw [hauto] at href
          exact refuses_true_iff.mp href
        | false =>
          rw [hauto] at href
          exact (refuses_false href).2.2
      exact .inr ⟨u, y, hy, hrange.1, hrange.2, hpost.chans⟩

theorem setlevel_levelled (h : s.setlevel autoop p q (some c) lvl = .ok (r, s'))
    (hs : s.Levelled) : s'.Levelled := by
  intro d z hz m hm
  rcases setlevel_chans h with hsame | ⟨u, y, hy, hlo, hhi, hchans⟩
  · exact hs d z (hsame ▸ hz) m hm
  · rw [hchans] at hz
    by_cases hd : d = c
    · subst hd
      rw [Function.update_self, Option.some.injEq] at hz
      subst hz
      rcases Channel.mem_setLevel hm with hl | hm
      · omega
      · exact hs d y hy m hm
    · rw [Function.update_of_ne hd] at hz
      exact hs d z hz m hm

/-- A call that is not refused to a member without `FLG_AUTOOP`. -/
theorem authorised_setLevel {mp ma : Member} (hp : y.node u = some mp) (ha : y.node a = some ma)
    (href : refuses false lvl (some mp) (some ma) = false) :
    Channel.Authorised a true y (y.setLevel u lvl) := by
  obtain ⟨hlvl, hrank, -, -⟩ := refuses_false href
  have hmem : ma ∈ y.head := (Channel.node_spec ha).1
  refine ⟨Channel.users_setLevel, ?_, fun v hv => ?_, fun hr => by cases hr⟩
  · refine Channel.maxLevel_le.mpr fun m hm => ?_
    rcases Channel.mem_setLevel hm with hl | hm
    · have := Channel.le_maxLevel hmem
      omega
    · exact Channel.le_maxLevel hm
  · have hvu : v = u := by
      by_contra hne
      exact hv (Channel.level_setLevel_of_ne hne)
    subst hvu
    refine ⟨ma.level, mp.level, ?_, ?_, hrank⟩
    · rw [Channel.level, ha]
      rfl
    · rw [Channel.level, hp]
      rfl

/-- The call of a member without `FLG_AUTOOP` completes, and keeps to its authority. -/
theorem setlevel_authorised (h : s.roster.Wf) (hauto : autoop a = false)
    (hy : s.chans c = some y) (ha : a ∈ y.users) (q : Option UserId) (lvl : UInt32) :
    ∃ r s' y', s.setlevel autoop (some a) q (some c) lvl = .ok (r, s') ∧
      s'.chans = Function.update s.chans c (some y') ∧ Channel.Authorised a r y y' := by
  obtain ⟨x, hx, -⟩ := member_live h hy ha
  have hlive : s.users a ≠ none := by simp [hx]
  obtain ⟨r, s', hl⟩ : ∃ r s', s.setlevel autoop (some a) q (some c) lvl = .ok (r, s') :=
    setlevel_completes h hy hlive q
  obtain ⟨y₁, hy₁, ⟨rfl, hpost⟩ | ⟨rfl, u, mp, ma, -, hp, hma, href, hpost⟩⟩ := setlevel_cases hl
  · refine ⟨false, s', y, hl, ?_, rfl, le_rfl, fun v hv => absurd rfl hv, fun _ => rfl⟩
    rw [hpost.chans, Function.update_eq_self_iff.mpr hy.symm]
  · rw [hy] at hy₁
    cases hy₁
    rw [hauto] at href
    exact ⟨true, s', _, hl, hpost.chans, authorised_setLevel hp hma href⟩

/-! ### Runs -/

theorem levelOp_wf (h : s.roster.Wf) {op : LevelOp} (hl : op.run autoop s = .ok s') :
    s'.roster.Wf := by
  cases op with
  | chan op => exact run_wf h hl
  | setlevel p q c lvl =>
    obtain ⟨⟨r, t⟩, ht, hl⟩ := bind_ok hl
    cases hl
    rw [setlevel_roster ht]
    exact h

theorem levelOp_levelled (h : s.Levelled) {op : LevelOp} (hl : op.run autoop s = .ok s') :
    s'.Levelled := by
  cases op with
  | chan op => exact (run_fresh hl).levelled h
  | setlevel p q c lvl =>
    obtain ⟨⟨r, t⟩, ht, hl⟩ := bind_ok hl
    cases hl
    exact setlevel_levelled ht h

/-- No member has a level above 1 that is higher than all there were in `s₀`. -/
def Capped (s₀ s : Ape) : Prop :=
  ∀ c y, s.chans c = some y → ∀ m ∈ y.head,
    m.level ≤ 1 ∨ ∃ y₀, s₀.chans c = some y₀ ∧ m.level ≤ y₀.maxLevel

theorem Capped.of_fresh (h : Fresh s s') (hs : Capped s₀ s) : Capped s₀ s' := by
  intro c y' hy' m hm
  rcases h c y' hy' m hm with hone | ⟨y, hy, hmy⟩
  · exact .inl hone.le
  · exact hs c y hy m hmy

/-- A level that is granted is not above the one of the member that grants it. -/
theorem Capped.of_setlevel (h : s.setlevel autoop (some a) q (some c) lvl = .ok (r, s'))
    (hauto : autoop a = false) (hs : Capped s₀ s) : Capped s₀ s' := by
  obtain ⟨y, hy, ⟨-, hpost⟩ | ⟨-, u, mp, ma, -, -, hma, href, hpost⟩⟩ := setlevel_cases h
  · intro d z hz m hm
    rw [hpost.chans] at hz
    exact hs d z hz m hm
  · rw [hauto] at href
    obtain ⟨hlvl, -, -, -⟩ := refuses_false href
    intro d z hz m hm
    rw [hpost.chans, setChan_chans] at hz
    by_cases hd : d = c
    · subst hd
      rw [Function.update_self, Option.some.injEq] at hz
      subst hz
      rcases Channel.mem_setLevel hm with hl | hm
      · rcases hs d y hy ma (Channel.node_spec hma).1 with hone | ⟨y₀, hy₀, hle⟩
        · exact .inl (by omega)
        · exact .inr ⟨y₀, hy₀, by omega⟩
      · exact hs d y hy m hm
    · rw [Function.update_of_ne hd] at hz
      exact hs d z hz m hm

theorem levelOp_capped (hs : Capped s₀ s) {op : LevelOp} (ha : op.ByMember autoop s)
    (hl : op.run autoop s = .ok s') : Capped s₀ s' := by
  cases op with
  | chan op => exact hs.of_fresh (run_fresh hl)
  | setlevel p q c lvl =>
    obtain ⟨⟨r, t⟩, ht, hl⟩ := bind_ok hl
    cases hl
    cases p with
    | none => cases ha
    | some a => exact hs.of_setlevel ht ha.1

theorem capped_self (s : Ape) : Capped s s :=
  fun _ y hy _ hm => .inr ⟨y, hy, Channel.le_maxLevel hm⟩

/-- After any operations at all, and then any in which levels are set by members without
`FLG_AUTOOP` only: levels are within their bounds, no channel has a higher level than it had
before or than its members are given when they join, and every further call of such a member
keeps to its authority. -/
theorem levels_kept {rand : List (List.Vector (Fin 16) 32)} {io : ℕ → Bool} {time : ℤ}
    (h₀ : Reach (LevelOp.run autoop) LevelOp.Live (init rand io time) s₀)
    (h : Reach (LevelOp.run autoop) (LevelOp.ByMember autoop) s₀ s) :
    s.Levelled ∧
    (∀ c y₀ y, s₀.chans c = some y₀ → s.chans c = some y → y.maxLevel ≤ max 1 y₀.maxLevel) ∧
    ∀ a q c y lvl, autoop a = false → s.chans c = some y → a ∈ y.users →
      ∃ r s' y', s.setlevel autoop (some a) q (some c) lvl = .ok (r, s') ∧
        s'.chans = Function.update s.chans c (some y') ∧ Channel.Authorised a r y y' := by
  have hinit : (init rand io time).Levelled := fun c y hy => by cases hy
  have hlev₀ : s₀.Levelled := h₀.keeps Levelled hinit fun _ _ _ h _ hl => levelOp_levelled h hl
  have hwf₀ : s₀.roster.Wf := h₀.keeps (fun s => s.roster.Wf) (init_wf rand io time)
    fun _ _ _ h _ hl => levelOp_wf h hl
  have hlev : s.Levelled := h.keeps Levelled hlev₀ fun _ _ _ h _ hl => levelOp_levelled h hl
  have hwf : s.roster.Wf := h.keeps (fun s => s.roster.Wf) hwf₀
    fun _ _ _ h _ hl => levelOp_wf h hl
  have hcap : Capped s₀ s := h.keeps (Capped s₀) (capped_self s₀)
    fun _ _ _ h ha hl => levelOp_capped h ha hl
  refine ⟨hlev, fun c y₀ y hy₀ hy => ?_, fun a q c y lvl hauto hy ha =>
    setlevel_authorised hwf hauto hy ha q lvl⟩
  refine Channel.maxLevel_le.mpr fun m hm => ?_
  rcases hcap c y hy m hm with hone | ⟨y₁, hy₁, hle⟩
  · omega
  · rw [hy₀] at hy₁
    cases hy₁
    omega

/-- The first user, whose level does not bind it, gives the second one level 5 in a room. -/
def grantsLevel : List LevelOp :=
  [.chan (.connect 5 (bytes "h") (bytes "1.1.1.1")),
    .chan (.connect 6 (bytes "h") (bytes "2.2.2.2")),
    .chan (.create (bytes "room") true 0), .chan (.join 2 4), .setlevel (some 0) (some 2) 4 5]

/-- The second user gives the first one level 5 too, and gets no higher itself. -/
def spendsLevel : List LevelOp :=
  [.setlevel (some 2) (some 0) 4 5, .setlevel (some 2) (some 2) 4 6, .chan (.left 0 4)]

theorem levels_kept_granted : ∃ s₀ s,
    Steps.runs (LevelOp.run fun u => u = 0) LevelOp.Live
      (init sixteenDraws (fun _ => true) 0) grantsLevel = some s₀ ∧
    Steps.runs (LevelOp.run fun u => u = 0) (LevelOp.ByMember fun u => u = 0) s₀
      spendsLevel = some s ∧
    (s.chans 4).map Channel.maxLevel = some 5 ∧ s.Levelled := by
  have h : ((Steps.runs (LevelOp.run fun u => u = 0) LevelOp.Live
      (init sixteenDraws (fun _ => true) 0) grantsLevel).bind fun s₀ =>
        (Steps.runs (LevelOp.run fun u => u = 0) (LevelOp.ByMember fun u => u = 0) s₀
          spendsLevel).bind fun s => (s.chans 4).map Channel.maxLevel) = some 5 := by
    decide +kernel
  obtain ⟨s₀, hs₀, h⟩ := Option.bind_eq_some_iff.mp h
  obtain ⟨s, hs, hmax⟩ := Option.bind_eq_some_iff.mp h
  exact ⟨s₀, s, hs₀, hs, hmax,
    (levels_kept (.of_runs .start hs₀) (.of_runs .start hs)).1⟩

end Ape

end ApeServer
