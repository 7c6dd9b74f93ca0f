import ApeServer.Server.Creation

/-!
# Runs of channel operations

Any sequence of the operations of `channel.c` and of `deluser`, on live users and channels,
keeps the memberships symmetric, and none of them uses a freed record.
-/
namespace ApeServer

open Sock (Bytes)
open Steps (ok_bind bind_ok Reach)

/-- An operation on users and channels. -/
inductive ChanOp where
  /-- `adduser`: someone to join -/
  | connect (client : Fd) (host ip : Bytes)
  /-- `mkchan`, then `join` -/
  | create (name : Bytes) (autodestroy : Bool) (u : UserId)
  | join (u : UserId) (c : ChanId)
  | left (u : UserId) (c : ChanId)
  | leftAll (u : UserId)
  | ban (c : ChanId) (banner : UserId) (ip reason : Bytes) (expire : UInt32)
  | rmchan (c : ChanId)
  | deluser (u : UserId)

namespace ChanOp

def run (s : Ape) : ChanOp → Except Halt Ape
  | connect client host ip => do return (← s.allocUser client host ip).2
  | create name autodestroy u => do
    match ← s.mkchan name autodestroy with
    | (some c, s) => s.join u c
    | (none, s) => return s
  | join u c => s.join u c
  | left u c => s.left u c
  | leftAll u => s.leftAll u
  | ban c banner ip reason expire => s.ban c (some banner) ip reason expire
  | rmchan c => s.rmchan c
  | deluser u => s.deluser u

/-- The users and channels of an operation are live. -/
def Live (s : Ape) : ChanOp → Prop
  | connect _ _ _ => True
  | create _ _ u | leftAll u | deluser u => s.users u ≠ none
  | join u c | left u c => s.users u ≠ none ∧ s.chans c ≠ none
  | ban c banner _ _ _ => s.chans c ≠ none ∧ s.users banner ≠ none
  | rmchan c => s.chans c ≠ none

instance (s : Ape) (op : ChanOp) : Decidable (op.Live s) := by
  cases op <;> unfold Live <;> infer_instance

end ChanOp

/-- The two sides of the memberships agree, and each list mentions live records only, each
of them once. -/
structure Memberships (s : Ape) : Prop where
  agree : ∀ u c, (∃ x, s.users u = some x ∧ c ∈ x.chan_foot) ↔
    ∃ y, s.chans c = some y ∧ u ∈ y.users
  foot : ∀ u x, s.users u = some x → x.chan_foot.Nodup ∧ ∀ c ∈ x.chan_foot, s.chans c ≠ none
  head : ∀ c y, s.chans c = some y → y.users.Nodup ∧ ∀ u ∈ y.users, s.users u ≠ none

namespace Ape

variable {s s' : Ape} {u : UserId} {c : ChanId}

/-- Every operation on live users and channels finds every record it uses. -/
theorem run_noFault (h : s.roster.Wf) {op : ChanOp} (hl : op.Live s) : NoFault (op.run s) := by
  cases op with
  | connect client host ip => exact .bind (allocUser_noFault h) fun _ _ => .ok _
  | create name auto u =>
    obtain ⟨x, hx⟩ := Option.ne_none_iff_exists'.mp hl
    refine .bind mkchan_noFault fun r hr => ?_
    obtain ⟨o, t⟩ := r
    obtain ⟨-, rfl, rfl⟩ | ⟨n, pubid, y, -, rfl, -, -, hy, hu, -⟩ := mkchan_roster hr
    · exact .ok _
    · exact .of_completes (join_completes (mkchan_wf h hr) (by rw [hu]; exact hx) hy)
  | join u c =>
    obtain ⟨x, hx⟩ := Option.ne_none_iff_exists'.mp hl.1
    obtain ⟨y, hy⟩ := Option.ne_none_iff_exists'.mp hl.2
    exact .of_completes (join_completes h hx hy)
  | left u c =>
    obtain ⟨x, hx⟩ := Option.ne_none_iff_exists'.mp hl.1
    exact .of_completes (left_completes h hx)
  | leftAll u =>
    obtain ⟨x, hx⟩ := Option.ne_none_iff_exists'.mp hl
    exact .of_completes (leftAll_completes h hx)
  | ban c banner ip reason expire =>
    obtain ⟨y, hy⟩ := Option.ne_none_iff_exists'.mp hl.1
    refine .of_completes ?_
    simp only [ChanOp.run, ban, chan_eq hy, ok_bind]
    exact banMembers_completes false h hl.2 (users_nodup h hy) fun _ =>
      ⟨y, hy, fun m hm => List.mem_map_of_mem hm⟩
  | rmchan c =>
    obtain ⟨y, hy⟩ := Option.ne_none_iff_exists'.mp hl
    exact .of_completes (rmchan_completes h hy)
  | deluser u =>
    obtain ⟨x, hx⟩ := Option.ne_none_iff_exists'.mp hl
    exact .of_completes (deluser_completes h hx)

/-- Every operation keeps the roster well formed. -/
theorem run_wf (h : s.roster.Wf) {op : ChanOp} (hl : op.run s = .ok s') : s'.roster.Wf := by
  cases op with
  | connect client host ip =>
    obtain ⟨⟨u, t⟩, ht, hl⟩ := bind_ok hl
    cases hl
    exact allocUser_wf h ht
  | create name auto u =>
    obtain ⟨⟨o, t⟩, ht, hl⟩ := bind_ok hl
    have hwf := mkchan_wf h ht
    cases o with
    | none =>
      cases hl
      exact hwf
    | some c => exact join_wf hwf hl
  | join u c => exact join_wf h hl
  | left u c => exact left_wf h hl
  | leftAll u =>
    obtain ⟨x, -, hr⟩ := leftAll_roster h hl
    rw [hr]
    exact h.quitAll u _
  | ban c banner ip reason expire =>
    obtain ⟨us, hr⟩ := ban_roster h hl
    rw [hr]
    exact h.leaveAll c us
  | rmchan c =>
    obtain ⟨y, hy, hr⟩ := rmchan_roster h hl
    rw [hr]
    exact h.rmchan (roster_chans hy)
  | deluser u => exact deluser_wf h hl

theorem memberships_of_wf (h : s.roster.Wf) : Memberships s where
  agree u c := by
    constructor
    · rintro ⟨x, hx, hc⟩
      exact foot_live h hx hc
    · rintro ⟨y, hy, hu⟩
      exact member_live h hy hu
  foot u x hx := by
    refine ⟨h.member.left_nodup (Roster.foot_eq (roster_users hx)), fun c hc => ?_⟩
    obtain ⟨y, hy, -⟩ := foot_live h hx hc
    simp [hy]
  head c y hy := by
    refine ⟨users_nodup h hy, fun u hu => ?_⟩
    obtain ⟨x, hx, -⟩ := member_live h hy hu
    simp [hx]

/-- In every state a run of operations reaches, the memberships agree, and no further
operation, on live users and channels, uses a freed record. -/
theorem memberships_agree {rand : List (List.Vector (Fin 16) 32)} {io : ℕ → Bool} {time : ℤ}
    (h : Reach ChanOp.run ChanOp.Live (init rand io time) s) :
    Memberships s ∧ ∀ op : ChanOp, op.Live s → NoFault (op.run s) := by
  have hwf : s.roster.Wf := h.keeps (fun s => s.roster.Wf) (init_wf rand io time)
    fun _ _ _ h _ hl => run_wf h hl
  exact ⟨memberships_of_wf hwf, fun op hl => run_noFault hwf hl⟩

/-- Two users meet in a channel, and the first is banned from it. -/
def meetAndPart : List ChanOp :=
  [.connect 5 (bytes "h") (bytes "1.1.1.1"), .connect 6 (bytes "h") (bytes "2.2.2.2"),
    .create (bytes "room") true 0, .join 2 4, .ban 4 2 (bytes "1.1.1.1") (bytes "bye") 1]

theorem memberships_agree_parted : ∃ s, Steps.runs ChanOp.run ChanOp.Live
    (init sixteenDraws (fun _ => true) 0) meetAndPart = some s ∧
      (s.chans 4).map Channel.users = some [2] ∧ Memberships s := by
  have h : ((Steps.runs ChanOp.run ChanOp.Live (init sixteenDraws (fun _ => true) 0)
      meetAndPart).bind fun s => (s.chans 4).map Channel.users) = some [2] := by decide +kernel
  obtain ⟨s, hs, hu⟩ := Option.bind_eq_some_iff.mp h
  exact ⟨s, hs, hu, (memberships_agree (.of_runs .start hs)).1⟩

end Ape

end ApeServer
