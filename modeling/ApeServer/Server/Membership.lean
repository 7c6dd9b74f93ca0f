import ApeServer.Server.Posts

/-!
# Memberships

The operations of `channel.c` on the roster. A user that leaves may take the channel with
it; the loops that call `left` go on over what is left of the lists.
-/
namespace ApeServer

open Sock (Bytes)
open Steps (ok_bind bind_ok foldlM_keeps foldlM_completes)

namespace Roster

variable {r : Roster} {u v : UserId} {c d : ChanId} {x : UserLinks} {y : ChanLinks}

/-- A user leaves a channel; the last member of an `AUTODESTROY` channel takes it along. -/
def left (r : Roster) (u : UserId) (c : ChanId) : Roster :=
  match r.users u, r.chans c with
  | some x, some y =>
    if c ∈ x.chan_foot then
      if y.users.erase u = [] ∧ y.autodestroy = true then
        (r.unlink u x c y).freeChan c { y with users := [] }
      else r.unlink u x c y
    else r
  | _, _ => r

theorem left_of_mem (hx : r.users u = some x) (hy : r.chans c = some y) (hc : c ∈ x.chan_foot) :
    r.left u c = if y.users.erase u = [] ∧ y.autodestroy = true then
      (r.unlink u x c y).freeChan c { y with users := [] } else r.unlink u x c y := by
  simp [left, hx, hy, hc]

theorem left_of_not_mem (hx : r.users u = some x) (hc : c ∉ x.chan_foot) : r.left u c = r := by
  unfold left
  rw [hx]
  cases r.chans c <;> simp [hc]

theorem Wf.left (h : r.Wf) (u : UserId) (c : ChanId) : (r.left u c).Wf := by
  unfold Roster.left
  split
  · next x y hx hy =>
    split
    · split
      · next hlast =>
        exact (h.unlink hx hy).freeChan (by simp [Roster.unlink, hlast.1]) rfl
      · exact h.unlink hx hy
    · exact h
  · exact h

theorem Lists.left {l : List UserId} (h : r.Lists l) (u : UserId) (c : ChanId) :
    (r.left u c).Lists l := by
  unfold Roster.left
  split
  · next x y hx hy =>
    have h1 : (r.unlink u x c y).Lists l := h.unlink hx
    split
    · split
      · exact h1.congr rfl rfl rfl fun _ => Iff.rfl
      · exact h1
    · exact h
  · exact h

/-- Leaving touches one user, in the list of its channels. -/
theorem left_users (h : r.Wf) (hx : r.users u = some x) : (r.left u c).users =
    Function.update r.users u (some { x with chan_foot := x.chan_foot.erase c }) := by
  by_cases hc : c ∈ x.chan_foot
  · obtain ⟨m, hm, -⟩ := h.member.right_of_mem (foot_eq hx) hc
    cases hy : r.chans c with
    | none => simp [roll, hy] at hm
    | some y =>
      rw [left_of_mem hx hy hc]
      split <;> rfl
  · rw [left_of_not_mem hx hc, List.erase_of_not_mem hc]
    exact (Function.update_eq_self_iff.mpr hx.symm).symm

theorem left_live (w : UserId) : (r.left u c).users w ≠ none ↔ r.users w ≠ none := by
  unfold left
  split
  · next x y hx hy =>
    split
    · split <;> exact setUser_live hx w
    · rfl
  · rfl

/-- Several users leave a channel, one after the other. -/
def leaveAll (r : Roster) (c : ChanId) (us : List UserId) : Roster :=
  us.foldl (fun r u => r.left u c) r

/-- One user leaves several channels. -/
def quitAll (r : Roster) (u : UserId) (cs : List ChanId) : Roster :=
  cs.foldl (fun r c => r.left u c) r

theorem foldl_keeps {α : Type} (I : Roster → Prop) {f : Roster → α → Roster}
    (hf : ∀ r a, I r → I (f r a)) (l : List α) (h : I r) : I (l.foldl f r) := by
  induction l generalizing r with
  | nil => exact h
  | cons a l ih => exact ih (hf r a h)

theorem Wf.leaveAll (h : r.Wf) (c : ChanId) (us : List UserId) : (r.leaveAll c us).Wf :=
  foldl_keeps Wf (fun _ u h => h.left u c) us h

theorem Wf.quitAll (h : r.Wf) (u : UserId) (cs : List ChanId) : (r.quitAll u cs).Wf :=
  foldl_keeps Wf (fun _ c h => h.left u c) cs h

/-- A channel that is kept has the members that have not left. -/
theorem left_chan (h : r.Wf) (hy : r.chans c = some y) (hu : u ∈ y.users)
    (hkeep : ¬(y.users.erase u = [] ∧ y.autodestroy = true)) :
    (r.left u c).chans c = some { y with users := y.users.erase u } := by
  obtain ⟨l, hl, hc⟩ := h.member.symm.right_of_mem (roll_eq hy) hu
  cases hx : r.users u with
  | none => simp [foot, hx] at hl
  | some x =>
    simp only [foot, hx, Option.map_some, Option.some.injEq] at hl
    rw [left_of_mem hx hy (hl ▸ hc), if_neg hkeep]
    simp [unlink]

theorem leaveAll_chan {us : List UserId} (h : r.Wf) (hy : r.chans c = some y)
    (hu : y.users = us) (ha : y.autodestroy = false) :
    (r.leaveAll c us).chans c = some { y with users := [] } := by
  induction us generalizing r y with
  | nil =>
    cases y
    cases hu
    exact hy
  | cons u us ih =>
    have h1 := left_chan (u := u) h hy (by simp [hu]) (by simp [ha])
    rw [hu, List.erase_cons_head] at h1
    have h2 := ih (h.left u c) h1 rfl ha
    exact h2

theorem quitAll_users {cs : List ChanId} (h : r.Wf) (hx : r.users u = some x)
    (hf : x.chan_foot = cs) : (r.quitAll u cs).users =
      Function.update r.users u (some { x with chan_foot := [] }) := by
  induction cs generalizing r x with
  | nil =>
    cases x
    cases hf
    exact (Function.update_eq_self_iff.mpr hx.symm).symm
  | cons c cs ih =>
    have h1 := left_users (c := c) h hx
    rw [hf, List.erase_cons_head] at h1
    have h2 : (r.left u c).users u = some { x with chan_foot := cs } := by simp [h1]
    rw [show r.quitAll u (c :: cs) = (r.left u c).quitAll u cs from rfl, ih (h.left u c) h2 rfl, h1,
      Function.update_idem]

/-- The whole of `rmchan`. -/
def rmchan (r : Roster) (c : ChanId) (y : ChanLinks) : Roster :=
  if y.users = [] then r.freeChan c y
  else ((r.setChan c { y with autodestroy := false }).leaveAll c y.users).freeChan c
    { y with autodestroy := false, users := [] }

theorem Wf.rmchan (h : r.Wf) (hy : r.chans c = some y) : (r.rmchan c y).Wf := by
  unfold Roster.rmchan
  split
  · next hu => exact h.freeChan hy hu
  · have h1 : (r.setChan c { y with autodestroy := false }).Wf := h.setChan hy rfl
    have h2 := leaveAll_chan h1 (Function.update_self ..) rfl rfl
    exact (h1.leaveAll c _).freeChan h2 rfl

end Roster

namespace Ape

variable {s s' : Ape} {u : UserId} {c : ChanId} {x : User} {y : Channel}

theorem links_users : y.links.users = y.users := rfl

@[simp]
theorem leave_users (u : UserId) : (y.leave u).users = y.users.erase u := by
  simp only [Channel.leave, Channel.users, List.erase_eq_eraseP, List.eraseP_map]
  congr 2
  funext m
  by_cases h : m.userinfo = u
  · simp [h]
  · simp [h, Ne.symm h]

theorem users_eq_nil {y : Channel} : y.users = [] ↔ y.head = [] := List.map_eq_nil_iff

/-- The state after a channel is destroyed. -/
@[simps]
def withoutChan (s : Ape) (c : ChanId) (y : Channel) : Ape :=
  { s with
    chans := Function.update s.chans c none
    hLusers := s.hLusers.erase y.name
    hPubid := s.hPubid.erase y.pubid }

theorem freeChan_eq (hy : s.chans c = some y) : s.freeChan c = .ok (s.withoutChan c y) := by
  simp only [freeChan, chan_eq hy]
  rfl

@[simp]
theorem roster_withoutChan : (s.withoutChan c y).roster = s.roster.freeChan c y.links := by
  simp only [roster, withoutChan, Roster.freeChan]
  rw [Roster.map_update]
  rfl

theorem own_leave (ho : Incidence.Incident s.roster.own s.roster.owners)
    (hx : s.users u = some x) :
    Incidence.Incident (s.setUser u (x.leave c)).roster.own
      (s.setUser u (x.leave c)).roster.owners := by
  have : (s.roster.setUser u (x.leave c).links).own = s.roster.own :=
    Roster.own_write (roster_users hx) rfl
  rw [roster_setUser, this]
  exact ho

/-- The state in which `left` has taken the user out of both lists. -/
theorem roster_left_both {t : Ape} (ht : Posted (s.setUser u (x.leave c)) t) :
    (t.setChan c (y.leave u)).roster = s.roster.unlink u x.links c y.links := by
  have hl : (y.leave u).links = { y.links with users := y.links.users.erase u } := by
    simp only [Channel.links, leave_users]
    rfl
  rw [roster_setChan, ht.roster, roster_setUser, hl]
  rfl

/-- `left` on a member, with the raw it posts. -/
theorem left_eq (ho : Incidence.Incident s.roster.own s.roster.owners)
    (hx : s.users u = some x) (hc : c ∈ x.chan_foot) (hy : s.chans c = some y)
    (hu : u ∈ y.users) : ∃ raw t, Posted (s.setUser u (x.leave c)) t ∧ s.left u c =
      if (y.leave u).head ≠ [] ∧ (y.leave u).nonInteractive = false then
        (t.setChan c (y.leave u)).postRawChannel raw c
      else if (y.leave u).head = [] ∧ (y.leave u).autodestroy = true then
        (t.setChan c (y.leave u)).freeChan c
      else .ok (t.setChan c (y.leave u)) := by
  have hxs : (s.setUser u (x.leave c)).users u = some (x.leave c) := by simp
  have hys : (s.setUser u (x.leave c)).chans c = some y := hy
  set raw := (s.setUser u (x.leave c)).forgeRaw (bytes "LEFT") (userAndPipe x y)
  refine ⟨raw, _, post_posted raw (x.leave c).subuser, ?_⟩
  have hp : (s.setUser u (x.leave c)).postRaw raw u =
      .ok ((s.setUser u (x.leave c)).post raw (x.leave c).subuser) :=
    postRaw_eq (own_leave ho hx) hxs
  have hon : isonchannel x c = true := by simpa [isonchannel] using hc
  unfold left
  simp only [user_eq hx, ok_bind, hon, Bool.not_true, Bool.false_eq_true, if_false, chan_eq hys, hu,
    decide_true]
  rw [hp]
  rfl

/-- What `left` does to the roster. -/
theorem left_roster (h : s.roster.Wf) (hl : s.left u c = .ok s') :
    s'.roster = s.roster.left u c := by
  have hl' := hl
  obtain ⟨x, hx, hl⟩ := bind_ok hl
  replace hx := user_ok hx
  by_cases hc : c ∈ x.chan_foot
  · obtain ⟨y, hy, hu⟩ := foot_live h hx hc
    obtain ⟨raw, t, ht, he⟩ := left_eq h.owned hx hc hy hu
    have hnil : (y.leave u).head = [] ↔ y.users.erase u = [] := by
      rw [← leave_users, users_eq_nil]
    have hboth := roster_left_both (y := y) ht
    rw [Roster.left_of_mem (roster_users hx) (roster_chans hy) hc]
    rw [hl'] at he
    split at he
    · next hpost =>
      rw [if_neg fun hf => hpost.1 (hnil.mpr hf.1), ← hboth]
      exact (postRawChannel_posted he.symm).roster
    · split at he
      · next hfree =>
        have hfree' : y.links.users.erase u = [] ∧ y.links.autodestroy = true :=
          ⟨hnil.mp hfree.1, hfree.2⟩
        have hys : (t.setChan c (y.leave u)).chans c = some (y.leave u) := by simp
        rw [freeChan_eq hys] at he
        cases he
        rw [if_pos hfree', roster_withoutChan, hboth]
        congr 1
        rw [Channel.links, leave_users, hnil.mp hfree.1]
        rfl
      · next hkeep =>
        cases he
        rw [if_neg fun hf => hkeep ⟨hnil.mpr hf.1, hf.2⟩, hboth]
  · have hon : isonchannel x c = false := by simpa [isonchannel] using hc
    simp only [hon, Bool.not_false, if_true] at hl
    cases hl
    rw [Roster.left_of_not_mem (roster_users hx) hc]

theorem left_completes (h : s.roster.Wf) (hx : s.users u = some x) :
    ∃ s', s.left u c = .ok s' := by
  by_cases hc : c ∈ x.chan_foot
  · obtain ⟨y, hy, hu⟩ := foot_live h hx hc
    obtain ⟨raw, t, ht, he⟩ := left_eq h.owned hx hc hy hu
    have hys : (t.setChan c (y.leave u)).chans c = some (y.leave u) := by simp
    have hwf : (t.setChan c (y.leave u)).roster.Wf := by
      rw [roster_left_both ht]
      exact h.unlink (roster_users hx) (roster_chans hy)
    rw [he]
    split
    · exact ⟨_, postRawChannel_eq hwf hys⟩
    · split
      · exact ⟨_, freeChan_eq hys⟩
      · exact ⟨_, rfl⟩
  · refine ⟨s, ?_⟩
    simp only [left, user_eq hx, ok_bind, isonchannel, hc, decide_false, Bool.not_false, if_true]
    rfl

theorem left_wf (h : s.roster.Wf) (hl : s.left u c = .ok s') : s'.roster.Wf := by
  rw [left_roster h hl]
  exact h.left u c

/-! ### `rmchan` -/

theorem leftMembers_roster {l : List Member} (h : s.roster.Wf)
    (hl : s.leftMembers c l = .ok s') :
    s'.roster = s.roster.leaveAll c (l.map Member.userinfo) := by
  induction l generalizing s with
  | nil =>
    cases hl
    rfl
  | cons m l ih =>
    obtain ⟨y, -, hl⟩ := bind_ok hl
    split at hl
    · obtain ⟨t, ht, hl⟩ := bind_ok hl
      rw [ih (left_wf h ht) hl, left_roster h ht]
      rfl
    · cases hl

/-- The loop of `rmchan` always finds the node it goes on from. -/
theorem leftMembers_completes {l : List Member} (h : s.roster.Wf) (hy : s.chans c = some y)
    (hm : y.users = l.map Member.userinfo) (ha : y.autodestroy = false) :
    ∃ s' y', s.leftMembers c l = .ok s' ∧ s'.chans c = some y' := by
  induction l generalizing s y with
  | nil => exact ⟨s, y, rfl, hy⟩
  | cons m l ih =>
    have hmem : m.userinfo ∈ y.users := by simp [hm]
    obtain ⟨x, hx, -⟩ := member_live h hy hmem
    obtain ⟨t, ht⟩ := left_completes (c := c) h hx
    have hroster := left_roster h ht
    have hchan : t.roster.chans c = some { y.links with users := y.users.erase m.userinfo } := by
      rw [hroster]
      exact Roster.left_chan h (roster_chans hy) hmem (by simp [Channel.links, ha])
    obtain ⟨z, hz, hl⟩ := Option.map_eq_some_iff.mp hchan
    have hzu : z.users = l.map Member.userinfo := by
      rw [← links_users, hl]
      simp [hm]
    have hza : z.autodestroy = false := (congrArg ChanLinks.autodestroy hl).trans ha
    obtain ⟨s', y', hs', hy'⟩ := ih (left_wf h ht) hz hzu hza
    refine ⟨s', y', ?_, hy'⟩
    simp only [leftMembers, chan_eq hy, ok_bind, hmem, if_true, ht]
    exact hs'

theorem rmchan_roster (h : s.roster.Wf) (hl : s.rmchan c = .ok s') :
    ∃ y, s.chans c = some y ∧ s'.roster = s.roster.rmchan c y.links := by
  obtain ⟨y, hy, hl⟩ := bind_ok hl
  replace hy := chan_ok hy
  refine ⟨y, hy, ?_⟩
  obtain ⟨t, ht, hl⟩ := bind_ok hl
  unfold evict at ht
  split at ht
  · next hne =>
    have h1 : (s.setChan c { y with nonInteractive := true, autodestroy := false }).roster =
        s.roster.setChan c { y.links with autodestroy := false } := roster_setChan
    have hwf : (s.roster.setChan c { y.links with autodestroy := false }).Wf :=
      h.setChan (roster_chans hy) rfl
    have ht' := leftMembers_roster (by rw [h1]; exact hwf) ht
    have hu : y.links.users ≠ [] := fun hu => hne (users_eq_nil.mp hu)
    have hchan : t.roster.chans c = some { y.links with autodestroy := false, users := [] } := by
      rw [ht', h1]
      exact Roster.leaveAll_chan hwf (Function.update_self ..) rfl rfl
    obtain ⟨z, hz, hzl⟩ := Option.map_eq_some_iff.mp hchan
    rw [freeChan_eq hz] at hl
    cases hl
    rw [roster_withoutChan, hzl, ht', h1, Roster.rmchan, if_neg hu]
    rfl
  · next hnil =>
    cases ht
    rw [freeChan_eq hy] at hl
    cases hl
    have hu : y.links.users = [] := users_eq_nil.mpr (not_not.mp hnil)
    rw [roster_withoutChan, Roster.rmchan, if_pos hu]

/-- The channel `left` destroys goes the way of every other channel. -/
theorem rmchan_of_empty (hy : s.chans c = some y) (hn : y.head = []) :
    s.rmchan c = s.freeChan c := by
  simp only [rmchan, evict, chan_eq hy, ok_bind, hn, ne_eq, not_true_eq_false, if_false]

theorem rmchan_completes (h : s.roster.Wf) (hy : s.chans c = some y) :
    ∃ s', s.rmchan c = .ok s' := by
  by_cases hne : y.head = []
  · exact ⟨_, (rmchan_of_empty hy hne).trans (freeChan_eq hy)⟩
  · set y' : Channel := { y with nonInteractive := true, autodestroy := false }
    have hwf : (s.setChan c y').roster.Wf := by
      rw [roster_setChan]
      exact h.setChan (roster_chans hy) rfl
    obtain ⟨t, z, ht, hz⟩ := leftMembers_completes hwf (Function.update_self ..) rfl rfl
    have he : s.evict c y = .ok t := by
      rw [evict, if_pos hne]
      exact ht
    refine ⟨t.withoutChan c z, ?_⟩
    simp only [rmchan, chan_eq hy, ok_bind, he]
    exact freeChan_eq hz

/-! ### `left_all` -/

theorem leftChans_roster {l : List ChanId} (h : s.roster.Wf) (hl : s.leftChans u l = .ok s') :
    s'.roster = s.roster.quitAll u l := by
  induction l generalizing s with
  | nil =>
    cases hl
    rfl
  | cons c l ih =>
    obtain ⟨x, -, hl⟩ := bind_ok hl
    split at hl
    · obtain ⟨t, ht, hl⟩ := bind_ok hl
      rw [ih (left_wf h ht) hl, left_roster h ht]
      rfl
    · cases hl

theorem leftAll_roster (h : s.roster.Wf) (hl : s.leftAll u = .ok s') :
    ∃ x, s.users u = some x ∧ s'.roster = s.roster.quitAll u x.chan_foot := by
  obtain ⟨x, hx, hl⟩ := bind_ok hl
  exact ⟨x, user_ok hx, leftChans_roster h hl⟩

/-- The loop of `left_all` always finds the node it goes on from. -/
theorem leftChans_completes {l : List ChanId} (h : s.roster.Wf) (hx : s.users u = some x)
    (hf : x.chan_foot = l) : ∃ s', s.leftChans u l = .ok s' := by
  induction l generalizing s x with
  | nil => exact ⟨s, rfl⟩
  | cons c l ih =>
    obtain ⟨t, ht⟩ := left_completes (c := c) h hx
    have huser : t.roster.users u = some { x.links with chan_foot := l } := by
      rw [left_roster h ht, Roster.left_users h (roster_users hx), Function.update_self,
        show x.links.chan_foot = c :: l from hf, List.erase_cons_head]
    obtain ⟨x', hx', hl'⟩ := Option.map_eq_some_iff.mp huser
    obtain ⟨s', hs'⟩ := ih (left_wf h ht) hx' (congrArg UserLinks.chan_foot hl')
    refine ⟨s', ?_⟩
    have hmem : c ∈ x.chan_foot := by simp [hf]
    simp only [leftChans, user_eq hx, ok_bind, hmem, if_true, ht]
    exact hs'

theorem leftAll_completes (h : s.roster.Wf) (hx : s.users u = some x) :
    ∃ s', s.leftAll u = .ok s' := by
  simp only [leftAll, user_eq hx, ok_bind]
  exact leftChans_completes h hx rfl

/-! ### `join` -/

theorem welcome_posted {jlist : JsonItem} {head : List Member}
    (hl : s.welcome u x c y head = .ok (jlist, s')) : Posted s s' := by
  unfold welcome at hl
  split at hl
  · cases hl
    exact .refl
  · split at hl
    · obtain ⟨t, ht, hl⟩ := bind_ok hl
      obtain ⟨users, -, hl⟩ := bind_ok hl
      cases hl
      exact postRawChannelRestricted_posted ht
    · obtain ⟨users, -, hl⟩ := bind_ok hl
      cases hl
      exact .refl

/-- What `join` writes, but for the queues. -/
theorem join_posted (h : s.join u c = .ok s') : ∃ x, s.users u = some x ∧
    (c ∈ x.chan_foot ∧ s' = s ∨ c ∉ x.chan_foot ∧ ∃ y, s.chans c = some y ∧
      Posted ((s.setChan c { y with head := ⟨u, 1⟩ :: y.head }).setUser u
        { x with chan_foot := c :: x.chan_foot }) s') := by
  obtain ⟨x, hx, h⟩ := bind_ok h
  refine ⟨x, user_ok hx, ?_⟩
  by_cases hc : c ∈ x.chan_foot
  · have hon : isonchannel x c = true := by simpa [isonchannel] using hc
    rw [if_pos hon] at h
    cases h
    exact .inl ⟨hc, rfl⟩
  · have hon : ¬isonchannel x c = true := by simpa [isonchannel] using hc
    rw [if_neg hon] at h
    obtain ⟨y, hy, h⟩ := bind_ok h
    obtain ⟨⟨jlist, t⟩, ht, h⟩ := bind_ok h
    exact .inr ⟨hc, y, chan_ok hy, (welcome_posted ht).trans (postRaw_posted h)⟩

/-- What `join` does to the roster. -/
theorem join_roster (hl : s.join u c = .ok s') : ∃ x, s.users u = some x ∧
    (c ∈ x.chan_foot ∧ s' = s ∨ c ∉ x.chan_foot ∧
      ∃ y, s.chans c = some y ∧ s'.roster = s.roster.link u x.links c y.links) := by
  obtain ⟨x, hx, hsame | ⟨hc, y, hy, hp⟩⟩ := join_posted hl
  · exact ⟨x, hx, .inl hsame⟩
  · refine ⟨x, hx, .inr ⟨hc, y, hy, ?_⟩⟩
    rw [hp.roster, roster_setUser, roster_setChan]
    rfl

theorem join_wf (h : s.roster.Wf) (hl : s.join u c = .ok s') : s'.roster.Wf := by
  obtain ⟨x, hx, ⟨-, rfl⟩ | ⟨hc, y, hy, hr⟩⟩ := join_roster hl
  · exact h
  · rw [hr]
    exact h.link (roster_users hx) (roster_chans hy) hc

theorem channelUsers_completes {l : List Member} (hl : ∀ m ∈ l, s.users m.userinfo ≠ none) :
    ∃ j, s.channelUsers l = .ok j := by
  obtain ⟨j, hj, -⟩ := foldlM_completes (fun _ : JsonItem => True)
    (f := fun l (m : Member) => do
      let x ← s.user m.userinfo
      return l.setElement ((getJsonObjectUser x).setInt (bytes "level") m.level))
    (l := l) (s := .newArray) (fun j m hm _ => by
      obtain ⟨x, hx⟩ := Option.ne_none_iff_exists'.mp (hl m hm)
      simp only [user_eq hx, ok_bind]
      exact ⟨_, rfl, trivial⟩) trivial
  exact ⟨j, hj⟩

theorem welcome_completes {z : Channel} (h : s.roster.Wf) (hz : s.chans c = some z) :
    ∃ r, s.welcome u x c y z.head = .ok r := by
  have hlive : ∀ m ∈ z.head, s.users m.userinfo ≠ none := by
    intro m hm
    obtain ⟨v, hv, -⟩ := member_live h hz (List.mem_map_of_mem hm)
    simp [hv]
  unfold welcome
  split
  · exact ⟨_, rfl⟩
  · split
    · set raw := s.forgeRaw (bytes "JOIN") (userAndPipe x y)
      obtain ⟨j, hj⟩ := channelUsers_completes
        (s := s.post raw (s.subsOf (z.users.filter (· ≠ u)))) hlive
      simp only [postRawChannelRestricted_eq h hz, ok_bind, hj]
      exact ⟨_, rfl⟩
    · obtain ⟨j, hj⟩ := channelUsers_completes hlive
      simp only [hj, ok_bind]
      exact ⟨_, rfl⟩

theorem join_completes (h : s.roster.Wf) (hx : s.users u = some x) (hy : s.chans c = some y) :
    ∃ s', s.join u c = .ok s' := by
  by_cases hc : c ∈ x.chan_foot
  · refine ⟨s, ?_⟩
    have hon : isonchannel x c = true := by simpa [isonchannel] using hc
    simp only [join, user_eq hx, ok_bind, hon, if_true]
    rfl
  · have hon : isonchannel x c = false := by simpa [isonchannel] using hc
    set y' : Channel := { y with head := ⟨u, 1⟩ :: y.head }
    set x' : User := { x with chan_foot := c :: x.chan_foot }
    have hwf : ((s.setChan c y').setUser u x').roster.Wf := by
      rw [roster_setUser, roster_setChan]
      exact h.link (roster_users hx) (roster_chans hy) hc
    have hxt : ((s.setChan c y').setUser u x').users u = some x' := by simp
    have hyt : ((s.setChan c y').setUser u x').chans c = some y' := by simp
    obtain ⟨⟨jlist, t⟩, ht⟩ := welcome_completes (u := u) (x := x) (y := y) hwf hyt
    have hp := welcome_posted ht
    have hj : s.join u c = t.postRaw (t.forgeRaw (bytes "CHANNEL")
        (jlist.setObj (bytes "pipe") (getJsonObjectChannel y))) u := by
      simp only [join, user_eq hx, ok_bind, hon, Bool.false_eq_true, if_false, chan_eq hy]
      change (Ape.welcome _ u x c y y'.head >>= _) = _
      rw [ht]
      rfl
    exact ⟨_, hj.trans (postRaw_eq (by rw [hp.roster]; exact hwf.owned)
      (by rw [hp.users]; exact hxt))⟩

/-! ### `ban` -/

section Ban

variable {banner : Option UserId} {ip reason : Bytes} {nextime : ℤ} {b : Banned}
  {bTmp : List Banned} {isban : Bool} {l : List Member}

/-- The bans of a channel are no part of the roster. -/
theorem recordBan_roster (hy : s.chans c = some y) :
    (s.recordBan c y isban b bTmp).roster = s.roster := by
  unfold recordBan
  split
  · rfl
  · exact roster_setChan_of hy rfl

theorem recordBan_users : (s.recordBan c y isban b bTmp).users = s.users := by
  unfold recordBan
  split <;> rfl

theorem banOne_roster (h : s.roster.Wf) (hy : s.chans c = some y)
    (hl : s.banOne c y banner reason isban b bTmp u = .ok s') :
    s'.roster = s.roster.left u c := by
  obtain ⟨v, -, hl⟩ := bind_ok hl
  obtain ⟨x, -, hl⟩ := bind_ok hl
  obtain ⟨t, ht, hl⟩ := bind_ok hl
  have hp := postRaw_posted ht
  have hr : (t.recordBan c y isban b bTmp).roster = s.roster :=
    (recordBan_roster (by rw [hp.chans]; exact hy)).trans hp.roster
  rw [left_roster (hr ▸ h) hl, hr]

theorem banOne_completes {v : UserId} {xv : User} (reason : Bytes) (isban : Bool) (b : Banned)
    (bTmp : List Banned) (h : s.roster.Wf) (hy : s.chans c = some y)
    (hv : s.users v = some xv) (hx : s.users u = some x) :
    ∃ s', s.banOne c y (some v) reason isban b bTmp u = .ok s' := by
  simp only [banOne, deref, user_eq hv, ok_bind, postRaw_eq h.owned hx]
  refine left_completes (x := x) ?_ ?_
  · rw [recordBan_roster (s := s.post _ _) hy, (post_posted _ _).roster]
    exact h
  · rw [recordBan_users]
    exact hx

/-- `ban` makes some members leave, whatever it records. -/
theorem banMembers_roster (h : s.roster.Wf)
    (hl : s.banMembers c banner ip reason nextime bTmp isban l = .ok s') :
    ∃ us, s'.roster = s.roster.leaveAll c us := by
  induction l generalizing s isban with
  | nil =>
    rw [banMembers] at hl
    cases hl
    exact ⟨[], rfl⟩
  | cons m l ih =>
    rw [banMembers] at hl
    obtain ⟨y, hy, hl⟩ := bind_ok hl
    split at hl
    · obtain ⟨x, -, hl⟩ := bind_ok hl
      split at hl
      · obtain ⟨t, ht, hl⟩ := bind_ok hl
        have hr := banOne_roster h (chan_ok hy) ht
        obtain ⟨us, hus⟩ := ih (hr ▸ h.left m.userinfo c) hl
        refine ⟨m.userinfo :: us, ?_⟩
        rw [hus, hr]
        rfl
      · exact ih h hl
    · cases hl

theorem ban_roster {expire : UInt32} (h : s.roster.Wf)
    (hl : s.ban c banner ip reason expire = .ok s') :
    ∃ us, s'.roster = s.roster.leaveAll c us := by
  obtain ⟨y, -, hl⟩ := bind_ok hl
  exact banMembers_roster h hl

/-- The loop of `ban` finds the channel and the node it goes on from, also when it is the
last member that is banned. -/
theorem banMembers_completes {v : UserId} (isban : Bool) (h : s.roster.Wf) (hv : s.users v ≠ none)
    (hd : (l.map Member.userinfo).Nodup)
    (hl : l ≠ [] → ∃ y, s.chans c = some y ∧ ∀ m ∈ l, m.userinfo ∈ y.users) :
    ∃ s', s.banMembers c (some v) ip reason nextime bTmp isban l = .ok s' := by
  induction l generalizing s isban with
  | nil => exact ⟨s, by rw [banMembers]⟩
  | cons m l ih =>
    obtain ⟨y, hy, hmem⟩ := hl (by simp)
    have hm := hmem m List.mem_cons_self
    obtain ⟨x, hx, -⟩ := member_live h hy hm
    obtain ⟨xv, hxv⟩ := Option.ne_none_iff_exists'.mp hv
    obtain ⟨hn, hd⟩ := List.nodup_cons.mp hd
    by_cases hip : x.ip = ip
    · obtain ⟨t, ht⟩ := banOne_completes reason isban ⟨ip.take 16, reason.take 255, nextime⟩ bTmp
        h hy hxv hx
      have hr := banOne_roster h hy ht
      have hwf : t.roster.Wf := hr ▸ h.left m.userinfo c
      have hvt : t.users v ≠ none := by
        rw [← roster_live, hr, Roster.left_live, roster_live]
        exact hv
      have hrest : l ≠ [] → ∃ y', t.chans c = some y' ∧ ∀ m' ∈ l, m'.userinfo ∈ y'.users := by
        intro hne
        have hstay : ∀ m' ∈ l, m'.userinfo ∈ y.users.erase m.userinfo := by
          intro m' hm'
          have hne' : m'.userinfo ≠ m.userinfo := fun he => hn (he ▸ List.mem_map_of_mem hm')
          exact (List.mem_erase_of_ne hne').mpr (hmem m' (List.mem_cons_of_mem m hm'))
        obtain ⟨m', hm'⟩ := List.exists_mem_of_ne_nil l hne
        have hchan := Roster.left_chan h (roster_chans hy) hm fun hf =>
          List.ne_nil_of_mem (hstay m' hm') hf.1
        rw [← hr] at hchan
        obtain ⟨z, hz, hzl⟩ := Option.map_eq_some_iff.mp hchan
        exact ⟨z, hz, by rw [← links_users, hzl]; exact hstay⟩
      obtain ⟨s', hs'⟩ := ih true hwf hvt hd hrest
      refine ⟨s', ?_⟩
      rw [banMembers]
      simp only [chan_eq hy, ok_bind, hm, if_true, user_eq hx, hip, ht]
      exact hs'
    · obtain ⟨s', hs'⟩ := ih isban h hv hd fun _ =>
        ⟨y, hy, fun m' hm' => hmem m' (List.mem_cons_of_mem m hm')⟩
      refine ⟨s', ?_⟩
      rw [banMembers]
      simp only [chan_eq hy, ok_bind, hm, if_true, user_eq hx, hip, if_false]
      exact hs'

end Ban

end Ape

end ApeServer
