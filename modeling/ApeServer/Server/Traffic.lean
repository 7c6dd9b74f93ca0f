import ApeServer.Server.Sound

/-!
# Traffic

What the operations on users and channels do to the lists of the channels: leaving takes members
out, joining puts one in front, and no operation here takes a ban away from a channel it leaves
there.
-/
namespace ApeServer

open Sock (Bytes)
open Steps (ok_bind bind_ok)

/-- Members, channels and users may be gone, and bans may be new; the rest is as it was. -/
structure Thinned (s s' : Ape) : Prop where
  chans : ∀ d y', s'.chans d = some y' → ∃ y, s.chans d = some y ∧ y'.head.Sublist y.head ∧
    y.banned ⊆ y'.banned ∧ y'.name = y.name
  ips : ∀ v x', s'.users v = some x' → ∃ x, s.users v = some x ∧ x'.ip = x.ip
  time : s'.time = s.time

namespace Thinned

variable {s t s' : Ape} {u : UserId} {c : ChanId} {x w : User} {y z : Channel}

theorem refl : Thinned s s :=
  ⟨fun _ y hy => ⟨y, hy, .refl _, List.Subset.refl _, rfl⟩, fun _ x hx => ⟨x, hx, rfl⟩, rfl⟩

theorem trans (h : Thinned s t) (h' : Thinned t s') : Thinned s s' where
  chans d y' hy' := by
    obtain ⟨z, hz, hsub, hban, hname⟩ := h'.chans d y' hy'
    obtain ⟨y, hy, hsub', hban', hname'⟩ := h.chans d z hz
    exact ⟨y, hy, hsub.trans hsub', List.Subset.trans hban' hban, hname.trans hname'⟩
  ips v x' hx' := by
    obtain ⟨z, hz, hip⟩ := h'.ips v x' hx'
    obtain ⟨x, hx, hip'⟩ := h.ips v z hz
    exact ⟨x, hx, hip.trans hip'⟩
  time := h'.time.trans h.time

/-- A step that writes neither users nor channels nor the clock. -/
theorem of_same (hu : s'.users = s.users) (hc : s'.chans = s.chans) (ht : s'.time = s.time) :
    Thinned s s' :=
  ⟨fun _ y hy => ⟨y, hc ▸ hy, .refl _, List.Subset.refl _, rfl⟩, fun _ x hx => ⟨x, hu ▸ hx, rfl⟩, ht⟩

theorem of_posted (h : Ape.Posted s s') : Thinned s s' := of_same h.users h.chans (by rw [h.rest])

theorem setUser (hx : s.users u = some x) (hip : w.ip = x.ip) : Thinned s (s.setUser u w) where
  chans d y hy := ⟨y, hy, .refl _, List.Subset.refl _, rfl⟩
  ips v z hz := by
    by_cases hv : v = u
    · subst hv
      simp only [Ape.setUser_users, Function.update_self, Option.some.injEq] at hz
      subst hz
      exact ⟨x, hx, hip⟩
    · rw [Ape.setUser_users, Function.update_of_ne hv] at hz
      exact ⟨z, hz, rfl⟩
  time := rfl

theorem setChan (hy : s.chans c = some y) (hsub : z.head.Sublist y.head)
    (hban : y.banned ⊆ z.banned) (hname : z.name = y.name) : Thinned s (s.setChan c z) where
  chans d y' hy' := by
    by_cases hd : d = c
    · subst hd
      simp only [Ape.setChan_chans, Function.update_self, Option.some.injEq] at hy'
      subst hy'
      exact ⟨y, hy, hsub, hban, hname⟩
    · rw [Ape.setChan_chans, Function.update_of_ne hd] at hy'
      exact ⟨y', hy', .refl _, List.Subset.refl _, rfl⟩
  ips v x hx := ⟨x, hx, rfl⟩
  time := rfl

end Thinned

namespace Ape

variable {s t s' : Ape} {u v : UserId} {c d : ChanId} {x : User} {y : Channel}

theorem freeChan_thinned (h : s.freeChan c = .ok s') : Thinned s s' := by
  obtain ⟨y, hy, h⟩ := bind_ok h
  cases h
  refine ⟨fun d z hz => ?_, fun v x hx => ⟨x, hx, rfl⟩, rfl⟩
  by_cases hd : d = c
  · subst hd
    simp at hz
  · replace hz : s.chans d = some z := by simpa [destroyPipe, hd] using hz
    exact ⟨z, hz, .refl _, List.Subset.refl _, rfl⟩

theorem left_thinned (h : s.left u c = .ok s') : Thinned s s' := by
  obtain ⟨x, hx, h⟩ := bind_ok h
  split at h
  · cases h
    exact .refl
  · have hfirst : Thinned s (s.setUser u (x.leave c)) := .setUser (user_ok hx) rfl
    obtain ⟨y, hy, h⟩ := bind_ok h
    split at h
    · cases h
      exact hfirst
    · obtain ⟨t, ht, h⟩ := bind_ok h
      have hpost := hfirst.trans (.of_posted (postRaw_posted ht))
      have hyt : t.chans c = some y := by
        rw [(postRaw_posted ht).chans]
        exact chan_ok hy
      have hleave := hpost.trans (.setChan (z := y.leave u) hyt
        List.eraseP_sublist (List.Subset.refl _) rfl)
      dsimp only at h
      split at h
      · exact hleave.trans (.of_posted (postRawChannel_posted h))
      · split at h
        · exact hleave.trans (freeChan_thinned h)
        · cases h
          exact hleave

theorem leftMembers_thinned {l : List Member} (h : s.leftMembers c l = .ok s') :
    Thinned s s' := by
  induction l generalizing s with
  | nil =>
    cases h
    exact .refl
  | cons m l ih =>
    obtain ⟨y, -, h⟩ := bind_ok h
    split at h
    · obtain ⟨t, ht, h⟩ := bind_ok h
      exact (left_thinned ht).trans (ih h)
    · cases h

theorem rmchan_thinned (h : s.rmchan c = .ok s') : Thinned s s' := by
  obtain ⟨y, hy, h⟩ := bind_ok h
  obtain ⟨t, ht, h⟩ := bind_ok h
  refine .trans ?_ (freeChan_thinned h)
  unfold evict at ht
  split at ht
  · have hset : Thinned s (s.setChan c { y with nonInteractive := true, autodestroy := false }) :=
      .setChan (chan_ok hy) (.refl _) (List.Subset.refl _) rfl
    exact hset.trans (leftMembers_thinned ht)
  · cases ht
    exact .refl

theorem leftChans_thinned {l : List ChanId} (h : s.leftChans u l = .ok s') : Thinned s s' := by
  induction l generalizing s with
  | nil =>
    cases h
    exact .refl
  | cons c l ih =>
    obtain ⟨x, -, h⟩ := bind_ok h
    split at h
    · obtain ⟨t, ht, h⟩ := bind_ok h
      exact (left_thinned ht).trans (ih h)
    · cases h

theorem leftAll_thinned (h : s.leftAll u = .ok s') : Thinned s s' := by
  obtain ⟨x, -, h⟩ := bind_ok h
  exact leftChans_thinned h

/-! ### `deluser` behind its channels -/

/-- The channels are as they were. -/
structure Aside (s s' : Ape) : Prop where
  thinned : Thinned s s'
  chans : s'.chans = s.chans

theorem Aside.trans (h : Aside s t) (h' : Aside t s') : Aside s s' :=
  ⟨h.thinned.trans h'.thinned, h'.chans.trans h.chans⟩

theorem aside_safeShutdown (s : Ape) (fd : Fd) : Aside s (s.safeShutdown fd) := by
  unfold safeShutdown
  dsimp only
  split <;> exact ⟨.of_same rfl rfl rfl, rfl⟩

theorem doDied_aside {i : SubId} (h : s.doDied i = .ok s') : Aside s s' := by
  obtain ⟨y, -, h⟩ := bind_ok h
  split at h
  · cases h
    have hset : Aside s (s.setSub i { y with state := .adied, headersSent := false }) :=
      ⟨.of_same rfl rfl rfl, rfl⟩
    exact hset.trans (aside_safeShutdown _ _)
  · cases h
    exact ⟨.refl, rfl⟩

theorem delsubuser_aside {i : SubId} (h : s.delsubuser u i = .ok s') : Aside s s' := by
  obtain ⟨y, -, h⟩ := bind_ok h
  obtain ⟨w, -, h⟩ := bind_ok h
  obtain ⟨x, hx, h⟩ := bind_ok h
  obtain ⟨z, hz, h⟩ := bind_ok h
  have hfirst : Thinned s (s.setUser w { x with nsub := x.nsub - 1 }) :=
    .setUser (user_ok hx) rfl
  have hboth := hfirst.trans (.setUser (w := { z with subuser := z.subuser.erase i })
    (user_ok hz) rfl)
  dsimp only at h
  split at h
  · refine Aside.trans ⟨hboth.trans ?_, ?_⟩ (doDied_aside h)
    · exact .of_same rfl rfl rfl
    · rfl
  · cases h
    exact ⟨hboth.trans (.of_same rfl rfl rfl), rfl⟩

theorem clearSubs_aside {l : List SubId} (h : s.clearSubs u l = .ok s') : Aside s s' := by
  induction l generalizing s with
  | nil =>
    cases h
    exact ⟨.refl, rfl⟩
  | cons i l ih =>
    obtain ⟨x, -, h⟩ := bind_ok h
    split at h
    · cases h
      exact ⟨.refl, rfl⟩
    · obtain ⟨t, ht, h⟩ := bind_ok h
      exact (delsubuser_aside ht).trans (ih h)

theorem setNext_aside {p q : Option UserId} (h : s.setNext p q = .ok s') : Aside s s' := by
  cases p with
  | none =>
    cases h
    exact ⟨.of_same rfl rfl rfl, rfl⟩
  | some n =>
    obtain ⟨x, hx, h⟩ := bind_ok h
    cases h
    exact ⟨.setUser (user_ok hx) rfl, rfl⟩

theorem setPrev_aside {p q : Option UserId} (h : s.setPrev p q = .ok s') : Aside s s' := by
  cases p with
  | none =>
    cases h
    exact ⟨.refl, rfl⟩
  | some n =>
    obtain ⟨x, hx, h⟩ := bind_ok h
    cases h
    exact ⟨.setUser (user_ok hx) rfl, rfl⟩

theorem deluser_left (h : s.deluser u = .ok s') :
    ∃ t, s.leftAll u = .ok t ∧ Aside t s' := by
  obtain ⟨t, ht, h⟩ := bind_ok h
  refine ⟨t, ht, ?_⟩
  obtain ⟨t₁, ht₁, h⟩ := bind_ok h
  obtain ⟨x, -, ht₁⟩ := bind_ok ht₁
  obtain ⟨z, -, h⟩ := bind_ok h
  obtain ⟨t₂, ht₂, h⟩ := bind_ok h
  obtain ⟨t₃, ht₃, h⟩ := bind_ok h
  cases h
  have hsame : Aside t₁ { t₁ with
      hSessid := t₁.hSessid.erase z.sessid, nConnected := t₁.nConnected - 1 } :=
    ⟨.of_same rfl rfl rfl, rfl⟩
  have hlinks := ((clearSubs_aside ht₁).trans hsame).trans
    ((setNext_aside ht₂).trans (setPrev_aside ht₃))
  refine hlinks.trans ⟨⟨fun d y hy => ⟨y, hy, .refl _, List.Subset.refl _, rfl⟩,
    fun v x' hx' => ?_, rfl⟩, rfl⟩
  by_cases hv : v = u
  · subst hv
    simp at hx'
  · refine ⟨x', ?_, rfl⟩
    simpa [destroyPipe, hv] using hx'

theorem deluser_thinned (h : s.deluser u = .ok s') : Thinned s s' := by
  obtain ⟨t, ht, haside⟩ := deluser_left h
  exact (leftAll_thinned ht).trans haside.thinned

/-! ### Bans -/

section Ban

variable {banner : Option UserId} {ip reason : Bytes} {nextime : ℤ} {b : Banned}
  {bTmp : List Banned} {isban : Bool} {l : List Member} {expire : UInt32}

theorem recordBan_thinned (hy : s.chans c = some y) (hb : isban = false → y.banned ⊆ bTmp) :
    Thinned s (s.recordBan c y isban b bTmp) := by
  unfold recordBan
  split
  · exact .refl
  · next hnew =>
    refine .setChan hy (.refl _) ?_ rfl
    exact List.subset_cons_of_subset b (hb (by simpa using hnew))

theorem banOne_thinned (hy : s.chans c = some y) (hb : isban = false → y.banned ⊆ bTmp)
    (h : s.banOne c y banner reason isban b bTmp u = .ok s') : Thinned s s' := by
  obtain ⟨v, -, h⟩ := bind_ok h
  obtain ⟨x, -, h⟩ := bind_ok h
  obtain ⟨t, ht, h⟩ := bind_ok h
  have hpost := postRaw_posted ht
  have hyt : t.chans c = some y := by
    rw [hpost.chans]
    exact hy
  exact (Thinned.of_posted hpost).trans ((recordBan_thinned hyt hb).trans (left_thinned h))

theorem banMembers_thinned (hb : isban = false → ∀ y, s.chans c = some y → y.banned ⊆ bTmp)
    (h : s.banMembers c banner ip reason nextime bTmp isban l = .ok s') : Thinned s s' := by
  induction l generalizing s isban with
  | nil =>
    rw [banMembers] at h
    cases h
    exact .refl
  | cons m l ih =>
    rw [banMembers] at h
    obtain ⟨y, hy, h⟩ := bind_ok h
    split at h
    · obtain ⟨x, -, h⟩ := bind_ok h
      split at h
      · obtain ⟨t, ht, h⟩ := bind_ok h
        have hone := banOne_thinned (chan_ok hy) (fun hf => hb hf y (chan_ok hy)) ht
        refine hone.trans (ih ?_ h)
        intro hf
        cases hf
      · exact ih hb h
    · cases h

theorem ban_thinned (h : s.ban c banner ip reason expire = .ok s') : Thinned s s' := by
  obtain ⟨y, hy, h⟩ := bind_ok h
  refine banMembers_thinned (fun _ z hz => ?_) h
  rw [chan_ok hy] at hz
  cases hz
  exact List.Subset.refl _

end Ban

/-! ### Joining and creating -/

/-- A new channel is empty and has no ban. -/
theorem mkchan_spec {name : Bytes} {auto : Bool} {o : Option ChanId}
    (h : s.mkchan name auto = .ok (o, s')) : s'.users = s.users ∧ s'.time = s.time ∧
    (o = none ∧ s' = s ∨ ∃ n y, isvalidchan name = some n ∧ o = some s.fresh ∧
      s'.chans = Function.update s.chans s.fresh (some y) ∧ y.head = [] ∧ y.name = n) := by
  unfold mkchan at h
  split at h
  · cases h
    exact ⟨rfl, rfl, .inl ⟨rfl, rfl⟩⟩
  · next n hv =>
    obtain ⟨⟨pubid, t⟩, ht, h⟩ := bind_ok h
    obtain ⟨-, ds, rfl⟩ := initPipe_spec ht
    cases h
    exact ⟨rfl, rfl, .inr ⟨n, _, hv, rfl, rfl, rfl, rfl⟩⟩

theorem addsubuser_aside {client : Fd} {host : Bytes} {o : Option SubId}
    (h : s.addsubuser client host u = .ok (o, s')) : Aside s s' := by
  rcases addsubuser_spec h with ⟨-, rfl⟩ | ⟨x, y, hx, -, -, -, -, rfl⟩
  · exact ⟨.refl, rfl⟩
  · have hfresh : Thinned s { s with fresh := s.fresh + 1 } := .of_same rfl rfl rfl
    have huser := hfresh.trans
      (.setUser (w := { x with nsub := x.nsub + 1, subuser := s.fresh :: x.subuser }) hx rfl)
    exact ⟨huser.trans (.of_same rfl rfl rfl), rfl⟩

/-- A new user is on no channel. -/
theorem allocUser_chans {client : Fd} {host ip : Bytes}
    (h : s.allocUser client host ip = .ok (u, s')) :
    s'.chans = s.chans ∧ s'.time = s.time := by
  obtain ⟨t, o, ha, hsub⟩ := allocUser_spec h
  obtain ⟨-, -, hchans, htime⟩ := ha.rest
  have haside := addsubuser_aside hsub
  exact ⟨haside.chans.trans hchans, haside.thinned.time.trans htime⟩

end Ape

end ApeServer
