import ApeServer.Server.ServerRuns

/-!
# Subusers that wait

A subuser is `ALIVE` while a connection waits for what is queued for it. What is said here
about every such subuser may depend on how far its response is and on what its connection
has been sent; outside `send_raws` few steps touch either.
-/
namespace ApeServer.Ape

open Sock (Bytes)
open Steps (ok_bind bind_ok)

variable {s s' t : Ape} {u : UserId} {i j : SubId} {x : User} {y y' y'' : Subuser} {fd : Fd}

/-- The sockets keep their descriptors, and nothing is sent from a queue. -/
def Sockets (s s' : Ape) : Prop := ∀ fd, (s'.co fd).fd = (s.co fd).fd ∧ Wet (s.co fd) (s'.co fd)

theorem Sockets.refl : Sockets s s := fun _ => ⟨rfl, .refl⟩

theorem Sockets.trans (h : Sockets s t) (h' : Sockets t s') : Sockets s s' := fun fd =>
  ⟨(h' fd).1.trans (h fd).1, (h fd).2.trans (h' fd).2⟩

theorem Sockets.of_eq (h : s'.co = s.co) : Sockets s s' := by
  intro fd
  have hfd := congrFun h fd
  exact ⟨by rw [hfd], hfd ▸ .refl⟩

theorem Sockets.setAttach (o : Option SubId) : Sockets s (s.setAttach fd o) := by
  intro e
  by_cases he : e = fd
  · subst he
    refine ⟨by simp [Ape.setAttach], .of_eq ?_ ?_ fun h => ?_⟩
    · simp [Ape.setAttach]
    · simp [Ape.setAttach]
    · simpa [Ape.setAttach] using h
  · have hco : (s.setAttach fd o).co e = s.co e := Function.update_of_ne he ..
    exact ⟨by rw [hco], hco ▸ .refl⟩

theorem Minor.sockets (h : Minor s s') : Sockets s s' := fun fd =>
  ⟨congrArg Wire.fd (h.co fd), h.wet fd⟩

/-- `y'` is the subuser `y` later on: on the same connection, as far with its response, and
with a user of the same transport if it still has one. -/
structure Carries (s s' : Ape) (y y' : Subuser) : Prop where
  client : y'.client = y.client
  progress : y'.progress = y.progress
  user : ∀ u x', y'.user = some u → s'.users u = some x' →
    y.user = some u ∧ ∃ x, s.users u = some x ∧ x'.transport = x.transport

theorem Carries.trans (h : Carries s t y y') (h' : Carries t s' y' y'') : Carries s s' y y'' where
  client := h'.client.trans h.client
  progress := h'.progress.trans h.progress
  user u x' hu hx' := by
    obtain ⟨hu₁, x₁, hx₁, ht₁⟩ := h'.user u x' hu hx'
    obtain ⟨hu₂, x₂, hx₂, ht₂⟩ := h.user u x₁ hu₁ hx₁
    exact ⟨hu₂, x₂, hx₂, ht₁.trans ht₂⟩

/-- The users of the later state are users of the earlier one. -/
theorem Carries.of_users (hu : ∀ u x', s'.users u = some x' →
    ∃ x, s.users u = some x ∧ x'.transport = x.transport) (hc : y'.client = y.client)
    (hp : y'.progress = y.progress) (huser : y'.user = y.user ∨ y'.user = none) :
    Carries s s' y y' := by
  refine ⟨hc, hp, fun u x' hy' hx' => ⟨?_, hu u x' hx'⟩⟩
  rcases huser with he | he
  · exact he.symm.trans hy'
  · rw [he] at hy'
    cases hy'

theorem Carries.refl : Carries s s y y := .of_users (fun _ x hx => ⟨x, hx, rfl⟩) rfl rfl (.inl rfl)

/-- No subuser other than those in `B` starts to wait, and none of them is put off. -/
structure Calm (B : SubId → Prop) (s s' : Ape) : Prop where
  sockets : Sockets s s'
  subs : ∀ i y', ¬ B i → s'.subs i = some y' → y'.state = .alive →
    ∃ y, s.subs i = some y ∧ y.state = .alive ∧ Carries s s' y y'

namespace Calm

variable {B : SubId → Prop}

theorem trans (h : Calm B s t) (h' : Calm B t s') : Calm B s s' where
  sockets := h.sockets.trans h'.sockets
  subs i y' hb hy' ha' := by
    obtain ⟨y₁, hy₁, ha₁, hc₁⟩ := h'.subs i y' hb hy' ha'
    obtain ⟨y₂, hy₂, ha₂, hc₂⟩ := h.subs i y₁ hb hy₁ ha₁
    exact ⟨y₂, hy₂, ha₂, hc₂.trans hc₁⟩

theorem of_subs (hs : Sockets s s') (hu : ∀ u x', s'.users u = some x' →
    ∃ x, s.users u = some x ∧ x'.transport = x.transport) (h : s'.subs = s.subs) :
    Calm B s s' :=
  ⟨hs, fun _ y _ hy ha => ⟨y, h ▸ hy, ha, .of_users hu rfl rfl (.inl rfl)⟩⟩

theorem refl : Calm B s s := of_subs .refl (fun _ x hx => ⟨x, hx, rfl⟩) rfl

theorem mono {B' : SubId → Prop} (h : Calm B s s') (hb : ∀ {j}, B j → B' j) :
    Calm B' s s' := ⟨h.sockets, fun j y hn => h.subs j y fun hj => hn (hb hj)⟩

/-- One subuser is written, and does not wait after that or waited before. -/
theorem setSub (hy' : y'.state = .alive → ¬ B i → ∃ y, s.subs i = some y ∧ y.state = .alive ∧
    y'.client = y.client ∧ y'.progress = y.progress ∧ (y'.user = y.user ∨ y'.user = none)) :
    Calm B s (s.setSub i y') := by
  refine ⟨.refl, fun j z hb hz ha => ?_⟩
  by_cases hj : j = i
  · subst hj
    simp only [setSub_subs, Function.update_self, Option.some.injEq] at hz
    subst hz
    obtain ⟨y, hy, ha', hc, hp, hu⟩ := hy' ha hb
    exact ⟨y, hy, ha', .of_users (fun _ x hx => ⟨x, hx, rfl⟩) hc hp hu⟩
  · simp only [setSub_subs, ne_eq, hj, not_false_eq_true, Function.update_of_ne] at hz
    exact ⟨z, hz, ha, .of_users (fun _ x hx => ⟨x, hx, rfl⟩) rfl rfl (.inl rfl)⟩

theorem setUser {x' : User} (hx : s.users u = some x) (ht : x'.transport = x.transport) :
    Calm B s (s.setUser u x') := by
  refine of_subs .refl (fun v z hz => ?_) rfl
  by_cases hv : v = u
  · subst hv
    simp only [setUser_users, Function.update_self, Option.some.injEq] at hz
    subst hz
    exact ⟨x, hx, ht⟩
  · simp only [setUser_users, ne_eq, hv, not_false_eq_true, Function.update_of_ne] at hz
    exact ⟨z, hz, rfl⟩

theorem freeSub {i : SubId} : Calm B s { s with subs := Function.update s.subs i none } := by
  refine ⟨.refl, fun j z _ hz ha => ?_⟩
  by_cases hj : j = i
  · subst hj
    simp at hz
  · simp only [ne_eq, hj, not_false_eq_true, Function.update_of_ne] at hz
    exact ⟨z, hz, ha, .of_users (fun _ x hx => ⟨x, hx, rfl⟩) rfl rfl (.inl rfl)⟩

theorem setAttach (o : Option SubId) : Calm B s (s.setAttach fd o) :=
  of_subs (.setAttach o) (fun _ x hx => ⟨x, hx, rfl⟩) rfl

end Calm

theorem Minor.users_back (h : Minor s s') (u : UserId) (x' : User) (hx' : s'.users u = some x') :
    ∃ x, s.users u = some x ∧ x'.transport = x.transport := by
  obtain ⟨x, hx, he⟩ := h.user_back hx'
  exact ⟨x, hx, congrArg Seat.transport he⟩

/-- Through a minor step every subuser is carried, waiting or not. -/
theorem Minor.carries (h : Minor s s') (hy' : s'.subs i = some y') :
    ∃ y, s.subs i = some y ∧ y'.line = y.line ∧ Carries s s' y y' := by
  obtain ⟨y, hy, he⟩ := h.sub_back hy'
  have hp := h.progress i
  rw [hy', hy] at hp
  exact ⟨y, hy, he, .of_users h.users_back (congrArg Line.client he) (Option.some.inj hp)
    (.inl (congrArg Line.user he))⟩

theorem Minor.calm {B : SubId → Prop} (h : Minor s s') : Calm B s s' := by
  refine ⟨h.sockets, fun i y' _ hy' ha => ?_⟩
  obtain ⟨y, hy, he, hc⟩ := h.carries hy'
  exact ⟨y, hy, (congrArg Line.state he).symm.trans ha, hc⟩

/-! ### Deletion -/

section Deletion

variable {B : SubId → Prop}

/-- `do_died` leaves its subuser not waiting. -/
theorem doDied_calm (h : s.doDied i = .ok s') :
    Calm B s s' ∧ ∀ y', s'.subs i = some y' → y'.state ≠ .alive := by
  obtain ⟨y, hy, -⟩ := bind_ok h
  replace hy := sub_ok hy
  rw [doDied_eq hy] at h
  cases h
  split
  · refine ⟨(Calm.setSub fun ha => by cases ha).trans Minor.safeShutdown.calm, fun y' hy' => ?_⟩
    rw [safeShutdown_subs] at hy'
    simp only [setSub_subs, Function.update_self, Option.some.injEq] at hy'
    rw [← hy']
    nofun
  · next ha =>
    refine ⟨.refl, fun y' hy' => ?_⟩
    rw [hy] at hy'
    cases hy'
    exact ha

/-- A deleted subuser does not wait, whether or not its record is kept. -/
theorem delsubuser_calm (h : s.delsubuser u i = .ok s') :
    Calm B s s' ∧ (∀ y', s'.subs i = some y' → y'.state ≠ .alive) ∧
      ∃ x x', s.users u = some x ∧ s'.users u = some x' ∧ x'.subuser = x.subuser.erase i := by
  obtain ⟨y, hy, h⟩ := bind_ok h
  obtain ⟨v, -, h⟩ := bind_ok h
  obtain ⟨x₁, hx₁, h⟩ := bind_ok h
  obtain ⟨x₂, hx₂, h⟩ := bind_ok h
  replace hx₂ := user_ok hx₂
  have h1 : Calm B s (s.setUser v { x₁ with nsub := x₁.nsub - 1 }) :=
    .setUser (user_ok hx₁) rfl
  have h2 : Calm B s ((s.setUser v { x₁ with nsub := x₁.nsub - 1 }).setUser u
      { x₂ with subuser := x₂.subuser.erase i }) := h1.trans (.setUser hx₂ rfl)
  obtain ⟨x, hx, hsub⟩ : ∃ x, s.users u = some x ∧ x₂.subuser = x.subuser := by
    by_cases hu : u = v
    · subst hu
      simp only [setUser_users, Function.update_self, Option.some.injEq] at hx₂
      exact ⟨x₁, user_ok hx₁, by rw [← hx₂]⟩
    · simp only [setUser_users, ne_eq, hu, not_false_eq_true, Function.update_of_ne] at hx₂
      exact ⟨x₂, hx₂, rfl⟩
  simp only at h
  split at h
  · obtain ⟨hcalm, hdead⟩ := doDied_calm (B := B) h
    refine ⟨(h2.trans ?_).trans hcalm, hdead, x, { x₂ with subuser := x₂.subuser.erase i }, hx,
      ?_, congrArg (List.erase · i) hsub⟩
    · exact .setSub fun ha _ => ⟨y, sub_ok hy, ha, rfl, rfl, .inr rfl⟩
    · rw [doDied_users h]
      simp
  · cases h
    refine ⟨h2.trans .freeSub, fun y' hy' => ?_, x, { x₂ with subuser := x₂.subuser.erase i }, hx,
      ?_, congrArg (List.erase · i) hsub⟩
    · simp at hy'
    · simp

theorem clearSubs_calm {l : List SubId} (hx : s.users u = some x)
    (hn : x.subuser.length ≤ l.length) (h : s.clearSubs u l = .ok s') :
    Calm B s s' ∧ ∀ i ∈ x.subuser, ∀ y', s'.subs i = some y' → y'.state ≠ .alive := by
  induction l generalizing s x B with
  | nil =>
    cases h
    have hnil : x.subuser = [] := List.length_eq_zero_iff.mp (by simpa using hn)
    exact ⟨.refl, by simp [hnil]⟩
  | cons a l ih =>
    simp only [clearSubs, user_eq hx, ok_bind] at h
    cases hsub : x.subuser with
    | nil =>
      rw [hsub] at h
      cases h
      exact ⟨.refl, by simp⟩
    | cons i rest =>
      simp only [hsub] at h
      obtain ⟨t, ht, h⟩ := bind_ok h
      obtain ⟨hcalm, hdead, x₀, x', hx₀, hx', he⟩ := delsubuser_calm (B := B) ht
      obtain rfl := Option.some.inj (hx.symm.trans hx₀)
      rw [hsub, List.erase_cons_head] at he
      have hn' : x'.subuser.length ≤ l.length := by
        rw [he]
        rw [hsub] at hn
        simpa using hn
      obtain ⟨hcalm', hdead'⟩ := ih (B := B) hx' hn' h
      refine ⟨hcalm.trans hcalm', fun j hj y' hy' ha => ?_⟩
      rcases List.mem_cons.mp hj with hji | hj
      · -- deleted first, and nobody starts to wait after that
        obtain ⟨hall, -⟩ := ih (B := fun _ => False) hx' hn' h
        obtain ⟨y, hy, ha', -⟩ := hall.subs j y' not_false hy' ha
        exact hdead y (hji ▸ hy) ha'
      · exact hdead' j (he ▸ hj) y' hy' ha

/-- With its user a subuser stops waiting. -/
theorem deluser_calm (h : s.deluser u = .ok s') :
    Calm B s s' ∧ ∀ x, s.users u = some x → ∀ i ∈ x.subuser, ∀ y', s'.subs i = some y' →
      y'.state ≠ .alive := by
  obtain ⟨t₁, t₂, x₁, ht₁, hx₁, ht₂, hsubs, hco, hnone, hothers, -⟩ := deluser_ok h
  have hminor := leftAll_minor ht₁
  obtain ⟨hcalm, hdead⟩ := clearSubs_calm (B := B) hx₁ le_rfl ht₂
  have hlast : Calm B t₂ s' := by
    refine .of_subs (.of_eq hco) (fun v x' hx' => ?_) hsubs
    by_cases hv : v = u
    · subst hv
      rw [hnone] at hx'
      cases hx'
    · have hseat := hothers v hv
      rw [hx'] at hseat
      obtain ⟨x, hx, he⟩ := Option.map_eq_some_iff.mp hseat.symm
      exact ⟨x, hx, (congrArg Seat.transport he).symm⟩
  refine ⟨(hminor.calm.trans hcalm).trans hlast, fun x hx i hi y' hy' => ?_⟩
  obtain ⟨x₁', hx₁', he⟩ := hminor.user hx
  obtain rfl := Option.some.inj (hx₁.symm.trans hx₁')
  have hsame : x₁.subuser = x.subuser := congrArg Seat.subuser he
  exact hdead i (hsame ▸ hi) y' (hsubs ▸ hy')

end Deletion

/-! ### The subuser a command opens -/

/-- The subuser `y'` that `openSub` leaves at `i`: one that waited elsewhere and starts a
new response, one that did not and is taken as it is, or a new one. -/
inductive Opening (s : Ape) (u : UserId) (x : User) (pc : Pc) (i : SubId) (o : Opened)
    (y' : Subuser) : Prop
  | same {y : Subuser} {r : OpenSameHost} (hi : s.getsubuser u pc.host = .ok (some i))
      (hy : s.subs i = some y) (hne : (s.co y.client).fd ≠ (s.co pc.client).fd)
      (ha : y.state = .alive) (hr : r = transportOpenSameHost y pc.client x.transport)
      (hs : y'.state = r.substate) (hc : y'.client = r.client_listener)
      (hp : y'.progress = ⟨false, false⟩) (hu : y'.user = y.user)
      (hclient : o.client = some r.client_listener) (hattach : o.attach = r.attach) :
      Opening s u x pc i o y'
  | found {y : Subuser} (hi : s.getsubuser u pc.host = .ok (some i)) (hy : s.subs i = some y)
      (hn : ¬((s.co y.client).fd ≠ (s.co pc.client).fd ∧ y.state = .alive))
      (hs : y'.state = y.state) (hc : y'.client = pc.client) (hp : y'.progress = y.progress)
      (hu : y'.user = y.user) (hclient : o.client = none) (hattach : o.attach = true) :
      Opening s u x pc i o y'
  | new (hi : s.getsubuser u pc.host = .ok none) (hs : y'.state = .adied)
      (hc : y'.client = pc.client) (hp : y'.progress = ⟨false, false⟩) (hu : y'.user = some u)
      (hclient : o.client = none) (hattach : o.attach = true) : Opening s u x pc i o y'

variable {pc : Pc} {B : SubId → Prop}

theorem openSameHost_calm :
    Calm (· = i) s (s.openSameHost i y x fd).state ∧
      (s.openSameHost i y x fd).state.subs i = some { y with
        state := (transportOpenSameHost y fd x.transport).substate
        headersSent := false
        burn_after_writing := false
        client := (transportOpenSameHost y fd x.transport).client_listener } := by
  have hsend : ∀ (b : Bool) (e : Fd) (raw : RawMsg),
      Calm (· = i) s (if b then s else s.sendRawInline e raw) := by
    intro b e raw
    cases b with
    | true => exact .refl
    | false => exact Minor.sendRawInline.calm
  set r := transportOpenSameHost y fd x.transport with hr
  have h1 := hsend y.headersSent (if (s.co r.client_close).fd = (s.co fd).fd then fd else y.client)
    (s.forgeRaw (bytes "CLOSE") (JsonItem.newObject.setStr (bytes "value") (bytes "null")))
  constructor
  · exact ((h1.trans (.setAttach none)).trans Minor.safeShutdown.calm).trans
      (.setSub fun _ hn => absurd rfl hn)
  · simp [openSameHost, hr]

theorem addsubuser_calm {client : Fd} {channel : Bytes}
    (h : s.addsubuser client channel u = .ok (some i, s')) : Calm B s s' ∧
      s.getsubuser u channel = .ok none ∧ ∃ y', s'.subs i = some y' ∧
      y'.unqueued = (s.newSub client channel u).unqueued := by
  obtain ⟨hn, -⟩ | ⟨x, y, hx, hget, -, hi, hy, rfl⟩ := addsubuser_spec h
  · cases hn
  · obtain rfl := Option.some.inj hi
    have h1 : Calm B s { s with fresh := s.fresh + 1 } :=
      .of_subs .refl (fun _ x hx => ⟨x, hx, rfl⟩) rfl
    have h2 : Calm B { s with fresh := s.fresh + 1 }
        ({ s with fresh := s.fresh + 1 }.setUser u
          { x with nsub := x.nsub + 1, subuser := s.fresh :: x.subuser }) :=
      .setUser (s := { s with fresh := s.fresh + 1 }) hx rfl
    have hdead : y.state ≠ .alive := by
      rw [show y.state = .adied from congrArg Subuser.state hy]
      nofun
    refine ⟨(h1.trans h2).trans (.setSub fun ha => absurd ha hdead), hget, y, ?_, hy⟩
    simp

theorem findOrOpen_opening {o : Opened}
    (h : s.findOrOpen u x pc = .ok o) (hi : o.sub = some i) :
    ∃ y', o.state.subs i = some y' ∧ Calm (· = i) s o.state ∧ Opening s u x pc i o y' := by
  obtain ⟨found, hfound, h⟩ := bind_ok h
  cases found with
  | some j =>
    obtain ⟨x', y, hx', hj, hy, hc⟩ := getsubuser_some hfound
    simp only [sub_eq hy, ok_bind] at h
    split at h
    · next hcond =>
      cases h
      cases hi
      exact ⟨_, openSameHost_calm.2, openSameHost_calm.1,
        .same hfound hy hcond.1 hcond.2 rfl rfl rfl rfl rfl rfl rfl⟩
    · next hcond =>
      cases h
      cases hi
      exact ⟨_, Function.update_self .., .setSub fun _ hn => absurd rfl hn,
        .found hfound hy hcond rfl rfl rfl rfl rfl rfl⟩
  | none =>
    obtain ⟨⟨new, t⟩, ht, h⟩ := bind_ok h
    cases new with
    | some j =>
      obtain ⟨t', ht', h⟩ := bind_ok h
      cases h
      cases hi
      obtain ⟨hcalm, hget, y, hy, he⟩ := addsubuser_calm ht
      have hp := subuserRestor_posted ht'
      have hq := hp.subs i
      rw [hy] at hq
      obtain ⟨y', hy', he'⟩ := Option.map_eq_some_iff.mp hq
      have hnew : y'.unqueued = (s.newSub pc.client pc.host u).unqueued := he'.trans he
      refine ⟨y', hy', hcalm.trans (Minor.of_posted hp).calm, .new hget ?_ ?_ ?_ ?_ rfl rfl⟩
      · exact congrArg Subuser.state hnew
      · exact congrArg Subuser.client hnew
      · exact congrArg Subuser.progress hnew
      · exact congrArg Subuser.user hnew
    | none =>
      cases h
      cases hi

theorem openSub_opening {o : Opened} (h : s.openSub u pc = .ok o) :
    ∃ x i y', s.users u = some x ∧ o.sub = some i ∧ o.state.subs i = some y' ∧
      Calm (· = i) s o.state ∧ Opening s u x pc i o y' := by
  obtain ⟨x, hx, h⟩ := bind_ok h
  obtain ⟨o', ho', h⟩ := bind_ok h
  obtain ⟨x', hx', h⟩ := bind_ok h
  obtain ⟨i, hi, h⟩ := bind_ok h
  obtain ⟨y, hy, h⟩ := bind_ok h
  replace hi := useSub_ok hi
  cases h
  obtain ⟨y', hy', hcalm, hopen⟩ := findOrOpen_opening ho' hi
  obtain rfl := Option.some.inj ((sub_ok hy).symm.trans hy')
  refine ⟨x, i, { y with idle := o'.state.time }, user_ok hx, hi, Function.update_self .., ?_, ?_⟩
  · have huser : Calm (· = i) o'.state
        (o'.state.setUser u { x' with idle := o'.state.time }) :=
      .setUser (user_ok hx') rfl
    exact (hcalm.trans huser).trans (.setSub fun _ hn => absurd rfl hn)
  · cases hopen with
    | same hi hy hne ha hr hs hc hp hu hclient hattach =>
      exact .same hi hy hne ha hr hs hc hp hu hclient hattach
    | found hi hy hn hs hc hp hu hclient hattach =>
      exact .found hi hy hn hs hc hp hu hclient hattach
    | new hi hs hc hp hu hclient hattach => exact .new hi hs hc hp hu hclient hattach

end ApeServer.Ape
