import ApeServer.Server.Deletion

/-! Creation: new channels, users and subusers, as changes of the roster. -/
namespace ApeServer

open Sock (Bytes)
open Steps (ok_bind bind_ok foldlM_keeps foldlM_completes)

namespace Ape

variable {s s' : Ape} {u : UserId} {i : SubId} {x : User} {y : Subuser}

theorem init_wf (rand : List (List.Vector (Fin 16) 32)) (io : ℕ → Bool) (time : ℤ) :
    (init rand io time).roster.Wf where
  member := Incidence.Incident.empty
  owned := Incidence.Incident.empty
  listed := ⟨[], Chain.Linked.nil, rfl, fun u => by simp [roster, init]⟩
  bound n _ := ⟨rfl, rfl, rfl⟩

/-- Sixteen draws, all different. -/
def sixteenDraws : List (List.Vector (Fin 16) 32) :=
  (List.finRange 16).map (List.Vector.replicate 32)

/-- A string that names neither a user nor a pipe. -/
structure Free (s : Ape) (id : Bytes) : Prop where
  length : id.length = 32
  sessid : s.hSessid.seek id = none
  pubid : s.hPubid.seek id = none

theorem drawn_length (d : List.Vector (Fin 16) 32) : (drawn d).length = 32 := by
  simp [drawn]

theorem firstFree_free {ds ds' : List (List.Vector (Fin 16) 32)} {id : Bytes}
    (h : s.firstFree ds = .ok (id, ds')) : s.Free id := by
  induction ds with
  | nil => cases h
  | cons d ds ih =>
    rw [firstFree] at h
    split at h
    · exact ih h
    · next hn =>
      cases h
      push Not at hn
      refine ⟨drawn_length d, ?_, ?_⟩
      · simpa [seekUserId, drawn_length] using hn.1
      · simpa [getPipe, drawn_length] using hn.2

/-- The strings of the draws to come that name neither a user nor a pipe. -/
def freeDraws (s : Ape) : List Bytes :=
  (s.rand.map drawn).filter fun id => s.seekUserId id = none ∧ s.getPipe id = none

theorem free_of_draws {id : Bytes} (h : id ∈ s.freeDraws) : s.Free id := by
  simp only [freeDraws, List.mem_filter, List.mem_map, decide_eq_true_eq] at h
  obtain ⟨⟨d, -, rfl⟩, hs, hp⟩ := h
  rw [seekUserId, if_neg (by simp [drawn_length])] at hs
  rw [getPipe, if_neg (by simp [drawn_length])] at hp
  exact ⟨drawn_length d, hs, hp⟩

/-- The string that is drawn is the first free one. -/
theorem genSessidNew_draws {id : Bytes} (h : s.genSessidNew = .ok (id, s')) :
    s.freeDraws = id :: s'.freeDraws := by
  obtain ⟨⟨id', ds⟩, hf, h⟩ := bind_ok h
  cases h
  unfold freeDraws
  generalize s.rand = l at hf
  induction l with
  | nil => cases hf
  | cons d l ih =>
    rw [firstFree] at hf
    rw [List.map_cons, List.filter_cons]
    split at hf
    · next hn => rw [if_neg (by simpa [imp_iff_not_or] using hn), ih hf]
    · next hn =>
      cases hf
      push Not at hn
      rw [if_pos (by simpa using hn)]
      rfl

theorem genSessidNew_spec {id : Bytes} (h : s.genSessidNew = .ok (id, s')) :
    s.Free id ∧ ∃ ds, s' = { s with rand := ds } := by
  obtain ⟨⟨id', ds⟩, hf, h⟩ := bind_ok h
  cases h
  exact ⟨firstFree_free hf, ds, rfl⟩

theorem initPipe_spec {p : Pipe} {pubid : Bytes} (h : s.initPipe p = .ok (pubid, s')) :
    s.Free pubid ∧ ∃ ds, s' = { s with rand := ds, hPubid := s.hPubid.append pubid p } := by
  obtain ⟨⟨id, t⟩, ht, h⟩ := bind_ok h
  obtain ⟨hfree, ds, rfl⟩ := genSessidNew_spec ht
  cases h
  exact ⟨hfree, ds, rfl⟩

theorem initPipe_draws {p : Pipe} {pubid : Bytes} (h : s.initPipe p = .ok (pubid, s')) :
    s.freeDraws = pubid :: { s' with hPubid := s.hPubid }.freeDraws := by
  obtain ⟨⟨id, t⟩, ht, h⟩ := bind_ok h
  have hdraws := genSessidNew_draws ht
  obtain ⟨-, ds, rfl⟩ := genSessidNew_spec ht
  cases h
  exact hdraws

/-! ### Channels -/

/-- What `mkchan` does to the roster. -/
theorem mkchan_roster {name : Bytes} {auto : Bool} {o : Option ChanId}
    (h : s.mkchan name auto = .ok (o, s')) :
    (isvalidchan name = none ∧ o = none ∧ s' = s) ∨
    ∃ n pubid y, isvalidchan name = some n ∧ o = some s.fresh ∧ s.Free pubid ∧
      s'.roster = s.roster.addChan pubid n auto ∧ s'.chans s.fresh = some y ∧
      s'.users = s.users ∧ s'.subs = s.subs ∧ s'.co = s.co := by
  unfold mkchan at h
  split at h
  · next hv =>
    cases h
    exact .inl ⟨hv, rfl, rfl⟩
  · next n hv =>
    obtain ⟨⟨pubid, t⟩, ht, h⟩ := bind_ok h
    obtain ⟨⟨hl, h1, h2⟩, ds, rfl⟩ := initPipe_spec ht
    cases h
    refine .inr ⟨n, pubid, _, hv, rfl, ⟨hl, h1, h2⟩, ?_, Function.update_self .., rfl, rfl, rfl⟩
    simp only [roster, setChan, Roster.addChan]
    rw [Roster.map_update]
    rfl

/-! ### Subusers -/

theorem foldl_push_unqueued (l : List RawMsg) (y : Subuser) :
    (l.foldl Subuser.push y).unqueued = y.unqueued := by
  induction l generalizing y with
  | nil => rfl
  | cons raw l ih => exact (ih _).trans unqueued_push

theorem links_of_unqueued {y y' : Subuser} (h : y'.unqueued = y.unqueued) : y'.links = y.links := by
  change y'.unqueued.links = y.unqueued.links
  rw [h]

/-- The subuser `addsubuser` makes, before raws are posted to it. -/
def newSub (s : Ape) (client : Fd) (channel : Bytes) (u : UserId) : Subuser :=
  { client := client, user := some u, channel := channel, idle := s.time, state := .adied,
    need_update := false, wait_for_free := false, burn_after_writing := false,
    headersSent := false, current_chl := 0, low := [], high := [] }

/-- What `addsubuser` does: nothing, or a new subuser at the head of the list. -/
theorem addsubuser_spec {client : Fd} {channel : Bytes} {o : Option SubId}
    (h : s.addsubuser client channel u = .ok (o, s')) :
    (o = none ∧ s' = s) ∨
    ∃ x y, s.users u = some x ∧ s.getsubuser u channel = .ok none ∧
      channel.length ≤ maxHostLength ∧ o = some s.fresh ∧
      y.unqueued = (s.newSub client channel u).unqueued ∧
      s' = ({ s with fresh := s.fresh + 1 }.setUser u
        { x with nsub := x.nsub + 1, subuser := s.fresh :: x.subuser }).setSub s.fresh y := by
  obtain ⟨sub, hsub, h⟩ := bind_ok h
  split at h
  · cases h
    exact .inl ⟨rfl, rfl⟩
  · next hc =>
    push Not at hc
    obtain ⟨x, hx, h⟩ := bind_ok h
    obtain ⟨low, -, h⟩ := bind_ok h
    cases h
    rw [hc.1] at hsub
    exact .inr ⟨x, _, user_ok hx, hsub, hc.2, rfl, foldl_push_unqueued low _, rfl⟩

theorem addsubuser_roster {client : Fd} {channel : Bytes} {o : Option SubId}
    (h : s.addsubuser client channel u = .ok (o, s')) :
    (o = none ∧ s' = s) ∨
    ∃ x, s.users u = some x ∧ s.getsubuser u channel = .ok none ∧
      s'.roster = s.roster.addSub u x.links channel := by
  rcases addsubuser_spec h with hn | ⟨x, y, hx, hg, -, -, hy, rfl⟩
  · exact .inl hn
  · refine .inr ⟨x, hx, hg, ?_⟩
    rw [roster_setSub, roster_setUser, links_of_unqueued hy]
    rfl

/-! ### Users -/

theorem map_setUser {α : Type} {x' : User} (f : User → α) (hx : s.users u = some x)
    (hf : f x' = f x) (v : UserId) :
    ((s.setUser u x').users v).map f = (s.users v).map f := by
  by_cases h : v = u
  · subst h
    simp [hx, hf]
  · simp [h]

/-- A user without its place in the list of users. -/
def unhooked (x : User) : User := { x with prev := none }

theorem setPrev_ok {p v : Option UserId} (h : s.setPrev p v = .ok s') :
    s'.roster = s.roster.modify p (fun y => { y with prev := v }) ∧
      s' = { s with users := s'.users } ∧
      ∀ w, (s'.users w).map unhooked = (s.users w).map unhooked := by
  cases p with
  | none =>
    cases h
    exact ⟨Roster.modify_none.symm, rfl, fun _ => rfl⟩
  | some n =>
    obtain ⟨x, hx, h⟩ := bind_ok h
    replace hx := user_ok hx
    cases h
    refine ⟨?_, rfl, map_setUser _ hx rfl⟩
    rw [Roster.modify_some (roster_users hx), roster_setUser]
    rfl

/-- A user as `CONNECT` allocates it: under the first two free names, at the head of the list, and
temporary. -/
structure Allocated (s : Ape) (u : UserId) (t : Ape) : Prop where
  id : u = s.fresh
  names : ∃ sessid pubid, (∃ ds, s.freeDraws = sessid :: pubid :: ds) ∧
    t.roster = s.roster.addUser sessid pubid
  rest : t.subs = s.subs ∧ t.co = s.co ∧ t.chans = s.chans ∧ t.time = s.time
  nConnected : t.nConnected = s.nConnected
  user : ∃ x, t.users u = some x ∧ x.istmp = true
  others : ∀ v ≠ u, (t.users v).map unhooked = (s.users v).map unhooked

/-- The names of a new user are free. -/
theorem Allocated.free {t : Ape} (ha : Allocated s u t) : ∃ sessid pubid,
    s.Free sessid ∧ s.Free pubid ∧ t.roster = s.roster.addUser sessid pubid := by
  obtain ⟨sessid, pubid, ⟨ds, hds⟩, hr⟩ := ha.names
  exact ⟨sessid, pubid, free_of_draws (by simp [hds]), free_of_draws (by simp [hds]), hr⟩

theorem newUser_spec {ip : Bytes} (h : s.newUser ip = .ok (u, s')) : Allocated s u s' := by
  obtain ⟨⟨u', t₁⟩, ht₁, h⟩ := bind_ok h
  obtain ⟨t₀, ht₀, ht₁⟩ := bind_ok ht₁
  obtain ⟨hr₀, he₀, htmp⟩ := setPrev_ok ht₀
  clear ht₀
  generalize t₀.users = users at he₀ htmp
  subst he₀
  obtain ⟨⟨sessid, t₂⟩, ht₂, ht₁⟩ := bind_ok ht₁
  have hfirst := genSessidNew_draws ht₂
  obtain ⟨-, ds, rfl⟩ := genSessidNew_spec ht₂
  cases ht₁
  obtain ⟨⟨pubid, t₃⟩, ht₃, h⟩ := bind_ok h
  have hsecond := initPipe_draws ht₃
  obtain ⟨-, ds', rfl⟩ := initPipe_spec ht₃
  obtain ⟨x, hx, h⟩ := bind_ok h
  replace hx := user_ok hx
  cases h
  refine ⟨rfl, ⟨sessid, pubid, ⟨_, hfirst.trans (congrArg _ hsecond)⟩, ?_⟩,
    ⟨rfl, rfl, rfl, rfl⟩, rfl, ⟨_, Function.update_self .., rfl⟩, fun v hv => ?_⟩
  · have hu : (fun v => (users v).map User.links) =
        (s.roster.modify s.uHead fun y => { y with prev := some s.fresh }).users :=
      congrArg Roster.users hr₀
    simp only [setUser, Function.update_self, Option.some.injEq] at hx
    subst hx
    simp only [roster, setUser, Function.update_idem]
    rw [Roster.map_update, hu]
    rfl
  · simp only [setUser, ne_eq, hv, not_false_eq_true, Function.update_of_ne]
    exact htmp v

theorem allocUser_spec {client : Fd} {host ip : Bytes}
    (h : s.allocUser client host ip = .ok (u, s')) :
    ∃ t o, Allocated s u t ∧ t.addsubuser client host u = .ok (o, s') := by
  obtain ⟨⟨u', t⟩, ht, h⟩ := bind_ok h
  obtain ⟨⟨o, t'⟩, ht', h⟩ := bind_ok h
  cases h
  exact ⟨t, o, newUser_spec ht, ht'⟩

theorem Allocated.wf {t : Ape} (ha : Allocated s u t) (h : s.roster.Wf) : t.roster.Wf := by
  obtain ⟨sessid, pubid, -, hr⟩ := ha.names
  rw [hr]
  exact h.addUser sessid pubid

theorem addsubuser_wf {client : Fd} {channel : Bytes} {o : Option SubId} (h : s.roster.Wf)
    (hl : s.addsubuser client channel u = .ok (o, s')) : s'.roster.Wf := by
  obtain ⟨-, rfl⟩ | ⟨x, hx, -, hr⟩ := addsubuser_roster hl
  · exact h
  · rw [hr]
    exact h.addSub (roster_users hx) channel

theorem allocUser_wf {client : Fd} {host ip : Bytes} (h : s.roster.Wf)
    (hl : s.allocUser client host ip = .ok (u, s')) : s'.roster.Wf := by
  obtain ⟨t, o, ha, hs⟩ := allocUser_spec hl
  exact addsubuser_wf (ha.wf h) hs

theorem mkchan_wf {name : Bytes} {auto : Bool} {o : Option ChanId} (h : s.roster.Wf)
    (hl : s.mkchan name auto = .ok (o, s')) : s'.roster.Wf := by
  obtain ⟨-, -, rfl⟩ | ⟨n, pubid, y, -, -, -, hr, -⟩ := mkchan_roster hl
  · exact h
  · rw [hr]
    exact h.addChan pubid n auto

end Ape

/-! ### No creation uses a freed record -/

/-- The step is completed, or one of its loops is still running. -/
def NoFault {α : Type} (x : Except Halt α) : Prop := ∀ e, x = .error e → e = .loops

namespace NoFault

variable {α β : Type} {x : Except Halt α} {f : α → Except Halt β}

theorem ok (a : α) : NoFault (.ok a : Except Halt α) := by
  intro e h
  cases h

theorem of_completes (h : ∃ a, x = .ok a) : NoFault x := by
  obtain ⟨a, rfl⟩ := h
  exact ok a

theorem bind (hx : NoFault x) (hf : ∀ a, x = .ok a → NoFault (f a)) : NoFault (x >>= f) := by
  cases hx' : x with
  | error e =>
    intro e' h
    exact hx e' (hx'.trans (by cases h; rfl))
  | ok a => exact hf a hx'

end NoFault

namespace Ape

variable {s s' : Ape} {u : UserId} {x : User}

theorem genSessidNew_noFault : NoFault s.genSessidNew := by
  refine .bind ?_ fun a _ => .ok _
  induction s.rand with
  | nil =>
    intro e h
    cases h
    rfl
  | cons d ds ih =>
    rw [firstFree]
    split
    · exact ih
    · exact .ok _

theorem initPipe_noFault {p : Pipe} : NoFault (s.initPipe p) :=
  .bind genSessidNew_noFault fun _ _ => .ok _

theorem mkchan_noFault {name : Bytes} {auto : Bool} : NoFault (s.mkchan name auto) := by
  unfold mkchan
  split
  · exact .ok _
  · exact .bind initPipe_noFault fun _ _ => .ok _

theorem findSub_noFault {channel : Bytes} {l : List SubId} (hl : ∀ i ∈ l, s.subs i ≠ none) :
    NoFault (s.findSub channel l) := by
  induction l with
  | nil => exact .ok _
  | cons i l ih =>
    obtain ⟨y, hy⟩ := Option.ne_none_iff_exists'.mp (hl i List.mem_cons_self)
    simp only [findSub, sub_eq hy, ok_bind]
    split
    · exact .ok _
    · exact ih fun j hj => hl j (List.mem_cons_of_mem i hj)

theorem addsubuser_noFault {client : Fd} {channel : Bytes} (h : s.roster.Wf)
    (hx : s.users u = some x) : NoFault (s.addsubuser client channel u) := by
  have hlive : ∀ i ∈ x.subuser, s.subs i ≠ none := by
    intro i hi
    obtain ⟨y, hy, -⟩ := own_live h.owned hx hi
    simp [hy]
  refine .bind ?_ fun o _ => ?_
  · simp only [getsubuser, user_eq hx, ok_bind]
    exact findSub_noFault hlive
  · split
    · exact .ok _
    · simp only [user_eq hx, ok_bind]
      refine .bind ?_ fun _ _ => .ok _
      cases hs : x.subuser with
      | nil => exact .ok _
      | cons i l =>
        obtain ⟨y, hy⟩ := Option.ne_none_iff_exists'.mp (hlive i (by simp [hs]))
        simp only [headLow, sub_eq hy, ok_bind]
        exact .ok _

theorem uHead_live (h : s.roster.Wf) {n : UserId} (hn : s.uHead = some n) : s.users n ≠ none := by
  obtain ⟨l, -, hh, hm⟩ := h.listed
  rw [← roster_live, ← hm]
  exact List.mem_of_head? (hh.symm.trans hn)

theorem newUser_noFault {ip : Bytes} (h : s.roster.Wf) : NoFault (s.newUser ip) := by
  have hhead : ∀ n, s.uHead = some n → s.users n ≠ none := fun n hn => uHead_live h hn
  obtain ⟨t, ht, -⟩ := setPrev_spec (s := { s with fresh := s.fresh + 1 }) (v := some s.fresh) hhead
  refine .bind ?_ fun r hr => .bind initPipe_noFault fun r' hr' => ?_
  · refine .bind (.of_completes ⟨t, ht⟩) fun _ _ => .bind genSessidNew_noFault fun _ _ => .ok _
  · obtain ⟨t', ht', hr⟩ := bind_ok hr
    obtain ⟨⟨sessid, t''⟩, -, hr⟩ := bind_ok hr
    cases hr
    obtain ⟨pubid, v⟩ := r'
    obtain ⟨-, ds, rfl⟩ := initPipe_spec hr'
    refine .bind (.of_completes ⟨_, user_eq (Function.update_self ..)⟩) fun _ _ => .ok _

theorem allocUser_noFault {client : Fd} {host ip : Bytes} (h : s.roster.Wf) :
    NoFault (s.allocUser client host ip) := by
  refine .bind (newUser_noFault h) fun r hr => ?_
  obtain ⟨u, t⟩ := r
  have ha := newUser_spec hr
  obtain ⟨x, hx, -⟩ := ha.user
  exact .bind (addsubuser_noFault (ha.wf h) hx) fun _ _ => .ok _

end Ape

end ApeServer
