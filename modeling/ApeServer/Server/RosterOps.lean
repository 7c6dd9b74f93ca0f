import ApeServer.Server.Roster

/-! The changes of the roster, and that each of them keeps it well formed. -/
namespace ApeServer.Roster

open Sock (Bytes)
open Incidence (Incident)

variable {r r' : Roster} {u : UserId} {c : ChanId} {i : SubId} {x x' : UserLinks}
  {y y' : ChanLinks} {z z' : SubLinks}

/-! ### The views after one record is written -/

section Views

variable {ι α β : Type} [DecidableEq ι]

theorem map_update (m : ι → Option α) (f : α → β) (k : ι) (v : Option α) :
    (fun j => (Function.update m k v j).map f) =
      Function.update (fun j => (m j).map f) k (v.map f) := by
  funext j
  by_cases h : j = k
  · subst h
    simp
  · simp [h]

theorem bind_update (m : ι → Option α) (f : α → Option β) (k : ι) (v : Option α) :
    (fun j => (Function.update m k v j).bind f) =
      Function.update (fun j => (m j).bind f) k (v.bind f) := by
  funext j
  by_cases h : j = k
  · subst h
    simp
  · simp [h]

end Views

@[simp]
theorem foot_setUser : (r.setUser u x).foot = Function.update r.foot u (some x.chan_foot) :=
  map_update ..

@[simp]
theorem own_setUser : (r.setUser u x).own = Function.update r.own u (some x.subuser) :=
  map_update ..

@[simp]
theorem sessKey_setUser : (r.setUser u x).sessKey = Function.update r.sessKey u (some x.sessid) :=
  map_update ..

@[simp]
theorem nextOf_setUser : (r.setUser u x).nextOf = Function.update r.nextOf u x.next :=
  bind_update ..

@[simp]
theorem prevOf_setUser : (r.setUser u x).prevOf = Function.update r.prevOf u x.prev :=
  bind_update ..

@[simp]
theorem pubKey_setUser :
    (r.setUser u x).pubKey = Function.update r.pubKey (.user u) (some x.pubid) := by
  funext p
  cases p with
  | user v =>
    by_cases h : v = u
    · subst h
      simp [pubKey]
    · simp [pubKey, h]
  | channel c => simp [pubKey]
  | proxy => simp [pubKey]
  | custom => simp [pubKey]

@[simp]
theorem roll_setUser : (r.setUser u x).roll = r.roll := rfl

@[simp]
theorem owners_setUser : (r.setUser u x).owners = r.owners := rfl

@[simp]
theorem nameKey_setUser : (r.setUser u x).nameKey = r.nameKey := rfl

@[simp]
theorem hostOf_setUser : (r.setUser u x).hostOf = r.hostOf := rfl

@[simp]
theorem roll_setChan : (r.setChan c y).roll = Function.update r.roll c (some y.users) :=
  map_update ..

@[simp]
theorem nameKey_setChan : (r.setChan c y).nameKey = Function.update r.nameKey c (some y.name) :=
  map_update ..

@[simp]
theorem pubKey_setChan :
    (r.setChan c y).pubKey = Function.update r.pubKey (.channel c) (some y.pubid) := by
  funext p
  cases p with
  | user v => simp [pubKey]
  | channel d =>
    by_cases h : d = c
    · subst h
      simp [pubKey]
    · simp [pubKey, h]
  | proxy => simp [pubKey]
  | custom => simp [pubKey]

@[simp]
theorem foot_setChan : (r.setChan c y).foot = r.foot := rfl

@[simp]
theorem own_setChan : (r.setChan c y).own = r.own := rfl

@[simp]
theorem owners_setChan : (r.setChan c y).owners = r.owners := rfl

@[simp]
theorem nextOf_setChan : (r.setChan c y).nextOf = r.nextOf := rfl

@[simp]
theorem prevOf_setChan : (r.setChan c y).prevOf = r.prevOf := rfl

@[simp]
theorem sessKey_setChan : (r.setChan c y).sessKey = r.sessKey := rfl

@[simp]
theorem hostOf_setChan : (r.setChan c y).hostOf = r.hostOf := rfl

theorem foot_eq (h : r.users u = some x) : r.foot u = some x.chan_foot := by simp [foot, h]

theorem own_eq (h : r.users u = some x) : r.own u = some x.subuser := by simp [own, h]

theorem roll_eq (h : r.chans c = some y) : r.roll c = some y.users := by simp [roll, h]

theorem owners_eq (h : r.subs i = some z) : r.owners i = some z.user.toList := by
  simp [owners, h]

/-! ### The list of users -/

theorem Lists.congr {l : List UserId} (h : r.Lists l) (hn : r'.nextOf = r.nextOf)
    (hp : r'.prevOf = r.prevOf) (hh : r'.uHead = r.uHead)
    (hl : ∀ u, r'.users u ≠ none ↔ r.users u ≠ none) : r'.Lists l := by
  refine ⟨?_, hh.trans h.2.1, fun u => (h.2.2 u).trans (hl u).symm⟩
  rw [hn, hp]
  exact h.1

theorem setUser_live (hx : r.users u = some x) (v : UserId) :
    (r.setUser u x').users v ≠ none ↔ r.users v ≠ none := by
  by_cases h : v = u
  · subst h
    simp [hx]
  · simp [h]

/-- Writing a user without touching its place in the list. -/
theorem Lists.setUser {l : List UserId} (h : r.Lists l) (hx : r.users u = some x)
    (hn : x'.next = x.next) (hp : x'.prev = x.prev) : (r.setUser u x').Lists l := by
  have h1 : r.nextOf u = x.next := by simp [nextOf, hx]
  have h2 : r.prevOf u = x.prev := by simp [prevOf, hx]
  refine h.congr ?_ ?_ rfl (setUser_live hx)
  · rw [nextOf_setUser, hn, ← h1, Function.update_eq_self]
  · rw [prevOf_setUser, hp, ← h2, Function.update_eq_self]

/-- The neighbours of a user in the list are users. -/
theorem Wf.next_live (h : r.Wf) (hx : r.users u = some x) {n : UserId} (hn : x.next = some n) :
    r.users n ≠ none := by
  obtain ⟨l, hl, -, hm⟩ := h.listed
  obtain ⟨k, hk⟩ := List.mem_iff_getElem?.mp ((hm u).mpr (by simp [hx]))
  have := hl.next_eq hk
  rw [show r.nextOf u = some n by simp [nextOf, hx, hn]] at this
  exact (hm n).mp (List.mem_of_getElem? this.symm)

theorem Wf.prev_live (h : r.Wf) (hx : r.users u = some x) {n : UserId} (hn : x.prev = some n) :
    r.users n ≠ none := by
  obtain ⟨l, hl, -, hm⟩ := h.listed
  obtain ⟨k, hk⟩ := List.mem_iff_getElem?.mp ((hm u).mpr (by simp [hx]))
  have := hl.prev_eq hk
  rw [show r.prevOf u = some n by simp [prevOf, hx, hn]] at this
  split at this
  · cases this
  · exact (hm n).mp (List.mem_of_getElem? this.symm)

theorem bound_setUser (hb : ∀ n, r.fresh ≤ n → r.users n = none ∧ r.subs n = none ∧
    r.chans n = none) (hx : r.users u = some x) : ∀ n, r.fresh ≤ n →
    (r.setUser u x').users n = none ∧ r.subs n = none ∧ r.chans n = none := by
  intro n hn
  have hne : n ≠ u := by
    rintro rfl
    simp [(hb n hn).1] at hx
  simpa [hne] using hb n hn

theorem bound_setChan (hb : ∀ n, r.fresh ≤ n → r.users n = none ∧ r.subs n = none ∧
    r.chans n = none) (hy : r.chans c = some y) : ∀ n, r.fresh ≤ n →
    r.users n = none ∧ r.subs n = none ∧ (r.setChan c y').chans n = none := by
  intro n hn
  have hne : n ≠ c := by
    rintro rfl
    simp [(hb n hn).2.2] at hy
  simpa [hne] using hb n hn

/-! ### Memberships -/

def link (r : Roster) (u : UserId) (x : UserLinks) (c : ChanId) (y : ChanLinks) : Roster :=
  (r.setChan c { y with users := u :: y.users }).setUser u { x with chan_foot := c :: x.chan_foot }

def unlink (r : Roster) (u : UserId) (x : UserLinks) (c : ChanId) (y : ChanLinks) : Roster :=
  (r.setUser u { x with chan_foot := x.chan_foot.erase c }).setChan c
    { y with users := y.users.erase u }

theorem own_write (hx : r.users u = some x) (hs : x'.subuser = x.subuser) :
    (r.setUser u x').own = r.own := by
  rw [own_setUser, hs, ← own_eq hx, Function.update_eq_self]

theorem Wf.link (h : r.Wf) (hx : r.users u = some x) (hy : r.chans c = some y)
    (hn : c ∉ x.chan_foot) : (r.link u x c y).Wf where
  member := by
    simpa [Roster.link] using h.member.link (foot_eq hx) (roll_eq hy) hn
  owned := by
    have : (r.link u x c y).own = r.own := own_write (r := r.setChan c _) hx rfl
    rw [this]
    exact h.owned
  listed := by
    obtain ⟨l, hl⟩ := h.listed
    exact ⟨l, Lists.setUser (r := r.setChan c _) (hl.congr rfl rfl rfl fun _ => Iff.rfl)
      hx rfl rfl⟩
  bound := bound_setUser (r := r.setChan c _) (bound_setChan h.bound hy) hx

theorem Lists.unlink {l : List UserId} (h : r.Lists l) (hx : r.users u = some x) :
    (r.unlink u x c y).Lists l := by
  have h1 : (r.setUser u { x with chan_foot := x.chan_foot.erase c }).Lists l :=
    h.setUser hx rfl rfl
  exact h1.congr rfl rfl rfl fun _ => Iff.rfl

theorem Wf.unlink (h : r.Wf) (hx : r.users u = some x) (hy : r.chans c = some y) :
    (r.unlink u x c y).Wf where
  member := by
    simpa [Roster.unlink] using h.member.unlink (foot_eq hx) (roll_eq hy)
  owned := by
    have : (r.unlink u x c y).own = r.own := own_write hx rfl
    rw [this]
    exact h.owned
  listed := by
    obtain ⟨l, hl⟩ := h.listed
    exact ⟨l, hl.unlink hx⟩
  bound := bound_setChan (r := r.setUser u _) (bound_setUser h.bound hx) hy

/-- Writing a channel with the members it has. -/
theorem Wf.setChan (h : r.Wf) (hy : r.chans c = some y) (hu : y'.users = y.users) :
    (r.setChan c y').Wf where
  member := by
    rw [roll_setChan, hu, ← roll_eq hy, Function.update_eq_self]
    exact h.member
  owned := h.owned
  listed := by
    obtain ⟨l, hl⟩ := h.listed
    exact ⟨l, hl.congr rfl rfl rfl fun _ => Iff.rfl⟩
  bound := bound_setChan h.bound hy

/-! ### Channels -/

def freeChan (r : Roster) (c : ChanId) (y : ChanLinks) : Roster :=
  { r with
    chans := Function.update r.chans c none
    hLusers := r.hLusers.erase y.name
    hPubid := r.hPubid.erase y.pubid }

theorem roll_freeChan : (r.freeChan c y).roll = Function.update r.roll c none := map_update ..

theorem Wf.freeChan (h : r.Wf) (hy : r.chans c = some y) (hu : y.users = []) :
    (r.freeChan c y).Wf where
  member := by
    rw [roll_freeChan]
    exact h.member.drop_right (by rw [roll_eq hy, hu])
  owned := h.owned
  listed := by
    obtain ⟨l, hl⟩ := h.listed
    exact ⟨l, hl.congr rfl rfl rfl fun _ => Iff.rfl⟩
  bound n hn := by
    obtain ⟨h1, h2, h3⟩ := h.bound n hn
    refine ⟨h1, h2, ?_⟩
    by_cases hc : n = c
    · simp [Roster.freeChan, hc]
    · simpa [Roster.freeChan, hc] using h3

/-- A new channel without members. -/
def addChan (r : Roster) (pubid name : Bytes) (autodestroy : Bool) : Roster :=
  { r with
    chans := Function.update r.chans r.fresh (some ⟨pubid, [], autodestroy, name⟩)
    hLusers := r.hLusers.append name r.fresh
    hPubid := r.hPubid.append pubid (.channel r.fresh)
    fresh := r.fresh + 1 }

theorem Wf.addChan (h : r.Wf) (pubid name : Bytes) (autodestroy : Bool) :
    (r.addChan pubid name autodestroy).Wf where
  member := by
    have : (r.addChan pubid name autodestroy).roll = Function.update r.roll r.fresh (some []) :=
      map_update ..
    rw [this]
    exact h.member.add_right (by simp [roll, (h.bound _ le_rfl).2.2])
  owned := h.owned
  listed := by
    obtain ⟨l, hl⟩ := h.listed
    exact ⟨l, hl.congr rfl rfl rfl fun _ => Iff.rfl⟩
  bound n hn := by
    change r.fresh + 1 ≤ n at hn
    obtain ⟨h1, h2, h3⟩ := h.bound n (by omega)
    refine ⟨h1, h2, ?_⟩
    have hne : n ≠ r.fresh := by omega
    simpa [Roster.addChan, hne] using h3

/-! ### Subusers -/

/-- A new subuser at the head of the list of its user. -/
def addSub (r : Roster) (u : UserId) (x : UserLinks) (host : Bytes) : Roster :=
  { r.setUser u { x with nsub := x.nsub + 1, subuser := r.fresh :: x.subuser } with
    subs := Function.update r.subs r.fresh (some ⟨some u, host⟩)
    fresh := r.fresh + 1 }

/-- A subuser out of the list of its user. Its record goes, or stays without a user. -/
def dropSub (r : Roster) (u : UserId) (x : UserLinks) (i : SubId) (v : Option SubLinks) : Roster :=
  { r.setUser u { x with nsub := x.nsub - 1, subuser := x.subuser.erase i } with
    subs := Function.update r.subs i v }

theorem foot_write (hx : r.users u = some x) (hs : x'.chan_foot = x.chan_foot) :
    (r.setUser u x').foot = r.foot := by
  rw [foot_setUser, hs, ← foot_eq hx, Function.update_eq_self]

theorem Wf.addSub (h : r.Wf) (hx : r.users u = some x) (host : Bytes) :
    (r.addSub u x host).Wf where
  member := by
    have : (r.addSub u x host).foot = r.foot := foot_write hx rfl
    rw [this]
    exact h.member
  owned := by
    have hnew : r.owners r.fresh = none := by simp [owners, (h.bound _ le_rfl).2.1]
    have hn : r.fresh ∉ x.subuser := by
      intro hm
      obtain ⟨m, hm, -⟩ := h.owned.right_of_mem (own_eq hx) hm
      rw [hnew] at hm
      cases hm
    have h1 := (h.owned.add_right hnew).link (own_eq hx) (Function.update_self ..) hn
    rw [Function.update_idem] at h1
    have h2 : (r.addSub u x host).own = Function.update r.own u (some (r.fresh :: x.subuser)) :=
      own_setUser
    have h3 : (r.addSub u x host).owners = Function.update r.owners r.fresh (some [u]) :=
      map_update ..
    rw [h2, h3]
    exact h1
  listed := by
    obtain ⟨l, hl⟩ := h.listed
    have h1 : (r.setUser u { x with nsub := x.nsub + 1, subuser := r.fresh :: x.subuser }).Lists l :=
      hl.setUser hx rfl rfl
    exact ⟨l, h1.congr rfl rfl rfl fun _ => Iff.rfl⟩
  bound n hn := by
    change r.fresh + 1 ≤ n at hn
    obtain ⟨h1, h2, h3⟩ := h.bound n (by omega)
    have hne : n ≠ r.fresh := by omega
    have hu : n ≠ u := by
      rintro rfl
      rw [h1] at hx
      cases hx
    exact ⟨by simpa [Roster.addSub, hu] using h1, by simpa [Roster.addSub, hne] using h2, h3⟩

theorem Lists.dropSub {l : List UserId} (h : r.Lists l) (hx : r.users u = some x)
    {v : Option SubLinks} : (r.dropSub u x i v).Lists l := by
  have h1 : (r.setUser u { x with nsub := x.nsub - 1, subuser := x.subuser.erase i }).Lists l :=
    h.setUser hx rfl rfl
  exact h1.congr rfl rfl rfl fun _ => Iff.rfl

theorem Wf.dropSub (h : r.Wf) (hx : r.users u = some x) (hz : r.subs i = some z)
    (hu : z.user = some u) {v : Option SubLinks} (hv : ∀ w, v = some w → w.user = none) :
    (r.dropSub u x i v).Wf where
  member := by
    have : (r.dropSub u x i v).foot = r.foot := foot_write hx rfl
    rw [this]
    exact h.member
  owned := by
    have ho : r.owners i = some [u] := by rw [owners_eq hz, hu]; rfl
    have h1 := h.owned.unlink (own_eq hx) ho
    simp only [List.erase_cons_head] at h1
    have h2 : (r.dropSub u x i v).own = Function.update r.own u (some (x.subuser.erase i)) :=
      own_setUser
    have h3 : (r.dropSub u x i v).owners = Function.update r.owners i
        (v.map fun w => w.user.toList) := map_update ..
    rw [h2, h3]
    cases v with
    | none =>
      have h4 := h1.drop_right (Function.update_self ..)
      rw [Function.update_idem] at h4
      exact h4
    | some w =>
      simp only [Option.map_some, hv w rfl, Option.toList_none]
      exact h1
  listed := by
    obtain ⟨l, hl⟩ := h.listed
    exact ⟨l, hl.dropSub hx⟩
  bound n hn := by
    change r.fresh ≤ n at hn
    obtain ⟨h1, h2, h3⟩ := h.bound n hn
    have hi : n ≠ i := by
      rintro rfl
      rw [h2] at hz
      cases hz
    have hu : n ≠ u := by
      rintro rfl
      rw [h1] at hx
      cases hx
    exact ⟨by simpa [Roster.dropSub, hu] using h1, by simpa [Roster.dropSub, hi] using h2, h3⟩

/-! ### Users -/

/-- The user a pointer leads to is written, if there is one. -/
@[simps]
def modify (r : Roster) (p : Option UserId) (f : UserLinks → UserLinks) : Roster :=
  { r with users := fun w => if p = some w then (r.users w).map f else r.users w }

section Modify

variable {p : Option UserId} {f : UserLinks → UserLinks}

theorem modify_none : r.modify none f = r := by simp [modify]

theorem modify_some (hx : r.users u = some x) : r.modify (some u) f = r.setUser u (f x) := by
  have : (r.modify (some u) f).users = (r.setUser u (f x)).users := by
    funext w
    by_cases h : w = u
    · subst h
      simp [hx]
    · simp [h, Ne.symm h]
  unfold modify at this ⊢
  simp only [Roster.setUser] at this ⊢
  rw [this]

theorem modify_map {β : Type} (g : UserLinks → β) (hf : ∀ x, g (f x) = g x) (w : UserId) :
    ((r.modify p f).users w).map g = (r.users w).map g := by
  rw [modify_users]
  split
  · cases r.users w <;> simp [hf]
  · rfl

theorem modify_live (w : UserId) : (r.modify p f).users w ≠ none ↔ r.users w ≠ none := by
  rw [modify_users]
  split <;> simp

end Modify

/-- A user leaves: its neighbours in the list are joined, its names are erased. -/
def dropUser (r : Roster) (u : UserId) (x : UserLinks) : Roster :=
  let r' := (r.modify x.prev fun y => { y with next := x.next }).modify x.next
    fun y => { y with prev := x.prev }
  { r' with
    uHead := if x.prev = none then x.next else r.uHead
    users := Function.update r'.users u none
    hSessid := r.hSessid.erase x.sessid
    hPubid := r.hPubid.erase x.pubid }

/-- A user comes: at the head of the list, under its two names. -/
def addUser (r : Roster) (sessid pubid : Bytes) : Roster :=
  let r' := r.modify r.uHead fun y => { y with prev := some r.fresh }
  { r' with
    uHead := some r.fresh
    users := Function.update r'.users r.fresh (some ⟨r.uHead, none, [], pubid, [], 0, sessid⟩)
    hSessid := r.hSessid.append sessid r.fresh
    hPubid := r.hPubid.append pubid (.user r.fresh)
    fresh := r.fresh + 1 }

theorem addUser_users_of_ne {sessid pubid : Bytes} (h : u ≠ r.fresh) :
    (r.addUser sessid pubid).users u =
      if r.uHead = some u then (r.users u).map fun y => { y with prev := some r.fresh }
      else r.users u := by
  simp [addUser, h]

theorem Wf.addUser (h : r.Wf) (sessid pubid : Bytes) : (r.addUser sessid pubid).Wf where
  member := by
    have : (r.addUser sessid pubid).foot = Function.update r.foot r.fresh (some []) := by
      unfold foot Roster.addUser
      rw [map_update]
      congr 1
      funext w
      exact modify_map _ (by intro _; rfl) w
    rw [this]
    exact h.member.add_left (by simp [foot, (h.bound _ le_rfl).1])
  owned := by
    have : (r.addUser sessid pubid).own = Function.update r.own r.fresh (some []) := by
      unfold own Roster.addUser
      rw [map_update]
      congr 1
      funext w
      exact modify_map _ (by intro _; rfl) w
    rw [this]
    exact h.owned.add_left (by simp [own, (h.bound _ le_rfl).1])
  listed := by
    obtain ⟨l, hl, hh, hm⟩ := h.listed
    have hfresh : r.fresh ∉ l := fun hin => (hm _).mp hin (h.bound _ le_rfl).1
    refine ⟨r.fresh :: l, hl.cons hfresh ?_ ?_ ?_ ?_, rfl, ?_⟩
    · simp [nextOf, Roster.addUser, hh]
    · simp [prevOf, Roster.addUser]
    · intro a ha
      have hne : a ≠ r.fresh := fun he => hfresh (he ▸ ha)
      unfold nextOf
      rw [addUser_users_of_ne hne]
      split
      · cases r.users a <;> rfl
      · rfl
    · intro a ha
      have hne : a ≠ r.fresh := fun he => hfresh (he ▸ ha)
      obtain ⟨y, hy⟩ := Option.ne_none_iff_exists'.mp ((hm a).mp ha)
      unfold prevOf
      rw [addUser_users_of_ne hne, hh, hy]
      split <;> rfl
    · intro w
      by_cases hw : w = r.fresh
      · simp [hw, Roster.addUser]
      · rw [addUser_users_of_ne hw]
        simp only [List.mem_cons, hw, false_or, hm w]
        split <;> simp
  bound n hn := by
    change r.fresh + 1 ≤ n at hn
    obtain ⟨h1, h2, h3⟩ := h.bound n (by omega)
    have hne : n ≠ r.fresh := by omega
    refine ⟨?_, h2, h3⟩
    rw [addUser_users_of_ne hne, h1]
    simp

theorem dropUser_users_of_ne {w : UserId} (h : w ≠ u) : (r.dropUser u x).users w =
    (if x.next = some w then Option.map fun y => { y with prev := x.prev } else id)
      ((if x.prev = some w then Option.map fun y => { y with next := x.next } else id)
        (r.users w)) := by
  by_cases h1 : x.next = some w <;> by_cases h2 : x.prev = some w <;>
    simp [dropUser, h, h1, h2]

theorem dropUser_foot : (r.dropUser u x).foot = Function.update r.foot u none := by
  unfold foot dropUser
  rw [map_update]
  congr 1
  funext w
  exact (modify_map _ (by intro _; rfl) w).trans (modify_map _ (by intro _; rfl) w)

theorem dropUser_own : (r.dropUser u x).own = Function.update r.own u none := by
  unfold own dropUser
  rw [map_update]
  congr 1
  funext w
  exact (modify_map _ (by intro _; rfl) w).trans (modify_map _ (by intro _; rfl) w)

theorem dropUser_live {w : UserId} (h : w ≠ u) :
    (r.dropUser u x).users w ≠ none ↔ r.users w ≠ none := by
  rw [dropUser_users_of_ne h]
  split <;> split <;> simp

/-- The list of users without the one that leaves. -/
theorem Lists.dropUser {l₁ l₂ : List UserId} (h : r.Lists (l₁ ++ u :: l₂))
    (hx : r.users u = some x) : (r.dropUser u x).Lists (l₁ ++ l₂) := by
  obtain ⟨hl, hh, hm⟩ := h
  obtain ⟨hnext, hprev⟩ := hl.middle
  have hxn : x.next = l₂.head? := by simpa [nextOf, hx] using hnext
  have hxp : x.prev = l₁.getLast? := by simpa [prevOf, hx] using hprev
  have hnd := hl.nodup
  have hu₁ : ∀ a ∈ l₁, a ≠ u := by
    rintro a ha rfl
    exact (List.nodup_append'.mp hnd).2.2 ha List.mem_cons_self
  have hu₂ : ∀ a ∈ l₂, a ≠ u := by
    rintro a ha rfl
    exact (List.nodup_cons.mp (List.nodup_append'.mp hnd).2.1).1 ha
  have hd : ∀ a ∈ l₁, a ∉ l₂ := fun a ha hb =>
    (List.nodup_append'.mp hnd).2.2 ha (List.mem_cons_of_mem u hb)
  have hlive : ∀ a ∈ l₁ ++ l₂, ∃ y, r.users a = some y := fun a ha =>
    Option.ne_none_iff_exists'.mp ((hm a).mp (by
      rcases List.mem_append.mp ha with ha | ha
      · exact List.mem_append_left _ ha
      · exact List.mem_append_right _ (List.mem_cons_of_mem u ha)))
  -- the neighbours of the user are the last of `l₁` and the first of `l₂`
  have hnot₁ : ∀ a ∈ l₁, x.next ≠ some a := fun a ha he =>
    hd a ha (List.mem_of_head? (hxn ▸ he))
  have hnot₂ : ∀ a ∈ l₂, x.prev ≠ some a := fun a ha he =>
    hd a (List.mem_of_getLast? (hxp ▸ he)) ha
  refine ⟨hl.unlink ?_ ?_ ?_ ?_, ?_, ?_⟩
  · intro a ha
    obtain ⟨y, hy⟩ := hlive a (List.mem_append_left _ ha)
    unfold nextOf
    rw [dropUser_users_of_ne (hu₁ a ha), if_neg (hnot₁ a ha), hy, hx, hxp]
    split <;> rfl
  · intro a ha
    obtain ⟨y, hy⟩ := hlive a (List.mem_append_left _ ha)
    unfold prevOf
    rw [dropUser_users_of_ne (hu₁ a ha), if_neg (hnot₁ a ha), hy]
    split <;> rfl
  · intro a ha
    obtain ⟨y, hy⟩ := hlive a (List.mem_append_right _ ha)
    unfold nextOf
    rw [dropUser_users_of_ne (hu₂ a ha), if_neg (hnot₂ a ha), hy]
    split <;> rfl
  · intro a ha
    obtain ⟨y, hy⟩ := hlive a (List.mem_append_right _ ha)
    unfold prevOf
    rw [dropUser_users_of_ne (hu₂ a ha), if_neg (hnot₂ a ha), hy, hx, hxn]
    split <;> rfl
  · change (if x.prev = none then x.next else r.uHead) = (l₁ ++ l₂).head?
    rw [hxp, hxn, hh]
    cases l₁ with
    | nil => simp
    | cons a l₁ =>
      have : (a :: l₁).getLast? ≠ none := by simp
      rw [if_neg this]
      rfl
  · intro w
    by_cases hw : w = u
    · subst hw
      have h1 : w ∉ l₁ := fun h => hu₁ w h rfl
      have h2 : w ∉ l₂ := fun h => hu₂ w h rfl
      simp [Roster.dropUser, h1, h2]
    · rw [dropUser_live hw, ← hm w]
      simp [hw]

theorem Wf.dropUser (h : r.Wf) (hx : r.users u = some x) (hf : x.chan_foot = [])
    (hs : x.subuser = []) : (r.dropUser u x).Wf where
  member := by
    rw [dropUser_foot]
    exact h.member.drop_left (by rw [foot_eq hx, hf])
  owned := by
    rw [dropUser_own]
    exact h.owned.drop_left (by rw [own_eq hx, hs])
  listed := by
    obtain ⟨l, hl⟩ := h.listed
    obtain ⟨l₁, l₂, rfl⟩ := List.append_of_mem ((hl.2.2 u).mpr (by simp [hx]))
    exact ⟨_, hl.dropUser hx⟩
  bound n hn := by
    obtain ⟨h1, h2, h3⟩ := h.bound n hn
    refine ⟨?_, h2, h3⟩
    by_cases hne : n = u
    · simp [Roster.dropUser, hne]
    · rw [dropUser_users_of_ne hne, h1]
      split <;> split <;> rfl

end ApeServer.Roster
