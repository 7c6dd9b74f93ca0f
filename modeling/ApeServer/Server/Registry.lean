import ApeServer.Server.Creation

/-! The changes of the roster keep its registries. -/
namespace ApeServer.Roster

open Sock (Bytes)
open Incidence (Incident)

variable {r r' : Roster} {u : UserId} {c : ChanId} {i : SubId} {x x' : UserLinks}
  {y y' : ChanLinks} {z : SubLinks}

theorem sessKey_eq (h : r.users u = some x) : r.sessKey u = some x.sessid := by simp [sessKey, h]

theorem nameKey_eq (h : r.chans c = some y) : r.nameKey c = some y.name := by simp [nameKey, h]

theorem userKey_eq (h : r.users u = some x) : r.pubKey (.user u) = some x.pubid := by
  simp [pubKey, h]

theorem chanKey_eq (h : r.chans c = some y) : r.pubKey (.channel c) = some y.pubid := by
  simp [pubKey, h]

theorem hostOf_eq (h : r.subs i = some z) : r.hostOf i = some z.channel := by simp [hostOf, h]

/-- Registries that are not touched agree with records that keep their names. -/
theorem Registered.congr (h : r.Registered) (h1 : r'.hSessid = r.hSessid)
    (h2 : r'.hPubid = r.hPubid) (h3 : r'.hLusers = r.hLusers) (k1 : r'.sessKey = r.sessKey)
    (k2 : r'.pubKey = r.pubKey) (k3 : r'.nameKey = r.nameKey)
    (auto : ∀ c y, r'.chans c = some y → y.autodestroy = true → y.users ≠ [])
    (hosts : ∀ u x, r'.users u = some x →
      x.nsub = x.subuser.length ∧ (x.subuser.map r'.hostOf).Nodup) : r'.Registered where
  sessid := by
    rw [h1, k1]
    exact h.sessid
  pubid := by
    rw [h2, k2]
    exact h.pubid
  name := by
    rw [h3, k3]
    exact h.name
  auto := auto
  hosts := hosts

/-- Writing a user without touching its names and its subusers. -/
theorem Registered.setUser (h : r.Registered) (hx : r.users u = some x)
    (hs : x'.sessid = x.sessid) (hp : x'.pubid = x.pubid) (hn : x'.nsub = x.nsub)
    (hl : x'.subuser = x.subuser) : (r.setUser u x').Registered := by
  refine h.congr rfl rfl rfl ?_ ?_ rfl h.auto fun v w hw => ?_
  · rw [sessKey_setUser, hs, ← sessKey_eq hx, Function.update_eq_self]
  · rw [pubKey_setUser, hp, ← userKey_eq hx, Function.update_eq_self]
  · by_cases hv : v = u
    · subst hv
      simp only [setUser_users, Function.update_self, Option.some.injEq] at hw
      subst hw
      rw [hn, hl]
      exact h.hosts v x hx
    · exact h.hosts v w (by simpa [hv] using hw)

/-- Writing a channel without touching its names. -/
theorem Registered.setChan (h : r.Registered) (hy : r.chans c = some y) (hn : y'.name = y.name)
    (hp : y'.pubid = y.pubid) (ha : y'.autodestroy = true → y'.users ≠ []) :
    (r.setChan c y').Registered := by
  refine h.congr rfl rfl rfl rfl ?_ ?_ (fun d w hw => ?_) h.hosts
  · rw [pubKey_setChan, hp, ← chanKey_eq hy, Function.update_eq_self]
  · rw [nameKey_setChan, hn, ← nameKey_eq hy, Function.update_eq_self]
  · by_cases hd : d = c
    · subst hd
      simp only [setChan_chans, Function.update_self, Option.some.injEq] at hw
      subst hw
      exact ha
    · exact h.auto d w (by simpa [hd] using hw)

theorem Registered.link (h : r.Registered) (hx : r.users u = some x) (hy : r.chans c = some y) :
    (r.link u x c y).Registered := by
  have h1 : (r.setChan c { y with users := u :: y.users }).Registered :=
    h.setChan hy rfl rfl fun _ => List.cons_ne_nil _ _
  exact h1.setUser hx rfl rfl rfl rfl

theorem nameKey_freeChan : (r.freeChan c y).nameKey = Function.update r.nameKey c none :=
  map_update ..

theorem pubKey_freeChan : (r.freeChan c y).pubKey = Function.update r.pubKey (.channel c) none := by
  funext p
  cases p with
  | user v => simp [pubKey, freeChan]
  | channel d =>
    by_cases h : d = c
    · subst h
      simp [pubKey, freeChan]
    · simp [pubKey, freeChan, h]
  | proxy => simp [pubKey]
  | custom => simp [pubKey]

theorem Registered.freeChan (h : r.Registered) (hy : r.chans c = some y) :
    (r.freeChan c y).Registered where
  sessid := h.sessid
  pubid := by
    rw [pubKey_freeChan]
    exact h.pubid.erase (chanKey_eq hy)
  name := by
    rw [nameKey_freeChan]
    exact h.name.erase (nameKey_eq hy)
  auto d w hw := by
    by_cases hd : d = c
    · simp [Roster.freeChan, hd] at hw
    · exact h.auto d w (by simpa [Roster.freeChan, hd] using hw)
  hosts := h.hosts

theorem freeChan_unlink : (r.unlink u x c y).freeChan c { y with users := [] } =
    (r.setUser u { x with chan_foot := x.chan_foot.erase c }).freeChan c y := by
  simp [freeChan, unlink, setUser, setChan]

theorem Registered.left (h : r.Registered) (u : UserId) (c : ChanId) :
    (r.left u c).Registered := by
  unfold Roster.left
  split
  · next x y hx hy =>
    have h1 : (r.setUser u { x with chan_foot := x.chan_foot.erase c }).Registered :=
      h.setUser hx rfl rfl rfl rfl
    split
    · split
      · rw [freeChan_unlink]
        exact h1.freeChan hy
      · next hlast =>
        exact h1.setChan hy rfl rfl fun ha hu => hlast ⟨hu, ha⟩
    · exact h
  · exact h

theorem Registered.rmchan (h : r.Registered) (hw : r.Wf) (hy : r.chans c = some y) :
    (r.rmchan c y).Registered := by
  unfold Roster.rmchan
  split
  · exact h.freeChan hy
  · have h1 : (r.setChan c { y with autodestroy := false }).Registered :=
      h.setChan hy rfl rfl fun ha => by cases ha
    have hw1 : (r.setChan c { y with autodestroy := false }).Wf := hw.setChan hy rfl
    have h2 := leaveAll_chan hw1 (Function.update_self ..) rfl rfl
    exact (foldl_keeps Registered (fun _ v h => h.left v c) _ h1).freeChan h2

/-- A new channel that its first member joins at once. -/
theorem Registered.create (h : r.Registered) (hw : r.Wf) (hx : r.users u = some x)
    {pubid name : Bytes} (hp : r.hPubid.seek pubid = none) (hn : r.hLusers.seek name = none)
    (auto : Bool) : ((r.addChan pubid name auto).link u x r.fresh
      ⟨pubid, [], auto, name⟩).Registered := by
  have hfresh := (hw.bound r.fresh le_rfl).2.2
  have hlink : (r.addChan pubid name auto).link u x r.fresh ⟨pubid, [], auto, name⟩ =
      { r with
        users := Function.update r.users u (some { x with chan_foot := r.fresh :: x.chan_foot })
        chans := Function.update r.chans r.fresh (some ⟨pubid, [u], auto, name⟩)
        hLusers := r.hLusers.append name r.fresh
        hPubid := r.hPubid.append pubid (.channel r.fresh)
        fresh := r.fresh + 1 } := by
    simp [Roster.link, addChan, Roster.setChan, Roster.setUser]
  have h1 : (r.setUser u { x with chan_foot := r.fresh :: x.chan_foot }).Registered :=
    h.setUser hx rfl rfl rfl rfl
  have hpub := h1.pubid
  have hname := h1.name
  rw [hlink]
  refine ⟨h1.sessid, ?_, ?_, fun d w hd ha => ?_, h1.hosts⟩
  · have := hpub.append (a := .channel r.fresh) (n := pubid) (by simp [pubKey, hfresh]) hp
    rw [← pubKey_setChan (y := ⟨pubid, [u], auto, name⟩)] at this
    exact this
  · have := hname.append (a := r.fresh) (n := name) (by simp [nameKey, hfresh]) hn
    rw [← nameKey_setChan (y := ⟨pubid, [u], auto, name⟩)] at this
    exact this
  · by_cases hc : d = r.fresh
    · subst hc
      simp only [Function.update_self, Option.some.injEq] at hd
      subst hd
      simp
    · exact h.auto d w (by simpa [hc] using hd) ha

/-! ### Subusers -/

theorem sub_live (hw : r.Wf) (hx : r.users u = some x) (hi : i ∈ x.subuser) :
    ∃ z, r.subs i = some z ∧ z.user = some u := by
  obtain ⟨m, hm, hu⟩ := hw.owned.right_of_mem (own_eq hx) hi
  cases hz : r.subs i with
  | none => simp [owners, hz] at hm
  | some z =>
    simp only [owners, hz, Option.map_some, Option.some.injEq] at hm
    subst hm
    exact ⟨z, rfl, by simpa using hu⟩

theorem map_hostOf_update {l : List SubId} {v : Option SubLinks} (hi : i ∉ l) :
    l.map (fun j => (Function.update r.subs i v j).map SubLinks.channel) = l.map r.hostOf := by
  refine List.map_congr_left fun j hj => ?_
  have hne : j ≠ i := fun he => hi (he ▸ hj)
  rw [Function.update_of_ne hne]
  rfl

theorem sessKey_write (hx : r.users u = some x) (hs : x'.sessid = x.sessid) :
    Function.update r.sessKey u (some x'.sessid) = r.sessKey := by
  rw [hs, ← sessKey_eq hx, Function.update_eq_self]

theorem userKey_write (hx : r.users u = some x) (hs : x'.pubid = x.pubid) :
    Function.update r.pubKey (.user u) (some x'.pubid) = r.pubKey := by
  rw [hs, ← userKey_eq hx, Function.update_eq_self]

theorem Registered.addSub (h : r.Registered) (hw : r.Wf) (hx : r.users u = some x)
    {host : Bytes} (hn : ∀ i ∈ x.subuser, r.hostOf i ≠ some host) :
    (r.addSub u x host).Registered := by
  have hnot : ∀ v w, r.users v = some w → r.fresh ∉ w.subuser := by
    intro v w hv hm
    obtain ⟨z, hz, -⟩ := sub_live hw hv hm
    simp [(hw.bound r.fresh le_rfl).2.1] at hz
  refine h.congr rfl rfl rfl (sessKey_setUser.trans (sessKey_write hx rfl))
    (pubKey_setUser.trans (userKey_write hx rfl)) rfl h.auto fun v w hv => ?_
  by_cases he : v = u
  · subst he
    simp only [Roster.addSub, setUser_users, Function.update_self, Option.some.injEq] at hv
    subst hv
    obtain ⟨h1, h2⟩ := h.hosts v x hx
    refine ⟨by simp [h1], ?_⟩
    rw [List.map_cons, List.nodup_cons]
    have hmap := map_hostOf_update (r := r) (v := some ⟨some v, host⟩) (hnot v x hx)
    have hhead : (r.addSub v x host).hostOf r.fresh = some host := by
      simp [hostOf, Roster.addSub]
    change _ ∉ List.map (fun j => (Function.update r.subs r.fresh _ j).map SubLinks.channel) _ ∧
      (List.map (fun j => (Function.update r.subs r.fresh _ j).map SubLinks.channel) _).Nodup
    rw [hmap, hhead]
    refine ⟨fun hm => ?_, h2⟩
    obtain ⟨i, hi, he⟩ := List.mem_map.mp hm
    exact hn i hi he
  · have hv' : r.users v = some w := by simpa [Roster.addSub, he] using hv
    obtain ⟨h1, h2⟩ := h.hosts v w hv'
    exact ⟨h1, (map_hostOf_update (hnot v w hv')).symm ▸ h2⟩

theorem Registered.dropSub (h : r.Registered) (hw : r.Wf) (hx : r.users u = some x)
    (hz : r.subs i = some z) (hu : z.user = some u) (v : Option SubLinks) :
    (r.dropSub u x i v).Registered := by
  have hmem : i ∈ x.subuser :=
    hw.owned.mem_of_right (own_eq hx) (owners_eq hz) (by simp [hu])
  refine h.congr rfl rfl rfl (sessKey_setUser.trans (sessKey_write hx rfl))
    (pubKey_setUser.trans (userKey_write hx rfl)) rfl h.auto fun a w ha => ?_
  by_cases he : a = u
  · subst he
    simp only [Roster.dropSub, setUser_users, Function.update_self, Option.some.injEq] at ha
    subst ha
    obtain ⟨h1, h2⟩ := h.hosts a x hx
    have hnd : x.subuser.Nodup := hw.owned.left_nodup (own_eq hx)
    refine ⟨?_, ?_⟩
    · have := List.length_pos_of_mem hmem
      simp only [List.length_erase_of_mem hmem, h1]
      omega
    · exact (map_hostOf_update hnd.not_mem_erase).symm ▸
        h2.sublist ((List.erase_sublist (a := i) (l := x.subuser)).map r.hostOf)
  · have ha' : r.users a = some w := by simpa [Roster.dropSub, he] using ha
    have hnot : i ∉ w.subuser := by
      intro hi
      obtain ⟨z', hz', hu'⟩ := sub_live hw ha' hi
      rw [hz] at hz'
      cases hz'
      rw [hu] at hu'
      exact he (Option.some.inj hu').symm
    obtain ⟨h1, h2⟩ := h.hosts a w ha'
    exact ⟨h1, (map_hostOf_update hnot).symm ▸ h2⟩

/-! ### Users -/

/-- The users of two lists of users that differ in their links only. -/
theorem hosts_of_map {l : Option UserLinks} (hosts : ∀ x, l = some x →
    x.nsub = x.subuser.length ∧ (x.subuser.map r.hostOf).Nodup) {m : Option UserLinks}
    (hm : m.map (fun x => (x.nsub, x.subuser)) = l.map fun x => (x.nsub, x.subuser)) :
    ∀ x, m = some x → x.nsub = x.subuser.length ∧ (x.subuser.map r.hostOf).Nodup := by
  rintro x rfl
  cases l with
  | none => cases hm
  | some w =>
    simp only [Option.map_some, Option.some.injEq, Prod.mk.injEq] at hm
    rw [hm.1, hm.2]
    exact hosts w rfl

theorem sessKey_addUser {sessid pubid : Bytes} : (r.addUser sessid pubid).sessKey =
    Function.update r.sessKey r.fresh (some sessid) := by
  unfold sessKey Roster.addUser
  rw [map_update]
  congr 1
  funext w
  exact modify_map _ (by intro _; rfl) w

theorem pubKey_addUser {sessid pubid : Bytes} : (r.addUser sessid pubid).pubKey =
    Function.update r.pubKey (.user r.fresh) (some pubid) := by
  funext p
  cases p with
  | user v =>
    by_cases hv : v = r.fresh
    · subst hv
      simp [pubKey, Roster.addUser]
    · have hne : Pipe.user v ≠ .user r.fresh := fun he => hv (Pipe.user.inj he)
      rw [Function.update_of_ne hne]
      simp only [pubKey, Roster.addUser]
      rw [Function.update_of_ne hv]
      exact modify_map _ (by intro _; rfl) v
  | channel c => simp [pubKey, Roster.addUser]
  | proxy => simp [pubKey]
  | custom => simp [pubKey]

theorem Registered.addUser (h : r.Registered) (hw : r.Wf) {sessid pubid : Bytes}
    (hs : r.hSessid.seek sessid = none) (hp : r.hPubid.seek pubid = none) :
    (r.addUser sessid pubid).Registered where
  sessid := by
    rw [sessKey_addUser]
    exact h.sessid.append (by simp [sessKey, (hw.bound _ le_rfl).1]) hs
  pubid := by
    rw [pubKey_addUser]
    exact h.pubid.append (by simp [pubKey, (hw.bound _ le_rfl).1]) hp
  name := h.name
  auto := h.auto
  hosts v w hv := by
    by_cases he : v = r.fresh
    · subst he
      simp only [Roster.addUser, Function.update_self, Option.some.injEq] at hv
      subst hv
      simp
    · refine hosts_of_map (h.hosts v) ?_ w hv
      rw [addUser_users_of_ne he]
      split
      · cases r.users v <;> rfl
      · rfl

theorem sessKey_dropUser : (r.dropUser u x).sessKey = Function.update r.sessKey u none := by
  unfold sessKey Roster.dropUser
  rw [map_update]
  congr 1
  funext w
  exact (modify_map _ (by intro _; rfl) w).trans (modify_map _ (by intro _; rfl) w)

theorem pubKey_dropUser : (r.dropUser u x).pubKey = Function.update r.pubKey (.user u) none := by
  funext p
  cases p with
  | user v =>
    by_cases hv : v = u
    · subst hv
      simp [pubKey, Roster.dropUser]
    · have hne : Pipe.user v ≠ .user u := fun he => hv (Pipe.user.inj he)
      rw [Function.update_of_ne hne]
      simp only [pubKey, Roster.dropUser]
      rw [Function.update_of_ne hv]
      exact (modify_map _ (by intro _; rfl) v).trans (modify_map _ (by intro _; rfl) v)
  | channel c => simp [pubKey, Roster.dropUser]
  | proxy => simp [pubKey]
  | custom => simp [pubKey]

theorem Registered.dropUser (h : r.Registered) (hx : r.users u = some x) :
    (r.dropUser u x).Registered where
  sessid := by
    rw [sessKey_dropUser]
    exact h.sessid.erase (sessKey_eq hx)
  pubid := by
    rw [pubKey_dropUser]
    exact h.pubid.erase (userKey_eq hx)
  name := h.name
  auto := h.auto
  hosts v w hv := by
    by_cases he : v = u
    · simp [Roster.dropUser, he] at hv
    · refine hosts_of_map (h.hosts v) ?_ w hv
      rw [dropUser_users_of_ne he]
      split <;> split <;> cases r.users v <;> rfl

end ApeServer.Roster
