import ApeServer.Server.Quiet
import ApeServer.Server.Registry

/-!
# Sound states

The operations keep the roster well formed and registered, and in such a state they find
every record they use.
-/
namespace ApeServer

open Sock (Bytes)
open Steps (ok_bind bind_ok foldlM_keeps foldlM_completes)

structure Roster.Sound (r : Roster) : Prop where
  wf : r.Wf
  reg : r.Registered

namespace Roster

variable {r : Roster} {i : SubId} {z : SubLinks}

/-- The record of a subuser without a user is nobody's. -/
theorem Sound.forget (h : r.Sound) (hz : r.subs i = some z) (hu : z.user = none) :
    ({ r with subs := Function.update r.subs i none } : Roster).Sound where
  wf := by
    refine ⟨h.wf.member, ?_, h.wf.listed, fun n hn => ?_⟩
    · have ho : ({ r with subs := Function.update r.subs i none } : Roster).owners =
          Function.update r.owners i none := map_update ..
      rw [ho]
      exact h.wf.owned.drop_right (by rw [owners_eq hz, hu]; rfl)
    · obtain ⟨h1, h2, h3⟩ := h.wf.bound n hn
      refine ⟨h1, ?_, h3⟩
      by_cases hi : n = i
      · simp [hi]
      · simpa [hi] using h2
  reg := by
    refine ⟨h.reg.sessid, h.reg.pubid, h.reg.name, h.reg.auto, fun u x hx => ?_⟩
    have hnot : i ∉ x.subuser := by
      intro hi
      obtain ⟨z', hz', hu'⟩ := sub_live h.wf hx hi
      rw [hz] at hz'
      cases hz'
      rw [hu] at hu'
      cases hu'
    obtain ⟨h1, h2⟩ := h.reg.hosts u x hx
    exact ⟨h1, (map_hostOf_update hnot).symm ▸ h2⟩

end Roster

namespace Ape

variable {s s' : Ape} {u : UserId} {i : SubId} {c : ChanId} {x : User} {y : Subuser}

theorem init_sound (rand : List (List.Vector (Fin 16) 32)) (io : ℕ → Bool) (time : ℤ) :
    (init rand io time).roster.Sound where
  wf := init_wf rand io time
  reg := by
    have hpub : (init rand io time).roster.pubKey = fun _ => none := by
      funext p
      cases p <;> rfl
    refine ⟨.init, ?_, .init, fun c y h => ?_, fun u x h => ?_⟩
    · rw [hpub]
      exact .init
    · cases h
    · cases h

theorem registered_keeps : Keeps Roster.Registered where
  left u c _ h := h.left u c
  dropSub hw h hx hz hu _ := h.dropSub hw hx hz hu _

theorem left_sound (h : s.roster.Sound) (hl : s.left u c = .ok s') : s'.roster.Sound := by
  rw [left_roster h.wf hl]
  exact ⟨h.wf.left u c, h.reg.left u c⟩

theorem rmchan_sound (h : s.roster.Sound) (hl : s.rmchan c = .ok s') : s'.roster.Sound := by
  obtain ⟨z, hz, hr⟩ := rmchan_roster h.wf hl
  rw [hr]
  exact ⟨h.wf.rmchan (roster_chans hz), h.reg.rmchan h.wf (roster_chans hz)⟩

theorem delsubuser_sound (h : s.roster.Sound) (hx : s.users u = some x) (hi : i ∈ x.subuser)
    (hl : s.delsubuser u i = .ok s') : s'.roster.Sound := by
  obtain ⟨y, hy, hu⟩ := own_live h.wf.owned hx hi
  exact ⟨delsubuser_keeps wf_keeps h.wf h.wf hx hy hu hl,
    delsubuser_keeps registered_keeps h.wf h.reg hx hy hu hl⟩

theorem deluser_sound (h : s.roster.Sound) (hl : s.deluser u = .ok s') : s'.roster.Sound := by
  obtain ⟨r, w, hr, hwf, hreg, hw, hf, hs⟩ := deluser_roster registered_keeps h.wf h.reg hl
  rw [hr]
  exact ⟨hwf.dropUser hw hf hs, hreg.dropUser hw⟩

/-! ### Creation -/

theorem findSub_none {channel : Bytes} {l : List SubId} (h : s.findSub channel l = .ok none) :
    ∀ i ∈ l, s.roster.hostOf i ≠ some channel := by
  induction l with
  | nil => simp
  | cons j l ih =>
    obtain ⟨y, hy, h⟩ := bind_ok h
    split at h
    · cases h
    · next hne =>
      intro i hi
      rcases List.mem_cons.mp hi with rfl | hi
      · rw [Roster.hostOf_eq (roster_subs (sub_ok hy))]
        exact fun he => hne (Option.some.inj he)
      · exact ih h i hi

theorem addsubuser_sound {client : Fd} {channel : Bytes} {o : Option SubId}
    (h : s.roster.Sound) (hl : s.addsubuser client channel u = .ok (o, s')) :
    s'.roster.Sound := by
  obtain ⟨-, rfl⟩ | ⟨x, hx, hg, hr⟩ := addsubuser_roster hl
  · exact h
  · rw [hr]
    refine ⟨h.wf.addSub (roster_users hx) channel, h.reg.addSub h.wf (roster_users hx) ?_⟩
    simp only [getsubuser, user_eq hx, ok_bind] at hg
    exact findSub_none hg

theorem Allocated.sound {t : Ape} (ha : Allocated s u t) (h : s.roster.Sound) :
    t.roster.Sound := by
  obtain ⟨sessid, pubid, hs, hp, hr⟩ := ha.free
  rw [hr]
  exact ⟨h.wf.addUser sessid pubid, h.reg.addUser h.wf hs.sessid hp.pubid⟩

theorem allocUser_sound {client : Fd} {host ip : Bytes} (h : s.roster.Sound)
    (hl : s.allocUser client host ip = .ok (u, s')) : s'.roster.Sound := by
  obtain ⟨t, o, ha, hs⟩ := allocUser_spec hl
  exact addsubuser_sound (ha.sound h) hs

theorem adduser_roster (hl : s.adduser u = .ok s') : s'.roster = s.roster := by
  obtain ⟨x, hx, hl⟩ := bind_ok hl
  cases hl
  exact roster_setUser_of (user_ok hx) rfl

/-! ### Joining by name -/

theorem join_sound (h : s.roster.Sound) (hl : s.join u c = .ok s') : s'.roster.Sound := by
  obtain ⟨x, hx, ⟨-, rfl⟩ | ⟨hc, z, hz, hr⟩⟩ := join_roster hl
  · exact h
  · rw [hr]
    exact ⟨h.wf.link (roster_users hx) (roster_chans hz) hc,
      h.reg.link (roster_users hx) (roster_chans hz)⟩

theorem getban_roster {ip : Bytes} {b : Option Banned} (hl : s.getban c ip = .ok (b, s')) :
    s'.roster = s.roster ∧ s'.users = s.users := by
  obtain ⟨z, hz, hl⟩ := bind_ok hl
  cases hl
  exact ⟨roster_setChan_of (chan_ok hz) rfl, rfl⟩

theorem tolower_tolower (b : UInt8) : Http.tolower (Http.tolower b) = Http.tolower b := by
  have hall : ∀ n < 256, Http.tolower (Http.tolower (UInt8.ofNat n)) =
      Http.tolower (UInt8.ofNat n) := by decide +kernel
  have hb := hall b.toNat b.toNat_lt
  rwa [UInt8.ofNat_toNat] at hb

theorem isvalidchan_eq {name n : Bytes} (h : isvalidchan name = some n) :
    name.length ≤ maxChanLen ∧ strcaseeq n name = true := by
  unfold isvalidchan at h
  split at h
  · cases h
  · next hlen =>
    refine ⟨by omega, ?_⟩
    split at h
    · next star rest hrest =>
      split at h
      · cases h
        cases hname : name with
        | nil =>
          simp only [hname, List.head?_nil, reduceCtorEq, if_false, Prod.mk.injEq] at hrest
          obtain ⟨rfl, rfl⟩ := hrest
          rfl
        | cons b l =>
          simp only [hname, List.head?_cons, Option.some.injEq, List.tail_cons] at hrest
          split at hrest
          · next hb =>
            cases hrest
            subst hb
            simp [strcaseeq, Function.comp_def, tolower_tolower]
          · cases hrest
            simp [strcaseeq, Function.comp_def, tolower_tolower]
      · cases h

/-- A channel that is made because its name was unknown, and joined at once. -/
theorem create_sound {name : Bytes} {t : Ape} (h : s.roster.Sound)
    (hn : s.getchan name = none) (hm : s.mkchan name true = .ok (some c, t))
    (hl : t.join u c = .ok s') : s'.roster.Sound := by
  obtain ⟨-, hc, -⟩ | ⟨n, pubid, z, hv, hc, hfree, hr, hz, hus, -⟩ := mkchan_roster hm
  · cases hc
  · cases hc
    obtain ⟨hlen, heq⟩ := isvalidchan_eq hv
    have hname : s.hLusers.seek name = none := by
      rw [getchan, if_neg (by omega)] at hn
      exact hn
    have hname' : s.roster.hLusers.seek n = none := by
      -- a channel under an equal name would have been found
      by_contra hne
      obtain ⟨d, hd⟩ := Option.ne_none_iff_exists'.mp hne
      obtain ⟨m, hm, he⟩ := (h.reg.name n d).mp hd
      have := (h.reg.name name d).mpr ⟨m, hm, Htbl.strcaseeq_trans (Htbl.strcaseeq_symm heq) he⟩
      rw [show s.roster.hLusers.seek name = none from hname] at this
      cases this
    have hwf : t.roster.Wf := mkchan_wf h.wf hm
    obtain ⟨x, hx, ⟨hc, -⟩ | ⟨hc, z', hz', hr'⟩⟩ := join_roster hl
    · -- nobody is on a channel that was just made
      obtain ⟨z', hz', hu⟩ := foot_live hwf hx hc
      have hlinks : t.roster.chans s.fresh = some ⟨pubid, [], true, n⟩ := by
        rw [hr]
        exact Function.update_self ..
      rw [roster_chans hz'] at hlinks
      have := congrArg ChanLinks.users (Option.some.inj hlinks)
      rw [links_users] at this
      simp [this] at hu
    · have hlinks : t.roster.chans s.fresh = some ⟨pubid, [], true, n⟩ := by
        rw [hr]
        exact Function.update_self ..
      have hzl : z'.links = ⟨pubid, [], true, n⟩ := by
        rw [roster_chans hz'] at hlinks
        exact Option.some.inj hlinks
      refine ⟨?_, ?_⟩
      · rw [hr']
        exact hwf.link (roster_users hx) (roster_chans hz') hc
      · rw [hr', hr, hzl]
        exact h.reg.create h.wf (roster_users (hus ▸ hx)) hfree.pubid hname' true

theorem joinOne_sound {name : Bytes} (h : s.roster.Sound) (hl : s.joinOne u name = .ok s') :
    s'.roster.Sound := by
  unfold joinOne at hl
  split at hl
  · next hn =>
    obtain ⟨⟨o, t⟩, ht, hj⟩ := bind_ok hl
    cases o with
    | none =>
      obtain ⟨-, -, rfl⟩ | ⟨n, pubid, z, -, hc, -⟩ := mkchan_roster ht
      · rw [(sendError_posted hj).roster]
        exact h
      · cases hc
    | some c => exact create_sound h hn ht hj
  · next c hc =>
    obtain ⟨x, -, hl⟩ := bind_ok hl
    split at hl
    · rw [(sendError_posted hl).roster]
      exact h
    · obtain ⟨⟨b, t⟩, ht, hl⟩ := bind_ok hl
      have hr := (getban_roster ht).1
      cases b with
      | none => exact join_sound (hr ▸ h) hl
      | some b =>
        rw [(postRaw_posted hl).roster, hr]
        exact h

theorem cmdJoin_sound {cp : Callbackp} {flag : UInt32} (h : s.roster.Sound)
    (hl : cmdJoin cp s = .ok (flag, s')) : s'.roster.Sound := by
  obtain ⟨t, ht, hl⟩ := bind_ok hl
  cases hl
  refine foldlM_keeps (fun s => s.roster.Sound) (fun t name t' _ hs ht => ?_) h ht
  obtain ⟨u, -, ht⟩ := bind_ok ht
  exact joinOne_sound hs ht

theorem cmdLeft_sound {cp : Callbackp} {flag : UInt32} (h : s.roster.Sound)
    (hl : cmdLeft cp s = .ok (flag, s')) : s'.roster.Sound := by
  unfold cmdLeft at hl
  split at hl
  · cases hl
    exact h
  · obtain ⟨u, -, hl⟩ := bind_ok hl
    split at hl
    · obtain ⟨t, ht, hl⟩ := bind_ok hl
      cases hl
      rw [(sendError_posted ht).roster]
      exact h
    · obtain ⟨x, -, hl⟩ := bind_ok hl
      split at hl
      · obtain ⟨t, ht, hl⟩ := bind_ok hl
        cases hl
        rw [(sendError_posted ht).roster]
        exact h
      · obtain ⟨t, ht, hl⟩ := bind_ok hl
        cases hl
        exact left_sound h ht

/-! ### No command uses a freed record -/

theorem sendError_completes {msg code : Bytes} (h : s.roster.Sound) (hx : s.users u = some x) :
    ∃ s', s.sendError u msg code = .ok s' := ⟨_, postRaw_eq h.wf.owned hx⟩

/-- A name leads to a live channel. -/
theorem getchan_live {name : Bytes} (h : s.roster.Sound) (hc : s.getchan name = some c) :
    ∃ z, s.chans c = some z := by
  unfold getchan at hc
  split at hc
  · cases hc
  · obtain ⟨n, hn, -⟩ := (h.reg.name name c).mp hc
    cases hz : s.chans c with
    | none => simp [Roster.nameKey, roster, hz] at hn
    | some z => exact ⟨z, rfl⟩

theorem joinOne_noFault {name : Bytes} (h : s.roster.Sound) (hx : s.users u = some x) :
    NoFault (s.joinOne u name) := by
  unfold joinOne
  split
  · refine .bind mkchan_noFault fun r hr => ?_
    obtain ⟨o, t⟩ := r
    obtain ⟨-, rfl, rfl⟩ | ⟨n, pubid, y, -, rfl, -, -, hy, hu, -⟩ := mkchan_roster hr
    · exact .of_completes (sendError_completes h hx)
    · exact .of_completes (join_completes (mkchan_wf h.wf hr) (by rw [hu]; exact hx) hy)
  · next c hc =>
    obtain ⟨z, hz⟩ := getchan_live h hc
    simp only [user_eq hx, ok_bind]
    split
    · exact .of_completes (sendError_completes h hx)
    · have hban : ∃ b l, s.getban c x.ip = .ok (b, s.setChan c { z with banned := l }) := by
        simp only [getban, chan_eq hz, ok_bind]
        exact ⟨_, _, rfl⟩
      obtain ⟨b, l, hb⟩ := hban
      have hr : (s.setChan c { z with banned := l }).roster = s.roster := (getban_roster hb).1
      simp only [hb, ok_bind]
      cases b with
      | some b => exact .of_completes ⟨_, postRaw_eq (by rw [hr]; exact h.wf.owned) hx⟩
      | none =>
        exact .of_completes (join_completes (by rw [hr]; exact h.wf) hx (Function.update_self ..))

theorem cmdJoin_noFault {cp : Callbackp} (h : s.roster.Sound) (hu : cp.call_user = some u)
    (hx : s.users u ≠ none) : NoFault (cmdJoin cp s) := by
  refine .bind ?_ fun _ _ => .ok _
  induction jforeach cp.param (bytes "channels") generalizing s with
  | nil => exact .ok _
  | cons name l ih =>
    rw [List.foldlM_cons]
    obtain ⟨x, hx'⟩ := Option.ne_none_iff_exists'.mp hx
    simp only [deref_eq hu, ok_bind] at ih ⊢
    exact .bind (joinOne_noFault h hx') fun t ht =>
      ih (joinOne_sound h ht) (((joinOne_minor ht).live u).mpr hx)

theorem cmdLeft_noFault {cp : Callbackp} (h : s.roster.Sound) (hu : cp.call_user = some u)
    (hx : s.users u ≠ none) : NoFault (cmdLeft cp s) := by
  obtain ⟨x, hx⟩ := Option.ne_none_iff_exists'.mp hx
  unfold cmdLeft
  split
  · exact .ok _
  · simp only [deref_eq hu, ok_bind, user_eq hx]
    split
    · exact .bind (.of_completes (sendError_completes h hx)) fun _ _ => .ok _
    · split
      · exact .bind (.of_completes (sendError_completes h hx)) fun _ _ => .ok _
      · exact .bind (.of_completes (left_completes h.wf hx)) fun _ _ => .ok _

end Ape

end ApeServer
