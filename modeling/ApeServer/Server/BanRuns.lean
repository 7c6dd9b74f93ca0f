import ApeServer.Server.Bans
import ApeServer.Server.RegistryRuns
import ApeServer.Server.Traffic

/-!
# Bans over runs

A ban is a record of the channel it was made on. While it lasts and the channel lives, nobody
with the address gets into the channel by its name.
-/
namespace ApeServer

open Sock (Bytes)
open Steps (ok_bind bind_ok foldlM_keeps Reach)

/-- `rmban`, on the bans the nodes hold. -/
def Ape.rmban (s : Ape) (c : ChanId) (ip : Bytes) : Except Halt Ape := do
  let y ← s.chan c
  return s.setChan c { y with banned := Sweep.swept (rmbanVerdict s.time ip) y.banned }

/-- An operation on the registries, or one of `channel.c`. -/
inductive BanOp where
  | reg (op : RegOp)
  | left (u : UserId) (c : ChanId)
  | leftAll (u : UserId)
  | ban (c : ChanId) (banner : UserId) (ip reason : Bytes) (expire : UInt32)
  | getban (c : ChanId) (ip : Bytes)
  | rmban (c : ChanId) (ip : Bytes)

namespace BanOp

def run (s : Ape) : BanOp → Except Halt Ape
  | reg op => op.run s
  | left u c => s.left u c
  | leftAll u => s.leftAll u
  | ban c banner ip reason expire => s.ban c (some banner) ip reason expire
  | getban c ip => do return (← s.getban c ip).2
  | rmban c ip => s.rmban c ip

/-- The operation is called on live records. -/
def Live (s : Ape) : BanOp → Prop
  | reg op => op.Live s
  | left u c => s.users u ≠ none ∧ s.chans c ≠ none
  | leftAll u => s.users u ≠ none
  | ban c banner _ _ _ => s.chans c ≠ none ∧ s.users banner ≠ none
  | getban c _ | rmban c _ => s.chans c ≠ none

/-- The operation neither takes the ban of an address off a channel nor lets it run out. -/
def InForce (c : ChanId) (ip : Bytes) (T : ℤ) : BanOp → Prop
  | rmban d ip' => d ≠ c ∨ ip' ≠ ip
  | reg (.clock time) => time ≤ T
  | _ => True

instance (s : Ape) (op : BanOp) : Decidable (op.Live s) := by
  cases op with
  | reg op => exact inferInstanceAs (Decidable (op.Live s))
  | _ => unfold Live; infer_instance

instance (c : ChanId) (ip : Bytes) (t : ℤ) (op : BanOp) : Decidable (op.InForce c ip t) := by
  unfold InForce
  split <;> infer_instance

end BanOp

namespace Ape

variable {s t s' : Ape} {u v : UserId} {i : SubId} {c d : ChanId} {x : User} {y : Channel}
  {ip name : Bytes} {T : ℤ}

/-! ### `check_timeout` -/

theorem aside_send (s : Ape) (fd : Fd) (w : Written) : Aside s (s.send fd w).2 := by
  unfold send
  simp only
  split_ifs <;> exact ⟨.of_same rfl rfl rfl, rfl⟩

theorem aside_sendHeaders (s : Ape) (fd : Fd) (y : Subuser) (transport : Transport) :
    Aside s (s.sendHeaders fd y transport).2 := by
  unfold sendHeaders
  split
  · exact aside_send ..
  · exact ⟨.refl, rfl⟩

theorem sendRaws_aside {b : Bool} (h : s.sendRaws i = .ok (b, s')) : Aside s s' := by
  obtain ⟨y, -, h⟩ := bind_ok h
  split at h
  · cases h
    exact ⟨.refl, rfl⟩
  · obtain ⟨u, -, h⟩ := bind_ok h
    obtain ⟨x, -, h⟩ := bind_ok h
    cases h
    have hsent := (aside_sendHeaders s (s.co y.client).fd y x.transport).trans
      (aside_send _ (s.co y.client).fd (.raws y.low y.high))
    exact hsent.trans ⟨.of_same rfl rfl rfl, rfl⟩

theorem tickSub_aside (h : s.tickSub u i = .ok s') : Aside s s' := by
  obtain ⟨y, -, h⟩ := bind_ok h
  split at h
  · exact delsubuser_aside h
  · split at h
    · obtain ⟨⟨finish, t⟩, ht, h⟩ := bind_ok h
      obtain ⟨z, -, h⟩ := bind_ok h
      refine (sendRaws_aside ht).trans ?_
      split at h
      · obtain ⟨w, -, h⟩ := bind_ok h
        obtain ⟨x, -, h⟩ := bind_ok h
        cases hx : x.transport <;> rw [hx] at h <;>
          first
            | exact doDied_aside h
            | cases h; exact ⟨.refl, rfl⟩
      · cases h
        exact ⟨.of_same rfl rfl rfl, rfl⟩
    · cases h
      exact ⟨.refl, rfl⟩

theorem tickSubs_aside {l : List SubId} (h : s.tickSubs u l = .ok s') : Aside s s' := by
  induction l generalizing s with
  | nil =>
    cases h
    exact ⟨.refl, rfl⟩
  | cons i l ih =>
    obtain ⟨x, -, h⟩ := bind_ok h
    split at h
    · obtain ⟨t, ht, h⟩ := bind_ok h
      exact (tickSub_aside ht).trans (ih h)
    · cases h

theorem tickUser_thinned (h : s.tickUser u = .ok s') : Thinned s s' := by
  obtain ⟨x, -, h⟩ := bind_ok h
  split at h
  · split at h
    · exact deluser_thinned h
    · exact (tickSubs_aside h).thinned
  · cases h
    exact .refl

theorem tickFrom_thinned {fuel : ℕ} {p : Option UserId} (h : s.tickFrom fuel p = .ok s') :
    Thinned s s' := by
  induction fuel generalizing s p with
  | zero =>
    cases p with
    | none =>
      cases h
      exact .refl
    | some u => cases h
  | succ fuel ih =>
    cases p with
    | none =>
      cases h
      exact .refl
    | some u =>
      obtain ⟨x, -, h⟩ := bind_ok h
      obtain ⟨t, ht, h⟩ := bind_ok h
      exact (tickUser_thinned ht).trans (ih h)

theorem cmdLeft_thinned {cp : Callbackp} {flag : UInt32} (h : cmdLeft cp s = .ok (flag, s')) :
    Thinned s s' := by
  unfold cmdLeft at h
  split at h
  · cases h
    exact .refl
  · obtain ⟨u, -, h⟩ := bind_ok h
    split at h
    · obtain ⟨t, ht, h⟩ := bind_ok h
      cases h
      exact .of_posted (sendError_posted ht)
    · obtain ⟨x, -, h⟩ := bind_ok h
      split at h
      · obtain ⟨t, ht, h⟩ := bind_ok h
        cases h
        exact .of_posted (sendError_posted ht)
      · obtain ⟨t, ht, h⟩ := bind_ok h
        cases h
        exact left_thinned ht

/-! ### Addresses -/

/-- Users keep their addresses, and a new one has at most 16 bytes. -/
def Addressed (s s' : Ape) : Prop :=
  ∀ v x', s'.users v = some x' → (∃ x, s.users v = some x ∧ x'.ip = x.ip) ∨
    s.users v = none ∧ x'.ip.length ≤ 16

theorem Addressed.of_users (h : s'.users = s.users) : Addressed s s' :=
  fun _ x hx => .inl ⟨x, h ▸ hx, rfl⟩

theorem Addressed.of_thinned (h : Thinned s s') : Addressed s s' :=
  fun v x' hx' => .inl (h.ips v x' hx')

theorem newUser_ip {ip : Bytes} (h : s.newUser ip = .ok (u, s')) :
    ∃ x, s'.users u = some x ∧ x.ip = ip.take 16 := by
  obtain ⟨⟨u', t₁⟩, -, h⟩ := bind_ok h
  obtain ⟨⟨pubid, t₃⟩, -, h⟩ := bind_ok h
  obtain ⟨x, -, h⟩ := bind_ok h
  cases h
  exact ⟨_, Function.update_self .., rfl⟩

theorem newUser_addressed {ip : Bytes} (hwf : s.roster.Wf) (h : s.newUser ip = .ok (u, s')) :
    Addressed s s' := by
  have ha := newUser_spec h
  intro v x' hx'
  by_cases hv : v = u
  · subst hv
    obtain ⟨x, hx, hip⟩ := newUser_ip h
    rw [hx'] at hx
    cases hx
    refine .inr ⟨?_, ?_⟩
    · have hfree := (hwf.bound v ha.id.ge).1
      exact Option.map_eq_none_iff.mp hfree
    · rw [hip, List.length_take]
      omega
  · have hsame := ha.others v hv
    rw [hx', Option.map_some] at hsame
    obtain ⟨x, hx, he⟩ := Option.map_eq_some_iff.mp hsame.symm
    have hip : (unhooked x').ip = (unhooked x).ip := congrArg User.ip he.symm
    exact .inl ⟨x, hx, hip⟩

theorem allocUser_addressed {client : Fd} {host ip : Bytes} (hwf : s.roster.Wf)
    (h : s.allocUser client host ip = .ok (u, s')) : Addressed s s' := by
  obtain ⟨⟨u', t⟩, ht, h⟩ := bind_ok h
  obtain ⟨⟨o, t'⟩, ht', h⟩ := bind_ok h
  cases h
  intro v x' hx'
  obtain ⟨z, hz, hip⟩ := (addsubuser_aside ht').thinned.ips v x' hx'
  rw [hip]
  exact newUser_addressed hwf ht v z hz

/-! ### What an operation does to a ban -/

/-- The channel keeps its bans of the address that are on, and who is new on it has another
address. -/
structure Respects (c : ChanId) (ip : Bytes) (s s' : Ape) : Prop where
  ips : Addressed s s'
  time : s'.time = s.time
  chan : ∀ y', s'.chans c = some y' → ∃ y, s.chans c = some y ∧ y'.name = y.name ∧
    (∀ b ∈ y.banned, b.ip = ip → s.time ≤ b.expire → b ∈ y'.banned) ∧
    ∀ v ∈ y'.users, v ∈ y.users ∨ ∀ x', s'.users v = some x' → x'.ip ≠ ip

theorem Respects.of_chans (hu : Addressed s s') (ht : s'.time = s.time)
    (hc : s'.chans c = s.chans c) : Respects c ip s s' :=
  ⟨hu, ht, fun y hy => ⟨y, hc ▸ hy, rfl, fun _ hb _ _ => hb, fun _ hv => .inl hv⟩⟩

theorem Respects.of_thinned (h : Thinned s s') : Respects c ip s s' := by
  refine ⟨.of_thinned h, h.time, fun y' hy' => ?_⟩
  obtain ⟨y, hy, hsub, hban, hname⟩ := h.chans c y' hy'
  exact ⟨y, hy, hname, fun b hb _ _ => hban hb, fun v hv => .inl ((hsub.map _).subset hv)⟩

/-- Bans are swept, on any channel. -/
theorem Respects.of_banned {l : List Banned} (hz : s.chans d = some y)
    (hl : d = c → ∀ b ∈ y.banned, b.ip = ip → s.time ≤ b.expire → b ∈ l) :
    Respects c ip s (s.setChan d { y with banned := l }) := by
  refine ⟨.of_users rfl, rfl, fun y' hy' => ?_⟩
  by_cases hd : c = d
  · subst hd
    simp only [setChan_chans, Function.update_self, Option.some.injEq] at hy'
    subst hy'
    exact ⟨y, hz, rfl, hl rfl, fun v hv => .inl hv⟩
  · rw [setChan_chans, Function.update_of_ne hd] at hy'
    exact ⟨y', hy', rfl, fun _ hb _ _ => hb, fun _ hv => .inl hv⟩

theorem getban_respects {ip' : Bytes} {b : Option Banned} (h : s.getban d ip' = .ok (b, s')) :
    Respects c ip s s' := by
  obtain ⟨y, hy, h⟩ := bind_ok h
  rw [seekBan_eq] at h
  cases h
  refine .of_banned (chan_ok hy) fun _ b hb _ hle => ?_
  have hlasts : b ∈ y.banned.filter (Banned.lasts s.time) :=
    List.mem_filter.mpr ⟨hb, by simpa [Banned.lasts] using hle⟩
  have hdrop (b : Banned) (hb : getbanVerdict s.time ip' b = .drop) : b.lasts s.time = false :=
    getbanVerdict_drop hb
  rw [← Sweep.filter_swept hdrop] at hlasts
  exact (List.mem_filter.mp hlasts).1

theorem rmban_respects {ip' : Bytes} (hne : d ≠ c ∨ ip' ≠ ip) (h : s.rmban d ip' = .ok s') :
    Respects c ip s s' := by
  obtain ⟨y, hy, h⟩ := bind_ok h
  cases h
  refine .of_banned (chan_ok hy) fun hd b hb hip hle => ?_
  rw [swept_rmban, List.mem_filter]
  rcases hne with hd' | hip'
  · exact absurd hd hd'
  · exact ⟨hb, by simpa [hip, hle] using hip'.symm⟩

theorem join_ips (h : s.join u d = .ok s') {x' : User} (hx' : s'.users v = some x') :
    ∃ x, s.users v = some x ∧ x'.ip = x.ip := by
  obtain ⟨x, hx, ⟨-, rfl⟩ | ⟨-, y, hy, hpost⟩⟩ := join_posted h
  · exact ⟨x', hx', rfl⟩
  · rw [hpost.users, setUser_users] at hx'
    by_cases hv : v = u
    · subst hv
      rw [Function.update_self, Option.some.injEq] at hx'
      subst hx'
      exact ⟨x, hx, rfl⟩
    · rw [Function.update_of_ne hv] at hx'
      exact ⟨x', hx', rfl⟩

theorem join_respects (hd : d = c → ∀ x, s.users u = some x → x.ip ≠ ip)
    (h : s.join u d = .ok s') : Respects c ip s s' := by
  obtain ⟨x, hx, ⟨-, rfl⟩ | ⟨-, y, hy, hpost⟩⟩ := join_posted h
  · exact .of_thinned .refl
  refine ⟨fun v x' hx' => .inl (join_ips h hx'), by rw [hpost.rest]; rfl, fun y' hy' => ?_⟩
  rw [hpost.chans, setUser_chans, setChan_chans] at hy'
  by_cases he : c = d
  · subst he
    rw [Function.update_self, Option.some.injEq] at hy'
    subst hy'
    refine ⟨y, hy, rfl, fun _ hb _ _ => hb, fun v hv => ?_⟩
    rcases List.mem_cons.mp hv with rfl | hv
    · refine .inr fun x' hx' => ?_
      obtain ⟨z, hz, hip⟩ := join_ips h hx'
      rw [hip]
      exact hd rfl z hz
    · exact .inl hv
  · rw [Function.update_of_ne he] at hy'
    exact ⟨y', hy', rfl, fun _ hb _ _ => hb, fun _ hv => .inl hv⟩

theorem mkchan_respects {auto : Bool} {o : Option ChanId} (hwf : s.roster.Wf)
    (hc : s.chans c ≠ none) (h : s.mkchan name auto = .ok (o, s')) : Respects c ip s s' := by
  obtain ⟨hu, ht, ⟨-, rfl⟩ | ⟨n, y, -, -, hchans, -, -⟩⟩ := mkchan_spec h
  · exact .of_thinned .refl
  · refine .of_chans (.of_users hu) ht ?_
    have hne : c ≠ s.fresh := by
      rintro rfl
      exact hc (Option.map_eq_none_iff.mp (hwf.bound _ le_rfl).2.2)
    rw [hchans, Function.update_of_ne hne]

/-! ### A channel that bans an address -/

/-- The channel has a ban of the address until then, and nobody with the address is on it. -/
structure Banished (c : ChanId) (name ip : Bytes) (T : ℤ) (s : Ape) : Prop where
  wf : s.roster.Wf
  time : s.time ≤ T
  chan : ∀ y, s.chans c = some y → y.name = name ∧ (∃ b ∈ y.banned, b.ip = ip ∧ T ≤ b.expire) ∧
    ∀ v ∈ y.users, ∀ x, s.users v = some x → x.ip ≠ ip

theorem Banished.step (h : Banished c name ip T s) (hr : Respects c ip s s')
    (hwf : s'.roster.Wf) : Banished c name ip T s' := by
  refine ⟨hwf, hr.time.trans_le h.time, fun y' hy' => ?_⟩
  obtain ⟨y, hy, hname, hban, husers⟩ := hr.chan y' hy'
  obtain ⟨hn, ⟨b, hb, hip, hexp⟩, hout⟩ := h.chan y hy
  refine ⟨hname.trans hn, ⟨b, hban b hb hip (h.time.trans hexp), hip, hexp⟩, fun v hv x' hx' => ?_⟩
  rcases husers v hv with hold | hnew
  · rcases hr.ips v x' hx' with ⟨x, hx, hsame⟩ | ⟨hnone, -⟩
    · rw [hsame]
      exact hout v hold x hx
    · obtain ⟨x, hx, -⟩ := member_live h.wf hy hold
      rw [hx] at hnone
      cases hnone
  · exact hnew x' hx'

/-- Whoever finds no ban on the channel has another address. -/
theorem Banished.getban_none (h : Banished c name ip T s) {ip' : Bytes}
    (hl : s.getban c ip' = .ok (none, s')) : ip' ≠ ip := by
  rintro rfl
  obtain ⟨y, hy, hl⟩ := bind_ok hl
  rw [seekBan_eq] at hl
  have hnone : Sweep.found (getbanVerdict s.time ip') y.banned = none :=
    congrArg Prod.fst (Except.ok.inj hl)
  obtain ⟨-, ⟨b, hb, hip, hexp⟩, -⟩ := h.chan y (chan_ok hy)
  have hfound := found_getban_isSome.mpr ⟨b, hb, hip, h.time.trans hexp⟩
  rw [hnone] at hfound
  cases hfound

/-! ### Joining by name -/

/-- What `cmd_join` does with one name. -/
inductive Joined (s : Ape) (u : UserId) (name : Bytes) (s' : Ape) : Prop
  | refused (h : Posted s s')
  | created (d : ChanId) (t : Ape) (hm : s.mkchan name true = .ok (some d, t))
      (hj : t.join u d = .ok s')
  | banned (d : ChanId) (ip : Bytes) (b : Banned) (t : Ape) (hb : s.getban d ip = .ok (some b, t))
      (hp : Posted t s')
  | passed (d : ChanId) (x : User) (t : Ape) (hx : s.users u = some x)
      (hb : s.getban d x.ip = .ok (none, t)) (hj : t.join u d = .ok s')

theorem joinOne_cases (h : s.joinOne u name = .ok s') : Joined s u name s' := by
  unfold joinOne at h
  split at h
  · obtain ⟨⟨o, t⟩, ht, hr⟩ := bind_ok h
    cases o with
    | none =>
      obtain ⟨-, -, ⟨-, rfl⟩ | ⟨n, y, -, ho, -⟩⟩ := mkchan_spec ht
      · exact .refused (sendError_posted hr)
      · cases ho
    | some d => exact .created d t ht hr
  · next d hd =>
    obtain ⟨x, hx, h⟩ := bind_ok h
    split at h
    · exact .refused (sendError_posted h)
    · obtain ⟨⟨b, t⟩, ht, h⟩ := bind_ok h
      cases b with
      | none => exact .passed d x t (user_ok hx) ht h
      | some b => exact .banned d x.ip b t ht (postRaw_posted h)

theorem getban_live {ip' : Bytes} {b : Option Banned} (h : s.getban d ip' = .ok (b, s'))
    (hc : s.chans c ≠ none) : s'.chans c ≠ none := by
  obtain ⟨y, -, h⟩ := bind_ok h
  cases h
  by_cases hd : c = d
  · subst hd
    simp
  · rw [setChan_chans, Function.update_of_ne hd]
    exact hc

theorem join_live (h : s.join u d = .ok s') (hc : s.chans c ≠ none) : s'.chans c ≠ none := by
  obtain ⟨x, hx, ⟨-, rfl⟩ | ⟨-, y, hy, hpost⟩⟩ := join_posted h
  · exact hc
  · rw [hpost.chans, setUser_chans, setChan_chans]
    by_cases hd : c = d
    · subst hd
      simp
    · rw [Function.update_of_ne hd]
      exact hc

theorem mkchan_live {auto : Bool} {o : Option ChanId} (h : s.mkchan name auto = .ok (o, s'))
    (hc : s.chans c ≠ none) : s'.chans c ≠ none := by
  obtain ⟨-, -, ⟨-, rfl⟩ | ⟨n, y, -, -, hchans, -, -⟩⟩ := mkchan_spec h
  · exact hc
  · rw [hchans]
    by_cases hd : c = s.fresh
    · subst hd
      simp
    · rw [Function.update_of_ne hd]
      exact hc

/-- A user joins by name: the ban keeps who has the address out. -/
theorem Banished.joinOne (h : Banished c name ip T s) (hc : s.chans c ≠ none) {k : Bytes}
    (hl : s.joinOne u k = .ok s') : Banished c name ip T s' ∧ s'.chans c ≠ none := by
  cases joinOne_cases hl with
  | refused hp =>
    refine ⟨h.step (.of_thinned (.of_posted hp)) ?_, hp.chans ▸ hc⟩
    rw [hp.roster]
    exact h.wf
  | created d t hm hj =>
    have hwf := mkchan_wf h.wf hm
    have hmade := h.step (mkchan_respects h.wf hc hm) hwf
    -- the new channel is another one
    have hne : d ≠ c := by
      obtain ⟨-, -, ⟨ho, -⟩ | ⟨n, y, -, ho, -⟩⟩ := mkchan_spec hm
      · cases ho
      · cases ho
        rintro rfl
        exact hc (Option.map_eq_none_iff.mp (h.wf.bound _ le_rfl).2.2)
    exact ⟨hmade.step (join_respects (fun he => absurd he hne) hj) (join_wf hwf hj),
      join_live hj (mkchan_live hm hc)⟩
  | banned d ip' b t hb hp =>
    have hwf : t.roster.Wf := by
      rw [(getban_roster hb).1]
      exact h.wf
    refine ⟨(h.step (getban_respects hb) hwf).step (.of_thinned (.of_posted hp)) ?_,
      hp.chans ▸ getban_live hb hc⟩
    rw [hp.roster]
    exact hwf
  | passed d x t hx hb hj =>
    have hwf : t.roster.Wf := by
      rw [(getban_roster hb).1]
      exact h.wf
    have hother : d = c → ∀ z, t.users u = some z → z.ip ≠ ip := by
      rintro rfl z hz
      rw [(getban_roster hb).2, hx] at hz
      cases hz
      exact h.getban_none hb
    exact ⟨(h.step (getban_respects hb) hwf).step (join_respects hother hj) (join_wf hwf hj),
      join_live hj (getban_live hb hc)⟩

theorem joinOne_ips {k : Bytes} (h : s.joinOne u k = .ok s') {x' : User}
    (hx' : s'.users v = some x') : ∃ x, s.users v = some x ∧ x'.ip = x.ip := by
  cases joinOne_cases h with
  | refused hp => exact ⟨x', hp.users ▸ hx', rfl⟩
  | created d t hm hj => exact (mkchan_spec hm).1 ▸ join_ips hj hx'
  | banned d ip' b t hb hp => exact ⟨x', (getban_roster hb).2 ▸ hp.users ▸ hx', rfl⟩
  | passed d x t hx hb hj => exact (getban_roster hb).2 ▸ join_ips hj hx'

/-! ### One operation -/

/-- No user has an address of more than 16 bytes. -/
def Short (s : Ape) : Prop := ∀ v x, s.users v = some x → x.ip.length ≤ 16

theorem Short.step (h : s.Short) (hr : Addressed s s') : s'.Short := by
  intro v x' hx'
  rcases hr v x' hx' with ⟨x, hx, hip⟩ | ⟨-, hlen⟩
  · rw [hip]
    exact h v x hx
  · exact hlen

/-- An operation on the registries that is none of these three thins them out. -/
theorem regOp_cases {op : RegOp} (h : op.run s = .ok s') : Thinned s s' ∨
    (∃ client host ip u, s.allocUser client host ip = .ok (u, s')) ∨
    (∃ cp flag, cmdJoin cp s = .ok (flag, s')) ∨ ∃ time, op = .clock time ∧
      s' = { s with time := time } := by
  cases op with
  | allocUser client host ip =>
    obtain ⟨⟨u, t⟩, ht, h⟩ := bind_ok h
    cases h
    exact .inr (.inl ⟨client, host, ip, u, ht⟩)
  | adduser u =>
    obtain ⟨x, hx, h⟩ := bind_ok h
    cases h
    have huser : Thinned s (s.setUser u { x with istmp := false }) := .setUser (user_ok hx) rfl
    exact .inl (huser.trans (.of_same rfl rfl rfl))
  | deluser u => exact .inl (deluser_thinned h)
  | addsubuser client host u =>
    obtain ⟨⟨o, t⟩, ht, h⟩ := bind_ok h
    cases h
    exact .inl (addsubuser_aside ht).thinned
  | delsubuser u i => exact .inl (delsubuser_aside h).thinned
  | cmdJoin cp =>
    obtain ⟨⟨flag, t⟩, ht, h⟩ := bind_ok h
    cases h
    exact .inr (.inr (.inl ⟨cp, flag, ht⟩))
  | cmdLeft cp =>
    obtain ⟨⟨flag, t⟩, ht, h⟩ := bind_ok h
    cases h
    exact .inl (cmdLeft_thinned ht)
  | rmchan c => exact .inl (rmchan_thinned h)
  | checkTimeout => exact .inl (tickFrom_thinned h)
  | clock time =>
    cases h
    exact .inr (.inr (.inr ⟨time, rfl, rfl⟩))

theorem banOp_cases {op : BanOp} (h : op.run s = .ok s') : Thinned s s' ∨
    (∃ op', op = .reg op') ∨ (∃ d ip' b, s.getban d ip' = .ok (b, s')) ∨
    ∃ d ip', op = .rmban d ip' ∧ s.rmban d ip' = .ok s' := by
  cases op with
  | reg op => exact .inr (.inl ⟨op, rfl⟩)
  | left u c => exact .inl (left_thinned h)
  | leftAll u => exact .inl (leftAll_thinned h)
  | ban c banner ip reason expire => exact .inl (ban_thinned h)
  | getban c ip =>
    obtain ⟨⟨b, t⟩, ht, h⟩ := bind_ok h
    cases h
    exact .inr (.inr (.inl ⟨c, ip, b, ht⟩))
  | rmban c ip => exact .inr (.inr (.inr ⟨c, ip, rfl, h⟩))

theorem rmban_roster {ip' : Bytes} (h : s.rmban d ip' = .ok s') :
    s'.roster = s.roster ∧ s'.users = s.users := by
  obtain ⟨z, hz, h⟩ := bind_ok h
  cases h
  exact ⟨roster_setChan_of (chan_ok hz) rfl, rfl⟩

theorem banOp_sound (h : s.roster.Sound) {op : BanOp} (hlive : op.Live s)
    (hl : op.run s = .ok s') : s'.roster.Sound := by
  cases op with
  | reg op => exact run_sound h hlive hl
  | left u c => exact left_sound h hl
  | leftAll u =>
    obtain ⟨x, -, hr⟩ := leftAll_roster h.wf hl
    rw [hr]
    exact Roster.foldl_keeps Roster.Sound (fun _ c h => ⟨h.wf.left u c, h.reg.left u c⟩) _ h
  | ban c banner ip reason expire =>
    obtain ⟨us, hr⟩ := ban_roster h.wf hl
    rw [hr]
    exact Roster.foldl_keeps Roster.Sound (fun _ u h => ⟨h.wf.left u c, h.reg.left u c⟩) us h
  | getban c ip =>
    obtain ⟨⟨b, t⟩, ht, hl⟩ := bind_ok hl
    cases hl
    rw [(getban_roster ht).1]
    exact h
  | rmban c ip =>
    rw [(rmban_roster hl).1]
    exact h

theorem banOp_short (hwf : s.roster.Wf) (h : s.Short) {op : BanOp} (hl : op.run s = .ok s') :
    s'.Short := by
  rcases banOp_cases hl with ht | ⟨op', rfl⟩ | ⟨d, ip', b, hb⟩ | ⟨d, ip', -, hr⟩
  · exact h.step (.of_thinned ht)
  · rcases regOp_cases hl with ht | ⟨client, host, ip, u, ha⟩ | ⟨cp, flag, hj⟩ | ⟨time, -, rfl⟩
    · exact h.step (.of_thinned ht)
    · exact h.step (allocUser_addressed hwf ha)
    · obtain ⟨t, ht, hj⟩ := bind_ok hj
      cases hj
      refine foldlM_keeps Short (fun t name t' _ hs ht => ?_) h ht
      obtain ⟨u, -, ht⟩ := bind_ok ht
      exact hs.step fun v x' hx' => .inl (joinOne_ips ht hx')
    · exact h
  · exact h.step (.of_users (getban_roster hb).2)
  · exact h.step (.of_users (rmban_roster hr).2)

/-- Whatever happens while the ban is in force, it keeps who has the address out. -/
theorem Banished.run (h : Banished c name ip T s) (hc : s.chans c ≠ none) (hs : s'.roster.Wf)
    {op : BanOp} (hop : op.InForce c ip T) (hl : op.run s = .ok s') :
    Banished c name ip T s' := by
  rcases banOp_cases hl with ht | ⟨op', rfl⟩ | ⟨d, ip', b, hb⟩ | ⟨d, ip', rfl, hr⟩
  · exact h.step (.of_thinned ht) hs
  · rcases regOp_cases hl with ht | ⟨client, host, ip', u, ha⟩ | ⟨cp, flag, hj⟩ | ⟨time, rfl, rfl⟩
    · exact h.step (.of_thinned ht) hs
    · obtain ⟨hchans, htime⟩ := allocUser_chans ha
      exact h.step (.of_chans (allocUser_addressed h.wf ha) htime (congrFun hchans c)) hs
    · obtain ⟨t, ht, hj⟩ := bind_ok hj
      cases hj
      refine (foldlM_keeps (fun t => Banished c name ip T t ∧ t.chans c ≠ none)
        (fun t k t' _ ht hk => ?_) ⟨h, hc⟩ ht).1
      obtain ⟨u, -, hk⟩ := bind_ok hk
      exact ht.1.joinOne ht.2 hk
    · exact ⟨h.wf, hop, h.chan⟩
  · exact h.step (getban_respects hb) hs
  · exact h.step (rmban_respects hop hr) hs

/-! ### The ban is made -/

theorem left_not_mem (h : s.roster.Wf) (hl : s.left u c = .ok s') (hy : s'.chans c = some y) :
    u ∉ y.users := by
  intro hu
  have hwf := left_wf h hl
  obtain ⟨x', hx', hc⟩ := member_live hwf hy hu
  obtain ⟨x, hx, -⟩ := bind_ok hl
  have hfoot := roster_users hx'
  rw [left_roster h hl, Roster.left_users h (roster_users (user_ok hx)), Function.update_self,
    Option.some.injEq] at hfoot
  have hnodup := h.member.left_nodup (Roster.foot_eq (roster_users (user_ok hx)))
  have hcx : c ∈ x'.links.chan_foot := hc
  rw [← hfoot] at hcx
  exact hnodup.not_mem_erase hcx

section Ban

variable {banner : Option UserId} {reason : Bytes} {nextime : ℤ} {b : Banned}
  {bTmp : List Banned} {isban : Bool} {l : List Member}

/-- The member is out, and the ban is on record. -/
theorem banOne_spec (h : s.roster.Wf) (hy : s.chans c = some y)
    (hl : s.banOne c y banner reason isban b bTmp u = .ok s') {z : Channel}
    (hz : s'.chans c = some z) : u ∉ z.users ∧ (isban = false → b ∈ z.banned) := by
  obtain ⟨v, -, hl⟩ := bind_ok hl
  obtain ⟨x, -, hl⟩ := bind_ok hl
  obtain ⟨t, ht, hl⟩ := bind_ok hl
  have hpost := postRaw_posted ht
  have hyt : t.chans c = some y := by
    rw [hpost.chans]
    exact hy
  have hr : (t.recordBan c y isban b bTmp).roster = s.roster :=
    (recordBan_roster hyt).trans hpost.roster
  refine ⟨left_not_mem (hr ▸ h) hl hz, ?_⟩
  rintro rfl
  obtain ⟨z', hz', -, hban, -⟩ := (left_thinned hl).chans c z hz
  simp only [recordBan, Bool.false_eq_true, if_false, setChan_chans, Function.update_self,
    Option.some.injEq] at hz'
  subst hz'
  exact hban List.mem_cons_self

/-- Who is met with the address is out, and the ban is on record if there was anyone. -/
theorem banMembers_spec (h : s.roster.Wf)
    (hb : isban = false → ∀ y, s.chans c = some y → y.banned ⊆ bTmp)
    (hl : s.banMembers c banner ip reason nextime bTmp isban l = .ok s')
    (hy : s'.chans c = some y) :
    (∀ m ∈ l, ∀ x, s'.users m.userinfo = some x → x.ip = ip → m.userinfo ∉ y.users) ∧
    (isban = false → (∃ m ∈ l, ∃ x, s.users m.userinfo = some x ∧ x.ip = ip) →
      ⟨ip.take 16, reason.take 255, nextime⟩ ∈ y.banned) := by
  induction l generalizing s isban with
  | nil =>
    refine ⟨fun m hm => absurd hm List.not_mem_nil, ?_⟩
    rintro - ⟨m, hm, -⟩
    cases hm
  | cons m l ih =>
    have hall := banMembers_thinned hb hl
    rw [banMembers] at hl
    obtain ⟨y₀, hy₀, hl⟩ := bind_ok hl
    split at hl
    · obtain ⟨x₀, hx₀, hl⟩ := bind_ok hl
      split at hl
      · obtain ⟨t, ht, hl⟩ := bind_ok hl
        have hwf : t.roster.Wf := by
          rw [banOne_roster h (chan_ok hy₀) ht]
          exact h.left m.userinfo c
        have hrest : Thinned t s' := banMembers_thinned (fun hf => by cases hf) hl
        obtain ⟨z, hz, hsub, hban, -⟩ := hrest.chans c y hy
        obtain ⟨hout, hrec⟩ := banOne_spec h (chan_ok hy₀) ht hz
        refine ⟨fun m' hm' x hx hip => ?_, fun hnew _ => hban (hrec hnew)⟩
        rcases List.mem_cons.mp hm' with rfl | hm'
        · exact fun hu => hout ((hsub.map _).subset hu)
        · exact (ih hwf (fun hf => by cases hf) hl).1 m' hm' x hx hip
      · next hne =>
        obtain ⟨hout, hrec⟩ := ih h hb hl
        refine ⟨fun m' hm' x hx hip => ?_, fun hnew hmet => hrec hnew ?_⟩
        · rcases List.mem_cons.mp hm' with rfl | hm'
          · obtain ⟨z, hz, hsame⟩ := hall.ips _ x hx
            rw [user_ok hx₀] at hz
            cases hz
            exact absurd (hsame.symm.trans hip) hne
          · exact hout m' hm' x hx hip
        · obtain ⟨m', hm', x, hx, hip⟩ := hmet
          rcases List.mem_cons.mp hm' with rfl | hm'
          · rw [user_ok hx₀] at hx
            cases hx
            exact absurd hip hne
          · exact ⟨m', hm', x, hx, hip⟩
    · cases hl

end Ban

/-- After `ban` nobody with the address is on the channel, and if there was anyone, or the
address was banned already, a ban is on record. -/
theorem ban_banished {banner : Option UserId} {reason : Bytes} {expire : UInt32}
    (h : s.roster.Wf) (hshort : s.Short) (hy : s.chans c = some y)
    (hexp : expire.toNat * 60 < 2 ^ 32)
    (hmet : (∃ v ∈ y.users, ∃ x, s.users v = some x ∧ x.ip = ip) ∨
      ∃ b ∈ y.banned, b.ip = ip ∧ s.time + expire.toNat * 60 ≤ b.expire)
    (hl : s.ban c banner ip reason expire = .ok s') :
    Banished c y.name ip (s.time + expire.toNat * 60) s' := by
  have hthin := ban_thinned hl
  refine ⟨?_, ?_, fun z hz => ?_⟩
  · obtain ⟨us, hr⟩ := ban_roster h hl
    rw [hr]
    exact h.leaveAll c us
  · rw [hthin.time]
    omega
  · obtain ⟨y₁, hy₁, hsub, hban, hname⟩ := hthin.chans c z hz
    rw [hy] at hy₁
    cases hy₁
    obtain ⟨y₁, hy₁, hl⟩ := bind_ok hl
    rw [chan_eq hy] at hy₁
    cases hy₁
    have hsame : false = false → ∀ z, s.chans c = some z → z.banned ⊆ y.banned := by
      intro _ z hz
      rw [hy] at hz
      cases hz
      exact List.Subset.refl _
    obtain ⟨hout, hrec⟩ := banMembers_spec h hsame hl hz
    refine ⟨hname, ?_, fun v hv x hx hip => ?_⟩
    · rcases hmet with ⟨v, hv, x, hx, hip⟩ | ⟨b, hb, hip, hlasts⟩
      · obtain ⟨m, hm, rfl⟩ := List.mem_map.mp hv
        refine ⟨_, hrec rfl ⟨m, hm, x, hx, hip⟩, ?_, ?_⟩
        · have hlen := hshort _ x hx
          rw [hip] at hlen
          exact List.take_of_length_le hlen
        · have hmul : (expire * 60).toNat = expire.toNat * 60 := by
            rw [UInt32.toNat_mul]
            exact Nat.mod_eq_of_lt hexp
          change _ ≤ ((expire * 60).toNat : ℤ) + s.time
          rw [hmul]
          omega
      · exact ⟨b, hban hb, hip, hlasts⟩
    · obtain ⟨m, hm, rfl⟩ := List.mem_map.mp hv
      exact hout m (hsub.subset hm) x hx hip hv

/-! ### Runs -/

/-- From any state a run reaches: while the ban is in force and the channel has not been
destroyed, it is the channel of its name and has no member with the address. -/
theorem ban_enforced {rand : List (List.Vector (Fin 16) 32)} {io : ℕ → Bool} {time : ℤ}
    {s₀ s₁ : Ape} {y₀ : Channel} {banner : UserId} {reason : Bytes} {expire : UInt32}
    (h₀ : Reach BanOp.run BanOp.Live (init rand io time) s₀) (hy₀ : s₀.chans c = some y₀)
    (hexp : expire.toNat * 60 < 2 ^ 32)
    (hmet : (∃ v ∈ y₀.users, ∃ x, s₀.users v = some x ∧ x.ip = ip) ∨
      ∃ b ∈ y₀.banned, b.ip = ip ∧ s₀.time + expire.toNat * 60 ≤ b.expire)
    (hban : s₀.ban c (some banner) ip reason expire = .ok s₁)
    (h : Reach BanOp.run (fun s op => op.Live s ∧ s.chans c ≠ none ∧
      op.InForce c ip (s₀.time + expire.toNat * 60)) s₁ s) (hy : s.chans c = some y) :
    y.name = y₀.name ∧ s.hLusers.seek y₀.name = some c ∧
      ∀ v ∈ y.users, ∀ x, s.users v = some x → x.ip ≠ ip := by
  obtain ⟨hsound₀, hshort₀⟩ : s₀.roster.Sound ∧ s₀.Short :=
    h₀.keeps (fun s => s.roster.Sound ∧ s.Short)
      ⟨init_sound rand io time, fun v x hx => by cases hx⟩
      fun _ _ _ h hlive hl => ⟨banOp_sound h.1 hlive hl, banOp_short h.1.wf h.2 hl⟩
  have hsound₁ : s₁.roster.Sound := by
    obtain ⟨us, hr⟩ := ban_roster hsound₀.wf hban
    rw [hr]
    exact Roster.foldl_keeps Roster.Sound (fun _ u h => ⟨h.wf.left u c, h.reg.left u c⟩) us hsound₀
  have hboth := h.keeps
    (fun s => s.roster.Sound ∧ Banished c y₀.name ip (s₀.time + expire.toNat * 60) s)
    ⟨hsound₁, ban_banished hsound₀.wf hshort₀ hy₀ hexp hmet hban⟩
    fun _ _ _ h hop hl =>
      have hsound := banOp_sound h.1 hop.1 hl
      ⟨hsound, h.2.run hop.2.1 hsound.wf hop.2.2 hl⟩
  obtain ⟨hname, -, hout⟩ := hboth.2.chan y hy
  refine ⟨hname, ?_, hout⟩
  exact ((registries_of_sound hboth.1).name y₀.name c).mpr
    ⟨y, hy, hname ▸ Htbl.strcaseeq_refl y.name⟩

/-! ### Bans that do not hold -/

def firstIp : Bytes := bytes "1.1.1.1"

def secondIp : Bytes := bytes "2.2.2.2"

def joinRoom (u : UserId) : BanOp := .reg (.cmdJoin (commandOf u (channelsParam (bytes "room"))))

/-- Two users, of whom some join the room. -/
def twoUsers (joining : List UserId) : List BanOp :=
  [.reg (.allocUser 5 (bytes "h") firstIp), .reg (.allocUser 6 (bytes "h") secondIp)] ++
    joining.map joinRoom

/-- Someone with the address is on the channel of that name. -/
def occupied (s : Ape) (name ip : Bytes) : Bool :=
  (s.hLusers.seek name).any fun c => (s.chans c).any fun y => y.users.any fun u =>
    (s.users u).any fun x => x.ip = ip

/-- What the first user's ban of the second one's address from the room leads to, with the
states before it, behind it and after further operations. -/
def banRun (allowed : Ape → Ape → BanOp → Prop) [∀ s₀ s op, Decidable (allowed s₀ s op)]
    (joining : List UserId) (expire : UInt32) (after : List BanOp) : Option (Ape × Ape × Ape) := do
  let s₀ ← Steps.runs BanOp.run BanOp.Live (init sixteenDraws (fun _ => true) 0)
    (twoUsers joining)
  let s₁ ← (s₀.ban 4 (some 0) secondIp (bytes "bye") expire).toOption
  let s ← Steps.runs BanOp.run (allowed s₀) s₁ after
  return (s₀, s₁, s)

theorem banRun_spec {allowed : Ape → Ape → BanOp → Prop} [∀ s₀ s op, Decidable (allowed s₀ s op)]
    {joining : List UserId} {expire : UInt32} {after : List BanOp} {s₀ s₁ s : Ape}
    (h : banRun allowed joining expire after = some (s₀, s₁, s)) :
    Reach BanOp.run BanOp.Live (init sixteenDraws (fun _ => true) 0) s₀ ∧
    s₀.ban 4 (some 0) secondIp (bytes "bye") expire = .ok s₁ ∧
    Reach BanOp.run (allowed s₀) s₁ s := by
  obtain ⟨t₀, ht₀, h⟩ := Option.bind_eq_some_iff.mp h
  obtain ⟨t₁, ht₁, h⟩ := Option.bind_eq_some_iff.mp h
  obtain ⟨t, ht, h⟩ := Option.bind_eq_some_iff.mp h
  cases h
  refine ⟨.of_runs .start ht₀, ?_, .of_runs .start ht⟩
  cases hban : s₀.ban 4 (some 0) secondIp (bytes "bye") expire with
  | error e =>
    rw [hban] at ht₁
    cases ht₁
  | ok t =>
    rw [hban] at ht₁
    cases ht₁
    rfl

/-- Live, and neither the end of the ban nor `rmban`. -/
abbrev InForce (expire : UInt32) (s₀ s : Ape) (op : BanOp) : Prop :=
  op.Live s ∧ op.InForce 4 secondIp (s₀.time + expire.toNat * 60)

/-- Before the ban is to end, and without `rmban`, someone with the address is on the channel
of that name. -/
def Evaded (joining : List UserId) (expire : UInt32) (after : List BanOp) : Prop :=
  ∃ s₀ s₁ s, banRun (InForce expire) joining expire after = some (s₀, s₁, s) ∧
    Reach BanOp.run BanOp.Live (init sixteenDraws (fun _ => true) 0) s₀ ∧
    (s₀.chans 4).map Channel.name = some (bytes "room") ∧
    s₀.ban 4 (some 0) secondIp (bytes "bye") expire = .ok s₁ ∧
    Reach BanOp.run (InForce expire s₀) s₁ s ∧
    s.time ≤ s₀.time + expire.toNat * 60 ∧ s.occupied (bytes "room") secondIp = true

theorem evaded_of_banRun {joining : List UserId} {expire : UInt32} {after : List BanOp}
    (h : (banRun (InForce expire) joining expire after).map (fun (s₀, _, s) =>
      ((s₀.chans 4).map Channel.name, decide (s.time ≤ s₀.time + expire.toNat * 60),
        s.occupied (bytes "room") secondIp)) = some (some (bytes "room"), true, true)) :
    Evaded joining expire after := by
  obtain ⟨⟨s₀, s₁, s⟩, hrun, h⟩ := Option.map_eq_some_iff.mp h
  obtain ⟨hname, h⟩ := Prod.mk.inj h
  obtain ⟨htime, hocc⟩ := Prod.mk.inj h
  obtain ⟨h₀, hban, hs⟩ := banRun_spec hrun
  exact ⟨s₀, s₁, s, hrun, h₀, hname, hban, hs, of_decide_eq_true htime, hocc⟩

/-- Nobody with the address was on the channel; the ban destroyed the channel; the ban was for
more seconds than 32 bits hold. -/
theorem ban_evaded : Evaded [0] 1 [joinRoom 2] ∧ Evaded [2] 1 [joinRoom 2] ∧
    Evaded [0, 2] 71582789 [.reg (.clock 45), joinRoom 2] := by
  refine ⟨evaded_of_banRun ?_, evaded_of_banRun ?_, evaded_of_banRun ?_⟩
  · decide +kernel
  · decide +kernel
  · decide +kernel

/-- Of two users in the room one is banned, and tries to come back in the last second. -/
theorem ban_enforced_second : ∃ s₀ s₁ s y, banRun (fun s₀ s op => op.Live s ∧ s.chans 4 ≠ none ∧
      op.InForce 4 secondIp (s₀.time + (1 : UInt32).toNat * 60)) [0, 2] 1
      [.reg (.clock 60), joinRoom 2] = some (s₀, s₁, s) ∧
    s.chans 4 = some y ∧ y.users = [0] ∧
    ∀ v ∈ y.users, ∀ x, s.users v = some x → x.ip ≠ secondIp := by
  have h : (banRun (fun s₀ s op => op.Live s ∧ s.chans 4 ≠ none ∧
      op.InForce 4 secondIp (s₀.time + (1 : UInt32).toNat * 60)) [0, 2] 1
      [.reg (.clock 60), joinRoom 2]).map (fun (s₀, _, s) =>
        ((s₀.chans 4).map Channel.users, (s₀.users 2).map User.ip,
          (s.chans 4).map Channel.users)) = some (some [2, 0], some secondIp, some [0]) := by
    decide +kernel
  obtain ⟨⟨s₀, s₁, s⟩, hrun, h⟩ := Option.map_eq_some_iff.mp h
  obtain ⟨hroom, h⟩ := Prod.mk.inj h
  obtain ⟨huser, hleft⟩ := Prod.mk.inj h
  obtain ⟨y₀, hy₀, hu₀⟩ := Option.map_eq_some_iff.mp hroom
  obtain ⟨x, hx, hip⟩ := Option.map_eq_some_iff.mp huser
  obtain ⟨y, hy, hu⟩ := Option.map_eq_some_iff.mp hleft
  obtain ⟨h₀, hban, hs⟩ := banRun_spec hrun
  exact ⟨s₀, s₁, s, y, hrun, hy, hu, (ban_enforced h₀ hy₀ (by decide)
    (.inl ⟨2, by simp [hu₀], x, hx, hip⟩) hban hs hy).2.2⟩

end Ape

end ApeServer
