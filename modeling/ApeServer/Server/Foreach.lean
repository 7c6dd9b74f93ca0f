import ApeServer.Server.Sound

/-!
# What the commands read

`JFOREACH` walks the items from the one `json_lookup` returns. A member that has no
elements is returned itself, so the walk goes on over the members behind it.
-/
namespace ApeServer

open Sock (Bytes)
open Steps (bind_ok foldlM_keeps)
open Htbl (strcaseeq_symm strcaseeq_trans)

/-! ### What is given under a key -/

/-- The first item under the key, in either case of its letters. -/
def member (items : List JsonItem) (path : Bytes) : Option JsonItem :=
  items.find? fun i => i.key.any (strcaseeq path)

/-- The items behind the first one under the key. -/
def after (path : Bytes) : List JsonItem → List JsonItem
  | [] => []
  | head :: next => if head.key.any (strcaseeq path) then next else after path next

/-- The elements of the array or object under the key, or the value there. -/
def given (items : List JsonItem) (path : Bytes) : List JsonItem :=
  match member items path with
  | none => []
  | some i => if i.child = [] then [i] else i.child

/-- What a walk from the key meets behind what is given there. -/
def strays (items : List JsonItem) (path : Bytes) : List JsonItem :=
  match member items path with
  | none => []
  | some i => if i.child = [] then after path items else []

/-- The pair of a member with a string. -/
def JsonItem.pair (i : JsonItem) : Option (Bytes × Bytes) :=
  match i.key, i.str with
  | some k, some v => some (k, v)
  | _, _ => none

theorem jsonLookup_eq (items : List JsonItem) (path : Bytes) :
    jsonLookup path items = given items path ++ strays items path := by
  induction items with
  | nil => rfl
  | cons head next ih =>
    by_cases hk : head.key.any (strcaseeq path) = true
    · have hm : member (head :: next) path = some head := List.find?_cons_of_pos hk
      have ha : after path (head :: next) = next := if_pos hk
      simp only [jsonLookup, given, strays, hm, ha, if_pos hk]
      split <;> simp
    · have hm : member (head :: next) path = member next path := List.find?_cons_of_neg hk
      have ha : after path (head :: next) = after path next := if_neg hk
      simp only [jsonLookup, given, strays, hm, ha, if_neg hk]
      exact ih

namespace JsonItem

variable {o : JsonItem} {path : Bytes}

/-- `callbacki->param`. -/
def param (o : JsonItem) : List JsonItem := jsonLookup (bytes "params") o.child

/-- The members of the params of a command object. -/
def params (o : JsonItem) : List JsonItem :=
  ((member o.child (bytes "params")).map child).getD []

/-- The strings given under a key of the params. -/
def values (o : JsonItem) (path : Bytes) : List Bytes := (given o.params path).filterMap str

/-- The pairs given under a key of the params. -/
def pairs (o : JsonItem) (path : Bytes) : List (Bytes × Bytes) :=
  (given o.params path).filterMap pair

end JsonItem

/-- Nothing that has an `f` comes behind what is given under the key. -/
def Closed {α : Type} (f : JsonItem → Option α) (items : List JsonItem) (path : Bytes) : Prop :=
  ∀ i, member items path = some i → i.child = [] → ∀ j ∈ after path items, f j = none

/-- The walk from a key meets nothing that has an `f` outside what is given there. Params
without members are no container: the key is then looked up among themselves and the
members of the command object behind them. -/
def Confined {α : Type} (f : JsonItem → Option α) (o : JsonItem) (path : Bytes) : Prop :=
  ∀ p, member o.child (bytes "params") = some p →
    if p.child = [] then
      let items := p :: after (bytes "params") o.child
      (∀ i ∈ given items path, f i = none) ∧ Closed f items path
    else Closed f p.child path

variable {α : Type} {f : JsonItem → Option α} {items : List JsonItem} {o : JsonItem}
  {path : Bytes}

theorem given_none (h : member items path = none) : given items path = [] := by simp [given, h]

theorem strays_none (h : member items path = none) : strays items path = [] := by
  simp [strays, h]

theorem given_some {i : JsonItem} (h : member items path = some i) :
    given items path = if i.child = [] then [i] else i.child := by simp [given, h]

theorem strays_some {i : JsonItem} (h : member items path = some i) :
    strays items path = if i.child = [] then after path items else [] := by simp [strays, h]

theorem closed_iff : Closed f items path ↔ ∀ j ∈ strays items path, f j = none := by
  unfold Closed
  cases hm : member items path with
  | none => simp [strays_none hm]
  | some i =>
    rw [strays_some hm]
    by_cases hc : i.child = [] <;> simp [hc]

/-- A walk reads what is given exactly when it is confined to it. -/
theorem walk_iff : (jsonLookup path o.param).filterMap f = (given o.params path).filterMap f ↔
    Confined f o path := by
  unfold Confined JsonItem.param JsonItem.params
  rw [jsonLookup_eq o.child]
  cases hp : member o.child (bytes "params") with
  | none =>
    have hn : given ([] : List JsonItem) path = [] := rfl
    rw [given_none hp, strays_none hp]
    simp [jsonLookup, hn]
  | some p =>
    rw [given_some hp, strays_some hp]
    simp only [Option.some.injEq, forall_eq', Option.map_some, Option.getD_some]
    by_cases hc : p.child = []
    · have hn : given ([] : List JsonItem) path = [] := rfl
      simp only [hc, hn, if_true, List.singleton_append, List.filterMap_nil]
      rw [jsonLookup_eq, List.filterMap_append, List.append_eq_nil_iff,
        List.filterMap_eq_nil_iff, List.filterMap_eq_nil_iff, closed_iff]
    · simp only [if_neg hc, List.append_nil]
      rw [jsonLookup_eq, List.filterMap_append, List.append_right_eq_self,
        List.filterMap_eq_nil_iff, closed_iff]

/-! ### `JOIN` -/

namespace Ape

variable {s s' t : Ape} {u w : UserId} {c : ChanId} {name : Bytes} {names : List Bytes}

/-- The user is on the channel. -/
def On (s : Ape) (w : UserId) (c : ChanId) : Prop := ∃ l, s.roster.foot w = some l ∧ c ∈ l

/-- The name leads to the channel. -/
def Bears (s : Ape) (c : ChanId) (name : Bytes) : Prop :=
  ∃ n, s.roster.nameKey c = some n ∧ strcaseeq n name = true

/-- The channels keep their names, and who is on one he was not on before is the user, on a
channel with one of the names. -/
structure Joins (u : Option UserId) (names : List Bytes) (s s' : Ape) : Prop where
  kept : ∀ c name, s.Bears c name → s'.Bears c name
  on : ∀ w c, s'.On w c → s.On w c ∨ u = some w ∧ ∃ name ∈ names, s'.Bears c name

theorem Joins.of_roster {u : Option UserId} (h : s'.roster = s.roster) : Joins u names s s' where
  kept := by
    intro c name hc
    unfold Bears at hc ⊢
    rwa [h]
  on := by
    intro w c hc
    unfold On at hc ⊢
    rw [h] at hc
    exact .inl hc

theorem Joins.trans {u : Option UserId} (h : Joins u names s t) (h' : Joins u names t s') :
    Joins u names s s' where
  kept := fun c name hc => h'.kept c name (h.kept c name hc)
  on := by
    intro w c hc
    rcases h'.on w c hc with hc | hc
    · rcases h.on w c hc with hc | ⟨hw, name, hn, hb⟩
      · exact .inl hc
      · exact .inr ⟨hw, name, hn, h'.kept c name hb⟩
    · exact .inr hc

/-- A user joins a channel with one of the names. -/
theorem join_joins (hn : name ∈ names) (hb : s.Bears c name) (hl : s.join u c = .ok s') :
    Joins (some u) names s s' := by
  obtain ⟨x, hx, ⟨-, rfl⟩ | ⟨-, y, hy, hr⟩⟩ := join_roster hl
  · exact .of_roster rfl
  · have hkept : s'.roster.nameKey = s.roster.nameKey := by
      rw [hr, Roster.link, Roster.nameKey_setUser, Roster.nameKey_setChan]
      exact Function.update_eq_self_iff.mpr (by simp [Roster.nameKey, roster_chans hy])
    have hbears : ∀ d n, s'.Bears d n ↔ s.Bears d n := by
      intro d n
      unfold Bears
      rw [hkept]
    refine ⟨fun d n hd => (hbears d n).mpr hd, fun w d hd => ?_⟩
    obtain ⟨l, hf, hd⟩ := hd
    rw [hr, Roster.link, Roster.foot_setUser, Roster.foot_setChan] at hf
    by_cases hw : w = u
    · subst hw
      rw [Function.update_self, Option.some.injEq] at hf
      subst hf
      rcases List.mem_cons.mp hd with rfl | hd
      · exact .inr ⟨rfl, name, hn, (hbears d name).mpr hb⟩
      · exact .inl ⟨x.chan_foot, Roster.foot_eq (roster_users hx), hd⟩
    · rw [Function.update_of_ne hw] at hf
      exact .inl ⟨l, hf, hd⟩

/-- A new channel has nobody on it, and the name it was asked for. -/
theorem mkchan_joins {auto : Bool} (h : s.roster.Wf) (hl : s.mkchan name auto = .ok (some c, t)) :
    Joins (some u) names s t ∧ t.Bears c name := by
  obtain ⟨-, hc, -⟩ | ⟨n, pubid, y, hv, hc, -, hr, -⟩ := mkchan_roster hl
  · cases hc
  · cases hc
    have hkey : t.roster.nameKey = Function.update s.roster.nameKey s.fresh (some n) := by
      rw [hr]
      exact Roster.map_update ..
    refine ⟨⟨fun d m hd => ?_, fun w d hd => .inl ?_⟩, n, ?_, (isvalidchan_eq hv).2⟩
    · obtain ⟨k, hk, he⟩ := hd
      have hne : d ≠ s.fresh := by
        intro hd
        have hfree : s.roster.chans s.fresh = none := (h.bound s.fresh le_rfl).2.2
        rw [hd, Roster.nameKey, hfree] at hk
        cases hk
      exact ⟨k, by rw [hkey, Function.update_of_ne hne, hk], he⟩
    · unfold On at hd ⊢
      rw [hr] at hd
      exact hd
    · rw [hkey, Function.update_self]

theorem getchan_bears (h : s.roster.Sound) (hc : s.getchan name = some c) : s.Bears c name := by
  unfold getchan at hc
  split at hc
  · cases hc
  · obtain ⟨n, hn, he⟩ := (h.reg.name name c).mp hc
    exact ⟨n, hn, strcaseeq_symm he⟩

/-- One name of the walk. -/
theorem joinOne_joins (h : s.roster.Sound) (hn : name ∈ names) (hl : s.joinOne u name = .ok s') :
    Joins (some u) names s s' := by
  unfold joinOne at hl
  split at hl
  · obtain ⟨⟨o, t⟩, ht, hj⟩ := bind_ok hl
    cases o with
    | none =>
      obtain ⟨-, -, rfl⟩ | ⟨n, pubid, y, -, hc, -⟩ := mkchan_roster ht
      · exact .of_roster (sendError_posted hj).roster
      · cases hc
    | some c =>
      obtain ⟨hm, hb⟩ := mkchan_joins h.wf ht
      exact hm.trans (join_joins hn hb hj)
  · next c hc =>
    obtain ⟨x, -, hl⟩ := bind_ok hl
    split at hl
    · exact .of_roster (sendError_posted hl).roster
    · obtain ⟨⟨b, t⟩, ht, hl⟩ := bind_ok hl
      have hr := (getban_roster ht).1
      cases b with
      | none =>
        have hb : t.Bears c name := by
          unfold Bears
          rw [hr]
          exact getchan_bears h hc
        exact (Joins.of_roster hr).trans (join_joins hn hb hl)
      | some b => exact .of_roster ((postRaw_posted hl).roster.trans hr)

/-- Nobody but the user joins, and he joins no channel but those the walk names. -/
theorem cmdJoin_joins {cp : Callbackp} {flag : UInt32} (h : s.roster.Sound)
    (hl : cmdJoin cp s = .ok (flag, s')) :
    Joins cp.call_user (jforeach cp.param (bytes "channels")) s s' := by
  obtain ⟨t, ht, hl⟩ := bind_ok hl
  cases hl
  refine (foldlM_keeps (fun t => t.roster.Sound ∧ Joins cp.call_user _ s t)
    (fun t name t' hn hs ht => ?_) ⟨h, .of_roster rfl⟩ ht).2
  obtain ⟨u, hu, ht⟩ := bind_ok ht
  rw [deref_ok hu] at hs ⊢
  exact ⟨joinOne_sound hs.1 ht, hs.2.trans (joinOne_joins hs.1 hn ht)⟩

/-! ### `SESSION` -/

variable {x x' : User} {ps : List (Bytes × Bytes)} {cp : Callbackp}
  {flag : UInt32}

/-- The users stay, and no session changes but that of the user, where it then holds one of
the pairs. -/
def Sets (u : Option UserId) (ps : List (Bytes × Bytes)) (s s' : Ape) : Prop :=
  ∀ w x', s'.users w = some x' → ∃ x, s.users w = some x ∧ ∀ k,
    getSession x' k = getSession x k ∨ u = some w ∧ ∃ v, (k, v) ∈ ps ∧ getSession x' k = some v

theorem Sets.of_users {u : Option UserId} (h : s'.users = s.users) : Sets u ps s s' := by
  intro w x' hx'
  exact ⟨x', by rw [← h, hx'], fun _ => .inl rfl⟩

theorem Sets.trans {u : Option UserId} (h : Sets u ps s t) (h' : Sets u ps t s') :
    Sets u ps s s' := by
  intro w x'' hx''
  obtain ⟨x', hx', hk'⟩ := h' w x'' hx''
  obtain ⟨x, hx, hk⟩ := h w x' hx'
  refine ⟨x, hx, fun k => ?_⟩
  rcases hk' k with he' | hs
  · rw [he']
    exact hk k
  · exact .inr hs

/-- One pair of the walk. -/
theorem setOne_sets {p : Bytes × Bytes} (hp : p ∈ ps) (hl : s.setOne u p = .ok s') :
    Sets (some u) ps s s' := by
  obtain ⟨x, hx, hl⟩ := bind_ok hl
  split at hl
  · next x' hset =>
    cases hl
    intro w y' hy'
    by_cases hw : w = u
    · subst hw
      rw [setUser_users, Function.update_self] at hy'
      cases hy'
      refine ⟨x, user_ok hx, fun k => ?_⟩
      rw [getSession_setSession hset]
      by_cases hk : k = p.1
      · rw [if_pos hk]
        subst hk
        exact .inr ⟨rfl, p.2, hp, rfl⟩
      · rw [if_neg hk]
        exact .inl rfl
    · rw [setUser_users, Function.update_of_ne hw] at hy'
      exact ⟨y', hy', fun _ => .inl rfl⟩
  · exact .of_users (sendError_posted hl).users

/-- The raw that answers `get` with the values under the keys. -/
def sessionsRaw (s : Ape) (x : User) (chl : ℤ) (keys : List Bytes) : RawMsg :=
  s.forgeRaw (bytes "SESSIONS") ((JsonItem.newObject.setObj (bytes "sessions")
    (keys.foldl (fun o k => o.setStr k ((getSession x k).getD (bytes "null")))
      JsonItem.newObject)).setInt (bytes "chl") chl)

/-- What `cmd_session` leaves after `get`: no key and no step, or the answer queued. -/
theorem cmdSession_get {action : Bytes} (ha : jstr cp.param (bytes "action") = some action)
    (hg : strcaseeq action (bytes "get") = true) (hl : cmdSession cp s = .ok (flag, s')) :
    jforeach cp.param (bytes "values") = [] ∧ s' = s ∨
    ∃ u x i y, cp.call_user = some u ∧ s.users u = some x ∧ cp.call_subuser = some i ∧
      s.subs i = some y ∧ s' = s.setSub i
        (y.push (s.sessionsRaw x cp.chl (jforeach cp.param (bytes "values")))) := by
  have hset : ¬ strcaseeq action (bytes "set") = true := by
    intro hs
    have := strcaseeq_trans (strcaseeq_symm hs) hg
    revert this
    decide
  simp only [cmdSession, ha, if_neg hset, if_pos hg] at hl
  split at hl
  · next hn =>
    cases hl
    exact .inl ⟨hn, rfl⟩
  · obtain ⟨u, hu, hl⟩ := bind_ok hl
    obtain ⟨x, hx, hl⟩ := bind_ok hl
    obtain ⟨i, hi, hl⟩ := bind_ok hl
    obtain ⟨t, ht, hl⟩ := bind_ok hl
    obtain ⟨y, hy, ht⟩ := bind_ok ht
    cases hl
    cases ht
    exact .inr ⟨u, x, i, y, deref_ok hu, user_ok hx, useSub_ok hi, sub_ok hy, rfl⟩

theorem cmdSession_sets (hl : cmdSession cp s = .ok (flag, s')) :
    Sets cp.call_user (jforeachK cp.param (bytes "values")) s s' := by
  cases ha : jstr cp.param (bytes "action") with
  | none =>
    simp only [cmdSession, ha] at hl
    cases hl
    exact .of_users rfl
  | some action =>
    by_cases hset : strcaseeq action (bytes "set") = true
    · simp only [cmdSession, ha, if_pos hset] at hl
      obtain ⟨t, ht, hl⟩ := bind_ok hl
      cases hl
      refine foldlM_keeps (Sets cp.call_user _ s) (fun t p t' hp hs ht => ?_) (.of_users rfl) ht
      obtain ⟨u, hu, ht⟩ := bind_ok ht
      rw [deref_ok hu] at hs ⊢
      exact hs.trans (setOne_sets hp ht)
    · by_cases hget : strcaseeq action (bytes "get") = true
      · obtain ⟨-, rfl⟩ | ⟨u, x, i, y, -, -, -, -, rfl⟩ := cmdSession_get ha hget hl
        · exact .of_users rfl
        · exact .of_users rfl
      · simp only [cmdSession, ha, if_neg hset, if_neg hget] at hl
        cases hl
        exact .of_users rfl

end Ape

/-! ### What the commands read and what is given -/

/-- `JOIN` lets a user join no channel but those named in the params. -/
def JoinsGiven (o : JsonItem) : Prop :=
  ∀ (cp : Callbackp) (s s' : Ape) (flag : UInt32), cp.param = o.param → s.roster.Sound →
    Ape.cmdJoin cp s = .ok (flag, s') →
    Ape.Joins cp.call_user (o.values (bytes "channels")) s s'

/-- `SESSION` changes no value but those given in the params. -/
def SetsGiven (o : JsonItem) : Prop :=
  ∀ (cp : Callbackp) (s s' : Ape) (flag : UInt32), cp.param = o.param →
    Ape.cmdSession cp s = .ok (flag, s') →
    Ape.Sets cp.call_user (o.pairs (bytes "values")) s s'

/-- `SESSION` with `get` answers with the keys given in the params and no other. -/
def GetsGiven (o : JsonItem) : Prop :=
  ∀ (cp : Callbackp) (s s' : Ape) (flag : UInt32) (action : Bytes), cp.param = o.param →
    jstr cp.param (bytes "action") = some action → strcaseeq action (bytes "get") = true →
    Ape.cmdSession cp s = .ok (flag, s') →
    o.values (bytes "values") = [] ∧ s' = s ∨
    ∃ u x i y, cp.call_user = some u ∧ s.users u = some x ∧ cp.call_subuser = some i ∧
      s.subs i = some y ∧
      s' = s.setSub i (y.push (s.sessionsRaw x cp.chl (o.values (bytes "values"))))

/-- The walks read what is given in the params of a command object exactly when they are
confined to it, and then so do the commands. -/
theorem foreach_given_iff (o : JsonItem) :
    (∀ path, jforeach o.param path = o.values path ↔ Confined JsonItem.str o path) ∧
    (∀ path, jforeachK o.param path = o.pairs path ↔ Confined JsonItem.pair o path) ∧
    (Confined JsonItem.str o (bytes "channels") → JoinsGiven o) ∧
    (Confined JsonItem.pair o (bytes "values") → SetsGiven o) ∧
    (Confined JsonItem.str o (bytes "values") → GetsGiven o) := by
  refine ⟨fun path => walk_iff, fun path => walk_iff, fun h => ?_, fun h => ?_, fun h => ?_⟩
  · intro cp s s' flag hp hs hl
    have hj := Ape.cmdJoin_joins hs hl
    rwa [hp, show jforeach o.param _ = o.values _ from walk_iff.mpr h] at hj
  · intro cp s s' flag hp hl
    have hj := Ape.cmdSession_sets hl
    rwa [hp, show jforeachK o.param _ = o.pairs _ from walk_iff.mpr h] at hj
  · intro cp s s' flag action hp ha hg hl
    have hj := Ape.cmdSession_get ha hg hl
    rwa [hp, show jforeach o.param _ = o.values _ from walk_iff.mpr h] at hj

/-- `{"cmd": "JOIN", "params": {"channels": <channels>, "other": "b"}, "sessid": "c"}`. -/
def joinObject (channels : JsonItem) : JsonItem :=
  .mk none .obj none 0 [.mk (some (bytes "cmd")) .val (some (bytes "JOIN")) 0 [],
    .mk (some (bytes "params")) .obj none 0
      [channels.withKey (bytes "channels"), .mk (some (bytes "other")) .val (some (bytes "b")) 0 []],
    .mk (some (bytes "sessid")) .val (some (bytes "c")) 0 []]

/-- An array is walked alone. -/
theorem foreach_given_array :
    JoinsGiven (joinObject (.mk none .arr none 0 [.mk none .val (some (bytes "a")) 0 []])) :=
  (foreach_given_iff _).2.2.1 (walk_iff.mp (by decide +kernel))

/-- From a string the walk goes on to the member behind it. -/
theorem strays_walked :
    (jforeach (joinObject (.mk none .val (some (bytes "a")) 0 [])).param (bytes "channels") =
      [bytes "a", bytes "b"] ∧
    (joinObject (.mk none .val (some (bytes "a")) 0 [])).values (bytes "channels") =
      [bytes "a"]) ∧
    ¬∀ (o : JsonItem) (path : Bytes), jforeach o.param path = o.values path := by
  have hs : jforeach (joinObject (.mk none .val (some (bytes "a")) 0 [])).param
      (bytes "channels") = [bytes "a", bytes "b"] := by decide +kernel
  have hv : (joinObject (.mk none .val (some (bytes "a")) 0 [])).values (bytes "channels") =
      [bytes "a"] := by decide +kernel
  refine ⟨⟨hs, hv⟩, fun h => ?_⟩
  have hall := h (joinObject (.mk none .val (some (bytes "a")) 0 [])) (bytes "channels")
  rw [hs, hv] at hall
  simp at hall

end ApeServer
