import ApeServer.Dns.Reply

/-!
# Looking up a host name

`ape_gethostbyname` and `ape_connect_name`. `isIp` is what `dns_pton` says of a name, and
`resolve` what becomes of a query for a name; the library calls `dnscb` once for a query it
takes.
-/
namespace ApeServer.Dns

open Sock (Bytes)

/-- What a query comes to: it is not taken, it fails, or it has a reply. -/
inductive Outcome where
  | refused
  | failed
  | replied (reply : Reply)

/-- `query_new` and what `dns_submit_dn` asserts: the name asked for, and `DNS_NOSRCH`. -/
def query (stack : Buffer) (p : Ptodn) : Except Fault (Bytes × Bool) :=
  let dn := stack.put p.dn
  match dnlen dn with
  | none => .error .overrun
  | some l => if maxDn < l then .error .assertion else .ok (dn.take l, p.isabs)

/-- `ape_gethostbyname` and the `dnscb` of its query. `stack` is what its buffer `dn` holds
before it is written. -/
def apeGethostbyname (isIp : Bytes → Bool) (resolve : Bytes → Bool → Outcome) (stack : Buffer)
    (name : Bytes) : Except Fault (List Event) :=
  if isIp name then .ok [.callback (some name)]
  else if (ptodn name).r = 0 then .ok []
  else
    match query stack (ptodn name) with
    | .error fault => .error fault
    | .ok (dn, nosrch) =>
      match resolve dn nosrch with
      | .refused => .ok [.queryFree]
      | .failed => dnscb typeA none
      | .replied reply => dnscb typeA (some reply)

inductive Effect where
  | connect (ip : Bytes) (port : ℕ)
  | freeIp
  | noIpFound
  | freeSock
  | freeAsca
deriving DecidableEq, Repr

def apeConnectNameCb (port : ℕ) : Option Bytes → List Effect
  | some ip => [.connect ip port, .freeIp, .freeSock, .freeAsca]
  | none => [.noIpFound, .freeSock, .freeAsca]

def apeConnectName (isIp : Bytes → Bool) (resolve : Bytes → Bool → Outcome) (stack : Buffer)
    (name : Bytes) (port : ℕ) : Except Fault (List Effect) :=
  (apeGethostbyname isIp resolve stack name).map fun events =>
    (calls events).flatMap (apeConnectNameCb port)

/-! ### One lookup -/

variable {isIp : Bytes → Bool} {resolve : Bytes → Bool → Outcome} {stack : Buffer}
  {name nm ip : Bytes} {nosrch : Bool} {port : ℕ}

/-- The address a name has: the name itself, or that of the reply to the name put whole. -/
def Due (isIp : Bytes → Bool) (resolve : Bytes → Bool → Outcome) (name ip : Bytes) : Prop :=
  isIp name = true ∧ ip = name ∨
    isIp name = false ∧ 0 < (ptodn name).r ∧ ∃ nm reply, (ptodn name).dn = nm.map some ∧
      resolve nm (ptodn name).isabs = .replied reply ∧ reply.Address ip

/-- The query fails, which is for what the buffer holds once `dns_ptodn` is done with it. -/
def Fails (isIp : Bytes → Bool) (resolve : Bytes → Bool → Outcome) (stack : Buffer)
    (name : Bytes) : Prop :=
  isIp name = false ∧ ∃ l, dnlen (stack.put (ptodn name).dn) = some l ∧ l ≤ maxDn ∧
    resolve ((stack.put (ptodn name).dn).take l) (ptodn name).isabs = .failed

def CalledOnce (isIp : Bytes → Bool) (resolve : Bytes → Bool → Outcome) (stack : Buffer)
    (name : Bytes) : Prop :=
  ∃ arg, (apeGethostbyname isIp resolve stack name).map calls = .ok [arg] ∧
    ∀ ip, arg = some ip ↔ Due isIp resolve name ip

def Released (isIp : Bytes → Bool) (resolve : Bytes → Bool → Outcome) (stack : Buffer)
    (name : Bytes) (port : ℕ) : Prop :=
  ∃ effects, apeConnectName isIp resolve stack name port = .ok effects ∧
    effects.count .freeSock = 1 ∧ effects.count .freeAsca = 1

theorem CalledOnce.released (h : CalledOnce isIp resolve stack name) (port : ℕ) :
    Released isIp resolve stack name port := by
  obtain ⟨arg, harg, -⟩ := h
  refine ⟨apeConnectNameCb port arg, ?_, ?_⟩
  · rw [apeConnectName]
    cases hevents : apeGethostbyname isIp resolve stack name with
    | error fault =>
      rw [hevents] at harg
      cases harg
    | ok events =>
      rw [hevents] at harg
      have hcalls : calls events = [arg] := Except.ok.inj harg
      simp [Except.map, hcalls]
  · cases arg <;> exact ⟨rfl, rfl⟩

/-- A name put whole is asked for as it is, whatever the buffer held. -/
theorem query_named {p : Ptodn} (h : Named p nm) : query stack p = .ok (nm, p.isabs) := by
  have hput : stack.put p.dn = nm ++ stack.val.drop nm.length := by
    rw [h.dn_eq, stack.put_map h.room]
  rw [query, hput]
  rw [h.ends]
  dsimp only
  rw [if_neg (by have := h.room; omega), List.take_left']
  rfl

theorem due_iff (hip : isIp name = false) (hq : query stack (ptodn name) = .ok (nm, nosrch)) :
    Due isIp resolve name ip ↔ 0 < (ptodn name).r ∧
      ∃ reply, resolve nm nosrch = .replied reply ∧ reply.Address ip := by
  have hask (hr : 0 < (ptodn name).r) :
      (ptodn name).dn = nm.map some ∧ (ptodn name).isabs = nosrch := by
    obtain ⟨nm', hnm⟩ := ptodn_named hr
    rw [query_named hnm, Except.ok.injEq, Prod.mk.injEq] at hq
    obtain ⟨rfl, rfl⟩ := hq
    exact ⟨hnm.dn_eq, rfl⟩
  constructor
  · rintro (⟨h, -⟩ | ⟨-, hr, nm', reply, hdn, hreply, ha⟩)
    · rw [hip] at h
      cases h
    · obtain ⟨hnm, rfl⟩ := hask hr
      have : nm' = nm := (List.map_injective_iff.mpr (Option.some_injective _)) (hdn.symm.trans hnm)
      subst this
      exact ⟨hr, reply, hreply, ha⟩
  · rintro ⟨hr, reply, hreply, ha⟩
    obtain ⟨hnm, rfl⟩ := hask hr
    exact .inr ⟨hip, hr, nm, reply, hnm, hreply, ha⟩

theorem query_iff {p : Ptodn} : query stack p = .ok (nm, nosrch) ↔
    ∃ l, dnlen (stack.put p.dn) = some l ∧ l ≤ maxDn ∧ (stack.put p.dn).take l = nm ∧
      p.isabs = nosrch := by
  rw [query]
  cases dnlen (stack.put p.dn) with
  | none => simp
  | some l =>
    by_cases hl : maxDn < l
    · simp [hl]
    · simp [hl, Nat.le_of_not_lt hl]

theorem Fails.query_ok (h : Fails isIp resolve stack name) :
    ∃ q, query stack (ptodn name) = .ok q := by
  obtain ⟨-, l, hl, hroom, -⟩ := h
  exact ⟨_, query_iff.mpr ⟨l, hl, hroom, rfl, rfl⟩⟩

theorem fails_iff (hip : isIp name = false) (hq : query stack (ptodn name) = .ok (nm, nosrch)) :
    Fails isIp resolve stack name ↔ resolve nm nosrch = .failed := by
  obtain ⟨l, hl, hroom, rfl, rfl⟩ := query_iff.mp hq
  constructor
  · rintro ⟨-, l', hl', -, hfail⟩
    rw [hl, Option.some.injEq] at hl'
    subst hl'
    exact hfail
  · intro hfail
    exact ⟨hip, l, hl, hroom, hfail⟩

theorem gethostbyname_query (hip : isIp name = false) (resolve : Bytes → Bool → Outcome)
    (stack : Buffer) :
    apeGethostbyname isIp resolve stack name =
      match query stack (ptodn name) with
      | .error fault => .error fault
      | .ok (dn, nosrch) =>
        match resolve dn nosrch with
        | .refused => .ok [.queryFree]
        | .failed => dnscb typeA none
        | .replied reply => dnscb typeA (some reply) := by
  have hr : (ptodn name).r ≠ 0 := by
    rcases ptodn_spec name with hr | ⟨nm, hnm⟩
    · omega
    · exact hnm.pos.ne'
  rw [apeGethostbyname, hip, if_neg (by decide), if_neg hr]

theorem calledOnce_of_isIp (hip : isIp name = true) : CalledOnce isIp resolve stack name := by
  refine ⟨some name, ?_, fun ip => ?_⟩
  · rw [apeGethostbyname, if_pos hip]
    rfl
  · simp [Due, hip, eq_comm]

/-- A query that went out: it fails, or a reply to the name itself has an address. -/
theorem calledOnce_of_query (hip : isIp name = false)
    (hq : query stack (ptodn name) = .ok (nm, nosrch)) :
    CalledOnce isIp resolve stack name ↔
      (∃ ip, Due isIp resolve name ip) ∨ resolve nm nosrch = .failed := by
  have hcall := gethostbyname_query hip resolve stack
  rw [hq] at hcall
  dsimp only at hcall
  simp only [due_iff hip hq]
  cases hout : resolve nm nosrch with
  | refused =>
    rw [hout] at hcall
    refine iff_of_false ?_ (by simp)
    rintro ⟨arg, harg, -⟩
    rw [hcall] at harg
    cases harg
  | failed =>
    rw [hout] at hcall
    refine iff_of_true ⟨none, by rw [hcall]; rfl, fun ip => ?_⟩ (.inr rfl)
    rw [due_iff hip hq, hout]
    simp
  | replied reply =>
    rw [hout] at hcall
    dsimp only at hcall
    rcases dnscb_spec reply with ⟨ip, haddress, hcb⟩ | ⟨hnone, hcb⟩
    · rw [← hcall] at hcb
      by_cases hr : 0 < (ptodn name).r
      · refine iff_of_true ⟨some ip, hcb, fun ip' => ?_⟩ (.inl ⟨ip, hr, reply, rfl, ?_⟩)
        · rw [due_iff hip hq, hout]
          simp [hr, haddress, eq_comm]
        · exact (haddress ip).mpr rfl
      · refine iff_of_false ?_ (by simp [hr])
        rintro ⟨arg, harg, hdue⟩
        rw [hcb, Except.ok.injEq, List.cons.injEq] at harg
        have hip' := (hdue ip).mp harg.1.symm
        exact hr ((due_iff hip hq).mp hip').1
    · rw [← hcall] at hcb
      refine iff_of_false ?_ ?_
      · rintro ⟨arg, harg, -⟩
        rw [hcb] at harg
        cases harg
      · rintro (⟨ip, -, reply', hreply, ha⟩ | hfail)
        · cases hreply
          exact hnone ip ha
        · cases hfail

/-- The callback of a lookup is called exactly once, with the address of the name or with
`NULL`, and the request of `ape_connect_name` released, if the name has an address, or if
its query fails; and in no other case. -/
theorem gethostbyname_once_iff (isIp : Bytes → Bool) (resolve : Bytes → Bool → Outcome)
    (stack : Buffer) (name : Bytes) (port : ℕ) :
    CalledOnce isIp resolve stack name ∧ Released isIp resolve stack name port ↔
      (∃ ip, Due isIp resolve name ip) ∨ Fails isIp resolve stack name := by
  rw [and_iff_left_of_imp (fun h => h.released port)]
  cases hip : isIp name with
  | true =>
    have hdue : Due isIp resolve name name := .inl ⟨hip, rfl⟩
    exact iff_of_true (calledOnce_of_isIp hip) (.inl ⟨name, hdue⟩)
  | false =>
    cases hq : query stack (ptodn name) with
    | ok q =>
      rw [calledOnce_of_query hip hq, fails_iff hip hq]
    | error fault =>
      refine iff_of_false ?_ ?_
      · rintro ⟨arg, harg, -⟩
        rw [gethostbyname_query hip, hq] at harg
        cases harg
      · rintro (⟨ip, ⟨h, -⟩ | ⟨-, hr, -⟩⟩ | hfail)
        · rw [hip] at h
          cases h
        · obtain ⟨nm, hnm⟩ := ptodn_named hr
          rw [query_named hnm] at hq
          cases hq
        · obtain ⟨q, hq'⟩ := hfail.query_ok
          rw [hq] at hq'
          cases hq'

def aliasPacket : Bytes :=
  [0, 1, 129, 128, 0, 1, 0, 1, 0, 0, 0, 0, 1, 97, 0, 0, 1, 0, 1,
    192, 12, 0, 5, 0, 1, 0, 0, 0, 60, 0, 3, 1, 98, 0]

def addressPacket : Bytes :=
  [0, 1, 129, 128, 0, 1, 0, 1, 0, 0, 0, 0, 1, 97, 0, 0, 1, 0, 1,
    192, 12, 0, 1, 0, 1, 0, 0, 0, 60, 0, 4, 127, 0, 0, 1]

theorem aliasPacket_asked :
    ∃ q, getdn aliasPacket headerSize = some q ∧ q.2 + 4 ≤ aliasPacket.length :=
  ⟨([1, 97, 0], 15), rfl, by decide⟩

theorem addressPacket_asked :
    ∃ q, getdn addressPacket headerSize = some q ∧ q.2 + 4 ≤ addressPacket.length :=
  ⟨([1, 97, 0], 15), rfl, by decide⟩

/-- A reply that says `a` is an alias of `b`, and nothing of `b`. -/
def aliasReply : Reply := ⟨aliasPacket, aliasPacket_asked⟩

def addressReply : Reply := ⟨addressPacket, addressPacket_asked⟩

def blank : Buffer := ⟨List.replicate maxDn 0, List.length_replicate⟩

/-- There is no call where the reply has no address, and none where the query is not taken; and
for `a..b` there is one with the address of `a`. -/
theorem gethostbyname_lost :
    ¬ (CalledOnce (fun _ => false) (fun _ _ => .replied aliasReply) blank [97] ∧
      Released (fun _ => false) (fun _ _ => .replied aliasReply) blank [97] 80) ∧
    ¬ (CalledOnce (fun _ => false) (fun _ _ => .refused) blank [97] ∧
      Released (fun _ => false) (fun _ _ => .refused) blank [97] 80) ∧
    ¬ CalledOnce (fun _ => false) (fun _ _ => .replied addressReply) blank [97, 46, 46, 98] := by
  refine ⟨?_, ?_, ?_⟩
  · rintro ⟨⟨arg, harg, -⟩, -⟩
    have hnone : (apeGethostbyname (fun _ => false) (fun _ _ => .replied aliasReply) blank
        [97]).map calls = .ok [] := by decide +kernel
    rw [hnone] at harg
    cases harg
  · rintro ⟨⟨arg, harg, -⟩, -⟩
    have hnone : (apeGethostbyname (fun _ => false) (fun _ _ => .refused) blank
        [97]).map calls = .ok [] := by decide +kernel
    rw [hnone] at harg
    cases harg
  · rintro ⟨arg, harg, hdue⟩
    have hone : (apeGethostbyname (fun _ => false) (fun _ _ => .replied addressReply) blank
        [97, 46, 46, 98]).map calls = .ok [some (dotted addressPacket 31)] := by
      decide +kernel
    rw [hone, Except.ok.injEq, List.cons.injEq] at harg
    rcases (hdue _).mp harg.1.symm with ⟨h, -⟩ | ⟨-, hr, -⟩
    · cases h
    · exact absurd hr (by decide)

end ApeServer.Dns
