import ApeServer.Dns.Names
import ApeServer.Json.Print

/-!
# The reply to a query

`dns_nextrr` and `dnscb`. A pointer into the packet is an index.
-/
namespace ApeServer.Dns

open Sock (Bytes)
open Json (chr decimal)

def typeA : ℕ := 1
def typeCname : ℕ := 5
def typeAny : ℕ := 255
def classIn : ℕ := 1
def classAny : ℕ := 255

def qcls : ℕ := classIn

def eProtocol : ℤ := -2
def eNodata : ℤ := -4

def get16 (pkt : Bytes) (i : ℕ) : ℕ := (pkt.getD i 0).toNat <<< 8 ||| (pkt.getD (i + 1) 0).toNat

def numan (pkt : Bytes) : ℕ := get16 pkt 6

/-- `struct dns_rr` -/
structure Rr where
  dn : Bytes
  typ : ℕ
  cls : ℕ
  dsz : ℕ
  dptr : ℕ
  dend : ℕ
deriving DecidableEq, Repr

/-- The record `dns_nextrr` reads at `cur`; the next one is at its `dend`. -/
def readRr (pkt : Bytes) (cur : ℕ) : Option Rr :=
  match getdn pkt cur with
  | none => none
  | some (dn, cur) =>
    if pkt.length < cur + 10 then none
    else
      let dsz := get16 pkt (cur + 8)
      if pkt.length < cur + 10 + dsz then none
      else
        some { dn, typ := get16 pkt cur, cls := get16 pkt (cur + 2), dsz, dptr := cur + 10,
               dend := cur + 10 + dsz }

/-- The result of `dns_nextrr`: 1 with the record and how many are to go, 0 or -1. -/
inductive Next where
  | record (rr : Rr) (rrl : ℕ)
  | done
  | bad
deriving DecidableEq, Repr

/-- `dns_nextrr` where `dnsp_qdn` is null, as it is throughout `dnscb`. -/
def nextrr (pkt : Bytes) (qcls qtyp : ℕ) : ℕ → ℕ → Next
  | 0, _ => .done
  | rrl + 1, cur =>
    match readRr pkt cur with
    | none => .bad
    | some rr =>
      if (qcls = 0 ∨ qcls = rr.cls) ∧ (qtyp = 0 ∨ qtyp = rr.typ) then .record rr rrl
      else nextrr pkt qcls qtyp rrl rr.dend

/-- A reply `dns_ioevent` passes on: its question is whole. -/
structure Reply where
  pkt : Bytes
  asked : ∃ q, getdn pkt headerSize = some q ∧ q.2 + 4 ≤ pkt.length

/-- Why a lookup does not go on. -/
inductive Fault where
  /-- the name in the buffer does not end there -/
  | overrun
  | assertion
  /-- a name or a record is used that could not be read -/
  | unread
deriving DecidableEq, Repr

inductive Event where
  | callback (ip : Option Bytes)
  | freeResult
  | queryFree
deriving DecidableEq, Repr

def Rr.wanted (qtyp : ℕ) (rr : Rr) : Bool :=
  (qcls == classAny || qcls == rr.cls) && (qtyp == typeAny || qtyp == rr.typ)

/-- The first loop of `dnscb`: `r` and `nrr` behind it. -/
def scan (pkt : Bytes) (qtyp : ℕ) : ℕ → ℕ → ℕ → Bytes → ℕ → ℤ × ℕ
  | 0, _, _, _, nrr => (0, nrr)
  | turns + 1, rrl, cur, dn, nrr =>
    match nextrr pkt 0 0 rrl cur with
    | .done => (0, nrr)
    | .bad => (-1, nrr)
    | .record rr rrl =>
      if dnequal dn rr.dn = false then scan pkt qtyp turns rrl rr.dend dn nrr
      else if rr.wanted qtyp then scan pkt qtyp turns rrl rr.dend dn (nrr + 1)
      else if rr.typ = typeCname ∧ nrr = 0 then
        match getdn pkt rr.dptr with
        | none => (eProtocol, nrr)
        | some (dnbuf, dptr) =>
          if dptr ≠ rr.dend then (eProtocol, nrr)
          else scan pkt qtyp turns rrl rr.dend (dntodn dnbuf dn) nrr
      else scan pkt qtyp turns rrl rr.dend dn nrr

def octet (pkt : Bytes) (i : ℕ) : Bytes := decimal (pkt.getD i 0).toNat

def dotted (pkt : Bytes) (dptr : ℕ) : Bytes :=
  octet pkt dptr ++ chr '.' :: (octet pkt (dptr + 1) ++ chr '.' ::
    (octet pkt (dptr + 2) ++ chr '.' :: octet pkt (dptr + 3)))

/-- The second loop of `dnscb`: the text it calls back with, if it does. -/
def pick (pkt : Bytes) (qcls qtyp : ℕ) : ℕ → ℕ → ℕ → Except Fault (Option Bytes)
  | 0, _, _ => .ok none
  | turns + 1, rrl, cur =>
    match nextrr pkt qcls qtyp rrl cur with
    | .done => .ok none
    | .bad => .error .unread
    | .record rr rrl =>
      if rr.dsz = 4 then .ok (some (dotted pkt rr.dptr))
      else pick pkt qcls qtyp turns rrl rr.dend

def dnscb (qtyp : ℕ) : Option Reply → Except Fault (List Event)
  | none => .ok [.callback none]
  | some result =>
    let pkt := result.pkt
    match getdn pkt headerSize with
    | none => .error .unread
    | some (dn, cur) =>
      if pkt.length < cur + 4 then .error .assertion
      else
        let (r, nrr) := scan pkt qtyp (numan pkt + 1) (numan pkt) (cur + 4) dn 0
        let r := if r = 0 ∧ nrr = 0 then eNodata else r
        if r < 0 then .ok [.freeResult]
        else
          let qtyp := if qtyp = typeAny then 0 else qtyp
          let qcls := if qcls = classAny then 0 else qcls
          match pick pkt qcls qtyp (numan pkt + 1) (numan pkt) (cur + 4) with
          | .error fault => .error fault
          | .ok none => .ok [.freeResult, .queryFree]
          | .ok (some ip) => .ok [.callback (some ip), .freeResult, .queryFree]

def Event.call : Event → Option (Option Bytes)
  | .callback ip => some ip
  | _ => none

/-- The arguments of the calls of the callback. -/
def calls (events : List Event) : List (Option Bytes) := events.filterMap Event.call

/-! ### The answers of a reply -/

/-- The records of the answer section, all of them whole. -/
def answers (pkt : Bytes) : ℕ → ℕ → Option (List Rr)
  | 0, _ => some []
  | rrl + 1, cur =>
    match readRr pkt cur with
    | none => none
    | some rr => (answers pkt rrl rr.dend).map (rr :: ·)

def Rr.IsAddress (rr : Rr) : Prop := rr.cls = classIn ∧ rr.typ = typeA

instance (rr : Rr) : Decidable rr.IsAddress := inferInstanceAs (Decidable (_ ∧ _))

/-- The aliases of a name lead to an address record. -/
inductive Leads (pkt : Bytes) : Bytes → List Rr → Prop where
  | address {dn : Bytes} {rr : Rr} {rrs : List Rr} (h : dnequal dn rr.dn = true)
      (ha : rr.IsAddress) : Leads pkt dn (rr :: rrs)
  | cname {dn target : Bytes} {rr : Rr} {rrs : List Rr} (h : dnequal dn rr.dn = true)
      (hc : rr.typ = typeCname) (ht : getdn pkt rr.dptr = some (target, rr.dend))
      (hl : Leads pkt (dntodn target dn) rrs) : Leads pkt dn (rr :: rrs)
  | other {dn : Bytes} {rr : Rr} {rrs : List Rr}
      (h : dnequal dn rr.dn = true → ¬ rr.IsAddress ∧ rr.typ ≠ typeCname)
      (hl : Leads pkt dn rrs) : Leads pkt dn (rr :: rrs)

variable {pkt dn : Bytes} {rr : Rr} {rrs : List Rr} {rrl cur turns nrr : ℕ}

theorem wanted_iff : rr.wanted typeA = true ↔ rr.IsAddress := by
  have hany : rr.wanted typeA = (qcls == rr.cls && typeA == rr.typ) := rfl
  rw [hany, Bool.and_eq_true, beq_iff_eq, beq_iff_eq]
  exact ⟨fun h => ⟨h.1.symm, h.2.symm⟩, fun h => ⟨h.1.symm, h.2.symm⟩⟩

theorem Rr.IsAddress.not_cname (h : rr.IsAddress) : rr.typ ≠ typeCname := by
  rw [h.2]
  decide

theorem leads_other_iff (h : dnequal dn rr.dn = true → ¬ rr.IsAddress ∧ rr.typ ≠ typeCname) :
    Leads pkt dn (rr :: rrs) ↔ Leads pkt dn rrs := by
  refine ⟨fun hl => ?_, .other h⟩
  cases hl with
  | address he ha => exact absurd ha (h he).1
  | cname he hc => exact absurd hc (h he).2
  | other _ hl => exact hl

theorem leads_cname_iff (he : dnequal dn rr.dn = true) (hc : rr.typ = typeCname) :
    Leads pkt dn (rr :: rrs) ↔
      ∃ target, getdn pkt rr.dptr = some (target, rr.dend) ∧
        Leads pkt (dntodn target dn) rrs := by
  constructor
  · intro hl
    cases hl with
    | address _ ha => exact absurd hc ha.not_cname
    | cname _ _ ht hl => exact ⟨_, ht, hl⟩
    | other h => exact absurd hc (h he).2
  · rintro ⟨target, ht, hl⟩
    exact .cname he hc ht hl

theorem nextrr_all : nextrr pkt 0 0 (rrl + 1) cur =
    match readRr pkt cur with
    | none => .bad
    | some rr => .record rr rrl := by
  rw [nextrr]
  cases readRr pkt cur <;> simp

/-- Without an error of the first loop the records are all whole, and the name leads to an
address, unless one is counted already. -/
theorem scan_spec (pkt : Bytes) (rrl cur : ℕ) (dn : Bytes) (nrr : ℕ) :
    (scan pkt typeA (rrl + 1) rrl cur dn nrr).1 ≤ 0 ∧
      ((scan pkt typeA (rrl + 1) rrl cur dn nrr).1 = 0 ∧
        (scan pkt typeA (rrl + 1) rrl cur dn nrr).2 ≠ 0 ↔
      ∃ rrs, answers pkt rrl cur = some rrs ∧ (nrr ≠ 0 ∨ Leads pkt dn rrs)) := by
  induction rrl generalizing cur dn nrr with
  | zero =>
    refine ⟨le_refl _, fun h => ⟨[], rfl, .inl h.2⟩, ?_⟩
    rintro ⟨rrs, hrrs, hn | hl⟩
    · exact ⟨rfl, hn⟩
    · cases hrrs
      cases hl
  | succ rrl ih =>
    rw [scan, nextrr_all, answers]
    cases hrr : readRr pkt cur with
    | none => simp
    | some rr =>
      simp only [Option.map_eq_some_iff, exists_exists_and_eq_and]
      -- the rest of the section is the induction's; what the head changes is `nrr` and `dn`
      have rest {dn' : Bytes} {nrr' : ℕ}
          (hiff : ∀ rrs, nrr ≠ 0 ∨ Leads pkt dn (rr :: rrs) ↔ nrr' ≠ 0 ∨ Leads pkt dn' rrs) :
          (scan pkt typeA (rrl + 1) rrl rr.dend dn' nrr').1 ≤ 0 ∧
            ((scan pkt typeA (rrl + 1) rrl rr.dend dn' nrr').1 = 0 ∧
              (scan pkt typeA (rrl + 1) rrl rr.dend dn' nrr').2 ≠ 0 ↔
            ∃ rrs, answers pkt rrl rr.dend = some rrs ∧
              (nrr ≠ 0 ∨ Leads pkt dn (rr :: rrs))) := by
        simpa only [hiff] using ih rr.dend dn' nrr'
      split_ifs with hne ha hc
      · apply rest
        intro rrs
        rw [leads_other_iff (fun he => by rw [he] at hne; cases hne)]
      · rw [wanted_iff] at ha
        apply rest
        intro rrs
        exact iff_of_true (.inr (.address (by simpa using hne) ha)) (.inl (by omega))
      · have he : dnequal dn rr.dn = true := by simpa using hne
        have hnone (h : ∀ target, getdn pkt rr.dptr ≠ some (target, rr.dend)) :
            ¬ ∃ rrs, answers pkt rrl rr.dend = some rrs ∧
              (nrr ≠ 0 ∨ Leads pkt dn (rr :: rrs)) := by
          rintro ⟨rrs, -, hn | hl⟩
          · exact hn hc.2
          · obtain ⟨target, ht, -⟩ := (leads_cname_iff he hc.1).mp hl
            exact h target ht
        have hproto : eProtocol ≠ 0 := by decide
        cases ht : getdn pkt rr.dptr with
        | none =>
          refine ⟨(by decide : eProtocol ≤ 0), iff_of_false (fun h => hproto h.1) ?_⟩
          exact hnone (fun target => by rw [ht]; simp)
        | some p =>
          obtain ⟨target, dptr⟩ := p
          dsimp only
          split_ifs with hend
          · refine ⟨(by decide : eProtocol ≤ 0), iff_of_false (fun h => hproto h.1) ?_⟩
            apply hnone
            intro target' ht'
            rw [ht, Option.some.injEq, Prod.mk.injEq] at ht'
            exact hend ht'.2
          · rw [not_not] at hend
            subst hend
            apply rest
            intro rrs
            rw [leads_cname_iff he hc.1, ht]
            simp
      · rw [wanted_iff] at ha
        apply rest
        intro rrs
        by_cases hn : nrr = 0
        · rw [leads_other_iff (fun _ => ⟨ha, fun h => hc ⟨h, hn⟩⟩)]
        · exact iff_of_true (.inl hn) (.inl hn)

/-- The record `dnscb` takes the address from. -/
def Rr.Four (rr : Rr) : Prop := rr.IsAddress ∧ rr.dsz = 4

instance (rr : Rr) : Decidable rr.Four := inferInstanceAs (Decidable (_ ∧ _))

theorem nextrr_skip (h : readRr pkt cur = some rr) (ha : ¬ rr.IsAddress) :
    nextrr pkt classIn typeA (rrl + 1) cur = nextrr pkt classIn typeA rrl rr.dend := by
  rw [nextrr, h]
  apply if_neg
  rintro ⟨hcls | hcls, htyp | htyp⟩
  · cases hcls
  · cases hcls
  · cases htyp
  · exact ha ⟨hcls.symm, htyp.symm⟩

theorem nextrr_take (h : readRr pkt cur = some rr) (ha : rr.IsAddress) :
    nextrr pkt classIn typeA (rrl + 1) cur = .record rr rrl := by
  rw [nextrr, h]
  exact if_pos ⟨.inr ha.1.symm, .inr ha.2.symm⟩

/-- Where the records are all whole, the second loop takes the first that will do. -/
theorem pick_spec (h : answers pkt rrl cur = some rrs) (hturns : rrl < turns) :
    pick pkt classIn typeA turns rrl cur =
      .ok ((rrs.find? (·.Four)).map fun rr => dotted pkt rr.dptr) := by
  induction rrl generalizing cur turns rrs with
  | zero =>
    obtain ⟨turns, rfl⟩ : ∃ n, turns = n + 1 := ⟨turns - 1, by omega⟩
    cases h
    rfl
  | succ rrl ih =>
    obtain ⟨turns, rfl⟩ : ∃ n, turns = n + 1 := ⟨turns - 1, by omega⟩
    rw [answers] at h
    cases hrr : readRr pkt cur with
    | none =>
      rw [hrr] at h
      cases h
    | some rr =>
      rw [hrr] at h
      obtain ⟨rest, hrest, rfl⟩ := Option.map_eq_some_iff.mp h
      by_cases ha : rr.IsAddress
      · rw [pick, nextrr_take hrr ha]
        dsimp only
        split_ifs with hd
        · rw [List.find?_cons_of_pos (by simpa using ⟨ha, hd⟩)]
          rfl
        · rw [List.find?_cons_of_neg (by simpa using fun h : rr.Four => hd h.2)]
          exact ih hrest (by omega)
      · have hskip : pick pkt classIn typeA (turns + 1) (rrl + 1) cur =
            pick pkt classIn typeA (turns + 1) rrl rr.dend := by
          rw [pick, nextrr_skip hrr ha, pick]
        rw [hskip, List.find?_cons_of_neg (by simpa using fun h : rr.Four => ha h.1)]
        exact ih hrest (by omega)

/-- The address in a reply to a name: its records are all whole, the name leads to an address,
and `ip` is the first that has four bytes. -/
def Reply.Address (reply : Reply) (ip : Bytes) : Prop :=
  ∃ dn cur rrs rr, getdn reply.pkt headerSize = some (dn, cur) ∧
    answers reply.pkt (numan reply.pkt) (cur + 4) = some rrs ∧ Leads reply.pkt dn rrs ∧
    rrs.find? (·.Four) = some rr ∧ ip = dotted reply.pkt rr.dptr

variable {reply : Reply} {ip : Bytes}

theorem Reply.address_iff (hdn : getdn reply.pkt headerSize = some (dn, cur)) :
    reply.Address ip ↔ ∃ rrs rr, answers reply.pkt (numan reply.pkt) (cur + 4) = some rrs ∧
      Leads reply.pkt dn rrs ∧ rrs.find? (·.Four) = some rr ∧ ip = dotted reply.pkt rr.dptr := by
  constructor
  · rintro ⟨dn', cur', rrs, rr, hdn', h⟩
    rw [hdn, Option.some.injEq, Prod.mk.injEq] at hdn'
    obtain ⟨rfl, rfl⟩ := hdn'
    exact ⟨rrs, rr, h⟩
  · rintro ⟨rrs, rr, h⟩
    exact ⟨dn, cur, rrs, rr, hdn, h⟩

/-- An error of the first loop, or no address there, ends `dnscb` without a call. -/
theorem calls_dnscb_none (hdn : getdn reply.pkt headerSize = some (dn, cur))
    (hcur : cur + 4 ≤ reply.pkt.length)
    (h : ¬ ∃ rrs, answers reply.pkt (numan reply.pkt) (cur + 4) = some rrs ∧
      Leads reply.pkt dn rrs) :
    (dnscb typeA (some reply)).map calls = .ok [] := by
  obtain ⟨hle, hscan⟩ := scan_spec reply.pkt (numan reply.pkt) (cur + 4) dn 0
  simp only [ne_eq, not_true_eq_false, false_or] at hscan
  rw [dnscb, hdn]
  dsimp only
  rw [if_neg (by omega)]
  generalize scan reply.pkt typeA (numan reply.pkt + 1) (numan reply.pkt) (cur + 4) dn 0 = s
    at hle hscan ⊢
  have hbad : ¬ (s.1 = 0 ∧ ¬ s.2 = 0) := fun hs => h (hscan.mp hs)
  have hr : (if s.1 = 0 ∧ s.2 = 0 then eNodata else s.1) < 0 := by
    split_ifs with hnodata
    · decide
    · omega
  rw [if_pos hr]
  rfl

/-- Where the name leads to an address, `dnscb` calls back if a record has four bytes. -/
theorem calls_dnscb (hdn : getdn reply.pkt headerSize = some (dn, cur))
    (hcur : cur + 4 ≤ reply.pkt.length)
    (hrrs : answers reply.pkt (numan reply.pkt) (cur + 4) = some rrs)
    (hleads : Leads reply.pkt dn rrs) :
    (dnscb typeA (some reply)).map calls =
      .ok ((rrs.find? (·.Four)).map fun rr => some (dotted reply.pkt rr.dptr)).toList := by
  obtain ⟨-, hscan⟩ := scan_spec reply.pkt (numan reply.pkt) (cur + 4) dn 0
  obtain ⟨hr, hnrr⟩ := hscan.mpr ⟨rrs, hrrs, .inr hleads⟩
  have hpick := pick_spec hrrs (Nat.lt_succ_self _)
  have htyp : (if typeA = typeAny then 0 else typeA) = typeA := by decide
  have hcls : (if qcls = classAny then 0 else qcls) = classIn := by decide
  rw [dnscb, hdn]
  dsimp only
  rw [if_neg (by omega), if_neg (by rw [if_neg (fun h => hnrr h.2), hr]; decide), htyp, hcls,
    hpick]
  cases rrs.find? (·.Four) <;> rfl

/-- `dnscb` calls back once with the address of the reply, and else not at all. -/
theorem dnscb_spec (reply : Reply) :
    (∃ ip, (∀ ip', reply.Address ip' ↔ ip' = ip) ∧
      (dnscb typeA (some reply)).map calls = .ok [some ip]) ∨
    (∀ ip, ¬ reply.Address ip) ∧ (dnscb typeA (some reply)).map calls = .ok [] := by
  obtain ⟨⟨dn, cur⟩, hdn, hcur⟩ := reply.asked
  by_cases hgood : ∃ rrs, answers reply.pkt (numan reply.pkt) (cur + 4) = some rrs ∧
      Leads reply.pkt dn rrs
  · obtain ⟨rrs, hrrs, hleads⟩ := hgood
    have haddress (ip : Bytes) : reply.Address ip ↔
        ∃ rr, rrs.find? (·.Four) = some rr ∧ ip = dotted reply.pkt rr.dptr := by
      rw [reply.address_iff hdn, hrrs]
      simp [hleads]
    have hcalls := calls_dnscb hdn hcur hrrs hleads
    cases hfind : rrs.find? (·.Four) with
    | none =>
      rw [hfind] at hcalls
      refine .inr ⟨fun ip hip => ?_, hcalls⟩
      obtain ⟨rr, hrr, -⟩ := (haddress ip).mp hip
      rw [hfind] at hrr
      cases hrr
    | some rr =>
      rw [hfind] at hcalls
      refine .inl ⟨dotted reply.pkt rr.dptr, fun ip => ?_, hcalls⟩
      rw [haddress, hfind]
      simp
  · refine .inr ⟨fun ip hip => hgood ?_, calls_dnscb_none hdn hcur hgood⟩
    obtain ⟨rrs, rr, hrrs, hleads, -⟩ := (reply.address_iff hdn).mp hip
    exact ⟨rrs, hrrs, hleads⟩

end ApeServer.Dns
