import ApeServer.Sock.Bufout

/-!
# Domain names

`udns_dn.c` and `dns_getdn`. A name is its labels, each behind its length, up to a zero length.
A buffer being filled is what has been put in it so far, with `none` for a byte skipped.
-/
namespace ApeServer.Dns

open Sock (Bytes)

def maxDn : ℕ := 255
def maxLabel : ℕ := 63
def headerSize : ℕ := 12

/-! ### Reading a name in memory -/

/-- `dns_dnlen` with `skip` bytes of a label to go, `none` where it leaves the memory. -/
def dnlenFrom : ℕ → Bytes → Option ℕ
  | _, [] => none
  | skip + 1, _ :: dn => (dnlenFrom skip dn).map (· + 1)
  | 0, c :: dn => if c = 0 then some 1 else (dnlenFrom c.toNat dn).map (· + 1)

def dnlen (dn : Bytes) : Option ℕ := dnlenFrom 0 dn

/-- `DNS_DNLC` -/
def dnlc (c : UInt8) : UInt8 := if 65 ≤ c ∧ c ≤ 90 then c - 65 + 97 else c

/-- `dns_dnequal` with `c` bytes of a label to go. -/
def dnequalFrom : ℕ → Bytes → Bytes → Bool
  | c + 1, a :: dn₁, b :: dn₂ => if dnlc a ≠ dnlc b then false else dnequalFrom c dn₁ dn₂
  | 0, c :: dn₁, b :: dn₂ =>
    if c ≠ b then false else if c = 0 then true else dnequalFrom c.toNat dn₁ dn₂
  | _, _, _ => false

def dnequal (dn₁ dn₂ : Bytes) : Bool := dnequalFrom 0 dn₁ dn₂

/-- `dns_dntodn` into a buffer of `DNS_MAXDN` bytes that holds `ddn`. -/
def dntodn (sdn ddn : Bytes) : Bytes :=
  match dnlen sdn with
  | some sdnlen => if maxDn < sdnlen then ddn else sdn.take sdnlen
  | none => ddn

/-! ### From text -/

/-- What `dns_ptodn` leaves: the buffer, its result and `isabs`. -/
structure Ptodn where
  dn : List (Option UInt8)
  r : ℤ
  isabs : Bool
deriving DecidableEq, Repr

def isDigit (c : UInt8) : Bool := 48 ≤ c && c ≤ 57

/-- What stands behind a backslash: the byte, and how many characters it takes. -/
def escape : Bytes → Option (UInt8 × ℕ)
  | [] => none
  | d :: np =>
    if isDigit d = false then some (d, 1)
    else
      let c := d.toNat - 48
      match np with
      | [] => some (UInt8.ofNat c, 1)
      | e :: np =>
        if isDigit e = false then some (UInt8.ofNat c, 1)
        else
          let c := c * 10 + (e.toNat - 48)
          match np with
          | [] => some (UInt8.ofNat c, 2)
          | f :: _ =>
            if isDigit f = false then some (UInt8.ofNat c, 2)
            else
              let c := c * 10 + (f.toNat - 48)
              if 255 < c then none else some (UInt8.ofNat c, 3)

def ptodnFail (dn : List (Option UInt8)) : Ptodn := { dn, r := -1, isabs := false }

/-- Behind the loop of `dns_ptodn`, with the last label from `llab` on. -/
def ptodnEnd (dn : List (Option UInt8)) (llab : ℕ) : Ptodn :=
  let c := dn.length - llab
  if maxLabel < c then ptodnFail dn
  else if c ≠ 0 then
    { dn := dn.set (llab - 1) (some (UInt8.ofNat c)) ++ [some 0], r := dn.length + 1,
      isabs := false }
  else { dn := dn.set (llab - 1) (some 0), r := dn.length, isabs := true }

/-- The loop of `dns_ptodn`, with `skip` characters of an escape behind `np`. -/
def ptodnLoop (name : Bytes) : ℕ → List (Option UInt8) → ℕ → Bytes → Ptodn
  | _, dn, llab, [] => ptodnEnd dn llab
  | skip + 1, dn, llab, _ :: np => ptodnLoop name skip dn llab np
  | 0, dn, llab, b :: np =>
    if b = 46 then
      let c := dn.length - llab
      if c = 0 then
        -- the root alone may have an empty label
        if b :: np = name ∧ np = [] then ptodnEnd dn llab else ptodnFail dn
      else if maxLabel < c then ptodnFail dn
      else
        ptodnLoop name 0 (dn.set (llab - 1) (some (UInt8.ofNat c)) ++ [none]) (dn.length + 1) np
    else if maxDn - 1 ≤ dn.length then ptodnFail dn
    else if b ≠ 92 then ptodnLoop name 0 (dn ++ [some b]) llab np
    else
      match escape np with
      | none => ptodnFail dn
      | some (c, used) => ptodnLoop name used (dn ++ [some c]) llab np

/-- `dns_ptodn` into a buffer of `DNS_MAXDN` bytes. -/
def ptodn (name : Bytes) : Ptodn := ptodnLoop name 0 [none] 1 name

/-- A buffer of `DNS_MAXDN` bytes with what it holds. -/
abbrev Buffer := { stack : Bytes // stack.length = maxDn }

/-- The buffer once `dn` is put in it: a byte skipped stays what it was. -/
def Buffer.put (stack : Buffer) (dn : List (Option UInt8)) : Bytes :=
  stack.val.mapIdx fun i b => (dn[i]?.join).getD b

/-! ### From a packet -/

/-- The loop of `dns_getdn`. The room for the terminator is checked with `dn` in place of
`dp`, so that a name may take a byte more than the buffer has; it is kept here. -/
def getdnLoop (pkt : Bytes) : ℕ → ℕ → Option ℕ → ℕ → Bytes → Option (Bytes × ℕ)
  | 0, _, _, _, _ => none
  | turns + 1, pp, jump, loop, dn =>
    match pkt[pp]? with
    | none => none
    | some c =>
      if c = 0 then some (dn ++ [0], jump.getD (pp + 1))
      else if c.toNat &&& 192 ≠ 0 then
        match pkt[pp + 1]? with
        | none => none
        | some b =>
          let pos := ((c.toNat &&& 63) <<< 8) ||| b.toNat
          match jump with
          | none =>
            if pos < headerSize then none else getdnLoop pkt turns pos (some (pp + 2)) loop dn
          | some _ =>
            if loop - 1 = 0 then none
            else if pos < headerSize then none
            else getdnLoop pkt turns pos jump (loop - 1) dn
      else if maxLabel < c.toNat then none
      else if pkt.length < pp + 1 + c.toNat then none
      else if maxDn < dn.length + c.toNat + 1 then none
      else
        getdnLoop pkt turns (pp + 1 + c.toNat) jump loop
          (dn ++ c :: (pkt.drop (pp + 1)).take c.toNat)

/-- What every turn of `dns_getdn` that goes on makes smaller. -/
def getdnLeft (jump : Option ℕ) (loop : ℕ) (dn : Bytes) : ℕ :=
  loop + (if jump = none then 1 else 0) + (maxDn + 1 - dn.length)

/-- `dns_getdn` into a buffer of `DNS_MAXDN` bytes: the name, and where it ends. -/
def getdn (pkt : Bytes) (cur : ℕ) : Option (Bytes × ℕ) :=
  getdnLoop pkt (getdnLeft none 100 [] + 1) cur none 100 []

/-! ### What the functions do -/

variable {name np labels lab nm : Bytes} {dn : List (Option UInt8)} {skip llab : ℕ}

/-- Whole labels, which `dns_dnlen` steps over. -/
def Labels (labels : Bytes) : Prop :=
  ∀ rest, dnlenFrom 0 (labels ++ rest) = (dnlenFrom 0 rest).map (· + labels.length)

theorem labels_nil : Labels [] := by
  intro rest
  simp

theorem dnlenFrom_label (lab rest : Bytes) :
    dnlenFrom lab.length (lab ++ rest) = (dnlenFrom 0 rest).map (· + lab.length) := by
  induction lab with
  | nil => simp
  | cons b lab ih =>
    have hskip : dnlenFrom (b :: lab).length (b :: lab ++ rest) =
        (dnlenFrom lab.length (lab ++ rest)).map (· + 1) := rfl
    rw [hskip, ih, Option.map_map]
    rfl

theorem Labels.snoc (h : Labels labels) (hne : lab ≠ []) (hlab : lab.length ≤ maxLabel) :
    Labels (labels ++ UInt8.ofNat lab.length :: lab) := by
  intro rest
  have hpos : 0 < lab.length := List.length_pos_iff.mpr hne
  have hc : (UInt8.ofNat lab.length).toNat = lab.length := by
    rw [UInt8.toNat_ofNat']
    exact Nat.mod_eq_of_lt (by unfold maxLabel at hlab; omega)
  have hc0 : UInt8.ofNat lab.length ≠ 0 := by
    intro he
    rw [he] at hc
    exact absurd hc (by simpa using hpos.ne)
  have hlen : dnlenFrom 0 (UInt8.ofNat lab.length :: (lab ++ rest)) =
      (dnlenFrom lab.length (lab ++ rest)).map (· + 1) := by
    rw [dnlenFrom, if_neg hc0, hc]
  rw [List.append_assoc, h, List.cons_append, hlen, dnlenFrom_label, Option.map_map,
    Option.map_map]
  congr 1
  funext n
  simp only [Function.comp_apply, List.length_append, List.length_cons]
  omega

/-- The buffer in the loop of `dns_ptodn`: whole labels, the length still to come of the last
one, and what there is of it. -/
structure Filling (dn : List (Option UInt8)) (llab : ℕ) (labels lab : Bytes) : Prop where
  dn_eq : dn = labels.map some ++ none :: lab.map some
  llab_eq : llab = labels.length + 1
  whole : Labels labels
  room : dn.length ≤ maxDn - 1 ∨ lab = [] ∧ dn.length = maxDn

theorem filling_empty : Filling [none] 1 [] [] :=
  ⟨rfl, rfl, labels_nil, .inl (by decide)⟩

theorem Filling.length (h : Filling dn llab labels lab) :
    dn.length = llab + lab.length := by
  rw [h.dn_eq, h.llab_eq]
  simp
  omega

theorem Filling.set (h : Filling dn llab labels lab) (c : UInt8) :
    dn.set (llab - 1) (some c) = (labels ++ c :: lab).map some := by
  rw [h.dn_eq, h.llab_eq, Nat.add_sub_cancel, List.set_append_right _ _ (by simp)]
  simp

/-- A name put whole. -/
structure Named (p : Ptodn) (nm : Bytes) : Prop where
  dn_eq : p.dn = nm.map some
  r_eq : p.r = nm.length
  room : nm.length ≤ maxDn
  ends : ∀ rest, dnlen (nm ++ rest) = some nm.length

theorem Filling.ends (h : Filling dn llab labels lab) :
    ptodnEnd dn llab = ptodnFail dn ∨ ∃ nm, Named (ptodnEnd dn llab) nm := by
  have hlen := h.length
  have hsub : dn.length - llab = lab.length := by omega
  unfold ptodnEnd
  simp only [hsub, h.set]
  split_ifs with hlong hc
  · exact .inl rfl
  · refine .inr ⟨labels ++ UInt8.ofNat lab.length :: lab ++ [0], ?_⟩
    have hne : lab ≠ [] := List.ne_nil_of_length_pos (by omega)
    have hl := h.whole.snoc hne (by omega)
    have hlen' : (labels ++ UInt8.ofNat lab.length :: lab).length = dn.length := by
      rw [hlen, h.llab_eq]
      simp
      omega
    constructor
    · simp
    · rw [List.length_append, hlen']
      simp
    · rw [List.length_append, hlen']
      rcases h.room with hr | ⟨rfl, -⟩
      · unfold maxDn at hr ⊢
        simp
        omega
      · exact absurd rfl hc
    · intro rest
      rw [dnlen, List.append_assoc, hl]
      simp [dnlenFrom]
      omega
  · refine .inr ⟨labels ++ [0], ?_⟩
    have hnil : lab = [] := List.eq_nil_of_length_eq_zero (by omega)
    subst hnil
    have hlen' : (labels ++ [(0 : UInt8)]).length = dn.length := by
      rw [hlen, h.llab_eq]
      simp
    constructor
    · rfl
    · rw [hlen']
    · rw [hlen']
      rcases h.room with hr | ⟨-, hr⟩ <;> unfold maxDn at * <;> omega
    · intro rest
      rw [dnlen, List.append_assoc, h.whole]
      simp [dnlenFrom]
      omega

theorem Filling.byte (h : Filling dn llab labels lab) (hroom : dn.length < maxDn - 1) (c : UInt8) :
    Filling (dn ++ [some c]) llab labels (lab ++ [c]) := by
  constructor
  · rw [h.dn_eq]
    simp
  · exact h.llab_eq
  · exact h.whole
  · left
    rw [List.length_append, List.length_singleton]
    omega

theorem Filling.dot (h : Filling dn llab labels lab) (hne : lab ≠ [])
    (hlab : lab.length ≤ maxLabel) :
    Filling (dn.set (llab - 1) (some (UInt8.ofNat lab.length)) ++ [none]) (dn.length + 1)
      (labels ++ UInt8.ofNat lab.length :: lab) [] := by
  constructor
  · rw [h.set]
    simp
  · rw [h.length, h.llab_eq]
    simp
    omega
  · exact h.whole.snoc hne hlab
  · rw [List.length_append, List.length_set, List.length_singleton]
    rcases h.room with hr | ⟨hnil, -⟩
    · unfold maxDn at hr ⊢
      by_cases hfull : dn.length = 254
      · exact .inr ⟨rfl, by omega⟩
      · left
        omega
    · exact absurd hnil hne

theorem ptodnLoop_spec (h : Filling dn llab labels lab) :
    (ptodnLoop name skip dn llab np).r = -1 ∨ ∃ nm, Named (ptodnLoop name skip dn llab np) nm := by
  have hend {dn labels lab} {llab : ℕ} (h : Filling dn llab labels lab) :
      (ptodnEnd dn llab).r = -1 ∨ ∃ nm, Named (ptodnEnd dn llab) nm := by
    rcases h.ends with hfail | hnm
    · rw [hfail]
      exact .inl rfl
    · exact .inr hnm
  induction np generalizing skip dn llab labels lab with
  | nil =>
    cases skip <;> exact hend h
  | cons b np ih =>
    cases skip with
    | succ skip => exact ih h
    | zero =>
      have hsub : dn.length - llab = lab.length := by have := h.length; omega
      unfold ptodnLoop
      simp only [hsub]
      split_ifs with hdot hc hroot hlong hfull hslash
      · exact hend h
      · exact .inl rfl
      · exact .inl rfl
      · exact ih (h.dot (by rintro rfl; exact hc rfl) (by omega))
      · exact .inl rfl
      · exact ih (h.byte (by omega) b)
      · split
        · exact .inl rfl
        · exact ih (h.byte (by omega) _)

/-- `dns_ptodn` fails, or has put a name whole. -/
theorem ptodn_spec (name : Bytes) : (ptodn name).r = -1 ∨ ∃ nm, Named (ptodn name) nm :=
  ptodnLoop_spec filling_empty

theorem Named.pos {p : Ptodn} (h : Named p nm) : 0 < p.r := by
  have hne : nm ≠ [] := by
    rintro rfl
    exact absurd (h.ends []) (by decide)
  rw [h.r_eq]
  exact_mod_cast List.length_pos_iff.mpr hne

theorem ptodn_named (h : 0 < (ptodn name).r) : ∃ nm, Named (ptodn name) nm := by
  rcases ptodn_spec name with hr | hnm
  · omega
  · exact hnm

theorem Buffer.put_map (stack : Buffer) (h : nm.length ≤ maxDn) :
    stack.put (nm.map some) = nm ++ stack.val.drop nm.length := by
  have hsize := stack.property
  apply List.ext_getElem?
  intro i
  rw [Buffer.put, List.getElem?_mapIdx]
  by_cases hi : i < nm.length
  · rw [List.getElem?_append_left hi, List.getElem?_map, List.getElem?_eq_getElem hi,
      List.getElem?_eq_getElem (by omega)]
    rfl
  · rw [List.getElem?_append_right (by omega), List.getElem?_drop, List.getElem?_map,
      List.getElem?_eq_none (by omega : nm.length ≤ i),
      (by omega : nm.length + (i - nm.length) = i)]
    simp

/-! ### The turns of `dns_getdn` -/

theorem getdnLoop_succ {pkt : Bytes} {turns pp loop : ℕ} {jump : Option ℕ} {nm : Bytes}
    (h : getdnLeft jump loop nm < turns) :
    getdnLoop pkt (turns + 1) pp jump loop nm = getdnLoop pkt turns pp jump loop nm := by
  induction turns generalizing pp jump loop nm with
  | zero => omega
  | succ turns ih =>
    rw [getdnLoop]
    conv_rhs => rw [getdnLoop]
    cases hc : pkt[pp]? with
    | none => rfl
    | some c =>
      dsimp only
      by_cases hzero : c = 0
      · rw [if_pos hzero, if_pos hzero]
      rw [if_neg hzero, if_neg hzero]
      by_cases hjump : c.toNat &&& 192 ≠ 0
      · rw [if_pos hjump, if_pos hjump]
        cases pkt[pp + 1]? with
        | none => rfl
        | some b =>
          cases jump with
          | none =>
            dsimp only
            split_ifs
            · rfl
            · apply ih
              simp only [getdnLeft, reduceCtorEq, if_true, if_false] at h ⊢
              omega
          | some j =>
            dsimp only
            split_ifs with hloop hpos
            · rfl
            · rfl
            · apply ih
              simp only [getdnLeft, reduceCtorEq, if_false] at h ⊢
              omega
      · rw [if_neg hjump, if_neg hjump]
        split_ifs
        · rfl
        · rfl
        · rfl
        · apply ih
          simp only [getdnLeft, List.length_append, List.length_cons] at h ⊢
          omega

/-- The turns `getdn` gives the loop are enough: any more of them change nothing. -/
theorem getdn_total (pkt : Bytes) (cur more : ℕ) :
    getdnLoop pkt (getdnLeft none 100 [] + 1 + more) cur none 100 [] = getdn pkt cur := by
  induction more with
  | zero => rfl
  | succ more ih =>
    rw [← ih]
    have hturns : getdnLeft none 100 [] < getdnLeft none 100 [] + 1 + more := by omega
    exact getdnLoop_succ hturns

end ApeServer.Dns
