import ApeServer.Http.ProcessHttp
import ApeServer.Lib.CharArray
import ApeServer.Lib.Steps

/-!
# A header line in its arrays

`parse_header_line` with its one index over the line and the two arrays it writes to. It
writes inside of them only, and they hold the texts of `parseHeaderLine`.
-/
namespace ApeServer.Http

open Sock (Bytes)
open Steps (ok_bind)

/-- What a read or a write of `parse_header_line` must not do. -/
inductive LineFault where
  /-- a write outside of an array -/
  | write
  /-- a read behind the terminator of the line -/
  | read
  /-- the use of a line that is not allocated -/
  | null
  /-- the loop is still running -/
  | loops
deriving DecidableEq, Repr

/-- `struct _http_header_line` in memory. -/
structure Hline where
  key : CharArray 64
  value : CharArray 1024

namespace Hline

/-- What `xmalloc` gives, with both lengths 0. -/
def new : Hline := ⟨.empty 64, .empty 1024⟩

def pushKey (h : Hline) (b : UInt8) : Except LineFault Hline :=
  match h.key.push b with
  | some key => .ok { h with key := key }
  | none => .error .write

def endKey (h : Hline) : Except LineFault Hline :=
  match h.key.terminate with
  | some key => .ok { h with key := key }
  | none => .error .write

def pushValue (h : Hline) (b : UInt8) : Except LineFault Hline :=
  match h.value.push b with
  | some value => .ok { h with value := value }
  | none => .error .write

def endValue (h : Hline) : Except LineFault Hline :=
  match h.value.terminate with
  | some value => .ok { h with value := value }
  | none => .error .write

/-- `line[i]` -/
def charAt (line : Bytes) (i : ℕ) : Except LineFault UInt8 :=
  match line.drop i with
  | b :: _ => .ok b
  | [] => if i = line.length then .ok 0 else .error .read

def deref : Option Hline → Except LineFault Hline
  | some h => .ok h
  | none => .error .null

/-- The condition of state 0, read from the left. -/
def refuses (line : Bytes) (i : ℕ) (b : UInt8) : Except LineFault Bool :=
  if i = 0 ∧ (b = colon ∨ b = space) then .ok true
  else if b = colon then do
    let next ← charAt line (i + 1)
    return next ≠ space || 63 < i
  else .ok (63 < i)

/-- What follows the loop; `state` says that it is 1. -/
def finish (state : Bool) (hline : Option Hline) : Except LineFault (Option Hline) :=
  if state then do return some (← (← deref hline).endValue) else .ok none

/-- The loop at index `i`. -/
def loop (line : Bytes) : ℕ → ℕ → Bool → Option Hline → Except LineFault (Option Hline)
  | 0, _, _, _ => .error .loops
  | fuel + 1, i, state, hline =>
    if 1024 ≤ i then finish state hline
    else do
      let b ← charAt line i
      if isEnd b then finish state hline
      else
        let hline := if i = 0 then some new else hline
        if state then do
          let h ← (← deref hline).pushValue b
          loop line fuel (i + 1) true (some h)
        else do
          if ← refuses line i b then return none
          else if b = colon then
            let h ← (← deref hline).endKey
            -- the space behind the colon is skipped
            loop line fuel (i + 2) true (some h)
          else
            let h ← (← deref hline).pushKey b
            loop line fuel (i + 1) false (some h)

def parseHeaderLine (line : Bytes) : Except LineFault (Option Hline) :=
  loop line 1025 0 false none

/-- The arrays hold the texts of a line. -/
structure Spells (h : Hline) (l : HeaderLine) : Prop where
  key : h.key.text = some l.key
  keyLen : h.key.len = l.key.length
  value : h.value.text = some l.value
  valueLen : h.value.len = l.value.length

/-! ### The two states -/

variable {line key value rest : Bytes} {i fuel : ℕ} {b : UInt8} {h h' : Hline}

theorem charAt_drop (hi : i ≤ line.length) : charAt line i = .ok ((line.drop i).headD 0) := by
  unfold charAt
  cases hrest : line.drop i with
  | nil =>
    have hge := List.drop_eq_nil_iff.mp hrest
    dsimp only
    rw [if_pos (by omega), List.headD_nil]
  | cons b rest => rfl

theorem not_isEnd_zero (hb : ¬isEnd b) : b ≠ 0 := by
  rintro rfl
  exact hb (by decide)

theorem pushKey_spec (hk : h.key.Holds key) (hn : key.length < 64) (b : UInt8) :
    ∃ h', h.pushKey b = .ok h' ∧ h'.key.Holds (key ++ [b]) ∧ h'.value = h.value := by
  obtain ⟨a, ha, hold⟩ := hk.push hn b
  exact ⟨{ h with key := a }, by rw [pushKey, ha], hold, rfl⟩

theorem endKey_spec (hk : h.key.Holds key) (h0 : 0 ∉ key) (hn : key.length < 64) :
    ∃ h', h.endKey = .ok h' ∧ h'.key.text = some key ∧ h'.key.len = key.length ∧
      h'.value = h.value := by
  obtain ⟨a, ha, htext, hlen⟩ := hk.terminate h0 hn
  exact ⟨{ h with key := a }, by rw [endKey, ha], htext, hlen, rfl⟩

theorem pushValue_spec (hv : h.value.Holds value) (hn : value.length < 1024) (b : UInt8) :
    ∃ h', h.pushValue b = .ok h' ∧ h'.value.Holds (value ++ [b]) ∧ h'.key = h.key := by
  obtain ⟨a, ha, hold⟩ := hv.push hn b
  exact ⟨{ h with value := a }, by rw [pushValue, ha], hold, rfl⟩

theorem endValue_spec (hv : h.value.Holds value) (h0 : 0 ∉ value) (hn : value.length < 1024) :
    ∃ h', h.endValue = .ok h' ∧ h'.value.text = some value ∧ h'.value.len = value.length ∧
      h'.key = h.key := by
  obtain ⟨a, ha, htext, hlen⟩ := hv.terminate h0 hn
  exact ⟨{ h with value := a }, by rw [endValue, ha], htext, hlen, rfl⟩

/-- The first bytes of a text and the byte behind them. -/
theorem drop_succ (hrest : line.drop i = b :: rest) :
    line.drop (i + 1) = rest ∧ i < line.length := by
  constructor
  · rw [← List.tail_drop, hrest, List.tail_cons]
  · by_contra hge
    rw [List.drop_eq_nil_of_le (by omega)] at hrest
    cases hrest

/-- State 1: the value is two bytes behind the index at least, so there is room for it. -/
theorem loop_value (hv : h.value.Holds value) (h0 : 0 ∉ value) (hroom : value.length + 2 ≤ i)
    (hi : i ≤ 1024) (hline : i ≤ line.length) (hf : 1025 ≤ i + fuel) :
    ∃ h' v, loop line fuel i true (some h) = .ok (some h') ∧
      v = value ++ ((line.drop i).take (1024 - i)).takeWhile (! isEnd ·) ∧
      h'.value.text = some v ∧ h'.value.len = v.length ∧ h'.key = h.key := by
  induction fuel generalizing i h value with
  | zero => omega
  | succ fuel ih =>
    rw [loop]
    have hfinish : finish true (some h) = (do return some (← h.endValue)) := rfl
    obtain ⟨h', hend, htext, hlen, hkey⟩ := endValue_spec hv h0 (by omega)
    by_cases hlast : 1024 ≤ i
    · rw [if_pos hlast, hfinish, hend]
      have hz : 1024 - i = 0 := by omega
      exact ⟨h', value, rfl, by simp [hz], htext, hlen, hkey⟩
    · rw [if_neg hlast, charAt_drop hline, ok_bind]
      obtain ⟨m, hm⟩ : ∃ m, 1024 - i = m + 1 := ⟨1024 - i - 1, by omega⟩
      cases hrest : line.drop i with
      | nil =>
        rw [List.headD_nil, if_pos (by decide), hfinish, hend]
        exact ⟨h', value, rfl, by simp, htext, hlen, hkey⟩
      | cons b rest =>
        rw [List.headD_cons, hm, List.take_succ_cons]
        by_cases hb : isEnd b
        · rw [if_pos hb, hfinish, hend]
          exact ⟨h', value, rfl, by simp [hb], htext, hlen, hkey⟩
        · obtain ⟨hnext, hlt⟩ := drop_succ hrest
          obtain ⟨hp, hpush, hhold, hpkey⟩ := pushValue_spec hv (by omega) b
          rw [if_neg hb]
          dsimp only
          rw [if_neg (by omega : ¬i = 0), if_pos rfl, deref, ok_bind, hpush, ok_bind]
          obtain ⟨h'', v, hloop, hveq, ht, hl, hk⟩ := ih (i := i + 1) hhold
            (by simp [h0, (not_isEnd_zero hb).symm])
            (by rw [List.length_append, List.length_singleton]; omega) (by omega) (by omega)
            (by omega)
          refine ⟨h'', v, hloop, ?_, ht, hl, hk.trans hpkey⟩
          rw [hveq, hnext, show 1024 - (i + 1) = m by omega,
            List.takeWhile_cons_of_pos (by simpa using hb), List.append_assoc, List.singleton_append]

/-- The result of the arrays next to the result of the texts. -/
def Agree : Option Hline → Option HeaderLine → Prop
  | some h, some l => h.Spells l
  | none, none => True
  | _, _ => False

theorem refuses_eq (hrest : line.drop i = b :: rest) : refuses line i b =
    .ok (decide ((i = 0 ∧ (b = colon ∨ b = space)) ∨ (b = colon ∧ rest.headD 0 ≠ space) ∨
      63 < i)) := by
  obtain ⟨hnext, hlt⟩ := drop_succ hrest
  unfold refuses
  by_cases hfirst : i = 0 ∧ (b = colon ∨ b = space)
  · rw [if_pos hfirst, decide_eq_true (.inl hfirst)]
  · by_cases hb : b = colon
    · have hiff : decide ((i = 0 ∧ (b = colon ∨ b = space)) ∨
          (b = colon ∧ rest.headD 0 ≠ space) ∨ 63 < i) =
          (decide (rest.headD 0 ≠ space) || decide (63 < i)) := by
        rw [← Bool.decide_or, decide_eq_decide]
        tauto
      rw [if_neg hfirst, if_pos hb, charAt_drop (by omega), hnext, ok_bind, hiff]
      rfl
    · have hiff : ((i = 0 ∧ (b = colon ∨ b = space)) ∨
          (b = colon ∧ rest.headD 0 ≠ space) ∨ 63 < i) ↔ 63 < i := by tauto
      rw [if_neg hfirst, if_neg hb, decide_eq_decide.mpr hiff]

/-- State 0 reads what `parseKey` reads. -/
theorem loop_key {hline : Option Hline} (hh : (if i = 0 then some new else hline) = some h)
    (hk : h.key.Holds key) (hv : h.value = .empty 1024) (hlen : key.length = i) (h0 : 0 ∉ key)
    (hi : i ≤ 64) (hin : i ≤ line.length) (hf : 1025 ≤ i + fuel) :
    ∃ r, loop line fuel i false hline = .ok r ∧ Agree r (parseKey i key (line.drop i)) := by
  induction fuel generalizing i h hline key with
  | zero => omega
  | succ fuel ih =>
    rw [loop, if_neg (by omega), charAt_drop hin, ok_bind]
    cases hrest : line.drop i with
    | nil =>
      rw [List.headD_nil, if_pos (by decide)]
      exact ⟨none, rfl, trivial⟩
    | cons b rest =>
      obtain ⟨hnext, hlt⟩ := drop_succ hrest
      rw [List.headD_cons, parseKey]
      by_cases hb : isEnd b
      · rw [if_pos hb, if_pos (.inr hb)]
        exact ⟨none, rfl, trivial⟩
      · have hgo : ¬(1024 ≤ i ∨ isEnd b) := by
          rintro (hge | he)
          · omega
          · exact hb he
        rw [if_neg hb, if_neg hgo, hh, if_neg (by decide), refuses_eq hrest, ok_bind]
        by_cases href : (i = 0 ∧ (b = colon ∨ b = space)) ∨
            (b = colon ∧ rest.headD 0 ≠ space) ∨ 63 < i
        · rw [if_pos (by simpa using href), if_pos href]
          exact ⟨none, rfl, trivial⟩
        · rw [if_neg (by simpa using href), if_neg href]
          by_cases hcolon : b = colon
          · obtain ⟨hk', hend, htext, hklen, hval⟩ := endKey_spec hk h0 (by omega)
            have hspace : rest.headD 0 = space := by
              by_contra hne
              exact href (.inr (.inl ⟨hcolon, hne⟩))
            obtain ⟨rest, rfl⟩ : ∃ r, rest = space :: r := by
              cases rest with
              | nil => cases hspace
              | cons c r => exact ⟨r, by rw [← hspace, List.headD_cons]⟩
            obtain ⟨hnext', hlt'⟩ := drop_succ hnext
            have hnil : hk'.value.Holds [] := by
              rw [hval, hv]
              exact CharArray.holds_empty
            obtain ⟨h', v, hloop, hveq, hvtext, hvlen, hkey⟩ := loop_value (i := i + 2) hnil
              (by simp) (by rw [List.length_nil]; omega) (by omega) hlt'
              (by omega : 1025 ≤ i + 2 + fuel)
            rw [if_pos hcolon, if_pos hcolon, deref, ok_bind, hend, ok_bind, hloop]
            refine ⟨some h', rfl, ?_, ?_, ?_, ?_⟩
            · rw [hkey, htext]
            · rw [hkey, hklen]
            · rw [hvtext, hveq, hnext', List.nil_append, List.tail_cons]
            · rw [hvlen, hveq, hnext', List.nil_append, List.tail_cons]
          · obtain ⟨hk', hpush, hhold, hval⟩ := pushKey_spec hk (by omega) b
            rw [if_neg hcolon, if_neg hcolon, deref, ok_bind, hpush, ok_bind, ← hnext]
            exact ih (by rw [if_neg (by omega)]) hhold (hval.trans hv)
              (by rw [List.length_append, List.length_singleton, hlen])
              (by simp [h0, (not_isEnd_zero hb).symm]) (by omega) (by omega) (by omega)

/-- `parse_header_line` writes inside of its arrays only, and leaves the texts of
`parseHeaderLine` there. -/
theorem parseHeaderLine_agree (line : Bytes) :
    ∃ r, parseHeaderLine line = .ok r ∧ Agree r (Http.parseHeaderLine line) :=
  loop_key (h := new) (if_pos rfl) CharArray.holds_empty rfl rfl (by simp) (by omega) (by omega)
    (by omega)

end Hline

/-! ### What is a header line -/

/-- The text before the first colon, a space, and what the line goes on with. -/
structure Splits (line : Bytes) (l : HeaderLine) (rest : Bytes) : Prop where
  text : line = l.key ++ colon :: space :: rest
  nonempty : 1 ≤ l.key.length
  short : l.key.length ≤ 63
  first : colon ∉ l.key
  inLine : ∀ b ∈ l.key, isEnd b = false
  head : l.key.head? ≠ some space
  value : l.value = (rest.take (1024 - (l.key.length + 2))).takeWhile (! isEnd ·)

variable {line key k rest : Bytes} {i : ℕ} {l : HeaderLine}

theorem parseKey_splits (hlen : key.length = i) (hi : i ≤ 64)
    (h : parseKey i key line = some l) : ∃ k rest, l.key = key ++ k ∧
      line = k ++ colon :: space :: rest ∧ l.key.length ≤ 63 ∧ colon ∉ k ∧
      (∀ b ∈ k, isEnd b = false) ∧ (i = 0 → 1 ≤ k.length ∧ k.head? ≠ some space) ∧
      l.value = (rest.take (1024 - (l.key.length + 2))).takeWhile (! isEnd ·) := by
  induction line generalizing i key with
  | nil => cases h
  | cons b line ih =>
    rw [parseKey] at h
    by_cases hend : 1024 ≤ i ∨ isEnd b
    · rw [if_pos hend] at h
      cases h
    · rw [if_neg hend] at h
      by_cases href : (i = 0 ∧ (b = colon ∨ b = space)) ∨
          (b = colon ∧ line.headD 0 ≠ space) ∨ 63 < i
      · rw [if_pos href] at h
        cases h
      · rw [if_neg href] at h
        have hfirst : i ≠ 0 ∨ (b ≠ colon ∧ b ≠ space) := by
          by_contra hc
          exact href (.inl (by tauto))
        by_cases hb : b = colon
        · rw [if_pos hb] at h
          cases h
          have hspace : line.headD 0 = space := by
            by_contra hne
            exact href (.inr (.inl ⟨hb, hne⟩))
          obtain ⟨rest, rfl⟩ : ∃ r, line = space :: r := by
            cases line with
            | nil => cases hspace
            | cons c r => exact ⟨r, by rw [← hspace, List.headD_cons]⟩
          have hshort : key.length ≤ 63 := by
            by_contra hlong
            exact href (.inr (.inr (by omega)))
          refine ⟨[], rest, (List.append_nil _).symm, by rw [hb, List.nil_append], hshort,
            by simp, by simp, fun hz => ?_, by rw [List.tail_cons, hlen]⟩
          rcases hfirst with hne | ⟨hne, -⟩
          · exact absurd hz hne
          · exact absurd hb hne
        · rw [if_neg hb] at h
          obtain ⟨k, rest, hkey, rfl, hshort, hk, hin, -, hval⟩ :=
            ih (by rw [List.length_append, List.length_singleton, hlen]) (by omega) h
          refine ⟨b :: k, rest, by rw [hkey, List.append_assoc, List.singleton_append], rfl,
            hshort, by simp [hk, Ne.symm hb], ?_, fun hz => ?_, hval⟩
          · refine List.forall_mem_cons.mpr ⟨?_, hin⟩
            simpa using fun he => hend (.inr he)
          · rcases hfirst with hne | ⟨-, hne⟩
            · exact absurd hz hne
            · exact ⟨by simp, by simpa using hne⟩

theorem parseKey_of_splits (hlen : key.length = i) (hshort : i + k.length ≤ 63)
    (hk : colon ∉ k) (hin : ∀ b ∈ k, isEnd b = false)
    (hhead : i = 0 → 1 ≤ k.length ∧ k.head? ≠ some space) :
    parseKey i key (k ++ colon :: space :: rest) = some ⟨key ++ k,
      (rest.take (1024 - (i + k.length + 2))).takeWhile (! isEnd ·)⟩ := by
  induction k generalizing i key with
  | nil =>
    have hi : i ≠ 0 := by
      intro hz
      have := (hhead hz).1
      rw [List.length_nil] at this
      omega
    rw [List.length_nil] at hshort
    rw [List.nil_append, parseKey, if_neg (by simp [show ¬isEnd colon by decide]; omega),
      if_neg (by simp [hi]; omega), if_pos rfl]
    simp
  | cons b k ih =>
    obtain ⟨hb, hk⟩ : colon ≠ b ∧ colon ∉ k := by simpa using hk
    obtain ⟨hend, hin⟩ := List.forall_mem_cons.mp hin
    rw [List.length_cons] at hshort
    have hspace : i = 0 → b ≠ space := fun hz he => (hhead hz).2 (by rw [he]; rfl)
    rw [List.cons_append, parseKey, if_neg (by simp [hend]; omega),
      if_neg (by simp [hb.symm]; exact ⟨hspace, by omega⟩), if_neg hb.symm,
      ih (by rw [List.length_append, List.length_singleton, hlen]) (by omega) hk hin
        (fun hz => absurd hz (by omega)), List.append_assoc, List.singleton_append,
      List.length_cons, show i + 1 + k.length = i + (k.length + 1) by omega]

theorem parseHeaderLine_eq_some :
    parseHeaderLine line = some l ↔ ∃ rest, Splits line l rest := by
  constructor
  · intro h
    obtain ⟨k, rest, hkey, rfl, hshort, hk, hin, hhead, hval⟩ :=
      parseKey_splits List.length_nil (Nat.zero_le _) h
    obtain rfl : l.key = k := hkey
    obtain ⟨hlen, hhead⟩ := hhead rfl
    exact ⟨rest, rfl, hlen, hshort, hk, hin, hhead, hval⟩
  · rintro ⟨rest, rfl, hlen, hshort, hk, hin, hhead, hval⟩
    have hkey : parseKey 0 [] (l.key ++ colon :: space :: rest) = some ⟨[] ++ l.key,
        (rest.take (1024 - (0 + l.key.length + 2))).takeWhile (! isEnd ·)⟩ :=
      parseKey_of_splits rfl (by omega) hk hin fun _ => ⟨hlen, hhead⟩
    rw [parseHeaderLine, hkey, Nat.zero_add, ← hval, List.nil_append]

/-- For every line `parse_header_line` completes without a write or a read out of bounds. It
returns NULL or a line whose arrays hold the two texts the line splits into, and it returns a
line whenever there are such texts. -/
theorem headerLine_within (line : Bytes) : ∃ r, Hline.parseHeaderLine line = .ok r ∧
    (∀ h, r = some h → ∃ l rest, Splits line l rest ∧ h.Spells l) ∧
    (r = none ↔ ¬∃ l rest, Splits line l rest) := by
  obtain ⟨r, hr, hagree⟩ := Hline.parseHeaderLine_agree line
  refine ⟨r, hr, ?_, ?_⟩
  · rintro h rfl
    cases hl : parseHeaderLine line with
    | none => rw [hl] at hagree; cases hagree
    | some l =>
      rw [hl] at hagree
      obtain ⟨rest, hsplit⟩ := parseHeaderLine_eq_some.mp hl
      exact ⟨l, rest, hsplit, hagree⟩
  · constructor
    · rintro rfl ⟨l, hsplit⟩
      rw [parseHeaderLine_eq_some.mpr hsplit] at hagree
      cases hagree
    · intro hno
      cases r with
      | none => rfl
      | some h =>
        cases hl : parseHeaderLine line with
        | none => rw [hl] at hagree; cases hagree
        | some l => exact absurd ⟨l, parseHeaderLine_eq_some.mp hl⟩ hno

end ApeServer.Http
