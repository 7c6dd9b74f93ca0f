import ApeServer.Http.WsDecoder

/-!
# Frames on the wire

A masked frame as a client writes it in the two IETF layouts, and what the server owes for it.
-/
namespace ApeServer.Websocket

open Sock (Bytes)

/-- The three ways to write a payload length. -/
inductive LengthForm where
  | seven
  | sixteen
  | sixtyFour
deriving DecidableEq, Repr

/-- The lengths that a form can write. -/
def LengthForm.Fits : LengthForm → ℕ → Prop
  | .seven, n => n < 126
  | .sixteen, n => n < 2 ^ 16
  | .sixtyFour, n => n < 2 ^ 64

instance (form : LengthForm) (n : ℕ) : Decidable (form.Fits n) := by
  cases form <;> exact inferInstanceAs (Decidable (_ < _))

/-- A complete masked frame. `start` holds FIN, the reserved bits and the opcode, and `rsv4`
the bit of draft 06 in whose place draft 07 has the mask bit. -/
structure Frame where
  start : UInt8
  rsv4 : Bool
  form : LengthForm
  key : Bytes
  payload : Bytes
  key_length : key.length = 4
  payload_ne : payload ≠ []
  fits : form.Fits payload.length

/-- The `n` low bytes of `x` in network order. -/
def beBytes (n x : ℕ) : Bytes := (leBytes n x).reverse

/-- `data` under `key`, from the byte with index `i` on. -/
def mask (key : Bytes) : ℕ → Bytes → Bytes
  | _, [] => []
  | i, b :: data => (b ^^^ key.getD (i % 4) 0) :: mask key (i + 1) data

namespace Frame

/-- The length byte under its top bit, and the bytes of the longer forms. -/
def lengthBytes (f : Frame) (top : UInt8) : Bytes :=
  match f.form with
  | .seven => [top ||| UInt8.ofNat f.payload.length]
  | .sixteen => (top ||| 126) :: beBytes 2 f.payload.length
  | .sixtyFour => (top ||| 127) :: beBytes 8 f.payload.length

def encode07 (f : Frame) : Bytes :=
  f.start :: f.lengthBytes 0x80 ++ f.key ++ mask f.key 0 f.payload

def encode06 (f : Frame) : Bytes :=
  f.key ++ mask f.key 0 (f.start :: f.lengthBytes (if f.rsv4 then 0x80 else 0) ++ f.payload)

/-- The opcodes that the theorem speaks about: no close, and no ping that is too long. -/
structure Valid (d : Draft) (f : Frame) : Prop where
  noClose : f.start &&& 0x0F ≠ d.close
  shortPing : f.start &&& 0x0F = d.ping → f.payload.length ≤ 125

/-- The answer to a frame: a pong with the payload of a ping, nothing for a pong, and one
call of `onready` for every other frame. -/
def answer (d : Draft) (f : Frame) : List Event :=
  if f.start &&& 0x0F = d.ping then
    [.send [d.pongHead, UInt8.ofNat f.payload.length] false, .send f.payload false]
  else if f.start &&& 0x0F = d.pong then []
  else [.ready f.payload]

end Frame

/-- The two IETF layouts. -/
inductive Layout where
  | ietf06
  | ietf07
deriving DecidableEq, Repr

namespace Layout

def version : Layout → Version
  | ietf06 => .ietf06
  | ietf07 => .ietf07

def draft : Layout → Draft
  | ietf06 => draft06
  | ietf07 => draft07

def encode : Layout → Frame → Bytes
  | ietf06 => Frame.encode06
  | ietf07 => Frame.encode07

end Layout

/-- The view between two frames; what the last frame left in the key and in the payload
fields does not matter. -/
structure Boundary (d : Draft) (v : View) : Prop where
  step : v.step = d.first
  key : v.key.length = 4
  keyPos : v.keyPos = 0
  payload : v.payload.length = 10
  pos : v.pos = 0
  seen : v.seen = []

theorem leBytes_length (n x : ℕ) : (leBytes n x).length = n := by
  induction n generalizing x with
  | zero => rfl
  | succ n ih => simp [leBytes, ih]

theorem leNat_leBytes (n x : ℕ) : leNat (leBytes n x) = x % 256 ^ n := by
  induction n generalizing x with
  | zero => simp [leBytes, leNat, Nat.mod_one]
  | succ n ih =>
    simp only [leBytes, leNat, ih, UInt8.toNat_ofNat', Nat.reducePow]
    rw [pow_succ, Nat.mul_comm (256 ^ n) 256, Nat.mod_mul]

theorem extended_setExtended (p : Bytes) (x : ℕ) (hp : 2 ≤ p.length) (hx : x < 2 ^ 64) :
    extended (setExtended p x) = x := by
  have h2 : (p.take 2).length = 2 := by simp; omega
  have hdrop : (setExtended p x).drop 2 = leBytes 8 x := by
    rw [setExtended, List.drop_left' h2]
  rw [extended, hdrop, List.take_of_length_le (by simp [leBytes_length]), leNat_leBytes]
  exact Nat.mod_eq_of_lt (by simpa using hx)

theorem setExtended_length (p : Bytes) (x : ℕ) (hp : 2 ≤ p.length) :
    (setExtended p x).length = 10 := by
  simp [setExtended, leBytes_length]
  omega

theorem setExtended_head (p : Bytes) (x : ℕ) (hp : 2 ≤ p.length) :
    (setExtended p x).getD 0 0 = p.getD 0 0 := by
  match p, hp with
  | a :: b :: p, _ => rfl

theorem decrement_succ {n : ℕ} (h : n + 1 < 2 ^ 64) : decrement (n + 1) = n := by
  unfold decrement
  omega

theorem setExtended_setExtended (p : Bytes) (x y : ℕ) (hp : 2 ≤ p.length) :
    setExtended (setExtended p x) y = setExtended p y := by
  match p, hp with
  | a :: b :: p, _ => rfl

theorem and_mask_of_le {n : ℕ} (h : n ≤ 125) : UInt8.ofNat n &&& 0x7F = UInt8.ofNat n := by
  have hall : ∀ n < 126, UInt8.ofNat n &&& 0x7F = UInt8.ofNat n := by decide
  exact hall n (by omega)

/-- The last data byte of a frame brings the view to the next frame with the frame's answer. -/
theorem finish_answer {d : Draft} {f : Frame} {v : View} (hvalid : f.Valid d)
    (hkey : v.key.length = 4) (hpayload : 2 ≤ v.payload.length)
    (hstart : v.payload.getD 0 0 = f.start) (hseen : v.seen = f.payload) :
    ∃ w, v.finish d = some (w, f.answer d) ∧ Boundary d w := by
  refine ⟨{ v with
    step := d.first, pos := 0, payload := setExtended v.payload 0, keyPos := 0, seen := [] },
    ?_, rfl, hkey, rfl, setExtended_length v.payload 0 hpayload, rfl, rfl⟩
  simp only [View.finish, Frame.answer, setExtended_head _ _ hpayload, hstart, hseen,
    if_neg hvalid.noClose]
  split
  · next hping =>
    have hle := hvalid.shortPing hping
    rw [if_neg (by omega), if_neg f.payload_ne, and_mask_of_le hle]
  · split <;> rfl

/-- What `finish` reads of a view. -/
theorem finish_congr {d : Draft} {v w : View} (hkey : v.key = w.key) (hinkey : v.inkey = w.inkey)
    (hpayload : setExtended v.payload 0 = setExtended w.payload 0) (hseen : v.seen = w.seen) :
    v.finish d = w.finish d := by
  simp only [View.finish, hkey, hinkey, hpayload, hseen]

/-- A data byte inside the frame, and the last one. -/
theorem count_eq {d : Draft} {v : View} {n : ℕ} {b : UInt8} (hpayload : 2 ≤ v.payload.length)
    (hext : extended v.payload = n + 1) (hn : n + 1 < 2 ^ 64) :
    v.count d b = if n = 0 then View.finish d { v with seen := v.seen ++ [b] }
      else View.next { v with payload := setExtended v.payload n, seen := v.seen ++ [b] } := by
  simp only [View.count, hext, decrement_succ hn]
  split
  · next h0 => exact finish_congr rfl rfl (by simp [h0, setExtended_setExtended _ _ _ hpayload]) rfl
  · rfl

theorem xor_xor (b k : UInt8) : b ^^^ k ^^^ k = b := by
  rw [UInt8.xor_assoc, UInt8.xor_self, UInt8.xor_zero]

theorem run_cons_of_next {byte : View → UInt8 → Option (View × List Event)} {v w : View} {b : UInt8}
    {bs : Bytes} (h : byte v b = w.next) :
    View.run byte v (b :: bs) = View.run byte { w with pos := w.pos + 1 } bs := by
  simp [View.run, h, View.next]

theorem run_singleton (byte : View → UInt8 → Option (View × List Event)) (v : View) (b : UInt8) :
    View.run byte v [b] = byte v b := by
  simp only [View.run]
  cases byte v b <;> simp

theorem run_data07 {v : View} {data : Bytes} (hne : data ≠ []) (hstep : v.step = .data)
    (hpayload : 2 ≤ v.payload.length) (hext : extended v.payload = data.length)
    (hlt : data.length < 2 ^ 64) :
    View.run View.byte07 v (mask v.key v.inkey data) =
      View.finish draft07 { v with inkey := v.inkey + data.length, seen := v.seen ++ data } := by
  induction data generalizing v with
  | nil => exact absurd rfl hne
  | cons b data ih =>
    have hbyte : View.byte07 v (b ^^^ v.key.getD (v.inkey % 4) 0) =
        View.count draft07 { v with inkey := v.inkey + 1 } b := by
      simp only [View.byte07, hstep, xor_xor]
    rw [count_eq (v := { v with inkey := v.inkey + 1 }) hpayload hext hlt] at hbyte
    cases data with
    | nil => rw [mask, mask, run_singleton, hbyte, if_pos List.length_nil, List.length_singleton]
    | cons c data =>
      rw [if_neg (by simp)] at hbyte
      have hlen : 2 ≤ (setExtended v.payload (c :: data).length).length := by
        rw [setExtended_length _ _ hpayload]
        decide
      rw [mask, run_cons_of_next hbyte]
      refine (ih (v := { v with
        payload := setExtended v.payload (c :: data).length, seen := v.seen ++ [b],
        inkey := v.inkey + 1, pos := v.pos + 1 }) (by simp) hstep hlen
        (extended_setExtended _ _ hpayload ?_) ?_).trans (finish_congr rfl ?_ ?_ ?_)
      · simp only [List.length_cons] at hlt ⊢
        omega
      · simp only [List.length_cons] at hlt ⊢
        omega
      · simp only [List.length_cons]
        omega
      · exact setExtended_setExtended _ _ _ hpayload
      · simp

theorem run_data06 {v : View} {data : Bytes} (hne : data ≠ []) (hstep : v.step = .data)
    (hpos : 4 ≤ v.pos) (hpayload : 2 ≤ v.payload.length)
    (hext : extended v.payload = data.length) (hlt : data.length < 2 ^ 64) :
    View.run View.byte06 v (mask v.key (v.pos - 4) data) =
      View.finish draft06 { v with seen := v.seen ++ data } := by
  induction data generalizing v with
  | nil => exact absurd rfl hne
  | cons b data ih =>
    have hbyte : View.byte06 v (b ^^^ v.key.getD ((v.pos - 4) % 4) 0) =
        View.count draft06 v b := by
      simp [View.byte06, hstep, xor_xor]
    rw [count_eq hpayload hext hlt] at hbyte
    cases data with
    | nil => rw [mask, mask, run_singleton, hbyte, if_pos List.length_nil]
    | cons c data =>
      rw [if_neg (by simp)] at hbyte
      have hlen : 2 ≤ (setExtended v.payload (c :: data).length).length := by
        rw [setExtended_length _ _ hpayload]
        decide
      have hidx : v.pos - 4 + 1 = v.pos + 1 - 4 := by omega
      rw [mask, run_cons_of_next hbyte, hidx]
      refine (ih (v := { v with
        payload := setExtended v.payload (c :: data).length, seen := v.seen ++ [b],
        pos := v.pos + 1 }) (by simp) hstep (by simp only; omega) hlen
        (extended_setExtended _ _ hpayload ?_) ?_).trans (finish_congr rfl rfl ?_ ?_)
      · simp only [List.length_cons] at hlt ⊢
        omega
      · simp only [List.length_cons] at hlt ⊢
        omega
      · exact setExtended_setExtended _ _ _ hpayload
      · simp

/-- The two parsers on a deciphered header byte. They differ in the position of the header in
the frame, in the mask bit that draft 07 asks for, and in what follows the header. -/
def View.header (top : UInt8) (after : Step) (skip : ℕ) (v : View) (c : UInt8) :
    Option (View × List Event) :=
  let payload := v.payload.set (v.pos - skip) c
  match v.step with
  | .start => next { v with payload := v.payload.set 0 c, step := .length }
  | .length =>
    if c &&& top ≠ top then none
    else if c &&& 0x7F = 126 then next { v with step := .shortLength }
    else if c &&& 0x7F = 127 then next { v with step := .extendedLength }
    else next { v with payload := setExtended v.payload (c &&& 0x7F).toNat, step := after }
  | .shortLength =>
    next (if v.pos - skip = 3 then
      { v with payload := setExtended payload (shortHost payload), step := after }
      else { v with payload })
  | .extendedLength =>
    next (if v.pos - skip = 9 then
      { v with payload := setExtended payload (extendedHost payload), step := after }
      else { v with payload })
  | _ => none

theorem top_bit (c : UInt8) : c &&& 0x80 = 0 ↔ c &&& 0x80 ≠ 0x80 := by
  have hall : ∀ n < 256, UInt8.ofNat n &&& 0x80 = 0 ↔ UInt8.ofNat n &&& 0x80 ≠ 0x80 := by
    decide +kernel
  simpa using hall c.toNat c.toNat_lt

theorem byte07_of_header {v : View} {c : UInt8} {r : View × List Event}
    (h : View.header 0x80 .key 0 v c = some r) : View.byte07 v c = some r := by
  simp only [View.header, View.byte07] at h ⊢
  cases hs : v.step with
  | start | shortLength | extendedLength => simpa [hs] using h
  | length => simpa [hs, top_bit] using h
  | key | data | finish => simp [hs] at h

theorem byte06_of_header {v : View} {c : UInt8} {r : View × List Event}
    (h : View.header 0 .data 4 v c = some r) :
    View.byte06 v (c ^^^ v.key.getD ((v.pos - 4) % 4) 0) = some r := by
  have h7 : v.pos - 4 = 3 ↔ v.pos = 7 := by omega
  have h13 : v.pos - 4 = 9 ↔ v.pos = 13 := by omega
  simp only [View.header, View.byte06, h7, h13] at h ⊢
  cases hs : v.step with
  | start | length | shortLength | extendedLength => simpa [hs, xor_xor] using h
  | key | data | finish => simp [hs] at h

theorem header_moves {top : UInt8} {after : Step} {skip : ℕ} {v : View} {c : UInt8}
    {r : View × List Event} (h : View.header top after skip v c = some r) :
    r.1.key = v.key ∧ r.1.pos = v.pos + 1 := by
  simp only [View.header, View.next] at h
  cases hs : v.step <;> simp only [hs] at h <;> (repeat' split at h) <;> cases h <;> exact ⟨rfl, rfl⟩

theorem header_run_pos {top : UInt8} {after : Step} {skip : ℕ} {v : View} {cs : Bytes}
    {r : View × List Event} (h : View.run (View.header top after skip) v cs = some r) :
    r.1.pos = v.pos + cs.length := by
  induction cs generalizing v r with
  | nil =>
    cases h
    rfl
  | cons c cs ih =>
    simp only [View.run] at h
    split at h
    · cases h
    · next w es hw =>
      simp only [Option.map_eq_some_iff] at h
      obtain ⟨p, hp, rfl⟩ := h
      have hpos := ih hp
      have hstep := (header_moves hw).2
      simp only [List.length_cons] at hpos hstep ⊢
      omega

theorem run07_of_header {v : View} {cs : Bytes} {r : View × List Event}
    (h : View.run (View.header 0x80 .key 0) v cs = some r) : View.run View.byte07 v cs = some r := by
  induction cs generalizing v r with
  | nil => exact h
  | cons c cs ih =>
    simp only [View.run] at h ⊢
    split at h
    · cases h
    · next w es hw =>
      simp only [byte07_of_header hw, Option.map_eq_some_iff] at h ⊢
      obtain ⟨p, hp, rfl⟩ := h
      exact ⟨p, ih hp, rfl⟩

theorem run06_of_header {v : View} {cs : Bytes} {r : View × List Event} (hpos : 4 ≤ v.pos)
    (h : View.run (View.header 0 .data 4) v cs = some r) :
    View.run View.byte06 v (mask v.key (v.pos - 4) cs) = some r := by
  induction cs generalizing v r with
  | nil => exact h
  | cons c cs ih =>
    simp only [mask, View.run] at h ⊢
    split at h
    · cases h
    · next w es hw =>
      obtain ⟨hkey, hw1⟩ := header_moves hw
      simp only at hkey hw1
      simp only [byte06_of_header hw, Option.map_eq_some_iff] at h ⊢
      obtain ⟨p, hp, rfl⟩ := h
      have hidx : v.pos - 4 + 1 = w.pos - 4 := by omega
      rw [hidx, ← hkey]
      exact ⟨p, ih (by omega) hp, rfl⟩

/-- Behind the header the parser knows the first byte of the frame and a length. -/
structure Heads (start : UInt8) (n : ℕ) (after : Step) (v w : View) : Prop where
  step : w.step = after
  key : w.key = v.key
  keyPos : w.keyPos = v.keyPos
  payload : w.payload.length = 10
  start : w.payload.getD 0 0 = start
  length : extended w.payload = n
  seen : w.seen = v.seen

/-- The length byte under its top bit, and the check of that bit. -/
theorem length_byte {n : ℕ} (hn : n < 128) {top need : UInt8} (hneed : need = 0 ∨ need = top)
    (htop : top = 0 ∨ top = 0x80) :
    (top ||| UInt8.ofNat n) &&& need = need ∧ (top ||| UInt8.ofNat n) &&& 0x7F = UInt8.ofNat n := by
  have hall : ∀ n < 128, ∀ top ∈ [0, 0x80], ∀ need ∈ [0, top],
      (top ||| UInt8.ofNat n) &&& need = need ∧
        (top ||| UInt8.ofNat n) &&& 0x7F = UInt8.ofNat n := by
    decide +kernel
  exact hall n hn top (by simpa using htop) need (by simpa using hneed)

theorem heads_of_setExtended {start : UInt8} {after : Step} {v : View} {p : Bytes} {x : ℕ} (pos : ℕ)
    (hp : 2 ≤ p.length) (hstart : p.getD 0 0 = start) (hlt : x < 2 ^ 64) :
    Heads start x after v { v with step := after, payload := setExtended p x, pos } :=
  ⟨rfl, rfl, rfl, setExtended_length p x hp, (setExtended_head p x hp).trans hstart,
    extended_setExtended p x hp hlt, rfl⟩

/-- The bytes of a length `n` under the top bit of the first of them. -/
def LengthForm.bytes (form : LengthForm) (top : UInt8) (n : ℕ) : Bytes :=
  match form with
  | .seven => [top ||| UInt8.ofNat n]
  | .sixteen => (top ||| 126) :: beBytes 2 n
  | .sixtyFour => (top ||| 127) :: beBytes 8 n

/-- The length that arrives: `ntohl` keeps the low half of the longest form. -/
def LengthForm.counted : LengthForm → ℕ → ℕ
  | .sixtyFour, n => n % 2 ^ 32
  | _, n => n

theorem run_length {form : LengthForm} {n : ℕ} {v : View} (start top need : UInt8) (after : Step)
    (hfits : form.Fits n) (hstep : v.step = .start) (hpayload : v.payload.length = 10)
    (hneed : need = 0 ∨ need = top) (htop : top = 0 ∨ top = 0x80) :
    ∃ w, View.run (View.header need after v.pos) v (start :: form.bytes top n) = some (w, []) ∧
      Heads start (form.counted n) after v w := by
  obtain ⟨step, key, keyPos, payload, inkey, pos, seen⟩ := v
  simp only at hstep hpayload
  subst hstep
  match payload, hpayload with
  | [p0, p1, p2, p3, p4, p5, p6, p7, p8, p9], _ =>
  cases form with
  | seven =>
    rw [LengthForm.Fits] at hfits
    obtain ⟨h0, h1⟩ := length_byte (show n < 128 by omega) hneed htop
    have h126 : UInt8.ofNat n ≠ 126 := by
      rw [Ne, ← UInt8.toNat_inj]
      simp
      omega
    have h127 : UInt8.ofNat n ≠ 127 := by
      rw [Ne, ← UInt8.toNat_inj]
      simp
      omega
    refine ⟨_, ?_, heads_of_setExtended (x := n) (pos + 2)
      (p := [start, p1, p2, p3, p4, p5, p6, p7, p8, p9]) (by simp) rfl (by omega)⟩
    have hmod : n % 256 = n := by omega
    simp [LengthForm.bytes, View.run, View.header, View.next, h0, h1, h126, h127, hmod]
  | sixteen =>
    rw [LengthForm.Fits] at hfits
    have h0 : (top ||| 126) &&& need = need := (length_byte (by decide) hneed htop).1
    have h1 : (top ||| 126) &&& 0x7F = 126 := (length_byte (by decide) hneed htop).2
    have hn : LengthForm.counted .sixteen n = leNat (leBytes 2 n) := by
      rw [leNat_leBytes]
      exact (Nat.mod_eq_of_lt hfits).symm
    rw [hn]
    refine ⟨_, ?_, heads_of_setExtended (x := leNat (leBytes 2 n)) (pos + 4)
      (p := start :: p1 :: beBytes 2 n ++ [p4, p5, p6, p7, p8, p9]) (by simp) rfl ?_⟩
    · simp [LengthForm.bytes, View.run, View.header, View.next, h0, h1, beBytes, leBytes,
        Nat.add_assoc]
      rfl
    · rw [leNat_leBytes]
      omega
  | sixtyFour =>
    have h0 : (top ||| 127) &&& need = need := (length_byte (by decide) hneed htop).1
    have h1 : (top ||| 127) &&& 0x7F = 127 := (length_byte (by decide) hneed htop).2
    have hn : LengthForm.counted .sixtyFour n = leNat (leBytes 4 n) := by
      rw [leNat_leBytes]
      rfl
    rw [hn]
    refine ⟨_, ?_, heads_of_setExtended (x := leNat (leBytes 4 n)) (pos + 10)
      (p := start :: p1 :: beBytes 8 n) (by simp) rfl ?_⟩
    · simp [LengthForm.bytes, View.run, View.header, View.next, h0, h1, beBytes, leBytes,
        Nat.add_assoc]
      rfl
    · rw [leNat_leBytes]
      omega

theorem run_header {f : Frame} {v : View} (top need : UInt8) (after : Step)
    (hsize : f.payload.length < 2 ^ 32) (hstep : v.step = .start) (hpayload : v.payload.length = 10)
    (hneed : need = 0 ∨ need = top) (htop : top = 0 ∨ top = 0x80) :
    ∃ w, View.run (View.header need after v.pos) v (f.start :: f.lengthBytes top) = some (w, []) ∧
      Heads f.start f.payload.length after v w := by
  have hbytes : f.lengthBytes top = f.form.bytes top f.payload.length := by
    unfold Frame.lengthBytes LengthForm.bytes
    cases f.form <;> rfl
  have hcount : f.form.counted f.payload.length = f.payload.length := by
    cases f.form with
    | seven | sixteen => rfl
    | sixtyFour => exact Nat.mod_eq_of_lt hsize
  obtain ⟨w, hw, hh⟩ := run_length f.start top need after f.fits hstep hpayload hneed htop
  exact ⟨w, by rw [hbytes, hw], hcount ▸ hh⟩

theorem run_key07 {v : View} {key : Bytes} (hstep : v.step = .key) (hpos : v.keyPos = 0)
    (hv : v.key.length = 4) (hkey : key.length = 4) :
    View.run View.byte07 v key =
      some ({ v with step := .data, key, keyPos := 4, inkey := 0, pos := v.pos + 4 }, []) := by
  obtain ⟨step, key', keyPos, payload, inkey, pos, seen⟩ := v
  simp only at hstep hpos hv
  subst hstep hpos
  match key, hkey, key', hv with
  | [a, b, c, d], _, [a', b', c', d'], _ => simp [View.run, View.byte07, View.next]

theorem run_key06 {v : View} {key : Bytes} (hstep : v.step = .key) (hpos : v.pos = 0)
    (hv : v.key.length = 4) (hkey : key.length = 4) :
    View.run View.byte06 v key = some ({ v with step := .start, key, pos := 4 }, []) := by
  obtain ⟨step, key', keyPos, payload, inkey, pos, seen⟩ := v
  simp only at hstep hpos hv
  subst hstep hpos
  match key, hkey, key', hv with
  | [a, b, c, d], _, [a', b', c', d'], _ => simp [View.run, View.byte06, View.next]

theorem mask_length (key : Bytes) (i : ℕ) (data : Bytes) :
    (mask key i data).length = data.length := by
  induction data generalizing i with
  | nil => rfl
  | cons b data ih => simp [mask, ih]

theorem mask_append (key : Bytes) (i : ℕ) (a b : Bytes) :
    mask key i (a ++ b) = mask key i a ++ mask key (i + a.length) b := by
  induction a generalizing i with
  | nil => rfl
  | cons x a ih =>
    have hidx : i + 1 + a.length = i + (x :: a).length := by
      simp only [List.length_cons]
      omega
    rw [List.cons_append, mask, ih, mask, List.cons_append, hidx]

/-- Behind the head of a frame, which has `skip` bytes, its data are counted down. -/
structure AtData (f : Frame) (skip : ℕ) (v : View) : Prop where
  step : v.step = .data
  key : v.key = f.key
  payload : v.payload.length = 10
  start : v.payload.getD 0 0 = f.start
  length : extended v.payload = f.payload.length
  seen : v.seen = []
  pos : v.pos = skip

/-- What draft 07 has in front of the data. -/
def Frame.head07 (f : Frame) : Bytes := f.start :: f.lengthBytes 0x80 ++ f.key

/-- The same for draft 06, of which the part behind the key is masked. -/
def Frame.fields06 (f : Frame) : Bytes := f.start :: f.lengthBytes (if f.rsv4 then 0x80 else 0)

def Frame.head06 (f : Frame) : Bytes := f.key ++ mask f.key 0 f.fields06

theorem encode06_eq (f : Frame) :
    f.encode06 = f.head06 ++ mask f.key f.fields06.length f.payload := by
  have hzero : 0 + f.fields06.length = f.fields06.length := Nat.zero_add _
  rw [← hzero, Frame.head06, List.append_assoc, ← mask_append]
  rfl

theorem run_head07 {f : Frame} {v : View} (hsize : f.payload.length < 2 ^ 32)
    (hv : Boundary draft07 v) : ∃ u, View.run View.byte07 v f.head07 = some (u, []) ∧
      AtData f f.head07.length u ∧ u.inkey = 0 := by
  obtain ⟨u, hrun, hu⟩ := run_header (f := f) (v := v) 0x80 0x80 .key hsize hv.step hv.payload
    (.inr rfl) (.inr rfl)
  rw [hv.pos] at hrun
  have hpos := header_run_pos hrun
  have hkey := run_key07 hu.step (hu.keyPos.trans hv.keyPos) (hu.key ▸ hv.key) f.key_length
  refine ⟨{ u with step := .data, key := f.key, keyPos := 4, inkey := 0, pos := u.pos + 4 }, ?_,
    ⟨rfl, rfl, hu.payload, hu.start, hu.length, hu.seen.trans hv.seen, ?_⟩, rfl⟩
  · rw [Frame.head07, View.run_append (run07_of_header hrun), hkey]
    rfl
  · simp only [Frame.head07, List.length_append, f.key_length] at hpos ⊢
    rw [hpos, hv.pos]
    omega

theorem run_head06 {f : Frame} {v : View} (hsize : f.payload.length < 2 ^ 32)
    (hv : Boundary draft06 v) : ∃ u, View.run View.byte06 v f.head06 = some (u, []) ∧
      AtData f f.head06.length u := by
  have hkey := run_key06 hv.step hv.pos hv.key f.key_length
  have htop : (if f.rsv4 then 0x80 else 0 : UInt8) = 0 ∨
      (if f.rsv4 then 0x80 else 0 : UInt8) = 0x80 := by
    cases f.rsv4 <;> simp
  obtain ⟨u, hrun, hu⟩ := run_header (f := f) (v := { v with step := .start, key := f.key, pos := 4 })
    (if f.rsv4 then 0x80 else 0) 0 .data hsize rfl hv.payload (.inl rfl) htop
  have hpos := header_run_pos hrun
  have hhead := run06_of_header (by simp) hrun
  simp only [Nat.sub_self] at hhead
  refine ⟨u, ?_, ⟨hu.step, hu.key, hu.payload, hu.start, hu.length, hu.seen.trans hv.seen, ?_⟩⟩
  · rw [Frame.head06, Frame.fields06, View.run_append hkey, hhead]
    rfl
  · rw [Frame.head06, List.length_append, mask_length, f.key_length]
    exact hpos

theorem run_frame07 {f : Frame} {v : View} (hvalid : f.Valid draft07)
    (hsize : f.payload.length < 2 ^ 32) (hv : Boundary draft07 v) :
    ∃ w, View.run View.byte07 v f.encode07 = some (w, f.answer draft07) ∧ Boundary draft07 w := by
  obtain ⟨u, hrun, hu, hinkey⟩ := run_head07 hsize hv
  have hdata := run_data07 f.payload_ne hu.step (by simp [hu.payload]) hu.length (by omega)
  obtain ⟨w, hw, hb⟩ := finish_answer (v := { u with
    inkey := u.inkey + f.payload.length, seen := u.seen ++ f.payload }) hvalid
    (hu.key.symm ▸ f.key_length) (by simp [hu.payload]) hu.start (by simp [hu.seen])
  rw [hw, hu.key, hinkey] at hdata
  refine ⟨w, ?_, hb⟩
  rw [Frame.encode07, ← Frame.head07, View.run_append hrun, hdata]
  rfl

theorem run_frame06 {f : Frame} {v : View} (hvalid : f.Valid draft06)
    (hsize : f.payload.length < 2 ^ 32) (hv : Boundary draft06 v) :
    ∃ w, View.run View.byte06 v f.encode06 = some (w, f.answer draft06) ∧ Boundary draft06 w := by
  obtain ⟨u, hrun, hu⟩ := run_head06 hsize hv
  have hskip : f.head06.length = 4 + f.fields06.length := by
    rw [Frame.head06, List.length_append, mask_length, f.key_length]
  have hdata := run_data06 f.payload_ne hu.step (by rw [hu.pos]; omega) (by simp [hu.payload])
    hu.length (by omega)
  have hidx : u.pos - 4 = f.fields06.length := by
    rw [hu.pos]
    omega
  obtain ⟨w, hw, hb⟩ := finish_answer (v := { u with seen := u.seen ++ f.payload }) hvalid
    (hu.key.symm ▸ f.key_length) (by simp [hu.payload]) hu.start (by simp [hu.seen])
  rw [hw, hu.key, hidx] at hdata
  refine ⟨w, ?_, hb⟩
  rw [encode06_eq, View.run_append hrun, hdata]
  rfl

/-- The view runs over a stream of whole frames. -/
theorem run_frames {byte : View → UInt8 → Option (View × List Event)} {d : Draft}
    {encode : Frame → Bytes} {frames : List Frame}
    (hframe : ∀ f ∈ frames, ∀ v, Boundary d v →
      ∃ w, View.run byte v (encode f) = some (w, f.answer d) ∧ Boundary d w)
    {v : View} (hv : Boundary d v) :
    ∃ w, View.run byte v (frames.flatMap encode) = some (w, frames.flatMap (Frame.answer d)) ∧
      Boundary d w := by
  induction frames generalizing v with
  | nil => exact ⟨v, rfl, hv⟩
  | cons f frames ih =>
    obtain ⟨u, hu, hub⟩ := hframe f List.mem_cons_self v hv
    obtain ⟨w, hw, hwb⟩ := ih (fun g hg => hframe g (List.mem_cons_of_mem _ hg)) hub
    refine ⟨w, ?_, hwb⟩
    rw [List.flatMap_cons, View.run_append hu, hw]
    rfl

/-- The parser waits for the first byte of a frame. -/
structure AtBoundary (layout : Layout) (s : Socket) : Prop where
  buffer : s.buf = []
  offset : s.ws.offset = 0
  step : s.ws.step = layout.draft.first
  keyPos : s.ws.keyPos = 0
  dataPos : s.ws.dataPos = 0
  framePos : s.ws.framePos = 0

theorem atBoundary_of_rest {layout : Layout} {v : View} {s : Socket} (h : Rest v s)
    (hb : Boundary layout.draft v) : AtBoundary layout s := by
  have hbuf := h.empty hb.pos
  have hstep : v.step ≠ .data := by
    rw [hb.step]
    cases layout <;> decide
  refine ⟨hbuf, ?_, h.sim.agree.step.trans hb.step, h.sim.agree.keyPos.trans hb.keyPos,
    h.sim.idle hstep, ?_⟩
  · simp [h.parsed, hbuf]
  · simp [h.sim.agree.pos, hb.pos]

/-- The view of a parser that has read nothing. -/
theorem newSocket_rest (layout : Layout) {key : Bytes} (hkey : key.length = 4) (inkey : ℕ) :
    ∃ v, Rest v (newSocket layout.version key inkey) ∧ Boundary layout.draft v := by
  refine ⟨⟨layout.draft.first, key, 0, List.replicate 10 0, inkey, 0, []⟩, ?_,
    ⟨rfl, hkey, rfl, by simp, rfl, rfl⟩⟩
  cases layout <;> refine ⟨⟨⟨rfl, rfl, rfl, rfl, rfl, rfl⟩, le_rfl, le_rfl, le_rfl, rfl, ?_, fun _ => rfl⟩,
    rfl, fun _ => rfl⟩ <;> intro h <;> cases h

theorem payload_le_encode (layout : Layout) (f : Frame) :
    f.payload.length ≤ (layout.encode f).length := by
  cases layout <;>
    simp only [Layout.encode, Frame.encode06, Frame.encode07, List.length_append, mask_length] <;>
    omega

theorem payload_le_stream (layout : Layout) {frames : List Frame} {f : Frame} (hf : f ∈ frames) :
    f.payload.length ≤ (frames.flatMap layout.encode).length := by
  refine (payload_le_encode layout f).trans ?_
  exact (List.sublist_flatten_of_mem (List.mem_map_of_mem hf)).length_le

/-- Decoding undoes encoding for any split of the stream into reads. -/
theorem decode_encode (layout : Layout) (frames : List Frame)
    (hvalid : ∀ f ∈ frames, f.Valid layout.draft)
    (hsize : (frames.flatMap layout.encode).length ≤ 502400) (reads : List Bytes)
    (hreads : ∀ r ∈ reads, r ≠ []) (hsplit : reads.flatten = frames.flatMap layout.encode)
    (key : Bytes) (hkey : key.length = 4) (inkey : ℕ) :
    (reads.foldl receive (newSocket layout.version key inkey)).log =
        frames.flatMap (Frame.answer layout.draft) ∧
      AtBoundary layout (reads.foldl receive (newSocket layout.version key inkey)) := by
  obtain ⟨v, hrest, hb⟩ := newSocket_rest layout hkey inkey
  have hlen : ∀ f ∈ frames, f.payload.length < 2 ^ 32 := by
    intro f hf
    have := payload_le_stream layout hf
    omega
  have hnew : (newSocket layout.version key inkey).buf.length + reads.flatten.length ≤ 502400 := by
    simpa [newSocket, hsplit] using hsize
  cases layout with
  | ietf06 =>
    obtain ⟨w, hw, hwb⟩ := run_frames (fun f hf u hu => run_frame06 (hvalid f hf) (hlen f hf) hu) hb
    obtain ⟨hr, hlog⟩ := reads_parsed frameByte06_follows .ietf06 (w := w)
      (fun s h1 h2 h3 h4 => by
        rw [processWebsocket, if_neg (by simp [h3, h2]), if_neg (by omega), h1]) hreads hrest rfl
      (by simp [newSocket]) hnew (hsplit ▸ hw)
    exact ⟨hlog, atBoundary_of_rest hr hwb⟩
  | ietf07 =>
    obtain ⟨w, hw, hwb⟩ := run_frames (fun f hf u hu => run_frame07 (hvalid f hf) (hlen f hf) hu) hb
    obtain ⟨hr, hlog⟩ := reads_parsed frameByte07_follows .ietf07 (w := w)
      (fun s h1 h2 h3 h4 => by
        rw [processWebsocket, if_neg (by simp [h3, h2]), if_neg (by omega), h1]) hreads hrest rfl
      (by simp [newSocket]) hnew (hsplit ▸ hw)
    exact ⟨hlog, atBoundary_of_rest hr hwb⟩

/-- A text frame with the payload `hi`. -/
def hi : Frame :=
  { start := 0x81, rsv4 := false, form := .seven, key := [1, 2, 3, 4], payload := [104, 105]
    key_length := rfl, payload_ne := by decide, fits := by decide }

theorem decode_hi :
    ([[0x81, 0x82, 1], [2, 3, 4, 105], [107]].foldl receive
      (newSocket .ietf07 [0, 0, 0, 0] 0)).log = [.ready [104, 105]] :=
  (decode_encode .ietf07 [hi]
    (by
      intro f hf
      obtain rfl := List.mem_singleton.mp hf
      exact ⟨by decide, by decide⟩)
    (by decide) [[0x81, 0x82, 1], [2, 3, 4, 105], [107]] (by decide) (by decide) [0, 0, 0, 0]
    rfl 0).1

end ApeServer.Websocket
