import ApeServer.Http.Websocket

/-!
# The frame parsers without the buffer

A `View` is what a frame parser knows between two bytes, with the bytes of the frame's data
in place of positions in `buffer_in`. The parsers follow it byte by byte, so what they do
depends on the bytes received and not on the reads they came in.
-/
namespace ApeServer.Websocket

open Sock (Bytes)

/-- The parser between two bytes; `pos` counts the bytes of the frame so far. -/
structure View where
  step : Step
  key : Bytes
  keyPos : ℕ
  payload : Bytes
  inkey : ℕ
  pos : ℕ
  seen : Bytes

namespace View

/-- The frame whose data is `seen` is complete; `none` where the parser returns at once. -/
def finish (d : Draft) (v : View) : Option (View × List Event) :=
  let w := { v with
    step := d.first, pos := 0, payload := setExtended v.payload 0, keyPos := 0, seen := [] }
  let op := w.payload.getD 0 0 &&& 0x0F
  if op = d.close then none
  else if op = d.ping then
    if v.seen.length > 125 then none
    else some (w, .send [d.pongHead, UInt8.ofNat v.seen.length &&& 0x7F] false ::
      if v.seen = [] then [] else [.send v.seen false])
  else if op = d.pong then some (w, [])
  else some (w, [.ready v.seen])

/-- The parser goes on inside the frame. -/
def next (v : View) : Option (View × List Event) := some ({ v with pos := v.pos + 1 }, [])

def count (d : Draft) (v : View) (b : UInt8) : Option (View × List Event) :=
  let left := decrement (extended v.payload)
  let v := { v with payload := setExtended v.payload left, seen := v.seen ++ [b] }
  if left = 0 then v.finish d else v.next

def byte07 (v : View) (b : UInt8) : Option (View × List Event) :=
  match v.step with
  | .key =>
    let v := { v with key := v.key.set v.keyPos b, keyPos := v.keyPos + 1 }
    next (if v.keyPos = 4 then { v with step := .data, inkey := 0 } else v)
  | .start => next { v with payload := v.payload.set 0 b, step := .length }
  | .length =>
    if b &&& 0x80 = 0 then none
    else if b &&& 0x7F = 126 then next { v with step := .shortLength }
    else if b &&& 0x7F = 127 then next { v with step := .extendedLength }
    else next { v with payload := setExtended v.payload (b &&& 0x7F).toNat, step := .key }
  | .shortLength =>
    let payload := v.payload.set v.pos b
    next (if v.pos = 3 then
      { v with payload := setExtended payload (shortHost payload), step := .key }
      else { v with payload })
  | .extendedLength =>
    let payload := v.payload.set v.pos b
    next (if v.pos = 9 then
      { v with payload := setExtended payload (extendedHost payload), step := .key }
      else { v with payload })
  | .data =>
    count draft07 { v with inkey := v.inkey + 1 } (b ^^^ v.key.getD (v.inkey % 4) 0)
  | .finish => v.next

def byte06 (v : View) (b : UInt8) : Option (View × List Event) :=
  let c := if v.step = .key then b else b ^^^ v.key.getD ((v.pos - 4) % 4) 0
  match v.step with
  | .key =>
    let v := { v with key := v.key.set v.pos c }
    next (if v.pos = 3 then { v with step := .start } else v)
  | .start => next { v with payload := v.payload.set 0 c, step := .length }
  | .length =>
    if c &&& 0x7F = 126 then next { v with step := .shortLength }
    else if c &&& 0x7F = 127 then next { v with step := .extendedLength }
    else next { v with payload := setExtended v.payload (c &&& 0x7F).toNat, step := .data }
  | .shortLength =>
    let payload := v.payload.set (v.pos - 4) c
    next (if v.pos = 7 then
      { v with payload := setExtended payload (shortHost payload), step := .data }
      else { v with payload })
  | .extendedLength =>
    let payload := v.payload.set (v.pos - 4) c
    next (if v.pos = 13 then
      { v with payload := setExtended payload (extendedHost payload), step := .data }
      else { v with payload })
  | .data => count draft06 v c
  | .finish => v.next

/-- A view runs over a list of bytes. -/
def run (byte : View → UInt8 → Option (View × List Event)) :
    View → Bytes → Option (View × List Event)
  | v, [] => some (v, [])
  | v, b :: bs =>
    match byte v b with
    | none => none
    | some (v, es) => (run byte v bs).map fun r => (r.1, es ++ r.2)

variable {byte : View → UInt8 → Option (View × List Event)}

theorem run_append {v w : View} {bs cs : Bytes} {es : List Event}
    (h : run byte v bs = some (w, es)) :
    run byte v (bs ++ cs) = (run byte w cs).map fun r => (r.1, es ++ r.2) := by
  induction bs generalizing v es with
  | nil =>
    simp only [run, Option.some.injEq, Prod.mk.injEq] at h
    obtain ⟨rfl, rfl⟩ := h
    simp
  | cons b bs ih =>
    simp only [run, List.cons_append] at h ⊢
    cases hb : byte v b with
    | none => simp [hb] at h
    | some p =>
      simp only [hb, Option.map_eq_some_iff] at h ⊢
      obtain ⟨⟨w', es'⟩, hr, hw⟩ := h
      obtain ⟨rfl, rfl⟩ := Prod.mk.inj hw
      simp [ih hr, Option.map_map, Function.comp_def]

theorem run_append_split {v w : View} {bs cs : Bytes} {es : List Event}
    (h : run byte v (bs ++ cs) = some (w, es)) :
    ∃ u es₁ es₂, run byte v bs = some (u, es₁) ∧ run byte u cs = some (w, es₂) ∧
      es = es₁ ++ es₂ := by
  induction bs generalizing v es with
  | nil => exact ⟨v, [], es, rfl, h, rfl⟩
  | cons b bs ih =>
    simp only [run, List.cons_append] at h ⊢
    cases hb : byte v b with
    | none => simp [hb] at h
    | some p =>
      simp only [hb, Option.map_eq_some_iff] at h ⊢
      obtain ⟨⟨w', es'⟩, hr, hw⟩ := h
      obtain ⟨rfl, rfl⟩ := Prod.mk.inj hw
      obtain ⟨u, es₁, es₂, h₁, h₂, rfl⟩ := ih hr
      exact ⟨u, p.2 ++ es₁, es₂, ⟨(u, es₁), h₁, rfl⟩, h₂, by simp⟩

end View

/-- The parser fields that a view copies. -/
structure Agree (v : View) (ws : State) : Prop where
  step : ws.step = v.step
  key : ws.key = v.key
  keyPos : ws.keyPos = v.keyPos
  payload : ws.payload = v.payload
  inkey : ws.dataInkey = v.inkey
  pos : ws.framePos = v.pos

/-- The parser of a socket knows what the view knows. A data byte never stands at offset 0,
which `data_pos` keeps for "no data yet". -/
structure Sim (v : View) (s : Socket) : Prop where
  agree : Agree v s.ws
  pos_le : v.pos ≤ s.ws.offset
  offset_le : s.ws.offset ≤ s.buf.length
  dataPos_le : s.ws.dataPos ≤ s.ws.offset
  seen : v.seen = if s.ws.dataPos = 0 then [] else (s.buf.take s.ws.offset).drop s.ws.dataPos
  started : v.step = .data → 0 < v.pos
  idle : v.step ≠ .data → s.ws.dataPos = 0

/-- One turn may write the byte under `pData` and the parser's fields, nothing else. -/
structure Kept (s t : Socket) : Prop where
  offset : t.ws.offset = s.ws.offset
  length : t.buf.length = s.buf.length
  before : t.buf.take s.ws.offset = s.buf.take s.ws.offset
  after : t.buf.drop (s.ws.offset + 1) = s.buf.drop (s.ws.offset + 1)
  version : t.version = s.version
  ready : t.ready = s.ready

theorem Kept.refl (s : Socket) : Kept s s := ⟨rfl, rfl, rfl, rfl, rfl, rfl⟩

theorem Kept.setWs (s : Socket) {ws : State} (h : ws.offset = s.ws.offset) :
    Kept s (s.setWs ws) := ⟨h, rfl, rfl, rfl, rfl, rfl⟩

theorem Kept.setByte (s : Socket) (b : UInt8) : Kept s (s.setByte b) := by
  refine ⟨rfl, ?_, ?_, ?_, rfl, rfl⟩
  · simp [Socket.setByte]
  · simp [Socket.setByte, List.take_set_of_le]
  · simp [Socket.setByte, List.drop_set_of_lt]

theorem Kept.emit (s : Socket) (es : List Event) : Kept s (s.emit es) :=
  ⟨rfl, rfl, rfl, rfl, rfl, rfl⟩

theorem Kept.trans {s t u : Socket} (h : Kept s t) (k : Kept t u) : Kept s u := by
  refine ⟨k.offset.trans h.offset, k.length.trans h.length, ?_, ?_,
    k.version.trans h.version, k.ready.trans h.ready⟩
  · rw [← h.before, ← h.offset, k.before]
  · rw [← h.after, ← h.offset, k.after]

/-- The `for` loop's own step and `frame_pos++`. -/
def advance (s : Socket) : Socket :=
  s.setWs { s.ws with offset := s.ws.offset + 1, framePos := s.ws.framePos + 1 }

/-- The turn at `s` brought the view to `v` with the effects `es`: the loop goes on, and not
with an emptied buffer, or it returned because the read ended with the frame. -/
inductive Turned (s : Socket) (v : View) (es : List Event) : Turn → Prop where
  | go (t : Socket) (kept : Kept s t) (log : t.log = s.log ++ es) (sim : Sim v (advance t))
      (more : v.pos = 0 → s.ws.offset + 1 < s.buf.length) : Turned s v es (.go t)
  | stop (t : Socket) (last : s.ws.offset + 1 = s.buf.length) (log : t.log = s.log ++ es)
      (sim : Sim v t) (empty : t.buf = []) (version : t.version = s.version)
      (ready : t.ready = s.ready) : Turned s v es (.stop t)

theorem Turned.of_kept {s t : Socket} {v : View} {es : List Event} {r : Turn}
    (h : Turned t v es r) (k : Kept s t) (hlog : t.log = s.log) : Turned s v es r := by
  cases h with
  | go u kept log sim more =>
    refine .go u (k.trans kept) (hlog ▸ log) sim fun hv => ?_
    rw [← k.offset, ← k.length]
    exact more hv
  | stop u last log sim empty version ready =>
    refine .stop u ?_ (hlog ▸ log) sim empty (version.trans k.version) (ready.trans k.ready)
    rw [← k.offset, ← k.length]
    exact last

/-- A turn that stays inside the frame and brings no data. -/
theorem turned_next {v w w' : View} {s : Socket} {ws : State} {es : List Event} (h : Sim v s)
    (hlt : s.ws.offset < s.buf.length) (hstep : v.step ≠ .data) (hw : w.next = some (w', es))
    (ha : Agree w ws) (hpos : w.pos = v.pos) (hseen : w.seen = v.seen)
    (hoff : ws.offset = s.ws.offset) (hdata : ws.dataPos = s.ws.dataPos) :
    Turned s w' es (.go (s.setWs ws)) := by
  simp only [View.next, Option.some.injEq, Prod.mk.injEq] at hw
  obtain ⟨rfl, rfl⟩ := hw
  have hzero : ws.dataPos = 0 := hdata.trans (h.idle hstep)
  have hnil : v.seen = [] := by simpa [h.idle hstep] using h.seen
  refine .go _ (Kept.setWs s hoff) (by simp [Socket.setWs])
    ⟨⟨ha.step, ha.key, ha.keyPos, ha.payload, ha.inkey, ?_⟩, ?_, ?_, ?_, ?_,
      fun _ => Nat.succ_pos _, fun _ => hzero⟩ fun h0 => absurd h0 (Nat.succ_ne_zero _)
  · simp [advance, Socket.setWs, ha.pos]
  · simp only [advance, Socket.setWs, hoff, hpos]
    have := h.pos_le
    omega
  · simp only [advance, Socket.setWs, hoff]
    omega
  · simp [advance, Socket.setWs, hzero]
  · simp [advance, Socket.setWs, hzero, hseen, hnil]

/-- The data of the frame once the byte under `pData` counts as read. -/
theorem seen_extend {v : View} {s : Socket} (h : Sim v s) (hlt : s.ws.offset < s.buf.length) :
    (s.buf.take (s.ws.offset + 1)).drop
      (if s.ws.dataPos = 0 then s.ws.offset else s.ws.dataPos) = v.seen ++ [s.byte] := by
  have hbyte : s.buf.take (s.ws.offset + 1) = s.buf.take s.ws.offset ++ [s.byte] := by
    rw [List.take_succ_eq_append_getElem hlt]
    simp [Socket.byte, List.getD, hlt]
  have hle := h.dataPos_le
  rw [hbyte, h.seen]
  split
  · rw [List.drop_append_of_le_length (by simp; omega)]
    simp
  · rw [List.drop_append_of_le_length (by simp; omega)]

theorem frameDone_turned {v : View} {s t : Socket} {es : List Event}
    (hlt : s.ws.offset < s.buf.length) (k : Kept s t) (hlog : t.log = s.log ++ es)
    (ha : Agree v { t.ws with framePos := 0 }) (hneg : t.ws.framePos = -1)
    (hkey : t.ws.keyPos = 0) (hdata : t.ws.dataPos = 0) (hseen : v.seen = [])
    (hstep : v.step ≠ .data) : Turned s v es (frameDone t) := by
  have hvpos : v.pos = 0 := by
    have := ha.pos
    simp only at this
    omega
  unfold frameDone
  split
  · next hlast =>
    rw [k.offset, k.length] at hlast
    refine .stop _ hlast hlog ⟨⟨ha.step, ha.key, ?_, ha.payload, ha.inkey, ha.pos⟩, ?_, ?_, ?_, ?_,
      fun h => absurd h hstep, fun _ => hdata⟩ rfl k.version k.ready
    · exact hkey.symm.trans ha.keyPos
    · simp [hvpos]
    · simp
    · simp [hdata]
    · simp [hdata, hseen]
  · next hlast =>
    rw [k.offset, k.length] at hlast
    refine .go t k hlog ⟨⟨ha.step, ha.key, ha.keyPos, ha.payload, ha.inkey, ?_⟩, ?_, ?_, ?_, ?_,
      fun h => absurd h hstep, fun _ => hdata⟩ fun _ => by omega
    · simp [advance, Socket.setWs, hneg, hvpos]
    · simp [hvpos]
    · simp only [advance, Socket.setWs, k.offset, k.length]
      omega
    · simp [advance, Socket.setWs, hdata]
    · simp [advance, Socket.setWs, hdata, hseen]

theorem endFrame_turned {d : Draft} {v v' : View} {s t : Socket} {es : List Event}
    (hfirst : d.first ≠ .data) (hlt : s.ws.offset < s.buf.length) (k : Kept s t)
    (hlog : t.log = s.log) (ha : Agree v t.ws)
    (hdata : (t.buf.take (t.ws.offset + 1)).drop t.ws.dataPos = v.seen)
    (hv : v.finish d = some (v', es)) : Turned s v' es (endFrame d t) := by
  unfold View.finish at hv
  unfold endFrame
  simp only [Socket.setWs, hdata, ha.payload] at hv ⊢
  split at hv
  · cases hv
  · next hclose =>
    rw [if_neg hclose]
    split at hv
    · next hping =>
      rw [if_pos hping]
      split at hv
      · cases hv
      · next hlen =>
        rw [if_neg hlen]
        cases hv
        exact frameDone_turned hlt (k.trans ⟨rfl, rfl, rfl, rfl, rfl, rfl⟩)
          (by simp [Socket.emit, hlog]) ⟨rfl, ha.key, rfl, rfl, ha.inkey, rfl⟩ rfl rfl rfl rfl hfirst
    · next hping =>
      rw [if_neg hping]
      split at hv
      · next hpong =>
        rw [if_pos hpong]
        cases hv
        exact frameDone_turned hlt (k.trans ⟨rfl, rfl, rfl, rfl, rfl, rfl⟩)
          (by simp [hlog]) ⟨rfl, ha.key, rfl, rfl, ha.inkey, rfl⟩ rfl rfl rfl rfl hfirst
      · next hpong =>
        rw [if_neg hpong]
        cases hv
        exact frameDone_turned hlt (k.trans ⟨rfl, rfl, rfl, rfl, rfl, rfl⟩)
          (by simp [Socket.emit, hlog]) ⟨rfl, ha.key, rfl, rfl, ha.inkey, rfl⟩ rfl rfl rfl rfl hfirst

theorem countDown_turned {d : Draft} {v v' : View} {s : Socket} {b : UInt8} {es : List Event}
    (hfirst : d.first ≠ .data) (h : Sim v s) (hlt : s.ws.offset < s.buf.length)
    (hstep : v.step = .data) (hb : s.byte = b) (hv : v.count d b = some (v', es)) :
    Turned s v' es (countDown d s) := by
  subst hb
  have hpos : 0 < s.ws.offset := lt_of_lt_of_le (h.started hstep) h.pos_le
  have hseen := seen_extend h hlt
  have hdle := h.dataPos_le
  unfold View.count at hv
  unfold countDown
  simp only [h.agree.payload] at hv ⊢
  split at hv
  · next hleft =>
    rw [if_pos hleft]
    refine endFrame_turned hfirst hlt (Kept.setWs s rfl) rfl ?_ ?_ hv
    · exact ⟨h.agree.step, h.agree.key, h.agree.keyPos, rfl, h.agree.inkey, h.agree.pos⟩
    · exact hseen
  · next hleft =>
    rw [if_neg hleft]
    cases hv
    refine .go _ (Kept.setWs s rfl) (by simp [Socket.setWs])
      ⟨⟨h.agree.step, h.agree.key, h.agree.keyPos, rfl, h.agree.inkey, ?_⟩, ?_, hlt, ?_, ?_,
        fun _ => Nat.succ_pos _, fun hne => absurd hstep hne⟩ fun h0 => absurd h0 (Nat.succ_ne_zero _)
    · simp [advance, Socket.setWs, h.agree.pos]
    · have := h.pos_le
      simp only [advance, Socket.setWs]
      omega
    · simp only [advance, Socket.setWs]
      split <;> omega
    · have hne : (if s.ws.dataPos = 0 then s.ws.offset else s.ws.dataPos) ≠ 0 := by
        split <;> omega
      exact hseen.symm.trans (if_neg hne).symm

/-- A parser loop whose every turn follows a view. -/
def Follows (byte : View → UInt8 → Option (View × List Event)) (turn : Socket → Turn) : Prop :=
  ∀ (v v' : View) (s : Socket) (es : List Event), Sim v s → s.ws.offset < s.buf.length →
    byte v s.byte = some (v', es) → Turned s v' es (turn s)

theorem Sim.setByte {v : View} {s : Socket} (h : Sim v s) (b : UInt8) : Sim v (s.setByte b) := by
  have k := Kept.setByte s b
  refine ⟨h.agree, h.pos_le, ?_, h.dataPos_le, ?_, h.started, h.idle⟩
  · rw [k.length, k.offset]
    exact h.offset_le
  · rw [h.seen, ← k.before]
    rfl

theorem Sim.setInkey {v : View} {s : Socket} (h : Sim v s) (n : ℕ) :
    Sim { v with inkey := n } (s.setWs { s.ws with dataInkey := n }) := by
  obtain ⟨⟨hstep, hkey, hkeyPos, hpayload, -, hpos⟩, h1, h2, h3, h4, h5, h6⟩ := h
  exact ⟨⟨hstep, hkey, hkeyPos, hpayload, rfl, hpos⟩, h1, h2, h3, h4, h5, h6⟩

theorem setByte_ws (s : Socket) (b : UInt8) : (s.setByte b).ws = s.ws := rfl

theorem byte_setByte {s : Socket} (hlt : s.ws.offset < s.buf.length) (b : UInt8) :
    (s.setByte b).byte = b := by
  simp [Socket.setByte, Socket.byte, List.getD, hlt]

theorem frameByte07_follows : Follows View.byte07 frameByte07 := by
  intro v v' s es h hlt hv
  have ⟨hstep, hkey, hkeyPos, hpayload, hinkey, hpos⟩ := h.agree
  have h3 : (v.pos : ℤ) = 3 ↔ v.pos = 3 := by omega
  have h9 : (v.pos : ℤ) = 9 ↔ v.pos = 9 := by omega
  unfold View.byte07 at hv
  unfold frameByte07
  simp only [hstep, hkey, hkeyPos, hpayload, hinkey, hpos, Int.toNat_natCast, h3, h9]
  cases hs : v.step with
  | key =>
    simp only [hs] at hv ⊢
    refine turned_next h hlt (by simp [hs]) hv ?_ ?_ ?_ ?_ ?_ <;> split <;>
      first | rfl | exact ⟨rfl, rfl, rfl, rfl, rfl, rfl⟩
  | start =>
    simp only [hs] at hv ⊢
    exact turned_next h hlt (by simp [hs]) hv ⟨rfl, rfl, rfl, rfl, rfl, rfl⟩ rfl rfl rfl rfl
  | length =>
    simp only [hs] at hv ⊢
    split at hv
    · cases hv
    · next hmask =>
      rw [if_neg hmask]
      split at hv
      · next h126 =>
        rw [if_pos h126]
        exact turned_next h hlt (by simp [hs]) hv ⟨rfl, rfl, rfl, rfl, rfl, rfl⟩ rfl rfl rfl rfl
      · next h126 =>
        rw [if_neg h126]
        split at hv
        · next h127 =>
          rw [if_pos h127]
          exact turned_next h hlt (by simp [hs]) hv ⟨rfl, rfl, rfl, rfl, rfl, rfl⟩ rfl rfl rfl rfl
        · next h127 =>
          rw [if_neg h127]
          exact turned_next h hlt (by simp [hs]) hv ⟨rfl, rfl, rfl, rfl, rfl, rfl⟩ rfl rfl rfl rfl
  | shortLength | extendedLength =>
    simp only [hs] at hv ⊢
    refine turned_next h hlt (by simp [hs]) hv ?_ ?_ ?_ ?_ ?_ <;> split <;>
      first | rfl | exact ⟨rfl, rfl, rfl, rfl, rfl, rfl⟩
  | data =>
    simp only [hs] at hv ⊢
    generalize hc : s.byte ^^^ v.key.getD (v.inkey % 4) 0 = c at hv ⊢
    refine Turned.of_kept (countDown_turned (by decide) ?_ ?_ ?_ ?_ hv)
      ((Kept.setByte s c).trans (Kept.setWs _ rfl)) rfl
    · simpa only [setByte_ws, hstep, hkey, hkeyPos, hpayload, hpos, hs] using
        (h.setByte c).setInkey (v.inkey + 1)
    · simpa [Socket.setWs, Socket.setByte] using hlt
    · rfl
    · exact byte_setByte hlt c
  | finish =>
    simp only [hs] at hv ⊢
    have ht := turned_next h hlt (by simp [hs]) hv h.agree rfl rfl rfl rfl
    exact ht

/-- The C remainder that selects the key byte, on the positions a deciphered byte can have. -/
theorem toNat_tmod_four (n : ℕ) : (((n : ℤ) - 4).tmod 4).toNat = (n - 4) % 4 := by
  rcases Nat.lt_or_ge n 4 with hn | hn
  · have hneg : ((n : ℤ) - 4).tmod 4 ≤ 0 := by
      have := Int.tmod_nonneg (a := 4 - (n : ℤ)) 4 (by omega)
      rw [← Int.neg_sub, Int.neg_tmod]
      omega
    omega
  · obtain ⟨m, rfl⟩ := Nat.exists_eq_add_of_le hn
    have : (((4 + m : ℕ) : ℤ) - 4) = (m : ℤ) := by push_cast; ring
    rw [this, Int.tmod_eq_emod_of_nonneg (by omega)]
    omega

theorem frameByte06_follows : Follows View.byte06 frameByte06 := by
  intro v v' s es h hlt hv
  have ⟨hstep, hkey, hkeyPos, hpayload, hinkey, hpos⟩ := h.agree
  have h3 : (v.pos : ℤ) = 3 ↔ v.pos = 3 := by omega
  have h7 : (v.pos : ℤ) = 7 ↔ v.pos = 7 := by omega
  have h13 : (v.pos : ℤ) = 13 ↔ v.pos = 13 := by omega
  have h4 : ((v.pos : ℤ) - 4).toNat = v.pos - 4 := by omega
  unfold View.byte06 at hv
  unfold frameByte06
  simp only [hstep, hkey, hkeyPos, hpayload, hinkey, hpos, Int.toNat_natCast, toNat_tmod_four,
    h3, h7, h13, h4]
  generalize hc : (if v.step = .key then s.byte
    else s.byte ^^^ v.key.getD ((v.pos - 4) % 4) 0) = c at hv ⊢
  refine Turned.of_kept ?_ (Kept.setByte s c) rfl
  replace h := h.setByte c
  have hlt' : (s.setByte c).ws.offset < (s.setByte c).buf.length := by
    simpa [Socket.setByte] using hlt
  cases hs : v.step with
  | key =>
    simp only [hs] at hv ⊢
    refine turned_next h hlt' (by simp [hs]) hv ?_ ?_ ?_ ?_ ?_ <;> split <;>
      first | rfl | exact ⟨rfl, rfl, rfl, rfl, rfl, rfl⟩
  | start =>
    simp only [hs] at hv ⊢
    exact turned_next h hlt' (by simp [hs]) hv ⟨rfl, rfl, rfl, rfl, rfl, rfl⟩ rfl rfl rfl rfl
  | length =>
    simp only [hs] at hv ⊢
    split at hv
    · next h126 =>
      rw [if_pos h126]
      exact turned_next h hlt' (by simp [hs]) hv ⟨rfl, rfl, rfl, rfl, rfl, rfl⟩ rfl rfl rfl rfl
    · next h126 =>
      rw [if_neg h126]
      split at hv
      · next h127 =>
        rw [if_pos h127]
        exact turned_next h hlt' (by simp [hs]) hv ⟨rfl, rfl, rfl, rfl, rfl, rfl⟩ rfl rfl rfl rfl
      · next h127 =>
        rw [if_neg h127]
        exact turned_next h hlt' (by simp [hs]) hv ⟨rfl, rfl, rfl, rfl, rfl, rfl⟩ rfl rfl rfl rfl
  | shortLength | extendedLength =>
    simp only [hs] at hv ⊢
    refine turned_next h hlt' (by simp [hs]) hv ?_ ?_ ?_ ?_ ?_ <;> split <;>
      first | rfl | exact ⟨rfl, rfl, rfl, rfl, rfl, rfl⟩
  | data =>
    simp only [hs] at hv ⊢
    exact countDown_turned (by decide) h hlt' hs (byte_setByte hlt c) hv
  | finish =>
    simp only [hs] at hv ⊢
    have ht := turned_next h hlt' (by simp [hs]) hv h.agree rfl rfl rfl rfl
    exact ht

/-- Between two reads the whole buffer has been parsed, and it is empty between two frames. -/
structure Rest (v : View) (s : Socket) : Prop where
  sim : Sim v s
  parsed : s.ws.offset = s.buf.length
  empty : v.pos = 0 → s.buf = []

section Loop

variable {byte : View → UInt8 → Option (View × List Event)} {turn : Socket → Turn}

/-- What a loop leaves: the view it reached, its effects, and no more bytes than it had. -/
structure Parsed (s : Socket) (v : View) (es : List Event) (t : Socket) : Prop where
  rest : Rest v t
  log : t.log = s.log ++ es
  length_le : t.buf.length ≤ s.buf.length
  version : t.version = s.version
  ready : t.ready = s.ready

theorem byte_cons_drop {s : Socket} (hlt : s.ws.offset < s.buf.length) :
    s.buf.drop s.ws.offset = s.byte :: s.buf.drop (s.ws.offset + 1) := by
  rw [List.drop_eq_getElem_cons hlt]
  simp [Socket.byte, List.getD, hlt]

theorem frameLoop_parsed (hf : Follows byte turn) {n : ℕ} {v v' : View} {s : Socket}
    {es : List Event} (h : Sim v s) (hn : s.ws.offset + n = s.buf.length) (hpos : 0 < n ∨ v.pos ≠ 0)
    (hv : View.run byte v (s.buf.drop s.ws.offset) = some (v', es)) :
    Parsed s v' es (frameLoop turn n s) := by
  induction n generalizing v s es with
  | zero =>
    rw [List.drop_eq_nil_of_le (by omega)] at hv
    cases hv
    exact ⟨⟨h, hn, fun h0 => absurd h0 (hpos.resolve_left (Nat.lt_irrefl 0))⟩,
      (List.append_nil _).symm, le_rfl, rfl, rfl⟩
  | succ n ih =>
    have hlt : s.ws.offset < s.buf.length := by omega
    rw [byte_cons_drop hlt] at hv
    unfold View.run at hv
    split at hv
    · cases hv
    · next w es₁ hw =>
      simp only [Option.map_eq_some_iff, Prod.mk.injEq] at hv
      obtain ⟨⟨v₂, es₂⟩, hrun, rfl, rfl⟩ := hv
      unfold frameLoop
      have ht := hf v w s es₁ h hlt hw
      cases hturn : turn s with
      | go t =>
        rw [hturn] at ht
        cases ht with
        | go _ kept log sim more =>
        have hoff : (advance t).ws.offset = s.ws.offset + 1 := by
          simp [advance, Socket.setWs, kept.offset]
        have hbuf : (advance t).buf = t.buf := rfl
        have hmore : 0 < n ∨ w.pos ≠ 0 := by
          rcases Nat.eq_zero_or_pos n with rfl | hn0
          · refine .inr fun h0 => ?_
            have := more h0
            omega
          · exact .inl hn0
        have hp := ih sim (by rw [hoff, hbuf, kept.length]; omega) hmore
          (by rw [hoff, hbuf, kept.after]; exact hrun)
        refine ⟨hp.rest, ?_, ?_, hp.version.trans kept.version, hp.ready.trans kept.ready⟩
        · exact hp.log.trans (by simp [advance, Socket.setWs, log])
        · exact hp.length_le.trans (by rw [hbuf, kept.length])
      | stop t =>
        rw [hturn] at ht
        cases ht with
        | stop _ last log sim empty version ready =>
        rw [List.drop_eq_nil_of_le (by omega)] at hrun
        cases hrun
        have hoff : t.ws.offset = t.buf.length := by
          have := sim.offset_le
          simp only [empty, List.length_nil] at this ⊢
          omega
        exact ⟨⟨sim, hoff, fun _ => empty⟩, by simpa using log, by simp [empty], version, ready⟩

theorem receive_parsed (hf : Follows byte turn) {read : Bytes} {v v' : View} {s : Socket}
    {es : List Event} (hread : read ≠ []) (h : Rest v s)
    (hproc : receive s read =
      frameLoop turn (s.buf.length + read.length - s.ws.offset) { s with buf := s.buf ++ read })
    (hv : View.run byte v read = some (v', es)) :
    Parsed { s with buf := s.buf ++ read } v' es (receive s read) := by
  have ⟨hagree, hpos, _, hdata, hseen, hstarted, hidle⟩ := h.sim
  rw [hproc]
  refine frameLoop_parsed hf (v := v) ⟨hagree, hpos, ?_, hdata, ?_, hstarted, hidle⟩ ?_ ?_ ?_
  · simp [h.parsed]
  · rw [hseen, List.take_append_of_le_length h.parsed.le]
  · simp [h.parsed]
  · have := List.length_pos_iff.mpr hread
    exact .inl (by omega)
  · simpa [h.parsed] using hv

/-- Any split of some bytes into reads leads to where the view goes on all of them. -/
theorem reads_parsed (hf : Follows byte turn) (version : Version)
    (hproc : ∀ s : Socket, s.version = version → s.ready ≠ 1 → s.buf ≠ [] →
      s.buf.length ≤ 502400 → processWebsocket s = frameLoop turn (s.buf.length - s.ws.offset) s)
    {reads : List Bytes} (hreads : ∀ r ∈ reads, r ≠ []) {v w : View} {s : Socket}
    {es : List Event} (h : Rest v s) (hversion : s.version = version) (hready : s.ready ≠ 1)
    (hsize : s.buf.length + reads.flatten.length ≤ 502400)
    (hv : View.run byte v reads.flatten = some (w, es)) :
    Rest w (reads.foldl receive s) ∧ (reads.foldl receive s).log = s.log ++ es := by
  induction reads generalizing v s es with
  | nil =>
    cases hv
    exact ⟨h, (List.append_nil _).symm⟩
  | cons read reads ih =>
    simp only [List.flatten_cons, List.length_append, List.foldl_cons] at hsize hv ⊢
    obtain ⟨u, es₁, es₂, h₁, h₂, rfl⟩ := View.run_append_split hv
    have hread := hreads read List.mem_cons_self
    have hloop : receive s read = frameLoop turn (s.buf.length + read.length - s.ws.offset)
        { s with buf := s.buf ++ read } := by
      have := hproc { s with buf := s.buf ++ read } hversion hready (by simp [hread])
        (by simp only [List.length_append]; omega)
      simpa only [receive, List.length_append] using this
    have hp := receive_parsed hf hread h hloop h₁
    have hle := hp.length_le
    simp only [List.length_append] at hle
    obtain ⟨hrest, hlog⟩ := ih (fun r hr => hreads r (List.mem_cons_of_mem _ hr)) hp.rest
      (hp.version.trans hversion) (hp.ready.symm ▸ hready) (by omega) h₂
    exact ⟨hrest, by rw [hlog, hp.log, List.append_assoc]⟩

end Loop

end ApeServer.Websocket
