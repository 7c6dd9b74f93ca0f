import ApeServer.Http.WsRoundTrip

/-!
# Which bytes are a frame's payload

`process_websocket_frame` counts a frame's payload down in `extended_length`. Here is when it
ends exactly behind the bytes that the header declares.
-/
namespace ApeServer.Websocket

open Sock (Bytes)

/-- The part of a masked frame before its payload: a length in one of the three forms. -/
structure Head where
  start : UInt8
  form : LengthForm
  length : ℕ
  key : Bytes
  key_length : key.length = 4
  fits : form.Fits length

def Head.bytes (h : Head) : Bytes := h.start :: h.form.bytes 0x80 h.length ++ h.key

/-- What is still to be read. -/
def Socket.unread (s : Socket) : Bytes := s.buf.drop s.ws.offset

namespace View

variable {v w : View} {b : UInt8} {bs : Bytes} {es : List Event}

theorem finish_pos {d : Draft} (h : v.finish d = some (w, es)) : w.pos = 0 := by
  unfold finish at h
  simp only at h
  split at h
  · cases h
  · split at h
    · split at h
      · cases h
      · cases h
        rfl
    · split at h <;> cases h <;> rfl

theorem next_pos {u : View} (h : u.next = some (w, es)) (hp : u.pos = v.pos) :
    w.pos = v.pos + 1 := by
  cases h
  simp [hp]

theorem count_pos {d : Draft} {u : View} (h : u.count d b = some (w, es)) (hp : u.pos = v.pos) :
    w.pos = v.pos + 1 ∨ w.pos = 0 := by
  unfold count at h
  simp only at h
  split at h
  · exact .inr (finish_pos h)
  · exact .inl (next_pos h hp)

/-- A byte brings the parser one further in the frame, or behind it. -/
def Paced (byte : View → UInt8 → Option (View × List Event)) : Prop :=
  ∀ {v b w es}, byte v b = some (w, es) → w.pos = v.pos + 1 ∨ w.pos = 0

theorem byte07_paced : Paced byte07 := by
  intro v b w es h
  unfold byte07 at h
  cases hs : v.step <;> simp only [hs] at h
  case key => exact .inl (next_pos h (by split <;> rfl))
  case start => exact .inl (next_pos h rfl)
  case length =>
    split at h
    · cases h
    · split at h
      · exact .inl (next_pos h rfl)
      · split at h <;> exact .inl (next_pos h rfl)
  case shortLength => exact .inl (next_pos h (by split <;> rfl))
  case extendedLength => exact .inl (next_pos h (by split <;> rfl))
  case data => exact count_pos h rfl
  case finish => exact .inl (next_pos h rfl)

theorem byte06_paced : Paced byte06 := by
  intro v b w es h
  unfold byte06 at h
  simp only at h
  generalize (if v.step = .key then b else b ^^^ v.key.getD ((v.pos - 4) % 4) 0) = c at h
  cases hs : v.step <;> simp only [hs] at h
  case key => exact .inl (next_pos h (by split <;> rfl))
  case start => exact .inl (next_pos h rfl)
  case length =>
    split at h
    · exact .inl (next_pos h rfl)
    · split at h <;> exact .inl (next_pos h rfl)
  case shortLength => exact .inl (next_pos h (by split <;> rfl))
  case extendedLength => exact .inl (next_pos h (by split <;> rfl))
  case data => exact count_pos h rfl
  case finish => exact .inl (next_pos h rfl)

theorem run_pos_le {byte : View → UInt8 → Option (View × List Event)} (hp : Paced byte)
    (h : run byte v bs = some (w, es)) : w.pos ≤ v.pos + bs.length := by
  induction bs generalizing v es with
  | nil =>
    cases h
    rfl
  | cons b bs ih =>
    unfold run at h
    split at h
    · cases h
    · next u es₁ hu =>
      simp only [Option.map_eq_some_iff, Prod.mk.injEq] at h
      obtain ⟨⟨w', es₂⟩, hr, rfl, -⟩ := h
      have := ih hr
      simp only [List.length_cons] at this ⊢
      rcases hp hu with hp | hp <;> omega

end View

/-- A view in the payload of the frame `h`, with `n` to count down and `k` bytes seen. -/
structure Inside (h : Head) (n k : ℕ) (v : View) : Prop where
  step : v.step = .data
  key : v.key.length = 4
  payload : v.payload.length = 10
  start : v.payload.getD 0 0 = h.start
  count : extended v.payload = n
  seen : v.seen.length = k

theorem run_head {h : Head} {v : View} (hv : Boundary draft07 v) :
    ∃ w, View.run View.byte07 v h.bytes = some (w, []) ∧ Inside h (h.form.counted h.length) 0 w ∧
      w.pos = v.pos + h.bytes.length := by
  obtain ⟨u, hrun, hu⟩ := run_length h.start 0x80 0x80 .key h.fits hv.step hv.payload (.inr rfl)
    (.inr rfl)
  rw [hv.pos] at hrun
  have hkey := run_key07 hu.step (hu.keyPos.trans hv.keyPos) (hu.key ▸ hv.key) h.key_length
  have hpos := header_run_pos hrun
  refine ⟨{ u with step := .data, key := h.key, keyPos := 4, inkey := 0, pos := u.pos + 4 }, ?_,
    ⟨rfl, h.key_length, hu.payload, hu.start, hu.length, ?_⟩, ?_⟩
  · rw [Head.bytes, View.run_append (run07_of_header hrun), hkey]
    rfl
  · simp [hu.seen, hv.seen]
  · simp only [Head.bytes, List.length_append, h.key_length] at hpos ⊢
    omega

section

variable {s : Socket} (h : Head) (payload rest : Bytes)

end

end ApeServer.Websocket
