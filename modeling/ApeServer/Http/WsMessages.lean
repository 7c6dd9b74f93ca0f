import ApeServer.Http.Websocket

/-!
# Messages of the older framings

`WS_OLD` and `WS_76` put a text between the bytes 0x00 and 0xFF.
-/
namespace ApeServer.Websocket

open Sock (Bytes)

/-- `while (data++ != &buffer->data[buffer->length])` with `n` turns to go; the byte at
`length` is the NUL that was stored there. -/
def scanLoop (buf : Bytes) : ℕ → ℕ → Option ℕ
  | 0, _ => none
  | n + 1, data =>
    if buf.getD (data + 1) 0 = 0xFF then some (data + 1) else scanLoop buf n (data + 1)

/-- The loop, started at or before the end of the input, finds what `scanOld` finds. -/
theorem scanLoop_eq_scanOld {buf : Bytes} (n : ℕ) : ∀ {data : ℕ}, data + n = buf.length →
    scanLoop buf n data = scanOld buf data := by
  induction n with
  | zero =>
    intro data h
    have hnil : buf.drop (data + 1) = [] := List.drop_eq_nil_of_le (by omega)
    simp [scanLoop, scanOld, hnil]
  | succ n ih =>
    intro data h
    by_cases hlast : data + 1 = buf.length
    · -- the last turn looks at the NUL
      obtain rfl : n = 0 := by omega
      have hnil : buf.drop (data + 1) = [] := List.drop_eq_nil_of_le (by omega)
      have hnul : buf.getD (data + 1) 0 = 0 := by simp [hlast]
      simp only [scanLoop, scanOld, hnil, hnul]
      rfl
    · have hlt : data + 1 < buf.length := by omega
      have hget : buf.getD (data + 1) 0 = buf[data + 1] := by simp [hlt]
      simp only [scanLoop, scanOld, List.drop_eq_getElem_cons hlt, List.findIdx?_cons, hget]
      by_cases hb : buf[data + 1] = 0xFF
      · simp [hb]
      · simp only [hb, ↓reduceIte, decide_false, Bool.false_eq_true]
        rw [ih (by omega), scanOld]
        cases (buf.drop (data + 1 + 1)).findIdx? (· = 0xFF) <;> simp
        omega

/-- A message that the framing can carry. -/
structure Message where
  text : Bytes
  text_ne : text ≠ []
  clean : ∀ b ∈ text, b ≠ 0x00 ∧ b ≠ 0xFF

def Message.encode (m : Message) : Bytes := 0x00 :: (m.text ++ [0xFF])

/-- The beginning of a frame whose 0xFF has not arrived. -/
def Partial (part : Bytes) : Prop := part = [] ∨ ∃ q, part = 0x00 :: q ∧ 0xFF ∉ q

variable {s : Socket} {part : Bytes}

theorem not_mem_text (m : Message) : 0xFF ∉ m.text := fun hm => (m.clean _ hm).2 rfl

/-- Any beginning of a stream of frames is some whole frames and a part of the next. -/
theorem cut_frames (ms : List Message) : ∀ {got left : Bytes},
    got ++ left = ms.flatMap Message.encode →
    ∃ done rest part, ms = done ++ rest ∧ got = done.flatMap Message.encode ++ part ∧
      Partial part ∧ part ++ left = rest.flatMap Message.encode := by
  induction ms with
  | nil =>
    intro got left h
    obtain ⟨rfl, rfl⟩ := List.append_eq_nil_iff.mp h
    exact ⟨[], [], [], rfl, rfl, .inl rfl, rfl⟩
  | cons m ms ih =>
    intro got left h
    have whole : ∀ got', got = m.encode ++ got' → got' ++ left = ms.flatMap Message.encode →
        ∃ done rest part, m :: ms = done ++ rest ∧
          got = done.flatMap Message.encode ++ part ∧ Partial part ∧
          part ++ left = rest.flatMap Message.encode := by
      intro got' hgot hleft
      obtain ⟨done, rest, part, rfl, rfl, hp, hr⟩ := ih hleft
      exact ⟨m :: done, rest, part, rfl, by simp [hgot], hp, hr⟩
    rw [List.flatMap_cons, List.append_eq_append_iff] at h
    obtain ⟨more, hm, hleft⟩ | ⟨got', hgot, hms⟩ := h
    · obtain rfl | ⟨more, last, rfl⟩ := more.eq_nil_or_concat
      · exact whole [] (by simpa using hm.symm) (by simpa using hleft)
      · -- the frame is cut in front of its last byte
        refine ⟨[], m :: ms, got, rfl, rfl, ?_, by simp [hleft, hm]⟩
        have hpre : got ++ more = 0x00 :: m.text := by
          have hcat : (got ++ more) ++ [last] = (0x00 :: m.text) ++ [0xFF] := by
            simpa [Message.encode] using hm.symm
          exact (List.append_inj' hcat rfl).1
        cases got with
        | nil => exact .inl rfl
        | cons b q =>
          simp only [List.cons_append, List.cons.injEq] at hpre
          refine .inr ⟨q, by rw [hpre.1], fun hq => not_mem_text m ?_⟩
          rw [← hpre.2]
          exact List.mem_append_left _ hq
    · exact whole got' hgot hms.symm

/-- A complete stream leaves no part behind. -/
theorem rest_nil_of_partial {rest : List Message} (hp : Partial part)
    (h : part = rest.flatMap Message.encode) : rest = [] := by
  cases rest with
  | nil => rfl
  | cons m rest =>
    obtain rfl | ⟨q, rfl, hq⟩ := hp
    · simp [Message.encode] at h
    · simp only [List.flatMap_cons, Message.encode, List.cons_append, List.cons.injEq] at h
      exact absurd (by simp [h.2]) hq

/-- The parser after the frames of `done`, with `part` of the next one in the buffer. -/
structure Reading (done : List Message) (part : Bytes) (s : Socket) : Prop where
  old : s.version = .old ∨ s.version = .v76
  ready : s.ready ≠ 1
  log : s.log = done.map fun m => .ready m.text
  tail : s.buf.drop s.ws.offset = part
  offset : s.ws.offset ≤ s.buf.length
  empty : part = [] → s.buf = []

theorem scanOld_partial {q : Bytes} (hq : 0xFF ∉ q) (htail : s.buf.drop s.ws.offset = 0x00 :: q) :
    scanOld s.buf (s.ws.offset + 1) = none := by
  have hdrop : s.buf.drop (s.ws.offset + 1 + 1) = q.tail := by
    rw [Nat.add_assoc, ← List.drop_drop, htail]
    simp
  simp only [scanOld, hdrop, Option.map_eq_none_iff, List.findIdx?_eq_none_iff,
    decide_eq_false_iff_not]
  rintro b hb rfl
  exact hq (List.mem_of_mem_tail hb)

/-- The scan starts behind the first byte of the text, which is not 0xFF, and stops at
the end of the frame. -/
theorem scanOld_message {m : Message} {after : Bytes}
    (htail : s.buf.drop s.ws.offset = m.encode ++ after) :
    scanOld s.buf (s.ws.offset + 1) = some (s.ws.offset + 1 + m.text.length) := by
  have htext := m.text_ne
  cases hm : m.text with
  | nil => exact absurd hm htext
  | cons b text =>
    have hdrop : s.buf.drop (s.ws.offset + 1 + 1) = text ++ 0xFF :: after := by
      rw [Nat.add_assoc, ← List.drop_drop, htail]
      simp [Message.encode, hm]
    have hno : ∀ c ∈ text, decide (c = 0xFF) = false := by
      intro c hc
      exact decide_eq_false (m.clean c (by simp [hm, hc])).2
    have hfind : (text ++ 0xFF :: after).findIdx? (· = 0xFF) = some text.length := by
      rw [List.findIdx?_append, List.findIdx?_eq_none_iff.mpr hno, List.findIdx?_cons]
      simp
    simp only [scanOld, hdrop, hfind, Option.map_some, List.length_cons]
    congr 1
    omega

theorem byte_of_tail {b : UInt8} {q : Bytes} (htail : s.buf.drop s.ws.offset = b :: q) :
    s.byte = b := by
  have h := congrArg List.head? htail
  rw [List.head?_drop] at h
  simp [Socket.byte, h]

theorem processOld_nil (hbuf : s.buf = []) : processOld s = s := by
  rw [processOld]
  split
  · rfl
  · rename_i j hs
    simp [scanOld, hbuf] at hs

theorem processOld_unended {q : Bytes} (hq : 0xFF ∉ q)
    (htail : s.buf.drop s.ws.offset = 0x00 :: q) : processOld s = s := by
  rw [processOld]
  have hb := byte_of_tail htail
  split
  · rfl
  · rename_i j hs
    simp [hb, scanOld_partial hq htail] at hs

/-- What a frame at `offset` leads to. -/
theorem processOld_message {m : Message} {after : Bytes}
    (htail : s.buf.drop s.ws.offset = m.encode ++ after) :
    processOld s =
      let j := s.ws.offset + 1 + m.text.length
      let t := { s with buf := s.buf.set j 0 }.emit [.ready m.text]
      if after = [] then { t with ready := -1, buf := [], ws := { t.ws with offset := 0 } }
      else processOld (t.setWs { t.ws with offset := j + 1 }) := by
  have hb : s.byte = 0 := byte_of_tail htail
  have hlen := congrArg List.length htail
  simp only [List.length_drop, Message.encode, List.length_append, List.length_cons,
    List.length_nil] at hlen
  rw [processOld]
  split
  · rename_i hs
    simp [hb, scanOld_message htail] at hs
  · rename_i j hs
    simp only [hb, ↓reduceIte, scanOld_message htail, Option.some.injEq] at hs
    subst hs
    have hdata : (s.buf.take (s.ws.offset + 1 + m.text.length)).drop (s.ws.offset + 1) = m.text := by
      rw [List.drop_take, ← List.drop_drop, htail]
      simp [Message.encode]
    have hend : s.ws.offset + 1 + m.text.length + 1 = s.buf.length ↔ after = [] := by
      rw [← List.length_eq_zero_iff]
      omega
    simp only [hdata, Socket.emit, List.length_set, hend]

/-- One run of the parser takes all whole frames and keeps the part. -/
theorem processOld_frames (ms : List Message) : ∀ (done : List Message) {s : Socket},
    Partial part → Reading done (ms.flatMap Message.encode ++ part) s →
    Reading (done ++ ms) part (processOld s) ∧
      (processOld s).buf.length ≤ s.buf.length := by
  induction ms with
  | nil =>
    intro done s hp h
    obtain rfl | ⟨q, rfl, hq⟩ := hp
    · rw [processOld_nil (h.empty rfl)]
      exact ⟨by simpa using h, le_rfl⟩
    · rw [processOld_unended hq (by simpa using h.tail)]
      exact ⟨by simpa using h, le_rfl⟩
  | cons m ms ih =>
    intro done s hp h
    have htail : s.buf.drop s.ws.offset = m.encode ++ (ms.flatMap Message.encode ++ part) := by
      simpa using h.tail
    have hlog : s.log ++ [.ready m.text] = (done ++ [m]).map fun m => Event.ready m.text := by
      simp [h.log]
    rw [processOld_message htail]
    by_cases hafter : ms.flatMap Message.encode ++ part = []
    · obtain ⟨hms, rfl⟩ := List.append_eq_nil_iff.mp hafter
      have hnil := rest_nil_of_partial (.inl rfl) hms.symm
      subst hnil
      simp only [hafter, ↓reduceIte]
      exact ⟨⟨h.old, by simp, hlog, rfl, le_rfl, fun _ => rfl⟩, Nat.zero_le _⟩
    · have hlen := congrArg List.length htail
      simp only [List.length_drop, Message.encode, List.length_append, List.length_cons,
        List.length_nil] at hlen
      have hrest : (s.buf.set (s.ws.offset + 1 + m.text.length) 0).drop
          (s.ws.offset + 1 + m.text.length + 1) = ms.flatMap Message.encode ++ part := by
        rw [List.drop_set_of_lt (by omega), show s.ws.offset + 1 + m.text.length + 1 =
          s.ws.offset + m.encode.length by simp [Message.encode]; omega, ← List.drop_drop, htail,
          List.drop_left]
      simp only [hafter, ↓reduceIte]
      obtain ⟨hr, hle⟩ := ih (done ++ [m]) hp
        (s := ({ s with buf := s.buf.set (s.ws.offset + 1 + m.text.length) 0 }.emit
          [.ready m.text]).setWs { s.ws with offset := s.ws.offset + 1 + m.text.length + 1 })
        ⟨h.old, h.ready, hlog, hrest, by simp [Socket.emit, Socket.setWs]; omega,
          fun hnil => absurd hnil hafter⟩
      rw [List.append_cons]
      refine ⟨hr, hle.trans ?_⟩
      simp [Socket.emit, Socket.setWs]

/-- One read, run through the parser. -/
theorem receive_frames {done ms : List Message} {read part' : Bytes} (h : Reading done part s)
    (hp : Partial part') (hread : read ≠ []) (hsize : s.buf.length + read.length ≤ 502400)
    (hcut : part ++ read = ms.flatMap Message.encode ++ part') :
    Reading (done ++ ms) part' (receive s read) ∧
      (receive s read).buf.length ≤ s.buf.length + read.length := by
  have happ : Reading done (ms.flatMap Message.encode ++ part') { s with buf := s.buf ++ read } := by
    refine ⟨h.old, h.ready, h.log, ?_, ?_, fun hnil => ?_⟩
    · rw [← hcut, ← h.tail]
      exact List.drop_append_of_le_length h.offset
    · simp only [List.length_append]
      exact h.offset.trans (Nat.le_add_right _ _)
    · rw [← hcut, List.append_eq_nil_iff] at hnil
      exact absurd hnil.2 hread
  have hproc : receive s read = processOld { s with buf := s.buf ++ read } := by
    have hne : ¬ (s.buf ++ read = [] ∨ s.ready = 1) := by simp [hread, h.ready]
    have hfit : ¬ (s.buf ++ read).length > 502400 := by
      rw [List.length_append]
      omega
    rw [receive, processWebsocket, if_neg hne, if_neg hfit]
    obtain hv | hv := h.old <;> simp only [hv]
  rw [hproc, ← List.length_append]
  exact processOld_frames ms done hp happ

/-- Whatever the split into reads, each message of the stream is handed over once, in
order, and the buffer is empty behind the last one. -/
theorem reads_messages (reads : List Bytes) : ∀ {done rest : List Message} {part : Bytes}
    {s : Socket}, Reading done part s → Partial part → (∀ r ∈ reads, r ≠ []) →
    s.buf.length + reads.flatten.length ≤ 502400 →
    part ++ reads.flatten = rest.flatMap Message.encode →
    (reads.foldl receive s).log = (done ++ rest).map (fun m => .ready m.text) ∧
      (reads.foldl receive s).buf = [] := by
  induction reads with
  | nil =>
    intro done rest part s h hp _ _ hrest
    obtain rfl := rest_nil_of_partial hp (by simpa using hrest)
    exact ⟨by simpa using h.log, h.empty (by simpa using hrest)⟩
  | cons read reads ih =>
    intro done rest part s h hp hne hsize hrest
    simp only [List.flatten_cons, List.length_append] at hsize
    rw [List.flatten_cons, ← List.append_assoc] at hrest
    obtain ⟨ms, rest', part', rfl, hcut, hp', hrest'⟩ := cut_frames rest hrest
    obtain ⟨hr, hle⟩ := receive_frames h hp' (hne read List.mem_cons_self) (by omega) hcut
    have hrun := ih hr hp' (fun r hm => hne r (List.mem_cons_of_mem _ hm)) (by omega) hrest'
    rwa [List.append_assoc] at hrun

/-- Under the older framings every message reaches `onready` exactly once and in order,
for any split of the stream into reads. -/
theorem messages_delivered {version : Version} (hv : version = .old ∨ version = .v76)
    (ms : List Message) (hsize : (ms.flatMap Message.encode).length ≤ 502400)
    (reads : List Bytes) (hreads : ∀ r ∈ reads, r ≠ [])
    (hsplit : reads.flatten = ms.flatMap Message.encode) (key : Bytes) (inkey : ℕ) :
    (reads.foldl receive (newSocket version key inkey)).log = ms.map (fun m => .ready m.text) ∧
      (reads.foldl receive (newSocket version key inkey)).buf = [] := by
  have hnew : Reading [] [] (newSocket version key inkey) :=
    ⟨hv, by simp [newSocket], rfl, rfl, le_rfl, fun _ => rfl⟩
  have hfit : (newSocket version key inkey).buf.length + reads.flatten.length ≤ 502400 := by
    simpa [newSocket, hsplit] using hsize
  exact reads_messages reads hnew (.inl rfl) hreads hfit hsplit

/-- Two messages, of one and of two bytes, cut behind a start byte and inside a text. -/
theorem messages_delivered_split :
    ([[0x00, 97, 0xFF, 0x00], [104], [105, 0xFF]].foldl receive (newSocket .v76 [] 0)).log =
      [.ready [97], .ready [104, 105]] :=
  (messages_delivered (.inr rfl) [⟨[97], by decide, by simp⟩, ⟨[104, 105], by decide, by simp⟩]
    (by decide) [[0x00, 97, 0xFF, 0x00], [104], [105, 0xFF]] (by decide) (by decide) [] 0).1

end ApeServer.Websocket
