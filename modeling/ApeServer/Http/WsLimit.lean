import ApeServer.Http.ReadRoom
import ApeServer.Http.WsLength

/-!
# The limit on the WebSocket buffer

`process_websocket` empties the buffer where a read ends with a frame. The bytes of frames that
have been processed stay in it until then.
-/
namespace ApeServer.Websocket

open Sock (Bytes)

/-- What a client sends. Nothing follows a close. -/
structure Sent (layout : Layout) where
  frames : List Frame
  short : ∀ f ∈ frames, (layout.encode f).length ≤ 65536
  pings : ∀ f ∈ frames, f.start &&& 0x0F = layout.draft.ping → f.payload.length ≤ 125
  close : ∀ f ∈ frames.dropLast, f.start &&& 0x0F ≠ layout.draft.close

def Sent.bytes {layout : Layout} (sent : Sent layout) : Bytes :=
  sent.frames.flatMap layout.encode

/-- Some of the frames, from the first on, have `n` bytes. -/
def endsAt (layout : Layout) : List Frame → ℕ → Bool
  | [], n => n = 0
  | f :: frames, n => n = 0 ||
    ((layout.encode f).length ≤ n && endsAt layout frames (n - (layout.encode f).length))

/-- No read brings the bytes since the last read that ended with a frame above the limit. Of the
stream `total` bytes have been read before, and `held` of them since such a read. -/
def Aligned (ends : ℕ → Bool) : ℕ → ℕ → List Bytes → Prop
  | _, _, [] => True
  | total, held, read :: reads =>
    held + read.length ≤ 502400 ∧
      Aligned ends (total + read.length)
        (if ends (total + read.length) then 0 else held + read.length) reads

/-! ### The view inside a frame -/

def Layout.byte : Layout → View → UInt8 → Option (View × List Event)
  | .ietf06 => View.byte06
  | .ietf07 => View.byte07

def Layout.turn : Layout → Socket → Turn
  | .ietf06 => frameByte06
  | .ietf07 => frameByte07

variable {layout : Layout} {f : Frame} {frames : List Frame} {u v w : View} {s t : Socket}
  {p q read rest : Bytes} {es : List Event} {reads : List Bytes} {held : ℕ}

theorem Layout.byte_paced (layout : Layout) : View.Paced layout.byte := by
  cases layout
  · exact View.byte06_paced
  · exact View.byte07_paced

theorem Layout.turn_follows (layout : Layout) : Follows layout.byte layout.turn := by
  cases layout
  · exact frameByte06_follows
  · exact frameByte07_follows

/-- Behind the head every byte is counted, whatever its mask. -/
theorem Layout.byte_data (layout : Layout) (hstep : v.step = .data) (b : UInt8) :
    ∃ (u : View) (c : UInt8), u.step = .data ∧ u.payload = v.payload ∧ u.pos = v.pos ∧
      layout.byte v b = u.count layout.draft c := by
  cases layout with
  | ietf06 =>
    refine ⟨v, b ^^^ v.key.getD ((v.pos - 4) % 4) 0, hstep, rfl, rfl, ?_⟩
    simp [Layout.byte, View.byte06, hstep, Layout.draft]
  | ietf07 =>
    refine ⟨{ v with inkey := v.inkey + 1 }, b ^^^ v.key.getD (v.inkey % 4) 0, hstep, rfl, rfl, ?_⟩
    simp [Layout.byte, View.byte07, hstep, Layout.draft]

/-- Bytes that do not end the data. -/
theorem run_counted (layout : Layout) {bs : Bytes} {n : ℕ} (hstep : v.step = .data)
    (hpayload : 2 ≤ v.payload.length) (hext : extended v.payload = n) (hn : n < 2 ^ 64)
    (hlt : bs.length < n) :
    ∃ w, View.run layout.byte v bs = some (w, []) ∧ w.pos = v.pos + bs.length := by
  induction bs generalizing v n with
  | nil => exact ⟨v, rfl, rfl⟩
  | cons b bs ih =>
    simp only [List.length_cons] at hlt
    obtain ⟨n, rfl⟩ : ∃ m, n = m + 1 := ⟨n - 1, by omega⟩
    obtain ⟨u, c, hu, hup, hupos, hb⟩ := layout.byte_data hstep b
    rw [count_eq (by rw [hup]; exact hpayload) (by rw [hup]; exact hext) hn,
      if_neg (by omega)] at hb
    obtain ⟨w, hrun, hpos⟩ := ih (n := n)
      (v := { u with payload := setExtended u.payload n, seen := u.seen ++ [c], pos := u.pos + 1 })
      hu (by rw [setExtended_length _ _ (hup ▸ hpayload)]; decide)
      (extended_setExtended _ _ (hup ▸ hpayload) (by omega)) (by omega) (by omega)
    refine ⟨w, ?_, ?_⟩
    · rw [run_cons_of_next hb]
      exact hrun
    · rw [hpos, List.length_cons]
      simp only [hupos]
      omega

/-- The head of a frame, and its data. -/
theorem encode_parts (layout : Layout) (hsize : f.payload.length < 2 ^ 32)
    (hv : Boundary layout.draft v) : ∃ head data u, layout.encode f = head ++ data ∧
      data.length = f.payload.length ∧ View.run layout.byte v head = some (u, []) ∧
      AtData f head.length u := by
  cases layout with
  | ietf06 =>
    obtain ⟨u, hrun, hu⟩ := run_head06 hsize hv
    exact ⟨_, _, u, encode06_eq f, mask_length _ _ _, hrun, hu⟩
  | ietf07 =>
    obtain ⟨u, hrun, hu, -⟩ := run_head07 hsize hv
    exact ⟨f.head07, _, u, rfl, mask_length _ _ _, hrun, hu⟩

/-- In front of the last byte of a frame the view is inside it. -/
theorem frame_prefix (layout : Layout) (hsize : f.payload.length < 2 ^ 32)
    (hv : Boundary layout.draft v) (h : layout.encode f = p ++ q) (hq : q ≠ []) :
    ∃ w es, View.run layout.byte v p = some (w, es) ∧ w.pos = p.length := by
  obtain ⟨head, data, u, hencode, hdata, hrun, hu⟩ := encode_parts layout hsize hv
  have hne : data ≠ [] := by
    rintro rfl
    exact f.payload_ne (List.length_eq_zero_iff.mp hdata.symm)
  have hpos := List.length_pos_iff.mpr hne
  have hinit : data.dropLast.length < f.payload.length := by
    rw [List.length_dropLast]
    omega
  obtain ⟨w, hinit, hwpos⟩ := run_counted layout hu.step (by rw [hu.payload]; decide) hu.length
    (by omega) hinit
  have hall : View.run layout.byte v (head ++ data.dropLast) = some (w, []) := by
    rw [View.run_append hrun, hinit]
    rfl
  have hcut : head ++ data.dropLast = p ++ q.dropLast := by
    rw [← List.dropLast_append_of_ne_nil hne, ← List.dropLast_append_of_ne_nil hq, ← hencode, h]
  rw [hcut] at hall
  obtain ⟨x, es₁, es₂, hp, hq', -⟩ := View.run_append_split hall
  have hle := View.run_pos_le layout.byte_paced hp
  have hle' := View.run_pos_le layout.byte_paced hq'
  have hlen := congrArg List.length hcut
  rw [hu.pos] at hwpos
  simp only [List.length_append, hv.pos] at hlen hle
  exact ⟨x, es₁, hp, by omega⟩

theorem run_frame (layout : Layout) (hvalid : f.Valid layout.draft)
    (hsize : f.payload.length < 2 ^ 32) (hv : Boundary layout.draft v) :
    ∃ w, View.run layout.byte v (layout.encode f) = some (w, f.answer layout.draft) ∧
      Boundary layout.draft w := by
  cases layout with
  | ietf06 => exact run_frame06 hvalid hsize hv
  | ietf07 => exact run_frame07 hvalid hsize hv

theorem encode_pos (layout : Layout) (f : Frame) : 0 < (layout.encode f).length :=
  (List.length_pos_iff.mpr f.payload_ne).trans_le (payload_le_encode layout f)

/-- In front of the end of a stream the view stands between two frames where these end. -/
theorem stream_prefix (layout : Layout) (hsize : ∀ f ∈ frames, f.payload.length < 2 ^ 32)
    (hvalid : ∀ f ∈ frames.dropLast, f.Valid layout.draft) (hv : Boundary layout.draft v)
    (h : frames.flatMap layout.encode = p ++ q) (hq : q ≠ []) :
    ∃ w es, View.run layout.byte v p = some (w, es) ∧
      (w.pos = 0 ↔ endsAt layout frames p.length = true) := by
  induction frames generalizing v p with
  | nil =>
    rw [List.flatMap_nil] at h
    exact absurd (List.append_eq_nil_iff.mp h.symm).2 hq
  | cons f frames ih =>
    have hflen := encode_pos layout f
    have whole : ∀ p', p = layout.encode f ++ p' → frames.flatMap layout.encode = p' ++ q →
        ∃ w es, View.run layout.byte v p = some (w, es) ∧
          (w.pos = 0 ↔ endsAt layout (f :: frames) p.length = true) := by
      rintro p' rfl hrest
      have hne : frames ≠ [] := by
        rintro rfl
        exact hq (List.append_eq_nil_iff.mp hrest.symm).2
      rw [List.dropLast_cons_of_ne_nil hne] at hvalid
      obtain ⟨u, hrun, hu⟩ := run_frame layout (hvalid f List.mem_cons_self)
        (hsize f List.mem_cons_self) hv
      obtain ⟨w, es, hrun', hw⟩ := ih (fun g hg => hsize g (List.mem_cons_of_mem f hg))
        (fun g hg => hvalid g (List.mem_cons_of_mem f hg)) hu hrest
      refine ⟨w, _, by rw [View.run_append hrun, hrun']; rfl, ?_⟩
      have hcut : (layout.encode f).length + p'.length - (layout.encode f).length = p'.length := by
        omega
      have hnil : layout.encode f ≠ [] := List.length_pos_iff.mp hflen
      rw [hw, endsAt, List.length_append, hcut]
      simp [hnil]
    rw [List.flatMap_cons, List.append_eq_append_iff] at h
    obtain ⟨p', hp, hrest⟩ | ⟨m, hf, hrest⟩ := h
    · exact whole p' hp hrest
    · by_cases hm : m = []
      · subst hm
        exact whole [] (by simpa using hf.symm) (by simpa using hrest.symm)
      · obtain ⟨w, es, hrun, hpos⟩ := frame_prefix layout (hsize f List.mem_cons_self) hv hf hm
        refine ⟨w, es, hrun, ?_⟩
        have hlt : p.length < (layout.encode f).length := by
          have := List.length_pos_iff.mpr hm
          rw [hf, List.length_append]
          omega
        rw [hpos, endsAt]
        simp [hlt]

/-! ### Reads -/

theorem receive_log (h : .shutdown ∈ s.log) : .shutdown ∈ (receive s read).log := by
  by_cases hle : (s.buf ++ read).length ≤ 502400
  · obtain ⟨es, hes, -⟩ := (processWebsocket_advanced (s := { s with buf := s.buf ++ read }) hle).log
    rw [receive, hes]
    exact List.mem_append_left _ h
  · unfold receive processWebsocket
    split
    · exact h
    · rw [if_pos (by simpa using hle)]
      exact List.mem_append_left _ h

theorem reads_log (h : .shutdown ∈ s.log) (reads : List Bytes) :
    .shutdown ∈ (reads.foldl receive s).log := by
  induction reads generalizing s with
  | nil => exact h
  | cons read reads ih => exact ih (receive_log h)

/-- The socket when `p` of the stream has been read and `held` bytes are in its buffer. -/
structure Between (layout : Layout) (v : View) (p : Bytes) (held : ℕ) (s : Socket) : Prop where
  run : ∃ w es, View.run layout.byte v p = some (w, es) ∧ Rest w s
  version : s.version = layout.version
  ready : s.ready ≠ 1
  buffer : s.buf.length = held
  log : .shutdown ∉ s.log

/-- A read above the limit. -/
theorem Between.shuts (h : Between layout v p held s) (hread : read ≠ [])
    (hlong : 502400 < held + read.length) : .shutdown ∈ (receive s read).log := by
  unfold receive processWebsocket
  rw [if_neg (by simp [hread, h.ready]), if_pos (by simp only [List.length_append, h.buffer]; omega)]
  exact List.mem_append_right _ (List.mem_singleton_self _)

theorem Between.open (h : Between layout v p held s) (hshort : held + read.length ≤ 502400) :
    .shutdown ∉ (receive s read).log := by
  obtain ⟨es, hes, hnot⟩ := (processWebsocket_advanced (s := { s with buf := s.buf ++ read })
    (by simp only [List.length_append, h.buffer]; omega)).log
  rw [receive, hes, List.mem_append]
  exact not_or.mpr ⟨h.log, hnot⟩

/-- A read inside the stream. -/
theorem Between.next (h : Between layout v p held s) (hread : read ≠ [])
    (hshort : held + read.length ≤ 502400) (hrun : View.run layout.byte v (p ++ read) = some (w, es)) :
    Between layout v (p ++ read) (if w.pos = 0 then 0 else held + read.length) (receive s read) := by
  obtain ⟨u, es₁, hp, hrest⟩ := h.run
  obtain ⟨u', es₁', es₂, hp', hr, -⟩ := View.run_append_split hrun
  obtain ⟨rfl, rfl⟩ := Prod.mk.inj (Option.some.inj (hp.symm.trans hp'))
  have hproc : receive s read = frameLoop layout.turn (s.buf.length + read.length - s.ws.offset)
      { s with buf := s.buf ++ read } := by
    unfold receive processWebsocket
    rw [if_neg (by simp [hread, h.ready]),
      if_neg (by simp only [List.length_append, h.buffer]; omega), List.length_append]
    simp only [h.version]
    cases layout <;> rfl
  have hparsed := receive_parsed layout.turn_follows hread hrest hproc hr
  have hadv := processWebsocket_advanced (s := { s with buf := s.buf ++ read })
    (by simp only [List.length_append, h.buffer]; omega)
  refine ⟨⟨w, es, hrun, hparsed.rest⟩, hparsed.version.trans h.version, ?_, ?_, h.open hshort⟩
  · rw [hparsed.ready]
    exact h.ready
  · split
    case isTrue hzero => rw [hparsed.rest.empty hzero, List.length_nil]
    case isFalse hinside =>
      rcases hadv.buffer with hlen | hnil
      · rw [receive, hlen, List.length_append, h.buffer]
      · -- an emptied buffer is one between two frames
        have hle := hparsed.rest.sim.pos_le
        have hoff := hparsed.rest.parsed
        rw [receive, hnil, List.length_nil] at hoff
        rw [receive, hoff] at hle
        omega

theorem Sent.valid (sent : Sent layout) : ∀ f ∈ sent.frames.dropLast, f.Valid layout.draft :=
  fun f hf => ⟨sent.close f hf, sent.pings f (List.mem_of_mem_dropLast hf)⟩

theorem Sent.size (sent : Sent layout) : ∀ f ∈ sent.frames, f.payload.length < 2 ^ 32 := by
  intro f hf
  have hle := payload_le_encode layout f
  have hshort := sent.short f hf
  omega

/-- From a state between two reads on. -/
theorem Between.aligned_iff (sent : Sent layout) (hv : Boundary layout.draft v)
    (h : Between layout v p held s) (hreads : ∀ r ∈ reads, r ≠ [])
    (hsplit : p ++ reads.flatten ++ rest = sent.bytes) :
    .shutdown ∉ (reads.foldl receive s).log ↔
      Aligned (endsAt layout sent.frames) p.length held reads := by
  induction reads generalizing p held s with
  | nil => exact iff_of_true h.log trivial
  | cons read reads ih =>
    have hread := hreads read List.mem_cons_self
    have hrest : ∀ r ∈ reads, r ≠ [] := fun r hr => hreads r (List.mem_cons_of_mem read hr)
    rw [List.foldl_cons, Aligned]
    by_cases hshort : held + read.length ≤ 502400
    · by_cases hmore : reads.flatten ++ rest = []
      · -- nothing is read behind the stream
        have hnil : reads = [] := by
          refine List.eq_nil_iff_forall_not_mem.mpr fun r hr => hrest r hr ?_
          exact List.flatten_eq_nil_iff.mp (List.append_eq_nil_iff.mp hmore).1 r hr
        subst hnil
        exact iff_of_true (h.open hshort) ⟨hshort, trivial⟩
      · have hcut : sent.bytes = (p ++ read) ++ (reads.flatten ++ rest) := by
          rw [← hsplit, List.flatten_cons]
          simp only [List.append_assoc]
        obtain ⟨w, es, hrun, hpos⟩ := stream_prefix layout sent.size sent.valid hv hcut hmore
        have hnext := h.next hread hshort hrun
        rw [List.length_append] at hpos
        simp only [hpos] at hnext
        rw [ih hnext hrest (by rw [hcut, List.append_assoc (p ++ read)]), List.length_append]
        exact (and_iff_right hshort).symm
    · exact iff_of_false (fun hno => hno (reads_log (h.shuts hread (by omega)) reads))
        fun ha => hshort ha.1

theorem new_between (layout : Layout) {key : Bytes} (hkey : key.length = 4) (inkey : ℕ) :
    ∃ v, Boundary layout.draft v ∧
      Between layout v [] 0 (newSocket layout.version key inkey) := by
  obtain ⟨v, hrest, hv⟩ := newSocket_rest layout hkey inkey
  exact ⟨v, hv, ⟨v, [], rfl, hrest⟩, rfl, by simp [newSocket], rfl, by simp [newSocket]⟩

/-- The connection is not shut down if and only if the reads end with frames often enough. -/
theorem open_iff_aligned (sent : Sent layout) (hreads : ∀ r ∈ reads, r ≠ [])
    (hsplit : reads.flatten ++ rest = sent.bytes) {key : Bytes} (hkey : key.length = 4)
    (inkey : ℕ) :
    .shutdown ∉ (reads.foldl receive (newSocket layout.version key inkey)).log ↔
      Aligned (endsAt layout sent.frames) 0 0 reads := by
  obtain ⟨v, hv, h⟩ := new_between layout hkey inkey
  exact h.aligned_iff sent hv hreads hsplit

/-- The text frame `hi` alone. -/
def sentHi : Sent .ietf07 where
  frames := [hi]
  short := by decide
  pings := by decide
  close := by decide

theorem open_iff_aligned_hi : .shutdown ∉ ([[0x81, 0x82, 1], [2, 3, 4, 105], [107]].foldl receive
    (newSocket .ietf07 [0, 0, 0, 0] 0)).log :=
  (open_iff_aligned sentHi (by decide) (show [[0x81, 0x82, 1], [2, 3, 4, 105], [107]].flatten ++ [] =
    sentHi.bytes by decide) rfl 0).mpr ⟨by decide, by decide, by decide, trivial⟩

/-! ### Small frames -/

/-- A frame with one byte of payload. -/
def tiny : Frame :=
  { start := 0x82, rsv4 := false, form := .seven, key := [0, 0, 0, 0], payload := [65]
    key_length := rfl, payload_ne := by decide, fits := by decide }

def sentTiny (n : ℕ) : Sent .ietf07 where
  frames := List.replicate n tiny
  short := by
    intro f hf
    rw [List.eq_of_mem_replicate hf]
    decide
  pings := by
    intro f hf
    rw [List.eq_of_mem_replicate hf]
    decide
  close := by
    intro f hf
    rw [List.eq_of_mem_replicate (List.mem_of_mem_dropLast hf)]
    decide

/-- The frame from its second byte on, and the first byte of the next. -/
def shifted : Bytes := [0x81, 0, 0, 0, 0, 65, 0x82]

theorem sentTiny_bytes (n : ℕ) : [0x82] ++ ((List.replicate n shifted).flatten ++
    [0x81, 0, 0, 0, 0, 65]) = (sentTiny (n + 1)).bytes := by
  induction n with
  | zero => rfl
  | succ n ih =>
    have hone : (sentTiny (n + 2)).bytes = tiny.encode07 ++ (sentTiny (n + 1)).bytes := by
      simp only [Sent.bytes, sentTiny, List.replicate_succ, List.flatMap_cons]
      rfl
    rw [hone, ← ih, List.replicate_succ, List.flatten_cons]
    rfl

theorem endsAt_tiny {n total : ℕ} (h : endsAt .ietf07 (List.replicate n tiny) total = true) :
    total % 7 = 0 := by
  induction n generalizing total with
  | zero =>
    have hzero : total = 0 := by simpa [endsAt] using h
    rw [hzero]
  | succ n ih =>
    have hlen : (Layout.encode .ietf07 tiny).length = 7 := by decide
    rw [List.replicate_succ, endsAt, hlen] at h
    simp only [Bool.or_eq_true, decide_eq_true_eq, Bool.and_eq_true] at h
    rcases h with h | ⟨hle, h⟩
    · rw [h]
    · have := ih h
      omega

/-- Reads that are one byte out of step never end with a frame. -/
theorem aligned_shifted {n m total held : ℕ} (htotal : total % 7 = 1)
    (h : Aligned (endsAt .ietf07 (List.replicate n tiny)) total held (List.replicate m shifted)) :
    m = 0 ∨ held + 7 * m ≤ 502400 := by
  induction m generalizing total held with
  | zero => exact .inl rfl
  | succ m ih =>
    rw [List.replicate_succ, Aligned] at h
    have hlen : shifted.length = 7 := rfl
    have hno : endsAt .ietf07 (List.replicate n tiny) (total + shifted.length) = false := by
      by_contra hyes
      have := endsAt_tiny (Bool.not_eq_false _ ▸ hyes)
      omega
    rw [hno, hlen] at h
    rcases ih (by omega) h.2 with rfl | hle
    · exact .inr h.1
    · refine .inr ?_
      simp only [Bool.false_eq_true, if_false] at hle
      omega

theorem shut_by_small_frames : ¬∀ (layout : Layout) (sent : Sent layout) (reads : List Bytes)
    (rest key : Bytes) (inkey : ℕ), (∀ r ∈ reads, r ≠ []) → reads.flatten ++ rest = sent.bytes →
    key.length = 4 →
    .shutdown ∉ (reads.foldl receive (newSocket layout.version key inkey)).log := by
  intro h
  obtain ⟨m, hm⟩ : ∃ m, 502400 < 1 + 7 * m := ⟨71772, by decide⟩
  have hreads : ∀ r ∈ [0x82] :: List.replicate m shifted, r ≠ [] := by
    intro r hr
    rcases List.mem_cons.mp hr with rfl | hr
    · simp
    · rw [List.eq_of_mem_replicate hr]
      simp [shifted]
  have hsplit : ([0x82] :: List.replicate m shifted).flatten ++ [0x81, 0, 0, 0, 0, 65] =
      (sentTiny (m + 1)).bytes := by
    rw [List.flatten_cons, List.append_assoc]
    exact sentTiny_bytes m
  obtain ⟨v, hv, hb⟩ := new_between .ietf07 (show ([0, 0, 0, 0] : Bytes).length = 4 from rfl) 0
  have ha := (hb.aligned_iff (sentTiny (m + 1)) hv hreads hsplit).mp
    (h .ietf07 (sentTiny (m + 1)) _ _ [0, 0, 0, 0] 0 hreads hsplit rfl)
  have hno : endsAt .ietf07 (List.replicate (m + 1) tiny) 1 = false := by
    by_contra hyes
    exact absurd (endsAt_tiny (Bool.not_eq_false _ ▸ hyes)) (by decide)
  obtain ⟨-, ha⟩ := ha
  simp only [List.length_nil, List.length_singleton, Nat.zero_add] at ha
  rw [show (sentTiny (m + 1)).frames = List.replicate (m + 1) tiny from rfl, hno] at ha
  rcases aligned_shifted rfl ha with rfl | hle
  · omega
  · simp only [Bool.false_eq_true, if_false] at hle
    omega

end ApeServer.Websocket
