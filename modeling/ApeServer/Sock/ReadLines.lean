import ApeServer.Sock.ReadBuffer

/-!
# Line-oriented sockets

The `on_read_lf` loop of `sockroutine`. A pointer into `buffer_in.data` is an index.
-/
namespace ApeServer.Sock

def newline : UInt8 := 10

/-- The loop of `sneof` from `pos` on, with the memory from there. -/
def sneofFrom (len max : ℕ) : ℕ → Bytes → ℤ
  | _, [] => -1
  | pos, b :: buf =>
    if pos < len ∧ pos < max then
      if b = newline then pos + 1 else sneofFrom len max (pos + 1) buf
    else -1

def sneof (buf : Bytes) (len max : ℕ) : ℤ := sneofFrom len max 0 buf

/-- A socket with an `on_read_lf`: `buffer_in`, what its memory holds, and for each call of
`on_read_lf` the memory it is given, up to the byte behind the line. -/
structure LineSocket where
  buffer : ApeBuffer
  data : Bytes
  calls : List Bytes
deriving DecidableEq, Repr

theorem sneofFrom_bounds {len max pos : ℕ} {buf : Bytes} (h : sneofFrom len max pos buf ≠ -1) :
    (pos : ℤ) < sneofFrom len max pos buf ∧ sneofFrom len max pos buf ≤ len ∧
      sneofFrom len max pos buf ≤ max := by
  induction buf generalizing pos with
  | nil => exact absurd rfl h
  | cons b buf ih =>
    unfold sneofFrom at h ⊢
    split_ifs at h ⊢ with hpos hb
    · omega
    · have := ih h
      push_cast at this
      omega
    · exact absurd rfl h

theorem ofInt_toNat {x : ℤ} (h₀ : 0 ≤ x) (h₁ : x < 2 ^ 32) :
    ((UInt32.ofInt x).toNat : ℤ) = x := by
  rw [UInt32.ofInt, UInt32.toNat_ofNat']
  omega

/-- `eol` counts bytes of the buffer. -/
theorem eol_bounds {buf : Bytes} {len : UInt32}
    (h : UInt32.ofInt (sneof buf len.toNat 4096) ≠ UInt32.ofInt (-1)) :
    0 < (UInt32.ofInt (sneof buf len.toNat 4096)).toNat ∧
      (UInt32.ofInt (sneof buf len.toNat 4096)).toNat ≤ len.toNat := by
  have hne : sneof buf len.toNat 4096 ≠ -1 := fun he => h (by rw [he])
  have hb := sneofFrom_bounds hne
  have hto := ofInt_toNat (x := sneof buf len.toNat 4096) (by simp only [sneof]; omega)
    (by simp only [sneof]; omega)
  simp only [sneof] at hto ⊢
  omega

namespace LineSocket

/-- The loop over the lines of the buffer, with `pBuf` at its end. `*len` is
`buffer_in.length`. -/
def lineLoop (s : LineSocket) (pBuf : ℕ) : LineSocket × ℕ :=
  let eol := UInt32.ofInt (sneof (s.data.drop pBuf) s.buffer.length.toNat 4096)
  if _h : eol ≠ UInt32.ofInt (-1) then
    let data := s.data.set (pBuf + eol.toNat - 1) 0
    lineLoop
      { buffer := { s.buffer with length := s.buffer.length - eol }
        data
        calls := s.calls ++ [(data.drop pBuf).take eol.toNat] }
      (pBuf + eol.toNat)
  else (s, pBuf)
termination_by s.buffer.length.toNat
decreasing_by
  obtain ⟨hpos, hle⟩ := eol_bounds _h
  rw [UInt32.toNat_sub_of_le _ _ (UInt32.le_iff_toNat_le.mpr hle)]
  omega

/-- What is done with the buffer for `on_read_lf`. -/
def onReadLf (s : LineSocket) : LineSocket :=
  let (s, pBuf) := s.lineLoop 0
  let len := s.buffer.length
  if len > 4096 ∨ len = 0 then { s with buffer := { s.buffer with length := 0 } }
  else if pBuf ≠ 0 then
    { s with data := (s.data.drop pBuf).take len.toNat ++ s.data.drop len.toNat }
  else s

/-- One read, and the lines it completes. -/
def read (s : LineSocket) (bytes : Bytes) : LineSocket :=
  onReadLf
    { s with
      buffer := s.buffer.stored bytes.length
      data := s.data.take s.buffer.length.toNat ++ bytes ++
        s.data.drop (s.buffer.length.toNat + bytes.length) }

/-- Each read gets no more than it asks for. -/
def Served : LineSocket → List Bytes → Prop
  | _, [] => True
  | s, bytes :: reads => s.buffer.Fits bytes.length ∧ Served (s.read bytes) reads

/-- An accepted socket, with whatever its memory holds. -/
def new (data : Bytes) : LineSocket := ⟨ApeBuffer.new, data, []⟩

end LineSocket

/-- A line that has at most 4096 bytes with its newline. -/
structure Line where
  bytes : Bytes
  clean : newline ∉ bytes
  short : bytes.length + 1 ≤ 4096

namespace Line

def received (l : Line) : Bytes := l.bytes ++ [newline]

/-- The line as `on_read_lf` gets it. -/
def called (l : Line) : Bytes := l.bytes ++ [0]

theorem received_length (l : Line) : l.received.length = l.bytes.length + 1 := by
  simp [received]

/-- A beginning of a line is a line that is not finished. -/
def cut (l : Line) {part more : Bytes} (h : part ++ more = l.bytes) : Line :=
  ⟨part, fun hm => l.clean (h ▸ List.mem_append_left _ hm), by
    have := l.short
    rw [← h, List.length_append] at this
    omega⟩

end Line

variable {s : LineSocket} {l rest : Line} {ls : List Line} {pre part junk bytes : Bytes}

/-! ### Looking for the newline -/

theorem sneofFrom_line {len pos : ℕ} {line more : Bytes} (hclean : newline ∉ line)
    (hlen : pos + line.length < len) (hmax : pos + line.length < 4096) :
    sneofFrom len 4096 pos (line ++ newline :: more) = pos + line.length + 1 := by
  induction line generalizing pos with
  | nil =>
    simp only [List.length_nil] at hlen hmax ⊢
    rw [List.nil_append, sneofFrom, if_pos ⟨hlen, hmax⟩, if_pos rfl]
    push_cast
    ring
  | cons b line ih =>
    simp only [List.length_cons] at hlen hmax ⊢
    have hb : b ≠ newline := fun he => hclean (he ▸ List.mem_cons_self)
    rw [List.cons_append, sneofFrom, if_pos ⟨by omega, by omega⟩, if_neg hb,
      ih (fun hm => hclean (List.mem_cons_of_mem b hm)) (by omega) (by omega)]
    push_cast
    ring

theorem sneofFrom_part {len pos : ℕ} (hclean : newline ∉ part)
    (hlen : pos + part.length = len) : sneofFrom len 4096 pos (part ++ junk) = -1 := by
  induction part generalizing pos with
  | nil =>
    simp only [List.length_nil, Nat.add_zero] at hlen
    cases junk with
    | nil => rfl
    | cons b junk => rw [List.nil_append, sneofFrom, if_neg (by omega)]
  | cons b part ih =>
    simp only [List.length_cons] at hlen
    have hb : b ≠ newline := fun he => hclean (he ▸ List.mem_cons_self)
    rw [List.cons_append, sneofFrom, if_neg hb,
      ih (fun hm => hclean (List.mem_cons_of_mem b hm)) (by omega), ite_self]

/-! ### The loop -/

/-- The memory holds `text` from the end of `pre` on, up to `length`. -/
structure Holds (s : LineSocket) (pre text junk : Bytes) : Prop where
  data : s.data = pre ++ (text ++ junk)
  length : s.buffer.length.toNat = text.length

/-- The socket after a turn of the loop. -/
def LineSocket.called (s : LineSocket) (pre : Bytes) (l : Line) (text junk : Bytes) : LineSocket :=
  { buffer := { s.buffer with length := s.buffer.length - UInt32.ofNat l.received.length }
    data := pre ++ l.called ++ (text ++ junk)
    calls := s.calls ++ [l.called] }

theorem Line.sneof_received (l : Line) {len : ℕ} (hlen : l.received.length ≤ len)
    (more : Bytes) : sneof (l.received ++ more) len 4096 = l.received.length := by
  have hshort := l.short
  rw [l.received_length] at hlen ⊢
  rw [sneof, Line.received, List.append_assoc, List.singleton_append,
    sneofFrom_line l.clean (by omega) (by omega)]
  push_cast
  ring

theorem Line.received_toNat (l : Line) :
    (UInt32.ofNat l.received.length).toNat = l.received.length := by
  have hshort := l.short
  rw [UInt32.toNat_ofNat', l.received_length]
  omega

/-- `pBuf[eol-1] = '\0'`. -/
theorem Line.set_newline (l : Line) (pre more : Bytes) :
    (pre ++ (l.received ++ more)).set (pre.length + l.received.length - 1) 0 =
      pre ++ (l.called ++ more) := by
  have hindex : pre.length + l.received.length - 1 = (pre ++ l.bytes).length := by
    rw [l.received_length, List.length_append]
    omega
  rw [hindex, Line.received, Line.called, List.append_assoc, List.append_assoc,
    List.singleton_append, List.singleton_append, ← List.append_assoc,
    List.set_append_right _ _ le_rfl, Nat.sub_self,
    List.set_cons_zero, List.append_assoc]

theorem Line.called_length (l : Line) : l.called.length = l.received.length := by
  simp [Line.called, Line.received]

theorem Holds.turn {text : Bytes} (h : Holds s pre (l.received ++ text) junk) :
    s.lineLoop pre.length =
        (s.called pre l text junk).lineLoop (pre.length + l.received.length) ∧
      Holds (s.called pre l text junk) (pre ++ l.called) text junk := by
  have hlen : l.received.length ≤ s.buffer.length.toNat := by
    rw [h.length, List.length_append]
    omega
  have heol : UInt32.ofInt (sneof (s.data.drop pre.length) s.buffer.length.toNat 4096) =
      UInt32.ofNat l.received.length := by
    rw [h.data, List.drop_left, List.append_assoc, l.sneof_received hlen, UInt32.ofInt]
    congr 1
    have := l.short
    rw [l.received_length]
    omega
  have hne : UInt32.ofNat l.received.length ≠ UInt32.ofInt (-1) := by
    intro he
    have hto := congrArg UInt32.toNat he
    have hmost : (UInt32.ofInt (-1)).toNat = 2 ^ 32 - 1 := by decide
    have := l.short
    rw [l.received_toNat, l.received_length, hmost] at hto
    omega
  have hset : s.data.set (pre.length + l.received.length - 1) 0 =
      pre ++ l.called ++ (text ++ junk) := by
    rw [h.data, List.append_assoc, l.set_newline, List.append_assoc]
  have hcall : ((pre ++ l.called ++ (text ++ junk)).drop pre.length).take l.received.length =
      l.called := by
    rw [List.append_assoc, List.drop_left, ← l.called_length, List.take_left]
  refine ⟨?_, rfl, ?_⟩
  · rw [LineSocket.lineLoop]
    simp only [heol, dif_pos hne, l.received_toNat, hset, hcall]
    rfl
  · have hle : UInt32.ofNat l.received.length ≤ s.buffer.length :=
      UInt32.le_iff_toNat_le.mpr (by rw [l.received_toNat]; exact hlen)
    simp only [LineSocket.called]
    rw [UInt32.toNat_sub_of_le _ _ hle, l.received_toNat, h.length, List.length_append]
    omega

theorem Holds.stops (h : Holds s pre part junk) (hclean : newline ∉ part) :
    s.lineLoop pre.length = (s, pre.length) := by
  have heol : UInt32.ofInt (sneof (s.data.drop pre.length) s.buffer.length.toNat 4096) =
      UInt32.ofInt (-1) := by
    rw [h.data, List.drop_left, sneof, sneofFrom_part hclean (by rw [h.length, Nat.zero_add])]
  rw [LineSocket.lineLoop]
  simp only [heol, ne_eq, not_true_eq_false, dite_false]

/-- The loop calls `on_read_lf` for the complete lines and leaves the rest. -/
theorem Holds.loop (h : Holds s pre (ls.flatMap Line.received ++ part) junk)
    (hclean : newline ∉ part) : ∃ t pre', s.lineLoop pre.length = (t, pre'.length) ∧
      Holds t pre' part junk ∧ t.calls = s.calls ++ ls.map Line.called ∧
      t.buffer = { s.buffer with length := t.buffer.length } := by
  induction ls generalizing s pre with
  | nil => exact ⟨s, pre, h.stops hclean, h, by simp, rfl⟩
  | cons l ls ih =>
    rw [List.flatMap_cons, List.append_assoc] at h
    obtain ⟨hloop, hturn⟩ := h.turn
    obtain ⟨t, pre', hrun, ht, hcalls, hbuffer⟩ := ih hturn
    refine ⟨t, pre', ?_, ht, ?_, hbuffer⟩
    · rw [hloop, ← hrun, List.length_append, l.called_length]
    · rw [hcalls]
      simp [LineSocket.called]

/-- Behind the loop the unfinished line is moved to the front. -/
theorem Holds.onReadLf (h : Holds s [] (ls.flatMap Line.received ++ rest.bytes) junk) :
    ∃ junk', Holds s.onReadLf [] rest.bytes junk' ∧
      s.onReadLf.calls = s.calls ++ ls.map Line.called ∧
      s.onReadLf.buffer = { s.buffer with length := s.onReadLf.buffer.length } := by
  obtain ⟨t, pre, hrun, ht, hcalls, hbuffer⟩ := h.loop rest.clean
  have hshort := rest.short
  have hlen := ht.length
  have hmax : ¬t.buffer.length > 4096 := by
    rw [gt_iff_lt, UInt32.lt_iff_toNat_lt, hlen]
    simp only [UInt32.reduceToNat]
    omega
  rw [List.length_nil] at hrun
  rw [LineSocket.onReadLf]
  simp only [hrun]
  by_cases hnil : t.buffer.length = 0
  · have hempty : rest.bytes = [] := by
      rw [hnil] at hlen
      exact List.length_eq_zero_iff.mp hlen.symm
    rw [if_pos (.inr hnil), hempty]
    exact ⟨t.data, ⟨rfl, rfl⟩, hcalls,
      congrArg (fun b : ApeBuffer => { b with length := 0 }) hbuffer⟩
  · rw [if_neg (by simp [hmax, hnil])]
    split
    case isTrue =>
      refine ⟨t.data.drop t.buffer.length.toNat, ⟨?_, hlen⟩, hcalls, hbuffer⟩
      rw [ht.data, List.drop_left, hlen, List.take_left, List.nil_append]
    case isFalse hfirst =>
      have hpre : pre = [] := List.length_eq_zero_iff.mp (not_not.mp hfirst)
      exact ⟨junk, ⟨by rw [ht.data, hpre], hlen⟩, hcalls, hbuffer⟩

/-! ### Reads -/

/-- The socket between two reads, with an unfinished line in its buffer. -/
structure Waiting (s : LineSocket) (part : Line) : Prop where
  sized : s.buffer.Sized
  holds : ∃ junk, Holds s [] part.bytes junk

/-- Any beginning of a stream of lines is some whole lines and a part of the next. -/
theorem cut_lines (ls : List Line) (rest : Line) : ∀ {got left : Bytes},
    got ++ left = ls.flatMap Line.received ++ rest.bytes →
    ∃ done todo, ∃ part : Line, ls = done ++ todo ∧
      got = done.flatMap Line.received ++ part.bytes ∧
      part.bytes ++ left = todo.flatMap Line.received ++ rest.bytes := by
  induction ls with
  | nil =>
    intro got left h
    rw [List.flatMap_nil, List.nil_append] at h
    exact ⟨[], [], rest.cut h, rfl, rfl, h⟩
  | cons l ls ih =>
    intro got left h
    rw [List.flatMap_cons, List.append_assoc, List.append_eq_append_iff] at h
    obtain ⟨more, hl, hleft⟩ | ⟨got', rfl, hls⟩ := h
    · obtain rfl | ⟨more, last, rfl⟩ := more.eq_nil_or_concat
      · have hnil : [] ++ left = ls.flatMap Line.received ++ rest.bytes := hleft
        obtain ⟨done, todo, part, rfl, hgot, htodo⟩ := ih hnil
        refine ⟨l :: done, todo, part, rfl, ?_, htodo⟩
        rw [List.flatMap_cons, List.append_assoc, ← hgot, hl]
        simp
      · -- the line is cut in front of its newline
        have hcat : (got ++ more) ++ [last] = l.bytes ++ [newline] := by
          rw [List.append_assoc, ← List.concat_eq_append]
          exact hl.symm
        have hpart : got ++ more = l.bytes := (List.append_inj' hcat rfl).1
        refine ⟨[], l :: ls, l.cut hpart, rfl, rfl, ?_⟩
        rw [hleft, ← List.append_assoc]
        exact (congrArg (· ++ (ls.flatMap Line.received ++ rest.bytes)) hl.symm).trans (by simp)
    · obtain ⟨done, todo, part, rfl, rfl, htodo⟩ := ih hls.symm
      exact ⟨l :: done, todo, part, rfl, by simp [Line.received], htodo⟩

/-- A read keeps the rest, behind the calls for the lines it completes. -/
theorem Waiting.read {part : Line} (h : Waiting s part) (hf : s.buffer.Fits bytes.length)
    (hbytes : part.bytes ++ bytes = ls.flatMap Line.received ++ rest.bytes) :
    Waiting (s.read bytes) rest ∧ (s.read bytes).calls = s.calls ++ ls.map Line.called := by
  obtain ⟨junk, hdata, hlen⟩ := h.holds
  rw [List.nil_append] at hdata
  have hshort := part.short
  have hroom : ¬s.buffer.Overflows bytes.length := by
    rintro ⟨-, hfull⟩
    have hmax := hf.2.2
    rw [hlen] at hfull
    rw [readMax] at hmax
    omega
  have hsized := h.sized.stored hf hroom
  have hstored := h.sized.stored_length hf
  have hheld : Holds
      { s with
        buffer := s.buffer.stored bytes.length
        data := s.data.take s.buffer.length.toNat ++ bytes ++
          s.data.drop (s.buffer.length.toNat + bytes.length) }
      [] (ls.flatMap Line.received ++ rest.bytes) (junk.drop bytes.length) := by
    refine ⟨?_, ?_⟩
    · simp only [hdata, hlen, List.take_left, List.nil_append, ← hbytes, List.append_assoc]
      rw [← List.drop_drop, List.drop_left]
    · simp only [hstored, hlen, ← hbytes, List.length_append]
  obtain ⟨junk', hholds, hcalls, hbuffer⟩ := hheld.onReadLf
  refine ⟨⟨?_, junk', hholds⟩, hcalls⟩
  have hle : (s.read bytes).buffer.length.toNat ≤
      (s.buffer.stored bytes.length).length.toNat := by
    rw [LineSocket.read, hholds.length, hstored, hlen, ← List.length_append, hbytes,
      List.length_append]
    omega
  rw [show (s.read bytes).buffer = _ from hbuffer]
  exact hsized.shrink hle

theorem Waiting.reads {reads : List Bytes} {part : Line} (h : Waiting s part)
    (hserved : s.Served reads)
    (hbytes : part.bytes ++ reads.flatten = ls.flatMap Line.received ++ rest.bytes) :
    Waiting (reads.foldl LineSocket.read s) rest ∧
      (reads.foldl LineSocket.read s).calls = s.calls ++ ls.map Line.called := by
  induction reads generalizing s part ls with
  | nil =>
    rw [List.flatten_nil, List.append_nil] at hbytes
    obtain rfl : ls = [] := by
      refine List.eq_nil_iff_forall_not_mem.mpr fun l hl => part.clean ?_
      rw [hbytes]
      refine List.mem_append_left _ (List.mem_flatMap.mpr ⟨l, hl, ?_⟩)
      simp [Line.received]
    obtain ⟨hsized, junk, hholds⟩ := h
    rw [hbytes, List.flatMap_nil, List.nil_append] at hholds
    exact ⟨⟨hsized, junk, hholds⟩, by simp⟩
  | cons bytes reads ih =>
    obtain ⟨hf, hserved⟩ := hserved
    rw [List.flatten_cons, ← List.append_assoc] at hbytes
    obtain ⟨done, todo, part', rfl, hgot, htodo⟩ := cut_lines ls rest hbytes
    obtain ⟨hwaiting, hcalls⟩ := h.read hf hgot
    obtain ⟨hlast, hall⟩ := ih hwaiting hserved htodo
    refine ⟨hlast, ?_⟩
    rw [List.foldl_cons, hall, hcalls, List.map_append, List.append_assoc]

theorem new_waiting (data : Bytes) : Waiting (.new data) ⟨[], by simp, by decide⟩ :=
  ⟨ApeBuffer.new_sized, data, rfl, rfl⟩

/-- However a stream of lines is split into reads, `on_read_lf` is called for its complete lines
in turn, and the buffer holds the rest and has room for the next read. -/
theorem lines_called {data : Bytes} {reads : List Bytes}
    (hserved : (LineSocket.new data).Served reads)
    (hbytes : reads.flatten = ls.flatMap Line.received ++ rest.bytes) :
    (reads.foldl LineSocket.read (.new data)).calls = ls.map Line.called ∧
      (reads.foldl LineSocket.read (.new data)).buffer.length.toNat = rest.bytes.length ∧
      (reads.foldl LineSocket.read (.new data)).data.take rest.bytes.length = rest.bytes ∧
      (reads.foldl LineSocket.read (.new data)).buffer.Room := by
  obtain ⟨⟨hsized, junk, hdata, hlen⟩, hcalls⟩ := (new_waiting data).reads hserved hbytes
  refine ⟨hcalls, hlen, ?_, hsized.room⟩
  rw [hdata, List.nil_append, List.take_left]

/-- The two lines and the rest of the reads "a\nb" and "c\nd". -/
def lineA : Line := ⟨[97], by decide, by decide⟩

def lineBC : Line := ⟨[98, 99], by decide, by decide⟩

def restD : Line := ⟨[100], by decide, by decide⟩

theorem lines_called_two :
    (LineSocket.Served (.new []) [[97, 10, 98], [99, 10, 100]]) ∧
      ([[97, 10, 98], [99, 10, 100]].foldl LineSocket.read (.new [])).calls =
        [[97, 0], [98, 99, 0]] := by
  have hgot : [] ++ [97, 10, 98] = [lineA].flatMap Line.received ++ [98] := rfl
  have hfirst : Waiting ((LineSocket.new []).read [97, 10, 98]) ⟨[98], by decide, by decide⟩ :=
    ((new_waiting []).read (by decide) hgot).1
  obtain ⟨junk, -, hlen⟩ := hfirst.holds
  have hserved : (LineSocket.new []).Served [[97, 10, 98], [99, 10, 100]] :=
    ⟨by decide, hfirst.sized.fits (by decide) (by rw [hlen]; decide), trivial⟩
  have hall : [[97, 10, 98], [99, 10, 100]].flatten =
      [lineA, lineBC].flatMap Line.received ++ restD.bytes := rfl
  exact ⟨hserved, (lines_called hserved hall).1⟩

end ApeServer.Sock
