import ApeServer.Http.Request
import ApeServer.Http.WsDecoder
import ApeServer.Sock.ReadBuffer
import ApeServer.Lib.Steps

/-!
# Room to read into on an HTTP connection

`process_http` and, behind a handshake, `process_websocket` only ever empty the buffer. What
they leave in it stays until the buffer is doubled.
-/
namespace ApeServer

open Sock (ApeBuffer)
open Steps (Reach)

/-! ### What the parsers leave in the buffer -/

namespace Http

theorem target_length (c : Client) (pos : ℕ) (type : Method) (p : ℕ) :
    (target c pos type p).client.length = c.length := by
  unfold target
  simp only
  split
  · rfl
  · split <;> rfl

theorem requestLine_length (c : Client) : (requestLine c).client.length = c.length := by
  unfold requestLine
  split
  · rfl
  · split
    · exact target_length c _ _ _
    · split
      · exact target_length c _ _ _
      · rfl

theorem blankLine_length (c : Client) (pos : ℕ) :
    (blankLine c pos).client.length ≤ c.length := by
  unfold blankLine
  split
  · exact Nat.zero_le _
  · exact le_rfl
  · split <;> exact le_rfl

theorem headerLine_length (c : Client) (pos : ℕ) :
    (headerLine c pos).client.length = c.length := by
  unfold headerLine
  simp only
  split
  · split
    · split <;> rfl
    · rfl
  · split <;> rfl
  · rfl

theorem headers_length (c : Client) : (headers c).client.length ≤ c.length := by
  unfold headers
  split
  · exact le_rfl
  · split
    · exact blankLine_length c _
    · exact (headerLine_length c _).le

theorem body_length (c : Client) : (body c).length ≤ c.length := by
  unfold body
  simp only
  split
  · exact Nat.zero_le _
  · exact le_rfl

theorem turn_length (c : Client) : (turn c).client.length ≤ c.length := by
  unfold turn
  split
  · exact le_rfl
  · simp only
    split
    · exact le_rfl
    · obtain ⟨-, hl, -, -⟩ := rebase_same { c with mem := poke c.mem c.length 0 }
      simp only at hl
      split
      · rw [requestLine_length, hl]
      · exact (headers_length _).trans hl.le
      · exact (body_length _).trans hl.le

theorem processHttp_length (c : Client) : (processHttp c).length ≤ c.length := by
  induction c using processHttp.induct with
  | case1 c t ht =>
    have hle := turn_length c
    rw [ht] at hle
    rwa [process_of_stop ht]
  | case2 c t ht ih =>
    have hle := turn_length c
    rw [ht] at hle
    rw [process_of_go ht]
    exact ih.trans hle

end Http

namespace Websocket

def Turn.socket : Turn → Socket
  | .go s => s
  | .stop s => s

/-- The buffer keeps its bytes or is emptied, and the connection is not shut down. -/
structure Advanced (s t : Socket) : Prop where
  buffer : t.buf.length = s.buf.length ∨ t.buf = []
  log : ∃ es, t.log = s.log ++ es ∧ .shutdown ∉ es

variable {s t u : Socket}

theorem Advanced.refl (s : Socket) : Advanced s s := ⟨.inl rfl, [], by simp, by simp⟩

theorem Advanced.trans (h : Advanced s t) (k : Advanced t u) : Advanced s u := by
  obtain ⟨es, hes, hnot⟩ := h.log
  obtain ⟨es', hes', hnot'⟩ := k.log
  refine ⟨?_, es ++ es', by rw [hes', hes, List.append_assoc], by simp [hnot, hnot']⟩
  rcases k.buffer with hk | hk
  · rcases h.buffer with hh | hh
    · exact .inl (hk.trans hh)
    · rw [hh] at hk
      exact .inr (List.length_eq_zero_iff.mp hk)
  · exact .inr hk

theorem Advanced.length_le (h : Advanced s t) : t.buf.length ≤ s.buf.length := by
  rcases h.buffer with h | h
  · exact h.le
  · simp [h]

theorem Advanced.setWs (s : Socket) (ws : State) : Advanced s (s.setWs ws) :=
  ⟨.inl rfl, [], (List.append_nil _).symm, by simp⟩

theorem Advanced.setByte (s : Socket) (b : UInt8) : Advanced s (s.setByte b) :=
  ⟨.inl (by simp [Socket.setByte]), [], (List.append_nil _).symm, by simp⟩

theorem Advanced.emit (s : Socket) {es : List Event} (h : .shutdown ∉ es) : Advanced s (s.emit es) :=
  ⟨.inl rfl, es, rfl, h⟩

theorem frameDone_advanced (s : Socket) : Advanced s (frameDone s).socket := by
  unfold frameDone
  split
  · exact ⟨.inr rfl, [], (List.append_nil _).symm, by simp⟩
  · exact .refl s

theorem endFrame_advanced (d : Draft) (s : Socket) : Advanced s (endFrame d s).socket := by
  unfold endFrame
  simp only
  generalize hws : s.setWs _ = t
  have ht : Advanced s t := hws ▸ Advanced.setWs s _
  refine ht.trans ?_
  split
  · exact .emit t (by simp)
  · split
    · split
      · exact .emit t (by simp)
      · exact (Advanced.emit t (by split <;> simp)).trans (frameDone_advanced _)
    · split
      · exact frameDone_advanced t
      · exact (Advanced.emit t (by simp)).trans (frameDone_advanced _)

theorem countDown_advanced (d : Draft) (s : Socket) : Advanced s (countDown d s).socket := by
  unfold countDown
  simp only
  split
  · exact (Advanced.setWs s _).trans (endFrame_advanced d _)
  · exact .setWs s _

theorem frameByte07_advanced (s : Socket) : Advanced s (frameByte07 s).socket := by
  unfold frameByte07
  simp only
  split
  case h_3 => split_ifs <;> first | exact .refl s | exact .setWs s _
  case h_6 =>
    exact (Advanced.setByte s _).trans ((Advanced.setWs _ _).trans (countDown_advanced draft07 _))
  case h_7 => exact .refl s
  all_goals exact .setWs s _

theorem frameByte06_advanced (s : Socket) : Advanced s (frameByte06 s).socket := by
  unfold frameByte06
  simp only
  generalize hb : s.setByte _ = t
  have ht : Advanced s t := hb ▸ Advanced.setByte s _
  refine ht.trans ?_
  split
  case h_3 => split_ifs <;> exact .setWs t _
  case h_6 => exact countDown_advanced draft06 t
  case h_7 => exact .refl t
  all_goals exact .setWs t _

theorem frameLoop_advanced {turn : Socket → Turn} (hturn : ∀ s, Advanced s (turn s).socket) (n : ℕ)
    (s : Socket) : Advanced s (frameLoop turn n s) := by
  induction n generalizing s with
  | zero => exact .refl s
  | succ n ih =>
    have h := hturn s
    rw [frameLoop]
    split
    case h_1 t ht =>
      rw [ht] at h
      exact h
    case h_2 t ht =>
      rw [ht] at h
      exact h.trans ((Advanced.setWs t _).trans (ih _))

theorem processOld_advanced (s : Socket) : Advanced s (processOld s) := by
  fun_induction processOld s with
  | case1 s first hs => exact .refl s
  | case2 s first j hs data t hend => exact ⟨.inr rfl, [.ready data], rfl, by simp⟩
  | case3 s first j hs data t hend ih =>
    refine Advanced.trans (t := t) ⟨.inl (by simp [t, Socket.emit]), [.ready data], rfl, by simp⟩ ?_
    exact (Advanced.setWs t _).trans ih

/-- What is done with a buffer that is not too long. -/
theorem processWebsocket_advanced (h : s.buf.length ≤ 502400) : Advanced s (processWebsocket s) := by
  unfold processWebsocket
  rw [if_neg (show ¬s.buf.length > 502400 by omega)]
  split
  · exact .refl s
  · split
    · exact frameLoop_advanced frameByte06_advanced _ s
    · exact frameLoop_advanced frameByte07_advanced _ s
    all_goals exact processOld_advanced s

theorem processWebsocket_length (s : Socket) :
    (processWebsocket s).buf.length ≤ s.buf.length := by
  by_cases h : s.buf.length ≤ 502400
  · exact (processWebsocket_advanced h).length_le
  · unfold processWebsocket
    rw [if_pos (show s.buf.length > 502400 by omega)]
    split <;> exact le_rfl

end Websocket

/-! ### The connection -/

namespace Http

/-- `co->parser`. -/
inductive Parser where
  | http (c : Client)
  | stream (s : Websocket.Socket)

/-- `buffer_in.length` as the parser leaves it. -/
def Parser.length : Parser → ℕ
  | .http c => c.length
  | .stream s => s.buf.length

/-- `parser_func` behind a read. -/
def Parser.read (r : Read) : Parser → Parser
  | .http c => .http (receive c r)
  | .stream s => .stream (Websocket.receive s r.bytes)

/-- `buffer_in` and the parser that works on it. -/
structure Connection where
  buffer : ApeBuffer
  parser : Parser

/-- What happens to a connection: a read, or the handshake that its request asks for. -/
inductive Input where
  | read (r : Read)
  | upgrade (version : Websocket.Version) (key : Sock.Bytes) (inkey : ℕ)

namespace Connection

def accepted : Connection := ⟨ApeBuffer.new, .http newClient⟩

/-- One turn of the read loop of `sockroutine`. -/
def read (c : Connection) (r : Read) : Connection :=
  let parser := c.parser.read r
  { buffer := { c.buffer.stored r.bytes.length with length := UInt32.ofNat parser.length }
    parser }

def step (c : Connection) : Input → Except Unit Connection
  | .read r => .ok (c.read r)
  | .upgrade version key inkey =>
    match c.parser with
    | .http client =>
      if client.log ≠ [] ∧ client.length = 0 then
        .ok { c with parser := .stream (Websocket.newSocket version key inkey) }
      else .error ()
    | .stream _ => .error ()

/-- A read gives no more than it is asked for. -/
def Fits (c : Connection) : Input → Prop
  | .read r => c.buffer.Fits r.bytes.length
  | .upgrade .. => True

/-- No read fills a buffer of 2^31 bytes. -/
def Spares (c : Connection) : Input → Prop
  | .read r => c.buffer.Fits r.bytes.length ∧ ¬c.buffer.Overflows r.bytes.length
  | .upgrade .. => True

/-- The buffer has not overflowed, and its length is the parser's. -/
structure Tracked (c : Connection) : Prop where
  sized : c.buffer.Sized
  length : c.buffer.length.toNat = c.parser.length

end Connection

open Connection

variable {c : Connection} {r : Read}

theorem Parser.read_length (p : Parser) (r : Read) :
    (p.read r).length ≤ p.length + r.bytes.length := by
  cases p with
  | http c => exact processHttp_length _
  | stream s =>
    refine (Websocket.processWebsocket_length _).trans ?_
    simp [Parser.length]

theorem Connection.Tracked.read (h : Tracked c) (hf : c.buffer.Fits r.bytes.length)
    (ho : ¬c.buffer.Overflows r.bytes.length) : Tracked (c.read r) := by
  have hsized := h.sized.stored hf ho
  have hle : (c.parser.read r).length ≤ (c.buffer.stored r.bytes.length).length.toNat := by
    rw [h.sized.stored_length hf, h.length]
    exact c.parser.read_length r
  have hto : (UInt32.ofNat (c.parser.read r).length).toNat = (c.parser.read r).length :=
    UInt32.toNat_ofNat_of_lt' (hle.trans_lt (UInt32.toNat_lt_size _))
  exact ⟨hsized.shrink (hto.le.trans hle), hto⟩

theorem Connection.Tracked.step {e : Input} {c' : Connection} (h : Tracked c) (he : c.Spares e)
    (hs : c.step e = .ok c') : Tracked c' := by
  cases e with
  | read r =>
    cases hs
    exact h.read he.1 he.2
  | upgrade version key inkey =>
    simp only [Connection.step] at hs
    split at hs
    case h_1 client hp =>
      split at hs
      case isTrue hready =>
        cases hs
        refine ⟨h.sized, ?_⟩
        simp only [h.length, hp, Parser.length, hready.2]
        rfl
      case isFalse => cases hs
    case h_2 => cases hs

theorem accepted_tracked : Tracked accepted := ⟨ApeBuffer.new_sized, rfl⟩

/-- Behind an overflow the size is 0. -/
theorem not_room (h : Tracked c) (hf : c.buffer.Fits r.bytes.length)
    (ho : c.buffer.Overflows r.bytes.length) : ¬(c.read r).buffer.Room := by
  intro hroom
  have hzero : (c.read r).buffer.size = 0 := h.sized.stored_overflows hf ho
  have hlt := hroom.1
  rw [hzero] at hlt
  exact absurd hlt UInt32.not_lt_zero

/-- While no read fills a buffer of 2^31 bytes, each read is given room in what was allocated.
The next read leaves it so if and only if it does not fill such a buffer either. -/
theorem room_for_reads (h : Reach Connection.step Spares accepted c) : c.buffer.Room ∧
    ∀ r : Read, c.buffer.Fits r.bytes.length →
      ((c.read r).buffer.Room ↔ ¬c.buffer.Overflows r.bytes.length) := by
  have ht := h.keeps Tracked accepted_tracked fun _ _ _ ht he hs => ht.step he hs
  exact ⟨ht.sized.room, fun r hf => ⟨fun hroom ho => not_room ht hf ho hroom,
    fun ho => (ht.read hf ho).sized.room⟩⟩

/-- "GET". -/
def firstBytes : Read := ⟨[71, 69, 84], 0⟩

theorem room_for_reads_first : (accepted.read firstBytes).buffer.Room := by
  have hfit : accepted.buffer.Fits firstBytes.bytes.length := by decide
  have hspares : Spares accepted (.read firstBytes) := ⟨hfit, fun h => absurd h.1 (by decide)⟩
  exact (room_for_reads (Reach.start.step hspares rfl)).1

/-! ### A line without an end -/

/-- One more byte of a request line. -/
def oneByte : Read := ⟨[65], 0⟩

/-- A client may send any number of bytes without a newline. -/
theorem line_grows (n : ℕ) (hn : n < 2 ^ 31) : ∃ c client,
    Reach Connection.step Connection.Fits accepted c ∧ Tracked c ∧ c.parser = .http client ∧
      Sim (.line (List.replicate n 65)) client ∧ client.length = n := by
  induction n with
  | zero => exact ⟨accepted, newClient, .start, accepted_tracked, rfl, newClient_sim, rfl⟩
  | succ n ih =>
    obtain ⟨c, client, hreach, ht, hparser, hsim, hlen⟩ := ih (by omega)
    have hlength : c.buffer.length.toNat = n := by rw [ht.length, hparser, Parser.length, hlen]
    have hfit : c.buffer.Fits oneByte.bytes.length :=
      ⟨by decide, ht.sized.capacity_pos, by decide⟩
    have hallowed : c.Fits (.read oneByte) := hfit
    have hspares : ¬c.buffer.Overflows oneByte.bytes.length := by
      rintro ⟨-, hfull⟩
      simp only [oneByte, List.length_singleton] at hfull
      omega
    have hrun : View.run (.line (List.replicate n 65)) oneByte.bytes =
        some (.line (List.replicate (n + 1) 65)) := by
      rw [View.run_line (by decide) (by decide), List.replicate_succ']
      rfl
    have hnext : Sim (.line (List.replicate (n + 1) 65)) (receive client oneByte) := by
      refine receive_sim hsim (by decide) (by decide) (fun t x ht hx => ?_) hrun
      cases ht
      have hlf : lf ∈ List.replicate n 65 ++ oneByte.bytes := by
        rw [hx]
        simp
      rw [oneByte, ← List.replicate_succ', List.mem_replicate] at hlf
      exact absurd hlf.2 (by decide)
    refine ⟨c.read oneByte, receive client oneByte, hreach.step hallowed rfl,
      ht.read hfit hspares, ?_, hnext, ?_⟩
    · rw [Connection.read, hparser]
      rfl
    · cases hnext with
      | line at_line nul noLf =>
        rw [at_line.live.length]
        simp

theorem length_wraps :
    ¬∀ c, Reach Connection.step Connection.Fits accepted c → c.buffer.Room := by
  intro h
  obtain ⟨c, client, hreach, ht, hparser, -, hlen⟩ := line_grows (2 ^ 31 - 1) (by decide)
  have hlength : c.buffer.length.toNat = 2 ^ 31 - 1 := by
    rw [ht.length, hparser, Parser.length, hlen]
  have hsize : c.buffer.size.toNat = 2 ^ 31 := by
    have hle := ht.sized.size_le
    have hlt := ht.sized.length
    omega
  have hfit : c.buffer.Fits oneByte.bytes.length :=
    ⟨by decide, ht.sized.capacity_pos, by decide⟩
  have hallowed : c.Fits (.read oneByte) := hfit
  have hfull : c.buffer.Overflows oneByte.bytes.length := by
    refine ⟨hsize, ?_⟩
    rw [hlength]
    rfl
  exact not_room ht hfit hfull (h _ (hreach.step hallowed rfl))

end Http

end ApeServer
