import ApeServer.Digest.Sha1
import ApeServer.Digest.Md5
import ApeServer.Digest.Base64
import ApeServer.Server.Events

/-!
# The answer to a WebSocket handshake

The first half of `checkrecv`, with the bytes it writes. A client of draft 76 gives two numbers,
each hidden in a header, and eight bytes behind its request; a client of the later drafts gives a
key. What it is answered proves that the server has read them.
-/
namespace ApeServer.Handshake

open Digest (Bytes Context Word low leBytes beBytes byte ofBytes memcpy leBytes_ofBytes)
open Websocket (Version)

/-- `WS_IETF_GUID` -/
def guid : Bytes := bytes "258EAFA5-E914-47DA-95CA-C5AB0DC85B11"

/-- What uninitialised arrays hold: the buffer of a digest's context, and `out`. -/
structure Stack where
  buffer : Bytes
  out : Bytes
  buffer_size : buffer.length = 64
  out_size : out.length = 128

/-- One character in `ws_compute_key_r76`: `val` and `spaces` after it. -/
def keyStep {w : ℕ} (s : BitVec w × ℕ) (c : UInt8) : BitVec w × ℕ :=
  if 48 ≤ c ∧ c ≤ 57 then (s.1 * 10 + BitVec.ofNat w (c.toNat - 48), s.2)
  else if c = 32 then (s.1, s.2 + 1)
  else s

/-- `ws_compute_key_r76`, with an `unsigned long` of `w` bits. -/
def ws_compute_key_r76 (w : ℕ) (value : Bytes) : BitVec w :=
  let (val, spaces) := value.foldl keyStep (0, 0)
  if spaces = 0 then 0 else val / BitVec.ofNat w spaces

/-- `htonl` on a machine that stores the low byte first, widened again. -/
def htonl {w : ℕ} (x : BitVec w) : BitVec w :=
  (ofBytes (byte (low x) 0) (byte (low x) 1) (byte (low x) 2) (byte (low x) 3)).setWidth w

/-- The first four bytes of an `unsigned long` in the memory of such a machine. -/
def firstFour {w : ℕ} (x : BitVec w) : Bytes := leBytes (low x)

/-- `md5sum`; `none` if `http->data` is no eight bytes. -/
def challenge (w : ℕ) (stack : Stack) (key1 key2 : Bytes) (data : Option Bytes) :
    Option Bytes := do
  let ckey1 := htonl (ws_compute_key_r76 w key1)
  let ckey2 := htonl (ws_compute_key_r76 w key2)
  let data ← data
  if data.length < 8 then none
  let ctx ← Digest.Md5.md5_update (Digest.Md5.md5_starts (w := w) stack.buffer) (firstFour ckey1)
  let ctx ← Digest.Md5.md5_update ctx (firstFour ckey2)
  let ctx ← Digest.Md5.md5_update ctx (data.take 8)
  let (_, md5sum) ← Digest.Md5.md5_finish ctx
  return md5sum

/-- `ws_compute_key`: the outer `none` is a write behind `out`, the inner one its `NULL`. -/
def ws_compute_key (w : ℕ) (stack : Stack) (key : Bytes) : Option (Option Bytes) :=
  if 32 < key.length then some none else do
    let out ← memcpy stack.out 0 key
    let out ← memcpy out key.length guid
    let digest ← Digest.Sha1.sha1_csum w stack.buffer (out.take (36 + key.length))
    let b64 ← Base64.base64_encode digest
    return some b64

/-- `WEBSOCKET_HARDCODED_HEADERS_OLD` -/
def headersOld : Bytes :=
  bytes "HTTP/1.1 101 Web Socket Protocol Handshake\r\n" ++
    bytes "Upgrade: WebSocket\r\nConnection: Upgrade\r\n"

/-- `WEBSOCKET_HARDCODED_HEADERS_NEW` -/
def headersNew : Bytes :=
  bytes "HTTP/1.1 101 WebSocket Protocol Handshake\r\n" ++
    bytes "Upgrade: WebSocket\r\nConnection: Upgrade\r\n"

/-- `WEBSOCKET_HARDCODED_HEADERS_IETF` -/
def headersIetf : Bytes :=
  bytes "HTTP/1.1 101 Switching Protocols\r\n" ++
    bytes "Upgrade: WebSocket\r\nConnection: Upgrade\r\n"

/-- What becomes of a handshake: the connection is shut down, or it speaks a version and is
written to. -/
inductive Reply where
  | refused
  | accepted (version : Version) (writes : List Bytes)

/-- The origin `checkrecv` goes by. -/
def origin (hlines : List Http.HeaderLine) : Option Bytes :=
  (getHeaderLine hlines (bytes "Origin")).or (getHeaderLine hlines (bytes "Sec-WebSocket-Origin"))

/-- The writes up to the version `WS_OLD`. -/
def writesOld (origin host uri : Bytes) : List Bytes :=
  [headersOld, bytes "WebSocket-Origin: ", origin, bytes "\r\nWebSocket-Location: ws://", host, uri,
    bytes "\r\n\r\n"]

/-- The writes of `WS_76`. -/
def writes76 (origin host uri md5sum : Bytes) : List Bytes :=
  [headersNew, bytes "Sec-WebSocket-Origin: ", origin, bytes "\r\nSec-WebSocket-Location: ws://",
    host, uri, bytes "\r\n\r\n", md5sum]

/-- The writes of `WS_IETF_06` and `WS_IETF_07`. -/
def writesIetf (wsaccept : Bytes) (protocol : Option Bytes) : List Bytes :=
  [headersIetf, bytes "Sec-WebSocket-Accept: ", wsaccept] ++
    (protocol.map fun p => [bytes "\r\nSec-WebSocket-Protocol: ", p]).getD [] ++
    [bytes "\r\n\r\n"]

/-- The version a key asks for. -/
def keyVersion (hlines : List Http.HeaderLine) : Version :=
  match getHeaderLine hlines (bytes "Sec-WebSocket-Version") with
  | some v => if Http.atoi v = 6 then .ietf06 else .ietf07
  | none => .old

/-- The answer to a key, with the text `ws_compute_key` returns. -/
def keyReply (hlines : List Http.HeaderLine) (origin host uri : Bytes) : Option Bytes → Reply
  | none => .refused
  | some wsaccept =>
    .accepted (keyVersion hlines)
      (match keyVersion hlines with
        | .ietf06 | .ietf07 =>
          writesIetf wsaccept (getHeaderLine hlines (bytes "Sec-WebSocket-Protocol"))
        | .old | .v76 => writesOld origin host uri)

/-- The handshake in `checkrecv`; `none` if it touches memory that is not its own. -/
def reply (w : ℕ) (stack : Stack) (host uri : Bytes) (hlines : List Http.HeaderLine)
    (data : Option Bytes) : Option Reply :=
  match origin hlines with
  | none => some .refused
  | some origin =>
    match getHeaderLine hlines (bytes "Sec-WebSocket-Key1"),
      getHeaderLine hlines (bytes "Sec-WebSocket-Key2"),
      getHeaderLine hlines (bytes "Sec-WebSocket-Key") with
    | some key1, some key2, _ =>
      (challenge w stack key1 key2 data).map fun md5sum =>
        .accepted .v76 (writes76 origin host uri md5sum)
    | _, _, some keybase =>
      (ws_compute_key w stack keybase).map (keyReply hlines origin host uri)
    | _, _, none => some (.accepted .old (writesOld origin host uri))

/-! ## The numbers of draft 76 -/

section Numbers

variable {w : ℕ}

/-- The digits are collected whatever stands between them, and the spaces are counted. -/
theorem foldl_keyStep (value : Bytes) : ∀ (n k : ℕ),
    value.foldl keyStep (BitVec.ofNat w n, k) =
      (BitVec.ofNat w ((value.filter Http.isdigit).foldl (fun n b => 10 * n + (b.toNat - 48)) n),
        k + value.count 32) := by
  induction value with
  | nil =>
    intro n k
    rfl
  | cons c value ih =>
    intro n k
    rw [List.foldl_cons]
    by_cases hd : 48 ≤ c ∧ c ≤ 57
    · have hdig : Http.isdigit c = true := by simpa [Http.isdigit] using hd
      have hne : c ≠ 32 := by
        rintro rfl
        exact absurd hd (by decide)
      have hstep : keyStep (BitVec.ofNat w n, k) c =
          (BitVec.ofNat w (10 * n + (c.toNat - 48)), k) := by
        rw [keyStep, if_pos hd, BitVec.ofNat_add, BitVec.ofNat_mul, BitVec.mul_comm]
        rfl
      rw [hstep, ih, List.filter_cons_of_pos hdig, List.foldl_cons, List.count_cons_of_ne hne]
    · have hdig : ¬ Http.isdigit c = true := by simpa [Http.isdigit] using hd
      rw [List.filter_cons_of_neg hdig]
      by_cases hs : c = 32
      · subst hs
        have hstep : keyStep (BitVec.ofNat w n, k) 32 = (BitVec.ofNat w n, k + 1) := rfl
        rw [hstep, ih, List.count_cons_self, Nat.add_right_comm, Nat.add_assoc]
      · have hstep : keyStep (BitVec.ofNat w n, k) c = (BitVec.ofNat w n, k) := by
          rw [keyStep, if_neg hd, if_neg hs]
        rw [hstep, ih, List.count_cons_of_ne hs]

/-- The header `value` hides `n`: its digits are those of `n` times the number of its spaces. -/
structure Hides (n : ℕ) (value : Bytes) : Prop where
  spaces : 0 < value.count 32
  digits : Http.digits (value.filter Http.isdigit) = n * value.count 32
  bound : n * value.count 32 < 2 ^ 32

theorem ws_compute_key_r76_eq (hw : 32 ≤ w) {n : ℕ} {value : Bytes} (h : Hides n value) :
    ws_compute_key_r76 w value = BitVec.ofNat w n := by
  have hpow := Nat.pow_le_pow_right (show 0 < 2 by omega) hw
  have hb := h.bound
  have hfold : value.foldl keyStep ((0 : BitVec w), 0) =
      (BitVec.ofNat w (n * value.count 32), value.count 32) := by
    have := foldl_keyStep (w := w) value 0 0
    rw [Nat.zero_add] at this
    rw [← h.digits]
    exact this
  have hs : ¬ value.count 32 = 0 := by
    have := h.spaces
    omega
  simp only [ws_compute_key_r76, hfold, hs, if_false]
  apply BitVec.eq_of_toNat_eq
  rcases Nat.eq_zero_or_pos n with rfl | hn
  · simp
  · have hle : value.count 32 ≤ n * value.count 32 := Nat.le_mul_of_pos_left _ hn
    have hle' : n ≤ n * value.count 32 := Nat.le_mul_of_pos_right _ h.spaces
    rw [BitVec.toNat_udiv, BitVec.toNat_ofNat, BitVec.toNat_ofNat, BitVec.toNat_ofNat,
      Nat.mod_eq_of_lt (by omega), Nat.mod_eq_of_lt (by omega), Nat.mod_eq_of_lt (by omega),
      Nat.mul_div_cancel _ h.spaces]

/-- The bytes that are hashed are those of the number, the high one first. -/
theorem firstFour_htonl (hw : 32 ≤ w) (x : BitVec w) : firstFour (htonl x) = beBytes (low x) := by
  rw [firstFour, htonl, low, BitVec.setWidth_setWidth_of_le _ hw, BitVec.setWidth_eq]
  exact leBytes_ofBytes _ _ _ _

end Numbers

/-! ## What the client is answered -/

section Answers

variable {w : ℕ} {stack : Stack} {host uri key : Bytes} {hlines : List Http.HeaderLine}
  {data : Option Bytes}

/-- The answer to the two numbers and the eight bytes. -/
def proof76 (n₁ n₂ : ℕ) (key3 : Bytes) : Bytes :=
  Digest.Md5.Standard.md5
    (beBytes (BitVec.ofNat 32 n₁) ++ beBytes (BitVec.ofNat 32 n₂) ++ key3)

/-- The answer to a key. -/
def proofIetf (key : Bytes) : Bytes := Base64.encoded (Digest.Sha1.Standard.sha1 (key ++ guid))

theorem challenge_ok (hw : 32 ≤ w) (stack : Stack) (key1 key2 : Bytes) {d : Bytes}
    (hd : 8 ≤ d.length) :
    challenge w stack key1 key2 (some d) =
      some (Digest.Md5.Standard.md5 (beBytes (low (ws_compute_key_r76 w key1)) ++
        beBytes (low (ws_compute_key_r76 w key2)) ++ d.take 8)) := by
  have hfour : ∀ x : BitVec w, (firstFour (htonl x)).length < 2 ^ 32 := by
    intro x
    rw [firstFour_htonl hw]
    exact (show 4 < 2 ^ 32 by omega)
  obtain ⟨c₁, h₁, t₁⟩ := Digest.Md5.update_taken hw
    (Digest.Md5.starts_seen hw stack.buffer_size) (hfour (ws_compute_key_r76 w key1))
  obtain ⟨c₂, h₂, t₂⟩ := Digest.Md5.update_taken hw t₁ (hfour (ws_compute_key_r76 w key2))
  have height : (d.take 8).length < 2 ^ 32 := by
    rw [List.length_take]
    omega
  obtain ⟨c₃, h₃, t₃⟩ := Digest.Md5.update_taken hw t₂ height
  obtain ⟨c₄, h₄, _⟩ := Digest.Md5.finish_taken hw t₃
  simp only [firstFour_htonl hw, List.nil_append] at h₁ h₂ h₄
  have hlt : ¬ d.length < 8 := by omega
  simp only [challenge, firstFour_htonl hw, hlt, if_false, h₁, h₂, h₃, h₄, Option.bind_eq_bind,
    Option.bind_some]
  rfl

theorem length_guid : guid.length = 36 := by decide

/-- A key of at most 32 bytes and the identifier fit into `out`; a longer one is refused. -/
theorem ws_compute_key_eq (hw : 32 ≤ w) (stack : Stack) (key : Bytes) :
    ws_compute_key w stack key =
      some (if 32 < key.length then none else some (proofIetf key)) := by
  by_cases hk : 32 < key.length
  · rw [ws_compute_key, if_pos hk, if_pos hk]
  · have hout := stack.out_size
    obtain ⟨o₁, h₁, l₁, t₁⟩ := Digest.memcpy_ok stack.out 0 key (by omega)
    obtain ⟨o₂, h₂, l₂, t₂⟩ := Digest.memcpy_ok o₁ key.length guid
      (by rw [length_guid]; omega)
    have htake : o₂.take (36 + key.length) = key ++ guid := by
      rw [Nat.add_comm, ← length_guid, t₂]
      rw [Nat.zero_add, List.take_zero, List.nil_append] at t₁
      rw [t₁]
    have hbuf : (key ++ guid).length < 2 ^ 32 := by
      rw [List.length_append, length_guid]
      omega
    have hsrc : (Digest.Sha1.Standard.sha1 (key ++ guid)).length < 2 ^ 29 := by
      rw [Digest.Sha1.length_sha1]
      omega
    have hdigest := Digest.Sha1.sha1_csum_eq hw stack.buffer_size hbuf
    have hb64 := Base64.base64_encode_eq hsrc
    simp only [ws_compute_key, hk, if_false, h₁, h₂, htake, hdigest, hb64, Option.bind_eq_bind,
      Option.bind_some]
    rfl

/-- Arrays of zeros. -/
def blank : Stack :=
  { buffer := List.replicate 64 0
    out := List.replicate 128 0
    buffer_size := List.length_replicate
    out_size := List.length_replicate }

/-- The header lines of a client of draft 76. -/
def sample76 : List Http.HeaderLine :=
  [⟨bytes "Origin", bytes "http://a"⟩,
    ⟨bytes "Sec-WebSocket-Key1", bytes "18x 6]8vM;54 *(5:  \x7b   U1]8  z [  8"⟩,
    ⟨bytes "Sec-WebSocket-Key2", bytes "1_ tx7X d  <  nw  334J702) 7]o\x7d` 0"⟩]

/-- The header lines of a client of the last drafts. -/
def sampleIetf : List Http.HeaderLine :=
  [⟨bytes "Sec-WebSocket-Key", bytes "dGhlIHNhbXBsZSBub25jZQ=="⟩,
    ⟨bytes "Sec-WebSocket-Origin", bytes "http://a"⟩,
    ⟨bytes "Sec-WebSocket-Version", bytes "13"⟩]

/-- **Draft 76.** Whatever stands between the digits and the spaces of the two headers, the
numbers the client has hidden in them and the eight bytes behind its request are answered. -/
theorem reply_draft76 (hw : 32 ≤ w) {o key1 key2 d : Bytes} {n₁ n₂ : ℕ}
    (ho : origin hlines = some o)
    (h₁ : getHeaderLine hlines (bytes "Sec-WebSocket-Key1") = some key1)
    (h₂ : getHeaderLine hlines (bytes "Sec-WebSocket-Key2") = some key2)
    (hn₁ : Hides n₁ key1) (hn₂ : Hides n₂ key2) (hd : 8 ≤ d.length) :
    reply w stack host uri hlines (some d) =
      some (.accepted .v76 (writes76 o host uri (proof76 n₁ n₂ (d.take 8)))) := by
  have hc := challenge_ok hw stack key1 key2 hd
  rw [ws_compute_key_r76_eq hw hn₁, ws_compute_key_r76_eq hw hn₂, Digest.low_ofNat hw,
    Digest.low_ofNat hw] at hc
  simp only [reply, ho, h₁, h₂, hc, Option.map_some]
  rfl

theorem reply_draft76_sample : reply 64 blank (bytes "a") (bytes "/") sample76
      (some (bytes "^n:ds[4U")) = some (.accepted .v76 (writes76 (bytes "http://a") (bytes "a")
    (bytes "/") (proof76 155712099 173347027 (bytes "^n:ds[4U")))) :=
  reply_draft76 (by omega) (by decide)
    (show _ = some (bytes "18x 6]8vM;54 *(5:  \x7b   U1]8  z [  8") by decide)
    (show _ = some (bytes "1_ tx7X d  <  nw  334J702) 7]o\x7d` 0") by decide)
    ⟨by decide, by decide, by decide⟩ ⟨by decide, by decide, by decide⟩ (by decide)

/-- **The later drafts.** A key of more than 32 bytes is refused, and one of at most 32 bytes is
answered with a text that decodes to the digest of the key and the identifier. -/
theorem reply_ietf (hw : 32 ≤ w) {o v : Bytes} (ho : origin hlines = some o)
    (h₁ : getHeaderLine hlines (bytes "Sec-WebSocket-Key1") = none)
    (hk : getHeaderLine hlines (bytes "Sec-WebSocket-Key") = some key)
    (hv : getHeaderLine hlines (bytes "Sec-WebSocket-Version") = some v) :
    (32 < key.length → reply w stack host uri hlines data = some .refused) ∧
    (key.length ≤ 32 → ∃ wsaccept,
      reply w stack host uri hlines data = some (.accepted
        (if Http.atoi v = 6 then .ietf06 else .ietf07)
        (writesIetf wsaccept (getHeaderLine hlines (bytes "Sec-WebSocket-Protocol")))) ∧
      Base64.base64_decode wsaccept 20 = some (Digest.Sha1.Standard.sha1 (key ++ guid))) := by
  have hver : keyVersion hlines = if Http.atoi v = 6 then .ietf06 else .ietf07 := by
    rw [keyVersion, hv]
  constructor
  · intro hlong
    simp only [reply, ho, h₁, hk, ws_compute_key_eq hw, hlong, if_true, Option.map_some]
    rfl
  · intro hshort
    refine ⟨proofIetf key, ?_, ?_⟩
    · simp only [reply, ho, h₁, hk, ws_compute_key_eq hw, if_neg (show ¬ 32 < key.length by omega),
        Option.map_some, keyReply, hver]
      split <;> rfl
    · have hlen := Digest.Sha1.length_sha1 (key ++ guid)
      have hround := Base64.decode_encoded (Digest.Sha1.Standard.sha1 (key ++ guid)) 20
      rw [List.take_of_length_le (by omega)] at hround
      exact hround

theorem reply_ietf_sample : ∃ wsaccept, reply 64 blank (bytes "a") (bytes "/") sampleIetf none =
      some (.accepted .ietf07 (writesIetf wsaccept none)) ∧
    Base64.base64_decode wsaccept 20 =
      some (Digest.Sha1.Standard.sha1 (bytes "dGhlIHNhbXBsZSBub25jZQ==" ++ guid)) :=
  (reply_ietf (by omega) (show origin sampleIetf = some (bytes "http://a") by decide)
    (by decide) (show _ = some (bytes "dGhlIHNhbXBsZSBub25jZQ==") by decide)
    (show _ = some (bytes "13") by decide)).2 (by decide)

theorem length_writesIetf (wsaccept : Bytes) :
    (writesIetf wsaccept (getHeaderLine hlines (bytes "Sec-WebSocket-Protocol"))).length =
      handshakeWrites hlines .ietf07 := by
  rw [handshakeWrites]
  cases getHeaderLine hlines (bytes "Sec-WebSocket-Protocol") <;> rfl

theorem origin_eq_none : origin hlines = none ↔
    getHeaderLine hlines (bytes "Origin") = none ∧
      getHeaderLine hlines (bytes "Sec-WebSocket-Origin") = none := by
  rw [origin, Option.or_eq_none_iff]

/-- What a reply has to do with the version the model of the whole server gives. -/
def Reply.Of (hlines : List Http.HeaderLine) (r : Reply) : Option Version → Prop
  | none => r = .refused
  | some v => ∃ writes, r = .accepted v writes ∧ writes.length = handshakeWrites hlines v

theorem keyReply_of (o wsaccept : Bytes) :
    (keyReply hlines o host uri (some wsaccept)).Of hlines
      (match getHeaderLine hlines (bytes "Sec-WebSocket-Version") with
        | some v => some (if Http.atoi v = 6 then .ietf06 else .ietf07)
        | none => some .old) := by
  have hlen : _ = handshakeWrites hlines _ := length_writesIetf wsaccept
  unfold keyReply keyVersion
  cases getHeaderLine hlines (bytes "Sec-WebSocket-Version") with
  | none => exact ⟨_, rfl, rfl⟩
  | some v =>
    dsimp only
    split
    · exact ⟨_, rfl, hlen⟩
    · exact ⟨_, rfl, hlen⟩

/-- **The server's handshake.** It stays inside its arrays, and it is the one of the model of the
whole server: refused or not, of the same version and with as many writes. -/
theorem reply_writes (hw : 32 ≤ w)
    (hdata : wsVersion hlines = some .v76 → ∃ d, data = some d ∧ 8 ≤ d.length) :
    ∃ r, reply w stack host uri hlines data = some r ∧ r.Of hlines (wsVersion hlines) := by
  cases ho : origin hlines with
  | none =>
    refine ⟨.refused, by simp only [reply, ho], ?_⟩
    rw [wsVersion, if_pos (origin_eq_none.mp ho)]
    rfl
  | some o =>
    have hne : ¬ (getHeaderLine hlines (bytes "Origin") = none ∧
        getHeaderLine hlines (bytes "Sec-WebSocket-Origin") = none) := by
      intro h
      rw [origin_eq_none.mpr h] at ho
      cases ho
    rw [wsVersion, if_neg hne] at hdata ⊢
    have hkeyed : ∀ key, ∃ r,
        (ws_compute_key w stack key).map (keyReply hlines o host uri) = some r ∧
        r.Of hlines (if key.length > 32 then none
          else match getHeaderLine hlines (bytes "Sec-WebSocket-Version") with
            | some v => some (if Http.atoi v = 6 then .ietf06 else .ietf07)
            | none => some .old) := by
      intro key
      rw [ws_compute_key_eq hw]
      by_cases hk : 32 < key.length
      · rw [if_pos hk, if_pos hk]
        exact ⟨_, rfl, rfl⟩
      · rw [if_neg hk, if_neg hk]
        exact ⟨_, rfl, keyReply_of o _⟩
    simp only [reply, ho]
    cases h₁ : getHeaderLine hlines (bytes "Sec-WebSocket-Key1") with
    | some key1 =>
      cases h₂ : getHeaderLine hlines (bytes "Sec-WebSocket-Key2") with
      | some key2 =>
        rw [h₁, h₂] at hdata
        obtain ⟨d, rfl, hd⟩ := hdata rfl
        have hc := challenge_ok hw stack key1 key2 hd
        exact ⟨_, congrArg (Option.map _) hc, _, rfl, rfl⟩
      | none =>
        cases hk : getHeaderLine hlines (bytes "Sec-WebSocket-Key") with
        | some key => exact hkeyed key
        | none => exact ⟨_, rfl, _, rfl, rfl⟩
    | none =>
      cases hk : getHeaderLine hlines (bytes "Sec-WebSocket-Key") with
      | some key => exact hkeyed key
      | none => exact ⟨_, rfl, _, rfl, rfl⟩

theorem reply_writes_sample : ∃ r, reply 64 blank (bytes "a") (bytes "/") sample76
    (some (bytes "^n:ds[4U")) = some r ∧ r.Of sample76 (wsVersion sample76) :=
  reply_writes (by omega) fun _ => ⟨_, rfl, by decide⟩

end Answers

end ApeServer.Handshake
