import ApeServer.Raw.Queue

/-!
# Frames of the IETF WebSocket transport

The head that `send_raws` and `send_raw_inline` write declares the length of the body behind
it. `send_raws` counts that body in a walk of its own.
-/
namespace ApeServer.RawPool

open Sock (Bytes toInt32)

/-- `send_raw_inline`: the pieces it passes to `sendbin`, in order. -/
def sendRawInline (t : ApeTransports) (transport : Transport) (ietf06 : Bool) (raw : Raw) :
    List Bytes :=
  let properties := transportGetProperties t transport
  let frame := if transport = .websocketIetf then
      [payloadHead (frameStart ietf06) (toInt32 (raw.data.length + 2))]
    else []
  transportHeaders none transport ++ (properties.bind Padding.left).toList ++ frame ++
    [bytes "[", raw.data, bytes "]"] ++ (properties.bind Padding.right).toList

/-- The number that bytes in network order stand for. -/
def bigEndian (bs : Bytes) : ℕ := bs.foldl (fun n b => 256 * n + b.toNat) 0

/-- A frame head with the length `n` in the shortest of the three forms. -/
structure Framed (start : UInt8) (n : ℕ) (head : Bytes) : Prop where
  seven : n ≤ 125 → ∃ b, head = [start, b] ∧ b.toNat = n
  sixteen : 125 < n → n ≤ 65535 → ∃ bs, head = start :: 126 :: bs ∧ bs.length = 2 ∧ bigEndian bs = n
  sixtyFour : 65535 < n → ∃ bs, head = start :: 127 :: bs ∧ bs.length = 8 ∧ bigEndian bs = n

theorem be_length (n x : ℕ) : (be n x).length = n := by
  induction n generalizing x with
  | zero => rfl
  | succ n ih => simp [be, ih]

theorem bigEndian_be (n x : ℕ) : bigEndian (be n x) = x % 256 ^ n := by
  induction n generalizing x with
  | zero => simp [be, bigEndian, Nat.mod_one]
  | succ n ih =>
    have hfold := ih (x / 256)
    unfold bigEndian at hfold ⊢
    rw [be, List.foldl_append, hfold]
    simp only [List.foldl_cons, List.foldl_nil, UInt8.toNat_ofNat', Nat.reducePow]
    rw [pow_succ, Nat.mul_comm (256 ^ n) 256, Nat.mod_mul]
    omega

theorem payloadHead_framed (start : UInt8) {n : ℕ} (h : n < 2 ^ 31) :
    Framed start n (payloadHead start n) := by
  unfold payloadHead
  refine ⟨fun h₁ => ?_, fun h₁ h₂ => ?_, fun h₁ => ?_⟩
  · have hall : ∀ n < 126, (UInt8.ofInt (n : ℕ) &&& 0x7F).toNat = n := by decide +kernel
    exact ⟨UInt8.ofInt n &&& 0x7F, if_pos (by omega), hall n (by omega)⟩
  · refine ⟨be 2 n, ?_, be_length 2 n, ?_⟩
    · rw [if_neg (by omega), if_pos (by omega)]
      rfl
    · rw [bigEndian_be]
      omega
  · refine ⟨[0, 0, 0, 0] ++ be 4 n, ?_, by simp [be_length], ?_⟩
    · rw [if_neg (by omega), if_neg (by omega)]
      rfl
    · have hz : bigEndian ([0, 0, 0, 0] ++ be 4 n) = bigEndian (be 4 n) := rfl
      rw [hz, bigEndian_be]
      omega

/-- The walk of `raws_size` counts the body that the other one writes. -/
theorem body_length {raws : List Raw} (hne : raws ≠ []) : (body raws).length = 1 + cost raws := by
  have hinner : ((bytes ",").intercalate (raws.map Raw.data)).length + 1 = cost raws := by
    induction raws with
    | nil => exact absurd rfl hne
    | cons r rs ih =>
      cases rs with
      | nil => simp [cost]
      | cons r' rs =>
        have hcons : (bytes ",").intercalate ((r :: r' :: rs).map Raw.data) =
            r.data ++ (bytes "," ++ (bytes ",").intercalate ((r' :: rs).map Raw.data)) := by
          simp [List.intercalate]
        have hcomma : (bytes ",").length = 1 := rfl
        have hcost : cost (r :: r' :: rs) = r.data.length + 1 + cost (r' :: rs) := rfl
        have := ih (by simp)
        rw [hcons, hcost, List.length_append, List.length_append, hcomma]
        omega
  have hopen : (bytes "[").length = 1 := rfl
  have hclose : (bytes "]").length = 1 := rfl
  simp only [body, List.length_append, hopen, hclose]
  omega

/-- The subusers that posts and sends lead to, with their queues. -/
inductive Reached (t : ApeTransports) : Sub → Queue → Prop
  | new : Reached t newSub .empty
  | post {s : Sub} {q : Queue} {raw : Raw} {pools : Pools} : Reached t s q →
      postRawSub raw s.pools = some pools → Reached t { s with pools } (q.post raw)
  | send {s s' : Sub} {q : Queue} {transport : Transport} {ietf06 : Bool} {out : List Bytes} :
      Reached t s q → sendRaws t transport ietf06 s = some (out, s') → Reached t s' .empty

theorem Reached.represents {t : ApeTransports} {s : Sub} {q : Queue} (h : Reached t s q) :
    Represents s q := by
  induction h with
  | new => exact newPools_inv
  | @post s q raw pools _ hp ih =>
    obtain ⟨_, ⟨pools', hp', hr⟩⟩ := serves_of_represents t [.post raw] ih
    rw [hp] at hp'
    cases hp'
    exact hr
  | @send s s' q transport ietf06 out _ hs ih =>
    obtain ⟨_, out', s'', hs', -, -, hr⟩ := serves_of_represents t [.send transport ietf06] ih
    rw [hs] at hs'
    cases hs'
    exact hr

/-- In the IETF WebSocket transport, a send of a queue and a raw sent alone each write one
frame: a head with the length of the body, and the body. -/
theorem frames_exact {evalFunc : Bytes} {before : ApeTransports} (ietf06 : Bool) :
    (∀ s q, Reached (transportStart evalFunc before) s q → q.drain ≠ [] →
      (body q.drain).length < 2 ^ 31 → ∃ out s' head,
        sendRaws (transportStart evalFunc before) .websocketIetf ietf06 s = some (out, s') ∧
        out.flatten = head ++ body q.drain ∧
        Framed (frameStart ietf06) (body q.drain).length head) ∧
    ∀ raw, (body [raw]).length < 2 ^ 31 → ∃ head,
      (sendRawInline (transportStart evalFunc before) .websocketIetf ietf06 raw).flatten =
        head ++ body [raw] ∧ Framed (frameStart ietf06) (body [raw]).length head := by
  refine ⟨fun s q hr hne hlen => ?_, fun raw hlen => ?_⟩
  · obtain ⟨pre, out, s', hpre, hs, hout, -⟩ :=
      sendRaws_drain (transportStart evalFunc before) .websocketIetf ietf06 hr.represents hne
    have hsize : toInt32 (((1 + cost q.drain) % 2 ^ 32 : ℕ) : ℤ) = (body q.drain).length := by
      rw [body_length hne] at hlen ⊢
      rw [Nat.mod_eq_of_lt (by omega)]
      exact Int.bmod_eq_of_le (by omega) (by omega)
    have hhead : pre.flatten = payloadHead (frameStart ietf06) (body q.drain).length := by
      have hraws : rawsSize s.pools = some ((1 + cost q.drain) % 2 ^ 32) :=
        rawsSize_eq hr.represents hne
      have hleft : ((transportGetProperties (transportStart evalFunc before)
          .websocketIetf).bind Padding.left).toList = [] := rfl
      simp only [preamble, if_true, Option.bind_eq_bind, hraws, Option.bind_some, Option.pure_def,
        hleft, hsize, Option.some.injEq] at hpre
      rw [← hpre]
      split <;> simp [transportHeaders]
    refine ⟨out, s', _, hs, ?_, payloadHead_framed (frameStart ietf06) hlen⟩
    rw [hout, hhead]
    simp [transportGetProperties, transportStart]
  · refine ⟨_, ?_, payloadHead_framed (frameStart ietf06) hlen⟩
    have hbody : (body [raw]).length = raw.data.length + 2 := by
      rw [body_length (by simp)]
      simp [cost]
      omega
    have hsize : toInt32 (raw.data.length + 2) = (body [raw]).length := by
      rw [hbody] at hlen ⊢
      exact Int.bmod_eq_of_le (by omega) (by omega)
    simp [sendRawInline, hsize, transportHeaders, transportGetProperties, transportStart, body]

theorem frames_exact_quit : ∃ s out s' head, Reached (transportStart (bytes "f")
      ⟨⟨none, none⟩, ⟨none, none⟩, ⟨none, none⟩, ⟨none, none⟩, ⟨none, none⟩⟩) s
      ⟨[⟨bytes "QUIT", .lo⟩], []⟩ ∧
    sendRaws (transportStart (bytes "f")
      ⟨⟨none, none⟩, ⟨none, none⟩, ⟨none, none⟩, ⟨none, none⟩, ⟨none, none⟩⟩) .websocketIetf false s =
      some (out, s') ∧
    out.flatten = head ++ bytes "[QUIT]" ∧ Framed 0x81 6 head := by
  obtain ⟨pools, hp, -⟩ := postRawSub_inv ⟨bytes "QUIT", .lo⟩ newPools_inv
  have hr : Reached (transportStart (bytes "f")
      ⟨⟨none, none⟩, ⟨none, none⟩, ⟨none, none⟩, ⟨none, none⟩, ⟨none, none⟩⟩)
      { newSub with pools } ⟨[⟨bytes "QUIT", .lo⟩], []⟩ := .post .new hp
  obtain ⟨out, s', head, hs, hout, hhead⟩ := (frames_exact false).1 _ _ hr (by decide) (by decide)
  exact ⟨_, out, s', head, hr, hs, hout, hhead⟩

end ApeServer.RawPool
