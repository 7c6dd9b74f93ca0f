import ApeServer.Sock.Bufout

/-! Exact delivery: kernel bytes followed by queued bytes are what was handed over. -/
namespace ApeServer.Sock

variable {o : Bufout} {c : Conn} {rest block : Bytes} {w : ℕ → Write}

/-- The largest number of queued bytes whose rounded size still fits an `int`. -/
def maxQueued : Int := 2 ^ 31 - 2048

theorem toInt32_of_range {x : Int} (h : -2 ^ 31 ≤ x) (h' : x < 2 ^ 31) : toInt32 x = x :=
  Int.bmod_eq_of_le (by omega) (by omega)

theorem toInt32_of_large {x : Int} (h : 2 ^ 31 ≤ x) (h' : x < 2 ^ 32) :
    toInt32 x = x - 2 ^ 32 := by
  have hs : toInt32 (x - 2 ^ 32) = toInt32 x := Int.sub_bmod_right x (2 ^ 32)
  rw [← hs, toInt32_of_range (by omega) (by omega)]

theorem roundUp_bounds {n : Int} (h : 0 ≤ n) (hn : n ≤ maxQueued) :
    n ≤ roundUp n ∧ roundUp n ≤ maxQueued := by
  unfold maxQueued at *
  rw [roundUp, toInt32_of_range (by omega) (by omega)]
  omega

theorem roundUp_neg {n : Int} (h : maxQueued < n) (hn : n < 2 ^ 31) : roundUp n < 0 := by
  unfold maxQueued at h
  rw [roundUp, toInt32_of_large (by omega) (by omega)]
  omega

namespace Bufout

/-- The bytes `buf[0..buflen)`. -/
def pending (o : Bufout) : Bytes := (o.buf.getD []).take o.buflen.toNat

/-- A queue that is there holds at least one byte, inside a block of `allocsize`. -/
structure Inv (o : Bufout) : Prop where
  empty : o.buf = none → o.buflen = 0
  used : o.buf ≠ none → 0 < o.buflen ∧ o.buflen ≤ o.allocsize
  block : ∀ b, o.buf = some b → (b.length : Int) = o.allocsize
  bound : o.buf ≠ none → o.allocsize ≤ maxQueued

theorem Inv.pending_length (h : o.Inv) : (o.pending.length : Int) = o.buflen := by
  cases hb : o.buf with
  | none => simp [pending, hb, h.empty hb]
  | some b =>
    have hu := h.used (by simp [hb])
    have hl := h.block b hb
    simp only [pending, hb, Option.getD_some, List.length_take]
    omega

theorem Inv.pending_nil_iff (h : o.Inv) : o.pending = [] ↔ o.buf = none := by
  have hl := h.pending_length
  constructor
  · intro hp
    by_contra hb
    have hu := h.used hb
    simp only [hp, List.length_nil] at hl
    omega
  · intro hb
    simp [pending, hb]

end Bufout

/-- A copy that starts where the queued bytes end extends them by its source. -/
theorem memcpy_append (block rest : Bytes) (off : ℕ) (h : off + rest.length ≤ block.length) :
    ∃ b, memcpy block off rest = some b ∧ b.length = block.length ∧
      b.take (off + rest.length) = block.take off ++ rest := by
  have hc : (0 : Int) ≤ off ∧ (off : Int) + rest.length ≤ block.length := by omega
  refine ⟨block.take off ++ rest ++ block.drop (off + rest.length), ?_, ?_, ?_⟩
  · simp [memcpy, hc]
  · simp only [List.length_append, List.length_take, List.length_drop]
    omega
  · have hl : (block.take off ++ rest).length = off + rest.length := by
      simp only [List.length_append, List.length_take]
      omega
    rw [← hl, List.take_left]

theorem queue_none (ho : o.buf = none) (hr : rest ≠ [])
    (hn : (rest.length : Int) ≤ maxQueued) :
    ∃ o', queue o rest = some o' ∧ o'.Inv ∧ o'.buf ≠ none ∧ o'.pending = rest := by
  have hpos : 0 < rest.length := List.length_pos_iff.mpr hr
  have hr32 : toInt32 rest.length = rest.length := by
    apply toInt32_of_range <;> (unfold maxQueued at hn; omega)
  obtain ⟨hle, hmax⟩ := roundUp_bounds (Int.natCast_nonneg rest.length) hn
  have hblock : xmalloc (roundUp rest.length) =
      some (List.replicate (roundUp rest.length).toNat 0) := by
    simp [xmalloc, show ¬ roundUp rest.length < 0 by omega]
  obtain ⟨b, hcopy, hlen, htake⟩ := memcpy_append
    (List.replicate (roundUp rest.length).toNat 0) rest 0 (by simp; omega)
  refine ⟨⟨some b, rest.length, roundUp rest.length⟩, ?_, ?_, by simp, ?_⟩
  · have hz : toInt32 (rest.length - rest.length) = ((0 : ℕ) : Int) := by
      rw [Int.sub_self]
      decide
    simp only [queue, ho, hr32, hblock, hz, hcopy, Option.bind_eq_bind, Option.bind_some,
      Option.pure_def]
  · refine ⟨by simp, fun _ => ⟨by simpa using hpos, hle⟩, ?_, fun _ => hmax⟩
    rintro _ ⟨⟩
    simp only [hlen, List.length_replicate]
    omega
  · simpa [Bufout.pending] using htake

theorem queue_some (ho : o.Inv) (hb : o.buf = some block)
    (hn : o.buflen + rest.length ≤ maxQueued) :
    ∃ o', queue o rest = some o' ∧ o'.Inv ∧ o'.buf ≠ none ∧
      o'.pending = o.pending ++ rest := by
  obtain ⟨hpos, hle⟩ := ho.used (by simp [hb])
  have hcap := ho.block block hb
  have hmax := ho.bound (by simp [hb])
  have hpend : o.pending = block.take o.buflen.toNat := by simp [Bufout.pending, hb]
  unfold maxQueued at hn hmax
  have hr32 : toInt32 rest.length = rest.length := toInt32_of_range (by omega) (by omega)
  have hs32 : toInt32 (o.buflen + rest.length) = o.buflen + rest.length :=
    toInt32_of_range (by omega) (by omega)
  have hoff : toInt32 (o.buflen + rest.length - rest.length) = (o.buflen.toNat : Int) := by
    rw [toInt32_of_range (by omega) (by omega)]
    omega
  have hto : (o.buflen + (rest.length : Int)).toNat = o.buflen.toNat + rest.length := by omega
  by_cases hgrow : o.allocsize < o.buflen + rest.length
  · obtain ⟨hge, hfit⟩ := roundUp_bounds (n := o.buflen + rest.length) (by omega)
      (by unfold maxQueued; omega)
    have hblock : xrealloc block (roundUp (o.buflen + rest.length)) =
        some (block ++ List.replicate
          ((roundUp (o.buflen + rest.length)).toNat - block.length) 0) := by
      have htake : block.take (roundUp (o.buflen + rest.length)).toNat = block :=
        List.take_of_length_le (by omega)
      simp [xrealloc, show ¬ roundUp (o.buflen + rest.length) < 0 by omega, htake]
    obtain ⟨b, hcopy, hlen, htake⟩ := memcpy_append (block ++ List.replicate
      ((roundUp (o.buflen + rest.length)).toNat - block.length) 0) rest o.buflen.toNat
      (by simp; omega)
    refine ⟨⟨some b, o.buflen + rest.length, roundUp (o.buflen + rest.length)⟩,
      ?_, ?_, by simp, ?_⟩
    · simp only [queue, hb, hr32, hs32, gt_iff_lt, hgrow, ↓reduceIte, hblock, hoff, hcopy,
        Option.bind_eq_bind, Option.bind_some, Option.pure_def]
    · refine ⟨by simp, fun _ => ⟨by simp; omega, hge⟩, ?_, fun _ => hfit⟩
      rintro _ ⟨⟩
      simp only [hlen, List.length_append, List.length_replicate]
      omega
    · rw [hpend]
      simp only [Bufout.pending, Option.getD_some, hto, htake]
      rw [List.take_append_of_le_length (by omega)]
  · obtain ⟨b, hcopy, hlen, htake⟩ := memcpy_append block rest o.buflen.toNat (by omega)
    refine ⟨{ o with buf := some b, buflen := o.buflen + rest.length }, ?_, ?_, by simp, ?_⟩
    · simp only [queue, hb, hr32, hs32, gt_iff_lt, hgrow, ↓reduceIte, hoff, hcopy,
        Option.bind_eq_bind, Option.bind_some, Option.pure_def]
    · refine ⟨by simp, fun _ => ⟨by simp; omega, by simp; omega⟩, ?_, fun _ => ?_⟩
      · rintro _ ⟨⟩
        simpa [hlen] using hcap
      · unfold maxQueued
        exact hmax
    · simp [Bufout.pending, hb, hto, htake]

/-- The suffix of `rest` that is left when the kernel first refuses a direct write. -/
def untaken (w : ℕ → Write) (rest : Bytes) : Bytes :=
  if _ : rest = [] then []
  else
    match w 0 with
    | .took n => untaken (fun i => w (i + 1)) (rest.drop (n + 1))
    | .again => rest
termination_by rest.length
decreasing_by
  have : 0 < rest.length := List.length_pos_iff.mpr ‹_›
  simp only [List.length_drop]
  omega

/-- With nothing queued the loop writes until the first refusal and queues the rest. -/
theorem sendbinLoop_direct (w : ℕ → Write) (burn : Bool) (c : Conn) (rest : Bytes)
    (h : c.out.buf = none) :
    ∃ t, t ++ untaken w rest = rest ∧ sendbinLoop w burn c rest =
      if untaken w rest = [] then some (1, if burn then (c.accept t).shutdown else c.accept t)
      else (queue c.out (untaken w rest)).map fun o =>
        (0, if burn then ((c.accept t).setOut o).setBurn 1 else (c.accept t).setOut o) := by
  by_cases hr : rest = []
  · subst hr
    rw [sendbinLoop, untaken]
    exact ⟨[], by simp [Conn.accept]⟩
  · rw [sendbinLoop, untaken]
    cases hw : w 0 with
    | took n =>
      obtain ⟨t, ht, he⟩ := sendbinLoop_direct (fun i => w (i + 1)) burn
        (c.accept (rest.take (n + 1))) (rest.drop (n + 1)) h
      refine ⟨rest.take (n + 1) ++ t, ?_, ?_⟩
      · simp [hr, List.append_assoc, ht]
      · simp only [hr, ↓reduceDIte, h, he]
        simp [Conn.accept]
    | again =>
      refine ⟨[], by simp [hr], ?_⟩
      simp [hr, h, Conn.accept, Option.map_eq_bind]
termination_by rest.length
decreasing_by
  have : 0 < rest.length := List.length_pos_iff.mpr hr
  simp only [List.length_drop]
  omega

/-- Queued bytes are never overtaken: the whole call is appended behind them. -/
theorem sendbinLoop_queued (burn : Bool) (h : c.out.buf = some block) (hr : rest ≠ []) :
    sendbinLoop w burn c rest = (queue c.out rest).map fun o =>
      (0, if burn then (c.setOut o).setBurn 1 else c.setOut o) := by
  rw [sendbinLoop]
  simp [hr, h, Option.map_eq_bind]

/-- What a call of `sendbin` needs so that no queued byte and no answer is wrong: a
call on a queue brings at least one byte, and the queue stays within `maxQueued`. -/
def SendOk (c : Conn) (bin : Bytes) (w : ℕ → Write) : Prop :=
  (bin.length : Int) < 2 ^ 31 ∧
    if c.out.buf = none then ((untaken w bin).length : Int) ≤ maxQueued
    else bin ≠ [] ∧ c.out.buflen + bin.length ≤ maxQueued

/-- The state after a call that kept the promise, with the bytes it was given. -/
structure Sent (c : Conn) (bin : Bytes) (r : ℕ) (c' : Conn) : Prop where
  fd : c'.fd = c.fd
  inv : c'.out.Inv
  bytes : c'.kernel ++ c'.out.pending = c.kernel ++ c.out.pending ++ bin
  answer : r = 1 ↔ c'.out.buf = none

theorem sendbin_sent {bin : Bytes} (hfd : c.fd ≠ 0) (hi : c.out.Inv)
    (hok : SendOk c bin w) : ∃ r c', sendbin c bin false w = some (r, c') ∧ Sent c bin r c' := by
  obtain ⟨hlen, hok⟩ := hok
  have hnn : ¬ toInt32 bin.length < 0 := by
    rw [toInt32_of_range (by omega) hlen]
    omega
  simp only [sendbin, hfd, hnn, ↓reduceIte]
  cases hb : c.out.buf with
  | none =>
    simp only [hb, ↓reduceIte] at hok
    obtain ⟨t, ht, he⟩ := sendbinLoop_direct w false c bin hb
    have hp : c.out.pending = [] := by simp [Bufout.pending, hb]
    by_cases hu : untaken w bin = []
    · refine ⟨1, c.accept t, by simp [he, hu], rfl, hi, ?_, by simp [Conn.accept, hb]⟩
      rw [hu, List.append_nil] at ht
      simp [Conn.accept, hp, ht]
    · obtain ⟨o, hq, hinv, hsome, hpend⟩ := queue_none hb hu hok
      refine ⟨0, (c.accept t).setOut o, by simp [he, hu, hq], rfl, hinv, ?_, by
        simpa [Conn.setOut] using hsome⟩
      simp [Conn.accept, Conn.setOut, hp, hpend, ht]
  | some block =>
    simp only [hb, reduceCtorEq, ↓reduceIte] at hok
    obtain ⟨o, hq, hinv, hsome, hpend⟩ := queue_some hi hb hok.2
    refine ⟨0, c.setOut o, by simp [sendbinLoop_queued false hb hok.1, hq], rfl, hinv, ?_, by
      simpa [Conn.setOut] using hsome⟩
    simp [Conn.setOut, hpend]

theorem sendqueueLoop_sent (w : ℕ → Write) (c : Conn) (done rest : Bytes) (hi : c.out.Inv)
    (hb : c.out.buf = some block) (hp : done ++ rest = c.out.pending) :
    ∃ r c', sendqueueLoop w c block done rest = (r, c') ∧ c'.fd = c.fd ∧ c'.out.Inv ∧
      c'.kernel ++ c'.out.pending = c.kernel ++ rest ∧ (r = 1 ↔ c'.out.buf = none) := by
  rw [sendqueueLoop]
  by_cases hr : rest = []
  · refine ⟨1, c.setOut { c.out with buf := none, buflen := 0 }, by simp [hr], rfl,
      ⟨?_, ?_, ?_, ?_⟩, ?_, ?_⟩ <;> simp [Conn.setOut, hr, Bufout.pending]
  · cases hw : w 0 with
    | took n =>
      simp only [hr, ↓reduceDIte]
      have hp' : (done ++ rest.take (n + 1)) ++ rest.drop (n + 1) = c.out.pending := by
        rw [List.append_assoc, List.take_append_drop, hp]
      obtain ⟨r, c', he, hfd, hinv, hbytes, hret⟩ := sendqueueLoop_sent
        (fun i => w (i + 1)) (c.accept (rest.take (n + 1))) _ _ hi hb hp'
      refine ⟨r, c', he, hfd, hinv, ?_, hret⟩
      simpa [Conn.accept] using hbytes
    | again =>
      simp only [hr, ↓reduceDIte]
      by_cases hd : done = []
      · refine ⟨0, c, by simp [hd], rfl, hi, ?_, by simp [hb]⟩
        rw [← hp, hd, List.nil_append]
      · -- the block keeps its size, so the moved bytes still lie inside it
        obtain ⟨hpos, hle⟩ := hi.used (by simp [hb])
        have hcap := hi.block block hb
        have hlen := hi.pending_length
        rw [← hp, List.length_append] at hlen
        have hrpos : 0 < rest.length := List.length_pos_iff.mpr hr
        refine ⟨0, c.setOut { c.out with buf := some (rest ++ block.drop rest.length),
                                         buflen := rest.length }, by simp [hd], rfl,
          ⟨by simp [Conn.setOut], ?_, ?_, ?_⟩, ?_, ?_⟩
        · intro _
          simp only [Conn.setOut]
          omega
        · rintro _ ⟨⟩
          simp only [Conn.setOut, List.length_append, List.length_drop]
          omega
        · intro _
          exact hi.bound (by simp [hb])
        · simp [Conn.setOut, Bufout.pending]
        · simp [Conn.setOut]
termination_by rest.length
decreasing_by
  have : 0 < rest.length := List.length_pos_iff.mpr hr
  simp only [List.length_drop]
  omega

theorem sendqueue_sent (hi : c.out.Inv) :
    ∃ r c', sendqueue c w = (r, c') ∧ Sent c [] r c' := by
  unfold sendqueue
  cases hb : c.out.buf with
  | none => exact ⟨1, c, rfl, rfl, hi, by simp, by simp [hb]⟩
  | some block =>
    have hp : [] ++ block.take c.out.buflen.toNat = c.out.pending := by
      simp [Bufout.pending, hb]
    obtain ⟨r, c', he, hfd, hinv, hbytes, hret⟩ := sendqueueLoop_sent w c _ _ hi hb hp
    refine ⟨r, c', he, hfd, hinv, ?_, hret⟩
    simpa [← hp] using hbytes

theorem queue_none_overflow (ho : o.buf = none) (hn : maxQueued < rest.length)
    (hlt : (rest.length : Int) < 2 ^ 31) : queue o rest = none := by
  have hneg := roundUp_neg hn hlt
  simp [queue, ho, toInt32_of_range (by omega) hlt, xmalloc, hneg]

/-- Past `maxQueued` either the rounded size or the sum itself leaves the `int` range:
the first ends the process, the second copies behind the end of the block. -/
theorem queue_some_overflow (ho : o.Inv) (hb : o.buf = some block)
    (hn : maxQueued < o.buflen + rest.length) (hlt : (rest.length : Int) < 2 ^ 31) :
    queue o rest = none := by
  obtain ⟨hpos, hle⟩ := ho.used (by simp [hb])
  have hcap := ho.block block hb
  have hmax := ho.bound (by simp [hb])
  have hr32 : toInt32 rest.length = rest.length := toInt32_of_range (by omega) hlt
  unfold maxQueued at hmax
  by_cases hsum : o.buflen + rest.length < 2 ^ 31
  · have hs32 : toInt32 (o.buflen + rest.length) = o.buflen + rest.length :=
      toInt32_of_range (by omega) hsum
    have hgrow : o.allocsize < o.buflen + rest.length := by unfold maxQueued at hn; omega
    have hneg := roundUp_neg hn hsum
    simp [queue, hb, hr32, hs32, hgrow, xrealloc, hneg]
  · have hs32 : toInt32 (o.buflen + rest.length) = o.buflen + rest.length - 2 ^ 32 :=
      toInt32_of_large (by omega) (by omega)
    have hgrow : ¬ o.allocsize < o.buflen + rest.length - 2 ^ 32 := by omega
    have hoff : toInt32 (o.buflen + rest.length - 2 ^ 32 - rest.length) = o.buflen := by
      rw [show o.buflen + (rest.length : Int) - 2 ^ 32 - rest.length = o.buflen - 2 ^ 32 by ring]
      rw [show toInt32 (o.buflen - 2 ^ 32) = toInt32 o.buflen from
        Int.sub_bmod_right o.buflen (2 ^ 32), toInt32_of_range (by omega) (by omega)]
    have hout : ¬ (0 ≤ o.buflen ∧ o.buflen + rest.length ≤ block.length) := by omega
    simp only [queue, hb, hr32, hs32, gt_iff_lt, hgrow, ↓reduceIte, hoff, memcpy, hout,
      Option.bind_eq_bind, Option.bind_none]

theorem sendbin_not_ok {bin : Bytes} (hfd : c.fd ≠ 0) (hi : c.out.Inv)
    (hlen : bin.length < 2 ^ 32) (hno : ¬ SendOk c bin w) :
    sendbin c bin false w = none ∨
      (c.out.buf ≠ none ∧ bin = [] ∧ sendbin c bin false w = some (1, c)) := by
  by_cases hbig : (bin.length : Int) < 2 ^ 31
  · have hnn : ¬ toInt32 bin.length < 0 := by
      rw [toInt32_of_range (by omega) hbig]
      omega
    simp only [sendbin, hfd, hnn, ↓reduceIte]
    cases hb : c.out.buf with
    | none =>
      left
      simp only [SendOk, hbig, hb, ↓reduceIte, true_and, not_le] at hno
      obtain ⟨t, ht, he⟩ := sendbinLoop_direct w false c bin hb
      have hle : (untaken w bin).length ≤ bin.length := by
        rw [← congrArg List.length ht, List.length_append]
        omega
      have hne : untaken w bin ≠ [] := by
        intro hnil
        rw [hnil] at hno
        exact absurd hno (by decide)
      simp [he, hne, queue_none_overflow hb hno (by omega)]
    | some block =>
      by_cases hnil : bin = []
      · right
        refine ⟨by simp, hnil, ?_⟩
        rw [sendbinLoop]
        simp [hnil]
      · left
        simp only [SendOk, hbig, hb, reduceCtorEq, ↓reduceIte, hnil, ne_eq, not_false_eq_true,
          true_and, not_le] at hno
        simp [sendbinLoop_queued false hb hnil, queue_some_overflow hi hb hno hbig]
  · left
    have hneg : toInt32 bin.length < 0 := by
      rw [toInt32_of_large (by omega) (by omega)]
      omega
    simp [sendbin, hfd, hneg]

/-- The calls of the output side of one connection, without `burn_after_writing`. -/
inductive Op where
  | sendbin (bin : Bytes) (w : ℕ → Write) (len : bin.length < 2 ^ 32)
  | sendqueue (w : ℕ → Write)

/-- The bytes a call hands over. -/
def Op.bytes : Op → Bytes
  | .sendbin bin _ _ => bin
  | .sendqueue _ => []

def step (c : Conn) : Op → Option (ℕ × Conn)
  | .sendbin bin w _ => sendbin c bin false w
  | .sendqueue w => some (sendqueue c w)

def StepOk (c : Conn) : Op → Prop
  | .sendbin bin w _ => SendOk c bin w
  | .sendqueue _ => True

/-- Every step of the run from `c` meets its condition. -/
def Allowed (c : Conn) : List Op → Prop
  | [] => True
  | op :: ops => StepOk c op ∧ ∀ r c', step c op = some (r, c') → Allowed c' ops

/-- `given` has been handed over: nothing is lost, repeated or reordered, `buf` is NULL
exactly when nothing is pending, and a buffer never holds more than it was allocated for. -/
structure Synced (given : Bytes) (c : Conn) : Prop where
  bytes : c.kernel ++ c.out.pending = given
  null : c.out.buf = none ↔ c.kernel = given
  fits : c.out.buf ≠ none → c.out.buflen ≤ c.out.allocsize

/-- The run from `c` returns from every call, is `Synced` at every state, and every
call answers 1 exactly when nothing is left pending. -/
def Exact (given : Bytes) (c : Conn) : List Op → Prop
  | [] => Synced given c
  | op :: ops => Synced given c ∧ ∃ r c', step c op = some (r, c') ∧
      (r = 1 ↔ c'.kernel = given ++ op.bytes) ∧ Exact (given ++ op.bytes) c' ops

theorem synced_of_inv {given : Bytes} (hi : c.out.Inv)
    (hb : c.kernel ++ c.out.pending = given) : Synced given c := by
  refine ⟨hb, ?_, fun h => (hi.used h).2⟩
  rw [← hi.pending_nil_iff, ← hb]
  simp

/-- One allowed call from a synced state is answered correctly and stays synced. -/
theorem step_sent {op : Op} (hfd : c.fd ≠ 0) (hi : c.out.Inv) (hok : StepOk c op) :
    ∃ r c', step c op = some (r, c') ∧ Sent c op.bytes r c' := by
  cases op with
  | sendbin bin w hlen => exact sendbin_sent hfd hi hok
  | sendqueue w =>
    obtain ⟨r, c', he, hs⟩ := sendqueue_sent (w := w) hi
    exact ⟨r, c', by simp [step, he], hs⟩

theorem stepOk_of_answer {given : Bytes} {op : Op} {r : ℕ} {c' : Conn} (hfd : c.fd ≠ 0)
    (hi : c.out.Inv) (hb : c.kernel ++ c.out.pending = given)
    (hs : step c op = some (r, c')) (hr : r = 1 ↔ c'.kernel = given ++ op.bytes) :
    StepOk c op := by
  cases op with
  | sendqueue w => trivial
  | sendbin bin w hlen =>
    by_contra hno
    obtain hnone | ⟨hsome, hnil, heq⟩ := sendbin_not_ok hfd hi hlen hno
    · simp [step, hnone] at hs
    · simp only [step, heq, Option.some.injEq, Prod.mk.injEq] at hs
      obtain ⟨rfl, rfl⟩ := hs
      have hk := hr.mp rfl
      rw [← hb] at hk
      have hp : c.out.pending ++ Op.bytes (.sendbin bin w hlen) = [] := by simpa using hk
      exact hsome (hi.pending_nil_iff.mp (List.append_eq_nil_iff.mp hp).1)

theorem exact_iff_allowed_from (ops : List Op) : ∀ {given : Bytes} {c : Conn}, c.fd ≠ 0 →
    c.out.Inv → c.kernel ++ c.out.pending = given → (Exact given c ops ↔ Allowed c ops) := by
  induction ops with
  | nil =>
    intro given c _ hi hb
    simpa [Exact, Allowed] using synced_of_inv hi hb
  | cons op ops ih =>
    intro given c hfd hi hb
    constructor
    · rintro ⟨_, r, c', hs, hr, hrest⟩
      have hok := stepOk_of_answer hfd hi hb hs hr
      obtain ⟨r₁, c₁, hs₁, hsent⟩ := step_sent hfd hi hok
      refine ⟨hok, ?_⟩
      intro r₂ c₂ hs₂
      simp only [hs₁, Option.some.injEq, Prod.mk.injEq] at hs hs₂
      obtain ⟨rfl, rfl⟩ := hs
      obtain ⟨rfl, rfl⟩ := hs₂
      exact (ih (hsent.fd ▸ hfd) hsent.inv (by rw [hsent.bytes, hb])).mp hrest
    · rintro ⟨hok, hrest⟩
      obtain ⟨r, c', hs, hsent⟩ := step_sent hfd hi hok
      have hb' : c'.kernel ++ c'.out.pending = given ++ op.bytes := by rw [hsent.bytes, hb]
      refine ⟨synced_of_inv hi hb, r, c', hs, ?_, ?_⟩
      · rw [hsent.answer]
        exact (synced_of_inv hsent.inv hb').null
      · exact (ih (hsent.fd ▸ hfd) hsent.inv hb').mpr (hrest r c' hs)

/-- Output is exact along a run if and only if every `sendbin` on a queue brings a byte
and the queue never passes `maxQueued`. -/
theorem exact_iff_allowed {fd : ℕ} (hfd : fd ≠ 0) (ops : List Op) :
    Exact [] (newConn fd) ops ↔ Allowed (newConn fd) ops := by
  have hi : (newConn fd).out.Inv := by
    constructor <;> simp [newConn]
  exact exact_iff_allowed_from ops hfd hi (by simp [newConn, Bufout.pending])

theorem untaken_again (hr : rest ≠ []) : untaken (fun _ => .again) rest = rest := by
  rw [untaken]
  simp [hr]

/-- Two calls the kernel takes nothing of, the second on a queue: nothing is lost. -/
theorem exact_two_refused :
    Exact [] (newConn 7) [.sendbin [65] (fun _ => .again) (by decide),
      .sendqueue fun _ => .took 0] := by
  refine (exact_iff_allowed (by decide) _).mpr ⟨⟨by decide, ?_⟩, fun r c' _ => ⟨trivial, ?_⟩⟩
  · simp [newConn, untaken_again, maxQueued]
  · exact fun _ _ _ => trivial

/-- One byte refused by the kernel, then an empty call: it answers 1 over the queued byte. -/
theorem empty_call_over_queue :
    ¬ Exact [] (newConn 7) [.sendbin [65] (fun _ => .again) (by decide),
      .sendbin [] (fun _ => .again) (by decide)] := by
  have hi : (newConn 7).out.Inv := by constructor <;> simp [newConn]
  intro h
  obtain ⟨hok, hrest⟩ := (exact_iff_allowed_from _ (c := newConn 7) (by simp [newConn]) hi
    (by simp [newConn, Bufout.pending])).mp h
  obtain ⟨r, c', hs, hsent⟩ := step_sent (c := newConn 7) (by simp [newConn]) hi hok
  -- nothing reaches the kernel in the first call, so its byte is still queued
  have hz : r = 0 := by
    obtain ⟨t, -, he⟩ := sendbinLoop_direct (fun _ => .again) false (newConn 7) [65] rfl
    have hnn : ¬ toInt32 (([65] : Bytes).length) < 0 := by decide
    simp only [step, sendbin, hnn, ↓reduceIte, he, untaken_again (List.cons_ne_nil 65 []),
      show (newConn 7).fd ≠ 0 by decide, reduceCtorEq, Option.map_eq_some_iff, Prod.mk.injEq] at hs
    obtain ⟨o, -, hr, -⟩ := hs
    exact hr.symm
  obtain ⟨⟨-, hok'⟩, -⟩ := hrest r c' hs
  have hsome : c'.out.buf ≠ none := by
    rw [ne_eq, ← hsent.answer]
    omega
  simp [hsome] at hok'

end ApeServer.Sock
