import ApeServer.Sock.Delivery

/-!
# When a connection is shut down

`sendbin` with `burn_after_writing`, `safe_shutdown` and the writable branch of
`sockroutine`. In all three a `shutdown` is the last thing that happens, so the state
after a call is the one `shutdown` saw.
-/
namespace ApeServer.Sock

variable {c c' : Conn} {bin block : Bytes} {w : ℕ → Write} {given : Bytes} {r : ℕ}

/-- `ape_sent`, the one `on_data_completly_sent` callback: it ends in `do_died`, hence in
`safe_shutdown`, when the subuser attached to the connection is alive and was marked. -/
def apeSent (c : Conn) (died : Bool) : Conn := if died then safeShutdown c else c

/-- The `EVENT_WRITE` branch of `sockroutine` for a connected socket. -/
def writable (c : Conn) (w : ℕ → Write) (died : Bool) : Conn :=
  if c.out.buf = none then c
  else
    let (finish, c') := sendqueue c w
    if finish = 1 then
      let c'' := apeSent c' died
      if c''.burnAfterWriting ≠ 0 then c''.shutdown else c''
    else c'

/-- What happens on one descriptor. -/
inductive Call where
  | sendbin (bin : Bytes) (burn : Bool) (w : ℕ → Write) (len : bin.length < 2 ^ 32)
  | safeShutdown
  | writable (w : ℕ → Write) (died : Bool)

def Call.bytes : Call → Bytes
  | .sendbin bin _ _ _ => bin
  | _ => []

def perform (c : Conn) : Call → Option Conn
  | .sendbin bin burn w _ => (sendbin c bin burn w).map Prod.snd
  | .safeShutdown => some (safeShutdown c)
  | .writable w died => some (writable c w died)

/-- Every `shutdown` of the run from `c` finds `buf` NULL and everything handed over so
far in the kernel. On descriptor 0 `sendbin` drops its bytes. -/
def Drained (given : Bytes) (c : Conn) : List Call → Prop
  | [] => True
  | call :: calls => ∀ c', perform c call = some c' →
      (c'.shutdowns ≠ c.shutdowns →
        c'.out.buf = none ∧ (c.fd ≠ 0 → c'.kernel = given ++ call.bytes)) ∧
      Drained (given ++ call.bytes) c' calls

/-- An empty `sendbin` that asks for a shutdown finds nothing queued. -/
def EmptyBurnOk (c : Conn) : Call → Prop
  | .sendbin bin burn _ _ => bin = [] → burn = true → c.out.buf = none
  | _ => True

/-- Every call of the run from `c` meets that condition. -/
def NoEmptyBurn (c : Conn) : List Call → Prop
  | [] => True
  | call :: calls => EmptyBurnOk c call ∧ ∀ c', perform c call = some c' → NoEmptyBurn c' calls

/-- What the flag adds to a call that returned `r`. -/
def burned (burn : Bool) (r : ℕ) (c : Conn) : Conn :=
  if burn then (if r = 1 then c.shutdown else c.setBurn 1) else c

@[simp] theorem burned_out (burn : Bool) : (burned burn r c).out = c.out := by
  cases burn <;> simp only [burned, Bool.false_eq_true, ↓reduceIte]
  split <;> rfl

@[simp] theorem burned_fd (burn : Bool) : (burned burn r c).fd = c.fd := by
  cases burn <;> simp only [burned, Bool.false_eq_true, ↓reduceIte]
  split <;> rfl

@[simp] theorem burned_kernel (burn : Bool) : (burned burn r c).kernel = c.kernel := by
  cases burn <;> simp only [burned, Bool.false_eq_true, ↓reduceIte]
  split <;> rfl

theorem burned_shutdowns (burn : Bool) :
    (burned burn r c).shutdowns = if burn ∧ r = 1 then c.shutdowns + 1 else c.shutdowns := by
  cases burn <;> by_cases h : r = 1 <;> simp [burned, h, Conn.shutdown, Conn.setBurn]

/-- The flag decides nothing about the bytes: it only acts on the answer. -/
theorem sendbinLoop_burned (w : ℕ → Write) (burn : Bool) (c : Conn) (rest : Bytes) :
    sendbinLoop w burn c rest =
      (sendbinLoop w false c rest).map fun p => (p.1, burned burn p.1 p.2) := by
  by_cases hr : rest = []
  · subst hr
    rw [sendbinLoop, sendbinLoop]
    simp [burned]
  · cases hb : c.out.buf with
    | none =>
      obtain ⟨t, ht, he⟩ := sendbinLoop_direct w burn c rest hb
      obtain ⟨t', ht', he'⟩ := sendbinLoop_direct w false c rest hb
      obtain rfl : t = t' := List.append_cancel_right (ht.trans ht'.symm)
      rw [he, he']
      by_cases hu : untaken w rest = []
      · simp [hu, burned]
      · cases queue c.out (untaken w rest) <;> simp [hu, burned]
    | some block =>
      rw [sendbinLoop_queued burn hb hr, sendbinLoop_queued false hb hr]
      cases queue c.out rest <;> simp [burned]

theorem sendbin_burned (c : Conn) (bin : Bytes) (burn : Bool) (w : ℕ → Write) :
    sendbin c bin burn w = (sendbin c bin false w).map fun p => (p.1, burned burn p.1 p.2) := by
  unfold sendbin
  by_cases hfd : c.fd = 0
  · simp [hfd, burned]
  · by_cases hlen : toInt32 bin.length < 0
    · simp [hfd, hlen]
    · simp only [hfd, hlen, ↓reduceIte]
      exact sendbinLoop_burned w burn c bin

/-- On a socket: what was given is in the kernel or queued. Descriptor 0 queues nothing. -/
structure Accounted (given : Bytes) (c : Conn) : Prop where
  inv : c.out.Inv
  bytes : c.fd ≠ 0 → c.kernel ++ c.out.pending = given
  standard : c.fd = 0 → c.out.buf = none

theorem Accounted.drained (h : Accounted given c) (hb : c.out.buf = none) :
    c.fd ≠ 0 → c.kernel = given := by
  intro hfd
  have hp := h.inv.pending_nil_iff.mpr hb
  simpa [hp] using h.bytes hfd

theorem Accounted.of_eq (h : Accounted given c) (hfd : c'.fd = c.fd) (ho : c'.out = c.out)
    (hk : c'.kernel = c.kernel) : Accounted given c' := by
  refine ⟨ho ▸ h.inv, ?_, ?_⟩
  · rw [hfd, ho, hk]
    exact h.bytes
  · rw [hfd, ho]
    exact h.standard

theorem sendbin_shutdowns (hs : sendbin c bin false w = some (r, c')) :
    c'.shutdowns = c.shutdowns := by
  unfold sendbin at hs
  split at hs
  · simp only [Bool.false_eq_true, ↓reduceIte, Option.some.injEq, Prod.mk.injEq] at hs
    rw [← hs.2]
  split at hs
  · simp at hs
  by_cases hr : bin = []
  · subst hr
    rw [sendbinLoop] at hs
    simp only [↓reduceDIte, Bool.false_eq_true, ↓reduceIte, Option.some.injEq,
      Prod.mk.injEq] at hs
    rw [← hs.2]
  · cases hb : c.out.buf with
    | none =>
      obtain ⟨t, -, he⟩ := sendbinLoop_direct w false c bin hb
      rw [he] at hs
      split at hs
      · simp only [Bool.false_eq_true, ↓reduceIte, Option.some.injEq, Prod.mk.injEq] at hs
        rw [← hs.2, Conn.accept]
      · obtain ⟨o, -, ho⟩ := Option.map_eq_some_iff.mp hs
        simp only [Bool.false_eq_true, ↓reduceIte, Prod.mk.injEq] at ho
        rw [← ho.2, Conn.accept, Conn.setOut]
    | some block =>
      rw [sendbinLoop_queued false hb hr] at hs
      obtain ⟨o, -, ho⟩ := Option.map_eq_some_iff.mp hs
      simp only [Bool.false_eq_true, ↓reduceIte, Prod.mk.injEq] at ho
      rw [← ho.2, Conn.setOut]

theorem sendqueueLoop_shutdowns (w : ℕ → Write) (c : Conn) (block done rest : Bytes) :
    (sendqueueLoop w c block done rest).2.shutdowns = c.shutdowns := by
  fun_induction sendqueueLoop w c block done rest with
  | case1 => rfl
  | case2 w c done rest hr n hw ih => exact ih
  | case3 => rfl
  | case4 => rfl

theorem sendqueue_shutdowns (c : Conn) (w : ℕ → Write) :
    (sendqueue c w).2.shutdowns = c.shutdowns := by
  unfold sendqueue
  cases c.out.buf with
  | none => rfl
  | some block => exact sendqueueLoop_shutdowns w c block _ _

theorem sendbin_nil (c : Conn) (w : ℕ → Write) : sendbin c [] false w = some (1, c) := by
  have hnn : ¬ toInt32 (([] : Bytes).length) < 0 := by decide
  unfold sendbin
  rw [sendbinLoop]
  simp only [hnn, ↓reduceIte, ↓reduceDIte, Bool.false_eq_true, ite_self]

/-- Without the flag no byte is lost, and 1 is answered over a queue by the empty call only. -/
theorem sendbin_accounted (h : Accounted given c) (hlen : bin.length < 2 ^ 32)
    (hs : sendbin c bin false w = some (r, c')) :
    Accounted (given ++ bin) c' ∧ c'.fd = c.fd ∧
      (r = 1 → c'.out.buf = none ∨ (bin = [] ∧ c' = c)) := by
  by_cases hfd : c.fd = 0
  · simp only [sendbin, hfd, ↓reduceIte, Bool.false_eq_true, Option.some.injEq,
      Prod.mk.injEq] at hs
    obtain ⟨-, rfl⟩ := hs
    exact ⟨⟨h.inv, fun hne => absurd hfd hne, h.standard⟩, rfl, fun _ => .inl (h.standard hfd)⟩
  · by_cases hok : SendOk c bin w
    · obtain ⟨r₀, c₀, he, hsent⟩ := sendbin_sent hfd h.inv hok
      rw [hs, Option.some.injEq, Prod.mk.injEq] at he
      obtain ⟨rfl, rfl⟩ := he
      refine ⟨⟨hsent.inv, fun _ => by rw [hsent.bytes, h.bytes hfd], fun h0 => ?_⟩, hsent.fd,
        fun hr => .inl (hsent.answer.mp hr)⟩
      exact absurd (hsent.fd ▸ h0) hfd
    · obtain hnone | ⟨hsome, rfl, he⟩ := sendbin_not_ok hfd h.inv hlen hok
      · simp [hnone] at hs
      · rw [hs, Option.some.injEq, Prod.mk.injEq] at he
        obtain ⟨rfl, rfl⟩ := he
        exact ⟨by simpa using h, rfl, fun _ => .inr ⟨rfl, rfl⟩⟩

theorem safeShutdown_accounted (h : Accounted given c) : Accounted given (safeShutdown c) := by
  unfold safeShutdown
  split <;> exact h.of_eq rfl rfl rfl

theorem writable_accounted (h : Accounted given c) (died : Bool) :
    Accounted given (writable c w died) ∧ (writable c w died).fd = c.fd ∧
      ((writable c w died).shutdowns ≠ c.shutdowns → (writable c w died).out.buf = none) := by
  unfold writable
  split
  · exact ⟨h, rfl, by simp⟩
  · rename_i hb
    have hsh := sendqueue_shutdowns c w
    obtain ⟨r, c', he, hsent⟩ := sendqueue_sent (w := w) h.inv
    rw [he] at hsh ⊢
    have hc' : Accounted given c' := by
      refine ⟨hsent.inv, fun hfd => ?_, fun h0 => ?_⟩
      · rw [hsent.bytes, List.append_nil]
        exact h.bytes (hsent.fd ▸ hfd)
      · exact absurd (h.standard (hsent.fd ▸ h0)) hb
    by_cases hr : r = 1
    · -- the queue has just been drained, so whoever asks for the shutdown now gets it
      have hnone := hsent.answer.mp hr
      have hsafe : safeShutdown c' = c'.shutdown := by simp [safeShutdown, hnone]
      have hd : (apeSent c' died).out = c'.out ∧ (apeSent c' died).fd = c'.fd ∧
          (apeSent c' died).kernel = c'.kernel := by
        cases died <;> simp [apeSent, hsafe, Conn.shutdown]
      simp only [hr, ↓reduceIte]
      split
      · exact ⟨hc'.of_eq hd.2.1 hd.1 hd.2.2, hd.2.1.trans hsent.fd,
          fun _ => (congrArg Bufout.buf hd.1).trans hnone⟩
      · exact ⟨hc'.of_eq hd.2.1 hd.1 hd.2.2, hd.2.1.trans hsent.fd,
          fun _ => (congrArg Bufout.buf hd.1).trans hnone⟩
    · simp only [hr, ↓reduceIte]
      exact ⟨hc', hsent.fd, fun hne => absurd hsh hne⟩

/-- One call keeps the account; it shuts down over a queue exactly when it is an empty
`sendbin` with the flag. -/
theorem perform_accounted {call : Call} (h : Accounted given c) (hs : perform c call = some c') :
    Accounted (given ++ call.bytes) c' ∧ c'.fd = c.fd ∧
      ((c'.shutdowns ≠ c.shutdowns → c'.out.buf = none) ↔ EmptyBurnOk c call) := by
  cases call with
  | sendbin bin burn w hlen =>
    simp only [perform, sendbin_burned c bin burn w, Option.map_eq_some_iff] at hs
    obtain ⟨p, ⟨⟨r, c₀⟩, hs, rfl⟩, rfl⟩ := hs
    obtain ⟨hacc, hfd, hone⟩ := sendbin_accounted h hlen hs
    refine ⟨hacc.of_eq (by simp) (by simp) (by simp), by simpa using hfd, ?_⟩
    simp only [burned_shutdowns, sendbin_shutdowns hs, burned_out, EmptyBurnOk]
    constructor
    · intro hnull hnil hburn
      subst hnil hburn
      rw [sendbin_nil, Option.some.injEq, Prod.mk.injEq] at hs
      obtain ⟨rfl, rfl⟩ := hs
      exact hnull (by simp)
    · intro hok hne
      have hb : burn = true ∧ r = 1 := by
        by_contra hno
        simp [hno] at hne
      obtain hnone | ⟨hnil, rfl⟩ := hone hb.2
      · exact hnone
      · exact hok hnil hb.1
  | safeShutdown =>
    cases hs
    refine ⟨by simpa [Call.bytes] using safeShutdown_accounted h, ?_, ?_⟩
    · unfold safeShutdown
      split <;> rfl
    · simp only [EmptyBurnOk, iff_true]
      unfold safeShutdown
      split
      · rename_i hb
        exact fun _ => hb
      · exact fun hne => absurd rfl hne
  | writable w died =>
    cases hs
    obtain ⟨hacc, hfd, hnone⟩ := writable_accounted (w := w) h died
    exact ⟨by simpa [Call.bytes] using hacc, hfd, by simpa [EmptyBurnOk] using hnone⟩

theorem drained_iff_noEmptyBurn_from (calls : List Call) : ∀ {given : Bytes} {c : Conn},
    Accounted given c → (Drained given c calls ↔ NoEmptyBurn c calls) := by
  induction calls with
  | nil => simp [Drained, NoEmptyBurn]
  | cons call calls ih =>
    intro given c h
    constructor
    · intro hd
      refine ⟨?_, fun c' hs => ?_⟩
      · -- a call that ends the process shuts nothing down, and the empty one never does
        cases hs : perform c call with
        | none =>
          cases call with
          | sendbin bin burn w hlen =>
            intro hnil
            subst hnil
            simp [perform, sendbin_burned c [] burn w, sendbin_nil] at hs
          | safeShutdown => trivial
          | writable w died => trivial
        | some c' =>
          obtain ⟨-, -, hiff⟩ := perform_accounted h hs
          exact hiff.mp fun hne => ((hd c' hs).1 hne).1
      · exact (ih (perform_accounted h hs).1).mp (hd c' hs).2
    · rintro ⟨hok, hrest⟩ c' hs
      obtain ⟨hacc, hfd, hiff⟩ := perform_accounted h hs
      refine ⟨fun hne => ?_, (ih hacc).mpr (hrest c' hs)⟩
      have hnone := hiff.mpr hok hne
      exact ⟨hnone, hfd ▸ hacc.drained hnone⟩

/-- A connection is shut down over nothing but an empty queue along a run if and only if
no empty `sendbin` with `burn_after_writing` is made while output is queued. -/
theorem drained_iff_noEmptyBurn (fd : ℕ) (calls : List Call) :
    Drained [] (newConn fd) calls ↔ NoEmptyBurn (newConn fd) calls := by
  have hi : (newConn fd).out.Inv := by
    constructor <;> simp [newConn]
  exact drained_iff_noEmptyBurn_from calls
    ⟨hi, fun _ => by simp [newConn, Bufout.pending], fun _ => rfl⟩

/-- A byte the kernel refuses, then an empty call with the flag: `shutdown` over that byte. -/
theorem empty_burn_over_queue :
    ¬ Drained [] (newConn 7) [.sendbin [65] false (fun _ => .again) (by decide),
      .sendbin [] true (fun _ => .again) (by decide)] := by
  rw [drained_iff_noEmptyBurn]
  rintro ⟨-, hrest⟩
  have hu := untaken_again (List.cons_ne_nil (65 : UInt8) [])
  obtain ⟨o, hq, hinv, hsome, hpend⟩ := queue_none (o := (newConn 7).out) rfl
    (List.cons_ne_nil (65 : UInt8) []) (by decide)
  have hs : perform (newConn 7) (.sendbin [65] false (fun _ => .again) (by decide)) =
      some ((newConn 7).setOut o) := by
    have hnn : ¬ toInt32 (([65] : Bytes).length) < 0 := by decide
    have hfd : (newConn 7).fd ≠ 0 := by decide
    obtain ⟨t, ht, he⟩ := sendbinLoop_direct (fun _ => .again) false (newConn 7) [65] rfl
    obtain rfl : t = [] := by simpa [hu] using ht
    simp only [perform, sendbin, hnn, hfd, ↓reduceIte, he, hu, reduceCtorEq, hq,
      Option.map_some, Bool.false_eq_true, Conn.accept, List.append_nil]
  exact hsome ((hrest _ hs).1 rfl rfl)

end ApeServer.Sock
