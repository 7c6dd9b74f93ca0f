import Mathlib.Tactic

/-!
# Output of one connection

`sendbin`, `sendqueue` and `safe_shutdown` of `sock.c` with the `_socks_bufout`
record they share. Every `int` of the source is an `Int` that is stored through
`toInt32`, so a count that leaves the 32-bit range wraps as it does there.
-/
namespace ApeServer.Sock

abbrev Bytes := List UInt8

/-- The value an `int` holds after `x` has been stored in it. -/
def toInt32 (x : Int) : Int := x.bmod (2 ^ 32)

/-- What the kernel answers to one `write()`: a positive count or `EWOULDBLOCK`. -/
inductive Write where
  | took (n : ℕ)
  | again

/-- `struct _socks_bufout`. A heap block is the list of its bytes, capacity included. -/
structure Bufout where
  buf : Option Bytes
  buflen : Int
  allocsize : Int

/-- One connection: its output record, `co[fd]->burn_after_writing`, the bytes the
kernel has accepted and how often `shutdown` was called. -/
structure Conn where
  fd : ℕ
  out : Bufout
  burnAfterWriting : ℕ
  kernel : Bytes
  shutdowns : ℕ

namespace Conn

def setOut (c : Conn) (o : Bufout) : Conn := { c with out := o }

def accept (c : Conn) (bs : Bytes) : Conn := { c with kernel := c.kernel ++ bs }

def setBurn (c : Conn) (n : ℕ) : Conn := { c with burnAfterWriting := n }

def shutdown (c : Conn) : Conn := { c with shutdowns := c.shutdowns + 1 }

end Conn

/-- A connection as `sockroutine` leaves it after `accept`. -/
def newConn (fd : ℕ) : Conn :=
  { fd, out := { buf := none, buflen := 0, allocsize := 0 }, burnAfterWriting := 0,
    kernel := [], shutdowns := 0 }

/-- `(n + 0x07ff) & (~0x07ff)`. -/
def roundUp (n : Int) : Int := toInt32 (n + 0x07ff) / 2048 * 2048

/-- A negative size is a huge `size_t`: the allocation fails and the server exits. -/
def xmalloc (n : Int) : Option Bytes :=
  if n < 0 then none else some (List.replicate n.toNat 0)

def xrealloc (block : Bytes) (n : Int) : Option Bytes :=
  if n < 0 then none
  else some (block.take n.toNat ++ List.replicate (n.toNat - block.length) 0)

/-- `memcpy` into a block; a copy that leaves the block is undefined. -/
def memcpy (block : Bytes) (off : Int) (src : Bytes) : Option Bytes :=
  if 0 ≤ off ∧ off + src.length ≤ block.length then
    some (block.take off.toNat ++ src ++ block.drop (off.toNat + src.length))
  else none

/-- The queueing branch of `sendbin`: `rest` is `bin + t_bytes`, of `r_bytes` bytes. -/
def queue (o : Bufout) (rest : Bytes) : Option Bufout :=
  let rBytes := toInt32 rest.length
  match o.buf with
  | none => do
    let allocsize := roundUp rBytes
    let block ← xmalloc allocsize
    let block ← memcpy block (toInt32 (rBytes - rBytes)) rest
    pure { buf := some block, buflen := rBytes, allocsize }
  | some block => do
    let buflen := toInt32 (o.buflen + rBytes)
    if buflen > o.allocsize then
      let allocsize := roundUp buflen
      let block ← xrealloc block allocsize
      let block ← memcpy block (toInt32 (buflen - rBytes)) rest
      pure { buf := some block, buflen, allocsize }
    else
      let block ← memcpy block (toInt32 (buflen - rBytes)) rest
      pure { o with buf := some block, buflen }

/-- The loop of `sendbin`; `w` lists what the kernel answers to the writes it makes.
The result is the value returned, or `none` when the process does not survive. -/
def sendbinLoop (w : ℕ → Write) (burn : Bool) (c : Conn) (rest : Bytes) : Option (ℕ × Conn) :=
  if _ : rest = [] then
    some (1, if burn then c.shutdown else c)
  else
    match c.out.buf, w 0 with
    | none, .took n =>
      -- a positive count, at most the `r_bytes` asked for
      sendbinLoop (fun i => w (i + 1)) burn (c.accept (rest.take (n + 1))) (rest.drop (n + 1))
    | _, _ => do
      let o ← queue c.out rest
      pure (0, if burn then (c.setOut o).setBurn 1 else c.setOut o)
termination_by rest.length
decreasing_by
  have : 0 < rest.length := List.length_pos_iff.mpr ‹_›
  simp only [List.length_drop]
  omega

/-- `sendbin`. A length that does not fit an `int` reaches `write` as a negative count. -/
def sendbin (c : Conn) (bin : Bytes) (burn : Bool) (w : ℕ → Write) : Option (ℕ × Conn) :=
  if c.fd = 0 then some (1, if burn then c.shutdown else c)
  else if toInt32 bin.length < 0 then none
  else sendbinLoop w burn c bin

/-- The loop of `sendqueue` over the `buflen` queued bytes: `done` have been written. -/
def sendqueueLoop (w : ℕ → Write) (c : Conn) (block done rest : Bytes) : ℕ × Conn :=
  if _ : rest = [] then
    (1, c.setOut { c.out with buf := none, buflen := 0 })
  else
    match w 0 with
    | .took n =>
      sendqueueLoop (fun i => w (i + 1)) (c.accept (rest.take (n + 1))) block
        (done ++ rest.take (n + 1)) (rest.drop (n + 1))
    | .again =>
      if done = [] then (0, c)
      else
        -- `memmove` of the unwritten bytes to the front of the block
        (0, c.setOut { c.out with buf := some (rest ++ block.drop rest.length),
                                  buflen := rest.length })
termination_by rest.length
decreasing_by
  have : 0 < rest.length := List.length_pos_iff.mpr ‹_›
  simp only [List.length_drop]
  omega

def sendqueue (c : Conn) (w : ℕ → Write) : ℕ × Conn :=
  match c.out.buf with
  | none => (1, c)
  | some block => sendqueueLoop w c block [] (block.take c.out.buflen.toNat)

def safeShutdown (c : Conn) : Conn :=
  if c.out.buf = none then c.shutdown else c.setBurn 2

end ApeServer.Sock
