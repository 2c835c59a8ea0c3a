import Ukern.Kernel.Proc

/-! # `fs/pipe.c`

`pipe_read` and `pipe_write` call each other; `depth` bounds the nesting, and the
callers pass 3. The copy loops run until the index meets the end, which is fewer
than `PIPE_BUFLEN` steps from any index inside the buffer.
-/
namespace Ukern

/-- Next index in the ring. -/
def ringNext (j : ℕ) : ℕ := if j + 1 = pipeBuflen then 0 else j + 1

/-- The copy loop of `pipe_read`: `rbuf` is converted again at each page. -/
def pipeReadLoop (pg : ℕ) (p : Proc) (base tail : ℕ) :
    ℕ → Phys → ℕ → ℕ → ℕ → ℕ → Except Fault Phys
  | 0, _, _, _, _, _ => .error .hang
  | n+1, m, rbuf, i, ind, j =>
    if j = tail then .ok m
    else
      let m := m.setByte (rbuf + ind) ((m.pipe pg).buf j)
      let v := (base + (i+1)) % 2^64
      if v % pgsize ≠ 0 then pipeReadLoop pg p base tail n m rbuf (i+1) (ind+1) (ringNext j)
      else do
        let (rbuf,m) ← u2k m p (BitVec.ofNat 64 v) true
        pipeReadLoop pg p base tail n m rbuf (i+1) 0 (ringNext j)

/-- The copy loop of `pipe_write`. -/
def pipeWriteLoop (pg : ℕ) (p : Proc) (base tail : ℕ) :
    ℕ → Phys → ℕ → ℕ → ℕ → ℕ → Except Fault Phys
  | 0, _, _, _, _, _ => .error .hang
  | n+1, m, wbuf, i, ind, j =>
    if j = tail then .ok m
    else
      let q := m.pipe pg
      let m := m.setPipe pg { q with buf := Function.update q.buf j (m.byte (wbuf + ind)) }
      let v := (base + (i+1)) % 2^64
      if v % pgsize ≠ 0 then pipeWriteLoop pg p base tail n m wbuf (i+1) (ind+1) (ringNext j)
      else do
        let (wbuf,m) ← u2k m p (BitVec.ofNat 64 v) false
        pipeWriteLoop pg p base tail n m wbuf (i+1) 0 (ringNext j)

/-- `min(pipe->len, pipe->rsiz)`. -/
def Pipe.readSize (q : Pipe) : ℕ := min q.len q.rsiz

/-- `min(PIPE_BUFLEN - pipe->len - 1, pipe->wsiz - pipe->wptr)`; both differences are unsigned. -/
def Pipe.writeSize (q : Pipe) : ℕ :=
  min ((pipeBuflen + 2^64 - q.len - 1) % 2^64) ((q.wsiz + 2^32 - q.wptr) % 2^32) % 2^32

/-- After the copy of `pipe_read`: the ring moves on, the reader is forgotten. -/
def Pipe.taken (q : Pipe) (n : ℕ) : Pipe :=
  let head := (q.head + n) % 2^32
  { q with
    len := (q.len + 2^32 - n) % 2^32
    head := if pipeBuflen ≤ head then head - pipeBuflen else head
    rbuf := 0
    rsiz := 0
    reader := none }

/-- After the copy of `pipe_write`: a finished writer is forgotten. -/
def Pipe.given (q : Pipe) (n : ℕ) : Pipe :=
  let q := { q with wptr := (q.wptr + n) % 2^32, len := (q.len + n) % 2^32 }
  if q.wptr = q.wsiz then { q with wbuf := 0, wptr := 0, wsiz := 0, writer := none } else q

/-- The copy and the bookkeeping of `pipe_read`, without the wake-ups. -/
def pipeReadCopy (k : Kernel) (pg : ℕ) (r : Slot) (n : ℕ) : Except Fault Kernel := do
  let q := k.pipe pg
  let (rbuf,m) ← u2k k.phys (k.procs r) (BitVec.ofNat 64 q.rbuf) true
  let m ← pipeReadLoop pg (k.procs r) q.rbuf ((q.head + n) % 2^32 % pipeBuflen) pipeBuflen m rbuf 0 0 q.head
  .ok ((k.setPhys m).setPipe pg ((m.pipe pg).taken n))

def pipeWriteCopy (k : Kernel) (pg : ℕ) (w : Slot) (n : ℕ) : Except Fault Kernel := do
  let q := k.pipe pg
  let base := (q.wbuf + q.wptr) % 2^64
  let (wbuf,m) ← u2k k.phys (k.procs w) (BitVec.ofNat 64 base) false
  let m ← pipeWriteLoop pg (k.procs w) base ((q.head + q.len + n) % 2^32 % pipeBuflen) pipeBuflen m wbuf 0 0
    ((q.head + q.len) % 2^32 % pipeBuflen)
  .ok ((k.setPhys m).setPipe pg ((m.pipe pg).given n))

mutual
/-- `pipe_read`; returns the number of bytes. -/
def pipeRead : ℕ → Kernel → ℕ → Bool → Except Fault (ℕ × Kernel)
  | 0, _, _, _ => .error .hang
  | depth+1, k, pg, invoke =>
    let q := k.pipe pg
    let n := q.readSize
    if n = 0 then .ok (0,k)
    else match q.reader with
      | none => .error .nullDeref
      | some r => do
        let k ← pipeReadCopy k pg r n
        let k := if invoke then k.wake r (BitVec.ofNat 64 n) else k
        if (k.pipe pg).writer.isSome then do
          let (_,k) ← pipeWrite depth k pg true
          .ok (n,k)
        else .ok (n,k)

/-- `pipe_write`; returns the number of bytes this call moved. -/
def pipeWrite : ℕ → Kernel → ℕ → Bool → Except Fault (ℕ × Kernel)
  | 0, _, _, _ => .error .hang
  | depth+1, k, pg, invoke =>
    let q := k.pipe pg
    let n := q.writeSize
    if n = 0 then .ok (0,k)
    else match q.writer with
      | none => .error .nullDeref
      | some w => do
        let k ← pipeWriteCopy k pg w n
        let k := if invoke ∧ (q.wptr + n) % 2^32 = q.wsiz then k.wake w (BitVec.ofNat 64 q.wsiz) else k
        if (k.pipe pg).reader.isSome then do
          let (_,k) ← pipeRead depth k pg true
          .ok (n,k)
        else .ok (n,k)
end

end Ukern
