import Ukern.Kernel.Access

/-! # `proc.c` and `sched.c`

Processes: slots, the family lists, exit, and the choice of the next process.
A walk along sibling pointers that does not end in `NPROCS` steps is a cycle.
-/
namespace Ukern

def Kernel.setPhys (k : Kernel) (m : Phys) : Kernel := { k with phys := m }

def Phys.setPipe (m : Phys) (pg : ℕ) (q : Pipe) : Phys := { m with pipe := Function.update m.pipe pg q }

def Kernel.pipe (k : Kernel) (pg : ℕ) : Pipe := k.phys.pipe pg

def Kernel.setPipe (k : Kernel) (pg : ℕ) (q : Pipe) : Kernel := k.setPhys (k.phys.setPipe pg q)

/-- Let a blocked process go on with a result in `rax`. -/
def Kernel.wake (k : Kernel) (i : Slot) (rax : U64) : Kernel :=
  k.modProc i fun p => { p with context := { p.context with rax := rax }, state := .ready }

/-- Save the trap frame and block. -/
def Kernel.block (k : Kernel) (i : Slot) (tf : Context) : Kernel :=
  k.modProc i fun p => { p with context := tf, state := .pending }

/-- The first closed slot, which `alloc_proc` takes. -/
def Kernel.closedSlot (k : Kernel) : Option Slot :=
  (List.finRange nprocs).find? fun i => (k.procs i).state == .close

/-- A closed slot is handed out with its two tables and the next pid. -/
def Kernel.allot (k : Kernel) (i : Slot) (a b : ℕ) (m : Phys) : Kernel :=
  let pid := (k.gPid + 1) % 2^64
  { k with phys := m, gPid := pid }.modProc i fun p =>
    { p with pgtbl := a, pPgtbl := b, state := .pending, pid := pid }

/-- `alloc_proc`. -/
def allocProc (k : Kernel) : Except Fault (Option Slot × Kernel) :=
  match k.closedSlot with
  | none => .ok (none,k)
  | some i => do
    let (a,m) ← getPage k.phys true
    let (b,m) ← getPage m true
    .ok (some i,k.allot i a b m)

/-- The slots in the order `sched` looks at them: those after `curproc`, itself last. -/
def Kernel.schedOrder (k : Kernel) : List Slot :=
  let curid := match k.curproc with
    | some c => c.val
    | none => 0
  (List.range nprocs).map fun j => slotAt (curid + 1 + j)

/-- `sched`. The loop runs with interrupts off, so with no ready process it never ends. -/
def sched (k : Kernel) : Except Fault Kernel :=
  match k.schedOrder.find? fun i => (k.procs i).state == .ready with
  | none => .error .hang
  | some i => .ok { k.modProc i fun p => { p with state := .running } with curproc := some i }

/-- The private copy that `U2K` and `page_fault_handler` make of a shared page. -/
def cowPage (m : Phys) (frame : ℕ) : Except Fault (ℕ × Phys) := do
  let m := m.setRef frame (m.ref frame - 1)
  let (pg,m) ← getPage m false
  .ok (pg,m.copyPage pg frame)

/-- `U2K`: the physical address behind a user address, private if `write`. -/
def u2k (m : Phys) (p : Proc) (v : U64) (write : Bool) : Except Fault (ℕ × Phys) := do
  let (t₁,i₁,m) ← walkSlot m p.pgtbl v.toNat false
  let (t₂,i₂,m) ← walkSlot m p.pPgtbl v.toNat false
  let e₁ := m.tbl t₁ i₁
  let e₂ := m.tbl t₂ i₂
  if !e₁.covers (pteP ||| pteU) then .error .assertion
  else if e₁.frame ≠ e₂.frame then .error .assertion
  else if !write ∨ e₁.flags &&& pteFlags = e₂.flags &&& pteFlags then
    .ok (e₁.frame * pgsize + v.toNat % pgsize,m)
  else if !(!e₁.w && e₂.w) then .error .assertion
  else do
    let (pg,m) ← cowPage m e₂.frame
    let e : Pte := ⟨pg,pteP ||| pteU ||| pteW⟩
    .ok (pg * pgsize + v.toNat % pgsize,(m.setEntry t₁ i₁ e).setEntry t₂ i₂ e)

/-- A `u32` counter that is decremented. -/
def dec32 (n : ℕ) : ℕ := (n + 2^32 - 1) % 2^32

def inc32 (n : ℕ) : ℕ := (n + 1) % 2^32

/-- The free of a pipe that nobody refers to. -/
def releasePipe (k : Kernel) (pg : ℕ) : Except Fault Kernel :=
  if (k.pipe pg).rref = 0 ∧ (k.pipe pg).wref = 0 then do .ok (k.setPhys (← freePage k.phys pg))
  else .ok k

/-- The `switch` on a descriptor's type, shared by `sys_close` and `clear_proc`. -/
def dropFdesc (k : Kernel) (f : FileDesc) : Except Fault Kernel :=
  let q := k.pipe f.pipe
  match f.fileType with
  | .rpipe => releasePipe (k.setPipe f.pipe { q with rref := dec32 q.rref }) f.pipe
  | .wpipe =>
    let k := k.setPipe f.pipe { q with wref := dec32 q.wref }
    let k := match q.reader with
      | some r => if dec32 q.wref = 0 then k.wake r 0 else k
      | none => k
    releasePipe k f.pipe
  | _ => .ok k

/-- `clear_proc`. -/
def clearProc (k : Kernel) (i : Slot) : Except Fault Kernel := do
  let k := k.modProc i fun p => { p with state := .pending }
  let m ← freePgtbl k.phys (k.procs i).pgtbl true
  let m ← freePgtbl m (k.procs i).pPgtbl false
  let k := { k with phys := m, kbdProc := if k.kbdProc = some i then none else k.kbdProc }
  let k ← (List.range nfdesc).foldlM (fun k fd =>
    let f := (k.procs i).fdesc fd
    if f.inuse then dropFdesc k f else .ok k) k
  .ok (k.setProc i .zero)

/-- First loop of `exit_as_parent`. -/
def orphan : ℕ → Kernel → Option Slot → Except Fault Kernel
  | _, k, none => .ok k
  | 0, _, some _ => .error .hang
  | n+1, k, some c => orphan n (k.modProc c fun p => { p with parent := none }) (k.procs c).nextSibling

/-- Second loop of `exit_as_parent`. -/
def reap : ℕ → Kernel → Option Slot → Except Fault Kernel
  | _, k, none => .ok k
  | 0, _, some _ => .error .hang
  | n+1, k, some c => do reap n (← clearProc k c) (k.procs c).nextSibling

def exitAsParent (k : Kernel) (i : Slot) : Except Fault Kernel := do
  let zombieChild := (k.procs i).zombieChild
  let k ← orphan nprocs k (k.procs i).livingChild
  reap nprocs k zombieChild

/-- The zombie branch of `exit_as_child`: push onto the parent's list. -/
def becomeZombie (k : Kernel) (i pa : Slot) (exitVal : U64) : Kernel :=
  let k := match (k.procs pa).zombieChild with
    | none =>
      let k := k.modProc pa fun p => { p with zombieChild := some i }
      k.modProc i fun p => { p with prevSibling := none, nextSibling := none }
    | some ohead =>
      let k := k.modProc ohead fun p => { p with prevSibling := some i }
      let k := k.modProc i fun p => { p with nextSibling := some ohead }
      k.modProc pa fun p => { p with zombieChild := some i }
  k.modProc i fun p => { p with exitVal := exitVal, state := .zombie }

/-- Apply an update to the process a pointer refers to, if any. -/
def Kernel.modPtr (k : Kernel) (i : Option Slot) (f : Proc → Proc) : Kernel :=
  match i with
  | none => k
  | some i => k.modProc i f

/-- The last part of `exit_as_child`: take `i` out of the lists of `pa`. -/
def detach (k : Kernel) (i pa : Slot) : Kernel :=
  let k := k.modPtr (k.procs i).prevSibling fun p => { p with nextSibling := (k.procs i).nextSibling }
  let k := k.modPtr (k.procs i).nextSibling fun p => { p with prevSibling := (k.procs i).prevSibling }
  let k := if (k.procs pa).livingChild = some i then
      k.modProc pa fun p => { p with livingChild := (k.procs i).nextSibling } else k
  if (k.procs pa).zombieChild = some i then
      k.modProc pa fun p => { p with zombieChild := (k.procs i).nextSibling } else k

/-- Store the status where the waiting parent asked for it. -/
def storeStatus (k : Kernel) (pa : Slot) (exitVal : U64) : Except Fault Kernel :=
  if (k.procs pa).waitStatus ≠ 0 then do
    let (wstatus,m) ← u2k k.phys (k.procs pa) (k.procs pa).waitStatus true
    .ok (k.setPhys (m.setBytes wstatus (toBytes exitVal.toNat 8)))
  else .ok k

/-- The waiting parent gets the status and becomes ready. -/
def reportExit (k : Kernel) (i pa : Slot) (exitVal : U64) : Except Fault Kernel := do
  let k ← storeStatus (k.modProc pa fun p => { p with waiting := false }) pa exitVal
  .ok (k.wake pa (BitVec.ofNat 64 (k.procs i).pid))

/-- `exit_as_child`. -/
def exitAsChild (k : Kernel) (i : Slot) (exitVal : U64) : Except Fault Kernel :=
  match (k.procs i).parent with
  | none => clearProc k i
  | some pa =>
    if !(k.procs pa).waiting then .ok (becomeZombie k i pa exitVal)
    else do clearProc (detach (← reportExit k i pa exitVal) i pa) i

/-- `kill_proc`. -/
def killProc (k : Kernel) (i : Slot) (exitVal : U64) : Except Fault Kernel := do
  let k ← exitAsParent (k.modProc i fun p => { p with exitVal := exitVal }) i
  exitAsChild k i exitVal

end Ukern
