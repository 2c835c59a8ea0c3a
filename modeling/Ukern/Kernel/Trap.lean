import Ukern.Kernel.Exec

/-! # `intr.c`: traps

A trap comes with a vector, an error code, `cr2` and the trap frame; the keyboard
interrupt reads a character. `fx_save`, `lapic_eoi` and the printing are left out.
-/
namespace Ukern

/-- What the hardware hands to `trap_handler`. -/
structure Trap where
  vecnum : ℕ
  errno : U64
  cr2 : U64
  tf : Context
  getch : ℤ

def killStatus : U64 := neg 0xFF

def sysExitNum : ℤ := 0
def sysForkNum : ℤ := 1
def sysExecNum : ℤ := 2
def sysWaitNum : ℤ := 3
def sysOpenNum : ℤ := 4
def sysReadNum : ℤ := 5
def sysWriteNum : ℤ := 6
def sysCloseNum : ℤ := 7
def sysOpendirNum : ℤ := 8
def sysReaddirNum : ℤ := 9
def sysChdirNum : ℤ := 10
def sysPipeNum : ℤ := 11
def sysSbrkNum : ℤ := 12
def sysGetpidNum : ℤ := 13

/-- `syscall`. An unknown number kills the process and returns all the same. -/
def syscall (fs : Fs) (k : Kernel) (c : Slot) (tf : Context) : Except Fault Outcome :=
  let num := toInt32 tf.rax
  if num = sysExitNum then sysExit k c tf.rdx
  else if num = sysForkNum then sysFork k c tf
  else if num = sysExecNum then sysExec fs k c tf
  else if num = sysWaitNum then sysWait k c tf
  else if num = sysOpenNum then sysOpen fs k c tf
  else if num = sysReadNum then sysRead fs k c tf
  else if num = sysWriteNum then sysWrite k c tf
  else if num = sysCloseNum then sysClose k c tf
  else if num = sysOpendirNum then sysOpendir fs k c tf
  else if num = sysReaddirNum then sysReaddir fs k c tf
  else if num = sysChdirNum then sysChdir fs k c tf
  else if num = sysPipeNum then sysPipe k c tf
  else if num = sysSbrkNum then sysSbrk k c tf
  else if num = sysGetpidNum then sysGetpid k c tf
  else do .ok (.ret tf (← killProc k c killStatus))

/-- The copy-on-write branch of `page_fault_handler`, on the entry found in `pgtbl`. -/
def breakCow (m : Phys) (p : Proc) (vaddr : ℕ) : Except Fault Phys := do
  let (t,i,m) ← walkSlot m p.pgtbl vaddr false
  let e := m.tbl t i
  if m.ref e.frame = 1 then .ok (m.setEntry t i (e.set pteW))
  else do
    let (pg,m) ← cowPage m e.frame
    let m := m.setEntry t i ⟨pg,pteP ||| pteU ||| pteW⟩
    let (t,i,m) ← walkSlot m p.pPgtbl vaddr false
    .ok (m.setEntry t i ⟨pg,pteP ||| pteU ||| pteW⟩)

/-- `page_fault_handler`. -/
def pageFaultHandler (k : Kernel) (c : Slot) (tr : Trap) : Except Fault Outcome := do
  if tr.errno ≠ 7 then
    if tr.tf.cs = 0x08 then .error .hang
    else (← killProc k c killStatus).sched
  else
    let p := k.procs c
    match ← walkPgtbl k.phys p.pPgtbl tr.cr2.toNat false with
    | (.slot t i,_) =>
      if (k.phys.tbl t i).covers (pteP ||| pteU ||| pteW) then do
        .ok (.ret tr.tf (k.setPhys (← breakCow k.phys p tr.cr2.toNat)))
      else (← killProc k c killStatus).sched
    | _ => (← killProc k c killStatus).sched

/-- A character enters the keyboard ring. -/
def Kernel.queueKey (k : Kernel) (ch : ℤ) : Kernel :=
  { k with
    kbdBuffer := Function.update k.kbdBuffer ((k.kbdBufBeg + k.kbdBufSiz) % 4096) (UInt8.ofNat ch.toNat)
    kbdBufSiz := k.kbdBufSiz + 1 }

/-- A blocked reader of the keyboard gets what is there, and the current process gives way. -/
def serveKbd (k : Kernel) (c : Slot) (tf : Context) : Except Fault Outcome :=
  match k.kbdProc with
  | none => .ok (.ret tf k)
  | some b => do
    let p := k.procs b
    let r := min k.kbdBufSiz p.context.rbx.toNat
    let k ← (List.range r).foldlM (kbdCopy p.pgtbl p.context.rcx) k
    let k := { k.wake b (BitVec.ofNat 64 r) with kbdProc := none }
    (k.modProc c fun p => { p with context := tf, state := .ready }).sched

/-- The keyboard vector. -/
def keyboard (k : Kernel) (c : Slot) (tr : Trap) : Except Fault Outcome :=
  if 0 < tr.getch ∧ k.kbdBufSiz < 4096 then serveKbd (k.queueKey tr.getch) c tr.tf else .ok (.ret tr.tf k)

/-- `trap_handler` for a trap taken while `c` was the current process. -/
def trapHandlerAt (fs : Fs) (k : Kernel) (c : Slot) (tr : Trap) : Except Fault Outcome :=
  match tr.vecnum with
  | 0 => do (← killProc k c killStatus).sched
  | 14 => pageFaultHandler k c tr
  | 32 => syscall fs k c tr.tf
  | 33 => (k.modProc c fun p => { p with
      context := tr.tf
      state := .ready
      execTime := (p.execTime + 1) % 2^64 }).sched
  | 36 => keyboard k c tr
  | _ => if tr.tf.cs ≠ 0x08 then .ok (.ret tr.tf k) else .error .panic

def trapHandler (fs : Fs) (k : Kernel) (tr : Trap) : Except Fault Outcome :=
  match k.curproc with
  | none => .error .nullDeref
  | some c => trapHandlerAt fs k c tr

end Ukern
