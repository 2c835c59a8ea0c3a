import Ukern.Kernel.State

/-! # `mem.c`: pages and page tables

The four nested loops of `copy_pgtbl`, `free_pgtbl` and `pgtbl_clearflags` repeat
one body per level. They are written here by recursion on the level of the table:
0 is a page table, 1 a page directory, 2 a PDPT and 3 the PML4, of which the loops
visit only the 256 entries of the user half.
-/
namespace Ukern

namespace Phys
/-- `page_info.paddr`, which stays 0 for a frame the memory map does not offer. -/
def paddr (m : Phys) (pg : ℕ) : ℕ := if m.usable pg then pg * pgsize else 0

/-- The range test at the head of `free_page`. -/
def allocatable (m : Phys) (pg : ℕ) : Bool := decide (m.endKmem ≤ m.paddr pg ∧ m.paddr pg < m.maxAddr)

def setEntry (m : Phys) (t i : ℕ) (e : Pte) : Phys :=
  { m with tbl := Function.update m.tbl t (Function.update (m.tbl t) i e) }

/-- Store one byte at a physical address. -/
def setByte (m : Phys) (pa : ℕ) (b : UInt8) : Phys :=
  let page := Function.update (m.data (pa / pgsize)) (pa % pgsize) b
  { m with data := Function.update m.data (pa / pgsize) page }

def byte (m : Phys) (pa : ℕ) : UInt8 := m.data (pa / pgsize) (pa % pgsize)

def setRef (m : Phys) (pg : ℕ) (r : ℤ) : Phys := { m with ref := Function.update m.ref pg r }

/-- `memset(page, 0, PGSIZE)`, in all three views. -/
def zeroPage (m : Phys) (pg : ℕ) : Phys :=
  { m with
    tbl := Function.update m.tbl pg (fun _ => .zero)
    data := Function.update m.data pg (fun _ => 0)
    pipe := Function.update m.pipe pg .zero }

/-- The byte copy loop of `page_fault_handler` and `U2K`. -/
def copyPage (m : Phys) (dst src : ℕ) : Phys :=
  { m with data := Function.update m.data dst (m.data src) }

/-- Unlink the head of the free list and take the first reference. -/
def unlink (m : Phys) (pg : ℕ) (rest : List ℕ) : Phys :=
  { m with free := rest, ref := Function.update m.ref pg 1, nfreepages := m.nfreepages - 1 }
end Phys

/-- `alloc_page`. After unlinking a page the code reads `freepages->paddr` of the
new head, also when the list has just become empty. -/
def allocPage (m : Phys) (zero : Bool) : Except Fault (Option ℕ × Phys) :=
  match m.free with
  | [] => .ok (none,m)
  | pg :: rest =>
    match rest with
    | [] => .error .nullDeref
    | head :: _ =>
      if m.paddr head > m.maxAddr then .error .panic
      else .ok (some pg,(if zero then m.zeroPage pg else m).unlink pg rest)

/-- `alloc_page` at a caller that reads `page->paddr` without a test. -/
def getPage (m : Phys) (zero : Bool) : Except Fault (ℕ × Phys) := do
  match ← allocPage m zero with
  | (none,_) => .error .nullDeref
  | (some pg,m) => .ok (pg,m)

/-- `free_page`. -/
def freePage (m : Phys) (pg : ℕ) : Except Fault Phys :=
  if !m.allocatable pg then .error .panic
  else if m.ref pg ≤ 0 then .error .panic
  else if m.ref pg - 1 = 0 then
    .ok { m with ref := Function.update m.ref pg 0, free := pg :: m.free, nfreepages := m.nfreepages + 1 }
  else .ok (m.setRef pg (m.ref pg - 1))

/-- `PT_INDEX`, `PD_INDEX`, `PDPT_INDEX` and `PML4_INDEX`. -/
def tblIndex (l v : ℕ) : ℕ := v / pgsize / 512^l % 512

/-- What `walk_pgtbl` passes out: the slot of the entry, or its error. -/
inductive Walk
  | slot (t i : ℕ) | efault | enomem
  deriving DecidableEq, Repr

/-- The cleanup loop at `no_mem`, which stops at the first null. -/
def freeAlloced (m : Phys) : List (Option ℕ) → Except Fault Phys
  | some pg :: rest => do freeAlloced (← freePage m pg) rest
  | _ => .ok m

/-- `walk_pgtbl` below a table of the given level. The two `assert`s on the size bit
guard the PDPT and the page directory, not the PML4. -/
def walkFrom (create : Bool) (v : ℕ) :
    ℕ → Phys → ℕ → List (Option ℕ) → Except Fault (Walk × Phys)
  | 0, m, t, _ => .ok (.slot t (tblIndex 0 v),m)
  | l+1, m, t, alloced =>
    let e := m.tbl t (tblIndex (l+1) v)
    if l < 2 ∧ e.ps then .error .assertion
    else if e.p then walkFrom create v l m e.frame (alloced ++ [none])
    else if !create then .ok (.efault,m)
    else do
      match ← allocPage m true with
      | (none,m) => .ok (.enomem,← freeAlloced m alloced)
      | (some pg,m) =>
        walkFrom create v l (m.setEntry t (tblIndex (l+1) v) ⟨pg,pteP ||| pteW ||| pteU⟩) pg
          (alloced ++ [some pg])

def walkPgtbl (m : Phys) (pgtbl v : ℕ) (create : Bool) : Except Fault (Walk × Phys) :=
  walkFrom create v 3 m pgtbl []

/-- `walk_pgtbl` at a caller that dereferences `*pte` whatever the result. -/
def walkSlot (m : Phys) (pgtbl v : ℕ) (create : Bool) : Except Fault (ℕ × ℕ × Phys) := do
  match ← walkPgtbl m pgtbl v create with
  | (.slot t i,m) => .ok (t,i,m)
  | _ => .error .nullDeref

def ptePWT : BitVec 12 := 0x8
def ptePCD : BitVec 12 := 0x10

/-- `map_mmio`: the entry is `mmioaddr | PTE_P | PTE_W | PTE_PWT | PTE_PCD`. -/
def mapMmio (m : Phys) (pgtbl : ℕ) (vaddr mmioaddr : U64) : Except Fault (U64 × Phys) := do
  match ← walkPgtbl m pgtbl vaddr.toNat true with
  | (.slot t i,m) =>
    .ok (0,m.setEntry t i ⟨mmioaddr.toNat / pgsize,mmioaddr.setWidth 12 ||| pteP ||| pteW ||| ptePWT ||| ptePCD⟩)
  | (.efault,m) => .ok (neg efault,m)
  | (.enomem,m) => .ok (neg enomem,m)

/-- The innermost body of `copy_pgtbl`. -/
def copyEntry (cntref : Bool) (dst src : ℕ) (m : Phys) (i : ℕ) : Phys :=
  let e := m.tbl src i
  if !e.p then m
  else
    let m := m.setEntry dst i e
    if cntref then m.setRef e.frame (m.ref e.frame + 1) else m

/-- `copy_pgtbl`, user half. -/
def copyFrom (cntref : Bool) : ℕ → ℕ → Phys → ℕ → ℕ → Except Fault Phys
  | 0, n, m, dst, src => .ok ((List.range n).foldl (copyEntry cntref dst src) m)
  | l+1, n, m, dst, src => (List.range n).foldlM (fun m i => do
      if !(m.tbl src i).p then .ok m
      else
        let (pg,m) ← getPage m true
        copyFrom cntref l 512 (m.setEntry dst i ⟨pg,pteP ||| pteW ||| pteU⟩) pg (m.tbl src i).frame) m

/-- The loop over the kernel half, also written out in `sys_exec` and `create_proc`. -/
def copyKernelHalf (m : Phys) (dst src : ℕ) : Phys :=
  (List.range 256).foldl (fun m i => m.setEntry dst (256+i) (m.tbl src (256+i))) m

def copyPgtbl (m : Phys) (dst src : ℕ) (cntref : Bool) : Except Fault Phys := do
  let m ← copyFrom cntref 3 256 m dst src
  .ok (copyKernelHalf m dst src)

/-- `pgtbl_clearflags`. -/
def clearFrom (flags : BitVec 12) : ℕ → ℕ → Phys → ℕ → Phys
  | 0, n, m, t => (List.range n).foldl (fun m i =>
      if !(m.tbl t i).p then m else m.setEntry t i ((m.tbl t i).clear flags)) m
  | l+1, n, m, t => (List.range n).foldl (fun m i =>
      if !(m.tbl t i).p then m else clearFrom flags l 512 m (m.tbl t i).frame) m

def pgtblClearflags (m : Phys) (pgtbl : ℕ) (flags : BitVec 12) : Phys :=
  clearFrom (flags &&& pteFlags) 3 256 m pgtbl

/-- `free_pgtbl`; `decref` is `FREE_PGTBL_DECREF`. -/
def freeFrom (decref : Bool) : ℕ → ℕ → Phys → ℕ → Except Fault Phys
  | 0, n, m, t => do
    let m ← (List.range n).foldlM (fun m i =>
      if !(m.tbl t i).p then .ok m
      else if decref then freePage m (m.tbl t i).frame else .ok m) m
    freePage m t
  | l+1, n, m, t => do
    let m ← (List.range n).foldlM (fun m i =>
      if !(m.tbl t i).p then .ok m else freeFrom decref l 512 m (m.tbl t i).frame) m
    freePage m t

def freePgtbl (m : Phys) (pgtbl : ℕ) (decref : Bool) : Except Fault Phys :=
  freeFrom decref 3 256 m pgtbl

end Ukern
