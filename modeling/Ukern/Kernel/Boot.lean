import Ukern.Kernel.Memory

/-! # `init_kpgtbl`

The kernel's own page table: one PDPT for each of the 512 entries of the PML4, the
direct map in pages of 1 GiB at 0 and at `KERNBASE`, and the kernel stack. The tables
stand one after the other behind the frame `kPgtbl`.
-/
namespace Ukern

def kernbase : U64 := 0xFFFF800000000000

/-- `memset` over the PML4, the PDPTs and the two tables of the kernel stack. -/
def clearKpgtbl (kPgtbl : ℕ) (m : Phys) : Phys :=
  { m with tbl := fun t i => if kPgtbl ≤ t ∧ t < kPgtbl + 515 then .zero else m.tbl t i }

/-- `reg_kpgtbl_1Gpage`. -/
def regKpgtbl1Gpage (kPgtbl : ℕ) (m : Phys) (vaddr paddr : U64) : Phys :=
  m.setEntry (kPgtbl + 1 + tblIndex 3 vaddr.toNat) (tblIndex 2 vaddr.toNat)
    ⟨paddr.toNat / pgsize,pteP ||| pdePS ||| pteW⟩

/-- One step of the loop over physical memory. -/
def mapDirect (kPgtbl : ℕ) (m : Phys) (i : ℕ) : Phys :=
  let addr : U64 := BitVec.ofNat 64 (i * 0x40000000)
  regKpgtbl1Gpage kPgtbl (regKpgtbl1Gpage kPgtbl m addr addr) (kernbase ||| addr) addr

/-- `init_kpgtbl`; `kstack` is the frame of the kernel stack. -/
def initKpgtbl (kPgtbl kstack : ℕ) (m : Phys) : Phys :=
  let m := clearKpgtbl kPgtbl m
  let m := (List.range 512).foldl (fun m i => m.setEntry kPgtbl i ⟨kPgtbl + 1 + i,pteP ||| pteW⟩) m
  let m := (List.range ((m.maxAddr + 0x3FFFFFFF) / 0x40000000)).foldl (mapDirect kPgtbl) m
  let m := m.setEntry (kPgtbl + 512) 511 ⟨kPgtbl + 513,pteP ||| pteW⟩
  let m := m.setEntry (kPgtbl + 513) 511 ⟨kPgtbl + 514,pteP ||| pteW⟩
  m.setEntry (kPgtbl + 514) 510 ⟨kstack,pteP ||| pteW⟩

end Ukern
