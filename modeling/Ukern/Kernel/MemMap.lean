import Ukern.Kernel.Access
import Ukern.Kernel.PageInfo

/-! # The memory map of the firmware

`init_kpageinfo` of `mem.c`. The descriptors stand `desc_size` bytes apart from `mem_map->list` on, and both
`desc_size` and the number of descriptors go through an `int`. The array `k_pageinfo` holds whatever the memory
held before; the entries behind `max_addr` are not part of it.
-/
namespace Ukern
open Lib

/-- `struct mem_map_desc`, the fields that are read. -/
structure MemMapDesc where
  type : ℕ
  physStart : U64
  numOfPages : U64

/-- `struct mem_map`, the fields that are read. -/
structure MemMap where
  list : Window
  mapSize : U64
  descSize : U64

/-- `EFI_CONVENTIONAL_MEMORY` -/
def efiConventionalMemory : ℕ := 7

namespace MemMapDesc

/-- `desc->phys_start + desc->num_of_pages*PGSIZE` -/
def endAddr (d : MemMapDesc) : U64 := d.physStart + d.numOfPages * BitVec.ofNat 64 pgsize

/-- How often the body of `while (beg < end) beg += PGSIZE` runs. If the step from the last page wraps around,
the loop does not end. -/
def turns (beg fin : U64) : Except Fault ℕ :=
  let n := (fin.toNat - beg.toNat + (pgsize - 1)) / pgsize
  if beg.toNat + n * pgsize < 2^64 then .ok n else .error .hang

/-- The second pass over one descriptor. -/
def offer (d : MemMapDesc) (info : ℕ → PageInfo) : Except Fault (ℕ → PageInfo) :=
  if d.type ≠ efiConventionalMemory then .ok info
  else do
    let n ← turns d.physStart d.endAddr
    .ok ((List.range n).foldl (fun info i =>
      let beg := d.physStart.toNat + i * pgsize
      Function.update info (beg / pgsize) { info (beg / pgsize) with paddr := beg }) info)

end MemMapDesc

namespace MemMap
variable (m : MemMap)

/-- `int desc_size` -/
def stride : ℤ := (m.descSize.setWidth 32).toInt

/-- The number of turns for `int n_desc = mem_map->map_size / desc_size`. The divisor is extended with its
sign to 64 bits; a division by zero is a trap. -/
def nDesc : Except Fault ℕ :=
  let d : U64 := BitVec.ofInt 64 m.stride
  if d = 0 then .error .panic else .ok ((m.mapSize / d).setWidth 32).toInt.toNat

/-- The descriptor `a` bytes behind the start of the list. -/
def descAt (a : ℤ) : MemMapDesc :=
  ⟨m.list.field a 4,BitVec.ofNat 64 (m.list.field (a + 8) 8),BitVec.ofNat 64 (m.list.field (a + 24) 8)⟩

/-- The descriptor that `desc` points to in turn `i`. -/
def desc (i : ℕ) : MemMapDesc := m.descAt (i * m.stride)

/-- `max_addr` after the first pass over `n` descriptors. -/
def maxAddr (n : ℕ) : U64 :=
  (List.range n).foldl (fun a i => if a > (m.desc i).endAddr then a else (m.desc i).endAddr) 0

/-- `init_kpageinfo`: `max_addr` and the array. -/
def initKpageinfo (info : ℕ → PageInfo) : Except Fault (U64 × (ℕ → PageInfo)) := do
  let n ← m.nDesc
  let top := m.maxAddr n
  let clear ← MemMapDesc.turns 0 top
  let info := (List.range clear).foldl (fun info i => Function.update info i ⟨0,0⟩) info
  let info ← (List.range n).foldlM (fun info i => (m.desc i).offer info) info
  .ok (top,info)

end MemMap
end Ukern
