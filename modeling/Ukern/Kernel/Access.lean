import Ukern.Kernel.Memory
import Ukern.Lib.Radix

/-! # Memory as programs see it

The MMU reads the tables that `walk_pgtbl` reads. User code needs `P` and `U`, and
`W` for a store. The kernel clears `CR0.WP` and `CR4.SMAP`, so its own loads and
stores through a user pointer need `P` only. -/
namespace Ukern
open Lib.Radix

/-- The table an entry of a table of level `l+1` leads to: `walk_pgtbl` follows a
present entry, and stops at the size bit below the PML4. -/
def Pte.link (l : ℕ) (e : Pte) : Option ℕ :=
  if e.p = true ∧ ¬ (l < 2 ∧ e.ps = true) then some e.frame else none

/-- The part of the page number that a table of level `l` decodes. -/
def key (l v : ℕ) : ℕ := v / pgsize % 512^(l+1)

/-- The leaf entry for `v` below the PML4 `t`. -/
def lookup (m : Phys) (t v : ℕ) : Pte := leafAt Pte.link 512 .zero m.tbl 3 t (key 3 v)

/-- End of the lower canonical half. -/
def userTop : ℕ := 2^47

/-- Where a user address lies in physical memory. -/
def translate (m : Phys) (t v : ℕ) : Option ℕ :=
  let e := lookup m t v
  if v < userTop ∧ e.p = true then some (e.frame * pgsize + v % pgsize) else none

/-- The MMU's walk below a table of the given level. A large page ends it early. -/
def mmuWalk (m : Phys) (v : ℕ) : ℕ → ℕ → Option ℕ
  | 0, t =>
    let e := m.tbl t (tblIndex 0 v)
    if e.p then some (e.frame * pgsize + v % pgsize) else none
  | l+1, t =>
    let e := m.tbl t (tblIndex (l+1) v)
    if !e.p then none
    else if l < 2 ∧ e.ps then some (e.frame * pgsize + v % (pgsize * 512^(l+1)))
    else mmuWalk m v l e.frame

/-- Where an address of either half lies in physical memory, for kernel mode. -/
def mmu (m : Phys) (t : ℕ) (v : U64) : Option ℕ := mmuWalk m v.toNat 3 t

/-- The byte a user load at `v` gives; `none` is a page fault. -/
def userLoad (m : Phys) (t v : ℕ) : Option UInt8 :=
  let e := lookup m t v
  if v < userTop ∧ e.covers (pteP ||| pteU) = true then some (m.byte (e.frame * pgsize + v % pgsize))
  else none

/-- A user store that the MMU lets through. -/
def userStore (m : Phys) (t v : ℕ) (b : UInt8) : Option Phys :=
  let e := lookup m t v
  if v < userTop ∧ e.covers (pteP ||| pteU ||| pteW) = true then
    some (m.setByte (e.frame * pgsize + v % pgsize) b)
  else none

/-- A load through a user pointer inside the kernel. -/
def kload (m : Phys) (t : ℕ) (v : U64) : Except Fault UInt8 :=
  if userTop ≤ v.toNat then .error .outOfBounds
  else match translate m t v.toNat with
    | none => .error .nullDeref
    | some pa => .ok (m.byte pa)

/-- A store through a user pointer inside the kernel. -/
def kstore (m : Phys) (t : ℕ) (v : U64) (b : UInt8) : Except Fault Phys :=
  if userTop ≤ v.toNat then .error .outOfBounds
  else match translate m t v.toNat with
    | none => .error .nullDeref
    | some pa => .ok (m.setByte pa b)

/-- Store consecutive bytes through a user pointer. -/
def kstores (m : Phys) (t : ℕ) (v : U64) : List UInt8 → Except Fault Phys
  | [] => .ok m
  | b :: bs => do kstores (← kstore m t v b) t (v+1) bs

/-- Load `n` consecutive bytes through a user pointer. -/
def kloads (m : Phys) (t : ℕ) (v : U64) : ℕ → Except Fault (List UInt8)
  | 0 => .ok []
  | n+1 => do .ok ((← kload m t v) :: (← kloads m t (v+1) n))

/-- Little-endian bytes of a number. -/
def toBytes (x : ℕ) : ℕ → List UInt8
  | 0 => []
  | n+1 => UInt8.ofNat (x % 256) :: toBytes (x / 256) n

def ofBytes : List UInt8 → ℕ
  | [] => 0
  | b :: bs => b.toNat + 256 * ofBytes bs

/-- Memory around a pointer, by the distance from it. -/
abbrev Window := ℤ → UInt8

/-- A little-endian field of `n` bytes. -/
def Window.field (w : Window) (a : ℤ) (n : ℕ) : ℕ := ofBytes ((List.range n).map fun i => w (a + i))

/-- Store consecutive bytes at a physical address. -/
def Phys.setBytes (m : Phys) (pa : ℕ) : List UInt8 → Phys
  | [] => m
  | b :: bs => (m.setByte pa b).setBytes (pa+1) bs

end Ukern
