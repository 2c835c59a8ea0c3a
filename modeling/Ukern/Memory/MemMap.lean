import Ukern.Kernel.MemMap
import Ukern.Memory.FreeList

/-! # From the memory map to the free list

`init_kpageinfo` marks the pages of the conventional descriptors and `init_freepages` lists the marked pages
behind the kernel. The map may have its descriptors in any order and at any distance that an `int` holds, and
they may overlap.
-/
namespace Ukern
open Lib
variable {m : MemMap} {d : MemMapDesc} {A : PageArray} {info : ℕ → PageInfo}

namespace MemMapDesc

/-- The pages of the descriptor are whole, and their addresses fit in 64 bits. -/
structure Proper (d : MemMapDesc) : Prop where
  aligned : d.physStart.toNat % pgsize = 0
  below : d.physStart.toNat + d.numOfPages.toNat * pgsize < 2^64

/-- Page `f` is in the range of the descriptor. -/
def Covers (d : MemMapDesc) (f : ℕ) : Prop :=
  d.physStart.toNat ≤ f * pgsize ∧ f * pgsize < d.physStart.toNat + d.numOfPages.toNat * pgsize
deriving Decidable

/-- The descriptor makes page `f` available. -/
def Offers (d : MemMapDesc) (f : ℕ) : Prop := d.type = efiConventionalMemory ∧ d.Covers f
deriving Decidable

theorem Proper.endAddr (h : d.Proper) : d.endAddr.toNat = d.physStart.toNat + d.numOfPages.toNat * pgsize := by
  have hb := h.below
  simp only [pgsize] at hb
  rw [MemMapDesc.endAddr, BitVec.toNat_add, BitVec.toNat_mul, BitVec.toNat_ofNat]
  simp only [pgsize]
  omega

theorem turns_aligned {beg fin : U64} {n : ℕ} (h : fin.toNat = beg.toNat + n * pgsize) : turns beg fin = .ok n := by
  have hlt := fin.isLt
  have hn : (fin.toNat - beg.toNat + (pgsize - 1)) / pgsize = n := by
    simp only [pgsize] at h ⊢
    omega
  rw [turns, hn, ← h]
  exact if_pos hlt

/-- The pass over one descriptor writes the addresses of the pages that it offers. -/
theorem Proper.offer (h : d.Proper) (info : ℕ → PageInfo) :
    d.offer info = .ok fun f => if d.Offers f then { info f with paddr := f * pgsize } else info f := by
  obtain ⟨start,hstart⟩ : ∃ start, d.physStart.toNat = start * pgsize :=
    ⟨d.physStart.toNat / pgsize,(Nat.div_mul_cancel (Nat.dvd_of_mod_eq_zero h.aligned)).symm⟩
  unfold MemMapDesc.offer
  by_cases ht : d.type = efiConventionalMemory
  · rw [if_neg (not_not.mpr ht), turns_aligned h.endAddr, ok_bind]
    congr 1
    have hcov : ∀ f, d.Offers f ↔ start ≤ f ∧ f < start + d.numOfPages.toNat := by
      intro f
      simp only [Offers,Covers,ht,true_and,hstart,pgsize]
      omega
    simp only [hcov]
    -- after `n` turns the first `n` pages have their address
    refine foldl_range_inv (fun n (info' : ℕ → PageInfo) =>
      info' = fun f => if start ≤ f ∧ f < start + n then { info f with paddr := f * pgsize } else info f) ?_ ?_
    · funext f
      exact (if_neg (by omega)).symm
    · rintro n _ hn rfl
      have hdiv : (d.physStart.toNat + n * pgsize) / pgsize = start + n := by
        rw [hstart]
        simp only [pgsize]
        omega
      simp only [hdiv]
      funext f
      by_cases hf : f = start + n
      · subst hf
        rw [Function.update_self, if_neg (by omega), if_pos (by omega), hstart, Nat.add_mul]
      · rw [Function.update_of_ne hf]
        exact if_congr (by omega) rfl rfl
  · rw [if_pos ht]
    congr 1
    funext f
    exact (if_neg fun hf => ht hf.1).symm

end MemMapDesc

namespace MemMap

/-- The number of descriptors in the map. -/
def count (m : MemMap) : ℕ := m.mapSize.toNat / m.descSize.toNat

/-- Descriptor `i` of the map. -/
def entry (m : MemMap) (i : ℕ) : MemMapDesc := m.descAt (i * m.descSize.toNat)

/-- What the kernel relies on: the size and the number of the descriptors fit in an `int`. -/
structure Valid (m : MemMap) : Prop where
  size : 40 ≤ m.descSize.toNat
  stride : m.descSize.toNat < 2^31
  count : m.count < 2^31
  proper : ∀ i < m.count, (m.entry i).Proper

/-- Page `f` is in some descriptor of conventional memory. -/
def Offered (m : MemMap) (f : ℕ) : Prop := ∃ i < m.count, (m.entry i).Offers f

instance (m : MemMap) (f : ℕ) : Decidable (m.Offered f) := inferInstanceAs (Decidable (∃ i < m.count, _))

namespace Valid

theorem stride_eq (h : m.Valid) : m.stride = m.descSize.toNat := by
  have hs := h.stride
  rw [MemMap.stride, BitVec.toInt_eq_toNat_of_lt]
  · rw [BitVec.toNat_setWidth, Nat.mod_eq_of_lt (by omega)]
  · rw [BitVec.toNat_setWidth, Nat.mod_eq_of_lt (by omega)]
    omega

theorem nDesc_eq (h : m.Valid) : m.nDesc = .ok m.count := by
  have hz := h.size
  have hc := h.count
  have hd : BitVec.ofInt 64 m.stride = m.descSize := by
    rw [h.stride_eq, BitVec.ofInt_natCast, BitVec.ofNat_toNat, BitVec.setWidth_eq]
  have hne : m.descSize ≠ 0 := by
    intro he
    rw [he] at hz
    exact absurd hz (by decide)
  have hq : (m.mapSize / m.descSize).toNat = m.count := BitVec.toNat_udiv
  unfold nDesc
  simp only [hd]
  rw [if_neg hne, BitVec.toInt_eq_toNat_of_lt, BitVec.toNat_setWidth, hq, Nat.mod_eq_of_lt (by omega), Int.toNat_natCast]
  rw [BitVec.toNat_setWidth, hq]
  omega

theorem desc_eq (h : m.Valid) (i : ℕ) : m.desc i = m.entry i := by rw [desc, h.stride_eq, entry]

/-- `max_addr` is the end of a page and behind every descriptor. -/
theorem maxAddr_spec (h : m.Valid) : (m.maxAddr m.count).toNat % pgsize = 0 ∧
    ∀ i < m.count, (m.entry i).endAddr.toNat ≤ (m.maxAddr m.count).toNat := by
  refine foldl_range_inv
    (fun n (a : U64) => a.toNat % pgsize = 0 ∧ ∀ i < n, (m.entry i).endAddr.toNat ≤ a.toNat) ⟨rfl,nofun⟩ ?_
  rintro n a hn ⟨hal,hle⟩
  have hend : (m.entry n).endAddr.toNat % pgsize = 0 := by
    rw [(h.proper n hn).endAddr, Nat.add_mul_mod_self_right, (h.proper n hn).aligned]
  rw [h.desc_eq]
  split
  · rename_i hgt
    refine ⟨hal,fun i hi => ?_⟩
    rcases Nat.lt_succ_iff_lt_or_eq.mp hi with hi | rfl
    · exact hle i hi
    · exact Nat.le_of_lt hgt
  · rename_i hgt
    have hge : a.toNat ≤ (m.entry n).endAddr.toNat := Nat.not_lt.mp hgt
    refine ⟨hend,fun i hi => ?_⟩
    rcases Nat.lt_succ_iff_lt_or_eq.mp hi with hi | rfl
    · exact (hle i hi).trans hge
    · exact Nat.le_refl _

theorem offered_lt (h : m.Valid) {f : ℕ} (hf : m.Offered f) : f < (m.maxAddr m.count).toNat / pgsize := by
  obtain ⟨i,hi,-,-,hlt⟩ := hf
  have hle := h.maxAddr_spec.2 i hi
  rw [(h.proper i hi).endAddr] at hle
  have hal := h.maxAddr_spec.1
  simp only [pgsize] at hlt hle hal ⊢
  omega

theorem clear_spec (n : ℕ) (info : ℕ → PageInfo) :
    ∀ f < n, (List.range n).foldl (fun info i => Function.update info i (⟨0,0⟩ : PageInfo)) info f = ⟨0,0⟩ := by
  refine foldl_range_inv (fun n (info : ℕ → PageInfo) => ∀ f < n, info f = ⟨0,0⟩) nofun ?_
  intro n info hn hz f hf
  by_cases hfn : f = n
  · rw [hfn, Function.update_self]
  · rw [Function.update_of_ne hfn, hz f (by omega)]

/-- The second pass, over cleared entries: after `n` descriptors the pages of those have their address. -/
theorem offers_spec (h : m.Valid) {top : ℕ} (hz : ∀ f < top, info f = ⟨0,0⟩) :
    ∃ info', (List.range m.count).foldlM (fun info i => (m.desc i).offer info) info = .ok info' ∧
      ∀ f < top, info' f = ⟨if m.Offered f then f * pgsize else 0,0⟩ := by
  refine foldlM_range_total (fun n (info : ℕ → PageInfo) =>
    ∀ f < top, info f = ⟨if ∃ i < n, (m.entry i).Offers f then f * pgsize else 0,0⟩) ?_ ?_
  · intro f hf
    simp [hz f hf]
  · intro n info hn hi
    rw [h.desc_eq]
    refine ⟨_,(h.proper n hn).offer info,fun f hf => ?_⟩
    by_cases ho : (m.entry n).Offers f
    · rw [if_pos ho, if_pos ⟨n,Nat.lt_succ_self n,ho⟩, hi f hf]
    · rw [if_neg ho, hi f hf]
      congr 1
      refine if_congr ⟨fun ⟨i,hin,hio⟩ => ⟨i,by omega,hio⟩,fun ⟨i,hin,hio⟩ => ⟨i,?_,hio⟩⟩ rfl rfl
      have hne : i ≠ n := by
        rintro rfl
        exact ho hio
      omega

/-- Whatever the array held before, `init_kpageinfo` leaves the addresses of the offered pages in it. -/
theorem initKpageinfo_spec (h : m.Valid) (info : ℕ → PageInfo) :
    ∃ info', m.initKpageinfo info = .ok (m.maxAddr m.count,info') ∧
      ∀ f < (m.maxAddr m.count).toNat / pgsize, info' f = ⟨bootAddr (fun f => m.Offered f) f,0⟩ := by
  obtain ⟨top,htop⟩ : ∃ top, top = m.maxAddr m.count := ⟨_,rfl⟩
  have hal : top.toNat % pgsize = 0 := htop ▸ h.maxAddr_spec.1
  have hclear : MemMapDesc.turns 0 top = .ok (top.toNat / pgsize) := by
    apply MemMapDesc.turns_aligned
    rw [Nat.div_mul_cancel (Nat.dvd_of_mod_eq_zero hal)]
    exact (Nat.zero_add _).symm
  obtain ⟨info',hrun,hp⟩ := h.offers_spec (clear_spec (top.toNat / pgsize) info)
  unfold initKpageinfo
  rw [h.nDesc_eq, ok_bind]
  simp only [← htop]
  rw [hclear, ok_bind, hrun]
  refine ⟨info',rfl,fun f hf => ?_⟩
  rw [hp f hf]
  congr 1
  exact if_congr decide_eq_true_iff.symm rfl rfl

end Valid

/-- The free list holds the pages in `P`, in ascending order. -/
structure ListsInOrder (A : PageArray) (s : Pages) (P : ℕ → Prop) (l : List ℕ) : Prop where
  chain : Chain (A.next s) (A.entryOf s.freepages) l
  ascending : l.Pairwise (· < ·)
  mem : ∀ f, f ∈ l ↔ P f
  address : ∀ f ∈ l, (s.info f).paddr = f * pgsize
  count : s.nfreepages.toNat = l.length

end MemMap
open MemMap

theorem Listing.inOrder {s : Pages} {last : Option ℕ} {l : List ℕ} (hl : Listing A (fun f => m.Offered f) (s,last) l A.npages)
    (hend : 0 < A.endKmem) (hlt : ∀ f, m.Offered f → f < A.npages) :
    ListsInOrder A s (fun f => m.Offered f ∧ A.endKmem ≤ f * pgsize) l := by
  have haddr : ∀ f, A.endKmem ≤ bootAddr (fun f => m.Offered f) f ↔ m.Offered f ∧ A.endKmem ≤ f * pgsize := by
    intro f
    simp only [bootAddr,decide_eq_true_eq]
    split
    · rename_i ho
      exact (and_iff_right ho).symm
    · rename_i ho
      exact ⟨fun h => absurd h (by omega),fun h => absurd h.1 ho⟩
  refine ⟨hl.chain,?_,fun f => ?_,fun f hf => ?_,hl.count⟩
  · rw [hl.list]
    exact List.pairwise_lt_range.filter _
  · rw [hl.list, List.mem_filter, List.mem_range, decide_eq_true_iff, haddr]
    exact ⟨And.right,fun h => ⟨hlt f h.1,h⟩⟩
  · rw [hl.list, List.mem_filter, List.mem_range, decide_eq_true_iff, haddr] at hf
    have hp : (s.info f).paddr = bootAddr (fun f => m.Offered f) f := hl.paddr f hf.1
    rw [hp, bootAddr, if_pos (decide_eq_true hf.2.1)]

/-- One descriptor, of three pages from address `0x1000` on. -/
def threePagesList : Window := fun a => if a = 0 then 7 else if a = 9 then 0x10 else if a = 24 then 3 else 0

def threePages (descSize : U64) : MemMap where
  list := threePagesList
  mapSize := descSize
  descSize := descSize

theorem threePages_desc (descSize : U64) : (threePages descSize).descAt 0 = ⟨7,0x1000,3⟩ := by
  have htype : threePagesList.field 0 4 = 7 := by decide
  have hstart : threePagesList.field (0+8) 8 = 0x1000 := by decide
  have hnum : threePagesList.field (0+24) 8 = 3 := by decide
  simp only [descAt,threePages,htype,hstart,hnum]
  rfl

theorem threePages_entry {descSize : U64} (h : (threePages descSize).count = 1) :
    ∀ i < (threePages descSize).count, (threePages descSize).entry i = ⟨7,0x1000,3⟩ := by
  intro i hi
  rw [h, Nat.lt_one_iff] at hi
  rw [hi, entry, Int.natCast_zero, Int.zero_mul, threePages_desc]

theorem threePages_offered {descSize : U64} (h : (threePages descSize).count = 1) : (threePages descSize).Offered 2 :=
  ⟨0,by omega,by
    rw [threePages_entry h 0 (by omega)]
    decide⟩

theorem threePages_proper {descSize : U64} (h : (threePages descSize).count = 1) :
    ∀ i < (threePages descSize).count, ((threePages descSize).entry i).Proper := by
  intro i hi
  rw [threePages_entry h i hi]
  exact ⟨by decide,by decide⟩

/-- The array of `threePages`, with the kernel below the second of the pages. -/
def threePagesArray : PageArray where
  base := 2^63
  maxAddr := 0x4000
  endKmem := 0x1800
  upper := smallArray.upper
  fits := by decide

end Ukern
