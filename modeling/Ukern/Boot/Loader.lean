import Ukern.Kernel.Access
import Ukern.Kernel.Exec
import Ukern.Lib.Fold

/-! # The boot loader's `LoadELF64Image`

`gnu-efi/apps/ukernbl.c`. The firmware is the physical memory and the pages it has reserved for the loader;
whether `AllocatePages(AllocateAddress, ..)` gives out a page that it has not given out yet is up to `grants`,
which may look at what went before. `Read` returns the bytes asked for. An error ends in `while (1)`.
Addresses are `UINT64`, so the end of a segment can wrap around.
-/
namespace Ukern.Boot
open Lib

abbrev ElfFile := U64 → UInt8

/-- A little-endian field of `n` bytes. -/
def ElfFile.field (file : ElfFile) (pos : U64) (n : ℕ) : ℕ :=
  ofBytes ((List.range n).map fun i => file (pos + BitVec.ofNat 64 i))

/-- `Elf64_Phdr`, the members in use. -/
structure ProgHdr where
  type : ℕ
  offset : U64
  paddr : U64
  filesz : U64
  memsz : U64
  deriving DecidableEq

namespace ElfFile
variable (file : ElfFile)

def word (pos : U64) : U64 := BitVec.ofNat 64 (file.field pos 8)

/-- The test of `e_ident`, `e_type`, `e_machine` and `e_version`. -/
def formatOk : Bool :=
  file.field 0 4 == elfMagic && file 4 == 2 && file 5 == 1 && file.field 16 2 == 2 && file.field 18 2 == 62 &&
    file.field 20 4 == 1

def entry : U64 := file.word 24
def phoff : U64 := file.word 32
def phentsize : ℕ := file.field 54 2
def phnum : ℕ := file.field 56 2

/-- Program header `i`. -/
def progHdr (i : ℕ) : ProgHdr :=
  let pos := file.phoff + BitVec.ofNat 64 i * BitVec.ofNat 64 file.phentsize
  ⟨file.field pos 4,file.word (pos+8),file.word (pos+24),file.word (pos+32),file.word (pos+40)⟩

end ElfFile

/-- `EFI_PAGE_SIZE` -/
def efiPageSize : U64 := BitVec.ofNat 64 pgsize

structure Firmware where
  mem : ℕ → UInt8
  reserved : List ℕ

namespace Firmware

/-- `AllocatePages(AllocateAddress, EfiLoaderData, 1, &Addr)` -/
def allocatePage (grants : List ℕ → ℕ → Bool) (fw : Firmware) (addr : U64) : Option Firmware :=
  let page := addr.toNat / pgsize
  if page ∉ fw.reserved ∧ grants fw.reserved page then some { fw with reserved := fw.reserved ++ [page] } else none

/-- `Read` of `size` bytes at position `pos` to `addr`. -/
def read (file : ElfFile) (fw : Firmware) (pos addr : U64) (size : ℕ) : Firmware :=
  { fw with
    mem := fun x =>
      if addr.toNat ≤ x ∧ x < addr.toNat + size then file (pos + BitVec.ofNat 64 (x - addr.toNat)) else fw.mem x }

/-- The loops over `BSS`. -/
def zero (fw : Firmware) (beg fin : U64) : Firmware :=
  { fw with mem := fun x => if beg.toNat ≤ x ∧ x < fin.toNat then 0 else fw.mem x }

end Firmware

/-- Body of the first loop: a page or the rest of the file's part. With the position in the file. -/
def filePage (file : ElfFile) (fin addr : U64) (st : Firmware × U64) : Firmware × U64 :=
  if fin - addr ≥ efiPageSize then (st.1.read file st.2 addr pgsize,st.2 + efiPageSize)
  else
    let size := fin - addr
    ((st.1.read file st.2 addr size.toNat).zero (addr + size) (addr + efiPageSize),st.2 + size)

/-- Body of the second loop. -/
def bssPage (addr : U64) (st : Firmware × U64) : Firmware × U64 := (st.1.zero addr (addr + efiPageSize),st.2)

/-- `for (; Addr < fin; Addr += EFI_PAGE_SIZE)` around the allocation of the page and the rest of the body. -/
def eachPage (grants : List ℕ → ℕ → Bool) (fin : U64) (body : U64 → Firmware × U64 → Firmware × U64) :
    ℕ → Firmware × U64 → U64 → Except Fault ((Firmware × U64) × U64)
  | 0, _, _ => .error .hang
  | n+1, st, addr =>
    if addr < fin then
      match st.1.allocatePage grants addr with
      | none => .error .hang
      | some fw => eachPage grants fin body n (body addr (fw,st.2)) (addr + efiPageSize)
    else .ok (st,addr)

/-- The two loops for one segment share `Addr`. -/
def loadSegment (grants : List ℕ → ℕ → Bool) (file : ElfFile) (fuel : ℕ) (ph : ProgHdr) (fw : Firmware) :
    Except Fault Firmware := do
  let (st,addr) ← eachPage grants (ph.paddr + ph.filesz) (filePage file (ph.paddr + ph.filesz)) fuel (fw,ph.offset) ph.paddr
  let (st,_) ← eachPage grants (ph.paddr + ph.memsz) bssPage fuel st addr
  .ok st.1

/-- `LoadELF64Image`: the memory it leaves, and `*KernelEntry`. -/
def loadElf64Image (grants : List ℕ → ℕ → Bool) (file : ElfFile) (fuel : ℕ) (fw : Firmware) :
    Except Fault (Firmware × U64) :=
  if !file.formatOk then .error .hang
  else do
    let fw ← (List.range file.phnum).foldlM (fun fw i =>
      let ph := file.progHdr i
      if ph.type ≠ ptLoad then .ok fw else loadSegment grants file fuel ph fw) fw
    .ok (fw,file.entry)

variable {grants : List ℕ → ℕ → Bool} {file : ElfFile} {ph : ProgHdr} {fw fw' fw'' : Firmware} {a b c n : ℕ}
variable {img : ℕ → UInt8} {fin addr addr' : U64} {body : U64 → Firmware × U64 → Firmware × U64}

/-- The pages from `a` to `b` are newly reserved and filled from `img`, everything else is as before. -/
structure Placed (img : ℕ → UInt8) (fw fw' : Firmware) (a b : ℕ) : Prop where
  mem : ∀ x, fw'.mem x = if a ≤ x / pgsize ∧ x / pgsize < b then img x else fw.mem x
  reserved : ∀ p, p ∈ fw'.reserved ↔ p ∈ fw.reserved ∨ a ≤ p ∧ p < b
  fresh : ∀ p ∈ fw.reserved, ¬ (a ≤ p ∧ p < b)
  nodup : fw.reserved.Nodup → fw'.reserved.Nodup

namespace Placed

theorem refl (img : ℕ → UInt8) (fw : Firmware) (a : ℕ) : Placed img fw fw a a where
  mem x := (if_neg (by omega)).symm
  reserved p := ⟨Or.inl,fun h => h.elim id fun h => absurd h (by omega)⟩
  fresh p _ := by omega
  nodup := id

theorem trans (h : Placed img fw fw' a b) (h' : Placed img fw' fw'' b c) (hab : a ≤ b) (hbc : b ≤ c) :
    Placed img fw fw'' a c where
  mem x := by
    rw [h'.mem, h.mem]
    by_cases h1 : b ≤ x / pgsize ∧ x / pgsize < c
    · rw [if_pos h1, if_pos ⟨by omega,h1.2⟩]
    · rw [if_neg h1]
      exact if_congr (by omega) rfl rfl
  reserved p := by
    rw [h'.reserved, h.reserved]
    constructor
    · rintro ((hp | hp) | hp)
      · exact Or.inl hp
      · exact Or.inr (by omega)
      · exact Or.inr (by omega)
    · rintro (hp | hp)
      · exact Or.inl (Or.inl hp)
      · by_cases hb : p < b
        · exact Or.inl (Or.inr (by omega))
        · exact Or.inr (by omega)
  fresh p hp := by
    have h1 := h.fresh p hp
    have h2 := h'.fresh p ((h.reserved p).mpr (Or.inl hp))
    omega
  nodup hn := h'.nodup (h.nodup hn)

end Placed

theorem allocatePage_some (h : fw.allocatePage grants addr = some fw') :
    addr.toNat / pgsize ∉ fw.reserved ∧ fw' = { fw with reserved := fw.reserved ++ [addr.toNat / pgsize] } := by
  unfold Firmware.allocatePage at h
  simp only at h
  split at h
  · rename_i hp
    exact ⟨hp.1,(Option.some.inj h).symm⟩
  · cases h

/-- `body` fills page `a` and does nothing else. -/
structure Fills (img : ℕ → UInt8) (a : ℕ) (fw fw' : Firmware) : Prop where
  mem : ∀ x, fw'.mem x = if x / pgsize = a then img x else fw.mem x
  reserved : fw'.reserved = fw.reserved

theorem Fills.placed {fw₁ : Firmware} (haddr : addr.toNat = a * pgsize) (h : fw.allocatePage grants addr = some fw₁)
    (hf : Fills img a fw₁ fw') : Placed img fw fw' a (a+1) := by
  obtain ⟨hnew,rfl⟩ := allocatePage_some h
  have hpage : addr.toNat / pgsize = a := by rw [haddr, Nat.mul_div_cancel _ (by decide)]
  rw [hpage] at hnew hf
  refine ⟨fun x => ?_,fun p => ?_,fun p hp => ?_,fun hn => ?_⟩
  · rw [hf.mem]
    exact if_congr (by omega) rfl rfl
  · rw [hf.reserved, List.mem_append, List.mem_singleton]
    exact or_congr_right (by omega)
  · have hne : p ≠ a := fun he => hnew (he ▸ hp)
    omega
  · rw [hf.reserved]
    exact List.nodup_append.mpr ⟨hn,List.nodup_singleton a,fun p hp q hq => by
      rw [List.mem_singleton.mp hq]
      exact fun he => hnew (he ▸ hp)⟩

theorem next_page (haddr : addr.toNat = a * pgsize) (hlt : addr < fin) (hfin : fin.toNat ≤ 2^64 - pgsize) :
    (addr + efiPageSize).toNat = (a+1) * pgsize := by
  have hlt' : addr.toNat < fin.toNat := hlt
  rw [efiPageSize, BitVec.toNat_add, BitVec.toNat_ofNat]
  simp only [pgsize] at *
  omega

/-- What a loop leaves that has come to its end. `Q` follows the position in the file. -/
theorem eachPage_spec (img : ℕ → UInt8) (Q : ℕ → U64 → Prop) (start : ℕ) (hfin : fin.toNat ≤ 2^64 - pgsize)
    (hbody : ∀ a addr fw pos, start ≤ a → addr.toNat = a * pgsize → addr < fin → Q a pos →
      Fills img a fw (body addr (fw,pos)).1 ∧ Q (a+1) (body addr (fw,pos)).2)
    {st st' : Firmware × U64} (ha : start ≤ a) (haddr : addr.toNat = a * pgsize) (hQ : Q a st.2)
    (h : eachPage grants fin body n st addr = .ok (st',addr')) :
    ∃ b, addr'.toNat = b * pgsize ∧ b = max a ((fin.toNat + (pgsize - 1)) / pgsize) ∧ Placed img st.1 st'.1 a b := by
  induction n generalizing a addr st with
  | zero => cases h
  | succ n ih =>
    rw [eachPage] at h
    split at h
    · rename_i hlt
      split at h
      · cases h
      · rename_i fw hfw
        obtain ⟨hfill,hQ'⟩ := hbody a addr fw st.2 ha haddr hlt hQ
        obtain ⟨b,hb,hmax,hp⟩ := ih (by omega) (next_page haddr hlt hfin) hQ' h
        have hlt' : addr.toNat < fin.toNat := hlt
        refine ⟨b,hb,?_,(hfill.placed haddr hfw).trans hp (by omega) (by omega)⟩
        simp only [pgsize] at *
        omega
    · rename_i hge
      have hge' : fin.toNat ≤ addr.toNat := Nat.not_lt.mp hge
      cases h
      refine ⟨a,haddr,?_,.refl ..⟩
      simp only [pgsize] at *
      omega

/-- A loop whose bound lies in the last page does not come to an end: every address is below it. -/
theorem eachPage_last (hfin : 2^64 - pgsize < fin.toNat) (haddr : addr.toNat % pgsize = 0) {st : Firmware × U64}
    {r : (Firmware × U64) × U64} : eachPage grants fin body n st addr ≠ .ok r := by
  induction n generalizing addr st with
  | zero => nofun
  | succ n ih =>
    have hlt : addr < fin := by
      have := addr.isLt
      change addr.toNat < fin.toNat
      simp only [pgsize] at *
      omega
    rw [eachPage, if_pos hlt]
    split
    · nofun
    · apply ih
      rw [efiPageSize, BitVec.toNat_add, BitVec.toNat_ofNat]
      simp only [pgsize] at *
      omega

/-- So in a loop that has come to its end the bound lies in front of the last page. -/
theorem eachPage_bound (haddr : addr.toNat % pgsize = 0) {st : Firmware × U64} {r : (Firmware × U64) × U64}
    (h : eachPage grants fin body n st addr = .ok r) : fin.toNat ≤ 2^64 - pgsize :=
  Nat.not_lt.mp fun hfin => eachPage_last hfin haddr h

/-- The byte of the segment that belongs at address `x`. -/
def ProgHdr.image (ph : ProgHdr) (file : ElfFile) (x : ℕ) : UInt8 :=
  if x - ph.paddr.toNat < ph.filesz.toNat then file (ph.offset + BitVec.ofNat 64 (x - ph.paddr.toNat)) else 0

/-- An address of the segment that is below the end has not passed the wrap-around. -/
theorem end_of_lt {p s : U64} (hp : p.toNat ≤ addr.toNat) (hlt : addr < p + s) : (p + s).toNat = p.toNat + s.toNat := by
  have hlt' : addr.toNat < (p + s).toNat := hlt
  have := p.isLt
  have := s.isLt
  rw [BitVec.toNat_add] at *
  omega

/-- The first loop reads at the place of the page in the segment. -/
theorem filePage_fills {pos : U64} (hfin : (ph.paddr + ph.filesz).toNat ≤ 2^64 - pgsize) (hp : ph.paddr.toNat ≤ a * pgsize)
    (haddr : addr.toNat = a * pgsize) (hlt : addr < ph.paddr + ph.filesz)
    (hpos : pos = ph.offset + BitVec.ofNat 64 (a * pgsize - ph.paddr.toNat)) :
    Fills (ph.image file) a fw (filePage file (ph.paddr + ph.filesz) addr (fw,pos)).1 ∧
      ((a+1) * pgsize < (ph.paddr + ph.filesz).toNat → (filePage file (ph.paddr + ph.filesz) addr (fw,pos)).2 =
        ph.offset + BitVec.ofNat 64 ((a+1) * pgsize - ph.paddr.toNat)) := by
  have hend := end_of_lt (haddr ▸ hp) hlt
  have hlt' : addr.toNat < (ph.paddr + ph.filesz).toNat := hlt
  have hsub : (ph.paddr + ph.filesz - addr).toNat = (ph.paddr + ph.filesz).toNat - a * pgsize := by
    rw [BitVec.toNat_sub_of_le (Nat.le_of_lt hlt'), haddr]
  have hread : ∀ x, a * pgsize ≤ x → pos + BitVec.ofNat 64 (x - addr.toNat) =
      ph.offset + BitVec.ofNat 64 (x - ph.paddr.toNat) := by
    intro x hx
    rw [hpos, haddr, BitVec.add_assoc, ← BitVec.ofNat_add]
    congr 2
    omega
  have hnext : (addr + efiPageSize).toNat = (a+1) * pgsize := next_page haddr hlt hfin
  unfold filePage
  split
  · rename_i hge
    have hge' : pgsize ≤ (ph.paddr + ph.filesz).toNat - a * pgsize := hsub ▸ hge
    refine ⟨⟨fun x => ?_,rfl⟩,fun _ => ?_⟩
    · simp only [Firmware.read,ProgHdr.image,haddr]
      by_cases hx : x / pgsize = a
      · have hlo : a * pgsize ≤ x := hx ▸ Nat.div_mul_le_self x pgsize
        have hhi : x < a * pgsize + pgsize := by
          simp only [pgsize] at *
          omega
        rw [if_pos ⟨hlo,hhi⟩, if_pos hx, if_pos (by omega), ← haddr, hread x hlo]
      · rw [if_neg hx]
        apply if_neg
        simp only [pgsize] at *
        omega
    · have hstep : (a+1) * pgsize - ph.paddr.toNat = a * pgsize - ph.paddr.toNat + pgsize := by
        rw [Nat.add_mul]
        omega
      simp only [efiPageSize]
      rw [hpos, BitVec.add_assoc, ← BitVec.ofNat_add, hstep]
  · rename_i hge
    have hge' : (ph.paddr + ph.filesz).toNat - a * pgsize < pgsize := hsub ▸ Nat.not_le.mp hge
    have hstop : addr + (ph.paddr + ph.filesz - addr) = ph.paddr + ph.filesz := by
      rw [BitVec.add_comm, BitVec.sub_add_cancel]
    refine ⟨⟨fun x => ?_,rfl⟩,fun h => ?_⟩
    · simp only [Firmware.zero,Firmware.read,ProgHdr.image,hstop,hnext,hsub,haddr]
      by_cases hx : x / pgsize = a
      · have hlo : a * pgsize ≤ x := hx ▸ Nat.div_mul_le_self x pgsize
        rw [if_pos hx]
        by_cases hin : x < (ph.paddr + ph.filesz).toNat
        · rw [if_neg fun h => absurd h.1 (Nat.not_le.mpr hin), if_pos ⟨hlo,by omega⟩, if_pos (by omega), ← haddr,
            hread x hlo]
        · have hhi : x < (a+1) * pgsize := by
            simp only [pgsize] at *
            omega
          rw [if_pos ⟨Nat.not_lt.mp hin,hhi⟩, if_neg (by omega)]
      · rw [if_neg hx, if_neg, if_neg]
        · simp only [pgsize] at *
          omega
        · simp only [pgsize] at *
          omega
    · rw [Nat.add_mul] at h
      omega

theorem bssPage_fills {pos : U64} (hfin : fin.toNat ≤ 2^64 - pgsize) (haddr : addr.toNat = a * pgsize) (hlt : addr < fin)
    (hbss : ph.paddr.toNat + ph.filesz.toNat ≤ a * pgsize) :
    Fills (ph.image file) a fw (bssPage addr (fw,pos)).1 := by
  have hnext : (addr + efiPageSize).toNat = (a+1) * pgsize := next_page haddr hlt hfin
  refine ⟨fun x => ?_,rfl⟩
  simp only [bssPage,Firmware.zero,ProgHdr.image,haddr,hnext]
  by_cases hx : x / pgsize = a
  · have hlo : a * pgsize ≤ x := hx ▸ Nat.div_mul_le_self x pgsize
    have hhi : x < (a+1) * pgsize := by
      simp only [pgsize] at *
      omega
    rw [if_pos ⟨hlo,hhi⟩, if_pos hx, if_neg (by omega)]
  · rw [if_neg hx]
    apply if_neg
    simp only [pgsize] at *
    omega

/-- A segment that has been loaded: its pages up to `b`, none of which is the last page of the address space. -/
theorem loadSegment_spec {fuel : ℕ} (hal : ph.paddr.toNat % pgsize = 0) (hsz : ph.filesz.toNat ≤ ph.memsz.toNat)
    (h : loadSegment grants file fuel ph fw = .ok fw') :
    ∃ b, Placed (ph.image file) fw fw' (ph.paddr.toNat / pgsize) b ∧ b < 2^52 ∧
      (ph.paddr.toNat + ph.memsz.toNat ≤ 2^64 - pgsize → ph.paddr.toNat + ph.memsz.toNat ≤ b * pgsize) := by
  obtain ⟨a,ha⟩ : ∃ a, ph.paddr.toNat = a * pgsize :=
    ⟨ph.paddr.toNat / pgsize,(Nat.div_mul_cancel (Nat.dvd_of_mod_eq_zero hal)).symm⟩
  obtain ⟨⟨st₁,addr₁⟩,h₁,h⟩ := bind_eq_ok.mp h
  obtain ⟨⟨st₂,addr₂⟩,h₂,h⟩ := bind_eq_ok.mp h
  cases h
  have hfin₁ := eachPage_bound hal h₁
  obtain ⟨b₁,hb₁,hmax₁,hp₁⟩ := eachPage_spec (ph.image file)
    (fun a pos => a * pgsize < (ph.paddr + ph.filesz).toNat →
      pos = ph.offset + BitVec.ofNat 64 (a * pgsize - ph.paddr.toNat)) a hfin₁
    (fun a' addr fw pos hs haddr hlt hpos =>
      filePage_fills hfin₁ (by rw [ha]; exact Nat.mul_le_mul_right _ hs) haddr hlt (hpos (haddr ▸ hlt)))
    (Nat.le_refl a) ha (fun _ => by rw [ha, Nat.sub_self]; exact (BitVec.add_zero _).symm) h₁
  have hfin₂ := eachPage_bound (by rw [hb₁, Nat.mul_mod_left]) h₂
  have hbss : ∀ a' (addr : U64), b₁ ≤ a' → addr.toNat = a' * pgsize → addr < ph.paddr + ph.memsz →
      ph.paddr.toNat + ph.filesz.toNat ≤ a' * pgsize := by
    intro a' addr hs haddr hlt
    have hend := end_of_lt (by rw [haddr, ha]; exact Nat.mul_le_mul_right _ (by omega)) hlt
    have hmem := (ph.paddr + ph.memsz).isLt
    have hfile : (ph.paddr + ph.filesz).toNat = ph.paddr.toNat + ph.filesz.toNat := by
      rw [BitVec.toNat_add, Nat.mod_eq_of_lt (by omega)]
    simp only [pgsize] at *
    omega
  obtain ⟨b₂,-,hmax₂,hp₂⟩ := eachPage_spec (ph.image file) (fun _ _ => True) b₁ hfin₂
    (fun a' addr fw pos hs haddr hlt _ => ⟨bssPage_fills hfin₂ haddr hlt (hbss a' addr hs haddr hlt),trivial⟩)
    (Nat.le_refl b₁) hb₁ trivial h₂
  refine ⟨b₂,?_,?_,fun hfit => ?_⟩
  · rw [ha, Nat.mul_div_cancel _ (by decide)]
    exact hp₁.trans hp₂ (by omega) (by omega)
  · have := ph.paddr.isLt
    simp only [pgsize] at *
    omega
  · have hend : (ph.paddr + ph.memsz).toNat = ph.paddr.toNat + ph.memsz.toNat := by
      rw [BitVec.toNat_add, Nat.mod_eq_of_lt (by simp only [pgsize] at hfit; omega)]
    simp only [pgsize] at *
    omega

/-- The segment is in memory, and each of its pages was reserved once. -/
structure SegmentLoaded (file : ElfFile) (ph : ProgHdr) (fw : Firmware) : Prop where
  data : ∀ k < ph.filesz.toNat, fw.mem (ph.paddr.toNat + k) = file (ph.offset + BitVec.ofNat 64 k)
  bss : ∀ k, ph.filesz.toNat ≤ k → k < ph.memsz.toNat → fw.mem (ph.paddr.toNat + k) = 0
  once : ∀ k < ph.memsz.toNat, fw.reserved.count ((ph.paddr.toNat + k) / pgsize) = 1

/-- The kernel is loaded exactly. -/
structure Loaded (file : ElfFile) (fw : Firmware) (entry : U64) : Prop where
  segments : ∀ i < file.phnum, (file.progHdr i).type = ptLoad → SegmentLoaded file (file.progHdr i) fw
  entry : entry = file.entry

/-- No byte of the segment is in the last page of the address space. -/
def ProgHdr.Fits (ph : ProgHdr) : Prop := ph.memsz = 0 ∨ ph.paddr.toNat + ph.memsz.toNat ≤ 2^64 - pgsize

/-- The segment as the steps keep it. -/
def Holds (file : ElfFile) (ph : ProgHdr) (fw : Firmware) : Prop :=
  ∀ k < ph.memsz.toNat, fw.mem (ph.paddr.toNat + k) = ph.image file (ph.paddr.toNat + k) ∧
    (ph.paddr.toNat + k) / pgsize ∈ fw.reserved

theorem Holds.placed (h : Holds file ph fw) (hp : Placed img fw fw' a b) : Holds file ph fw' := by
  intro k hk
  obtain ⟨hmem,hres⟩ := h k hk
  refine ⟨?_,(hp.reserved _).mpr (Or.inl hres)⟩
  rw [hp.mem, if_neg (hp.fresh _ hres), hmem]

theorem Placed.holds (hp : Placed (ph.image file) fw fw' (ph.paddr.toNat / pgsize) b)
    (hb : ph.paddr.toNat + ph.memsz.toNat ≤ b * pgsize) : Holds file ph fw' := by
  intro k hk
  have hin : ph.paddr.toNat / pgsize ≤ (ph.paddr.toNat + k) / pgsize ∧ (ph.paddr.toNat + k) / pgsize < b :=
    ⟨Nat.div_le_div_right (by omega),(Nat.div_lt_iff_lt_mul (by decide)).mpr (by omega)⟩
  exact ⟨by rw [hp.mem, if_pos hin],(hp.reserved _).mpr (Or.inr hin)⟩

theorem Holds.loaded (h : Holds file ph fw) (hsz : ph.filesz.toNat ≤ ph.memsz.toNat) (hn : fw.reserved.Nodup) :
    SegmentLoaded file ph fw where
  data k hk := by
    rw [(h k (by omega)).1, ProgHdr.image, Nat.add_sub_cancel_left, if_pos hk]
  bss k hk hk' := by
    rw [(h k hk').1, ProgHdr.image, Nat.add_sub_cancel_left, if_neg (by omega)]
  once k hk := List.count_eq_one_of_mem hn (h k hk).2

/-- What the loop over the program headers has done after `n` of them. -/
structure LoadedUpTo (file : ElfFile) (n : ℕ) (fw : Firmware) : Prop where
  nodup : fw.reserved.Nodup
  last : ∀ p ∈ fw.reserved, p < 2^52 - 1
  holds : ∀ i < n, (file.progHdr i).type = ptLoad → (file.progHdr i).Fits → Holds file (file.progHdr i) fw

/-- A file as the loader expects it. -/
structure Regular (file : ElfFile) : Prop where
  aligned : ∀ i < file.phnum, (file.progHdr i).type = ptLoad → (file.progHdr i).paddr.toNat % pgsize = 0
  size : ∀ i < file.phnum, (file.progHdr i).type = ptLoad →
    (file.progHdr i).filesz.toNat ≤ (file.progHdr i).memsz.toNat

theorem LoadedUpTo.step {fuel : ℕ} (hfile : Regular file) (h : LoadedUpTo file n fw) (hn : n < file.phnum)
    (hrun : (if (file.progHdr n).type ≠ ptLoad then .ok fw else loadSegment grants file fuel (file.progHdr n) fw) = .ok fw') :
    LoadedUpTo file (n+1) fw' := by
  split at hrun
  · rename_i ht
    cases hrun
    refine ⟨h.nodup,h.last,fun i hi htype hfits => ?_⟩
    rcases Nat.lt_succ_iff_lt_or_eq.mp hi with hi | rfl
    · exact h.holds i hi htype hfits
    · exact absurd htype ht
  · rename_i ht
    have htype := not_not.mp ht
    obtain ⟨b,hp,hb,hall⟩ := loadSegment_spec (hfile.aligned n hn htype) (hfile.size n hn htype) hrun
    refine ⟨hp.nodup h.nodup,fun p hmem => ?_,fun i hi htype' hfits => ?_⟩
    · rcases (hp.reserved p).mp hmem with hold | hnew
      · exact h.last p hold
      · omega
    · rcases Nat.lt_succ_iff_lt_or_eq.mp hi with hi | rfl
      · exact (h.holds i hi htype' hfits).placed hp
      · rcases hfits with hzero | hfits
        · intro k hk
          rw [hzero] at hk
          exact absurd hk (Nat.not_lt_zero k)
        · exact hp.holds (hall hfits)

theorem loadElf64Image_spec {fuel : ℕ} {mem : ℕ → UInt8} {entry : U64} (hfile : Regular file)
    (h : loadElf64Image grants file fuel ⟨mem,[]⟩ = .ok (fw,entry)) :
    LoadedUpTo file file.phnum fw ∧ entry = file.entry := by
  unfold loadElf64Image at h
  split at h
  · cases h
  obtain ⟨fw',hrun,h⟩ := bind_eq_ok.mp h
  cases h
  refine ⟨foldlM_range_inv (LoadedUpTo file) ⟨List.nodup_nil,by simp,by simp⟩ ?_ hrun,rfl⟩
  intro i fw fw' hi hP hstep
  exact hP.step hfile hi hstep

theorem ProgHdr.not_fits (hal : ph.paddr.toNat % pgsize = 0) (h : ¬ ph.Fits) :
    ∃ k < ph.memsz.toNat, (ph.paddr.toNat + k) / pgsize = 2^52 - 1 := by
  obtain ⟨hne,hlt⟩ := not_or.mp h
  have hpos : 0 < ph.memsz.toNat := Nat.pos_of_ne_zero fun he => hne (BitVec.eq_of_toNat_eq he)
  have := ph.paddr.isLt
  refine ⟨2^64 - pgsize - ph.paddr.toNat,?_,?_⟩
  · simp only [pgsize] at *
    omega
  · simp only [pgsize] at *
    omega

theorem Loaded.fits (hl : LoadedUpTo file file.phnum fw) (hfile : Regular file) {entry : U64} (h : Loaded file fw entry) :
    ∀ i < file.phnum, (file.progHdr i).type = ptLoad → (file.progHdr i).Fits := by
  intro i hi htype
  by_contra hfits
  obtain ⟨k,hk,hpage⟩ := ProgHdr.not_fits (hfile.aligned i hi htype) hfits
  have hone := (h.segments i hi htype).once k hk
  rw [hpage] at hone
  have hmem : 2^52 - 1 ∈ fw.reserved := List.count_pos_iff.mp (by omega)
  exact absurd (hl.last _ hmem) (by omega)

/-- For every file, every firmware and every number of turns that let it return: the kernel is loaded exactly
if and only if no segment reaches into the last page of the address space. -/
theorem kernel_loaded_iff {fuel : ℕ} {mem : ℕ → UInt8} {entry : U64} (hfile : Regular file)
    (h : loadElf64Image grants file fuel ⟨mem,[]⟩ = .ok (fw,entry)) :
    Loaded file fw entry ↔ ∀ i < file.phnum, (file.progHdr i).type = ptLoad → (file.progHdr i).Fits := by
  obtain ⟨hl,hentry⟩ := loadElf64Image_spec hfile h
  constructor
  · intro hloaded
    exact hloaded.fits hl hfile
  · intro hfits
    refine ⟨fun i hi htype => ?_,hentry⟩
    exact (hl.holds i hi htype (hfits i hi htype)).loaded (hfile.size i hi htype) hl.nodup

/-- A file with one program header, which is for a segment that starts at the beginning of the file. -/
def oneSegment (paddr filesz memsz : ℕ) : ElfFile := fun pos =>
  ([0x7F,0x45,0x4C,0x46,2,1] ++ toBytes 0 10 ++ toBytes 2 2 ++ toBytes 62 2 ++ toBytes 1 4 ++ toBytes 0x100000 8 ++
    toBytes 64 8 ++ toBytes 0 12 ++ toBytes 64 2 ++ toBytes 56 2 ++ toBytes 1 2 ++ toBytes 0 6 ++ toBytes 1 4 ++
    toBytes 5 4 ++ toBytes 0 8 ++ toBytes 0 8 ++ toBytes paddr 8 ++ toBytes filesz 8 ++ toBytes memsz 8 ++
    toBytes 0x1000 8).getD pos.toNat 0

theorem regular_of_one (hnum : file.phnum = 1) (hhdr : file.progHdr 0 = ph) (hal : ph.paddr.toNat % pgsize = 0)
    (hsz : ph.filesz.toNat ≤ ph.memsz.toNat) : Regular file := by
  have hall : ∀ i < file.phnum, file.progHdr i = ph := by
    intro i hi
    rw [hnum, Nat.lt_one_iff] at hi
    rw [hi, hhdr]
  exact ⟨fun i hi _ => by rw [hall i hi]; exact hal,fun i hi _ => by rw [hall i hi]; exact hsz⟩

/-- A segment of two and a half pages, the last one and a half of which are zero. -/
theorem kernel_loaded_one_segment : ∃ fw entry,
    loadElf64Image (fun _ _ => true) (oneSegment 0x100000 0x1000 0x2800) 4 ⟨fun _ => 0xFF,[]⟩ = .ok (fw,entry) ∧
      Loaded (oneSegment 0x100000 0x1000 0x2800) fw entry := by
  have hhdr : (oneSegment 0x100000 0x1000 0x2800).progHdr 0 = ⟨ptLoad,0,0x100000,0x1000,0x2800⟩ := by decide +kernel
  have hnum : (oneSegment 0x100000 0x1000 0x2800).phnum = 1 := by decide +kernel
  have hfile := regular_of_one hnum hhdr (by decide) (by decide)
  obtain ⟨⟨fw,entry⟩,hrun⟩ : ∃ r, loadElf64Image (fun _ _ => true) (oneSegment 0x100000 0x1000 0x2800) 4
      ⟨fun _ => 0xFF,[]⟩ = .ok r := exists_ok (by decide +kernel)
  refine ⟨fw,entry,hrun,(kernel_loaded_iff hfile hrun).mpr fun i hi _ => ?_⟩
  rw [hnum, Nat.lt_one_iff] at hi
  rw [hi, hhdr]
  exact Or.inr (by decide)

/-- A segment that fills the last page ends at address 0, so neither loop takes a turn. -/
theorem last_page_not_loaded : Regular (oneSegment (2^64 - 0x1000) 0x1000 0x1000) ∧ ∃ fw entry,
    loadElf64Image (fun _ _ => true) (oneSegment (2^64 - 0x1000) 0x1000 0x1000) 1 ⟨fun _ => 0xFF,[]⟩ = .ok (fw,entry) ∧
      fw.reserved = [] ∧ ¬ Loaded (oneSegment (2^64 - 0x1000) 0x1000 0x1000) fw entry := by
  have hhdr : (oneSegment (2^64 - 0x1000) 0x1000 0x1000).progHdr 0 = ⟨ptLoad,0,-0x1000,0x1000,0x1000⟩ := by decide +kernel
  have hnum : (oneSegment (2^64 - 0x1000) 0x1000 0x1000).phnum = 1 := by decide +kernel
  have hfile := regular_of_one hnum hhdr (by decide) (by decide)
  obtain ⟨⟨fw,entry⟩,hrun⟩ : ∃ r, loadElf64Image (fun _ _ => true) (oneSegment (2^64 - 0x1000) 0x1000 0x1000) 1
      ⟨fun _ => 0xFF,[]⟩ = .ok r := exists_ok (by decide +kernel)
  refine ⟨hfile,fw,entry,hrun,?_,fun hloaded => ?_⟩
  · have hnone : (loadElf64Image (fun _ _ => true) (oneSegment (2^64 - 0x1000) 0x1000 0x1000) 1
        ⟨fun _ => 0xFF,[]⟩).toOption.map (fun r => r.1.reserved) = some [] := by decide +kernel
    rw [hrun] at hnone
    exact Option.some.inj hnone
  · have hfits := hloaded.fits (loadElf64Image_spec hfile hrun).1 hfile 0 (by omega) (by rw [hhdr])
    rw [hhdr] at hfits
    revert hfits
    unfold ProgHdr.Fits
    decide

end Ukern.Boot
