import Ukern.Kernel.Disk
import Ukern.Memory.Image
import Ukern.Memory.WalkMap

/-! # Disk windows, cluster addresses and the block cache

A sector of a disk below `2^32` has its own address in the disk's window, and a block its own page.
The cluster address is exact at both widths up to an offset of `2^31` sectors; behind it the `int`
expansion is sign-extended.
-/
namespace Ukern
open Lib Lib.Radix
variable {did s b : ℕ}

/-! ## Addresses -/

/-- Start of the window of a disk. -/
def window (did : ℕ) : ℕ := kdisk.toNat + did * 2^dskshift

def InWindow (did : ℕ) (a : U64) : Prop := window did ≤ a.toNat ∧ a.toNat < window (did+1)

/-- An offset below the size of a window does not meet the bits above it. -/
theorem window_or {x : U64} (hd : did < 32) (hx : x.toNat < 2^dskshift) :
    (kdisk ||| (BitVec.ofNat 64 did <<< dskshift) ||| x).toNat = window did + x.toNat := by
  have hshift : (BitVec.ofNat 64 did <<< dskshift).toNat = did * 2^41 := by
    rw [BitVec.toNat_shiftLeft, BitVec.toNat_ofNat, Nat.shiftLeft_eq, Nat.mod_eq_of_lt (a := did) (by omega)]
    exact Nat.mod_eq_of_lt (by change did * 2^41 < 2^64; omega)
  have hbase : kdisk.toNat ||| did * 2^41 = 2^41 * (32 * 262143 + did) := by
    rw [show kdisk.toNat = 2^46 * 262143 from rfl, ← Nat.two_pow_add_eq_or_of_lt (by omega)]
    omega
  rw [BitVec.toNat_or, BitVec.toNat_or, hshift, hbase, ← Nat.two_pow_add_eq_or_of_lt (i := 41) hx]
  change _ = 2^46 * 262143 + did * 2^41 + x.toNat
  omega

theorem lba2kaddr_toNat {lba : U64} (hd : did < 32) (hl : lba.toNat < 2^32) :
    (lba2kaddr did lba).toNat = window did + 512 * lba.toNat := by
  have hx : (lba <<< (12 - 3)).toNat = 512 * lba.toNat := by
    rw [BitVec.toNat_shiftLeft, Nat.shiftLeft_eq, Nat.mod_eq_of_lt (by omega)]
    omega
  rw [lba2kaddr, window_or hd (by rw [hx, dskshift]; omega), hx]

theorem blk2kaddr_toNat {blk : U64} (hd : did < 32) (hb : blk.toNat < 2^29) :
    (blk2kaddr did blk).toNat = window did + 4096 * blk.toNat := by
  have hx : (blk <<< 12).toNat = 4096 * blk.toNat := by
    rw [BitVec.toNat_shiftLeft, Nat.shiftLeft_eq, Nat.mod_eq_of_lt (by omega)]
    omega
  rw [blk2kaddr, window_or hd (by rw [hx, dskshift]; omega), hx]

theorem lba2kaddr_window {lba : U64} (hd : did < 32) (hl : lba.toNat < 2^32) : InWindow did (lba2kaddr did lba) := by
  rw [InWindow, lba2kaddr_toNat hd hl]
  simp only [window,dskshift]
  omega

/-! ## Clusters -/

namespace ClusterHeap
variable {h : ClusterHeap} {c : BitVec 32} {sectors : ℕ}

/-- First sector of a cluster. -/
def sector (h : ClusterHeap) (c : ℕ) : ℕ := h.lbaBeg.toNat + h.clusterHeapOffset.toNat + (c - 2) * 2^h.secPerClusShift

/-- The volume lies within a disk of that many sectors. -/
def Within (h : ClusterHeap) (sectors : ℕ) : Prop :=
  h.lbaBeg.toNat + h.clusterHeapOffset.toNat + h.clusterCount.toNat * 2^h.secPerClusShift ≤ sectors

def Valid (h : ClusterHeap) (c : BitVec 32) : Prop := 2 ≤ c.toNat ∧ c.toNat ≤ h.clusterCount.toNat + 1

instance : Decidable (h.Within sectors) := inferInstanceAs (Decidable (_ ≤ _))
instance : Decidable (h.Valid c) := inferInstanceAs (Decidable (_ ∧ _))

/-- Both expansions give the first sector of the cluster, at an address in the disk's window. -/
structure Exact (h : ClusterHeap) (did : ℕ) (c : BitVec 32) : Prop where
  scan : (h.clus2lba c).toNat = h.sector c.toNat
  file : (h.clus2lbaInt c).toNat = h.sector c.toNat
  scan_window : InWindow did (lba2kaddr did (h.clus2lba c))
  file_window : InWindow did (lba2kaddr did (h.clus2lbaInt c))

theorem sector_lt (hv : h.Within sectors) (hc : h.Valid c) : h.sector c.toNat < sectors := by
  have h1 : (c.toNat - 2) * 2^h.secPerClusShift < h.clusterCount.toNat * 2^h.secPerClusShift :=
    Nat.mul_lt_mul_of_pos_right (by have := hc.1; have := hc.2; omega) (Nat.two_pow_pos _)
  simp only [Within] at hv
  simp only [sector]
  omega

theorem shift_toNat (hv : h.Within sectors) (hs : sectors < 2^32) (hc : h.Valid c) :
    ((c - 2) <<< h.secPerClusShift).toNat = (c.toNat - 2) * 2^h.secPerClusShift := by
  have h1 := sector_lt hv hc
  have h2 : (c - 2).toNat = c.toNat - 2 := by
    have := hc.1
    rw [BitVec.toNat_sub, show (2 : BitVec 32).toNat = 2 from rfl]
    omega
  simp only [sector] at h1
  rw [BitVec.toNat_shiftLeft, h2, Nat.shiftLeft_eq, Nat.mod_eq_of_lt (by omega)]

theorem clus2lba_toNat (hv : h.Within sectors) (hs : sectors < 2^32) (hc : h.Valid c) :
    (h.clus2lba c).toNat = h.sector c.toNat := by
  have h1 := sector_lt hv hc
  simp only [sector] at h1 ⊢
  rw [clus2lba, BitVec.toNat_add, BitVec.toNat_add, BitVec.toNat_setWidth, BitVec.toNat_setWidth,
    shift_toNat hv hs hc]
  omega

/-- The sign extension adds `2^64 - 2^32` from an offset of `2^31` sectors on. -/
theorem clus2lbaInt_toNat (hv : h.Within sectors) (hs : sectors < 2^32) (hc : h.Valid c) :
    (h.clus2lbaInt c).toNat = h.sector c.toNat +
      if (c.toNat - 2) * 2^h.secPerClusShift < 2^31 then 0 else 2^64 - 2^32 := by
  have h1 := sector_lt hv hc
  simp only [sector] at h1 ⊢
  rw [clus2lbaInt, BitVec.toNat_add, BitVec.toNat_add, BitVec.toNat_setWidth, BitVec.toNat_signExtend,
    BitVec.toNat_setWidth, BitVec.msb_eq_decide, shift_toNat hv hs hc]
  by_cases hx : (c.toNat - 2) * 2^h.secPerClusShift < 2^31
  · rw [if_pos hx, decide_eq_false (by omega)]
    simp only [Bool.false_eq_true,↓reduceIte]
    omega
  · rw [if_neg hx, decide_eq_true (by omega)]
    simp only [↓reduceIte]
    omega

end ClusterHeap

/-- On a disk of fewer than `2^32` sectors a cluster is addressed exactly at both widths when it starts
less than `2^31` sectors into the heap, and only then. -/
theorem clus2lba_exact_iff (h : ClusterHeap) (sectors : ℕ) (c : BitVec 32) (did : ℕ) (hs : sectors < 2^32)
    (hv : h.Within sectors) (hc : h.Valid c) (hd : did < 32) :
    h.Exact did c ↔ (c.toNat - 2) * 2^h.secPerClusShift < 2^31 := by
  have hscan := ClusterHeap.clus2lba_toNat hv hs hc
  have hfile := ClusterHeap.clus2lbaInt_toNat hv hs hc
  have hlt := ClusterHeap.sector_lt hv hc
  constructor
  · intro he
    by_contra hx
    have h1 := he.file
    rw [hfile, if_neg hx] at h1
    omega
  · intro hx
    rw [if_pos hx, Nat.add_zero] at hfile
    exact ⟨hscan,hfile,lba2kaddr_window hd (by omega),lba2kaddr_window hd (by omega)⟩

/-- A volume of `2^31 + 8` clusters of one sector. -/
def bigHeap : ClusterHeap := ⟨2048,8192,BitVec.ofNat 32 (2^31 + 8),0⟩

/-- The cluster `2^31` sectors into the heap is read from before the start of the disk. -/
theorem clus2lba_sign_extended : bigHeap.Within (2^32 - 1) ∧ bigHeap.Valid (BitVec.ofNat 32 (2^31 + 2)) ∧
    (bigHeap.clus2lbaInt (BitVec.ofNat 32 (2^31 + 2))).toNat ≠ bigHeap.sector (2^31 + 2) ∧
    ¬ bigHeap.Exact 0 (BitVec.ofNat 32 (2^31 + 2)) := by
  have hne : (bigHeap.clus2lbaInt (BitVec.ofNat 32 (2^31 + 2))).toNat ≠ bigHeap.sector (2^31 + 2) := by decide +kernel
  exact ⟨by decide +kernel,by decide +kernel,hne,fun he => hne he.file⟩

/-- The first of 1000 clusters of 2 MB. -/
theorem clus2lba_exact_first : (⟨2048,8192,1000,12⟩ : ClusterHeap).Exact 0 2 :=
  (clus2lba_exact_iff ⟨2048,8192,1000,12⟩ (2^32 - 1) 2 0 (by decide) (by decide +kernel) (by decide +kernel)
    (by decide)).mpr (by decide +kernel)

/-! ## The block cache -/

section Cache
variable {m m' : Phys} {kp : ℕ}

/-- The page of `k_pgtbl` at which a block stands. -/
def blockKey (did b : ℕ) : ℕ := key 3 (blk2kaddr did (BitVec.ofNat 64 b)).toNat

theorem blockKey_eq (hd : did < 32) (hb : b < 2^29) : blockKey did b = 3 * 2^34 + did * 2^29 + b := by
  have hb' : (BitVec.ofNat 64 b).toNat = b := by
    rw [BitVec.toNat_ofNat]
    exact Nat.mod_eq_of_lt (by omega)
  rw [blockKey, key, blk2kaddr_toNat hd (by rw [hb']; exact hb), hb', window]
  change (2^46 * 262143 + did * 2^41 + 4096 * b) / 4096 % 512^4 = _
  omega

theorem blockKey_lt (did b : ℕ) : blockKey did b < 512 * 512^3 := key_lt 3 _

theorem key_lba2kaddr {lba : U64} (hd : did < 32) (hl : lba.toNat < 2^32) :
    key 3 (lba2kaddr did lba).toNat = blockKey did (lba.toNat / 8) := by
  rw [blockKey_eq hd (by omega), key, lba2kaddr_toNat hd hl, window]
  change (2^46 * 262143 + did * 2^41 + 512 * lba.toNat) / 4096 % 512^4 = _
  omega

/-- The block is in memory. -/
def BlockPresent (m : Phys) (kp did b : ℕ) : Prop := (entry m kp (blockKey did b)).p = true

/-- The disk windows below `k_pgtbl`: an entry is 0 or that of a cached block, whose page is not free. -/
structure BlockCache (m : Phys) (kp : ℕ) : Prop where
  table : Table m 512 kp
  nodup : m.free.Nodup
  free_ne : m.free ≠ []
  used : ∀ did < 32, ∀ b < 2^29, entry m kp (blockKey did b) ≠ .zero → BlockPresent m kp did b
  held : ∀ did < 32, ∀ b < 2^29, BlockPresent m kp did b → (entry m kp (blockKey did b)).frame ∉ m.free

/-- What a read of blocks may do: present blocks stay, with their entries and their bytes, and of the
others those in `new` become present. -/
structure Fetched (m m' : Phys) (kp did : ℕ) (new : ℕ → Prop) : Prop where
  cache : BlockCache m' kp
  kept : ∀ d < 32, ∀ b < 2^29, BlockPresent m kp d b → entry m' kp (blockKey d b) = entry m kp (blockKey d b) ∧
    m'.data (entry m kp (blockKey d b)).frame = m.data (entry m kp (blockKey d b)).frame
  present : ∀ b < 2^29, BlockPresent m' kp did b ↔ BlockPresent m kp did b ∨ new b

theorem Table.take {w t pg : ℕ} {z : Bool} (ht : Table m w t) (hg : getPage m z = .ok (pg,m')) :
    Same Pte.link 512 m.tbl m'.tbl 3 w t ∧ Table m' w t := by
  have hgr := grow_getPage hg
  have hsame : Same Pte.link 512 m.tbl m'.tbl 3 w t := same_of_pages fun x hx =>
    hgr.tbl x id fun hx' => hx (ht.fresh x (hgr.new_free hx'))
  exact ⟨hsame,fun x => by rw [hsame.pages]; exact ht.one x,
    fun x hx => by rw [hsame.pages]; exact ht.fresh x (hgr.mem_free hx)⟩

theorem sataReadBlock_entry (hc : BlockCache m kp) (h : sataReadBlock kp m (did,b) = .ok m') :
    ∃ e : Pte, (entry m kp (blockKey did b) = .zero → e.p = true ∧ e.frame ∈ m.free ∧ e.frame ∉ m'.free) ∧
      (entry m kp (blockKey did b) ≠ .zero → e = entry m kp (blockKey did b)) ∧
      (∀ n < 512 * 512^3, entry m' kp n = if n = blockKey did b then e else entry m kp n) ∧
      Table m' 512 kp ∧ ∃ new, m.free = new ++ m'.free ∧ m'.free ≠ [] ∧ ∀ x ∉ new, m'.data x = m.data x := by
  unfold sataReadBlock at h
  obtain ⟨⟨p,i,m₁⟩,hw,h⟩ := bind_eq_ok.mp h
  unfold walkSlot at hw
  obtain ⟨⟨r,m₂⟩,hr,hw⟩ := bind_eq_ok.mp hw
  obtain ⟨p',i',new,rfl,hslot,he,hg,hext⟩ := walkPgtbl_extend (w := 512) hr (Nat.mod_lt _ (by decide)) hc.table
    hc.nodup hc.free_ne
  cases hw
  -- the walk adds tables and changes no leaf
  have hx := hext (m₁.tbl p i)
  rw [Phys.setEntry_same, he] at hx
  change slotOf Pte.link 512 m₁.tbl 3 kp (blockKey did b) = some (p,i) at hslot
  change m₁.tbl p i = entry m kp (blockKey did b) at he
  have hsame : ∀ n < 512 * 512^3, entry m₁ kp n = entry m kp n := fun n hn => by
    rw [hx.entry_eq n hn]
    split
    · rename_i h'
      rw [h']
    · rfl
  have ht₁ := hx.table hc.table hc.nodup
  dsimp only at h
  split at h
  · rename_i hz
    obtain ⟨⟨pg,m₂⟩,hp,h⟩ := bind_eq_ok.mp h
    cases h
    have hgr := grow_getPage hp
    obtain ⟨hs,ht₂⟩ := ht₁.take hp
    have hslot₂ : slotOf Pte.link 512 m₂.tbl 3 kp (blockKey did b) = some (p,i) := by
      rw [hs.slotOf (by decide) (blockKey_lt did b), hslot]
    have hx₂ := Extended.of_slot (e := ⟨pg,pteP⟩) ht₂ hgr.free_ne (blockKey_lt did b) hslot₂
    refine ⟨⟨pg,pteP⟩,fun _ => ⟨Pte.p_kernel pg,hg.mem_free (hgr.new_free (by simp)),
      (hgr.nodup (hg.nodup hc.nodup).2.1).2.2 pg (by simp)⟩,fun hne => absurd (he.symm.trans hz) hne,fun n hn => ?_,
      hx₂.table ht₂ (hgr.nodup (hg.nodup hc.nodup).2.1).2.1,new ++ [pg],?_,hgr.free_ne,fun x hxn => ?_⟩
    · have hn₂ : entry m₂ kp n = entry m₁ kp n := hs.leafAt (by decide) hn
      rw [hx₂.entry_eq n hn, hn₂, hsame n hn]
    · rw [hg.free, hgr.free, List.append_assoc]
      rfl
    · simp only [List.mem_append,not_or] at hxn
      exact (hgr.data x hxn.2).trans (hg.data x hxn.1)
  · rename_i hz
    cases h
    exact ⟨entry m kp (blockKey did b),fun h0 => absurd (he.trans h0) hz,fun _ => rfl,hx.entry_eq,ht₁,new,hg.free,
      hg.free_ne,hg.data⟩

theorem blockKey_inj {d : ℕ} (hd : did < 32) (hb : b < 2^29) (hd' : d < 32) (hs : s < 2^29)
    (h : blockKey d s = blockKey did b) : d = did ∧ s = b := by
  rw [blockKey_eq hd hb, blockKey_eq hd' hs] at h
  omega

theorem sataReadBlock_fetched (hc : BlockCache m kp) (hd : did < 32) (hb : b < 2^29)
    (h : sataReadBlock kp m (did,b) = .ok m') : Fetched m m' kp did (· = b) := by
  obtain ⟨e,hzero,hused,hent,ht,new,hfree,hne,hdata⟩ := sataReadBlock_entry hc h
  have hent' : ∀ d b', entry m' kp (blockKey d b') =
      if blockKey d b' = blockKey did b then e else entry m kp (blockKey d b') := fun d b' => hent _ (blockKey_lt d b')
  have hp : e.p = true := by
    by_cases h0 : entry m kp (blockKey did b) = .zero
    · exact (hzero h0).1
    · rw [hused h0]
      exact hc.used did hd b hb h0
  have hsub : ∀ x ∈ m'.free, x ∈ m.free := fun x hx => by
    rw [hfree]
    exact List.mem_append_right _ hx
  -- an entry that was in use is not the one that is written, or is written back
  have hkeep : ∀ d b', (entry m kp (blockKey d b')).p = true → entry m' kp (blockKey d b') = entry m kp (blockKey d b') := by
    intro d b' hp'
    rw [hent']
    split
    · rename_i hk
      rw [hk] at hp' ⊢
      refine hused fun h0 => ?_
      rw [h0] at hp'
      cases hp'
    · rfl
  refine ⟨⟨ht,?_,hne,fun d hd' b' hb' hnz => ?_,fun d hd' b' hb' hp' => ?_⟩,fun d hd' b' hb' hp' => ⟨hkeep d b' hp',?_⟩,
    fun b' hb' => ?_⟩
  · have hnd := hc.nodup
    rw [hfree] at hnd
    exact (List.nodup_append.mp hnd).2.1
  · rw [BlockPresent, hent']
    rw [hent'] at hnz
    split
    · exact hp
    · rename_i hk
      rw [if_neg hk] at hnz
      exact hc.used d hd' b' hb' hnz
  · rw [BlockPresent, hent'] at hp'
    rw [hent']
    split
    · rename_i hk
      by_cases h0 : entry m kp (blockKey did b) = .zero
      · exact (hzero h0).2.2
      · rw [hused h0]
        exact fun hf => hc.held did hd b hb (hc.used did hd b hb h0) (hsub _ hf)
    · rename_i hk
      rw [if_neg hk] at hp'
      exact fun hf => hc.held d hd' b' hb' hp' (hsub _ hf)
  · apply hdata
    intro hn
    exact hc.held d hd' b' hb' hp' (by rw [hfree]; exact List.mem_append_left _ hn)
  · constructor
    · intro hp'
      by_cases hk : blockKey did b' = blockKey did b
      · exact Or.inr (blockKey_inj hd hb hd hb' hk).2
      · rw [BlockPresent, hent', if_neg hk] at hp'
        exact Or.inl hp'
    · rintro (hp' | rfl)
      · rw [BlockPresent, hkeep did b' hp']
        exact hp'
      · rw [BlockPresent, hent', if_pos rfl]
        exact hp

theorem Fetched.refl (hc : BlockCache m kp) : Fetched m m kp did fun _ => False :=
  ⟨hc,fun _ _ _ _ _ => ⟨rfl,rfl⟩,fun _ _ => by simp⟩

theorem Fetched.trans {m₁ : Phys} {new new' : ℕ → Prop} (h : Fetched m m₁ kp did new)
    (h' : Fetched m₁ m' kp did new') : Fetched m m' kp did fun b => new b ∨ new' b where
  cache := h'.cache
  kept d hd b hb hp := by
    obtain ⟨he,hdata⟩ := h.kept d hd b hb hp
    have hp₁ : BlockPresent m₁ kp d b := by
      rw [BlockPresent, he]
      exact hp
    obtain ⟨he',hdata'⟩ := h'.kept d hd b hb hp₁
    rw [he] at he' hdata'
    exact ⟨he',hdata'.trans hdata⟩
  present b hb := by rw [h'.present b hb, h.present b hb, or_assoc]

/-! ## `disk_read` -/

/-- The test of the loop is whether the block of the sector is present. -/
theorem walk_present {r : Walk} {v : ℕ} (hw : walkPgtbl m kp v false = .ok (r,m')) :
    m = m' ∧ (r.present m' = true ↔ (entry m kp (key 3 v)).p = true) := by
  obtain ⟨rfl,rfl⟩ := walkFrom_read hw
  refine ⟨rfl,?_⟩
  rw [entry, leafAt_eq_slot]
  cases slotOf Pte.link 512 m.tbl 3 kp (key 3 v) with
  | none => simp [Walk.present]
  | some s => rfl

theorem Fetched.congr {new new' : ℕ → Prop} (h : Fetched m m' kp did new) (hn : ∀ b, new b ↔ new' b) :
    Fetched m m' kp did new' :=
  { h with present := fun b hb => by rw [h.present b hb, hn] }

/-- The loop reads blocks up to the first one that is present, and then stays there. -/
theorem diskReadLoop_fetched {n : ℕ} {lba : U64} (hc : BlockCache m kp) (hd : did < 32)
    (hrange : lba.toNat / 8 + n ≤ 2^29) (h : diskReadLoop kp did n lba m = .ok m') :
    ∃ j ≤ n, (∀ i < j, ¬ BlockPresent m kp did (lba.toNat / 8 + i)) ∧
      (j < n → BlockPresent m kp did (lba.toNat / 8 + j)) ∧
      Fetched m m' kp did fun b => lba.toNat / 8 ≤ b ∧ b < lba.toNat / 8 + j := by
  induction n generalizing lba m with
  | zero =>
    cases h
    exact ⟨0,le_rfl,by omega,by omega,(Fetched.refl hc).congr fun b => ⟨False.elim,by omega⟩⟩
  | succ n ih =>
    rw [diskReadLoop] at h
    obtain ⟨⟨r,m₁⟩,hw,h⟩ := bind_eq_ok.mp h
    obtain ⟨rfl,hp⟩ := walk_present hw
    rw [key_lba2kaddr hd (by omega)] at hp
    dsimp only at h
    split at h
    · -- the rest of the rounds look at the same block
      rename_i hr
      have hhere : BlockPresent m kp did (lba.toNat / 8) := hp.mp hr
      obtain ⟨j,-,habs,-,hf⟩ := ih hc (by omega) h
      obtain rfl : j = 0 := by
        by_contra hj
        exact habs 0 (by omega) hhere
      exact ⟨0,by omega,by omega,fun _ => hhere,hf⟩
    · rename_i hr
      obtain ⟨m₂,hs,h⟩ := bind_eq_ok.mp h
      have hblk : (lba / 8).toNat = lba.toNat / 8 := BitVec.toNat_udiv
      have hnext : (lba + 8).toNat / 8 = lba.toNat / 8 + 1 := by
        rw [BitVec.toNat_add, show (8 : U64).toNat = 8 from rfl]
        omega
      rw [hblk] at hs
      have hf₁ := sataReadBlock_fetched hc hd (by omega) hs
      obtain ⟨j,hj,habs,hstop,hf⟩ := ih hf₁.cache (by omega) h
      rw [hnext] at habs hstop hf
      refine ⟨j+1,by omega,fun i hi => ?_,fun hlt => ?_,(hf₁.trans hf).congr fun b => by omega⟩
      · obtain _ | i := i
        · exact fun hpr => hr (hp.mpr hpr)
        · intro hpr
          refine habs i (by omega) ((hf₁.present _ (by omega)).mpr (Or.inl ?_))
          rwa [show lba.toNat / 8 + 1 + i = lba.toNat / 8 + (i + 1) by omega]
      · have hpr := (hf₁.present _ (by omega)).mp (hstop (by omega))
        rw [show lba.toNat / 8 + (j + 1) = lba.toNat / 8 + 1 + j by omega]
        exact hpr.resolve_right (by omega)

theorem rounds_eq {n : ℕ} (hn : 1 ≤ n) : (((n : ℤ) - 1).tdiv 8 + 1).toNat = (n - 1) / 8 + 1 := by
  rw [Int.tdiv_eq_ediv_of_nonneg (by omega)]
  omega

/-- The blocks of the range are present. -/
def Resident (m : Phys) (kp did lba nSec : ℕ) : Prop :=
  ∀ s, lba ≤ s → s < lba + nSec → (lookup m kp (lba2kaddr did (BitVec.ofNat 64 s)).toNat).p = true

/-- After a read of a range it is in memory, and the blocks in memory before are as they were. -/
structure ReadsRange (m m' : Phys) (kp did lba nSec : ℕ) : Prop where
  resident : Resident m' kp did lba nSec
  kept : ∀ d < 32, ∀ b < 2^29, BlockPresent m kp d b → entry m' kp (blockKey d b) = entry m kp (blockKey d b) ∧
    m'.data (entry m kp (blockKey d b)).frame = m.data (entry m kp (blockKey d b)).frame

/-- Every block of the range was present, or stands with absent blocks only in front of it in the part
that the loop counts. -/
def LoopReaches (m : Phys) (kp did lba nSec : ℕ) : Prop :=
  ∀ b, lba / 8 ≤ b → b ≤ (lba + nSec - 1) / 8 → BlockPresent m kp did b ∨
    (b < lba / 8 + ((nSec - 1) / 8 + 1) ∧ ∀ b', lba / 8 ≤ b' → b' ≤ b → ¬ BlockPresent m kp did b')

theorem resident_iff (hd : did < 32) {lba nSec : ℕ} (hsec : 1 ≤ nSec) (hrange : lba + nSec ≤ 2^32) :
    Resident m kp did lba nSec ↔ ∀ b, lba / 8 ≤ b → b ≤ (lba + nSec - 1) / 8 → BlockPresent m kp did b := by
  have haddr : ∀ s < 2^32, (lookup m kp (lba2kaddr did (BitVec.ofNat 64 s)).toNat).p = true ↔
      BlockPresent m kp did (s / 8) := fun s hs => by
    have hs' : (BitVec.ofNat 64 s).toNat = s := by
      rw [BitVec.toNat_ofNat]
      exact Nat.mod_eq_of_lt (by omega)
    rw [lookup, key_lba2kaddr hd (by rw [hs']; exact hs), hs']
    rfl
  constructor
  · intro h b hb hb'
    have h1 := (haddr (max lba (8 * b)) (by omega)).mp (h _ (by omega) (by omega))
    rwa [show max lba (8 * b) / 8 = b by omega] at h1
  · intro h s hs hs'
    exact (haddr s (by omega)).mpr (h _ (by omega) (by omega))

theorem diskReadSectors_fetched {nDisk nSec : ℕ} {disk : ℕ → DriverType} {lba : U64} (hc : BlockCache m kp)
    (hd : did < 32) (hsec : 1 ≤ nSec) (hrange : lba.toNat + nSec ≤ 2^32)
    (h : diskReadSectors kp nDisk disk m did lba nSec = .ok (0,m')) :
    BlockCache m' kp ∧ (ReadsRange m m' kp did lba.toNat nSec ↔ LoopReaches m kp did lba.toNat nSec) := by
  unfold diskReadSectors at h
  split at h
  · cases h
  split at h
  · obtain ⟨m₁,hl,h⟩ := bind_eq_ok.mp h
    cases h
    rw [rounds_eq hsec] at hl
    obtain ⟨j,hj,habs,hstop,hf⟩ := diskReadLoop_fetched hc hd (by omega) hl
    refine ⟨hf.cache,?_⟩
    have hnew : ∀ b, lba.toNat / 8 ≤ b → (b < lba.toNat / 8 + j ↔ b < lba.toNat / 8 + ((nSec - 1) / 8 + 1) ∧
        ∀ b', lba.toNat / 8 ≤ b' → b' ≤ b → ¬ BlockPresent m kp did b') := by
      intro b hb
      constructor
      · intro hlt
        refine ⟨by omega,fun b' h1 h2 => ?_⟩
        have h3 := habs (b' - lba.toNat / 8) (by omega)
        rwa [show lba.toNat / 8 + (b' - lba.toNat / 8) = b' by omega] at h3
      · rintro ⟨hlt,hall⟩
        by_contra hge
        exact hall _ (by omega) (by omega) (hstop (by omega))
    have hres : Resident m' kp did lba.toNat nSec ↔ LoopReaches m kp did lba.toNat nSec := by
      rw [resident_iff hd hsec hrange]
      refine forall_congr' fun b => ⟨fun h hb hb' => ?_,fun h hb hb' => ?_⟩
      · rw [← hnew b hb]
        exact ((hf.present b (by omega)).mp (h hb hb')).imp id And.right
      · rw [hf.present b (by omega)]
        exact (h hb hb').imp id fun h1 => ⟨hb,(hnew b hb).mpr h1⟩
    exact ⟨fun hr => hres.mp hr.resident,fun hr => ⟨hres.mpr hr,hf.kept⟩⟩
  · cases h

/-- A read that returns 0 has brought its range into memory if every block of the range was there, or is
counted by the loop and has no cached block of the range in front of it; and only then. -/
theorem disk_read_resident_iff (m m' : Phys) (kp nDisk did nSec : ℕ) (disk : ℕ → DriverType) (lba : U64)
    (hc : BlockCache m kp) (hd : did < 32) (hsec : 1 ≤ nSec) (hrange : lba.toNat + nSec ≤ 2^32)
    (h : diskReadSectors kp nDisk disk m did lba nSec = .ok (0,m')) :
    ReadsRange m m' kp did lba.toNat nSec ↔ LoopReaches m kp did lba.toNat nSec :=
  (diskReadSectors_fetched hc hd hsec hrange h).2

theorem bareTable_empty (n : ℕ) : entry bareTable 1 n = .zero :=
  leafAt_of_empty (fun l _ => Pte.link_zero l) fun _ => rfl

theorem bareTable_cache : BlockCache bareTable 1 where
  table := bareTable_table
  nodup := by decide
  free_ne := by decide
  used did _ b _ hne := absurd (bareTable_empty _) hne
  held did _ b _ hp := by
    rw [BlockPresent, bareTable_empty] at hp
    cases hp

/-- `disk_read` on the only disk. -/
def readDisk (m : Phys) (lba : U64) (nSec : ℕ) : Except Fault (ℤ × Phys) :=
  diskReadSectors 1 1 (fun _ => .sata) m 0 lba nSec

/-- With its first block in memory, a read of two blocks returns 0 without the second. -/
theorem disk_read_stuck : ∃ m₁ m₂, readDisk bareTable 0 8 = .ok (0,m₁) ∧ BlockCache m₁ 1 ∧
    readDisk m₁ 0 16 = .ok (0,m₂) ∧ ¬ Resident m₂ 1 0 0 16 := by
  have hrun : ((readDisk bareTable 0 8).toOption.bind fun r => (readDisk r.2 0 16).toOption.map fun r₂ =>
      (r.1,r₂.1,(lookup r₂.2 1 (lba2kaddr 0 8).toNat).p)) = some (0,0,false) := by decide +kernel
  obtain ⟨⟨r,m₁⟩,h₁,hrun⟩ := Option.bind_eq_some_iff.mp hrun
  obtain ⟨⟨r₂,m₂⟩,h₂,hrun⟩ := Option.map_eq_some_iff.mp hrun
  simp only [Prod.mk.injEq] at hrun
  obtain ⟨rfl,rfl,habs⟩ := hrun
  have h₁ := eq_ok_of_toOption h₁
  refine ⟨m₁,m₂,h₁,(diskReadSectors_fetched bareTable_cache (by decide) (by decide) (by decide) h₁).1,
    eq_ok_of_toOption h₂,fun hr => ?_⟩
  rw [show (lookup m₂ 1 (lba2kaddr 0 8).toNat).p = true from hr 8 (by decide) (by decide)] at habs
  cases habs

/-- A read of one aligned block into an empty cache. -/
theorem disk_read_resident_cold : ∃ m', readDisk bareTable 0 8 = .ok (0,m') ∧ ReadsRange bareTable m' 1 0 0 8 := by
  have hrun : (readDisk bareTable 0 8).toOption.map Prod.fst = some 0 := by decide +kernel
  obtain ⟨⟨r,m'⟩,h,rfl⟩ := Option.map_eq_some_iff.mp hrun
  have h := eq_ok_of_toOption h
  refine ⟨m',h,(disk_read_resident_iff bareTable m' 1 1 0 8 _ 0 bareTable_cache (by decide) (by decide) (by decide)
    h).mpr fun b _ hb => Or.inr ⟨by simp at hb ⊢; omega,fun b' _ _ hp => ?_⟩⟩
  rw [BlockPresent, bareTable_empty] at hp
  cases hp

end Cache

end Ukern
