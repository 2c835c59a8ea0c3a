import Ukern.Kernel.Exfat
import Ukern.Lib.Fold
import Mathlib.Data.List.GetD

/-! # Reading a regular file

The copy loop of `exfat_read_file` goes to the next cluster only behind a chunk as long as a cluster.
A read that starts inside a cluster ends its first chunk with a shorter one, so behind it the file is
read one cluster too early.
-/
namespace Ukern
open Lib
variable {v : Volume} {useFat : ℕ}

/-- A regular file: its clusters, whether they are linked in the FAT, and its bytes. -/
structure DiskFile where
  clusters : List ℕ
  useFat : ℕ
  bytes : List UInt8

namespace DiskFile
variable {d : DiskFile} {j : ℕ}

def cluster (d : DiskFile) (j : ℕ) : ℕ := d.clusters.getD j 0

/-- The volume holds the file: valid clusters in a chain or in a row, and its bytes in them. -/
structure OnDisk (d : DiskFile) (v : Volume) : Prop where
  valid : ∀ j < d.clusters.length, 2 ≤ d.cluster j ∧ d.cluster j ≤ 0xFFFFFFF6
  link : ∀ j, j + 1 < d.clusters.length → v.after d.useFat (d.cluster j) = d.cluster (j+1)
  fits : d.bytes.length ≤ v.clusSize * d.clusters.length
  short : d.bytes.length < 2^64
  byte : ∀ i (h : i < d.bytes.length), v.clus (d.cluster (i / v.clusSize)) (i % v.clusSize) = d.bytes[i]

/-- A descriptor of the file, with the read pointer inside it or at its end. -/
structure Descriptor (d : DiskFile) (f : FileDesc) : Prop where
  head : f.headCluster = d.cluster 0
  useFat : f.useFat = d.useFat
  fileLen : f.fileLen = d.bytes.length
  readPtr : f.readPtr ≤ d.bytes.length

end DiskFile

theorem Volume.clusSize_pos (v : Volume) : 0 < v.clusSize := Nat.two_pow_pos _

/-- Byte `x` of the clusters of a file. -/
def DiskFile.byteOn (d : DiskFile) (v : Volume) (x : ℕ) : UInt8 :=
  v.clus (d.cluster (x / v.clusSize)) (x % v.clusSize)

/-- The place in the file that byte `k` of a read from `s` on is taken from: behind a first chunk that
does not start a cluster, one cluster too early. -/
def readPos (size s k : ℕ) : ℕ := if s % size = 0 ∨ s % size + k < size then s + k else s + k - size

theorem copyOut_nothing {fuel ptr c : ℕ} {dst : List UInt8} : v.copyOut useFat fuel 0 ptr c dst = .ok dst := by
  cases fuel with
  | zero => rw [Volume.copyOut, if_pos rfl]
  | succ fuel => rw [Volume.copyOut, if_pos rfl]

namespace DiskFile.OnDisk
variable {d : DiskFile}

theorem seek (h : d.OnDisk v) {n ptr j : ℕ} (hn : ptr ≤ n) (hj : j + ptr / v.clusSize < d.clusters.length) :
    v.seek d.useFat n ptr (d.cluster j) = (ptr % v.clusSize,d.cluster (j + ptr / v.clusSize)) := by
  have hpos := v.clusSize_pos
  induction n generalizing ptr j with
  | zero =>
    obtain rfl : ptr = 0 := Nat.le_zero.mp hn
    rw [Volume.seek, Nat.zero_mod, Nat.zero_div, Nat.add_zero]
  | succ n ih =>
    rw [Volume.seek]
    by_cases hle : v.clusSize ≤ ptr
    · have hdiv : ptr / v.clusSize = (ptr - v.clusSize) / v.clusSize + 1 := Nat.div_eq_sub_div hpos hle
      rw [hdiv, Nat.add_comm _ 1, ← Nat.add_assoc] at hj ⊢
      rw [if_pos hle, h.link j (Nat.lt_of_le_of_lt (Nat.le_add_right _ _) hj), ih (by omega) hj,
        ← Nat.mod_eq_sub_mod hle]
    · rw [if_neg hle, Nat.mod_eq_of_lt (Nat.lt_of_not_le hle), Nat.div_eq_of_lt (Nat.lt_of_not_le hle),
        Nat.add_zero]

theorem chunk {j ptr n : ℕ} (hn : ptr + n ≤ v.clusSize) :
    (List.range n).map (fun i => v.clus (d.cluster j) (ptr + i)) =
      (List.range n).map fun i => d.byteOn v (v.clusSize * j + ptr + i) := by
  refine List.map_congr_left fun i hi => ?_
  have hlt : ptr + i < v.clusSize := by
    have := List.mem_range.mp hi
    omega
  rw [byteOn, Nat.add_assoc, Nat.mul_add_div v.clusSize_pos, Nat.div_eq_of_lt hlt, Nat.add_zero,
    Nat.mul_add_mod, Nat.mod_eq_of_lt hlt]

/-- From the start of a cluster the copy loop takes the file in order. -/
theorem copyOut_aligned (h : d.OnDisk v) {fuel sz j : ℕ} {dst : List UInt8} (hf : sz ≤ fuel)
    (hj : v.clusSize * j + sz ≤ v.clusSize * d.clusters.length) :
    v.copyOut d.useFat fuel sz 0 (d.cluster j) dst =
      .ok (dst ++ (List.range sz).map fun k => d.byteOn v (v.clusSize * j + k)) := by
  have hpos := v.clusSize_pos
  induction fuel generalizing sz j dst with
  | zero =>
    obtain rfl : sz = 0 := Nat.le_zero.mp hf
    rw [copyOut_nothing, List.range_zero, List.map_nil, List.append_nil]
  | succ fuel ih =>
    by_cases hz : sz = 0
    · rw [hz, copyOut_nothing, List.range_zero, List.map_nil, List.append_nil]
    rw [Volume.copyOut, if_neg hz]
    dsimp only
    rw [Nat.sub_zero, chunk (by omega), Nat.add_zero]
    by_cases hle : v.clusSize ≤ sz
    · obtain ⟨t,rfl⟩ := Nat.exists_eq_add_of_le hle
      rw [Nat.min_eq_right hle, if_pos le_rfl, Nat.add_sub_cancel_left, List.range_add, List.map_append,
        List.map_map, ← List.append_assoc]
      rcases Nat.eq_zero_or_pos t with rfl | ht
      · rw [copyOut_nothing, List.range_zero, List.map_nil, List.append_nil]
      · have hnext : v.clusSize * j + v.clusSize = v.clusSize * (j+1) := (Nat.mul_succ _ _).symm
        have hlt : j + 1 < d.clusters.length := by
          refine Nat.lt_of_mul_lt_mul_left (a := v.clusSize) ?_
          omega
        rw [h.link j hlt, ih (by omega) (by omega)]
        congr 2
        refine List.map_congr_left fun k _ => ?_
        rw [Function.comp_apply, ← Nat.add_assoc, hnext]
    · rw [Nat.min_eq_left (by omega), Nat.sub_self, copyOut_nothing]

/-- From inside a cluster it stays there behind the first chunk. -/
theorem copyOut (h : d.OnDisk v) {sz j ptr : ℕ} (hptr : ptr < v.clusSize)
    (hj : v.clusSize * j + ptr + sz ≤ v.clusSize * d.clusters.length) :
    v.copyOut d.useFat sz sz ptr (d.cluster j) [] =
      .ok ((List.range sz).map fun k => d.byteOn v (readPos v.clusSize (v.clusSize * j + ptr) k)) := by
  have hmod : (v.clusSize * j + ptr) % v.clusSize = ptr := by rw [Nat.mul_add_mod, Nat.mod_eq_of_lt hptr]
  unfold readPos
  rw [hmod]
  rcases Nat.eq_zero_or_pos ptr with rfl | hp
  · rw [copyOut_aligned h le_rfl (by omega), List.nil_append]
    simp only [true_or,if_true,Nat.add_zero]
  rcases sz with - | sz
  · rw [copyOut_nothing, List.range_zero, List.map_nil]
  rw [Volume.copyOut, if_neg (Nat.succ_ne_zero sz)]
  dsimp only
  rw [chunk (by omega), List.nil_append, if_neg (by omega)]
  generalize hn : min (sz + 1) (v.clusSize - ptr) = n
  obtain ⟨t,ht⟩ : ∃ t, sz + 1 = n + t := Nat.exists_eq_add_of_le (by omega)
  rw [ht, Nat.add_sub_cancel_left, copyOut_aligned h (by omega) (by omega), List.range_add, List.map_append,
    List.map_map]
  refine congrArg Except.ok (congrArg₂ _ (List.map_congr_left fun k hk => ?_) (List.map_congr_left fun k hk => ?_))
  · have := List.mem_range.mp hk
    rw [if_pos (.inr (by omega))]
  · have := List.mem_range.mp hk
    rw [Function.comp_apply, if_neg (by omega)]
    congr 1
    omega

theorem byteOn (h : d.OnDisk v) {x : ℕ} (hx : x < d.bytes.length) : d.byteOn v x = d.bytes.getD x 0 := by
  rw [DiskFile.byteOn, h.byte x hx, List.getD_eq_getElem _ _ hx]

end DiskFile.OnDisk

theorem readPos_le {size s k : ℕ} : readPos size s k ≤ s + k := by
  unfold readPos
  split
  · exact le_rfl
  · exact Nat.sub_le _ _

namespace DiskFile
variable {d : DiskFile} {f : FileDesc}

/-- What a read of `sz` bytes at `p` has to deliver. -/
def readable (d : DiskFile) (p sz : ℕ) : ℕ := min (sz % 2^32) (d.bytes.length - p)

theorem Descriptor.readLen (hf : d.Descriptor f) (hs : d.bytes.length < 2^64) (sz : ℕ) :
    readLen sz f = d.readable f.readPtr sz := by
  have hp := hf.readPtr
  rw [Ukern.readLen, hf.fileLen, readable, show d.bytes.length + 2^64 - f.readPtr =
    d.bytes.length - f.readPtr + 2^64 by omega, Nat.add_mod_right, Nat.mod_eq_of_lt (a := _ - _) (by omega)]

/-- A read of `r` bytes at `p` comes out right: the `int`s hold the count and the position, and the
bytes it takes one cluster too early are the same. -/
def ReadsOn (d : DiskFile) (size p r : ℕ) : Prop :=
  r < 2^31 ∧ (0 < r → p % 2^32 < 2^31 ∧
    ∀ k < r, d.bytes.getD (readPos size (p % 2^32) k) 0 = d.bytes.getD (p + k) 0)

/-- It does when it starts a cluster or ends in the one it starts in. -/
theorem readsOn_of_cluster {size p r : ℕ} (hp : p < 2^31) (hr : r < 2^31) (h : p % size = 0 ∨ p % size + r ≤ size) :
    d.ReadsOn size p r := by
  have hpp : p % 2^32 = p := Nat.mod_eq_of_lt (by omega)
  refine ⟨hr,fun _ => ⟨by omega,fun k hk => ?_⟩⟩
  rw [hpp, readPos, if_pos (h.imp_right fun h => by omega)]

theorem toInt_ofNat_eq_iff {n : ℕ} (h : n < 2^32) : (BitVec.ofNat 32 n).toInt = n ↔ n < 2^31 := by
  rw [BitVec.toInt_eq_toNat_cond, BitVec.toNat_ofNat, Nat.mod_eq_of_lt h]
  split <;> omega

theorem OnDisk.slice (h : d.OnDisk v) {p r : ℕ} (hr : p + r ≤ d.bytes.length) :
    (d.bytes.drop p).take r = (List.range r).map fun k => d.byteOn v (p + k) := by
  refine List.ext_getElem (by simp; omega) fun k hk hk' => ?_
  rw [List.getElem_take, List.getElem_drop, List.getElem_map, List.getElem_range, DiskFile.byteOn,
    h.byte (p + k) (by simp at hk; omega)]

theorem OnDisk.readFile (h : d.OnDisk v) (hf : d.Descriptor f) {sz : ℕ}
    (hp : 0 < d.readable f.readPtr sz → f.readPtr % 2^32 < 2^31) :
    exfatReadFileAt v sz f = .ok ((BitVec.ofNat 32 (d.readable f.readPtr sz)).toInt,
      (List.range (d.readable f.readPtr sz)).map fun k =>
        d.byteOn v (readPos v.clusSize (f.readPtr % 2^32) k)) := by
  have hlen := hf.readLen h.short sz
  have hle : f.readPtr % 2^32 ≤ f.readPtr := Nat.mod_le _ _
  have hfits := h.fits
  have hend := hf.readPtr
  unfold exfatReadFileAt
  dsimp only
  rw [hlen]
  generalize hr : d.readable f.readPtr sz = r at *
  have hrl : f.readPtr + r ≤ d.bytes.length := by
    rw [← hr, readable]
    omega
  rcases Nat.eq_zero_or_pos r with rfl | hpos
  · rw [if_neg (by simp), copyOut_nothing]
    rfl
  generalize hs : f.readPtr % 2^32 = s at *
  have hint : (BitVec.ofNat 32 f.readPtr).toInt = s := by
    rw [BitVec.toInt_eq_toNat_cond, BitVec.toNat_ofNat, hs, if_pos (by have := hp hpos; omega)]
  have hj : s / v.clusSize < d.clusters.length := Nat.div_lt_of_lt_mul (by omega)
  have hsplit : v.clusSize * (s / v.clusSize) + s % v.clusSize = s := Nat.div_add_mod _ _
  rw [hint, Int.toNat_natCast, if_neg (by omega), hf.useFat, hf.head, h.seek le_rfl (by rwa [Nat.zero_add]),
    Nat.zero_add]
  dsimp only
  rw [h.copyOut (Nat.mod_lt _ v.clusSize_pos) (by omega), hsplit]
  rfl

/-- Before its first byte is right, a read needs a position that fits an `int`. -/
theorem Descriptor.readFile_negative (hf : d.Descriptor f) (hs : d.bytes.length < 2^64) {sz : ℕ}
    (hr : 0 < d.readable f.readPtr sz) (hp : ¬ f.readPtr % 2^32 < 2^31) :
    exfatReadFileAt v sz f = .error .outOfBounds := by
  have hneg : (BitVec.ofNat 32 f.readPtr).toInt < 0 := by
    rw [BitVec.toInt_eq_toNat_cond, BitVec.toNat_ofNat, if_neg (by omega)]
    have := Nat.mod_lt f.readPtr (Nat.two_pow_pos 32)
    omega
  unfold exfatReadFileAt
  dsimp only
  rw [hf.readLen hs, if_pos ⟨hneg,hr.ne'⟩]

theorem OnDisk.readFile_iff (h : d.OnDisk v) (hf : d.Descriptor f) (sz : ℕ) :
    exfatReadFileAt v sz f = .ok ((d.readable f.readPtr sz : ℤ),
      (d.bytes.drop f.readPtr).take (d.readable f.readPtr sz)) ↔
        d.ReadsOn v.clusSize f.readPtr (d.readable f.readPtr sz) := by
  have hlt : d.readable f.readPtr sz < 2^32 := by
    have := Nat.mod_lt sz (Nat.two_pow_pos 32)
    unfold readable
    omega
  have hrl : f.readPtr + d.readable f.readPtr sz ≤ d.bytes.length := by
    have := hf.readPtr
    unfold readable
    omega
  by_cases hp : 0 < d.readable f.readPtr sz → f.readPtr % 2^32 < 2^31
  · rw [h.readFile hf hp, Except.ok.injEq, Prod.mk.injEq, toInt_ofNat_eq_iff hlt, h.slice hrl, List.map_inj_left,
      ReadsOn]
    refine and_congr_right fun _ => ?_
    generalize d.readable f.readPtr sz = r at *
    have hmod := Nat.mod_le f.readPtr (2^32)
    have hat : ∀ k < r, (d.byteOn v (readPos v.clusSize (f.readPtr % 2^32) k) = d.byteOn v (f.readPtr + k) ↔
        d.bytes.getD (readPos v.clusSize (f.readPtr % 2^32) k) 0 = d.bytes.getD (f.readPtr + k) 0) := fun k hk => by
      have hle : readPos v.clusSize (f.readPtr % 2^32) k ≤ f.readPtr % 2^32 + k := readPos_le
      rw [h.byteOn (by omega), h.byteOn (by omega)]
    constructor
    · intro hall hr
      exact ⟨hp hr,fun k hk => (hat k hk).mp (hall k (List.mem_range.mpr hk))⟩
    · intro hall k hk
      have hk := List.mem_range.mp hk
      exact (hat k hk).mpr ((hall (Nat.zero_lt_of_lt hk)).2 k hk)
  · obtain ⟨hr,hp⟩ := Classical.not_imp.mp hp
    rw [hf.readFile_negative h.short hr hp]
    exact iff_of_false nofun fun hon => hp (hon.2 hr).1

/-! ## Successive calls -/

/-- Where calls with these sizes leave the read pointer. -/
def readTo (d : DiskFile) : ℕ → List ℕ → ℕ
  | p, [] => p
  | p, sz :: szs => d.readTo (p + d.readable p sz) szs

/-- Each of the calls comes out right. -/
def ReadsAll (d : DiskFile) (size : ℕ) : ℕ → List ℕ → Prop
  | _, [] => True
  | p, sz :: szs => d.ReadsOn size p (d.readable p sz) ∧ d.ReadsAll size (p + d.readable p sz) szs

theorem readTo_bounds {p : ℕ} (szs : List ℕ) (hp : p ≤ d.bytes.length) :
    p ≤ d.readTo p szs ∧ d.readTo p szs ≤ d.bytes.length := by
  induction szs generalizing p with
  | nil => exact ⟨le_rfl,hp⟩
  | cons sz szs ih =>
    have hle : p + d.readable p sz ≤ d.bytes.length := by
      unfold readable
      omega
    obtain ⟨h1,h2⟩ := ih hle
    exact ⟨(Nat.le_add_right _ _).trans h1,h2⟩

theorem take_append_slice {l : List UInt8} {p r q : ℕ} (h : p + r ≤ q) :
    (l.drop p).take r ++ (l.take q).drop (p + r) = (l.take q).drop p := by
  have hr : (l.drop p).take r = ((l.take q).drop p).take r := by
    rw [List.drop_take, List.take_take, Nat.min_eq_left (by omega)]
  rw [hr, ← List.drop_drop, List.take_append_drop]

/-- Calls that come out right deliver the file from the read pointer on. -/
theorem OnDisk.sysReads (h : d.OnDisk v) {szs : List ℕ} (hf : d.Descriptor f)
    (hall : d.ReadsAll v.clusSize f.readPtr szs) :
    sysReads v szs f = .ok ((d.bytes.take (d.readTo f.readPtr szs)).drop f.readPtr,
      { f with readPtr := d.readTo f.readPtr szs }) := by
  induction szs generalizing f with
  | nil =>
    rw [Ukern.sysReads, readTo, List.drop_take, Nat.sub_self, List.take_zero]
  | cons sz szs ih =>
    obtain ⟨hon,hrest⟩ := hall
    have hle : f.readPtr + d.readable f.readPtr sz ≤ d.bytes.length := by
      have := hf.readPtr
      unfold readable
      omega
    have hshort := h.short
    rw [Ukern.sysReads, (h.readFile_iff hf sz).mpr hon, ok_bind]
    dsimp only
    rw [BitVec.ofInt_natCast, BitVec.toNat_ofNat, Nat.mod_eq_of_lt (b := 2^64) (by omega),
      Nat.mod_eq_of_lt (b := 2^64) (by omega)]
    have hf' : d.Descriptor { f with readPtr := f.readPtr + d.readable f.readPtr sz } :=
      ⟨hf.head,hf.useFat,hf.fileLen,hle⟩
    rw [ih hf' hrest, ok_bind]
    dsimp only
    rw [readTo]
    obtain ⟨hge,-⟩ := readTo_bounds szs hle
    congr 2
    exact take_append_slice hge

end DiskFile

/-- A volume with clusters of 512 bytes, each filled with its own number. -/
def stripedVolume : Volume where
  bytePerSecShift := 9
  secPerClusShift := 0
  rtdirCluster := 4
  fat _ := fatEnd
  clus c _ := UInt8.ofNat c

def stripedFile : DiskFile := ⟨[2,3],0,(List.range 1024).map fun i => UInt8.ofNat (2 + i / 512)⟩

theorem stripedFile_length : stripedFile.bytes.length = 1024 := by simp [stripedFile]

theorem stripedFile_onDisk : stripedFile.OnDisk stripedVolume where
  valid j hj := by
    have hj : j < 2 := hj
    obtain rfl | rfl : j = 0 ∨ j = 1 := by omega
    · decide
    · decide
  link j hj := by
    have hj : j + 1 < 2 := hj
    obtain rfl : j = 0 := by omega
    rfl
  fits := by
    rw [stripedFile_length]
    decide
  short := by
    rw [stripedFile_length]
    decide
  byte i hi := by
    have hj : i / 512 < 2 := Nat.div_lt_of_lt_mul (by rwa [stripedFile_length] at hi)
    have hb : stripedFile.bytes[i] = UInt8.ofNat (2 + i / 512) := by simp [stripedFile]
    rw [hb]
    change UInt8.ofNat (stripedFile.cluster (i / 512)) = _
    generalize i / 512 = j at hj
    obtain rfl | rfl : j = 0 ∨ j = 1 := by omega
    · rfl
    · rfl

def stripedDesc (p : ℕ) : FileDesc := { FileDesc.zero with fileLen := 1024, readPtr := p, headCluster := 2 }

theorem stripedDesc_descriptor {p : ℕ} (hp : p ≤ 1024) : stripedFile.Descriptor (stripedDesc p) where
  head := rfl
  useFat := rfl
  fileLen := stripedFile_length.symm
  readPtr := by rwa [stripedFile_length]

end Ukern
