import Ukern.Memory.Exact
import Ukern.Memory.Fault

/-! # A buffer inside one page

The pointer checks and the stores of the kernel on a buffer that does not cross a page: if
the page is there, both succeed.
-/
namespace Ukern
open Lib Lib.Radix
variable {m m' : Phys} {t t₂ kp n : ℕ} {v siz : U64} {bs : List UInt8}

/-- `n` bytes from `v` on lie in one user page that table `t` maps. -/
structure Buffer (m : Phys) (t : ℕ) (v : U64) (n : ℕ) : Prop where
  user : v.toNat < userTop
  fits : v.toNat % pgsize + n ≤ pgsize
  present : (entry m t (key 3 v.toNat)).p = true

/-- The physical address of the first byte. -/
def bufferAddr (m : Phys) (t : ℕ) (v : U64) : ℕ := (entry m t (key 3 v.toNat)).frame * pgsize + v.toNat % pgsize

theorem Buffer.congr (h : Buffer m t v n) (m' : Phys) (he : entry m' t (key 3 v.toNat) = entry m t (key 3 v.toNat)) :
    Buffer m' t v n ∧ bufferAddr m' t v = bufferAddr m t v := by
  refine ⟨⟨h.user,h.fits,?_⟩,?_⟩
  · rw [he]
    exact h.present
  · rw [bufferAddr, he]
    rfl

theorem Buffer.skip (h : Buffer m t v n) {d : ℕ} (hd : d < n) :
    Buffer m t (v + BitVec.ofNat 64 d) (n - d) ∧ bufferAddr m t (v + BitVec.ofNat 64 d) = bufferAddr m t v + d := by
  have hfits := h.fits
  have huser := h.user
  have hv : (v + BitVec.ofNat 64 d).toNat = v.toNat + d := by
    rw [BitVec.toNat_add, BitVec.toNat_ofNat]
    unfold userTop pgsize at *
    omega
  have hmod : (v.toNat + d) % pgsize = v.toNat % pgsize + d := by
    unfold pgsize at *
    omega
  have hkey : key 3 (v.toNat + d) = key 3 v.toNat := by
    unfold key pgsize at *
    omega
  refine ⟨⟨?_,?_,?_⟩,?_⟩
  · rw [hv]
    unfold userTop pgsize at *
    omega
  · rw [hv, hmod]
    omega
  · rw [hv, hkey]
    exact h.present
  · rw [bufferAddr, hv, hkey, hmod, bufferAddr, Nat.add_assoc]

theorem Buffer.translate (h : Buffer m t v n) : translate m t v.toNat = some (bufferAddr m t v) :=
  if_pos ⟨h.user,h.present⟩

theorem Buffer.kstores (h : Buffer m t v bs.length) : kstores m t v bs = .ok (m.setBytes (bufferAddr m t v) bs) := by
  induction bs generalizing m v with
  | nil => rfl
  | cons b bs ih =>
    have hstore : kstore m t v b = .ok (m.setByte (bufferAddr m t v) b) := by
      rw [kstore, if_neg (Nat.not_le.mpr h.user), h.translate]
    rw [Ukern.kstores, hstore, ok_bind, Phys.setBytes]
    cases bs with
    | nil => rfl
    | cons b' bs =>
      obtain ⟨hnext,haddr⟩ := h.skip (d := 1) (by simp)
      obtain ⟨hnext',haddr'⟩ := hnext.congr (m.setByte (bufferAddr m t v) b) rfl
      rw [← haddr, ← haddr']
      exact ih hnext'

theorem huge_of_present {v l : ℕ} (h : (leafAt Pte.link 512 .zero m.tbl l t (key l v)).p = true) :
    huge m v l t = false := by
  induction l generalizing t with
  | zero => rfl
  | succ l ih =>
    rw [leafAt, key_succ_div, key_succ_mod] at h
    cases hl : (m.tbl t (tblIndex (l+1) v)).link l with
    | none =>
      rw [hl] at h
      exact absurd h (by simp)
    | some c =>
      rw [hl] at h
      unfold Pte.link at hl
      simp only [Option.ite_none_right_eq_some,Option.some.injEq] at hl
      obtain ⟨⟨hp,hps⟩,rfl⟩ := hl
      have hsmall : (decide (l < 2) && (m.tbl t (tblIndex (l+1) v)).ps) = false := by simpa using hps
      rw [huge, hsmall, hp, ih h]
      rfl

theorem Buffer.full (h : Buffer m t v n) (hsp : Space m kp t t₂) :
    lookup m t₂ v.toNat = .full (entry m t (key 3 v.toNat)).frame :=
  ((hsp.agree _ (key_user h.user)).cases h.present).1

theorem Buffer.granted (h : Buffer m t v n) (hsp : Space m kp t t₂) {flags : BitVec 12}
    (hflags : flags = pteU ∨ flags = pteU ||| pteW) : granted m t₂ flags v.toNat = true := by
  rw [Ukern.granted, h.full hsp]
  rcases hflags with rfl | rfl
  · exact beq_iff_eq.mpr (by change (pteP ||| pteU ||| pteW) &&& (pteU ||| pteP) = pteU ||| pteP; decide)
  · exact beq_iff_eq.mpr (by change (pteP ||| pteU ||| pteW) &&& (pteU ||| pteW ||| pteP) = pteU ||| pteW ||| pteP; decide)

/-- The first page that a check looks at is the page of the buffer. -/
theorem Buffer.first (h : Buffer m t v n) (hsp : Space m kp t t₂) {flags : BitVec 12}
    (hflags : flags = pteU ∨ flags = pteU ||| pteW) :
    huge m (page v 0) 3 t₂ = false ∧ Ukern.granted m t₂ flags (page v 0) = true := by
  have hlook : lookup m t₂ (page v 0) = lookup m t₂ v.toNat := by
    have h0 : pageOf v 0 = 0 := Nat.div_eq_of_lt (Nat.mod_lt _ (by decide))
    rw [← h0, ← lookup_page, Nat.add_zero, Nat.mod_eq_of_lt v.isLt]
  refine ⟨huge_of_present ?_,?_⟩
  · change (lookup m t₂ (page v 0)).p = true
    rw [hlook, h.full hsp]
    exact Pte.full_p _
  · rw [Ukern.granted, hlook]
    exact h.granted hsp hflags

theorem Buffer.count (h : Buffer m t v n) (hs : siz.toNat < pgsize) : checkCount v siz = 1 := by
  have huser := h.user
  unfold checkCount userTop pgsize at *
  simp only
  omega

theorem Buffer.checkMem (h : Buffer m t v n) (hsp : Space m kp t t₂) (hs : siz.toNat < pgsize) {flags : BitVec 12}
    (hflags : flags = pteU ∨ flags = pteU ||| pteW) : checkMem m t₂ v siz flags = .ok true := by
  obtain ⟨hhuge,hg⟩ := h.first hsp hflags
  rw [checkMem_eq, h.count hs, scan, memStep_none.mpr ⟨hhuge,hg⟩]
  rfl

/-- `check_str` accepts it too, if the page has a zero at or behind its first byte. -/
theorem Buffer.checkStr (h : Buffer m t v n) (hsp : Space m kp t t₂) (hs : siz.toNat < pgsize) {j : ℕ}
    (hj : v.toNat % pgsize + j < pgsize)
    (hz : m.data (entry m t (key 3 v.toNat)).frame (v.toNat % pgsize + j) = 0) : checkStr m t₂ v siz pteU = .ok true := by
  obtain ⟨hhuge,hg⟩ := h.first hsp (.inl rfl)
  have huser := h.user
  have hnul : hasNul m t₂ v 0 = true := by
    refine hasNul_iff.mpr ⟨j,Nat.div_eq_of_lt hj,?_⟩
    have hlt : (v.toNat + j) % 2^64 = v.toNat + j := by
      unfold userTop pgsize at *
      omega
    have hkey : key 3 (v.toNat + j) = key 3 v.toNat := by
      unfold key pgsize at *
      omega
    have hmod : (v.toNat + j) % pgsize = v.toNat % pgsize + j := by
      unfold pgsize at *
      omega
    have hlook : lookup m t₂ (v.toNat + j) = lookup m t₂ v.toNat := by rw [lookup, hkey]; rfl
    rw [strByte, hlt, hlook, h.full hsp, hmod]
    exact hz
  rw [checkStr_eq, h.count hs, scan, strStep_true.mpr ⟨hhuge,hg,hnul⟩]

end Ukern
