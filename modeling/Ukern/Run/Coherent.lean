import Ukern.Run.Waitless
import Ukern.Run.Running

/-! # Page tables over whole runs

The two tables of every process, the reference counts and the free list fit together, and
the kernel half of every process is that of `k_pgtbl`.
-/
namespace Ukern
open Lib Lib.Radix
variable {fs : Fs} {k : Kernel} {c j : Slot} {m m' : Phys} {kp x n : ℕ} {sp : Spaces} {extra : ℕ → ℕ}

/-- The pairs of a process and one of its user pages that `pgtbl` maps to page `x`. -/
def Kernel.mappers (k : Kernel) (x : ℕ) : Set (Slot × ℕ) :=
  {s | s.2 < upages ∧ (k.procs s.1).state ≠ .close ∧
    (entry k.phys (k.procs s.1).pgtbl s.2).p = true ∧ (entry k.phys (k.procs s.1).pgtbl s.2).frame = x}

theorem mappers_card (k : Kernel) (x : ℕ) :
    (k.mappers x).Finite ∧ (k.mappers x).ncard = mapped k.phys (spaces k) x := by
  obtain ⟨hfin,hcard⟩ := ncard_pairs upages fun s : Slot × ℕ => (k.procs s.1).state ≠ .close ∧
    (entry k.phys (k.procs s.1).pgtbl s.2).p = true ∧ (entry k.phys (k.procs s.1).pgtbl s.2).frame = x
  refine ⟨hfin,hcard.trans (Finset.sum_congr rfl fun j _ => ?_)⟩
  by_cases hj : (k.procs j).state = .close
  · rw [spaces, spaceOf, if_pos hj, mapOf_none]
    exact Finset.sum_eq_zero fun n _ => if_neg fun hh => hh.1 hj
  · rw [mapOf_some (spaces_some hj), maps_eq]
    refine Finset.sum_congr rfl fun n _ => ?_
    simp only [Pte.hit,hj,ne_eq,not_false_eq_true,true_and]

theorem getPage_error {z : Bool} {e : Fault} (h : getPage m z = .error e) : e = .nullDeref ∨ e = .panic := by
  unfold getPage allocPage at h
  split at h
  · cases h
    exact Or.inl rfl
  · split at h
    · cases h
      exact Or.inl rfl
    · split at h
      · cases h
        exact Or.inr rfl
      · cases h

theorem cowPage_error {f : ℕ} {e : Fault} (h : cowPage m f = .error e) : e = .nullDeref ∨ e = .panic := by
  unfold cowPage at h
  simp only at h
  cases hg : getPage (m.setRef f (m.ref f - 1)) false with
  | error e' =>
    rw [hg] at h
    cases h
    exact getPage_error hg
  | ok r =>
    rw [hg] at h
    cases h

/-- Where `p_pgtbl` grants all rights, `U2K` can only fail for want of a page for the copy. -/
theorem u2k_error_cow {q : Proc} {v : U64} {write : Bool} {e : Fault} (h : MemInv m kp sp extra)
    (hs : sp c = some (q.pgtbl,q.pPgtbl)) (hcov : (lookup m q.pPgtbl v.toNat).covers (pteP ||| pteU ||| pteW) = true)
    (hu : u2k m q v write = .error e) : write = true ∧ ∃ f, cowPage m f = .error e := by
  obtain ⟨hp₂,hu₂,-⟩ := Pte.covers_puw hcov
  have hn := h.user_page hs (Or.inr hu₂)
  have hag := (h.space c _ _ hs).agree _ hn
  have hp : (entry m q.pgtbl (key 3 v.toNat)).p = true := by rw [hag.1]; exact hp₂
  obtain ⟨p₁,i₁,hslot₁⟩ := slot_of_present hp
  obtain ⟨p₂,i₂,hslot₂⟩ := slot_of_present (t := q.pPgtbl) hp₂
  obtain ⟨hfull,hcase⟩ := hag.cases hp
  have he₁ := entry_eq_slot hslot₁
  have he₂ := entry_eq_slot hslot₂
  unfold u2k at hu
  simp only [walkSlot_of_slot hslot₁,walkSlot_of_slot hslot₂,ok_bind,← he₁,← he₂,hfull,hag.covers_iff,hp,Pte.full_frame,ne_eq,not_true_eq_false,↓reduceIte,Bool.not_true,
    Bool.false_eq_true] at hu
  split at hu
  · cases hu
  · rename_i hdiff
    have hro : entry m q.pgtbl (key 3 v.toNat) = ⟨(entry m q.pgtbl (key 3 v.toNat)).frame,pteP ||| pteU⟩ := by
      refine hcase.resolve_left fun hf => hdiff (Or.inr ?_)
      rw [hf]
      rfl
    have hw₁ : (entry m q.pgtbl (key 3 v.toNat)).w = false := by
      rw [hro]
      change (pteP ||| pteU).getLsbD 1 = false
      decide
    have hw₂ : (Pte.full (entry m q.pgtbl (key 3 v.toNat)).frame).w = true := by
      change (pteP ||| pteU ||| pteW).getLsbD 1 = true
      decide
    rw [hw₁, hw₂, if_neg (by decide)] at hu
    cases hcow : cowPage m (entry m q.pgtbl (key 3 v.toNat)).frame with
    | error e' =>
      rw [hcow] at hu
      cases hu
      refine ⟨?_,_,hcow⟩
      by_contra hw
      exact hdiff (Or.inl (by simpa using hw))
    | ok r =>
      rw [hcow] at hu
      cases hu

theorem u2k_error {q : Proc} {v : U64} {write : Bool} {e : Fault} (h : MemInv m kp sp extra)
    (hs : sp c = some (q.pgtbl,q.pPgtbl)) (hcov : (lookup m q.pPgtbl v.toNat).covers (pteP ||| pteU ||| pteW) = true)
    (hu : u2k m q v write = .error e) : e = .nullDeref ∨ e = .panic := by
  obtain ⟨-,f,hcow⟩ := u2k_error_cow h hs hcov hu
  exact cowPage_error hcow

/-- The tables of all processes, the reference counts and the free list. -/
structure PageTablesSound (k : Kernel) : Prop where
  same : ∀ j, (k.procs j).state ≠ .close → ∀ n < upages,
    (entry k.phys (k.procs j).pgtbl n).p = (entry k.phys (k.procs j).pPgtbl n).p ∧
    ((entry k.phys (k.procs j).pPgtbl n).p = true →
      (entry k.phys (k.procs j).pgtbl n).frame = (entry k.phys (k.procs j).pPgtbl n).frame ∧
      ((entry k.phys (k.procs j).pgtbl n).flags = (entry k.phys (k.procs j).pPgtbl n).flags ∨
        (entry k.phys (k.procs j).pgtbl n).flags = (entry k.phys (k.procs j).pPgtbl n).flags &&& ~~~pteW))
  refs : ∀ x, (k.mappers x).Finite ∧ ((k.mappers x).ncard : ℤ) ≤ k.phys.ref x
  writable : ∀ j n, (k.procs j).state ≠ .close → n < upages → (entry k.phys (k.procs j).pgtbl n).p = true →
    (entry k.phys (k.procs j).pgtbl n).w = true → k.mappers (entry k.phys (k.procs j).pgtbl n).frame = {(j,n)}
  held : ∀ x, k.mappers x ≠ ∅ → x ∉ k.phys.free
  u2k : ∀ j v write, (k.procs j).state ≠ .close →
    (lookup k.phys (k.procs j).pPgtbl v.toNat).covers (pteP ||| pteU ||| pteW) = true →
    Ukern.u2k k.phys (k.procs j) v write ≠ .error .assertion

theorem KInv.pageTables (h : KInv k) : PageTablesSound k where
  same j hj n hn := by
    obtain ⟨h1,h2⟩ := (h.owned.mem.space j _ _ (spaces_some hj)).agree n hn
    refine ⟨h1,fun hp => ?_⟩
    obtain ⟨hf,hfl,hcase⟩ := h2 hp
    refine ⟨hf,?_⟩
    rw [hfl]
    exact hcase.imp id fun hro => hro.trans (by decide)
  refs x := by
    obtain ⟨hfin,hcard⟩ := mappers_card k x
    have h1 := h.owned.mem.acct.le_ref x
    rw [hcard]
    exact ⟨hfin,by omega⟩
  writable j n hj hn hp hw := by
    obtain ⟨hfin,hcard⟩ := mappers_card k (entry k.phys (k.procs j).pgtbl n).frame
    have hle := h.owned.mem.wr j _ _ (spaces_some hj) n hn hp hw
    rw [← hcard, Set.ncard_le_one hfin] at hle
    exact Set.eq_singleton_iff_unique_mem.mpr ⟨⟨hn,hj,hp,rfl⟩,fun s hs => hle s hs (j,n) ⟨hn,hj,hp,rfl⟩⟩
  held x hx := by
    obtain ⟨hfin,hcard⟩ := mappers_card k x
    refine h.owned.mem.mapped_not_free fun h0 => hx ?_
    rwa [← hcard, Set.ncard_eq_zero hfin] at h0
  u2k j v write hj hcov hu := by
    rcases u2k_error h.owned.mem (spaces_some hj) hcov hu with he | he <;> cases he

/-- The first address of the kernel half. -/
def kernelBase : ℕ := 2^64 - 2^47

theorem tblIndex_kernel {v : U64} (hv : kernelBase ≤ v.toNat) : 256 ≤ tblIndex 3 v.toNat ∧ tblIndex 3 v.toNat < 512 := by
  have h1 := v.isLt
  unfold kernelBase at hv
  unfold tblIndex pgsize
  omega

theorem mmu_congr {t t' : ℕ} {v : U64} (h : m.tbl t (tblIndex 3 v.toNat) = m.tbl t' (tblIndex 3 v.toNat)) :
    mmu m t v = mmu m t' v := by
  simp only [mmu,mmuWalk,h]

end Ukern
