import Ukern.Memory.Fork

/-! # Pages held by the kernel

Pages outside the user tables: pipes, the pages of an image that is being loaded, and
the tables below `k_pgtbl`, which grow when a disk block or an image page is mapped.
-/
namespace Ukern
open Lib Lib.Radix
variable {m m' m₁ : Phys} {kp t n p i v pg : ℕ} {sp : Spaces} {extra extra' : ℕ → ℕ} {e : Pte} {new : List ℕ}

namespace MemInv

theorem kernel_table (h : MemInv m kp sp extra) : Table m 512 kp where
  one x := by
    have h1 := h.own_le_one x
    simp only [own,kpages] at h1
    omega
  fresh x hx := by
    by_contra hne
    exact h.own_not_free (x := x) (by simp only [own,kpages]; omega) hx

theorem forget (h : MemInv m kp sp extra) (hle : ∀ x, extra' x ≤ extra x) : MemInv m kp sp extra' where
  acct := h.acct.mono fun x => by
    have := hle x
    simp only [own]
    omega
  solo x hx := h.solo x (by
    have := hle x
    simp only [own] at hx ⊢
    omega)
  space := h.space
  alloc x hx := h.alloc x (by
    have := hle x
    omega)
  wr := h.wr
  kroot := h.kroot
  kleaf := h.kleaf
  low := h.low

theorem outside (h : MemInv m kp sp extra) (hkeep : ∀ j s s₂, sp j = some (s,s₂) → Keep m m' s ∧ Keep m m' s₂)
    (hroot : ∀ i < 512, m'.tbl kp i = m.tbl kp i)
    (hacct : Acct m' (fun x => ∑ j, ownOf m (sp j) x + kpages m' kp x + extra' x + mapped m sp x))
    (hsolo : ∀ x, ∑ j, ownOf m (sp j) x + kpages m' kp x + extra' x ≠ 0 → m'.ref x = 1)
    (hal : ∀ x, m'.allocatable x = m.allocatable x) (hex : ∀ x, extra' x ≠ 0 → m.allocatable x = true)
    (hleaf : ∀ n < 512 * 512^3, (entry m' kp n).u = false) : MemInv m' kp sp extra' := by
  have hown : ∀ x, ∑ j, ownOf m' (sp j) x = ∑ j, ownOf m (sp j) x := fun x =>
    Finset.sum_congr rfl fun j _ => by
      cases hs : sp j with
      | none => rfl
      | some s =>
        obtain ⟨h1,h2⟩ := hkeep j _ _ hs
        simp only [ownOf,h1.tblPages,h2.tblPages]
  have hmap : ∀ x, mapped m' sp x = mapped m sp x := fun x =>
    Finset.sum_congr rfl fun j _ => by
      cases hs : sp j with
      | none => rfl
      | some s => exact (hkeep j _ _ hs).1.maps x
  refine ⟨?_,fun x hx => hsolo x ?_,fun j s s₂ hs => ?_,fun x hx => ?_,fun j s s₂ hs n hn hp hw => ?_,
    fun i hi => ?_,hleaf,(hal 0).trans h.low⟩
  · simp only [own,hown,hmap]
    exact hacct
  · simpa only [own,hown] using hx
  · obtain ⟨h1,h2⟩ := hkeep j _ _ hs
    exact (h.space j s s₂ hs).keep h1 h2 fun i _ hi => hroot i hi
  · rw [hown, hmap] at hx
    rw [hal]
    by_cases he : extra' x = 0
    · exact h.alloc x (by omega)
    · exact hex x he
  · obtain ⟨h1,-⟩ := hkeep j _ _ hs
    rw [h1.entry hn] at hp hw ⊢
    rw [hmap]
    exact h.wr j s s₂ hs n hn hp hw
  · rw [hroot i hi]
    exact h.kroot i hi

theorem take {z : Bool} (h : MemInv m kp sp extra) (hg : getPage m z = .ok (pg,m')) :
    MemInv m' kp sp (fun x => extra x + if x = pg then 1 else 0) := by
  have hgr := grow_getPage hg
  have hpg : pg ∈ m.free := hgr.new_free (by simp)
  have htbl : ∀ x, x ∉ m.free → m'.tbl x = m.tbl x := fun x hx =>
    hgr.tbl x id fun hn => hx (hgr.new_free hn)
  have hkx : ∀ x, kpages m kp x ≠ 0 → m'.tbl x = m.tbl x := fun x hx =>
    htbl x fun hf => hx (h.kernel_table.fresh x hf)
  have hks : Same Pte.link 512 m.tbl m'.tbl 3 512 kp := same_of_pages hkx
  have hkp : ∀ x, kpages m' kp x = kpages m kp x := hks.pages
  refine h.outside (fun j s s₂ hs => ?_) (fun i hi => (hks i hi).1) ?_ (fun x hx => ?_) hgr.allocatable
    (fun x hx => ?_) (fun n hn => ?_)
  · exact ⟨.of_pages fun x hx => htbl x (h.tables_held hs (by omega)),
      .of_pages fun x hx => htbl x (h.tables_held hs (by omega))⟩
  · refine (hgr.acct h.acct fun _ _ => rfl).mono fun x => ?_
    simp only [own,hkp,List.count_singleton,beq_iff_eq,eq_comm (a := pg)]
    omega
  · rw [hgr.ref]
    by_cases hxp : x = pg
    · simp [hxp]
    · rw [hkp, if_neg hxp, Nat.add_zero] at hx
      have := h.solo x hx
      simp [hxp,this]
  · by_cases hxp : x = pg
    · rw [hxp]
      exact (h.acct.free_ok pg hpg).1
    · rw [if_neg hxp, Nat.add_zero] at hx
      exact h.alloc x (by omega)
  · have he : entry m' kp n = entry m kp n := hks.leafAt (by decide) hn
    rw [he]
    exact h.kleaf n hn

theorem give (h : MemInv m kp sp extra) (pg : ℕ) (hpg : extra pg ≠ 0) :
    ∃ m', freePage m pg = .ok m' ∧ MemInv m' kp sp (fun x => extra x - if x = pg then 1 else 0) ∧
      Shrink m m' (fun x => if x = pg then 1 else 0) := by
  obtain ⟨m',hm,ha,hsh⟩ := freePage_acct (x := pg) h.acct (h.alloc pg (by omega)) (by simp only [own]; omega)
  have hkp : ∀ x, kpages m' kp x = kpages m kp x := fun x => by simp only [kpages,hsh.tbl]
  refine ⟨m',hm,h.outside (fun j s s₂ hs => ?_) (fun i hi => by rw [hsh.tbl]) ?_ (fun x hx => ?_)
    hsh.allocatable (fun x hx => h.alloc x (by omega)) (fun n hn => ?_),hsh⟩
  · exact ⟨.of_pages fun x hx => by rw [hsh.tbl],.of_pages fun x hx => by rw [hsh.tbl]⟩
  · refine ha.mono fun x => ?_
    simp only [own,hkp]
    by_cases hx : x = pg
    · subst hx
      simp only [↓reduceIte]
      omega
    · simp only [if_neg hx]
      omega
  · rw [hkp] at hx
    have h1 := h.solo x (by simp only [own]; omega)
    have h2 := h.own_le_one x
    have hxp : x ≠ pg := by
      rintro rfl
      simp only [own] at h2
      simp only [↓reduceIte] at hx
      omega
    rw [hsh.ref, if_neg hxp, h1]
    simp
  · have he : entry m' kp n = entry m kp n := by simp only [entry,hsh.tbl]
    rw [he]
    exact h.kleaf n hn

/-- A leaf of the kernel table is set, with new tables on the way. -/
theorem kextend (h : MemInv m kp sp extra) (hx : Extended m m' 512 kp n e new) (he : e.u = false) :
    MemInv m' kp sp extra := by
  have hkp : ∀ x, kpages m' kp x = kpages m kp x + new.count x := hx.pages_eq
  refine h.outside (fun j s s₂ hs => ?_) (fun i hi => hx.linked i (h.kroot i hi)) ?_ (fun x hx' => ?_)
    hx.grow.allocatable (fun x hx' => h.alloc x (by omega)) (fun j hj => ?_)
  · have hx' : ∀ x, tblPages m s x + tblPages m s₂ x ≠ 0 → m'.tbl x = m.tbl x := fun x hx' => by
      have hxf := h.tables_held hs hx'
      refine hx.grow.tbl x (fun hS => ?_) fun hn => hxf (hx.grow.new_free hn)
      have h1 := h.own_le_one x
      have h2 := ownOf_le m sp j x
      rw [ownOf_some hs] at h2
      simp only [own,kpages] at h1
      omega
    exact ⟨.of_pages fun x h1 => hx' x (by omega),.of_pages fun x h1 => hx' x (by omega)⟩
  · refine (hx.grow.acct h.acct fun _ _ => rfl).mono fun x => ?_
    simp only [own,hkp]
    omega
  · rw [hx.grow.ref]
    by_cases hxn : x ∈ new
    · simp [hxn]
    · rw [hkp, List.count_eq_zero_of_not_mem hxn] at hx'
      have := h.solo x (by simp only [own]; omega)
      simp [hxn,this]
  · rw [hx.entry_eq j hj]
    split
    · exact he
    · exact h.kleaf j hj

end MemInv

end Ukern
