import Ukern.Memory.Space

/-! # Consequences of the memory invariant

A page that belongs to a table has one reference, so it is no other table's page and
no leaf maps it. Changing the tables of one slot therefore leaves all others alone.
-/
namespace Ukern
open Lib Lib.Radix

namespace MemInv
variable {m m' : Phys} {kp x : ℕ} {sp sp' : Spaces} {extra : ℕ → ℕ} {c : Slot}

theorem own_excl (h : MemInv m kp sp extra) (hx : own m kp sp extra x ≠ 0) :
    own m kp sp extra x = 1 ∧ mapped m sp x = 0 := by
  have h1 := h.acct.le_ref x
  have h2 := h.solo x hx
  omega

theorem own_le_one (h : MemInv m kp sp extra) (x : ℕ) : own m kp sp extra x ≤ 1 := by
  by_cases hx : own m kp sp extra x = 0
  · omega
  · exact le_of_eq (h.own_excl hx).1

theorem own_not_free (h : MemInv m kp sp extra) (hx : own m kp sp extra x ≠ 0) : x ∉ m.free :=
  h.acct.not_free (by omega)

theorem mapped_not_free (h : MemInv m kp sp extra) (hx : mapped m sp x ≠ 0) : x ∉ m.free :=
  h.acct.not_free (by omega)

theorem ownOf_le (m : Phys) (sp : Spaces) (i : Slot) (x : ℕ) : ownOf m (sp i) x ≤ ∑ i, ownOf m (sp i) x :=
  le_sum (f := fun i => ownOf m (sp i) x) (Finset.mem_univ i)

theorem mapOf_le (m : Phys) (sp : Spaces) (i : Slot) (x : ℕ) : mapOf m (sp i) x ≤ mapped m sp x :=
  le_sum (f := fun i => mapOf m (sp i) x) (Finset.mem_univ i)

theorem ownOf_add_le (m : Phys) (sp : Spaces) {i j : Slot} (hij : i ≠ j) (x : ℕ) :
    ownOf m (sp i) x + ownOf m (sp j) x ≤ ∑ i, ownOf m (sp i) x :=
  add_le_sum (f := fun i => ownOf m (sp i) x) (Finset.mem_univ i) (Finset.mem_univ j) hij

theorem mapOf_add_le (m : Phys) (sp : Spaces) {i j : Slot} (hij : i ≠ j) (x : ℕ) :
    mapOf m (sp i) x + mapOf m (sp j) x ≤ mapped m sp x :=
  add_le_sum (f := fun i => mapOf m (sp i) x) (Finset.mem_univ i) (Finset.mem_univ j) hij

theorem tables_le_one (h : MemInv m kp sp extra) {t t₂ : ℕ} (hs : sp c = some (t,t₂)) (x : ℕ) :
    tblPages m t x + tblPages m t₂ x ≤ 1 := by
  have h1 := ownOf_le m sp c x
  have h2 := h.own_le_one x
  rw [ownOf_some hs] at h1
  simp only [own] at h2
  omega

theorem tables_held (h : MemInv m kp sp extra) {t t₂ : ℕ} (hs : sp c = some (t,t₂))
    (hx : tblPages m t x + tblPages m t₂ x ≠ 0) : x ∉ m.free := by
  have h1 := ownOf_le m sp c x
  rw [ownOf_some hs] at h1
  apply h.own_not_free
  simp only [own]
  omega

/-- Stores to the tables of `c` and to free pages miss every other slot's tables. -/
theorem keep_other (h : MemInv m kp sp extra)
    (htbl : ∀ x, x ∉ m.free → ownOf m (sp c) x = 0 → m'.tbl x = m.tbl x)
    {j : Slot} (hj : j ≠ c) {t t₂ : ℕ} (hs : sp j = some (t,t₂)) : Keep m m' t ∧ Keep m m' t₂ := by
  have hx : ∀ x, tblPages m t x + tblPages m t₂ x ≠ 0 → m'.tbl x = m.tbl x := fun x hx => by
    have h1 := ownOf_add_le m sp hj x
    have h2 := h.own_le_one x
    rw [ownOf_some hs] at h1
    simp only [own] at h2
    exact htbl x (h.tables_held hs hx) (by omega)
  exact ⟨.of_pages fun x hx' => hx x (by omega),.of_pages fun x hx' => hx x (by omega)⟩

theorem keep_kernel (h : MemInv m kp sp extra)
    (htbl : ∀ x, x ∉ m.free → ownOf m (sp c) x = 0 → m'.tbl x = m.tbl x) :
    (∀ x, kpages m kp x ≠ 0 → m'.tbl x = m.tbl x) ∧ Same Pte.link 512 m.tbl m'.tbl 3 512 kp := by
  have hx : ∀ x, kpages m kp x ≠ 0 → m'.tbl x = m.tbl x := fun x hx => by
    have h1 := ownOf_le m sp c x
    have h2 := h.own_le_one x
    have h3 : own m kp sp extra x ≠ 0 := by
      simp only [own]
      omega
    simp only [own] at h2
    exact htbl x (h.own_not_free h3) (by omega)
  exact ⟨hx,same_of_pages hx⟩

theorem keep_kroot (h : MemInv m kp sp extra)
    (htbl : ∀ x, x ∉ m.free → ownOf m (sp c) x = 0 → m'.tbl x = m.tbl x) : m'.tbl kp = m.tbl kp := by
  apply (h.keep_kernel htbl).1
  have := one_le_pages_root Pte.link 512 m.tbl 3 512 kp
  exact Nat.ne_of_gt this

end MemInv

section Change
variable {m m' : Phys} {kp : ℕ} {sp sp' : Spaces} {extra : ℕ → ℕ} {c : Slot}

theorem sum_ownOf_change {x : ℕ} (h : ∀ j ≠ c, ownOf m' (sp' j) x = ownOf m (sp j) x) :
    ∑ i, ownOf m' (sp' i) x + ownOf m (sp c) x = ∑ i, ownOf m (sp i) x + ownOf m' (sp' c) x :=
  sum_replace (f := fun i => ownOf m' (sp' i) x) (g := fun i => ownOf m (sp i) x) (Finset.mem_univ c)
    fun j _ hj => h j hj

theorem mapped_change {x : ℕ} (h : ∀ j ≠ c, mapOf m' (sp' j) x = mapOf m (sp j) x) :
    mapped m' sp' x + mapOf m (sp c) x = mapped m sp x + mapOf m' (sp' c) x :=
  sum_replace (f := fun i => mapOf m' (sp' i) x) (g := fun i => mapOf m (sp i) x) (Finset.mem_univ c)
    fun j _ hj => h j hj

/-- The invariant after the claims of slot `c` changed, from facts about the single slots. -/
theorem MemInv.assemble (h : MemInv m kp sp extra)
    (hown : ∀ j ≠ c, ∀ x, ownOf m' (sp' j) x = ownOf m (sp j) x)
    (hmap : ∀ j ≠ c, ∀ x, mapOf m' (sp' j) x = mapOf m (sp j) x)
    (hkern : Same Pte.link 512 m.tbl m'.tbl 3 512 kp)
    (hacct : Acct m' (fun x => own m kp sp extra x - ownOf m (sp c) x + ownOf m' (sp' c) x +
      (mapped m sp x - mapOf m (sp c) x + mapOf m' (sp' c) x)))
    (href : ∀ x, own m kp sp extra x - ownOf m (sp c) x ≠ 0 → m'.ref x = m.ref x)
    (hsolo : ∀ x, ownOf m' (sp' c) x ≠ 0 → m'.ref x = 1)
    (hal : ∀ x, m'.allocatable x = m.allocatable x)
    (halloc : ∀ x, ownOf m' (sp' c) x + mapOf m' (sp' c) x ≠ 0 → m.allocatable x = true)
    (hspace : ∀ j t t₂, sp' j = some (t,t₂) → Space m' kp t t₂)
    (hwr : ∀ j t t₂, sp' j = some (t,t₂) → ∀ n < upages, (entry m' t n).p = true →
      (entry m' t n).w = true →
      mapped m sp (entry m' t n).frame - mapOf m (sp c) (entry m' t n).frame +
        mapOf m' (sp' c) (entry m' t n).frame ≤ 1) :
    MemInv m' kp sp' extra := by
  have hkp : ∀ x, kpages m' kp x = kpages m kp x := hkern.pages
  have ho : ∀ x, own m' kp sp' extra x = own m kp sp extra x - ownOf m (sp c) x + ownOf m' (sp' c) x :=
    fun x => by
      have h1 := sum_ownOf_change fun j hj => hown j hj x
      have h2 := MemInv.ownOf_le m sp c x
      simp only [own,hkp]
      omega
  have hm : ∀ x, mapped m' sp' x = mapped m sp x - mapOf m (sp c) x + mapOf m' (sp' c) x := fun x => by
    have h1 := mapped_change fun j hj => hmap j hj x
    have h2 := MemInv.mapOf_le m sp c x
    omega
  refine ⟨?_,?_,hspace,?_,?_,?_,?_,(hal 0).trans h.low⟩
  · simp only [ho,hm]
    exact hacct
  · intro x hx
    rw [ho] at hx
    by_cases hc : ownOf m' (sp' c) x = 0
    · rw [href x (by omega)]
      exact h.solo x (by omega)
    · exact hsolo x hc
  · intro x hx
    rw [hal]
    have h1 := sum_ownOf_change fun j hj => hown j hj x
    have h2 := hm x
    by_cases hc : ownOf m' (sp' c) x + mapOf m' (sp' c) x = 0
    · exact h.alloc x (by omega)
    · exact halloc x hc
  · intro j t t₂ hs n hn hp hw
    rw [hm]
    exact hwr j t t₂ hs n hn hp hw
  · intro i hi
    rw [(hkern i hi).1]
    exact h.kroot i hi
  · intro n hn
    have he : entry m' kp n = entry m kp n := hkern.leafAt (by decide) hn
    rw [he]
    exact h.kleaf n hn

/-- What has to be shown when only the tables of slot `c` and free pages were written. -/
theorem MemInv.change (h : MemInv m kp sp extra) (hsp : ∀ j ≠ c, sp' j = sp j)
    (htbl : ∀ x, x ∉ m.free → ownOf m (sp c) x = 0 → m'.tbl x = m.tbl x)
    (hacct : Acct m' (fun x => own m kp sp extra x - ownOf m (sp c) x + ownOf m' (sp' c) x +
      (mapped m sp x - mapOf m (sp c) x + mapOf m' (sp' c) x)))
    (href : ∀ x, own m kp sp extra x - ownOf m (sp c) x ≠ 0 → m'.ref x = m.ref x)
    (hsolo : ∀ x, ownOf m' (sp' c) x ≠ 0 → m'.ref x = 1)
    (hal : ∀ x, m'.allocatable x = m.allocatable x)
    (halloc : ∀ x, ownOf m' (sp' c) x + mapOf m' (sp' c) x ≠ 0 → m.allocatable x = true)
    (hspace : ∀ t t₂, sp' c = some (t,t₂) → Space m' kp t t₂)
    (hle : ∀ x, mapOf m' (sp' c) x ≤ mapOf m (sp c) x ∨ mapped m sp x = 0)
    (hwr : ∀ t t₂, sp' c = some (t,t₂) → ∀ n < upages, (entry m' t n).p = true →
      (entry m' t n).w = true →
      mapped m sp (entry m' t n).frame - mapOf m (sp c) (entry m' t n).frame +
        mapOf m' (sp' c) (entry m' t n).frame ≤ 1) :
    MemInv m' kp sp' extra := by
  have hroot := h.keep_kroot htbl
  refine h.assemble (c := c) (fun j hj x => ?_) (fun j hj x => ?_) (h.keep_kernel htbl).2 hacct href hsolo
    hal halloc (fun j t t₂ hs => ?_) (fun j t t₂ hs n hn hp hw => ?_)
  · rw [hsp j hj]
    cases hs : sp j with
    | none => rfl
    | some s =>
      obtain ⟨h1,h2⟩ := h.keep_other htbl hj hs
      simp only [ownOf,h1.tblPages,h2.tblPages]
  · rw [hsp j hj]
    cases hs : sp j with
    | none => rfl
    | some s => exact (h.keep_other htbl hj hs).1.maps x
  · by_cases hj : j = c
    · subst hj
      exact hspace t t₂ hs
    · rw [hsp j hj] at hs
      obtain ⟨h1,h2⟩ := h.keep_other htbl hj hs
      exact (h.space j t t₂ hs).keep h1 h2 fun i _ _ => by rw [hroot]
  · by_cases hj : j = c
    · subst hj
      exact hwr t t₂ hs n hn hp hw
    · have hs' := hs
      rw [hsp j hj] at hs'
      obtain ⟨h1,-⟩ := h.keep_other htbl hj hs'
      rw [h1.entry hn] at hp hw ⊢
      have h2 := h.wr j t t₂ hs' n hn hp hw
      have h3 := MemInv.mapOf_add_le m sp hj (entry m t n).frame
      have h4 := maps_pos hn hp
      rw [mapOf_some hs'] at h3
      rcases hle (entry m t n).frame with h5 | h5 <;> omega

end Change

end Ukern
