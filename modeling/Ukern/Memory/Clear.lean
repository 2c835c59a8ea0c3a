import Ukern.Memory.Copy

/-! # Clearing flags of a page table

`pgtbl_clearflags` rewrites the present leaves of a table in place and keeps its
shape. The loop over the kernel half of the root touches no user entry.
-/
namespace Ukern
open Lib Lib.Radix
variable {m m' s : Phys} {l n t : ℕ} {flags : BitVec 12}

/-- The effect on a leaf. -/
def Pte.drop (flags : BitVec 12) (e : Pte) : Pte := if e.p then e.clear flags else e

/-- The leaves below the first `n` root entries lost `flags`. -/
structure Cleared (m m' : Phys) (flags : BitVec 12) (l n t : ℕ) : Prop where
  rest : m' = { m with tbl := m'.tbl }
  tbl : ∀ x, pages Pte.link 512 m.tbl l n t x = 0 → m'.tbl x = m.tbl x
  leaf_eq : ∀ k < n * 512^l, leafAt Pte.link 512 .zero m'.tbl l t k =
    (leafAt Pte.link 512 .zero m.tbl l t k).drop flags
  pages_eq : ∀ x, pages Pte.link 512 m'.tbl l n t x = pages Pte.link 512 m.tbl l n t x
  small : Inner Pte.link 512 Pte.Small m'.tbl l n t
  upper : ∀ i, n ≤ i → m'.tbl t i = m.tbl t i

theorem Cleared.zero : Cleared m m flags l 0 t where
  rest := rfl
  tbl _ _ := rfl
  leaf_eq k hk := by simp at hk
  pages_eq _ := rfl
  small := inner_zero_width
  upper _ _ := rfl

theorem Cleared.step_leaf (h : Cleared m s flags 0 n t) :
    Cleared m (if !(s.tbl t n).p then s else s.setEntry t n ((s.tbl t n).clear flags)) flags 0 (n+1) t := by
  have hleaf := h.leaf_eq
  simp only [pow_zero,mul_one,leafAt] at hleaf
  have hrow := h.upper n le_rfl
  cases hp : (m.tbl t n).p with
  | false =>
    simp only [hrow,hp,Bool.not_false,↓reduceIte]
    refine ⟨h.rest,h.tbl,?_,h.pages_eq,trivial,fun i hi => h.upper i (by omega)⟩
    intro k hk
    simp only [pow_zero,mul_one,leafAt] at hk ⊢
    rcases Nat.lt_succ_iff_lt_or_eq.mp hk with hk | rfl
    · exact hleaf k hk
    · simp [hrow,Pte.drop,hp]
  | true =>
    simp only [hrow,hp,Bool.not_true,Bool.false_eq_true,↓reduceIte]
    refine ⟨?_,?_,?_,h.pages_eq,trivial,?_⟩
    · rw [h.rest]
      rfl
    · intro x hx
      have hxt : x ≠ t := by
        rintro rfl
        simp [pages] at hx
      rw [Phys.setEntry_tbl_ne hxt, h.tbl x hx]
    · intro k hk
      simp only [pow_zero,mul_one,leafAt,Phys.setEntry_tbl_self] at hk ⊢
      rcases Nat.lt_succ_iff_lt_or_eq.mp hk with hk | rfl
      · rw [Function.update_of_ne (by omega), hleaf k hk]
      · simp [Pte.drop,hp]
    · intro i hi
      rw [Phys.setEntry_tbl_self, Function.update_of_ne (by omega), h.upper i (by omega)]

theorem Cleared.step_absent (h : Cleared m s flags (l+1) n t) (hp : (m.tbl t n).p = false) :
    Cleared m s flags (l+1) (n+1) t := by
  have hnone := Pte.link_none hp l
  have hrow := h.upper n le_rfl
  refine ⟨h.rest,?_,?_,?_,?_,fun i hi => h.upper i (by omega)⟩
  · intro x hx
    rw [pages_width_succ, hnone] at hx
    exact h.tbl x hx
  · intro k hk
    rcases key_width_succ (by decide) hk with hk | ⟨hd,-⟩
    · exact h.leaf_eq k hk
    · simp [leafAt,hd,hrow,hnone,Pte.drop]
  · intro x
    simp only [pages_width_succ,h.pages_eq,hrow]
    simp [hnone]
  · rw [inner_width_succ, hrow]
    exact ⟨h.small,fun hp' => by simp [hp] at hp',fun c hc => by simp [hnone] at hc⟩

theorem Cleared.step_table {c : ℕ} (h : Cleared m s flags (l+1) n t)
    (hlink : (m.tbl t n).link l = some c) (hone : ∀ x, pages Pte.link 512 m.tbl (l+1) (n+1) t x ≤ 1)
    (hsub : Same Pte.link 512 m.tbl s.tbl l 512 c) (hq : Pte.Small l (m.tbl t n))
    (hchild : Cleared s m' flags l 512 c) : Cleared m m' flags (l+1) (n+1) t := by
  have hpages : ∀ x, pages Pte.link 512 m.tbl (l+1) (n+1) t x =
      pages Pte.link 512 m.tbl (l+1) n t x + pages Pte.link 512 m.tbl l 512 c x := fun x => by
    rw [pages_width_succ, hlink]
  have hout : ∀ x, pages Pte.link 512 m.tbl (l+1) n t x ≠ 0 → m'.tbl x = s.tbl x := fun x hx => by
    apply hchild.tbl
    rw [hsub.pages]
    have h1 := hone x
    have h2 := hpages x
    omega
  have hroot : m'.tbl t = s.tbl t := hout t (by
    have := one_le_pages_root Pte.link 512 m.tbl (l+1) n t
    omega)
  have hrow : m'.tbl t n = m.tbl t n := by rw [hroot, h.upper n le_rfl]
  have hsame : Same Pte.link 512 s.tbl m'.tbl (l+1) n t :=
    same_of_pages fun x hx => hout x (by rwa [h.pages_eq] at hx)
  refine ⟨?_,?_,?_,?_,?_,fun i hi => by rw [hroot, h.upper i (by omega)]⟩
  · rw [hchild.rest, h.rest]
  · intro x hx
    rw [hpages] at hx
    rw [hchild.tbl x (by rw [hsub.pages]; omega), h.tbl x (by omega)]
  · intro k hk
    rcases key_width_succ (by decide) hk with hk | ⟨hd,hr⟩
    · rw [hsame.leafAt (by decide) hk, h.leaf_eq k hk]
    · simp only [leafAt,hd,hrow,hlink]
      rw [hchild.leaf_eq _ hr, hsub.leafAt (by decide) hr]
  · intro x
    rw [hpages, pages_width_succ, hrow, hlink, hsame.pages, h.pages_eq]
    simp only [hchild.pages_eq,hsub.pages]
  · rw [inner_width_succ, hrow]
    refine ⟨hsame.inner h.small,hq,fun d hd => ?_⟩
    rw [hlink] at hd
    cases hd
    exact hchild.small

theorem clearFrom_spec (hsmall : Inner Pte.link 512 Pte.Small m.tbl l n t)
    (hone : ∀ x, pages Pte.link 512 m.tbl l n t x ≤ 1) :
    Cleared m (clearFrom flags l n m t) flags l n t := by
  induction l generalizing m n t with
  | zero => exact foldl_range_inv (fun i s => Cleared m s flags 0 i t) .zero fun i s _ h => h.step_leaf
  | succ l ih =>
    refine foldl_range_inv (fun i s => Cleared m s flags (l+1) i t) .zero fun i s hi h => ?_
    have hrow := h.upper i le_rfl
    cases hp : (m.tbl t i).p with
    | false =>
      simp only [hrow,hp,Bool.not_false,↓reduceIte]
      exact h.step_absent hp
    | true =>
      simp only [hrow,hp,Bool.not_true,Bool.false_eq_true,↓reduceIte]
      have hlink := (hsmall i hi).1 hp
      have hw : ∀ x, pages Pte.link 512 m.tbl (l+1) (i+1) t x ≤ 1 := fun x =>
        (pages_width_mono (by omega) x).trans (hone x)
      have hsub : Same Pte.link 512 m.tbl s.tbl l 512 (m.tbl t i).frame := same_of_pages fun x hx => by
        apply h.tbl
        have h1 := hw x
        rw [pages_width_succ, hlink] at h1
        simp only at h1
        omega
      refine h.step_table hlink hw hsub (hsmall i hi).1 (ih (hsub.inner ((hsmall i hi).2 _ hlink)) ?_)
      intro x
      have h1 := pages_child_le (B := 512) hi hlink x
      have h2 := hone x
      rw [hsub.pages]
      omega

end Ukern
