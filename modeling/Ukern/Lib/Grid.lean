import Mathlib.Logic.Function.Basic
import Ukern.Lib.Fold

/-! # Filling a grid

Two nested loops that write one value for each pair of indices, to places that are all different.
-/
namespace Ukern.Lib
universe u
variable {α β : Type u} [DecidableEq α]

theorem row_major {w x x' y y' : ℕ} (hx : x < w) (hx' : x' < w) (h : y * w + x = y' * w + x') : y = y' ∧ x = x' := by
  have hw : 0 < w := by omega
  have hdiv := congrArg (· / w) h
  have hmod := congrArg (· % w) h
  simp only [Nat.mul_add_mod_self_right, Nat.mod_eq_of_lt hx, Nat.mod_eq_of_lt hx'] at hmod
  rw [Nat.mul_comm, Nat.mul_comm y'] at hdiv
  simp only [Nat.mul_add_div hw, Nat.div_eq_of_lt hx, Nat.div_eq_of_lt hx', Nat.add_zero] at hdiv
  exact ⟨hdiv,hmod⟩

theorem foldl_update {k : ℕ → α} (v : ℕ → β) {n : ℕ} (f₀ : α → β) (hk : ∀ i < n, ∀ j < n, k i = k j → i = j) :
    (∀ i < n, (List.range n).foldl (fun f i => Function.update f (k i) (v i)) f₀ (k i) = v i) ∧
    ∀ a, (∀ i < n, a ≠ k i) → (List.range n).foldl (fun f i => Function.update f (k i) (v i)) f₀ a = f₀ a := by
  refine foldl_range_inv (fun n' (f : α → β) => (∀ i < n', f (k i) = v i) ∧ ∀ a, (∀ i < n', a ≠ k i) → f a = f₀ a)
    ⟨nofun,fun _ _ => rfl⟩ ?_
  rintro n' f hn' ⟨hin,hout⟩
  constructor
  · intro i hi
    rcases Nat.lt_succ_iff_lt_or_eq.mp hi with hi | rfl
    · rw [Function.update_of_ne, hin i hi]
      intro he
      exact hi.ne (hk i (hi.trans hn') n' hn' he)
    · exact Function.update_self ..
  · intro a ha
    rw [Function.update_of_ne (ha n' (Nat.lt_succ_self n'))]
    exact hout a fun i hi => ha i (hi.trans (Nat.lt_succ_self n'))

theorem foldl_grid {k : ℕ → ℕ → α} (v : ℕ → ℕ → β) {m n : ℕ} (f₀ : α → β)
    (hk : ∀ i < m, ∀ j < n, ∀ i' < m, ∀ j' < n, k i j = k i' j' → i = i' ∧ j = j') :
    let f := (List.range m).foldl (fun f i => (List.range n).foldl (fun f j => Function.update f (k i j) (v i j)) f) f₀
    (∀ i < m, ∀ j < n, f (k i j) = v i j) ∧ ∀ a, (∀ i < m, ∀ j < n, a ≠ k i j) → f a = f₀ a := by
  refine foldl_range_inv
    (fun m' (f : α → β) => (∀ i < m', ∀ j < n, f (k i j) = v i j) ∧ ∀ a, (∀ i < m', ∀ j < n, a ≠ k i j) → f a = f₀ a)
    ⟨nofun,fun _ _ => rfl⟩ ?_
  rintro m' f hm' ⟨hin,hout⟩
  obtain ⟨hrow,hrest⟩ := foldl_update (k := k m') (v m') f fun i hi j hj he => (hk m' hm' i hi m' hm' j hj he).2
  constructor
  · intro i hi j hj
    rcases Nat.lt_succ_iff_lt_or_eq.mp hi with hi | rfl
    · rw [hrest, hin i hi j hj]
      intro j' hj' he
      exact hi.ne (hk i (hi.trans hm') j hj m' hm' j' hj' he).1
    · exact hrow j hj
  · intro a ha
    rw [hrest a (ha m' (Nat.lt_succ_self m'))]
    exact hout a fun i hi => ha i (hi.trans (Nat.lt_succ_self m'))

end Ukern.Lib
