import Ukern.Lib.Fold
import Mathlib.Tactic.Linarith

/-! # Radix tables stored in a heap of pages

A table of level `l+1` is a page of `B` entries; `link l e` is the page of the
table of level `l` that entry `e` leads to, if any. A table of level 0 holds the
leaves. Only the first `n` entries of the root count, so that a root may share a
page with entries of another use. The development gives the map from keys to
leaves, the number of occurrences of each page among the tables, and sums over the
leaves, and says which heap changes keep them.
-/
namespace Ukern.Lib.Radix
variable {E : Type*} (link : ℕ → E → Option ℕ) (B : ℕ) (z : E)

/-- The leaf below `t` at key `k`, or `z` when a table on the way is missing. -/
def leafAt (tbl : ℕ → ℕ → E) : ℕ → ℕ → ℕ → E
  | 0, t, k => tbl t k
  | l+1, t, k =>
    match link l (tbl t (k / B^(l+1))) with
    | none => z
    | some c => leafAt tbl l c (k % B^(l+1))

/-- How often page `x` occurs among the tables below `t`, `t` included. -/
def pages (tbl : ℕ → ℕ → E) : ℕ → ℕ → ℕ → ℕ → ℕ
  | 0, _, t, x => if x = t then 1 else 0
  | l+1, n, t, x => (if x = t then 1 else 0) + ∑ i ∈ Finset.range n,
      match link l (tbl t i) with
      | none => 0
      | some c => pages tbl l B c x

/-- The number of tables below `t`, `t` itself not counted. -/
def tables (tbl : ℕ → ℕ → E) : ℕ → ℕ → ℕ → ℕ
  | 0, _, _ => 0
  | l+1, n, t => ∑ i ∈ Finset.range n,
      match link l (tbl t i) with
      | none => 0
      | some c => 1 + tables tbl l B c

/-- The sum of a weight over all stored leaves. -/
def leafSum (w : E → ℕ) (tbl : ℕ → ℕ → E) : ℕ → ℕ → ℕ → ℕ
  | 0, n, t => ∑ i ∈ Finset.range n, w (tbl t i)
  | l+1, n, t => ∑ i ∈ Finset.range n,
      match link l (tbl t i) with
      | none => 0
      | some c => leafSum w tbl l B c

/-- Both heaps hold the same tables below `t`. -/
def Same (tbl tbl' : ℕ → ℕ → E) : ℕ → ℕ → ℕ → Prop
  | 0, n, t => ∀ i < n, tbl' t i = tbl t i
  | l+1, n, t => ∀ i < n, tbl' t i = tbl t i ∧ ∀ c, link l (tbl t i) = some c → Same tbl tbl' l B c

/-- The page and index that hold the leaf at key `k`. -/
def slotOf (tbl : ℕ → ℕ → E) : ℕ → ℕ → ℕ → Option (ℕ × ℕ)
  | 0, t, k => some (t,k)
  | l+1, t, k =>
    match link l (tbl t (k / B^(l+1))) with
    | none => none
    | some c => slotOf tbl l c (k % B^(l+1))

/-- Every inner entry below `t` satisfies `q`. -/
def Inner (q : ℕ → E → Prop) (tbl : ℕ → ℕ → E) : ℕ → ℕ → ℕ → Prop
  | 0, _, _ => True
  | l+1, n, t => ∀ i < n, q l (tbl t i) ∧ ∀ c, link l (tbl t i) = some c → Inner q tbl l B c

variable {link B z} {tbl tbl' : ℕ → ℕ → E} {l n t k x : ℕ}

theorem one_le_pages_root (link : ℕ → E → Option ℕ) (B : ℕ) (tbl : ℕ → ℕ → E) (l n t : ℕ) :
    1 ≤ pages link B tbl l n t t := by
  cases l <;> simp [pages]

theorem pages_child_le {i c : ℕ} (hi : i < n) (hc : link l (tbl t i) = some c) (x : ℕ) :
    pages link B tbl l B c x + (if x = t then 1 else 0) ≤ pages link B tbl (l+1) n t x := by
  have h := Lib.le_sum_range (n := n) (f := fun i => match link l (tbl t i) with
    | none => 0
    | some c => pages link B tbl l B c x) hi
  simp only [hc] at h
  simp only [pages]
  omega

/-- Tables below two different entries of one page are counted separately. -/
theorem pages_children_le {i j c d : ℕ} (hi : i < n) (hj : j < n) (hij : i ≠ j)
    (hc : link l (tbl t i) = some c) (hd : link l (tbl t j) = some d) (x : ℕ) :
    pages link B tbl l B c x + pages link B tbl l B d x + (if x = t then 1 else 0) ≤
      pages link B tbl (l+1) n t x := by
  have h := Lib.add_le_sum_range (n := n) (f := fun i => match link l (tbl t i) with
    | none => 0
    | some c => pages link B tbl l B c x) hi hj hij
  simp only [hc,hd] at h
  simp only [pages]
  omega

theorem leafSum_child_le {i c : ℕ} (hi : i < n) (hc : link l (tbl t i) = some c) (w : E → ℕ) :
    leafSum link B w tbl l B c ≤ leafSum link B w tbl (l+1) n t := by
  have h := Lib.le_sum_range (n := n) (f := fun i => match link l (tbl t i) with
    | none => 0
    | some c => leafSum link B w tbl l B c) hi
  simp only [hc] at h
  exact h

theorem Same.refl : Same link B tbl tbl l n t := by
  induction l generalizing n t with
  | zero => exact fun _ _ => rfl
  | succ l ih => exact fun _ _ => ⟨rfl,fun _ _ => ih⟩

theorem Same.leafAt (h : Same link B tbl tbl' l n t) (hB : 0 < B) (hk : k < n * B^l) :
    leafAt link B z tbl' l t k = leafAt link B z tbl l t k := by
  induction l generalizing n t k with
  | zero => exact h k (by simpa using hk)
  | succ l ih =>
    have hi : k / B^(l+1) < n := Nat.div_lt_of_lt_mul (by rwa [Nat.mul_comm])
    obtain ⟨he,hs⟩ := h _ hi
    simp only [Radix.leafAt,he]
    cases hc : link l (tbl t (k / B^(l+1))) with
    | none => rfl
    | some c =>
      have hr : k % B^(l+1) < B * B^l := by
        rw [← Nat.pow_succ']
        exact Nat.mod_lt _ (Nat.pow_pos hB)
      exact ih (hs c hc) hr

theorem Same.pages (h : Same link B tbl tbl' l n t) (x : ℕ) :
    pages link B tbl' l n t x = pages link B tbl l n t x := by
  induction l generalizing n t with
  | zero => rfl
  | succ l ih =>
    simp only [Radix.pages]
    congr 1
    apply Finset.sum_congr rfl
    intro i hi
    obtain ⟨he,hs⟩ := h i (Finset.mem_range.mp hi)
    rw [he]
    cases hc : link l (tbl t i) with
    | none => rfl
    | some c => exact ih (hs c hc)

theorem Same.tables (h : Same link B tbl tbl' l n t) : tables link B tbl' l n t = tables link B tbl l n t := by
  induction l generalizing n t with
  | zero => rfl
  | succ l ih =>
    apply Finset.sum_congr rfl
    intro i hi
    obtain ⟨he,hs⟩ := h i (Finset.mem_range.mp hi)
    rw [he]
    cases hc : link l (tbl t i) with
    | none => rfl
    | some c => simp only [ih (hs c hc)]

theorem Same.leafSum (h : Same link B tbl tbl' l n t) (w : E → ℕ) :
    leafSum link B w tbl' l n t = leafSum link B w tbl l n t := by
  induction l generalizing n t with
  | zero => exact Finset.sum_congr rfl fun i hi => by rw [h i (Finset.mem_range.mp hi)]
  | succ l ih =>
    apply Finset.sum_congr rfl
    intro i hi
    obtain ⟨he,hs⟩ := h i (Finset.mem_range.mp hi)
    rw [he]
    cases hc : link l (tbl t i) with
    | none => rfl
    | some c => exact ih (hs c hc)

theorem Same.inner (h : Same link B tbl tbl' l n t) {q : ℕ → E → Prop}
    (hq : Inner link B q tbl l n t) : Inner link B q tbl' l n t := by
  induction l generalizing n t with
  | zero => trivial
  | succ l ih =>
    intro i hi
    obtain ⟨he,hs⟩ := h i hi
    rw [he]
    exact ⟨(hq i hi).1,fun c hc => ih (hs c hc) ((hq i hi).2 c hc)⟩

theorem same_of_pages (h : ∀ x, pages link B tbl l n t x ≠ 0 → tbl' x = tbl x) :
    Same link B tbl tbl' l n t := by
  induction l generalizing n t with
  | zero => exact fun i _ => by rw [h t (by simp [pages])]
  | succ l ih =>
    intro i hi
    refine ⟨by rw [h t (by simp [pages])],fun c hc => ih fun x hx => h x ?_⟩
    have hle := pages_child_le (B := B) hi hc x
    omega

theorem same_of_pages_below (hroot : ∀ i < n, tbl' t i = tbl t i)
    (hone : pages link B tbl l n t t ≤ 1)
    (h : ∀ x, x ≠ t → pages link B tbl l n t x ≠ 0 → tbl' x = tbl x) :
    Same link B tbl tbl' l n t := by
  cases l with
  | zero => exact hroot
  | succ l =>
    intro i hi
    refine ⟨hroot i hi,fun c hc => same_of_pages fun x hx => h x ?_ ?_⟩
    · rintro rfl
      have hle := pages_child_le (B := B) hi hc x
      simp only [↓reduceIte] at hle
      omega
    · have hle := pages_child_le (B := B) hi hc x
      omega

theorem leafSum_eq (hB : 0 < B) {w : E → ℕ} (hz : w z = 0) :
    leafSum link B w tbl l n t = ∑ k ∈ Finset.range (n * B^l), w (leafAt link B z tbl l t k) := by
  induction l generalizing n t with
  | zero => simp [leafSum,leafAt]
  | succ l ih =>
    rw [Lib.sum_range_rows]
    apply Finset.sum_congr rfl
    intro i _
    have hdiv : ∀ j, j < B^(l+1) → (i * B^(l+1) + j) / B^(l+1) = i := fun j hj => by
      rw [Nat.mul_comm, Nat.mul_add_div (Nat.pow_pos hB), Nat.div_eq_of_lt hj, Nat.add_zero]
    have hmod : ∀ j, j < B^(l+1) → (i * B^(l+1) + j) % B^(l+1) = j := fun j hj => by
      rw [Nat.mul_comm, Nat.mul_add_mod, Nat.mod_eq_of_lt hj]
    have hrow : ∀ j, j < B^(l+1) → leafAt link B z tbl (l+1) t (i * B^(l+1) + j) =
        match link l (tbl t i) with
        | none => z
        | some c => leafAt link B z tbl l c j := fun j hj => by
      simp only [leafAt,hdiv j hj,hmod j hj]
    cases hc : link l (tbl t i) with
    | none =>
      symm
      apply Finset.sum_eq_zero
      intro j hj
      rw [hrow j (Finset.mem_range.mp hj),hc]
      exact hz
    | some c =>
      rw [show B^(l+1) = B * B^l from Nat.pow_succ'] at hrow ⊢
      simp only [ih]
      apply Finset.sum_congr rfl
      intro j hj
      rw [hrow j (Finset.mem_range.mp hj),hc]

/-- A table with no links is one page, and every leaf below it is missing. -/
theorem pages_of_empty (h : ∀ l i, link l (tbl t i) = none) (x : ℕ) :
    pages link B tbl l n t x = if x = t then 1 else 0 := by
  cases l with
  | zero => rfl
  | succ l => simp [pages,h]

theorem leafAt_of_empty (h : ∀ l i, link l (tbl t i) = none) (hz : ∀ i, tbl t i = z) :
    leafAt link B z tbl l t k = z := by
  cases l with
  | zero => exact hz k
  | succ l => simp [leafAt,h]

theorem inner_of_empty {q : ℕ → E → Prop} (h : ∀ l i, link l (tbl t i) = none)
    (hq : ∀ l i, q l (tbl t i)) : Inner link B q tbl l n t := by
  cases l with
  | zero => trivial
  | succ l =>
    intro i _
    refine ⟨hq l i,fun c hc => ?_⟩
    rw [h] at hc
    cases hc

section Subtree
/-! ## One more root entry -/

theorem pages_width_succ (x : ℕ) : pages link B tbl (l+1) (n+1) t x =
    pages link B tbl (l+1) n t x + match link l (tbl t n) with
      | none => 0
      | some c => pages link B tbl l B c x := by
  simp only [pages]
  rw [Finset.sum_range_succ, Nat.add_assoc]

theorem tables_width_succ : tables link B tbl (l+1) (n+1) t =
    tables link B tbl (l+1) n t + match link l (tbl t n) with
      | none => 0
      | some c => 1 + tables link B tbl l B c := by
  simp only [tables]
  rw [Finset.sum_range_succ]

theorem pages_width_mono {n' : ℕ} (h : n ≤ n') (x : ℕ) :
    pages link B tbl l n t x ≤ pages link B tbl l n' t x := by
  cases l with
  | zero => exact le_rfl
  | succ l => exact Nat.add_le_add_left (Finset.sum_le_sum_of_subset (Finset.range_mono h)) _

theorem leafSum_width_succ (w : E → ℕ) : leafSum link B w tbl (l+1) (n+1) t =
    leafSum link B w tbl (l+1) n t + match link l (tbl t n) with
      | none => 0
      | some c => leafSum link B w tbl l B c := by
  simp only [leafSum]
  rw [Finset.sum_range_succ]

theorem leafSum_width_mono {n' : ℕ} (h : n ≤ n') (w : E → ℕ) :
    leafSum link B w tbl l n t ≤ leafSum link B w tbl l n' t := by
  cases l with
  | zero => exact Finset.sum_le_sum_of_subset (Finset.range_mono h)
  | succ l => exact Finset.sum_le_sum_of_subset (Finset.range_mono h)

theorem inner_width_succ {q : ℕ → E → Prop} : Inner link B q tbl (l+1) (n+1) t ↔
    Inner link B q tbl (l+1) n t ∧ q l (tbl t n) ∧
      ∀ c, link l (tbl t n) = some c → Inner link B q tbl l B c := by
  constructor
  · intro h
    exact ⟨fun i hi => h i (by omega),h n (by omega)⟩
  · rintro ⟨h,hn⟩ i hi
    rcases Nat.lt_succ_iff_lt_or_eq.mp hi with hi | rfl
    · exact h i hi
    · exact hn

theorem key_width_succ (hB : 0 < B) (hk : k < (n+1) * B^(l+1)) :
    k < n * B^(l+1) ∨ k / B^(l+1) = n ∧ k % B^(l+1) < B * B^l := by
  have hpos : 0 < B^(l+1) := Nat.pow_pos hB
  rcases Nat.lt_or_ge k (n * B^(l+1)) with h | h
  · exact Or.inl h
  · have h1 : n ≤ k / B^(l+1) := (Nat.le_div_iff_mul_le hpos).mpr h
    have h2 : k / B^(l+1) < n+1 := (Nat.div_lt_iff_lt_mul hpos).mpr hk
    refine Or.inr ⟨by omega,?_⟩
    rw [← Nat.pow_succ']
    exact Nat.mod_lt _ hpos

theorem pages_zero_width (x : ℕ) : pages link B tbl l 0 t x = if x = t then 1 else 0 := by
  cases l <;> simp [pages]

theorem leafSum_zero_width (w : E → ℕ) : leafSum link B w tbl l 0 t = 0 := by
  cases l <;> simp [leafSum]

theorem inner_zero_width {q : ℕ → E → Prop} : Inner link B q tbl l 0 t := by
  cases l with
  | zero => trivial
  | succ l => exact fun i hi => absurd hi (by omega)

variable {j d : ℕ}

/-- Everything below the root entries other than `j` is as before. -/
def SameBut (link : ℕ → E → Option ℕ) (B : ℕ) (tbl tbl' : ℕ → ℕ → E) (l n t j : ℕ) : Prop :=
  ∀ i < n, i ≠ j → tbl' t i = tbl t i ∧ ∀ c, link l (tbl t i) = some c → Same link B tbl tbl' l B c

theorem SameBut.leafAt (h : SameBut link B tbl tbl' l n t j) (hB : 0 < B)
    (hd : link l (tbl' t j) = some d) (hk : k < n * B^(l+1)) :
    leafAt link B z tbl' (l+1) t k =
      if k / B^(l+1) = j then leafAt link B z tbl' l d (k % B^(l+1))
      else leafAt link B z tbl (l+1) t k := by
  by_cases hj : k / B^(l+1) = j
  · rw [if_pos hj]
    simp only [Radix.leafAt,hj,hd]
  · rw [if_neg hj]
    have hi : k / B^(l+1) < n := Nat.div_lt_of_lt_mul (by rwa [Nat.mul_comm])
    obtain ⟨he,hs⟩ := h _ hi hj
    simp only [Radix.leafAt,he]
    cases hc : link l (tbl t (k / B^(l+1))) with
    | none => rfl
    | some c =>
      have hr : k % B^(l+1) < B * B^l := by
        rw [← Nat.pow_succ']
        exact Nat.mod_lt _ (Nat.pow_pos hB)
      exact (hs c hc).leafAt hB hr

theorem SameBut.pages (h : SameBut link B tbl tbl' l n t j) (hj : j < n)
    (hd : link l (tbl' t j) = some d) (x : ℕ) :
    pages link B tbl' (l+1) n t x + (match link l (tbl t j) with
        | none => 0
        | some c => Radix.pages link B tbl l B c x) =
      pages link B tbl (l+1) n t x + Radix.pages link B tbl' l B d x := by
  have hs := Lib.sum_range_replace (n := n) hj
    (f := fun i => match link l (tbl' t i) with
      | none => 0
      | some c => Radix.pages link B tbl' l B c x)
    (g := fun i => match link l (tbl t i) with
      | none => 0
      | some c => Radix.pages link B tbl l B c x) (by
      intro i hi hij
      obtain ⟨he,hs⟩ := h i hi hij
      rw [he]
      cases hc : link l (tbl t i) with
      | none => rfl
      | some c => exact (hs c hc).pages x)
  simp only [hd] at hs
  simp only [Radix.pages]
  omega

theorem SameBut.inner (h : SameBut link B tbl tbl' l n t j) {q : ℕ → E → Prop}
    (hq : Inner link B q tbl (l+1) n t) (hj : q l (tbl' t j))
    (hsub : ∀ c, link l (tbl' t j) = some c → Inner link B q tbl' l B c) :
    Inner link B q tbl' (l+1) n t := by
  intro i hi
  by_cases hij : i = j
  · subst hij
    exact ⟨hj,hsub⟩
  · obtain ⟨he,hs⟩ := h i hi hij
    rw [he]
    exact ⟨(hq i hi).1,fun c hc => (hs c hc).inner ((hq i hi).2 c hc)⟩

end Subtree

section Slot
variable {p i : ℕ}

theorem leafAt_eq_slot : leafAt link B z tbl l t k =
    match slotOf link B tbl l t k with
    | none => z
    | some s => tbl s.1 s.2 := by
  induction l generalizing t k with
  | zero => rfl
  | succ l ih =>
    simp only [leafAt,slotOf]
    cases link l (tbl t (k / B^(l+1))) with
    | none => rfl
    | some c => exact ih

theorem pages_of_slotOf (hB : 0 < B) (hk : k < n * B^l) (h : slotOf link B tbl l t k = some (p,i)) :
    pages link B tbl l n t p ≠ 0 := by
  induction l generalizing n t k with
  | zero =>
    cases h
    simp [pages]
  | succ l ih =>
    have hi : k / B^(l+1) < n := Nat.div_lt_of_lt_mul (by rwa [Nat.mul_comm])
    simp only [slotOf] at h
    cases hc : link l (tbl t (k / B^(l+1))) with
    | none => simp [hc] at h
    | some c =>
      rw [hc] at h
      have hr : k % B^(l+1) < B * B^l := by
        rw [← Nat.pow_succ']
        exact Nat.mod_lt _ (Nat.pow_pos hB)
      have hne := ih hr h
      have hle := pages_child_le (B := B) hi hc p
      omega

theorem Same.slotOf (h : Same link B tbl tbl' l n t) (hB : 0 < B) (hk : k < n * B^l) :
    slotOf link B tbl' l t k = slotOf link B tbl l t k := by
  induction l generalizing n t k with
  | zero => rfl
  | succ l ih =>
    have hi : k / B^(l+1) < n := Nat.div_lt_of_lt_mul (by rwa [Nat.mul_comm])
    obtain ⟨he,hs⟩ := h _ hi
    simp only [Radix.slotOf,he]
    cases hc : link l (tbl t (k / B^(l+1))) with
    | none => rfl
    | some c =>
      refine ih (hs c hc) ?_
      rw [← Nat.pow_succ']
      exact Nat.mod_lt _ (Nat.pow_pos hB)

theorem slotOf_ne_root (hB : 0 < B) (hk : k < n * B^(l+1)) (hone : pages link B tbl (l+1) n t t ≤ 1)
    (h : slotOf link B tbl (l+1) t k = some (p,i)) : p ≠ t := by
  rintro rfl
  have hi : k / B^(l+1) < n := Nat.div_lt_of_lt_mul (by rwa [Nat.mul_comm])
  simp only [slotOf] at h
  cases hc : link l (tbl p (k / B^(l+1))) with
  | none => simp [hc] at h
  | some c =>
    simp only [hc] at h
    have hr : k % B^(l+1) < B * B^l := by
      rw [← Nat.pow_succ']
      exact Nat.mod_lt _ (Nat.pow_pos hB)
    have h1 := pages_of_slotOf hB hr h
    have h2 := pages_child_le (B := B) hi hc p
    simp only [↓reduceIte] at h2
    omega

theorem slotOf_inj {k' : ℕ} {s : ℕ × ℕ} (hB : 0 < B) (hone : ∀ x, pages link B tbl l n t x ≤ 1) (hk : k < n * B^l)
    (hk' : k' < n * B^l) (h : slotOf link B tbl l t k = some s) (h' : slotOf link B tbl l t k' = some s) :
    k = k' := by
  induction l generalizing n t k k' with
  | zero =>
    cases h
    cases h'
    rfl
  | succ l ih =>
    have hrow : ∀ j, j % B^(l+1) < B * B^l := fun j => by
      rw [← Nat.pow_succ']
      exact Nat.mod_lt _ (Nat.pow_pos hB)
    have hi : k / B^(l+1) < n := Nat.div_lt_of_lt_mul (by rwa [Nat.mul_comm])
    have hi' : k' / B^(l+1) < n := Nat.div_lt_of_lt_mul (by rwa [Nat.mul_comm])
    simp only [slotOf] at h h'
    cases hc : link l (tbl t (k / B^(l+1))) with
    | none => simp [hc] at h
    | some c =>
      cases hd : link l (tbl t (k' / B^(l+1))) with
      | none => simp [hd] at h'
      | some d =>
        simp only [hc] at h
        simp only [hd] at h'
        by_cases hdiv : k / B^(l+1) = k' / B^(l+1)
        · rw [hdiv, hd] at hc
          obtain rfl := Option.some.inj hc
          have hone' : ∀ x, pages link B tbl l B d x ≤ 1 := fun x => by
            have h1 := pages_child_le (B := B) hi' hd x
            have h2 := hone x
            omega
          have hmod := ih hone' (hrow k) (hrow k') h h'
          rw [← Nat.div_add_mod k (B^(l+1)), ← Nat.div_add_mod k' (B^(l+1)), hdiv, hmod]
        · -- the page of the slot would be below both entries
          have h1 := pages_of_slotOf hB (hrow k) h
          have h2 := pages_of_slotOf hB (hrow k') h'
          have h3 := pages_children_le (B := B) hi hi' hdiv hc hd s.1
          have h4 := hone s.1
          omega

theorem slotOf_mono {s : ℕ × ℕ} (hB : 0 < B) (hk : k < n * B^l)
    (htbl : ∀ x i j, pages link B tbl l n t x ≠ 0 → link j (tbl x i) ≠ none → tbl' x i = tbl x i)
    (h : slotOf link B tbl l t k = some s) : slotOf link B tbl' l t k = some s := by
  induction l generalizing n t k with
  | zero => exact h
  | succ l ih =>
    have hi : k / B^(l+1) < n := Nat.div_lt_of_lt_mul (by rwa [Nat.mul_comm])
    simp only [slotOf] at h ⊢
    cases hc : link l (tbl t (k / B^(l+1))) with
    | none => simp [hc] at h
    | some c =>
      have hroot : pages link B tbl (l+1) n t t ≠ 0 := Nat.ne_of_gt (one_le_pages_root ..)
      rw [htbl t _ l hroot (by rw [hc]; nofun), hc]
      simp only [hc] at h
      refine ih (n := B) ?_ (fun x i j hx => htbl x i j ?_) h
      · rw [← Nat.pow_succ']
        exact Nat.mod_lt _ (Nat.pow_pos hB)
      · have h1 := pages_child_le (B := B) hi hc x
        omega

/-- Writing a slot changes the leaf at its own key and nothing else. -/
theorem slotOf_update (hB : 0 < B) (hk : k < n * B^l) (hone : ∀ x, pages link B tbl l n t x ≤ 1)
    (h : slotOf link B tbl l t k = some (p,i)) (e : E)
    (htbl : tbl' = Function.update tbl p (Function.update (tbl p) i e)) :
    (∀ k' < n * B^l, leafAt link B z tbl' l t k' = if k' = k then e else leafAt link B z tbl l t k') ∧
    (∀ x, pages link B tbl' l n t x = pages link B tbl l n t x) ∧
    ∀ q : ℕ → E → Prop, Inner link B q tbl l n t → Inner link B q tbl' l n t := by
  induction l generalizing n t k with
  | zero =>
    cases h
    refine ⟨fun k' _ => ?_,fun _ => rfl,fun _ h => h⟩
    rw [htbl]
    simp only [leafAt,Function.update_self]
    exact Function.update_apply ..
  | succ l ih =>
    have hi : k / B^(l+1) < n := Nat.div_lt_of_lt_mul (by rwa [Nat.mul_comm])
    simp only [slotOf] at h
    cases hc : link l (tbl t (k / B^(l+1))) with
    | none => simp [hc] at h
    | some c =>
      rw [hc] at h
      have hr : k % B^(l+1) < B * B^l := by
        rw [← Nat.pow_succ']
        exact Nat.mod_lt _ (Nat.pow_pos hB)
      have hone' : ∀ x, pages link B tbl l B c x ≤ 1 := fun x => by
        have h1 := pages_child_le (B := B) hi hc x
        have h2 := hone x
        omega
      have hp := pages_of_slotOf hB hr h
      have hpt : p ≠ t := by
        rintro rfl
        have h1 := pages_child_le (B := B) hi hc p
        have h2 := hone p
        simp only [↓reduceIte] at h1
        omega
      have hother : ∀ x, x ≠ p → tbl' x = tbl x := fun x hx => by
        rw [htbl, Function.update_of_ne hx]
      have hroot : tbl' t = tbl t := hother t (Ne.symm hpt)
      have hsb : SameBut link B tbl tbl' l n t (k / B^(l+1)) := by
        intro i' hi' hne
        refine ⟨by rw [hroot],fun d hd => same_of_pages fun x hx => hother x ?_⟩
        rintro rfl
        have h1 := pages_children_le (B := B) hi' hi hne hd hc x
        have h2 := hone x
        omega
      have hd : link l (tbl' t (k / B^(l+1))) = some c := by rw [hroot]; exact hc
      obtain ⟨ihleaf,ihpages,ihinner⟩ := ih hr hone' h
      refine ⟨fun k' hk' => ?_,fun x => ?_,fun q hq => ?_⟩
      · rw [hsb.leafAt hB hd hk']
        by_cases hdiv : k' / B^(l+1) = k / B^(l+1)
        · have hr' : k' % B^(l+1) < B * B^l := by
            rw [← Nat.pow_succ']
            exact Nat.mod_lt _ (Nat.pow_pos hB)
          rw [if_pos hdiv, ihleaf _ hr']
          by_cases hmod : k' % B^(l+1) = k % B^(l+1)
          · have hkk : k' = k := by
              rw [← Nat.div_add_mod k' (B^(l+1)), ← Nat.div_add_mod k (B^(l+1)), hdiv, hmod]
            rw [if_pos hmod, if_pos hkk]
          · have hkk : k' ≠ k := fun he => hmod (by rw [he])
            rw [if_neg hmod, if_neg hkk]
            simp only [leafAt,hdiv,hc]
        · have hkk : k' ≠ k := fun he => hdiv (by rw [he])
          rw [if_neg hdiv, if_neg hkk]
      · have hs := hsb.pages hi hd x
        rw [hc] at hs
        simp only [ihpages] at hs
        omega
      · refine hsb.inner hq (by rw [hroot]; exact (hq _ hi).1) ?_
        intro d hd'
        rw [hd] at hd'
        cases hd'
        exact ihinner q ((hq _ hi).2 c hc)

end Slot

theorem sum_pages {F : Finset ℕ} (hF : ∀ x, pages link B tbl l n t x ≠ 0 → x ∈ F) :
    ∑ x ∈ F, pages link B tbl l n t x = 1 + tables link B tbl l n t := by
  have hroot : ∑ x ∈ F, (if x = t then 1 else 0) = 1 := by
    rw [Finset.sum_ite_eq']
    exact if_pos (hF t (Nat.ne_of_gt (one_le_pages_root ..)))
  induction l generalizing n t with
  | zero => exact hroot
  | succ l ih =>
    simp only [pages,tables,Finset.sum_add_distrib]
    rw [hroot, Finset.sum_comm]
    congr 1
    apply Finset.sum_congr rfl
    intro i hi
    cases hc : link l (tbl t i) with
    | none => simp
    | some c =>
      have hle := pages_child_le (B := B) (Finset.mem_range.mp hi) hc
      have hF' : ∀ x, pages link B tbl l B c x ≠ 0 → x ∈ F := fun x hx => hF x (by have := hle x; omega)
      refine ih hF' ?_
      rw [Finset.sum_ite_eq']
      exact if_pos (hF' c (Nat.ne_of_gt (one_le_pages_root ..)))

theorem le_tables_of_slotOf {s : ℕ × ℕ} (hB : 0 < B) (hk : k < n * B^l) (h : slotOf link B tbl l t k = some s) :
    l ≤ tables link B tbl l n t := by
  induction l generalizing n t k with
  | zero => exact Nat.zero_le _
  | succ l ih =>
    have hi : k / B^(l+1) < n := Nat.div_lt_of_lt_mul (by rwa [Nat.mul_comm])
    have hr : k % B^(l+1) < B * B^l := by
      rw [← Nat.pow_succ']
      exact Nat.mod_lt _ (Nat.pow_pos hB)
    simp only [slotOf] at h
    cases hc : link l (tbl t (k / B^(l+1))) with
    | none => simp [hc] at h
    | some c =>
      rw [hc] at h
      have hsum := le_sum_range (f := fun i => match link l (tbl t i) with
        | none => 0
        | some c => 1 + tables link B tbl l B c) hi
      simp only [hc] at hsum
      have hchild := ih hr h
      simp only [tables]
      omega

end Ukern.Lib.Radix
