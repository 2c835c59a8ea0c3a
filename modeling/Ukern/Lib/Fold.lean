import Mathlib.Algebra.BigOperators.Intervals
import Mathlib.Algebra.Order.BigOperators.Group.Finset
import Mathlib.Data.Set.Card
import Mathlib.Tactic.Ring

/-! # Loops with failure and finite counts

Rules for counted loops in `Except`, and the two facts about sums over an
initial segment that counting arguments need: replacing one summand, and
regrouping a product range into rows.
-/
namespace Ukern.Lib
universe u v
variable {ε : Type u} {α β σ : Type v}

theorem ok_bind (a : α) (f : α → Except ε β) : (Except.ok a >>= f) = f a := rfl

theorem error_bind (e : ε) (f : α → Except ε β) : (Except.error e >>= f) = .error e := rfl

theorem bind_eq_ok {x : Except ε α} {f : α → Except ε β} {b : β} :
    (x >>= f) = .ok b ↔ ∃ a, x = .ok a ∧ f a = .ok b := by
  constructor
  · intro h
    cases x with
    | error e => cases h
    | ok a => exact ⟨a,rfl,h⟩
  · rintro ⟨a,rfl,hf⟩
    exact hf

theorem eq_ok_of_toOption {x : Except ε α} {a : α} (h : x.toOption = some a) : x = .ok a := by
  cases x with
  | error e => cases h
  | ok b => exact congrArg Except.ok (Option.some.inj h)

theorem exists_ok {x : Except ε α} (h : x.isOk = true) : ∃ a, x = .ok a := by
  cases x with
  | error e => cases h
  | ok a => exact ⟨a,rfl⟩

theorem bind_eq_error {x : Except ε α} {f : α → Except ε β} {e : ε} :
    (x >>= f) = .error e ↔ x = .error e ∨ ∃ a, x = .ok a ∧ f a = .error e := by
  cases x with
  | error e' => exact ⟨fun h => .inl (by cases h; rfl),fun h => h.elim (fun h => by cases h; rfl) nofun⟩
  | ok a => exact ⟨fun h => .inr ⟨a,rfl,h⟩,fun h => h.elim nofun fun ⟨b,hb,h⟩ => by cases hb; exact h⟩

theorem bind_congr_ok {x : Except ε α} {f g : α → Except ε β} (h : ∀ a, x = .ok a → f a = g a) :
    (x >>= f) = (x >>= g) := by
  cases x with
  | error e => rfl
  | ok a => exact h a rfl

theorem foldlM_range_succ (f : σ → ℕ → Except ε σ) (n : ℕ) (s : σ) :
    (List.range (n+1)).foldlM f s = (List.range n).foldlM f s >>= fun s => f s n := by
  rw [List.range_succ, List.foldlM_append]
  simp

theorem foldl_range_inv {f : σ → ℕ → σ} (P : ℕ → σ → Prop) {n : ℕ} {s : σ} (h0 : P 0 s)
    (hstep : ∀ i s, i < n → P i s → P (i+1) (f s i)) : P n ((List.range n).foldl f s) := by
  induction n with
  | zero => exact h0
  | succ n ih =>
    rw [List.range_succ, List.foldl_append]
    exact hstep n _ (by omega) (ih fun i s hi => hstep i s (by omega))

/-- Invariant rule for a counted loop that is known to have returned. -/
theorem foldlM_range_inv {f : σ → ℕ → Except ε σ} (P : ℕ → σ → Prop) {n : ℕ} {s t : σ}
    (h0 : P 0 s) (hstep : ∀ i s t, i < n → P i s → f s i = .ok t → P (i+1) t)
    (h : (List.range n).foldlM f s = .ok t) : P n t := by
  induction n generalizing t with
  | zero => cases h; exact h0
  | succ n ih =>
    rw [foldlM_range_succ, bind_eq_ok] at h
    obtain ⟨r,hr,ht⟩ := h
    have hn := ih (fun i s t hi => hstep i s t (by omega)) hr
    exact hstep n r t (by omega) hn ht

/-- Total version: if every iteration succeeds under the invariant, so does the
whole loop. -/
theorem foldlM_range_total {f : σ → ℕ → Except ε σ} (P : ℕ → σ → Prop) {n : ℕ} {s : σ}
    (h0 : P 0 s) (hstep : ∀ i s, i < n → P i s → ∃ t, f s i = .ok t ∧ P (i+1) t) :
    ∃ t, (List.range n).foldlM f s = .ok t ∧ P n t := by
  induction n with
  | zero => exact ⟨s,rfl,h0⟩
  | succ n ih =>
    obtain ⟨r,hr,hn⟩ := ih (fun i s hi => hstep i s (by omega))
    obtain ⟨t,ht,hp⟩ := hstep n r (by omega) hn
    exact ⟨t,by rw [foldlM_range_succ, hr]; exact ht,hp⟩

theorem foldlM_flatMap {f : List β → α → Except ε (List β)} {g : α → List β} {l : List α}
    (h : ∀ a ∈ l, ∀ s, f s a = .ok (s ++ g a)) (s : List β) : l.foldlM f s = .ok (s ++ l.flatMap g) := by
  induction l generalizing s with
  | nil => rw [List.flatMap_nil, List.append_nil]; rfl
  | cons a l ih =>
    rw [List.foldlM_cons, h a List.mem_cons_self, ok_bind, ih (fun b hb => h b (List.mem_cons_of_mem a hb)),
      List.flatMap_cons, List.append_assoc]

theorem foldlM_round {f : σ → α → Except ε σ} {l : List α} {s t : σ} (h : l.foldlM f s = .ok t)
    {a : α} (ha : a ∈ l) : ∃ s₁ s₂, f s₁ a = .ok s₂ := by
  induction l generalizing s with
  | nil => cases ha
  | cons b l ih =>
    rw [List.foldlM_cons] at h
    obtain ⟨s',hs,hl⟩ := bind_eq_ok.mp h
    rcases List.mem_cons.mp ha with rfl | ha
    · exact ⟨s,s',hs⟩
    · exact ih hl ha

section Sums
variable {ι : Type*} [DecidableEq ι] {s : Finset ι} {f g : ι → ℕ} {i j : ι}

theorem sum_replace (hj : j ∈ s) (h : ∀ i ∈ s, i ≠ j → f i = g i) :
    ∑ i ∈ s, f i + g j = ∑ i ∈ s, g i + f j := by
  rw [← Finset.add_sum_erase _ f hj, ← Finset.add_sum_erase _ g hj]
  have he : ∑ i ∈ s.erase j, f i = ∑ i ∈ s.erase j, g i := by
    apply Finset.sum_congr rfl
    intro i hi
    obtain ⟨hne,hi⟩ := Finset.mem_erase.mp hi
    exact h i hi hne
  omega

omit [DecidableEq ι] in
theorem le_sum (hj : j ∈ s) : f j ≤ ∑ i ∈ s, f i :=
  Finset.single_le_sum (fun _ _ => Nat.zero_le _) hj

theorem add_le_sum (hi : i ∈ s) (hj : j ∈ s) (hij : i ≠ j) : f i + f j ≤ ∑ i ∈ s, f i := by
  have h := Finset.sum_le_sum_of_subset (f := f) (show ({i,j} : Finset ι) ⊆ s by
    intro x hx
    rcases Finset.mem_insert.mp hx with rfl | hx
    · exact hi
    · exact Finset.mem_singleton.mp hx ▸ hj)
  rwa [Finset.sum_pair hij] at h

end Sums

theorem sum_range_replace {f g : ℕ → ℕ} {n j : ℕ} (hj : j < n) (h : ∀ i, i < n → i ≠ j → f i = g i) :
    ∑ i ∈ Finset.range n, f i + g j = ∑ i ∈ Finset.range n, g i + f j :=
  sum_replace (Finset.mem_range.mpr hj) fun i hi => h i (Finset.mem_range.mp hi)

theorem le_sum_range {f : ℕ → ℕ} {n j : ℕ} (hj : j < n) : f j ≤ ∑ i ∈ Finset.range n, f i :=
  le_sum (Finset.mem_range.mpr hj)

theorem add_le_sum_range {f : ℕ → ℕ} {n i j : ℕ} (hi : i < n) (hj : j < n) (hij : i ≠ j) :
    f i + f j ≤ ∑ i ∈ Finset.range n, f i :=
  add_le_sum (Finset.mem_range.mpr hi) (Finset.mem_range.mpr hj) hij

theorem sum_range_rows (f : ℕ → ℕ) (a b : ℕ) :
    ∑ k ∈ Finset.range (a*b), f k =
      ∑ i ∈ Finset.range a, ∑ j ∈ Finset.range b, f (i*b+j) := by
  induction a with
  | zero => simp
  | succ a ih =>
    rw [Nat.succ_mul, Finset.sum_range_add, ih, Finset.sum_range_succ]

/-- Counting pairs of an index and a number below `N`, row by row. -/
theorem ncard_pairs {ι : Type*} [Fintype ι] (N : ℕ) (P : ι × ℕ → Prop) [DecidablePred P] :
    {s : ι × ℕ | s.2 < N ∧ P s}.Finite ∧
      {s : ι × ℕ | s.2 < N ∧ P s}.ncard = ∑ i, ∑ n ∈ Finset.range N, if P (i,n) then 1 else 0 := by
  have hset : {s : ι × ℕ | s.2 < N ∧ P s} = ((Finset.univ ×ˢ Finset.range N).filter P : Finset (ι × ℕ)) := by
    ext s
    simp
  rw [hset, Set.ncard_coe_finset, Finset.card_filter, Finset.sum_product]
  exact ⟨Finset.finite_toSet _,rfl⟩

end Ukern.Lib
