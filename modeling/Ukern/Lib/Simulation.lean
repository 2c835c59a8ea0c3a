import Mathlib.Algebra.BigOperators.Group.List.Basic
import Mathlib.Data.List.Basic

/-! # Labelled runs

Runs of a labelled transition relation with the labels they perform, invariants over them, refinement by a
function that maps every step to a run, and stocks that every step balances.
-/
namespace Ukern.Lib
variable {σ τ α : Type*} {R : σ → α → σ → Prop} {Q : τ → α → τ → Prop} {P : σ → Prop} {s t : σ} {as : List α}

/-- The run that performs the labels `as`. -/
inductive Trace (R : σ → α → σ → Prop) (s : σ) : List α → σ → Prop
  | nil : Trace R s [] s
  | snoc {as : List α} {a : α} {t u : σ} (h : Trace R s as t) (hs : R t a u) : Trace R s (as ++ [a]) u

namespace Trace

theorem invariant (h : Trace R s as t) (h₀ : P s) (hstep : ∀ t a u, P t → R t a u → P u) : P t := by
  induction h with
  | nil => exact h₀
  | snoc _ hs ih => exact hstep _ _ _ ih hs

theorem append {bs : List α} {u : σ} (h : Trace R s as t) (h' : Trace R t bs u) : Trace R s (as ++ bs) u := by
  induction h' with
  | nil => rwa [List.append_nil]
  | snoc _ hs ih =>
    rw [← List.append_assoc]
    exact ih.snoc hs

/-- Where an invariant holds, `f` maps every step to the run that its label spells out; then it maps runs to runs. -/
theorem refine {B : σ → List α → σ → Prop} {ls : List (List α)} (f : σ → τ) (h : Trace B s ls t) (h₀ : P s)
    (hstep : ∀ t l u, P t → B t l u → P u ∧ Trace Q (f t) l (f u)) : Trace Q (f s) ls.flatten (f t) := by
  induction h with
  | nil => exact .nil
  | @snoc ls l t u h hs ih =>
    have ht : P t := h.invariant h₀ fun t l u ht hs => (hstep t l u ht hs).1
    rw [List.flatten_append, List.flatten_singleton]
    exact ih.append (hstep t l u ht hs).2

/-- Labels say what a step adds to a stock and what it takes off. Where every step balances, so does a run. -/
theorem balance {M : Type*} [AddCommMonoid M] {B : σ → M × M → σ → Prop} {ls : List (M × M)} (stock : σ → M)
    (h : Trace B s ls t) (h₀ : P s) (hstep : ∀ t l u, P t → B t l u → P u ∧ stock t + l.1 = l.2 + stock u) :
    stock s + (ls.map Prod.fst).sum = (ls.map Prod.snd).sum + stock t := by
  induction h with
  | nil => rw [List.map_nil, List.map_nil, List.sum_nil, add_zero, zero_add]
  | @snoc ls l t u h hs ih =>
    have ht : P t := h.invariant h₀ fun t l u ht hs => (hstep t l u ht hs).1
    rw [List.map_append, List.map_append, List.sum_append, List.sum_append, List.map_singleton, List.map_singleton,
      List.sum_singleton, List.sum_singleton, ← add_assoc, ih, add_assoc, (hstep t l u ht hs).2, add_assoc]

end Trace

end Ukern.Lib
