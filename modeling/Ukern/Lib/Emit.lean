import Ukern.Lib.Fold

/-! # Routines that speak through a callback

A routine with a state of its own is given a callback and tells it one symbol after the other. If what it says
does not depend on the callback, it is known from the text alone what the callback makes of it.
-/
namespace Ukern.Lib
variable {τ σ ρ α ε : Type} {put : σ → α → Except ε σ} {f g h : τ → σ → Except ε ρ} {a : α} {x y : List α}

/-- `f` says `x` and goes on as `g`. -/
def Says (put : σ → α → Except ε σ) (f : τ → σ → Except ε ρ) (x : List α) (g : τ → σ → Except ε ρ) : Prop :=
  ∀ t, ∃ t', ∀ s, f t s = x.foldlM put s >>= g t'

/-- `f` says `x` and returns. -/
def Emits (put : σ → α → Except ε σ) (f : τ → σ → Except ε (τ × σ)) (x : List α) : Prop :=
  Says put f x fun t s => .ok (t,s)

theorem Says.refl : Says put f [] f := fun t => ⟨t,fun _ => rfl⟩

theorem Says.trans (hf : Says put f x g) (hg : Says put g y h) : Says put f (x ++ y) h := by
  intro t
  obtain ⟨t₁,h₁⟩ := hf t
  obtain ⟨t₂,h₂⟩ := hg t₁
  refine ⟨t₂,fun s => ?_⟩
  rw [h₁, List.foldlM_append, bind_assoc]
  congr 1
  funext s
  exact h₂ s

theorem says_put : Says put (fun t s => put s a >>= g t) [a] g := by
  intro t
  refine ⟨t,fun s => ?_⟩
  simp only [List.foldlM_cons,List.foldlM_nil,bind_assoc,pure_bind]

theorem Emits.bind {f : τ → σ → Except ε (τ × σ)} (hf : Emits put f x) :
    Says put (fun t s => f t s >>= fun r => g r.1 r.2) x g := by
  intro t
  obtain ⟨t',h'⟩ := hf t
  refine ⟨t',fun s => ?_⟩
  simp only [h',bind_assoc,ok_bind]

theorem foldlM_speaks (put : σ → α → Except ε σ) (v : ℕ → α) (n : ℕ) (s : σ) :
    (List.range n).foldlM (fun s i => put s (v i)) s = ((List.range n).map v).foldlM put s := by
  rw [List.foldlM_map]

end Ukern.Lib
