import Ukern.Lib.Fold

/-! # Postconditions

`Post x Q` says that whatever `x` returns satisfies `Q`; a failing `x` satisfies
every postcondition. The rules follow the ways a computation is put together.
-/
namespace Ukern.Lib
universe u v
variable {ε : Type u} {α β σ ι : Type v} {x y : Except ε α} {f : α → Except ε β} {P Q : α → Prop}
  {R : β → Prop}

def Post (x : Except ε α) (Q : α → Prop) : Prop := ∀ a, x = .ok a → Q a

namespace Post

theorem ok {a : α} (h : Q a) : Post (.ok a : Except ε α) Q := by
  rintro b ⟨⟩
  exact h

theorem error (e : ε) : Post (.error e) Q := nofun

theorem mono (h : Post x P) (hPQ : ∀ a, P a → Q a) : Post x Q := fun a ha => hPQ a (h a ha)

theorem bind (hx : Post x P) (hf : ∀ a, P a → Post (f a) R) : Post (x >>= f) R := by
  intro b hb
  obtain ⟨a,ha,hb⟩ := bind_eq_ok.mp hb
  exact hf a (hx a ha) b hb

theorem seq (hf : ∀ a, Post (f a) R) : Post (x >>= f) R := by
  intro b hb
  obtain ⟨a,-,hb⟩ := bind_eq_ok.mp hb
  exact hf a b hb

theorem step (hf : ∀ a, x = .ok a → Post (f a) R) : Post (x >>= f) R := by
  intro b hb
  obtain ⟨a,ha,hb⟩ := bind_eq_ok.mp hb
  exact hf a ha b hb

theorem ite {c : Prop} [Decidable c] (ht : c → Post x Q) (he : ¬ c → Post y Q) :
    Post (if c then x else y) Q := by
  split
  · exact ht ‹c›
  · exact he ‹¬ c›

theorem foldlM {g : σ → ι → Except ε σ} {I : σ → Prop} (hstep : ∀ s i, I s → Post (g s i) I)
    {l : List ι} {s : σ} (h : I s) : Post (l.foldlM g s) I := by
  induction l generalizing s with
  | nil => exact ok h
  | cons i l ih => exact (hstep s i h).bind fun s hs => ih hs

end Post

theorem foldl_inv {g : σ → ι → σ} {I : σ → Prop} (hstep : ∀ s i, I s → I (g s i)) {l : List ι} {s : σ}
    (h : I s) : I (l.foldl g s) := by
  induction l generalizing s with
  | nil => exact h
  | cons i l ih => exact ih (hstep s i h)

end Ukern.Lib
