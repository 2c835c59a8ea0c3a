import Mathlib.Data.List.Range
import Mathlib.Data.Int.ModEq
import Mathlib.Logic.Function.Basic
import Mathlib.Tactic.Common

/-! # Rings

The queue that a buffer, used in a circle, holds: read off as a list from where it
begins.
-/
namespace Ukern.Lib
universe u
variable {α : Type u} {cap beg n : ℕ} {buf : ℕ → α}

/-- The `n` elements of the ring that begin at `beg`. -/
def ring (cap : ℕ) (buf : ℕ → α) (beg n : ℕ) : List α :=
  (List.range n).map fun i => buf ((beg + i) % cap)

@[simp] theorem ring_length : (ring cap buf beg n).length = n := by simp [ring]

@[simp] theorem ring_zero : ring cap buf beg 0 = [] := rfl

theorem ring_add (a b : ℕ) :
    ring cap buf beg (a + b) = ring cap buf beg a ++ ring cap buf ((beg + a) % cap) b := by
  rw [ring, ring, ring, List.range_add, List.map_append, List.map_map]
  congr 1
  refine List.map_congr_left fun i _ => ?_
  rw [Function.comp_apply, Nat.mod_add_mod, Nat.add_assoc]

theorem ring_succ : ring cap buf beg (n+1) = ring cap buf beg n ++ [buf ((beg + n) % cap)] := by
  rw [ring, List.range_succ, List.map_append]
  rfl

/-- A ring that is not full takes one more element behind the others. -/
theorem ring_push (h : n < cap) (x : α) :
    ring cap (Function.update buf ((beg + n) % cap) x) beg (n+1) = ring cap buf beg n ++ [x] := by
  rw [ring_succ, Function.update_self]
  congr 1
  refine List.map_congr_left fun i hi => Function.update_of_ne ?_ _ _
  have hi' := List.mem_range.mp hi
  intro heq
  have hmod : i % cap = n % cap := Nat.ModEq.add_left_cancel' beg heq
  rw [Nat.mod_eq_of_lt (hi'.trans h), Nat.mod_eq_of_lt h] at hmod
  omega

end Ukern.Lib
