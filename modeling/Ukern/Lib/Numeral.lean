import Mathlib.Data.Nat.Digits.Lemmas
import Mathlib.Logic.Function.Basic

/-! # Numerals

The digits of a number come out of a division loop in the wrong order, and are turned around in place. A numeral
is read from the left.
-/
namespace Ukern.Lib
variable {α : Type} {b n len i j fuel : ℕ} {buf : ℕ → α}

/-- Exchange `i` and `len - 1 - i`, from `i` on, as long as they do not meet. -/
def swapLoop (len : ℕ) : ℕ → ℕ → (ℕ → α) → ℕ → α
  | 0, _, buf => buf
  | fuel+1, i, buf =>
    if i < len - 1 - i then
      swapLoop len fuel (i+1) (Function.update (Function.update buf i (buf (len - 1 - i))) (len - 1 - i) (buf i))
    else buf

theorem swapLoop_spec (hfuel : len ≤ 2 * (i + fuel) + 1) :
    swapLoop len fuel i buf j = if i ≤ j ∧ j + i < len then buf (len - 1 - j) else buf j := by
  induction fuel generalizing i buf with
  | zero =>
    rw [swapLoop]
    split
    · have hj : len - 1 - j = j := by omega
      rw [hj]
    · rfl
  | succ fuel ih =>
    rw [swapLoop]
    split
    · rename_i hlt
      rw [ih (by omega)]
      -- the two places just exchanged are outside of what is left
      by_cases hji : j = i
      · subst hji
        rw [if_neg (by omega), if_pos (by omega), Function.update_of_ne (by omega), Function.update_self]
      · by_cases hjl : j = len - 1 - i
        · subst hjl
          rw [if_neg (by omega), if_pos (by omega), Function.update_self]
          congr 1
          omega
        · by_cases hin : i + 1 ≤ j ∧ j + (i + 1) < len
          · rw [if_pos hin, if_pos (by omega), Function.update_of_ne (by omega), Function.update_of_ne (by omega)]
          · rw [if_neg hin, if_neg (by omega), Function.update_of_ne hjl, Function.update_of_ne hji]
    · split
      · have hj : len - 1 - j = j := by omega
        rw [hj]
      · rfl

theorem map_swapLoop (len : ℕ) (buf : ℕ → α) :
    (List.range len).map (swapLoop len len 0 buf) = ((List.range len).map buf).reverse := by
  apply List.ext_getElem
  · simp
  · intro j hj hj'
    rw [List.length_map, List.length_range] at hj
    rw [List.getElem_map, List.getElem_range, List.getElem_reverse, List.getElem_map, List.getElem_range,
      swapLoop_spec (by omega), if_pos (by omega), List.length_map, List.length_range]

/-- Reading digits from the left. -/
def readDigits (b : ℕ) (ds : List ℕ) : ℕ := ds.foldl (fun n d => n * b + d) 0

theorem readDigits_reverse (b : ℕ) (ds : List ℕ) : readDigits b ds.reverse = Nat.ofDigits b ds := by
  rw [readDigits, List.foldl_reverse, Nat.ofDigits_eq_foldr]
  congr 1
  funext d n
  simp [Nat.mul_comm, Nat.add_comm]

theorem readDigits_digits (b n : ℕ) : readDigits b (Nat.digits b n).reverse = n := by
  rw [readDigits_reverse, Nat.ofDigits_digits]

end Ukern.Lib
