import Mathlib.Data.List.GetD
import Mathlib.Data.Nat.Basic
import Mathlib.Order.Basic
import Mathlib.Logic.Function.Basic

/-! # C strings

`strlen` and `strncpy` of `lib/string.c` over a buffer that is read and written
by index, and what they do when the buffer holds a string.
-/
namespace Ukern
variable {buf src : ℕ → UInt8} {l : List UInt8} {n : ℕ}

def strMaxlen : ℕ := 4096

/-- The bytes from index `i` up to the first NUL, at most `n` of them. -/
def cstring (s : ℕ → UInt8) : ℕ → ℕ → List UInt8
  | _, 0 => []
  | i, n+1 => if s i = 0 then [] else s i :: cstring s (i+1) n

def strlen (s : ℕ → UInt8) : ℕ := (cstring s 0 strMaxlen).length

/-- The loop of `strncpy` with both pointers moved by `i`. -/
def strncpyFrom (src : ℕ → UInt8) : ℕ → ℕ → (ℕ → UInt8) → ℕ → UInt8
  | i, 0, dst => Function.update dst i 0
  | i, n+1, dst =>
    if src i ≠ 0 then strncpyFrom src (i+1) n (Function.update dst i (src i))
    else Function.update dst i 0

def strncpy (dst src : ℕ → UInt8) (n : ℕ) : ℕ → UInt8 := strncpyFrom src 0 n dst

/-- The buffer starts with the string `l` and its NUL. -/
def Holds (buf : ℕ → UInt8) (l : List UInt8) : Prop := ∀ i, i ≤ l.length → buf i = l.getD i 0

theorem Holds.get (h : Holds buf l) {i : ℕ} (hi : i < l.length) : buf i = l[i] := by
  rw [h i hi.le, List.getD_eq_getElem _ _ hi]

theorem Holds.nul (h : Holds buf l) : buf l.length = 0 := by
  rw [h l.length le_rfl, List.getD_eq_default _ _ le_rfl]

/-- A character behind the string and a NUL behind the character. -/
theorem Holds.snoc (h : Holds buf l) (c : UInt8) :
    Holds (Function.update (Function.update buf l.length c) (l.length + 1) 0) (l ++ [c]) := by
  intro i hi
  rw [List.length_append, List.length_singleton] at hi
  rcases hi.eq_or_lt with rfl | hi
  · rw [Function.update_self, List.getD_eq_default _ _ (by simp)]
  · rw [Function.update_of_ne hi.ne]
    rcases (Nat.lt_succ_iff.mp hi).eq_or_lt with rfl | hi
    · rw [Function.update_self, List.getD_append_right _ _ _ _ le_rfl]
      simp
    · rw [Function.update_of_ne hi.ne, List.getD_append _ _ _ _ hi, h i hi.le]

theorem getElem_ne_nul (hl : 0 ∉ l) {i : ℕ} (hi : i < l.length) : l[i] ≠ 0 :=
  fun h => hl (h ▸ List.getElem_mem hi)

theorem cstring_drop (h : Holds buf l) (hl : 0 ∉ l) {i : ℕ} (hn : l.length < i + n)
    (hi : i ≤ l.length) : cstring buf i n = l.drop i := by
  induction n generalizing i with
  | zero => omega
  | succ n ih =>
    rcases hi.eq_or_lt with rfl | hi
    · rw [cstring, if_pos h.nul, List.drop_length]
    · rw [cstring, h.get hi, if_neg (getElem_ne_nul hl hi), ih (by omega) hi,
        List.drop_eq_getElem_cons hi]

theorem Holds.cstring (h : Holds buf l) (hl : 0 ∉ l) (hn : l.length < n) : cstring buf 0 n = l :=
  cstring_drop h hl (by omega) (Nat.zero_le _)

theorem Holds.strlen (h : Holds buf l) (hl : 0 ∉ l) (hn : l.length < strMaxlen) :
    strlen buf = l.length := by
  rw [Ukern.strlen, h.cstring hl hn]

/-- What is copied so far stays, and the rest of the string follows. -/
theorem strncpyFrom_spec (h : Holds src l) (hl : 0 ∉ l) {i : ℕ} (hn : l.length ≤ i + n)
    (hi : i ≤ l.length) {dst : ℕ → UInt8} (hd : ∀ j < i, dst j = l.getD j 0) :
    Holds (strncpyFrom src i n dst) l := by
  have hend : ∀ {dst : ℕ → UInt8}, (∀ j < l.length, dst j = l.getD j 0) →
      Holds (Function.update dst l.length 0) l := by
    intro dst hd j hj
    rcases hj.eq_or_lt with rfl | hj
    · rw [Function.update_self, List.getD_eq_default _ _ le_rfl]
    · rw [Function.update_of_ne hj.ne, hd j hj]
  induction n generalizing i dst with
  | zero =>
    obtain rfl : i = l.length := by omega
    exact hend hd
  | succ n ih =>
    rcases hi.eq_or_lt with rfl | hi
    · rw [strncpyFrom, if_neg (by simp [h.nul])]
      exact hend hd
    · rw [strncpyFrom, if_pos (by rw [h.get hi]; exact getElem_ne_nul hl hi)]
      refine ih (by omega) hi fun j hj => ?_
      rcases Nat.lt_succ_iff_lt_or_eq.mp hj with hj | rfl
      · rw [Function.update_of_ne hj.ne, hd j hj]
      · rw [Function.update_self, h j hi.le]

theorem Holds.strncpy (h : Holds src l) (hl : 0 ∉ l) (hn : l.length ≤ n) (dst : ℕ → UInt8) :
    Holds (strncpy dst src n) l :=
  strncpyFrom_spec h hl (by omega) (Nat.zero_le _) fun j hj => absurd hj (Nat.not_lt_zero j)

end Ukern
