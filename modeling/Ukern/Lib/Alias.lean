import Mathlib.Data.Nat.Basic

/-! # Stores that several readers see

Readers look at a memory through a partial map. Values are put at some places, and are meant for certain readers:
they get them and nobody else notices, whatever the values are, exactly if the places are theirs alone.
-/
namespace Ukern.Lib
variable {R L V X : Type*} {view : R → Option L} {mem mem' : L → V} {w : ℕ → L} {r : ℕ → R} {n : ℕ} {v : ℕ → V}

/-- The values `v` have been put at the places `w`, and nothing else. -/
structure Puts (mem mem' : L → V) (w : ℕ → L) (n : ℕ) (v : ℕ → V) : Prop where
  put : ∀ i < n, mem' (w i) = v i
  rest : ∀ l, (∀ i < n, l ≠ w i) → mem' l = mem l

/-- The readers `r` see the values `v`, the others what they saw before. -/
structure Delivers (view : R → Option L) (mem mem' : L → V) (r : ℕ → R) (n : ℕ) (v : ℕ → V) : Prop where
  got : ∀ i < n, (view (r i)).map mem' = some (v i)
  others : ∀ x, (∀ i < n, x ≠ r i) → (view x).map mem' = (view x).map mem

theorem Puts.delivers (h : Puts mem mem' w n v) (hown : ∀ i < n, view (r i) = some (w i) ∧ ∀ x, view x = some (w i) → x = r i) :
    Delivers view mem mem' r n v where
  got i hi := by
    rw [(hown i hi).1, Option.map_some, h.put i hi]
  others x hx := by
    cases hv : view x with
    | none => rfl
    | some l =>
      rw [Option.map_some, Option.map_some, h.rest]
      rintro i hi rfl
      exact hx i hi ((hown i hi).2 x hv)

/-- For a family of values that leaves no place at one value, the places have to be the readers' own. -/
theorem delivers_iff {ν : X → ℕ → V} {after : X → L → V} (hν : ∀ i < n, ∀ b, ∃ x, ν x i ≠ b)
    (hput : ∀ x, Puts mem (after x) w n (ν x)) (hr : ∀ i < n, ∃ l, view (r i) = some l ∧ ∀ j < n, j ≠ i → l ≠ w j) :
    (∀ x, Delivers view mem (after x) r n (ν x)) ↔
      ∀ i < n, view (r i) = some (w i) ∧ ∀ y, view y = some (w i) → y = r i := by
  constructor
  · intro hd i hi
    obtain ⟨l,hl,hdist⟩ := hr i hi
    have hw : l = w i := by
      by_contra hne
      obtain ⟨x,hx⟩ := hν i hi (mem l)
      have hgot := (hd x).got i hi
      rw [hl, Option.map_some, (hput x).rest l] at hgot
      · exact hx (Option.some.inj hgot).symm
      · intro j hj
        by_cases hji : j = i
        · rwa [hji]
        · exact hdist j hj hji
    refine ⟨by rw [hl, hw],fun y hy => ?_⟩
    by_contra hne
    obtain ⟨x,hx⟩ := hν i hi (mem (w i))
    have hsame := (hd x).others y fun j hj he => by
      obtain ⟨l',hl',hdist'⟩ := hr j hj
      rw [he, hl'] at hy
      by_cases hji : j = i
      · exact hne (hji ▸ he)
      · exact hdist' i hi (Ne.symm hji) (Option.some.inj hy)
    rw [hy, Option.map_some, Option.map_some, (hput x).put i hi] at hsame
    exact hx (Option.some.inj hsame)
  · intro hown x
    exact (hput x).delivers hown

end Ukern.Lib
