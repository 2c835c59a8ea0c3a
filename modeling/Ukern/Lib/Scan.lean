import Ukern.Lib.Fold

/-! # Loops that stop early

A loop over `i = 0, 1, …` whose body fails, answers, or goes on. Its result is that of
the first index whose body does not go on.
-/
namespace Ukern.Lib
universe u v
variable {ε : Type u} {β : Type v} {step : ℕ → Except ε (Option β)} {last b : β} {e : ε} {n i j l : ℕ}

/-- The loop over `n` indices from `i`; without an answer it returns `last`. -/
def scan (step : ℕ → Except ε (Option β)) (last : β) : ℕ → ℕ → Except ε β
  | 0, _ => .ok last
  | n+1, i =>
    match step i with
    | .error e => .error e
    | .ok (some b) => .ok b
    | .ok none => scan step last n (i+1)

/-- The loop stops at `j`: the bodies before it go on, its own does not. -/
structure Stops (step : ℕ → Except ε (Option β)) (j : ℕ) : Prop where
  before : ∀ l < j, step l = .ok none
  here : step j ≠ .ok none

theorem Stops.unique (hj : Stops step j) (hl : Stops step l) : j = l := by
  rcases Nat.lt_trichotomy j l with h | h | h
  · exact absurd (hl.before j h) hj.here
  · exact h
  · exact absurd (hj.before l h) hl.here

/-- The loop stops at one of the first `n` indices, or they all go on. -/
theorem stops_or_passes (step : ℕ → Except ε (Option β)) (n : ℕ) :
    (∃ j < n, Stops step j) ∨ ∀ l < n, step l = .ok none := by
  induction n with
  | zero => exact .inr nofun
  | succ n ih =>
    rcases ih with ⟨j,hj,hs⟩ | hall
    · exact .inl ⟨j,by omega,hs⟩
    · by_cases hn : step n = .ok none
      · refine .inr fun l hl => ?_
        rcases Nat.lt_succ_iff_lt_or_eq.mp hl with hl | rfl
        · exact hall l hl
        · exact hn
      · exact .inl ⟨n,by omega,hall,hn⟩

theorem scan_from (hi : ∀ l, i ≤ l → l < j → step l = .ok none) (hij : i ≤ j) (hj : j < i + n)
    (hs : step j ≠ .ok none) : scan step last n i = (step j).map fun b => b.getD last := by
  induction n generalizing i with
  | zero => omega
  | succ n ih =>
    rw [scan]
    by_cases h : i = j
    · subst h
      cases hr : step i with
      | error e => rfl
      | ok r =>
        cases r with
        | none => exact absurd hr hs
        | some b => rfl
    · rw [hi i le_rfl (by omega)]
      exact ih (fun l hl => hi l (by omega)) (by omega) (by omega)

theorem scan_stop (h : Stops step j) (hj : j < n) :
    scan step last n 0 = (step j).map fun b => b.getD last :=
  scan_from (fun l _ => h.before l) (Nat.zero_le j) (by omega) h.here

theorem scan_pass (h : ∀ l, i ≤ l → l < i + n → step l = .ok none) : scan step last n i = .ok last := by
  induction n generalizing i with
  | zero => rfl
  | succ n ih =>
    rw [scan, h i le_rfl (by omega)]
    exact ih fun l hl hn => h l (by omega) (by omega)

/-- The loop returns exactly when the body it stops at does not fail. -/
theorem scan_returns : (∃ b, scan step last n 0 = .ok b) ↔ ∀ j < n, Stops step j → ∀ e, step j ≠ .error e := by
  constructor
  · rintro ⟨b,hb⟩ j hj hs e he
    rw [scan_stop hs hj, he] at hb
    cases hb
  · intro hno
    rcases stops_or_passes step n with ⟨j,hj,hs⟩ | hall
    · rw [scan_stop hs hj]
      cases hr : step j with
      | error e => exact absurd hr (hno j hj hs e)
      | ok r => exact ⟨_,rfl⟩
    · exact ⟨last,scan_pass fun l _ hl => hall l (by omega)⟩

theorem scan_eq_ok : scan step last n 0 = .ok b ↔
    (∃ j < n, Stops step j ∧ step j = .ok (some b)) ∨ (∀ l < n, step l = .ok none) ∧ last = b := by
  rcases stops_or_passes step n with ⟨j,hj,hs⟩ | hall
  · rw [scan_stop hs hj]
    constructor
    · intro hb
      refine .inl ⟨j,hj,hs,?_⟩
      cases hr : step j with
      | error e =>
        rw [hr] at hb
        cases hb
      | ok r =>
        cases r with
        | none => exact absurd hr hs.here
        | some b' =>
          rw [hr] at hb
          cases hb
          rfl
    · rintro (⟨l,-,hl,hr⟩ | ⟨hall,-⟩)
      · rw [hs.unique hl, hr]
        rfl
      · exact absurd (hall j hj) hs.here
  · rw [scan_pass fun l _ hl => hall l (by omega)]
    constructor
    · intro hb
      cases hb
      exact .inr ⟨hall,rfl⟩
    · rintro (⟨j,hj,hs,-⟩ | ⟨-,rfl⟩)
      · exact absurd (hall j hj) hs.here
      · rfl

/-! ## Loops over a list

The body sees the index, the state and the element, and goes on with a new state or returns.
-/
section Consume
variable {α σ ρ : Type*} {body : ℕ → σ → α → σ ⊕ ρ} {s t : σ} {r : ρ} {xs ys : List α}

def consume (body : ℕ → σ → α → σ ⊕ ρ) : ℕ → σ → List α → σ ⊕ ρ
  | _, s, [] => .inl s
  | i, s, x :: xs =>
    match body i s x with
    | .inl s => consume body (i+1) s xs
    | .inr r => .inr r

theorem consume_append : consume body i s (xs ++ ys) =
    match consume body i s xs with
    | .inl s => consume body (i + xs.length) s ys
    | .inr r => .inr r := by
  induction xs generalizing i s with
  | nil => rfl
  | cons x xs ih =>
    rw [List.cons_append, consume, consume]
    cases body i s x with
    | inl s =>
      simp only [ih,List.length_cons]
      rw [Nat.add_right_comm, Nat.add_assoc]
    | inr r => rfl

theorem consume_inl_append (h : consume body i s xs = .inl t) :
    consume body i s (xs ++ ys) = consume body (i + xs.length) t ys := by rw [consume_append, h]

theorem consume_inr_append (h : consume body i s xs = .inr r) : consume body i s (xs ++ ys) = .inr r := by
  rw [consume_append, h]

theorem consume_map {γ : Type*} {g : γ → α} {zs : List γ} {body' : ℕ → σ → γ → σ ⊕ ρ}
    (h : ∀ j s z, body j s (g z) = body' j s z) :
    consume body i s (zs.map g) = consume body' i s zs := by
  induction zs generalizing i s with
  | nil => rfl
  | cons z zs ih =>
    rw [List.map_cons, consume, consume, h]
    cases body' i s z with
    | inl s => exact ih
    | inr r => rfl

theorem consume_pass (h : ∀ j x, i ≤ j → j < i + xs.length → x ∈ xs → body j s x = .inl s) :
    consume body i s xs = .inl s := by
  induction xs generalizing i with
  | nil => rfl
  | cons x xs ih =>
    rw [consume, h i x le_rfl (by simp) (by simp)]
    refine ih fun j y hij hj hy => h j y (by omega) ?_ (by simp [hy])
    rw [List.length_cons]
    omega

end Consume

end Ukern.Lib
