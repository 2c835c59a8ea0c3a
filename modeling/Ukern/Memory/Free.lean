import Ukern.Memory.Copy

/-! # Freeing a page table

`free_pgtbl` gives up one claim for every table page and, with `decref`, one for
every present leaf. Under a matching account no `free_page` on the way panics.
-/
namespace Ukern
open Lib Lib.Radix
variable {m m' s : Phys} {l n t : ℕ} {C : ℕ → ℕ} {decref : Bool}

/-- The claims a table holds: its pages, and its leaves when they are counted. -/
def held (decref : Bool) (m : Phys) (l n t x : ℕ) : ℕ :=
  pages Pte.link 512 m.tbl l n t x +
    if decref then leafSum Pte.link 512 (Pte.hit x) m.tbl l n t else 0

/-- Everything below the first `n` root entries was given up, but not the root. -/
structure Freed (m m' : Phys) (C : ℕ → ℕ) (decref : Bool) (l n t : ℕ) (dec : ℕ → ℕ) : Prop where
  dec_eq : ∀ x, dec x + (if x = t then 1 else 0) = held decref m l n t x
  acct : Acct m' (fun x => C x - dec x)
  shrink : Shrink m m' dec

theorem Freed.zero (ha : Acct m C) : Freed m m C decref l 0 t (fun _ => 0) where
  dec_eq x := by simp [held,pages_zero_width,leafSum_zero_width]
  acct := by simpa using ha
  shrink := .refl

theorem held_width_succ (x : ℕ) : held decref m (l+1) (n+1) t x = held decref m (l+1) n t x +
    match (m.tbl t n).link l with
    | none => 0
    | some c => held decref m l 512 c x := by
  simp only [held,pages_width_succ,leafSum_width_succ]
  cases (m.tbl t n).link l with
  | none => simp
  | some c =>
    cases decref <;> simp only [Bool.false_eq_true,↓reduceIte] <;> omega

theorem held_leaf_succ (x : ℕ) : held decref m 0 (n+1) t x = held decref m 0 n t x +
    if decref then (m.tbl t n).hit x else 0 := by
  cases decref <;> simp [held,pages,leafSum,Finset.sum_range_succ,Nat.add_assoc]

theorem held_width_mono (decref : Bool) (m : Phys) (l t : ℕ) {n' : ℕ} (h : n ≤ n') (x : ℕ) :
    held decref m l n t x ≤ held decref m l n' t x := by
  have h1 := @pages_width_mono _ Pte.link 512 m.tbl l n t _ h x
  have h2 := @leafSum_width_mono _ Pte.link 512 m.tbl l n t _ h (Pte.hit x)
  unfold held
  split <;> omega

theorem held_root_ne (decref : Bool) (m : Phys) (l n t : ℕ) : held decref m l n t t ≠ 0 := by
  have := one_le_pages_root Pte.link 512 m.tbl l n t
  simp only [held]
  omega

theorem Shrink.held {dec : ℕ → ℕ} (h : Shrink m m' dec) (x : ℕ) :
    Ukern.held decref m' l n t x = Ukern.held decref m l n t x := by
  simp only [Ukern.held,h.tbl]

theorem Freed.step {dec dec' : ℕ → ℕ} {n' : ℕ} (h : Freed m s C decref l n t dec)
    (hacct : Acct m' (fun x => C x - dec x - dec' x)) (hshrink : Shrink s m' dec')
    (hn : ∀ x, held decref m l n' t x = held decref m l n t x + dec' x) :
    Freed m m' C decref l n' t (fun x => dec x + dec' x) where
  dec_eq x := by
    have h1 := h.dec_eq x
    have h2 := hn x
    omega
  acct := by simpa only [Nat.sub_sub] using hacct
  shrink := h.shrink.trans hshrink

theorem Freed.step_leaf {dec : ℕ → ℕ} (h : Freed m s C decref 0 n t dec)
    (hle : ∀ x, held decref m 0 (n+1) t x ≤ C x)
    (hal : ∀ x, held decref m 0 (n+1) t x ≠ 0 → m.allocatable x = true) :
    ∃ m', (if !(s.tbl t n).p then .ok s
      else if decref then freePage s (s.tbl t n).frame else .ok s) = .ok m' ∧
      ∃ dec, Freed m m' C decref 0 (n+1) t dec := by
  rw [h.shrink.tbl]
  cases hd : decref with
  | false =>
    subst hd
    refine ⟨s,by simp,dec,?_,h.acct,h.shrink⟩
    intro x
    rw [held_leaf_succ, h.dec_eq]
    simp
  | true =>
    subst hd
    cases hp : (m.tbl t n).p with
    | false =>
      refine ⟨s,by simp,dec,?_,h.acct,h.shrink⟩
      intro x
      rw [held_leaf_succ, h.dec_eq]
      simp [Pte.hit,hp]
    | true =>
      have hw : ∀ x, held true m 0 (n+1) t x = held true m 0 n t x +
          if x = (m.tbl t n).frame then 1 else 0 := fun x => by
        rw [held_leaf_succ]
        simp [Pte.hit,hp,eq_comm]
      have h1 := hw (m.tbl t n).frame
      have h2 := hle (m.tbl t n).frame
      have h3 := h.dec_eq (m.tbl t n).frame
      simp only [↓reduceIte] at h1
      have hpos : C (m.tbl t n).frame - dec (m.tbl t n).frame ≠ 0 := by omega
      obtain ⟨m',hm,hacct,hsh⟩ := freePage_acct h.acct
        (by rw [h.shrink.allocatable]; exact hal _ (by omega)) hpos
      exact ⟨m',by simpa using hm,_,h.step hacct hsh hw⟩

theorem Freed.root {dec : ℕ → ℕ} (h : Freed m s C decref l n t dec)
    (hle : held decref m l n t t ≤ C t) (hal : m.allocatable t = true) :
    ∃ m', freePage s t = .ok m' ∧ Acct m' (fun x => C x - held decref m l n t x) ∧
      Shrink m m' (held decref m l n t) := by
  have h1 := h.dec_eq t
  simp only [↓reduceIte] at h1
  obtain ⟨m',hm,hacct,hsh⟩ := freePage_acct h.acct (x := t)
    (by rw [h.shrink.allocatable]; exact hal) (by omega)
  refine ⟨m',hm,?_,?_⟩
  · simp only [Nat.sub_sub,h.dec_eq] at hacct
    exact hacct
  · have htot := h.shrink.trans hsh
    simp only [h.dec_eq] at htot
    exact htot

/-- `free_pgtbl` succeeds when the table's claims are part of the account. -/
theorem freeFrom_spec (decref : Bool) (ha : Acct m C) (hsmall : Inner Pte.link 512 Pte.Small m.tbl l n t)
    (hle : ∀ x, held decref m l n t x ≤ C x)
    (hal : ∀ x, held decref m l n t x ≠ 0 → m.allocatable x = true) :
    ∃ m', freeFrom decref l n m t = .ok m' ∧ Acct m' (fun x => C x - held decref m l n t x) ∧
      Shrink m m' (held decref m l n t) := by
  have hroot := held_root_ne decref m l n t
  induction l generalizing m n t C with
  | zero =>
    obtain ⟨s,hs,dec,hf⟩ := foldlM_range_total (n := n) (f := fun m i =>
      if !(m.tbl t i).p then .ok m
      else if decref then freePage m (m.tbl t i).frame else .ok m)
      (fun i s => ∃ dec, Freed m s C decref 0 i t dec) ⟨_,.zero ha⟩ (by
        rintro i s hi ⟨dec,hf⟩
        have hw := fun x => held_width_mono decref m 0 t
          (show i+1 ≤ n by omega) x
        exact hf.step_leaf (fun x => (hw x).trans (hle x)) fun x hx => hal x (by have := hw x; omega))
    obtain ⟨m',hm,hrest⟩ := hf.root (hle t) (hal t hroot)
    exact ⟨m',by rw [freeFrom, hs]; exact hm,hrest⟩
  | succ l ih =>
    obtain ⟨s,hs,dec,hf⟩ := foldlM_range_total (n := n) (f := fun m i =>
      if !(m.tbl t i).p then .ok m else freeFrom decref l 512 m (m.tbl t i).frame)
      (fun i s => ∃ dec, Freed m s C decref (l+1) i t dec) ⟨_,.zero ha⟩ (by
        rintro i s hi ⟨dec,hf⟩
        simp only [hf.shrink.tbl]
        cases hp : (m.tbl t i).p with
        | false =>
          refine ⟨s,rfl,dec,fun x => ?_,hf.acct,hf.shrink⟩
          rw [held_width_succ, Pte.link_none hp l, hf.dec_eq]
          exact (Nat.add_zero _).symm
        | true =>
          have hlink := (hsmall i hi).1 hp
          have hw : ∀ x, held decref m (l+1) (i+1) t x =
              held decref m (l+1) i t x + held decref s l 512 (m.tbl t i).frame x := fun x => by
            rw [held_width_succ, hlink, hf.shrink.held]
          have hmono := fun x => held_width_mono decref m (l+1) t
            (show i+1 ≤ n by omega) x
          obtain ⟨m',hm,hacct,hsh⟩ := ih (m := s) (n := 512) (t := (m.tbl t i).frame) hf.acct
            (by rw [hf.shrink.tbl]; exact (hsmall i hi).2 _ hlink)
            (fun x => by
              have h1 := hw x
              have h2 := hmono x
              have h3 := hle x
              have h4 := hf.dec_eq x
              omega)
            (fun x hx => by
              have h1 := hw x
              have h2 := hmono x
              rw [hf.shrink.allocatable]
              exact hal x (by omega))
            (held_root_ne _ _ _ _ _)
          exact ⟨m',hm,_,hf.step hacct hsh hw⟩)
    obtain ⟨m',hm,hrest⟩ := hf.root (hle t) (hal t hroot)
    exact ⟨m',by rw [freeFrom, hs]; exact hm,hrest⟩

theorem freePage_range {x : ℕ} (h : freePage m x = .ok m') :
    m.allocatable x = true ∧ ∀ y, m'.allocatable y = m.allocatable y := by
  unfold freePage at h
  split at h
  · cases h
  rename_i hal
  split at h
  · cases h
  split at h <;> cases h <;> exact ⟨by simpa using hal,fun _ => rfl⟩

/-- `free_pgtbl` returns only from a root that `free_page` takes. -/
theorem freeFrom_range {decref : Bool} (h : freeFrom decref l n m t = .ok m') :
    m.allocatable t = true ∧ ∀ y, m'.allocatable y = m.allocatable y := by
  induction l generalizing n m m' t with
  | zero =>
    unfold freeFrom at h
    obtain ⟨m₁,h1,h⟩ := bind_eq_ok.mp h
    have hloop : ∀ y, m₁.allocatable y = m.allocatable y :=
      foldlM_range_inv (fun _ s => ∀ y, s.allocatable y = m.allocatable y) (fun _ => rfl)
        (fun i s s' _ hs hf y => by
          split at hf
          · cases hf
            exact hs y
          split at hf
          · rw [(freePage_range hf).2 y, hs y]
          · cases hf
            exact hs y) h1
    obtain ⟨ht,hy⟩ := freePage_range h
    exact ⟨by rw [← hloop]; exact ht,fun y => by rw [hy, hloop]⟩
  | succ l ih =>
    unfold freeFrom at h
    obtain ⟨m₁,h1,h⟩ := bind_eq_ok.mp h
    have hloop : ∀ y, m₁.allocatable y = m.allocatable y :=
      foldlM_range_inv (fun _ s => ∀ y, s.allocatable y = m.allocatable y) (fun _ => rfl)
        (fun i s s' _ hs hf y => by
          split at hf
          · cases hf
            exact hs y
          · rw [(ih hf).2 y, hs y]) h1
    obtain ⟨ht,hy⟩ := freePage_range h
    exact ⟨by rw [← hloop]; exact ht,fun y => by rw [hy, hloop]⟩

end Ukern
