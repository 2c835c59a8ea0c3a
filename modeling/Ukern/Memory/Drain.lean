import Ukern.Memory.FreeList

/-! # Running out of pages

`alloc_page` reads `paddr` of the new head of the free list. The pages in front of the last one are
handed out in order; with the last one the new head is `NULL`, and the read goes through it.
-/
namespace Ukern
open Lib
variable {A : PageArray} {low : Option ℕ} {s s' : Pages} {i : ℕ} {l : List ℕ}

namespace PageArray

/-- Calls of `alloc_page` one after the other, with what they return. -/
def drain (A : PageArray) (low : Option ℕ) : ℕ → Pages → Except Fault (List (Option ℕ) × Pages)
  | 0, s => .ok ([],s)
  | n+1, s => do
    let (r,s) ← A.allocPage low s
    let (rs,s) ← A.drain low n s
    .ok (r :: rs,s)

/-- The next `alloc_page` reads through a `NULL` head. -/
def ReadsNull (A : PageArray) (s : Pages) : Prop :=
  s.freepages ≠ 0 ∧ (s.info (A.index s.freepages)).word = 0

/-- The calls that empty the list `l`, and one more: they return its pages in order and then `NULL`, the
count ends at 0, and none of them reads through a `NULL` head. -/
structure Drains (A : PageArray) (low : Option ℕ) (s : Pages) (l : List ℕ) : Prop where
  returns : ∃ s', A.drain low (l.length + 1) s = .ok (l.map some ++ [none],s') ∧ s'.nfreepages = 0
  never_null : ∀ j ≤ l.length, ∀ rs s', A.drain low j s = .ok (rs,s') → ¬ A.ReadsNull s'

end PageArray

namespace FreeList

theorem alloc_more {j : ℕ} {rest : List ℕ} (h : FreeList A s (i :: j :: rest)) :
    ∃ s', A.allocPage low s = .ok (some i,s') ∧ FreeList A s' (j :: rest) := by
  obtain ⟨hhead,hnext,-⟩ := h.chain
  have hne : s.freepages ≠ 0 := fun hz => by simp [PageArray.entryOf,hz] at hhead
  have hidx : A.index s.freepages = i := by
    rw [PageArray.entryOf, if_neg hne] at hhead
    exact Option.some.inj hhead
  have hword : (s.info i).word ≠ 0 := fun hz => by simp [PageArray.next,PageArray.entryOf,hz] at hnext
  have hj : A.index (s.info i).word = j := by
    rw [PageArray.next, PageArray.entryOf, if_neg hword] at hnext
    exact Option.some.inj hnext
  have hrange := (h.range j (by simp)).2.2
  have ha : A.allocPage low s =
      .ok (some i,{ s.setWord i 1 with freepages := (s.info i).word, nfreepages := s.nfreepages - 1 }) := by
    rw [PageArray.allocPage, if_neg hne]
    simp only [hidx,hj,if_neg hword]
    rw [if_neg (by omega)]
  rcases h.alloc ha with ⟨hn,-⟩ | ⟨i',rest',hi,hl,h'⟩
  · cases hn
  · cases hl
    exact ⟨_,ha,h'⟩

theorem readsNull (h : FreeList A s [i]) : A.ReadsNull s := by
  obtain ⟨hhead,hnext⟩ := h.chain
  have hne : s.freepages ≠ 0 := fun hz => by simp [PageArray.entryOf,hz] at hhead
  rw [PageArray.entryOf, if_neg hne] at hhead
  refine ⟨hne,?_⟩
  rw [Option.some.inj hhead]
  by_contra hw
  have hnone : A.next s i = none := hnext
  rw [PageArray.next, PageArray.entryOf, if_neg hw] at hnone
  cases hnone

theorem drain_init (low : Option ℕ) (h : FreeList A s (l ++ [i])) :
    ∃ s', A.drain low l.length s = .ok (l.map some,s') ∧ FreeList A s' [i] := by
  induction l generalizing s with
  | nil => exact ⟨s,rfl,h⟩
  | cons a l ih =>
    have hstep : ∃ s₁, A.allocPage low s = .ok (some a,s₁) ∧ FreeList A s₁ (l ++ [i]) := by
      cases l <;> exact alloc_more h
    obtain ⟨s₁,ha,h₁⟩ := hstep
    obtain ⟨s',hd,h'⟩ := ih h₁
    refine ⟨s',?_,h'⟩
    rw [List.length_cons, PageArray.drain, ha, ok_bind]
    dsimp only
    rw [hd, ok_bind]
    rfl

theorem drains_nil (h : FreeList A s []) : A.Drains low s [] := by
  have hz : s.freepages = 0 := by
    by_contra hne
    have hc := h.chain.eq_none
    rw [PageArray.entryOf, if_neg hne] at hc
    cases hc
  have ha : A.allocPage low s = .ok (none,s) := by rw [PageArray.allocPage, if_pos hz]
  refine ⟨⟨s,?_,BitVec.eq_of_toNat_eq h.count⟩,fun j hj rs s' hd hr => ?_⟩
  · rw [List.length_nil, PageArray.drain, ha, ok_bind]
    rfl
  · obtain rfl : j = 0 := Nat.le_zero.mp hj
    cases hd
    exact hr.1 hz

end FreeList

/-- In every state that `init_freepages` and calls of `alloc_page`, `free_page` and `ref++` lead to, the
free list is handed out and its end reported as it should be only when it is empty already: otherwise
the call that takes the last page reads through the `NULL` head. -/
theorem exhaustion_reported_iff {usable : ℕ → Bool} {s₀ : Pages}
    (hinit : A.initFreepages low (Pages.boot usable) = .ok s₀) (hrun : PageRun A low s₀ s)
    (hlist : Chain (A.next s) (A.entryOf s.freepages) l) : A.Drains low s l ↔ l = [] := by
  obtain ⟨l',hl⟩ := FreeList.run (initFreepages_freeList hinit) hrun
  obtain rfl := hlist.unique hl.chain
  constructor
  · intro hd
    rcases List.eq_nil_or_concat l with hnil | ⟨pre,i,rfl⟩
    · exact hnil
    · rw [List.concat_eq_append] at hl hd
      obtain ⟨s',hrun',hlast⟩ := hl.drain_init low
      exact absurd hlast.readsNull (hd.never_null pre.length (by simp) _ _ hrun')
  · rintro rfl
    exact hl.drains_nil

/-- Two free pages: the second call of `alloc_page` faults. -/
theorem exhaustion_faults : ∃ s₀, smallArray.initFreepages none (Pages.boot fun _ => true) = .ok s₀ ∧
    Chain (smallArray.next s₀) (smallArray.entryOf s₀.freepages) [1,2] ∧
    smallArray.drain none 2 s₀ = .error .nullDeref ∧ ¬ smallArray.Drains none s₀ [1,2] := by
  refine ⟨_,rfl,⟨rfl,rfl,rfl⟩,rfl,fun hd => ?_⟩
  obtain ⟨s',hd,-⟩ := hd.returns
  cases hd

/-- One page, which the kernel uses, and address 0 readable. -/
def usedArray : PageArray where
  base := 2^63
  maxAddr := 4096
  endKmem := 4096
  upper := smallArray.upper
  fits := by decide

theorem exhaustion_reported_empty : ∃ s₀, usedArray.initFreepages (some 0) (Pages.boot fun _ => true) = .ok s₀ ∧
    usedArray.Drains (some 0) s₀ [] := by
  obtain ⟨s₀,hs,hf⟩ : ∃ s₀, usedArray.initFreepages (some 0) (Pages.boot fun _ => true) = .ok s₀ ∧
    s₀.freepages = 0 := ⟨_,rfl,rfl⟩
  refine ⟨s₀,hs,(exhaustion_reported_iff hs .refl ?_).mpr rfl⟩
  rw [hf]
  rfl

end Ukern
