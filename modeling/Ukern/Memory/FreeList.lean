import Ukern.Kernel.PageInfo
import Ukern.Kernel.Memory
import Ukern.Lib.Chain
import Ukern.Lib.Fold
import Ukern.Lib.Simulation
import Mathlib.Logic.Relation

/-! # The free list of the page allocator

A ghost list of entries follows the links in `k_pageinfo`. A listed page has a link in its
word, which is 0 or negative as a count; every other page that can be handed out has a
positive count there.
-/
namespace Ukern
open Lib
variable {A : PageArray} {low : Option ℕ} {s s' : Pages} {i j : ℕ} {l : List ℕ} {w : U64}

namespace PageArray

theorem ptr_toNat (h : i < A.npages) : (A.ptr i).toNat = A.base + 16 * i := by
  have hf := A.fits
  unfold npages at h
  rw [ptr, BitVec.toNat_ofNat]
  exact Nat.mod_eq_of_lt (by omega)

theorem index_ptr (h : i < A.npages) : A.index (A.ptr i) = i := by
  rw [index, ptr_toNat h]
  omega

theorem ptr_ne_zero (h : i < A.npages) : A.ptr i ≠ 0 := by
  intro he
  have h1 := ptr_toNat h
  have hu := A.upper
  rw [he] at h1
  simp at h1
  omega

theorem entryOf_ptr (h : i < A.npages) : A.entryOf (A.ptr i) = some i := by
  rw [entryOf, if_neg (ptr_ne_zero h), index_ptr h]

theorem ptr_neg (h : i < A.npages) : (A.ptr i).toInt ≤ 0 := by
  have h1 := ptr_toNat h
  have hu := A.upper
  have hlt := (A.ptr i).isLt
  rw [BitVec.toInt_eq_toNat_cond]
  split <;> omega

/-- A page that `free_page` takes. -/
def Allocatable (A : PageArray) (s : Pages) (i : ℕ) : Prop :=
  i < A.npages ∧ A.endKmem ≤ (s.info i).paddr ∧ (s.info i).paddr < A.maxAddr

/-- The links, read as a partial function on entries. -/
def next (A : PageArray) (s : Pages) (i : ℕ) : Option ℕ := A.entryOf (s.info i).word

end PageArray

theorem count_sub_one (h : 1 ≤ w.toInt) : (w - 1).toInt = w.toInt - 1 := by
  have h1 : (1 : U64).toNat = 1 := rfl
  have hlt := w.isLt
  rw [BitVec.toInt_eq_toNat_cond] at h ⊢
  rw [BitVec.toInt_eq_toNat_cond, BitVec.toNat_sub, h1]
  split at h <;> split <;> omega

theorem count_add_one (h : 1 ≤ w.toInt) (hmax : w.toInt < 2^63 - 1) : (w + 1).toInt = w.toInt + 1 := by
  have h1 : (1 : U64).toNat = 1 := rfl
  have hlt := w.isLt
  rw [BitVec.toInt_eq_toNat_cond] at h hmax ⊢
  rw [BitVec.toInt_eq_toNat_cond, BitVec.toNat_add, h1]
  split at h <;> split at hmax <;> split <;> omega

@[simp] theorem Pages.setWord_self : ((s.setWord i w).info i).word = w := by simp [Pages.setWord]

theorem Pages.setWord_ne (h : j ≠ i) : (s.setWord i w).info j = s.info j := Function.update_of_ne h ..

@[simp] theorem Pages.setWord_paddr : ((s.setWord i w).info j).paddr = (s.info j).paddr := by
  by_cases h : j = i
  · subst h
    simp [Pages.setWord]
  · rw [Pages.setWord_ne h]

theorem Pages.setWord_setWord {w' : U64} : (s.setWord i w).setWord i w' = s.setWord i w' := by
  simp [Pages.setWord]

theorem Pages.setWord_eq (h : (s.info i).word = w) : s.setWord i w = s := by
  subst h
  simp [Pages.setWord]

/-- The list `l` is the free list, and the counts agree with it. -/
structure FreeList (A : PageArray) (s : Pages) (l : List ℕ) : Prop where
  chain : Chain (A.next s) (A.entryOf s.freepages) l
  head : s.freepages = 0 ∨ ∃ j < A.npages, s.freepages = A.ptr j
  link : ∀ i ∈ l, (s.info i).word = 0 ∨ ∃ j < A.npages, (s.info i).word = A.ptr j
  count : s.nfreepages.toNat = l.length
  range : ∀ i ∈ l, A.Allocatable s i
  held : ∀ i, A.Allocatable s i → i ∉ l → 1 ≤ s.ref i

namespace FreeList

theorem length_le (h : FreeList A s l) : l.length ≤ A.npages := by
  have hsub : l ⊆ List.range A.npages := fun i hi => List.mem_range.mpr (h.range i hi).1
  have hlen := (h.chain.nodup.subperm hsub).length_le
  rwa [List.length_range] at hlen

theorem length_lt (h : FreeList A s l) : l.length + 1 < 2^64 := by
  have hlen := h.length_le
  have hf := A.fits
  unfold PageArray.npages at hlen
  omega

theorem ref_nonpos (h : FreeList A s l) (hi : i ∈ l) : s.ref i ≤ 0 := by
  rcases h.link i hi with hw | ⟨j,hj,hw⟩
  · rw [Pages.ref, hw]
    decide
  · rw [Pages.ref, hw]
    exact PageArray.ptr_neg hj

theorem freePage_listed (h : FreeList A s l) (hi : i ∈ l) : A.freePage s i = .error .panic := by
  unfold PageArray.freePage
  split
  · rfl
  split
  · rfl
  rw [if_pos (h.ref_nonpos hi)]

theorem setWord (h : FreeList A s l) (hi : i ∉ l) (hw : 1 ≤ w.toInt) : FreeList A (s.setWord i w) l where
  chain := h.chain.congr fun j hj => by
    have hji : j ≠ i := fun he => hi (he ▸ hj)
    rw [PageArray.next, Pages.setWord_ne hji]
    rfl
  head := h.head
  link j hj := by
    have hji : j ≠ i := fun he => hi (he ▸ hj)
    rw [Pages.setWord_ne hji]
    exact h.link j hj
  count := h.count
  range j hj := by
    have hr := h.range j hj
    simpa only [PageArray.Allocatable,Pages.setWord_paddr] using hr
  held j hj hjl := by
    by_cases hji : j = i
    · rw [hji, Pages.ref, Pages.setWord_self]
      exact hw
    · rw [Pages.ref, Pages.setWord_ne hji]
      refine h.held j ?_ hjl
      simpa only [PageArray.Allocatable,Pages.setWord_paddr] using hj

theorem alloc {r : Option ℕ} (h : FreeList A s l) (ha : A.allocPage low s = .ok (r,s')) :
    (r = none ∧ l = [] ∧ s' = s) ∨ ∃ i rest, r = some i ∧ l = i :: rest ∧ FreeList A s' rest := by
  unfold PageArray.allocPage at ha
  cases l with
  | nil =>
    have hz : s.freepages = 0 := by
      by_contra hne
      have hc := h.chain.eq_none
      rw [PageArray.entryOf, if_neg hne] at hc
      cases hc
    rw [if_pos hz] at ha
    cases ha
    exact Or.inl ⟨rfl,rfl,rfl⟩
  | cons i rest =>
    obtain ⟨hhead,hrest⟩ := h.chain
    have hne : s.freepages ≠ 0 := fun hz => by simp [PageArray.entryOf,hz] at hhead
    have hidx : A.index s.freepages = i := by
      rw [PageArray.entryOf, if_neg hne] at hhead
      exact Option.some.inj hhead
    rw [if_neg hne] at ha
    simp only [hidx] at ha
    split at ha
    · cases ha
    split at ha
    · cases ha
    simp only [Except.ok.injEq,Prod.mk.injEq] at ha
    obtain ⟨rfl,rfl⟩ := ha
    have hir : i ∉ rest := (List.nodup_cons.mp h.chain.nodup).1
    refine Or.inr ⟨i,rest,rfl,rfl,?_,?_,fun j hj => ?_,?_,fun j hj => ?_,fun j hj hjr => ?_⟩
    · refine hrest.congr fun j hj => ?_
      have hji : j ≠ i := fun he => hir (he ▸ hj)
      simp only [PageArray.next,Pages.setWord_ne hji]
    · exact h.link i List.mem_cons_self
    · have hji : j ≠ i := fun he => hir (he ▸ hj)
      simp only [Pages.setWord_ne hji]
      exact h.link j (List.mem_cons_of_mem _ hj)
    · have hc := h.count
      have hlt := h.length_lt
      simp only [List.length_cons] at hc hlt
      have h1 : (1 : U64).toNat = 1 := rfl
      rw [BitVec.toNat_sub, h1]
      omega
    · have hr := h.range j (List.mem_cons_of_mem _ hj)
      simpa only [PageArray.Allocatable,Pages.setWord_paddr] using hr
    · by_cases hji : j = i
      · rw [hji]
        simp [Pages.ref]
      · simp only [Pages.ref,Pages.setWord_ne hji]
        refine h.held j ?_ fun hm => ?_
        · simpa only [PageArray.Allocatable,Pages.setWord_paddr] using hj
        · exact (List.mem_cons.mp hm).elim hji hjr

/-- `free_page` drops a reference, and lists the page with the last one. -/
theorem free (h : FreeList A s l) (hi : i < A.npages) (hf : A.freePage s i = .ok s') :
    1 ≤ s.ref i ∧ i ∉ l ∧
      ((s.ref i = 1 ∧ FreeList A s' (i :: l)) ∨ (1 < s.ref i ∧ s'.ref i = s.ref i - 1 ∧ FreeList A s' l)) := by
  have hnot : i ∉ l := fun hm => by
    rw [h.freePage_listed hm] at hf
    cases hf
  unfold PageArray.freePage at hf
  split at hf
  · cases hf
  rename_i hlo
  split at hf
  · cases hf
  rename_i hhi
  split at hf
  · cases hf
  rename_i hpos
  have hal : A.Allocatable s i := ⟨hi,by omega,by have := Nat.mod_le A.maxAddr (2^47); omega⟩
  refine ⟨by omega,hnot,?_⟩
  split at hf
  · rename_i hlast
    cases hf
    have hone : (s.info i).word = 1 := by bv_omega
    have hother : ∀ j ∈ l, j ≠ i := fun j hj he => hnot (he ▸ hj)
    refine Or.inl ⟨by rw [Pages.ref, hone]; rfl,?_,Or.inr ⟨i,hi,rfl⟩,fun j hj => ?_,?_,fun j hj => ?_,fun j hj hjl => ?_⟩
    · refine ⟨PageArray.entryOf_ptr hi,?_⟩
      have hsame : ∀ j ∈ l, A.next (s.setWord i s.freepages) j = A.next s j := fun j hj => by
        rw [PageArray.next, Pages.setWord_ne (hother j hj)]
        rfl
      have hhead : A.next (s.setWord i s.freepages) i = A.entryOf s.freepages := by
        rw [PageArray.next, Pages.setWord_self]
      have hc := h.chain.congr hsame
      rw [← hhead] at hc
      exact hc
    · rcases List.mem_cons.mp hj with rfl | hj
      · simp only [Pages.setWord_self]
        exact h.head
      · simp only [Pages.setWord_ne (hother j hj)]
        exact h.link j hj
    · have hlt := h.length_lt
      have h1 : (1 : U64).toNat = 1 := rfl
      rw [BitVec.toNat_add, h1, h.count, List.length_cons]
      omega
    · rcases List.mem_cons.mp hj with rfl | hj
      · simpa only [PageArray.Allocatable,Pages.setWord_paddr] using hal
      · have hr := h.range j hj
        simpa only [PageArray.Allocatable,Pages.setWord_paddr] using hr
    · rw [List.mem_cons, not_or] at hjl
      simp only [Pages.ref,Pages.setWord_ne hjl.1]
      refine h.held j ?_ hjl.2
      simpa only [PageArray.Allocatable,Pages.setWord_paddr] using hj
  · rename_i hlast
    cases hf
    have hword : ((s.info i).word - 1).toInt = s.ref i - 1 := count_sub_one (by unfold Pages.ref at hpos; omega)
    have hne : s.ref i ≠ 1 := fun he => by
      apply hlast
      apply BitVec.eq_of_toInt_eq
      rw [hword, he]
      rfl
    have hgt : 1 < s.ref i := by omega
    refine Or.inr ⟨hgt,?_,h.setWord hnot (by omega)⟩
    rw [Pages.ref, Pages.setWord_self, hword]

theorem share (h : FreeList A s l) (hi : 1 ≤ s.ref i) (hmax : s.ref i < 2^63 - 1) :
    i ∉ l ∧ FreeList A (s.setWord i ((s.info i).word + 1)) l := by
  have hnot : i ∉ l := fun hm => by
    have := h.ref_nonpos hm
    omega
  refine ⟨hnot,h.setWord hnot ?_⟩
  rw [count_add_one hi hmax]
  unfold Pages.ref at hi
  omega

theorem step {op : PageOp} (h : FreeList A s l) (hs : PageStep A low op s s') : ∃ l', FreeList A s' l' := by
  cases hs with
  | alloc ha =>
    rcases h.alloc ha with ⟨-,-,rfl⟩ | ⟨i,rest,-,-,h'⟩
    · exact ⟨l,h⟩
    · exact ⟨rest,h'⟩
  | free hi hf =>
    rcases (h.free hi hf).2.2 with ⟨-,h'⟩ | ⟨-,-,h'⟩
    · exact ⟨_,h'⟩
    · exact ⟨_,h'⟩
  | share hi h1 hmax => exact ⟨l,(h.share h1 hmax).2⟩

end FreeList

/-- The address in the entry of page `j`, if the memory map offers the pages `usable`. -/
def bootAddr (usable : ℕ → Bool) (j : ℕ) : ℕ := if usable j then j * pgsize else 0

/-- The entries as `init_kpageinfo` leaves them, with no list yet. -/
structure Unlisted (A : PageArray) (usable : ℕ → Bool) (s : Pages) : Prop where
  entry : ∀ j < A.npages, s.info j = ⟨bootAddr usable j,0⟩
  empty : s.freepages = 0
  count : s.nfreepages = 0

theorem unlisted_boot (A : PageArray) (usable : ℕ → Bool) : Unlisted A usable (Pages.boot usable) :=
  ⟨fun _ _ => rfl,rfl,rfl⟩

/-- `init_freepages` after `i` turns: the pages below `i` that are free are listed in order. -/
structure Listing (A : PageArray) (usable : ℕ → Bool) (st : Pages × Option ℕ) (l : List ℕ) (i : ℕ) : Prop where
  chain : Chain (A.next st.1) (A.entryOf st.1.freepages) l
  head : st.1.freepages = 0 ∨ ∃ j < A.npages, st.1.freepages = A.ptr j
  link : ∀ j ∈ l, (st.1.info j).word = 0 ∨ ∃ n < A.npages, (st.1.info j).word = A.ptr n
  count : st.1.nfreepages.toNat = l.length
  list : l = (List.range i).filter (fun j => A.endKmem ≤ bootAddr usable j)
  bound : i ≤ A.npages
  last : st.2 = l.getLast?
  paddr : ∀ j < A.npages, (st.1.info j).paddr = bootAddr usable j
  fresh : ∀ j < A.npages, i ≤ j ∨ st.2 = some j → (st.1.info j).word = 0

theorem Listing.mem {usable : ℕ → Bool} {st : Pages × Option ℕ} (h : Listing A usable st l i) (j : ℕ) :
    j ∈ l ↔ j < i ∧ A.endKmem ≤ (st.1.info j).paddr := by
  have hb := h.bound
  rw [h.list, List.mem_filter, List.mem_range, decide_eq_true_iff]
  exact and_congr_right fun hj => by rw [h.paddr j (by omega)]

theorem Listing.length_le {usable : ℕ → Bool} {st : Pages × Option ℕ} (h : Listing A usable st l i) : l.length ≤ i := by
  have hsub : l ⊆ List.range i := fun j hj => List.mem_range.mpr ((h.mem j).mp hj).1
  have hlen := (h.chain.nodup.subperm hsub).length_le
  rwa [List.length_range] at hlen

/-- The first free page starts the list, a later one is linked behind the last. -/
theorem Listing.push {usable : ℕ → Bool} {s : Pages} {last : Option ℕ} (h : Listing A usable (s,last) l i)
    (hi : i < A.npages) (hs : s' = A.linkAfter s last i) :
    Chain (A.next s') (A.entryOf s'.freepages) (l ++ [i]) ∧
      (s'.freepages = 0 ∨ ∃ j < A.npages, s'.freepages = A.ptr j) ∧
      (∀ j, (s'.info j).paddr = (s.info j).paddr) ∧ s'.nfreepages = s.nfreepages ∧
      ∀ j, (s'.info j).word = (s.info j).word ∨ j ∈ l ∧ j ≠ i ∧ (s'.info j).word = A.ptr i := by
  have hil : i ∉ l := fun hm => by
    have := ((h.mem i).mp hm).1
    omega
  have hword : (s.info i).word = 0 := h.fresh i hi (Or.inl (Nat.le_refl _))
  have hlast : last = l.getLast? := h.last
  cases last with
  | none =>
    have hnil : l = [] := List.getLast?_eq_none_iff.mp hlast.symm
    rw [PageArray.linkAfter] at hs
    subst hnil hs
    refine ⟨⟨PageArray.entryOf_ptr hi,?_⟩,Or.inr ⟨i,hi,rfl⟩,fun _ => rfl,rfl,fun _ => Or.inl rfl⟩
    simp [PageArray.next,hword,PageArray.entryOf,Chain]
  | some j =>
    obtain ⟨l₀,rfl⟩ : ∃ l₀, l = l₀ ++ [j] := List.getLast?_eq_some_iff.mp hlast.symm
    have hji : j ≠ i := fun he => hil (by simp [he])
    rw [PageArray.linkAfter] at hs
    subst hs
    refine ⟨h.chain.snoc hil (fun c hc => ?_) ?_ ?_,h.head,fun _ => Pages.setWord_paddr,rfl,fun n => ?_⟩
    · simp only [PageArray.next,Pages.setWord_ne hc]
    · rw [PageArray.next, Pages.setWord_self, PageArray.entryOf_ptr hi]
    · rw [PageArray.next, Pages.setWord_ne hji.symm, hword]
      simp [PageArray.entryOf]
    · by_cases hn : n = j
      · subst hn
        exact Or.inr ⟨by simp,hji,Pages.setWord_self⟩
      · exact Or.inl (by rw [Pages.setWord_ne hn])

theorem Listing.step {usable : ℕ → Bool} {st : Pages × Option ℕ} (h : Listing A usable st l i) (hi : i < A.npages) :
    ∃ l', Listing A usable (A.freeStep st i) l' (i+1) := by
  obtain ⟨s,last⟩ := st
  have hword : (s.info i).word = 0 := h.fresh i hi (Or.inl (Nat.le_refl _))
  have haddr : (s.info i).paddr = bootAddr usable i := h.paddr i hi
  unfold PageArray.freeStep
  split
  · -- a page of the kernel, or one the memory map does not offer
    rename_i hk
    simp only [haddr] at hk
    rw [Pages.setWord_setWord, Pages.setWord_eq hword]
    refine ⟨l,{ h with
      list := ?_
      bound := hi
      fresh := fun j hj hij => h.fresh j hj (hij.imp_left fun hij => by omega) }⟩
    rw [List.range_succ, List.filter_append, ← h.list]
    simp only [List.filter_cons,List.filter_nil,decide_eq_true_eq,if_neg (Nat.not_le.mpr hk),List.append_nil]
  · rename_i hk
    simp only [haddr,Nat.not_lt] at hk
    obtain ⟨s',hs⟩ : ∃ s', s' = A.linkAfter s last i := ⟨_,rfl⟩
    obtain ⟨hchain,hhead,hpaddr,hcount,hwords⟩ := h.push hi hs
    simp only
    rw [← hs]
    have hlen := h.length_le
    refine ⟨l ++ [i],hchain,hhead,fun j hj => ?_,?_,?_,hi,by simp,fun j hj => ?_,fun j hjn hj => ?_⟩
    · rcases hwords j with hw | ⟨-,-,hw⟩
      · simp only [hw]
        rcases List.mem_append.mp hj with hj | hj
        · exact h.link j hj
        · rw [List.mem_singleton.mp hj]
          exact Or.inl hword
      · exact Or.inr ⟨i,hi,hw⟩
    · have hc : s.nfreepages.toNat = l.length := h.count
      have hf := A.fits
      have h1 : (1 : U64).toNat = 1 := rfl
      unfold PageArray.npages at hi
      simp only [hcount,List.length_append,List.length_singleton]
      rw [BitVec.toNat_add, h1, hc]
      omega
    · rw [List.range_succ, List.filter_append, ← h.list]
      simp only [List.filter_cons,List.filter_nil,decide_eq_true_eq,if_pos hk]
    · simp only [hpaddr]
      exact h.paddr j hj
    · have hjl : j ∉ l ∨ j = i := by
        rcases hj with hj | hj
        · exact Or.inl fun hm => by
            have := ((h.mem j).mp hm).1
            omega
        · exact Or.inr (Option.some.inj hj).symm
      rcases hwords j with hw | ⟨hm,hne,-⟩
      · simp only [hw]
        rcases hj with hj | hj
        · exact h.fresh j hjn (Or.inl (by omega))
        · rw [← Option.some.inj hj]
          exact hword
      · exact absurd hm (hjl.resolve_right hne)

theorem listing_all {usable : ℕ → Bool} (h : Unlisted A usable s) :
    ∃ l, Listing A usable ((List.range A.npages).foldl A.freeStep (s,none)) l A.npages := by
  refine foldl_range_inv (fun i st => ∃ l, Listing A usable st l i) ⟨[],?_⟩ fun i st hi ⟨l,h⟩ => h.step hi
  exact {
    chain := by simp [Chain,PageArray.entryOf,h.empty]
    head := Or.inl h.empty
    link := by simp
    count := by simp [h.count]
    list := by simp
    bound := Nat.zero_le _
    last := rfl
    paddr := fun j hj => by rw [h.entry j hj]
    fresh := fun j hj _ => by rw [h.entry j hj] }

theorem Listing.freeList {usable : ℕ → Bool} {st : Pages × Option ℕ} (h : Listing A usable st l A.npages) :
    FreeList A st.1 l where
  chain := h.chain
  head := h.head
  link := h.link
  count := h.count
  range i hi := by
    obtain ⟨h1,h2⟩ := (h.mem i).mp hi
    refine ⟨h1,h2,?_⟩
    have hlt : i * pgsize < A.maxAddr := by
      have h3 := Nat.div_mul_le_self A.maxAddr pgsize
      have h4 : (i+1) * pgsize ≤ A.maxAddr / pgsize * pgsize := Nat.mul_le_mul_right _ h1
      rw [Nat.add_mul] at h4
      simp only [pgsize] at h3 h4 ⊢
      omega
    rw [h.paddr i h1, bootAddr]
    split <;> omega
  held i hi hil := absurd ((h.mem i).mpr ⟨hi.1,hi.2.1⟩) hil

/-- The list that `init_freepages` builds: the last page on it has no link yet. -/
theorem initFreepages_lists {usable : ℕ → Bool} {s₀ : Pages} (h₀ : Unlisted A usable s₀)
    (h : A.initFreepages low s₀ = .ok s) : ∃ l last, Listing A usable (s,last) l A.npages := by
  obtain ⟨l,hl⟩ := listing_all h₀
  unfold PageArray.initFreepages at h
  split at h
  · rename_i s₁ j hst
    rw [hst] at hl
    cases h
    have hj : j ∈ l := List.mem_of_getLast? hl.last.symm
    rw [Pages.setWord_eq (hl.fresh j ((hl.mem j).mp hj).1 (Or.inr rfl))]
    exact ⟨l,_,hl⟩
  · rename_i s₁ hst
    rw [hst] at hl
    split at h
    · cases h
      exact ⟨l,_,hl⟩
    · cases h

theorem initFreepages_returns {usable : ℕ → Bool} {s₀ : Pages} (h₀ : Unlisted A usable s₀) (low : Option ℕ)
    (hi : i < A.npages) (hk : A.endKmem ≤ bootAddr usable i) : ∃ s, A.initFreepages low s₀ = .ok s := by
  obtain ⟨l,hl⟩ := listing_all h₀
  have hmem : i ∈ l := (hl.mem i).mpr ⟨hi,(hl.paddr i hi).symm ▸ hk⟩
  unfold PageArray.initFreepages
  split
  · exact ⟨_,rfl⟩
  · rename_i s₁ hst
    rw [hst] at hl
    rw [List.getLast?_eq_none_iff.mp hl.last.symm] at hmem
    cases hmem

theorem initFreepages_freeList {usable : ℕ → Bool} (h : A.initFreepages low (Pages.boot usable) = .ok s) :
    ∃ l, FreeList A s l := by
  obtain ⟨l,_,hl⟩ := initFreepages_lists (unlisted_boot A usable) h
  exact ⟨l,hl.freeList⟩

/-- Runs of the allocator. -/
def PageRun (A : PageArray) (low : Option ℕ) : Pages → Pages → Prop :=
  Relation.ReflTransGen fun s s' => ∃ op, PageStep A low op s s'

/-- Runs in which no `free_page` brings the count of page `i` to 0. -/
def PageRunHolding (A : PageArray) (low : Option ℕ) (i : ℕ) : Pages → Pages → Prop :=
  Relation.ReflTransGen fun s s' => ∃ op, PageStep A low op s s' ∧ ¬ (op = .free i ∧ s.ref i = 1)

theorem FreeList.run (h : ∃ l, FreeList A s l) (hr : PageRun A low s s') : ∃ l, FreeList A s' l := by
  induction hr with
  | refl => exact h
  | tail _ hs ih =>
    obtain ⟨l,hl⟩ := ih
    obtain ⟨op,hs⟩ := hs
    exact hl.step hs

/-- A page stays off the list until its last reference is dropped. -/
theorem FreeList.holding (h : FreeList A s l) (hi : i ∉ l) (hr : PageRunHolding A low i s s') :
    ∃ l', FreeList A s' l' ∧ i ∉ l' := by
  induction hr with
  | refl => exact ⟨l,h,hi⟩
  | tail _ hs ih =>
    obtain ⟨l₁,h₁,hi₁⟩ := ih
    obtain ⟨op,hs,hop⟩ := hs
    cases hs with
    | alloc ha =>
      rcases h₁.alloc ha with ⟨-,-,rfl⟩ | ⟨j,rest,-,rfl,h'⟩
      · exact ⟨l₁,h₁,hi₁⟩
      · exact ⟨rest,h',fun hm => hi₁ (List.mem_cons_of_mem _ hm)⟩
    | @free _ _ j hj hf =>
      rcases (h₁.free hj hf).2.2 with ⟨hone,h'⟩ | ⟨-,-,h'⟩
      · refine ⟨_,h',fun hm => ?_⟩
        rcases List.mem_cons.mp hm with rfl | hm
        · exact hop ⟨rfl,hone⟩
        · exact hi₁ hm
      · exact ⟨_,h',hi₁⟩
    | share hj h1 hmax => exact ⟨l₁,(h₁.share h1 hmax).2,hi₁⟩

/-- Two usable pages above the kernel, at the start of the upper half. -/
def smallArray : PageArray where
  base := 2^63
  maxAddr := 3 * 4096
  endKmem := 4096
  upper := Nat.le_refl _
  fits := by decide

/-- The words of the array stand for the list and the counts of `Phys`. -/
structure Abstracts (A : PageArray) (s : Pages) (m : Phys) : Prop where
  list : FreeList A s m.free
  paddr : ∀ i < A.npages, m.paddr i = (s.info i).paddr
  ref : ∀ i, i ∉ m.free → m.ref i = s.ref i
  count : m.nfreepages = s.nfreepages.toNat
  bounds : m.endKmem = A.endKmem ∧ m.maxAddr = A.maxAddr

theorem allocPage_eq (ha : A.allocPage low s = .ok (some i,s')) :
    s' = { s.setWord i 1 with freepages := (s.info i).word, nfreepages := s.nfreepages - 1 } ∧
      ((s.info i).word = 0 → low ≠ none) ∧
      ((s.info i).word ≠ 0 → (s.info (A.index (s.info i).word)).paddr ≤ A.maxAddr) := by
  unfold PageArray.allocPage at ha
  split at ha
  · cases ha
  simp only at ha
  split at ha
  · cases ha
  rename_i paddr hp
  split at ha
  · cases ha
  rename_i hle
  simp only [Except.ok.injEq,Prod.mk.injEq,Option.some.injEq] at ha
  obtain ⟨rfl,rfl⟩ := ha
  refine ⟨rfl,fun hz hn => ?_,fun hz => ?_⟩
  · rw [if_pos hz, hn] at hp
    cases hp
  · rw [if_neg hz] at hp
    cases hp
    omega

theorem Abstracts.alloc {m : Phys} {r : Option ℕ} (h : Abstracts A s m) (ha : A.allocPage none s = .ok (r,s')) :
    ∃ m', Ukern.allocPage m false = .ok (r,m') ∧ Abstracts A s' m' := by
  rcases h.list.alloc ha with ⟨rfl,hnil,rfl⟩ | ⟨i,rest,rfl,hcons,hl⟩
  · exact ⟨m,by rw [Ukern.allocPage, hnil],h⟩
  obtain ⟨hs,hnull,hpaddr⟩ := allocPage_eq ha
  have hchain := h.list.chain
  have hcount := h.list.count
  rw [hcons] at hchain hcount
  have hw : (s.info i).word ≠ 0 := fun hz => hnull hz rfl
  have hnext : A.next s i = some (A.index (s.info i).word) := by rw [PageArray.next, PageArray.entryOf, if_neg hw]
  have hrest := hchain.2
  rw [hnext] at hrest
  cases rest with
  | nil => exact absurd hrest nofun
  | cons b more =>
    have hb : A.index (s.info i).word = b := Option.some.inj hrest.1
    have hle : ¬ m.paddr b > m.maxAddr := by
      have h1 := hpaddr hw
      rw [hb] at h1
      rw [h.paddr b (h.list.range b (by simp [hcons])).1, h.bounds.2]
      omega
    refine ⟨m.unlink i (b :: more),?_,?_⟩
    · rw [Ukern.allocPage, hcons]
      simp only [if_neg hle]
      rfl
    · subst hs
      refine ⟨hl,fun j hj => ?_,fun j hj => ?_,?_,h.bounds⟩
      · have h1 := h.paddr j hj
        simp only [Pages.setWord_paddr]
        exact h1
      · by_cases hji : j = i
        · simp [hji,Phys.unlink,Pages.ref]
        · simp only [Phys.unlink,Function.update_of_ne hji,Pages.ref,Pages.setWord_ne hji]
          refine h.ref j ?_
          rw [hcons]
          exact fun hm => (List.mem_cons.mp hm).elim hji hj
      · have h1 : (1 : U64).toNat = 1 := rfl
        have hlen := h.list.length_lt
        have hc := h.count
        rw [hcons] at hlen
        simp only [List.length_cons] at hcount hlen
        simp only [Phys.unlink]
        rw [BitVec.toNat_sub, h1]
        omega

/-- `free_page` on the words is `free_page` on the list, with memory below 128 TiB. -/
theorem Abstracts.free {m : Phys} (h : Abstracts A s m) (hmax : A.maxAddr < 2^47) (hi : i < A.npages)
    (hf : A.freePage s i = .ok s') : ∃ m', Ukern.freePage m i = .ok m' ∧ Abstracts A s' m' := by
  obtain ⟨hpos,hnot,hcase⟩ := h.list.free hi hf
  have href := h.ref i hnot
  unfold PageArray.freePage at hf
  split at hf
  · cases hf
  rename_i hlo
  split at hf
  · cases hf
  rename_i hhi
  rw [Nat.mod_eq_of_lt hmax] at hhi
  have hal : m.allocatable i = true := by
    rw [Phys.allocatable, h.paddr i hi, h.bounds.1, h.bounds.2]
    simp only [decide_eq_true_eq]
    omega
  rw [if_neg (by omega)] at hf
  unfold Ukern.freePage
  rw [if_neg (by simp [hal]), if_neg (by rw [href]; omega), href]
  rcases hcase with ⟨hone,hl⟩ | ⟨hgt,hdec,hl⟩
  · have hword : (s.info i).word = 1 := BitVec.eq_of_toInt_eq (by
      rw [← Pages.ref, hone]
      rfl)
    rw [hword, if_pos (by decide)] at hf
    cases hf
    rw [if_pos (by omega)]
    refine ⟨_,rfl,hl,fun j hj => ?_,fun j hj => ?_,?_,h.bounds⟩
    · have h1 := h.paddr j hj
      simp only [Pages.setWord_paddr]
      exact h1
    · simp only [List.mem_cons,not_or] at hj
      simp only [Function.update_of_ne hj.1,Pages.ref,Pages.setWord_ne hj.1]
      exact h.ref j hj.2
    · have h1 : (1 : U64).toNat = 1 := rfl
      have hlen := h.list.length_lt
      have hc := h.count
      have hcount := h.list.count
      simp only
      rw [BitVec.toNat_add, h1]
      omega
  · have hne : ¬ (s.info i).word - 1 = 0 := fun hz => by
      have h1 := count_sub_one (w := (s.info i).word) (by unfold Pages.ref at hpos; omega)
      rw [hz] at h1
      unfold Pages.ref at hgt
      have h0 : (0 : U64).toInt = 0 := rfl
      omega
    rw [if_neg hne] at hf
    cases hf
    rw [if_neg (by omega)]
    refine ⟨_,rfl,hl,fun j hj => ?_,fun j hj => ?_,h.count,h.bounds⟩
    · have h1 := h.paddr j hj
      simp only [Pages.setWord_paddr]
      exact h1
    · by_cases hji : j = i
      · subst hji
        rw [hdec]
        simp [Phys.setRef]
      · simp only [Phys.setRef,Function.update_of_ne hji,Pages.ref,Pages.setWord_ne hji]
        exact h.ref j hj

theorem Abstracts.share {m : Phys} (h : Abstracts A s m) (h1 : 1 ≤ s.ref i) (hmax : s.ref i < 2^63 - 1) :
    m.ref i = s.ref i ∧ Abstracts A (s.setWord i ((s.info i).word + 1)) (m.setRef i (m.ref i + 1)) := by
  obtain ⟨hnot,hl⟩ := h.list.share h1 hmax
  have href := h.ref i hnot
  refine ⟨href,hl,fun j hj => ?_,fun j hj => ?_,h.count,h.bounds⟩
  · rw [Pages.setWord_paddr]
    exact h.paddr j hj
  · by_cases hji : j = i
    · have hone := count_add_one h1 hmax
      simp only [hji,Phys.setRef,href,Function.update_self,Pages.ref,Pages.setWord_self]
      exact hone.symm
    · simp only [Phys.setRef,Function.update_of_ne hji,Pages.ref,Pages.setWord_ne hji]
      exact h.ref j hj

/-- A call on the words of the array, with the page it returns. -/
inductive WordCall (A : PageArray) (s : Pages) : PageOp × Option ℕ → Pages → Prop
  | alloc {s' : Pages} {r : Option ℕ} (h : A.allocPage none s = .ok (r,s')) : WordCall A s (.alloc,r) s'
  | free {s' : Pages} {i : ℕ} (hi : i < A.npages) (h : A.freePage s i = .ok s') : WordCall A s (.free i,none) s'
  | share {i : ℕ} (h : 1 ≤ s.ref i) (hmax : s.ref i < 2^63 - 1) :
      WordCall A s (.share i,none) (s.setWord i ((s.info i).word + 1))

/-- The call as the rest of the kernel is modelled with it. -/
inductive ListCall (m : Phys) : PageOp × Option ℕ → Phys → Prop
  | alloc {m' : Phys} {r : Option ℕ} (h : allocPage m false = .ok (r,m')) : ListCall m (.alloc,r) m'
  | free {m' : Phys} {i : ℕ} (h : freePage m i = .ok m') : ListCall m (.free i,none) m'
  | share {i : ℕ} (h : 1 ≤ m.ref i) : ListCall m (.share i,none) (m.setRef i (m.ref i + 1))

theorem Abstracts.call {m : Phys} {x : PageOp × Option ℕ} (h : Abstracts A s m) (hmax : A.maxAddr < 2^47)
    (hs : WordCall A s x s') : ∃ m', ListCall m x m' ∧ Abstracts A s' m' := by
  cases hs with
  | alloc ha =>
    obtain ⟨m',hm,h'⟩ := h.alloc ha
    exact ⟨m',.alloc hm,h'⟩
  | free hi hf =>
    obtain ⟨m',hm,h'⟩ := h.free hmax hi hf
    exact ⟨m',.free hm,h'⟩
  | share h1 hlt =>
    obtain ⟨href,h'⟩ := h.share h1 hlt
    exact ⟨_,.share (by rw [href]; exact h1),h'⟩

end Ukern
