import Ukern.Memory.Room
import Ukern.Memory.WalkMap
import Ukern.Lib.Post

/-! # Freeing a copied page table

`copy_pgtbl` takes a page for every table and a reference to every page that is mapped; `free_pgtbl` on
the copy gives up just these, and the page of its root.
-/
namespace Ukern
open Lib Lib.Radix
variable {m m' m'' : Phys} {l n t x dst src : ℕ} {decref : Bool}

/-! ## The free list while pages are given up -/

/-- Counts only fall, and a page is put on the list when its count reaches 0. -/
structure Drops (m m' : Phys) : Prop where
  ref : ∀ x, m'.ref x ≤ m.ref x
  free : ∀ x, x ∈ m'.free ↔ x ∈ m.free ∨ (0 < m.ref x ∧ m'.ref x ≤ 0)

theorem Drops.refl : Drops m m := ⟨fun _ => le_rfl,fun x => by
  constructor
  · exact Or.inl
  · rintro (h | h)
    · exact h
    · omega⟩

theorem Drops.trans (h : Drops m m') (h' : Drops m' m'') : Drops m m'' where
  ref x := (h'.ref x).trans (h.ref x)
  free x := by
    have h1 := h.ref x
    have h2 := h'.ref x
    rw [h'.free, h.free, or_assoc]
    refine or_congr Iff.rfl ?_
    omega

theorem freePage_drops (h : freePage m x = .ok m') : Drops m m' := by
  unfold freePage at h
  split at h
  · cases h
  split at h
  · cases h
  rename_i hpos
  have hother : ∀ {r : ℤ} {y : ℕ}, y ≠ x → Function.update m.ref x r y = m.ref y := fun hy =>
    Function.update_of_ne hy ..
  split at h
  · rename_i hone
    cases h
    refine ⟨fun y => ?_,fun y => ?_⟩
    · by_cases hy : y = x
      · subst hy
        simp only [Function.update_self]
        omega
      · exact le_of_eq (hother hy)
    · by_cases hy : y = x
      · subst hy
        simp only [List.mem_cons,true_or,Function.update_self,le_refl,and_true,true_iff]
        exact Or.inr (by omega)
      · simp only [List.mem_cons,hy,false_or,hother hy]
        exact (or_iff_left (by omega)).symm
  · rename_i hmore
    cases h
    refine ⟨fun y => ?_,fun y => ?_⟩
    · by_cases hy : y = x
      · subst hy
        simp only [Phys.setRef,Function.update_self]
        omega
      · exact le_of_eq (hother hy)
    · by_cases hy : y = x
      · subst hy
        simp only [Phys.setRef,Function.update_self]
        exact (or_iff_left (by omega)).symm
      · simp only [Phys.setRef,hother hy]
        exact (or_iff_left (by omega)).symm

theorem freeFrom_drops (decref : Bool) (l n : ℕ) (m : Phys) (t : ℕ) : Post (freeFrom decref l n m t) (Drops m) := by
  have hpage : ∀ {s : Phys} (x : ℕ), Drops m s → Post (freePage s x) (Drops m) := fun x hs m' hm =>
    hs.trans (freePage_drops hm)
  induction l generalizing n m t with
  | zero =>
    refine .bind (P := Drops m) (.foldlM (fun s i hs => ?_) .refl) fun s hs => hpage t hs
    exact .ite (fun _ => .ok hs) fun _ => .ite (fun _ => hpage _ hs) fun _ => .ok hs
  | succ l ih =>
    refine .bind (P := Drops m) (.foldlM (fun s i hs => ?_) .refl) fun s hs => hpage t hs
    refine .ite (fun _ => .ok hs) fun _ => (ih 512 s _ fun x hs' m' hm => hs'.trans (freePage_drops hm)).mono ?_
    exact fun s' hs' => hs.trans hs'

/-! ## Copy and free -/

/-- A source table with small pages, whose tables are held and whose data pages are counted, and a zeroed
page `dst` with one reference that is in no other use. -/
structure CopyPair (m : Phys) (dst src : ℕ) : Prop where
  small : Inner Pte.link 512 Pte.Small m.tbl 3 256 src
  held : ∀ x, tblPages m src x ≠ 0 → x ∉ m.free ∧ x ≠ dst
  data : ∀ x, maps m src x ≠ 0 → m.allocatable x = true ∧ 1 ≤ m.ref x ∧ x ≠ dst
  acct : Acct m fun _ => 0
  zeroed : ∀ i, m.tbl dst i = .zero
  taken : m.ref dst = 1 ∧ m.allocatable dst = true

/-- What `copy_pgtbl(dst, src, CPY_PGTBL_CNTREF)` makes of the user half. -/
structure SpaceCopied (m m' : Phys) (dst src : ℕ) : Prop where
  present : ∀ j < upages, (entry m src j).p = true → entry m' dst j = entry m src j
  absent : ∀ j < upages, (entry m src j).p = false → (entry m' dst j).p = false
  source : ∀ x, tblPages m src x ≠ 0 → m'.tbl x = m.tbl x
  ref : ∀ x, maps m src x ≠ 0 → m'.ref x = m.ref x + maps m src x

/-- The allocator is as before the copy, but for the page of the root, which is free now. -/
structure CopyUndone (m m' : Phys) (dst : ℕ) : Prop where
  ref : ∀ x ≠ dst, m'.ref x = m.ref x
  free : ∀ x, x ∈ m'.free ↔ x ∈ m.free ∨ x = dst
  count : m'.nfreepages = m.nfreepages + 1

namespace CopyPair

theorem not_free (h : CopyPair m dst src) (hx : 1 ≤ m.ref x) : x ∉ m.free := fun hf => by
  have := (h.acct.free_ok x hf).2.1
  omega

theorem receives (h : CopyPair m dst src) : Receives m dst src where
  source := ⟨h.small,h.held,fun x hx => h.not_free (h.data x hx).2.1⟩
  empty := h.zeroed
  out := h.not_free (by rw [h.taken.1])
  nodup := h.acct.nodup
  free_ne := h.acct.free_ne

/-- The claims before the copy: the root of the copy, and each mapped page once. -/
def claims (m : Phys) (dst src x : ℕ) : ℕ := (if x = dst then 1 else 0) + if maps m src x = 0 then 0 else 1

theorem maps_dst (h : CopyPair m dst src) : maps m src dst = 0 := by
  by_contra hne
  exact (h.data dst hne).2.2 rfl

theorem maps_free (h : CopyPair m dst src) (hx : x ∈ m.free) : maps m src x = 0 := by
  by_contra hne
  exact h.not_free (h.data x hne).2.1 hx

theorem claims_free (h : CopyPair m dst src) (hx : x ∈ m.free) : claims m dst src x = 0 := by
  have hd : x ≠ dst := fun hd => h.not_free (by rw [h.taken.1]) (hd ▸ hx)
  rw [claims, if_neg hd, if_pos (h.maps_free hx)]

theorem claims_le_ref (h : CopyPair m dst src) (x : ℕ) : (claims m dst src x : ℤ) ≤ m.ref x := by
  have h0 : (0 : ℤ) ≤ m.ref x := h.acct.le_ref x
  by_cases hd : x = dst
  · rw [hd, claims, if_pos rfl, if_pos h.maps_dst, h.taken.1]
    rfl
  · by_cases hm : maps m src x = 0
    · rw [claims, if_neg hd, if_pos hm]
      exact h0
    · rw [claims, if_neg hd, if_neg hm]
      exact (h.data x hm).2.1

theorem acct_claims (h : CopyPair m dst src) : Acct m (fun x => claims m dst src x) := by
  refine ⟨h.acct.nodup,h.acct.free_ne,h.acct.count,fun x hx => ?_,?_⟩
  · exact ⟨(h.acct.free_ok x hx).1,(h.acct.free_ok x hx).2.1,h.claims_free hx⟩
  · exact fun x => h.claims_le_ref x

end CopyPair

namespace Cloned
variable {new : List ℕ}

theorem maps_eq_source (h : Cloned m m' true dst src new) (x : ℕ) : maps m' dst x = maps m src x :=
  maps_congr fun j hj => by rw [h.entry_eq j hj, Pte.keep_hit]

/-- Everything the copy holds: its root, its new tables, and the mapped pages. -/
theorem held_eq (h : Cloned m m' true dst src new) (x : ℕ) :
    Ukern.held true m' 3 256 dst x = (if x = dst then 1 else 0) + new.count x + maps m src x := by
  have h1 : pages Pte.link 512 m'.tbl 3 256 dst x = (if x = dst then 1 else 0) + new.count x := h.pages_eq x
  have h2 : leafSum Pte.link 512 (Pte.hit x) m'.tbl 3 256 dst = maps m src x := h.maps_eq_source x
  rw [Ukern.held, h1, h2, if_pos rfl]

theorem spaceCopied (h : Cloned m m' true dst src new) (hp : CopyPair m dst src) : SpaceCopied m m' dst src where
  present j hj hpr := by rw [h.entry_eq j hj, Pte.keep, if_pos hpr]
  absent j hj hab := by
    rw [h.entry_eq j hj, Pte.keep, if_neg (by rw [hab]; decide)]
    rfl
  source x hx := h.grow.tbl x (hp.held x hx).2 fun hn => (hp.held x hx).1 (h.grow.new_free hn)
  ref x hx := by
    rw [h.grow.ref, if_neg fun hn => hp.not_free (hp.data x hx).2.1 (h.grow.new_free hn), if_pos rfl]

theorem free_undoes (h : Cloned m m' true dst src new) (hp : CopyPair m dst src) :
    ∃ m'', freePgtbl m' dst true = .ok m'' ∧ CopyUndone m m'' dst := by
  have hacct := h.grow.acct hp.acct_claims fun x hx => by
    rw [CopyPair.claims] at hx
    rw [if_pos rfl]
    by_contra hne
    rw [if_neg hne] at hx
    omega
  have hle : ∀ x, Ukern.held true m' 3 256 dst x ≤
      CopyPair.claims m dst src x + new.count x + if true then maps m src x else 0 := fun x => by
    rw [h.held_eq, CopyPair.claims, if_pos rfl]
    omega
  obtain ⟨m'',hf,hacct',hsh⟩ := freeFrom_spec true hacct h.small hle fun x hx => by
    rw [h.grow.allocatable]
    rw [h.held_eq] at hx
    by_cases hd : x = dst
    · rw [hd]
      exact hp.taken.2
    by_cases hn : x ∈ new
    · exact (hp.acct.free_ok x (h.grow.new_free hn)).1
    · rw [if_neg hd, List.count_eq_zero_of_not_mem hn] at hx
      exact (hp.data x (by omega)).1
  have hdrop := freeFrom_drops true 3 256 m' dst m'' hf
  have hnew := h.grow.nodup hp.acct.nodup
  have hout : dst ∉ m.free := hp.receives.out
  -- the counts before, between and after
  have hmid : ∀ x, m'.ref x = if x ∈ new then 1 else m.ref x + maps m src x := fun x => by
    rw [h.grow.ref, if_pos rfl]
  have hend : ∀ x, m''.ref x = m'.ref x - ((if x = dst then 1 else 0) + new.count x + maps m src x : ℕ) := fun x => by
    rw [hsh.ref, h.held_eq]
  have href : ∀ x ≠ dst, m''.ref x = m.ref x := fun x hx => by
    rw [hend, hmid, if_neg hx]
    by_cases hn : x ∈ new
    · have hf := h.grow.new_free hn
      rw [if_pos hn, List.count_eq_one_of_mem hnew.1 hn, hp.maps_free hf, (hp.acct.free_ok x hf).2.1]
      rfl
    · rw [if_neg hn, List.count_eq_zero_of_not_mem hn]
      push_cast
      ring
  have hdst : m'.ref dst = 1 ∧ m''.ref dst = 0 := by
    have hn : dst ∉ new := fun hn => hout (h.grow.new_free hn)
    have h1 : m'.ref dst = 1 := by
      rw [hmid, if_neg hn, hp.maps_dst, hp.taken.1]
      rfl
    refine ⟨h1,?_⟩
    rw [hend, h1, if_pos rfl, List.count_eq_zero_of_not_mem hn, hp.maps_dst]
    rfl
  have hfree : ∀ x, x ∈ m''.free ↔ x ∈ m.free ∨ x = dst := fun x => by
    rw [hdrop.free]
    by_cases hd : x = dst
    · subst hd
      simp only [hdst.1,hdst.2]
      exact ⟨fun _ => Or.inr trivial,fun _ => Or.inr (by decide)⟩
    · rw [h.grow.free, List.mem_append, href x hd, hmid]
      by_cases hn : x ∈ new
      · have := (hp.acct.free_ok x (h.grow.new_free hn)).2.1
        simp [hn,this]
      · have h0 := hp.acct.le_ref x
        simp only [hn,↓reduceIte,false_or,hd,or_false]
        refine ⟨fun h' => h'.elim id fun ⟨h1,h2⟩ => ?_,Or.inl⟩
        have hne : maps m src x ≠ 0 := by
          intro hz
          rw [hz] at h1
          simp only [Nat.cast_zero,add_zero] at h1
          omega
        have := (hp.data x hne).2.1
        omega
  refine ⟨m'',hf,href,hfree,?_⟩
  have hperm : m''.free.Perm (dst :: m.free) :=
    (List.perm_ext_iff_of_nodup hacct'.nodup (List.nodup_cons.mpr ⟨hout,hp.acct.nodup⟩)).mpr fun x => by
      rw [hfree, List.mem_cons, or_comm]
  rw [hacct'.count, hp.acct.count, hperm.length_eq]
  rfl

end Cloned

/-- An empty table in page 1, and page 14 for the copy. -/
def bareCopy : Phys := { bareTable with ref := fun x => if x = 14 then 1 else 0 }

end Ukern
