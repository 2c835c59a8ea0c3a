import Mathlib.Logic.Function.Basic
import Ukern.Lib.Chain

/-! # Forests of linked siblings

Every member points to its parent, to the first of its children, and to the sibling before and behind it. The
two operations are the birth of a child and the departure of a member, whose children become orphans and keep
the links among themselves.
-/
namespace Ukern.Lib
variable {α : Type*} {j s n c : α}

structure Family (α : Type*) where
  parent : α → Option α
  child : α → Option α
  prev : α → Option α
  next : α → Option α

/-- The children of a living member are chained, nobody is its own parent, siblings live and have one parent, and
whoever does not live has no links. -/
structure Family.Sound (F : Family α) (live : α → Prop) : Prop where
  children : ∀ p, live p → ∃ l, DChain F.next F.prev none (F.child p) l ∧ ∀ j, j ∈ l ↔ F.parent j = some p
  parent : ∀ j p, F.parent j = some p → live p
  self : ∀ j, F.parent j ≠ some j
  kin : ∀ j s, F.next j = some s ∨ F.prev j = some s → live s ∧ F.parent s = F.parent j
  blank : ∀ j, ¬ live j → F.parent j = none ∧ F.child j = none ∧ F.prev j = none ∧ F.next j = none

namespace Family
variable [DecidableEq α] {F : Family α} {live : α → Prop}

/-- The birth of `n`, in front of the children that `c` has. -/
def adopt (F : Family α) (n c : α) : Family α where
  parent := Function.update F.parent n (some c)
  child := Function.update F.child c (some n)
  prev j := if F.child c = some j then some n else F.prev j
  next := Function.update F.next n (F.child c)

/-- Departure of `c`. -/
def leave (F : Family α) (c : α) : Family α where
  parent j := if j = c ∨ F.parent j = some c then none else F.parent j
  child j := if j = c then none else if F.child j = some c then F.next c else F.child j
  prev j := if j = c then none else if F.prev j = some c then F.prev c else F.prev j
  next j := if j = c then none else if F.next j = some c then F.next c else F.next j

section Lookup
variable (F : Family α) (n c : α)

@[simp] theorem adopt_parent_self : (F.adopt n c).parent n = some c := Function.update_self ..

@[simp] theorem adopt_child_self : (F.adopt n c).child c = some n := Function.update_self ..

@[simp] theorem adopt_next_self : (F.adopt n c).next n = F.child c := Function.update_self ..

theorem adopt_parent_ne (h : j ≠ n) : (F.adopt n c).parent j = F.parent j := Function.update_of_ne h ..

theorem adopt_child_ne (h : j ≠ c) : (F.adopt n c).child j = F.child j := Function.update_of_ne h ..

theorem adopt_next_ne (h : j ≠ n) : (F.adopt n c).next j = F.next j := Function.update_of_ne h ..

theorem adopt_prev_first (h : F.child c = some j) : (F.adopt n c).prev j = some n := if_pos h

theorem adopt_prev_ne (h : F.child c ≠ some j) : (F.adopt n c).prev j = F.prev j := if_neg h

end Lookup

theorem leave_parent_eq {p : α} : (F.leave c).parent j = some p ↔ j ≠ c ∧ p ≠ c ∧ F.parent j = some p := by
  simp only [leave]
  split
  · rename_i hjc
    refine iff_of_false (by rintro ⟨⟩) ?_
    rintro ⟨hne,hpc,hjp⟩
    rcases hjc with rfl | hjc
    · exact hne rfl
    · exact hpc (Option.some.inj (hjp.symm.trans hjc))
  · rename_i hjc
    rw [not_or] at hjc
    constructor
    · intro hjp
      refine ⟨hjc.1,?_,hjp⟩
      rintro rfl
      exact hjc.2 hjp
    · exact fun hh => hh.2.2

theorem leave_parent_congr (hj : j ≠ c) (hs : s ≠ c) (he : F.parent s = F.parent j) :
    (F.leave c).parent s = (F.leave c).parent j := by
  simp only [leave,hj,hs,he,false_or]

namespace Sound

theorem live_of_parent (h : F.Sound live) (hj : F.parent j ≠ none) : live j := by
  by_contra hd
  exact hj (h.blank j hd).1

/-- The siblings of a child: the two links agree, and it is not its own sibling. -/
theorem links_of_parent {p : α} (h : F.Sound live) (hc : F.parent c = some p) :
    (F.next c ≠ some c ∧ F.prev c ≠ some c) ∧ ∀ j, F.next j = some c ↔ F.prev c = some j := by
  obtain ⟨l,hl,hmem⟩ := h.children p (h.parent c p hc)
  have hcl := (hmem c).mpr hc
  have hback : ∀ j, F.prev c = some j → F.next j = some c := by
    intro j hj
    rcases hl.prev_cases hcl with ⟨-,hnone⟩ | ⟨a,-,ha,hna⟩
    · rw [hnone] at hj
      cases hj
    · rw [ha] at hj
      cases hj
      exact hna
  have hself := hl.chain.next_ne hcl
  refine ⟨⟨hself,fun hp => hself (hback c hp)⟩,fun j => ⟨fun hj => ?_,hback j⟩⟩
  have hjp : F.parent j = some p := (h.kin j c (Or.inl hj)).2.symm.trans hc
  exact hl.prev_of_next ((hmem j).mpr hjp) hj

theorem next_of_prev {p : α} (h : F.Sound live) (hc : F.parent c = some p) : F.prev j = some c ↔ F.next c = some j := by
  constructor
  · intro hj
    have hjp : F.parent j = some p := (h.kin j c (Or.inr hj)).2.symm.trans hc
    exact ((h.links_of_parent hjp).2 c).mpr hj
  · intro hj
    have hjp : F.parent j = some p := (h.kin c j (Or.inl hj)).2.trans hc
    exact ((h.links_of_parent hjp).2 c).mp hj

theorem parent_of_child {p : α} (h : F.Sound live) (hp : F.child p = some c) : F.parent c = some p := by
  have hlive : live p := by
    by_contra hd
    rw [(h.blank p hd).2.1] at hp
    cases hp
  obtain ⟨l,hl,hmem⟩ := h.children p hlive
  rw [hp] at hl
  exact (hmem c).mp hl.chain.head_mem

theorem live_of_child {p : α} (h : F.Sound live) (hp : F.child p = some c) : live c := by
  refine h.live_of_parent ?_
  rw [h.parent_of_child hp]
  exact Option.some_ne_none p

theorem adopt_children {p : α} (h : F.Sound live) (hc : live c) (hn : ¬ live n) (hp : live p) :
    ∃ l, DChain (F.adopt n c).next (F.adopt n c).prev none ((F.adopt n c).child p) l ∧
      ∀ j, j ∈ l ↔ (F.adopt n c).parent j = some p := by
  obtain ⟨hnp,-,hnprev,-⟩ := h.blank n hn
  obtain ⟨l,hl,hmem⟩ := h.children p hp
  have hln : ∀ a ∈ l, a ≠ n := by
    rintro a ha rfl
    rw [hmem, hnp] at ha
    cases ha
  have hkeep : ∀ a ∈ l, (F.adopt n c).next a = F.next a := fun a ha => adopt_next_ne F n c (hln a ha)
  by_cases hpc : p = c
  · subst hpc
    refine ⟨n :: l,⟨adopt_child_self F n p,?_,?_⟩,fun j => ?_⟩
    · exact (adopt_prev_ne F n p fun hfirst => hn (h.live_of_child hfirst)).trans hnprev
    · rw [adopt_next_self]
      exact hl.rehead hkeep (fun a _ ha => adopt_prev_first F n p ha) fun a _ ha => adopt_prev_ne F n p ha
    · rw [List.mem_cons, hmem j]
      by_cases hjn : j = n
      · subst hjn
        exact iff_of_true (Or.inl rfl) (adopt_parent_self F j p)
      · rw [adopt_parent_ne F n p hjn]
        exact or_iff_right hjn
  · refine ⟨l,?_,fun j => ?_⟩
    · rw [adopt_child_ne F n c hpc]
      refine hl.congr hkeep fun a ha => adopt_prev_ne F n c fun hca => hpc ?_
      exact Option.some.inj (((hmem a).mp ha).symm.trans (h.parent_of_child hca))
    · rw [hmem j]
      by_cases hjn : j = n
      · subst hjn
        rw [hnp, adopt_parent_self]
        exact iff_of_false (by rintro ⟨⟩) fun hcp => hpc (Option.some.inj hcp).symm
      · rw [adopt_parent_ne F n c hjn]

theorem adopt_kin (h : F.Sound live) (hn : ¬ live n)
    (hj : (F.adopt n c).next j = some s ∨ (F.adopt n c).prev j = some s) :
    (live s ∨ s = n) ∧ (F.adopt n c).parent s = (F.adopt n c).parent j := by
  obtain ⟨-,-,hnprev,-⟩ := h.blank n hn
  have hne : ∀ i, live i → i ≠ n := by
    rintro i hi rfl
    exact hn hi
  have hold : ∀ {j s}, F.next j = some s ∨ F.prev j = some s → j ≠ n →
      (live s ∨ s = n) ∧ (F.adopt n c).parent s = (F.adopt n c).parent j := by
    intro j s hj hjn
    obtain ⟨hs,hps⟩ := h.kin j s hj
    rw [adopt_parent_ne F n c (hne s hs), adopt_parent_ne F n c hjn]
    exact ⟨Or.inl hs,hps⟩
  have hfirst : ∀ {s}, F.child c = some s → live s ∧ (F.adopt n c).parent s = some c := by
    intro s hs
    have hls := h.live_of_child hs
    exact ⟨hls,(adopt_parent_ne F n c (hne s hls)).trans (h.parent_of_child hs)⟩
  rcases hj with hj | hj
  · by_cases hjn : j = n
    · subst hjn
      rw [adopt_next_self] at hj
      obtain ⟨hls,hps⟩ := hfirst hj
      exact ⟨Or.inl hls,hps.trans (adopt_parent_self F j c).symm⟩
    · rw [adopt_next_ne F n c hjn] at hj
      exact hold (Or.inl hj) hjn
  · by_cases hcj : F.child c = some j
    · rw [adopt_prev_first F n c hcj] at hj
      obtain rfl := Option.some.inj hj
      exact ⟨Or.inr rfl,(adopt_parent_self F n c).trans (hfirst hcj).2.symm⟩
    · rw [adopt_prev_ne F n c hcj] at hj
      refine hold (Or.inr hj) ?_
      rintro rfl
      rw [hnprev] at hj
      cases hj

theorem adopt (h : F.Sound live) (hc : live c) (hn : ¬ live n) : (F.adopt n c).Sound fun j => live j ∨ j = n := by
  have hcn : c ≠ n := by
    rintro rfl
    exact hn hc
  refine ⟨fun p hp => ?_,fun j p hj => ?_,fun j hj => ?_,fun j s hj => h.adopt_kin hn hj,fun j hj => ?_⟩
  · rcases hp with hp | rfl
    · exact h.adopt_children hc hn hp
    · -- the newborn has no children
      refine ⟨[],(adopt_child_ne F p c hcn.symm).trans (h.blank p hn).2.1,fun j => iff_of_false List.not_mem_nil fun hj => ?_⟩
      by_cases hjp : j = p
      · rw [hjp, adopt_parent_self] at hj
        exact hcn (Option.some.inj hj)
      · rw [adopt_parent_ne F p c hjp] at hj
        exact hn (h.parent j p hj)
  · by_cases hjn : j = n
    · rw [hjn, adopt_parent_self] at hj
      exact Or.inl (Option.some.inj hj ▸ hc)
    · rw [adopt_parent_ne F n c hjn] at hj
      exact Or.inl (h.parent j p hj)
  · by_cases hjn : j = n
    · rw [hjn, adopt_parent_self] at hj
      exact hcn (Option.some.inj hj)
    · rw [adopt_parent_ne F n c hjn] at hj
      exact h.self j hj
  · rw [not_or] at hj
    obtain ⟨h1,h2,h3,h4⟩ := h.blank j hj.1
    have hjc : j ≠ c := by
      rintro rfl
      exact hj.1 hc
    rw [adopt_parent_ne F n c hj.2, adopt_child_ne F n c hjc, adopt_next_ne F n c hj.2,
      adopt_prev_ne F n c fun hcj => hj.1 (h.live_of_child hcj)]
    exact ⟨h1,h2,h3,h4⟩

theorem enter (h : F.Sound live) (hn : ¬ live n) : F.Sound fun j => live j ∨ j = n := by
  refine ⟨fun p hp => ?_,fun j p hj => Or.inl (h.parent j p hj),h.self,fun j s hj => ?_,
    fun j hj => h.blank j fun hl => hj (Or.inl hl)⟩
  · rcases hp with hp | rfl
    · exact h.children p hp
    · exact ⟨[],(h.blank p hn).2.1,fun j => iff_of_false List.not_mem_nil fun hj => hn (h.parent j p hj)⟩
  · obtain ⟨hs,hp⟩ := h.kin j s hj
    exact ⟨Or.inl hs,hp⟩

theorem bypass_ne (h : F.Sound live) (hgo : F.parent c ≠ none ∨ ∀ j ≠ c, F.next j ≠ some c ∧ F.prev j ≠ some c)
    (hjc : j ≠ c) (hj : F.next j = some c ∨ F.prev j = some c) (hs : F.next c = some s ∨ F.prev c = some s) : s ≠ c := by
  rintro rfl
  rcases hgo with hp | hno
  · obtain ⟨p,hp⟩ := Option.ne_none_iff_exists'.mp hp
    have hself := (h.links_of_parent hp).1
    exact hs.elim hself.1 hself.2
  · exact hj.elim (hno j hjc).1 (hno j hjc).2

theorem leave_kin (h : F.Sound live) (hgo : F.parent c ≠ none ∨ ∀ j ≠ c, F.next j ≠ some c ∧ F.prev j ≠ some c)
    (hj : (F.leave c).next j = some s ∨ (F.leave c).prev j = some s) :
    (live s ∧ s ≠ c) ∧ (F.leave c).parent s = (F.leave c).parent j := by
  by_cases hjc : j = c
  · simp only [Family.leave,hjc,↓reduceIte,reduceCtorEq,or_self] at hj
  have hstay : F.next j = some s ∨ F.prev j = some s → s ≠ c →
      (live s ∧ s ≠ c) ∧ (F.leave c).parent s = (F.leave c).parent j := by
    intro hs hsc
    obtain ⟨hls,hps⟩ := h.kin j s hs
    exact ⟨⟨hls,hsc⟩,leave_parent_congr hjc hsc hps⟩
  have hpass : F.next j = some c ∨ F.prev j = some c → F.next c = some s ∨ F.prev c = some s →
      (live s ∧ s ≠ c) ∧ (F.leave c).parent s = (F.leave c).parent j := by
    intro hjs hs
    have hsc := h.bypass_ne hgo hjc hjs hs
    obtain ⟨hls,hps⟩ := h.kin c s hs
    exact ⟨⟨hls,hsc⟩,leave_parent_congr hjc hsc (hps.trans (h.kin j c hjs).2)⟩
  simp only [Family.leave,hjc,↓reduceIte] at hj
  rcases hj with hj | hj
  · split at hj
    · rename_i hjn
      exact hpass (Or.inl hjn) (Or.inl hj)
    · rename_i hjn
      refine hstay (Or.inl hj) ?_
      rintro rfl
      exact hjn hj
  · split at hj
    · rename_i hjp
      exact hpass (Or.inr hjp) (Or.inr hj)
    · rename_i hjp
      refine hstay (Or.inr hj) ?_
      rintro rfl
      exact hjp hj

/-- A member may go if it has a parent, or if nobody is its sibling. -/
theorem leave (h : F.Sound live) (hgo : F.parent c ≠ none ∨ ∀ j ≠ c, F.next j ≠ some c ∧ F.prev j ≠ some c) :
    (F.leave c).Sound fun j => live j ∧ j ≠ c := by
  refine ⟨fun p hp => ?_,fun j p hj => ?_,fun j hj => h.self j (leave_parent_eq.mp hj).2.2,
    fun j s hj => h.leave_kin hgo hj,fun j hj => ?_⟩
  · obtain ⟨l,hl,hmem⟩ := h.children p hp.1
    have hchild : (F.leave c).child p = if F.child p = some c then F.next c else F.child p := if_neg hp.2
    refine ⟨l.erase c,?_,fun j => ?_⟩
    · rw [hchild]
      exact hl.unlink (by rintro ⟨⟩) (fun a _ ha => if_neg ha) fun a _ ha => if_neg ha
    · rw [hl.chain.nodup.mem_erase_iff, hmem j, leave_parent_eq]
      exact ⟨fun hh => ⟨hh.1,hp.2,hh.2⟩,fun hh => ⟨hh.1,hh.2.2⟩⟩
  · obtain ⟨-,hpc,hjp⟩ := leave_parent_eq.mp hj
    exact ⟨h.parent j p hjp,hpc⟩
  · by_cases hjc : j = c
    · simp only [Family.leave,hjc,↓reduceIte,true_or,and_self]
    · obtain ⟨h1,h2,h3,h4⟩ := h.blank j fun hl => hj ⟨hl,hjc⟩
      simp only [Family.leave,hjc,h1,h2,h3,h4,↓reduceIte,reduceCtorEq,or_self,and_self]

end Sound

end Family

end Ukern.Lib
