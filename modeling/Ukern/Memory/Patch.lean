import Ukern.Memory.Word
import Ukern.Memory.Image

/-! # Stores into private pages

A page that `pgtbl` maps writable is behind no other page. What the kernel stores there after `U2K` is read
back by the owner, at that address only, and by nobody else.
-/
namespace Ukern
open Lib Lib.Radix
variable {m m' m₁ : Phys} {kp t t₂ s s₂ n l f a : ℕ} {sp : Spaces} {extra : ℕ → ℕ} {c j : Slot} {b : UInt8}
  {g g' : ℕ → Option UInt8}

theorem SamePages.refl (m : Phys) (t : ℕ) : SamePages m m t := fun _ _ => ⟨rfl,fun _ => rfl⟩

theorem SamePages.trans (h : SamePages m m₁ t) (h' : SamePages m₁ m' t) : SamePages m m' t := by
  intro n hn
  obtain ⟨h1,h2⟩ := h n hn
  obtain ⟨h3,h4⟩ := h' n hn
  exact ⟨h3.trans h1,fun hp => (h4 (h1.trans hp)).trans (h2 hp)⟩

theorem SamePages.of_contents (ht : m'.tbl = m.tbl) (hd : m'.data = m.data) : SamePages m m' t := fun n _ => by
  rw [entry, ht, hd]
  exact ⟨rfl,fun _ => rfl⟩

theorem two_le_maps (hn : n < upages) (hl : l < upages) (hne : l ≠ n) (hp : (entry m t n).p = true)
    (hf : (entry m t n).frame = f) (hp' : (entry m t l).p = true) (hf' : (entry m t l).frame = f) :
    2 ≤ maps m t f := by
  rw [maps_eq]
  have hsub : ({l,n} : Finset ℕ) ⊆ Finset.range upages := by
    intro x hx
    rcases Finset.mem_insert.mp hx with rfl | hx
    · exact Finset.mem_range.mpr hl
    · rw [Finset.mem_singleton.mp hx]
      exact Finset.mem_range.mpr hn
  refine le_trans ?_ (Finset.sum_le_sum_of_subset hsub)
  rw [Finset.sum_pair hne, Pte.hit, Pte.hit, if_pos ⟨hp',hf'⟩, if_pos ⟨hp,hf⟩]

theorem MemInv.only_page (h : MemInv m kp sp extra) (hs : sp c = some (t,t₂)) (hn : n < upages)
    (he : entry m t n = .full f) (hj : sp j = some (s,s₂)) (hl : l < upages) (hp : (entry m s l).p = true)
    (hf : (entry m s l).frame = f) : j = c ∧ l = n := by
  have hpn : (entry m t n).p = true := by rw [he, Pte.full_p]
  have hfn : (entry m t n).frame = f := by rw [he, Pte.full_frame]
  have h1 := h.wr c t t₂ hs n hn hpn (by rw [he, Pte.full_w])
  rw [hfn] at h1
  have hjc : j = c := by
    by_contra hne
    have h2 := maps_pos hn hpn
    have h3 := maps_pos hl hp
    have h4 := MemInv.mapOf_add_le m sp hne f
    rw [hfn] at h2
    rw [hf] at h3
    rw [mapOf_some hs, mapOf_some hj] at h4
    omega
  subst hjc
  refine ⟨rfl,?_⟩
  by_contra hne
  rw [hs] at hj
  cases hj
  have h2 := two_le_maps hn hl hne hpn hfn hp hf
  have h3 := mapOf_le m sp j f
  rw [mapOf_some hs] at h3
  omega

/-- Process `c` reads `g` where that is a byte, and what it read before elsewhere. The others read what they read. -/
structure Patched (m m' : Phys) (kp : ℕ) (sp : Spaces) (extra : ℕ → ℕ) (c : Slot) (g : ℕ → Option UInt8) : Prop where
  inv : MemInv m' kp sp extra
  others : ∀ j ≠ c, ∀ s s₂, sp j = some (s,s₂) → SamePages m m' s
  self : ∀ t t₂, sp c = some (t,t₂) → ∀ v, userLoad m' t v = (g v).or (userLoad m t v)
  mapped : ∀ t t₂, sp c = some (t,t₂) → ∀ v, userLoad m t v = none → g v = none

namespace Patched

theorem refl (h : MemInv m kp sp extra) : Patched m m kp sp extra c fun _ => none :=
  ⟨h,fun _ _ s _ _ => SamePages.refl m s,fun _ _ _ _ => rfl,fun _ _ _ _ _ => rfl⟩

theorem trans (h : Patched m m₁ kp sp extra c g) (h' : Patched m₁ m' kp sp extra c g') :
    Patched m m' kp sp extra c fun v => (g' v).or (g v) where
  inv := h'.inv
  others j hj s s₂ hs := (h.others j hj s s₂ hs).trans (h'.others j hj s s₂ hs)
  self t t₂ hs v := by rw [h'.self t t₂ hs, h.self t t₂ hs, Option.or_assoc]
  mapped t t₂ hs v hv := by
    have hg := h.mapped t t₂ hs v hv
    have hload := h.self t t₂ hs v
    rw [hg, hv] at hload
    rw [hg, h'.mapped t t₂ hs v hload]
    rfl

theorem congr (h : Patched m m' kp sp extra c g) (hg : ∀ v, g' v = g v) : Patched m m' kp sp extra c g' := by
  rw [funext hg]
  exact h

theorem of_private {u : ℕ} (h : MemInv m kp sp extra) (hp : Private m m' kp sp extra u n f) :
    Patched m m' kp sp extra c fun _ => none :=
  ⟨hp.inv,fun j _ s s₂ hs => hp.pages j s s₂ hs,fun t t₂ hs v => (hp.pages c t t₂ hs).userLoad
    (h.space c t t₂ hs) (hp.inv.space c t t₂ hs) v,fun _ _ _ _ _ => rfl⟩

/-- One byte, through the frame of a page that the process may write. -/
theorem setByte (h : MemInv m kp sp extra) (hs : sp c = some (t,t₂)) (ha : a < userTop)
    (he : entry m t (key 3 a) = .full f) :
    Patched m (m.setByte (f * pgsize + a % pgsize) b) kp sp extra c fun v => if v = a then some b else none := by
  have hent : ∀ u i, entry (m.setByte (f * pgsize + a % pgsize) b) u i = entry m u i := fun _ _ => rfl
  refine ⟨h.setByte _ _,fun j hj u u₂ hu i hi => ?_,fun u u₂ hu v => ?_,fun u u₂ hu v hv => ?_⟩
  · rw [hent]
    refine ⟨rfl,fun hp => ?_⟩
    funext o
    rw [Phys.setByte_data, if_neg]
    rintro ⟨hf,-⟩
    exact hj (h.only_page hs (key_user ha) he hu hi hp hf).1
  · rw [hs] at hu
    cases hu
    rw [(h.space c t t₂ hs).userLoad_eq, ((h.setByte _ _).space c t t₂ hs).userLoad_eq, hent]
    by_cases hva : v = a
    · subst hva
      rw [he, Pte.full_p, if_pos ⟨ha,rfl⟩, if_pos rfl, Pte.full_frame, Phys.setByte_data, if_pos ⟨rfl,rfl⟩]
      rfl
    · rw [if_neg hva, Option.none_or]
      by_cases hv : v < userTop ∧ (entry m t (key 3 v)).p = true
      · rw [if_pos hv, if_pos hv, Phys.setByte_data, if_neg]
        rintro ⟨hf,ho⟩
        obtain ⟨-,hk⟩ := h.only_page hs (key_user ha) he hs (key_user hv.1) hv.2 hf
        exact hva (addr_eq hv.1 ha hk ho)
      · rw [if_neg hv, if_neg hv]
  · rw [hs] at hu
    cases hu
    rw [if_neg]
    rintro rfl
    rw [(h.space c t t₂ hs).userLoad_eq, he, Pte.full_p, if_pos ⟨ha,rfl⟩] at hv
    cases hv

end Patched

/-- The bytes `bs` from address `a` on. -/
def patch (a : ℕ) (bs : List UInt8) (v : ℕ) : Option UInt8 := if a ≤ v then bs[v - a]? else none

theorem patch_nil (a v : ℕ) : patch a [] v = none := by
  unfold patch
  split
  · rfl
  · rfl

theorem patch_cons (a : ℕ) (b : UInt8) (bs : List UInt8) (v : ℕ) :
    patch a (b :: bs) v = (patch (a+1) bs v).or (if v = a then some b else none) := by
  unfold patch
  by_cases hv : v = a
  · rw [if_pos hv.ge, if_neg (by omega), if_pos hv, Option.none_or, hv, Nat.sub_self]
    rfl
  · rw [if_neg hv, Option.or_none]
    by_cases ha : a ≤ v
    · rw [if_pos ha, if_pos (by omega), show v - a = (v - (a+1)) + 1 by omega]
      rfl
    · rw [if_neg ha, if_neg (by omega)]

end Ukern
