import Ukern.Memory.Clear
import Ukern.Memory.Free

/-! # Address spaces

The user half of a process is a pair of tables: `pgtbl`, which the MMU uses, and
`p_pgtbl`, which remembers the rights of a page while it is shared. `MemInv` says
how all tables, the kernel's table and the page allocator fit together.
-/
namespace Ukern
open Lib Lib.Radix
variable {m m' : Phys} {t t₂ kp n x : ℕ}

/-- Number of pages of the user half. -/
def upages : ℕ := 256 * 512^3

/-- The entry of page number `n`. -/
def entry (m : Phys) (t n : ℕ) : Pte := leafAt Pte.link 512 .zero m.tbl 3 t n

/-- How often page `x` is a table of the user half below `t`. -/
def tblPages (m : Phys) (t x : ℕ) : ℕ := pages Pte.link 512 m.tbl 3 256 t x

/-- How many user pages below `t` map page `x`. -/
def maps (m : Phys) (t x : ℕ) : ℕ := leafSum Pte.link 512 (Pte.hit x) m.tbl 3 256 t

theorem maps_eq : maps m t x = ∑ n ∈ Finset.range upages, (entry m t n).hit x :=
  leafSum_eq (by decide) (Pte.hit_zero x)

theorem tblPages_root : tblPages m t t ≠ 0 := by
  have := one_le_pages_root Pte.link 512 m.tbl 3 256 t
  exact Nat.ne_of_gt this

theorem maps_pos (hn : n < upages) (hp : (entry m t n).p = true) : maps m t (entry m t n).frame ≠ 0 := by
  have h := le_sum_range (f := fun j => (entry m t j).hit (entry m t n).frame) hn
  rw [maps_eq]
  simp only [Pte.hit,hp,and_self,↓reduceIte] at h
  simp only [Pte.hit]
  omega

theorem maps_congr {t' : ℕ} (h : ∀ n < upages, (entry m' t' n).hit x = (entry m t n).hit x) :
    maps m' t' x = maps m t x := by
  rw [maps_eq, maps_eq]
  exact Finset.sum_congr rfl fun n hn => h n (Finset.mem_range.mp hn)

theorem maps_replace {e : Pte} (hn : n < upages)
    (h : ∀ j < upages, entry m' t j = if j = n then e else entry m t j) :
    maps m' t x + (entry m t n).hit x = maps m t x + e.hit x := by
  have hs := sum_range_replace (f := fun j => (entry m' t j).hit x) (g := fun j => (entry m t j).hit x) hn
    (fun j hj hjn => by rw [h j hj, if_neg hjn])
  simp only [h n hn,↓reduceIte] at hs
  rw [maps_eq, maps_eq]
  exact hs

/-- A table that was not touched, kernel half included. -/
structure Keep (m m' : Phys) (t : ℕ) : Prop where
  same : Same Pte.link 512 m.tbl m'.tbl 3 256 t
  upper : ∀ i, 256 ≤ i → m'.tbl t i = m.tbl t i

theorem Keep.entry (h : Keep m m' t) (hn : n < upages) : entry m' t n = entry m t n :=
  h.same.leafAt (by decide) hn

theorem Keep.tblPages (h : Keep m m' t) (x : ℕ) : tblPages m' t x = tblPages m t x := h.same.pages x

theorem Keep.maps (h : Keep m m' t) (x : ℕ) : maps m' t x = maps m t x := h.same.leafSum _

theorem Keep.of_pages (h : ∀ x, Ukern.tblPages m t x ≠ 0 → m'.tbl x = m.tbl x) : Keep m m' t where
  same := same_of_pages h
  upper i _ := by rw [h t tblPages_root]

/-- The entries of one user page in the two tables: same page, full rights in `p_pgtbl`, and
only `W` may be missing in `pgtbl`. -/
def Pte.Agree (e e₂ : Pte) : Prop :=
  e.p = e₂.p ∧ (e₂.p = true →
    e.frame = e₂.frame ∧ e₂.flags = pteFlags ∧ (e.flags = pteFlags ∨ e.flags = pteP ||| pteU))

/-- A pair of tables of one process. -/
structure Space (m : Phys) (kp t t₂ : ℕ) : Prop where
  small : Inner Pte.link 512 Pte.Small m.tbl 3 256 t
  small₂ : Inner Pte.link 512 Pte.Small m.tbl 3 256 t₂
  agree : ∀ n < upages, (entry m t n).Agree (entry m t₂ n)
  kernel : ∀ i, 256 ≤ i → i < 512 → m.tbl t i = m.tbl kp i
  kernel₂ : ∀ i, 256 ≤ i → i < 512 → m.tbl t₂ i = m.tbl kp i

theorem Space.keep (h : Space m kp t t₂) (h₁ : Keep m m' t) (h₂ : Keep m m' t₂)
    (hk : ∀ i, 256 ≤ i → i < 512 → m'.tbl kp i = m.tbl kp i) : Space m' kp t t₂ where
  small := h₁.same.inner h.small
  small₂ := h₂.same.inner h.small₂
  agree n hn := by
    rw [h₁.entry hn, h₂.entry hn]
    exact h.agree n hn
  kernel i hi hi' := by rw [h₁.upper i hi, hk i hi hi', h.kernel i hi hi']
  kernel₂ i hi hi' := by rw [h₂.upper i hi, hk i hi hi', h.kernel₂ i hi hi']

/-- Page tables of a slot: `none` for a closed one. -/
abbrev Spaces := Slot → Option (ℕ × ℕ)

/-- Table pages of one slot. -/
def ownOf (m : Phys) (s : Option (ℕ × ℕ)) (x : ℕ) : ℕ :=
  match s with
  | none => 0
  | some (t,t₂) => tblPages m t x + tblPages m t₂ x

/-- User pages of one slot that map `x`. -/
def mapOf (m : Phys) (s : Option (ℕ × ℕ)) (x : ℕ) : ℕ :=
  match s with
  | none => 0
  | some (t,_) => maps m t x

@[simp] theorem ownOf_none : ownOf m none x = 0 := rfl

@[simp] theorem mapOf_none : mapOf m none x = 0 := rfl

theorem ownOf_some {s : Option (ℕ × ℕ)} (hs : s = some (t,t₂)) :
    ownOf m s x = tblPages m t x + tblPages m t₂ x := by rw [hs]; rfl

theorem mapOf_some {s : Option (ℕ × ℕ)} (hs : s = some (t,t₂)) : mapOf m s x = maps m t x := by
  rw [hs]; rfl

/-- Table pages of the kernel's own page table. -/
def kpages (m : Phys) (kp x : ℕ) : ℕ := pages Pte.link 512 m.tbl 3 512 kp x

/-- Everything that owns page `x` alone: tables, and what `extra` counts (pipes, the
pages of an image that is being loaded). -/
def own (m : Phys) (kp : ℕ) (sp : Spaces) (extra : ℕ → ℕ) (x : ℕ) : ℕ :=
  ∑ i, ownOf m (sp i) x + kpages m kp x + extra x

/-- Number of (process, user page) pairs that map `x`. -/
def mapped (m : Phys) (sp : Spaces) (x : ℕ) : ℕ := ∑ i, mapOf m (sp i) x

/-- The memory invariant. -/
structure MemInv (m : Phys) (kp : ℕ) (sp : Spaces) (extra : ℕ → ℕ) : Prop where
  acct : Acct m (fun x => own m kp sp extra x + mapped m sp x)
  solo : ∀ x, own m kp sp extra x ≠ 0 → m.ref x = 1
  space : ∀ i t t₂, sp i = some (t,t₂) → Space m kp t t₂
  alloc : ∀ x, (∑ i, ownOf m (sp i) x) + extra x + mapped m sp x ≠ 0 → m.allocatable x = true
  wr : ∀ i t t₂, sp i = some (t,t₂) → ∀ n < upages, (entry m t n).p = true → (entry m t n).w = true →
    mapped m sp (entry m t n).frame ≤ 1
  kroot : ∀ i < 512, (m.tbl kp i).link 2 ≠ none
  kleaf : ∀ n < 512 * 512^3, (entry m kp n).u = false
  low : m.allocatable 0 = false

end Ukern
