import Ukern.Kernel.Memory
import Ukern.Lib.Fold
import Mathlib.Data.List.Count
import Mathlib.Tactic.Linarith

/-! # Accounting for physical pages

`Acct m C` ties the page allocator to a claim count: `C x` is the number of
holders of page `x` (tables that use it, entries that map it, a pipe that lives in
it). A listed page has no holder, and `ref` is at least the number of holders.
-/
namespace Ukern
variable {m m' : Phys} {C : ℕ → ℕ}

theorem Phys.setEntry_tbl_ne {t i x : ℕ} {e : Pte} (h : x ≠ t) : (m.setEntry t i e).tbl x = m.tbl x :=
  Function.update_of_ne h ..

@[simp] theorem Phys.setEntry_tbl_self (t i : ℕ) (e : Pte) :
    (m.setEntry t i e).tbl t = Function.update (m.tbl t) i e :=
  Function.update_self ..

/-- The allocator agrees with the claims `C`. -/
structure Acct (m : Phys) (C : ℕ → ℕ) : Prop where
  nodup : m.free.Nodup
  free_ne : m.free ≠ []
  count : m.nfreepages = m.free.length
  free_ok : ∀ x ∈ m.free, m.allocatable x = true ∧ m.ref x = 0 ∧ C x = 0
  le_ref : ∀ x, (C x : ℤ) ≤ m.ref x

theorem Acct.not_free (h : Acct m C) {x : ℕ} (hx : C x ≠ 0) : x ∉ m.free :=
  fun hm => hx (h.free_ok x hm).2.2

theorem Acct.mono {C' : ℕ → ℕ} (h : Acct m C) (hle : ∀ x, C' x ≤ C x) : Acct m C' where
  nodup := h.nodup
  free_ne := h.free_ne
  count := h.count
  free_ok x hx := by
    obtain ⟨ha,hr,hc⟩ := h.free_ok x hx
    have := hle x
    exact ⟨ha,hr,by omega⟩
  le_ref x := by
    have h1 := h.le_ref x
    have h2 := hle x
    omega

theorem Acct.setTbl (h : Acct m C) (T : ℕ → ℕ → Pte) : Acct { m with tbl := T } C :=
  ⟨h.nodup,h.free_ne,h.count,h.free_ok,h.le_ref⟩

theorem Acct.setEntry (h : Acct m C) (t i : ℕ) (e : Pte) : Acct (m.setEntry t i e) C := h.setTbl _

theorem allocPage_ok {z : Bool} {r : Option ℕ × Phys} (h : allocPage m z = .ok r) :
    (m.free = [] ∧ r = (none,m)) ∨ ∃ pg rest, m.free = pg :: rest ∧ rest ≠ [] ∧
      r = (some pg,(if z then m.zeroPage pg else m).unlink pg rest) := by
  unfold allocPage at h
  cases hf : m.free with
  | nil =>
    simp only [hf] at h
    cases h
    exact Or.inl ⟨rfl,rfl⟩
  | cons pg rest =>
    cases rest with
    | nil => simp [hf] at h
    | cons head tail =>
      simp only [hf] at h
      split at h
      · cases h
      · cases h
        exact Or.inr ⟨pg,head :: tail,rfl,by simp,rfl⟩

theorem getPage_ok {z : Bool} {pg : ℕ} (h : getPage m z = .ok (pg,m')) :
    ∃ rest, m.free = pg :: rest ∧ rest ≠ [] ∧
      m' = (if z then m.zeroPage pg else m).unlink pg rest := by
  unfold getPage at h
  obtain ⟨r,hr,h⟩ := Lib.bind_eq_ok.mp h
  rcases allocPage_ok hr with ⟨_,rfl⟩ | ⟨pg',rest,hf,hne,rfl⟩
  · cases h
  · cases h
    exact ⟨rest,hf,hne,rfl⟩

/-- Pages `new` were taken from the free list, entries changed inside `S` and `new`
only, and the count of `x` was raised by `inc x`. -/
structure Grow (m m' : Phys) (new : List ℕ) (S : ℕ → Prop) (inc : ℕ → ℕ) : Prop where
  free : m.free = new ++ m'.free
  free_ne : m'.free ≠ []
  count : m'.nfreepages = m.nfreepages - new.length
  ref : ∀ x, m'.ref x = if x ∈ new then 1 else m.ref x + inc x
  tbl : ∀ x, ¬ S x → x ∉ new → m'.tbl x = m.tbl x
  data : ∀ x, x ∉ new → m'.data x = m.data x
  pipe : ∀ x, x ∉ new → m'.pipe x = m.pipe x
  usable : m'.usable = m.usable
  endKmem : m'.endKmem = m.endKmem
  maxAddr : m'.maxAddr = m.maxAddr

namespace Grow
variable {new : List ℕ} {S : ℕ → Prop} {inc : ℕ → ℕ}

theorem refl (hne : m.free ≠ []) : Grow m m [] S (fun _ => 0) where
  free := rfl
  free_ne := hne
  count := rfl
  ref x := by simp
  tbl _ _ _ := rfl
  data _ _ := rfl
  pipe _ _ := rfl
  usable := rfl
  endKmem := rfl
  maxAddr := rfl

theorem allocatable (h : Grow m m' new S inc) (x : ℕ) : m'.allocatable x = m.allocatable x := by
  have hp : m'.paddr x = m.paddr x := by simp [Phys.paddr,h.usable]
  rw [Phys.allocatable, Phys.allocatable, hp, h.endKmem, h.maxAddr]

theorem mono {T : ℕ → Prop} (h : Grow m m' new S inc) (hST : ∀ x, S x → T x ∨ x ∈ new) :
    Grow m m' new T inc :=
  { h with tbl := fun x hx hn => h.tbl x (fun hs => (hST x hs).elim hx hn) hn }

theorem setTbl {T : ℕ → ℕ → Pte} (h : Grow m m' new S inc)
    (hT : ∀ x, ¬ S x → x ∉ new → T x = m'.tbl x) : Grow m { m' with tbl := T } new S inc :=
  { h with tbl := fun x hx hn => (hT x hx hn).trans (h.tbl x hx hn) }

theorem setEntry {t i : ℕ} {e : Pte} (h : Grow m m' new S inc) (ht : S t ∨ t ∈ new) :
    Grow m (m'.setEntry t i e) new S inc :=
  h.setTbl fun x hx hn => Function.update_of_ne (by rintro rfl; exact ht.elim hx hn) ..

theorem raise {f : ℕ} (h : Grow m m' new S inc) (hf : f ∉ new) :
    Grow m (m'.setRef f (m'.ref f + 1)) new S (fun x => inc x + if x = f then 1 else 0) :=
  { h with
    ref := fun x => by
      by_cases hx : x = f
      · subst hx
        simp [Phys.setRef,h.ref,hf]
        ring
      · simp [Phys.setRef,hx,h.ref] }

theorem trans {m'' : Phys} {new' : List ℕ} {S' : ℕ → Prop} {inc' : ℕ → ℕ}
    (h : Grow m m' new S inc) (h' : Grow m' m'' new' S' inc')
    (hinc : ∀ x ∈ new, inc' x = 0) :
    Grow m m'' (new ++ new') (fun x => S x ∨ S' x) (fun x => inc x + inc' x) := by
  refine ⟨by rw [h.free, h'.free, List.append_assoc],h'.free_ne,?_,?_,?_,?_,?_,
    h'.usable.trans h.usable,h'.endKmem.trans h.endKmem,h'.maxAddr.trans h.maxAddr⟩
  · rw [h'.count, h.count, List.length_append]
    omega
  · intro x
    rw [h'.ref, h.ref]
    by_cases hx' : x ∈ new'
    · simp [hx']
    · by_cases hx : x ∈ new
      · simp [hx,hx',hinc x hx]
      · simp [hx,hx']
        ring
  · intro x hS hn
    simp only [List.mem_append,not_or] at hS hn
    rw [h'.tbl x hS.2 hn.2, h.tbl x hS.1 hn.1]
  · intro x hn
    simp only [List.mem_append,not_or] at hn
    rw [h'.data x hn.2, h.data x hn.1]
  · intro x hn
    simp only [List.mem_append,not_or] at hn
    rw [h'.pipe x hn.2, h.pipe x hn.1]

theorem nodup (h : Grow m m' new S inc) (hn : m.free.Nodup) :
    new.Nodup ∧ m'.free.Nodup ∧ ∀ x ∈ new, x ∉ m'.free := by
  rw [h.free, List.nodup_append] at hn
  exact ⟨hn.1,hn.2.1,fun x hx hx' => hn.2.2 x hx x hx' rfl⟩

theorem mem_free (h : Grow m m' new S inc) {x : ℕ} (hx : x ∈ m'.free) : x ∈ m.free := by
  rw [h.free]
  exact List.mem_append_right _ hx

theorem new_free (h : Grow m m' new S inc) {x : ℕ} (hx : x ∈ new) : x ∈ m.free := by
  rw [h.free]
  exact List.mem_append_left _ hx

theorem acct (h : Grow m m' new S inc) (ha : Acct m C) (hinc : ∀ x, C x = 0 → inc x = 0) :
    Acct m' (fun x => C x + new.count x + inc x) := by
  obtain ⟨hnew,hfree,hdisj⟩ := h.nodup ha.nodup
  refine ⟨hfree,h.free_ne,?_,?_,?_⟩
  · rw [h.count, ha.count, h.free, List.length_append]
    omega
  · intro x hx
    obtain ⟨hal,hr,hc⟩ := ha.free_ok x (h.mem_free hx)
    have hn : x ∉ new := fun hn => hdisj x hn hx
    rw [h.allocatable, h.ref, if_neg hn, List.count_eq_zero_of_not_mem hn, hinc x hc, hc, hr]
    exact ⟨hal,rfl,rfl⟩
  · intro x
    rw [h.ref]
    by_cases hn : x ∈ new
    · obtain ⟨-,-,hc⟩ := ha.free_ok x (h.new_free hn)
      rw [if_pos hn, hc, hinc x hc, List.count_eq_one_of_mem hnew hn]
      simp
    · rw [if_neg hn, List.count_eq_zero_of_not_mem hn]
      have := ha.le_ref x
      push_cast
      omega

end Grow

theorem grow_unlink {z : Bool} {pg : ℕ} {rest : List ℕ} (hf : m.free = pg :: rest) (hne : rest ≠ []) :
    Grow m ((if z then m.zeroPage pg else m).unlink pg rest) [pg] (fun _ => False) (fun _ => 0) := by
  have hupd : ∀ x, x ∉ [pg] → x ≠ pg := fun x hx => by simpa using hx
  refine ⟨hf,hne,?_,?_,?_,?_,?_,?_,?_,?_⟩
  · cases z <;> rfl
  · intro x
    by_cases hx : x = pg
    · simp [hx,Phys.unlink]
    · cases z <;> simp [hx,Phys.unlink,Phys.zeroPage]
  · intro x _ hx
    cases z <;> simp [hupd x hx,Phys.unlink,Phys.zeroPage]
  · intro x hx
    cases z <;> simp [hupd x hx,Phys.unlink,Phys.zeroPage]
  · intro x hx
    cases z <;> simp [hupd x hx,Phys.unlink,Phys.zeroPage]
  · cases z <;> rfl
  · cases z <;> rfl
  · cases z <;> rfl

theorem grow_getPage {z : Bool} {pg : ℕ} (h : getPage m z = .ok (pg,m')) :
    Grow m m' [pg] (fun _ => False) (fun _ => 0) := by
  obtain ⟨rest,hf,hne,rfl⟩ := getPage_ok h
  exact grow_unlink hf hne

theorem getPage_zero {pg : ℕ} (h : getPage m true = .ok (pg,m')) :
    m'.tbl pg = (fun _ => .zero) ∧ m'.data pg = (fun _ => 0) ∧ m'.pipe pg = .zero := by
  obtain ⟨rest,hf,hne,rfl⟩ := getPage_ok h
  simp [Phys.unlink,Phys.zeroPage]

/-- References were given up: `dec x` of page `x`. Freed pages keep their contents. -/
structure Shrink (m m' : Phys) (dec : ℕ → ℕ) : Prop where
  ref : ∀ x, m'.ref x = m.ref x - dec x
  tbl : m'.tbl = m.tbl
  data : m'.data = m.data
  pipe : m'.pipe = m.pipe
  usable : m'.usable = m.usable
  endKmem : m'.endKmem = m.endKmem
  maxAddr : m'.maxAddr = m.maxAddr

namespace Shrink
variable {dec dec' : ℕ → ℕ}

theorem refl : Shrink m m (fun _ => 0) := ⟨by simp,rfl,rfl,rfl,rfl,rfl,rfl⟩

theorem trans {m'' : Phys} (h : Shrink m m' dec) (h' : Shrink m' m'' dec') :
    Shrink m m'' (fun x => dec x + dec' x) where
  ref x := by
    rw [h'.ref, h.ref]
    push_cast
    ring
  tbl := h'.tbl.trans h.tbl
  data := h'.data.trans h.data
  pipe := h'.pipe.trans h.pipe
  usable := h'.usable.trans h.usable
  endKmem := h'.endKmem.trans h.endKmem
  maxAddr := h'.maxAddr.trans h.maxAddr

theorem allocatable (h : Shrink m m' dec) (x : ℕ) : m'.allocatable x = m.allocatable x := by
  have hp : m'.paddr x = m.paddr x := by simp [Phys.paddr,h.usable]
  rw [Phys.allocatable, Phys.allocatable, hp, h.endKmem, h.maxAddr]

end Shrink

/-- `free_page` on a claimed page gives up one claim and touches no contents. -/
theorem freePage_acct {x : ℕ} (ha : Acct m C) (hal : m.allocatable x = true) (hx : C x ≠ 0) :
    ∃ m', freePage m x = .ok m' ∧ Acct m' (fun y => C y - if y = x then 1 else 0) ∧
      Shrink m m' (fun y => if y = x then 1 else 0) := by
  have hle := ha.le_ref x
  have hpos : ¬ m.ref x ≤ 0 := by omega
  have hnf := ha.not_free hx
  have hlref : ∀ y, ((C y - if y = x then 1 else 0 : ℕ) : ℤ) ≤ Function.update m.ref x (m.ref x - 1) y := by
    intro y
    by_cases hyx : y = x
    · subst hyx
      simp
      omega
    · simpa [hyx] using ha.le_ref y
  have href : ∀ y, Function.update m.ref x (m.ref x - 1) y = m.ref y - (if y = x then 1 else 0 : ℕ) := by
    intro y
    by_cases hyx : y = x
    · subst hyx
      simp
    · simp [hyx]
  by_cases h1 : m.ref x - 1 = 0
  · rw [h1] at hlref href
    refine ⟨{ m with
        ref := Function.update m.ref x 0
        free := x :: m.free
        nfreepages := m.nfreepages + 1 },by simp [freePage,hal,hpos,h1],?_,href,rfl,rfl,rfl,rfl,rfl,rfl⟩
    refine ⟨List.nodup_cons.mpr ⟨hnf,ha.nodup⟩,by simp,by simp [ha.count],?_,hlref⟩
    intro y hy
    rcases List.mem_cons.mp hy with rfl | hy
    · exact ⟨hal,by simp,by simp; omega⟩
    · have hne : y ≠ x := fun h => hnf (h ▸ hy)
      obtain ⟨h1,h2,h3⟩ := ha.free_ok y hy
      exact ⟨h1,by simpa [hne] using h2,by simp [h3]⟩
  · refine ⟨m.setRef x (m.ref x - 1),by simp [freePage,hal,hpos,h1],?_,href,rfl,rfl,rfl,rfl,rfl,rfl⟩
    refine ⟨ha.nodup,ha.free_ne,ha.count,?_,hlref⟩
    intro y hy
    have hne : y ≠ x := fun h => hnf (h ▸ hy)
    obtain ⟨h1,h2,h3⟩ := ha.free_ok y hy
    exact ⟨h1,by simpa [hne,Phys.setRef] using h2,by simp [h3]⟩

end Ukern
