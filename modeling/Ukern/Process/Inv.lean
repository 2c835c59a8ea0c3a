import Ukern.Memory.Load
import Ukern.Kernel.Trap

/-! # Processes, descriptors and memory together

Every process that is not closed owns its two tables, and the descriptors in use own the
pipes: a pipe counts its read and write ends, and its page is the pipe's alone.
-/
namespace Ukern
open Lib
variable {k k' : Kernel} {i j : Slot} {pg : ℕ}

section Updates
variable (k) (m : Phys) (i) (f : Proc → Proc) (q : Pipe) (pg)

@[simp] theorem Kernel.setPhys_phys : (k.setPhys m).phys = m := rfl
@[simp] theorem Kernel.setPhys_procs : (k.setPhys m).procs = k.procs := rfl
@[simp] theorem Kernel.setPhys_kPgtbl : (k.setPhys m).kPgtbl = k.kPgtbl := rfl
@[simp] theorem Kernel.setPhys_curproc : (k.setPhys m).curproc = k.curproc := rfl
@[simp] theorem Kernel.setPhys_kbdProc : (k.setPhys m).kbdProc = k.kbdProc := rfl
@[simp] theorem Kernel.modProc_phys : (k.modProc i f).phys = k.phys := rfl
@[simp] theorem Kernel.modProc_kPgtbl : (k.modProc i f).kPgtbl = k.kPgtbl := rfl
@[simp] theorem Kernel.modProc_curproc : (k.modProc i f).curproc = k.curproc := rfl
@[simp] theorem Kernel.modProc_kbdProc : (k.modProc i f).kbdProc = k.kbdProc := rfl
@[simp] theorem Kernel.modProc_pipe : (k.modProc i f).pipe = k.pipe := rfl
@[simp] theorem Kernel.setPipe_procs : (k.setPipe pg q).procs = k.procs := rfl
@[simp] theorem Kernel.setPipe_kPgtbl : (k.setPipe pg q).kPgtbl = k.kPgtbl := rfl
@[simp] theorem Kernel.setPipe_curproc : (k.setPipe pg q).curproc = k.curproc := rfl
@[simp] theorem Kernel.setPipe_kbdProc : (k.setPipe pg q).kbdProc = k.kbdProc := rfl

@[simp] theorem Kernel.modProc_self : (k.modProc i f).procs i = f (k.procs i) := Function.update_self ..

theorem Kernel.modProc_ne (h : j ≠ i) : (k.modProc i f).procs j = k.procs j := Function.update_of_ne h ..

@[simp] theorem Kernel.setPipe_self : (k.setPipe pg q).pipe pg = q := Function.update_self ..

theorem Kernel.setPipe_ne {pg' : ℕ} (h : pg' ≠ pg) : (k.setPipe pg q).pipe pg' = k.pipe pg' :=
  Function.update_of_ne h ..

end Updates

/-- The tables of a slot: a closed one has none. -/
def spaceOf (p : Proc) : Option (ℕ × ℕ) := if p.state = .close then none else some (p.pgtbl,p.pPgtbl)

def spaces (k : Kernel) : Spaces := fun i => spaceOf (k.procs i)

theorem spaces_some (h : (k.procs i).state ≠ .close) :
    spaces k i = some ((k.procs i).pgtbl,(k.procs i).pPgtbl) := if_neg h

/-- Descriptor `f` is an end of the given kind of pipe `pg`. -/
def FileDesc.hits (ty : FileType) (pg : ℕ) (f : FileDesc) : ℕ :=
  if f.inuse = true ∧ f.fileType = ty ∧ f.pipe = pg then 1 else 0

/-- Ends of pipe `pg` among the first `n` descriptors. -/
def Proc.endsBelow (p : Proc) (ty : FileType) (n pg : ℕ) : ℕ :=
  ∑ fd ∈ Finset.range n, (p.fdesc fd).hits ty pg

/-- Ends of pipe `pg` that a slot holds. -/
def Proc.ends (p : Proc) (ty : FileType) (pg : ℕ) : ℕ :=
  if p.state = .close then 0 else p.endsBelow ty nfdesc pg

/-- All pairs of a process and a descriptor that is an end of pipe `pg`. -/
def ends (k : Kernel) (ty : FileType) (pg : ℕ) : ℕ := ∑ i, (k.procs i).ends ty pg

theorem hits_le (ty : FileType) (pg : ℕ) (f : FileDesc) : f.hits ty pg ≤ 1 := by
  unfold FileDesc.hits
  split <;> omega

theorem endsBelow_le (p : Proc) (ty : FileType) (n pg : ℕ) : p.endsBelow ty n pg ≤ n := by
  have h : p.endsBelow ty n pg ≤ ∑ _fd ∈ Finset.range n, 1 :=
    Finset.sum_le_sum fun fd _ => hits_le ty pg _
  simpa using h

theorem endsBelow_succ (p : Proc) (ty : FileType) (n pg : ℕ) :
    p.endsBelow ty (n+1) pg = p.endsBelow ty n pg + (p.fdesc n).hits ty pg := Finset.sum_range_succ ..

theorem procEnds_le (p : Proc) (ty : FileType) (pg : ℕ) : p.ends ty pg ≤ nfdesc := by
  unfold Proc.ends
  split
  · exact Nat.zero_le _
  · exact endsBelow_le ..

theorem ends_lt (k : Kernel) (ty : FileType) (pg : ℕ) : ends k ty pg < 2^32 := by
  have h : ends k ty pg ≤ ∑ _i : Slot, nfdesc := Finset.sum_le_sum fun i _ => procEnds_le _ ty pg
  have hn : ∑ _i : Slot, nfdesc = 65536 := by simp [nfdesc,nprocs]
  omega

theorem le_ends (k : Kernel) (i : Slot) (ty : FileType) (pg : ℕ) : (k.procs i).ends ty pg ≤ ends k ty pg :=
  le_sum (f := fun i => (k.procs i).ends ty pg) (Finset.mem_univ i)

/-- 1 for the page of a pipe that has ends left. -/
def live (R W : ℕ → ℕ) (pg : ℕ) : ℕ := if R pg + W pg = 0 then 0 else 1

theorem live_ne {R W : ℕ → ℕ} (h : R pg + W pg ≠ 0) : live R W pg ≠ 0 := by
  rw [live, if_neg h]
  exact one_ne_zero

/-- Memory and pipes agree with the tables `sp` and the numbers of ends `R` and `W`. -/
structure Owned (k : Kernel) (sp : Spaces) (R W : ℕ → ℕ) : Prop where
  mem : MemInv k.phys k.kPgtbl sp (live R W)
  refs : ∀ pg, R pg + W pg ≠ 0 → (k.pipe pg).rref = R pg ∧ (k.pipe pg).wref = W pg

/-- The invariant of the kernel's memory, tables and pipes. -/
structure KInv (k : Kernel) : Prop where
  owned : Owned k (spaces k) (ends k .rpipe) (ends k .wpipe)
  closed : ∀ i, (k.procs i).state = .close →
    (k.procs i).pgtbl = 0 ∧ (k.procs i).waiting = false ∧ ∀ fd, ((k.procs i).fdesc fd).inuse = false

/-- Page tables and descriptors of two process records are the same. -/
structure Proc.Like (p q : Proc) : Prop where
  pgtbl : q.pgtbl = p.pgtbl
  pPgtbl : q.pPgtbl = p.pPgtbl
  fdesc : q.fdesc = p.fdesc
  close : q.state = .close ↔ p.state = .close

theorem Proc.Like.spaceOf {p q : Proc} (h : p.Like q) : Ukern.spaceOf q = Ukern.spaceOf p := by
  simp only [Ukern.spaceOf,h.close,h.pgtbl,h.pPgtbl]

theorem Proc.Like.ends {p q : Proc} (h : p.Like q) (ty : FileType) (pg : ℕ) : q.ends ty pg = p.ends ty pg := by
  simp only [Proc.ends,Proc.endsBelow,h.close,h.fdesc]

theorem spaces_congr (h : ∀ i, (k.procs i).Like (k'.procs i)) : spaces k' = spaces k :=
  funext fun i => (h i).spaceOf

theorem ends_congr (h : ∀ i, (k.procs i).Like (k'.procs i)) : ends k' = ends k := by
  funext ty pg
  exact Finset.sum_congr rfl fun i _ => (h i).ends ty pg

/-- What the memory invariant does not see: contexts, family pointers, globals. -/
theorem KInv.congr (h : KInv k) (hp : ∀ i, (k.procs i).Like (k'.procs i))
    (hw : ∀ i, (k'.procs i).waiting = true → (k'.procs i).state ≠ .close) (hm : k'.phys = k.phys) (hk : k'.kPgtbl = k.kPgtbl) : KInv k' where
  owned := by
    rw [spaces_congr hp, ends_congr hp]
    refine ⟨by rw [hm, hk]; exact h.owned.mem,fun pg hpg => ?_⟩
    rw [Kernel.pipe, hm]
    exact h.owned.refs pg hpg
  closed i hi := by
    obtain ⟨h1,h2,h3⟩ := h.closed i ((hp i).close.mp hi)
    rw [(hp i).pgtbl, (hp i).fdesc]
    refine ⟨h1,?_,h3⟩
    by_contra hne
    exact hw i (by simpa using hne) hi

/-- Updates of one record that the memory invariant does not see. -/
theorem KInv.modProc {f : Proc → Proc} (h : KInv k) (hl : (k.procs i).Like (f (k.procs i)))
    (hw : (f (k.procs i)).waiting = true → (f (k.procs i)).state ≠ .close) : KInv (k.modProc i f) := by
  refine h.congr (fun j => ?_) (fun j hj hc => ?_) rfl rfl
  · by_cases hj : j = i
    · rw [hj, Kernel.modProc_self]
      exact hl
    · rw [Kernel.modProc_ne _ _ _ hj]
      exact ⟨rfl,rfl,rfl,Iff.rfl⟩
  · by_cases hji : j = i
    · rw [hji, Kernel.modProc_self] at hj hc
      exact hw hj hc
    · rw [Kernel.modProc_ne _ _ _ hji] at hj hc
      simp [(h.closed j hc).2.1] at hj

theorem KInv.waiting (h : KInv k) (hw : (k.procs i).waiting = true) : (k.procs i).state ≠ .close := fun hc => by
  simp [(h.closed i hc).2.1] at hw

theorem Owned.setPhys {sp sp' : Spaces} {R W : ℕ → ℕ} {m : Phys} (h : Owned k sp R W)
    (hm : MemInv m k.kPgtbl sp' (live R W)) (hp : ∀ pg, live R W pg ≠ 0 → m.pipe pg = k.phys.pipe pg) :
    Owned (k.setPhys m) sp' R W where
  mem := hm
  refs pg hpg := by
    have h1 := h.refs pg hpg
    simp only [Kernel.pipe,Kernel.setPhys_phys,hp pg (live_ne hpg)]
    exact h1

/-- Why a process can be blocked. -/
inductive Cause
  | kbd | wait | read (pg : ℕ) | write (pg : ℕ)

/-- Process `r` is entered somewhere as the one to be woken. The reader of a pipe without
write ends does not count: nothing wakes it any more. -/
def Registered (k : Kernel) : Cause → Slot → Prop
  | .kbd, r => k.kbdProc = some r
  | .wait, r => (k.procs r).waiting = true
  | .read pg, r => ends k .wpipe pg ≠ 0 ∧ (k.pipe pg).reader = some r
  | .write pg, r => ends k .rpipe pg + ends k .wpipe pg ≠ 0 ∧ (k.pipe pg).writer = some r

/-- Whoever is registered is blocked, and for one reason only. -/
structure Reg (k : Kernel) : Prop where
  pending : ∀ a r, Registered k a r → (k.procs r).state = .pending
  unique : ∀ a b r, Registered k a r → Registered k b r → a = b

end Ukern
