import Ukern.Run.Machine
import Ukern.Memory.Room

/-! # A machine that boots

Small concrete kernels to run: their own page table, some free pages, and one process
whose image is a bare ELF header. How many pages that process takes is known up to the
number of tables of its address space.
-/
namespace Ukern
open Lib Lib.Radix
variable {fs : Fs} {k k' : Kernel} {n : Slot} {N : ℕ}

/-- Memory after `init_kpgtbl`: the PML4 in frame 1, its PDPTs behind it, and `N` free frames. -/
def bootPhys (N : ℕ) : Phys where
  tbl t i := if t = 1 ∧ i < 512 then ⟨2 + i,pteP ||| pteW ||| pteU⟩ else .zero
  data _ _ := 0
  pipe _ := .zero
  ref x := if 1 ≤ x ∧ x ≤ 513 then 1 else 0
  free := List.range' 1000 N
  nfreepages := N
  usable _ := true
  endKmem := 1000 * pgsize
  maxAddr := (1000 + N) * pgsize

def bootKernel (N : ℕ) : Kernel where
  phys := bootPhys N
  kPgtbl := 1
  procs _ := .zero
  curproc := none
  kbdProc := none
  kbdBuffer _ := 0
  kbdBufBeg := 0
  kbdBufSiz := 0
  gPid := 0
  argvBuf _ := 0

theorem bootPhys_empty {t : ℕ} (ht : t ≠ 1) (i : ℕ) : (bootPhys N).tbl t i = .zero := if_neg fun h => ht h.1

theorem bootPhys_root {i : ℕ} (hi : i < 512) : (bootPhys N).tbl 1 i = ⟨2 + i,pteP ||| pteW ||| pteU⟩ := if_pos ⟨rfl,hi⟩

theorem bootPhys_kpages (x : ℕ) : kpages (bootPhys N) 1 x = if 1 ≤ x ∧ x ≤ 513 then 1 else 0 := by
  have hsum : kpages (bootPhys N) 1 x =
      (if x = 1 then 1 else 0) + ∑ i ∈ Finset.range 512, if x - 2 = i ∧ 2 ≤ x then 1 else 0 := by
    rw [kpages, pages]
    refine congrArg _ (Finset.sum_congr rfl fun i hi => ?_)
    rw [bootPhys_root (Finset.mem_range.mp hi), Pte.link_table]
    simp only
    rw [pages_of_empty fun l j => by rw [bootPhys_empty (by omega), Pte.link_zero]]
    exact if_congr (by omega) rfl rfl
  rw [hsum]
  by_cases hx : 2 ≤ x
  · simp only [hx,and_true,Finset.sum_ite_eq,Finset.mem_range]
    rw [if_neg (by omega), Nat.zero_add]
    exact if_congr (by omega) rfl rfl
  · simp only [hx,and_false,if_false,Finset.sum_const_zero,Nat.add_zero]
    exact if_congr (by omega) rfl rfl

theorem bootPhys_entry (j : ℕ) : entry (bootPhys N) 1 j = .zero := by
  rw [entry, leafAt]
  by_cases hi : j / 512^3 < 512
  · rw [bootPhys_root hi, Pte.link_table]
    exact leafAt_of_empty (fun l i => by rw [bootPhys_empty (by omega), Pte.link_zero])
      fun i => bootPhys_empty (by omega) i
  · have hz : (bootPhys N).tbl 1 (j / 512^3) = .zero := if_neg fun h => hi h.2
    rw [hz, Pte.link_zero]

theorem bootPhys_allocatable (x : ℕ) : (bootPhys N).allocatable x = decide (1000 ≤ x ∧ x < 1000 + N) := by
  have hp : (bootPhys N).paddr x = x * pgsize := rfl
  have h1 : (bootPhys N).endKmem = 1000 * pgsize := rfl
  have h2 : (bootPhys N).maxAddr = (1000 + N) * pgsize := rfl
  rw [Phys.allocatable, hp, h1, h2]
  have hpos : 0 < pgsize := by decide
  simp only [Nat.mul_le_mul_right_iff hpos,Nat.mul_lt_mul_right hpos]

theorem bootPhys_inv (hN : N ≠ 0) : MemInv (bootPhys N) 1 (fun _ => none) fun _ => 0 := by
  have hown : ∀ x, own (bootPhys N) 1 (fun _ => none) (fun _ => 0) x = if 1 ≤ x ∧ x ≤ 513 then 1 else 0 := fun x => by
    simp only [own,ownOf_none,Finset.sum_const_zero,bootPhys_kpages,Nat.zero_add,Nat.add_zero]
  have hmap : ∀ x, mapped (bootPhys N) (fun _ => none) x = 0 := fun x => by
    simp only [mapped,mapOf_none,Finset.sum_const_zero]
  have href : ∀ x, (bootPhys N).ref x = if 1 ≤ x ∧ x ≤ 513 then 1 else 0 := fun _ => rfl
  refine ⟨⟨List.nodup_range',?_,?_,fun x hx => ?_,fun x => ?_⟩,fun x hx => ?_,by rintro _ _ _ ⟨⟩,fun x hx => ?_,
    by rintro _ _ _ ⟨⟩,
    fun i hi => ?_,fun j _ => ?_,?_⟩
  · simpa [bootPhys,List.range'_eq_nil_iff] using hN
  · exact (List.length_range' ..).symm
  · have hx' := List.mem_range'_1.mp hx
    rw [bootPhys_allocatable, href, hown, hmap]
    exact ⟨by simpa using hx',if_neg (by omega),by rw [if_neg (by omega)]⟩
  · simp only [hown,hmap,href]
    split <;> simp
  · rw [hown] at hx
    rw [href]
    split
    · rfl
    · rename_i h
      rw [if_neg h] at hx
      exact absurd rfl hx
  · simp only [ownOf_none,hmap,Finset.sum_const_zero] at hx
    exact absurd rfl hx
  · rw [bootPhys_root hi, Pte.link_table]
    rintro ⟨⟩
  · rw [bootPhys_entry]
    rfl
  · rw [bootPhys_allocatable]
    rfl

theorem bootKernel_fresh (hN : N ≠ 0) : Fresh (bootKernel N) := ⟨fun _ => rfl,bootPhys_inv hN,rfl⟩

/-- An ELF header without segments. -/
def stubImg : Img := fun _ a => .ok (if a = 0 then 0x7F else if a = 1 then 0x45 else if a = 2 then 0x4C
  else if a = 3 then 0x46 else 0)

/-- Loading the image takes no page: it only moves the break. -/
structure Bare (img : Img) (brk : ℕ → ℕ) : Prop where
  load : ∀ m q, loadImg img 0 m q = .ok (0,brk q.endUmem,m)
  entry : ∀ m, img.field m 24 8 = .ok 0

theorem stubImg_bare : Bare stubImg id := ⟨fun _ _ => rfl,fun _ => rfl⟩

/-- The descriptors of a new process. -/
def stdFdesc (f : ℕ → FileDesc) (fd : ℕ) : FileDesc :=
  if fd = 0 then { f fd with fileType := .kbd, inuse := true }
  else if fd = 1 ∨ fd = 2 then { f fd with fileType := .screen, inuse := true }
  else f fd

/-- The root directory opens without a disk access. -/
def OpensRoot (fs : Fs) : Prop := ∃ n path, path.length < 256 ∧
  fs.resolve (fun i => some (if i = 0 then 47 else 0)) .zero = .ok ⟨n,path,[]⟩

theorem exfatOpen_root (hfs : OpensRoot fs) (m : Phys) (kp : ℕ) (f : FileDesc) :
    ∃ r pwd, exfatOpen fs m kp (fun i => some (if i = 0 then 47 else 0)) .zero f true = .ok (r,pwd,m) := by
  obtain ⟨n,path,hlen,hr⟩ := hfs
  unfold exfatOpen
  rw [hr, ok_bind]
  simp only [diskRead,List.foldlM_nil]
  rw [show (pure m : Except Fault Phys) = .ok m from rfl, ok_bind, if_neg (by omega)]
  cases n with
  | error e => exact ⟨_,_,rfl⟩
  | ok n =>
    simp only
    split
    · exact ⟨_,_,rfl⟩
    · split
      · exact ⟨_,_,rfl⟩
      · exact ⟨_,_,rfl⟩

/-- The pages of a process without segments: stack and arguments. -/
def BarePages (m : Phys) (t : ℕ) : Prop :=
  ∀ j < upages, j ≠ key 3 (ustack - pgsize) → j ≠ key 3 uargs → (entry m t j).p = false

theorem createProc_bare {img : Img} {brk : ℕ → ℕ} (hbare : Bare img brk) (h : KInv k)
    (hn : k.closedSlot = some n) (hfs : OpensRoot fs) (hroom : 19 ≤ k.phys.free.length) :
    ∃ a b pwd m, createProc fs img k = .ok ({ k with phys := m, gPid := (k.gPid + 1) % 2^64 }.setProc n
        { k.procs n with pgtbl := a, pPgtbl := b, pid := (k.gPid + 1) % 2^64, pwd := pwd
                         fdesc := stdFdesc (k.procs n).fdesc, context := (k.procs n).context.start 0
                         endUmem := brk (k.procs n).endUmem, state := .ready }) ∧
      Laid m a [] ∧ BarePages m b ∧ 3 ≤ copyCost m b ∧ copyCost m b ≤ 8 ∧
      k.phys.free.length = 10 + copyCost m b + m.free.length := by
  have hinv := h.owned.mem
  obtain ⟨a,m₁,ha⟩ := getPage_room hinv.acct.offers true (by omega)
  have hl₁ := (grow_getPage ha).length
  have ho₁ := (grow_getPage ha).offers hinv.acct.offers
  simp only [List.length_singleton] at hl₁
  obtain ⟨b,m₂,hb⟩ := getPage_room ho₁ true (by omega)
  have hl₂ := (grow_getPage hb).length
  simp only [List.length_singleton] at hl₂
  have hB := Build.start hinv.acct.nodup ha hb
  have hrow : ∀ i, m₂.tbl a i = .zero := fun i => by
    have hab : a ∉ [b] := fun hx => ((grow_getPage ha).nodup hinv.acct.nodup).2.2 a (by simp) ((grow_getPage hb).new_free hx)
    rw [(grow_getPage hb).tbl a id hab, (getPage_zero ha).1]
  obtain ⟨q,hq⟩ : ∃ q, q = { k.procs n with pgtbl := a, pPgtbl := b, state := .pending, pid := (k.gPid + 1) % 2^64
                                            endUmem := brk (k.procs n).endUmem } := ⟨_,rfl⟩
  have hqa : q.pgtbl = a ∧ q.pPgtbl = b := by rw [hq]; exact ⟨rfl,rfl⟩
  rw [← hqa.1, ← hqa.2] at hB
  obtain ⟨m₃,hbs,hlow,hhigh,hlen⟩ := buildSpace_room [] hB hinv ((grow_getPage hb).offers ho₁) (by simp)
    (by rw [hqa.1]; exact hrow _) (by rw [hqa.1]; exact hrow _) (by simp only [List.length_cons,List.length_nil]; omega)
  obtain ⟨-,hmem,-,hlaid⟩ := buildSpace_spec (c := n) hB hinv (by simp) hbs
  have hpages : BarePages m₃ q.pPgtbl := fun j hj hstack huargs => by
    have hz : entry m₂ q.pgtbl j = .zero := by rw [entry, leafAt, hqa.1, hrow, Pte.link_zero]
    rw [← ((hmem.space n _ _ (Function.update_self ..)).agree j hj).1,
      buildSpace_entry hB hinv (by simp) hbs hj hstack huargs, hz]
    rfl
  obtain ⟨r,pwd,ho⟩ := exfatOpen_root hfs m₃ k.kPgtbl (k.procs n).pwd
  rw [hqa.1] at hlaid
  rw [hqa.2] at hpages hlow hhigh hlen
  refine ⟨a,b,pwd,m₃,?_,hlaid,hpages,hlow,by simpa using hhigh,by omega⟩
  have halloc : allocProc k = .ok (some n,k.allot n a b m₂) := by
    unfold allocProc
    simp only [hn,ha,hb,ok_bind]
  unfold createProc
  simp only [halloc,ok_bind,hbare.load,ne_eq,not_true_eq_false,↓reduceIte]
  obtain ⟨k₁,hk₁⟩ : ∃ k₁, k₁ = ((k.allot n a b m₂).setPhys (k.allot n a b m₂).phys).modProc n
    (fun p => { p with endUmem := brk ((k.allot n a b m₂).procs n).endUmem }) := ⟨_,rfl⟩
  rw [← hk₁]
  have hq₁ : k₁.procs n = q := by rw [hk₁, Kernel.modProc_self, Kernel.setPhys_procs, allot_self, hq]
  have hph : k₁.phys = m₂ ∧ k₁.kPgtbl = k.kPgtbl := by rw [hk₁]; exact ⟨rfl,rfl⟩
  simp only [hq₁,hph.1,hph.2,hbs,ok_bind]
  rw [show q.pwd = (k.procs n).pwd by rw [hq], ho, ok_bind]
  rw [hbare.entry, ok_bind]
  have hk₂ : k₁ = { k with phys := m₂, gPid := (k.gPid + 1) % 2^64 }.setProc n q := by
    rw [hk₁, allot_self, hq]
    simp only [Kernel.modProc,Kernel.setProc,Kernel.setPhys,Kernel.allot,Function.update_self,Function.update_idem]
  have hset : ∀ (k : Kernel) (p p' : Proc), (k.setProc n p).setProc n p' = k.setProc n p' := fun k p p' => by
    simp only [Kernel.setProc,Function.update_idem]
  rw [Kernel.modProc, Kernel.setPhys_procs, hq₁, hk₂]
  refine congrArg Except.ok ((hset { k with phys := m₃, gPid := (k.gPid + 1) % 2^64 } q _).trans ?_)
  rw [hq]
  rfl

/-- The first slot. -/
def firstSlot : Slot := slotAt 0

/-- The record of the only process. -/
def loneProc (a b : ℕ) (pwd : FileDesc) : Proc :=
  { Proc.zero with pgtbl := a, pPgtbl := b, pid := 1, pwd := pwd, fdesc := stdFdesc fun _ => .zero
                   context := Context.zero.start 0, state := .running }

/-- A kernel with one process, which runs. -/
def loneKernel (m : Phys) (a b : ℕ) (pwd : FileDesc) : Kernel :=
  { bootKernel 0 with phys := m, gPid := 1, curproc := some firstSlot }.setProc firstSlot (loneProc a b pwd)

@[simp] theorem loneKernel_self (m : Phys) (a b : ℕ) (pwd : FileDesc) :
    (loneKernel m a b pwd).procs firstSlot = loneProc a b pwd := by
  simp only [loneKernel,Kernel.setProc,Function.update_self]

theorem loneKernel_ne (m : Phys) (a b : ℕ) (pwd : FileDesc) {j : Slot} (hj : j ≠ firstSlot) :
    (loneKernel m a b pwd).procs j = .zero := by
  simp only [loneKernel,Kernel.setProc,Function.update_of_ne hj,bootKernel]

theorem closedSlot_fresh (h : Fresh k) : k.closedSlot = some firstSlot := by
  have hlist : List.finRange nprocs = firstSlot :: (List.finRange 1023).map Fin.succ := List.finRange_succ
  refine List.find?_eq_some_iff_append.mpr ⟨?_,[],_,hlist,nofun⟩
  rw [h.procs firstSlot]
  rfl

theorem mem_schedOrder (k : Kernel) (n : Slot) : n ∈ k.schedOrder := by
  have hmem : ∀ c : ℕ, n ∈ (List.range nprocs).map fun j => slotAt (c + 1 + j) := fun c => by
    have hn : n.val < 1024 := n.isLt
    refine List.mem_map.mpr ⟨(n.val + (1024 - (c + 1) % 1024)) % 1024,List.mem_range.mpr (Nat.mod_lt _ (by decide)),?_⟩
    apply Fin.ext
    change (c + 1 + (n.val + (1024 - (c + 1) % 1024)) % 1024) % 1024 = n.val
    omega
  unfold Kernel.schedOrder
  split
  · exact hmem _
  · exact hmem _

theorem sched_only (hr : (k.procs n).state = .ready) (hn : ∀ j ≠ n, (k.procs j).state ≠ .ready) :
    sched k = .ok { k.modProc n fun p => { p with state := .running } with curproc := some n } := by
  have hfind : k.schedOrder.find? (fun i => (k.procs i).state == .ready) = some n := by
    cases hf : k.schedOrder.find? (fun i => (k.procs i).state == .ready) with
    | none =>
      have h := List.find?_eq_none.mp hf n (mem_schedOrder k n)
      rw [hr] at h
      exact absurd rfl h
    | some i =>
      have h := List.find?_some hf
      by_contra hne
      exact hn i (fun he => hne (by rw [he])) (by simpa using h)
  unfold sched
  rw [hfind]

/-- The only process with its break at `x`. -/
def breakKernel (m : Phys) (a b : ℕ) (pwd : FileDesc) (x : ℕ) : Kernel :=
  (loneKernel m a b pwd).modProc firstSlot fun p => { p with endUmem := x }

theorem breakKernel_self (m : Phys) (a b : ℕ) (pwd : FileDesc) (x : ℕ) :
    (breakKernel m a b pwd x).procs firstSlot = { loneProc a b pwd with endUmem := x } := by
  rw [breakKernel, Kernel.modProc_self, loneKernel_self]

theorem started_bare {img : Img} {brk : ℕ → ℕ} (hbare : Bare img brk) (hfs : OpensRoot fs) (hN : 19 ≤ N) :
    ∃ m a b pwd, Started fs (breakKernel m a b pwd (brk 0)) ∧ Laid m a [] ∧ BarePages m b ∧
      3 ≤ copyCost m b ∧ copyCost m b ≤ 8 ∧ N = 10 + copyCost m b + m.free.length := by
  have hf := bootKernel_fresh (N := N) (by omega)
  have hlen : (bootKernel N).phys.free.length = N := List.length_range' ..
  obtain ⟨a,b,pwd,m,hc,hlaid,hpages,hlow,hhigh,hroom⟩ :=
    createProc_bare hbare hf.parked.inv (closedSlot_fresh hf) hfs (by omega)
  refine ⟨m,a,b,pwd,⟨_,.create (.fresh hf) hc,?_⟩,hlaid,hpages,hlow,hhigh,by omega⟩
  rw [sched_only (n := firstSlot)]
  · simp only [breakKernel,loneKernel,Kernel.modProc,Kernel.setProc,Function.update_self,Function.update_idem]
    rfl
  · simp only [Kernel.setProc,Function.update_self]
  · intro j hj
    simp only [Kernel.setProc,Function.update_of_ne hj]
    nofun

theorem started_lone (hfs : OpensRoot fs) (hN : 19 ≤ N) : ∃ m a b pwd, Started fs (loneKernel m a b pwd) ∧
    Laid m a [] ∧ 3 ≤ copyCost m b ∧ copyCost m b ≤ 8 ∧ N = 10 + copyCost m b + m.free.length := by
  obtain ⟨m,a,b,pwd,hs,hlaid,-,hcost⟩ := started_bare stubImg_bare hfs hN
  refine ⟨m,a,b,pwd,?_,hlaid,hcost⟩
  have hsame : breakKernel m a b pwd (id 0) = loneKernel m a b pwd := by
    simp only [breakKernel,loneKernel,Kernel.modProc,Kernel.setProc,Function.update_self,Function.update_idem]
    rfl
  rw [← hsame]
  exact hs

end Ukern
