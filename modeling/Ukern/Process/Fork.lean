import Ukern.Process.Kill

/-! # New processes: `alloc_proc`, `sys_fork`, `sched`

The child gets copies of the parent's tables and descriptors; every pipe the parent
holds an end of counts one more.
-/
namespace Ukern
open Lib
variable {k k' k₁ : Kernel} {i c n : Slot} {fd : ℕ} {f : FileDesc}

theorem sched_ok (h : sched k = .ok k') : ∃ i, (k.procs i).state = .ready ∧
    k' = { k.modProc i fun p => { p with state := .running } with curproc := some i } := by
  unfold sched at h
  split at h
  · simp at h
  · rename_i i hi
    exact ⟨i,by simpa using List.find?_some hi,(Except.ok.inj h).symm⟩

theorem sched_inv (h : KInv k) (hs : sched k = .ok k') : KInv k' := by
  obtain ⟨i,hi,rfl⟩ := sched_ok hs
  have h₁ : KInv (k.modProc i fun p => { p with state := .running }) :=
    h.modProc ⟨rfl,rfl,rfl,by simp [hi]⟩ fun _ => nofun
  exact ⟨⟨h₁.owned.mem,h₁.owned.refs⟩,h₁.closed⟩

theorem closedSlot_closed (h : k.closedSlot = some n) : (k.procs n).state = .close := by
  unfold Kernel.closedSlot at h
  simpa using List.find?_some h

theorem allocProc_ok {o : Option Slot} (h : allocProc k = .ok (o,k')) :
    (o = none ∧ k' = k) ∨ ∃ n a b m₁ m₂, o = some n ∧ k.closedSlot = some n ∧
      getPage k.phys true = .ok (a,m₁) ∧ getPage m₁ true = .ok (b,m₂) ∧ k' = k.allot n a b m₂ := by
  unfold allocProc at h
  split at h
  · cases h
    exact Or.inl ⟨rfl,rfl⟩
  · rename_i n hn
    obtain ⟨⟨a,m₁⟩,ha,h⟩ := bind_eq_ok.mp h
    obtain ⟨⟨b,m₂⟩,hb,h⟩ := bind_eq_ok.mp h
    cases h
    exact Or.inr ⟨n,a,b,m₁,m₂,rfl,hn,ha,hb,rfl⟩

/-- One more or one less end: how a single descriptor enters the counts. -/
theorem ends_setFdesc (hi : (k.procs i).state ≠ .close) (hfd : fd < nfdesc) (ty : FileType) (pg : ℕ) :
    ends (k.setFdesc i fd f) ty pg + ((k.procs i).fdesc fd).hits ty pg = ends k ty pg + f.hits ty pg := by
  have hs : ((k.setFdesc i fd f).procs i).ends ty pg + ((k.procs i).fdesc fd).hits ty pg =
      (k.procs i).ends ty pg + f.hits ty pg := by
    have hsum := sum_range_replace (f := fun j => (Function.update (k.procs i).fdesc fd f j).hits ty pg)
      (g := fun j => ((k.procs i).fdesc j).hits ty pg) hfd
      (fun j _ hj => by rw [Function.update_of_ne hj])
    rw [Function.update_self] at hsum
    simp only [Kernel.setFdesc,Kernel.modProc_self,Proc.ends,Proc.endsBelow,if_neg hi]
    exact hsum
  have hsum := sum_replace (f := fun j => ((k.setFdesc i fd f).procs j).ends ty pg)
    (g := fun j => (k.procs j).ends ty pg) (Finset.mem_univ i)
    fun j _ hj => by rw [Kernel.setFdesc, Kernel.modProc_ne _ _ _ hj]
  simp only [← ends.eq_def] at hsum
  simp only [ends] at hsum ⊢
  omega

theorem spaces_setFdesc : spaces (k.setFdesc i fd f) = spaces k := by
  funext j
  by_cases hj : j = i
  · subst hj
    simp only [spaces,Kernel.setFdesc,Kernel.modProc_self,spaceOf]
  · simp only [spaces,Kernel.setFdesc,Kernel.modProc_ne _ _ _ hj]

theorem closed_setFdesc (hi : (k.procs i).state ≠ .close)
    (h : ∀ j, (k.procs j).state = .close → (k.procs j).pgtbl = 0 ∧ (k.procs j).waiting = false ∧
      ∀ fd, ((k.procs j).fdesc fd).inuse = false) (j : Slot)
    (hj : ((k.setFdesc i fd f).procs j).state = .close) :
    ((k.setFdesc i fd f).procs j).pgtbl = 0 ∧ ((k.setFdesc i fd f).procs j).waiting = false ∧
      ∀ fd', (((k.setFdesc i fd f).procs j).fdesc fd').inuse = false := by
  by_cases hji : j = i
  · subst hji
    rw [Kernel.setFdesc, Kernel.modProc_self] at hj
    exact absurd hj hi
  · rw [Kernel.setFdesc, Kernel.modProc_ne _ _ _ hji] at hj ⊢
    exact h j hj

theorem KInv.setFdesc (h : KInv k) (hi : (k.procs i).state ≠ .close) (hfd : fd < nfdesc)
    (hold : ∀ ty, ty = .rpipe ∨ ty = .wpipe → ∀ pg, f.hits ty pg = ((k.procs i).fdesc fd).hits ty pg) :
    KInv (k.setFdesc i fd f) := by
  have he : ∀ ty, ty = .rpipe ∨ ty = .wpipe → ends (k.setFdesc i fd f) ty = ends k ty := fun ty hty => by
    funext pg
    have h1 := ends_setFdesc (f := f) hi hfd ty pg
    rw [hold ty hty pg] at h1
    omega
  refine ⟨?_,fun j hj => closed_setFdesc hi h.closed j hj⟩
  rw [spaces_setFdesc, he .rpipe (Or.inl rfl), he .wpipe (Or.inr rfl)]
  exact ⟨h.owned.mem,h.owned.refs⟩

theorem hits_le_ends (hc : (k.procs c).state ≠ .close) (hfd : fd < nfdesc) (ty : FileType) (pg : ℕ) :
    ((k.procs c).fdesc fd).hits ty pg ≤ ends k ty pg := by
  have h1 : ((k.procs c).fdesc fd).hits ty pg ≤ (k.procs c).ends ty pg := by
    rw [Proc.ends, if_neg hc]
    exact le_sum_range (f := fun j => ((k.procs c).fdesc j).hits ty pg) hfd
  exact h1.trans (le_ends k c ty pg)

theorem inc32_eq {n : ℕ} (h : n < 2^32 - 1) : inc32 n = n + 1 := by
  unfold inc32
  omega

theorem ends_le (k : Kernel) (ty : FileType) (pg : ℕ) : ends k ty pg ≤ 65536 := by
  have h : ends k ty pg ≤ ∑ _i : Slot, nfdesc := Finset.sum_le_sum fun i _ => procEnds_le _ ty pg
  have hn : ∑ _i : Slot, nfdesc = 65536 := by simp [nfdesc,nprocs]
  omega

/-- One more end of a pipe that is in use: the descriptor of `c` is copied to `n`. -/
theorem KInv.addEnd {q : Pipe} (h : KInv k) (hc : (k.procs c).state ≠ .close) (hn : (k.procs n).state ≠ .close)
    (hfd : fd < nfdesc) (hnew : ((k.procs n).fdesc fd).inuse = false) (hf : f = (k.procs c).fdesc fd)
    (hq : q.rref = (k.pipe f.pipe).rref + f.hits .rpipe f.pipe ∧
      q.wref = (k.pipe f.pipe).wref + f.hits .wpipe f.pipe) :
    KInv ((k.setFdesc n fd f).setPipe f.pipe q) := by
  have hold : ∀ ty pg, ((k.procs n).fdesc fd).hits ty pg = 0 := fun ty pg => if_neg fun hh => by
    simp [hnew] at hh
  have he : ∀ ty pg, ends (k.setFdesc n fd f) ty pg = ends k ty pg + f.hits ty pg := fun ty pg => by
    have h1 := ends_setFdesc (f := f) hn hfd ty pg
    rw [hold] at h1
    omega
  have hle : ∀ ty pg, f.hits ty pg ≤ ends k ty pg := fun ty pg => by
    rw [hf]
    exact hits_le_ends hc hfd ty pg
  have hlive : live (ends (k.setFdesc n fd f) .rpipe) (ends (k.setFdesc n fd f) .wpipe) =
      live (ends k .rpipe) (ends k .wpipe) := by
    funext pg
    have h1 := hle .rpipe pg
    have h2 := hle .wpipe pg
    have h3 : ends k .rpipe pg + f.hits .rpipe pg + (ends k .wpipe pg + f.hits .wpipe pg) = 0 ↔
        ends k .rpipe pg + ends k .wpipe pg = 0 := by omega
    simp only [live,he,h3]
  refine ⟨⟨?_,fun pg hpg => ?_⟩,fun j hj => closed_setFdesc hn h.closed j hj⟩
  · have hsp : spaces ((k.setFdesc n fd f).setPipe f.pipe q) = spaces k := spaces_setFdesc
    have hen : ends ((k.setFdesc n fd f).setPipe f.pipe q) = ends (k.setFdesc n fd f) := rfl
    rw [hsp, hen, hlive]
    exact h.owned.mem.setPipe _ _
  · have hen : ends ((k.setFdesc n fd f).setPipe f.pipe q) = ends (k.setFdesc n fd f) := rfl
    rw [hen, he, he] at hpg ⊢
    have h1 := hle .rpipe pg
    have h2 := hle .wpipe pg
    obtain ⟨hr,hw⟩ := h.owned.refs pg (by omega)
    by_cases hpf : pg = f.pipe
    · rw [hpf, Kernel.setPipe_self]
      rw [hpf] at hr hw
      exact ⟨by rw [hq.1, hr],by rw [hq.2, hw]⟩
    · have hz : ∀ ty, f.hits ty pg = 0 := fun ty => if_neg fun hh => hpf hh.2.2.symm
      rw [Kernel.setPipe_ne _ _ _ hpf, hz, hz, Nat.add_zero, Nat.add_zero]
      exact ⟨hr,hw⟩

/-- The descriptors below `fd` are copied. -/
structure CopiedFds (k k' : Kernel) (n c : Slot) (fd : ℕ) : Prop where
  inv : KInv k'
  procs : ∀ j ≠ n, k'.procs j = k.procs j
  self : k'.procs n = { k.procs n with
    fdesc := fun j => if j < fd then (k.procs c).fdesc j else (k.procs n).fdesc j }
  phys : ∃ P, k'.phys = { k.phys with pipe := P } ∧ ∀ pg, ∃ r w, P pg = { k.phys.pipe pg with rref := r, wref := w }
  rest : k' = { k with procs := k'.procs, phys := k'.phys }

theorem forkFdesc_eq (hf : f = (k.procs c).fdesc fd)
    (hr : f.hits .rpipe f.pipe ≠ 0 → (k.pipe f.pipe).rref < 2^32 - 1)
    (hw : f.hits .wpipe f.pipe ≠ 0 → (k.pipe f.pipe).wref < 2^32 - 1) :
    forkFdesc n c k fd = (k.setFdesc n fd f).setPipe f.pipe { k.pipe f.pipe with
      rref := (k.pipe f.pipe).rref + f.hits .rpipe f.pipe
      wref := (k.pipe f.pipe).wref + f.hits .wpipe f.pipe } := by
  have hid : ∀ k : Kernel, k.setPipe f.pipe (k.pipe f.pipe) = k := fun k => by
    simp [Kernel.setPipe,Kernel.setPhys,Phys.setPipe,Kernel.pipe]
  have hpk : ∀ pg, (k.setFdesc n fd f).pipe pg = k.pipe pg := fun _ => rfl
  have hnone : f.hits .rpipe f.pipe = 0 → f.hits .wpipe f.pipe = 0 → k.setFdesc n fd f =
      (k.setFdesc n fd f).setPipe f.pipe { k.pipe f.pipe with
        rref := (k.pipe f.pipe).rref + f.hits .rpipe f.pipe
        wref := (k.pipe f.pipe).wref + f.hits .wpipe f.pipe } := fun h1 h2 => by
    rw [h1, h2]
    exact (hid _).symm
  unfold forkFdesc
  simp only [← hf]
  by_cases hu : f.inuse = true
  · rw [if_neg (by simp [hu])]
    have hh := fun ty (hty : f.fileType = ty) => (hits_kind hu hty f.pipe).trans (if_pos rfl)
    cases hty : f.fileType with
    | rpipe =>
      have h1 := hh _ hty
      have h2 : f.hits .wpipe f.pipe = 0 := hits_other (by rw [hty]; decide) f.pipe
      simp only [hpk,h1,h2,inc32_eq (hr (by omega)),Nat.add_zero]
    | wpipe =>
      have h1 := hh _ hty
      have h2 : f.hits .rpipe f.pipe = 0 := hits_other (by rw [hty]; decide) f.pipe
      simp only [hpk,h1,h2,inc32_eq (hw (by omega)),Nat.add_zero]
    | _ => exact hnone (hits_other (by rw [hty]; decide) _) (hits_other (by rw [hty]; decide) _)
  · have hz : ∀ ty, f.hits ty f.pipe = 0 := fun ty => if_neg fun hh => hu hh.1
    rw [if_pos (by simpa using hu)]
    exact hnone (hz _) (hz _)

theorem forkFdesc_step {s : Kernel} (h : CopiedFds k s n c fd) (hc : (k.procs c).state ≠ .close)
    (hn : (k.procs n).state ≠ .close) (hnc : c ≠ n) (hfd : fd < nfdesc)
    (hnew : ((k.procs n).fdesc fd).inuse = false) : CopiedFds k (forkFdesc n c s fd) n c (fd+1) := by
  have hsc : s.procs c = k.procs c := h.procs c hnc
  have hsn : (s.procs n).state ≠ .close := by rw [h.self]; exact hn
  have hsnew : ((s.procs n).fdesc fd).inuse = false := by
    rw [h.self]
    simp [hnew]
  have hproc : ∀ j ≠ n, (s.setFdesc n fd ((s.procs c).fdesc fd)).procs j = k.procs j := fun j hj => by
    rw [Kernel.setFdesc, Kernel.modProc_ne _ _ _ hj, h.procs j hj]
  have hself : (s.setFdesc n fd ((s.procs c).fdesc fd)).procs n = { k.procs n with
      fdesc := fun j => if j < fd + 1 then (k.procs c).fdesc j else (k.procs n).fdesc j } := by
    rw [Kernel.setFdesc, Kernel.modProc_self, hsc, h.self]
    congr 1
    funext j
    by_cases hj : j = fd
    · rw [hj, Function.update_self, if_pos (Nat.lt_succ_self fd)]
    · rw [Function.update_of_ne hj]
      have : j < fd + 1 ↔ j < fd := by omega
      simp only [this]
  have hpipes : ∀ pg r w, ∃ P, s.phys.setPipe pg { s.pipe pg with rref := r, wref := w } =
      { k.phys with pipe := P } ∧ ∀ x, ∃ r w, P x = { k.phys.pipe x with rref := r, wref := w } := by
    intro pg r w
    obtain ⟨P,hP,hPx⟩ := h.phys
    refine ⟨Function.update P pg { s.pipe pg with rref := r, wref := w },by rw [Phys.setPipe, hP],fun x => ?_⟩
    by_cases hx : x = pg
    · subst hx
      obtain ⟨r₀,w₀,hx⟩ := hPx x
      refine ⟨r,w,?_⟩
      rw [Function.update_self, Kernel.pipe, hP]
      simp only [hx]
    · rw [Function.update_of_ne hx]
      exact hPx x
  have hcs : (s.procs c).state ≠ .close := by rw [hsc]; exact hc
  have hle := fun ty => hits_le_ends hcs hfd ty ((s.procs c).fdesc fd).pipe
  have hlt := fun ty => ends_le s ty ((s.procs c).fdesc fd).pipe
  have href : ∀ ty, ((s.procs c).fdesc fd).hits ty ((s.procs c).fdesc fd).pipe ≠ 0 →
      ends s ty ((s.procs c).fdesc fd).pipe ≠ 0 := fun ty hne => by
    have := hle ty
    omega
  rw [forkFdesc_eq rfl (fun hne => by
      have h1 := href .rpipe hne
      rw [(h.inv.owned.refs _ (by omega)).1]
      have := hlt .rpipe
      omega)
    (fun hne => by
      have h1 := href .wpipe hne
      rw [(h.inv.owned.refs _ (by omega)).2]
      have := hlt .wpipe
      omega)]
  refine ⟨h.inv.addEnd hcs hsn hfd hsnew rfl ⟨rfl,rfl⟩,hproc,hself,hpipes _ _ _,?_⟩
  rw [h.rest]
  rfl

theorem forkFdesc_spec (h : KInv k) (hc : (k.procs c).state ≠ .close) (hn : (k.procs n).state ≠ .close)
    (hnc : c ≠ n) (hnew : ∀ fd, ((k.procs n).fdesc fd).inuse = false) :
    CopiedFds k ((List.range nfdesc).foldl (forkFdesc n c) k) n c nfdesc := by
  refine foldl_range_inv (fun fd s => CopiedFds k s n c fd) ?_ fun fd s hfd hs =>
    forkFdesc_step hs hc hn hnc hfd (hnew fd)
  exact ⟨h,fun _ _ => rfl,by simp,⟨_,rfl,fun pg => ⟨_,_,rfl⟩⟩,rfl⟩

theorem addChild_relinked : Relinked k (addChild k n c) := by
  unfold addChild
  cases (k.procs c).livingChild with
  | none =>
    refine ((Relinked.refl.modProc ?_).modProc ?_).modProc ?_ <;> exact fun _ => rfl
  | some ohead =>
    refine (((Relinked.refl.modProc ?_).modProc ?_).modProc ?_).modProc ?_ <;> exact fun _ => rfl

/-- Family pointers after an update that depends on no more of the record. -/
theorem modProc_links {f : Proc → Proc} (hf : ∀ p q : Proc, q.links = p.links → (f q).links = (f p).links)
    (h : ∀ j, (k'.procs j).links = (k.procs j).links) (j : Slot) :
    ((k'.modProc i f).procs j).links = ((k.modProc i f).procs j).links := by
  by_cases hj : j = i
  · rw [hj, Kernel.modProc_self, Kernel.modProc_self]
    exact hf _ _ (h i)
  · rw [Kernel.modProc_ne _ _ _ hj, Kernel.modProc_ne _ _ _ hj]
    exact h j

theorem addChild_links (h : ∀ j, (k'.procs j).links = (k.procs j).links) (j : Slot) :
    ((addChild k' n c).procs j).links = ((addChild k n c).procs j).links := by
  have hl : (k'.procs c).livingChild = (k.procs c).livingChild := congrArg Links.livingChild (h c)
  unfold addChild
  rw [hl]
  cases (k.procs c).livingChild with
  | none =>
    refine modProc_links ?_ (modProc_links ?_ (modProc_links ?_ h)) j <;>
      (intro p q hpq; simp only [Proc.links,Links.mk.injEq] at hpq ⊢; simp only [hpq,and_self])
  | some ohead =>
    refine modProc_links ?_ (modProc_links ?_ (modProc_links ?_ (modProc_links ?_ h))) j <;>
      (intro p q hpq; simp only [Proc.links,Links.mk.injEq] at hpq ⊢; simp only [hpq,and_self])

/-- What `sys_fork` does, in stages: tables for a closed slot, then its descriptors, then
the rest of the record. -/
structure ForkOk (k k' : Kernel) (c n : Slot) (tf : Context) : Prop where
  inv : KInv k'
  fresh : (k.procs n).state = .close
  core : ∀ j ≠ n, (k'.procs j).core = (k.procs j).core
  child : (k'.procs n).state = .ready ∧ (k'.procs n).waiting = false ∧
    (k'.procs n).context = { tf with rax := 0 }
  fdesc : ∀ fd < nfdesc, (k'.procs n).fdesc fd = (k.procs c).fdesc fd
  tables : ∃ m P, k'.phys = { m with pipe := P } ∧ Forked k.phys m (spaces k) c (k.procs c).pgtbl
    (k.procs c).pPgtbl (k'.procs n).pgtbl (k'.procs n).pPgtbl
  pipe : ∀ pg, pg ∉ k.phys.free → ∃ r w, k'.pipe pg = { k.pipe pg with rref := r, wref := w }
  globals : k'.kPgtbl = k.kPgtbl ∧ k'.curproc = k.curproc ∧ k'.kbdProc = k.kbdProc
  slot : k.closedSlot = some n
  pwd : (k'.procs n).pwd = (k.procs c).pwd
  links : ∀ j, (k'.procs j).links = ((addChild k n c).procs j).links

theorem KInv.live_held (h : KInv k) {pg : ℕ} (hpg : live (ends k .rpipe) (ends k .wpipe) pg ≠ 0) :
    pg ∉ k.phys.free :=
  h.owned.mem.own_not_free (by simp only [own]; omega)

/-- Slot `n` has new tables, and the descriptors are as they were. -/
theorem KInv.retable {m : Phys} (h : KInv k) (hlike : ∀ j ≠ n, (k.procs j).Like (k'.procs j))
    (hends : ends k' = ends k) (hst : (k'.procs n).state ≠ .close)
    (hw : ∀ j ≠ n, (k'.procs j).waiting = (k.procs j).waiting)
    (hm : MemInv m k.kPgtbl (Function.update (spaces k) n (some ((k'.procs n).pgtbl,(k'.procs n).pPgtbl)))
      (live (ends k .rpipe) (ends k .wpipe)))
    (hp : ∀ pg, live (ends k .rpipe) (ends k .wpipe) pg ≠ 0 → m.pipe pg = k.phys.pipe pg)
    (hphys : k'.phys = m) (hkp : k'.kPgtbl = k.kPgtbl) : KInv k' := by
  have hsp : spaces k' = Function.update (spaces k) n (some ((k'.procs n).pgtbl,(k'.procs n).pPgtbl)) := by
    funext j
    by_cases hj : j = n
    · rw [hj, Function.update_self]
      exact if_neg hst
    · rw [Function.update_of_ne hj]
      exact (hlike j hj).spaceOf
  refine ⟨⟨by rw [hphys, hkp, hsp, hends]; exact hm,fun pg hpg => ?_⟩,fun j hj => ?_⟩
  · rw [hends] at hpg ⊢
    have h1 := h.owned.refs pg hpg
    rw [Kernel.pipe, hphys, hp pg (live_ne hpg)]
    exact h1
  · have hjn : j ≠ n := by
      rintro rfl
      exact hst hj
    obtain ⟨h1,h2,h3⟩ := h.closed j ((hlike j hjn).close.mp hj)
    rw [(hlike j hjn).pgtbl, (hlike j hjn).fdesc, hw j hjn]
    exact ⟨h1,h2,h3⟩

/-- A closed slot that opens adds no ends: none of its descriptors is in use. -/
theorem KInv.ends_open (h : KInv k) (hn : (k.procs n).state = .close)
    (hlike : ∀ j ≠ n, (k.procs j).Like (k'.procs j)) (hfd : (k'.procs n).fdesc = (k.procs n).fdesc)
    (hst : (k'.procs n).state ≠ .close) : ends k' = ends k := by
  funext ty pg
  refine Finset.sum_congr rfl fun j _ => ?_
  by_cases hj : j = n
  · rw [hj, Proc.ends, Proc.ends, if_neg hst, if_pos hn, Proc.endsBelow, hfd]
    exact Finset.sum_eq_zero fun fd _ => if_neg fun hh => by simp [(h.closed n hn).2.2 fd] at hh
  · exact (hlike j hj).ends ty pg

theorem allot_ne {a b : ℕ} {m : Phys} {j : Slot} (hj : j ≠ n) : (k.allot n a b m).procs j = k.procs j :=
  Function.update_of_ne hj ..

theorem allot_self (k : Kernel) (n : Slot) (a b : ℕ) (m : Phys) : (k.allot n a b m).procs n = { k.procs n with
    pgtbl := a, pPgtbl := b, state := .pending, pid := (k.gPid + 1) % 2^64 } :=
  Function.update_self ..

/-- The state of `sys_fork` when both tables of the child are filled. -/
structure ForkStart (k k' : Kernel) (c n : Slot) (m : Phys) : Prop where
  inv : KInv k'
  fresh : (k.procs n).state = .close
  ne : c ≠ n
  core : ∀ j ≠ n, (k'.procs j).core = (k.procs j).core
  child : (k'.procs n).state = .pending ∧ (k'.procs n).waiting = false ∧ (k'.procs n).fdesc = (k.procs n).fdesc
  tables : Forked k.phys m (spaces k) c (k.procs c).pgtbl (k.procs c).pPgtbl (k'.procs n).pgtbl (k'.procs n).pPgtbl
  phys : k'.phys = m
  globals : k'.kPgtbl = k.kPgtbl ∧ k'.curproc = k.curproc ∧ k'.kbdProc = k.kbdProc
  links : ∀ j, (k'.procs j).links = ((addChild k n c).procs j).links

theorem forkStart_spec {a b : ℕ} {m₁ m₂ m₃ : Phys} (h : KInv k) (hc : (k.procs c).state ≠ .close)
    (hn : (k.procs n).state = .close) (ha : getPage k.phys true = .ok (a,m₁))
    (hb : getPage m₁ true = .ok (b,m₂)) (hk : k₁ = addChild (k.allot n a b m₂) n c)
    (ht : forkTables k₁.phys (k₁.procs n) (k₁.procs c) = .ok m₃) : ForkStart k (k₁.setPhys m₃) c n m₃ := by
  have hnc : c ≠ n := by
    rintro rfl
    exact hc hn
  have hrel : Relinked (k.allot n a b m₂) k₁ := hk ▸ addChild_relinked
  have hcore : ∀ j ≠ n, (k₁.procs j).core = (k.procs j).core := fun j hj => by
    rw [hrel.core, allot_ne hj]
  have hlike := fun j hj => Proc.Like.of_core (hcore j hj)
  have hln := hrel.like n
  have hst : (k₁.procs n).state = .pending := by rw [hrel.state, allot_self]
  have hw : ∀ j, (k₁.procs j).waiting = (k.procs j).waiting := fun j => by
    rw [hrel.waiting]
    by_cases hj : j = n
    · rw [hj, allot_self]
    · rw [allot_ne hj]
  rw [allot_self] at hln
  have hpa : (k₁.procs n).pgtbl = a := hln.pgtbl
  have hpb : (k₁.procs n).pPgtbl = b := hln.pPgtbl
  have hspc : spaces k c = some ((k₁.procs c).pgtbl,(k₁.procs c).pPgtbl) := by
    rw [(hlike c hnc).pgtbl, (hlike c hnc).pPgtbl]
    exact spaces_some hc
  have hspn : spaces k n = none := if_pos hn
  rw [hrel.phys] at ht
  rw [← hpa] at ha
  rw [← hpb] at hb
  obtain ⟨hinv,hforked⟩ := fork_spec h.owned.mem hspc hspn ha hb ht
  rw [(hlike c hnc).pgtbl, (hlike c hnc).pPgtbl] at hforked
  have hst' : ((k₁.setPhys m₃).procs n).state ≠ .close := by
    rw [Kernel.setPhys_procs, hst]
    nofun
  refine ⟨h.retable hlike (h.ends_open hn hlike hln.fdesc hst') hst' (fun j _ => hw j) hinv
    (fun pg hpg => hforked.pipe pg (h.live_held hpg)) rfl hrel.kPgtbl,hn,hnc,hcore,
    ⟨hst,by rw [Kernel.setPhys_procs, hw]; exact (h.closed n hn).2.1,hln.fdesc⟩,hforked,rfl,?_,fun j => ?_⟩
  · rw [hrel.rest]
    exact ⟨rfl,rfl,rfl⟩
  · rw [Kernel.setPhys_procs, hk]
    refine addChild_links (fun i => ?_) j
    by_cases hi : i = n
    · rw [hi, allot_self]
      rfl
    · rw [allot_ne hi]

theorem sysFork_spec {tf : Context} {o : Outcome} (h : KInv k) (hc : (k.procs c).state ≠ .close)
    (hf : sysFork k c tf = .ok o) : ∃ n k', o = .ret { tf with rax := BitVec.ofNat 64 (k'.procs n).pid } k' ∧
      ForkOk k k' c n tf := by
  unfold sysFork at hf
  obtain ⟨⟨r,k₁⟩,ha,hf⟩ := bind_eq_ok.mp hf
  rcases allocProc_ok ha with ⟨rfl,-⟩ | ⟨n,a,b,m₁,m₂,rfl,hslot,hga,hgb,rfl⟩
  · cases hf
  have hn := closedSlot_closed hslot
  obtain ⟨m₃,ht,hf⟩ := bind_eq_ok.mp hf
  have hst := forkStart_spec h hc hn hga hgb rfl ht
  have hc₃ : (((addChild (k.allot n a b m₂) n c).setPhys m₃).procs c).state ≠ .close := by
    rw [Proc.state_of_core (hst.core c hst.ne)]
    exact hc
  have hfds := forkFdesc_spec hst.inv hc₃ (by rw [hst.child.1]; nofun) hst.ne
    (fun fd => by rw [hst.child.2.2]; exact (h.closed n hn).2.2 fd)
  simp only at hf
  generalize (addChild (k.allot n a b m₂) n c).setPhys m₃ = k₃ at hst hc₃ hfds hf
  generalize (List.range nfdesc).foldl (forkFdesc n c) k₃ = k₄ at hfds hf
  simp only [Kernel.done,Except.ok.injEq] at hf
  refine ⟨n,_,hf.symm.trans (congrArg₂ Outcome.ret ?_ rfl),?_⟩
  · rw [Kernel.modProc_self]
  have hstate : (k₄.procs n).state = .pending := by rw [hfds.self]; exact hst.child.1
  obtain ⟨P,hP,hPx⟩ := hfds.phys
  refine ⟨hfds.inv.modProc ⟨rfl,rfl,rfl,by simp [hstate]⟩ fun _ => nofun,hn,fun j hj => ?_,?_,fun fd hfd => ?_,
    ⟨m₃,P,?_,?_⟩,fun pg hpg => ?_,?_,hslot,?_,fun j => ?_⟩
  · rw [Kernel.modProc_ne _ _ _ hj, hfds.procs j hj, hst.core j hj]
  · rw [Kernel.modProc_self]
    exact ⟨rfl,by rw [hfds.self]; exact hst.child.2.1,rfl⟩
  · rw [Kernel.modProc_self, hfds.self]
    simp only [hfd,↓reduceIte]
    exact congrFun (Proc.Like.of_core (hst.core c hst.ne)).fdesc fd
  · rw [Kernel.modProc_phys, hP, hst.phys]
  · rw [Kernel.modProc_self, hfds.self]
    exact hst.tables
  · obtain ⟨r,w,hx⟩ := hPx pg
    refine ⟨r,w,?_⟩
    rw [Kernel.modProc_pipe, Kernel.pipe, hP]
    simp only [hx,hst.phys,hst.tables.pipe pg hpg]
    rfl
  · rw [Kernel.modProc_kPgtbl, Kernel.modProc_curproc, Kernel.modProc_kbdProc, hfds.rest]
    exact hst.globals
  · have hpwd : (k₃.procs c).core.pwd = (k.procs c).core.pwd := by rw [hst.core c hst.ne]
    rw [Kernel.modProc_self, hfds.procs c hst.ne]
    exact hpwd
  · rw [← hst.links j]
    by_cases hj : j = n
    · rw [hj, Kernel.modProc_self, hfds.self]
      rfl
    · rw [Kernel.modProc_ne _ _ _ hj, hfds.procs j hj]

end Ukern
