import Ukern.Run.Running
import Ukern.Process.Pipes

/-! # What `sys_close` closes

The last line of `sys_close` indexes the descriptor's own entry by `fd` again, so that entry
`2*fd` is marked unused. Only descriptor 0 is closed.
-/
namespace Ukern
open Lib
variable {k k' k₁ : Kernel} {c i j : Slot} {f : FileDesc} {tf : Context} {fd pg : ℕ}

/-- `f` is one of the ends of a pipe. -/
def FileDesc.IsEnd (f : FileDesc) : Prop := f.fileType = .rpipe ∨ f.fileType = .wpipe

/-- Only the count of page `pg`, the pipe on it and the free list may differ. -/
def PipePage (pg : ℕ) (m m' : Phys) : Prop :=
  ∃ q r free n, m' = { m with
    pipe := Function.update m.pipe pg q, ref := Function.update m.ref pg r, free := free, nfreepages := n }

/-- An end of the pipe of `f` was given up: what the rest of the kernel sees of it. -/
structure GivenUp (f : FileDesc) (k k' : Kernel) : Prop where
  phys : k'.phys = k.phys ∨ f.IsEnd ∧ PipePage f.pipe k.phys k'.phys
  procs : ∀ j, ∃ ctx st, k'.procs j = { k.procs j with context := ctx, state := st } ∧
    (ctx = (k.procs j).context ∧ st = (k.procs j).state ∨ f.IsEnd ∧ (k.pipe f.pipe).reader = some j)
  globals : k' = { k with phys := k'.phys, procs := k'.procs }

/-- The page is in use. -/
def Held (m : Phys) (pg : ℕ) : Prop := m.allocatable pg = true ∧ 0 < m.ref pg

theorem freePage_ok_iff {m : Phys} : (∃ m', freePage m pg = .ok m') ↔ Held m pg := by
  unfold freePage Held
  by_cases ha : m.allocatable pg
  · by_cases hr : m.ref pg ≤ 0
    · simp [ha,hr]
    · by_cases h1 : m.ref pg - 1 = 0 <;> simp [ha,hr,h1] <;> omega
  · simp [ha]

theorem freePage_page {m m' : Phys} (h : freePage m pg = .ok m') : PipePage pg m m' := by
  unfold freePage at h
  split at h
  · cases h
  split at h
  · cases h
  split at h
  · cases h
    exact ⟨m.pipe pg,0,_,_,by rw [Function.update_eq_self]⟩
  · cases h
    exact ⟨m.pipe pg,m.ref pg - 1,m.free,m.nfreepages,by rw [Function.update_eq_self]; rfl⟩

theorem releasePipe_ok_iff : (∃ k', releasePipe k pg = .ok k') ↔
    ((k.pipe pg).rref = 0 → (k.pipe pg).wref = 0 → Held k.phys pg) := by
  unfold releasePipe
  by_cases h : (k.pipe pg).rref = 0 ∧ (k.pipe pg).wref = 0
  · rw [if_pos h]
    refine Iff.trans ⟨?_,?_⟩ (freePage_ok_iff.trans ⟨fun hh _ _ => hh,fun hh => hh h.1 h.2⟩)
    · rintro ⟨k',hk⟩
      obtain ⟨m',hm,-⟩ := bind_eq_ok.mp hk
      exact ⟨m',hm⟩
    · rintro ⟨m',hm⟩
      exact ⟨_,bind_eq_ok.mpr ⟨m',hm,rfl⟩⟩
  · rw [if_neg h]
    exact iff_of_true ⟨k,rfl⟩ fun h1 h2 => absurd ⟨h1,h2⟩ h

theorem releasePipe_page (h : releasePipe k pg = .ok k') :
    k' = { k with phys := k'.phys } ∧ PipePage pg k.phys k'.phys := by
  unfold releasePipe at h
  split at h
  · obtain ⟨m',hm,h⟩ := bind_eq_ok.mp h
    cases h
    exact ⟨rfl,freePage_page hm⟩
  · cases h
    exact ⟨rfl,k.phys.pipe pg,k.phys.ref pg,_,_,by rw [Function.update_eq_self, Function.update_eq_self]⟩

theorem PipePage.of_setPipe {m m' : Phys} {q : Pipe} (h : PipePage pg (m.setPipe pg q) m') : PipePage pg m m' := by
  obtain ⟨q',r,free,n,rfl⟩ := h
  exact ⟨q',r,free,n,by simp only [Phys.setPipe,Function.update_idem]⟩

/-- The counts of a pipe after the end `f` is given up. -/
def countsWithout (f : FileDesc) (q : Pipe) : ℕ × ℕ :=
  if f.fileType = .rpipe then (dec32 q.rref,q.wref) else (q.rref,dec32 q.wref)

/-- The state before the test whether an end is left: the pipe is updated and its reader perhaps woken. -/
structure Lowered (f : FileDesc) (k k₁ : Kernel) : Prop where
  phys : ∃ q, k₁.phys = k.phys.setPipe f.pipe q ∧ (q.rref,q.wref) = countsWithout f (k.pipe f.pipe)
  globals : k₁ = { k with phys := k₁.phys, procs := k₁.procs }
  procs : ∀ j, k₁.procs j = k.procs j ∨ (k.pipe f.pipe).reader = some j ∧
    ∃ ctx st, k₁.procs j = { k.procs j with context := ctx, state := st }

theorem dropFdesc_lowered (hend : f.IsEnd) : ∃ k₁, dropFdesc k f = releasePipe k₁ f.pipe ∧ Lowered f k k₁ := by
  rcases hend with hty | hty
  · simp only [dropFdesc,hty]
    refine ⟨_,rfl,⟨_,rfl,?_⟩,rfl,fun _ => .inl rfl⟩
    rw [countsWithout, if_pos hty]
  · simp only [dropFdesc,hty]
    have hcounts : ((k.pipe f.pipe).rref,dec32 (k.pipe f.pipe).wref) = countsWithout f (k.pipe f.pipe) := by
      rw [countsWithout, if_neg (by rw [hty]; decide)]
    cases hrd : (k.pipe f.pipe).reader with
    | none => exact ⟨_,rfl,⟨_,rfl,hcounts⟩,rfl,fun _ => .inl rfl⟩
    | some r =>
      by_cases hz : dec32 (k.pipe f.pipe).wref = 0
      · simp only [hz,↓reduceIte]
        refine ⟨_,rfl,⟨_,rfl,hz ▸ hcounts⟩,rfl,fun j => ?_⟩
        by_cases hj : j = r
        · subst hj
          exact .inr ⟨hrd,_,_,Kernel.modProc_self ..⟩
        · exact .inl (Kernel.modProc_ne _ _ _ hj)
      · simp only [hz,↓reduceIte]
        exact ⟨_,rfl,⟨_,rfl,hcounts⟩,rfl,fun _ => .inl rfl⟩

theorem dropFdesc_other (hend : ¬ f.IsEnd) : dropFdesc k f = .ok k := by
  unfold dropFdesc
  simp only
  split
  · exact absurd (.inl ‹_›) hend
  · exact absurd (.inr ‹_›) hend
  · rfl

theorem Lowered.givenUp (h : Lowered f k k₁) (hend : f.IsEnd) (hrel : releasePipe k₁ f.pipe = .ok k') :
    GivenUp f k k' := by
  obtain ⟨hk,hpage⟩ := releasePipe_page hrel
  obtain ⟨q,hphys,-⟩ := h.phys
  rw [hphys] at hpage
  have hsame : k'.procs = k₁.procs := by rw [hk]
  refine ⟨.inr ⟨hend,hpage.of_setPipe⟩,fun j => ?_,by rw [hk, h.globals]⟩
  rw [hsame]
  rcases h.procs j with hj | ⟨hr,ctx,st,hj⟩
  · exact ⟨_,_,hj,.inl ⟨rfl,rfl⟩⟩
  · exact ⟨ctx,st,hj,.inr ⟨hend,hr⟩⟩

theorem dropFdesc_givenUp (h : dropFdesc k f = .ok k') : GivenUp f k k' := by
  by_cases hend : f.IsEnd
  · obtain ⟨k₁,hdrop,hlow⟩ := dropFdesc_lowered (k := k) hend
    exact hlow.givenUp hend (hdrop ▸ h)
  · rw [dropFdesc_other hend] at h
    cases h
    exact ⟨.inl rfl,fun _ => ⟨_,_,rfl,.inl ⟨rfl,rfl⟩⟩,rfl⟩

/-- The last end of a pipe has a page to give back. -/
def Droppable (k : Kernel) (f : FileDesc) : Prop :=
  f.IsEnd → countsWithout f (k.pipe f.pipe) = (0,0) → Held k.phys f.pipe

theorem dropFdesc_ok_iff : (∃ k', dropFdesc k f = .ok k') ↔ Droppable k f := by
  by_cases hend : f.IsEnd
  · obtain ⟨k₁,hdrop,hlow⟩ := dropFdesc_lowered (k := k) hend
    obtain ⟨q,hphys,hcounts⟩ := hlow.phys
    have hq : k₁.pipe f.pipe = q := by
      rw [Kernel.pipe, hphys]
      exact Function.update_self ..
    rw [hdrop, releasePipe_ok_iff, hq, hphys, Droppable, ← hcounts, Prod.mk.injEq]
    exact ⟨fun h _ h0 => h h0.1 h0.2,fun h h1 h2 => h hend ⟨h1,h2⟩⟩
  · rw [dropFdesc_other hend]
    exact iff_of_true ⟨k,rfl⟩ fun h => absurd h hend

/-- Descriptor `fd` of `c`, and no other, was closed between `k` and `k'`. Outside the caller's
descriptors only the pipe, its blocked reader and the free list changed. -/
structure ClosedOne (k : Kernel) (c : Slot) (fd : ℕ) (k' : Kernel) : Prop where
  unused : ((k'.procs c).fdesc fd).inuse = false
  others : ∀ fd' < nfdesc, fd' ≠ fd → (k'.procs c).fdesc fd' = (k.procs c).fdesc fd'
  rest : ∃ k₁, GivenUp ((k.procs c).fdesc fd) k k₁ ∧ ∃ fds, k' = k₁.modProc c fun p => { p with fdesc := fds }

/-- `sys_close` returns, has closed `fd` alone, and a second call says `-EBADF` and changes nothing. -/
def ClosesOne (k : Kernel) (c : Slot) (tf : Context) (fd : ℕ) : Prop :=
  ∃ tf' k', sysClose k c tf = .ok (.ret tf' k') ∧ ClosedOne k c fd k' ∧
    ∀ tf₂, fdOf tf₂.rdx = some fd → sysClose k' c tf₂ = .ok (.ret { tf₂ with rax := neg ebadf } k')

theorem sysClose_unused (hfd : fdOf tf.rdx = some fd) (hu : ((k.procs c).fdesc fd).inuse = false) :
    sysClose k c tf = .ok (.ret { tf with rax := neg ebadf } k) := by
  unfold sysClose
  rw [hfd]
  simp [hu,Kernel.done]

theorem sysClose_used (hfd : fdOf tf.rdx = some fd) (hu : ((k.procs c).fdesc fd).inuse = true)
    (hdrop : dropFdesc k ((k.procs c).fdesc fd) = .ok k₁) : sysClose k c tf =
    if nfdesc ≤ fd + fd then .error .overrun
    else .ok (.ret tf (k₁.setFdesc c (fd + fd) { (k₁.procs c).fdesc (fd + fd) with inuse := false })) := by
  unfold sysClose
  rw [hfd]
  simp only [hu,Bool.not_true,Bool.false_eq_true,↓reduceIte,hdrop]
  rfl

theorem GivenUp.fdesc (h : GivenUp f k k') (j : Slot) : (k'.procs j).fdesc = (k.procs j).fdesc := by
  obtain ⟨ctx,st,hj,-⟩ := h.procs j
  rw [hj]

theorem GivenUp.setFdesc (h : GivenUp f k k') (c : Slot) (fd : ℕ) (g : FileDesc) :
    ((k'.setFdesc c fd g).procs c).fdesc = Function.update (k.procs c).fdesc fd g := by
  rw [Kernel.setFdesc, Kernel.modProc_self, h.fdesc]

/-- For a descriptor in use `sys_close` closes it and nothing else exactly if it is descriptor 0
and, at the last end of a pipe, the pipe's page can be given back. -/
theorem close_removes_one_iff (hfd : fdOf tf.rdx = some fd) (hu : ((k.procs c).fdesc fd).inuse = true) :
    ClosesOne k c tf fd ↔ fd = 0 ∧ Droppable k ((k.procs c).fdesc fd) := by
  constructor
  · rintro ⟨tf',k',hclose,hone,-⟩
    have hdrop : ∃ k₁, dropFdesc k ((k.procs c).fdesc fd) = .ok k₁ := by
      unfold sysClose at hclose
      rw [hfd] at hclose
      simp only [hu,Bool.not_true,Bool.false_eq_true,↓reduceIte] at hclose
      obtain ⟨k₁,hk₁,-⟩ := bind_eq_ok.mp hclose
      exact ⟨k₁,hk₁⟩
    refine ⟨?_,dropFdesc_ok_iff.mp hdrop⟩
    obtain ⟨k₁,hk₁⟩ := hdrop
    rw [sysClose_used hfd hu hk₁] at hclose
    split at hclose
    · cases hclose
    · by_contra h0
      cases hclose
      have hun := hone.unused
      rw [(dropFdesc_givenUp hk₁).setFdesc, Function.update_of_ne (by omega), hu] at hun
      cases hun
  · rintro ⟨rfl,hd⟩
    obtain ⟨k₁,hk₁⟩ := dropFdesc_ok_iff.mpr hd
    have hgiven := dropFdesc_givenUp hk₁
    have hun : (((k₁.setFdesc c 0 { (k₁.procs c).fdesc 0 with inuse := false }).procs c).fdesc 0).inuse = false := by
      rw [hgiven.setFdesc, Function.update_self]
    refine ⟨tf,_,sysClose_used hfd hu hk₁,⟨hun,fun fd' _ hne => ?_,k₁,hgiven,?_⟩,fun tf₂ h₂ => sysClose_unused h₂ hun⟩
    · rw [hgiven.setFdesc, Function.update_of_ne hne]
    · refine ⟨Function.update (k₁.procs c).fdesc 0 { (k₁.procs c).fdesc 0 with inuse := false },rfl⟩

/-! ## The first process closes its standard output -/

theorem loneKernel_fdesc (m : Phys) (a b : ℕ) (pwd : FileDesc) :
    ((loneKernel m a b pwd).procs firstSlot).fdesc = stdFdesc fun _ => .zero := by
  rw [loneKernel_self]
  rfl

/-- After boot `close(1)` leaves descriptor 1 open and closes descriptor 2. -/
theorem close_removes_another : ∃ k k' c tf, Started rootFs k ∧ fdOf tf.rdx = some 1 ∧
    ((k.procs c).fdesc 1).inuse = true ∧ ((k.procs c).fdesc 2).inuse = true ∧
    sysClose k c tf = .ok (.ret tf k') ∧
    ((k'.procs c).fdesc 1).inuse = true ∧ ((k'.procs c).fdesc 2).inuse = false := by
  obtain ⟨m,a,b,pwd,hs,-⟩ := started_lone (N := 19) rootFs_opens le_rfl
  have hfd := loneKernel_fdesc m a b pwd
  have hu : (((loneKernel m a b pwd).procs firstSlot).fdesc 1).inuse = true := by
    rw [hfd]
    rfl
  obtain ⟨k₁,hk₁⟩ : ∃ k₁, dropFdesc (loneKernel m a b pwd) (((loneKernel m a b pwd).procs firstSlot).fdesc 1) = .ok k₁ :=
    ⟨_,dropFdesc_other (by rw [hfd]; nofun)⟩
  have hgiven := dropFdesc_givenUp hk₁
  refine ⟨_,_,firstSlot,{ Context.zero with rdx := 1 },hs,rfl,hu,by rw [hfd]; rfl,sysClose_used rfl hu hk₁,?_,?_⟩
  · rw [hgiven.setFdesc, Function.update_of_ne (by decide), hu]
  · rw [hgiven.setFdesc, Function.update_self]

theorem close_removes_keyboard : ∃ k c tf, Started rootFs k ∧ ClosesOne k c tf 0 := by
  obtain ⟨m,a,b,pwd,hs,-⟩ := started_lone (N := 19) rootFs_opens le_rfl
  have hfd := loneKernel_fdesc m a b pwd
  have hu : (((loneKernel m a b pwd).procs firstSlot).fdesc 0).inuse = true := by
    rw [hfd]
    rfl
  refine ⟨_,firstSlot,Context.zero,hs,(close_removes_one_iff rfl hu).mpr ⟨rfl,fun hend => ?_⟩⟩
  rw [hfd] at hend
  rcases hend with h | h <;> cases h

end Ukern
