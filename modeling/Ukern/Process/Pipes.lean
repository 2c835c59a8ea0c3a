import Ukern.Process.Traps
import Ukern.Process.Descriptors

/-! # Traps on pipes

`sys_pipe`, `sys_close`, and the two calls that copy and wake.
-/
namespace Ukern
open Lib
variable {fs : Fs} {k k' k₁ : Kernel} {c i j n r : Slot} {S : Slot → Prop} {tf : Context} {o : Outcome} {v : U64}
  {m m' : Phys} {a : Cause} {pg fd : ℕ}

/-- A pipe was made for `c`. -/
structure Piped (k k' : Kernel) (c : Slot) (pg : ℕ) : Prop where
  inv : KInv k'
  fresh : pg ∈ k.phys.free
  procs : ∀ j ≠ c, k'.procs j = k.procs j
  self : ∃ fds, k'.procs c = { k.procs c with fdesc := fds }
  ends_eq : ∀ ty, ty = .rpipe ∨ ty = .wpipe → ∀ x, ends k' ty x = ends k ty x + if x = pg then 1 else 0
  pipe : ∀ x, x ≠ pg → k'.pipe x = k.pipe x
  new : k'.pipe pg = { Pipe.zero with rref := 1, wref := 1 }
  globals : k'.kPgtbl = k.kPgtbl ∧ k'.curproc = k.curproc ∧ k'.kbdProc = k.kbdProc

theorem pipeEnd_eq {dst : U64} {ty : FileType} (h : pipeEnd k c pg fd dst ty = .ok k') :
    ∃ d, k' = (k.setPhys { k.phys with data := d }).setFdesc c fd
      { (k.procs c).fdesc fd with inuse := true, fileType := ty, pipe := pg } := by
  unfold pipeEnd at h
  obtain ⟨m,hm,h⟩ := bind_eq_ok.mp h
  obtain ⟨d,rfl⟩ := kstores_data hm
  cases h
  exact ⟨d,rfl⟩

theorem ends_newEnd {f : FileDesc} {ty : FileType} (hc : (k.procs c).state ≠ .close) (hfd : fd < nfdesc)
    (hfree : ((k.procs c).fdesc fd).inuse = false) (hf : f.inuse = true) (x : ℕ) :
    ends ((k.setPhys m).setFdesc c fd f) ty x = ends k ty x + if f.fileType = ty ∧ x = f.pipe then 1 else 0 := by
  have h := ends_setFdesc (k := k.setPhys m) (f := f) hc hfd ty x
  rw [hits_unused (f := ((k.setPhys m).procs c).fdesc fd) hfree, Nat.add_zero] at h
  by_cases hty : f.fileType = ty
  · rw [h, hits_kind hf hty]
    simp only [hty,true_and]
    rfl
  · rw [h, hits_other hty, if_neg fun hh => hty hh.1]
    rfl

theorem live_new {R W R' W' : ℕ → ℕ} (h0 : live R W pg = 0)
    (hR : ∀ x, R' x = R x + if x = pg then 1 else 0) (hW : ∀ x, W' x = W x + if x = pg then 1 else 0) :
    live R' W' = fun x => live R W x + if x = pg then 1 else 0 := by
  funext x
  by_cases hx : x = pg
  · subst hx
    rw [h0]
    simp [live,hR,hW]
  · simp [live,hR,hW,hx]

theorem KInv.free_no_ends (h : KInv k) (hpg : pg ∈ k.phys.free) :
    live (ends k .rpipe) (ends k .wpipe) pg = 0 ∧ ends k .rpipe pg = 0 ∧ ends k .wpipe pg = 0 := by
  have h0 : live (ends k .rpipe) (ends k .wpipe) pg = 0 := by
    by_contra hne
    exact h.live_held hne hpg
  have hz : ends k .rpipe pg + ends k .wpipe pg = 0 := by
    by_contra hne
    exact live_ne hne h0
  exact ⟨h0,by omega,by omega⟩

theorem KInv.piped {fds : ℕ → FileDesc} {d : ℕ → ℕ → UInt8} (h : KInv k)
    (hc : (k.procs c).state ≠ .close) (hg : getPage k.phys true = .ok (pg,m))
    (hphys : k'.phys = { m.setPipe pg { m.pipe pg with rref := 1, wref := 1 } with data := d })
    (hprocs : ∀ j ≠ c, k'.procs j = k.procs j) (hself : k'.procs c = { k.procs c with fdesc := fds })
    (he : ∀ ty, ty = .rpipe ∨ ty = .wpipe → ∀ x, ends k' ty x = ends k ty x + if x = pg then 1 else 0)
    (hglob : k'.kPgtbl = k.kPgtbl ∧ k'.curproc = k.curproc ∧ k'.kbdProc = k.kbdProc) : Piped k k' c pg := by
  have hgr := grow_getPage hg
  have hpg : pg ∈ k.phys.free := hgr.new_free (by simp)
  obtain ⟨h0,hr0,hw0⟩ := h.free_no_ends hpg
  have hnew : k'.pipe pg = { Pipe.zero with rref := 1, wref := 1 } := by
    rw [Kernel.pipe, hphys]
    simp [Phys.setPipe,(getPage_zero hg).2.2]
  have hold : ∀ x, x ≠ pg → k'.pipe x = k.pipe x := fun x hx => by
    rw [Kernel.pipe, hphys]
    simp only [Phys.setPipe,Function.update_of_ne hx]
    exact hgr.pipe x (by simpa using hx)
  have hsp : spaces k' = spaces k := by
    funext j
    by_cases hj : j = c
    · simp only [spaces,spaceOf,hj,hself]
    · simp only [spaces,hprocs j hj]
  refine ⟨⟨⟨?_,fun x hx => ?_⟩,fun j hj => ?_⟩,hpg,hprocs,⟨fds,hself⟩,he,hold,hnew,hglob⟩
  · rw [live_new h0 (he _ (Or.inl rfl)) (he _ (Or.inr rfl)), hglob.1, hsp, hphys]
    exact (h.owned.mem.take hg).withContents d _
  · rw [he _ (Or.inl rfl), he _ (Or.inr rfl)] at hx ⊢
    by_cases hxp : x = pg
    · subst hxp
      simp [hnew,hr0,hw0]
    · simp only [hxp,if_false,Nat.add_zero] at hx ⊢
      rw [hold x hxp]
      exact h.owned.refs x hx
  · by_cases hjc : j = c
    · rw [hjc, hself] at hj
      exact absurd hj hc
    · rw [hprocs j hjc] at hj ⊢
      exact h.closed j hj

theorem sysPipe_spec (h : KInv k) (hc : (k.procs c).state ≠ .close) (hs : sysPipe k c tf = .ok o) :
    Returned k o ∨ ∃ tf' k' pg, o = .ret tf' k' ∧ Piped k k' c pg := by
  unfold sysPipe at hs
  obtain ⟨b,-,hs⟩ := bind_eq_ok.mp hs
  split at hs
  · exact Or.inl (.done (.refl h) hs)
  obtain ⟨⟨pg,m⟩,hg,hs⟩ := bind_eq_ok.mp hs
  obtain ⟨rfd,hr,hs⟩ := bind_eq_ok.mp hs
  obtain ⟨k₂,h₂,hs⟩ := bind_eq_ok.mp hs
  obtain ⟨wfd,hw,hs⟩ := bind_eq_ok.mp hs
  obtain ⟨k₃,h₃,hs⟩ := bind_eq_ok.mp hs
  cases hs
  refine Or.inr ⟨_,k₃,pg,rfl,?_⟩
  set k₁ := (k.setPhys m).setPipe pg { m.pipe pg with rref := 1, wref := 1 } with hk₁
  have hp₁ : k₁.procs = k.procs := rfl
  obtain ⟨hrlt,-,hrfree⟩ := freeFd_ok hr
  obtain ⟨hwlt,-,hwfree⟩ := freeFd_ok hw
  have ho₂ := (pipeEnd_ok h₂ hrlt).1
  have ho₃ := (pipeEnd_ok h₃ hwlt).1
  obtain ⟨hj,fds,hself,-⟩ := ho₂.trans ho₃
  obtain ⟨-,fds₂,hself₂,-⟩ := ho₂
  obtain ⟨d₂,hk₂⟩ := pipeEnd_eq h₂
  obtain ⟨d₃,hk₃⟩ := pipeEnd_eq h₃
  have hc₂ : (k₂.procs c).state ≠ .close := by
    rw [hself₂]
    exact hc
  refine h.piped (d := d₃) hc hg ?_ (fun j hjc => hj j hjc) hself (fun ty hty x => ?_) ?_
  · rw [hk₃, hk₂]
    rfl
  · have e₂ : ends k₂ ty x = ends k₁ ty x + if FileType.rpipe = ty ∧ x = pg then 1 else 0 := by
      rw [hk₂]
      exact ends_newEnd hc hrlt hrfree rfl x
    have e₃ : ends k₃ ty x = ends k₂ ty x + if FileType.wpipe = ty ∧ x = pg then 1 else 0 := by
      rw [hk₃]
      exact ends_newEnd hc₂ hwlt hwfree rfl x
    have e₁ : ends k₁ ty x = ends k ty x := rfl
    rcases hty with rfl | rfl <;> simp_all
  · rw [hk₃, hk₂]
    exact ⟨rfl,rfl,rfl⟩

namespace Piped

theorem registered (h : Piped k k' c pg) (ha : Registered k' a r) : Registered k a r := by
  have hne : ∀ x, (k'.pipe x).reader = some r ∨ (k'.pipe x).writer = some r → x ≠ pg := by
    rintro x hx rfl
    rw [h.new] at hx
    rcases hx with hx | hx <;> cases hx
  have hends : ∀ ty, ty = .rpipe ∨ ty = .wpipe → ∀ x, x ≠ pg → ends k' ty x = ends k ty x := fun ty hty x hx => by
    rw [h.ends_eq ty hty, if_neg hx, Nat.add_zero]
  cases a with
  | kbd => exact h.globals.2.2.symm.trans ha
  | wait =>
    have hw : (k'.procs r).waiting = true := ha
    by_cases hr : r = c
    · obtain ⟨fds,hself⟩ := h.self
      rw [hr, hself] at hw
      rw [hr]
      exact hw
    · rw [h.procs r hr] at hw
      exact hw
  | read x =>
    obtain ⟨h1,h2⟩ := ha
    have hx := hne x (Or.inl h2)
    rw [hends _ (Or.inr rfl) x hx] at h1
    rw [h.pipe x hx] at h2
    exact ⟨h1,h2⟩
  | write x =>
    obtain ⟨h1,h2⟩ := ha
    have hx := hne x (Or.inr h2)
    rw [hends _ (Or.inl rfl) x hx, hends _ (Or.inr rfl) x hx] at h1
    rw [h.pipe x hx] at h2
    exact ⟨h1,h2⟩

theorem state (h : Piped k k' c pg) (j : Slot) : (k'.procs j).state = (k.procs j).state := by
  by_cases hj : j = c
  · obtain ⟨fds,hself⟩ := h.self
    rw [hj, hself]
  · rw [h.procs j hj]

theorem sys (h : Piped k k' c pg) (hs : Sys k c) : Sys k' c where
  inv := h.inv
  reg := hs.reg.of_sub (fun _ _ ha => h.registered ha) fun _ r _ => h.state r
  cur := h.globals.2.1.trans hs.cur
  running j := by
    rw [h.state]
    exact hs.running j

end Piped

/-- `sys_close` gives up descriptor `fd` and marks `2*fd` unused; the counts survive when
both are ends of one pipe or neither is an end. -/
def Balanced (p : Proc) (fd : ℕ) : Prop :=
  ∀ ty, ty = .rpipe ∨ ty = .wpipe → ∀ pg, (p.fdesc (fd + fd)).hits ty pg = (p.fdesc fd).hits ty pg

theorem balanced_zero (p : Proc) : Balanced p 0 := fun _ _ _ => rfl

/-- Ends were dropped while `c` ran: whoever was woken had been blocked. -/
theorem Dropped.wokenPending {sp : Spaces} {R' W' : ℕ → ℕ} (h : Sys k c)
    (hd : Dropped k k₁ sp (ends k .rpipe) (ends k .wpipe) R' W') (j : Slot) :
    k₁.procs j = k.procs j ∨ (∃ pg, Registered k (.read pg) j ∧ W' pg = 0) ∧ (k.procs j).state = .pending ∧
      ∃ ctx, k₁.procs j = { k.procs j with context := ctx, state := .ready } := by
  refine (hd.procs j).imp id ?_
  rintro ⟨⟨pg,h0,h1,hr⟩,ctx,hj⟩
  exact ⟨⟨pg,⟨h0,hr⟩,h1⟩,h.reg.pending (.read pg) j ⟨h0,hr⟩,ctx,hj⟩

/-- The descriptor that is marked unused takes the end that was dropped out of the counts. -/
theorem ends_unmark {f g : FileDesc} (hc : (k.procs c).state ≠ .close) (hfd : fd < nfdesc) (hg : g.inuse = false)
    {ty : FileType} (heq : ∀ x, ((k.procs c).fdesc fd).hits ty x = f.hits ty x) :
    ends (k.setFdesc c fd g) ty = fun x => ends k ty x - f.hits ty x := by
  funext x
  have h := ends_setFdesc (f := g) hc hfd ty x
  rw [hits_unused hg, heq x] at h
  omega

/-- A descriptor of the running process is dropped: others may be woken. -/
theorem Sys.dropFdesc {f : FileDesc} (h : Sys k c) (hfd : fd < nfdesc) (hf : f = (k.procs c).fdesc fd)
    (hu : f.inuse = true) (hdrop : dropFdesc k f = .ok k₁) :
    Dropped k k₁ (spaces k) (ends k .rpipe) (ends k .wpipe) (fun pg => ends k .rpipe pg - f.hits .rpipe pg)
      (fun pg => ends k .wpipe pg - f.hits .wpipe pg) ∧ k₁.procs c = k.procs c ∧ ∀ j, (k.procs j).Like (k₁.procs j) := by
  have hle : ∀ ty, f.hits ty f.pipe ≤ ends k ty f.pipe := fun ty => by
    rw [hf]
    exact hits_le_ends h.open hfd ty _
  obtain ⟨k₁',hd',hd⟩ := dropFdesc_spec h.inv.owned hu (hle _) (hle _) (ends_lt ..) (ends_lt ..)
  rw [hdrop] at hd'
  cases hd'
  have hwk := hd.wokenPending h
  refine ⟨hd,?_,fun j => ?_⟩
  · rcases hwk c with h1 | ⟨-,h1,-⟩
    · exact h1
    · rw [h.state] at h1
      cases h1
  · rcases hwk j with h1 | ⟨-,h1,ctx,h2⟩
    · rw [h1]
      exact ⟨rfl,rfl,rfl,Iff.rfl⟩
    · rw [h2]
      exact ⟨rfl,rfl,rfl,by simp [h1]⟩

theorem Sys.closeEnds {f g : FileDesc} (h : Sys k c) (hbal : Balanced (k.procs c) fd) (hfd : fd + fd < nfdesc)
    (hf : f = (k.procs c).fdesc fd) (hu : f.inuse = true) (hdrop : Ukern.dropFdesc k f = .ok k₁)
    (hg : g.inuse = false) (ty : FileType) (hty : ty = .rpipe ∨ ty = .wpipe) :
    ends (k₁.setFdesc c (fd + fd) g) ty = fun x => ends k ty x - f.hits ty x := by
  obtain ⟨-,hself,hlike⟩ := h.dropFdesc (by omega) hf hu hdrop
  rw [← ends_congr hlike]
  refine ends_unmark (by rw [hself]; exact h.open) hfd hg fun x => ?_
  rw [hself, hf]
  exact hbal ty hty x

theorem Sys.closeFdesc {f g : FileDesc} (h : Sys k c) (hbal : Balanced (k.procs c) fd) (hfd : fd + fd < nfdesc)
    (hf : f = (k.procs c).fdesc fd) (hu : f.inuse = true) (hdrop : Ukern.dropFdesc k f = .ok k₁)
    (hg : g.inuse = false) :
    Sys (k₁.setFdesc c (fd + fd) g) c ∧ ∀ j, Dead k j → Dead (k₁.setFdesc c (fd + fd) g) j := by
  obtain ⟨hd,hself,hlike⟩ := h.dropFdesc (by omega) hf hu hdrop
  have hwk := hd.wokenPending h
  have hends := h.closeEnds hbal hfd hf hu hdrop hg
  obtain ⟨k₂,hk₂⟩ : ∃ k₂, k₂ = k₁.setFdesc c (fd + fd) g := ⟨_,rfl⟩
  rw [← hk₂] at hends ⊢
  have hst : ∀ j, (k₂.procs j).state = (k₁.procs j).state ∧ (k₂.procs j).waiting = (k₁.procs j).waiting := fun j => by
    by_cases hj : j = c
    · rw [hk₂, hj, Kernel.setFdesc, Kernel.modProc_self]
      exact ⟨rfl,rfl⟩
    · rw [hk₂, Kernel.setFdesc, Kernel.modProc_ne _ _ _ hj]
      exact ⟨rfl,rfl⟩
  have hsp : spaces k₂ = spaces k := by
    funext j
    by_cases hj : j = c
    · simp only [spaces,spaceOf,hk₂,hj,Kernel.setFdesc,Kernel.modProc_self,hself]
    · simp only [spaces,spaceOf,hk₂,Kernel.setFdesc,Kernel.modProc_ne _ _ _ hj]
      rw [(hlike j).pgtbl, (hlike j).pPgtbl]
      simp only [(hlike j).close]
  have hinv : KInv k₂ := by
    refine ⟨⟨?_,?_⟩,fun j hj => ?_⟩
    · rw [hends _ (Or.inl rfl), hends _ (Or.inr rfl), hsp, hk₂]
      exact hd.owned.mem
    · rw [hends _ (Or.inl rfl), hends _ (Or.inr rfl), hk₂]
      exact hd.owned.refs
    · have hjc : j ≠ c := by
        rintro rfl
        rw [(hst j).1, hself] at hj
        exact h.open hj
      rw [hk₂, Kernel.setFdesc, Kernel.modProc_ne _ _ _ hjc] at hj ⊢
      rcases hwk j with h1 | ⟨-,-,ctx,h2⟩
      · rw [h1] at hj ⊢
        exact h.inv.closed j hj
      · rw [h2] at hj
        cases hj
  have hreg : ∀ a r, Registered k₂ a r → Registered k a r := fun a r ha => by
    have hpipe : ∀ x, k₂.pipe x = k₁.pipe x := fun x => by rw [hk₂]; rfl
    cases a with
    | kbd =>
      have h1 : k₂.kbdProc = some r := ha
      rw [hk₂] at h1
      exact hd.globals.2.2.symm.trans h1
    | wait =>
      have h1 : (k₂.procs r).waiting = true := ha
      rw [(hst r).2] at h1
      rcases hwk r with h2 | ⟨-,-,ctx,h2⟩
      · rw [h2] at h1
        exact h1
      · rw [h2] at h1
        exact h1
    | read x =>
      obtain ⟨h1,h2⟩ := ha
      rw [hends _ (Or.inr rfl)] at h1
      beta_reduce at h1
      rw [hpipe, (hd.pipe x).1] at h2
      exact ⟨by omega,h2⟩
    | write x =>
      obtain ⟨h1,h2⟩ := ha
      rw [hends _ (Or.inl rfl), hends _ (Or.inr rfl)] at h1
      beta_reduce at h1
      rw [hpipe, (hd.pipe x).2] at h2
      exact ⟨by omega,h2⟩
  refine ⟨⟨hinv,h.reg.of_sub hreg fun a r ha => ?_,?_,fun j => ?_⟩,fun j hj => ?_⟩
  · rw [(hst r).1]
    rcases hwk r with h1 | ⟨⟨x,hx,hx0⟩,-,-⟩
    · rw [h1]
    · -- the reader that was woken waits for a pipe without write ends
      have heq := h.reg.unique a (.read x) r (hreg a r ha) hx
      subst heq
      have h1 := ha.1
      rw [hends _ (Or.inr rfl)] at h1
      exact absurd hx0 h1
  · rw [hk₂]
    exact hd.globals.2.1.trans h.cur
  · rw [(hst j).1]
    rcases hwk j with h1 | ⟨-,h1,ctx,h2⟩
    · rw [h1]
      exact h.running j
    · rw [h2, ← h.running j, h1]
      simp
  · rcases hwk j with h1 | ⟨-,h1,-⟩
    · simpa only [Dead,(hst j).1,h1] using hj
    · rcases hj with hj | hj <;> simp [h1] at hj

theorem close_stepped (h : Sys k c) (hbal : ∀ fd, fdOf tf.rdx = some fd → Balanced (k.procs c) fd)
    (hs : sysClose k c tf = .ok o) : Stepped k S o := by
  unfold sysClose at hs
  split at hs
  · exact (Returned.done (.refl h.inv) hs).stepped h
  · rename_i fd hfd
    simp only at hs
    split at hs
    · exact (Returned.done (.refl h.inv) hs).stepped h
    · rename_i hu
      obtain ⟨k₁,hdrop,hs⟩ := bind_eq_ok.mp hs
      split at hs
      · cases hs
      · rename_i hlt
        cases hs
        obtain ⟨h1,h2⟩ := h.closeFdesc (g := { (k₁.procs c).fdesc (fd + fd) with inuse := false })
          (hbal fd hfd) (by omega) rfl (by simpa using hu) hdrop rfl
        exact ⟨⟨c,h1⟩,fun j hj => Or.inl (h2 j hj)⟩

end Ukern
