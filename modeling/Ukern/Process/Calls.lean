import Ukern.Process.Fork

/-! # Calls that return

Most system calls move memory and change the caller's own record, and nothing that
another process or the scheduler looks at.
-/
namespace Ukern
open Lib
variable {k k' k₁ : Kernel} {c : Slot} {m m' : Phys} {fd t : ℕ} {f : FileDesc} {tf : Context} {o : Outcome}

/-- A process as the scheduler, the family lists and the wake-ups see it. -/
structure Proc.Still (p q : Proc) : Prop where
  state : q.state = p.state
  waiting : q.waiting = p.waiting
  pgtbl : q.pgtbl = p.pgtbl
  pPgtbl : q.pPgtbl = p.pPgtbl
  family : q.parent = p.parent ∧ q.livingChild = p.livingChild ∧ q.zombieChild = p.zombieChild ∧
    q.prevSibling = p.prevSibling ∧ q.nextSibling = p.nextSibling
  ident : q.pid = p.pid ∧ q.exitVal = p.exitVal

theorem Proc.Still.refl (p : Proc) : p.Still p := ⟨rfl,rfl,rfl,rfl,⟨rfl,rfl,rfl,rfl,rfl⟩,⟨rfl,rfl⟩⟩

theorem Proc.Still.trans {p q r : Proc} (h : p.Still q) (h' : q.Still r) : p.Still r where
  state := h'.state.trans h.state
  waiting := h'.waiting.trans h.waiting
  pgtbl := h'.pgtbl.trans h.pgtbl
  pPgtbl := h'.pPgtbl.trans h.pPgtbl
  family := ⟨h'.family.1.trans h.family.1,h'.family.2.1.trans h.family.2.1,
    h'.family.2.2.1.trans h.family.2.2.1,h'.family.2.2.2.1.trans h.family.2.2.2.1,
    h'.family.2.2.2.2.trans h.family.2.2.2.2⟩
  ident := ⟨h'.ident.1.trans h.ident.1,h'.ident.2.trans h.ident.2⟩

/-- Nobody was woken, blocked, created or cleared. -/
structure Quiet (k k' : Kernel) : Prop where
  inv : KInv k'
  procs : ∀ j, (k.procs j).Still (k'.procs j)
  ends_eq : ends k' .rpipe = ends k .rpipe ∧ ends k' .wpipe = ends k .wpipe
  pipe : ∀ pg, ends k .rpipe pg + ends k .wpipe pg ≠ 0 →
    (k'.pipe pg).reader = (k.pipe pg).reader ∧ (k'.pipe pg).writer = (k.pipe pg).writer
  globals : k'.kPgtbl = k.kPgtbl ∧ k'.curproc = k.curproc ∧ k'.kbdProc = k.kbdProc

namespace Quiet

theorem refl (h : KInv k) : Quiet k k :=
  ⟨h,fun _ => .refl _,⟨rfl,rfl⟩,fun _ _ => ⟨rfl,rfl⟩,⟨rfl,rfl,rfl⟩⟩

theorem trans (h : Quiet k k₁) (h' : Quiet k₁ k') : Quiet k k' where
  inv := h'.inv
  procs j := (h.procs j).trans (h'.procs j)
  ends_eq := ⟨h'.ends_eq.1.trans h.ends_eq.1,h'.ends_eq.2.trans h.ends_eq.2⟩
  pipe pg hpg := by
    have h1 := h.pipe pg hpg
    have h2 := h'.pipe pg (by rw [h.ends_eq.1, h.ends_eq.2]; exact hpg)
    exact ⟨h2.1.trans h1.1,h2.2.trans h1.2⟩
  globals := ⟨h'.globals.1.trans h.globals.1,h'.globals.2.1.trans h.globals.2.1,
    h'.globals.2.2.trans h.globals.2.2⟩

theorem setPhys (h : KInv k)
    (hm : MemInv m k.kPgtbl (spaces k) (live (ends k .rpipe) (ends k .wpipe)))
    (hp : ∀ pg, live (ends k .rpipe) (ends k .wpipe) pg ≠ 0 → m.pipe pg = k.phys.pipe pg) :
    Quiet k (k.setPhys m) where
  inv := h.setPhys hm hp
  procs _ := .refl _
  ends_eq := ⟨rfl,rfl⟩
  pipe pg hpg := by
    rw [Kernel.pipe, Kernel.setPhys_phys, hp pg (live_ne hpg)]
    exact ⟨rfl,rfl⟩
  globals := ⟨rfl,rfl,rfl⟩

/-- Only one record changed, in fields that nobody else looks at. -/
theorem modProc {g : Proc → Proc} (h : KInv k) (hs : (k.procs c).Still (g (k.procs c)))
    (hf : (g (k.procs c)).fdesc = (k.procs c).fdesc) : Quiet k (k.modProc c g) := by
  have hl : (k.procs c).Like (g (k.procs c)) := ⟨hs.pgtbl,hs.pPgtbl,hf,by rw [hs.state]⟩
  have hlike : ∀ j, (k.procs j).Like ((k.modProc c g).procs j) := fun j => by
    by_cases hj : j = c
    · rw [hj, Kernel.modProc_self]
      exact hl
    · rw [Kernel.modProc_ne _ _ _ hj]
      exact ⟨rfl,rfl,rfl,Iff.rfl⟩
  refine ⟨h.modProc hl fun hw => ?_,fun j => ?_,by rw [ends_congr hlike]; exact ⟨rfl,rfl⟩,fun _ _ => ⟨rfl,rfl⟩,
    ⟨rfl,rfl,rfl⟩⟩
  · rw [hs.waiting] at hw
    rw [hs.state]
    exact h.waiting hw
  · by_cases hj : j = c
    · rw [hj, Kernel.modProc_self]
      exact hs
    · rw [Kernel.modProc_ne _ _ _ hj]
      exact .refl _

theorem setFdesc (h : KInv k) (hc : (k.procs c).state ≠ .close) (hfd : fd < nfdesc)
    (hold : ∀ ty, ty = .rpipe ∨ ty = .wpipe → ∀ pg, f.hits ty pg = ((k.procs c).fdesc fd).hits ty pg) :
    Quiet k (k.setFdesc c fd f) := by
  have he : ∀ ty, ty = .rpipe ∨ ty = .wpipe → ends (k.setFdesc c fd f) ty = ends k ty := fun ty hty => by
    funext pg
    have h1 := ends_setFdesc (f := f) hc hfd ty pg
    rw [hold ty hty pg] at h1
    omega
  refine ⟨h.setFdesc hc hfd hold,fun j => ?_,⟨he _ (Or.inl rfl),he _ (Or.inr rfl)⟩,fun _ _ => ⟨rfl,rfl⟩,
    ⟨rfl,rfl,rfl⟩⟩
  by_cases hj : j = c
  · rw [hj, Kernel.setFdesc, Kernel.modProc_self]
    exact ⟨rfl,rfl,rfl,rfl,⟨rfl,rfl,rfl,rfl,rfl⟩,⟨rfl,rfl⟩⟩
  · rw [Kernel.setFdesc, Kernel.modProc_ne _ _ _ hj]
    exact .refl _

end Quiet

theorem kstore_data {v : U64} {b : UInt8} (h : kstore m t v b = .ok m') : ∃ d, m' = { m with data := d } := by
  unfold kstore at h
  split at h
  · cases h
  · split at h
    · cases h
    · cases h
      exact ⟨_,rfl⟩

theorem kstores_data {v : U64} {bs : List UInt8} (h : kstores m t v bs = .ok m') :
    ∃ d, m' = { m with data := d } := by
  induction bs generalizing m v with
  | nil =>
    cases h
    exact ⟨_,rfl⟩
  | cons b bs ih =>
    obtain ⟨m₁,h1,h⟩ := bind_eq_ok.mp h
    obtain ⟨d₁,rfl⟩ := kstore_data h1
    obtain ⟨d,hd⟩ := ih h
    exact ⟨d,hd⟩

theorem Quiet.setData (h : KInv k) (hm : ∃ d, m = { k.phys with data := d }) : Quiet k (k.setPhys m) := by
  obtain ⟨d,rfl⟩ := hm
  exact .setPhys h (h.owned.mem.withContents d k.phys.pipe) fun _ _ => rfl

theorem diskRead_quiet {bs : List (ℕ × ℕ)} (h : KInv k) (hd : diskRead k.kPgtbl k.phys bs = .ok m) :
    Quiet k (k.setPhys m) := by
  obtain ⟨hm,new,hk⟩ := diskRead_spec h.owned.mem hd
  exact .setPhys h hm fun pg hpg => hk.grow.pipe pg fun hn => h.live_held hpg (hk.grow.new_free hn)

/-- `exfat_open` fills in a descriptor; it never makes it an end of a pipe. -/
theorem exfatOpen_quiet {fs : Fs} {path : ℕ → Option UInt8} {pwd f' : FileDesc} {opendir : Bool} {r : U64}
    (h : KInv k) (he : exfatOpen fs k.phys k.kPgtbl path pwd f opendir = .ok (r,f',m)) :
    Quiet k (k.setPhys m) ∧ f'.inuse = f.inuse ∧
      (r = 0 → f'.fileType = .reg ∨ f'.fileType = .dir) ∧ (r ≠ 0 → f'.fileType = f.fileType) := by
  unfold exfatOpen at he
  obtain ⟨res,-,he⟩ := bind_eq_ok.mp he
  obtain ⟨m₁,hd,he⟩ := bind_eq_ok.mp he
  have hq := diskRead_quiet h hd
  simp only at he
  split at he
  · cases he
  split at he
  · rename_i e _
    cases he
    have hne : neg e.errno ≠ 0 := by cases e <;> decide
    exact ⟨hq,rfl,fun hr => absurd hr hne,fun _ => rfl⟩
  split at he
  · cases he
    exact ⟨hq,rfl,fun hr => absurd hr (by decide),fun _ => rfl⟩
  split at he
  · cases he
    exact ⟨hq,rfl,fun hr => absurd hr (by decide),fun _ => rfl⟩
  · cases he
    refine ⟨hq,rfl,fun _ => ?_,fun hr => absurd rfl hr⟩
    cases opendir
    · exact Or.inl rfl
    · exact Or.inr rfl

theorem freeFd_ok {p : Proc} {fd₀ : ℕ} (h : freeFd p fd₀ = .ok fd) :
    fd < nfdesc ∧ fd₀ ≤ fd ∧ (p.fdesc fd).inuse = false := by
  unfold freeFd at h
  split at h
  · rename_i i hi
    cases h
    have hm := List.mem_of_find?_eq_some hi
    have hs := List.find?_some hi
    simp only [Bool.and_eq_true,decide_eq_true_eq,Bool.not_eq_eq_eq_not,Bool.not_true] at hs
    exact ⟨List.mem_range.mp hm,hs⟩
  · cases h

theorem hits_unused (h : f.inuse = false) (ty : FileType) (pg : ℕ) : f.hits ty pg = 0 :=
  if_neg fun hh => by simp [h] at hh

theorem hits_plain (h : f.fileType ≠ .rpipe ∧ f.fileType ≠ .wpipe) {ty : FileType}
    (hty : ty = .rpipe ∨ ty = .wpipe) (pg : ℕ) : f.hits ty pg = 0 := by
  rcases hty with rfl | rfl
  · exact hits_other h.1 pg
  · exact hits_other h.2 pg

/-- The call came back to its caller, and nothing else happened. -/
def Returned (k : Kernel) (o : Outcome) : Prop := ∃ tf k', o = .ret tf k' ∧ Quiet k k'

theorem Returned.done {r : U64} (hq : Quiet k k') (h : k'.done tf r = .ok o) : Returned k o := by
  cases h
  exact ⟨_,_,rfl,hq⟩

theorem sysOpenAs_returned {opendir : Bool} {fs : Fs} (h : KInv k) (hc : (k.procs c).state ≠ .close)
    (hs : sysOpenAs opendir fs k c tf = .ok o) : Returned k o := by
  unfold sysOpenAs at hs
  obtain ⟨b,-,hs⟩ := bind_eq_ok.mp hs
  split at hs
  · exact .done (.refl h) hs
  obtain ⟨fd,hfd,hs⟩ := bind_eq_ok.mp hs
  obtain ⟨⟨r,f',m⟩,he,hs⟩ := bind_eq_ok.mp hs
  obtain ⟨hlt,-,hfree⟩ := freeFd_ok hfd
  obtain ⟨hq,hu,hok,herr⟩ := exfatOpen_quiet h he
  have hold : ∀ ty pg, ((k.procs c).fdesc fd).hits ty pg = 0 := hits_unused hfree
  simp only at hs
  split at hs
  · rename_i hr
    refine .done (hq.trans (.setFdesc hq.inv hc hlt fun ty hty pg => ?_)) hs
    have hpl : f'.fileType ≠ .rpipe ∧ f'.fileType ≠ .wpipe := by
      rcases hok hr with h1 | h1 <;> rw [h1] <;> exact ⟨nofun,nofun⟩
    rw [Kernel.setPhys_procs, hold]
    exact hits_plain (f := { f' with inuse := true }) hpl hty pg
  · refine .done (hq.trans (.setFdesc hq.inv hc hlt fun ty _ pg => ?_)) hs
    rw [Kernel.setPhys_procs, hold, hits_unused (hu.trans hfree)]

theorem sysChdir_returned {fs : Fs} (h : KInv k) (hs : sysChdir fs k c tf = .ok o) : Returned k o := by
  unfold sysChdir at hs
  obtain ⟨b,-,hs⟩ := bind_eq_ok.mp hs
  split at hs
  · exact .done (.refl h) hs
  obtain ⟨⟨r,f',m⟩,he,hs⟩ := bind_eq_ok.mp hs
  obtain ⟨hq,-⟩ := exfatOpen_quiet h he
  simp only at hs
  split at hs
  · exact .done hq hs
  · refine .done (hq.trans (.modProc hq.inv ?_ rfl)) hs
    exact ⟨rfl,rfl,rfl,rfl,⟨rfl,rfl,rfl,rfl,rfl⟩,⟨rfl,rfl⟩⟩

theorem toInt32_eq (x : U64) : toInt32 x = if x.toNat % 2^32 < 2^31 then (x.toNat % 2^32 : ℤ)
    else x.toNat % 2^32 - 2^32 := by
  unfold toInt32
  rw [BitVec.toInt_eq_toNat_cond, BitVec.toNat_setWidth]
  split <;> split <;> omega

theorem fdOf_lt {x : U64} (h : fdOf x = some fd) : fd < nfdesc := by
  unfold fdOf at h
  split at h
  · cases h
    rename_i hx
    unfold nfdesc
    omega
  · cases h

theorem Quiet.touch (h : KInv k) (hc : (k.procs c).state ≠ .close) (hfd : fd < nfdesc)
    (hf : f.inuse = ((k.procs c).fdesc fd).inuse ∧ f.fileType = ((k.procs c).fdesc fd).fileType ∧
      f.pipe = ((k.procs c).fdesc fd).pipe) : Quiet k (k.setFdesc c fd f) :=
  .setFdesc h hc hfd fun ty _ pg => by simp only [FileDesc.hits,hf.1,hf.2.1,hf.2.2]

theorem exfatReadFile_quiet {fs : Fs} {dst : U64} {sz n : ℕ} (h : KInv k)
    (he : exfatReadFile fs k.phys k.kPgtbl t dst sz f = .ok (n,m)) : Quiet k (k.setPhys m) := by
  unfold exfatReadFile at he
  obtain ⟨m₁,hd,he⟩ := bind_eq_ok.mp he
  obtain ⟨m₂,hst,he⟩ := bind_eq_ok.mp he
  simp only [Except.ok.injEq,Prod.mk.injEq] at he
  obtain ⟨-,rfl⟩ := he
  have hq := diskRead_quiet h hd
  exact hq.trans (.setData hq.inv (kstores_data hst))

theorem dirent_data {ty : Type} {dst : ty → U64} {val : ty → UInt8} {l : List ty}
    (h : l.foldlM (fun m s => kstore m t (dst s) (val s)) m = .ok m') : ∃ d, m' = { m with data := d } := by
  induction l generalizing m with
  | nil =>
    cases h
    exact ⟨_,rfl⟩
  | cons a l ih =>
    rw [List.foldlM_cons] at h
    obtain ⟨m₁,h1,h⟩ := bind_eq_ok.mp h
    obtain ⟨d₁,rfl⟩ := kstore_data h1
    obtain ⟨d,hd⟩ := ih h
    exact ⟨d,hd⟩

theorem exfatReadDir_quiet {fs : Fs} {dst : U64} {f' : FileDesc} (h : KInv k)
    (he : exfatReadDir fs k.phys k.kPgtbl t dst f = .ok (f',m)) :
    Quiet k (k.setPhys m) ∧ f'.inuse = f.inuse ∧ f'.fileType = f.fileType ∧ f'.pipe = f.pipe := by
  unfold exfatReadDir at he
  obtain ⟨m₁,hd,he⟩ := bind_eq_ok.mp he
  obtain ⟨m₂,hst,he⟩ := bind_eq_ok.mp he
  simp only [Except.ok.injEq,Prod.mk.injEq] at he
  obtain ⟨rfl,rfl⟩ := he
  have hq := diskRead_quiet h hd
  exact ⟨hq.trans (.setData hq.inv (dirent_data hst)),rfl,rfl,rfl⟩

theorem readReg_returned {fs : Fs} (h : KInv k) (hc : (k.procs c).state ≠ .close) (hfd : fd < nfdesc)
    (hs : readReg fs k c fd tf = .ok o) : Returned k o := by
  unfold readReg at hs
  obtain ⟨⟨n,m⟩,he,hs⟩ := bind_eq_ok.mp hs
  have hq := exfatReadFile_quiet h he
  refine .done (hq.trans (.touch hq.inv hc hfd ?_)) hs
  exact ⟨rfl,rfl,rfl⟩

theorem sysReaddir_returned {fs : Fs} (h : KInv k) (hc : (k.procs c).state ≠ .close)
    (hs : sysReaddir fs k c tf = .ok o) : Returned k o := by
  unfold sysReaddir at hs
  split at hs
  · exact .done (.refl h) hs
  rename_i fd hfd
  obtain ⟨b,-,hs⟩ := bind_eq_ok.mp hs
  split at hs
  · exact .done (.refl h) hs
  simp only at hs
  split at hs
  · exact .done (.refl h) hs
  obtain ⟨⟨f',m⟩,he,hs⟩ := bind_eq_ok.mp hs
  obtain ⟨hq,hf⟩ := exfatReadDir_quiet h he
  exact .done (hq.trans (.touch hq.inv hc (fdOf_lt hfd) hf)) hs

theorem sysSbrk_returned (h : KInv k) (hc : (k.procs c).state ≠ .close) (hs : sysSbrk k c tf = .ok o) :
    Returned k o := by
  unfold sysSbrk at hs
  simp only at hs
  split at hs
  · exact .done (.refl h) hs
  rename_i href
  obtain ⟨m,hl,hs⟩ := bind_eq_ok.mp hs
  have hmax : roundup (((k.procs c).endUmem + tf.rdx.toNat) % 2^64) < umax := by
    simp only [sbrkRefused,Bool.or_eq_true,decide_eq_true_eq,not_or,not_le] at href
    exact href.1
  have htop : umax < userTop := by decide
  have hloop : MemInv m k.kPgtbl (spaces k) (live (ends k .rpipe) (ends k .wpipe)) ∧
      ∀ pg, live (ends k .rpipe) (ends k .wpipe) pg ≠ 0 → m.pipe pg = k.phys.pipe pg := by
    refine foldlM_range_inv (fun _ s => MemInv s k.kPgtbl (spaces k) (live (ends k .rpipe) (ends k .wpipe)) ∧
      ∀ pg, live (ends k .rpipe) (ends k .wpipe) pg ≠ 0 → s.pipe pg = k.phys.pipe pg)
      ⟨h.owned.mem,fun _ _ => rfl⟩ (fun i s s' hi hinv hp => ?_) hl
    have hle : (i+1) * pgsize ≤ roundup (((k.procs c).endUmem + tf.rdx.toNat) % 2^64) -
        roundup (k.procs c).endUmem := Nat.le_trans (Nat.mul_le_mul_right _ hi) (Nat.div_mul_le_self _ _)
    have hpos : 0 < pgsize := by decide
    have hv : roundup (k.procs c).endUmem + i * pgsize < userTop := by
      rw [Nat.add_mul, Nat.one_mul] at hle
      omega
    obtain ⟨hm,⟨new,hg⟩,-⟩ := sbrkPage_spec hinv.1 (spaces_some hc) hv hp
    refine ⟨hm,fun pg hpg => ?_⟩
    have hf : pg ∉ s.free := hinv.1.own_not_free (by simp only [own]; omega)
    rw [hg.pipe pg fun hn => hf (hg.new_free hn), hinv.2 pg hpg]
  have hq := Quiet.setPhys h hloop.1 hloop.2
  refine .done (hq.trans (.modProc hq.inv ?_ rfl)) hs
  exact ⟨rfl,rfl,rfl,rfl,⟨rfl,rfl,rfl,rfl,rfl⟩,⟨rfl,rfl⟩⟩

end Ukern
