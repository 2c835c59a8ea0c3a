import Ukern.Kernel.Trap
import Ukern.Lib.Post

/-! # Memory functions and pipes

No function on memory writes into a pipe: the page of a pipe keeps it, or is zeroed
when `alloc_page` hands it out. This holds in every state. So the sizes in a pipe
stay in the range of their type.
-/
namespace Ukern
open Lib
variable {m m₁ m₂ : Phys}

/-- Every pipe of `m'` is one of `m`, or zero. -/
structure PipesKept (m m' : Phys) : Prop where
  pipe : ∀ pg, m'.pipe pg = m.pipe pg ∨ m'.pipe pg = .zero

namespace PipesKept

theorem refl (m : Phys) : PipesKept m m := ⟨fun _ => .inl rfl⟩

theorem trans (h : PipesKept m m₁) (h' : PipesKept m₁ m₂) : PipesKept m m₂ := by
  refine ⟨fun pg => ?_⟩
  rcases h'.pipe pg with h' | h'
  · rw [h']
    exact h.pipe pg
  · exact .inr h'

theorem of_eq (h : PipesKept m m₁) (heq : m₂.pipe = m₁.pipe) : PipesKept m m₂ := by
  refine ⟨fun pg => ?_⟩
  rw [heq]
  exact h.pipe pg

theorem setEntry (h : PipesKept m m₁) (t i : ℕ) (e : Pte) : PipesKept m (m₁.setEntry t i e) := h.of_eq rfl

theorem setByte (h : PipesKept m m₁) (pa : ℕ) (b : UInt8) : PipesKept m (m₁.setByte pa b) := h.of_eq rfl

theorem setRef (h : PipesKept m m₁) (pg : ℕ) (r : ℤ) : PipesKept m (m₁.setRef pg r) := h.of_eq rfl

theorem zeroPage (h : PipesKept m m₁) (pg : ℕ) : PipesKept m (m₁.zeroPage pg) := by
  refine ⟨fun x => ?_⟩
  by_cases hx : x = pg
  · subst hx
    exact .inr (Function.update_self ..)
  · have heq : (m₁.zeroPage pg).pipe x = m₁.pipe x := Function.update_of_ne hx ..
    rw [heq]
    exact h.pipe x

theorem setBytes (h : PipesKept m m₁) (pa : ℕ) (bs : List UInt8) : PipesKept m (m₁.setBytes pa bs) := by
  induction bs generalizing m₁ pa with
  | nil => exact h
  | cons b bs ih => exact ih (h.setByte pa b) _

end PipesKept

/-- The sizes in a pipe are `u32`. -/
structure Pipe.Typed (q : Pipe) : Prop where
  len : q.len < 2^32
  rsiz : q.rsiz < 2^32
  wsiz : q.wsiz < 2^32

def Phys.Typed (m : Phys) : Prop := ∀ pg, (m.pipe pg).Typed

theorem Pipe.typed_zero : Pipe.zero.Typed := ⟨by decide,by decide,by decide⟩

theorem PipesKept.typed (h : PipesKept m m₁) (ht : m.Typed) : m₁.Typed := by
  intro pg
  rcases h.pipe pg with hpg | hpg
  · rw [hpg]
    exact ht pg
  · rw [hpg]
    exact Pipe.typed_zero

theorem Phys.Typed.setPipe (ht : m.Typed) (pg : ℕ) {q : Pipe} (hq : q.Typed) : (m.setPipe pg q).Typed := by
  intro x
  by_cases hx : x = pg
  · subst hx
    have heq : (m.setPipe x q).pipe x = q := Function.update_self ..
    rw [heq]
    exact hq
  · have heq : (m.setPipe pg q).pipe x = m.pipe x := Function.update_of_ne hx ..
    rw [heq]
    exact ht x

/-! ## `mem.c` -/

theorem allocPage_pipes (h : PipesKept m m₁) (zero : Bool) :
    Post (allocPage m₁ zero) fun r => PipesKept m r.2 := by
  unfold allocPage
  split
  · exact .ok h
  · split
    · exact .error _
    · refine .ite (fun _ => .error _) fun _ => .ok ?_
      cases zero with
      | true => exact (h.zeroPage _).of_eq rfl
      | false => exact h.of_eq rfl

theorem getPage_pipes (h : PipesKept m m₁) (zero : Bool) :
    Post (getPage m₁ zero) fun r => PipesKept m r.2 := by
  unfold getPage
  refine .bind (allocPage_pipes h zero) fun r hr => ?_
  obtain ⟨pg,m₂⟩ := r
  cases pg with
  | none => exact .error _
  | some pg => exact .ok hr

theorem freePage_pipes (h : PipesKept m m₁) (pg : ℕ) : Post (freePage m₁ pg) (PipesKept m) :=
  .ite (fun _ => .error _) fun _ => .ite (fun _ => .error _) fun _ =>
    .ite (fun _ => .ok (h.of_eq rfl)) fun _ => .ok (h.setRef ..)

theorem freeAlloced_pipes (h : PipesKept m m₁) (l : List (Option ℕ)) :
    Post (freeAlloced m₁ l) (PipesKept m) := by
  induction l generalizing m₁ with
  | nil => exact .ok h
  | cons pg l ih =>
    cases pg with
    | none => exact .ok h
    | some pg => exact .bind (freePage_pipes h pg) fun m₂ h₂ => ih h₂

theorem walkFrom_pipes (create : Bool) (v l : ℕ) (h : PipesKept m m₁) (t : ℕ) (al : List (Option ℕ)) :
    Post (walkFrom create v l m₁ t al) fun r => PipesKept m r.2 := by
  induction l generalizing m₁ t al with
  | zero => exact .ok h
  | succ l ih =>
    rw [walkFrom]
    refine .ite (fun _ => .error _) fun _ => .ite (fun _ => ih h _ _) fun _ => ?_
    refine .ite (fun _ => .ok h) fun _ => .bind (allocPage_pipes h true) fun r hr => ?_
    obtain ⟨pg,m₂⟩ := r
    cases pg with
    | none => exact .bind (freeAlloced_pipes hr al) fun m₃ h₃ => .ok h₃
    | some pg => exact ih (hr.setEntry ..) _ _

theorem walkPgtbl_pipes (h : PipesKept m m₁) (t v : ℕ) (create : Bool) :
    Post (walkPgtbl m₁ t v create) fun r => PipesKept m r.2 := walkFrom_pipes create v 3 h t []

theorem walkSlot_pipes (h : PipesKept m m₁) (t v : ℕ) (create : Bool) :
    Post (walkSlot m₁ t v create) fun r => PipesKept m r.2.2 := by
  unfold walkSlot
  refine .bind (walkPgtbl_pipes h t v create) fun r hr => ?_
  obtain ⟨w,m₂⟩ := r
  cases w with
  | slot t i => exact .ok hr
  | efault => exact .error _
  | enomem => exact .error _

theorem copyEntry_pipes (cntref : Bool) (dst src : ℕ) (h : PipesKept m m₁) (i : ℕ) :
    PipesKept m (copyEntry cntref dst src m₁ i) := by
  unfold copyEntry
  dsimp only
  split
  · exact h
  · split
    · exact (h.setEntry ..).setRef ..
    · exact h.setEntry ..

theorem copyFrom_pipes (cntref : Bool) (l n : ℕ) (h : PipesKept m m₁) (dst src : ℕ) :
    Post (copyFrom cntref l n m₁ dst src) (PipesKept m) := by
  induction l generalizing m₁ n dst src with
  | zero => exact .ok (foldl_inv (I := PipesKept m) (fun m₂ i h₂ => copyEntry_pipes cntref dst src h₂ i) h)
  | succ l ih =>
    rw [copyFrom]
    refine .foldlM (fun m₂ i h₂ => .ite (fun _ => .ok h₂) fun _ => ?_) h
    exact .bind (getPage_pipes h₂ true) fun r hr => ih _ (hr.setEntry ..) _ _

theorem copyKernelHalf_pipes (h : PipesKept m m₁) (dst src : ℕ) :
    PipesKept m (copyKernelHalf m₁ dst src) :=
  foldl_inv (I := PipesKept m) (fun _ _ h₂ => h₂.setEntry ..) h

theorem copyPgtbl_pipes (h : PipesKept m m₁) (dst src : ℕ) (cntref : Bool) :
    Post (copyPgtbl m₁ dst src cntref) (PipesKept m) :=
  .bind (copyFrom_pipes cntref 3 256 h dst src) fun _ h₂ => .ok (copyKernelHalf_pipes h₂ dst src)

theorem clearFrom_pipes (flags : BitVec 12) (l n : ℕ) (h : PipesKept m m₁) (t : ℕ) :
    PipesKept m (clearFrom flags l n m₁ t) := by
  induction l generalizing m₁ n t with
  | zero =>
    refine foldl_inv (I := PipesKept m) (fun m₂ i h₂ => ?_) h
    split
    · exact h₂
    · exact h₂.setEntry ..
  | succ l ih =>
    refine foldl_inv (I := PipesKept m) (fun m₂ i h₂ => ?_) h
    split
    · exact h₂
    · exact ih _ h₂ _

theorem freeFrom_pipes (decref : Bool) (l n : ℕ) (h : PipesKept m m₁) (t : ℕ) :
    Post (freeFrom decref l n m₁ t) (PipesKept m) := by
  induction l generalizing m₁ n t with
  | zero =>
    rw [freeFrom]
    refine .bind (.foldlM (I := PipesKept m) (fun m₂ i h₂ => ?_) h) fun m₂ h₂ => freePage_pipes h₂ t
    exact .ite (fun _ => .ok h₂) fun _ => .ite (fun _ => freePage_pipes h₂ _) fun _ => .ok h₂
  | succ l ih =>
    rw [freeFrom]
    refine .bind (.foldlM (I := PipesKept m) (fun m₂ i h₂ => ?_) h) fun m₂ h₂ => freePage_pipes h₂ t
    exact .ite (fun _ => .ok h₂) fun _ => ih _ h₂ _

theorem freePgtbl_pipes (h : PipesKept m m₁) (t : ℕ) (decref : Bool) :
    Post (freePgtbl m₁ t decref) (PipesKept m) := freeFrom_pipes decref 3 256 h t

theorem forkTables_pipes (h : PipesKept m m₁) (child parent : Proc) :
    Post (forkTables m₁ child parent) (PipesKept m) := by
  unfold forkTables
  refine .bind (copyPgtbl_pipes h _ _ _) fun m₂ h₂ => .bind (copyPgtbl_pipes h₂ _ _ _) fun m₃ h₃ => ?_
  exact .ok (clearFrom_pipes _ 3 256 (clearFrom_pipes _ 3 256 h₃ _) _)

/-! ## Copy on write, and stores through user pointers -/

theorem cowPage_pipes (h : PipesKept m m₁) (frame : ℕ) :
    Post (cowPage m₁ frame) fun r => PipesKept m r.2 := by
  unfold cowPage
  exact .bind (getPage_pipes (h.setRef ..) false) fun r hr => .ok (hr.of_eq rfl)

theorem u2k_pipes (h : PipesKept m m₁) (p : Proc) (v : U64) (write : Bool) :
    Post (u2k m₁ p v write) fun r => PipesKept m r.2 := by
  unfold u2k
  refine .bind (walkSlot_pipes h _ _ _) fun r hr => .bind (walkSlot_pipes hr _ _ _) fun s hs => ?_
  refine .ite (fun _ => .error _) fun _ => .ite (fun _ => .error _) fun _ => ?_
  refine .ite (fun _ => .ok hs) fun _ => .ite (fun _ => .error _) fun _ => ?_
  exact .bind (cowPage_pipes hs _) fun r hr => .ok ((hr.setEntry ..).setEntry ..)

theorem breakCow_pipes (h : PipesKept m m₁) (p : Proc) (v : ℕ) : Post (breakCow m₁ p v) (PipesKept m) := by
  unfold breakCow
  refine .bind (walkSlot_pipes h _ _ _) fun r hr => .ite (fun _ => .ok (hr.setEntry ..)) fun _ => ?_
  refine .bind (cowPage_pipes hr _) fun s hs => ?_
  exact .bind (walkSlot_pipes (hs.setEntry ..) _ _ _) fun q hq => .ok (hq.setEntry ..)

theorem kstore_pipes (h : PipesKept m m₁) (t : ℕ) (v : U64) (b : UInt8) :
    Post (kstore m₁ t v b) (PipesKept m) := by
  unfold kstore
  refine .ite (fun _ => .error _) fun _ => ?_
  split
  · exact .error _
  · exact .ok (h.setByte ..)

theorem kstores_pipes (h : PipesKept m m₁) (t : ℕ) (v : U64) (bs : List UInt8) :
    Post (kstores m₁ t v bs) (PipesKept m) := by
  induction bs generalizing m₁ v with
  | nil => exact .ok h
  | cons b bs ih => exact .bind (kstore_pipes h t v b) fun m₂ h₂ => ih h₂ _

theorem waitStore_pipes (h : PipesKept m m₁) (t : ℕ) (w v : U64) :
    Post (waitStore m₁ t w v) (PipesKept m) :=
  .ite (fun _ => kstores_pipes h _ _ _) fun _ => .ok h

theorem sbrkPage_pipes (h : PipesKept m m₁) (p : Proc) (start i : ℕ) :
    Post (sbrkPage p start m₁ i) (PipesKept m) := by
  unfold sbrkPage
  refine .bind (getPage_pipes h true) fun r hr => .bind (walkSlot_pipes hr _ _ _) fun s hs => ?_
  exact .bind (walkSlot_pipes (hs.setEntry ..) _ _ _) fun q hq => .ok (hq.setEntry ..)

/-! ## The loops of `pipe.c` -/

theorem pipeReadLoop_pipes (pg : ℕ) (p : Proc) (base tail n : ℕ) (h : PipesKept m m₁) (rbuf i ind j : ℕ) :
    Post (pipeReadLoop pg p base tail n m₁ rbuf i ind j) (PipesKept m) := by
  induction n generalizing m₁ rbuf i ind j with
  | zero => exact .error _
  | succ n ih =>
    rw [pipeReadLoop]
    refine .ite (fun _ => .ok h) fun _ => .ite (fun _ => ih (h.setByte ..) _ _ _ _) fun _ => ?_
    exact .bind (u2k_pipes (h.setByte ..) _ _ _) fun r hr => ih hr _ _ _ _

theorem pipeWriteLoop_typed (pg : ℕ) (p : Proc) (base tail n : ℕ) (h : m.Typed) (wbuf i ind j : ℕ) :
    Post (pipeWriteLoop pg p base tail n m wbuf i ind j) Phys.Typed := by
  induction n generalizing m wbuf i ind j with
  | zero => exact .error _
  | succ n ih =>
    have hset : ∀ b, (m.setPipe pg { m.pipe pg with buf := b }).Typed := fun b =>
      h.setPipe pg ⟨(h pg).len,(h pg).rsiz,(h pg).wsiz⟩
    rw [pipeWriteLoop]
    refine .ite (fun _ => .ok h) fun _ => .ite (fun _ => ih (hset _) _ _ _ _) fun _ => ?_
    refine .bind (u2k_pipes (.refl _) _ _ _) fun r hr => ?_
    exact ih (hr.typed (hset _)) _ _ _ _

/-! ## Files and images -/

theorem diskRead_pipes (h : PipesKept m m₁) (kp : ℕ) (blocks : List (ℕ × ℕ)) :
    Post (diskRead kp m₁ blocks) (PipesKept m) := by
  refine .foldlM (fun m₂ b h₂ => ?_) h
  unfold sataReadBlock
  refine .bind (walkSlot_pipes h₂ _ _ _) fun r hr => .ite (fun _ => ?_) fun _ => .ok hr
  exact .bind (getPage_pipes hr true) fun s hs => .ok (hs.setEntry ..)

theorem exfatOpen_pipes (fs : Fs) (h : PipesKept m m₁) (kp : ℕ) (path : ℕ → Option UInt8)
    (pwd f : FileDesc) (opendir : Bool) :
    Post (exfatOpen fs m₁ kp path pwd f opendir) fun r => PipesKept m r.2.2 := by
  unfold exfatOpen
  refine .seq fun r => .bind (diskRead_pipes h _ _) fun m₂ h₂ => .ite (fun _ => .error _) fun _ => ?_
  split
  · exact .ok h₂
  · exact .ite (fun _ => .ok h₂) fun _ => .ite (fun _ => .ok h₂) fun _ => .ok h₂

theorem exfatReadFile_pipes (fs : Fs) (h : PipesKept m m₁) (kp t : ℕ) (dst : U64) (sz : ℕ) (f : FileDesc) :
    Post (exfatReadFile fs m₁ kp t dst sz f) fun r => PipesKept m r.2 := by
  unfold exfatReadFile
  refine .bind (diskRead_pipes h _ _) fun m₂ h₂ => ?_
  exact .bind (kstores_pipes h₂ _ _ _) fun m₃ h₃ => .ok h₃

theorem exfatReadDir_pipes (fs : Fs) (h : PipesKept m m₁) (kp t : ℕ) (dst : U64) (f : FileDesc) :
    Post (exfatReadDir fs m₁ kp t dst f) fun r => PipesKept m r.2 := by
  unfold exfatReadDir
  refine .bind (diskRead_pipes h _ _) fun m₂ h₂ => ?_
  exact .bind (.foldlM (fun m₃ s h₃ => kstore_pipes h₃ _ _ _) h₂) fun m₃ h₃ => .ok h₃

theorem loadPage_pipes (h : PipesKept m m₁) (t va : ℕ) :
    Post (loadPage m₁ t va) fun r => PipesKept m r.2 := by
  unfold loadPage
  refine .bind (walkPgtbl_pipes h _ _ _) fun r hr => ?_
  obtain ⟨w,m₂⟩ := r
  cases w with
  | slot t i => exact .bind (getPage_pipes hr true) fun s hs => .ok (hs.setEntry ..)
  | efault => exact .bind (freePgtbl_pipes hr _ _) fun m₃ h₃ => .ok h₃
  | enomem => exact .bind (freePgtbl_pipes hr _ _) fun m₃ h₃ => .ok h₃

theorem loadBytes_pipes (img : Img) (t fileend n : ℕ) (h : PipesKept m m₁) (pte : Option (ℕ × ℕ))
    (src va : ℕ) : Post (loadBytes img t fileend n m₁ pte src va) fun r => PipesKept m r.2 := by
  induction n generalizing m₁ pte src va with
  | zero => exact .ok h
  | succ n ih =>
    rw [loadBytes]
    have hslot : Post (loadSlot m₁ t pte va) fun r => PipesKept m r.2 :=
      .ite (fun _ => loadPage_pipes h _ _) fun _ => .ok h
    refine .bind hslot fun r hr => ?_
    obtain ⟨s,m₂⟩ := r
    cases s with
    | none => exact .ok hr
    | some ti =>
      have hbyte : ∀ pa, Post (loadByte img m₂ fileend src pa) (PipesKept m) := fun pa =>
        .ite (fun _ => .seq fun b => .ok (hr.setByte ..)) fun _ => .ok hr
      exact .bind (hbyte _) fun m₃ h₃ => ih h₃ _ _ _

theorem loadSegs_pipes (img : Img) (base t n : ℕ) (h : PipesKept m m₁) (a e : ℕ) :
    Post (loadSegs img base t n a m₁ e) fun r => PipesKept m r.2.2 := by
  induction n generalizing m₁ a e with
  | zero => exact .ok h
  | succ n ih =>
    rw [loadSegs]
    refine .seq fun ph => .ite (fun _ => ih h _ _) fun _ => ?_
    refine .bind (loadBytes_pipes img t _ _ h none _ _) fun r hr => ?_
    obtain ⟨ok,m₂⟩ := r
    cases ok with
    | false => exact .ok hr
    | true => exact ih hr _ _

theorem loadImg_pipes (img : Img) (base : ℕ) (h : PipesKept m m₁) (p : Proc) :
    Post (loadImg img base m₁ p) fun r => PipesKept m r.2.2 := by
  unfold loadImg
  refine .seq fun magic => .ite (fun _ => .ok h) fun _ => .seq fun phoff => .seq fun phnum => ?_
  refine .bind (loadSegs_pipes img base _ _ h _ _) fun r hr => ?_
  obtain ⟨ok,e,m₂⟩ := r
  cases ok with
  | false => exact .ok hr
  | true => exact .ok hr

theorem mapFresh_pipes (h : PipesKept m m₁) (t va : ℕ) :
    Post (mapFresh m₁ t va) fun r => PipesKept m r.2 := by
  unfold mapFresh
  refine .bind (walkPgtbl_pipes h _ _ _) fun r hr => ?_
  obtain ⟨w,m₂⟩ := r
  cases w with
  | slot t i =>
    exact .ite (fun _ => .error _) fun _ => .bind (getPage_pipes hr true) fun s hs => .ok (hs.setEntry ..)
  | efault => exact .ok hr
  | enomem => exact .ok hr

theorem buildSpace_pipes (h : PipesKept m m₁) (kp : ℕ) (p : Proc) (args : List UInt8) :
    Post (buildSpace m₁ kp p args) fun r => PipesKept m r.2 := by
  unfold buildSpace
  refine .bind (mapFresh_pipes h _ _) fun r hr => ?_
  obtain ⟨pg,m₂⟩ := r
  cases pg with
  | none => exact .ok hr
  | some pg =>
    refine .bind (mapFresh_pipes (hr.setBytes ..) _ _) fun s hs => ?_
    obtain ⟨pg',m₃⟩ := s
    cases pg' with
    | none => exact .ok hs
    | some pg' =>
      exact .bind (copyPgtbl_pipes (copyKernelHalf_pipes (hs.setBytes ..) _ _) _ _ _) fun m₄ h₄ => .ok h₄

theorem mapImg_pipes (h : PipesKept m m₁) (kp n : ℕ) :
    Post (mapImg kp m₁ n) fun r => PipesKept m r.2 := by
  unfold mapImg
  refine .foldlM (I := fun r : List ℕ × Phys => PipesKept m r.2) (fun st i hst => ?_) h
  unfold mapImgPage
  refine .bind (walkPgtbl_pipes hst _ _ _) fun r hr => ?_
  obtain ⟨w,m₂⟩ := r
  cases w with
  | slot t j =>
    exact .ite (fun _ => .error _) fun _ => .bind (getPage_pipes hr true) fun s hs => .ok (hs.setEntry ..)
  | efault => exact .error _
  | enomem => exact .error _

theorem unmapImg_pipes (h : PipesKept m m₁) (kp n : ℕ) : Post (unmapImg kp m₁ n) (PipesKept m) := by
  unfold unmapImg
  refine .foldlM (fun m₂ i h₂ => ?_) h
  unfold unmapImgPage
  refine .bind (walkPgtbl_pipes h₂ _ _ _) fun r hr => ?_
  obtain ⟨w,m₃⟩ := r
  cases w with
  | slot t j => exact .bind (freePage_pipes hr _) fun m₄ h₄ => .ok (h₄.setEntry ..)
  | efault => exact .error _
  | enomem => exact .error _

theorem readImg_pipes (fs : Fs) (h : PipesKept m m₁) (kp : ℕ) (frames : List ℕ) (f : FileDesc) :
    Post (readImg fs m₁ kp frames f) (PipesKept m) := by
  unfold readImg
  refine .bind (diskRead_pipes h _ _) fun m₂ h₂ => .foldlM (fun m₃ i h₃ => ?_) h₂
  split
  · exact .ok (h₃.setByte ..)
  · exact .error _

end Ukern
