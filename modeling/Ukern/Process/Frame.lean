import Ukern.Memory.Frame

/-! # What the functions of the kernel leave alone

Every function of the kernel is made of a few kinds of updates, listed once in
`Updated`; what a trap leaves alone is read off them. No function but `sched` changes
`curproc`, and only the keyboard interrupt and a read of the keyboard touch its ring.
Of a process that is neither running nor new, the saved registers other than `rax` stay
as they are until the slot is cleared, and `rax` only gets a size or a pid. None of this
rests on the invariants of the kernel: it holds in every state.
-/
namespace Ukern
open Lib
variable {X : Slot → Prop} {k k₁ k₂ k' : Kernel} {c i j n : Slot} {tf : Context} {o : Outcome} {fs : Fs}

/-- The same process with its registers, `rax` apart; or no process any more. -/
def Own (p p' : Proc) : Prop :=
  p'.pid = p.pid ∧ p'.context = { p.context with rax := p'.context.rax } ∨ p'.pid = 0

theorem Own.refl (p : Proc) : Own p p := .inl ⟨rfl,rfl⟩

theorem Own.trans {p p' p'' : Proc} (h : Own p p') (h' : Own p' p'') : Own p p'' := by
  rcases h' with ⟨hpid',hctx'⟩ | h'
  · rcases h with ⟨hpid,hctx⟩ | h
    · refine .inl ⟨hpid'.trans hpid,?_⟩
      rw [hctx', hctx]
    · exact .inr (hpid'.trans h)
  · exact .inr h'

/-- From `k` to `k'` the current process stays and, outside `X`, the registers. -/
structure Frame (X : Slot → Prop) (k k' : Kernel) : Prop where
  cur : k'.curproc = k.curproc
  procs : ∀ j, ¬ X j → Own (k.procs j) (k'.procs j)

/-- Also the keyboard ring stays, and nobody comes to wait for a key. -/
structure Calm (X : Slot → Prop) (k k' : Kernel) : Prop extends Frame X k k' where
  buf : k'.kbdBuffer = k.kbdBuffer
  beg : k'.kbdBufBeg = k.kbdBufBeg
  siz : k'.kbdBufSiz = k.kbdBufSiz
  kbd : k'.kbdProc = k.kbdProc ∨ k'.kbdProc = none

theorem Frame.refl (k : Kernel) : Frame X k k := ⟨rfl,fun _ _ => .refl _⟩

theorem Frame.trans (h : Frame X k k₁) (h' : Frame X k₁ k') : Frame X k k' :=
  ⟨h'.cur.trans h.cur,fun j hj => (h.procs j hj).trans (h'.procs j hj)⟩

namespace Calm

theorem refl (k : Kernel) : Calm X k k := ⟨.refl k,rfl,rfl,rfl,.inl rfl⟩

theorem trans (h : Calm X k k₁) (h' : Calm X k₁ k') : Calm X k k' where
  toFrame := h.toFrame.trans h'.toFrame
  buf := h'.buf.trans h.buf
  beg := h'.beg.trans h.beg
  siz := h'.siz.trans h.siz
  kbd := by
    rcases h'.kbd with h1 | h1
    · rw [h1]
      exact h.kbd
    · exact .inr h1

theorem of_procs {procs : Slot → Proc} {m : Phys} {g : ℕ} {a : ℕ → UInt8} {q : Option Slot}
    (hq : q = k.kbdProc ∨ q = none) (h : ∀ j, ¬ X j → Own (k.procs j) (procs j)) :
    Calm X k { k with procs := procs, phys := m, gPid := g, argvBuf := a, kbdProc := q } :=
  ⟨⟨rfl,h⟩,rfl,rfl,rfl,hq⟩

theorem setProc (h : Calm X k k₁) {p : Proc} (hp : X i ∨ Own (k₁.procs i) p) :
    Calm X k (k₁.setProc i p) := by
  refine h.trans (of_procs (.inl rfl) fun j hj => ?_)
  by_cases hji : j = i
  · subst hji
    rw [Function.update_self]
    exact hp.resolve_left hj
  · rw [Function.update_of_ne hji]
    exact .refl _

end Calm

/-- What a sleeper may find in `rax`: a size. -/
def Size (v : U64) : Prop := ∃ n < 2^32, v = BitVec.ofNat 64 n

/-- From `k` to `k'` by the updates that the functions of the kernel are made of. In the
slots of `X` the registers are free. -/
inductive Updated (X : Slot → Prop) (k : Kernel) : Kernel → Prop
  | refl : Updated X k k
  | alloc {i : Slot} {a b : ℕ} {m : Phys} (hi : k.closedSlot = some i) (hX : X i)
      (hm : k.phys.Typed → m.Typed) : Updated X k (k.allot i a b m)
  | setPhys {k₁ : Kernel} {m : Phys} (h : Updated X k k₁) (hm : k₁.phys.Typed → m.Typed) :
      Updated X k (k₁.setPhys m)
  | modProc {k₁ : Kernel} (h : Updated X k k₁) (i : Slot) {f : Proc → Proc}
      (hf : ∀ p, (f p).pid = p.pid ∧ (f p).context = p.context) : Updated X k (k₁.modProc i f)
  | modOwn {k₁ : Kernel} {i : Slot} (h : Updated X k k₁) (hX : X i) {f : Proc → Proc}
      (hf : ∀ p, (f p).pid = p.pid) : Updated X k (k₁.modProc i f)
  | wake {k₁ : Kernel} (h : Updated X k k₁) (i : Slot) {v : U64}
      (hv : k.phys.Typed → Size v ∨ ∃ j, v = BitVec.ofNat 64 (k₁.procs j).pid) : Updated X k (k₁.wake i v)
  | clear {k₁ : Kernel} (h : Updated X k k₁) (i : Slot) : Updated X k (k₁.setProc i .zero)
  | forget {k₁ : Kernel} (h : Updated X k k₁) : Updated X k { k₁ with kbdProc := none }
  | args {k₁ : Kernel} (h : Updated X k k₁) (a : ℕ → UInt8) : Updated X k { k₁ with argvBuf := a }

namespace Updated

theorem calm (h : Updated X k k') : Calm X k k' := by
  induction h with
  | refl => exact .refl k
  | alloc hi hX hm =>
    rename_i m
    have hg : Calm X k { k with phys := m, gPid := (k.gPid + 1) % 2^64 } :=
      .of_procs (.inl rfl) fun _ _ => .refl _
    exact hg.setProc (.inl hX)
  | setPhys h hm ih => exact ih.trans (.of_procs (.inl rfl) fun _ _ => .refl _)
  | modProc h i hf ih =>
    refine ih.setProc (.inr (.inl ⟨(hf _).1,?_⟩))
    rw [(hf _).2]
  | modOwn h hX hf ih => exact ih.setProc (.inl hX)
  | wake h i hv ih => exact ih.setProc (.inr (.inl ⟨rfl,rfl⟩))
  | clear h i ih => exact ih.setProc (.inr (.inr rfl))
  | forget h ih => exact ih.trans (.of_procs (.inr rfl) fun _ _ => .refl _)
  | args h a ih => exact ih.trans (.of_procs (.inl rfl) fun _ _ => .refl _)

theorem typed (h : Updated X k k') (ht : k.phys.Typed) : k'.phys.Typed := by
  induction h with
  | refl => exact ht
  | alloc hi hX hm => exact hm ht
  | setPhys h hm ih => exact hm ih
  | modProc h i hf ih => exact ih
  | modOwn h hX hf ih => exact ih
  | wake h i hv ih => exact ih
  | clear h i ih => exact ih
  | forget h ih => exact ih
  | args h a ih => exact ih

/-- A pid that occurs in `k`, that the next fork gives out, or that says there is no process. -/
def Pid (k : Kernel) (n : ℕ) : Prop := n = 0 ∨ n = (k.gPid + 1) % 2^64 ∨ ∃ i, n = (k.procs i).pid

theorem pid_setProc {k₁ : Kernel} {p : Proc} (ih : ∀ j, Pid k (k₁.procs j).pid) (hp : Pid k p.pid) (j : Slot) :
    Pid k ((k₁.setProc i p).procs j).pid := by
  by_cases hji : j = i
  · subst hji
    have heq : (k₁.setProc j p).procs j = p := Function.update_self ..
    rw [heq]
    exact hp
  · have heq : (k₁.setProc i p).procs j = k₁.procs j := Function.update_of_ne hji ..
    rw [heq]
    exact ih j

theorem pid (h : Updated X k k') (j : Slot) : Pid k (k'.procs j).pid := by
  induction h generalizing j with
  | refl => exact .inr (.inr ⟨j,rfl⟩)
  | alloc hi hX hm => exact pid_setProc (fun j => .inr (.inr ⟨j,rfl⟩)) (.inr (.inl rfl)) j
  | setPhys h hm ih => exact ih j
  | modProc h i hf ih =>
    refine pid_setProc ih ?_ j
    rw [(hf _).1]
    exact ih i
  | modOwn h hX hf ih =>
    refine pid_setProc ih ?_ j
    rw [hf]
    exact ih _
  | wake h i hv ih =>
    refine pid_setProc ih ?_ j
    exact ih i
  | clear h i ih => exact pid_setProc ih (.inl rfl) j
  | forget h ih => exact ih j
  | args h a ih => exact ih j

/-- A value that a sleeper gets. -/
def Wakes (k : Kernel) (v : U64) : Prop := Size v ∨ ∃ n, Pid k n ∧ v = BitVec.ofNat 64 n

theorem rax (h : Updated X k k') (ht : k.phys.Typed) (j : Slot) (hj : ¬ X j) :
    (k'.procs j).context.rax = (k.procs j).context.rax ∨ Wakes k (k'.procs j).context.rax := by
  have hset : ∀ {k₁ : Kernel} {i : Slot} {p : Proc},
      ((k₁.procs j).context.rax = (k.procs j).context.rax ∨ Wakes k (k₁.procs j).context.rax) →
      (j = i → p.context.rax = (k₁.procs j).context.rax ∨ Wakes k p.context.rax) →
      (((k₁.setProc i p).procs j).context.rax = (k.procs j).context.rax ∨
        Wakes k ((k₁.setProc i p).procs j).context.rax) := by
    intro k₁ i p ih hp
    by_cases hji : j = i
    · have heq : (k₁.setProc i p).procs j = p := by
        rw [hji]
        exact Function.update_self ..
      rw [heq]
      rcases hp hji with hp | hp
      · rw [hp]
        exact ih
      · exact .inr hp
    · have heq : (k₁.setProc i p).procs j = k₁.procs j := Function.update_of_ne hji ..
      rw [heq]
      exact ih
  induction h with
  | refl => exact .inl rfl
  | alloc hi hX hm => exact hset (.inl rfl) fun hji => absurd (hji ▸ hX) hj
  | setPhys h hm ih => exact ih
  | modProc h i hf ih =>
    refine hset ih fun hji => .inl ?_
    rw [(hf _).2, hji]
  | modOwn h hX hf ih => exact hset ih fun hji => absurd (hji ▸ hX) hj
  | wake h i hv ih =>
    refine hset ih fun hji => .inr ?_
    rcases hv ht with hv | ⟨j,hv⟩
    · exact .inl hv
    · exact .inr ⟨_,h.pid j,hv⟩
  | clear h i ih => exact hset ih fun _ => .inr (.inl ⟨0,by decide,rfl⟩)
  | forget h ih => exact ih
  | args h a ih => exact ih

theorem setMem {m : Phys} (h : Updated X k k₁) (hm : PipesKept k₁.phys m) : Updated X k (k₁.setPhys m) :=
  h.setPhys hm.typed

theorem setPipe (h : Updated X k k₁) (pg : ℕ) {q : Pipe} (hq : (k₁.pipe pg).Typed → q.Typed) :
    Updated X k (k₁.setPipe pg q) := h.setPhys fun ht => ht.setPipe pg (hq (ht pg))

theorem setFdesc (h : Updated X k k₁) (i : Slot) (fd : ℕ) (f : FileDesc) :
    Updated X k (k₁.setFdesc i fd f) := h.modProc i fun _ => ⟨rfl,rfl⟩

theorem modPtr (h : Updated X k k₁) (i : Option Slot) {f : Proc → Proc}
    (hf : ∀ p, (f p).pid = p.pid ∧ (f p).context = p.context) : Updated X k (k₁.modPtr i f) := by
  cases i with
  | none => exact h
  | some i => exact h.modProc i hf

theorem wakeZero (h : Updated X k k₁) (i : Slot) : Updated X k (k₁.wake i 0) :=
  h.wake i fun _ => .inl ⟨0,by decide,rfl⟩

end Updated

/-! ## Exit -/

theorem releasePipe_updated (h : Updated X k k₁) (pg : ℕ) : Post (releasePipe k₁ pg) (Updated X k) :=
  .ite (fun _ => .bind (freePage_pipes (.refl _) pg) fun _ hm => .ok (h.setMem hm)) fun _ => .ok h

theorem dropFdesc_updated (h : Updated X k k₁) (f : FileDesc) : Post (dropFdesc k₁ f) (Updated X k) := by
  have hset : ∀ r w, Updated X k (k₁.setPipe f.pipe { k₁.pipe f.pipe with rref := r, wref := w }) :=
    fun r w => h.setPipe _ fun hq => ⟨hq.len,hq.rsiz,hq.wsiz⟩
  unfold dropFdesc
  dsimp only
  split
  · exact releasePipe_updated (hset _ _) _
  · refine releasePipe_updated ?_ _
    split
    · split
      · exact (hset _ _).wakeZero _
      · exact hset _ _
    · exact hset _ _
  · exact .ok h

theorem clearProc_updated (h : Updated X k k₁) (i : Slot) : Post (clearProc k₁ i) (Updated X k) := by
  unfold clearProc
  have hpend : Updated X k (k₁.modProc i fun p => { p with state := .pending }) :=
    h.modProc i fun _ => ⟨rfl,rfl⟩
  refine .bind (freePgtbl_pipes (.refl _) _ _) fun m hm => .bind (freePgtbl_pipes hm _ _) fun m' hm' => ?_
  refine .bind (.foldlM (I := Updated X k) (fun k₂ fd h₂ => ?_) ?_) fun k₂ h₂ => .ok (h₂.clear i)
  · exact .ite (fun _ => dropFdesc_updated h₂ _) fun _ => .ok h₂
  · split
    · exact (hpend.setMem hm').forget
    · exact hpend.setMem hm'

theorem orphan_updated (h : Updated X k k₁) (n : ℕ) (c : Option Slot) :
    Post (orphan n k₁ c) (Updated X k) := by
  induction n generalizing k₁ c with
  | zero =>
    cases c with
    | none => exact .ok h
    | some c => exact .error _
  | succ n ih =>
    cases c with
    | none => exact .ok h
    | some c =>
      rw [orphan]
      refine ih ?_ _
      exact .modProc h c fun _ => ⟨rfl,rfl⟩

theorem reap_updated (h : Updated X k k₁) (n : ℕ) (c : Option Slot) : Post (reap n k₁ c) (Updated X k) := by
  induction n generalizing k₁ c with
  | zero =>
    cases c with
    | none => exact .ok h
    | some c => exact .error _
  | succ n ih =>
    cases c with
    | none => exact .ok h
    | some c => exact .bind (clearProc_updated h c) fun k₂ h₂ => ih h₂ _

theorem becomeZombie_updated (h : Updated X k k₁) (i pa : Slot) (v : U64) :
    Updated X k (becomeZombie k₁ i pa v) := by
  unfold becomeZombie
  dsimp only
  refine .modProc ?_ i fun _ => ⟨rfl,rfl⟩
  split
  · refine .modProc (.modProc h pa fun _ => ?_) i fun _ => ?_
    · exact ⟨rfl,rfl⟩
    · exact ⟨rfl,rfl⟩
  · rename_i ohead _
    refine .modProc (.modProc (.modProc h ohead fun _ => ?_) i fun _ => ?_) pa fun _ => ?_
    · exact ⟨rfl,rfl⟩
    · exact ⟨rfl,rfl⟩
    · exact ⟨rfl,rfl⟩

theorem detach_updated (h : Updated X k k₁) (i pa : Slot) : Updated X k (detach k₁ i pa) := by
  unfold detach
  extract_lets k₂ k₃ k₄
  have h₂ : Updated X k k₂ := h.modPtr _ fun _ => ⟨rfl,rfl⟩
  have h₃ : Updated X k k₃ := h₂.modPtr _ fun _ => ⟨rfl,rfl⟩
  have h₄ : Updated X k k₄ := by
    unfold k₄
    split
    · exact h₃.modProc pa fun _ => ⟨rfl,rfl⟩
    · exact h₃
  split
  · exact h₄.modProc pa fun _ => ⟨rfl,rfl⟩
  · exact h₄

theorem reportExit_updated (h : Updated X k k₁) (i pa : Slot) (v : U64) :
    Post (reportExit k₁ i pa v) (Updated X k) := by
  have hw : Updated X k (k₁.modProc pa fun p => { p with waiting := false }) :=
    h.modProc pa fun _ => ⟨rfl,rfl⟩
  have hstore : Post (storeStatus (k₁.modProc pa fun p => { p with waiting := false }) pa v) (Updated X k) :=
    .ite (fun _ => .bind (u2k_pipes (.refl _) _ _ _) fun _ hr => .ok (hw.setMem (hr.setBytes _ _)))
      fun _ => .ok hw
  exact .bind hstore fun k₂ h₂ => .ok (h₂.wake pa fun _ => .inr ⟨i,rfl⟩)

theorem exitAsChild_updated (h : Updated X k k₁) (i : Slot) (v : U64) :
    Post (exitAsChild k₁ i v) (Updated X k) := by
  unfold exitAsChild
  split
  · exact clearProc_updated h i
  · rename_i pa _
    refine .ite (fun _ => .ok (becomeZombie_updated h i pa v)) fun _ => ?_
    exact .bind (reportExit_updated h i pa v) fun k₂ h₂ => clearProc_updated (detach_updated h₂ i pa) i

theorem killProc_updated (h : Updated X k k₁) (i : Slot) (v : U64) : Post (killProc k₁ i v) (Updated X k) := by
  have hv : Updated X k (k₁.modProc i fun p => { p with exitVal := v }) := h.modProc i fun _ => ⟨rfl,rfl⟩
  have hparent : Post (exitAsParent (k₁.modProc i fun p => { p with exitVal := v }) i) (Updated X k) :=
    .bind (orphan_updated hv _ _) fun k₂ h₂ => reap_updated h₂ _ _
  exact .bind hparent fun k₂ h₂ => exitAsChild_updated h₂ i v

/-! ## Fork, exec and pipes -/

theorem allocProc_updated (hX : ∀ n, k.closedSlot = some n → X n) :
    Post (allocProc k) fun r => Updated X k r.2 ∧ ∀ n, r.1 = some n → X n := by
  unfold allocProc
  split
  · exact .ok ⟨.refl,nofun⟩
  · rename_i i hi
    refine .bind (getPage_pipes (.refl _) _) fun r hr => .bind (getPage_pipes hr _) fun r' hr' => .ok ⟨?_,?_⟩
    · exact .alloc hi (hX i hi) hr'.typed
    · intro n hn
      cases hn
      exact hX i hi

theorem addChild_updated (h : Updated X k k₁) (n c : Slot) : Updated X k (addChild k₁ n c) := by
  unfold addChild
  dsimp only
  refine .modProc ?_ n fun _ => ⟨rfl,rfl⟩
  split
  · refine .modProc (.modProc h c fun _ => ?_) n fun _ => ?_
    · exact ⟨rfl,rfl⟩
    · exact ⟨rfl,rfl⟩
  · rename_i ohead _
    refine .modProc (.modProc (.modProc h ohead fun _ => ?_) n fun _ => ?_) c fun _ => ?_
    · exact ⟨rfl,rfl⟩
    · exact ⟨rfl,rfl⟩
    · exact ⟨rfl,rfl⟩

theorem forkFdesc_updated (h : Updated X k k₁) (n c : Slot) (fd : ℕ) :
    Updated X k (forkFdesc n c k₁ fd) := by
  have hset := h.setFdesc n fd ((k₁.procs c).fdesc fd)
  unfold forkFdesc
  dsimp only
  split
  · exact hset
  · split
    · exact hset.setPipe _ fun hq => ⟨hq.len,hq.rsiz,hq.wsiz⟩
    · exact hset.setPipe _ fun hq => ⟨hq.len,hq.rsiz,hq.wsiz⟩
    · exact hset

theorem saveArg_updated (h : Updated X k k₁) (t : ℕ) (src : U64) (i n j : ℕ) :
    Post (saveArg k₁ t src i n j) (Updated X k) := by
  have hput : ∀ {k₂ : Kernel} (a : ℕ) (b : UInt8), Updated X k k₂ → Post (saveArg.put k₂ a b) (Updated X k) :=
    fun a b h₂ => .ite (fun _ => .ok (h₂.args _)) fun _ => .error _
  induction n generalizing k₁ j with
  | zero => exact hput _ _ h
  | succ n ih =>
    rw [saveArg]
    refine .seq fun b => .ite (fun _ => hput _ _ h) fun _ => ?_
    exact .bind (hput _ _ h) fun k₂ h₂ => ih h₂ _

theorem saveArgs_updated (h : Updated X k k₁) (c : Slot) (argv : U64) (n i : ℕ) :
    Post (saveArgs k₁ c argv n i) fun r => Updated X k r.2 := by
  induction n generalizing k₁ i with
  | zero => exact .ok h
  | succ n ih =>
    rw [saveArgs]
    refine .seq fun bs => .seq fun b => .ite (fun _ => .ok h) fun _ => ?_
    exact .bind (saveArg_updated h _ _ _ _ _) fun k₂ h₂ => ih h₂ _

theorem execLoad_updated (hX : X c) (h : Updated X k k₁) (img : Img) (tf : Context) :
    Post (execLoad img k₁ c tf) (Updated X k) := by
  unfold execLoad
  have hpend : Updated X k (k₁.modProc c fun p => { p with state := .pending }) :=
    h.modProc c fun _ => ⟨rfl,rfl⟩
  refine .bind (freePgtbl_pipes (.refl _) _ _) fun m₁ h₁ => .bind (freePgtbl_pipes h₁ _ _) fun m₂ h₂ => ?_
  refine .bind (getPage_pipes h₂ _) fun a ha => .bind (getPage_pipes ha _) fun b hb => ?_
  have htabs : Updated X k (((k₁.modProc c fun p => { p with state := .pending }).setPhys b.2).modProc c
      fun p => { p with pgtbl := a.1, pPgtbl := b.1 }) := (hpend.setMem hb).modProc c fun _ => ⟨rfl,rfl⟩
  refine .bind (loadImg_pipes img execImg (.refl _) _) fun r hr => ?_
  have hload := (htabs.setMem hr).modProc c (f := fun p => { p with endUmem := r.2.1 }) fun _ => ⟨rfl,rfl⟩
  refine .ite (fun _ => killProc_updated hload c _) fun _ => ?_
  refine .bind (buildSpace_pipes (.refl _) _ _ _) fun s hs => ?_
  obtain ⟨ok,m⟩ := s
  cases ok with
  | false => exact killProc_updated (hload.setMem hs) c _
  | true => exact .seq fun entry => .ok ((hload.setMem hs).modOwn hX fun _ => rfl)

theorem taken_typed {q : Pipe} (h : q.Typed) (n : ℕ) : (q.taken n).Typed :=
  ⟨Nat.mod_lt _ (by decide),Nat.two_pow_pos 32,h.wsiz⟩

theorem given_typed {q : Pipe} (h : q.Typed) (n : ℕ) : (q.given n).Typed := by
  have hlen : (q.len + n) % 2^32 < 2^32 := Nat.mod_lt _ (by decide)
  unfold Pipe.given
  dsimp only
  split
  · exact ⟨hlen,h.rsiz,Nat.two_pow_pos 32⟩
  · exact ⟨hlen,h.rsiz,h.wsiz⟩

theorem pipeReadCopy_updated (h : Updated X k k₁) (pg : ℕ) (r : Slot) (n : ℕ) :
    Post (pipeReadCopy k₁ pg r n) (Updated X k) := by
  unfold pipeReadCopy
  refine .bind (u2k_pipes (.refl _) _ _ _) fun s hs => .bind (pipeReadLoop_pipes _ _ _ _ _ hs _ _ _ _) fun m hm => ?_
  exact .ok ((h.setMem hm).setPipe pg fun hq => taken_typed hq n)

theorem pipeWriteCopy_updated (h : Updated X k k₁) (pg : ℕ) (w : Slot) (n : ℕ) :
    Post (pipeWriteCopy k₁ pg w n) (Updated X k) := by
  unfold pipeWriteCopy
  refine .bind (u2k_pipes (.refl _) _ _ _) fun s hs => ?_
  intro k₂ hk₂
  obtain ⟨m,hm,hk₂⟩ := bind_eq_ok.mp hk₂
  cases hk₂
  have htyped : k₁.phys.Typed → m.Typed := fun ht =>
    pipeWriteLoop_typed pg _ _ _ _ (hs.typed ht) _ _ _ _ m hm
  exact (h.setPhys htyped).setPipe pg fun hq => given_typed hq n

theorem readSize_lt {q : Pipe} (h : q.Typed) : q.readSize < 2^32 := (min_le_left _ _).trans_lt h.len

theorem pipe_updated (depth : ℕ) : ∀ {k₁ : Kernel}, Updated X k k₁ → ∀ (pg : ℕ) (invoke : Bool),
    Post (pipeRead depth k₁ pg invoke) (fun r => Updated X k r.2) ∧
      Post (pipeWrite depth k₁ pg invoke) fun r => Updated X k r.2 := by
  induction depth with
  | zero =>
    intro k₁ h pg invoke
    rw [pipeRead, pipeWrite]
    exact ⟨.error _,.error _⟩
  | succ depth ih =>
    intro k₁ h pg invoke
    have htyped : k.phys.Typed → (k₁.pipe pg).Typed := fun ht => h.typed ht pg
    rw [pipeRead, pipeWrite]
    refine ⟨.ite (fun _ => .ok h) fun _ => ?_,.ite (fun _ => .ok h) fun _ => ?_⟩
    · split
      · exact .error _
      · refine .bind (pipeReadCopy_updated h pg _ _) fun k₂ h₂ => ?_
        have hw : ∀ r, Updated X k
            (if invoke = true then k₂.wake r (BitVec.ofNat 64 (k₁.pipe pg).readSize) else k₂) := by
          intro r
          split
          · exact h₂.wake r fun ht => .inl ⟨_,readSize_lt (htyped ht),rfl⟩
          · exact h₂
        exact .ite (fun _ => .bind (ih (hw _) pg true).2 fun r hr => .ok hr) fun _ => .ok (hw _)
    · split
      · exact .error _
      · rename_i w _
        refine .bind (pipeWriteCopy_updated h pg w _) fun k₂ h₂ => ?_
        have hw : ∀ (p : Prop) [Decidable p],
            Updated X k (if p then k₂.wake w (BitVec.ofNat 64 (k₁.pipe pg).wsiz) else k₂) := by
          intro p _
          split
          · exact h₂.wake w fun ht => .inl ⟨_,(htyped ht).wsiz,rfl⟩
          · exact h₂
        exact .ite (fun _ => .bind (ih (hw _) pg true).1 fun r hr => .ok hr) fun _ => .ok (hw _)

/-! ## Calls -/

/-- A trap either returns to the interrupted context, in a state that satisfies `T`, or
it calls `sched` in a state that satisfies `B`. -/
inductive Exits (T : Context → Kernel → Prop) (B : Kernel → Prop) : Outcome → Prop
  | ret {tf : Context} {k : Kernel} (h : T tf k) : Exits T B (.ret tf k)
  | run {k₁ k : Kernel} (h : B k₁) (hs : sched k₁ = .ok k) : Exits T B (.run k)

theorem Exits.mono {T T' : Context → Kernel → Prop} {B B' : Kernel → Prop} (h : Exits T B o)
    (hT : ∀ tf k, T tf k → T' tf k) (hB : ∀ k, B k → B' k) : Exits T' B' o := by
  cases h with
  | ret h => exact .ret (hT _ _ h)
  | run h hs => exact .run (hB _ h) hs

theorem sched_exits {T : Context → Kernel → Prop} {B : Kernel → Prop} (h : B k) :
    Post k.sched (Exits T B) := by
  intro o ho
  obtain ⟨k',hs,ho⟩ := bind_eq_ok.mp ho
  cases ho
  exact .run h hs

theorem done_exits {T : Context → Kernel → Prop} {B : Kernel → Prop} {v : U64}
    (h : T { tf with rax := v } k) : Post (k.done tf v) (Exits T B) := .ok (.ret h)

/-- A call either answers in `rax` alone, or saves the frame it came with and blocks. -/
def Replies (X : Slot → Prop) (k : Kernel) (c : Slot) (tf : Context) : Outcome → Prop :=
  Exits (fun tf' k' => tf' = { tf with rax := tf'.rax } ∧ Updated X k k')
    fun k₁ => (k₁.procs c).context = tf ∧ Updated X k k₁

theorem Replies.done (h : Updated X k k₁) (c : Slot) (tf : Context) (v : U64) :
    Post (k₁.done tf v) (Replies X k c tf) := done_exits ⟨rfl,h⟩

theorem Replies.block (h : Updated X k k₁) (hX : X c) (tf : Context) :
    Post (k₁.block c tf).sched (Replies X k c tf) := by
  refine sched_exits ⟨?_,h.modOwn hX fun _ => rfl⟩
  rw [Kernel.block, Kernel.modProc, Kernel.setProc]
  dsimp only
  rw [Function.update_self]

theorem sysFork_replies (hX : ∀ n, k.closedSlot = some n → X n) (c : Slot) (tf : Context) :
    Post (sysFork k c tf) (Replies X k c tf) := by
  unfold sysFork
  refine .bind (allocProc_updated hX) fun r hr => ?_
  obtain ⟨n,k₁⟩ := r
  obtain ⟨h₁,hn⟩ := hr
  cases n with
  | none => exact .error _
  | some n =>
    refine .bind (forkTables_pipes (.refl _) _ _) fun m hm => ?_
    have hfds : Updated X k ((List.range nfdesc).foldl (forkFdesc n c) ((addChild k₁ n c).setPhys m)) :=
      foldl_inv (I := Updated X k) (fun k₂ fd h₂ => forkFdesc_updated h₂ n c fd)
        ((addChild_updated h₁ n c).setMem hm)
    refine Replies.done ?_ c tf _
    exact .modOwn hfds (hn n rfl) fun _ => rfl

theorem sysOpenAs_replies (opendir : Bool) (fs : Fs) (k : Kernel) (c : Slot) (tf : Context) :
    Post (sysOpenAs opendir fs k c tf) (Replies X k c tf) := by
  have h₀ : Updated X k k := .refl
  unfold sysOpenAs
  refine .seq fun b => .ite (fun _ => Replies.done h₀ c tf _) fun _ => .seq fun fd => ?_
  refine .bind (exfatOpen_pipes fs (.refl _) _ _ _ _ _) fun r hr => .ite (fun _ => ?_) fun _ => ?_
  · exact Replies.done ((h₀.setMem hr).setFdesc ..) c tf _
  · exact Replies.done ((h₀.setMem hr).setFdesc ..) c tf _

theorem readReg_replies (fs : Fs) (k : Kernel) (c : Slot) (fd : ℕ) (tf : Context) :
    Post (readReg fs k c fd tf) (Replies X k c tf) := by
  have h₀ : Updated X k k := .refl
  unfold readReg
  refine .bind (exfatReadFile_pipes fs (.refl _) _ _ _ _ _) fun r hr => ?_
  exact Replies.done ((h₀.setMem hr).setFdesc ..) c tf _

theorem readPipe_replies (hX : X c) (k : Kernel) (pg : ℕ) (tf : Context) :
    Post (readPipe k c pg tf) (Replies X k c tf) := by
  have h₀ : Updated X k k := .refl
  have hset : Updated X k (k.setPipe pg { k.pipe pg with
      reader := some c, rsiz := tf.rbx.toNat % 2^32, rbuf := tf.rcx.toNat }) :=
    h₀.setPipe pg fun hq => ⟨hq.len,Nat.mod_lt _ (by decide),hq.wsiz⟩
  unfold readPipe
  refine .ite (fun _ => Replies.done h₀ c tf _) fun _ => ?_
  refine .ite (fun _ => ?_) fun _ => .ite (fun _ => Replies.done hset c tf _) fun _ =>
    Replies.block hset hX tf
  exact .bind (pipe_updated 3 hset pg false).1 fun r hr => Replies.done hr c tf _

theorem writePipe_replies (hX : X c) (k : Kernel) (pg : ℕ) (tf : Context) :
    Post (writePipe k c pg tf) (Replies X k c tf) := by
  have h₀ : Updated X k k := .refl
  have hset : Updated X k (k.setPipe pg { k.pipe pg with
      writer := some c, wsiz := tf.rbx.toNat % 2^32, wptr := 0, wbuf := tf.rcx.toNat }) :=
    h₀.setPipe pg fun hq => ⟨hq.len,hq.rsiz,Nat.mod_lt _ (by decide)⟩
  unfold writePipe
  refine .ite (fun _ => Replies.done h₀ c tf _) fun _ => ?_
  refine .bind (pipe_updated 3 hset pg false).2 fun r hr => ?_
  exact .ite (fun _ => .error _) fun _ => .ite (fun _ => Replies.done hr c tf _) fun _ =>
    Replies.block hr hX tf

theorem sysReaddir_replies (fs : Fs) (k : Kernel) (c : Slot) (tf : Context) :
    Post (sysReaddir fs k c tf) (Replies X k c tf) := by
  have h₀ : Updated X k k := .refl
  unfold sysReaddir
  split
  · exact Replies.done h₀ c tf _
  · refine .seq fun b => .ite (fun _ => Replies.done h₀ c tf _) fun _ => ?_
    refine .ite (fun _ => Replies.done h₀ c tf _) fun _ => ?_
    refine .bind (exfatReadDir_pipes fs (.refl _) _ _ _ _) fun r hr => ?_
    exact Replies.done ((h₀.setMem hr).setFdesc ..) c tf _

theorem sysChdir_replies (fs : Fs) (k : Kernel) (c : Slot) (tf : Context) :
    Post (sysChdir fs k c tf) (Replies X k c tf) := by
  have h₀ : Updated X k k := .refl
  unfold sysChdir
  refine .seq fun b => .ite (fun _ => Replies.done h₀ c tf _) fun _ => ?_
  refine .bind (exfatOpen_pipes fs (.refl _) _ _ _ _ _) fun r hr => ?_
  refine .ite (fun _ => Replies.done (h₀.setMem hr) c tf _) fun _ => ?_
  refine Replies.done (.modProc (h₀.setMem hr) c fun _ => ?_) c tf _
  exact ⟨rfl,rfl⟩

theorem pipeEnd_updated (h : Updated X k k₁) (c : Slot) (pg fd : ℕ) (dst : U64) (ty : FileType) :
    Post (pipeEnd k₁ c pg fd dst ty) (Updated X k) := by
  unfold pipeEnd
  exact .bind (kstores_pipes (.refl _) _ _ _) fun m hm => .ok ((h.setMem hm).setFdesc ..)

theorem sysPipe_replies (k : Kernel) (c : Slot) (tf : Context) :
    Post (sysPipe k c tf) (Replies X k c tf) := by
  have h₀ : Updated X k k := .refl
  unfold sysPipe
  refine .seq fun b => .ite (fun _ => Replies.done h₀ c tf _) fun _ => ?_
  refine .bind (getPage_pipes (.refl _) _) fun pg hpg => .seq fun rfd => ?_
  have hset : Updated X k ((k.setPhys pg.2).setPipe pg.1 { pg.2.pipe pg.1 with rref := 1, wref := 1 }) :=
    (h₀.setMem hpg).setPipe _ fun hq => ⟨hq.len,hq.rsiz,hq.wsiz⟩
  refine .bind (pipeEnd_updated hset c _ _ _ _) fun k₁ h₁ => ?_
  refine .seq fun wfd => .bind (pipeEnd_updated h₁ c _ _ _ _) fun k₂ h₂ => ?_
  exact Replies.done h₂ c tf _

theorem sysClose_replies (k : Kernel) (c : Slot) (tf : Context) :
    Post (sysClose k c tf) (Replies X k c tf) := by
  have h₀ : Updated X k k := .refl
  unfold sysClose
  split
  · exact Replies.done h₀ c tf _
  · refine .ite (fun _ => Replies.done h₀ c tf _) fun _ => ?_
    refine .bind (dropFdesc_updated h₀ _) fun k₁ h₁ => .ite (fun _ => .error _) fun _ => ?_
    exact .ok (.ret ⟨rfl,h₁.setFdesc ..⟩)

theorem sysSbrk_replies (k : Kernel) (c : Slot) (tf : Context) :
    Post (sysSbrk k c tf) (Replies X k c tf) := by
  have h₀ : Updated X k k := .refl
  unfold sysSbrk
  refine .ite (fun _ => Replies.done h₀ c tf _) fun _ => ?_
  refine .bind (.foldlM (fun m i hm => sbrkPage_pipes hm _ _ i) (.refl _)) fun m hm => ?_
  refine Replies.done (.modProc (h₀.setMem hm) c fun _ => ?_) c tf _
  exact ⟨rfl,rfl⟩

theorem sysWait_replies (hX : X c) (k : Kernel) (tf : Context) :
    Post (sysWait k c tf) (Replies X k c tf) := by
  have h₀ : Updated X k k := .refl
  unfold sysWait
  refine .seq fun b => .ite (fun _ => Replies.done h₀ c tf _) fun _ => ?_
  split
  · rename_i ohead _
    unfold waitZombie
    refine .bind (waitStore_pipes (.refl _) _ _ _) fun m hm => ?_
    refine .bind (clearProc_updated (k := k) (X := X) ?_ ohead) fun k₁ h₁ => Replies.done h₁ c tf _
    refine .modPtr (.modProc (h₀.setMem hm) c fun _ => ?_) _ fun _ => ?_
    · exact ⟨rfl,rfl⟩
    · exact ⟨rfl,rfl⟩
  · refine .ite (fun _ => Replies.done h₀ c tf _) fun _ => Replies.block ?_ hX tf
    exact .modProc h₀ c fun _ => ⟨rfl,rfl⟩

/-! ## Traps -/

/-- A trap that returns or calls `sched` in a state that `R` relates to the first. -/
def Leaves (R : Kernel → Kernel → Prop) (k : Kernel) : Outcome → Prop := Exits (fun _ k' => R k k') (R k)

theorem Replies.leaves (h : Replies X k c tf o) : Leaves (Updated X) k o :=
  h.mono (fun _ _ h => h.2) fun _ h => h.2

theorem Leaves.calm (h : Leaves (Updated X) k o) : Leaves (Calm X) k o :=
  h.mono (fun _ _ h => h.calm) fun _ h => h.calm

theorem Leaves.frame (h : Leaves (Calm X) k o) : Leaves (Frame X) k o :=
  h.mono (fun _ _ h => h.toFrame) fun _ h => h.toFrame

theorem sysExec_leaves (hX : X c) (fs : Fs) (k : Kernel) (tf : Context) :
    Post (sysExec fs k c tf) (Leaves (Updated X) k) := by
  unfold sysExec
  have h₀ : Updated X k k := .refl
  refine .ite (fun _ => done_exits h₀) fun _ => .bind (saveArgs_updated h₀ c _ _ _) fun r h₁ => ?_
  obtain ⟨b,k₁⟩ := r
  cases b with
  | false => exact done_exits h₁
  | true =>
    refine .bind (exfatOpen_pipes fs (.refl _) _ _ _ _ _) fun r hr => ?_
    refine .ite (fun _ => done_exits (h₁.setMem hr)) fun _ => ?_
    refine .bind (mapImg_pipes (.refl _) _ _) fun fr hfr => .bind (readImg_pipes fs hfr _ _ _) fun m hm => ?_
    have hread := (h₁.setMem hr).setMem hm
    refine .seq fun magic => .ite (fun _ => ?_) fun _ => ?_
    · exact .bind (unmapImg_pipes (.refl _) _ _) fun m' hm' => done_exits (hread.setMem hm')
    · refine .bind (execLoad_updated hX hread _ tf) fun k₂ h₂ => ?_
      exact .bind (unmapImg_pipes (.refl _) _ _) fun m' hm' => sched_exits (h₂.setMem hm')

theorem sysRead_replies (hX : X c) (fs : Fs) (k : Kernel) (tf : Context)
    (hno : ∀ fd, fdOf tf.rdx = some fd → ((k.procs c).fdesc fd).fileType ≠ .kbd) :
    Post (sysRead fs k c tf) (Replies X k c tf) := by
  have h₀ : Updated X k k := .refl
  unfold sysRead
  split
  · exact Replies.done h₀ c tf _
  · rename_i fd hfd
    refine .ite (fun _ => Replies.done h₀ c tf _) fun _ => .seq fun b => ?_
    refine .ite (fun _ => Replies.done h₀ c tf _) fun _ => .ite (fun _ => Replies.done h₀ c tf _) fun _ => ?_
    split
    · rename_i hty
      exact absurd hty (hno fd hfd)
    · exact readReg_replies fs k c fd tf
    · exact readPipe_replies hX k _ tf
    · exact Replies.done h₀ c tf _

/-- A write of no bytes answers in `rbx`; any other one replies. -/
theorem sysWrite_exits (hX : X c) (k : Kernel) (tf : Context) :
    Post (sysWrite k c tf) fun o => Replies X k c tf o ∨
      tf.rbx = 0 ∧ (∃ fd, fdOf tf.rdx = some fd) ∧ o = .ret { tf with rbx := neg einval } k := by
  have h₀ : Updated X k k := .refl
  have hdone : ∀ v, Post (k.done tf v) fun o => Replies X k c tf o ∨
      tf.rbx = 0 ∧ (∃ fd, fdOf tf.rdx = some fd) ∧ o = .ret { tf with rbx := neg einval } k :=
    fun v => (Replies.done h₀ c tf v).mono fun _ => .inl
  unfold sysWrite
  split
  · exact hdone _
  · rename_i fd hfd
    refine .ite (fun hb => .ok (.inr ⟨hb,⟨fd,hfd⟩,rfl⟩)) fun _ => .seq fun b => ?_
    refine .ite (fun _ => hdone _) fun _ => .ite (fun _ => hdone _) fun _ => ?_
    split
    · exact .seq fun _ => hdone _
    · exact (writePipe_replies hX k _ tf).mono fun _ => .inl
    · exact hdone _

theorem kbdCopy_frame (t : ℕ) (dst : U64) (i : ℕ) (h : Frame X k k₁) :
    Post (kbdCopy t dst k₁ i) (Frame X k) := by
  unfold kbdCopy
  exact .seq fun m => .ok (h.trans ⟨rfl,fun _ _ => .refl _⟩)

theorem readKbd_leaves (hX : X c) (k : Kernel) (tf : Context) :
    Post (readKbd k c tf) (Leaves (Frame X) k) := by
  have h₀ : Frame X k k := .refl k
  unfold readKbd
  refine .ite (fun _ => ?_) fun _ => .ite (fun _ => done_exits h₀) fun _ => ?_
  · exact .bind (.foldlM (fun _ i h => kbdCopy_frame _ _ i h) h₀) fun k₁ h₁ => done_exits h₁
  · have hk : Frame X k { k with kbdProc := some c } := ⟨rfl,fun _ _ => .refl _⟩
    exact sched_exits (hk.trans ((Calm.refl _).setProc (.inl hX)).toFrame)

theorem keyboard_leaves (hX : X c) (k : Kernel) (tr : Trap) :
    Post (keyboard k c tr) (Leaves (Frame X) k) := by
  have hq : Frame X k (k.queueKey tr.getch) := ⟨rfl,fun _ _ => .refl _⟩
  unfold keyboard
  refine .ite (fun _ => ?_) fun _ => .ok (.ret (.refl k))
  unfold serveKbd
  split
  · exact .ok (.ret hq)
  · rename_i b _
    refine .bind (.foldlM (fun _ i h => kbdCopy_frame _ _ i h) hq) fun k₁ h₁ => ?_
    have hw : ∀ v, Calm X k₁ (k₁.wake b v) := fun v => .setProc (.refl k₁) (.inr (.inl ⟨rfl,rfl⟩))
    have hn : ∀ v, Frame X k { k₁.wake b v with kbdProc := none } := fun v =>
      (h₁.trans (hw v).toFrame).trans ⟨rfl,fun _ _ => .refl _⟩
    exact sched_exits ((hn _).trans ((Calm.refl _).setProc (.inl hX)).toFrame)

/-- The trap is a read of the keyboard. -/
def Trap.ReadsKbd (tr : Trap) (k : Kernel) (c : Slot) : Prop :=
  tr.vecnum = 32 ∧ toInt32 tr.tf.rax = sysReadNum ∧
    ∃ fd, fdOf tr.tf.rdx = some fd ∧ ((k.procs c).fdesc fd).fileType = .kbd

/-- Slots whose registers a trap from `c` may set: its own, and the one a fork takes. -/
def Touched (k : Kernel) (c j : Slot) : Prop := j = c ∨ k.closedSlot = some j

theorem pageFaultHandler_leaves (k : Kernel) (c : Slot) (tr : Trap) :
    Post (pageFaultHandler k c tr) (Leaves (Updated X) k) := by
  have h₀ : Updated X k k := .refl
  have hkill : Post (do (← killProc k c killStatus).sched) (Leaves (Updated X) k) :=
    .bind (killProc_updated h₀ c _) fun k₁ h₁ => sched_exits h₁
  unfold pageFaultHandler
  refine .ite (fun _ => .ite (fun _ => .error _) fun _ => hkill) fun _ => .seq fun r => ?_
  obtain ⟨w,m⟩ := r
  cases w with
  | slot t i =>
    refine .ite (fun _ => ?_) fun _ => hkill
    exact .bind (breakCow_pipes (.refl _) _ _) fun m' hm' => .ok (.ret (h₀.setMem hm'))
  | efault => exact hkill
  | enomem => exact hkill

end Ukern
