import Ukern.Run.Running
import Ukern.Memory.Word

/-! # The first calls after boot

The first process asks for a pipe: with a free page and a buffer the call succeeds, and the
kernel it leaves is known.
-/
namespace Ukern
open Lib Lib.Radix
variable {fs : Fs} {k k' : Kernel} {c : Slot} {tf : Context} {m m' : Phys} {p q : Proc} {fd rfd wfd pg t : ℕ}

theorem freeFd_congr (h : ∀ i, fd ≤ i → (q.fdesc i).inuse = (p.fdesc i).inuse) : freeFd q fd = freeFd p fd := by
  have hfind : (fun i => decide (fd ≤ i) && !(q.fdesc i).inuse) = fun i => decide (fd ≤ i) && !(p.fdesc i).inuse := by
    funext i
    by_cases hi : fd ≤ i
    · rw [h i hi]
    · rw [decide_eq_false hi]
      rfl
  unfold freeFd
  rw [hfind]

/-- Descriptor `f` as an end of the pipe on page `pg`. -/
def FileDesc.endOf (f : FileDesc) (ty : FileType) (pg : ℕ) : FileDesc :=
  { f with inuse := true, fileType := ty, pipe := pg }

/-- A process record with the two ends of a pipe in its table. -/
def Proc.withPipe (p : Proc) (pg rfd wfd : ℕ) : Proc :=
  let fds := Function.update p.fdesc rfd ((p.fdesc rfd).endOf .rpipe pg)
  { p with fdesc := Function.update fds wfd ((p.fdesc wfd).endOf .wpipe pg) }

/-- A new pipe on page `pg`, and its two numbers stored at `a`. -/
def Phys.withPipe (m : Phys) (pg a rfd wfd : ℕ) : Phys :=
  ((m.setPipe pg { m.pipe pg with rref := 1, wref := 1 }).setBytes a (toBytes rfd 4)).setBytes (a+4) (toBytes wfd 4)

theorem Sys.keep_getPage {z : Bool} (h : Sys k c) (hg : getPage k.phys z = .ok (pg,m)) :
    Keep k.phys m (k.procs c).pgtbl ∧ Keep k.phys m (k.procs c).pPgtbl := by
  have hheld : ∀ x, tblPages k.phys (k.procs c).pgtbl x + tblPages k.phys (k.procs c).pPgtbl x ≠ 0 →
      m.tbl x = k.phys.tbl x := by
    intro x hx
    have hfree := h.inv.owned.mem.tables_held (spaces_some h.open) hx
    exact (grow_getPage hg).tbl x id fun hmem => hfree ((grow_getPage hg).new_free hmem)
  exact ⟨.of_pages fun x hx => hheld x (by omega),.of_pages fun x hx => hheld x (by omega)⟩

theorem pipeEnd_endOf (k : Kernel) (c : Slot) (pg fd : ℕ) (dst : U64) (ty : FileType) : pipeEnd k c pg fd dst ty =
    kstores k.phys (k.procs c).pgtbl dst (toBytes fd 4) >>= fun m =>
      .ok ((k.setPhys m).setFdesc c fd (((k.procs c).fdesc fd).endOf ty pg)) := rfl

theorem pipeEnds_eq (hr : freeFd (k.procs c) 0 = .ok rfd) (hw : freeFd (k.procs c) (rfd+1) = .ok wfd) :
    (do
      let rfd ← freeFd (k.procs c) 0
      let k ← pipeEnd k c pg rfd tf.rdx .rpipe
      let wfd ← freeFd (k.procs c) (rfd+1)
      let k ← pipeEnd k c pg wfd (tf.rdx + 4) .wpipe
      k.done tf 0) = kstores k.phys (k.procs c).pgtbl tf.rdx (toBytes rfd 4 ++ toBytes wfd 4) >>= fun m =>
        .ok (.ret { tf with rax := 0 } ((k.setPhys m).setProc c ((k.procs c).withPipe pg rfd wfd))) := by
  have hlt := (freeFd_ok hw).2.1
  rw [hr, ok_bind, pipeEnd_endOf, bind_assoc, kstores_append, bind_assoc, toBytes_length]
  refine bind_congr_ok fun m₁ _ => ?_
  rw [ok_bind]
  obtain ⟨k₁,hk₁⟩ : ∃ k₁, k₁ = (k.setPhys m₁).setFdesc c rfd (((k.procs c).fdesc rfd).endOf .rpipe pg) := ⟨_,rfl⟩
  have hp₁ : k₁.procs c = { k.procs c with
      fdesc := Function.update (k.procs c).fdesc rfd (((k.procs c).fdesc rfd).endOf .rpipe pg) } := by
    rw [hk₁, Kernel.setFdesc, Kernel.modProc_self]
    rfl
  have hne : ∀ i ≠ rfd, (k₁.procs c).fdesc i = (k.procs c).fdesc i := fun i hi => by
    rw [hp₁]
    exact Function.update_of_ne hi ..
  have hw₁ : freeFd (k₁.procs c) (rfd+1) = .ok wfd := by
    rw [← hw]
    exact freeFd_congr fun i hi => by rw [hne i (by omega)]
  have hphys : k₁.phys = m₁ := by rw [hk₁]; rfl
  have hpg : (k₁.procs c).pgtbl = (k.procs c).pgtbl := by rw [hp₁]
  rw [← hk₁, hw₁, ok_bind, pipeEnd_endOf, bind_assoc, hphys, hpg]
  refine bind_congr_ok fun m₂ _ => ?_
  rw [ok_bind, hne wfd (by omega), Kernel.setFdesc, Kernel.modProc, Kernel.setPhys_procs, hp₁]
  have hk₁' : k₁.setPhys m₂ = (k.setPhys m₂).setProc c (k₁.procs c) := by
    rw [hk₁, Kernel.setFdesc, Kernel.modProc_self]
    rfl
  rw [hk₁', Kernel.done]
  simp only [Kernel.setProc,Function.update_idem]
  rfl

theorem sysPipe_eq (tf : Context) (h : Sys k c) (hb : Buffer k.phys (k.procs c).pgtbl tf.rdx 8)
    (hstr : checkStr k.phys (k.procs c).pPgtbl tf.rdx 8 pteU = .ok true)
    (hg : getPage k.phys true = .ok (pg,m)) (hr : freeFd (k.procs c) 0 = .ok rfd)
    (hw : freeFd (k.procs c) (rfd+1) = .ok wfd) :
    sysPipe k c tf = .ok (.ret { tf with rax := 0 }
      ((k.setPhys (m.withPipe pg (bufferAddr k.phys (k.procs c).pgtbl tf.rdx) rfd wfd)).setProc c
        ((k.procs c).withPipe pg rfd wfd))) := by
  obtain ⟨m₁,hm₁⟩ : ∃ m₁, m₁ = m.setPipe pg { m.pipe pg with rref := 1, wref := 1 } := ⟨_,rfl⟩
  have hent : entry m₁ (k.procs c).pgtbl (key 3 tf.rdx.toNat) = entry k.phys (k.procs c).pgtbl (key 3 tf.rdx.toNat) := by
    rw [entry, hm₁]
    exact (h.keep_getPage hg).1.entry (key_user hb.user)
  obtain ⟨hb₁,ha₁⟩ := hb.congr m₁ hent
  have hlen : (toBytes rfd 4 ++ toBytes wfd 4).length = 8 := by rw [List.length_append, toBytes_length, toBytes_length]
  have hstore := Buffer.kstores (hlen ▸ hb₁)
  unfold sysPipe
  rw [hstr, ok_bind, if_neg (by decide), hg, ok_bind]
  refine (pipeEnds_eq (k := (k.setPhys m).setPipe pg { m.pipe pg with rref := 1, wref := 1 }) hr hw).trans ?_
  change (kstores (m.setPipe pg { m.pipe pg with rref := 1, wref := 1 }) (k.procs c).pgtbl tf.rdx _ >>= _) = _
  rw [← hm₁, hstore, ok_bind, ha₁, Phys.setBytes_append, toBytes_length, hm₁]
  rfl

/-! ## Buffers by what the process reads there -/

theorem Sys.space (h : Sys k c) : Space k.phys k.kPgtbl (k.procs c).pgtbl (k.procs c).pPgtbl :=
  h.inv.owned.mem.space c _ _ (spaces_some h.open)

theorem Sys.buffer {v : U64} {n : ℕ} {b : UInt8} (h : Sys k c) (hv : userLoad k.phys (k.procs c).pgtbl v.toNat = some b)
    (hfits : v.toNat % pgsize + n ≤ pgsize) : Buffer k.phys (k.procs c).pgtbl v n := by
  rw [h.space.userLoad_eq, Option.ite_none_right_eq_some] at hv
  exact ⟨hv.1.1,hfits,hv.1.2⟩

theorem Sys.checkStr {v : U64} {n j : ℕ} (siz : U64) (h : Sys k c) (hb : Buffer k.phys (k.procs c).pgtbl v n)
    (hs : siz.toNat < pgsize) (hj : v.toNat % pgsize + j < pgsize)
    (hz : userLoad k.phys (k.procs c).pgtbl (v.toNat + j) = some 0) :
    checkStr k.phys (k.procs c).pPgtbl v siz pteU = .ok true := by
  refine hb.checkStr h.space hs hj ?_
  rw [h.space.userLoad_eq, Option.ite_none_right_eq_some] at hz
  have hkey : key 3 (v.toNat + j) = key 3 v.toNat := by
    unfold key pgsize at *
    omega
  have hmod : (v.toNat + j) % pgsize = v.toNat % pgsize + j := by
    unfold pgsize at *
    omega
  rw [hkey, hmod] at hz
  exact Option.some.inj hz.2

theorem Laid.zero {x : ℕ} (h : Laid m t []) (hx : x < pgsize) : userLoad m t (uargs + x) = some 0 := by
  obtain ⟨f,he,hd⟩ := h.args
  have hkey : key 3 (uargs + x) = key 3 uargs := by
    unfold key uargs pgsize at *
    omega
  have hmod : (uargs + x) % pgsize = x := by
    unfold uargs pgsize at *
    omega
  have huser : uargs + x < userTop := by
    unfold uargs userTop pgsize at *
    omega
  have hlook : lookup m t (uargs + x) = .full f := by
    rw [lookup, hkey]
    exact he
  rw [userLoad]
  simp only [hlook,huser,Pte.full_covers,and_self,↓reduceIte,Pte.full_frame,Phys.byte_frame]
  rw [hmod, hd x hx]
  rfl

/-- The system call `rax` with `rdx` at the argument page. -/
def argsTrap (rax : U64) : Trap := ⟨32,0,0,{ Context.zero with rax := rax, rdx := BitVec.ofNat 64 uargs },0⟩

/-- The first process has made a pipe, with descriptors 3 and 4. -/
def pipedKernel (m : Phys) (a b : ℕ) (pwd : FileDesc) (pg : ℕ) : Kernel :=
  (loneKernel m a b pwd).setProc firstSlot ((loneProc a b pwd).withPipe pg 3 4)

theorem pipedKernel_self (m : Phys) (a b : ℕ) (pwd : FileDesc) (pg : ℕ) :
    (pipedKernel m a b pwd pg).procs firstSlot = (loneProc a b pwd).withPipe pg 3 4 := by
  simp only [pipedKernel,Kernel.setProc,Function.update_self]

theorem Laid.buffer {a b : ℕ} {pwd : FileDesc} (hlaid : Laid m a []) (h : Sys (loneKernel m a b pwd) firstSlot) :
    Buffer m a (BitVec.ofNat 64 uargs) 8 ∧ checkStr m b (BitVec.ofNat 64 uargs) 8 pteU = .ok true := by
  have hself := loneKernel_self m a b pwd
  have hload : ∀ x < pgsize, userLoad (loneKernel m a b pwd).phys ((loneKernel m a b pwd).procs firstSlot).pgtbl
      (uargs + x) = some 0 := fun x hx => by
    rw [hself]
    exact hlaid.zero hx
  have hb := h.buffer (v := BitVec.ofNat 64 uargs) (n := 8) (hload 0 (by decide)) (by decide)
  have hstr := h.checkStr (j := 0) 8 hb (by decide) (by decide) (hload 0 (by decide))
  rw [hself] at hb hstr
  exact ⟨hb,hstr⟩

theorem pipe_after_boot (fs : Fs) {a b : ℕ} {pwd : FileDesc} (h : Sys (loneKernel m a b pwd) firstSlot) (hlaid : Laid m a [])
    (hroom : 2 ≤ m.free.length) : ∃ pg m', trapHandler fs (loneKernel m a b pwd) (argsTrap 11) =
      .ok (.ret { (argsTrap 11).tf with rax := 0 } (pipedKernel m' a b pwd pg)) ∧
    m'.pipe pg = { Pipe.zero with rref := 1, wref := 1 } := by
  have hself := loneKernel_self m a b pwd
  obtain ⟨pg,m₁,hg⟩ := getPage_room h.inv.owned.mem.acct.offers true hroom
  obtain ⟨hb,hstr⟩ := hlaid.buffer h
  have hr : freeFd ((loneKernel m a b pwd).procs firstSlot) 0 = .ok 3 := by
    rw [hself]
    rfl
  have hw : freeFd ((loneKernel m a b pwd).procs firstSlot) 4 = .ok 4 := by
    rw [hself]
    rfl
  have heq := sysPipe_eq (argsTrap 11).tf h (by rw [hself]; exact hb) (by rw [hself]; exact hstr) hg hr hw
  rw [hself] at heq
  refine ⟨pg,m₁.withPipe pg (bufferAddr m a (BitVec.ofNat 64 uargs)) 3 4,?_,?_⟩
  · rw [trapHandler_call .pipe h.cur ⟨rfl,rfl⟩]
    refine heq.trans ?_
    simp only [pipedKernel,loneKernel,Kernel.setProc,Kernel.setPhys,Function.update_idem]
    rfl
  · rw [Phys.withPipe, (Phys.setBytes_frame ..).1, (Phys.setBytes_frame ..).1]
    exact (Function.update_self ..).trans (by rw [(getPage_zero hg).2.2])

end Ukern
