import Ukern.Run.Running
import Ukern.Run.Turns

/-! # Registers across a system call

A call reports in `rax` and touches no other register, whether it returns at once or
blocks and is woken later. An empty write is the exception: its error goes to `rbx`.
What a call reports is compared with the tests that make it fail.
-/
namespace Ukern
open Lib
variable {fs : Fs} {k k₁ k' : Kernel} {c i j : Slot} {tf : Context} {o : Outcome} {tr : Trap} {v : U64}
  {call : Call}

/-! ## Error numbers -/

/-- `EMAX`. -/
def emax : ℤ := 81

/-- A negative error number. -/
def IsErrno (v : U64) : Prop := -emax < v.toInt ∧ v.toInt < 0

instance : DecidablePred IsErrno := fun _ => inferInstanceAs (Decidable (_ ∧ _))

theorem not_isErrno_ofNat {n : ℕ} (h : n < 2^63) : ¬ IsErrno (BitVec.ofNat 64 n) := by
  have hn : (BitVec.ofNat 64 n).toInt = n := by
    rw [BitVec.toInt_ofNat']
    exact Int.bmod_eq_of_le (by omega) (by omega)
  unfold IsErrno
  rw [hn]
  omega

theorem Size.not_isErrno (h : Size v) : ¬ IsErrno v := by
  obtain ⟨n,hn,rfl⟩ := h
  exact not_isErrno_ofNat (by omega)

/-- An `int` count is an error number only just below the end of its range. -/
theorem isErrno_count {n : ℕ} (h : n < 2^32) :
    IsErrno (BitVec.ofInt 64 (BitVec.ofNat 32 n).toInt) ↔ 2^32 - 80 ≤ n := by
  have h32 : (BitVec.ofNat 32 n).toInt = if n < 2^31 then (n : ℤ) else n - 2^32 := by
    rw [BitVec.toInt_eq_toNat_cond, BitVec.toNat_ofNat, Nat.mod_eq_of_lt h]
    split <;> split <;> omega
  have h64 : (BitVec.ofInt 64 (BitVec.ofNat 32 n).toInt).toInt = (BitVec.ofNat 32 n).toInt := by
    rw [BitVec.toInt_ofInt]
    exact Int.bmod_eq_of_le (by rw [h32]; split <;> omega) (by rw [h32]; split <;> omega)
  unfold IsErrno emax
  rw [h64, h32]
  split <;> omega

theorem not_isErrno_num (h : toInt32 v = call.num) : ¬ IsErrno v := by
  have hnum : 0 ≤ call.num ∧ call.num < 14 := by
    cases call <;> decide
  rw [← h, toInt32_eq] at hnum
  have hlt := v.isLt
  unfold IsErrno emax
  rw [BitVec.toInt_eq_toNat_cond]
  split <;> split at hnum <;> omega

/-! ## When a call fails -/

/-- A check of user memory that comes out negative. -/
def refused (x : Except Fault Bool) : Bool :=
  match x with
  | .ok b => !b
  | .error _ => false

theorem refused_of {x : Except Fault Bool} {b : Bool} (h : x = .ok b) : refused x = !b := by
  rw [h]
  rfl

/-- A path that does not lead to a file of the kind that is asked for. -/
def openFails (fs : Fs) (k : Kernel) (c : Slot) (path : U64) (opendir : Bool) : Bool :=
  match fs.resolve (userPath k.phys (k.procs c).pgtbl path) (k.procs c).pwd with
  | .ok r =>
    match r.node with
    | .ok n => n.isDir != opendir
    | .error _ => true
  | .error _ => false

/-- What a call needs of its descriptor. -/
def fdFails (k : Kernel) (c : Slot) (tf : Context) (bad : FileDesc → Bool) : Bool :=
  match fdOf tf.rdx with
  | none => true
  | some fd => !((k.procs c).fdesc fd).inuse || bad ((k.procs c).fdesc fd)

/-- A source that has nothing to read, or that somebody else is reading. -/
def sourceFails (k : Kernel) (f : FileDesc) : Bool :=
  match f.fileType with
  | .kbd => k.kbdBufSiz == 0 && k.kbdProc.isSome
  | .reg => false
  | .rpipe => (k.pipe f.pipe).reader.isSome
  | _ => true

def sinkFails (k : Kernel) (f : FileDesc) : Bool :=
  match f.fileType with
  | .screen => false
  | .wpipe => (k.pipe f.pipe).writer.isSome
  | _ => true

/-- The call cannot do what it is for. An `exec` that comes back has failed. -/
def Call.fails (fs : Fs) (k : Kernel) (c : Slot) (tf : Context) : Call → Bool
  | exit | fork | getpid => false
  | exec => true
  | wait => refused (waitCheck k.phys (k.procs c).pPgtbl tf.rdx) ||
      (k.procs c).zombieChild.isNone && (k.procs c).livingChild.isNone
  | openFile => refused (checkStr k.phys (k.procs c).pPgtbl tf.rdx 256 pteU) || openFails fs k c tf.rdx false
  | opendir => refused (checkStr k.phys (k.procs c).pPgtbl tf.rdx 256 pteU) || openFails fs k c tf.rdx true
  | chdir => refused (checkStr k.phys (k.procs c).pPgtbl tf.rdx 256 pteU) || openFails fs k c tf.rdx true
  | read => fdFails k c tf fun f => tf.rbx == 0 ||
      refused (checkMem k.phys (k.procs c).pPgtbl tf.rcx tf.rbx (pteU ||| pteW)) || sourceFails k f
  | write => fdFails k c tf fun f => tf.rbx == 0 ||
      refused (checkMem k.phys (k.procs c).pPgtbl tf.rcx tf.rbx pteU) || sinkFails k f
  | close => fdFails k c tf fun _ => false
  | readdir => fdFails k c tf fun f =>
      refused (checkMem k.phys (k.procs c).pPgtbl tf.rcx 280 (pteU ||| pteW)) || f.fileType != .dir
  | pipe => refused (checkStr k.phys (k.procs c).pPgtbl tf.rdx 8 pteU)
  | sbrk => sbrkRefused k.phys (roundup (k.procs c).endUmem)
      (roundup (((k.procs c).endUmem + tf.rdx.toNat) % 2^64))

/-- What `rax` has to say when the call returns. -/
def Call.Reports (fs : Fs) (k : Kernel) (c : Slot) (tf : Context) (call : Call) (v : U64) : Prop :=
  if call = .sbrk then v = 0 ↔ call.fails fs k c tf = true else IsErrno v ↔ call.fails fs k c tf = true

/-- The frame a call returns with, or the one it saves before it gives way. -/
def Call.Answered (fs : Fs) (k : Kernel) (c : Slot) (tf : Context) (call : Call) : Outcome → Prop
  | .ret tf' _ => tf' = { tf with rax := tf'.rax } ∧ call.Reports fs k c tf tf'.rax
  | .run k' => call = .exec ∨ (k'.procs c).context = tf

/-- When a call answers as it should. A write must not be empty; a count, a pid or a break
must not look like a failure. -/
def Call.Sound (fs : Fs) (k : Kernel) (c : Slot) (tf : Context) : Call → Prop
  | write => ¬ (tf.rbx = 0 ∧ (fdOf tf.rdx).isSome = true)
  | read => read.fails fs k c tf = false → ∀ fd, fdOf tf.rdx = some fd →
      ((k.procs c).fdesc fd).fileType = .reg → readLen tf.rbx.toNat ((k.procs c).fdesc fd) < 2^32 - 80
  | fork => ¬ IsErrno (BitVec.ofNat 64 ((k.gPid + 1) % 2^64))
  | getpid => ¬ IsErrno (BitVec.ofNat 64 (k.procs c).pid)
  | wait => wait.fails fs k c tf = false → ∀ z, (k.procs c).zombieChild = some z →
      ¬ IsErrno (BitVec.ofNat 64 (k.procs z).pid)
  | sbrk => sbrk.fails fs k c tf = false → BitVec.ofNat 64 (k.procs c).endUmem ≠ 0
  | _ => True

/-- The value a call returns is right exactly when the call is sound, and a call that
blocks is sound. -/
def Verdict (fs : Fs) (k : Kernel) (c : Slot) (tf : Context) (call : Call) : Outcome → Prop :=
  Exits (fun tf' _ => call.Reports fs k c tf tf'.rax ↔ call.Sound fs k c tf)
    fun _ => call.Sound fs k c tf

theorem Verdict.failed (hs : call ≠ .sbrk) (hf : call.fails fs k c tf = true) (he : IsErrno v)
    (hsound : call.Sound fs k c tf) : Post (k₁.done tf v) (Verdict fs k c tf call) := by
  refine done_exits ?_
  rw [Call.Reports, if_neg hs]
  exact iff_of_true (iff_of_true he hf) hsound

theorem Verdict.succeeded (hs : call ≠ .sbrk) (hf : call.fails fs k c tf = false)
    (hv : ¬ IsErrno v ↔ call.Sound fs k c tf) : Post (k₁.done tf v) (Verdict fs k c tf call) := by
  refine done_exits ?_
  rw [Call.Reports, if_neg hs, hf]
  simpa using hv

theorem errno_isErrno (e : PathError) : IsErrno (neg e.errno) := by
  cases e <;> decide

/-! ## The calls one by one -/

theorem modProc_pid {f : Proc → Proc} (hf : ∀ p, (f p).pid = p.pid) (k : Kernel) (i j : Slot) :
    ((k.modProc i f).procs j).pid = (k.procs j).pid := by
  by_cases hji : j = i
  · subst hji
    have heq : (k.modProc j f).procs j = f (k.procs j) := Function.update_self ..
    rw [heq, hf]
  · have heq : (k.modProc i f).procs j = k.procs j := Function.update_of_ne hji ..
    rw [heq]

theorem addChild_pid (k : Kernel) (n c j : Slot) : ((addChild k n c).procs j).pid = (k.procs j).pid := by
  unfold addChild
  dsimp only
  split
  · simp [modProc_pid]
  · simp [modProc_pid]

theorem forkFdesc_pid (n c : Slot) (k : Kernel) (fd : ℕ) (j : Slot) :
    ((forkFdesc n c k fd).procs j).pid = (k.procs j).pid := by
  have hset : ((k.setFdesc n fd ((k.procs c).fdesc fd)).procs j).pid = (k.procs j).pid := by
    refine modProc_pid ?_ k n j
    exact fun _ => rfl
  unfold forkFdesc
  dsimp only
  split
  · exact hset
  · split
    · exact hset
    · exact hset
    · exact hset

theorem sysFork_verdict : Post (sysFork k c tf) (Verdict fs k c tf .fork) := by
  unfold sysFork
  have halloc : Post (allocProc k) fun r => ∀ n, r.1 = some n → (r.2.procs n).pid = (k.gPid + 1) % 2^64 := by
    unfold allocProc
    split
    · exact .ok nofun
    · refine .seq fun _ => .seq fun _ => .ok fun n hn => ?_
      cases hn
      dsimp only [Kernel.allot, Kernel.modProc, Kernel.setProc]
      rw [Function.update_self]
  refine .bind halloc fun r hr => ?_
  obtain ⟨n,k₁⟩ := r
  cases n with
  | none => exact .error _
  | some n =>
    refine .seq fun m => ?_
    have hpid : ((((List.range nfdesc).foldl (forkFdesc n c) ((addChild k₁ n c).setPhys m)).procs n).pid) =
        (k.gPid + 1) % 2^64 := by
      refine foldl_inv (I := fun k₂ : Kernel => (k₂.procs n).pid = (k.gPid + 1) % 2^64) (fun k₂ fd h₂ => ?_) ?_
      · rw [forkFdesc_pid]
        exact h₂
      · exact (addChild_pid k₁ n c n).trans (hr n rfl)
    dsimp only
    rw [hpid]
    exact Verdict.succeeded nofun rfl .rfl

theorem exfatOpen_result {m : Phys} {kp : ℕ} {f : FileDesc} {path : U64} {opendir : Bool} :
    Post (exfatOpen fs m kp (userPath k.phys (k.procs c).pgtbl path) (k.procs c).pwd f opendir) fun r =>
      r.1 = 0 ∧ openFails fs k c path opendir = false ∨
        IsErrno r.1 ∧ openFails fs k c path opendir = true := by
  unfold exfatOpen
  refine .step fun r hr => .seq fun m₁ => .ite (fun _ => .error _) fun _ => ?_
  unfold openFails
  simp only [hr]
  split
  · rename_i e he
    exact .ok (.inr ⟨errno_isErrno e,by rw [he]⟩)
  · rename_i n hn
    simp only [hn]
    cases opendir <;> cases n.isDir
    · exact .ok (.inl ⟨rfl,rfl⟩)
    · exact .ok (.inr ⟨show IsErrno (neg eisdir) by decide,rfl⟩)
    · exact .ok (.inr ⟨show IsErrno (neg enotdir) by decide,rfl⟩)
    · exact .ok (.inl ⟨rfl,rfl⟩)

theorem isErrno_ne_zero (h : IsErrno v) : v ≠ 0 := by
  rintro rfl
  exact absurd h (by decide)

theorem freeFd_lt {p : Proc} {fd : ℕ} : Post (freeFd p fd) fun i => i < nfdesc := by
  unfold freeFd
  split
  · rename_i i hi
    exact .ok (List.mem_range.mp (List.mem_of_find?_eq_some hi))
  · exact .error _

theorem sysOpenAs_verdict {opendir : Bool} (hs : call ≠ .sbrk) (hsound : call.Sound fs k c tf)
    (hf : call.fails fs k c tf = (refused (checkStr k.phys (k.procs c).pPgtbl tf.rdx 256 pteU) ||
      openFails fs k c tf.rdx opendir)) :
    Post (sysOpenAs opendir fs k c tf) (Verdict fs k c tf call) := by
  unfold sysOpenAs
  refine .step fun b hb => .ite (fun hno => ?_) fun hyes => ?_
  · refine .failed hs ?_ (by decide) hsound
    rw [hf, refused_of hb, hno, Bool.true_or]
  · have hf' : call.fails fs k c tf = openFails fs k c tf.rdx opendir := by
      rw [hf, refused_of hb, Bool.eq_false_of_not_eq_true hyes, Bool.false_or]
    refine .bind freeFd_lt fun fd hfd => .bind exfatOpen_result fun r hr => ?_
    refine .ite (fun h0 => ?_) fun h0 => ?_
    · obtain ⟨-,hopen⟩ := hr.resolve_right fun h => isErrno_ne_zero h.1 h0
      have hlt : fd < 2^63 := Nat.lt_trans hfd (by decide)
      exact .succeeded hs (hf'.trans hopen) (iff_of_true (not_isErrno_ofNat hlt) hsound)
    · obtain ⟨he,hopen⟩ := hr.resolve_left fun h => h0 h.1
      exact .failed hs (hf'.trans hopen) he hsound

theorem sysChdir_verdict : Post (sysChdir fs k c tf) (Verdict fs k c tf .chdir) := by
  unfold sysChdir
  have hf : ∀ b, checkStr k.phys (k.procs c).pPgtbl tf.rdx 256 pteU = .ok b →
      Call.chdir.fails fs k c tf = (!b || openFails fs k c tf.rdx true) := by
    intro b hb
    rw [Call.fails, refused_of hb]
  refine .step fun b hb => .ite (fun hno => ?_) fun hyes => ?_
  · refine .failed nofun ?_ (by decide) trivial
    rw [hf b hb, hno, Bool.true_or]
  · have hf' : Call.chdir.fails fs k c tf = openFails fs k c tf.rdx true := by
      rw [hf b hb, Bool.eq_false_of_not_eq_true hyes, Bool.false_or]
    refine .bind exfatOpen_result fun r hr => ?_
    refine .ite (fun h0 => ?_) fun h0 => ?_
    · obtain ⟨he,hopen⟩ := hr.resolve_left fun h => h0 h.1
      exact .failed nofun (hf'.trans hopen) he trivial
    · obtain ⟨-,hopen⟩ := hr.resolve_right fun h => h0 (isErrno_ne_zero h.1)
      exact .succeeded nofun (hf'.trans hopen) (iff_of_true (by decide) trivial)

theorem sysExec_verdict : Post (sysExec fs k c tf) (Verdict fs k c tf .exec) := by
  have hfail : ∀ {k₁ : Kernel} {v : U64}, IsErrno v → Post (k₁.done tf v) (Verdict fs k c tf .exec) :=
    fun hv => .failed nofun rfl hv trivial
  unfold sysExec
  refine .ite (fun _ => hfail (by decide)) fun _ => .seq fun r => ?_
  obtain ⟨b,k₁⟩ := r
  cases b with
  | false => exact hfail (by decide)
  | true =>
    refine .bind exfatOpen_result fun r hr => ?_
    refine .ite (fun h0 => ?_) fun h0 => ?_
    · exact hfail (hr.resolve_left fun h => h0 h.1).1
    · refine .seq fun fr => .seq fun m => .seq fun magic => .ite (fun _ => ?_) fun _ => ?_
      · exact .seq fun m' => hfail (by decide)
      · exact .seq fun k₂ => .seq fun m' => sched_exits trivial

theorem sysPipe_verdict : Post (sysPipe k c tf) (Verdict fs k c tf .pipe) := by
  unfold sysPipe
  refine .step fun b hb => .ite (fun hno => ?_) fun hyes => ?_
  · refine .failed nofun ?_ (by decide) trivial
    rw [Call.fails, refused_of hb, hno]
  · have hf : Call.pipe.fails fs k c tf = false := by
      rw [Call.fails, refused_of hb, Bool.eq_false_of_not_eq_true hyes]
    refine .seq fun r => .seq fun rfd => .seq fun k₁ => .seq fun wfd => .seq fun k₂ => ?_
    exact .succeeded nofun hf (iff_of_true (by decide) trivial)

theorem sysSbrk_verdict : Post (sysSbrk k c tf) (Verdict fs k c tf .sbrk) := by
  unfold sysSbrk
  refine .ite (fun hno => done_exits ?_) fun hyes => .seq fun m => done_exits ?_
  · have hf : Call.sbrk.fails fs k c tf = true := hno
    refine iff_of_true ?_ fun hok => absurd (hf.symm.trans hok) (by decide)
    exact iff_of_true rfl hf
  · have hf : Call.sbrk.fails fs k c tf = false := Bool.eq_false_of_not_eq_true hyes
    unfold Call.Reports Call.Sound
    simp [hf]

theorem sysWait_verdict : Post (sysWait k c tf) (Verdict fs k c tf .wait) := by
  unfold sysWait
  refine .step fun b hb => .ite (fun hno => ?_) fun hyes => ?_
  · have hf : Call.wait.fails fs k c tf = true := by
      rw [Call.fails, refused_of hb, hno, Bool.true_or]
    exact .failed nofun hf (by decide) fun hok => absurd (hf.symm.trans hok) (by decide)
  · have hf : Call.wait.fails fs k c tf =
        ((k.procs c).zombieChild.isNone && (k.procs c).livingChild.isNone) := by
      rw [Call.fails, refused_of hb, Bool.eq_false_of_not_eq_true hyes, Bool.false_or]
    split
    · rename_i z hz
      have hf' : Call.wait.fails fs k c tf = false := by
        rw [hf, hz]
        rfl
      unfold waitZombie
      refine .seq fun m => .seq fun k₁ => .succeeded nofun hf' ⟨fun hv _ z' hz' => ?_,fun hs => hs hf' z hz⟩
      rw [hz] at hz'
      cases hz'
      exact hv
    · rename_i hz
      refine .ite (fun hl => ?_) fun hl => sched_exits fun _ z hz' => ?_
      · have hf' : Call.wait.fails fs k c tf = true := by
          rw [hf, hz, hl]
          rfl
        exact .failed nofun hf' (by decide) fun hok => absurd (hf'.symm.trans hok) (by decide)
      · rw [hz] at hz'
        cases hz'

theorem fdFails_none {bad : FileDesc → Bool} (h : fdOf tf.rdx = none) : fdFails k c tf bad = true := by
  rw [fdFails, h]

theorem fdFails_some {bad : FileDesc → Bool} {fd : ℕ} (h : fdOf tf.rdx = some fd) :
    fdFails k c tf bad = (!((k.procs c).fdesc fd).inuse || bad ((k.procs c).fdesc fd)) := by
  rw [fdFails, h]

theorem sysClose_verdict (hnum : ¬ IsErrno tf.rax) : Post (sysClose k c tf) (Verdict fs k c tf .close) := by
  unfold sysClose
  split
  · rename_i hfd
    refine .failed nofun ?_ (by decide) trivial
    rw [Call.fails, fdFails_none hfd]
  · rename_i fd hfd
    have hf : Call.close.fails fs k c tf = !((k.procs c).fdesc fd).inuse := by
      rw [Call.fails, fdFails_some hfd, Bool.or_false]
    refine .ite (fun hno => .failed nofun (hf.trans hno) (by decide) trivial) fun hyes => .seq fun k₁ => ?_
    refine .ite (fun _ => .error _) fun _ => .ok (.ret ?_)
    have hf' := hf.trans (Bool.eq_false_of_not_eq_true hyes)
    rw [Call.Reports, if_neg nofun, hf']
    exact iff_of_true (by simpa using hnum) trivial

theorem sysReaddir_verdict : Post (sysReaddir fs k c tf) (Verdict fs k c tf .readdir) := by
  unfold sysReaddir
  split
  · rename_i hfd
    refine .failed nofun ?_ (by decide) trivial
    rw [Call.fails, fdFails_none hfd]
  · rename_i fd hfd
    refine .step fun b hb => ?_
    have hf : Call.readdir.fails fs k c tf = (!((k.procs c).fdesc fd).inuse ||
        (!b || ((k.procs c).fdesc fd).fileType != .dir)) := by
      rw [Call.fails, fdFails_some hfd, refused_of hb]
    refine .ite (fun hno => ?_) fun hyes => .ite (fun hno => ?_) fun hok => .seq fun r => ?_
    · refine .failed nofun ?_ (by decide) trivial
      rw [hf, hno, Bool.true_or, Bool.or_true]
    · refine .failed nofun ?_ (by decide) trivial
      rw [hf]
      rcases hno with hno | hno
      · rw [hno]
        rfl
      · simp [hno]
    · refine .succeeded nofun ?_ (iff_of_true (by decide) trivial)
      obtain ⟨huse,hdir⟩ := not_or.mp hok
      have huse' : ((k.procs c).fdesc fd).inuse = true := by simpa using huse
      have hdir' : ((k.procs c).fdesc fd).fileType = .dir := by simpa using hdir
      rw [hf, huse', hdir', Bool.eq_false_of_not_eq_true hyes]
      rfl

theorem readKbd_verdict {fd : ℕ} (hfd : fdOf tf.rdx = some fd)
    (hty : ((k.procs c).fdesc fd).fileType = .kbd)
    (hf : Call.read.fails fs k c tf = sourceFails k ((k.procs c).fdesc fd)) (hsiz : k.kbdBufSiz < 2^31) :
    Post (readKbd k c tf) (Verdict fs k c tf .read) := by
  have hsource : sourceFails k ((k.procs c).fdesc fd) = (k.kbdBufSiz == 0 && k.kbdProc.isSome) := by
    rw [sourceFails, hty]
  have hsound : Call.read.Sound fs k c tf := by
    intro _ fd' hfd' hreg
    rw [hfd] at hfd'
    cases hfd'
    rw [hty] at hreg
    cases hreg
  unfold readKbd
  refine .ite (fun hpos => .seq fun k₁ => ?_) fun hzero => .ite (fun hbusy => ?_) fun _ => sched_exits hsound
  · have hmin : min k.kbdBufSiz tf.rbx.toNat < 2^63 := by omega
    refine .succeeded nofun ?_ (iff_of_true (not_isErrno_ofNat hmin) hsound)
    rw [hf, hsource, beq_eq_false_iff_ne.mpr (by omega), Bool.false_and]
  · refine .failed nofun ?_ (by decide) hsound
    rw [hf, hsource, hbusy, beq_iff_eq.mpr (by omega)]
    rfl

theorem readReg_verdict {fd : ℕ} (hfd : fdOf tf.rdx = some fd)
    (hty : ((k.procs c).fdesc fd).fileType = .reg)
    (hf : Call.read.fails fs k c tf = sourceFails k ((k.procs c).fdesc fd)) :
    Post (readReg fs k c fd tf) (Verdict fs k c tf .read) := by
  have hf' : Call.read.fails fs k c tf = false := by
    rw [hf, sourceFails, hty]
  have hlt : readLen tf.rbx.toNat ((k.procs c).fdesc fd) < 2^32 :=
    (min_le_left _ _).trans_lt (Nat.mod_lt _ (by decide))
  have hlen : Post (exfatReadFile fs k.phys k.kPgtbl (k.procs c).pgtbl tf.rcx tf.rbx.toNat
      ((k.procs c).fdesc fd)) fun r => r.1 = readLen tf.rbx.toNat ((k.procs c).fdesc fd) := by
    unfold exfatReadFile
    exact .seq fun m => .seq fun m' => .ok rfl
  unfold readReg
  refine .bind hlen fun r hr => ?_
  refine .succeeded nofun hf' ?_
  rw [hr, isErrno_count hlt]
  constructor
  · intro hn _ fd' hfd' _
    rw [hfd] at hfd'
    cases hfd'
    omega
  · intro hs
    have hn := hs hf' fd hfd hty
    omega

theorem pipeRead_le {d pg : ℕ} {invoke : Bool} :
    Post (pipeRead d k pg invoke) fun r => r.1 ≤ (k.pipe pg).readSize := by
  cases d with
  | zero =>
    rw [pipeRead]
    exact .error _
  | succ d =>
    rw [pipeRead]
    refine .ite (fun _ => .ok (Nat.zero_le _)) fun _ => ?_
    split
    · exact .error _
    · exact .seq fun k₁ => .ite (fun _ => .seq fun r => .ok le_rfl) fun _ => .ok le_rfl

theorem pipeWrite_lt {d pg : ℕ} {invoke : Bool} : Post (pipeWrite d k pg invoke) fun r => r.1 < 2^32 := by
  have hlt : (k.pipe pg).writeSize < 2^32 := Nat.mod_lt _ (by decide)
  cases d with
  | zero =>
    rw [pipeWrite]
    exact .error _
  | succ d =>
    rw [pipeWrite]
    refine .ite (fun _ => .ok (Nat.two_pow_pos 32)) fun _ => ?_
    split
    · exact .error _
    · exact .seq fun k₁ => .ite (fun _ => .seq fun r => .ok hlt) fun _ => .ok hlt

theorem readPipe_verdict {fd : ℕ} (hfd : fdOf tf.rdx = some fd)
    (hty : ((k.procs c).fdesc fd).fileType = .rpipe)
    (hf : Call.read.fails fs k c tf = sourceFails k ((k.procs c).fdesc fd)) :
    Post (readPipe k c ((k.procs c).fdesc fd).pipe tf) (Verdict fs k c tf .read) := by
  have hsource : sourceFails k ((k.procs c).fdesc fd) =
      (k.pipe ((k.procs c).fdesc fd).pipe).reader.isSome := by
    rw [sourceFails, hty]
  have hsound : Call.read.Sound fs k c tf := by
    intro _ fd' hfd' hreg
    rw [hfd] at hfd'
    cases hfd'
    rw [hty] at hreg
    cases hreg
  unfold readPipe
  refine .ite (fun hbusy => .failed nofun (hf.trans (hsource.trans hbusy)) (by decide) hsound) fun hfree => ?_
  have hf' := hf.trans (hsource.trans (Bool.eq_false_of_not_eq_true hfree))
  refine .ite (fun _ => .bind pipeRead_le fun r hr => ?_) fun _ => .ite (fun _ => ?_) fun _ => sched_exits hsound
  · have hsiz : r.1 < 2^32 := by
      refine hr.trans_lt ((min_le_right _ _).trans_lt ?_)
      simp only [Kernel.pipe, Kernel.setPipe, Kernel.setPhys, Phys.setPipe, Function.update_self]
      exact Nat.mod_lt _ (by decide)
    exact .succeeded nofun hf' (iff_of_true (not_isErrno_ofNat (by omega)) hsound)
  · exact .succeeded nofun hf' (iff_of_true (by decide) hsound)

theorem sysRead_verdict (hsiz : k.kbdBufSiz < 2^31) :
    Post (sysRead fs k c tf) (Verdict fs k c tf .read) := by
  have hfail : ∀ {v : U64}, Call.read.fails fs k c tf = true → IsErrno v →
      Post (k.done tf v) (Verdict fs k c tf .read) := fun hf hv =>
    .failed nofun hf hv fun hok => absurd (hf.symm.trans hok) (by decide)
  unfold sysRead
  split
  · rename_i hfd
    refine hfail ?_ (by decide)
    rw [Call.fails, fdFails_none hfd]
  · rename_i fd hfd
    have hf : Call.read.fails fs k c tf = (!((k.procs c).fdesc fd).inuse || (tf.rbx == 0 ||
        refused (checkMem k.phys (k.procs c).pPgtbl tf.rcx tf.rbx (pteU ||| pteW)) ||
        sourceFails k ((k.procs c).fdesc fd))) := by
      rw [Call.fails, fdFails_some hfd]
    refine .ite (fun hz => hfail ?_ (by decide)) fun hz => .step fun b hb => ?_
    · rw [hf, hz]
      simp
    rw [refused_of hb] at hf
    refine .ite (fun hno => hfail ?_ (by decide)) fun hyes => .ite (fun hno => hfail ?_ (by decide)) fun huse => ?_
    · rw [hf, hno]
      simp
    · rw [hf, hno]
      rfl
    have hf' : Call.read.fails fs k c tf = sourceFails k ((k.procs c).fdesc fd) := by
      rw [hf, Bool.eq_false_of_not_eq_true huse, Bool.eq_false_of_not_eq_true hyes, beq_eq_false_iff_ne.mpr hz]
      rfl
    split
    · rename_i hty
      exact readKbd_verdict hfd hty hf' hsiz
    · rename_i hty
      exact readReg_verdict hfd hty hf'
    · rename_i hty
      exact readPipe_verdict hfd hty hf'
    · rename_i h1 h2 h3
      refine hfail (hf'.trans ?_) (by decide)
      unfold sourceFails
      split
      · exact absurd ‹_› h1
      · exact absurd ‹_› h2
      · exact absurd ‹_› h3
      · rfl

theorem writePipe_verdict {fd : ℕ} (hty : ((k.procs c).fdesc fd).fileType = .wpipe)
    (hsound : Call.write.Sound fs k c tf)
    (hf : Call.write.fails fs k c tf = sinkFails k ((k.procs c).fdesc fd)) :
    Post (writePipe k c ((k.procs c).fdesc fd).pipe tf) (Verdict fs k c tf .write) := by
  have hsink : sinkFails k ((k.procs c).fdesc fd) = (k.pipe ((k.procs c).fdesc fd).pipe).writer.isSome := by
    rw [sinkFails, hty]
  unfold writePipe
  refine .ite (fun hbusy => .failed nofun (hf.trans (hsink.trans hbusy)) (by decide) hsound) fun hfree => ?_
  have hf' := hf.trans (hsink.trans (Bool.eq_false_of_not_eq_true hfree))
  refine .bind pipeWrite_lt fun r hr => .ite (fun _ => .error _) fun _ => .ite (fun _ => ?_) fun _ =>
    sched_exits hsound
  exact .succeeded nofun hf' (iff_of_true (not_isErrno_ofNat (by omega)) hsound)

theorem sysWrite_verdict (hsound : Call.write.Sound fs k c tf) :
    Post (sysWrite k c tf) (Verdict fs k c tf .write) := by
  have hfail : ∀ {v : U64}, Call.write.fails fs k c tf = true → IsErrno v →
      Post (k.done tf v) (Verdict fs k c tf .write) := fun hf hv => .failed nofun hf hv hsound
  unfold sysWrite
  split
  · rename_i hfd
    refine hfail ?_ (by decide)
    rw [Call.fails, fdFails_none hfd]
  · rename_i fd hfd
    have hf : Call.write.fails fs k c tf = (!((k.procs c).fdesc fd).inuse || (tf.rbx == 0 ||
        refused (checkMem k.phys (k.procs c).pPgtbl tf.rcx tf.rbx pteU) ||
        sinkFails k ((k.procs c).fdesc fd))) := by
      rw [Call.fails, fdFails_some hfd]
    refine .ite (fun hz => ?_) fun hz => .step fun b hb => ?_
    · exact absurd ⟨hz,by rw [hfd]; rfl⟩ hsound
    rw [refused_of hb] at hf
    refine .ite (fun hno => hfail ?_ (by decide)) fun hyes => .ite (fun hno => hfail ?_ (by decide)) fun huse => ?_
    · rw [hf, hno]
      simp
    · rw [hf, hno]
      rfl
    have hf' : Call.write.fails fs k c tf = sinkFails k ((k.procs c).fdesc fd) := by
      rw [hf, Bool.eq_false_of_not_eq_true huse, Bool.eq_false_of_not_eq_true hyes, beq_eq_false_iff_ne.mpr hz]
      rfl
    split
    · rename_i hty
      have hlt : tf.rbx.toNat % 2^32 < 2^63 := by omega
      refine .seq fun _ => .succeeded nofun (hf'.trans ?_) (iff_of_true (not_isErrno_ofNat hlt) hsound)
      rw [sinkFails, hty]
    · rename_i hty
      exact writePipe_verdict hty hsound hf'
    · rename_i h1 h2
      refine hfail (hf'.trans ?_) (by decide)
      unfold sinkFails
      split
      · exact absurd ‹_› h1
      · exact absurd ‹_› h2
      · rfl

/-! ## The other registers -/

/-- The frame a call returns with differs in `rax` alone; a call that blocks has saved it. -/
def Keeps (k : Kernel) (c : Slot) (tf : Context) : Outcome → Prop :=
  Exits (fun tf' _ => tf' = { tf with rax := tf'.rax })
    fun k₁ => (k₁.procs c).context = tf ∧ (k.phys.Typed → k₁.phys.Typed)

theorem Replies.keeps {X : Slot → Prop} (h : Replies X k c tf o) : Keeps k c tf o :=
  h.mono (fun _ _ h => h.1) fun _ h => ⟨h.1,h.2.typed⟩

theorem block_context (k : Kernel) (c : Slot) (tf : Context) : ((k.block c tf).procs c).context = tf := by
  simp [Kernel.block, Kernel.modProc, Kernel.setProc]

theorem readKbd_keeps : Post (readKbd k c tf) (Keeps k c tf) := by
  unfold readKbd
  refine .ite (fun _ => .seq fun k₁ => done_exits rfl) fun _ => .ite (fun _ => done_exits rfl) fun _ => ?_
  exact sched_exits ⟨block_context _ c tf,fun ht => ht⟩

theorem sysRead_keeps : Post (sysRead fs k c tf) (Keeps k c tf) := by
  by_cases hkbd : ∃ fd, fdOf tf.rdx = some fd ∧ ((k.procs c).fdesc fd).fileType = .kbd
  · obtain ⟨fd,hfd,hty⟩ := hkbd
    unfold sysRead
    simp only [hfd, hty]
    refine .ite (fun _ => done_exits rfl) fun _ => .seq fun b => .ite (fun _ => done_exits rfl) fun _ => ?_
    exact .ite (fun _ => done_exits rfl) fun _ => readKbd_keeps
  · refine (sysRead_replies (X := fun _ => True) trivial fs k tf fun fd hfd hty => hkbd ⟨fd,hfd,hty⟩).mono ?_
    exact fun o ho => ho.keeps

theorem call_keeps (hexit : call ≠ .exit) (hexec : call ≠ .exec)
    (hw : call = .write → Call.write.Sound fs k c tf) : Post (call.run fs k c tf) (Keeps k c tf) := by
  by_cases hread : call = .read
  · subst hread
    exact sysRead_keeps
  by_cases hwrite : call = .write
  · subst hwrite
    refine (sysWrite_exits (X := fun _ => True) trivial k tf).mono fun o ho => ?_
    rcases ho with ho | ⟨hz,⟨fd,hfd⟩,-⟩
    · exact ho.keeps
    · exact absurd ⟨hz,by rw [hfd]; rfl⟩ (hw rfl)
  · refine (call_replies (X := fun _ => True) trivial (fun _ _ => trivial) hexit hexec hwrite ?_).mono ?_
    · exact fun h => absurd h hread
    · exact fun o ho => ho.keeps

theorem sysExec_keeps : Post (sysExec fs k c tf) (Exits (fun tf' _ => tf' = { tf with rax := tf'.rax }) fun _ => True) := by
  unfold sysExec
  refine .ite (fun _ => done_exits rfl) fun _ => .seq fun r => ?_
  obtain ⟨b,k₁⟩ := r
  cases b with
  | false => exact done_exits rfl
  | true =>
    refine .seq fun r => .ite (fun _ => done_exits rfl) fun _ => .seq fun fr => .seq fun m => .seq fun magic => ?_
    exact .ite (fun _ => .seq fun m' => done_exits rfl) fun _ => .seq fun k₂ => .seq fun m' => sched_exits trivial

theorem select_context (k : Kernel) (i j : Slot) : ((k.select i).procs j).context = (k.procs j).context := by
  by_cases hji : j = i
  · subst hji
    simp [Kernel.select, Kernel.modProc, Kernel.setProc]
  · rw [select_other k hji]

theorem select_pid (k : Kernel) (i j : Slot) : ((k.select i).procs j).pid = (k.procs j).pid := by
  have hmod : ((k.modProc i fun p => { p with state := .running }).procs j).pid = (k.procs j).pid := by
    refine modProc_pid ?_ k i j
    exact fun _ => rfl
  exact hmod

theorem call_verdict (hnum : toInt32 tf.rax = call.num) (hexit : call ≠ .exit) (hsiz : k.kbdBufSiz < 2^31)
    (hw : call = .write → Call.write.Sound fs k c tf) :
    Post (call.run fs k c tf) (Verdict fs k c tf call) := by
  cases call with
  | exit => exact absurd rfl hexit
  | fork => exact sysFork_verdict
  | exec => exact sysExec_verdict
  | wait => exact sysWait_verdict
  | openFile => exact sysOpenAs_verdict nofun trivial rfl
  | read => exact sysRead_verdict hsiz
  | write => exact sysWrite_verdict (hw rfl)
  | close => exact sysClose_verdict (not_isErrno_num hnum)
  | opendir => exact sysOpenAs_verdict nofun trivial rfl
  | readdir => exact sysReaddir_verdict
  | chdir => exact sysChdir_verdict
  | pipe => exact sysPipe_verdict
  | sbrk => exact sysSbrk_verdict
  | getpid => exact .succeeded nofun rfl .rfl

theorem sysWrite_empty (h : ¬ Call.write.Sound fs k c tf) :
    sysWrite k c tf = .ok (.ret { tf with rbx := neg einval } k) := by
  obtain ⟨hz,hfd⟩ := not_not.mp h
  obtain ⟨fd,hfd⟩ := Option.isSome_iff_exists.mp hfd
  unfold sysWrite
  simp only [hfd]
  rw [if_pos hz]

theorem answered_iff (hnum : toInt32 tf.rax = call.num) (hexit : call ≠ .exit) (hsiz : k.kbdBufSiz < 2^31)
    (h : call.run fs k c tf = .ok o) : call.Answered fs k c tf o ↔ call.Sound fs k c tf := by
  by_cases hw : call = .write → Call.write.Sound fs k c tf
  · have hverdict := call_verdict hnum hexit hsiz hw o h
    by_cases hexec : call = .exec
    · subst hexec
      have hkeeps := sysExec_keeps o h
      cases hverdict with
      | ret hv =>
        cases hkeeps with
        | ret hk => exact ⟨fun ha => hv.mp ha.2,fun hs => ⟨hk,hv.mpr hs⟩⟩
      | run hv hs => exact iff_of_true (.inl rfl) hv
    · have hkeeps := call_keeps hexit hexec hw o h
      cases hverdict with
      | ret hv =>
        cases hkeeps with
        | ret hk => exact ⟨fun ha => hv.mp ha.2,fun hs => ⟨hk,hv.mpr hs⟩⟩
      | run hv hs =>
        cases hkeeps with
        | run hk hs =>
          obtain ⟨i,-,rfl⟩ := sched_eq_ok hs
          refine iff_of_true (.inr ?_) hv
          rw [select_context]
          exact hk.1
  · obtain ⟨hcall,hempty⟩ := Classical.not_imp.mp hw
    subst hcall
    have h' : sysWrite k c tf = .ok o := h
    rw [sysWrite_empty hempty] at h'
    cases h'
    refine iff_of_false (fun ha => ?_) hempty
    have hrbx : neg einval = tf.rbx := congrArg Context.rbx ha.1
    rw [(not_not.mp hempty).1] at hrbx
    exact absurd hrbx (by decide)

/-! ## Sleepers -/

/-- The process of the slot is still there. -/
def Kernel.Lives (k : Kernel) (c : Slot) : Prop := (k.procs c).state ≠ .close ∧ (k.procs c).pid ≠ 0

/-- No pid in use, nor the next one, looks like an error number. -/
def Kernel.PidsFit (k : Kernel) : Prop := ∀ n, Updated.Pid k n → ¬ IsErrno (BitVec.ofNat 64 n)

/-- A run in which `c` waits: others run, and `c` is not closed. -/
inductive Sleeps (fs : Fs) (c : Slot) (k₀ : Kernel) : Kernel → Prop
  | start : Sleeps fs c k₀ k₀
  | step {k k' : Kernel} {s : Option Slot} (h : Sleeps fs c k₀ k) (hother : k.curproc ≠ some c)
      (hlives : k.Lives c) (hpids : k.PidsFit) (ht : Turn fs k s k') : Sleeps fs c k₀ k'

/-- What a step leaves of a sleeper in slot `j`. -/
structure Undisturbed (k k' : Kernel) (j : Slot) : Prop where
  typed : k'.phys.Typed
  own : Own (k.procs j) (k'.procs j)
  rax : (k'.procs j).context.rax = (k.procs j).context.rax ∨ Updated.Wakes k (k'.procs j).context.rax

theorem Updated.undisturbed {X : Slot → Prop} (h : Updated X k k') (ht : k.phys.Typed) (hj : ¬ X j) :
    Undisturbed k k' j := ⟨h.typed ht,h.calm.procs j hj,h.rax ht j hj⟩

theorem Undisturbed.congr (h : Undisturbed k k₁ j) (hm : k'.phys = k₁.phys)
    (hpid : (k'.procs j).pid = (k₁.procs j).pid) (hctx : (k'.procs j).context = (k₁.procs j).context) :
    Undisturbed k k' j where
  typed := hm ▸ h.typed
  own := by
    unfold Own
    rw [hpid, hctx]
    exact h.own
  rax := by
    rw [hctx]
    exact h.rax

theorem Undisturbed.leaves (h : Leaves (fun k k' => Undisturbed k k' j) k o) :
    Undisturbed k o.kernel j := by
  cases h with
  | ret h => exact h
  | run h hs =>
    obtain ⟨i,-,rfl⟩ := sched_eq_ok hs
    exact h.congr rfl (select_pid _ i j) (select_context _ i j)

theorem kbdCopies {t : ℕ} {dst : U64} {l : List ℕ} : Post (l.foldlM (kbdCopy t dst) k) fun k₁ =>
    k₁.procs = k.procs ∧ PipesKept k.phys k₁.phys := by
  refine .foldlM (fun k₁ i h₁ => ?_) ⟨rfl,.refl _⟩
  unfold kbdCopy
  exact .bind (kstore_pipes h₁.2 _ _ _) fun m hm => .ok ⟨h₁.1,hm⟩

theorem Undisturbed.of_procs (hm : k'.phys.Typed) (hp : k'.procs j = k.procs j) : Undisturbed k k' j := by
  refine ⟨hm,?_,.inl ?_⟩
  · rw [hp]
    exact .refl _
  · rw [hp]

theorem modProc_other (k : Kernel) {f : Proc → Proc} (h : j ≠ i) : (k.modProc i f).procs j = k.procs j :=
  Function.update_of_ne h ..

theorem readKbd_undisturbed (ht : k.phys.Typed) (hj : j ≠ c) :
    Post (readKbd k c tf) (Leaves (fun k k' => Undisturbed k k' j) k) := by
  unfold readKbd
  refine .ite (fun _ => .bind kbdCopies fun k₁ h₁ => ?_) fun _ => .ite (fun _ => ?_) fun _ => ?_
  · exact done_exits (.of_procs (h₁.2.typed ht) (congrFun h₁.1 j))
  · exact done_exits (.of_procs ht rfl)
  · refine sched_exits (.of_procs ht ?_)
    exact modProc_other _ hj

theorem keyboard_undisturbed (ht : k.phys.Typed) (hj : j ≠ c) :
    Post (keyboard k c tr) (Leaves (fun k k' => Undisturbed k k' j) k) := by
  unfold keyboard
  refine .ite (fun hroom => ?_) fun _ => .ok (.ret (.of_procs ht rfl))
  unfold serveKbd
  split
  · exact .ok (.ret (.of_procs ht rfl))
  · rename_i b _
    refine .bind kbdCopies fun k₁ h₁ => sched_exits ?_
    -- at most the ring and the new key
    have hsize : ∀ n, Size (BitVec.ofNat 64 (min (k.queueKey tr.getch).kbdBufSiz n)) := fun n => by
      have hle : (k.queueKey tr.getch).kbdBufSiz ≤ 4096 := hroom.2
      exact ⟨_,by omega,rfl⟩
    have htyped : k₁.phys.Typed := h₁.2.typed ht
    have hprocs : k₁.procs = k.procs := h₁.1
    by_cases hjb : j = b
    · subst hjb
      have hrax : ∀ v, ((({ k₁.wake j v with kbdProc := none }).modProc c fun p =>
          { p with context := tr.tf, state := .ready }).procs j) =
          { k.procs j with context := { (k.procs j).context with rax := v }, state := .ready } := by
        intro v
        rw [modProc_other _ hj, ← hprocs]
        exact Function.update_self ..
      refine ⟨htyped,.inl ?_,.inr (.inl ?_)⟩
      · rw [hrax]
        exact ⟨rfl,rfl⟩
      · rw [hrax]
        exact hsize _
    · refine .of_procs htyped ?_
      rw [modProc_other _ hj, ← hprocs]
      exact Function.update_of_ne hjb ..

theorem trap_undisturbed (ht : k.phys.Typed) (hj : j ≠ c) (hopen : (k.procs j).state ≠ .close) :
    Post (trapHandlerAt fs k c tr) (Leaves (fun k k' => Undisturbed k k' j) k) := by
  have htouched : ¬ Touched k c j := by
    rintro (h | h)
    · exact hj h
    · exact hopen (closedSlot_closed h)
  have hupd : ∀ {o : Outcome}, Leaves (Updated (Touched k c)) k o →
      Leaves (fun k k' => Undisturbed k k' j) k o := fun h =>
    h.mono (fun _ _ h => h.undisturbed ht htouched) fun _ h => h.undisturbed ht htouched
  by_cases hv : tr.vecnum = 36
  · unfold trapHandlerAt
    simp only [hv]
    exact keyboard_undisturbed ht hj
  by_cases hr : tr.ReadsKbd k c
  · rw [ReadsKbd.run hr]
    obtain ⟨-,-,fd,hfd,hty⟩ := hr
    have hdone : ∀ {v}, Post (k.done tr.tf v) (Leaves (fun k k' => Undisturbed k k' j) k) :=
      done_exits (.of_procs ht rfl)
    unfold sysRead
    simp only [hfd, hty]
    refine .ite (fun _ => hdone) fun _ => .seq fun b => .ite (fun _ => hdone) fun _ => ?_
    exact .ite (fun _ => hdone) fun _ => readKbd_undisturbed ht hj
  · exact (trap_updated hv hr).mono fun o ho => hupd ho

theorem userStore_pipes {m m' : Phys} {t v : ℕ} {b : UInt8} (h : userStore m t v b = some m') :
    PipesKept m m' := by
  unfold userStore at h
  dsimp only at h
  split at h
  · cases h
    exact (PipesKept.refl m).setByte ..
  · cases h

theorem Turn.undisturbed {s : Option Slot} (ht : k.phys.Typed) (hother : k.curproc ≠ some j)
    (hopen : (k.procs j).state ≠ .close) (h : Turn fs k s k') : Undisturbed k k' j := by
  have htrap : ∀ {tr : Trap} {o : Outcome}, trapHandler fs k tr = .ok o → Undisturbed k o.kernel j := by
    intro tr o ho
    unfold trapHandler at ho
    split at ho
    · cases ho
    · rename_i c hc
      have hjc : j ≠ c := by
        rintro rfl
        exact hother hc
      exact .leaves (trap_undisturbed ht hjc hopen o ho)
  cases h with
  | ret h => exact htrap h
  | run h => exact htrap h
  | store hc h => exact .of_procs ((userStore_pipes h).typed ht) rfl

/-- Along a sleep the saved registers stay, and `rax` is no error number. -/
theorem Sleeps.kept {k₀ : Kernel} (hs : Sleeps fs c k₀ k) (ht : k₀.phys.Typed)
    (hctx : (k₀.procs c).context = tf) (htf : ¬ IsErrno tf.rax) :
    k.phys.Typed ∧ ((k.procs c).pid ≠ 0 → (k.procs c).context = { tf with rax := (k.procs c).context.rax } ∧
      ¬ IsErrno (k.procs c).context.rax) := by
  induction hs with
  | start =>
    rw [hctx]
    exact ⟨ht,fun _ => ⟨rfl,htf⟩⟩
  | step h hother hlives hpids hturn ih =>
    obtain ⟨ht',ih⟩ := ih
    obtain ⟨hregs,hrax⟩ := ih hlives.2
    have hstep := hturn.undisturbed ht' hother hlives.1
    refine ⟨hstep.typed,fun hpid => ⟨?_,?_⟩⟩
    · rcases hstep.own with ⟨-,hown⟩ | hown
      · rw [hown, hregs]
      · exact absurd hown hpid
    · rcases hstep.rax with heq | hsize | ⟨n,hn,heq⟩
      · rw [heq]
        exact hrax
      · exact hsize.not_isErrno
      · rw [heq]
        exact hpids n hn

/-- `write(1, 0, 0)`. -/
def emptyWrite : Context := { Context.zero with rax := 6, rdx := 1 }

theorem syscall_emptyWrite (fs : Fs) (k : Kernel) (c : Slot) :
    syscall fs k c emptyWrite = .ok (.ret { emptyWrite with rbx := neg einval } k) := by
  rw [syscall_run .write (by decide)]
  have hempty : ¬ Call.write.Sound fs k c emptyWrite := not_not.mpr ⟨rfl,by decide⟩
  exact sysWrite_empty hempty

end Ukern
