import Ukern.Process.Transfer

/-! # What a trap can do

One inversion lemma for `trap_handler`: the call that was made, and what the functions
below it are known to have done.
-/
namespace Ukern
open Lib
variable {fs : Fs} {k k' : Kernel} {c : Slot} {tf : Context} {o : Outcome} {tr : Trap}

/-- The system calls there are. -/
inductive Call
  | exit | fork | exec | wait | openFile | read | write | close | opendir | readdir | chdir | pipe | sbrk | getpid
  deriving DecidableEq, Repr

def Call.num : Call → ℤ
  | exit => sysExitNum
  | fork => sysForkNum
  | exec => sysExecNum
  | wait => sysWaitNum
  | openFile => sysOpenNum
  | read => sysReadNum
  | write => sysWriteNum
  | close => sysCloseNum
  | opendir => sysOpendirNum
  | readdir => sysReaddirNum
  | chdir => sysChdirNum
  | pipe => sysPipeNum
  | sbrk => sysSbrkNum
  | getpid => sysGetpidNum

def Call.run (fs : Fs) (k : Kernel) (c : Slot) (tf : Context) : Call → Except Fault Outcome
  | exit => sysExit k c tf.rdx
  | fork => sysFork k c tf
  | exec => sysExec fs k c tf
  | wait => sysWait k c tf
  | openFile => sysOpen fs k c tf
  | read => sysRead fs k c tf
  | write => sysWrite k c tf
  | close => sysClose k c tf
  | opendir => sysOpendir fs k c tf
  | readdir => sysReaddir fs k c tf
  | chdir => sysChdir fs k c tf
  | pipe => sysPipe k c tf
  | sbrk => sysSbrk k c tf
  | getpid => sysGetpid k c tf

/-- The trap is this system call. -/
def Trap.Calls (tr : Trap) (call : Call) : Prop := tr.vecnum = 32 ∧ toInt32 tr.tf.rax = call.num

theorem syscall_run (call : Call) (h : toInt32 tf.rax = call.num) :
    syscall fs k c tf = call.run fs k c tf := by
  unfold syscall
  extract_lets num
  have hn : num = call.num := h
  clear_value num
  subst hn
  cases call <;> rfl

theorem syscall_unknown (h : ∀ call : Call, toInt32 tf.rax ≠ call.num) :
    syscall fs k c tf = killProc k c killStatus >>= fun k' => .ok (.ret tf k') := by
  unfold syscall
  extract_lets num
  have hn : ∀ call : Call, num ≠ call.num := h
  clear_value num
  rw [if_neg (show num ≠ sysExitNum from hn .exit), if_neg (show num ≠ sysForkNum from hn .fork),
    if_neg (show num ≠ sysExecNum from hn .exec), if_neg (show num ≠ sysWaitNum from hn .wait),
    if_neg (show num ≠ sysOpenNum from hn .openFile), if_neg (show num ≠ sysReadNum from hn .read),
    if_neg (show num ≠ sysWriteNum from hn .write), if_neg (show num ≠ sysCloseNum from hn .close),
    if_neg (show num ≠ sysOpendirNum from hn .opendir), if_neg (show num ≠ sysReaddirNum from hn .readdir),
    if_neg (show num ≠ sysChdirNum from hn .chdir), if_neg (show num ≠ sysPipeNum from hn .pipe),
    if_neg (show num ≠ sysSbrkNum from hn .sbrk), if_neg (show num ≠ sysGetpidNum from hn .getpid)]

theorem trapHandler_syscall (hc : k.curproc = some c) (hv : tr.vecnum = 32) :
    trapHandler fs k tr = syscall fs k c tr.tf := by
  unfold trapHandler trapHandlerAt
  simp only [hc,hv]

theorem trapHandler_call (call : Call) (hc : k.curproc = some c) (h : tr.Calls call) :
    trapHandler fs k tr = call.run fs k c tr.tf := by
  rw [trapHandler_syscall hc h.1, syscall_run call h.2]

theorem end_ne_zero {fd : ℕ} {ty : FileType} (hc : (k.procs c).state ≠ .close) (hfd : fd < nfdesc)
    (hu : ((k.procs c).fdesc fd).inuse = true) (hty : ((k.procs c).fdesc fd).fileType = ty) :
    ends k ty ((k.procs c).fdesc fd).pipe ≠ 0 := by
  have h := hits_le_ends hc hfd ty ((k.procs c).fdesc fd).pipe
  rw [hits_kind hu hty, if_pos rfl] at h
  omega

/-- The trap ends the process: a division by zero, an exit, a call that does not exist, or a page fault that no
private copy answers. -/
def Trap.Fatal (tr : Trap) (k : Kernel) (c : Slot) : Prop :=
  tr.vecnum = 0 ∨ tr.vecnum = 32 ∧ (toInt32 tr.tf.rax = Call.exit.num ∨ ∀ call : Call, toInt32 tr.tf.rax ≠ call.num) ∨
    tr.vecnum = 14 ∧ (tr.errno ≠ 7 ∨
      (lookup k.phys (k.procs c).pPgtbl tr.cr2.toNat).covers (pteP ||| pteU ||| pteW) = false)

/-- The ways a trap taken from `c` can end. -/
inductive Effect (k : Kernel) (c : Slot) (tr : Trap) (o : Outcome) : Prop
  | returned (h : Returned k o)
  | forked (hc : tr.Calls .fork) (h : sysFork k c tr.tf = .ok o)
  | execed {k₁ k₂ : Kernel} (hq : Quiet k k₁) (he : ExecOk k₁ k₂ c) (hs : k₂.sched = .ok o)
  | killed {v : U64} {k₁ : Kernel} (hk : killProc k c v = .ok k₁) (hs : k₁.sched = .ok o) (hf : tr.Fatal k c)
  | unknown {k₁ : Kernel} (hv : tr.vecnum = 32) (hu : ∀ call : Call, toInt32 tr.tf.rax ≠ call.num)
      (hk : killProc k c killStatus = .ok k₁) (ho : o = .ret tr.tf k₁)
  | yielded (hs : (k.modProc c fun p => { p with
      context := tr.tf, state := .ready, execTime := (p.execTime + 1) % 2^64 }).sched = .ok o)
  | keyed (hs : keyboard k c tr = .ok o)
  | readKbd (hs : Ukern.readKbd k c tr.tf = .ok o)
  | waited (hc : tr.Calls .wait) (hs : sysWait k c tr.tf = .ok o)
  | piped {tf : Context} {k' : Kernel} {pg : ℕ} (ho : o = .ret tf k') (hp : Piped k k' c pg)
  | readPipe {fd : ℕ} (hc : tr.Calls .read) (hfd : fdOf tr.tf.rdx = some fd)
      (hty : ((k.procs c).fdesc fd).fileType = .rpipe) (hpg : ends k .rpipe ((k.procs c).fdesc fd).pipe ≠ 0)
      (hs : Ukern.readPipe k c ((k.procs c).fdesc fd).pipe tr.tf = .ok o)
  | wrotePipe {fd : ℕ} (hc : tr.Calls .write) (hfd : fdOf tr.tf.rdx = some fd)
      (hty : ((k.procs c).fdesc fd).fileType = .wpipe) (hpg : ends k .wpipe ((k.procs c).fdesc fd).pipe ≠ 0)
      (hb0 : tr.tf.rbx ≠ 0) (hs : writePipe k c ((k.procs c).fdesc fd).pipe tr.tf = .ok o)
  | closed (hc : tr.Calls .close) (hs : sysClose k c tr.tf = .ok o)

theorem read_effect (h : KInv k) (hc : (k.procs c).state ≠ .close) (hcall : tr.Calls .read)
    (hs : sysRead fs k c tr.tf = .ok o) : Effect k c tr o := by
  unfold sysRead at hs
  split at hs
  · exact .returned (.done (.refl h) hs)
  rename_i fd hfd
  split at hs
  · exact .returned (.done (.refl h) hs)
  obtain ⟨b,-,hs⟩ := bind_eq_ok.mp hs
  split at hs
  · exact .returned (.done (.refl h) hs)
  simp only at hs
  split at hs
  · exact .returned (.done (.refl h) hs)
  rename_i hu
  have hlt : fd < nfdesc := fdOf_lt hfd
  split at hs
  · exact .readKbd hs
  · exact .returned (readReg_returned h hc hlt hs)
  · rename_i hty
    exact .readPipe hcall hfd hty (end_ne_zero hc hlt (by simpa using hu) hty) hs
  · exact .returned (.done (.refl h) hs)

theorem write_effect (h : KInv k) (hc : (k.procs c).state ≠ .close) (hcall : tr.Calls .write)
    (hs : sysWrite k c tr.tf = .ok o) : Effect k c tr o := by
  unfold sysWrite at hs
  split at hs
  · exact .returned (.done (.refl h) hs)
  rename_i fd hfd
  split at hs
  · cases hs
    exact .returned ⟨_,_,rfl,.refl h⟩
  rename_i hb0
  obtain ⟨b,-,hs⟩ := bind_eq_ok.mp hs
  split at hs
  · exact .returned (.done (.refl h) hs)
  simp only at hs
  split at hs
  · exact .returned (.done (.refl h) hs)
  rename_i hu
  split at hs
  · obtain ⟨_,-,hs⟩ := bind_eq_ok.mp hs
    exact .returned (.done (.refl h) hs)
  · rename_i hty
    exact .wrotePipe hcall hfd hty (end_ne_zero hc (fdOf_lt hfd) (by simpa using hu) hty) hb0 hs
  · exact .returned (.done (.refl h) hs)

theorem syscall_effect (h : KInv k) (hc : (k.procs c).state ≠ .close) (hv : tr.vecnum = 32)
    (hs : syscall fs k c tr.tf = .ok o) : Effect k c tr o := by
  by_cases hk : ∃ call : Call, toInt32 tr.tf.rax = call.num
  · obtain ⟨call,hnum⟩ := hk
    rw [syscall_run call hnum] at hs
    cases call with
    | exit =>
      obtain ⟨k₁,hk,hs⟩ := bind_eq_ok.mp hs
      exact .killed hk hs (Or.inr (Or.inl ⟨hv,Or.inl hnum⟩))
    | fork => exact .forked ⟨hv,hnum⟩ hs
    | exec =>
      rcases sysExec_spec h hc hs with hr | ⟨k₁,k₂,he,hs⟩
      · exact .returned hr
      · exact .execed he.quiet he.ok hs
    | wait => exact .waited ⟨hv,hnum⟩ hs
    | openFile => exact .returned (sysOpenAs_returned h hc hs)
    | read => exact read_effect h hc ⟨hv,hnum⟩ hs
    | write => exact write_effect h hc ⟨hv,hnum⟩ hs
    | close => exact .closed ⟨hv,hnum⟩ hs
    | opendir => exact .returned (sysOpenAs_returned h hc hs)
    | readdir => exact .returned (sysReaddir_returned h hc hs)
    | chdir => exact .returned (sysChdir_returned h hs)
    | pipe =>
      rcases sysPipe_spec h hc hs with hr | ⟨tf',k',pg,ho,hp⟩
      · exact .returned hr
      · exact .piped ho hp
    | sbrk => exact .returned (sysSbrk_returned h hc hs)
    | getpid => exact .returned (.done (.refl h) hs)
  · have hu : ∀ call : Call, toInt32 tr.tf.rax ≠ call.num := fun call hn => hk ⟨call,hn⟩
    rw [syscall_unknown hu] at hs
    obtain ⟨k₁,hk₁,hs⟩ := bind_eq_ok.mp hs
    exact .unknown hv hu hk₁ (Except.ok.inj hs).symm

theorem lookup_of_walk {m m' : Phys} {t v : ℕ} {w : Walk} (h : walkPgtbl m t v false = .ok (w,m')) :
    (∃ p i, w = .slot p i ∧ lookup m t v = m.tbl p i) ∨ w = .efault ∧ lookup m t v = .zero := by
  obtain ⟨-,rfl⟩ := walkPgtbl_read h
  rw [lookup, Radix.leafAt_eq_slot]
  cases Radix.slotOf Pte.link 512 m.tbl 3 t (key 3 v) with
  | none => exact Or.inr ⟨rfl,rfl⟩
  | some s => exact Or.inl ⟨s.1,s.2,rfl,rfl⟩

theorem pageFault_effect (h : KInv k) (hc : (k.procs c).state ≠ .close) (hv : tr.vecnum = 14)
    (hs : pageFaultHandler k c tr = .ok o) : Effect k c tr o := by
  have hkill : ∀ {v : U64}, (tr.errno ≠ 7 ∨ (lookup k.phys (k.procs c).pPgtbl tr.cr2.toNat).covers
      (pteP ||| pteU ||| pteW) = false) → (do (← killProc k c v).sched) = .ok o → Effect k c tr o := fun hf hs => by
    obtain ⟨k₁,hk,hs⟩ := bind_eq_ok.mp hs
    exact .killed hk hs (Or.inr (Or.inr ⟨hv,hf⟩))
  unfold pageFaultHandler at hs
  split at hs
  · rename_i herr
    split at hs
    · cases hs
    · exact hkill (Or.inl herr) hs
  · obtain ⟨⟨w,m₁⟩,hw,hs⟩ := bind_eq_ok.mp hs
    rcases lookup_of_walk hw with ⟨t,i,rfl,hleaf⟩ | ⟨rfl,hleaf⟩
    · simp only at hs
      split at hs
      · rename_i hcov
        obtain ⟨m,hb,hs⟩ := bind_eq_ok.mp hs
        cases hs
        exact .returned ⟨_,_,rfl,breakCow_quiet h hc hw hcov hb⟩
      · rename_i hcov
        exact hkill (Or.inr (by rw [hleaf]; simpa using hcov)) hs
    · exact hkill (Or.inr (by rw [hleaf]; decide)) hs

theorem trap_effect (h : KInv k) (hc : (k.procs c).state ≠ .close) (hs : trapHandlerAt fs k c tr = .ok o) :
    Effect k c tr o := by
  unfold trapHandlerAt at hs
  split at hs
  · rename_i hv
    obtain ⟨k₁,hk,hs⟩ := bind_eq_ok.mp hs
    exact .killed hk hs (Or.inl hv)
  · rename_i hv
    exact pageFault_effect h hc hv hs
  · rename_i hv
    exact syscall_effect h hc hv hs
  · exact .yielded hs
  · exact .keyed hs
  · split at hs
    · cases hs
      exact .returned ⟨_,_,rfl,.refl h⟩
    · cases hs

end Ukern
