import Ukern.Process.Frame
import Ukern.Run.Effect

/-! # Round robin

`sched` takes the first ready process after the current one, in a circle. Nothing but
`sched` moves the current process, so along every run the distance from it to a process
that stays ready only shrinks: the ready process is reached before anyone is chosen twice.
-/
namespace Ukern
open Lib
variable {fs : Fs} {k k₁ k' : Kernel} {c i j p q : Slot} {tf : Context} {o : Outcome} {tr : Trap}
  {X : Slot → Prop}

/-! ## What a trap leaves alone -/

theorem call_replies (hX : X c) (hn : ∀ n, k.closedSlot = some n → X n) {call : Call}
    (hexit : call ≠ .exit) (hexec : call ≠ .exec) (hwrite : call ≠ .write)
    (hread : call = .read → ∀ fd, fdOf tf.rdx = some fd → ((k.procs c).fdesc fd).fileType ≠ .kbd) :
    Post (call.run fs k c tf) (Replies X k c tf) := by
  cases call with
  | exit => exact absurd rfl hexit
  | fork => exact sysFork_replies hn c tf
  | exec => exact absurd rfl hexec
  | wait => exact sysWait_replies hX k tf
  | openFile => exact sysOpenAs_replies false fs k c tf
  | read => exact sysRead_replies hX fs k tf (hread rfl)
  | write => exact absurd rfl hwrite
  | close => exact sysClose_replies k c tf
  | opendir => exact sysOpenAs_replies true fs k c tf
  | readdir => exact sysReaddir_replies fs k c tf
  | chdir => exact sysChdir_replies fs k c tf
  | pipe => exact sysPipe_replies k c tf
  | sbrk => exact sysSbrk_replies k c tf
  | getpid => exact Replies.done .refl c tf _

theorem call_leaves (hX : X c) (hn : ∀ n, k.closedSlot = some n → X n) {call : Call}
    (hread : call = .read → ∀ fd, fdOf tf.rdx = some fd → ((k.procs c).fdesc fd).fileType ≠ .kbd) :
    Post (call.run fs k c tf) (Leaves (Updated X) k) := by
  by_cases hexit : call = .exit
  · subst hexit
    exact .bind (killProc_updated .refl c _) fun k₁ h₁ => sched_exits h₁
  by_cases hexec : call = .exec
  · subst hexec
    exact sysExec_leaves hX fs k tf
  by_cases hwrite : call = .write
  · subst hwrite
    refine (sysWrite_exits hX k tf).mono fun o ho => ?_
    rcases ho with ho | ⟨-,-,rfl⟩
    · exact ho.leaves
    · exact .ret .refl
  · exact (call_replies hX hn hexit hexec hwrite hread).mono fun o ho => ho.leaves

theorem syscall_leaves (hX : X c) (hn : ∀ n, k.closedSlot = some n → X n)
    (hread : toInt32 tf.rax = sysReadNum → ∀ fd, fdOf tf.rdx = some fd →
      ((k.procs c).fdesc fd).fileType ≠ .kbd) :
    Post (syscall fs k c tf) (Leaves (Updated X) k) := by
  by_cases hk : ∃ call : Call, toInt32 tf.rax = call.num
  · obtain ⟨call,hnum⟩ := hk
    rw [syscall_run call hnum]
    refine call_leaves hX hn fun hcall => hread ?_
    rw [hnum, hcall]
    rfl
  · rw [syscall_unknown fun call hc => hk ⟨call,hc⟩]
    exact .bind (killProc_updated .refl c _) fun k₁ h₁ => .ok (.ret h₁)

theorem trap_updated (hv : tr.vecnum ≠ 36) (hr : ¬ tr.ReadsKbd k c) :
    Post (trapHandlerAt fs k c tr) (Leaves (Updated (Touched k c)) k) := by
  have hX : Touched k c c := .inl rfl
  unfold trapHandlerAt
  split
  · exact .bind (killProc_updated .refl c _) fun k₁ h₁ => sched_exits h₁
  · exact pageFaultHandler_leaves k c tr
  · rename_i hv32
    exact syscall_leaves hX (fun n hn => .inr hn) fun hnum fd hfd hty => hr ⟨hv32,hnum,fd,hfd,hty⟩
  · refine sched_exits ?_
    exact .modOwn .refl hX fun _ => rfl
  · rename_i hv36
    exact absurd hv36 hv
  · exact .ite (fun _ => .ok (.ret .refl)) fun _ => .error _

theorem trap_calm (hv : tr.vecnum ≠ 36) (hr : ¬ tr.ReadsKbd k c) :
    Post (trapHandlerAt fs k c tr) (Leaves (Calm (Touched k c)) k) :=
  (trap_updated hv hr).mono fun _ h => h.calm

/-- The trap is a read of the keyboard that passes the checks of `sys_read`. -/
def Trap.readsKeys (tr : Trap) (k : Kernel) (c : Slot) : Bool :=
  tr.vecnum == 32 && toInt32 tr.tf.rax == sysReadNum &&
    match fdOf tr.tf.rdx, checkMem k.phys (k.procs c).pPgtbl tr.tf.rcx tr.tf.rbx (pteU ||| pteW) with
    | some fd, .ok ok => tr.tf.rbx != 0 && ok && ((k.procs c).fdesc fd).inuse &&
        ((k.procs c).fdesc fd).fileType == .kbd
    | _, _ => false

theorem ReadsKbd.run (hr : tr.ReadsKbd k c) : trapHandlerAt fs k c tr = sysRead fs k c tr.tf := by
  obtain ⟨hv,hnum,-⟩ := hr
  unfold trapHandlerAt
  simp only [hv]
  exact syscall_run .read hnum

theorem readsKeys_cases (hr : tr.ReadsKbd k c) (h : trapHandlerAt fs k c tr = .ok o) :
    tr.readsKeys k c = true ∧ readKbd k c tr.tf = .ok o ∨
      tr.readsKeys k c = false ∧ Leaves (Calm (Touched k c)) k o := by
  have hdone : ∀ {v}, k.done tr.tf v = .ok o → Leaves (Calm (Touched k c)) k o :=
    fun ho => done_exits (Calm.refl k) o ho
  rw [ReadsKbd.run hr] at h
  obtain ⟨hv,hnum,fd,hfd,hty⟩ := hr
  unfold sysRead at h
  simp only [hfd, hty] at h
  unfold Trap.readsKeys
  simp only [hv, hnum, hfd, beq_self_eq_true, Bool.true_and]
  split at h
  · rename_i hb
    refine .inr ⟨?_,hdone h⟩
    split
    · simp [hb]
    · rfl
  · rename_i hb
    have hb' : (tr.tf.rbx != 0) = true := by simpa using hb
    obtain ⟨b,hm,h⟩ := bind_eq_ok.mp h
    simp only [hm, hb', hty, beq_self_eq_true, Bool.true_and, Bool.and_true]
    split at h
    · rename_i hf
      have hbf : b = false := by simpa using hf
      exact .inr ⟨by simp [hbf],hdone h⟩
    · rename_i ht
      have hbt : b = true := by simpa using ht
      split at h
      · rename_i hu
        exact .inr ⟨by simpa [hbt] using hu,hdone h⟩
      · rename_i hu
        exact .inl ⟨by simpa [hbt] using hu,h⟩

theorem trap_frame : Post (trapHandlerAt fs k c tr) (Leaves (Frame (Touched k c)) k) := by
  have hX : Touched k c c := .inl rfl
  by_cases hv : tr.vecnum = 36
  · unfold trapHandlerAt
    simp only [hv]
    exact keyboard_leaves hX k tr
  by_cases hr : tr.ReadsKbd k c
  · intro o ho
    rcases readsKeys_cases hr ho with ⟨-,ho⟩ | ⟨-,ho⟩
    · exact readKbd_leaves hX k tr.tf o ho
    · exact ho.frame
  · exact (trap_calm hv hr).mono fun o ho => ho.frame

/-! ## The choice of `sched` -/

/-- `int curid`. -/
def Kernel.curid (k : Kernel) : ℕ :=
  match k.curproc with
  | some c => c.val
  | none => 0

/-- How many slots lie between the current one and `j` in the circle; the current slot
itself is the farthest. -/
def Kernel.ahead (k : Kernel) (j : Slot) : ℕ := (j.val + nprocs - 1 - k.curid) % nprocs

theorem curid_lt (k : Kernel) : k.curid < nprocs := by
  unfold Kernel.curid
  split
  · rename_i c _
    exact c.isLt
  · decide

theorem ahead_lt (k : Kernel) (j : Slot) : k.ahead j < nprocs := Nat.mod_lt _ (by decide)

theorem slotAt_ahead (k : Kernel) (j : Slot) : slotAt (k.curid + 1 + k.ahead j) = j := by
  have harith : ∀ a b : ℕ, a < 1024 → b < 1024 → (a + 1 + (b + 1024 - 1 - a) % 1024) % 1024 = b := by
    omega
  exact Fin.ext (harith _ _ (curid_lt k) j.isLt)

theorem ahead_slotAt (k : Kernel) {d : ℕ} (hd : d < nprocs) : k.ahead (slotAt (k.curid + 1 + d)) = d := by
  have harith : ∀ a d : ℕ, a < 1024 → d < 1024 → ((a + 1 + d) % 1024 + 1024 - 1 - a) % 1024 = d := by
    omega
  exact harith _ _ (curid_lt k) hd

/-- `i` is the ready process that comes first after the current one. -/
structure Next (k : Kernel) (i : Slot) : Prop where
  ready : (k.procs i).state = .ready
  first : ∀ j, (k.procs j).state = .ready → k.ahead i ≤ k.ahead j

/-- What `run_proc` gets: `i` is running and current, and nothing else changed. -/
def Kernel.select (k : Kernel) (i : Slot) : Kernel :=
  { k.modProc i fun p => { p with state := .running } with curproc := some i }

theorem schedOrder_eq (k : Kernel) :
    k.schedOrder = (List.range nprocs).map fun d => slotAt (k.curid + 1 + d) := rfl

theorem sched_eq_ok (h : sched k = .ok k') : ∃ i, Next k i ∧ k' = k.select i := by
  unfold sched at h
  split at h
  · cases h
  · rename_i i hi
    cases h
    refine ⟨i,?_,rfl⟩
    rw [schedOrder_eq, List.find?_map, Option.map_eq_some_iff] at hi
    obtain ⟨d,hd,rfl⟩ := hi
    rw [List.find?_range_eq_some] at hd
    obtain ⟨hready,hlt,hbefore⟩ := hd
    have hd' : d < nprocs := List.mem_range.mp hlt
    refine ⟨by simpa using hready,fun j hj => ?_⟩
    rw [ahead_slotAt k hd']
    by_contra hlt'
    have hno := hbefore (k.ahead j) (by omega)
    simp [slotAt_ahead, hj] at hno

theorem sched_returns (h : (k.procs j).state = .ready) : ∃ k', sched k = .ok k' := by
  unfold sched
  split
  · rename_i hnone
    rw [schedOrder_eq, List.find?_eq_none] at hnone
    have hno := hnone j (List.mem_map.mpr ⟨k.ahead j,List.mem_range.mpr (ahead_lt k j),slotAt_ahead k j⟩)
    simp [h] at hno
  · exact ⟨_,rfl⟩

theorem ahead_select (hlt : k.ahead i < k.ahead q) : (k.select i).ahead q < k.ahead q := by
  have harith : ∀ a b c : ℕ, a < 1024 → b < 1024 → c < 1024 →
      (b + 1024 - 1 - a) % 1024 < (c + 1024 - 1 - a) % 1024 →
      (c + 1024 - 1 - b) % 1024 < (c + 1024 - 1 - a) % 1024 := by
    omega
  exact harith _ _ _ (curid_lt k) i.isLt q.isLt hlt

theorem ahead_inj (h : k.ahead i = k.ahead j) : i = j := by
  rw [← slotAt_ahead k i, h, slotAt_ahead]

@[simp] theorem select_self (k : Kernel) (i : Slot) : ((k.select i).procs i).state = .running := by
  simp [Kernel.select, Kernel.modProc, Kernel.setProc]

theorem select_other (k : Kernel) (h : j ≠ i) : (k.select i).procs j = k.procs j :=
  Function.update_of_ne h _ _

/-! ## Runs -/

/-- A step of a run, with the process that `sched` chose in it. -/
inductive Turn (fs : Fs) : Kernel → Option Slot → Kernel → Prop
  | ret {k k' : Kernel} {tr : Trap} {tf : Context} (h : trapHandler fs k tr = .ok (.ret tf k')) : Turn fs k none k'
  | run {k k' : Kernel} {tr : Trap} (h : trapHandler fs k tr = .ok (.run k')) : Turn fs k k'.curproc k'
  | store {k : Kernel} {c : Slot} {v : ℕ} {b : UInt8} {m : Phys} (hc : k.curproc = some c)
      (h : userStore k.phys (k.procs c).pgtbl v b = some m) : Turn fs k none (k.setPhys m)

theorem trapHandler_frame (h : trapHandler fs k tr = .ok o) :
    ∃ c, k.curproc = some c ∧ Leaves (Frame (Touched k c)) k o := by
  unfold trapHandler at h
  split at h
  · cases h
  · rename_i c hc
    exact ⟨c,hc,trap_frame o h⟩

theorem Frame.ahead (h : Frame X k k') (j : Slot) : k'.ahead j = k.ahead j := by
  unfold Kernel.ahead Kernel.curid
  rw [h.cur]

theorem Turn.ahead_none {s : Option Slot} (h : Turn fs k s k') (hs : s = none) (j : Slot) :
    k'.ahead j = k.ahead j := by
  cases h with
  | ret h =>
    obtain ⟨c,-,hl⟩ := trapHandler_frame h
    cases hl with
    | ret hf => exact hf.ahead j
  | run h =>
    obtain ⟨c,-,hl⟩ := trapHandler_frame h
    cases hl with
    | run hf hsch =>
      obtain ⟨i,-,rfl⟩ := sched_eq_ok hsch
      cases hs
  | store hc h => rfl

/-- A step in which `p` is chosen while `q` stays ready brings `q` nearer. -/
theorem Turn.ahead_some {s : Option Slot} (h : Turn fs k s k') (hs : s = some p)
    (hq : (k'.procs q).state = .ready) :
    k'.curproc = some p ∧ (k'.procs p).state = .running ∧ k'.ahead q < k.ahead q := by
  cases h with
  | ret h => cases hs
  | run h =>
    obtain ⟨c,-,hl⟩ := trapHandler_frame h
    cases hl with
    | run hf hsch =>
      obtain ⟨i,hnext,rfl⟩ := sched_eq_ok hsch
      cases hs
      rename_i k₁
      have hqp : q ≠ p := by
        rintro rfl
        rw [select_self] at hq
        cases hq
      rw [select_other k₁ hqp] at hq
      have hle := hnext.first q hq
      have hne : k₁.ahead p ≠ k₁.ahead q := fun h => hqp (ahead_inj h).symm
      refine ⟨rfl,select_self k₁ p,?_⟩
      rw [← hf.ahead q]
      exact ahead_select (lt_of_le_of_ne hle hne)
  | store hc h => cases hs

theorem ahead_le {run : ℕ → Kernel} {sel : ℕ → Option Slot} {a b : ℕ} (hab : a ≤ b)
    (hrun : ∀ t, a ≤ t → t < b → Turn fs (run t) (sel t) (run (t+1)))
    (hq : ∀ t, a ≤ t → t ≤ b → ((run t).procs q).state = .ready) :
    (run b).ahead q ≤ (run a).ahead q := by
  induction b, hab using Nat.le_induction with
  | base => exact le_rfl
  | succ b hab ih =>
    have hle := ih (fun t ha hb => hrun t ha (by omega)) fun t ha hb => hq t ha (by omega)
    have hturn := hrun b hab (Nat.lt_succ_self b)
    cases hs : sel b with
    | none => exact (hturn.ahead_none hs q).le.trans hle
    | some p => exact (hturn.ahead_some hs (hq (b+1) (by omega) le_rfl)).2.2.le.trans hle

end Ukern
