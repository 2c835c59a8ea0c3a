import Ukern.Lib.Eager
import Ukern.Run.Forest
import Ukern.Run.Isolation

/-! # Copy-on-write and eager copies

What every living process reads is a memory of its own: the kernel with its shared pages refines the machine that
copies everything at `sys_fork`. A store writes one memory, an exit takes one away and leaves the status with the
parent that waits for it, `sys_exec` and `sys_sbrk` replace the memory of their caller, and nothing else that hands
out no data, a fault on a shared page in particular, is noticed by anybody.
-/
namespace Ukern
open Lib Lib.Radix
variable {fs : Fs} {k k' k₁ : Kernel} {c j n q : Slot} {m : Phys} {v : U64} {b : UInt8} {o : Outcome} {tr : Trap}
  {tf : Context} {S : Slot → Prop} {l : List (Act Slot ℕ UInt8)}

instance (k : Kernel) (j : Slot) : Decidable (Dead k j) :=
  inferInstanceAs (Decidable ((k.procs j).state = .close ∨ (k.procs j).state = .zombie))

/-- What the living processes read. -/
def memories (k : Kernel) : Memories Slot ℕ UInt8 := fun j =>
  if Dead k j then none else some (userLoad k.phys (k.procs j).pgtbl)

theorem memories_some (h : ¬ Dead k j) : memories k j = some (userLoad k.phys (k.procs j).pgtbl) := if_neg h

theorem memories_none (h : Dead k j) : memories k j = none := if_pos h

theorem not_dead_open (h : ¬ Dead k j) : (k.procs j).state ≠ .close := fun hc => h (Or.inl hc)

/-- A process that is spared, dead or alive as before, has the memory it had. -/
theorem Spared.memories (h : Spared k k' j) (hk : KInv k) (hk' : KInv k') (hd : Dead k' j ↔ Dead k j) :
    memories k' j = memories k j := by
  by_cases hj : Dead k j
  · rw [memories_none hj, memories_none (hd.mpr hj)]
  · have hj' : ¬ Dead k' j := fun hd' => hj (hd.mp hd')
    rw [memories_some hj, memories_some hj']
    exact congrArg some (funext (h.userLoad hk hk' (not_dead_open hj')))

/-- If the memories differ in one place, they are one update apart. -/
theorem memories_update {M : Option (ℕ → Option UInt8)} (hx : memories k' c = M)
    (hrest : ∀ q ≠ c, memories k' q = memories k q) : memories k' = Function.update (memories k) c M := by
  funext q
  by_cases hq : q = c
  · rw [hq, Function.update_self, hx]
  · rw [Function.update_of_ne hq, hrest q hq]

/-! ## Who is dead after a trap -/

theorem Kindred.dead (h : Kindred k k') (j : Slot) : Dead k' j ↔ Dead k j := or_congr (h.close j) (h.zombie j)

/-- Whoever is woken was blocked, so a slot that is dead afterwards was dead before or is given up. -/
theorem Ended.dead_iff (he : Ended k k' S) (hr : Reg k) (hS : S j → Dead k j) : Dead k' j ↔ Dead k j := by
  refine ⟨fun hd => ?_,(he.states hr j).2.1⟩
  have hlive : ∀ {p : Proc}, p.state = .ready → (k'.procs j).core = p.core → ¬ Dead k' j := fun h1 h2 => by
    simp [Dead,Proc.state_of_core h2,h1]
  cases he.fate j with
  | kept h1 => simpa only [Dead,Proc.state_of_core h1] using hd
  | cleared hj _ => exact hS hj
  | zombie hj _ _ _ _ => exact hS hj
  | woken pg ctx _ _ _ h1 => exact absurd hd (hlive rfl h1)
  | reported ctx _ h1 => exact absurd hd (hlive rfl h1)

theorem wait_dead (h : Sys k c) (hg : Orderly k c tr) (hs : sysWait k c tf = .ok o) (j : Slot) :
    Dead o.kernel j ↔ Dead k j := by
  unfold sysWait at hs
  obtain ⟨ok,-,hs⟩ := bind_eq_ok.mp hs
  split at hs
  · exact (Returned.done (.refl h.inv) hs).kindred.dead j
  split at hs
  · rename_i z hz
    have hzomb : (k.procs z).state = .zombie := by
      apply hg.reaps
      rw [hz]
      exact .head z
    have hspare : Spare k z := h.reapable hg.reaps z (by rw [hz]; exact .head z)
    obtain ⟨k₁,hq,-,hend⟩ := waitZombie_ended h hspare hs
    refine (hend.dead_iff (hq.sys h).reg ?_).trans hq.dead
    rintro rfl
    exact hq.dead.mpr (.inr hzomb)
  split at hs
  · exact (Returned.done (.refl h.inv) hs).kindred.dead j
  · apply ((Kindred.refl.sched hs).dead j).trans
    by_cases hj : j = c
    · rw [hj]
      exact iff_of_false (by simp [Dead,Kernel.block]) h.not_dead
    · rw [Dead, Dead, Kernel.block, Kernel.modProc_ne _ _ _ hj, Kernel.modProc_ne _ _ _ hj]

theorem kill_dead (h : Sys k c) (hg : Orderly k c tr) (hk : killProc k c v = .ok k') :
    Dead k' c ∧ ∀ j ≠ c, Dead k' j ↔ Dead k j := by
  have hz := h.reapable hg.reaps
  obtain ⟨he,hc⟩ := killProc_spec h.inv h.reg.wakeSafe h.open (fun j hj => (h.doomed hz hj).unread) hk
  refine ⟨hc,fun j hj => he.dead_iff h.reg ?_⟩
  rintro (rfl | hd)
  · exact absurd rfl hj
  · exact .inr (hg.reaps j hd)

/-- A trap that is no fork and no exit brings nobody to life and kills nobody. -/
theorem trap_dead (h : Sys k c) (hg : Orderly k c tr) (hs : trapHandler fs k tr = .ok o) (hf : ¬ tr.Fatal k c)
    (hfork : ¬ tr.Calls .fork) (j : Slot) : Dead o.kernel j ↔ Dead k j := by
  have hat : trapHandlerAt fs k c tr = .ok o := by
    rw [trapHandler, h.cur] at hs
    exact hs
  cases trap_effect h.inv h.open hat with
  | returned hr => exact hr.kindred.dead j
  | forked hc _ => exact absurd hc hfork
  | execed hq he hs => exact ((hq.kindred.trans (he.kindred (hq.sys h).not_dead)).sched hs).dead j
  | killed _ _ hfatal => exact absurd hfatal hf
  | unknown hv hu _ _ => exact absurd (.inr (.inl ⟨hv,.inr hu⟩)) hf
  | yielded hs => exact (timer_kindred h hs).dead j
  | keyed hs => exact (keyboard_kindred h hs).dead j
  | readKbd hs => exact (readKbd_kindred h hs).dead j
  | waited _ hs => exact wait_dead h hg hs j
  | piped ho hp =>
    rw [ho]
    exact (hp.kindred h.not_dead).dead j
  | readPipe _ _ _ hpg hs => exact (readPipe_kindred h hpg hs).dead j
  | wrotePipe _ _ _ hpg _ hs => exact (writePipe_kindred h hpg hs).dead j
  | closed _ hs => exact (close_kindred h hs).dead j

/-! ## What a step is for the memories -/

/-- What `kill_proc` is given as the status. -/
def Trap.exitStatus (tr : Trap) : U64 := if tr.vecnum = 32 then tr.tf.rdx else killStatus

theorem trap_exits (h : Sys k c) (hg : Orderly k c tr) (hf : tr.Fatal k c) (hs : trapHandler fs k tr = .ok o) :
    ∃ k₁, killProc k c tr.exitStatus = .ok k₁ ∧ k₁.sched = .ok o := by
  rw [trapHandler, h.cur] at hs
  unfold Trap.exitStatus
  rcases id hf with hv | ⟨hv,hcall⟩ | ⟨hv,-⟩
  · rw [if_neg (by omega)]
    simp only [trapHandlerAt,hv] at hs
    exact bind_eq_ok.mp hs
  · rw [if_pos hv]
    simp only [trapHandlerAt,hv] at hs
    obtain ⟨call,hnum⟩ := hg.known hv
    have hexit := hcall.resolve_right fun hu => hu call hnum
    rw [syscall_run .exit hexit] at hs
    exact bind_eq_ok.mp hs
  · rw [if_neg (by omega)]
    simp only [trapHandlerAt,hv] at hs
    rcases pageFault_cases h hv hs with ⟨-,hk⟩ | ⟨hn,-⟩
    · exact hk
    · exact absurd hf hn

/-- What a step of the kernel does to the memories, step by step of the machine with eager copies. -/
inductive Acts (fs : Fs) (k : Kernel) : List (Act Slot ℕ UInt8) → Kernel → Prop
  | store {c : Slot} {a : ℕ} {b : UInt8} {m : Phys} (hc : k.curproc = some c)
      (hs : userStore k.phys (k.procs c).pgtbl a b = some m) : Acts fs k [.put c (patch a [b])] (k.setPhys m)
  | fork {c n : Slot} {tr : Trap} {o : Outcome} (hc : k.curproc = some c) (hg : Orderly k c tr ∧ Discreet k c tr)
      (hs : trapHandler fs k tr = .ok o) (hcall : tr.Calls .fork) (hn : k.closedSlot = some n) :
      Acts fs k [.fork c n] o.kernel
  /-- The process ends, and nobody has waited for that. -/
  | exit {c : Slot} {tr : Trap} {o : Outcome} (hc : k.curproc = some c) (hg : Orderly k c tr ∧ Discreet k c tr)
      (hs : trapHandler fs k tr = .ok o) (hf : tr.Fatal k c)
      (hw : ∀ q, (k.procs q).waiting = true → (o.kernel.procs q).waiting = true) : Acts fs k [.exit c] o.kernel
  /-- The process ends, and with it the wait of `pa`. -/
  | report {c pa : Slot} {tr : Trap} {o : Outcome} (hc : k.curproc = some c) (hg : Orderly k c tr ∧ Discreet k c tr)
      (hs : trapHandler fs k tr = .ok o) (hf : tr.Fatal k c) (hw : (k.procs pa).waiting = true)
      (hw' : (o.kernel.procs pa).waiting = false) :
      Acts fs k [.put pa (statusAt (k.procs pa).waitStatus tr.exitStatus),.exit c] o.kernel
  /-- The caller is given another memory. -/
  | replace {c : Slot} {tr : Trap} {o : Outcome} (hc : k.curproc = some c) (hg : Orderly k c tr ∧ Discreet k c tr)
      (hs : trapHandler fs k tr = .ok o) (hf : ¬ tr.Fatal k c) (hcall : tr.Calls .exec ∨ tr.Calls .sbrk) :
      Acts fs k [.become c (userLoad o.kernel.phys (o.kernel.procs c).pgtbl)] o.kernel
  | mute {c : Slot} {tr : Trap} {o : Outcome} (hc : k.curproc = some c) (hg : Orderly k c tr ∧ Discreet k c tr)
      (hs : trapHandler fs k tr = .ok o) (hf : ¬ tr.Fatal k c) (hfork : ¬ tr.Calls .fork)
      (hcall : ¬ tr.Calls .exec ∧ ¬ tr.Calls .sbrk) : Acts fs k [] o.kernel

theorem store_eager {a : ℕ} (h : Sys k c) (h' : KInv (k.setPhys m))
    (hs : userStore k.phys (k.procs c).pgtbl a b = some m) :
    Eager (memories k) (.put c (patch a [b])) (memories (k.setPhys m)) := by
  have hp := userStore_patched h.inv h.open hs
  have hsp := spaces_some h.open
  have hself : memories (k.setPhys m) c =
      some fun x => (patch a [b] x).or (userLoad k.phys (k.procs c).pgtbl x) := by
    rw [memories_some (show ¬ Dead (k.setPhys m) c from h.not_dead)]
    exact congrArg some (funext (hp.self _ _ hsp))
  rw [memories_update hself fun q hq => (userStore_spared h.inv h.open hs hq).memories h.inv h' Iff.rfl]
  exact .put (memories_some h.not_dead) (hp.mapped _ _ hsp)

theorem fork_eager (h : Sys k c) (hs : trapHandler fs k tr = .ok o) (hcall : tr.Calls .fork)
    (hn : k.closedSlot = some n) : Eager (memories k) (.fork c n) (memories o.kernel) := by
  rw [trapHandler_call .fork h.cur hcall] at hs
  change sysFork k c tr.tf = .ok o at hs
  obtain ⟨n',k',rfl,hf⟩ := sysFork_spec h.inv h.open hs
  obtain rfl := Option.some.inj (hn.symm.trans hf.slot)
  have hload : ∀ x, userLoad k'.phys (k'.procs n).pgtbl x = userLoad k.phys (k.procs c).pgtbl x := by
    obtain ⟨k₁,n₁,ho,hchild⟩ := sysFork_child h hs
    obtain rfl : k' = k₁ := congrArg Outcome.kernel ho
    -- only the new slot changes its state
    have hsame : n₁ = n := by
      by_contra hne
      have hst := Proc.state_of_core (hf.core n₁ hne)
      rw [hchild.fresh, hchild.ready] at hst
      cases hst
    rw [← hsame]
    exact hchild.memory
  have hself : memories k' n = some (userLoad k.phys (k.procs c).pgtbl) := by
    rw [memories_some (by simp [Dead,hf.child.1])]
    exact congrArg some (funext hload)
  change Eager (memories k) (.fork c n) (memories k')
  rw [memories_update hself fun q hq => ?_]
  · exact .fork (memories_some h.not_dead) (memories_none (.inl hf.fresh))
  · apply (hf.spared h.inv h.open hq).memories h.inv hf.inv
    rw [Dead, Dead, Proc.state_of_core (hf.core q hq)]

/-- The memories after an exit: the one of the process is gone, and a parent whose wait it ends has the status. -/
theorem fatal_memories (h : Sys k c) (hg : Orderly k c tr) (hd : Discreet k c tr) (hf : tr.Fatal k c)
    (hs : trapHandler fs k tr = .ok o) (h' : KInv o.kernel) : memories o.kernel c = none ∧
    ((∀ q, (k.procs q).waiting = true → (o.kernel.procs q).waiting = true) ∧
        (∀ q ≠ c, memories o.kernel q = memories k q) ∨
      ∃ pa ≠ c, (k.procs pa).waiting = true ∧ (o.kernel.procs pa).waiting = false ∧
        (∀ q ≠ pa, (k.procs q).waiting = true → (o.kernel.procs q).waiting = true) ∧
        Eager (memories k) (.put pa (statusAt (k.procs pa).waitStatus tr.exitStatus))
          (Function.update (memories k) pa (memories o.kernel pa)) ∧
        ∀ q ≠ c, q ≠ pa → memories o.kernel q = memories k q) := by
  obtain ⟨k₁,hk,hs⟩ := trap_exits h hg hf hs
  obtain ⟨hdead,hdead'⟩ := kill_dead h hg hk
  have hkin := Kindred.refl.sched hs
  have hrest : ∀ q ≠ c, Spared k k₁ q → memories o.kernel q = memories k q := fun q hq hsp =>
    (hsp.trans (Spared.sched hs)).memories h.inv h' ((hkin.dead q).trans (hdead' q hq))
  refine ⟨memories_none ((hkin.dead c).mpr hdead),?_⟩
  rcases killProc_told h (h.reapable hg.reaps) (hd.status hf) hk with hall | ⟨pa,ht,hoth⟩
  · exact .inl ⟨fun q hq => (hkin.waiting q).trans ((hall q).2 hq),fun q hq => hrest q hq (hall q).1⟩
  right
  have hpend := h.reg.pending .wait pa ht.before
  have hpac : pa ≠ c := by
    rintro rfl
    rw [h.state] at hpend
    cases hpend
  have hlive : ¬ Dead k pa := by simp [Dead,hpend]
  have hlive' : ¬ Dead o.kernel pa := fun hd => hlive ((hdead' pa hpac).mp ((hkin.dead pa).mp hd))
  have hk₁ : KInv k₁ := (kill_parked h (h.reapable hg.reaps) hk).1.inv
  have hload : memories o.kernel pa = some fun a =>
      (statusAt (k.procs pa).waitStatus tr.exitStatus a).or (userLoad k.phys (k.procs pa).pgtbl a) := by
    rw [memories_some hlive']
    refine congrArg some (funext fun a => ?_)
    rw [(Spared.sched hs).userLoad hk₁ h' (not_dead_open hlive'), ht.load]
  refine ⟨pa,hpac,ht.before,(hkin.waiting pa).trans ht.after.1,fun q hq hw => (hkin.waiting q).trans ((hoth q hq).2 hw),?_,
    fun q hq hqp => hrest q hq (hoth q hqp).1⟩
  rw [hload]
  exact .put (memories_some hlive) ht.mapped

theorem exit_eager (h : Sys k c) (hg : Orderly k c tr) (hd : Discreet k c tr) (hf : tr.Fatal k c)
    (hs : trapHandler fs k tr = .ok o) (h' : KInv o.kernel)
    (hw : ∀ q, (k.procs q).waiting = true → (o.kernel.procs q).waiting = true) :
    Eager (memories k) (.exit c) (memories o.kernel) := by
  obtain ⟨hgone,⟨-,hrest⟩ | ⟨pa,-,hpa,hpa',-⟩⟩ := fatal_memories h hg hd hf hs h'
  · rw [memories_update hgone hrest]
    exact .exit (memories_some h.not_dead)
  · rw [hw pa hpa] at hpa'
    cases hpa'

theorem report_eager {pa : Slot} (h : Sys k c) (hg : Orderly k c tr) (hd : Discreet k c tr) (hf : tr.Fatal k c)
    (hs : trapHandler fs k tr = .ok o) (h' : KInv o.kernel) (hw : (k.procs pa).waiting = true)
    (hw' : (o.kernel.procs pa).waiting = false) : Trace Eager (memories k)
      [.put pa (statusAt (k.procs pa).waitStatus tr.exitStatus),.exit c] (memories o.kernel) := by
  obtain ⟨hgone,⟨hkeep,-⟩ | ⟨pa',hpc,-,-,hoth,hput,hrest⟩⟩ := fatal_memories h hg hd hf hs h'
  · rw [hkeep pa hw] at hw'
    cases hw'
  obtain rfl : pa = pa' := by
    by_contra hne
    rw [hoth pa hne hw] at hw'
    cases hw'
  have hlast : memories o.kernel =
      Function.update (Function.update (memories k) pa (memories o.kernel pa)) c none := by
    funext q
    by_cases hq : q = c
    · rw [hq, Function.update_self, hgone]
    · rw [Function.update_of_ne hq]
      by_cases hqp : q = pa
      · rw [hqp, Function.update_self]
      · rw [Function.update_of_ne hqp, hrest q hq hqp]
  have hself : Function.update (memories k) pa (memories o.kernel pa) c = some (userLoad k.phys (k.procs c).pgtbl) := by
    rw [Function.update_of_ne hpc.symm, memories_some h.not_dead]
  have hexit := Eager.exit hself
  rw [← hlast] at hexit
  exact (Trace.nil.snoc hput).snoc hexit

/-- A trap that is no fork and no exit leaves the memory of everybody but a caller of `exec` or `sbrk`. -/
theorem trap_memories (h : Sys k c) (hg : Orderly k c tr) (hd : Discreet k c tr) (hs : trapHandler fs k tr = .ok o)
    (h' : KInv o.kernel) (hf : ¬ tr.Fatal k c) (hfork : ¬ tr.Calls .fork)
    (hq : q = c → ¬ tr.Calls .exec ∧ ¬ tr.Calls .sbrk) : memories o.kernel q = memories k q := by
  have hdead := trap_dead h hg hs hf hfork q
  by_cases hopen : (k.procs q).state = .close
  · rw [memories_none (.inl hopen), memories_none (hdead.mpr (.inl hopen))]
  · exact (trap_spared h hg hd hs hq hopen fun hf' => absurd hf' hf).memories h.inv h' hdead

theorem replace_eager (h : Sys k c) (hg : Orderly k c tr) (hd : Discreet k c tr) (hs : trapHandler fs k tr = .ok o)
    (h' : KInv o.kernel) (hf : ¬ tr.Fatal k c) (hfork : ¬ tr.Calls .fork) : Eager (memories k)
      (.become c (userLoad o.kernel.phys (o.kernel.procs c).pgtbl)) (memories o.kernel) := by
  have hlive : ¬ Dead o.kernel c := fun hd' => h.not_dead ((trap_dead h hg hs hf hfork c).mp hd')
  rw [memories_update (memories_some hlive) fun q hq => trap_memories h hg hd hs h' hf hfork fun he => absurd he hq]
  exact .become (memories_some h.not_dead)

theorem Acts.eager (ha : Acts fs k l k') (h : Sys k c) (h' : KInv k') : Trace Eager (memories k) l (memories k') := by
  cases ha with
  | store hc hs =>
    obtain rfl := Option.some.inj (hc.symm.trans h.cur)
    exact Trace.nil.snoc (store_eager h h' hs)
  | fork hc hg hs hcall hn =>
    obtain rfl := Option.some.inj (hc.symm.trans h.cur)
    exact Trace.nil.snoc (fork_eager h hs hcall hn)
  | exit hc hg hs hf hw =>
    obtain rfl := Option.some.inj (hc.symm.trans h.cur)
    exact Trace.nil.snoc (exit_eager h hg.1 hg.2 hf hs h' hw)
  | report hc hg hs hf hw hw' =>
    obtain rfl := Option.some.inj (hc.symm.trans h.cur)
    exact report_eager h hg.1 hg.2 hf hs h' hw hw'
  | @replace c' tr o hc hg hs hf hcall =>
    obtain rfl := Option.some.inj (hc.symm.trans h.cur)
    have hfork : ¬ tr.Calls .fork := fun hfork => by
      rcases hcall with hcall | hcall
      · exact absurd (hfork.2.symm.trans hcall.2) (by decide)
      · exact absurd (hfork.2.symm.trans hcall.2) (by decide)
    exact Trace.nil.snoc (replace_eager h hg.1 hg.2 hs h' hf hfork)
  | mute hc hg hs hf hfork hcall =>
    obtain rfl := Option.some.inj (hc.symm.trans h.cur)
    have hsame : ∀ q, memories _ q = memories k q := fun q => trap_memories h hg.1 hg.2 hs h' hf hfork fun _ => hcall
    rw [funext hsame]
    exact .nil

theorem Acts.step (ha : Acts fs k l k') : Step fs (fun k c tr => Orderly k c tr ∧ Discreet k c tr) k k' := by
  cases ha with
  | store hc hs => exact .store hc hs
  | fork hc hg hs => exact .trap hc hg hs
  | exit hc hg hs => exact .trap hc hg hs
  | report hc hg hs => exact .trap hc hg hs
  | replace hc hg hs => exact .trap hc hg hs
  | mute hc hg hs => exact .trap hc hg hs

theorem Step.acts (hst : Step fs (fun k c tr => Orderly k c tr ∧ Discreet k c tr) k k') (h : Sys k c) (h' : KInv k') :
    ∃ l, Acts fs k l k' := by
  classical
  cases hst with
  | store hc hs => exact ⟨_,.store hc hs⟩
  | @trap c' tr o hc hg hs =>
    obtain rfl := Option.some.inj (hc.symm.trans h.cur)
    by_cases hf : tr.Fatal k c'
    · obtain ⟨-,⟨hkeep,-⟩ | ⟨pa,-,hw,hw',-⟩⟩ := fatal_memories h hg.1 hg.2 hf hs h'
      · exact ⟨_,.exit hc hg hs hf hkeep⟩
      · exact ⟨_,.report hc hg hs hf hw hw'⟩
    by_cases hfork : tr.Calls .fork
    · have hrun : sysFork k c' tr.tf = .ok o := (trapHandler_call .fork hc hfork).symm.trans hs
      obtain ⟨n,k₁,-,hok⟩ := sysFork_spec h.inv h.open hrun
      exact ⟨_,.fork hc hg hs hfork hok.slot⟩
    by_cases hcall : tr.Calls .exec ∨ tr.Calls .sbrk
    · exact ⟨_,.replace hc hg hs hf hcall⟩
    · exact ⟨_,.mute hc hg hs hf hfork (not_or.mp hcall)⟩

theorem forkTrap_calls {call : Call} (h : forkTrap.Calls call) : call = .fork := by
  obtain ⟨-,hnum⟩ := h
  revert hnum
  cases call <;> decide

theorem forkTrap_not_fatal (k : Kernel) (c : Slot) : ¬ forkTrap.Fatal k c := by
  rintro (hv | ⟨-,hcall | hu⟩ | ⟨hv,-⟩)
  · exact absurd hv (by decide)
  · exact absurd hcall (by decide)
  · exact absurd rfl (hu .fork)
  · exact absurd hv (by decide)

theorem fork_discreet (k : Kernel) (c : Slot) : Discreet k c forkTrap := by
  refine ⟨fun call hc => ?_,fun hc => ?_,fun hc => ?_,fun hk => ?_,fun hf => absurd hf (forkTrap_not_fatal k c)⟩
  · rw [forkTrap_calls hc]
    decide
  · exact absurd (forkTrap_calls hc) (by decide)
  · exact absurd (forkTrap_calls hc) (by decide)
  · exact absurd hk (by decide)

end Ukern
