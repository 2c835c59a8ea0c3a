import Ukern.Process.Tables
import Ukern.Run.Memories

/-! # Every child is reported once

As long as every process that ends is waited for, a parent gets the pid of each of its children twice: once from
`sys_fork`, and once from `sys_wait` after the child has ended.
-/
namespace Ukern
open Lib
variable {fs : Fs} {k k' k₁ : Kernel} {c j n p : Slot} {o : Outcome} {tr : Trap} {tf : Context} {v : U64}
  {l : Multiset U64 × Multiset U64} {ls : List (Multiset U64 × Multiset U64)}

theorem Proc.pid_of_core {p q : Proc} (h : p.core = q.core) : p.pid = q.pid := by
  have hpid := congrArg Proc.pid h
  exact hpid

/-- What a process has from its birth on, unless its parent ends. -/
def Proc.birth (p : Proc) : Option Slot × ℕ := (p.parent,p.pid)

theorem birth_carried (k : Kernel) : Carried fun k' => ∀ j, (k'.procs j).birth = (k.procs j).birth where
  procs h hp j := by
    rw [hp]
    exact h j
  modProc i f h hf j := by
    refine (Kernel.modProc_keeps Proc.birth (fun p => ?_) j).trans (h j)
    obtain ⟨ctx,st,et,-,he⟩ := hf p
    rw [he]
    rfl

theorem wait_birth (hf : FInv k) (hs : sysWait k c tf = .ok o) (j : Slot) :
    (o.kernel.procs j).birth = (k.procs j).birth := by
  have hret : ∀ {v : U64}, k.done tf v = .ok o → (o.kernel.procs j).birth = (k.procs j).birth := by
    intro v hd
    cases hd
    rfl
  unfold sysWait at hs
  obtain ⟨ok,-,hs⟩ := bind_eq_ok.mp hs
  split at hs
  · exact hret hs
  rw [hf.empty c] at hs
  simp only at hs
  split at hs
  · exact hret hs
  have hI := birth_carried k
  refine hI.sched (hI.block (fun i => ?_) c tf) o hs j
  refine Kernel.modProc_keeps Proc.birth ?_ i
  exact fun _ => rfl

theorem close_birth (hs : sysClose k c tf = .ok o) (j : Slot) : (o.kernel.procs j).birth = (k.procs j).birth := by
  unfold sysClose at hs
  split at hs
  · cases hs
    rfl
  simp only at hs
  split at hs
  · cases hs
    rfl
  obtain ⟨k₁,hd,hs⟩ := bind_eq_ok.mp hs
  have h₁ := (birth_carried k).dropFdesc (fun _ => rfl) k₁ hd
  have hset : ∀ fd f, ((k₁.setFdesc c fd f).procs j).birth = (k₁.procs j).birth := fun fd f => by
    refine Kernel.modProc_keeps Proc.birth ?_ j
    exact fun _ => rfl
  split at hs
  · cases hs
  cases hs
  exact (hset _ _).trans (h₁ j)

theorem Effect.birth (he : Effect k c tr o) (hf : FInv k) (hfork : ¬ tr.Calls .fork) (hfatal : ¬ tr.Fatal k c)
    (j : Slot) : (o.kernel.procs j).birth = (k.procs j).birth := by
  have hI := birth_carried k
  have hk : ∀ i, (k.procs i).birth = (k.procs i).birth := fun _ => rfl
  have hq {k₁ : Kernel} (hq : Quiet k k₁) (i : Slot) : (k₁.procs i).birth = (k.procs i).birth :=
    Prod.ext (hq.procs i).family.1 (hq.procs i).ident.1
  cases he with
  | returned hr =>
    obtain ⟨tf,k',rfl,hr⟩ := hr
    exact hq hr j
  | forked hc _ => exact absurd hc hfork
  | @execed k₁ k₂ hr he hs =>
    refine hI.sched (k := k₂) (fun i => ?_) o hs j
    refine Eq.trans ?_ (hq hr i)
    by_cases hi : i = c
    · obtain ⟨a,b,e,ctx,hself⟩ := he.self
      rw [hi, hself]
      rfl
    · rw [he.procs i hi]
  | killed _ _ hf => exact absurd hf hfatal
  | unknown hv hu => exact absurd (Or.inr (Or.inl ⟨hv,Or.inr hu⟩)) hfatal
  | yielded hs => exact hI.yield hk o hs j
  | keyed hs => exact hI.keyboard hk o hs j
  | readKbd hs => exact hI.readKbd hk o hs j
  | waited _ hs => exact wait_birth hf hs j
  | piped ho hp =>
    rw [ho]
    by_cases hj : j = c
    · obtain ⟨fds,hself⟩ := hp.self
      rw [Outcome.kernel, hj, hself]
      rfl
    · rw [Outcome.kernel, hp.procs j hj]
  | readPipe _ _ _ _ hs => exact hI.readPipe hk o hs j
  | wrotePipe _ _ _ _ _ hs => exact hI.writePipe hk o hs j
  | closed _ hs => exact close_birth hs j

theorem sched_keeps {α : Type*} (g : Proc → α) (hg : ∀ p, g { p with state := .running } = g p) (hs : k.sched = .ok o)
    (j : Slot) : g (o.kernel.procs j) = g (k.procs j) := by
  obtain ⟨k₁,hk,ho⟩ := bind_eq_ok.mp hs
  cases ho
  obtain ⟨i,-,rfl⟩ := sched_ok hk
  exact Kernel.modProc_keeps g hg j

theorem kill_pid (h : Sys k c) (hf : FInv k) (hk : killProc k c v = .ok k') (hj : j ≠ c) :
    (k'.procs j).pid = (k.procs j).pid := by
  have hnone : ∀ i, ¬ Reaches k.next (k.procs c).zombieChild i := fun i hi => by
    rw [hf.empty c] at hi
    exact Reaches.not_none hi
  have hnot : ¬ Doomed k c j := by
    rintro (he | hr)
    · exact hj he
    · exact hnone j hr
  have hz : Reapable k c := fun i hi => absurd hi (hnone i)
  obtain ⟨he,-⟩ := killProc_spec h.inv h.reg.wakeSafe h.open (fun i hi => (h.doomed hz hi).unread) hk
  cases he.fate j with
  | kept h1 => exact Proc.pid_of_core h1
  | cleared hS _ => exact absurd hS hnot
  | zombie hS _ _ _ _ => exact absurd hS hnot
  | woken _ _ _ _ _ h1 => exact (Proc.pid_of_core h1).trans rfl
  | reported _ _ h1 => exact (Proc.pid_of_core h1).trans rfl

/-- A process that ends is told to the parent that waits, by its pid. -/
theorem kill_tells (h : Sys k c) (hf : FInv k) (hp : (k.procs c).parent = some p) (hw : (k.procs p).waiting = true)
    (hk : killProc k c v = .ok k') : (k'.procs p).context.rax = BitVec.ofNat 64 (k.procs c).pid := by
  obtain ⟨k₁,hb,he⟩ := killProc_bereft hf h.open hk
  have hinv := hb.relinked.inv h.inv
  have hw₁ : (k₁.procs p).waiting = true := (hb.relinked.waiting p).trans hw
  have hp₁ : (k₁.procs c).parent = some p := (hb.own_parent hf).trans hp
  have hpc : p ≠ c := by
    rintro rfl
    exact h.spare .wait hw
  rcases exitAsChild_cases he with ⟨hnone,-⟩ | ⟨pa,hpa,hno,-⟩ | ⟨pa,k₂,hpa,-,hr,hc⟩
  · rw [hp₁] at hnone
    cases hnone
  · obtain rfl := Option.some.inj (hp₁.symm.trans hpa)
    rw [hw₁] at hno
    cases hno
  · obtain rfl := Option.some.inj (hp₁.symm.trans hpa)
    have hrep := reportExit_spec hinv hw₁ hr
    have hopen := hinv.waiting hw₁
    have hdet := detach_relinked k₂ c p
    have hsafe := hdet.wakeSafe (hrep.wakeSafe hopen (hb.relinked.wakeSafe h.reg.wakeSafe))
    obtain ⟨-,-,hcl⟩ := clearProc_ok (hdet.inv hrep.inv) hsafe hc
    have hunread : Unread k p := by
      intro pg hpg hr
      cases h.reg.unique .wait (.read pg) p hw ⟨hpg,hr⟩
    have hsame : (k'.procs p).context = (k₂.procs p).context := by
      rcases hcl.procs p with ⟨he,-⟩ | hsame | ⟨⟨pg,hpg,-,hread⟩,-⟩
      · exact absurd he hpc
      · rw [hsame]
        have hctx := congrArg Proc.context (hdet.core p)
        exact hctx
      · exact absurd hread (hdet.unread (hrep.unread hopen (hb.relinked.unread hunread)) pg hpg)
    unfold reportExit at hr
    obtain ⟨k₃,hst,hr⟩ := bind_eq_ok.mp hr
    have h₃ : KInv (k₁.modProc p fun q => { q with waiting := false }) := hinv.modProc ⟨rfl,rfl,rfl,Iff.rfl⟩ (by rintro ⟨⟩)
    obtain ⟨m,rfl,-,-⟩ := storeStatus_spec h₃ (by rw [Kernel.modProc_self]; exact hopen) hst
    cases hr
    rw [hsame, Kernel.wake, Kernel.modProc_self, Kernel.setPhys_procs, Kernel.modProc_ne _ _ _ hpc.symm]
    exact congrArg (BitVec.ofNat 64) (Proc.pid_of_core (hb.relinked.core c))

/-! ## The children of a process -/

def childSlots (k : Kernel) (p : Slot) : Finset Slot := Finset.univ.filter fun j => (k.procs j).parent = some p

/-- The pids of the children of `p`, as `sys_fork` and `sys_wait` return them. -/
def childPids (k : Kernel) (p : Slot) : Multiset U64 := (childSlots k p).val.map fun j => BitVec.ofNat 64 (k.procs j).pid

theorem mem_childSlots : j ∈ childSlots k p ↔ (k.procs j).parent = some p := by
  rw [childSlots, Finset.mem_filter]
  exact and_iff_right (Finset.mem_univ j)

theorem childPids_congr (hpar : ∀ j, (k'.procs j).parent = some p ↔ (k.procs j).parent = some p)
    (hpid : ∀ j, (k.procs j).parent = some p → (k'.procs j).pid = (k.procs j).pid) : childPids k' p = childPids k p := by
  have hslots : childSlots k' p = childSlots k p := Finset.filter_congr fun j _ => hpar j
  unfold childPids
  rw [hslots]
  refine Multiset.map_congr rfl fun j hj => ?_
  rw [hpid j (mem_childSlots.mp hj)]

theorem childPids_of_birth (h : ∀ j, (k'.procs j).birth = (k.procs j).birth) : childPids k' p = childPids k p := by
  refine childPids_congr (fun j => ?_) fun j _ => congrArg Prod.snd (h j)
  rw [show (k'.procs j).parent = (k.procs j).parent from congrArg Prod.fst (h j)]

theorem sched_childPids (hs : k.sched = .ok o) : childPids o.kernel p = childPids k p :=
  childPids_of_birth (sched_keeps Proc.birth (fun _ => rfl) hs)

/-- Only slot `n`, which was no child of `p`, may have become one. -/
theorem childPids_change (hno : (k.procs n).parent ≠ some p)
    (hpar : ∀ j ≠ n, (k'.procs j).parent = some p ↔ (k.procs j).parent = some p)
    (hpid : ∀ j ≠ n, (k'.procs j).pid = (k.procs j).pid) :
    childPids k' p = childPids k p + if (k'.procs n).parent = some p then {BitVec.ofNat 64 (k'.procs n).pid} else 0 := by
  have hnot : n ∉ childSlots k p := fun hmem => hno (mem_childSlots.mp hmem)
  have hne : ∀ j ∈ childSlots k p, j ≠ n := by
    rintro j hj rfl
    exact hnot hj
  split
  · rename_i hn
    have hslots : childSlots k' p = (childSlots k p).cons n hnot := by
      ext j
      rw [Finset.mem_cons, mem_childSlots, mem_childSlots]
      by_cases hj : j = n
      · rw [hj]
        exact iff_of_true hn (Or.inl rfl)
      · rw [hpar j hj, or_iff_right hj]
    have hrest : ((childSlots k p).val.map fun j => BitVec.ofNat 64 (k'.procs j).pid) = childPids k p := by
      apply Multiset.map_congr rfl
      intro j hj
      rw [hpid j (hne j hj)]
    rw [childPids, hslots, Finset.cons_val, Multiset.map_cons, hrest, ← Multiset.singleton_add, add_comm]
  · rename_i hn
    rw [add_zero]
    apply childPids_congr
    · intro j
      by_cases hj : j = n
      · rw [hj]
        exact iff_of_false hn hno
      · exact hpar j hj
    · intro j hj
      exact hpid j (hne j (mem_childSlots.mpr hj))

/-- A step of a tended run, with what `p` learns of its children from it: the pids of new ones, and of those that
`sys_wait` reports. The end of `p` itself is no such step. -/
inductive Learns (fs : Fs) (p : Slot) (k : Kernel) : Multiset U64 × Multiset U64 → Kernel → Prop
  | fork {tr : Trap} {tf : Context} {k' : Kernel} (hc : k.curproc = some p) (hg : Tended k p tr) (hcall : tr.Calls .fork)
      (hs : trapHandler fs k tr = .ok (.ret tf k')) : Learns fs p k ({tf.rax},0) k'
  | report {c : Slot} {tr : Trap} {o : Outcome} (hc : k.curproc = some c) (hg : Tended k c tr) (hf : tr.Fatal k c)
      (hp : (k.procs c).parent = some p) (hs : trapHandler fs k tr = .ok o) :
      Learns fs p k (0,{(o.kernel.procs p).context.rax}) o.kernel
  | other {c : Slot} {tr : Trap} {o : Outcome} (hc : k.curproc = some c) (hg : Tended k c tr)
      (hcall : tr.Calls .fork → c ≠ p) (hf : tr.Fatal k c → c ≠ p ∧ (k.procs c).parent ≠ some p)
      (hs : trapHandler fs k tr = .ok o) : Learns fs p k (0,0) o.kernel
  | store {c : Slot} {a : ℕ} {b : UInt8} {m : Phys} (hc : k.curproc = some c)
      (hs : userStore k.phys (k.procs c).pgtbl a b = some m) : Learns fs p k (0,0) (k.setPhys m)

theorem Learns.step (h : Learns fs p k l k') : Step fs Tended k k' := by
  cases h with
  | fork hc hg _ hs => exact .trap hc hg hs
  | report hc hg _ _ hs => exact .trap hc hg hs
  | other hc hg _ _ hs => exact .trap hc hg hs
  | store hc hs => exact .store hc hs

theorem ForkOk.parent (h : ForkOk k k' c n tf) (j : Slot) :
    (k'.procs j).parent = if j = n then some c else (k.procs j).parent :=
  (congrArg Links.parent (h.links j)).trans (addChild_parent k n c j)

theorem ForkOk.childPids (h : ForkOk k k' c n tf) (hf : FInv k) :
    Ukern.childPids k' p = Ukern.childPids k p + if c = p then {BitVec.ofNat 64 (k'.procs n).pid} else 0 := by
  have hno : (k.procs n).parent ≠ some p := by
    have hblank : (k.procs n).parent = none := (hf.sound.blank n (not_not.mpr h.fresh)).1
    rw [hblank]
    rintro ⟨⟩
  have hpar : ∀ j ≠ n, (k'.procs j).parent = some p ↔ (k.procs j).parent = some p := by
    intro j hj
    rw [h.parent, if_neg hj]
  rw [childPids_change hno hpar fun j hj => Proc.pid_of_core (h.core j hj), h.parent, if_pos rfl]
  simp only [Option.some.injEq]

/-- The process that ends is no child any more; its own children are nobody's. -/
theorem Departed.childPids (h : Departed k k' c) (hpid : ∀ j ≠ c, (k'.procs j).pid = (k.procs j).pid) (hpc : p ≠ c) :
    Ukern.childPids k p = Ukern.childPids k' p +
      if (k.procs c).parent = some p then {BitVec.ofNat 64 (k.procs c).pid} else 0 := by
  apply childPids_change
  · rw [h.gone]
    rintro ⟨⟩
  · intro j hj
    have hl : (k'.procs j).parent = if (k.procs j).parent = some c then none else (k.procs j).parent :=
      congrArg Links.parent (h.links j hj)
    rw [hl]
    split
    · rename_i he
      rw [he]
      exact iff_of_false (fun hh => hpc (Option.some.inj hh).symm) (by rintro ⟨⟩)
    · exact Iff.rfl
  · intro j hj
    exact (hpid j hj).symm

theorem Learns.balance (hl : Learns fs p k l k') (h : Sys k c) (hf : FInv k) :
    childPids k p + l.1 = l.2 + childPids k' p := by
  cases hl with
  | @fork tr tf k' hc hg hcall hs =>
    obtain rfl := Option.some.inj (hc.symm.trans h.cur)
    rw [trapHandler_call .fork hc hcall] at hs
    obtain ⟨n,k₁,ho,hfork⟩ := sysFork_spec h.inv h.open hs
    cases ho
    rw [hfork.childPids hf, if_pos rfl, zero_add]
  | @report c' tr o hc hg hfatal hp hs =>
    obtain rfl := Option.some.inj (hc.symm.trans h.cur)
    have hgo := hg.parting hfatal
    have hw : (k.procs p).waiting = true := by
      rcases hgo with ⟨pa,hpa,hw⟩ | ⟨hnone,-⟩
      · obtain rfl := Option.some.inj (hp.symm.trans hpa)
        exact hw
      · rw [hp] at hnone
        cases hnone
    have hpc : p ≠ c' := by
      rintro rfl
      exact h.spare .wait hw
    obtain ⟨k₁,hk,hsched⟩ := trap_exits h (hg.orderly hf) hfatal hs
    have hd := (kill_departed h hf hgo hk).childPids (p := p) (fun j hj => kill_pid h hf hk hj) hpc
    have htold := kill_tells h hf hp hw hk
    rw [hd, if_pos hp, sched_keeps (fun q => q.context.rax) (fun _ => rfl) hsched, htold, sched_childPids hsched, add_zero, add_comm]
  | @other c' tr o hc hg hcall hfatal hs =>
    obtain rfl := Option.some.inj (hc.symm.trans h.cur)
    rw [add_zero, zero_add]
    by_cases hfat : tr.Fatal k c'
    · obtain ⟨hcp,hp⟩ := hfatal hfat
      obtain ⟨k₁,hk,hsched⟩ := trap_exits h (hg.orderly hf) hfat hs
      have hd := (kill_departed h hf (hg.parting hfat) hk).childPids (p := p) (fun j hj => kill_pid h hf hk hj) hcp.symm
      rw [hd, if_neg hp, add_zero, sched_childPids hsched]
    by_cases hfork : tr.Calls .fork
    · rw [trapHandler_call .fork hc hfork] at hs
      obtain ⟨n,k₁,rfl,hok⟩ := sysFork_spec h.inv h.open hs
      have hnew := hok.childPids (p := p) hf
      rw [if_neg (hcall hfork), add_zero] at hnew
      exact hnew.symm
    · rw [trapHandler, hc] at hs
      exact (childPids_of_birth ((trap_effect h.inv h.open hs).birth hf hfork hfat)).symm
  | store hc hs =>
    rw [add_zero, zero_add]
    rfl

theorem fork_tended (k : Kernel) (c : Slot) : Tended k c forkTrap where
  known _ := ⟨.fork,rfl⟩
  close hc := absurd (forkTrap_calls hc) (by decide)
  read hc := absurd (forkTrap_calls hc) (by decide)
  parting hf := absurd hf (forkTrap_not_fatal k c)

end Ukern
