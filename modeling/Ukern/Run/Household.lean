import Ukern.Process.Zombies
import Ukern.Run.Atomic
import Ukern.Run.Session
import Ukern.Run.Turns

/-! # A family

A process forks some children, is preempted, and one of the children exits before it is waited for. All
of them still share the pages that they had at the fork.
-/
namespace Ukern
open Lib
variable {fs : Fs} {k k' : Kernel} {c i j n p x : Slot} {cs : List Slot} {tf : Context} {v : U64} {q : ℕ}

/-! ## Forking -/

/-- Page `q` of `p` is the page `q` of `c` too. -/
def SharesPage (k : Kernel) (p c : Slot) (q : ℕ) : Prop :=
  (entry k.phys (k.procs p).pgtbl q).p = true ∧ (entry k.phys (k.procs c).pgtbl q).p = true ∧
    (entry k.phys (k.procs c).pgtbl q).frame = (entry k.phys (k.procs p).pgtbl q).frame

theorem ForkOk.pgtbl (h : ForkOk k k' c n tf) (hj : j ≠ n) : (k'.procs j).pgtbl = (k.procs j).pgtbl := by
  change (k'.procs j).core.pgtbl = (k.procs j).core.pgtbl
  rw [h.core j hj]

/-- The pages of the parent keep their frames, and the child has them too. -/
theorem ForkOk.sharesPage (h : ForkOk k k' c n tf) (hk : KInv k) (hc : (k.procs c).state ≠ .close) (hn : c ≠ n)
    (hq : q < upages) (hp : (entry k.phys (k.procs c).pgtbl q).p = true) : SharesPage k' c n q ∧
      (entry k'.phys (k'.procs c).pgtbl q).frame = (entry k.phys (k.procs c).pgtbl q).frame := by
  obtain ⟨m,P,hphys,ht⟩ := h.tables
  have hent : ∀ t, entry k'.phys t q = entry m t q := fun t => by
    rw [hphys]
    rfl
  have hagree := (hk.owned.mem.space c _ _ (spaces_some hc)).agree q hq
  have hp₂ : (entry k.phys (k.procs c).pPgtbl q).p = true := hagree.1 ▸ hp
  have hkeep : (entry k.phys (k.procs c).pPgtbl q).keep = entry k.phys (k.procs c).pPgtbl q := if_pos hp₂
  have hself : (entry k.phys (k.procs c).pPgtbl q).Agree (entry k.phys (k.procs c).pPgtbl q) :=
    ⟨rfl,fun h2 => ⟨rfl,(hagree.2 h2).2.1,.inl (hagree.2 h2).2.1⟩⟩
  obtain ⟨hdp,hdf,-⟩ := hagree.drop_w
  obtain ⟨hcp,hcf,-⟩ := hself.drop_w
  unfold SharesPage
  rw [hent, hent, h.pgtbl hn, ht.parent q hq, ht.child q hq, hkeep, hdp, hdf, hcp, hcf]
  exact ⟨⟨hp,hp₂,(hagree.2 hp₂).1.symm⟩,rfl⟩

theorem ForkOk.entry_other (h : ForkOk k k' c n tf) (hj : (k.procs j).state ≠ .close) (hjc : j ≠ c) (hq : q < upages) :
    entry k'.phys (k'.procs j).pgtbl q = entry k.phys (k.procs j).pgtbl q := by
  obtain ⟨m,P,hphys,ht⟩ := h.tables
  have hjn : j ≠ n := fun he => hj (he ▸ h.fresh)
  have hent : ∀ t, entry k'.phys t q = entry m t q := fun t => by
    rw [hphys]
    rfl
  rw [hent, h.pgtbl hjn]
  exact (ht.other j hjc _ _ (spaces_some hj)).1.entry hq

/-- `p` has forked `cs`, which are ready to run and have its pages; there is nobody else. -/
structure Household (k : Kernel) (p : Slot) (cs : List Slot) : Prop where
  nodup : cs.Nodup
  alone : ∀ j, (k.procs j).state ≠ .close → j = p ∨ j ∈ cs
  ready : ∀ c ∈ cs, (k.procs c).state = .ready
  parent : ∀ c ∈ cs, (k.procs c).parent = some p
  living : ∀ j ≠ p, (k.procs j).livingChild = none
  head : (k.procs p).livingChild = cs.head?
  zombies : ∀ j, (k.procs j).zombieChild = none
  waiting : ∀ j, (k.procs j).waiting = false
  shared : ∀ c ∈ cs, ∀ q < upages, (entry k.phys (k.procs p).pgtbl q).p = true → SharesPage k p c q

theorem household_lone (m : Phys) (a b : ℕ) (pwd : FileDesc) : Household (loneKernel m a b pwd) firstSlot [] := by
  have hcases : ∀ {α : Type} (g : Proc → α) (j : Slot), g (loneProc a b pwd) = g .zero →
      g ((loneKernel m a b pwd).procs j) = g .zero := by
    intro α g j hg
    by_cases hj : j = firstSlot
    · rw [hj, loneKernel_self, hg]
    · rw [loneKernel_ne _ _ _ _ hj]
  refine ⟨.nil,fun j hj => .inl ?_,nofun,nofun,fun j _ => ?_,?_,fun j => ?_,fun j => ?_,nofun⟩
  · by_contra hne
    rw [loneKernel_ne _ _ _ _ hne] at hj
    exact hj rfl
  · exact hcases Proc.livingChild j rfl
  · exact hcases Proc.livingChild firstSlot rfl
  · exact hcases Proc.zombieChild j rfl
  · exact hcases Proc.waiting j rfl

theorem Household.ne (h : Household k p cs) (hs : Sys k p) (hc : c ∈ cs) : c ≠ p := by
  rintro rfl
  have hst := h.ready c hc
  rw [(hs.running c).mpr rfl] at hst
  cases hst

theorem Household.fork (h : Household k p cs) (hs : Sys k p) (hf : ForkOk k k' p n tf) : Household k' p (n :: cs) := by
  have hpn : p ≠ n := fun he => by
    have hst := hf.fresh
    rw [← he, (hs.running p).mpr rfl] at hst
    cases hst
  have hold : ∀ c ∈ cs, c ≠ n := fun c hc he => by
    have hst := hf.fresh
    rw [← he, h.ready c hc] at hst
    cases hst
  have hstate : ∀ j ≠ n, (k'.procs j).state = (k.procs j).state := fun j hj => Proc.state_of_core (hf.core j hj)
  have hlinks : ∀ j, (k'.procs j).links = ((addChild k n p).procs j).links := hf.links
  refine ⟨List.nodup_cons.mpr ⟨fun hn => hold n hn rfl,h.nodup⟩,?_,?_,?_,?_,?_,?_,?_,?_⟩
  · intro j hj
    by_cases hjn : j = n
    · exact .inr (hjn ▸ List.mem_cons_self)
    · rw [hstate j hjn] at hj
      exact (h.alone j hj).imp_right (List.mem_cons_of_mem _)
  · intro c hc
    rcases List.mem_cons.mp hc with rfl | hc
    · exact hf.child.1
    · rw [hstate c (hold c hc)]
      exact h.ready c hc
  · intro c hc
    have hpar : (k'.procs c).parent = ((addChild k n p).procs c).parent := congrArg Links.parent (hlinks c)
    rw [hpar, addChild_parent]
    rcases List.mem_cons.mp hc with rfl | hc
    · rw [if_pos rfl]
    · rw [if_neg (hold c hc)]
      exact h.parent c hc
  · intro j hj
    have hliv : (k'.procs j).livingChild = ((addChild k n p).procs j).livingChild := congrArg Links.livingChild (hlinks j)
    rw [hliv, addChild_livingChild, if_neg hj]
    exact h.living j hj
  · have hliv : (k'.procs p).livingChild = ((addChild k n p).procs p).livingChild := congrArg Links.livingChild (hlinks p)
    rw [hliv, addChild_livingChild, if_pos rfl]
    rfl
  · intro j
    have hz : (k'.procs j).zombieChild = ((addChild k n p).procs j).zombieChild := congrArg Links.zombieChild (hlinks j)
    rw [hz, addChild_zombieChild]
    exact h.zombies j
  · intro j
    by_cases hjn : j = n
    · rw [hjn]
      exact hf.child.2.1
    · rw [Proc.waiting_of_core (hf.core j hjn)]
      exact h.waiting j
  · intro c hc q hq hp
    have hkp : (entry k.phys (k.procs p).pgtbl q).p = true := by
      obtain ⟨m,P,hphys,ht⟩ := hf.tables
      have hent : entry k'.phys (k'.procs p).pgtbl q = entry m (k.procs p).pgtbl q := by
        rw [hphys, hf.pgtbl hpn]
        rfl
      rw [hent, ht.parent q hq] at hp
      unfold Pte.drop at hp
      by_contra hno
      rw [if_neg hno] at hp
      exact hno hp
    obtain ⟨hnew,hframe⟩ := hf.sharesPage hs.inv hs.open hpn hq hkp
    rcases List.mem_cons.mp hc with rfl | hc
    · exact hnew
    · obtain ⟨-,hcp,hcf⟩ := h.shared c hc q hq hkp
      have hopen : (k.procs c).state ≠ .close := by
        rw [h.ready c hc]
        nofun
      unfold SharesPage
      rw [hf.entry_other hopen (h.ne hs hc) hq, hframe]
      exact ⟨hnew.1,hcp,hcf⟩

/-! ## Running the system -/

theorem exists_closedSlot (h : (k.procs j).state = .close) : ∃ n, k.closedSlot = some n := by
  cases hf : k.closedSlot with
  | some n => exact ⟨n,rfl⟩
  | none =>
    have hno := List.find?_eq_none.mp hf j (List.mem_finRange _)
    rw [h] at hno
    exact absurd rfl hno

theorem Reachable.step {G : Kernel → Slot → Trap → Prop} {tr : Trap} {o : Outcome} (hr : Reachable fs G k)
    (hc : k.curproc = some c) (hG : G k c tr) (h : trapHandler fs k tr = .ok o) : Reachable fs G o.kernel := by
  obtain ⟨k₀,h₀,hrun⟩ := hr
  exact ⟨k₀,h₀,hrun.tail (.trap hc hG h)⟩

theorem Call.num_inj {a b : Call} (h : a.num = b.num) : a = b := by
  cases a <;> cases b <;> first | rfl | exact absurd h (by decide)

/-- A process without zombies may take any trap but the two calls that need their books. -/
theorem orderly_of_none {tr : Trap} (hz : (k.procs c).zombieChild = none)
    (hknown : tr.vecnum = 32 → ∃ call : Call, toInt32 tr.tf.rax = call.num ∧ call ≠ .close ∧ call ≠ .read) :
    Orderly k c tr := by
  have hcall : ∀ call : Call, tr.Calls call → call ≠ .close ∧ call ≠ .read := by
    intro call ⟨hv,hnum⟩
    obtain ⟨call',hnum',hne⟩ := hknown hv
    have heq : call = call' := Call.num_inj (hnum.symm.trans hnum')
    rw [heq]
    exact hne
  refine ⟨fun hv => ?_,fun j hj => ?_,fun h => absurd rfl (hcall _ h).1,fun h => absurd rfl (hcall _ h).2⟩
  · obtain ⟨call,hnum,-⟩ := hknown hv
    exact ⟨call,hnum⟩
  · rw [hz] at hj
    cases hj

/-- A run of the scheduler: the memory and the records are the same, up to what it keeps in them. -/
structure Rescheduled (k k' : Kernel) : Prop where
  kindred : Kindred k k'
  phys : k'.phys = k.phys
  same : ∀ j, ∃ st ctx et, k'.procs j = { k.procs j with state := st, context := ctx, execTime := et }

theorem Rescheduled.refl (k : Kernel) : Rescheduled k k := ⟨.refl,rfl,fun _ => ⟨_,_,_,rfl⟩⟩

theorem Rescheduled.trans {k₁ : Kernel} (h : Rescheduled k k₁) (h' : Rescheduled k₁ k') : Rescheduled k k' := by
  refine ⟨h.kindred.trans h'.kindred,h'.phys.trans h.phys,fun j => ?_⟩
  obtain ⟨_,_,_,hj⟩ := h.same j
  obtain ⟨st,ctx,et,hj'⟩ := h'.same j
  rw [hj'.trans (by rw [hj])]
  exact ⟨st,ctx,et,rfl⟩

def timerTrap : Trap := ⟨33,0,0,Context.zero,0⟩

theorem ahead_current (h : k.curproc = some c) : k.ahead c = nprocs - 1 := by
  have hcur : k.curid = c.val := by
    rw [Kernel.curid, h]
  rw [Kernel.ahead, hcur, show c.val + nprocs - 1 - c.val = nprocs - 1 by omega]
  exact Nat.mod_eq_of_lt (by decide)

/-- A process whose time is up. -/
def Proc.preempted (p : Proc) : Proc :=
  { p with context := Context.zero, state := .ready, execTime := (p.execTime + 1) % 2^64 }

theorem select_proc (k : Kernel) (i : Slot) : (k.select i).procs i = { k.procs i with state := .running } :=
  Kernel.modProc_self k i fun p => { p with state := .running }

/-- The timer gives the processor to another process that is ready, if there is one, and who is not
chosen gets nearer. -/
theorem timer_chooses (fs : Fs) (hs : Sys k c) (hj : (k.procs j).state = .ready) : ∃ i k',
    trapHandler fs k timerTrap = .ok (.run k') ∧ Sys k' i ∧ i ≠ c ∧ (k.procs i).state = .ready ∧ Rescheduled k k' ∧
      (k'.procs c).state = .ready ∧ ∀ q, (k.procs q).state = .ready → q = i ∨ (k'.procs q).state = .ready ∧ k'.ahead q < k.ahead q := by
  have hjc : j ≠ c := fun he => by
    rw [he, hs.state] at hj
    cases hj
  have hhandler : trapHandler fs k timerTrap = (k.modProc c Proc.preempted).sched := by
    rw [trapHandler, hs.cur]
    rfl
  have hne : ∀ q ≠ c, (k.modProc c Proc.preempted).procs q = k.procs q := fun q hq => Kernel.modProc_ne _ _ _ hq
  have hself : (k.modProc c Proc.preempted).procs c = (k.procs c).preempted := Kernel.modProc_self ..
  have hcur : (k.modProc c Proc.preempted).curproc = some c := hs.cur
  have hahead : ∀ q, (k.modProc c Proc.preempted).ahead q = k.ahead q := fun q => rfl
  have hkin : ∀ o, (k.modProc c Proc.preempted).sched = .ok o → Kindred k o.kernel ∧ Stepped k (fun _ => False) o :=
    fun o ho => ⟨timer_kindred hs ho,timer_stepped hs ho⟩
  have hphys : (k.modProc c Proc.preempted).phys = k.phys := rfl
  generalize k.modProc c Proc.preempted = k₁ at *
  have hready : (k₁.procs j).state = .ready := by
    rw [hne j hjc]
    exact hj
  obtain ⟨k',hsched⟩ := sched_returns hready
  obtain ⟨i,hnext,rfl⟩ := sched_eq_ok hsched
  have hout : k₁.sched = .ok (.run (k₁.select i)) := by
    rw [Kernel.sched, hsched]
    rfl
  have hic : i ≠ c := by
    rintro rfl
    have hle := hnext.first j hready
    rw [ahead_current hcur] at hle
    have hlt := ahead_lt k₁ j
    have heq : k₁.ahead j = k₁.ahead i := by
      rw [ahead_current hcur]
      omega
    exact hjc (ahead_inj heq)
  have hi : (k.procs i).state = .ready := by
    rw [← hne i hic]
    exact hnext.ready
  obtain ⟨hkind,hstep⟩ := hkin _ hout
  obtain ⟨c',hsys⟩ := hstep.1
  obtain rfl : i = c' := Option.some.inj hsys.cur
  refine ⟨i,k₁.select i,hhandler.trans hout,hsys,hic,hi,⟨hkind,hphys,fun q => ?_⟩,?_,fun q hq => ?_⟩
  · by_cases hqi : q = i
    · subst hqi
      rw [select_proc, hne q hic]
      exact ⟨_,_,_,rfl⟩
    · rw [select_other _ hqi]
      by_cases hqc : q = c
      · rw [hqc, hself]
        exact ⟨_,_,_,rfl⟩
      · rw [hne q hqc]
        exact ⟨_,_,_,rfl⟩
  · rw [select_other _ hic.symm, hself]
    rfl
  · by_cases hqi : q = i
    · exact .inl hqi
    · have hqc : q ≠ c := fun he => by
        rw [he, hs.state] at hq
        cases hq
      have hq₁ : (k₁.procs q).state = .ready := by
        rw [hne q hqc]
        exact hq
      refine .inr ⟨by rw [select_other _ hqi]; exact hq₁,?_⟩
      have hle := hnext.first q hq₁
      have hlt : k₁.ahead i < k₁.ahead q := by
        refine lt_of_le_of_ne hle fun he => hqi (ahead_inj he.symm)
      rw [← hahead q]
      exact ahead_select hlt

theorem timer_reaches (hr : Reachable fs Orderly k) (hs : Sys k c) (hp : (k.procs p).state = .ready)
    (hz : ∀ j ≠ p, (k.procs j).zombieChild = none) : ∃ k', Reachable fs Orderly k' ∧ Sys k' p ∧ Rescheduled k k' := by
  induction hn : k.ahead p using Nat.strong_induction_on generalizing k c with
  | _ n ih =>
    have hpc : c ≠ p := fun he => by
      rw [← he, hs.state] at hp
      cases hp
    obtain ⟨i,k₁,ht,hs₁,-,-,hre,-,hready⟩ := timer_chooses fs hs hp
    have hr₁ : Reachable fs Orderly k₁ := hr.step hs.cur (orderly_of_none (hz c hpc) fun h => absurd h (by decide)) ht
    rcases hready p hp with rfl | ⟨hp₁,hlt⟩
    · exact ⟨k₁,hr₁,hs₁,hre⟩
    · have hz₁ : ∀ j ≠ p, (k₁.procs j).zombieChild = none := fun j hj => by
        rw [hre.kindred.zombieChild]
        exact hz j hj
      obtain ⟨k',hr',hs',hre'⟩ := ih (k₁.ahead p) (hn ▸ hlt) hr₁ hs₁ hp₁ hz₁ rfl
      exact ⟨k',hr',hs',hre.trans hre'⟩

def exitTrap (v : U64) : Trap := ⟨32,0,0,{ Context.zero with rdx := v },0⟩

theorem exitTrap_calls (v : U64) : (exitTrap v).Calls .exit := ⟨rfl,rfl⟩

/-- A process without children, whose parent does not wait, exits: it goes to the head of the zombies of
its parent, and somebody else runs. -/
theorem exit_zombie (fs : Fs) (hs : Sys k x) (hl : (k.procs x).livingChild = none) (hz : (k.procs x).zombieChild = none)
    (hp : (k.procs x).parent = some p) (hw : (k.procs p).waiting = false) (hready : (k.procs p).state = .ready) (v : U64) :
    ∃ i k₁, k₁ = becomeZombie (k.modProc x fun p => { p with exitVal := v }) x p v ∧
      trapHandler fs k (exitTrap v) = .ok (.run (k₁.select i)) ∧ (k₁.procs i).state = .ready := by
  have hxp : x ≠ p := fun he => by
    rw [← he, hs.state] at hready
    cases hready
  have hkill : killProc k x v = .ok (becomeZombie (k.modProc x fun p => { p with exitVal := v }) x p v) := by
    have hself := Kernel.modProc_self k x fun p => { p with exitVal := v }
    have hpar : ((k.modProc x fun p => { p with exitVal := v }).procs x).parent = some p := by
      rw [hself]
      exact hp
    have hwait : ((k.modProc x fun p => { p with exitVal := v }).procs p).waiting = false := by
      rw [Kernel.modProc_ne _ _ _ hxp.symm]
      exact hw
    have hasParent : exitAsParent (k.modProc x fun p => { p with exitVal := v }) x =
        .ok (k.modProc x fun p => { p with exitVal := v }) := by
      rw [exitAsParent, hself]
      dsimp only
      rw [hl, hz]
      rfl
    rw [killProc, hasParent, ok_bind, exitAsChild, hpar]
    dsimp only
    rw [hwait, if_pos (by decide)]
  have hst : ((becomeZombie (k.modProc x fun p => { p with exitVal := v }) x p v).procs p).state = .ready := by
    rw [(becomeZombie_links _ x p v).2.2.2.2.2 p hxp.symm, Kernel.modProc_ne _ _ _ hxp.symm]
    exact hready
  obtain ⟨k',hsched⟩ := sched_returns hst
  obtain ⟨i,hnext,rfl⟩ := sched_eq_ok hsched
  refine ⟨i,_,rfl,?_,hnext.ready⟩
  rw [trapHandler_call .exit hs.cur (exitTrap_calls v)]
  change sysExit k x v = _
  rw [sysExit, hkill, ok_bind, Kernel.sched, hsched]
  rfl

/-- What is left of a household: `x` is dead, `p` runs and has not waited for it. -/
structure Bereaved (k k' : Kernel) (p x : Slot) (v : U64) : Prop where
  phys : k'.phys = k.phys
  tables : ∀ j, (k'.procs j).pgtbl = (k.procs j).pgtbl ∧ (k'.procs j).pPgtbl = (k.procs j).pPgtbl
  zombie : (k'.procs x).state = .zombie
  exitVal : (k'.procs x).exitVal = v
  pid : (k'.procs x).pid = (k.procs x).pid
  next : (k'.procs x).nextSibling = none
  child : (k'.procs p).zombieChild = some x
  parent : (k'.procs x).parent = some p
  living : (k'.procs p).livingChild = (k.procs p).livingChild
  alive : ∀ j ≠ x, (k'.procs j).state ≠ .close ↔ (k.procs j).state ≠ .close
  waiting : ∀ j, (k'.procs j).waiting = false

theorem Rescheduled.keeps {α : Type*} (h : Rescheduled k k') (g : Proc → α)
    (hg : ∀ (p : Proc) st ctx et, g { p with state := st, context := ctx, execTime := et } = g p) (j : Slot) :
    g (k'.procs j) = g (k.procs j) := by
  obtain ⟨st,ctx,et,hj⟩ := h.same j
  rw [hj]
  exact hg _ st ctx et

theorem Bereaved.rescheduled {k₁ : Kernel} (h : Bereaved k k₁ p x v) (hre : Rescheduled k₁ k') : Bereaved k k' p x v where
  phys := hre.phys.trans h.phys
  tables j := by
    rw [hre.keeps Proc.pgtbl fun _ _ _ _ => rfl, hre.keeps Proc.pPgtbl fun _ _ _ _ => rfl]
    exact h.tables j
  zombie := (hre.kindred.zombie x).mpr h.zombie
  exitVal := (hre.keeps Proc.exitVal (fun _ _ _ _ => rfl) x).trans h.exitVal
  pid := (hre.keeps Proc.pid (fun _ _ _ _ => rfl) x).trans h.pid
  next := (hre.keeps Proc.nextSibling (fun _ _ _ _ => rfl) x).trans h.next
  child := (hre.keeps Proc.zombieChild (fun _ _ _ _ => rfl) p).trans h.child
  parent := (hre.keeps Proc.parent (fun _ _ _ _ => rfl) x).trans h.parent
  living := (hre.keeps Proc.livingChild (fun _ _ _ _ => rfl) p).trans h.living
  alive j hj := (not_congr (hre.kindred.close j)).trans (h.alive j hj)
  waiting j := (hre.kindred.waiting j).trans (h.waiting j)

theorem bereaved_exit {k₁ : Kernel} {i : Slot} (h : Household k p cs) (hre : Rescheduled k k₁) (hx : x ∈ cs) (hxp : x ≠ p)
    (hi : ((becomeZombie (k₁.modProc x fun p => { p with exitVal := v }) x p v).procs i).state = .ready) :
    Bereaved k ((becomeZombie (k₁.modProc x fun p => { p with exitVal := v }) x p v).select i) p x v := by
  obtain ⟨hnext,-,hchild,-,hdead,hstate⟩ := becomeZombie_links (k₁.modProc x fun p => { p with exitVal := v }) x p v
  have hkeep : ∀ {α : Type} (g : Proc → α), (∀ (p : Proc) zc ps ns ev st, g { p with
      zombieChild := zc, prevSibling := ps, nextSibling := ns, exitVal := ev, state := st } = g p) →
      (∀ (p : Proc) st ctx et, g { p with state := st, context := ctx, execTime := et } = g p) →
      ∀ j, g (((becomeZombie (k₁.modProc x fun p => { p with exitVal := v }) x p v).select i).procs j) = g (k.procs j) := by
    intro α g hg hg' j
    have hsel : ∀ (k : Kernel), g ((k.select i).procs j) = g (k.procs j) := fun k => by
      by_cases hj : j = i
      · rw [hj, select_proc]
        exact hg (k.procs i) _ _ _ _ _
      · rw [select_other _ hj]
    rw [hsel, becomeZombie_keeps g hg, Kernel.modProc_keeps g fun p => hg p _ _ _ _ _]
    exact hre.keeps g hg' j
  have hix : i ≠ x := fun he => by
    rw [he, hdead] at hi
    cases hi
  obtain ⟨k₂,hlinked,hform⟩ := becomeZombie_eq (k₁.modProc x fun p => { p with exitVal := v }) x p v
  have hselx : ∀ k : Kernel, (k.select i).procs x = k.procs x := fun k => select_other k hix.symm
  refine ⟨?_,fun j => ⟨?_,?_⟩,?_,?_,?_,?_,?_,?_,?_,?_,?_⟩
  · have hphys : (becomeZombie (k₁.modProc x fun p => { p with exitVal := v }) x p v).phys = k₁.phys := by
      rw [hform]
      exact hlinked.phys
    exact hphys.trans hre.phys
  · exact hkeep Proc.pgtbl (fun _ _ _ _ _ _ => rfl) (fun _ _ _ _ => rfl) j
  · exact hkeep Proc.pPgtbl (fun _ _ _ _ _ _ => rfl) (fun _ _ _ _ => rfl) j
  · rw [hselx]
    exact hdead
  · rw [hselx, hform, Kernel.modProc_self]
  · exact hkeep Proc.pid (fun _ _ _ _ _ _ => rfl) (fun _ _ _ _ => rfl) x
  · rw [hselx]
    refine hnext.trans ?_
    rw [Kernel.modProc_ne _ _ _ hxp.symm, hre.kindred.zombieChild]
    exact h.zombies p
  · have hsel : ∀ k : Kernel, ((k.select i).procs p).zombieChild = (k.procs p).zombieChild := fun k => by
      by_cases hpi : p = i
      · rw [← hpi, select_proc]
      · rw [select_other _ hpi]
    rw [hsel]
    exact hchild
  · exact (hkeep Proc.parent (fun _ _ _ _ _ _ => rfl) (fun _ _ _ _ => rfl) x).trans (h.parent x hx)
  · exact hkeep Proc.livingChild (fun _ _ _ _ _ _ => rfl) (fun _ _ _ _ => rfl) p
  · intro j hj
    have hj₁ : ((becomeZombie (k₁.modProc x fun p => { p with exitVal := v }) x p v).procs j).state = (k₁.procs j).state := by
      rw [hstate j hj, Kernel.modProc_ne _ _ _ hj]
    refine Iff.trans ?_ (not_congr (hre.kindred.close j))
    rw [← hj₁]
    by_cases hji : j = i
    · rw [hji, hi, select_self]
      exact iff_of_true nofun nofun
    · rw [select_other _ hji]
  · intro j
    exact (hkeep Proc.waiting (fun _ _ _ _ _ _ => rfl) (fun _ _ _ _ => rfl) j).trans (h.waiting j)

/-- One of the children exits, and the parent comes to run again. -/
theorem Household.bereave (hr : Reachable fs Orderly k) (hs : Sys k p) (h : Household k p cs) (hne : cs ≠ []) (v : U64) :
    ∃ x ∈ cs, ∃ k', Reachable fs Orderly k' ∧ Sys k' p ∧ Bereaved k k' p x v := by
  obtain ⟨c,hc⟩ := List.exists_mem_of_ne_nil cs hne
  obtain ⟨x,k₁,ht,hs₁,hxp,hxready,hre,hpready,-⟩ := timer_chooses fs hs (h.ready c hc)
  have hx : x ∈ cs := (h.alone x (by rw [hxready]; nofun)).resolve_left hxp
  have hr₁ : Reachable fs Orderly k₁ := hr.step hs.cur (orderly_of_none (h.zombies p) fun h => absurd h (by decide)) ht
  have hlinks : ∀ j, (k₁.procs j).links = (k.procs j).links := hre.kindred.links
  have hliv : (k₁.procs x).livingChild = none := (congrArg Links.livingChild (hlinks x)).trans (h.living x hxp)
  have hzom : ∀ j, (k₁.procs j).zombieChild = none := fun j => (congrArg Links.zombieChild (hlinks j)).trans (h.zombies j)
  have hpar : (k₁.procs x).parent = some p := (congrArg Links.parent (hlinks x)).trans (h.parent x hx)
  have hwait : (k₁.procs p).waiting = false := (hre.kindred.waiting p).trans (h.waiting p)
  obtain ⟨i,k₂,hk₂,ht₂,hi⟩ := exit_zombie fs hs₁ hliv (hzom x) hpar hwait hpready v
  have hr₂ : Reachable fs Orderly (k₂.select i) :=
    hr₁.step hs₁.cur (orderly_of_none (hzom x) fun _ => ⟨.exit,rfl,nofun,nofun⟩) ht₂
  obtain ⟨c',hs₂⟩ := hr₂.sys fun _ _ _ hG => hG
  obtain rfl : i = c' := Option.some.inj hs₂.cur
  have hb : Bereaved k (k₂.select i) p x v := by
    subst hk₂
    exact bereaved_exit h hre hx hxp hi
  by_cases hip : i = p
  · subst hip
    exact ⟨x,hx,_,hr₂,hs₂,hb⟩
  · have hp₂ : ((k₂.select i).procs p).state = .ready := by
      rw [select_other _ (Ne.symm hip), hk₂, (becomeZombie_links _ x p v).2.2.2.2.2 p hxp.symm,
        Kernel.modProc_ne _ _ _ hxp.symm]
      exact hpready
    have hz₂ : ∀ j ≠ p, ((k₂.select i).procs j).zombieChild = none := fun j hj => by
      have hsel : ((k₂.select i).procs j).zombieChild = (k₂.procs j).zombieChild := by
        by_cases hji : j = i
        · rw [hji, select_proc]
        · rw [select_other _ hji]
      have hmod : ((k₁.modProc x fun p => { p with exitVal := v }).procs j).zombieChild = (k₁.procs j).zombieChild := by
        refine Kernel.modProc_keeps Proc.zombieChild ?_ j
        exact fun _ => rfl
      rw [hsel, hk₂, (becomeZombie_links _ x p v).2.2.2.1 j hj, hmod]
      exact hzom j
    obtain ⟨k',hr',hs',hre'⟩ := timer_reaches hr₂ hs₂ hp₂ hz₂
    exact ⟨x,hx,k',hr',hs',hb.rescheduled hre'⟩

def forkTrap : Trap := ⟨32,0,0,{ Context.zero with rax := 1 },0⟩

theorem Household.grow (hr : Reachable fs Orderly k) (hs : Sys k p) (h : Household k p cs) (hsize : cs.length + 1 < nprocs)
    (hroom : 2 + 2 * copyCost k.phys (k.procs p).pPgtbl < k.phys.free.length) : ∃ n k', Reachable fs Orderly k' ∧
      Sys k' p ∧ Household k' p (n :: cs) ∧ copyCost k'.phys (k'.procs p).pPgtbl = copyCost k.phys (k.procs p).pPgtbl ∧
      k.phys.free.length = 2 + 2 * copyCost k.phys (k.procs p).pPgtbl + k'.phys.free.length ∧
      ∀ q < upages, (entry k.phys (k.procs p).pgtbl q).p = true → (entry k'.phys (k'.procs p).pgtbl q).p = true := by
  obtain ⟨j,hj⟩ : ∃ j : Slot, j ∉ p :: cs := by
    by_contra hall
    push Not at hall
    have hle : (Finset.univ : Finset Slot).card ≤ (p :: cs).toFinset.card :=
      Finset.card_le_card fun j _ => List.mem_toFinset.mpr (hall j)
    have hlen := (p :: cs).toFinset_card_le
    rw [Finset.card_univ, Fintype.card_fin] at hle
    rw [List.length_cons] at hlen
    omega
  rw [List.mem_cons, not_or] at hj
  have hclosed : (k.procs j).state = .close := by
    by_contra hopen
    exact (h.alone j hopen).elim hj.1 hj.2
  obtain ⟨n₀,hslot⟩ := exists_closedSlot hclosed
  obtain ⟨o,ho,hlen⟩ := (sysFork_room forkTrap.tf hs hslot).1 hroom
  obtain ⟨n,k',rfl,hf⟩ := sysFork_spec hs.inv hs.open ho
  have ht : trapHandler fs k forkTrap = .ok (.ret { forkTrap.tf with rax := BitVec.ofNat 64 (k'.procs n).pid } k') := by
    rw [trapHandler_call .fork hs.cur ⟨rfl,rfl⟩]
    exact ho
  have hr' : Reachable fs Orderly k' :=
    hr.step hs.cur (orderly_of_none (h.zombies p) fun _ => ⟨.fork,rfl,nofun,nofun⟩) ht
  obtain ⟨c',hs'⟩ := hr'.sys fun _ _ _ hG => hG
  obtain rfl : p = c' := Option.some.inj (hs.cur.symm.trans (hf.globals.2.1.symm.trans hs'.cur))
  have hpn : p ≠ n := fun he => by
    have hst := hf.fresh
    rw [← he, hs.state] at hst
    cases hst
  refine ⟨n,k',hr',hs',h.fork hs hf,?_,hlen,fun q hq hp => ?_⟩
  · obtain ⟨m,P,hphys,hforked⟩ := hf.tables
    have htbl : (k'.procs p).pPgtbl = (k.procs p).pPgtbl := by
      change (k'.procs p).core.pPgtbl = (k.procs p).core.pPgtbl
      rw [hf.core p hpn]
    rw [htbl, hphys]
    exact hforked.parent₂.copyCost
  · exact (hf.sharesPage hs.inv hs.open hpn hq hp).1.1

theorem household_one : ∃ k a, Reachable rootFs Orderly k ∧ Sys k firstSlot ∧ Household k firstSlot [a] ∧
    (entry k.phys (k.procs firstSlot).pgtbl (key 3 uargs)).p = true ∧
    2 + 2 * copyCost k.phys (k.procs firstSlot).pPgtbl < k.phys.free.length := by
  obtain ⟨m,a,b,pwd,hs,hlaid,-,hhigh,hlen⟩ := started_lone (N := 100) rootFs_opens (by decide)
  obtain ⟨c,hsys⟩ := hs.sys
  obtain rfl : firstSlot = c := Option.some.inj hsys.cur
  have hcost : copyCost (loneKernel m a b pwd).phys ((loneKernel m a b pwd).procs firstSlot).pPgtbl = copyCost m b := by
    rw [loneKernel_self]
    rfl
  have hfree : (loneKernel m a b pwd).phys.free = m.free := rfl
  have hargs : (entry (loneKernel m a b pwd).phys ((loneKernel m a b pwd).procs firstSlot).pgtbl (key 3 uargs)).p = true := by
    obtain ⟨f,hf,-⟩ := hlaid.args
    rw [loneKernel_self]
    change (entry m a (key 3 uargs)).p = true
    rw [hf, Pte.full_p]
  obtain ⟨x,k,hr,hsk,hh,hcost',hlen',hargs'⟩ := (household_lone m a b pwd).grow ⟨_,hs,.refl⟩ hsys (by decide)
    (by rw [hcost, hfree]; omega)
  rw [hcost] at hcost' hlen'
  rw [hfree] at hlen'
  exact ⟨k,x,hr,hsk,hh,hargs' _ (key_user (by decide)) hargs,by omega⟩

/-- After boot and some forks there is a process with children, whose page of arguments is mapped. -/
theorem household_reachable : ∃ k a b, Reachable rootFs Orderly k ∧ Sys k firstSlot ∧ a ≠ b ∧
    Household k firstSlot [a,b] ∧ (entry k.phys (k.procs firstSlot).pgtbl (key 3 uargs)).p = true := by
  obtain ⟨k₁,x,hr₁,hs₁,h₁,hargs,hroom⟩ := household_one
  obtain ⟨y,k₂,hr₂,hs₂,h₂,-,-,hargs₂⟩ := h₁.grow hr₁ hs₁ (by unfold nprocs; simp) hroom
  have hne : y ≠ x := (List.nodup_cons.mp h₂.nodup).1 ∘ List.mem_singleton.mpr
  exact ⟨k₂,y,x,hr₂,hs₂,hne,h₂,hargs₂ _ (key_user (by decide)) hargs⟩

end Ukern
