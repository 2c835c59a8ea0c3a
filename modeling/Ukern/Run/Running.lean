import Ukern.Run.Boot

/-! # Who runs after a trap

A trap that returns finds the current process running and no other; a dead slot stays
dead until `alloc_proc` hands it out. Both fail after a system call that does not exist:
the process is killed, and the trap returns to it.
-/
namespace Ukern
open Lib
variable {fs : Fs} {k k' : Kernel} {c : Slot} {tr : Trap} {o : Outcome}

/-- What every return to user mode should leave. -/
structure ReturnsRunning (k : Kernel) (tr : Trap) (o : Outcome) : Prop where
  running : ∃ c, o.kernel.curproc = some c ∧ ∀ j, (o.kernel.procs j).state = .running ↔ j = c
  dead : ∀ j, Dead k j → Dead o.kernel j ∨ HandedOut k tr j

/-- The system call `rax` with no other argument. -/
def callTrap (rax : U64) : Trap := ⟨32,0,0,{ Context.zero with rax := rax },0⟩

theorem rootFs_opens : OpensRoot rootFs := ⟨_,[],by decide,rfl⟩

theorem killProc_lone (h : Sys k c)
    (hp : (k.procs c).parent = none ∧ (k.procs c).livingChild = none ∧ (k.procs c).zombieChild = none) (v : U64) :
    ∃ k', killProc k c v = .ok k' ∧ k'.procs c = .zero ∧
      Clear (k.modProc c fun p => { p with exitVal := v }) k' (· = c) := by
  have hl : (k.procs c).Like { k.procs c with exitVal := v } := ⟨rfl,rfl,rfl,Iff.rfl⟩
  have hinv := h.inv.modProc (f := fun p => { p with exitVal := v }) hl fun hw => h.inv.waiting hw
  obtain ⟨k₁,hk₁,hz,hcl⟩ := clearProc_spec (i := c) hinv
    (by rw [Kernel.modProc_self]; exact h.open) (h.reg.wakeSafe.modProc hl)
  refine ⟨k₁,?_,hz,hcl⟩
  unfold killProc exitAsParent
  simp only [Kernel.modProc_self,hp.2.1,hp.2.2,orphan,ok_bind,reap,exitAsChild,hp.1]
  exact hk₁

end Ukern
