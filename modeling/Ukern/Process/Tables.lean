import Ukern.Process.Transfer
import Ukern.Lib.Post

/-! # Calls that leave the descriptor tables alone

Reading and writing, the keyboard and the scheduler touch contexts and states, never an entry
of a descriptor table or anything else of a process, and they close no slot.
-/
namespace Ukern
open Lib
variable {k k' k₁ : Kernel} {c i j : Slot} {tf : Context} {tr : Trap} {o : Outcome} {m : Phys} {pg : ℕ} {f : Proc → Proc}

/-- A property of the processes that does not depend on registers and times, and on a state only as far as the slot
is open. -/
structure Carried (I : Kernel → Prop) : Prop where
  procs : ∀ {k k' : Kernel}, I k → k'.procs = k.procs → I k'
  modProc : ∀ {k : Kernel} (i : Slot) (f : Proc → Proc), I k → (∀ p, ∃ ctx st et, st ≠ ProcState.close ∧
    f p = { p with context := ctx, state := st, execTime := et }) → I (k.modProc i f)

namespace Carried
variable {I : Kernel → Prop}

theorem wake (hI : Carried I) (h : I k) (i : Slot) (v : U64) : I (k.wake i v) := by
  apply hI.modProc i _ h
  intro p
  exact ⟨_,.ready,_,by decide,rfl⟩

theorem block (hI : Carried I) (h : I k) (i : Slot) (tf : Context) : I (k.block i tf) := by
  apply hI.modProc i _ h
  intro p
  exact ⟨_,.pending,_,by decide,rfl⟩

theorem sched (hI : Carried I) (h : I k) : Post k.sched fun o => I o.kernel := by
  intro o hs
  obtain ⟨k₂,hk,ho⟩ := bind_eq_ok.mp hs
  cases ho
  obtain ⟨i,-,rfl⟩ := sched_ok hk
  have hrun : I (k.modProc i fun p => { p with state := .running }) :=
    hI.modProc i _ h fun _ => ⟨_,.running,_,by decide,rfl⟩
  exact hI.procs hrun rfl

theorem done (h : I k) {v : U64} : Post (k.done tf v) fun o => I o.kernel := .ok h

theorem pipeReadCopy {r : Slot} {n : ℕ} (hI : Carried I) (h : I k) : Post (pipeReadCopy k pg r n) I := by
  unfold Ukern.pipeReadCopy
  exact .seq fun _ => .seq fun _ => .ok (hI.procs h rfl)

theorem pipeWriteCopy {w : Slot} {n : ℕ} (hI : Carried I) (h : I k) : Post (pipeWriteCopy k pg w n) I := by
  unfold Ukern.pipeWriteCopy
  exact .seq fun _ => .seq fun _ => .ok (hI.procs h rfl)

theorem pipe (hI : Carried I) (depth : ℕ) : ∀ {k : Kernel}, I k → ∀ invoke : Bool,
    Post (pipeRead depth k pg invoke) (fun r => I r.2) ∧ Post (pipeWrite depth k pg invoke) fun r => I r.2 := by
  induction depth with
  | zero =>
    intro k h invoke
    rw [pipeRead, pipeWrite]
    exact ⟨.error _,.error _⟩
  | succ depth ih =>
    intro k h invoke
    rw [pipeRead, pipeWrite]
    have hw : ∀ {k₂ : Kernel} (p : Prop) [Decidable p] (i : Slot) (v : U64), I k₂ →
        I (if p then k₂.wake i v else k₂) := by
      intro k₂ p _ i v h₂
      split
      · exact hI.wake h₂ i v
      · exact h₂
    refine ⟨.ite (fun _ => .ok h) fun _ => ?_,.ite (fun _ => .ok h) fun _ => ?_⟩
    · split
      · exact .error _
      · refine .bind (hI.pipeReadCopy h) fun k₂ h₂ => ?_
        exact .ite (fun _ => .bind (ih (hw _ _ _ h₂) true).2 fun r hr => .ok hr) fun _ => .ok (hw _ _ _ h₂)
    · split
      · exact .error _
      · refine .bind (hI.pipeWriteCopy h) fun k₂ h₂ => ?_
        exact .ite (fun _ => .bind (ih (hw _ _ _ h₂) true).1 fun r hr => .ok hr) fun _ => .ok (hw _ _ _ h₂)

theorem releasePipe (hI : Carried I) (h : I k) (pg : ℕ) : Post (releasePipe k pg) I :=
  .ite (fun _ => .seq fun _ => .ok (hI.procs h rfl)) fun _ => .ok h

theorem dropFdesc {f : FileDesc} (hI : Carried I) (h : I k) : Post (dropFdesc k f) I := by
  have hset : ∀ q, I (k.setPipe f.pipe q) := fun q => hI.procs h rfl
  unfold Ukern.dropFdesc
  dsimp only
  split
  · exact hI.releasePipe (hset _) _
  · refine hI.releasePipe ?_ _
    split
    · split
      · exact hI.wake (hset _) _ _
      · exact hset _
    · exact hset _
  · exact .ok h

theorem readPipe (hI : Carried I) (h : I k) : Post (readPipe k c pg tf) fun o => I o.kernel := by
  have hset : ∀ q, I (k.setPipe pg q) := fun q => hI.procs h rfl
  unfold Ukern.readPipe
  refine .ite (fun _ => done h) fun _ => .ite (fun _ => ?_) fun _ =>
    .ite (fun _ => done (hset _)) fun _ => hI.sched (hI.block (hset _) c tf)
  exact .bind (hI.pipe 3 (hset _) false).1 fun r hr => done hr

theorem writePipe (hI : Carried I) (h : I k) : Post (writePipe k c pg tf) fun o => I o.kernel := by
  have hset : ∀ q, I (k.setPipe pg q) := fun q => hI.procs h rfl
  unfold Ukern.writePipe
  refine .ite (fun _ => done h) fun _ => .bind (hI.pipe 3 (hset _) false).2 fun r hr => ?_
  exact .ite (fun _ => .error _) fun _ => .ite (fun _ => done hr) fun _ => hI.sched (hI.block hr c tf)

theorem kbdCopies {t n : ℕ} {dst : U64} (hI : Carried I) (h : I k) : Post ((List.range n).foldlM (kbdCopy t dst) k) I := by
  refine .foldlM (fun k₁ i h₁ => ?_) h
  unfold kbdCopy
  exact .seq fun _ => .ok (hI.procs h₁ rfl)

theorem readKbd (hI : Carried I) (h : I k) : Post (readKbd k c tf) fun o => I o.kernel := by
  have hset : I { k with kbdProc := some c } := hI.procs h rfl
  unfold Ukern.readKbd
  refine .ite (fun _ => ?_) fun _ => .ite (fun _ => done h) fun _ => hI.sched (hI.block hset c tf)
  exact .bind (hI.kbdCopies h) fun k₁ h₁ => done h₁

theorem keyboard (hI : Carried I) (h : I k) : Post (keyboard k c tr) fun o => I o.kernel := by
  have hkey : I (k.queueKey tr.getch) := hI.procs h rfl
  unfold Ukern.keyboard serveKbd
  refine .ite (fun _ => ?_) fun _ => .ok h
  split
  · exact .ok hkey
  · rename_i b _
    refine .bind (hI.kbdCopies hkey) fun k₁ h₁ => ?_
    have hwake (v : U64) : I { k₁.wake b v with kbdProc := none } := hI.procs (hI.wake h₁ b v) rfl
    apply hI.sched
    exact hI.modProc c _ (hwake _) fun _ => ⟨_,.ready,_,by decide,rfl⟩

theorem yield (hI : Carried I) (h : I k) :
    Post (k.modProc c fun p => { p with context := tf, state := .ready, execTime := (p.execTime + 1) % 2^64 }).sched
      fun o => I o.kernel := hI.sched (hI.modProc c _ h fun _ => ⟨_,.ready,_,by decide,rfl⟩)

end Carried

/-- Every table is as it was, and no slot was closed. -/
def FdsKept (k k' : Kernel) : Prop := ∀ j, (k'.procs j).fdesc = (k.procs j).fdesc ∧
  ((k.procs j).state ≠ .close → (k'.procs j).state ≠ .close)

namespace FdsKept

theorem refl (k : Kernel) : FdsKept k k := fun _ => ⟨rfl,id⟩

theorem trans (h : FdsKept k k₁) (h' : FdsKept k₁ k') : FdsKept k k' :=
  fun j => ⟨(h' j).1.trans (h j).1,fun hj => (h' j).2 ((h j).2 hj)⟩

theorem of_procs (h : FdsKept k k₁) (hp : k'.procs = k₁.procs) : FdsKept k k' := fun j => by
  rw [hp]
  exact h j

theorem modProc (h : FdsKept k k₁) (hf : ∀ p, (f p).fdesc = p.fdesc ∧ ((f p).state = p.state ∨ (f p).state ≠ .close)) :
    FdsKept k (k₁.modProc i f) := h.trans fun j => by
  by_cases hj : j = i
  · subst hj
    rw [Kernel.modProc_self]
    obtain ⟨h1,h2⟩ := hf (k₁.procs j)
    exact ⟨h1,fun ho => h2.elim (fun he => by rw [he]; exact ho) id⟩
  · rw [Kernel.modProc_ne _ _ _ hj]
    exact ⟨rfl,id⟩

theorem carried (k : Kernel) : Carried (FdsKept k) where
  procs h hp := h.of_procs hp
  modProc i f h hf := h.modProc fun p => by
    obtain ⟨ctx,st,et,hst,he⟩ := hf p
    rw [he]
    exact ⟨rfl,.inr hst⟩

theorem sched (h : FdsKept k k₁) : Post k₁.sched fun o => FdsKept k o.kernel := (carried k).sched h

theorem block (h : FdsKept k k₁) (i : Slot) (tf : Context) : FdsKept k (k₁.block i tf) := (carried k).block h i tf

theorem ends_le (h : FdsKept k k') (ty : FileType) (pg : ℕ) : ends k ty pg ≤ ends k' ty pg := by
  refine Finset.sum_le_sum fun j _ => ?_
  obtain ⟨hfd,hopen⟩ := h j
  unfold Proc.ends Proc.endsBelow
  rw [hfd]
  by_cases hj : (k.procs j).state = .close
  · rw [if_pos hj]
    exact Nat.zero_le _
  · rw [if_neg hj, if_neg (hopen hj)]

end FdsKept

theorem readPipe_tables (k : Kernel) (c : Slot) (pg : ℕ) (tf : Context) :
    Post (readPipe k c pg tf) fun o => FdsKept k o.kernel := (FdsKept.carried k).readPipe (.refl k)

theorem writePipe_tables (k : Kernel) (c : Slot) (pg : ℕ) (tf : Context) :
    Post (writePipe k c pg tf) fun o => FdsKept k o.kernel := (FdsKept.carried k).writePipe (.refl k)

theorem readKbd_tables (k : Kernel) (c : Slot) (tf : Context) : Post (readKbd k c tf) fun o => FdsKept k o.kernel :=
  (FdsKept.carried k).readKbd (.refl k)

theorem keyboard_tables (k : Kernel) (c : Slot) (tr : Trap) : Post (keyboard k c tr) fun o => FdsKept k o.kernel :=
  (FdsKept.carried k).keyboard (.refl k)

theorem yield_tables (k : Kernel) (c : Slot) (tf : Context) :
    Post (k.modProc c fun p => { p with context := tf, state := .ready, execTime := (p.execTime + 1) % 2^64 }).sched
      fun o => FdsKept k o.kernel := (FdsKept.carried k).yield (.refl k)

end Ukern
