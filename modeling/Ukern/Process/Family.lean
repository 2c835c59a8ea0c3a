import Ukern.Process.Transfer

/-! # Family pointers

Which calls touch the pointers between processes. Everything but `sys_fork`, `sys_wait` and an
exit leaves them alone, and neither creates nor buries anybody.
-/
namespace Ukern
open Lib
variable {k k' k₁ : Kernel} {c i j n : Slot} {tf : Context} {o : Outcome} {tr : Trap}

/-- The families are the same, of the same living and dead processes. -/
structure Kindred (k k' : Kernel) : Prop where
  links : ∀ j, (k'.procs j).links = (k.procs j).links
  close : ∀ j, (k'.procs j).state = .close ↔ (k.procs j).state = .close
  zombie : ∀ j, (k'.procs j).state = .zombie ↔ (k.procs j).state = .zombie
  waiting : ∀ j, (k'.procs j).waiting = (k.procs j).waiting

namespace Kindred

theorem refl : Kindred k k := ⟨fun _ => rfl,fun _ => Iff.rfl,fun _ => Iff.rfl,fun _ => rfl⟩

theorem trans (h : Kindred k k₁) (h' : Kindred k₁ k') : Kindred k k' where
  links j := (h'.links j).trans (h.links j)
  close j := (h'.close j).trans (h.close j)
  zombie j := (h'.zombie j).trans (h.zombie j)
  waiting j := (h'.waiting j).trans (h.waiting j)

theorem of_procs (h : ∀ j, k'.procs j = k.procs j) : Kindred k k' :=
  ⟨fun j => by rw [h],fun j => by rw [h],fun j => by rw [h],fun j => by rw [h]⟩

theorem next (h : Kindred k k') : k'.next = k.next := funext fun j => congrArg Links.nextSibling (h.links j)

theorem zombieChild (h : Kindred k k') (j : Slot) : (k'.procs j).zombieChild = (k.procs j).zombieChild :=
  congrArg Links.zombieChild (h.links j)

/-- Of all processes only `c` changed, from one living state to another. -/
theorem of_one (hoth : ∀ j ≠ c, k'.procs j = k.procs j) (hl : (k'.procs c).links = (k.procs c).links)
    (hw : (k'.procs c).waiting = (k.procs c).waiting) (hs : ¬ Dead k c) (hs' : ¬ Dead k' c) : Kindred k k' := by
  simp only [Dead,not_or] at hs hs'
  refine ⟨fun j => ?_,fun j => ?_,fun j => ?_,fun j => ?_⟩
  · by_cases hj : j = c
    · rw [hj, hl]
    · rw [hoth j hj]
  · by_cases hj : j = c
    · rw [hj]
      exact iff_of_false hs'.1 hs.1
    · rw [hoth j hj]
  · by_cases hj : j = c
    · rw [hj]
      exact iff_of_false hs'.2 hs.2
    · rw [hoth j hj]
  · by_cases hj : j = c
    · rw [hj, hw]
    · rw [hoth j hj]

theorem modProc {f : Proc → Proc} (hl : (f (k.procs c)).links = (k.procs c).links)
    (hw : (f (k.procs c)).waiting = (k.procs c).waiting) (hs : ¬ Dead k c)
    (hs' : (f (k.procs c)).state ≠ .close ∧ (f (k.procs c)).state ≠ .zombie) : Kindred k (k.modProc c f) :=
  of_one (fun _ hj => Kernel.modProc_ne _ _ _ hj) (by rw [Kernel.modProc_self, hl]) (by rw [Kernel.modProc_self, hw]) hs
    (by
      simp only [Dead,Kernel.modProc_self,not_or]
      exact hs')

theorem of_sched (hs : Ukern.sched k = .ok k') : Kindred k k' := by
  obtain ⟨i,hi,rfl⟩ := sched_ok hs
  have hrun : Kindred k (k.modProc i fun p => { p with state := .running }) :=
    modProc rfl rfl (by simp [Dead,hi]) (by simp)
  exact hrun.trans (of_procs fun _ => rfl)

theorem sched (h : Kindred k k₁) (hs : k₁.sched = .ok o) : Kindred k o.kernel := by
  obtain ⟨k',hk,ho⟩ := bind_eq_ok.mp hs
  cases ho
  exact h.trans (of_sched hk)

end Kindred

theorem Quiet.kindred (h : Quiet k k') : Kindred k k' where
  links j := by
    obtain ⟨h1,h2,h3,h4,h5⟩ := (h.procs j).family
    rw [Proc.links, Proc.links, h1, h2, h3, h4, h5]
  close j := by rw [(h.procs j).state]
  zombie j := by rw [(h.procs j).state]
  waiting j := (h.procs j).waiting

theorem Returned.kindred (h : Returned k o) : Kindred k o.kernel := by
  obtain ⟨tf,k',rfl,hq⟩ := h
  exact hq.kindred

theorem Sys.not_dead (h : Sys k c) : ¬ Dead k c := fun hd => h.dead_ne hd rfl

theorem ExecOk.kindred (h : ExecOk k k' c) (hc : ¬ Dead k c) : Kindred k k' := by
  obtain ⟨a,b,e,ctx,hself⟩ := h.self
  exact .of_one h.procs (by rw [hself]; rfl) (by rw [hself]) hc (by simp [Dead,hself])

theorem Piped.kindred {pg : ℕ} (h : Piped k k' c pg) (hc : ¬ Dead k c) : Kindred k k' := by
  obtain ⟨fds,hself⟩ := h.self
  exact .of_one h.procs (by rw [hself]; rfl) (by rw [hself]) hc (by simpa only [Dead,hself] using hc)

theorem timer_kindred (h : Sys k c) (hs : (k.modProc c fun p => { p with
    context := tf, state := .ready, execTime := (p.execTime + 1) % 2^64 }).sched = .ok o) : Kindred k o.kernel :=
  Kindred.sched (.modProc rfl rfl h.not_dead (by simp)) hs

theorem readKbd_kindred (h : Sys k c) (hs : readKbd k c tf = .ok o) : Kindred k o.kernel := by
  unfold readKbd at hs
  split at hs
  · obtain ⟨k₁,hc,hs⟩ := bind_eq_ok.mp hs
    exact (Returned.done (kbdCopies_quiet h.inv hc) hs).kindred
  split at hs
  · exact (Returned.done (.refl h.inv) hs).kindred
  have hk : Kindred k { k with kbdProc := some c } := .of_procs fun _ => rfl
  exact (hk.trans (.modProc rfl rfl h.not_dead (by simp))).sched hs

theorem keyboard_kindred (h : Sys k c) (hs : keyboard k c tr = .ok o) : Kindred k o.kernel := by
  unfold keyboard at hs
  split at hs
  · have hq := Quiet.queueKey h.inv tr.getch
    have h₁ := hq.sys h
    unfold serveKbd at hs
    split at hs
    · cases hs
      exact hq.kindred
    · rename_i b hb
      obtain ⟨k₂,hc,hs⟩ := bind_eq_ok.mp hs
      have hq₂ := hq.trans (kbdCopies_quiet h₁.inv hc)
      have h₂ := hq₂.sys h
      have hkb : Registered k₂ .kbd b := hq₂.globals.2.2.trans hb
      have hpb := h₂.reg.pending .kbd b hkb
      have hwake : ∀ rax, Kindred k₂ (k₂.wake b rax) := fun rax => .modProc rfl rfl (by simp [Dead,hpb]) (by simp)
      have hw : ∀ rax, Kindred k₂ { k₂.wake b rax with kbdProc := none } := fun rax =>
        (hwake rax).trans (.of_procs fun _ => rfl)
      have hc₃ : ∀ rax, ¬ Dead { k₂.wake b rax with kbdProc := none } c := fun rax => ((h₂.wake rax hkb).1).not_dead
      exact ((hq₂.kindred.trans (hw _)).trans (.modProc rfl rfl (hc₃ _) (by simp))).sched hs
  · cases hs
    exact .refl

theorem addChild_zombieChild (k : Kernel) (n c j : Slot) :
    ((addChild k n c).procs j).zombieChild = (k.procs j).zombieChild := by
  have hkeep : ∀ (k : Kernel) (i : Slot) (f : Proc → Proc), (∀ p, (f p).zombieChild = p.zombieChild) →
      ((k.modProc i f).procs j).zombieChild = (k.procs j).zombieChild := fun k i f hf =>
    Kernel.modProc_keeps Proc.zombieChild hf j
  unfold addChild
  cases (k.procs c).livingChild with
  | none => simp only [hkeep,implies_true]
  | some ohead => simp only [hkeep,implies_true]

theorem addChild_next (k : Kernel) (c : Slot) (hj : j ≠ n) : (addChild k n c).next j = k.next j := by
  have hkeep : ∀ (k : Kernel) (i : Slot) (f : Proc → Proc), (∀ p, (f p).nextSibling = p.nextSibling) →
      ((k.modProc i f).procs j).nextSibling = (k.procs j).nextSibling := fun k i f hf =>
    Kernel.modProc_keeps Proc.nextSibling hf j
  unfold Kernel.next addChild
  cases (k.procs c).livingChild with
  | none => simp only [Kernel.modProc_ne _ _ _ hj,hkeep,implies_true]
  | some ohead => simp only [Kernel.modProc_ne _ _ _ hj,hkeep,implies_true]

theorem addChild_parent (k : Kernel) (n c j : Slot) :
    ((addChild k n c).procs j).parent = if j = n then some c else (k.procs j).parent := by
  have hkeep : ∀ (k : Kernel) (i : Slot) (f : Proc → Proc), (∀ p, (f p).parent = p.parent) →
      ((k.modProc i f).procs j).parent = (k.procs j).parent := fun k i f hf =>
    Kernel.modProc_keeps Proc.parent hf j
  unfold addChild
  by_cases hj : j = n
  · rw [if_pos hj, hj]
    cases (k.procs c).livingChild with
    | none => rw [Kernel.modProc_self]
    | some ohead => rw [Kernel.modProc_self]
  · rw [if_neg hj]
    cases (k.procs c).livingChild with
    | none => simp only [Kernel.modProc_ne _ _ _ hj,hkeep,implies_true]
    | some ohead => simp only [Kernel.modProc_ne _ _ _ hj,hkeep,implies_true]

theorem addChild_livingChild (k : Kernel) (n c j : Slot) :
    ((addChild k n c).procs j).livingChild = if j = c then some n else (k.procs j).livingChild := by
  have hkeep : ∀ (k : Kernel) (i : Slot) (f : Proc → Proc), (∀ p, (f p).livingChild = p.livingChild) →
      ((k.modProc i f).procs j).livingChild = (k.procs j).livingChild := fun k i f hf =>
    Kernel.modProc_keeps Proc.livingChild hf j
  unfold addChild
  by_cases hj : j = c
  · rw [if_pos hj]
    subst hj
    cases (k.procs j).livingChild with
    | none => simp only [hkeep,implies_true,Kernel.modProc_self]
    | some ohead => simp only [hkeep,implies_true,Kernel.modProc_self]
  · rw [if_neg hj]
    cases (k.procs c).livingChild with
    | none => simp only [Kernel.modProc_ne _ _ _ hj,hkeep,implies_true]
    | some ohead => simp only [Kernel.modProc_ne _ _ _ hj,hkeep,implies_true]

end Ukern
