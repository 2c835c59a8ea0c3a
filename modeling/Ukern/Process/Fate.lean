import Ukern.Process.Exec

/-! # What an exit does to everybody

Besides the process that exits, and the zombies it reaps, an exit reaches the reader of
a pipe whose last write end went away and a parent that waits.
-/
namespace Ukern
open Lib
variable {k k' k₁ : Kernel} {i j pa : Slot} {v : U64} {S S' : Slot → Prop}

/-- What becomes of slot `j`. The set `S` holds the slots that are given up. -/
inductive Fate (k k' : Kernel) (S : Slot → Prop) (j : Slot) : Prop
  | kept (h : (k'.procs j).core = (k.procs j).core)
  | cleared (hS : S j) (h : (k'.procs j).core = Proc.zero)
  | zombie (hS : S j) (ctx : Context) (w : Bool) (hw : w = true → (k.procs j).waiting = true)
      (h : (k'.procs j).core = ({ k.procs j with context := ctx, state := .zombie, waiting := w } : Proc).core)
  | woken (pg : ℕ) (ctx : Context) (h0 : ends k .wpipe pg ≠ 0) (h1 : ends k' .wpipe pg = 0)
      (hr : (k.pipe pg).reader = some j)
      (h : (k'.procs j).core = ({ k.procs j with context := ctx, state := .ready } : Proc).core)
  | reported (ctx : Context) (hw : (k.procs j).waiting = true)
      (h : (k'.procs j).core =
        ({ k.procs j with context := ctx, state := .ready, waiting := false } : Proc).core)

/-- Slots in `S` were given up. -/
structure Ended (k k' : Kernel) (S : Slot → Prop) : Prop where
  inv : KInv k'
  fate : ∀ j, Fate k k' S j
  le : ∀ pg, ends k' .rpipe pg ≤ ends k .rpipe pg ∧ ends k' .wpipe pg ≤ ends k .wpipe pg
  pipe : ∀ pg, (k'.pipe pg).reader = (k.pipe pg).reader ∧ (k'.pipe pg).writer = (k.pipe pg).writer
  globals : k'.kPgtbl = k.kPgtbl ∧ k'.curproc = k.curproc
  kbd : k'.kbdProc = k.kbdProc ∨ k'.kbdProc = none ∧ ∃ i, S i ∧ k.kbdProc = some i

theorem Proc.core_core (p : Proc) : p.core.core = p.core := rfl

theorem Proc.core_zero : Proc.zero.core = Proc.zero := rfl

/-- Two records with one core stay so under a change of context, state and waiting flag. -/
theorem Proc.core_set {p q : Proc} (h : q.core = p.core) (ctx : Context) (st : ProcState) (w : Bool) :
    ({ q with context := ctx, state := st, waiting := w } : Proc).core =
      ({ p with context := ctx, state := st, waiting := w } : Proc).core := by
  have h1 : ({ q.core with context := ctx, state := st, waiting := w } : Proc) =
      { p.core with context := ctx, state := st, waiting := w } := by rw [h]
  exact h1

namespace Fate

theorem mono (h : Fate k k₁ S j) (hj : (k'.procs j).core = (k₁.procs j).core)
    (hS : ∀ j, S j → S' j) (hle : ∀ pg, ends k' .wpipe pg ≤ ends k₁ .wpipe pg) : Fate k k' S' j := by
  cases h with
  | kept h => exact .kept (hj.trans h)
  | cleared hj' h => exact .cleared (hS j hj') (hj.trans h)
  | zombie hj' ctx w hw h => exact .zombie (hS j hj') ctx w hw (hj.trans h)
  | woken pg ctx h0 h1 hr h =>
    have := hle pg
    exact .woken pg ctx h0 (by omega) hr (hj.trans h)
  | reported ctx hw h => exact .reported ctx hw (hj.trans h)

theorem wake {pg : ℕ} {c : Context} (h : Fate k k₁ S j)
    (hj : (k'.procs j).core = ({ k₁.procs j with context := c, state := .ready } : Proc).core)
    (h0 : ends k .wpipe pg ≠ 0) (h1 : ends k' .wpipe pg = 0) (hr : (k.pipe pg).reader = some j)
    (hz : ¬ S j) : Fate k k' S j := by
  cases h with
  | kept h =>
    refine .woken pg c h0 h1 hr ?_
    have h2 := Proc.core_set h c .ready (k₁.procs j).waiting
    rw [hj, h2, Proc.waiting_of_core h]
  | cleared hS h => exact absurd hS hz
  | zombie hS ctx w hw h => exact absurd hS hz
  | woken pg' ctx h0' h1' hr' h =>
    refine .woken pg c h0 h1 hr ?_
    have h2 := Proc.core_set h c .ready (k₁.procs j).waiting
    rw [hj, h2, Proc.waiting_of_core h]
  | reported ctx hw h =>
    refine .reported c hw ?_
    have h2 := Proc.core_set h c .ready (k₁.procs j).waiting
    rw [hj, h2, Proc.waiting_of_core h]

end Fate

namespace Ended

theorem refl (h : KInv k) : Ended k k S :=
  ⟨h,fun _ => .kept rfl,fun _ => ⟨le_rfl,le_rfl⟩,fun _ => ⟨rfl,rfl⟩,⟨rfl,rfl⟩,Or.inl rfl⟩

theorem relinked (h : Ended k k₁ S) (hr : Relinked k₁ k') : Ended k k' S where
  inv := hr.inv h.inv
  fate j := (h.fate j).mono (hr.core j) (fun _ => id) fun pg => by rw [hr.ends]
  le pg := by
    rw [hr.ends]
    exact h.le pg
  pipe pg := by
    rw [hr.pipe]
    exact h.pipe pg
  globals := by
    rw [hr.rest]
    exact h.globals
  kbd := by
    rw [hr.rest]
    exact h.kbd

/-- Slots that are cleared. Nobody in `S` is the reader of a pipe that can still be written. -/
theorem clear (h : Ended k k₁ S) (hc : Clear k₁ k' S') (hsub : ∀ j, S' j → S j) (hS : ∀ j, S j → Unread k j) :
    Ended k k' S where
  inv := hc.inv
  fate j := by
    rcases hc.procs j with ⟨hj,hz⟩ | hj | ⟨⟨pg,h0,h1,hr⟩,c,hj⟩
    · exact .cleared (hsub j hj) (by rw [hz]; rfl)
    · exact (h.fate j).mono (by rw [hj]) (fun _ => id) fun pg => (hc.le pg).2
    · have h0' : ends k .wpipe pg ≠ 0 := by
        have := (h.le pg).2
        omega
      rw [(h.pipe pg).1] at hr
      exact (h.fate j).wake (by rw [hj]) h0' h1 hr fun hSj => hS j hSj pg h0' hr
  le pg := ⟨(hc.le pg).1.trans (h.le pg).1,(hc.le pg).2.trans (h.le pg).2⟩
  pipe pg := ⟨(hc.pipe pg).1.trans (h.pipe pg).1,(hc.pipe pg).2.trans (h.pipe pg).2⟩
  globals := ⟨hc.globals.1.trans h.globals.1,hc.globals.2.trans h.globals.2⟩
  kbd := by
    rcases hc.kbd with h2 | ⟨h2,i,hi,hk⟩
    · rw [h2]
      exact h.kbd
    · rcases h.kbd with h1 | ⟨h1,-⟩
      · exact Or.inr ⟨h2,i,hsub i hi,h1 ▸ hk⟩
      · rw [h1] at hk
        cases hk

theorem report (h : Ended k k₁ S) (hr : Reported k₁ k' pa) (hw : (k₁.procs pa).waiting = true) :
    Ended k k' S where
  inv := hr.inv
  fate j := by
    have hends : ∀ pg, ends k' .wpipe pg ≤ ends k₁ .wpipe pg := fun pg => by
      rw [ends_congr (hr.like (h.inv.waiting hw))]
    by_cases hj : j = pa
    · subst hj
      obtain ⟨c,hc⟩ := hr.parent
      have hcore : ∀ {p : Proc}, (k₁.procs j).core = p.core → (k'.procs j).core =
          ({ p with context := c, state := .ready, waiting := false } : Proc).core := fun hp => by
        rw [hc]
        exact Proc.core_set hp c .ready false
      cases h.fate j with
      | kept h1 => exact .reported c (by rw [← Proc.waiting_of_core h1]; exact hw) (hcore h1)
      | cleared hS h1 =>
        rw [Proc.waiting_of_core (h1.trans Proc.core_zero.symm)] at hw
        cases hw
      | zombie hS ctx w hww h1 =>
        rw [Proc.waiting_of_core h1] at hw
        have h2 := hcore h1
        exact .reported c (hww hw) h2
      | woken pg ctx h0 h1 hrd h2 =>
        rw [Proc.waiting_of_core h2] at hw
        have h3 := hcore h2
        exact .reported c hw h3
      | reported ctx _ h1 =>
        rw [Proc.waiting_of_core h1] at hw
        cases hw
    · exact (h.fate j).mono (by rw [hr.procs j hj]) (fun _ => id) hends
  le pg := by
    rw [ends_congr (hr.like (h.inv.waiting hw))]
    exact h.le pg
  pipe pg := by
    have h1 := h.pipe pg
    simp only [Kernel.pipe,hr.pipe] at h1 ⊢
    exact h1
  globals := ⟨hr.globals.1.trans h.globals.1,hr.globals.2.1.trans h.globals.2⟩
  kbd := by
    rw [hr.globals.2.2]
    exact h.kbd

theorem zombie (h : Ended k k₁ S) (hi : S i) (hst : (k₁.procs i).state ≠ .close) :
    Ended k (k₁.modProc i fun p => { p with exitVal := v, state := .zombie }) S := by
  have hlike : (k₁.procs i).Like { k₁.procs i with exitVal := v, state := .zombie } := ⟨rfl,rfl,rfl,by simp [hst]⟩
  have hall : ∀ j, (k₁.procs j).Like ((k₁.modProc i fun p => { p with exitVal := v, state := .zombie }).procs j) := by
    intro j
    by_cases hj : j = i
    · rw [hj, Kernel.modProc_self]
      exact hlike
    · rw [Kernel.modProc_ne _ _ _ hj]
      exact ⟨rfl,rfl,rfl,Iff.rfl⟩
  refine ⟨h.inv.modProc hlike fun _ => nofun,fun j => ?_,fun pg => ?_,h.pipe,h.globals,h.kbd⟩
  · by_cases hj : j = i
    · subst hj
      have hcore : ∀ {p : Proc}, (k₁.procs j).core = p.core →
          (((k₁.modProc j fun p => { p with exitVal := v, state := .zombie }).procs j)).core =
          ({ p with context := p.context, state := .zombie, waiting := p.waiting } : Proc).core := fun {p} hp => by
        rw [Kernel.modProc_self]
        have hctx : (k₁.procs j).context = p.context := show (k₁.procs j).core.context = p.core.context by rw [hp]
        have h1 := Proc.core_set hp (k₁.procs j).context .zombie (k₁.procs j).waiting
        rw [Proc.waiting_of_core hp, hctx] at h1
        rw [← h1, ← hctx, ← Proc.waiting_of_core hp]
        rfl
      cases h.fate j with
      | kept h1 => exact .zombie hi _ _ id (hcore h1)
      | cleared _ h1 => exact absurd (Proc.state_of_core (h1.trans Proc.core_zero.symm)) hst
      | zombie _ ctx w hw h1 =>
        have h2 := hcore h1
        exact .zombie hi ctx w hw h2
      | woken pg ctx _ _ _ h1 =>
        have h2 := hcore h1
        exact .zombie hi ctx _ id h2
      | reported ctx hw h1 =>
        have h2 := hcore h1
        exact .zombie hi ctx false nofun h2
    · refine (h.fate j).mono (by rw [Kernel.modProc_ne _ _ _ hj]) (fun _ => id) fun pg => ?_
      rw [ends_congr hall]
  · rw [ends_congr hall]
    exact h.le pg

end Ended

theorem exitAsChild_spec (h : Ended k k₁ S) (hw : WakeSafe k₁) (hi : S i) (hS : ∀ j, S j → Unread k j)
    (hun : Unread k₁ i) (hcl : (k₁.procs i).state = .close → (k₁.procs i).parent = none)
    (he : exitAsChild k₁ i v = .ok k') :
    Ended k k' S ∧ ((k'.procs i).state = .close ∨ (k'.procs i).state = .zombie) := by
  have hsub : ∀ j, j = i → S j := by
    rintro j rfl
    exact hi
  rcases exitAsChild_cases he with ⟨-,hc⟩ | ⟨pa,hpa,-,rfl⟩ | ⟨pa,k₂,hpa,hwait,hr,hc⟩
  · obtain ⟨-,hz,hclear⟩ := clearProc_ok h.inv hw hc
    exact ⟨h.clear hclear hsub hS,Or.inl (by rw [hz]; rfl)⟩
  · obtain ⟨k₂,hrel,heq⟩ := becomeZombie_eq k₁ i pa v
    have hst : (k₂.procs i).state ≠ .close := fun hc => by
      rw [hrel.state] at hc
      simp [hcl hc] at hpa
    rw [heq]
    exact ⟨(h.relinked hrel).zombie hi hst,Or.inr (by rw [Kernel.modProc_self])⟩
  · have hrep := reportExit_spec h.inv hwait hr
    have hdet := detach_relinked k₂ i pa
    have hw₂ := hdet.wakeSafe (hrep.wakeSafe (h.inv.waiting hwait) hw)
    obtain ⟨-,hz,hclear⟩ := clearProc_ok (hdet.inv hrep.inv) hw₂ hc
    exact ⟨((h.report hrep hwait).relinked hdet).clear hclear hsub hS,Or.inl (by rw [hz]; rfl)⟩

/-- The slots that `kill_proc` gives up. -/
def Doomed (k : Kernel) (i : Slot) (j : Slot) : Prop := j = i ∨ Reaches k.next (k.procs i).zombieChild j

/-- `kill_proc` up to `exit_as_child`: pointers to the parent are cut, zombies are cleared. -/
theorem killProc_stages (h : KInv k) (hw : WakeSafe k) (hu : ∀ c, Doomed k i c → Unread k c)
    (hk : killProc k i v = .ok k') : ∃ k₁ k₂, Relinked k k₁ ∧ k₁.next = k.next ∧
      (∀ j, (k₁.procs j).zombieChild = (k.procs j).zombieChild) ∧
      reap nprocs k₁ (k.procs i).zombieChild = .ok k₂ ∧ Clear k₁ k₂ (Reaches k.next (k.procs i).zombieChild) ∧ WakeSafe k₂ ∧ exitAsChild k₂ i v = .ok k' := by
  unfold killProc at hk
  obtain ⟨k₂,he,hk⟩ := bind_eq_ok.mp hk
  have hrel₀ : Relinked k (k.modProc i fun p => { p with exitVal := v }) := Relinked.refl.modProc fun _ => rfl
  have hnext : (k.modProc i fun p => { p with exitVal := v }).next = k.next :=
    funext fun j => Kernel.modProc_keeps Proc.nextSibling (by exact fun _ => rfl) j
  have hzc : ∀ j, ((k.modProc i fun p => { p with exitVal := v }).procs j).zombieChild = (k.procs j).zombieChild :=
    fun j => Kernel.modProc_keeps Proc.zombieChild (by exact fun _ => rfl) j
  obtain ⟨k₁,ho,hrel₁,hreap,hcl,hw₂⟩ := exitAsParent_spec (hrel₀.inv h) (hrel₀.wakeSafe hw)
    (fun c hc => hrel₀.unread (hu c (Or.inr (by rwa [hnext, hzc] at hc)))) he
  obtain ⟨-,hnext₁,hzc₁⟩ := orphan_relinked ho
  rw [hnext, hzc] at hcl
  rw [hzc] at hreap
  exact ⟨k₁,k₂,hrel₀.trans hrel₁,hnext₁.trans hnext,fun j => (hzc₁ j).trans (hzc j),hreap,hcl,hw₂,hk⟩

theorem killProc_spec (h : KInv k) (hw : WakeSafe k) (hi : (k.procs i).state ≠ .close)
    (hu : ∀ c, Doomed k i c → Unread k c) (hk : killProc k i v = .ok k') :
    Ended k k' (Doomed k i) ∧ ((k'.procs i).state = .close ∨ (k'.procs i).state = .zombie) := by
  obtain ⟨k₁,k₂,hrel,-,-,-,hcl,hw₂,hk⟩ := killProc_stages h hw hu hk
  have hend : Ended k k₂ (Doomed k i) := ((Ended.refl h).relinked hrel).clear hcl (fun j hj => Or.inr hj) hu
  have hun : Unread k₂ i := hcl.unread (hrel.unread (hu i (Or.inl rfl)))
  refine exitAsChild_spec hend hw₂ (Or.inl rfl) hu hun (fun hc => ?_) hk
  rcases hcl.procs i with ⟨-,hz⟩ | hp | ⟨-,c,hp⟩
  · rw [hz]
    rfl
  · rw [hp, hrel.state] at hc
    exact absurd hc hi
  · rw [hp] at hc
    cases hc

end Ukern
