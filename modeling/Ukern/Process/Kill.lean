import Ukern.Process.Exit
import Ukern.Lib.Chain

/-! # `kill_proc`

The stages of an exit: the living children lose their parent, the zombie children are
cleared, and then the process is cleared, becomes a zombie, or reports to a waiting
parent and is cleared.
-/
namespace Ukern
open Lib
variable {k k' k₁ k₂ : Kernel} {i j pa : Slot} {v : U64} {S : Slot → Prop}

/-- A process without its family pointers and exit value. -/
def Proc.core (p : Proc) : Proc :=
  { p with
    parent := none
    livingChild := none
    zombieChild := none
    prevSibling := none
    nextSibling := none
    exitVal := 0 }

theorem Proc.state_of_core {p q : Proc} (h : q.core = p.core) : q.state = p.state :=
  show q.core.state = p.core.state by rw [h]

theorem Proc.waiting_of_core {p q : Proc} (h : q.core = p.core) : q.waiting = p.waiting :=
  show q.core.waiting = p.core.waiting by rw [h]

theorem Proc.Like.of_core {p q : Proc} (h : q.core = p.core) : p.Like q where
  pgtbl := show q.core.pgtbl = p.core.pgtbl by rw [h]
  pPgtbl := show q.core.pPgtbl = p.core.pPgtbl by rw [h]
  fdesc := show q.core.fdesc = p.core.fdesc by rw [h]
  close := by rw [Proc.state_of_core h]

/-- The five family pointers of a process. -/
structure Links where
  parent : Option Slot
  livingChild : Option Slot
  zombieChild : Option Slot
  prevSibling : Option Slot
  nextSibling : Option Slot

def Proc.links (p : Proc) : Links := ⟨p.parent,p.livingChild,p.zombieChild,p.prevSibling,p.nextSibling⟩

theorem Kernel.modProc_keeps {α : Type*} (g : Proc → α) {f : Proc → Proc} (hf : ∀ p, g (f p) = g p) (j : Slot) :
    g ((k.modProc i f).procs j) = g (k.procs j) := by
  by_cases hj : j = i
  · rw [hj, Kernel.modProc_self, hf]
  · rw [Kernel.modProc_ne _ _ _ hj]

/-- Only family pointers and exit values changed. -/
structure Relinked (k k' : Kernel) : Prop where
  core : ∀ j, (k'.procs j).core = (k.procs j).core
  rest : k' = { k with procs := k'.procs }

namespace Relinked

theorem refl : Relinked k k := ⟨fun _ => rfl,rfl⟩

theorem trans (h : Relinked k k₁) (h' : Relinked k₁ k') : Relinked k k' where
  core j := (h'.core j).trans (h.core j)
  rest := by rw [h'.rest, h.rest]

theorem modProc {f : Proc → Proc} (h : Relinked k k₁) (hf : ∀ p, (f p).core = p.core) :
    Relinked k (k₁.modProc i f) where
  core j := by
    by_cases hj : j = i
    · subst hj
      rw [Kernel.modProc_self, hf, h.core]
    · rw [Kernel.modProc_ne _ _ _ hj, h.core]
  rest := by rw [h.rest]; rfl

theorem modPtr {f : Proc → Proc} {o : Option Slot} (h : Relinked k k₁) (hf : ∀ p, (f p).core = p.core) :
    Relinked k (k₁.modPtr o f) := by
  cases o with
  | none => exact h
  | some c => exact h.modProc hf

theorem phys (h : Relinked k k') : k'.phys = k.phys := by rw [h.rest]

theorem kPgtbl (h : Relinked k k') : k'.kPgtbl = k.kPgtbl := by rw [h.rest]

theorem pipe (h : Relinked k k') : k'.pipe = k.pipe := by
  funext pg
  rw [Kernel.pipe, h.phys]
  rfl

theorem like (h : Relinked k k') (j : Slot) : (k.procs j).Like (k'.procs j) := .of_core (h.core j)

theorem state (h : Relinked k k') (j : Slot) : (k'.procs j).state = (k.procs j).state :=
  Proc.state_of_core (h.core j)

theorem waiting (h : Relinked k k') (j : Slot) : (k'.procs j).waiting = (k.procs j).waiting :=
  Proc.waiting_of_core (h.core j)

theorem ends (h : Relinked k k') : Ukern.ends k' = Ukern.ends k := ends_congr h.like

theorem inv (h : Relinked k k') (hk : KInv k) : KInv k' :=
  hk.congr h.like (fun j hj hc => by
    rw [h.waiting] at hj
    rw [h.state] at hc
    simp [(hk.closed j hc).2.1] at hj) h.phys h.kPgtbl

theorem wakeSafe (h : Relinked k k') (hw : WakeSafe k) : WakeSafe k' := fun pg r hpg hr => by
  rw [h.ends] at hpg
  rw [h.pipe] at hr
  rw [h.state]
  exact hw pg r hpg hr

theorem unread (h : Relinked k k') (hi : Unread k i) : Unread k' i := fun pg hpg hr => by
  rw [h.ends] at hpg
  rw [h.pipe] at hr
  exact hi pg hpg hr

end Relinked

/-- The pointers of the sibling lists. -/
def Kernel.next (k : Kernel) (c : Slot) : Option Slot := (k.procs c).nextSibling

theorem orphan_relinked {n : ℕ} {o : Option Slot} (h : orphan n k o = .ok k') :
    Relinked k k' ∧ k'.next = k.next ∧ ∀ j, (k'.procs j).zombieChild = (k.procs j).zombieChild := by
  induction n generalizing k o with
  | zero =>
    cases o with
    | none =>
      cases h
      exact ⟨.refl,rfl,fun _ => rfl⟩
    | some c => cases h
  | succ n ih =>
    cases o with
    | none =>
      cases h
      exact ⟨.refl,rfl,fun _ => rfl⟩
    | some c =>
      obtain ⟨h1,h2,h3⟩ := ih h
      have h0 : Relinked k (k.modProc c fun p => { p with parent := none }) :=
        Relinked.refl.modProc fun _ => rfl
      refine ⟨h0.trans h1,h2.trans ?_,fun j => (h3 j).trans ?_⟩
      · funext j
        by_cases hj : j = c
        · subst hj
          simp only [Kernel.next,Kernel.modProc_self]
        · simp only [Kernel.next,Kernel.modProc_ne _ _ _ hj]
      · by_cases hj : j = c
        · subst hj
          rw [Kernel.modProc_self]
        · rw [Kernel.modProc_ne _ _ _ hj]

theorem Clear.next (h : Clear k k' S) (c : Slot) : k'.next c = k.next c ∨ k'.next c = none := by
  rcases h.procs c with ⟨-,h1⟩ | h1 | ⟨-,x,h1⟩
  · exact Or.inr (by rw [Kernel.next, h1]; rfl)
  · exact Or.inl (by rw [Kernel.next, h1]; rfl)
  · exact Or.inl (by rw [Kernel.next, h1]; rfl)

theorem reap_clear {n : ℕ} {o : Option Slot} (h : KInv k) (hw : WakeSafe k)
    (hu : ∀ c, Reaches k.next o c → Unread k c) (hr : reap n k o = .ok k') :
    Clear k k' (Reaches k.next o) ∧ WakeSafe k' := by
  induction n generalizing k o with
  | zero =>
    cases o with
    | none =>
      cases hr
      exact ⟨.refl h,hw⟩
    | some c => cases hr
  | succ n ih =>
    cases o with
    | none =>
      cases hr
      exact ⟨.refl h,hw⟩
    | some c =>
      obtain ⟨k₁,hc,hr⟩ := bind_eq_ok.mp hr
      obtain ⟨-,-,hcl⟩ := clearProc_ok h hw hc
      have hS : ∀ j, j = c → Reaches k.next (some c) j := by
        rintro j rfl
        exact .head j
      have hcl' := hcl.mono hS
      have hw₁ := hcl'.wakeSafe hw hu
      have hsub : ∀ j, Reaches k₁.next (k.next c) j → Reaches k.next (some c) j := fun j hj =>
        .step (hj.mono hcl.next)
      obtain ⟨h2,hw₂⟩ := ih hcl.inv hw₁ (fun j hj => hcl.unread (hu j (hsub j hj))) hr
      exact ⟨hcl'.trans (h2.mono hsub) hw₁,hw₂⟩

/-- What an exit with a waiting parent does to the parent: the status is stored, the parent
becomes ready with the pid in `rax`. -/
structure Reported (k k' : Kernel) (pa : Slot) : Prop where
  inv : KInv k'
  parent : ∃ c, k'.procs pa = { k.procs pa with context := c, state := .ready, waiting := false }
  procs : ∀ j ≠ pa, k'.procs j = k.procs j
  pipe : k'.phys.pipe = k.phys.pipe
  globals : k'.kPgtbl = k.kPgtbl ∧ k'.curproc = k.curproc ∧ k'.kbdProc = k.kbdProc

theorem Reported.like (h : Reported k k' pa) (hpa : (k.procs pa).state ≠ .close) (j : Slot) :
    (k.procs j).Like (k'.procs j) := by
  by_cases hj : j = pa
  · obtain ⟨c,hc⟩ := h.parent
    rw [hj, hc]
    exact ⟨rfl,rfl,rfl,by simp [hpa]⟩
  · rw [h.procs j hj]
    exact ⟨rfl,rfl,rfl,Iff.rfl⟩

theorem Phys.setBytes_frame (m : Phys) (pa : ℕ) (bs : List UInt8) :
    (m.setBytes pa bs).pipe = m.pipe ∧ (m.setBytes pa bs).tbl = m.tbl := by
  induction bs generalizing m pa with
  | nil => exact ⟨rfl,rfl⟩
  | cons b bs ih => exact ih (m.setByte pa b) (pa+1)

/-- Memory moves on while tables and pipes are as the invariant wants them. -/
theorem KInv.setPhys {m : Phys} (h : KInv k)
    (hm : MemInv m k.kPgtbl (spaces k) (live (ends k .rpipe) (ends k .wpipe)))
    (hp : ∀ pg, live (ends k .rpipe) (ends k .wpipe) pg ≠ 0 → m.pipe pg = k.phys.pipe pg) :
    KInv (k.setPhys m) :=
  ⟨h.owned.setPhys hm hp,h.closed⟩

/-- The store of the status: the memory invariant survives, and nobody else sees it. -/
theorem storeStatus_spec (h : KInv k) (hpa : (k.procs pa).state ≠ .close)
    (hs : storeStatus k pa v = .ok k') :
    ∃ m, k' = k.setPhys m ∧ m.pipe = k.phys.pipe ∧ KInv k' := by
  unfold storeStatus at hs
  split at hs
  · obtain ⟨⟨wstatus,m⟩,hu,hs⟩ := bind_eq_ok.mp hs
    cases hs
    obtain ⟨f,-,-,hpriv⟩ := u2k_spec h.owned.mem (spaces_some hpa) hu
    have hpr := hpriv rfl
    have hp : (m.setBytes wstatus (toBytes v.toNat 8)).pipe = k.phys.pipe :=
      (Phys.setBytes_frame ..).1.trans hpr.pipe
    exact ⟨_,rfl,hp,h.setPhys (hpr.inv.setBytes _ _) fun pg _ => by rw [hp]⟩
  · cases hs
    exact ⟨k.phys,rfl,rfl,h⟩

theorem reportExit_spec (h : KInv k) (hwait : (k.procs pa).waiting = true)
    (hr : reportExit k i pa v = .ok k') : Reported k k' pa := by
  have hpa := h.waiting hwait
  unfold reportExit at hr
  obtain ⟨k₁,hs,hr⟩ := bind_eq_ok.mp hr
  cases hr
  have h₁ : KInv (k.modProc pa fun p => { p with waiting := false }) :=
    h.modProc ⟨rfl,rfl,rfl,Iff.rfl⟩ nofun
  obtain ⟨m,rfl,hp,h₂⟩ := storeStatus_spec h₁ (by rw [Kernel.modProc_self]; exact hpa) hs
  refine ⟨h₂.modProc ⟨rfl,rfl,rfl,?_⟩ fun _ => nofun,?_,fun j hj => ?_,hp,⟨rfl,rfl,rfl⟩⟩
  · simp [hpa]
  · exact ⟨_,by rw [Kernel.wake, Kernel.modProc_self, Kernel.setPhys_procs, Kernel.modProc_self]⟩
  · rw [Kernel.wake, Kernel.modProc_ne _ _ _ hj, Kernel.setPhys_procs, Kernel.modProc_ne _ _ _ hj]

theorem Reported.wakeSafe (h : Reported k k' pa) (hpa : (k.procs pa).state ≠ .close) (hw : WakeSafe k) :
    WakeSafe k' := fun pg r hpg hr => by
  have hlike := h.like hpa
  rw [ends_congr hlike] at hpg
  simp only [Kernel.pipe,h.pipe] at hr
  exact fun hc => hw pg r hpg hr ((hlike r).close.mp hc)

theorem Reported.unread (h : Reported k k' pa) (hpa : (k.procs pa).state ≠ .close) (hi : Unread k i) :
    Unread k' i := fun pg hpg hr => by
  rw [ends_congr (h.like hpa)] at hpg
  simp only [Kernel.pipe,h.pipe] at hr
  exact hi pg hpg hr

theorem detach_relinked (k : Kernel) (i pa : Slot) : Relinked k (detach k i pa) := by
  unfold detach
  simp only
  split
  · split
    · refine ((Relinked.refl.modPtr ?_).modPtr ?_).modProc ?_ |>.modProc ?_ <;> exact fun _ => rfl
    · refine ((Relinked.refl.modPtr ?_).modPtr ?_).modProc ?_ <;> exact fun _ => rfl
  · split
    · refine ((Relinked.refl.modPtr ?_).modPtr ?_).modProc ?_ <;> exact fun _ => rfl
    · refine (Relinked.refl.modPtr ?_).modPtr ?_ <;> exact fun _ => rfl

theorem becomeZombie_eq (k : Kernel) (i pa : Slot) (v : U64) : ∃ k₁, Relinked k k₁ ∧
    becomeZombie k i pa v = k₁.modProc i fun p => { p with exitVal := v, state := .zombie } := by
  unfold becomeZombie
  cases (k.procs pa).zombieChild with
  | none =>
    refine ⟨_,?_,rfl⟩
    refine (Relinked.refl.modProc ?_).modProc ?_ <;> exact fun _ => rfl
  | some ohead =>
    refine ⟨_,?_,rfl⟩
    refine ((Relinked.refl.modProc ?_).modProc ?_).modProc ?_ <;> exact fun _ => rfl

/-- An update of one record that keeps closed slots closed and others open. -/
theorem WakeSafe.modProc {f : Proc → Proc} (h : WakeSafe k) (hl : (k.procs i).Like (f (k.procs i))) :
    WakeSafe (k.modProc i f) := fun pg r hpg hr => by
  have hlike : ∀ j, (k.procs j).Like ((k.modProc i f).procs j) := fun j => by
    by_cases hj : j = i
    · rw [hj, Kernel.modProc_self]
      exact hl
    · rw [Kernel.modProc_ne _ _ _ hj]
      exact ⟨rfl,rfl,rfl,Iff.rfl⟩
  rw [ends_congr hlike] at hpg
  exact fun hc => h pg r hpg hr ((hlike r).close.mp hc)

theorem exitAsParent_spec (h : KInv k) (hw : WakeSafe k)
    (hu : ∀ c, Reaches k.next (k.procs i).zombieChild c → Unread k c) (he : exitAsParent k i = .ok k') :
    ∃ k₁, orphan nprocs k (k.procs i).livingChild = .ok k₁ ∧ Relinked k k₁ ∧
      reap nprocs k₁ (k.procs i).zombieChild = .ok k' ∧
      Clear k₁ k' (Reaches k.next (k.procs i).zombieChild) ∧ WakeSafe k' := by
  unfold exitAsParent at he
  obtain ⟨k₁,ho,he⟩ := bind_eq_ok.mp he
  obtain ⟨hrel,hnext,-⟩ := orphan_relinked ho
  obtain ⟨hcl,hw'⟩ := reap_clear (hrel.inv h) (hrel.wakeSafe hw)
    (fun c hc => hrel.unread (hu c (by rwa [hnext] at hc))) he
  rw [hnext] at hcl
  exact ⟨k₁,ho,hrel,he,hcl,hw'⟩

theorem exitAsChild_cases (he : exitAsChild k i v = .ok k') :
    ((k.procs i).parent = none ∧ clearProc k i = .ok k') ∨
    (∃ pa, (k.procs i).parent = some pa ∧ (k.procs pa).waiting = false ∧ k' = becomeZombie k i pa v) ∨
    ∃ pa k₁, (k.procs i).parent = some pa ∧ (k.procs pa).waiting = true ∧ reportExit k i pa v = .ok k₁ ∧
      clearProc (detach k₁ i pa) i = .ok k' := by
  unfold exitAsChild at he
  split at he
  · rename_i hpa
    exact Or.inl ⟨hpa,he⟩
  · rename_i pa hpa
    split at he
    · rename_i hw
      cases he
      exact Or.inr (Or.inl ⟨pa,hpa,by simpa using hw,rfl⟩)
    · rename_i hw
      obtain ⟨k₁,hr,he⟩ := bind_eq_ok.mp he
      exact Or.inr (Or.inr ⟨pa,k₁,hpa,by simpa using hw,hr,he⟩)

end Ukern
