import Ukern.Process.Registry

/-! # The system between traps

One process runs, everybody entered for a wake-up is blocked, and memory is accounted
for. A trap keeps this, directly or through `sched`.
-/
namespace Ukern
open Lib
variable {fs : Fs} {k k' k₁ : Kernel} {c c' i j n : Slot} {S : Slot → Prop} {tf : Context} {o : Outcome} {v : U64}
  {tr : Trap}

/-- Process `c` runs, and nobody else. -/
structure Sys (k : Kernel) (c : Slot) : Prop where
  inv : KInv k
  reg : Reg k
  cur : k.curproc = some c
  running : ∀ j, (k.procs j).state = .running ↔ j = c

/-- Nobody runs: the kernel is about to choose. -/
structure Parked (k : Kernel) : Prop where
  inv : KInv k
  reg : Reg k
  idle : ∀ j, (k.procs j).state ≠ .running

/-- The slot has no process that could go on. -/
def Dead (k : Kernel) (j : Slot) : Prop := (k.procs j).state = .close ∨ (k.procs j).state = .zombie

/-- What a trap taken from `c` leads to; slots in `S` may come to life. -/
def Stepped (k : Kernel) (S : Slot → Prop) (o : Outcome) : Prop :=
  (∃ c, Sys o.kernel c) ∧ ∀ j, Dead k j → Dead o.kernel j ∨ S j

theorem Sys.state (h : Sys k c) : (k.procs c).state = .running := (h.running c).mpr rfl

theorem Sys.open (h : Sys k c) : (k.procs c).state ≠ .close := by
  rw [h.state]
  nofun

theorem Sys.spare (h : Sys k c) : Spare k c := h.reg.spare (by rw [h.state]; nofun)

theorem Sys.dead_ne (h : Sys k c) (hj : Dead k j) : j ≠ c := by
  rintro rfl
  rcases hj with hj | hj <;> simp [h.state] at hj

theorem sched_reg (h : Reg k) (hs : sched k = .ok k') : Reg k' := by
  obtain ⟨i,hi,rfl⟩ := sched_ok hs
  have hall : ∀ j, (k.procs j).Like ((k.modProc i fun p => { p with state := .running }).procs j) := fun j => by
    by_cases hj : j = i
    · rw [hj, Kernel.modProc_self]
      exact ⟨rfl,rfl,rfl,by simp [hi]⟩
    · rw [Kernel.modProc_ne _ _ _ hj]
      exact ⟨rfl,rfl,rfl,Iff.rfl⟩
  have hends := ends_congr hall
  have hsub : ∀ a r, Registered { k.modProc i fun p => { p with state := .running } with curproc := some i } a r →
      Registered k a r := by
    intro a r ha
    cases a with
    | kbd => exact ha
    | wait =>
      by_cases hr : r = i
      · subst hr
        simp only [Registered,Kernel.modProc_self] at ha
        exact ha
      · simp only [Registered,Kernel.modProc_ne _ _ _ hr] at ha
        exact ha
    | read pg =>
      obtain ⟨h1,h2⟩ := ha
      exact ⟨by rw [← hends]; exact h1,h2⟩
    | write pg =>
      obtain ⟨h1,h2⟩ := ha
      exact ⟨by rw [← hends]; exact h1,h2⟩
  refine h.of_sub hsub fun a r ha => ?_
  have hri : r ≠ i := by
    rintro rfl
    have h1 := h.pending a r (hsub a r ha)
    rw [hi] at h1
    cases h1
  simp only [Kernel.modProc_ne _ _ _ hri]

theorem Parked.choose (h : Parked k) (hs : Ukern.sched k = .ok k') :
    (∃ c, Sys k' c) ∧ ∀ j, Dead k j → Dead k' j := by
  have hinv := sched_inv h.inv hs
  have hreg := sched_reg h.reg hs
  obtain ⟨i,hi,hk⟩ := sched_ok hs
  have hself : k'.procs i = { k.procs i with state := .running } := by simp only [hk,Kernel.modProc_self]
  have hne : ∀ j ≠ i, k'.procs j = k.procs j := fun j hj => by simp only [hk,Kernel.modProc_ne _ _ _ hj]
  refine ⟨⟨i,hinv,hreg,by rw [hk],fun j => ?_⟩,fun j hj => ?_⟩
  · by_cases hji : j = i
    · simp [hji,hself]
    · simp only [hne j hji,hji,iff_false]
      exact h.idle j
  · have hji : j ≠ i := by
      rintro rfl
      rcases hj with hj | hj <;> simp [hi] at hj
    simpa only [Dead,hne j hji] using hj

theorem Parked.sched (h : Parked k) (hs : k.sched = .ok o) :
    (∃ c, Sys o.kernel c) ∧ ∀ j, Dead k j → Dead o.kernel j := by
  obtain ⟨k',hk,ho⟩ := bind_eq_ok.mp hs
  cases ho
  exact h.choose hk

theorem Stepped.of_sched (h : Parked k₁) (hd : ∀ j, Dead k j → Dead k₁ j ∨ S j) (hs : k₁.sched = .ok o) :
    Stepped k S o := by
  obtain ⟨h1,h2⟩ := h.sched hs
  exact ⟨h1,fun j hj => (hd j hj).imp (h2 j) id⟩

theorem Returned.stepped (h : Sys k c) (hr : Returned k o) : Stepped k S o := by
  obtain ⟨tf,k',rfl,hq⟩ := hr
  refine ⟨⟨c,hq.inv,hq.reg h.reg,hq.globals.2.1.trans h.cur,fun j => ?_⟩,fun j hj => Or.inl ?_⟩
  · simp only [Outcome.kernel,(hq.procs j).state]
    exact h.running j
  · simpa only [Dead,Outcome.kernel,(hq.procs j).state] using hj

/-- The slots that an exit of `c` gives up belong to nobody that is waited for. -/
def Reapable (k : Kernel) (c : Slot) : Prop := ∀ j, Reaches k.next (k.procs c).zombieChild j → Spare k j

theorem Sys.doomed (h : Sys k c) (hz : Reapable k c) (hj : Doomed k c j) : Spare k j := by
  rcases hj with rfl | hj
  · exact h.spare
  · exact hz j hj

/-- Whoever is woken was blocked, so a dead slot stays dead, and nobody starts to run. -/
theorem Ended.states (he : Ended k k' S) (hr : Reg k) (j : Slot) :
    ((k'.procs j).state = .running → (k.procs j).state = .running) ∧ (Dead k j → Dead k' j) ∧
      ((k.procs j).state = .running → ¬ S j → (k'.procs j).state = .running) := by
  cases he.fate j with
  | kept h1 =>
    have hst := Proc.state_of_core h1
    refine ⟨fun hrun => ?_,fun hd => ?_,fun hrun _ => ?_⟩
    · rw [← hst]
      exact hrun
    · simpa only [Dead,hst] using hd
    · rw [hst]
      exact hrun
  | cleared hSj h1 =>
    have hst := Proc.state_of_core (h1.trans Proc.core_zero.symm)
    exact ⟨fun hrun => by simp [hst,Proc.zero] at hrun,fun _ => Or.inl hst,fun _ hn => absurd hSj hn⟩
  | zombie hSj ctx w _ h1 =>
    have hst := Proc.state_of_core h1
    exact ⟨fun hrun => by simp [hst] at hrun,fun _ => Or.inr hst,fun _ hn => absurd hSj hn⟩
  | woken pg ctx h0 _ hrd h1 =>
    have hp := hr.pending (.read pg) j ⟨h0,hrd⟩
    have hst := Proc.state_of_core h1
    exact ⟨fun hrun => by simp [hst] at hrun,fun hd => by rcases hd with hd | hd <;> simp [hp] at hd,
      fun hrun => by simp [hp] at hrun⟩
  | reported ctx hw h1 =>
    have hp := hr.pending .wait j hw
    have hst := Proc.state_of_core h1
    exact ⟨fun hrun => by simp [hst] at hrun,fun hd => by rcases hd with hd | hd <;> simp [hp] at hd,
      fun hrun => by simp [hp] at hrun⟩

theorem Ended.sys (he : Ended k k' S) (h : Sys k c) (hS : ∀ j, S j → Spare k j) (hc : ¬ S c) : Sys k' c where
  inv := he.inv
  reg := he.reg h.reg hS
  cur := he.globals.2.trans h.cur
  running j := by
    refine ⟨fun hj => (h.running j).mp ((he.states h.reg j).1 hj),?_⟩
    rintro rfl
    exact (he.states h.reg j).2.2 h.state hc

theorem kill_parked (h : Sys k c) (hz : Reapable k c) (hk : killProc k c v = .ok k') :
    Parked k' ∧ ∀ j, Dead k j → Dead k' j := by
  obtain ⟨he,hc⟩ := killProc_spec h.inv h.reg.wakeSafe h.open (fun j hj => (h.doomed hz hj).unread) hk
  refine ⟨⟨he.inv,he.reg h.reg fun j hj => h.doomed hz hj,fun j hr => ?_⟩,fun j => (he.states h.reg j).2.1⟩
  have hjc := (h.running j).mp ((he.states h.reg j).1 hr)
  rw [hjc] at hr
  simp [hr] at hc

theorem kill_stepped (h : Sys k c) (hz : Reapable k c)
    (hs : (do (← killProc k c v).sched) = .ok o) : Stepped k S o := by
  obtain ⟨k₁,hk,hs⟩ := bind_eq_ok.mp hs
  obtain ⟨hp,hd⟩ := kill_parked h hz hk
  exact .of_sched hp (fun j hj => Or.inl (hd j hj)) hs

end Ukern
