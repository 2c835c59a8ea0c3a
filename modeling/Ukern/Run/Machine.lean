import Ukern.Run.Effect

/-! # Runs of the kernel

The kernel boots, creates its first processes and lets one of them run; from then on it
acts on traps, and the running process stores to its own memory in between.
-/
namespace Ukern
open Lib
variable {fs : Fs} {k k' k₁ : Kernel} {c i j n r : Slot} {S : Slot → Prop} {tf : Context} {o : Outcome}
  {tr : Trap} {a : Cause} {G : Kernel → Slot → Trap → Prop}

/-- Before the first process: every slot is zero and the memory is the kernel's own. -/
structure Fresh (k : Kernel) : Prop where
  procs : ∀ j, k.procs j = .zero
  mem : MemInv k.phys k.kPgtbl (fun _ => none) fun _ => 0
  kbd : k.kbdProc = none

/-- What happens between two instructions of user code: a trap that the guard `G` admits,
or a store of the running process. -/
inductive Step (fs : Fs) (G : Kernel → Slot → Trap → Prop) : Kernel → Kernel → Prop
  | trap {k : Kernel} {c : Slot} {tr : Trap} {o : Outcome} (hc : k.curproc = some c) (hG : G k c tr)
      (h : trapHandler fs k tr = .ok o) : Step fs G k o.kernel
  | store {k : Kernel} {c : Slot} {v : ℕ} {b : UInt8} {m : Phys} (hc : k.curproc = some c)
      (h : userStore k.phys (k.procs c).pgtbl v b = some m) : Step fs G k (k.setPhys m)

/-- The kernel has created its first processes and chosen one. -/
inductive Boot (fs : Fs) : Kernel → Prop
  | fresh {k : Kernel} (h : Fresh k) : Boot fs k
  | create {k k' : Kernel} {img : Img} (h : Boot fs k) (hc : createProc fs img k = .ok k') : Boot fs k'

def Started (fs : Fs) (k : Kernel) : Prop := ∃ k₀, Boot fs k₀ ∧ sched k₀ = .ok k

/-- States of runs whose traps all satisfy `G`. -/
def Reachable (fs : Fs) (G : Kernel → Slot → Trap → Prop) (k : Kernel) : Prop :=
  ∃ k₀, Started fs k₀ ∧ Relation.ReflTransGen (Step fs G) k₀ k

/-- The zombie list of `c` holds zombies. -/
def ReapsZombies (k : Kernel) (c : Slot) : Prop :=
  ∀ j, Reaches k.next (k.procs c).zombieChild j → (k.procs j).state = .zombie

/-- The traps that keep the kernel's books: the call exists, what is reaped is dead, `sys_close`
drops the end it marks unused, and a read of a pipe asks for something. -/
structure Orderly (k : Kernel) (c : Slot) (tr : Trap) : Prop where
  known : tr.vecnum = 32 → ∃ call : Call, toInt32 tr.tf.rax = call.num
  reaps : ReapsZombies k c
  close : tr.Calls .close → ∀ fd, fdOf tr.tf.rdx = some fd → Balanced (k.procs c) fd
  read : tr.Calls .read → ∀ fd, fdOf tr.tf.rdx = some fd → ((k.procs c).fdesc fd).fileType = .rpipe →
    ReadsSome k ((k.procs c).fdesc fd).pipe tr.tf

theorem Fresh.ends (h : Fresh k) (ty : FileType) (pg : ℕ) : ends k ty pg = 0 :=
  Finset.sum_eq_zero fun j _ => by
    rw [h.procs j]
    exact Proc.zero_ends ty pg

theorem Fresh.parked (h : Fresh k) : Parked k := by
  have hl : live (Ukern.ends k .rpipe) (Ukern.ends k .wpipe) = fun _ => 0 := funext fun pg => by
    rw [live, h.ends, h.ends]
    rfl
  have hsp : spaces k = fun _ => none := funext fun j => by
    rw [spaces, h.procs j]
    rfl
  have hno : ∀ a r, ¬ Registered k a r := by
    intro a r ha
    cases a with
    | kbd => cases h.kbd.symm.trans ha
    | wait =>
      simp only [Registered,h.procs r] at ha
      cases ha
    | read pg => exact ha.1 (h.ends ..)
    | write pg => exact ha.1 (by rw [h.ends, h.ends])
  refine ⟨⟨⟨?_,fun pg hpg => ?_⟩,fun j _ => ?_⟩,⟨fun a r ha => absurd ha (hno a r),fun a _ r ha => absurd ha (hno a r)⟩,
    fun j hj => ?_⟩
  · rw [hl, hsp]
    exact h.mem
  · rw [h.ends, h.ends] at hpg
    exact absurd rfl hpg
  · rw [h.procs j]
    exact ⟨rfl,rfl,fun _ => rfl⟩
  · rw [h.procs j] at hj
    cases hj

theorem Created.reg (h : Created k k' n) (hr : Reg k) : Reg k' := by
  obtain ⟨q,hq⟩ := h.self
  have hsub : ∀ a r, Registered k' a r → Registered k a r := fun a r ha => by
    cases a with
    | kbd => exact h.globals.2.2.symm.trans ha
    | wait =>
      have hw : (k'.procs r).waiting = true := ha
      by_cases hr : r = n
      · rw [hr, hq] at hw
        rw [hr]
        exact hw
      · rw [h.procs r hr] at hw
        exact hw
    | read pg =>
      obtain ⟨h1,h2⟩ := ha
      rw [h.ends_eq.2] at h1
      rw [(h.pipe pg (by omega)).1] at h2
      exact ⟨h1,h2⟩
    | write pg =>
      obtain ⟨h1,h2⟩ := ha
      rw [h.ends_eq.1, h.ends_eq.2] at h1
      rw [(h.pipe pg h1).2] at h2
      exact ⟨h1,h2⟩
  refine hr.of_sub hsub fun a r ha => ?_
  have hrn : r ≠ n := by
    rintro rfl
    have h1 := hr.pending a r (hsub a r ha)
    rw [h.fresh] at h1
    cases h1
  rw [h.procs r hrn]

theorem Created.running (h : Created k k' n) (j : Slot) : (k'.procs j).state = .running ↔ (k.procs j).state = .running := by
  by_cases hj : j = n
  · obtain ⟨q,hq⟩ := h.self
    rw [hj, hq, h.fresh]
    simp
  · rw [h.procs j hj]

theorem Created.parked (h : Created k k' n) (hp : Parked k) : Parked k' :=
  ⟨h.inv,h.reg hp.reg,fun j hj => hp.idle j ((h.running j).mp hj)⟩

theorem Boot.parked (h : Boot fs k) : Parked k := by
  induction h with
  | fresh h => exact h.parked
  | create _ hc ih =>
    obtain ⟨n,hn⟩ := createProc_spec ih.inv hc
    exact hn.parked ih

theorem Started.sys (h : Started fs k) : ∃ c, Sys k c := by
  obtain ⟨k₀,hb,hs⟩ := h
  exact (hb.parked.choose hs).1

theorem Sys.reapable (h : Sys k c) (hz : ReapsZombies k c) : Reapable k c := fun j hj =>
  h.reg.spare (by rw [hz j hj]; nofun)

theorem Stepped.mono {S' : Slot → Prop} (h : Stepped k S o) (hS : ∀ j, S j → S' j) : Stepped k S' o :=
  ⟨h.1,fun j hj => (h.2 j hj).imp id (hS j)⟩

/-- The slot that `sys_fork` takes. -/
def HandedOut (k : Kernel) (tr : Trap) (j : Slot) : Prop := tr.Calls .fork ∧ k.closedSlot = some j

/-- The traps that keep the books lead from a system to a system. -/
theorem Effect.stepped (he : Effect k c tr o) (h : Sys k c) (hg : Orderly k c tr) : Stepped k (HandedOut k tr) o := by
  have hz := h.reapable hg.reaps
  cases he with
  | returned hr => exact hr.stepped h
  | forked hc hs => exact (fork_stepped h hs).mono fun j hj => ⟨hc,hj⟩
  | execed hq he hs => exact execed_stepped h hq he hs
  | killed hk hs => exact kill_stepped h hz (bind_eq_ok.mpr ⟨_,hk,hs⟩)
  | unknown hv hu _ _ =>
    obtain ⟨call,hnum⟩ := hg.known hv
    exact absurd hnum (hu call)
  | yielded hs => exact timer_stepped h hs
  | keyed hs => exact keyboard_stepped h hs
  | readKbd hs => exact readKbd_stepped h hs
  | waited _ hs =>
    refine wait_stepped h (fun ohead ho => ?_) hs
    have hzo : (k.procs ohead).state = .zombie := hg.reaps ohead (by rw [ho]; exact .head _)
    refine ⟨h.reg.spare (by rw [hzo]; nofun),?_⟩
    rintro rfl
    rw [h.state] at hzo
    cases hzo
  | piped ho hp =>
    refine ⟨⟨c,by rw [ho]; exact hp.sys h⟩,fun j hj => Or.inl ?_⟩
    rw [ho]
    simpa only [Dead,Outcome.kernel,hp.state] using hj
  | readPipe hc hfd hty hpg hs => exact readPipe_stepped h hpg (hg.read hc _ hfd hty) hs
  | wrotePipe _ _ _ hpg hb0 hs => exact writePipe_stepped h hpg hb0 hs
  | closed hc hs => exact close_stepped h (hg.close hc) hs

theorem trap_stepped (h : Sys k c) (hg : Orderly k c tr) (hs : trapHandlerAt fs k c tr = .ok o) :
    Stepped k (HandedOut k tr) o := (trap_effect h.inv h.open hs).stepped h hg

theorem userStore_quiet {v t : ℕ} {b : UInt8} {m : Phys} (h : KInv k) (hs : userStore k.phys t v b = some m) :
    Quiet k (k.setPhys m) := by
  refine .setData h ?_
  unfold userStore at hs
  simp only at hs
  split at hs
  · cases hs
    exact ⟨_,rfl⟩
  · cases hs

theorem Step.sys (h : Sys k c) (hG : ∀ k c tr, G k c tr → Orderly k c tr) (hs : Step fs G k k') : ∃ c, Sys k' c := by
  cases hs with
  | trap hc hg ht =>
    rw [trapHandler, hc] at ht
    have heq := Option.some.inj (hc.symm.trans h.cur)
    subst heq
    exact (trap_stepped h (hG _ _ _ hg) ht).1
  | store hc hst => exact ⟨c,(userStore_quiet h.inv hst).sys h⟩

/-- In every run of orderly traps one process runs and the books are kept. -/
theorem Reachable.sys (h : Reachable fs G k) (hG : ∀ k c tr, G k c tr → Orderly k c tr) : ∃ c, Sys k c := by
  obtain ⟨k₀,h₀,hr⟩ := h
  induction hr with
  | refl => exact h₀.sys
  | tail _ hs ih =>
    obtain ⟨c,hc⟩ := ih
    exact hs.sys hc hG

end Ukern
