import Ukern.Run.Machine
import Ukern.Process.Zombies

/-! # Runs without waiting

Processes fork, run, fault, exec, grow and exit, and the kernel acts on memory in between. As
long as nobody waits, closes a descriptor or moves bytes through a pipe, the books are kept.
-/
namespace Ukern
open Lib
variable {fs : Fs} {k k' : Kernel} {c j n : Slot} {o : Outcome} {tr : Trap}

/-- The call exists and is none of `sys_wait`, `sys_close` and the two transfers through a pipe. -/
structure Waitless (k : Kernel) (c : Slot) (tr : Trap) : Prop where
  known : tr.vecnum = 32 → ∃ call : Call, toInt32 tr.tf.rax = call.num
  wait : ¬ tr.Calls .wait
  close : ¬ tr.Calls .close
  read : tr.Calls .read → ∀ fd, fdOf tr.tf.rdx = some fd → ((k.procs c).fdesc fd).fileType ≠ .rpipe
  write : tr.Calls .write → ∀ fd, fdOf tr.tf.rdx = some fd → ((k.procs c).fdesc fd).fileType ≠ .wpipe

/-- A store on behalf of process `j`, through the address that `U2K` returns. -/
def kernelStore (k : Kernel) (j : Slot) (v : U64) (b : UInt8) : Except Fault Kernel := do
  let (pa,m) ← u2k k.phys (k.procs j) v true
  .ok (k.setPhys (m.setByte pa b))

/-- What the kernel does at any time, whoever runs: `U2K` with `write`, alone or followed by a
store, a new process, a disk block that is fetched, a device page that is mapped. -/
inductive Aside (fs : Fs) : Kernel → Kernel → Prop
  | u2k {k : Kernel} {j : Slot} {v : U64} {pa : ℕ} {m : Phys} (hj : (k.procs j).state ≠ .close)
      (h : Ukern.u2k k.phys (k.procs j) v true = .ok (pa,m)) : Aside fs k (k.setPhys m)
  | store {k k' : Kernel} {j : Slot} {v : U64} {b : UInt8} (hj : (k.procs j).state ≠ .close)
      (h : kernelStore k j v b = .ok k') : Aside fs k k'
  | create {k k' : Kernel} {img : Img} (h : createProc fs img k = .ok k') : Aside fs k k'
  | fetch {k : Kernel} {b : ℕ × ℕ} {m : Phys} (h : sataReadBlock k.kPgtbl k.phys b = .ok m) : Aside fs k (k.setPhys m)
  | mmio {k : Kernel} {v addr r : U64} {m : Phys} (ha : addr.toNat % pgsize = 0)
      (h : mapMmio k.phys k.kPgtbl v addr = .ok (r,m)) : Aside fs k (k.setPhys m)

/-- States of runs in which nobody waits. -/
def Unwaited (fs : Fs) (k : Kernel) : Prop :=
  ∃ k₀, Started fs k₀ ∧ Relation.ReflTransGen (fun k k' => Step fs Waitless k k' ∨ Aside fs k k') k₀ k

theorem Waitless.orderly (h : Waitless k c tr) (hs : Sys k c) (hz : ZInv k) : Orderly k c tr where
  known := h.known
  reaps _ hj := hz.reapsZombies hs hj
  close hc := absurd hc h.close
  read hc fd hfd hty := absurd hty (h.read hc fd hfd)

theorem Effect.zinv (he : Effect k c tr o) (h : Sys k c) (hw : Waitless k c tr) (hz : ZInv k) : ZInv o.kernel := by
  cases he with
  | returned hr => exact hr.kindred.zinv hz
  | forked _ hs =>
    obtain ⟨n,k',rfl,hf⟩ := sysFork_spec h.inv h.open hs
    exact hf.zinv hz
  | execed hq he hs => exact ((hq.kindred.trans (he.kindred (hq.sys h).not_dead)).sched hs).zinv hz
  | killed hk hs => exact (Kindred.refl.sched hs).zinv (kill_zinv h hz hk)
  | unknown hv hu _ _ =>
    obtain ⟨call,hnum⟩ := hw.known hv
    exact absurd hnum (hu call)
  | yielded hs => exact (timer_kindred h hs).zinv hz
  | keyed hs => exact (keyboard_kindred h hs).zinv hz
  | readKbd hs => exact (readKbd_kindred h hs).zinv hz
  | waited hc _ => exact absurd hc hw.wait
  | piped ho hp =>
    rw [ho]
    exact (hp.kindred h.not_dead).zinv hz
  | readPipe hc hfd hty _ _ => exact absurd hty (hw.read hc _ hfd)
  | wrotePipe hc hfd hty _ _ _ => exact absurd hty (hw.write hc _ hfd)
  | closed hc _ => exact absurd hc hw.close

theorem Step.unwaited (hs : Step fs Waitless k k') (h : Sys k c) (hz : ZInv k) : (∃ c, Sys k' c) ∧ ZInv k' := by
  cases hs with
  | trap hc hg ht =>
    rw [trapHandler, hc] at ht
    have heq := Option.some.inj (hc.symm.trans h.cur)
    subst heq
    have he := trap_effect h.inv h.open ht
    exact ⟨(he.stepped h (hg.orderly h hz)).1,he.zinv h hg hz⟩
  | store hc hst =>
    have hq := userStore_quiet h.inv hst
    exact ⟨⟨c,hq.sys h⟩,hq.kindred.zinv hz⟩

theorem u2k_quiet {v : U64} {pa : ℕ} {m : Phys} (h : KInv k) (hj : (k.procs j).state ≠ .close)
    (hu : u2k k.phys (k.procs j) v true = .ok (pa,m)) : Quiet k (k.setPhys m) := by
  obtain ⟨f,-,-,hpriv⟩ := u2k_spec h.owned.mem (spaces_some hj) hu
  have hpr := hpriv rfl
  exact .setPhys h hpr.inv fun pg _ => by rw [hpr.pipe]

theorem kernelStore_quiet {v : U64} {b : UInt8} (h : KInv k) (hj : (k.procs j).state ≠ .close)
    (hs : kernelStore k j v b = .ok k') : Quiet k k' := by
  unfold kernelStore at hs
  obtain ⟨⟨pa,m⟩,hu,hs⟩ := bind_eq_ok.mp hs
  cases hs
  have hq := u2k_quiet h hj hu
  exact hq.trans (.setData hq.inv ⟨_,rfl⟩)

theorem Created.sys (h : Created k k' n) (hs : Sys k c) : Sys k' c :=
  ⟨h.inv,h.reg hs.reg,h.globals.2.1.trans hs.cur,fun j => (h.running j).trans (hs.running j)⟩

theorem Aside.unwaited (ha : Aside fs k k') (h : Sys k c) (hz : ZInv k) : Sys k' c ∧ ZInv k' := by
  have hquiet : ∀ {k' : Kernel}, Quiet k k' → Sys k' c ∧ ZInv k' := fun hq => ⟨hq.sys h,hq.kindred.zinv hz⟩
  cases ha with
  | u2k hj hu => exact hquiet (u2k_quiet h.inv hj hu)
  | store hj hs => exact hquiet (kernelStore_quiet h.inv hj hs)
  | create hc =>
    obtain ⟨n,hn⟩ := createProc_spec h.inv hc
    exact ⟨hn.sys h,hn.zinv hz⟩
  | fetch hb =>
    obtain ⟨hm,new,hk⟩ := sataReadBlock_spec h.inv.owned.mem hb
    exact hquiet (.setPhys h.inv hm fun pg hpg =>
      hk.grow.pipe pg fun hn => h.inv.live_held hpg (hk.grow.new_free hn))
  | mmio ha hm =>
    obtain ⟨hm,hp⟩ := mapMmio_spec h.inv.owned.mem ha hm
    exact hquiet (.setPhys h.inv hm fun pg hpg => hp pg (h.inv.live_held hpg))

theorem Fresh.zinv (h : Fresh k) : ZInv k := by
  refine ⟨⟨fun _ => [],fun p _ _ => ?_,fun _ _ => rfl,fun _ _ hj => (nomatch hj),fun _ _ _ hj => (nomatch hj)⟩,fun j => ?_⟩
  · rw [h.procs p]
    rfl
  · rw [h.procs j]
    rfl

theorem Boot.zinv (h : Boot fs k) : ZInv k := by
  induction h with
  | fresh h => exact h.zinv
  | create hb hc ih =>
    obtain ⟨n,hn⟩ := createProc_spec hb.parked.inv hc
    exact hn.zinv ih

theorem Started.zinv (h : Started fs k) : ZInv k := by
  obtain ⟨k₀,hb,hs⟩ := h
  exact (Kindred.of_sched hs).zinv hb.zinv

/-- In every run without waiting one process runs, the books are kept, and whoever is reaped
is a zombie. -/
theorem Unwaited.sys (h : Unwaited fs k) : (∃ c, Sys k c) ∧ ZInv k := by
  obtain ⟨k₀,h₀,hr⟩ := h
  induction hr with
  | refl => exact ⟨h₀.sys,h₀.zinv⟩
  | tail _ hs ih =>
    obtain ⟨⟨c,hc⟩,hz⟩ := ih
    rcases hs with hs | ha
    · exact hs.unwaited hc hz
    · obtain ⟨h1,h2⟩ := ha.unwaited hc hz
      exact ⟨⟨c,h1⟩,h2⟩

theorem Unwaited.inv (h : Unwaited fs k) : KInv k := by
  obtain ⟨⟨c,hc⟩,-⟩ := h.sys
  exact hc.inv

end Ukern
