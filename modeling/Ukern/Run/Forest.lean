import Ukern.Process.Forest
import Ukern.Run.Household

/-! # The process forest over whole runs

As long as every process that ends is waited for, or is alone, the family pointers say what they are meant to.
The first exit of any other kind breaks the lists.
-/
namespace Ukern
open Lib
variable {fs : Fs} {k k' : Kernel} {c : Slot} {o : Outcome} {tr : Trap}

/-- The traps that keep the books and the forest. -/
structure Tended (k : Kernel) (c : Slot) (tr : Trap) : Prop where
  known : tr.vecnum = 32 → ∃ call : Call, toInt32 tr.tf.rax = call.num
  close : tr.Calls .close → ∀ fd, fdOf tr.tf.rdx = some fd → Balanced (k.procs c) fd
  read : tr.Calls .read → ∀ fd, fdOf tr.tf.rdx = some fd → ((k.procs c).fdesc fd).fileType = .rpipe →
    ReadsSome k ((k.procs c).fdesc fd).pipe tr.tf
  parting : tr.Fatal k c → Parting k c

theorem Tended.orderly (h : Tended k c tr) (hf : FInv k) : Orderly k c tr where
  known := h.known
  reaps j hj := by
    rw [hf.empty c] at hj
    exact absurd hj Reaches.not_none
  close := h.close
  read := h.read

theorem trap_kills (hf : tr.Fatal k c) (hs : trapHandlerAt fs k c tr = .ok o) :
    ∃ v k₁, killProc k c v = .ok k₁ ∧ (k₁.sched = .ok o ∨ o = .ret tr.tf k₁) := by
  have hkill : ∀ {v : U64}, (do (← killProc k c v).sched) = .ok o →
      ∃ v k₁, killProc k c v = .ok k₁ ∧ (k₁.sched = .ok o ∨ o = .ret tr.tf k₁) := fun hs => by
    obtain ⟨k₁,hk,hs⟩ := bind_eq_ok.mp hs
    exact ⟨_,k₁,hk,Or.inl hs⟩
  unfold trapHandlerAt at hs
  rcases hf with hv | ⟨hv,hcall⟩ | ⟨hv,hfault⟩
  · rw [hv] at hs
    exact hkill hs
  · rw [hv] at hs
    rcases hcall with hexit | hunknown
    · rw [syscall_run .exit hexit] at hs
      exact hkill hs
    · rw [syscall_unknown hunknown] at hs
      obtain ⟨k₁,hk,hs⟩ := bind_eq_ok.mp hs
      exact ⟨_,k₁,hk,Or.inr (Except.ok.inj hs).symm⟩
  · rw [hv] at hs
    simp only [pageFaultHandler] at hs
    split at hs
    · split at hs
      · cases hs
      · exact hkill hs
    · rename_i herr
      obtain ⟨⟨w,m⟩,hw,hs⟩ := bind_eq_ok.mp hs
      have hcov := hfault.resolve_left herr
      rcases lookup_of_walk hw with ⟨t,i,rfl,hleaf⟩ | ⟨rfl,-⟩
      · rw [hleaf] at hcov
        simp only [hcov,Bool.false_eq_true,↓reduceIte] at hs
        exact hkill hs
      · exact hkill hs

theorem Effect.finv (he : Effect k c tr o) (h : Sys k c) (hf : FInv k) (hp : tr.Fatal k c → Parting k c) : FInv o.kernel := by
  cases he with
  | returned hr => exact hr.kindred.finv hf
  | forked _ hs =>
    obtain ⟨n,k',rfl,hfork⟩ := sysFork_spec h.inv h.open hs
    exact hfork.finv hf h.open
  | execed hq he hs => exact ((hq.kindred.trans (he.kindred (hq.sys h).not_dead)).sched hs).finv hf
  | killed hk hs hfatal => exact (Kindred.refl.sched hs).finv (kill_finv h hf (hp hfatal) hk)
  | unknown hv hu hk ho =>
    rw [ho]
    exact kill_finv h hf (hp (Or.inr (Or.inl ⟨hv,Or.inr hu⟩))) hk
  | yielded hs => exact (timer_kindred h hs).finv hf
  | keyed hs => exact (keyboard_kindred h hs).finv hf
  | readKbd hs => exact (readKbd_kindred h hs).finv hf
  | waited _ hs => exact wait_finv h hf hs
  | piped ho hp =>
    rw [ho]
    exact (hp.kindred h.not_dead).finv hf
  | readPipe _ _ _ hpg hs => exact (readPipe_kindred h hpg hs).finv hf
  | wrotePipe _ _ _ hpg _ hs => exact (writePipe_kindred h hpg hs).finv hf
  | closed _ hs => exact (close_kindred h hs).finv hf

theorem trap_forest_iff (h : Sys k c) (hf : FInv k) (hs : trapHandlerAt fs k c tr = .ok o) :
    Forest o.kernel ↔ (tr.Fatal k c → Parting k c) := by
  refine ⟨fun hforest hfatal => ?_,fun hp => ((trap_effect h.inv h.open hs).finv h hf hp).forest⟩
  by_contra hgo
  obtain ⟨v,k₁,hk,ho⟩ := trap_kills hfatal hs
  refine kill_not_forest h hf hgo hk ?_
  rcases ho with ho | rfl
  · exact (Kindred.refl.sched ho).forest hforest
  · exact hforest

theorem Step.tended (hs : Step fs Tended k k') (h : Sys k c) (hf : FInv k) : (∃ c, Sys k' c) ∧ FInv k' := by
  cases hs with
  | trap hc hg ht =>
    rw [trapHandler, hc] at ht
    obtain rfl := Option.some.inj (hc.symm.trans h.cur)
    have he := trap_effect h.inv h.open ht
    exact ⟨(he.stepped h (hg.orderly hf)).1,he.finv h hf hg.parting⟩
  | store hc hst =>
    have hq := userStore_quiet h.inv hst
    exact ⟨⟨c,hq.sys h⟩,hq.kindred.finv hf⟩

theorem Fresh.finv (h : Fresh k) : FInv k := by
  refine ⟨⟨fun p hp => ?_,fun j p hj => ?_,fun j hj => ?_,fun j s hj => ?_,fun j _ => ?_⟩,fun j => ?_,fun j => ?_⟩
  · rw [h.procs p] at hp
    exact absurd rfl hp
  · simp only [Kernel.family,h.procs j] at hj
    cases hj
  · simp only [Kernel.family,h.procs j] at hj
    cases hj
  · simp only [Kernel.family,Kernel.next,Kernel.prev,h.procs j] at hj
    rcases hj with hj | hj
    · cases hj
    · cases hj
  · simp only [Kernel.family,Kernel.next,Kernel.prev,h.procs j]
    exact ⟨rfl,rfl,rfl,rfl⟩
  · rw [h.procs j]
    rfl
  · rw [h.procs j]
    rintro ⟨⟩

theorem Boot.finv (h : Boot fs k) : FInv k := by
  induction h with
  | fresh h => exact h.finv
  | create hb hc ih =>
    obtain ⟨n,hn⟩ := createProc_spec hb.parked.inv hc
    exact hn.finv ih

theorem Started.finv (h : Started fs k) : FInv k := by
  obtain ⟨k₀,hb,hs⟩ := h
  exact (Kindred.of_sched hs).finv hb.finv

theorem Reachable.finv (h : Reachable fs Tended k) : (∃ c, Sys k c) ∧ FInv k := by
  obtain ⟨k₀,h₀,hr⟩ := h
  induction hr with
  | refl => exact ⟨h₀.sys,h₀.finv⟩
  | tail _ hs ih =>
    obtain ⟨⟨c,hc⟩,hf⟩ := ih
    exact hs.tended hc hf

end Ukern
