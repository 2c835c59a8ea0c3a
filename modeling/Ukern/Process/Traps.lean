import Ukern.Process.Step

/-! # Traps that need no pipe

The timer, page faults, `sys_fork`, `sys_exec`, `sys_wait` and the keyboard.
-/
namespace Ukern
open Lib
variable {fs : Fs} {k k' k₁ : Kernel} {c c' i j n r : Slot} {S : Slot → Prop} {tf : Context} {o : Outcome} {v : U64}
  {tr : Trap} {m : Phys} {a : Cause}

/-- The running process stops running; whoever is registered now was registered before, or
is that process itself. -/
theorem Sys.block (h : Sys k c) (hinv : KInv k') (a₀ : Cause)
    (hsub : ∀ a r, Registered k' a r → Registered k a r ∨ a = a₀ ∧ r = c)
    (hst : ∀ j ≠ c, (k'.procs j).state = (k.procs j).state) (hc : (k'.procs c).state = .pending) :
    Parked k' ∧ ∀ j, Dead k j → Dead k' j := by
  refine ⟨⟨hinv,h.reg.of_block a₀ (fun a r ha => ?_) (fun a r _ hr => hst r hr) hc,fun j hj => ?_⟩,fun j hj => ?_⟩
  · refine (hsub a r ha).imp (fun h1 => ⟨h1,?_⟩) id
    rintro rfl
    exact h.spare a h1
  · by_cases hjc : j = c
    · rw [hjc, hc] at hj
      cases hj
    · rw [hst j hjc, h.running] at hj
      exact hjc hj
  · simpa only [Dead,hst j (h.dead_ne hj)] using hj

/-- The running process stops running and is registered nowhere. -/
theorem Sys.park (h : Sys k c) (hinv : KInv k') (hsub : ∀ a r, Registered k' a r → Registered k a r)
    (hst : ∀ j ≠ c, (k'.procs j).state = (k.procs j).state) (hc : (k'.procs c).state ≠ .running) :
    Parked k' ∧ ∀ j, Dead k j → Dead k' j := by
  refine ⟨⟨hinv,h.reg.of_sub hsub fun a r ha => hst r ?_,fun j hj => ?_⟩,fun j hj => ?_⟩
  · rintro rfl
    exact h.spare a (hsub a r ha)
  · by_cases hjc : j = c
    · rw [hjc] at hj
      exact hc hj
    · rw [hst j hjc, h.running] at hj
      exact hjc hj
  · simpa only [Dead,hst j (h.dead_ne hj)] using hj

/-- Registrations do not see a change of one record that keeps its flag and descriptors. -/
theorem registered_modProc {f : Proc → Proc} (hl : (k.procs c).Like (f (k.procs c)))
    (hw : (f (k.procs c)).waiting = (k.procs c).waiting) :
    Registered (k.modProc c f) a r ↔ Registered k a r := by
  have hall : ∀ j, (k.procs j).Like ((k.modProc c f).procs j) := fun j => by
    by_cases hj : j = c
    · rw [hj, Kernel.modProc_self]
      exact hl
    · rw [Kernel.modProc_ne _ _ _ hj]
      exact ⟨rfl,rfl,rfl,Iff.rfl⟩
  have hends := ends_congr hall
  cases a with
  | kbd => exact Iff.rfl
  | wait =>
    by_cases hr : r = c
    · simp only [Registered,hr,Kernel.modProc_self,hw]
    · simp only [Registered,Kernel.modProc_ne _ _ _ hr]
  | read pg => simp only [Registered,hends,Kernel.modProc_pipe]
  | write pg => simp only [Registered,hends,Kernel.modProc_pipe]

theorem Sys.yield {f : Proc → Proc} (h : Sys k c) (hl : (k.procs c).Like (f (k.procs c)))
    (hw : (f (k.procs c)).waiting = (k.procs c).waiting) (hc : (f (k.procs c)).state ≠ .running) :
    Parked (k.modProc c f) ∧ ∀ j, Dead k j → Dead (k.modProc c f) j := by
  refine h.park (h.inv.modProc hl fun hwt hcl => ?_) (fun a r ha => (registered_modProc hl hw).mp ha)
    (fun j hj => by rw [Kernel.modProc_ne _ _ _ hj]) (by rw [Kernel.modProc_self]; exact hc)
  exact h.open (hl.close.mp hcl)

theorem timer_stepped (h : Sys k c)
    (hs : (k.modProc c fun p => { p with
      context := tf
      state := .ready
      execTime := (p.execTime + 1) % 2^64 }).sched = .ok o) : Stepped k S o := by
  obtain ⟨hp,hd⟩ := h.yield (f := fun p => { p with
    context := tf, state := .ready, execTime := (p.execTime + 1) % 2^64 })
    ⟨rfl,rfl,rfl,by simp [h.state]⟩ rfl nofun
  exact .of_sched hp (fun j hj => Or.inl (hd j hj)) hs

theorem fork_stepped (h : Sys k c) (hs : sysFork k c tf = .ok o) :
    Stepped k (fun j => k.closedSlot = some j) o := by
  obtain ⟨n,k',rfl,hf⟩ := sysFork_spec h.inv h.open hs
  have hst : ∀ j ≠ n, (k'.procs j).state = (k.procs j).state := fun j hj => Proc.state_of_core (hf.core j hj)
  have hnc : n ≠ c := by
    rintro rfl
    exact h.open hf.fresh
  refine ⟨⟨c,hf.inv,hf.reg h.inv h.open h.reg,hf.globals.2.1.trans h.cur,fun j => ?_⟩,fun j hj => ?_⟩
  · by_cases hj : j = n
    · simp [Outcome.kernel,hj,hf.child.1,hnc]
    · simp only [Outcome.kernel,hst j hj]
      exact h.running j
  · by_cases hjn : j = n
    · exact Or.inr (hjn ▸ hf.slot)
    · refine Or.inl ?_
      simpa only [Dead,Outcome.kernel,hst j hjn] using hj

theorem Quiet.sys (hq : Quiet k k') (h : Sys k c) : Sys k' c where
  inv := hq.inv
  reg := hq.reg h.reg
  cur := hq.globals.2.1.trans h.cur
  running j := by
    rw [(hq.procs j).state]
    exact h.running j

theorem Quiet.dead (hq : Quiet k k') : Dead k' j ↔ Dead k j := by
  simp only [Dead,(hq.procs j).state]

theorem execed_stepped {k₂ : Kernel} (h : Sys k c) (hq : Quiet k k₁) (he : ExecOk k₁ k₂ c) (hs : k₂.sched = .ok o) :
    Stepped k S o := by
  have h₁ := hq.sys h
  obtain ⟨a,b,e,ctx,hself⟩ := he.self
  obtain ⟨hp,hd⟩ := h₁.park he.inv (fun a r ha => he.registered.mp ha) (fun j hj => by rw [he.procs j hj])
    (by rw [hself]; nofun)
  exact .of_sched hp (fun j hj => Or.inl (hd j (hq.dead.mpr hj))) hs

theorem breakCow_quiet {va t i : ℕ} {m₁ : Phys} (h : KInv k) (hc : (k.procs c).state ≠ .close)
    (hw : walkPgtbl k.phys (k.procs c).pPgtbl va false = .ok (.slot t i,m₁))
    (hcov : (k.phys.tbl t i).covers (pteP ||| pteU ||| pteW) = true)
    (hb : breakCow k.phys (k.procs c) va = .ok m) : Quiet k (k.setPhys m) := by
  obtain ⟨-,hslot⟩ := walkPgtbl_read hw
  cases hs : Lib.Radix.slotOf Pte.link 512 k.phys.tbl 3 (k.procs c).pPgtbl (key 3 va) with
  | none =>
    rw [hs] at hslot
    cases hslot
  | some s =>
    rw [hs] at hslot
    cases hslot
    have he := entry_eq_slot hs
    obtain ⟨hp,hu,-⟩ := Pte.covers_puw hcov
    obtain ⟨f,hpr⟩ := breakCow_spec h.owned.mem (spaces_some hc) (by rw [he]; exact hu) (by rw [he]; exact hp) hb
    exact .setPhys h hpr.inv fun pg _ => by rw [hpr.pipe]

/-- The status of a zombie goes to the caller, and the zombie is cleared. -/
theorem waitZombie_ended {ohead : Slot} (h : Sys k c) (hz : Spare k ohead) (hs : waitZombie k c ohead tf = .ok o) :
    ∃ k₁, Quiet k k₁ ∧ Spare k₁ ohead ∧ Ended k₁ o.kernel (· = ohead) := by
  unfold waitZombie at hs
  obtain ⟨m,hst,hs⟩ := bind_eq_ok.mp hs
  obtain ⟨k₂,hcl,hs⟩ := bind_eq_ok.mp hs
  have hq : Quiet k (k.setPhys m) := .setData h.inv (by
    unfold waitStore at hst
    split at hst
    · exact kstores_data hst
    · cases hst
      exact ⟨_,rfl⟩)
  have h₁ := hq.sys h
  have hrel : ∀ nh, Relinked (k.setPhys m) (((k.setPhys m).modProc c fun p => { p with zombieChild := nh }).modPtr nh
      fun p => { p with prevSibling := none }) := fun nh => by
    refine (Relinked.refl.modProc ?_).modPtr ?_ <;> exact fun _ => rfl
  have hz₁ : Spare (k.setPhys m) ohead := fun a ha => hz a (hq.registered.mp ha)
  have hend₀ := (Ended.refl (S := (· = ohead)) h₁.inv).relinked (hrel (k.procs ohead).nextSibling)
  obtain ⟨-,-,hclear⟩ := clearProc_ok hend₀.inv ((hrel _).wakeSafe h₁.reg.wakeSafe) hcl
  have hend := hend₀.clear hclear (fun _ => id) fun j hj => by
    rw [hj]
    exact hz₁.unread
  cases hs
  exact ⟨_,hq,hz₁,hend⟩

theorem waitZombie_stepped {ohead : Slot} (h : Sys k c) (hz : Spare k ohead) (hne : ohead ≠ c)
    (hs : waitZombie k c ohead tf = .ok o) : Stepped k S o := by
  obtain ⟨k₁,hq,hz₁,hend⟩ := waitZombie_ended h hz hs
  have h₁ := hq.sys h
  have hS : ∀ j, j = ohead → Spare k₁ j := by
    rintro j rfl
    exact hz₁
  exact ⟨⟨c,hend.sys h₁ hS hne.symm⟩,fun j hj => Or.inl ((hend.states h₁.reg j).2.1 (hq.dead.mpr hj))⟩

theorem wait_stepped (h : Sys k c)
    (hz : ∀ ohead, (k.procs c).zombieChild = some ohead → Spare k ohead ∧ ohead ≠ c)
    (hs : sysWait k c tf = .ok o) : Stepped k S o := by
  unfold sysWait at hs
  obtain ⟨ok,-,hs⟩ := bind_eq_ok.mp hs
  split at hs
  · exact (Returned.done (.refl h.inv) hs).stepped h
  split at hs
  · rename_i ohead ho
    exact waitZombie_stepped h (hz ohead ho).1 (hz ohead ho).2 hs
  split at hs
  · exact (Returned.done (.refl h.inv) hs).stepped h
  obtain ⟨k',hk⟩ : ∃ k', k' = (k.modProc c fun p => { p with waiting := true, waitStatus := tf.rdx }).block c tf := ⟨_,rfl⟩
  have hself : k'.procs c = { k.procs c with
      waiting := true, waitStatus := tf.rdx, context := tf, state := .pending } := by
    rw [hk, Kernel.block, Kernel.modProc_self, Kernel.modProc_self]
  have hoth : ∀ j ≠ c, k'.procs j = k.procs j := fun j hj => by
    rw [hk, Kernel.block, Kernel.modProc_ne _ _ _ hj, Kernel.modProc_ne _ _ _ hj]
  have hlike : ∀ j, (k.procs j).Like (k'.procs j) := fun j => by
    by_cases hj : j = c
    · rw [hj, hself]
      exact ⟨rfl,rfl,rfl,by simp [h.state]⟩
    · rw [hoth j hj]
      exact ⟨rfl,rfl,rfl,Iff.rfl⟩
  have hphys : k'.phys = k.phys := by rw [hk]; rfl
  have hinv : KInv k' := by
    refine h.inv.congr hlike (fun j hw hcl => ?_) hphys (by rw [hk]; rfl)
    by_cases hj : j = c
    · rw [hj, hself] at hcl
      cases hcl
    · rw [hoth j hj] at hw hcl
      exact h.inv.waiting hw hcl
  have hsub : ∀ a r, Registered k' a r → Registered k a r ∨ a = .wait ∧ r = c := fun a r ha => by
    cases a with
    | kbd => exact Or.inl (by simp only [Registered,hk] at ha; exact ha)
    | wait =>
      by_cases hr : r = c
      · exact Or.inr ⟨rfl,hr⟩
      · exact Or.inl (by simp only [Registered,hoth r hr] at ha; exact ha)
    | read pg => exact Or.inl (by simp only [Registered,ends_congr hlike,Kernel.pipe,hphys] at ha; exact ha)
    | write pg => exact Or.inl (by simp only [Registered,ends_congr hlike,Kernel.pipe,hphys] at ha; exact ha)
  obtain ⟨hp,hd⟩ := h.block hinv .wait hsub (fun j hj => by rw [hoth j hj]) (by rw [hself])
  simp only at hs
  rw [← hk] at hs
  exact .of_sched hp (fun j hj => Or.inl (hd j hj)) hs

theorem kbdCopy_quiet {t x : ℕ} {dst : U64} (h : KInv k) (hs : kbdCopy t dst k x = .ok k') : Quiet k k' := by
  unfold kbdCopy at hs
  obtain ⟨m,hst,hs⟩ := bind_eq_ok.mp hs
  cases hs
  have hq : Quiet k (k.setPhys m) := .setData h (kstore_data hst)
  exact ⟨⟨⟨hq.inv.owned.mem,hq.inv.owned.refs⟩,hq.inv.closed⟩,hq.procs,hq.ends_eq,hq.pipe,hq.globals⟩

theorem kbdCopies_quiet {t n : ℕ} {dst : U64} (h : KInv k)
    (hs : (List.range n).foldlM (kbdCopy t dst) k = .ok k') : Quiet k k' :=
  foldlM_range_inv (fun _ s => Quiet k s) (.refl h) (fun _ _ _ _ hq ht => hq.trans (kbdCopy_quiet hq.inv ht)) hs

theorem readKbd_stepped (h : Sys k c) (hs : readKbd k c tf = .ok o) : Stepped k S o := by
  unfold readKbd at hs
  split at hs
  · obtain ⟨k₁,hc,hs⟩ := bind_eq_ok.mp hs
    exact (Returned.done (kbdCopies_quiet h.inv hc) hs).stepped h
  split at hs
  · exact (Returned.done (.refl h.inv) hs).stepped h
  have hl : (k.procs c).Like { k.procs c with context := tf, state := .pending } :=
    ⟨rfl,rfl,rfl,by simp [h.state]⟩
  have hmod : KInv (k.modProc c fun p => { p with context := tf, state := .pending }) :=
    h.inv.modProc hl fun _ => nofun
  have hinv : KInv ({ k with kbdProc := some c }.block c tf) := ⟨⟨hmod.owned.mem,hmod.owned.refs⟩,hmod.closed⟩
  have hsub : ∀ a r, Registered ({ k with kbdProc := some c }.block c tf) a r →
      Registered k a r ∨ a = .kbd ∧ r = c := fun a r ha => by
    have hreg := (registered_modProc (a := a) (r := r)
      (f := fun p => { p with context := tf, state := .pending }) hl rfl).mp
    cases a with
    | kbd => exact Or.inr ⟨rfl,(Option.some.inj ha).symm⟩
    | wait => exact Or.inl (hreg ha)
    | read pg => exact Or.inl (hreg ha)
    | write pg => exact Or.inl (hreg ha)
  obtain ⟨hp,hd⟩ := h.block hinv .kbd hsub (fun j hj => by rw [Kernel.block, Kernel.modProc_ne _ _ _ hj])
    (by rw [Kernel.block, Kernel.modProc_self])
  exact .of_sched hp (fun j hj => Or.inl (hd j hj)) hs

theorem Quiet.queueKey (h : KInv k) (ch : ℤ) : Quiet k (k.queueKey ch) :=
  ⟨⟨⟨h.owned.mem,h.owned.refs⟩,h.closed⟩,fun _ => .refl _,⟨rfl,rfl⟩,fun _ _ => ⟨rfl,rfl⟩,⟨rfl,rfl,rfl⟩⟩

theorem Sys.wake {b : Slot} (rax : U64) (h : Sys k c) (hb : Registered k .kbd b) :
    Sys { k.wake b rax with kbdProc := none } c ∧ ∀ j, Dead k j → Dead { k.wake b rax with kbdProc := none } j := by
  have hpb := h.reg.pending .kbd b hb
  have hl : (k.procs b).Like
      { k.procs b with context := { (k.procs b).context with rax := rax }, state := .ready } :=
    ⟨rfl,rfl,rfl,by simp [hpb]⟩
  have hinv : KInv (k.wake b rax) := h.inv.modProc hl fun _ => nofun
  have hself : (k.wake b rax).procs b =
      { k.procs b with context := { (k.procs b).context with rax := rax }, state := .ready } := Kernel.modProc_self ..
  have hne : ∀ j ≠ b, (k.wake b rax).procs j = k.procs j := fun j hj => Kernel.modProc_ne _ _ _ hj
  have hsub : ∀ a r, Registered { k.wake b rax with kbdProc := none } a r → Registered k a r ∧ r ≠ b := by
    intro a r ha
    have hreg := (registered_modProc (a := a) (r := r)
      (f := fun p => { p with context := { p.context with rax := rax }, state := .ready }) hl rfl).mp
    have hold : Registered k a r ∧ a ≠ .kbd := by
      cases a with
      | kbd => cases ha
      | wait => exact ⟨hreg ha,nofun⟩
      | read pg => exact ⟨hreg ha,nofun⟩
      | write pg => exact ⟨hreg ha,nofun⟩
    refine ⟨hold.1,?_⟩
    rintro rfl
    exact hold.2 (h.reg.unique a .kbd r hold.1 hb)
  have hbc : b ≠ c := by
    rintro rfl
    exact h.spare .kbd hb
  refine ⟨⟨⟨⟨hinv.owned.mem,hinv.owned.refs⟩,hinv.closed⟩,
    h.reg.of_sub (fun a r ha => (hsub a r ha).1) fun a r ha => by simp only [hne r (hsub a r ha).2],h.cur,
    fun j => ?_⟩,fun j hj => ?_⟩
  · by_cases hj : j = b
    · simp [hj,hself,hbc]
    · simp only [hne j hj]
      exact h.running j
  · have hjb : j ≠ b := by
      rintro rfl
      rcases hj with hj | hj <;> simp [hpb] at hj
    simpa only [Dead,hne j hjb] using hj

theorem serveKbd_stepped (h : Sys k c) (hs : serveKbd k c tf = .ok o) : Stepped k S o := by
  unfold serveKbd at hs
  split at hs
  · cases hs
    exact Returned.stepped h ⟨_,_,rfl,.refl h.inv⟩
  · rename_i b hb
    obtain ⟨k₁,hc,hs⟩ := bind_eq_ok.mp hs
    have hq := kbdCopies_quiet h.inv hc
    have hkb : Registered k₁ .kbd b := hq.globals.2.2.trans hb
    obtain ⟨h₂,hd₂⟩ := (hq.sys h).wake (BitVec.ofNat 64 (min k.kbdBufSiz (k.procs b).context.rbx.toNat)) hkb
    obtain ⟨hp,hd⟩ := h₂.yield (f := fun p => { p with context := tf, state := .ready })
      ⟨rfl,rfl,rfl,nofun,fun hcl => absurd hcl h₂.open⟩ rfl nofun
    exact .of_sched hp (fun j hj => Or.inl (hd j (hd₂ j (hq.dead.mpr hj)))) hs

theorem keyboard_stepped (h : Sys k c) (hs : keyboard k c tr = .ok o) : Stepped k S o := by
  unfold keyboard at hs
  split at hs
  · have hq := Quiet.queueKey h.inv tr.getch
    obtain ⟨h1,h2⟩ := serveKbd_stepped (S := S) (hq.sys h) hs
    exact ⟨h1,fun j hj => h2 j (hq.dead.mpr hj)⟩
  · cases hs
    exact Returned.stepped h ⟨_,_,rfl,.refl h.inv⟩

end Ukern
