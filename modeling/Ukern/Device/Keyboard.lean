import Ukern.Lib.Ring
import Ukern.Memory.Word
import Ukern.Run.Turns

/-! # The keyboard

The ring between the keyboard interrupt and its readers is a queue: what the readers
got, in the order they got it, followed by what the ring holds, is what was typed while
there was room.
-/
namespace Ukern
open Lib
variable {fs : Fs} {k k₁ k' : Kernel} {c : Slot} {tf : Context} {o : Outcome} {tr : Trap} {X : Slot → Prop}

/-- The first `n` characters of the ring. -/
def Kernel.front (k : Kernel) (n : ℕ) : List UInt8 := ring 4096 k.kbdBuffer k.kbdBufBeg n

/-- All characters of the ring. -/
def Kernel.queued (k : Kernel) : List UInt8 := k.front k.kbdBufSiz

/-- The trap is a key code that the ring takes. -/
def Trap.Arrives (tr : Trap) (k : Kernel) : Prop :=
  tr.vecnum = 36 ∧ 0 < tr.getch ∧ k.kbdBufSiz < 4096

instance : Decidable (tr.Arrives k) := inferInstanceAs (Decidable (_ ∧ _))

/-- The key codes that arrive with a trap, as bytes. -/
def arrived (k : Kernel) (tr : Trap) : List UInt8 :=
  if tr.Arrives k then [UInt8.ofNat tr.getch.toNat] else []

/-- The characters a trap hands to a reader: to the one that waits, or to the caller. -/
def delivered (k : Kernel) (c : Slot) (tr : Trap) : List UInt8 :=
  if tr.Arrives k then
    match k.kbdProc with
    | none => []
    | some b => (k.queueKey tr.getch).front (min (k.kbdBufSiz + 1) (k.procs b).context.rbx.toNat)
  else if tr.readsKeys k c then k.front (min k.kbdBufSiz tr.tf.rbx.toNat)
  else []

/-- The counters are in range, and nobody waits while there is something to read. -/
structure KbdInv (k : Kernel) : Prop where
  beg : k.kbdBufBeg < 4096
  siz : k.kbdBufSiz ≤ 4096
  waits : k.kbdProc ≠ none → k.kbdBufSiz = 0

/-! ## The copy loop -/

/-- The loop stores the front of the ring through the pointer and moves the ring on. -/
theorem kbdCopy_loop {t r : ℕ} {dst : U64} (hr : r ≤ k.kbdBufSiz) (hbeg : k.kbdBufBeg < 4096)
    (h : (List.range r).foldlM (kbdCopy t dst) k = .ok k') :
    ∃ m, kstores k.phys t dst (k.front r) = .ok m ∧
      k' = { k with phys := m, kbdBufBeg := (k.kbdBufBeg + r) % 4096, kbdBufSiz := k.kbdBufSiz - r } := by
  induction r generalizing k' with
  | zero =>
    cases h
    refine ⟨k.phys,rfl,?_⟩
    rw [Nat.add_zero, Nat.mod_eq_of_lt hbeg, Nat.sub_zero]
  | succ r ih =>
    rw [foldlM_range_succ, bind_eq_ok] at h
    obtain ⟨k₁,h₁,h⟩ := h
    obtain ⟨m₁,hm₁,rfl⟩ := ih (by omega) h₁
    obtain ⟨m,hm,h⟩ := bind_eq_ok.mp h
    cases h
    have hlt := Nat.mod_lt (k.kbdBufBeg + r) (show 0 < 4096 by decide)
    refine ⟨m,?_,?_⟩
    · rw [Kernel.front, ring_succ, kstores_snoc, ring_length]
      exact bind_eq_ok.mpr ⟨m₁,hm₁,hm⟩
    · dsimp only
      congr 1
      split <;> omega

theorem front_rest {r : ℕ} (hr : r ≤ k.kbdBufSiz) (m : Phys) :
    k.front r ++ Kernel.queued { k with
      phys := m, kbdBufBeg := (k.kbdBufBeg + r) % 4096, kbdBufSiz := k.kbdBufSiz - r } = k.queued := by
  have h : ring 4096 k.kbdBuffer k.kbdBufBeg (r + (k.kbdBufSiz - r)) = _ := ring_add r _
  rw [Nat.add_sub_cancel' hr] at h
  exact h.symm

theorem queueKey_queued (ch : ℤ) (h : k.kbdBufSiz < 4096) :
    (k.queueKey ch).queued = k.queued ++ [UInt8.ofNat ch.toNat] := ring_push h _

/-! ## One trap -/

/-- What a trap does to the queue. -/
structure KbdStep (k : Kernel) (got given : List UInt8) (k' : Kernel) : Prop where
  inv : KbdInv k'
  queue : given ++ k'.queued = k.queued ++ got

theorem Calm.kbdStep (h : Calm X k k') (hk : KbdInv k) : KbdStep k [] [] k' where
  inv := by
    refine ⟨by rw [h.beg]; exact hk.beg,by rw [h.siz]; exact hk.siz,fun hw => ?_⟩
    rw [h.siz]
    rcases h.kbd with hkbd | hkbd
    · exact hk.waits (by rwa [hkbd] at hw)
    · exact absurd hkbd hw
  queue := by
    rw [List.nil_append, List.append_nil, Kernel.queued, Kernel.front, h.buf, h.beg, h.siz]
    rfl

theorem KbdStep.select {got given : List UInt8} (h : KbdStep k got given k₁) (hs : sched k₁ = .ok k') :
    KbdStep k got given k' := by
  obtain ⟨i,-,rfl⟩ := sched_eq_ok hs
  exact ⟨⟨h.inv.beg,h.inv.siz,h.inv.waits⟩,h.queue⟩

theorem Leaves.kbdStep (h : Leaves (Calm X) k o) (hk : KbdInv k) : KbdStep k [] [] o.kernel := by
  cases h with
  | ret h => exact h.kbdStep hk
  | run h hs => exact (h.kbdStep hk).select hs

theorem readKbd_kbdStep (hk : KbdInv k) (h : readKbd k c tf = .ok o) :
    KbdStep k [] (k.front (min k.kbdBufSiz tf.rbx.toNat)) o.kernel ∧
      (0 < k.kbdBufSiz → kstores k.phys (k.procs c).pgtbl tf.rcx
        (k.front (min k.kbdBufSiz tf.rbx.toNat)) = .ok o.kernel.phys) := by
  have hmin : min k.kbdBufSiz tf.rbx.toNat ≤ k.kbdBufSiz := Nat.min_le_left ..
  unfold readKbd at h
  split at h
  · obtain ⟨k₁,h₁,h⟩ := bind_eq_ok.mp h
    cases h
    obtain ⟨m,hm,rfl⟩ := kbdCopy_loop hmin hk.beg h₁
    refine ⟨⟨⟨Nat.mod_lt _ (by decide),(Nat.sub_le ..).trans hk.siz,fun hw => ?_⟩,?_⟩,fun _ => hm⟩
    · have hz := hk.waits hw
      omega
    · rw [List.append_nil]
      exact front_rest hmin m
  · rename_i hz
    have hz' : k.kbdBufSiz = 0 := by omega
    refine ⟨?_,fun hpos => absurd hpos hz⟩
    rw [hz', Nat.zero_min]
    have h₀ : Calm (fun _ => True) k k := .refl k
    split at h
    · cases h
      exact h₀.kbdStep hk
    · obtain ⟨k₁,hs,h⟩ := bind_eq_ok.mp h
      cases h
      have hb : Calm (fun _ => True) { k with kbdProc := some c } (Kernel.block _ c tf) :=
        (Calm.refl _).setProc (.inl trivial)
      have hk' : KbdInv { k with kbdProc := some c } := ⟨hk.beg,hk.siz,fun _ => hz'⟩
      have hstep := hb.kbdStep hk'
      exact KbdStep.select ⟨hstep.inv,hstep.queue⟩ hs

theorem keyboard_kbdStep (hk : KbdInv k) (ha : 0 < tr.getch ∧ k.kbdBufSiz < 4096)
    (h : keyboard k c tr = .ok o) :
    (k.kbdProc = none → KbdStep k [UInt8.ofNat tr.getch.toNat] [] o.kernel) ∧
    ∀ b, k.kbdProc = some b →
      KbdStep k [UInt8.ofNat tr.getch.toNat]
        ((k.queueKey tr.getch).front (min (k.kbdBufSiz + 1) (k.procs b).context.rbx.toNat)) o.kernel ∧
      kstores k.phys (k.procs b).pgtbl (k.procs b).context.rcx
        ((k.queueKey tr.getch).front (min (k.kbdBufSiz + 1) (k.procs b).context.rbx.toNat)) =
          .ok o.kernel.phys := by
  have hq := queueKey_queued tr.getch ha.2
  rw [keyboard, if_pos ha, serveKbd] at h
  split at h
  · rename_i hnone
    have hn : k.kbdProc = none := hnone
    cases h
    refine ⟨fun _ => ⟨⟨hk.beg,ha.2,fun hw => absurd hn hw⟩,hq⟩,fun b hb => ?_⟩
    rw [hn] at hb
    cases hb
  · rename_i b' hsome
    have hs : k.kbdProc = some b' := hsome
    refine ⟨fun hn => absurd (hn.symm.trans hs) (by simp),fun b hb => ?_⟩
    obtain rfl : b' = b := Option.some.inj (hs.symm.trans hb)
    obtain ⟨k₁,h₁,h⟩ := bind_eq_ok.mp h
    have hmin : min (k.kbdBufSiz + 1) (k.procs b').context.rbx.toNat ≤ (k.queueKey tr.getch).kbdBufSiz :=
      Nat.min_le_left ..
    obtain ⟨m,hm,rfl⟩ := kbdCopy_loop hmin hk.beg h₁
    obtain ⟨k₂,hsch,h⟩ := bind_eq_ok.mp h
    cases h
    refine ⟨KbdStep.select ⟨⟨Nat.mod_lt _ (by decide),?_,fun hw => absurd rfl hw⟩,?_⟩ hsch,?_⟩
    · exact (Nat.sub_le ..).trans ha.2
    · rw [← hq]
      exact front_rest hmin m
    · obtain ⟨i,-,rfl⟩ := sched_eq_ok hsch
      exact hm

theorem readsKeys_readsKbd (h : tr.readsKeys k c = true) : tr.ReadsKbd k c := by
  unfold Trap.readsKeys at h
  simp only [Bool.and_eq_true, beq_iff_eq] at h
  obtain ⟨⟨hv,hnum⟩,hm⟩ := h
  split at hm
  · rename_i fd ok hfd hok
    simp only [Bool.and_eq_true, beq_iff_eq] at hm
    exact ⟨hv,hnum,fd,hfd,hm.2⟩
  · cases hm

/-- The process a trap hands characters to, with the registers of its request. -/
def reader (k : Kernel) (c : Slot) (tr : Trap) : Option (Slot × Context) :=
  if tr.Arrives k then k.kbdProc.map fun b => (b,(k.procs b).context)
  else if tr.readsKeys k c ∧ 0 < k.kbdBufSiz then some (c,tr.tf)
  else none

/-- One trap moves the queue on, and what it takes from the ring it stores, in order,
where the reader asked for it. -/
theorem trap_kbdStep (hk : KbdInv k) (hc : k.curproc = some c) (h : trapHandler fs k tr = .ok o) :
    KbdStep k (arrived k tr) (delivered k c tr) o.kernel ∧
      ∀ b ctx, reader k c tr = some (b,ctx) →
        kstores k.phys (k.procs b).pgtbl ctx.rcx (delivered k c tr) = .ok o.kernel.phys := by
  rw [trapHandler, hc] at h
  change trapHandlerAt fs k c tr = .ok o at h
  unfold arrived delivered reader
  by_cases ha : tr.Arrives k
  · have hkey : keyboard k c tr = .ok o := by
      unfold trapHandlerAt at h
      simpa only [ha.1] using h
    obtain ⟨hnone,hsome⟩ := keyboard_kbdStep hk ha.2 hkey
    rw [if_pos ha, if_pos ha, if_pos ha]
    cases hp : k.kbdProc with
    | none => exact ⟨hnone hp,nofun⟩
    | some b =>
      refine ⟨(hsome b hp).1,fun b' ctx hb => ?_⟩
      cases hb
      exact (hsome b hp).2
  rw [if_neg ha, if_neg ha, if_neg ha]
  by_cases hr : tr.ReadsKbd k c
  · rcases readsKeys_cases hr h with ⟨hkeys,hread⟩ | ⟨hkeys,hl⟩
    · obtain ⟨hstep,hmem⟩ := readKbd_kbdStep hk hread
      rw [if_pos hkeys]
      refine ⟨hstep,fun b ctx hb => ?_⟩
      split at hb
      · rename_i hpos
        cases hb
        exact hmem hpos.2
      · cases hb
    · rw [if_neg (by simp [hkeys]), if_neg (by simp [hkeys])]
      exact ⟨hl.kbdStep hk,nofun⟩
  · have hkeys : ¬ tr.readsKeys k c = true := fun hkeys => hr (readsKeys_readsKbd hkeys)
    rw [if_neg hkeys, if_neg (fun h => hkeys h.1)]
    refine ⟨?_,nofun⟩
    by_cases hv : tr.vecnum = 36
    · have hkey : keyboard k c tr = .ok o := by
        unfold trapHandlerAt at h
        simpa only [hv] using h
      rw [keyboard, if_neg (fun hg => ha ⟨hv,hg⟩)] at hkey
      cases hkey
      exact (Calm.refl k (X := fun _ => True)).kbdStep hk
    · exact (trap_calm hv hr o h).kbdStep hk

/-! ## Runs -/

/-- A run, with the key codes that arrived and the characters that readers got. -/
inductive Keys (fs : Fs) : Kernel → List UInt8 → List UInt8 → Kernel → Prop
  | start {k : Kernel} : Keys fs k [] [] k
  | trap {k₀ k : Kernel} {got given : List UInt8} {c : Slot} {tr : Trap} {o : Outcome}
      (h : Keys fs k₀ got given k) (hc : k.curproc = some c) (ht : trapHandler fs k tr = .ok o) :
      Keys fs k₀ (got ++ arrived k tr) (given ++ delivered k c tr) o.kernel
  | store {k₀ k : Kernel} {got given : List UInt8} {c : Slot} {v : ℕ} {b : UInt8} {m : Phys}
      (h : Keys fs k₀ got given k) (hc : k.curproc = some c)
      (hs : userStore k.phys (k.procs c).pgtbl v b = some m) : Keys fs k₀ got given (k.setPhys m)

theorem Keys.fifo {k₀ : Kernel} {got given : List UInt8} (h : Keys fs k₀ got given k) (hk : KbdInv k₀)
    (h0 : k₀.kbdBufSiz = 0) : KbdInv k ∧ given ++ k.queued = got := by
  induction h with
  | start =>
    refine ⟨hk,?_⟩
    rw [Kernel.queued, h0]
    rfl
  | trap _ hc ht ih =>
    obtain ⟨hinv,hq⟩ := ih
    have hstep := (trap_kbdStep hinv hc ht).1
    refine ⟨hstep.inv,?_⟩
    rw [List.append_assoc, hstep.queue, ← List.append_assoc, hq]
  | store _ hc hs ih =>
    obtain ⟨hinv,hq⟩ := ih
    exact ⟨⟨hinv.beg,hinv.siz,hinv.waits⟩,hq⟩

end Ukern
