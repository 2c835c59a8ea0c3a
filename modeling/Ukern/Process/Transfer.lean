import Ukern.Process.Pipes

/-! # Bytes through a pipe

`pipe_read` and `pipe_write` copy between the ring and a process, forget whoever is served,
and call each other. Seen from outside they move memory, one pipe, and wake whom they forget.
-/
namespace Ukern
open Lib
variable {k k' k₁ : Kernel} {c i j r w : Slot} {S : Slot → Prop} {tf : Context} {o : Outcome}
  {m m' m₁ : Phys} {a : Cause} {pg kp : ℕ} {sp : Spaces} {extra : ℕ → ℕ} {p : Proc}

/-- Bytes were moved between pages and the ring of pipe `pg`. -/
structure Shifted (m m' : Phys) (kp : ℕ) (sp : Spaces) (extra : ℕ → ℕ) (pg : ℕ) : Prop where
  inv : MemInv m' kp sp extra
  pipe : ∀ x ≠ pg, m'.pipe x = m.pipe x
  ring : ∃ b, m'.pipe pg = { m.pipe pg with buf := b }

namespace Shifted

theorem refl (h : MemInv m kp sp extra) : Shifted m m kp sp extra pg := ⟨h,fun _ _ => rfl,_,rfl⟩

theorem trans (h : Shifted m m₁ kp sp extra pg) (h' : Shifted m₁ m' kp sp extra pg) :
    Shifted m m' kp sp extra pg := by
  obtain ⟨b,hb⟩ := h.ring
  obtain ⟨b',hb'⟩ := h'.ring
  exact ⟨h'.inv,fun x hx => (h'.pipe x hx).trans (h.pipe x hx),b',by rw [hb', hb]⟩

theorem setByte (pg : ℕ) (h : MemInv m kp sp extra) (pa : ℕ) (b : UInt8) :
    Shifted m (m.setByte pa b) kp sp extra pg :=
  ⟨h.withContents _ _,fun _ _ => rfl,_,rfl⟩

theorem setBuf (pg : ℕ) (h : MemInv m kp sp extra) (b : ℕ → UInt8) :
    Shifted m (m.setPipe pg { m.pipe pg with buf := b }) kp sp extra pg :=
  ⟨h.withContents _ _,fun _ hx => Function.update_of_ne hx ..,b,Function.update_self ..⟩

theorem u2k (pg : ℕ) {v : U64} {write : Bool} {pa : ℕ} (h : MemInv m kp sp extra) (hs : sp c = some (p.pgtbl,p.pPgtbl))
    (hu : Ukern.u2k m p v write = .ok (pa,m')) : Shifted m m' kp sp extra pg := by
  obtain ⟨f,-,hread,hwrite⟩ := u2k_spec h hs hu
  cases write with
  | false =>
    obtain ⟨rfl,-⟩ := hread rfl
    exact .refl h
  | true =>
    have hp := hwrite rfl
    exact ⟨hp.inv,fun x _ => by rw [hp.pipe],_,by rw [hp.pipe]⟩

end Shifted

theorem pipeReadLoop_shifted {n base tail rbuf i ind j : ℕ} (h : MemInv m kp sp extra)
    (hs : sp c = some (p.pgtbl,p.pPgtbl)) (hl : pipeReadLoop pg p base tail n m rbuf i ind j = .ok m') :
    Shifted m m' kp sp extra pg := by
  induction n generalizing m rbuf i ind j with
  | zero => cases hl
  | succ n ih =>
    unfold pipeReadLoop at hl
    split at hl
    · cases hl
      exact .refl h
    have h1 := Shifted.setByte pg h (rbuf + ind) ((m.pipe pg).buf j)
    simp only at hl
    split at hl
    · exact h1.trans (ih h1.inv hl)
    · obtain ⟨⟨rbuf',m₁⟩,hu,hl⟩ := bind_eq_ok.mp hl
      have h2 := Shifted.u2k pg h1.inv hs hu
      exact h1.trans (h2.trans (ih h2.inv hl))

theorem pipeWriteLoop_shifted {n base tail wbuf i ind j : ℕ} (h : MemInv m kp sp extra)
    (hs : sp c = some (p.pgtbl,p.pPgtbl)) (hl : pipeWriteLoop pg p base tail n m wbuf i ind j = .ok m') :
    Shifted m m' kp sp extra pg := by
  induction n generalizing m wbuf i ind j with
  | zero => cases hl
  | succ n ih =>
    unfold pipeWriteLoop at hl
    split at hl
    · cases hl
      exact .refl h
    have h1 := Shifted.setBuf pg h (Function.update (m.pipe pg).buf j (m.byte (wbuf + ind)))
    simp only at hl
    split at hl
    · exact h1.trans (ih h1.inv hl)
    · obtain ⟨⟨wbuf',m₁⟩,hu,hl⟩ := bind_eq_ok.mp hl
      have h2 := Shifted.u2k pg h1.inv hs hu
      exact h1.trans (h2.trans (ih h2.inv hl))

/-- Pipe `pg` was served. Whoever is woken is forgotten by the pipe. -/
structure Moved (k k' : Kernel) (sp : Spaces) (R W : ℕ → ℕ) (pg : ℕ) : Prop where
  owned : Owned k' sp R W
  procs : ∀ j, k'.procs j = k.procs j ∨
    ((k.pipe pg).reader = some j ∧ (k'.pipe pg).reader = none ∨
      (k.pipe pg).writer = some j ∧ (k'.pipe pg).writer = none) ∧
      ∃ ctx, k'.procs j = { k.procs j with context := ctx, state := .ready }
  reader : (k'.pipe pg).reader = (k.pipe pg).reader ∨ (k'.pipe pg).reader = none
  writer : (k'.pipe pg).writer = (k.pipe pg).writer ∨ (k'.pipe pg).writer = none
  pipe : ∀ x ≠ pg, k'.pipe x = k.pipe x
  globals : k'.kPgtbl = k.kPgtbl ∧ k'.curproc = k.curproc ∧ k'.kbdProc = k.kbdProc

/-- Whoever waits at the pipe has the tables that `sp` says. -/
def Attended (k : Kernel) (sp : Spaces) (pg : ℕ) : Prop :=
  ∀ j, (k.pipe pg).reader = some j ∨ (k.pipe pg).writer = some j →
    sp j = some ((k.procs j).pgtbl,(k.procs j).pPgtbl)

section Served
variable {R W : ℕ → ℕ} {n : ℕ}

namespace Moved

theorem refl (h : Owned k sp R W) : Moved k k sp R W pg :=
  ⟨h,fun _ => Or.inl rfl,Or.inl rfl,Or.inl rfl,fun _ _ => rfl,⟨rfl,rfl,rfl⟩⟩

theorem reader_some (h : Moved k k' sp R W pg) (hr : (k'.pipe pg).reader = some j) :
    (k.pipe pg).reader = some j := by
  rcases h.reader with h1 | h1
  · rw [← h1, hr]
  · rw [h1] at hr
    cases hr

theorem writer_some (h : Moved k k' sp R W pg) (hw : (k'.pipe pg).writer = some j) :
    (k.pipe pg).writer = some j := by
  rcases h.writer with h1 | h1
  · rw [← h1, hw]
  · rw [h1] at hw
    cases hw

theorem reader_none (h : Moved k k' sp R W pg) (hr : (k.pipe pg).reader = none) : (k'.pipe pg).reader = none := by
  rcases h.reader with h1 | h1
  · rw [h1, hr]
  · exact h1

theorem writer_none (h : Moved k k' sp R W pg) (hw : (k.pipe pg).writer = none) : (k'.pipe pg).writer = none := by
  rcases h.writer with h1 | h1
  · rw [h1, hw]
  · exact h1

theorem attended (h : Moved k k' sp R W pg) (ha : Attended k sp pg) : Attended k' sp pg := fun j hj => by
  rw [ha j (hj.imp h.reader_some h.writer_some)]
  rcases h.procs j with h1 | ⟨-,ctx,h1⟩
  · rw [h1]
  · rw [h1]

theorem trans (h : Moved k k₁ sp R W pg) (h' : Moved k₁ k' sp R W pg) : Moved k k' sp R W pg where
  owned := h'.owned
  procs j := by
    rcases h'.procs j with h2 | ⟨hw,ctx,h2⟩
    · rcases h.procs j with h1 | ⟨hw,ctx,h1⟩
      · exact Or.inl (h2.trans h1)
      · exact Or.inr ⟨hw.imp (And.imp_right h'.reader_none) (And.imp_right h'.writer_none),ctx,h2.trans h1⟩
    · refine Or.inr ⟨hw.imp (And.imp_left h.reader_some) (And.imp_left h.writer_some),ctx,?_⟩
      rcases h.procs j with h1 | ⟨-,ctx₁,h1⟩
      · rw [h2, h1]
      · rw [h2, h1]
  reader := by
    rcases h'.reader with h2 | h2
    · rw [h2]
      exact h.reader
    · exact Or.inr h2
  writer := by
    rcases h'.writer with h2 | h2
    · rw [h2]
      exact h.writer
    · exact Or.inr h2
  pipe x hx := (h'.pipe x hx).trans (h.pipe x hx)
  globals := ⟨h'.globals.1.trans h.globals.1,h'.globals.2.1.trans h.globals.2.1,
    h'.globals.2.2.trans h.globals.2.2⟩

theorem wake (h : Moved k k₁ sp R W pg) (v : U64) (hj : k₁.procs j = k.procs j)
    (hw : (k.pipe pg).reader = some j ∧ (k₁.pipe pg).reader = none ∨
      (k.pipe pg).writer = some j ∧ (k₁.pipe pg).writer = none) :
    Moved k (k₁.wake j v) sp R W pg where
  owned := ⟨h.owned.mem,h.owned.refs⟩
  procs i := by
    by_cases hi : i = j
    · subst hi
      refine Or.inr ⟨hw,{ (k.procs i).context with rax := v },?_⟩
      rw [Kernel.wake, Kernel.modProc_self, hj]
    · rw [Kernel.wake, Kernel.modProc_ne _ _ _ hi]
      exact h.procs i
  reader := h.reader
  writer := h.writer
  pipe := h.pipe
  globals := h.globals

end Moved

theorem Shifted.moved {q : Pipe} (h : Owned k sp R W) (hsh : Shifted k.phys m k.kPgtbl sp (live R W) pg)
    (href : q.rref = (k.pipe pg).rref ∧ q.wref = (k.pipe pg).wref)
    (hr : q.reader = (k.pipe pg).reader ∨ q.reader = none) (hw : q.writer = (k.pipe pg).writer ∨ q.writer = none) :
    Moved k ((k.setPhys m).setPipe pg q) sp R W pg where
  owned := by
    refine ⟨hsh.inv.withContents _ _,fun x hx => ?_⟩
    by_cases hxp : x = pg
    · rw [hxp, Kernel.setPipe_self, href.1, href.2, ← hxp]
      exact h.refs x hx
    · rw [Kernel.setPipe_ne _ _ _ hxp, Kernel.pipe, Kernel.setPhys_phys, hsh.pipe x hxp]
      exact h.refs x hx
  procs _ := Or.inl rfl
  reader := by rwa [Kernel.setPipe_self]
  writer := by rwa [Kernel.setPipe_self]
  pipe x hx := by
    rw [Kernel.setPipe_ne _ _ _ hx, Kernel.pipe, Kernel.setPhys_phys, hsh.pipe x hx]
    rfl
  globals := ⟨rfl,rfl,rfl⟩

theorem pipeReadCopy_moved (h : Owned k sp R W)
    (hs : sp r = some ((k.procs r).pgtbl,(k.procs r).pPgtbl)) (hc : pipeReadCopy k pg r n = .ok k') :
    Moved k k' sp R W pg ∧ k'.procs = k.procs ∧ (k'.pipe pg).reader = none ∧
      (k'.pipe pg).writer = (k.pipe pg).writer := by
  unfold pipeReadCopy at hc
  obtain ⟨⟨rbuf,m⟩,hu,hc⟩ := bind_eq_ok.mp hc
  obtain ⟨m₁,hl,hc⟩ := bind_eq_ok.mp hc
  cases hc
  have h1 := Shifted.u2k pg h.mem hs hu
  have hsh := h1.trans (pipeReadLoop_shifted h1.inv hs hl)
  obtain ⟨b,hb⟩ := hsh.ring
  have hq : (m₁.pipe pg).rref = (k.pipe pg).rref ∧ (m₁.pipe pg).wref = (k.pipe pg).wref ∧
      (m₁.pipe pg).writer = (k.pipe pg).writer := by
    rw [hb]
    exact ⟨rfl,rfl,rfl⟩
  refine ⟨hsh.moved h ⟨hq.1,hq.2.1⟩ (Or.inr rfl) (Or.inl hq.2.2),rfl,?_,?_⟩
  · rw [Kernel.setPipe_self]
    rfl
  · rw [Kernel.setPipe_self]
    exact hq.2.2

theorem Pipe.given_fields (q : Pipe) (n : ℕ) :
    (q.given n).rref = q.rref ∧ (q.given n).wref = q.wref ∧ (q.given n).reader = q.reader ∧
      (q.given n).writer = if (q.wptr + n) % 2^32 = q.wsiz then none else q.writer := by
  unfold Pipe.given
  simp only
  split
  · exact ⟨rfl,rfl,rfl,rfl⟩
  · exact ⟨rfl,rfl,rfl,rfl⟩

theorem pipeWriteCopy_moved (h : Owned k sp R W)
    (hs : sp w = some ((k.procs w).pgtbl,(k.procs w).pPgtbl)) (hc : pipeWriteCopy k pg w n = .ok k') :
    Moved k k' sp R W pg ∧ k'.procs = k.procs ∧ (k'.pipe pg).reader = (k.pipe pg).reader ∧
      (k'.pipe pg).writer =
        if ((k.pipe pg).wptr + n) % 2^32 = (k.pipe pg).wsiz then none else (k.pipe pg).writer := by
  unfold pipeWriteCopy at hc
  obtain ⟨⟨wbuf,m⟩,hu,hc⟩ := bind_eq_ok.mp hc
  obtain ⟨m₁,hl,hc⟩ := bind_eq_ok.mp hc
  cases hc
  have h1 := Shifted.u2k pg h.mem hs hu
  have hsh := h1.trans (pipeWriteLoop_shifted h1.inv hs hl)
  obtain ⟨b,hb⟩ := hsh.ring
  obtain ⟨g1,g2,g3,g4⟩ := (m₁.pipe pg).given_fields n
  have hq : (m₁.pipe pg).rref = (k.pipe pg).rref ∧ (m₁.pipe pg).wref = (k.pipe pg).wref ∧
      (m₁.pipe pg).reader = (k.pipe pg).reader ∧ (m₁.pipe pg).writer = (k.pipe pg).writer ∧
      (m₁.pipe pg).wptr = (k.pipe pg).wptr ∧ (m₁.pipe pg).wsiz = (k.pipe pg).wsiz := by
    rw [hb]
    exact ⟨rfl,rfl,rfl,rfl,rfl,rfl⟩
  rw [hq.2.2.2.1, hq.2.2.2.2.1, hq.2.2.2.2.2] at g4
  refine ⟨hsh.moved h ⟨g1.trans hq.1,g2.trans hq.2.1⟩ (Or.inl (g3.trans hq.2.2.1)) ?_,rfl,?_,?_⟩
  · rw [g4]
    split
    · exact Or.inr rfl
    · exact Or.inl rfl
  · rw [Kernel.setPipe_self]
    exact g3.trans hq.2.2.1
  · rw [Kernel.setPipe_self]
    exact g4

/-- What a call of `pipe_read` or `pipe_write` is allowed to do, at one depth of the calls. -/
def Serves (depth : ℕ) (sp : Spaces) (R W : ℕ → ℕ) (pg : ℕ) : Prop :=
  ∀ k k' n invoke, Owned k sp R W → Attended k sp pg →
    (pipeRead depth k pg invoke = .ok (n,k') → Moved k k' sp R W pg) ∧
    (pipeWrite depth k pg invoke = .ok (n,k') → Moved k k' sp R W pg)

theorem pipeRead_copy {depth : ℕ} {invoke : Bool} (hd : Serves depth sp R W pg) (h : Owned k sp R W)
    (ha : Attended k sp pg) (hp : pipeRead (depth+1) k pg invoke = .ok (n,k')) :
    n = (k.pipe pg).readSize ∧ Moved k k' sp R W pg ∧ (n ≠ 0 → (k'.pipe pg).reader = none) ∧
      (invoke = false → ∀ j, (k.pipe pg).writer ≠ some j → k'.procs j = k.procs j) := by
  unfold pipeRead at hp
  simp only at hp
  split at hp
  · rename_i h0
    cases hp
    exact ⟨h0.symm,.refl h,fun hne => absurd rfl hne,fun _ _ _ => rfl⟩
  split at hp
  · cases hp
  rename_i r hr
  obtain ⟨k₁,hc,hp⟩ := bind_eq_ok.mp hp
  obtain ⟨hm,hprocs,hrd,hwr⟩ := pipeReadCopy_moved h (ha r (Or.inl hr)) hc
  obtain ⟨k₂,hk₂⟩ : ∃ k₂, k₂ = if invoke = true then k₁.wake r (BitVec.ofNat 64 (k.pipe pg).readSize) else k₁ := ⟨_,rfl⟩
  rw [← hk₂] at hp
  have hm₂ : Moved k k₂ sp R W pg ∧ (k₂.pipe pg).reader = none ∧ (k₂.pipe pg).writer = (k.pipe pg).writer := by
    rw [hk₂]
    split
    · exact ⟨hm.wake _ (by rw [hprocs]) (Or.inl ⟨hr,hrd⟩),hrd,hwr⟩
    · exact ⟨hm,hrd,hwr⟩
  have hself : invoke = false → k₂.procs = k.procs := fun hi => by
    rw [hk₂, hi]
    exact hprocs
  split at hp
  · obtain ⟨⟨n',k₃⟩,hw,hp⟩ := bind_eq_ok.mp hp
    cases hp
    have hm₃ := (hd k₂ k₃ n' true hm₂.1.owned (hm₂.1.attended ha)).2 hw
    refine ⟨rfl,hm₂.1.trans hm₃,fun _ => hm₃.reader_none hm₂.2.1,fun hi j hj => ?_⟩
    rcases hm₃.procs j with h1 | ⟨⟨h1,-⟩ | ⟨h1,-⟩,-⟩
    · rw [h1, hself hi]
    · rw [hm₂.2.1] at h1
      cases h1
    · rw [hm₂.2.2] at h1
      exact absurd h1 hj
  · cases hp
    exact ⟨rfl,hm₂.1,fun _ => hm₂.2.1,fun hi j _ => by rw [hself hi]⟩

theorem pipeWrite_copy {depth : ℕ} {invoke : Bool} (hd : Serves depth sp R W pg) (h : Owned k sp R W)
    (ha : Attended k sp pg) (hp : pipeWrite (depth+1) k pg invoke = .ok (n,k')) :
    n = (k.pipe pg).writeSize ∧ Moved k k' sp R W pg ∧
      (n ≠ 0 → ((k.pipe pg).wptr + n) % 2^32 = (k.pipe pg).wsiz → (k'.pipe pg).writer = none ∧
        (invoke = false → ∀ j, (k.pipe pg).reader ≠ some j → k'.procs j = k.procs j)) := by
  unfold pipeWrite at hp
  simp only at hp
  split at hp
  · rename_i h0
    cases hp
    exact ⟨h0.symm,.refl h,fun hne => absurd rfl hne⟩
  split at hp
  · cases hp
  rename_i w hw
  obtain ⟨k₁,hc,hp⟩ := bind_eq_ok.mp hp
  obtain ⟨hm,hprocs,hrd,hwr⟩ := pipeWriteCopy_moved h (ha w (Or.inr hw)) hc
  obtain ⟨k₂,hk₂⟩ : ∃ k₂, k₂ = if invoke = true ∧ ((k.pipe pg).wptr + (k.pipe pg).writeSize) % 2^32 = (k.pipe pg).wsiz
    then k₁.wake w (BitVec.ofNat 64 (k.pipe pg).wsiz) else k₁ := ⟨_,rfl⟩
  rw [← hk₂] at hp
  have hm₂ : Moved k k₂ sp R W pg ∧ (k₂.pipe pg).writer = (k₁.pipe pg).writer ∧
      (k₂.pipe pg).reader = (k.pipe pg).reader := by
    rw [hk₂]
    split
    · rename_i hfull
      exact ⟨hm.wake _ (by rw [hprocs]) (Or.inr ⟨hw,by rw [hwr, if_pos hfull.2]⟩),rfl,hrd⟩
    · exact ⟨hm,rfl,hrd⟩
  have hself : invoke = false → k₂.procs = k.procs := fun hi => by
    rw [hk₂, hi, if_neg (by simp)]
    exact hprocs
  split at hp
  · obtain ⟨⟨n',k₃⟩,hr,hp⟩ := bind_eq_ok.mp hp
    cases hp
    have hm₃ := (hd k₂ k₃ n' true hm₂.1.owned (hm₂.1.attended ha)).1 hr
    refine ⟨rfl,hm₂.1.trans hm₃,fun _ hfull => ?_⟩
    have hnone : (k₂.pipe pg).writer = none := by rw [hm₂.2.1, hwr, if_pos hfull]
    refine ⟨hm₃.writer_none hnone,fun hi j hj => ?_⟩
    rcases hm₃.procs j with h1 | ⟨⟨h1,-⟩ | ⟨h1,-⟩,-⟩
    · rw [h1, hself hi]
    · rw [hm₂.2.2] at h1
      exact absurd h1 hj
    · rw [hnone] at h1
      cases h1
  · cases hp
    exact ⟨rfl,hm₂.1,fun _ hfull => ⟨by rw [hm₂.2.1, hwr, if_pos hfull],fun hi j _ => by rw [hself hi]⟩⟩

theorem serves (depth : ℕ) : Serves depth sp R W pg := by
  induction depth with
  | zero => exact fun _ _ _ _ _ _ => ⟨nofun,nofun⟩
  | succ depth ih =>
    exact fun k k' n invoke h ha => ⟨fun hp => (pipeRead_copy ih h ha hp).2.1,fun hp => (pipeWrite_copy ih h ha hp).2.1⟩

end Served

/-- Process `c` served a pipe: others were woken if they were blocked, and `c` itself may
have been entered for `a₀`. -/
structure Settled (k k' : Kernel) (c : Slot) (a₀ : Cause) : Prop where
  inv : KInv k'
  others : ∀ j ≠ c, (k'.procs j).state = (k.procs j).state ∨
    (k.procs j).state = .pending ∧ (k'.procs j).state = .ready ∧ Spare k' j
  sub : ∀ a r, Registered k' a r → Registered k a r ∧ r ≠ c ∨ a = a₀ ∧ r = c
  cur : k'.curproc = k.curproc

namespace Settled
variable {a₀ : Cause}

theorem dead (h : Settled k k' c a₀) (hs : Sys k c) (hj : Dead k j) : Dead k' j := by
  rcases h.others j (hs.dead_ne hj) with h1 | ⟨h1,-⟩
  · simpa only [Dead,h1] using hj
  · rcases hj with hj | hj <;> simp [h1] at hj

theorem running (h : Settled k k' c a₀) (hs : Sys k c) (hj : j ≠ c) : (k'.procs j).state ≠ .running := fun hr => by
  rcases h.others j hj with h1 | ⟨-,h1,-⟩
  · rw [h1, hs.running] at hr
    exact hj hr
  · rw [h1] at hr
    cases hr

theorem kept (h : Settled k k' c a₀) (ha : Registered k' a r) (hr : r ≠ c) :
    (k'.procs r).state = (k.procs r).state := by
  rcases h.others r hr with h1 | ⟨-,-,h1⟩
  · exact h1
  · exact absurd ha (h1 a)

theorem sys (h : Settled k k' c a₀) (hs : Sys k c) (hc : (k'.procs c).state = .running) (hsp : Spare k' c) :
    Sys k' c where
  inv := h.inv
  reg := by
    have hne : ∀ a r, Registered k' a r → r ≠ c := by
      rintro a r ha rfl
      exact hsp a ha
    refine hs.reg.of_sub (fun a r ha => ?_) fun a r ha => h.kept ha (hne a r ha)
    rcases h.sub a r ha with h1 | ⟨-,h1⟩
    · exact h1.1
    · exact absurd h1 (hne a r ha)
  cur := h.cur.trans hs.cur
  running j := by
    by_cases hj : j = c
    · simp [hj,hc]
    · simp [hj,h.running hs hj]

theorem parked (h : Settled k k' c a₀) (hs : Sys k c) (hc : (k'.procs c).state = .pending) : Parked k' where
  inv := h.inv
  reg := hs.reg.of_block a₀ h.sub (fun _ _ ha hr => h.kept ha hr) hc
  idle j := by
    by_cases hj : j = c
    · rw [hj, hc]
      nofun
    · exact h.running hs hj

theorem block (h : Settled k k' c a₀) (hc : (k'.procs c).state ≠ .close) (tf : Context) :
    Settled k (k'.block c tf) c a₀ := by
  have hl : (k'.procs c).Like { k'.procs c with context := tf, state := .pending } := ⟨rfl,rfl,rfl,by simp [hc]⟩
  have hreg : ∀ {a r}, Registered (k'.block c tf) a r ↔ Registered k' a r := registered_modProc hl rfl
  refine ⟨h.inv.modProc hl fun _ => by rintro ⟨⟩,fun j hj => ?_,fun a r ha => h.sub a r (hreg.mp ha),h.cur⟩
  rw [Kernel.block, Kernel.modProc_ne _ _ _ hj]
  rcases h.others j hj with he | ⟨h1,h2,h3⟩
  · exact Or.inl he
  · exact Or.inr ⟨h1,h2,fun a ha => h3 a (hreg.mp ha)⟩

end Settled

section Entry
variable {q : Pipe} {a₀ : Cause}

theorem Moved.settled (h : Sys k c) (hq : q.rref = (k.pipe pg).rref ∧ q.wref = (k.pipe pg).wref)
    (hr : ∀ j, q.reader = some j → Registered k (.read pg) j ∨ .read pg = a₀ ∧ j = c)
    (hw : ∀ j, q.writer = some j → Registered k (.write pg) j ∨ .write pg = a₀ ∧ j = c)
    (hm : Moved (k.setPipe pg q) k₁ (spaces k) (ends k .rpipe) (ends k .wpipe) pg) : Settled k k₁ c a₀ := by
  have hq₀ : (k.setPipe pg q).pipe pg = q := Kernel.setPipe_self ..
  have hopen : ∀ j, q.reader = some j ∨ q.writer = some j → j ≠ c → ∃ a, (a = .read pg ∨ a = .write pg) ∧
      Registered k a j := by
    rintro j (hj | hj) hne
    · exact ⟨_,Or.inl rfl,(hr j hj).resolve_right fun hh => hne hh.2⟩
    · exact ⟨_,Or.inr rfl,(hw j hj).resolve_right fun hh => hne hh.2⟩
  have hlike : ∀ j, (k.procs j).Like (k₁.procs j) ∧ (k₁.procs j).waiting = (k.procs j).waiting := fun j => by
    rcases hm.procs j with h1 | ⟨h1,ctx,h2⟩
    · rw [h1]
      exact ⟨⟨rfl,rfl,rfl,Iff.rfl⟩,rfl⟩
    · have hst : (k.procs j).state ≠ .close := by
        by_cases hj : j = c
        · rw [hj]
          exact h.open
        · rw [hq₀] at h1
          obtain ⟨a,-,ha⟩ := hopen j (h1.imp And.left And.left) hj
          rw [h.reg.pending a j ha]
          nofun
      rw [h2]
      exact ⟨⟨rfl,rfl,rfl,nofun,fun hcl => absurd hcl hst⟩,rfl⟩
  have hends := ends_congr fun j => (hlike j).1
  have hsp : spaces k₁ = spaces k := funext fun j => by
    simp only [spaces,spaceOf,(hlike j).1.pgtbl,(hlike j).1.pPgtbl,(hlike j).1.close]
  have hinv : KInv k₁ := by
    refine ⟨⟨?_,?_⟩,fun j hj => ?_⟩
    · rw [hends, hsp]
      exact hm.owned.mem
    · rw [hends]
      exact hm.owned.refs
    · have hcl := h.inv.closed j ((hlike j).1.close.mp hj)
      rw [(hlike j).1.pgtbl, (hlike j).2, (hlike j).1.fdesc]
      exact hcl
  have hsub : ∀ a r, Registered k₁ a r → Registered k a r ∨ a = a₀ ∧ r = c := fun a r ha => by
    cases a with
    | kbd => exact Or.inl (hm.globals.2.2.symm.trans ha)
    | wait => exact Or.inl ((hlike r).2.symm.trans ha)
    | read x =>
      obtain ⟨h1,h2⟩ := ha
      by_cases hx : x = pg
      · subst hx
        have h3 := hm.reader_some h2
        rw [hq₀] at h3
        exact hr r h3
      · rw [hends] at h1
        rw [hm.pipe x hx, Kernel.setPipe_ne _ _ _ hx] at h2
        exact Or.inl ⟨h1,h2⟩
    | write x =>
      obtain ⟨h1,h2⟩ := ha
      by_cases hx : x = pg
      · subst hx
        have h3 := hm.writer_some h2
        rw [hq₀] at h3
        exact hw r h3
      · rw [hends] at h1
        rw [hm.pipe x hx, Kernel.setPipe_ne _ _ _ hx] at h2
        exact Or.inl ⟨h1,h2⟩
  refine ⟨hinv,fun j hj => ?_,fun a r ha => ?_,hm.globals.2.1⟩
  · rcases hm.procs j with h1 | ⟨h1,ctx,h2⟩
    · exact Or.inl (by rw [h1]; rfl)
    · rw [hq₀] at h1
      obtain ⟨a,-,hold⟩ := hopen j (h1.imp And.left And.left) hj
      refine Or.inr ⟨h.reg.pending a j hold,by rw [h2],fun b hb => ?_⟩
      have hb' := (hsub b j hb).resolve_right fun hh => hj hh.2
      rcases h1 with ⟨h1,h3⟩ | ⟨h1,h3⟩
      · have heq := h.reg.unique b (.read pg) j hb' ((hr j h1).resolve_right fun hh => hj hh.2)
        subst heq
        rw [hb.2] at h3
        cases h3
      · have heq := h.reg.unique b (.write pg) j hb' ((hw j h1).resolve_right fun hh => hj hh.2)
        subst heq
        rw [hb.2] at h3
        cases h3
  · refine (hsub a r ha).imp (fun h1 => ⟨h1,?_⟩) id
    rintro rfl
    exact h.spare a h1

theorem Owned.setPipe {R W : ℕ → ℕ} (h : Owned k sp R W)
    (hq : q.rref = (k.pipe pg).rref ∧ q.wref = (k.pipe pg).wref) : Owned (k.setPipe pg q) sp R W := by
  refine ⟨h.mem.withContents _ _,fun x hx => ?_⟩
  by_cases hxp : x = pg
  · rw [hxp, Kernel.setPipe_self, hq.1, hq.2, ← hxp]
    exact h.refs x hx
  · rw [Kernel.setPipe_ne _ _ _ hxp]
    exact h.refs x hx

theorem Sys.attended (h : Sys k c) (hr : ∀ j, q.reader = some j → Registered k (.read pg) j ∨ .read pg = a₀ ∧ j = c)
    (hw : ∀ j, q.writer = some j → Registered k (.write pg) j ∨ .write pg = a₀ ∧ j = c) :
    Attended (k.setPipe pg q) (spaces k) pg := fun j hj => by
  rw [Kernel.setPipe_self] at hj
  refine spaces_some ?_
  have hopen : ∀ a, Registered k a j ∨ a = a₀ ∧ j = c → (k.procs j).state ≠ .close := by
    rintro a (ha | ⟨-,rfl⟩)
    · rw [h.reg.pending a j ha]
      nofun
    · exact h.open
  exact hj.elim (fun h1 => hopen _ (hr j h1)) fun h1 => hopen _ (hw j h1)

end Entry

/-- Bytes read as a `u32` number of them is not zero, unless the pipe is empty. -/
def ReadsSome (k : Kernel) (pg : ℕ) (tf : Context) : Prop := 0 < (k.pipe pg).len → tf.rbx.toNat % 2^32 ≠ 0

theorem readPipe_stepped (h : Sys k c) (hpg : ends k .rpipe pg ≠ 0) (hsz : ReadsSome k pg tf)
    (hs : readPipe k c pg tf = .ok o) : Stepped k S o := by
  unfold readPipe at hs
  split at hs
  · exact (Returned.done (.refl h.inv) hs).stepped h
  obtain ⟨q,hq⟩ : ∃ q, q = { k.pipe pg with
    reader := some c, rsiz := tf.rbx.toNat % 2^32, rbuf := tf.rcx.toNat } := ⟨_,rfl⟩
  simp only at hs
  rw [← hq] at hs
  have hself : (k.setPipe pg q).pipe pg = q := Kernel.setPipe_self ..
  have href : q.rref = (k.pipe pg).rref ∧ q.wref = (k.pipe pg).wref := by
    rw [hq]
    exact ⟨rfl,rfl⟩
  have hr : ∀ j, q.reader = some j → Registered k (.read pg) j ∨ Cause.read pg = .read pg ∧ j = c := fun j hj => by
    rw [hq] at hj
    exact Or.inr ⟨rfl,(Option.some.inj hj).symm⟩
  have hw : ∀ j, q.writer = some j → Registered k (.write pg) j ∨ Cause.write pg = .read pg ∧ j = c := fun j hj => by
    rw [hq] at hj
    exact Or.inl ⟨by omega,hj⟩
  have hwc : q.writer ≠ some c := fun hwc => (hw c hwc).elim (h.spare _) fun hh => by cases hh.1
  have hown := h.inv.owned.setPipe href
  have hat := h.attended hr hw
  have hset := Moved.settled h href hr hw (.refl hown)
  rw [hself] at hs
  split at hs
  · rename_i hlen
    obtain ⟨⟨n,k₁⟩,hp,hs⟩ := bind_eq_ok.mp hs
    cases hs
    obtain ⟨hn,hm,hrd,hkeep⟩ := pipeRead_copy (serves 2) hown hat hp
    rw [hself] at hn hkeep
    have hn0 : n ≠ 0 := by
      have h1 : 0 < q.len := hlen
      have h2 : q.rsiz ≠ 0 := by
        rw [hq] at h1 ⊢
        exact hsz h1
      rw [hn, Pipe.readSize]
      omega
    have hset₁ := hm.settled h href hr hw
    refine ⟨⟨c,hset₁.sys h ?_ fun a ha => ?_⟩,fun j hj => Or.inl (hset₁.dead h hj)⟩
    · rw [hkeep rfl c hwc]
      exact h.state
    · rcases hset₁.sub a c ha with h1 | ⟨rfl,-⟩
      · exact h1.2 rfl
      · have h2 := ha.2
        rw [hrd hn0] at h2
        cases h2
  split at hs
  · rename_i hwref
    cases hs
    -- end of file: the entry stays, but nobody can write to the pipe any more
    refine ⟨⟨c,hset.sys h h.state fun a ha => ?_⟩,fun j hj => Or.inl (hset.dead h hj)⟩
    rcases hset.sub a c ha with h1 | ⟨rfl,-⟩
    · exact h1.2 rfl
    · have h1 := (h.inv.owned.refs pg (by omega)).2
      rw [← href.2, hwref] at h1
      exact ha.1 h1.symm
  · have hb := hset.block h.open tf
    exact .of_sched (hb.parked h (by rw [Kernel.block, Kernel.modProc_self])) (fun j hj => Or.inl (hb.dead h hj)) hs

theorem writePipe_stepped (h : Sys k c) (hpg : ends k .wpipe pg ≠ 0) (hb0 : tf.rbx ≠ 0)
    (hs : writePipe k c pg tf = .ok o) : Stepped k S o := by
  unfold writePipe at hs
  split at hs
  · exact (Returned.done (.refl h.inv) hs).stepped h
  obtain ⟨q,hq⟩ : ∃ q, q = { k.pipe pg with
    writer := some c, wsiz := tf.rbx.toNat % 2^32, wptr := 0, wbuf := tf.rcx.toNat } := ⟨_,rfl⟩
  simp only at hs
  rw [← hq] at hs
  have hself : (k.setPipe pg q).pipe pg = q := Kernel.setPipe_self ..
  have href : q.rref = (k.pipe pg).rref ∧ q.wref = (k.pipe pg).wref := by
    rw [hq]
    exact ⟨rfl,rfl⟩
  have hr : ∀ j, q.reader = some j → Registered k (.read pg) j ∨ Cause.read pg = .write pg ∧ j = c := fun j hj => by
    rw [hq] at hj
    exact Or.inl ⟨hpg,hj⟩
  have hw : ∀ j, q.writer = some j → Registered k (.write pg) j ∨ Cause.write pg = .write pg ∧ j = c := fun j hj => by
    rw [hq] at hj
    exact Or.inr ⟨rfl,(Option.some.inj hj).symm⟩
  have hrc : q.reader ≠ some c := fun hrc => (hr c hrc).elim (h.spare _) fun hh => by cases hh.1
  have hown := h.inv.owned.setPipe href
  have hat := h.attended hr hw
  obtain ⟨⟨n,k₁⟩,hp,hs⟩ := bind_eq_ok.mp hs
  obtain ⟨hn,hm,hdone⟩ := pipeWrite_copy (serves 2) hown hat hp
  rw [hself] at hn hdone
  have hset := hm.settled h href hr hw
  simp only at hs
  split at hs
  · cases hs
  split at hs
  · rename_i hle heq
    cases hs
    -- everything was taken at once, so the count fits in 32 bits
    have hlt : n < 2^32 := by
      rw [hn, Pipe.writeSize]
      exact Nat.mod_lt _ (by norm_num)
    have hn0 : n ≠ 0 := by
      rw [heq]
      simpa [← BitVec.toNat_inj] using hb0
    have hfull : (q.wptr + n) % 2^32 = q.wsiz := by
      rw [hq, ← heq, Nat.zero_add]
    obtain ⟨hnone,hkeep⟩ := hdone hn0 hfull
    refine ⟨⟨c,hset.sys h ?_ fun a ha => ?_⟩,fun j hj => Or.inl (hset.dead h hj)⟩
    · rw [hkeep rfl c hrc]
      exact h.state
    · rcases hset.sub a c ha with h1 | ⟨rfl,-⟩
      · exact h1.2 rfl
      · have h2 := ha.2
        rw [hnone] at h2
        cases h2
  · have hopen : (k₁.procs c).state ≠ .close := by
      rcases hm.procs c with h1 | ⟨-,ctx,h1⟩
      · rw [h1]
        exact h.open
      · rw [h1]
        nofun
    have hb := hset.block hopen tf
    exact .of_sched (hb.parked h (by rw [Kernel.block, Kernel.modProc_self])) (fun j hj => Or.inl (hb.dead h hj)) hs

end Ukern
