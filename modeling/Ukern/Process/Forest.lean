import Ukern.Lib.Forest
import Ukern.Process.Zombies

/-! # The process forest

What the family pointers are meant to say, and when an exit keeps it. `exit_as_child` takes a process out of
the list of living children only if the parent waits for it: otherwise the zombie stays on that list, and an
orphan is cleared while its siblings still point to it.
-/
namespace Ukern
open Lib
variable {k k' k₁ : Kernel} {c i j n p pa : Slot} {l : List Slot} {S : Slot → Prop} {tf : Context} {o : Outcome} {v : U64}

def Kernel.prev (k : Kernel) (c : Slot) : Option Slot := (k.procs c).prevSibling

/-- Process `p` has `l` as its living children and `z` as its zombies. -/
structure Kernel.Lists (k : Kernel) (p : Slot) (l z : List Slot) : Prop where
  living : DChain k.next k.prev none (k.procs p).livingChild l
  zombies : Chain k.next (k.procs p).zombieChild z
  nodup : l.Nodup ∧ z.Nodup
  mem_living : ∀ j, j ∈ l ↔ (k.procs j).parent = some p ∧ ¬ Dead k j
  mem_zombies : ∀ j, j ∈ z ↔ (k.procs j).parent = some p ∧ (k.procs j).state = .zombie
  disjoint : l.Disjoint z

/-- Both lists of every process are what they are meant to be, and no pointer leads to a closed slot. -/
structure Forest (k : Kernel) : Prop where
  lists : ∀ p, (k.procs p).state ≠ .close → ∃ l z, k.Lists p l z
  parent : ∀ j p, (k.procs j).state ≠ .close → (k.procs j).parent = some p → (k.procs p).state ≠ .close
  sibling : ∀ j s, (k.procs j).state ≠ .close → k.next j = some s ∨ k.prev j = some s → (k.procs s).state ≠ .close

/-- Process `c` can exit without a trace: its parent waits for it, or it has none and nobody is its sibling. -/
def Parting (k : Kernel) (c : Slot) : Prop :=
  (∃ pa, (k.procs c).parent = some pa ∧ (k.procs pa).waiting = true) ∨
    (k.procs c).parent = none ∧ ∀ j ≠ c, k.next j ≠ some c ∧ k.prev j ≠ some c

def Kernel.family (k : Kernel) : Family Slot where
  parent j := (k.procs j).parent
  child j := (k.procs j).livingChild
  prev := k.prev
  next := k.next

/-- The forest without zombies. -/
structure FInv (k : Kernel) : Prop where
  sound : k.family.Sound fun j => (k.procs j).state ≠ .close
  empty : ∀ j, (k.procs j).zombieChild = none
  alive : ∀ j, (k.procs j).state ≠ .zombie

theorem FInv.dead_iff (h : FInv k) (j : Slot) : Dead k j ↔ (k.procs j).state = .close := or_iff_left (h.alive j)

theorem FInv.forest (h : FInv k) : Forest k where
  lists p hp := by
    obtain ⟨l,hl,hmem⟩ := h.sound.children p hp
    refine ⟨l,[],hl,h.empty p,⟨hl.chain.nodup,List.nodup_nil⟩,fun j => ?_,fun j => ?_,List.disjoint_nil_right l⟩
    · rw [hmem j, h.dead_iff]
      refine ⟨fun hj => ⟨hj,h.sound.live_of_parent ?_⟩,fun hj => hj.1⟩
      rw [hj]
      exact Option.some_ne_none p
    · exact iff_of_false List.not_mem_nil fun hj => h.alive j hj.2
  parent j p _ hj := h.sound.parent j p hj
  sibling j s _ hj := (h.sound.kin j s hj).1

/-! ## Steps that leave the family alone -/

theorem family_congr (h : ∀ j, (k'.procs j).links = (k.procs j).links) : k'.family = k.family := by
  simp only [Kernel.family,Family.mk.injEq]
  exact ⟨funext fun j => congrArg Links.parent (h j),funext fun j => congrArg Links.livingChild (h j),
    funext fun j => congrArg Links.prevSibling (h j),funext fun j => congrArg Links.nextSibling (h j)⟩

theorem FInv.congr (h : FInv k) (hl : ∀ j, (k'.procs j).links = (k.procs j).links)
    (hc : ∀ j, (k'.procs j).state = .close ↔ (k.procs j).state = .close)
    (hz : ∀ j, (k'.procs j).state = .zombie ↔ (k.procs j).state = .zombie) : FInv k' where
  sound := by
    have hlive : (fun j => (k'.procs j).state ≠ .close) = fun j => (k.procs j).state ≠ .close :=
      funext fun j => propext (not_congr (hc j))
    rw [family_congr hl, hlive]
    exact h.sound
  empty j := (congrArg Links.zombieChild (hl j)).trans (h.empty j)
  alive j hj := h.alive j ((hz j).mp hj)

theorem Kindred.finv (h : Kindred k k') (hf : FInv k) : FInv k' := hf.congr h.links h.close h.zombie

theorem Kindred.forest (h : Kindred k k') (hf : Forest k') : Forest k := by
  have hfam := family_congr h.links
  have hnext : k'.next = k.next := congrArg Family.next hfam
  have hprev : k'.prev = k.prev := congrArg Family.prev hfam
  have hpar : ∀ j, (k'.procs j).parent = (k.procs j).parent := fun j => congrArg Links.parent (h.links j)
  have hliv : ∀ j, (k'.procs j).livingChild = (k.procs j).livingChild := fun j => congrArg Links.livingChild (h.links j)
  have hdead : ∀ j, Dead k' j ↔ Dead k j := fun j => or_congr (h.close j) (h.zombie j)
  refine ⟨fun p hp => ?_,fun j p hj hjp => ?_,fun j s hj hjs => ?_⟩
  · obtain ⟨l,z,hl,hz,hnd,hml,hmz,hdis⟩ := hf.lists p (fun hc => hp ((h.close p).mp hc))
    rw [hnext, hprev, hliv] at hl
    rw [hnext, h.zombieChild] at hz
    exact ⟨l,z,hl,hz,hnd,fun j => by rw [hml, hpar, hdead],fun j => by rw [hmz, hpar, h.zombie],hdis⟩
  · exact fun hc => hf.parent j p (fun hc => hj ((h.close j).mp hc)) ((hpar j).trans hjp) ((h.close p).mpr hc)
  · rw [← hnext, ← hprev] at hjs
    exact fun hc => hf.sibling j s (fun hc => hj ((h.close j).mp hc)) hjs ((h.close s).mpr hc)

theorem Kindred.of_woken (h : ∀ j, k'.procs j = k.procs j ∨ ¬ Dead k j ∧ ∃ ctx, k'.procs j =
    { k.procs j with context := ctx, state := .ready }) : Kindred k k' := by
  refine ⟨fun j => ?_,fun j => ?_,fun j => ?_,fun j => ?_⟩
  · rcases h j with he | ⟨-,ctx,he⟩
    · rw [he]
    · rw [he]
      rfl
  · rcases h j with he | ⟨hd,ctx,he⟩
    · rw [he]
    · rw [he]
      exact iff_of_false (by rintro ⟨⟩) fun hc => hd (Or.inl hc)
  · rcases h j with he | ⟨hd,ctx,he⟩
    · rw [he]
    · rw [he]
      exact iff_of_false (by rintro ⟨⟩) fun hz => hd (Or.inr hz)
  · rcases h j with he | ⟨-,ctx,he⟩
    · rw [he]
    · rw [he]

theorem not_dead_of_pending (h : (k.procs j).state = .pending) : ¬ Dead k j := by
  rintro (hd | hd)
  · rw [h] at hd
    cases hd
  · rw [h] at hd
    cases hd

theorem Kindred.setFdesc (hc : ¬ Dead k c) (fd : ℕ) (f : FileDesc) : Kindred k (k.setFdesc c fd f) := by
  unfold Kernel.setFdesc
  refine .modProc rfl rfl hc ?_
  simpa only [Dead,not_or] using hc

theorem close_kindred (h : Sys k c) (hs : sysClose k c tf = .ok o) : Kindred k o.kernel := by
  unfold sysClose at hs
  split at hs
  · exact (Returned.done (.refl h.inv) hs).kindred
  rename_i fd hfd
  simp only at hs
  split at hs
  · exact (Returned.done (.refl h.inv) hs).kindred
  rename_i hu
  obtain ⟨k₁,hdrop,hs⟩ := bind_eq_ok.mp hs
  split at hs
  · cases hs
  cases hs
  obtain ⟨hd,hself,-⟩ := h.dropFdesc (fdOf_lt hfd) rfl (by simpa using hu) hdrop
  have hwoken : Kindred k k₁ := by
    refine .of_woken fun j => ?_
    rcases hd.wokenPending h j with he | ⟨-,hp,hctx⟩
    · exact Or.inl he
    · exact Or.inr ⟨not_dead_of_pending hp,hctx⟩
  have hc₁ : ¬ Dead k₁ c := by
    rw [Dead, hself]
    exact h.not_dead
  exact hwoken.trans (.setFdesc hc₁ _ _)

section Pipes
variable {q : Pipe} {pg : ℕ} {a₀ : Cause}

theorem Moved.kindred (h : Sys k c) (hr : ∀ j, q.reader = some j → Registered k (.read pg) j ∨ .read pg = a₀ ∧ j = c)
    (hw : ∀ j, q.writer = some j → Registered k (.write pg) j ∨ .write pg = a₀ ∧ j = c)
    (hm : Moved (k.setPipe pg q) k₁ (spaces k) (ends k .rpipe) (ends k .wpipe) pg) : Kindred k k₁ := by
  have hself : (k.setPipe pg q).pipe pg = q := Kernel.setPipe_self ..
  have hlive : ∀ {a : Cause} {j : Slot}, Registered k a j ∨ a = a₀ ∧ j = c → ¬ Dead k j := by
    rintro a j (ha | ⟨-,rfl⟩)
    · exact not_dead_of_pending (h.reg.pending a j ha)
    · exact h.not_dead
  refine .of_woken fun j => ?_
  rcases hm.procs j with he | ⟨hj,hctx⟩
  · exact Or.inl he
  · rw [hself] at hj
    rcases hj with ⟨hj,-⟩ | ⟨hj,-⟩
    · exact Or.inr ⟨hlive (hr j hj),hctx⟩
    · exact Or.inr ⟨hlive (hw j hj),hctx⟩

theorem Kindred.block (h : Kindred k k₁) (hc : ¬ Dead k c) (hs : (k₁.block c tf).sched = .ok o) : Kindred k o.kernel := by
  have hc₁ : ¬ Dead k₁ c := fun hd => hc (hd.imp (h.close c).mp (h.zombie c).mp)
  exact (h.trans (.modProc rfl rfl hc₁ ⟨by rintro ⟨⟩,by rintro ⟨⟩⟩)).sched hs

theorem readPipe_kindred (h : Sys k c) (hpg : ends k .rpipe pg ≠ 0) (hs : readPipe k c pg tf = .ok o) :
    Kindred k o.kernel := by
  unfold readPipe at hs
  split at hs
  · exact (Returned.done (.refl h.inv) hs).kindred
  obtain ⟨q,hq⟩ : ∃ q, q = { k.pipe pg with
    reader := some c, rsiz := tf.rbx.toNat % 2^32, rbuf := tf.rcx.toNat } := ⟨_,rfl⟩
  simp only at hs
  rw [← hq] at hs
  have href : q.rref = (k.pipe pg).rref ∧ q.wref = (k.pipe pg).wref := by
    rw [hq]
    exact ⟨rfl,rfl⟩
  have hr : ∀ j, q.reader = some j → Registered k (.read pg) j ∨ Cause.read pg = .read pg ∧ j = c := fun j hj => by
    rw [hq] at hj
    exact Or.inr ⟨rfl,(Option.some.inj hj).symm⟩
  have hw : ∀ j, q.writer = some j → Registered k (.write pg) j ∨ Cause.write pg = .read pg ∧ j = c := fun j hj => by
    rw [hq] at hj
    exact Or.inl ⟨by omega,hj⟩
  have hown := h.inv.owned.setPipe href
  have hentered : Kindred k (k.setPipe pg q) := .of_procs fun _ => rfl
  split at hs
  · obtain ⟨⟨n,k₁⟩,hp,hs⟩ := bind_eq_ok.mp hs
    cases hs
    exact (pipeRead_copy (serves 2) hown (h.attended hr hw) hp).2.1.kindred h hr hw
  split at hs
  · cases hs
    exact hentered
  · exact hentered.block h.not_dead hs

theorem writePipe_kindred (h : Sys k c) (hpg : ends k .wpipe pg ≠ 0) (hs : writePipe k c pg tf = .ok o) :
    Kindred k o.kernel := by
  unfold writePipe at hs
  split at hs
  · exact (Returned.done (.refl h.inv) hs).kindred
  obtain ⟨q,hq⟩ : ∃ q, q = { k.pipe pg with
    writer := some c, wsiz := tf.rbx.toNat % 2^32, wptr := 0, wbuf := tf.rcx.toNat } := ⟨_,rfl⟩
  simp only at hs
  rw [← hq] at hs
  have href : q.rref = (k.pipe pg).rref ∧ q.wref = (k.pipe pg).wref := by
    rw [hq]
    exact ⟨rfl,rfl⟩
  have hr : ∀ j, q.reader = some j → Registered k (.read pg) j ∨ Cause.read pg = .write pg ∧ j = c := fun j hj => by
    rw [hq] at hj
    exact Or.inl ⟨hpg,hj⟩
  have hw : ∀ j, q.writer = some j → Registered k (.write pg) j ∨ Cause.write pg = .write pg ∧ j = c := fun j hj => by
    rw [hq] at hj
    exact Or.inr ⟨rfl,(Option.some.inj hj).symm⟩
  obtain ⟨⟨n,k₁⟩,hp,hs⟩ := bind_eq_ok.mp hs
  have hmoved := (pipeWrite_copy (serves 2) (h.inv.owned.setPipe href) (h.attended hr hw) hp).2.1.kindred h hr hw
  simp only at hs
  split at hs
  · cases hs
  split at hs
  · cases hs
    exact hmoved
  · exact hmoved.block h.not_dead hs

end Pipes

/-! ## Births -/

theorem addChild_next_self (k : Kernel) (c : Slot) : (addChild k n c).next n = (k.procs c).livingChild := by
  have hkeep : ∀ (k : Kernel) (i : Slot) (f : Proc → Proc), (∀ p, (f p).nextSibling = p.nextSibling) →
      ((k.modProc i f).procs n).nextSibling = (k.procs n).nextSibling := fun k i f hf =>
    Kernel.modProc_keeps Proc.nextSibling hf n
  unfold Kernel.next addChild
  cases (k.procs c).livingChild with
  | none => simp only [Kernel.modProc_self]
  | some ohead => simp only [hkeep,implies_true,Kernel.modProc_self]

theorem addChild_prev (k : Kernel) (c : Slot) (hn : k.prev n = none) (j : Slot) :
    (addChild k n c).prev j = if (k.procs c).livingChild = some j then some n else k.prev j := by
  have hkeep : ∀ (k : Kernel) (i : Slot) (f : Proc → Proc), (∀ p, (f p).prevSibling = p.prevSibling) →
      ((k.modProc i f).procs j).prevSibling = (k.procs j).prevSibling := fun k i f hf =>
    Kernel.modProc_keeps Proc.prevSibling hf j
  unfold Kernel.prev addChild
  cases (k.procs c).livingChild with
  | none =>
    simp only [hkeep,implies_true,reduceCtorEq,↓reduceIte]
    by_cases hj : j = n
    · rw [hj, Kernel.modProc_self]
      exact hn.symm
    · simp only [Kernel.modProc_ne _ _ _ hj,hkeep,implies_true]
  | some ohead =>
    simp only [hkeep,implies_true,Option.some.injEq]
    by_cases hj : ohead = j
    · rw [hj, Kernel.modProc_self, if_pos rfl]
    · rw [Kernel.modProc_ne _ _ _ (Ne.symm hj), if_neg hj]

theorem addChild_family (k : Kernel) (c : Slot) (hn : k.prev n = none) : (addChild k n c).family = k.family.adopt n c := by
  simp only [Kernel.family,Family.adopt,Family.mk.injEq]
  refine ⟨funext fun j => ?_,funext fun j => ?_,funext fun j => addChild_prev k c hn j,funext fun j => ?_⟩
  · rw [addChild_parent, Function.update_apply]
  · rw [addChild_livingChild, Function.update_apply]
  · by_cases hj : j = n
    · rw [hj, Function.update_self, addChild_next_self]
    · rw [Function.update_of_ne hj, addChild_next k c hj]

theorem ForkOk.finv (h : ForkOk k k' c n tf) (hf : FInv k) (hc : (k.procs c).state ≠ .close) : FInv k' := by
  have hn : ¬ (k.procs n).state ≠ .close := not_not.mpr h.fresh
  have hlive : (fun j => (k'.procs j).state ≠ .close) = fun j => (k.procs j).state ≠ .close ∨ j = n := by
    funext j
    by_cases hj : j = n
    · rw [hj, h.child.1]
      exact propext (iff_of_true (by rintro ⟨⟩) (Or.inr rfl))
    · rw [Proc.state_of_core (h.core j hj)]
      exact propext (or_iff_left hj).symm
  refine ⟨?_,fun j => ?_,fun j => ?_⟩
  · rw [hlive, family_congr h.links, addChild_family k c (hf.sound.blank n hn).2.2.1]
    exact hf.sound.adopt hc hn
  · exact (congrArg Links.zombieChild (h.links j)).trans ((addChild_zombieChild k n c j).trans (hf.empty j))
  · by_cases hj : j = n
    · rw [hj, h.child.1]
      rintro ⟨⟩
    · rw [Proc.state_of_core (h.core j hj)]
      exact hf.alive j

theorem Created.finv (h : Created k k' n) (hf : FInv k) : FInv k' := by
  obtain ⟨q,hq⟩ := h.self
  have hlinks : ∀ j, (k'.procs j).links = (k.procs j).links := fun j => by
    by_cases hj : j = n
    · rw [hj, hq]
      rfl
    · rw [h.procs j hj]
  have hlive : (fun j => (k'.procs j).state ≠ .close) = fun j => (k.procs j).state ≠ .close ∨ j = n := by
    funext j
    by_cases hj : j = n
    · rw [hj, hq]
      exact propext (iff_of_true (by rintro ⟨⟩) (Or.inr rfl))
    · rw [h.procs j hj]
      exact propext (or_iff_left hj).symm
  refine ⟨?_,fun j => (congrArg Links.zombieChild (hlinks j)).trans (hf.empty j),fun j => ?_⟩
  · rw [hlive, family_congr hlinks]
    exact hf.sound.enter (not_not.mpr h.fresh)
  · by_cases hj : j = n
    · rw [hj, hq]
      rintro ⟨⟩
    · rw [h.procs j hj]
      exact hf.alive j

/-! ## Departures -/

theorem modProc_next {f : Proc → Proc} (hf : ∀ p, (f p).nextSibling = p.nextSibling) : (k.modProc i f).next = k.next :=
  funext fun j => Kernel.modProc_keeps Proc.nextSibling hf j

theorem orphan_procs {m : ℕ} {o : Option Slot} (hl : Chain k.next o l) (h : orphan m k o = .ok k') (j : Slot) :
    k'.procs j = if j ∈ l then { k.procs j with parent := none } else k.procs j := by
  induction m generalizing k o l with
  | zero =>
    cases l with
    | nil =>
      rw [hl.eq_none] at h
      cases h
      exact (if_neg List.not_mem_nil).symm
    | cons a l =>
      rw [hl.1] at h
      cases h
  | succ m ih =>
    cases l with
    | nil =>
      rw [hl.eq_none] at h
      cases h
      exact (if_neg List.not_mem_nil).symm
    | cons a l =>
      have ha := (List.nodup_cons.mp hl.nodup).1
      rw [hl.1] at h
      have hnext : (k.modProc a fun p => { p with parent := none }).next = k.next := modProc_next fun _ => rfl
      have htail : Chain (k.modProc a fun p => { p with parent := none }).next (k.next a) l := by
        rw [hnext]
        exact hl.2
      rw [ih htail h]
      by_cases hja : j = a
      · subst hja
        rw [if_neg ha, if_pos List.mem_cons_self, Kernel.modProc_self]
      · simp only [List.mem_cons,hja,false_or,Kernel.modProc_ne _ _ _ hja]

/-- The children of `c` have lost their parent; there are no zombies to reap. -/
theorem exitAsParent_orphans (h : FInv k) (hc : (k.procs c).state ≠ .close) (he : exitAsParent k c = .ok k') :
    Relinked k k' ∧ ∀ j, k'.procs j =
      if (k.procs j).parent = some c then { k.procs j with parent := none } else k.procs j := by
  unfold exitAsParent at he
  obtain ⟨k₁,ho,he⟩ := bind_eq_ok.mp he
  rw [h.empty c] at he
  cases he
  obtain ⟨l,hl,hmem⟩ := h.sound.children c hc
  refine ⟨(orphan_relinked ho).1,fun j => ?_⟩
  rw [orphan_procs hl.chain ho]
  exact if_congr (hmem j) rfl rfl

theorem modPtr_procs (k : Kernel) (o : Option Slot) (f : Proc → Proc) (j : Slot) :
    (k.modPtr o f).procs j = if o = some j then f (k.procs j) else k.procs j := by
  cases o with
  | none => exact (if_neg (by rintro ⟨⟩)).symm
  | some i =>
    by_cases hj : j = i
    · rw [hj, if_pos rfl]
      exact Kernel.modProc_self ..
    · rw [if_neg fun he => hj (Option.some.inj he).symm]
      exact Kernel.modProc_ne _ _ _ hj

/-- A child that is not its own sibling is taken out of the list of the living. -/
theorem detach_links (hn : k.next c ≠ some c) (hp : k.prev c ≠ some c) (hz : (k.procs pa).zombieChild = none) (j : Slot) :
    ((detach k c pa).procs j).links = ⟨(k.procs j).parent,
      if j = pa ∧ (k.procs pa).livingChild = some c then k.next c else (k.procs j).livingChild,
      (k.procs j).zombieChild,if k.next c = some j then k.prev c else k.prev j,
      if k.prev c = some j then k.next c else k.next j⟩ := by
  obtain ⟨k₁,hk₁⟩ : ∃ k₁, k₁ = k.modPtr (k.prev c) fun p => { p with nextSibling := k.next c } := ⟨_,rfl⟩
  obtain ⟨k₂,hk₂⟩ : ∃ k₂, k₂ = k₁.modPtr (k.next c) fun p => { p with prevSibling := k.prev c } := ⟨_,rfl⟩
  have h₁ : ∀ i, k₁.procs i = if k.prev c = some i then { k.procs i with nextSibling := k.next c } else k.procs i :=
    fun i => by rw [hk₁, modPtr_procs]
  have h₂ : ∀ i, k₂.procs i = if k.next c = some i then { k₁.procs i with prevSibling := k.prev c } else k₁.procs i :=
    fun i => by rw [hk₂, modPtr_procs]
  have hc₁ : k₁.procs c = k.procs c := by rw [h₁, if_neg hp]
  have hc₂ : k₂.procs c = k.procs c := by rw [h₂, if_neg hn, hc₁]
  have hkeep : ∀ i, (k₂.procs i).livingChild = (k.procs i).livingChild ∧ (k₂.procs i).zombieChild = (k.procs i).zombieChild ∧
      (k₂.procs i).parent = (k.procs i).parent := fun i => by
    rw [h₂, h₁]
    split <;> split <;> exact ⟨rfl,rfl,rfl⟩
  have hdet : detach k c pa = if (k.procs pa).livingChild = some c then
      k₂.modProc pa fun p => { p with livingChild := k.next c } else k₂ := by
    have e₁ : (k.modPtr (k.procs c).prevSibling fun p => { p with nextSibling := (k.procs c).nextSibling }) = k₁ := hk₁.symm
    have e₂ : (k₁.modPtr (k.procs c).nextSibling fun p => { p with prevSibling := (k.procs c).prevSibling }) = k₂ := hk₂.symm
    unfold detach
    simp only [e₁,hc₁,e₂,hc₂,(hkeep pa).1]
    split
    · rw [Kernel.modProc_self, (hkeep pa).2.1, hz, if_neg (by rintro ⟨⟩)]
      rfl
    · rw [(hkeep pa).2.1, hz, if_neg (by rintro ⟨⟩)]
  have hsib : (k₂.procs j).prevSibling = (if k.next c = some j then k.prev c else k.prev j) ∧
      (k₂.procs j).nextSibling = if k.prev c = some j then k.next c else k.next j := by
    rw [h₂, h₁]
    split <;> split <;> exact ⟨rfl,rfl⟩
  rw [hdet, ← hsib.1, ← hsib.2, ← (hkeep j).1, ← (hkeep j).2.1, ← (hkeep j).2.2]
  by_cases hl : (k.procs pa).livingChild = some c
  · by_cases hj : j = pa
    · rw [if_pos hl, if_pos ⟨hj,hl⟩, hj, Kernel.modProc_self]
      rfl
    · rw [if_pos hl, if_neg fun hh => hj hh.1, Kernel.modProc_ne _ _ _ hj]
      rfl
  · rw [if_neg hl, if_neg fun hh => hl hh.2]
    rfl

/-- The pointers of `j` once `c` is gone. -/
def Kernel.without (k : Kernel) (c j : Slot) : Links where
  parent := if (k.procs j).parent = some c then none else (k.procs j).parent
  livingChild := if (k.procs j).livingChild = some c then k.next c else (k.procs j).livingChild
  zombieChild := none
  prevSibling := if k.prev j = some c then k.prev c else k.prev j
  nextSibling := if k.next j = some c then k.next c else k.next j

/-- One slot is cleared, and the pointers of the others are as if it had never been there. -/
structure Departed (k k' : Kernel) (c : Slot) : Prop where
  gone : k'.procs c = .zero
  links : ∀ j ≠ c, (k'.procs j).links = k.without c j
  close : ∀ j, (k'.procs j).state ≠ .close ↔ (k.procs j).state ≠ .close ∧ j ≠ c
  alive : ∀ j, (k'.procs j).state ≠ .zombie

theorem Departed.family (h : Departed k k' c) : k'.family = k.family.leave c := by
  have h0 : ∀ j, j = c → k'.procs j = .zero := by
    rintro j rfl
    exact h.gone
  simp only [Kernel.family,Family.leave,Family.mk.injEq]
  refine ⟨funext fun j => ?_,funext fun j => ?_,funext fun j => ?_,funext fun j => ?_⟩
  · by_cases hj : j = c
    · rw [h0 j hj]
      exact (if_pos (Or.inl hj)).symm
    · simp only [hj,false_or]
      exact congrArg Links.parent (h.links j hj)
  · by_cases hj : j = c
    · rw [if_pos hj, h0 j hj]
      rfl
    · rw [if_neg hj]
      exact congrArg Links.livingChild (h.links j hj)
  · by_cases hj : j = c
    · rw [if_pos hj, Kernel.prev, h0 j hj]
      rfl
    · rw [if_neg hj]
      exact congrArg Links.prevSibling (h.links j hj)
  · by_cases hj : j = c
    · rw [if_pos hj, Kernel.next, h0 j hj]
      rfl
    · rw [if_neg hj]
      exact congrArg Links.nextSibling (h.links j hj)

theorem Departed.finv (h : Departed k k' c) (hf : FInv k) (hgo : Parting k c) : FInv k' where
  sound := by
    rw [h.family, show (fun j => (k'.procs j).state ≠ .close) = fun j => (k.procs j).state ≠ .close ∧ j ≠ c from
      funext fun j => propext (h.close j)]
    refine hf.sound.leave ?_
    rcases hgo with ⟨pa,hpa,-⟩ | ⟨-,hno⟩
    · exact Or.inl fun hnone => Option.some_ne_none pa (hpa.symm.trans hnone)
    · exact Or.inr hno
  empty j := by
    by_cases hj : j = c
    · rw [hj, h.gone]
      rfl
    · exact congrArg Links.zombieChild (h.links j hj)
  alive := h.alive

theorem Clear.departed (h : Clear k₁ k' (· = c)) (h0 : k'.procs c = .zero) (hw : WakeSafe k₁)
    (hlinks : ∀ j ≠ c, (k₁.procs j).links = k.without c j)
    (hclose : ∀ j, (k₁.procs j).state = .close ↔ (k.procs j).state = .close)
    (halive : ∀ j, (k₁.procs j).state ≠ .zombie) : Departed k k' c := by
  refine ⟨h0,fun j hj => ?_,fun j => ?_,fun j => ?_⟩
  · rw [← hlinks j hj]
    rcases h.procs j with ⟨hjc,-⟩ | he | ⟨-,ctx,he⟩
    · exact absurd hjc hj
    · rw [he]
    · rw [he]
      rfl
  · by_cases hj : j = c
    · rw [hj, h0]
      exact iff_of_false (fun hne => hne rfl) fun hh => hh.2 rfl
    · rw [and_iff_left hj, ne_eq, ne_eq, ← hclose j]
      rcases h.procs j with ⟨hjc,-⟩ | he | ⟨⟨pg,hpg,-,hr⟩,ctx,he⟩
      · exact absurd hjc hj
      · rw [he]
      · rw [he]
        exact iff_of_true (by rintro ⟨⟩) (hw pg j hpg hr)
  · rcases h.procs j with ⟨-,he⟩ | he | ⟨-,ctx,he⟩
    · rw [he]
      rintro ⟨⟩
    · rw [he]
      exact halive j
    · rw [he]
      rintro ⟨⟩

/-- The first half of `kill_proc`: the exit value is noted and the children are on their own. -/
structure Bereft (k k₁ : Kernel) (c : Slot) : Prop where
  relinked : Relinked k k₁
  links : ∀ j, (k₁.procs j).links = { (k.procs j).links with
    parent := if (k.procs j).parent = some c then none else (k.procs j).parent }

theorem killProc_bereft (hf : FInv k) (hc : (k.procs c).state ≠ .close) (hk : killProc k c v = .ok k') :
    ∃ k₁, Bereft k k₁ c ∧ exitAsChild k₁ c v = .ok k' := by
  unfold killProc at hk
  obtain ⟨k₁,he,hk⟩ := bind_eq_ok.mp hk
  obtain ⟨k₀,hk₀⟩ : ∃ k₀, k₀ = k.modProc c fun p => { p with exitVal := v } := ⟨_,rfl⟩
  rw [← hk₀] at he
  have hrel₀ : Relinked k k₀ := by
    rw [hk₀]
    exact Relinked.refl.modProc fun _ => rfl
  have hl₀ : ∀ j, (k₀.procs j).links = (k.procs j).links := by
    intro j
    rw [hk₀]
    refine Kernel.modProc_keeps Proc.links ?_ j
    exact fun _ => rfl
  have hf₀ : FInv k₀ := hf.congr hl₀ (fun j => by rw [hrel₀.state]) fun j => by rw [hrel₀.state]
  obtain ⟨hrel,hprocs⟩ := exitAsParent_orphans hf₀ (by rw [hrel₀.state]; exact hc) he
  refine ⟨k₁,⟨hrel₀.trans hrel,fun j => ?_⟩,hk⟩
  have hpar : (k₀.procs j).parent = (k.procs j).parent := congrArg Links.parent (hl₀ j)
  rw [hprocs j, ← hl₀ j, ← hpar]
  split
  · rfl
  · rfl

namespace Bereft

theorem next (h : Bereft k k₁ c) (j : Slot) : k₁.next j = k.next j := congrArg Links.nextSibling (h.links j)

theorem prev (h : Bereft k k₁ c) (j : Slot) : k₁.prev j = k.prev j := congrArg Links.prevSibling (h.links j)

theorem livingChild (h : Bereft k k₁ c) (j : Slot) : (k₁.procs j).livingChild = (k.procs j).livingChild :=
  congrArg Links.livingChild (h.links j)

theorem parent (h : Bereft k k₁ c) (j : Slot) :
    (k₁.procs j).parent = if (k.procs j).parent = some c then none else (k.procs j).parent :=
  congrArg Links.parent (h.links j)

theorem own_parent (h : Bereft k k₁ c) (hf : FInv k) : (k₁.procs c).parent = (k.procs c).parent := by
  rw [h.parent]
  exact if_neg (hf.sound.self c)

theorem close_iff (h : Bereft k k₁ c) (j : Slot) : (k₁.procs j).state = .close ↔ (k.procs j).state = .close := by
  rw [h.relinked.state]

theorem alive (h : Bereft k k₁ c) (hf : FInv k) (j : Slot) : (k₁.procs j).state ≠ .zombie := by
  rw [h.relinked.state]
  exact hf.alive j

theorem orphan_departs (h : Bereft k k₁ c) (hs : Sys k c) (hf : FInv k) (hp : (k.procs c).parent = none)
    (hno : ∀ j ≠ c, k.next j ≠ some c ∧ k.prev j ≠ some c) (hc : clearProc k₁ c = .ok k') : Departed k k' c := by
  have hw := h.relinked.wakeSafe hs.reg.wakeSafe
  obtain ⟨-,h0,hcl⟩ := clearProc_ok (h.relinked.inv hs.inv) hw hc
  refine hcl.departed h0 hw (fun j hj => ?_) h.close_iff (h.alive hf)
  have hchild : (k.procs j).livingChild ≠ some c := fun hjc =>
    Option.some_ne_none j ((hf.sound.parent_of_child hjc).symm.trans hp)
  rw [h.links j, Kernel.without, if_neg hchild, if_neg (hno j hj).1, if_neg (hno j hj).2, ← hf.empty j]
  rfl

/-- A child whose parent waits is reported, detached and cleared. -/
theorem child_departs {k₂ : Kernel} (h : Bereft k k₁ c) (hs : Sys k c) (hf : FInv k) (hp : (k.procs c).parent = some pa)
    (hwait : (k₁.procs pa).waiting = true) (hr : reportExit k₁ c pa v = .ok k₂)
    (hc : clearProc (detach k₂ c pa) c = .ok k') : Departed k k' c := by
  have hw := h.relinked.wakeSafe hs.reg.wakeSafe
  have hinv := h.relinked.inv hs.inv
  have hrep := reportExit_spec hinv hwait hr
  have hpa := hinv.waiting hwait
  have hdet := detach_relinked k₂ c pa
  have hw₃ := hdet.wakeSafe (hrep.wakeSafe hpa hw)
  obtain ⟨-,h0,hcl⟩ := clearProc_ok (hdet.inv hrep.inv) hw₃ hc
  have hlinks₂ : ∀ j, (k₂.procs j).links = (k₁.procs j).links := fun j => by
    by_cases hj : j = pa
    · obtain ⟨ctx,he⟩ := hrep.parent
      rw [hj, he]
      rfl
    · rw [hrep.procs j hj]
  have hl₂ : ∀ j, (k₂.procs j).links = { (k.procs j).links with
      parent := if (k.procs j).parent = some c then none else (k.procs j).parent } := fun j => (hlinks₂ j).trans (h.links j)
  have hnext : ∀ j, k₂.next j = k.next j := fun j => congrArg Links.nextSibling (hl₂ j)
  have hprev : ∀ j, k₂.prev j = k.prev j := fun j => congrArg Links.prevSibling (hl₂ j)
  have hliv : ∀ j, (k₂.procs j).livingChild = (k.procs j).livingChild := fun j => congrArg Links.livingChild (hl₂ j)
  have hpar : ∀ j, (k₂.procs j).parent = if (k.procs j).parent = some c then none else (k.procs j).parent := fun j =>
    congrArg Links.parent (hl₂ j)
  have hzc : ∀ j, (k₂.procs j).zombieChild = none := fun j => (congrArg Links.zombieChild (hl₂ j)).trans (hf.empty j)
  have hstate₂ : ∀ j, ((detach k₂ c pa).procs j).state = (k₂.procs j).state := hdet.state
  obtain ⟨⟨hnc,hpc⟩,hback⟩ := hf.sound.links_of_parent hp
  refine hcl.departed h0 hw₃ (fun j hj => ?_) (fun j => ?_) fun j => ?_
  · have hdl := detach_links (k := k₂) (c := c) (by rw [hnext]; exact hnc) (by rw [hprev]; exact hpc) (hzc pa) j
    rw [hdl, Kernel.without, hzc j, hpar, hliv, hliv, hnext, hprev, hprev, hnext]
    have h1 : (k.prev c = some j) = (k.next j = some c) := propext (hback j).symm
    have h2 : (k.next c = some j) = (k.prev j = some c) := propext (hf.sound.next_of_prev hp).symm
    have h3 : (j = pa ∧ (k.procs pa).livingChild = some c) = ((k.procs j).livingChild = some c) := by
      refine propext ⟨fun hh => hh.1 ▸ hh.2,fun hjc => ?_⟩
      obtain rfl := Option.some.inj (hp.symm.trans (hf.sound.parent_of_child hjc))
      exact ⟨rfl,hjc⟩
    simp only [h1,h2,h3]
  · rw [hstate₂, ← h.close_iff]
    exact ((hrep.like hpa j).close)
  · rw [hstate₂]
    by_cases hj : j = pa
    · obtain ⟨ctx,he⟩ := hrep.parent
      rw [hj, he]
      rintro ⟨⟩
    · rw [hrep.procs j hj]
      exact h.alive hf j

end Bereft

theorem kill_departed (h : Sys k c) (hf : FInv k) (hgo : Parting k c) (hk : killProc k c v = .ok k') : Departed k k' c := by
  obtain ⟨k₁,hb,he⟩ := killProc_bereft hf h.open hk
  have hpar := hb.own_parent hf
  rcases exitAsChild_cases he with ⟨hp,hc⟩ | ⟨pa,hp,hw,-⟩ | ⟨pa,k₂,hp,hw,hr,hc⟩
  · rw [hpar] at hp
    rcases hgo with ⟨pa,hpa,-⟩ | ⟨-,hno⟩
    · rw [hp] at hpa
      cases hpa
    · exact hb.orphan_departs h hf hp hno hc
  · rw [hpar] at hp
    rcases hgo with ⟨pa',hpa,hwait⟩ | ⟨hnone,-⟩
    · obtain rfl := Option.some.inj (hp.symm.trans hpa)
      rw [hb.relinked.waiting, hwait] at hw
      cases hw
    · rw [hp] at hnone
      cases hnone
  · rw [hpar] at hp
    exact hb.child_departs h hf hp hw hr hc

theorem kill_finv (h : Sys k c) (hf : FInv k) (hgo : Parting k c) (hk : killProc k c v = .ok k') : FInv k' :=
  (kill_departed h hf hgo hk).finv hf hgo

/-- An orphan that others refer to leaves them with pointers to a closed slot. -/
theorem Bereft.orphan_dangles (hb : Bereft k k₁ c) (h : Sys k c) (hf : FInv k) (hjc : j ≠ c)
    (hj : k.next j = some c ∨ k.prev j = some c) (hc : clearProc k₁ c = .ok k') : ¬ Forest k' := by
  obtain ⟨-,h0,hcl⟩ := clearProc_ok (hb.relinked.inv h.inv) (hb.relinked.wakeSafe h.reg.wakeSafe) hc
  have hopen : (k.procs j).state ≠ .close := by
    intro hclose
    obtain ⟨-,-,h3,h4⟩ := hf.sound.blank j (not_not.mpr hclose)
    rcases hj with hj | hj
    · exact Option.some_ne_none c (hj.symm.trans h4)
    · exact Option.some_ne_none c (hj.symm.trans h3)
  have hkept : (k'.procs j).state ≠ .close ∧ (k'.procs j).links = (k₁.procs j).links := by
    rcases hcl.procs j with ⟨he,-⟩ | he | ⟨-,ctx,he⟩
    · exact absurd he hjc
    · rw [he, hb.relinked.state]
      exact ⟨hopen,rfl⟩
    · rw [he]
      exact ⟨by rintro ⟨⟩,rfl⟩
  have hn : k'.next j = k.next j := (congrArg Links.nextSibling hkept.2).trans (hb.next j)
  have hp : k'.prev j = k.prev j := (congrArg Links.prevSibling hkept.2).trans (hb.prev j)
  intro hforest
  refine hforest.sibling j c hkept.1 (by rw [hn, hp]; exact hj) ?_
  rw [h0]
  rfl

theorem Bereft.zombie_stays (hb : Bereft k k₁ c) (hf : FInv k) (hp : (k.procs c).parent = some pa) (v : U64) :
    ¬ Forest (becomeZombie k₁ c pa v) := by
  have hpa := hf.sound.parent c pa hp
  have hpac : pa ≠ c := by
    rintro rfl
    exact hf.sound.self pa hp
  obtain ⟨-,hn,-,-,hzc,hst⟩ := becomeZombie_links k₁ c pa v
  obtain ⟨l,hl,hmem⟩ := hf.sound.children pa hpa
  have hreach : Reaches (becomeZombie k₁ c pa v).next (k.procs pa).livingChild c := by
    refine Reaches.upto (hl.chain.reaches.mpr ((hmem c).mpr hp)) fun a ha => ?_
    exact (hn a ha).trans (hb.next a)
  have hliv : ((becomeZombie k₁ c pa v).procs pa).livingChild = (k.procs pa).livingChild :=
    (becomeZombie_keeps Proc.livingChild (fun _ _ _ _ _ _ => rfl) k₁ c pa pa v).trans (hb.livingChild pa)
  intro hforest
  obtain ⟨l',z,hlists⟩ := hforest.lists pa (by rw [hst pa hpac, hb.relinked.state]; exact hpa)
  rw [← hliv] at hreach
  exact ((hlists.mem_living c).mp (hlists.living.chain.reaches.mp hreach)).2 (Or.inr hzc)

theorem kill_not_forest (h : Sys k c) (hf : FInv k) (hgo : ¬ Parting k c) (hk : killProc k c v = .ok k') : ¬ Forest k' := by
  obtain ⟨k₁,hb,he⟩ := killProc_bereft hf h.open hk
  have hpar := hb.own_parent hf
  rcases exitAsChild_cases he with ⟨hp,hc⟩ | ⟨pa,hp,hw,rfl⟩ | ⟨pa,k₂,hp,hw,-,-⟩
  · rw [hpar] at hp
    obtain ⟨j,hjc,hj⟩ : ∃ j, j ≠ c ∧ (k.next j = some c ∨ k.prev j = some c) := by
      by_contra hno
      exact hgo (Or.inr ⟨hp,fun j hj => not_or.mp fun hh => hno ⟨j,hj,hh⟩⟩)
    exact hb.orphan_dangles h hf hjc hj hc
  · rw [hpar] at hp
    exact hb.zombie_stays hf hp v
  · rw [hpar] at hp
    rw [hb.relinked.waiting] at hw
    exact absurd (Or.inl ⟨pa,hp,hw⟩) hgo

/-- Of all calls `sys_wait` changes one record, and no pointer in it. -/
theorem wait_finv (h : Sys k c) (hf : FInv k) (hs : sysWait k c tf = .ok o) : FInv o.kernel := by
  unfold sysWait at hs
  obtain ⟨ok,-,hs⟩ := bind_eq_ok.mp hs
  split at hs
  · exact (Returned.done (.refl h.inv) hs).kindred.finv hf
  rw [hf.empty c] at hs
  simp only at hs
  split at hs
  · exact (Returned.done (.refl h.inv) hs).kindred.finv hf
  obtain ⟨k',hk⟩ : ∃ k', k' = k.modProc c fun p => { p with waiting := true, waitStatus := tf.rdx } := ⟨_,rfl⟩
  rw [← hk] at hs
  have hlinks : ∀ j, (k'.procs j).links = (k.procs j).links := fun j => by
    rw [hk]
    refine Kernel.modProc_keeps Proc.links ?_ j
    exact fun _ => rfl
  have hstate : ∀ j, (k'.procs j).state = (k.procs j).state := fun j => by
    rw [hk]
    refine Kernel.modProc_keeps Proc.state ?_ j
    exact fun _ => rfl
  have hf' : FInv k' := hf.congr hlinks (fun j => by rw [hstate]) fun j => by rw [hstate]
  have hc : ¬ Dead k' c := by
    rw [Dead, hstate]
    exact h.not_dead
  exact (Kindred.refl.block hc hs).finv hf'

end Ukern
