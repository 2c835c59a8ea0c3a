import Ukern.Process.Family

/-! # Zombie lists

As long as nobody waits, the zombie list of a process that is not a zombie itself is a chain
of zombies, and no zombie is on two lists. An exit therefore reaps zombies only.
-/
namespace Ukern
open Lib
variable {k k' k₁ : Kernel} {c i j n p q pa : Slot} {S D D' : Slot → Prop} {L : Slot → List Slot} {tf : Context} {v : U64}

/-- The list `L p` is the zombie list of `p`, for every `p` that is neither a zombie nor in `D`. -/
structure Zombies (k : Kernel) (D : Slot → Prop) (L : Slot → List Slot) : Prop where
  chain : ∀ p, (k.procs p).state ≠ .zombie → ¬ D p → Chain k.next (k.procs p).zombieChild (L p)
  empty : ∀ p, (k.procs p).state = .zombie ∨ D p → L p = []
  zombie : ∀ p, ∀ j ∈ L p, (k.procs j).state = .zombie
  excl : ∀ p q j, j ∈ L p → j ∈ L q → p = q

/-- Nobody waits, and zombie lists hold zombies. -/
structure ZInv (k : Kernel) : Prop where
  lists : ∃ L, Zombies k (fun _ => False) L
  waiting : ∀ j, (k.procs j).waiting = false

/-- The reader that a closing write end would wake is not a zombie. -/
def WakesLiving (k : Kernel) : Prop :=
  ∀ pg r, ends k .wpipe pg ≠ 0 → (k.pipe pg).reader = some r → (k.procs r).state ≠ .zombie

theorem Reg.wakesLiving (h : Reg k) : WakesLiving k := fun pg r hpg hr hz => by
  have h1 := h.pending (.read pg) r ⟨hpg,hr⟩
  rw [hz] at h1
  cases h1

theorem Relinked.wakesLiving (h : Relinked k k') (hw : WakesLiving k) : WakesLiving k' := fun pg r hpg hr => by
  rw [h.ends] at hpg
  rw [h.pipe] at hr
  rw [h.state]
  exact hw pg r hpg hr

theorem Clear.wakesLiving (h : Clear k k' S) (hw : WakesLiving k) : WakesLiving k' := fun pg r hpg hr => by
  have hle := (h.le pg).2
  rw [(h.pipe pg).1] at hr
  rcases h.procs r with ⟨-,hp⟩ | hp | ⟨-,c,hp⟩
  · rw [hp]
    nofun
  · rw [hp]
    exact hw pg r (by omega) hr
  · rw [hp]
    nofun

theorem ZInv.reaps (h : ZInv k) (hc : (k.procs c).state ≠ .zombie) (hj : Reaches k.next (k.procs c).zombieChild j) :
    (k.procs j).state = .zombie := by
  obtain ⟨L,hL⟩ := h.lists
  exact hL.zombie c j ((hL.chain c hc id).reaches.mp hj)

namespace Zombies

/-- Pointers of the zombies on the lists and the heads of the lists are what matters. -/
theorem congr (h : Zombies k D L) (hst : ∀ j, (k'.procs j).state = .zombie ↔ (k.procs j).state = .zombie)
    (hzc : ∀ j, (k'.procs j).zombieChild = (k.procs j).zombieChild)
    (hnext : ∀ j, (k.procs j).state = .zombie → k'.next j = k.next j) : Zombies k' D L where
  chain p hp hD := by
    rw [hzc p]
    exact (h.chain p (fun hz => hp ((hst p).mpr hz)) hD).congr fun j hj => hnext j (h.zombie p j hj)
  empty p hp := h.empty p (hp.imp (hst p).mp id)
  zombie p j hj := (hst j).mpr (h.zombie p j hj)
  excl := h.excl

theorem drop (h : Zombies k D L) (c : Slot) : Zombies k (fun p => D p ∨ p = c) (Function.update L c []) where
  chain p hp hD := by
    rw [not_or] at hD
    rw [Function.update_of_ne hD.2]
    exact h.chain p hp hD.1
  empty p hp := by
    by_cases hpc : p = c
    · rw [hpc, Function.update_self]
    · rw [Function.update_of_ne hpc]
      exact h.empty p (hp.imp id fun hD => hD.resolve_right hpc)
  zombie p j hj := by
    by_cases hpc : p = c
    · rw [hpc, Function.update_self] at hj
      cases hj
    · rw [Function.update_of_ne hpc] at hj
      exact h.zombie p j hj
  excl p q j hp hq := by
    by_cases hpc : p = c
    · rw [hpc, Function.update_self] at hp
      cases hp
    · by_cases hqc : q = c
      · rw [hqc, Function.update_self] at hq
        cases hq
      · rw [Function.update_of_ne hpc] at hp
        rw [Function.update_of_ne hqc] at hq
        exact h.excl p q j hp hq

theorem clear (h : Zombies k D L) (hc : Clear k k' S) (hw : WakesLiving k)
    (hS : ∀ j, S j → L j = [] ∧ ∀ p, j ∉ L p) (hD : ∀ p, D p → D' p ∨ k'.procs p = .zero)
    (hD' : ∀ p, D' p → D p) : Zombies k' D' L := by
  have hkeep : ∀ p, ∀ j ∈ L p, (k'.procs j).state = .zombie ∧ k'.next j = k.next j := fun p j hj => by
    have hz := h.zombie p j hj
    rcases hc.procs j with ⟨hSj,-⟩ | h1 | ⟨⟨pg,hpg,-,hr⟩,-⟩
    · exact absurd hj ((hS j hSj).2 p)
    · exact ⟨by rw [h1, hz],by rw [Kernel.next, Kernel.next, h1]⟩
    · exact absurd hz (hw pg j hpg hr)
  refine ⟨fun p hp hn => ?_,fun p hp => ?_,fun p j hj => (hkeep p j hj).1,h.excl⟩
  · have hgone : k'.procs p = .zero → L p = [] → Chain k'.next (k'.procs p).zombieChild (L p) := fun h0 hL => by
      rw [h0, hL]
      exact rfl
    have hsame : (k'.procs p).zombieChild = (k.procs p).zombieChild → (k.procs p).state ≠ .zombie → ¬ D p →
        Chain k'.next (k'.procs p).zombieChild (L p) := fun hzc hst hn => by
      rw [hzc]
      exact (h.chain p hst hn).congr fun j hj => (hkeep p j hj).2
    by_cases hDp : D p
    · exact hgone ((hD p hDp).resolve_left hn) (h.empty p (Or.inr hDp))
    · rcases hc.procs p with ⟨hSp,h0⟩ | h1 | ⟨⟨pg,hpg,-,hr⟩,ctx,h1⟩
      · exact hgone h0 (hS p hSp).1
      · exact hsame (by rw [h1]) (by rw [← h1]; exact hp) hDp
      · exact hsame (by rw [h1]) (hw pg p hpg hr) hDp
  · rcases hp with hp | hp
    · rcases hc.procs p with ⟨hSp,-⟩ | h1 | ⟨-,ctx,h1⟩
      · exact (hS p hSp).1
      · exact h.empty p (Or.inl (by rw [← h1]; exact hp))
      · rw [h1] at hp
        cases hp
    · exact h.empty p (Or.inr (hD' p hp))

end Zombies

/-- Pointers after the zombie branch: the new zombie is at the head of its parent's list. -/
theorem becomeZombie_links (k : Kernel) (c pa : Slot) (v : U64) :
    (becomeZombie k c pa v).next c = (k.procs pa).zombieChild ∧
    (∀ j ≠ c, (becomeZombie k c pa v).next j = k.next j) ∧
    ((becomeZombie k c pa v).procs pa).zombieChild = some c ∧
    (∀ j ≠ pa, ((becomeZombie k c pa v).procs j).zombieChild = (k.procs j).zombieChild) ∧
    ((becomeZombie k c pa v).procs c).state = .zombie ∧
    ∀ j ≠ c, ((becomeZombie k c pa v).procs j).state = (k.procs j).state := by
  have hn : ∀ (k : Kernel) (i j : Slot) (f : Proc → Proc), (∀ p, (f p).nextSibling = p.nextSibling) →
      ((k.modProc i f).procs j).nextSibling = (k.procs j).nextSibling := fun k i j f hf =>
    Kernel.modProc_keeps Proc.nextSibling hf j
  have hz : ∀ (k : Kernel) (i j : Slot) (f : Proc → Proc), (∀ p, (f p).zombieChild = p.zombieChild) →
      ((k.modProc i f).procs j).zombieChild = (k.procs j).zombieChild := fun k i j f hf =>
    Kernel.modProc_keeps Proc.zombieChild hf j
  have hs : ∀ (k : Kernel) (i j : Slot) (f : Proc → Proc), (∀ p, (f p).state = p.state) →
      ((k.modProc i f).procs j).state = (k.procs j).state := fun k i j f hf =>
    Kernel.modProc_keeps Proc.state hf j
  unfold becomeZombie Kernel.next
  cases (k.procs pa).zombieChild with
  | none =>
    refine ⟨?_,fun j hj => ?_,?_,fun j hj => ?_,?_,fun j hj => ?_⟩
    · simp only [Kernel.modProc_self]
    · simp only [hn,implies_true,Kernel.modProc_ne _ _ _ hj]
    · simp only [hz,implies_true,Kernel.modProc_self]
    · simp only [hz,implies_true,Kernel.modProc_ne _ _ _ hj]
    · rw [Kernel.modProc_self]
    · simp only [hs,implies_true,Kernel.modProc_ne _ _ _ hj]
  | some ohead =>
    refine ⟨?_,fun j hj => ?_,?_,fun j hj => ?_,?_,fun j hj => ?_⟩
    · simp only [hn,implies_true,Kernel.modProc_self]
    · simp only [hn,implies_true,Kernel.modProc_ne _ _ _ hj]
    · simp only [hz,implies_true,Kernel.modProc_self]
    · simp only [hz,implies_true,Kernel.modProc_ne _ _ _ hj]
    · rw [Kernel.modProc_self]
    · simp only [hs,implies_true,Kernel.modProc_ne _ _ _ hj]

theorem becomeZombie_keeps {α : Type*} (g : Proc → α) (hg : ∀ (p : Proc) zc ps ns ev st, g { p with
      zombieChild := zc, prevSibling := ps, nextSibling := ns, exitVal := ev, state := st } = g p)
    (k : Kernel) (c p j : Slot) (v : U64) : g ((becomeZombie k c p v).procs j) = g (k.procs j) := by
  have hkeep : ∀ (k : Kernel) (i : Slot) (f : Proc → Proc), (∀ p, g (f p) = g p) →
      g ((k.modProc i f).procs j) = g (k.procs j) := fun k i f hf => Kernel.modProc_keeps g hf j
  unfold becomeZombie
  rw [hkeep _ _ _ fun p => hg p _ _ _ _ _]
  cases (k.procs p).zombieChild with
  | none =>
    dsimp only
    rw [hkeep _ _ _ fun p => hg p _ _ _ _ _, hkeep _ _ _ fun p => hg p _ _ _ _ _]
  | some ohead =>
    dsimp only
    rw [hkeep _ _ _ fun p => hg p _ _ _ _ _, hkeep _ _ _ fun p => hg p _ _ _ _ _, hkeep _ _ _ fun p => hg p _ _ _ _ _]

/-- The zombie branch, for a process that has given up its own list and is on none. -/
theorem Zombies.push (h : Zombies k (· = c) L) (hc : ∀ p, c ∉ L p) (pa : Slot) (v : U64) :
    ∃ L', Zombies (becomeZombie k c pa v) (fun _ => False) L' := by
  obtain ⟨hnc,hn,hzpa,hz,hsc,hs⟩ := becomeZombie_links k c pa v
  have hst : ∀ j, ((becomeZombie k c pa v).procs j).state = .zombie ↔ (k.procs j).state = .zombie ∨ j = c :=
    fun j => by
      by_cases hj : j = c
      · simp [hj,hsc]
      · simp [hs j hj,hj]
  have hmem : ∀ p, ∀ j ∈ L p, j ≠ c := by
    rintro p j hj rfl
    exact hc p hj
  have hchain : ∀ p, (k.procs p).state ≠ .zombie → p ≠ c →
      Chain (becomeZombie k c pa v).next (k.procs p).zombieChild (L p) := fun p hp hpc =>
    (h.chain p hp hpc).congr fun j hj => hn j (hmem p j hj)
  have hout : ∀ p, ((becomeZombie k c pa v).procs p).state ≠ .zombie → (k.procs p).state ≠ .zombie ∧ p ≠ c :=
    fun p hp => not_or.mp fun hh => hp ((hst p).mpr hh)
  by_cases hdead : (k.procs pa).state = .zombie ∨ pa = c
  · -- the parent is a zombie itself, so its list does not count
    refine ⟨L,fun p hp _ => ?_,fun p hp => ?_,fun p j hj => ?_,h.excl⟩
    · obtain ⟨h1,h2⟩ := hout p hp
      have hpa : p ≠ pa := by
        rintro rfl
        exact hdead.elim h1 h2
      rw [hz p hpa]
      exact hchain p h1 h2
    · exact h.empty p ((hst p).mp (hp.resolve_right id))
    · exact (hst j).mpr (Or.inl (h.zombie p j hj))
  · rw [not_or] at hdead
    refine ⟨Function.update L pa (c :: L pa),fun p hp _ => ?_,fun p hp => ?_,fun p j hj => ?_,fun p q j hp hq => ?_⟩
    · obtain ⟨h1,h2⟩ := hout p hp
      by_cases hpa : p = pa
      · subst hpa
        rw [Function.update_self, hzpa]
        exact ⟨rfl,by rw [hnc]; exact hchain p h1 h2⟩
      · rw [Function.update_of_ne hpa, hz p hpa]
        exact hchain p h1 h2
    · have hold := (hst p).mp (hp.resolve_right id)
      have hpa : p ≠ pa := by
        rintro rfl
        exact hold.elim hdead.1 hdead.2
      rw [Function.update_of_ne hpa]
      exact h.empty p hold
    · refine (hst j).mpr ?_
      by_cases hpa : p = pa
      · rw [hpa, Function.update_self] at hj
        rcases List.mem_cons.mp hj with hj | hj
        · exact Or.inr hj
        · exact Or.inl (h.zombie pa j hj)
      · rw [Function.update_of_ne hpa] at hj
        exact Or.inl (h.zombie p j hj)
    · by_cases hjc : j = c
      · have hhead : ∀ p, j ∈ Function.update L pa (c :: L pa) p → p = pa := fun p hp => by
          by_contra hpa
          rw [Function.update_of_ne hpa] at hp
          exact hmem p j hp hjc
        rw [hhead p hp, hhead q hq]
      · have htail : ∀ p, j ∈ Function.update L pa (c :: L pa) p → j ∈ L p := fun p hp => by
          by_cases hpa : p = pa
          · rw [hpa, Function.update_self] at hp
            rw [hpa]
            exact (List.mem_cons.mp hp).resolve_left hjc
          · rwa [Function.update_of_ne hpa] at hp
        exact h.excl p q j (htail p hp) (htail q hq)

theorem Kindred.zinv (h : Kindred k k') (hz : ZInv k) : ZInv k' := by
  obtain ⟨L,hL⟩ := hz.lists
  exact ⟨⟨L,hL.congr h.zombie h.zombieChild fun j _ => by rw [h.next]⟩,fun j => (h.waiting j).trans (hz.waiting j)⟩

theorem ForkOk.zinv (h : ForkOk k k' c n tf) (hz : ZInv k) : ZInv k' := by
  obtain ⟨L,hL⟩ := hz.lists
  have hst : ∀ j, (k'.procs j).state = .zombie ↔ (k.procs j).state = .zombie := fun j => by
    by_cases hj : j = n
    · rw [hj, h.child.1, h.fresh]
      simp
    · rw [Proc.state_of_core (h.core j hj)]
  refine ⟨⟨L,hL.congr hst (fun j => ?_) fun j hj => ?_⟩,fun j => ?_⟩
  · exact (congrArg Links.zombieChild (h.links j)).trans (addChild_zombieChild k n c j)
  · have hjn : j ≠ n := by
      rintro rfl
      rw [h.fresh] at hj
      cases hj
    exact (congrArg Links.nextSibling (h.links j)).trans (addChild_next k c hjn)
  · by_cases hj : j = n
    · rw [hj]
      exact h.child.2.1
    · rw [Proc.waiting_of_core (h.core j hj)]
      exact hz.waiting j

theorem Created.zinv (h : Created k k' n) (hz : ZInv k) : ZInv k' := by
  obtain ⟨L,hL⟩ := hz.lists
  obtain ⟨q,hq⟩ := h.self
  have hlinks : ∀ j, (k'.procs j).links = (k.procs j).links ∧ (k'.procs j).waiting = (k.procs j).waiting := fun j => by
    by_cases hj : j = n
    · rw [hj, hq]
      exact ⟨rfl,rfl⟩
    · rw [h.procs j hj]
      exact ⟨rfl,rfl⟩
  have hst : ∀ j, (k'.procs j).state = .zombie ↔ (k.procs j).state = .zombie := fun j => by
    by_cases hj : j = n
    · rw [hj, hq, h.fresh]
      simp
    · rw [h.procs j hj]
  exact ⟨⟨L,hL.congr hst (fun j => congrArg Links.zombieChild (hlinks j).1) fun j _ =>
    congrArg Links.nextSibling (hlinks j).1⟩,fun j => (hlinks j).2.trans (hz.waiting j)⟩

theorem ZInv.reapsZombies (h : ZInv k) (hs : Sys k c) (hj : Reaches k.next (k.procs c).zombieChild j) :
    (k.procs j).state = .zombie := h.reaps (by rw [hs.state]; nofun) hj

theorem kill_zinv (h : Sys k c) (hz : ZInv k) (hk : killProc k c v = .ok k') : ZInv k' := by
  have hreap : Reapable k c := fun j hj => h.reg.spare (by rw [hz.reapsZombies h hj]; nofun)
  have hunread : ∀ j, Doomed k c j → Unread k j := fun j hj => (h.doomed hreap hj).unread
  obtain ⟨hend,-⟩ := killProc_spec h.inv h.reg.wakeSafe h.open hunread hk
  have hwait : ∀ j, (k'.procs j).waiting = false := fun j => by
    by_contra hne
    have hwt : (k'.procs j).waiting = true := by simpa using hne
    have h1 : (k.procs j).waiting = true := hend.registered (a := .wait) hwt
    simp [hz.waiting j] at h1
  obtain ⟨L,hL⟩ := hz.lists
  obtain ⟨k₁,k₂,hrel,hnext,hzc,-,hcl,hw₂,hk⟩ := killProc_stages h.inv h.reg.wakeSafe hunread hk
  have hlist : ∀ j, Reaches k.next (k.procs c).zombieChild j ↔ j ∈ L c := fun j =>
    (hL.chain c (by rw [h.state]; nofun) id).reaches
  have hnot : ∀ p, c ∉ L p := fun p hc => by
    have := hL.zombie p c hc
    rw [h.state] at this
    cases this
  have hL₁ : Zombies k₁ (· = c) (Function.update L c []) := by
    have h1 := (hL.congr (fun j => by rw [hrel.state]) hzc fun j _ => by rw [hnext]).drop c
    simpa only [false_or] using h1
  have hwl : WakesLiving k₁ := hrel.wakesLiving h.reg.wakesLiving
  have hgone : ∀ j, Reaches k.next (k.procs c).zombieChild j →
      Function.update L c [] j = [] ∧ ∀ p, j ∉ Function.update L c [] p := fun j hj => by
    refine ⟨hL₁.empty j (Or.inl (by rw [hrel.state]; exact hz.reapsZombies h hj)),fun p hp => ?_⟩
    by_cases hpc : p = c
    · rw [hpc, Function.update_self] at hp
      cases hp
    · rw [Function.update_of_ne hpc] at hp
      exact hpc (hL.excl p c j hp ((hlist j).mp hj))
  have hL₂ : Zombies k₂ (· = c) (Function.update L c []) :=
    hL₁.clear hcl hwl hgone (fun p hp => Or.inl hp) fun p hp => hp
  have hnot₂ : ∀ p, c ∉ Function.update L c [] p := fun p hp => by
    by_cases hpc : p = c
    · rw [hpc, Function.update_self] at hp
      cases hp
    · rw [Function.update_of_ne hpc] at hp
      exact hnot p hp
  have hw₂' : ∀ j, (k₂.procs j).waiting = false := fun j => by
    rcases hcl.procs j with ⟨-,h1⟩ | h1 | ⟨-,ctx,h1⟩
    · rw [h1]
      rfl
    · rw [h1, hrel.waiting]
      exact hz.waiting j
    · rw [h1]
      exact (hrel.waiting j).trans (hz.waiting j)
  refine ⟨?_,hwait⟩
  rcases exitAsChild_cases hk with ⟨-,hc⟩ | ⟨pa,-,-,rfl⟩ | ⟨pa,-,-,hwt,-,-⟩
  · obtain ⟨-,h0,hclear⟩ := clearProc_ok hcl.inv hw₂ hc
    refine ⟨_,hL₂.clear hclear (hcl.wakesLiving hwl) (fun j hj => ?_) (fun p hp => Or.inr ?_) fun _ => False.elim⟩
    · rw [hj]
      exact ⟨Function.update_self ..,hnot₂⟩
    · rw [show p = c from hp]
      exact h0
  · exact hL₂.push hnot₂ pa v
  · simp [hw₂' pa] at hwt

end Ukern
