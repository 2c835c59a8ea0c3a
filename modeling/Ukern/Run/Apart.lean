import Ukern.Memory.Patch
import Ukern.Run.Household

/-! # Bystanders

What the parts of the kernel do to the memory of a process that they are not about: processes are woken, blocked
and cleared, and the bystander finds page by page the bytes it had. A parent that waits for the exit of a child
finds the status word.
-/
namespace Ukern
open Lib Lib.Radix
variable {fs : Fs} {k k' k₁ : Kernel} {c i pa q : Slot} {m m' m₁ : Phys} {tf : Context} {o : Outcome} {v : U64}
  {pg kp : ℕ} {sp : Spaces} {extra : ℕ → ℕ} {S : Slot → Prop}

/-- Process `q`, if it is there afterwards, was there before and has the bytes it had. -/
def Spared (k k' : Kernel) (q : Slot) : Prop :=
  (k'.procs q).state ≠ .close → (k.procs q).state ≠ .close ∧ (k'.procs q).pgtbl = (k.procs q).pgtbl ∧
    SamePages k.phys k'.phys (k.procs q).pgtbl

namespace Spared

theorem refl (k : Kernel) (q : Slot) : Spared k k q := fun h => ⟨h,rfl,SamePages.refl k.phys _⟩

theorem trans (h : Spared k k₁ q) (h' : Spared k₁ k' q) : Spared k k' q := by
  intro hq
  obtain ⟨h1,h2,h3⟩ := h' hq
  obtain ⟨h4,h5,h6⟩ := h h1
  rw [h5] at h3
  exact ⟨h4,h2.trans h5,h6.trans h3⟩

theorem of_record (hst : (k'.procs q).state ≠ .close → (k.procs q).state ≠ .close)
    (hpg : (k'.procs q).pgtbl = (k.procs q).pgtbl) (ht : k'.phys.tbl = k.phys.tbl) (hd : k'.phys.data = k.phys.data) :
    Spared k k' q := fun hq => ⟨hst hq,hpg,.of_contents ht hd⟩

theorem setPhys (h : (k.procs q).state ≠ .close → SamePages k.phys m (k.procs q).pgtbl) : Spared k (k.setPhys m) q :=
  fun hq => ⟨hq,rfl,h hq⟩

theorem modProc {g : Proc → Proc} (hst : (g (k.procs i)).state ≠ .close → (k.procs i).state ≠ .close)
    (hpg : (g (k.procs i)).pgtbl = (k.procs i).pgtbl) : Spared k (k.modProc i g) q := by
  refine of_record ?_ ?_ rfl rfl
  · by_cases hq : q = i
    · subst hq
      rw [Kernel.modProc_self]
      exact hst
    · rw [Kernel.modProc_ne _ _ _ hq]
      exact id
  · by_cases hq : q = i
    · subst hq
      rw [Kernel.modProc_self]
      exact hpg
    · rw [Kernel.modProc_ne _ _ _ hq]

theorem wake (hi : (k.procs i).state ≠ .close) (x : U64) : Spared k (k.wake i x) q := modProc (fun _ => hi) rfl

theorem block (hi : (k.procs i).state ≠ .close) (tf : Context) : Spared k (k.block i tf) q := modProc (fun _ => hi) rfl

theorem setFdesc {fd : ℕ} {f : FileDesc} : Spared k (k.setFdesc i fd f) q := modProc id rfl

theorem done {x : U64} (h : Spared k k' q) (hs : k'.done tf x = .ok o) : Spared k o.kernel q := by
  cases hs
  exact h

theorem sched (hs : k.sched = .ok o) : Spared k o.kernel q := by
  obtain ⟨k₁,hk,ho⟩ := bind_eq_ok.mp hs
  cases ho
  obtain ⟨i,hi,rfl⟩ := sched_ok hk
  have hrun : Spared k (k.modProc i fun p => { p with state := .running }) q := by
    apply modProc _ rfl
    intro _
    rw [hi]
    rintro ⟨⟩
  exact hrun

theorem userLoad (h : Spared k k' q) (hk : KInv k) (hk' : KInv k') (hq : (k'.procs q).state ≠ .close) (a : ℕ) :
    userLoad k'.phys (k'.procs q).pgtbl a = userLoad k.phys (k.procs q).pgtbl a := by
  obtain ⟨hopen,hpg,hs⟩ := h hq
  have hsp := hk.owned.mem.space q _ _ (spaces_some hopen)
  have hsp' := hk'.owned.mem.space q _ _ (spaces_some hq)
  rw [hpg] at hsp' ⊢
  rw [hsp.userLoad_eq, hsp'.userLoad_eq]
  by_cases ha : a < userTop
  · obtain ⟨h1,h2⟩ := hs _ (key_user ha)
    rw [h1]
    by_cases hp : (entry k.phys (k.procs q).pgtbl (key 3 a)).p = true
    · rw [h2 hp]
    · simp [hp]
  · simp [ha]

end Spared

/-! ## Slots that end -/

theorem Relinked.spared (h : Relinked k k') : Spared k k' q := by
  refine .of_record ?_ (h.like q).pgtbl (by rw [h.phys]) (by rw [h.phys])
  rw [h.state]
  exact id

theorem Clear.spared (h : Clear k k' S) (hw : WakeSafe k) : Spared k k' q := by
  intro hq
  rcases h.procs q with ⟨-,hz⟩ | hp | ⟨⟨pg,hpg,-,hr⟩,ctx,hp⟩
  · rw [hz] at hq
    exact absurd rfl hq
  · rw [hp] at hq ⊢
    exact ⟨hq,rfl,.of_contents h.contents.1 h.contents.2⟩
  · rw [hp]
    exact ⟨hw pg q hpg hr,rfl,.of_contents h.contents.1 h.contents.2⟩

theorem becomeZombie_spared (hi : (k.procs i).state ≠ .close) : Spared k (becomeZombie k i pa v) q := by
  obtain ⟨k₁,hrel,heq⟩ := becomeZombie_eq k i pa v
  rw [heq]
  refine hrel.spared.trans (.modProc (fun _ => ?_) rfl)
  rw [hrel.state]
  exact hi

/-! ## The status of an exit -/

theorem key_next {u : ℕ} (hu : u < userTop) (hne : (u + 1) % pgsize ≠ 0) :
    u + 1 < userTop ∧ key 3 (u+1) = key 3 u ∧ (u+1) % pgsize = u % pgsize + 1 := by
  unfold userTop at hu ⊢
  unfold pgsize at hne ⊢
  simp only [key,pgsize]
  omega

theorem key_low (v : ℕ) : key 3 v = key 3 (v % 2^48) ∧ v % pgsize = v % 2^48 % pgsize ∧
    (key 3 v < upages → v % 2^48 < userTop) := by
  unfold key upages userTop pgsize
  omega

theorem u2k_alone {p : Proc} {va : U64} {a : ℕ} (h : MemInv m kp sp extra) (hs : sp c = some (p.pgtbl,p.pPgtbl))
    (hu : u2k m p va true = .ok (a,m')) : Patched m m' kp sp extra c (fun _ => none) ∧
      va.toNat % 2^48 < userTop ∧ ∃ f, entry m' p.pgtbl (key 3 (va.toNat % 2^48)) = .full f ∧
        a = f * pgsize + va.toNat % 2^48 % pgsize := by
  obtain ⟨f,ha,-,hw⟩ := u2k_spec h hs hu
  have hp := hw rfl
  obtain ⟨hk,ho,hlt⟩ := key_low va.toNat
  have hfull := hp.full
  rw [hk] at hfull
  rw [ho] at ha
  exact ⟨.of_private h hp,hlt hp.lt,f,hfull,ha⟩

theorem Patched.setBytes {t t₂ a f : ℕ} {g : ℕ → Option UInt8} (hm : Patched m m₁ kp sp extra c g)
    (bs : List UInt8) (hs : sp c = some (t,t₂)) (ha : a < userTop) (he : entry m₁ t (key 3 a) = .full f)
    (hfit : a % pgsize + bs.length ≤ pgsize) :
    Patched m (m₁.setBytes (f * pgsize + a % pgsize) bs) kp sp extra c fun x => (patch a bs x).or (g x) := by
  induction bs generalizing m₁ a g with
  | nil => exact hm.congr fun x => by rw [patch_nil, Option.none_or]
  | cons b bs ih =>
    have hset := hm.trans (Patched.setByte (b := b) hm.inv hs ha he)
    have hcons : ∀ x, (patch a (b :: bs) x).or (g x) =
        (patch (a+1) bs x).or ((if x = a then some b else none).or (g x)) := fun x => by
      rw [patch_cons, Option.or_assoc]
    rw [Phys.setBytes]
    rw [List.length_cons] at hfit
    cases bs with
    | nil => exact hset.congr fun x => by rw [hcons, patch_nil, Option.none_or]
    | cons b' bs =>
      rw [List.length_cons] at hfit
      obtain ⟨hlt,hk,ho⟩ := key_next ha (by unfold pgsize at hfit ⊢; omega)
      rw [Nat.add_assoc, ← ho]
      refine (ih hset hlt ?_ (by rw [ho, List.length_cons]; omega)).congr hcons
      rw [hk]
      exact he

/-- No status word that a parent waits for runs over its page. -/
def StatusFits (k : Kernel) : Prop :=
  ∀ pa, (k.procs pa).waiting = true → (k.procs pa).waitStatus ≠ 0 → (k.procs pa).waitStatus.toNat % pgsize + 8 ≤ pgsize

/-- The status word `v` for a parent that waits for it at `p`. -/
def statusAt (p v : U64) : ℕ → Option UInt8 :=
  if p ≠ 0 then patch (p.toNat % 2^48) (toBytes v.toNat 8) else fun _ => none

theorem storeStatus_patched (h : KInv k) (hpa : (k.procs pa).state ≠ .close)
    (hfit : (k.procs pa).waitStatus ≠ 0 → (k.procs pa).waitStatus.toNat % pgsize + 8 ≤ pgsize)
    (hs : storeStatus k pa v = .ok k') : ∃ m, k' = k.setPhys m ∧ Patched k.phys m k.kPgtbl (spaces k)
      (live (ends k .rpipe) (ends k .wpipe)) pa (statusAt (k.procs pa).waitStatus v) := by
  unfold storeStatus at hs
  unfold statusAt
  split at hs
  · rename_i hne
    rw [if_pos hne]
    obtain ⟨⟨a,m⟩,hu,hs⟩ := bind_eq_ok.mp hs
    cases hs
    obtain ⟨hmove,hlt,f,hf,haddr⟩ := u2k_alone h.owned.mem (spaces_some hpa) hu
    have hroom := hfit hne
    rw [(key_low (k.procs pa).waitStatus.toNat).2.1] at hroom
    have hp := hmove.setBytes (toBytes v.toNat 8) (spaces_some hpa) hlt hf (by rw [toBytes_length]; exact hroom)
    rw [← haddr] at hp
    exact ⟨_,rfl,hp.congr fun x => (Option.or_none).symm⟩
  · rename_i hne
    cases hs
    rw [if_neg hne]
    exact ⟨k.phys,rfl,.refl h.owned.mem⟩

/-- The parent `pa` waited for the exit with status `v`, and has the status in its memory. -/
structure Told (k k' : Kernel) (v : U64) (pa : Slot) : Prop where
  before : (k.procs pa).waiting = true
  after : (k'.procs pa).waiting = false ∧ (k'.procs pa).state = .ready
  load : ∀ a, userLoad k'.phys (k'.procs pa).pgtbl a =
    (statusAt (k.procs pa).waitStatus v a).or (userLoad k.phys (k.procs pa).pgtbl a)
  mapped : ∀ a, userLoad k.phys (k.procs pa).pgtbl a = none → statusAt (k.procs pa).waitStatus v a = none

theorem Told.start (h : Told k₁ k' v pa) (hs : Spared k k₁ pa) (hk : KInv k) (hk₁ : KInv k₁)
    (hw : (k.procs pa).waiting = true) (hst : (k₁.procs pa).waitStatus = (k.procs pa).waitStatus) : Told k k' v pa := by
  have hload := hs.userLoad hk hk₁ (hk₁.waiting h.before)
  refine ⟨hw,h.after,fun a => ?_,fun a ha => ?_⟩
  · rw [h.load, hst, hload]
  · rw [← hst]
    apply h.mapped
    rw [hload, ha]

theorem Told.finish (h : Told k k₁ v pa) (hs : Spared k₁ k' pa) (hk₁ : KInv k₁) (hk' : KInv k')
    (hp : (k'.procs pa).waiting = false ∧ (k'.procs pa).state = .ready) : Told k k' v pa := by
  refine ⟨h.before,hp,fun a => ?_,h.mapped⟩
  rw [hs.userLoad hk₁ hk' (by rw [hp.2]; rintro ⟨⟩), h.load]

theorem reportExit_told (h : KInv k) (hw : (k.procs pa).waiting = true)
    (hfit : (k.procs pa).waitStatus ≠ 0 → (k.procs pa).waitStatus.toNat % pgsize + 8 ≤ pgsize)
    (hs : reportExit k i pa v = .ok k') : Told k k' v pa ∧ ∀ q ≠ pa, Spared k k' q := by
  have hopen := h.waiting hw
  unfold reportExit at hs
  obtain ⟨k₁,hst,hs⟩ := bind_eq_ok.mp hs
  cases hs
  have hl : (k.procs pa).Like { k.procs pa with waiting := false } := ⟨rfl,rfl,rfl,Iff.rfl⟩
  have hinv := h.modProc (f := fun p => { p with waiting := false }) hl (by rintro ⟨⟩)
  have hself : (k.modProc pa fun p => { p with waiting := false }).procs pa = { k.procs pa with waiting := false } :=
    Kernel.modProc_self ..
  have hpa : ((k.modProc pa fun p => { p with waiting := false }).procs pa).state ≠ .close := by
    rw [hself]
    exact hopen
  obtain ⟨m,rfl,hp⟩ := storeStatus_patched hinv hpa (by rw [hself]; exact hfit) hst
  have hsp := spaces_some hpa
  rw [hself] at hp
  rw [hself] at hsp
  obtain ⟨k₁,hk₁⟩ : ∃ k₁, k₁ = (k.modProc pa fun p => { p with waiting := false }).setPhys m := ⟨_,rfl⟩
  rw [← hk₁]
  have hpar : ∀ x, (k₁.wake pa x).procs pa = { k.procs pa with
      waiting := false, context := { (k.procs pa).context with rax := x }, state := .ready } := fun x => by
    rw [Kernel.wake, Kernel.modProc_self, hk₁, Kernel.setPhys_procs, hself]
  refine ⟨⟨hw,by rw [hpar]; exact ⟨rfl,rfl⟩,fun a => ?_,hp.mapped _ _ hsp⟩,fun q hq => ?_⟩
  · rw [hpar]
    change userLoad k₁.phys (k.procs pa).pgtbl a = _
    rw [hk₁]
    exact hp.self _ _ hsp a
  · have hstore : Spared k k₁ q := by
      rw [hk₁]
      exact .trans (.modProc id rfl) (.setPhys fun hq' => hp.others q hq _ _ (spaces_some hq'))
    refine hstore.trans (.wake ?_ _)
    rw [hk₁]
    exact hpa

theorem Clear.waiting (h : Clear k k' S) (hq : ¬ S q) : (k'.procs q).waiting = (k.procs q).waiting := by
  rcases h.procs q with ⟨hS,-⟩ | hp | ⟨-,ctx,hp⟩
  · exact absurd hS hq
  · rw [hp]
  · rw [hp]

theorem Clear.waitStatus (h : Clear k k' S) (hq : ¬ S q) : (k'.procs q).waitStatus = (k.procs q).waitStatus := by
  rcases h.procs q with ⟨hS,-⟩ | hp | ⟨-,ctx,hp⟩
  · exact absurd hS hq
  · rw [hp]
  · rw [hp]

theorem Relinked.waitStatus (h : Relinked k k') (q : Slot) : (k'.procs q).waitStatus = (k.procs q).waitStatus := by
  change (k'.procs q).core.waitStatus = (k.procs q).core.waitStatus
  rw [h.core]

theorem becomeZombie_waiting : ((becomeZombie k i pa v).procs q).waiting = (k.procs q).waiting := by
  obtain ⟨k₁,hrel,heq⟩ := becomeZombie_eq k i pa v
  rw [heq, Kernel.modProc_keeps Proc.waiting (by exact fun _ => rfl) q, hrel.waiting]

/-- `kill_proc` stores the status into the memory of a parent that it wakes, and touches nobody else. -/
theorem killProc_told (h : Sys k c) (hz : Reapable k c) (hfit : StatusFits k) (hk : killProc k c v = .ok k') :
    (∀ q, Spared k k' q ∧ ((k.procs q).waiting = true → (k'.procs q).waiting = true)) ∨
    ∃ pa, Told k k' v pa ∧ ∀ q ≠ pa, Spared k k' q ∧ ((k.procs q).waiting = true → (k'.procs q).waiting = true) := by
  have hu : ∀ j, Doomed k c j → Unread k j := fun j hj => (h.doomed hz hj).unread
  -- nobody who waits is given up
  have hnot : ∀ q, (k.procs q).waiting = true → ¬ Doomed k c q := fun q hq hd => h.doomed hz hd .wait hq
  obtain ⟨k₁,k₂,hrel,-,-,-,hcl,hw₂,hk⟩ := killProc_stages h.inv h.reg.wakeSafe hu hk
  have hsp : ∀ q, Spared k k₂ q := fun q => hrel.spared.trans (hcl.spared (hrel.wakeSafe h.reg.wakeSafe))
  have hkeep : ∀ q, (k.procs q).waiting = true → (k₂.procs q).waiting = true := fun q hq => by
    rw [hcl.waiting fun hS => hnot q hq (.inr hS), hrel.waiting, hq]
  rcases exitAsChild_cases hk with ⟨-,hc⟩ | ⟨pa,hpa,-,rfl⟩ | ⟨pa,k₃,hpa,hwait,hrep,hc⟩
  · left
    intro q
    have hcl₃ := (clearProc_ok hcl.inv hw₂ hc).2.2
    refine ⟨(hsp q).trans (hcl₃.spared hw₂),fun hq => ?_⟩
    rw [hcl₃.waiting fun hS => hnot q hq (.inl hS), hkeep q hq]
  · left
    intro q
    have hopen : (k₂.procs c).state ≠ .close := by
      rcases hcl.procs c with ⟨-,hp⟩ | hp | ⟨-,ctx,hp⟩
      · rw [hp] at hpa
        cases hpa
      · rw [hp, hrel.state]
        exact h.open
      · rw [hp]
        rintro ⟨⟩
    refine ⟨(hsp q).trans (becomeZombie_spared hopen),fun hq => ?_⟩
    rw [becomeZombie_waiting, hkeep q hq]
  · right
    -- the record of a waiting parent is the one it had
    have hfree : ¬ Reaches k.next (k.procs c).zombieChild pa := fun hS => by
      rcases hcl.procs pa with ⟨-,hp⟩ | hp | ⟨-,ctx,hp⟩
      · rw [hp] at hwait
        cases hwait
      · rw [hp, hrel.waiting] at hwait
        exact hnot pa hwait (.inr hS)
      · rw [hp] at hwait
        exact hnot pa ((hrel.waiting pa).symm.trans hwait) (.inr hS)
    have hrec : (k.procs pa).waiting = true := by
      rw [← hrel.waiting, ← hcl.waiting hfree, hwait]
    have hstat : (k₂.procs pa).waitStatus = (k.procs pa).waitStatus := by
      rw [hcl.waitStatus hfree, hrel.waitStatus]
    have hpac : pa ≠ c := by
      rintro rfl
      exact h.spare .wait hrec
    obtain ⟨htold,hoth⟩ := reportExit_told hcl.inv hwait (by rw [hstat]; exact hfit pa hrec) hrep
    have hrepd := reportExit_spec hcl.inv hwait hrep
    have hdet := detach_relinked k₃ c pa
    have hw₃ := hdet.wakeSafe (hrepd.wakeSafe (hcl.inv.waiting hwait) hw₂)
    obtain ⟨-,-,hcl₃⟩ := clearProc_ok (hdet.inv hrepd.inv) hw₃ hc
    have hend : ∀ q, Spared k₃ k' q := fun q => hdet.spared.trans (hcl₃.spared hw₃)
    refine ⟨pa,((htold.start (hsp pa) h.inv hcl.inv hrec hstat).finish (hend pa) hrepd.inv hcl₃.inv ⟨?_,?_⟩),
      fun q hq => ⟨(hsp q).trans ((hoth q hq).trans (hend q)),fun hwq => ?_⟩⟩
    · rw [hcl₃.waiting hpac, hdet.waiting, htold.after.1]
    · rcases hcl₃.procs pa with ⟨he,-⟩ | hp | ⟨-,ctx',hp⟩
      · exact absurd he hpac
      · rw [hp, hdet.state, htold.after.2]
      · rw [hp]
    · rw [hcl₃.waiting fun hS => hnot q hwq (.inl hS), hdet.waiting, hrepd.procs q hq, hkeep q hwq]

end Ukern
