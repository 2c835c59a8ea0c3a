import Ukern.Run.Close
import Ukern.Process.Tables
import Ukern.Run.Session
import Ukern.Memory.Undo

/-! # The reference counts of a pipe

As long as a descriptor in use refers to a pipe, `rref` and `wref` are the numbers of its ends
and its page is its own. With the last end the page goes back to the free list.
-/
namespace Ukern
open Lib
variable {fs : Fs} {k k' k₁ : Kernel} {c i j pa : Slot} {f : FileDesc} {tr : Trap} {o : Outcome} {tf : Context}
  {m m' : Phys} {sp : Spaces} {R W : ℕ → ℕ} {pg fd x n : ℕ} {v : U64}

/-- A descriptor in use refers to the pipe on page `pg`. -/
def Kernel.LivePipe (k : Kernel) (pg : ℕ) : Prop := ends k .rpipe pg + ends k .wpipe pg ≠ 0

/-- The counts of a pipe are the numbers of its ends, and its page is taken once. -/
structure PipeExact (k : Kernel) (pg : ℕ) : Prop where
  rref : (k.pipe pg).rref = ends k .rpipe pg
  wref : (k.pipe pg).wref = ends k .wpipe pg
  held : k.phys.ref pg = 1 ∧ pg ∉ k.phys.free

/-- The page is on the free list, or a process has it in its memory by now. -/
def GivenBack (k : Kernel) (pg : ℕ) : Prop := pg ∈ k.phys.free ∨ mapped k.phys (spaces k) pg ≠ 0

theorem own_live_ne (m : Phys) (kp : ℕ) (sp : Spaces) (hpg : R pg + W pg ≠ 0) : own m kp sp (live R W) pg ≠ 0 := by
  have hlive := live_ne hpg
  unfold own
  omega

theorem KInv.pipeExact (h : KInv k) (hl : k.LivePipe pg) : PipeExact k pg := by
  obtain ⟨hr,hw⟩ := h.owned.refs pg hl
  have hown := own_live_ne k.phys k.kPgtbl (spaces k) hl
  exact ⟨hr,hw,h.owned.mem.solo pg hown,h.owned.mem.own_not_free hown⟩

/-! ## The last end -/

theorem freePage_last (h : freePage m pg = .ok m') (hr : m.ref pg = 1) : pg ∈ m'.free := by
  unfold freePage at h
  rw [hr] at h
  split at h
  · cases h
  split at h
  · cases h
  split at h
  · cases h
    exact List.mem_cons_self ..
  · rename_i hne
    exact absurd (by norm_num) hne

theorem releasePipe_drops (h : releasePipe k pg = .ok k') : Drops k.phys k'.phys := by
  unfold releasePipe at h
  split at h
  · obtain ⟨m,hm,h⟩ := bind_eq_ok.mp h
    cases h
    exact freePage_drops hm
  · cases h
    exact .refl

theorem dropFdesc_drops (h : dropFdesc k f = .ok k') : Drops k.phys k'.phys := by
  by_cases hend : f.IsEnd
  · obtain ⟨k₁,hdrop,hlow⟩ := dropFdesc_lowered (k := k) hend
    obtain ⟨q,hphys,-⟩ := hlow.phys
    have hd := releasePipe_drops (hdrop ▸ h)
    rw [hphys] at hd
    exact ⟨hd.ref,hd.free⟩
  · rw [dropFdesc_other hend] at h
    cases h
    exact .refl

/-- An end that is dropped as the last one takes the page with it. -/
theorem dropFdesc_last (h : Owned k sp R W) (hf : f.inuse = true) (hlt : R f.pipe < 2^32 ∧ W f.pipe < 2^32)
    (hd : dropFdesc k f = .ok k') (hpg : R pg + W pg ≠ 0)
    (hz : R pg - f.hits .rpipe pg + (W pg - f.hits .wpipe pg) = 0) : pg ∈ k'.phys.free := by
  have hhit : f.hits .rpipe pg ≠ 0 ∨ f.hits .wpipe pg ≠ 0 := by omega
  have hend : f.IsEnd := by
    by_contra hno
    rcases hhit with hh | hh
    · exact hh (hits_other (fun hty => hno (.inl hty)) pg)
    · exact hh (hits_other (fun hty => hno (.inr hty)) pg)
  have hpipe : f.pipe = pg := by
    by_contra hne
    rcases hhit with hh | hh <;> exact hh (if_neg fun hx => hne hx.2.2)
  subst hpipe
  obtain ⟨k₁,hdrop,hlow⟩ := dropFdesc_lowered (k := k) hend
  obtain ⟨q,hphys,hcounts⟩ := hlow.phys
  obtain ⟨hr,hw⟩ := h.refs f.pipe hpg
  have hzero : (q.rref,q.wref) = (0,0) := by
    rw [hcounts, countsWithout, hr, hw]
    rcases hend with hty | hty
    · have hhw : f.hits .wpipe f.pipe = 0 := hits_other (by rw [hty]; decide) _
      rw [hits_kind hf hty, if_pos rfl, hhw] at hz
      rw [if_pos hty, dec32_eq (by omega) hlt.1]
      exact Prod.ext (by simp only; omega) (by simp only; omega)
    · have hhr : f.hits .rpipe f.pipe = 0 := hits_other (by rw [hty]; decide) _
      rw [hits_kind hf hty, if_pos rfl, hhr] at hz
      rw [if_neg (by rw [hty]; decide), dec32_eq (by omega) hlt.2]
      exact Prod.ext (by simp only; omega) (by simp only; omega)
  have hself : k₁.pipe f.pipe = q := by
    rw [Kernel.pipe, hphys]
    exact Function.update_self ..
  rw [hdrop, releasePipe, hself, if_pos (Prod.mk.inj hzero)] at hd
  obtain ⟨m,hm,hd⟩ := bind_eq_ok.mp hd
  cases hd
  refine freePage_last hm ?_
  rw [hphys]
  exact h.mem.solo f.pipe (own_live_ne _ _ _ hpg)

/-- Pages come back, and those of the pipes that lost their last end are among them. -/
structure Returns (k k' : Kernel) : Prop where
  drops : Drops k.phys k'.phys
  last : ∀ pg, k.LivePipe pg → ¬ k'.LivePipe pg → pg ∈ k'.phys.free

theorem Drops.mem_free (h : Drops m m') (hx : x ∈ m.free) : x ∈ m'.free := (h.free x).mpr (.inl hx)

theorem Returns.refl : Returns k k := ⟨.refl,fun _ hl hn => absurd hl hn⟩

theorem Returns.trans (h : Returns k k₁) (h' : Returns k₁ k') : Returns k k' := by
  refine ⟨h.drops.trans h'.drops,fun pg hl hn => ?_⟩
  by_cases hl₁ : k₁.LivePipe pg
  · exact h'.last pg hl₁ hn
  · exact h'.drops.mem_free (h.last pg hl hl₁)

theorem dropAll_last {p : Proc} (h : Owned k sp R W) (hp : (k.procs i).fdesc = p.fdesc)
    (hR : ∀ pg, p.endsBelow .rpipe nfdesc pg ≤ R pg ∧ R pg < 2^32)
    (hW : ∀ pg, p.endsBelow .wpipe nfdesc pg ≤ W pg ∧ W pg < 2^32)
    (hd : (List.range nfdesc).foldlM (fun k fd =>
      let f := (k.procs i).fdesc fd
      if f.inuse then dropFdesc k f else .ok k) k = .ok k') :
    Drops k.phys k'.phys ∧ ∀ pg, R pg + W pg ≠ 0 →
      R pg - p.endsBelow .rpipe nfdesc pg + (W pg - p.endsBelow .wpipe nfdesc pg) = 0 → pg ∈ k'.phys.free := by
  -- what the loop has dropped so far, and the pages that this brought back
  refine (foldlM_range_inv (fun n s => Dropped k s sp R W (fun pg => R pg - p.endsBelow .rpipe n pg)
      (fun pg => W pg - p.endsBelow .wpipe n pg) ∧ Drops k.phys s.phys ∧ ∀ pg, R pg + W pg ≠ 0 →
      R pg - p.endsBelow .rpipe n pg + (W pg - p.endsBelow .wpipe n pg) = 0 → pg ∈ s.phys.free) ?_ ?_ hd).2
  · refine ⟨by simpa [Proc.endsBelow] using Dropped.refl h,.refl,fun pg hpg hz => ?_⟩
    simp only [Proc.endsBelow,Finset.range_zero,Finset.sum_empty] at hz
    omega
  · rintro n s t hn ⟨hs,hdr,hback⟩ ht
    obtain ⟨t',ht',hstep⟩ := dropAll_step hn (hs.fdesc hp) hs.owned hR hW
    obtain rfl : t' = t := Except.ok.inj (ht'.symm.trans ht)
    have hfd := hs.fdesc hp
    simp only [hfd] at ht
    refine ⟨hs.trans hstep,?_⟩
    split at ht
    · rename_i hu
      have hdr' := dropFdesc_drops ht
      refine ⟨hdr.trans hdr',fun pg hpg hz => ?_⟩
      by_cases hgone : R pg - p.endsBelow .rpipe n pg + (W pg - p.endsBelow .wpipe n pg) = 0
      · exact hdr'.mem_free (hback pg hpg hgone)
      · refine dropFdesc_last hs.owned hu ⟨?_,?_⟩ ht hgone ?_
        · exact (Nat.sub_le ..).trans_lt (hR _).2
        · exact (Nat.sub_le ..).trans_lt (hW _).2
        · rw [endsBelow_succ, endsBelow_succ] at hz
          omega
    · rename_i hu
      cases ht
      refine ⟨hdr,fun pg hpg hz => hback pg hpg ?_⟩
      have hno : ∀ ty, (p.fdesc n).hits ty pg = 0 := fun ty => if_neg fun hh => hu hh.1
      rwa [endsBelow_succ, endsBelow_succ, hno, hno] at hz

theorem clearProc_returns (h : KInv k) (hw : WakeSafe k) (hc : clearProc k i = .ok k') : Returns k k' := by
  obtain ⟨hi,hzero,hcl⟩ := clearProc_ok h hw hc
  have hends : ∀ ty pg, (k.procs i).ends ty pg = (k.procs i).endsBelow ty nfdesc pg := fun ty pg => if_neg hi
  have hlike : ∀ j ≠ i, (k.procs j).Like (k'.procs j) := fun j hj => by
    rcases hcl.procs j with ⟨hji,-⟩ | h1 | ⟨⟨pg,hpg,-,hr⟩,c,h1⟩
    · exact absurd hji hj
    · rw [h1]
      exact ⟨rfl,rfl,rfl,Iff.rfl⟩
    · rw [h1]
      exact ⟨rfl,rfl,rfl,by simp [hw pg j hpg hr]⟩
  obtain ⟨m₁,m₂,hf₁,hf₂,hmem,hsh⟩ := h.owned.mem.release (spaces_some hi)
  unfold clearProc at hc
  simp only [Kernel.modProc_phys,Kernel.modProc_self,Kernel.modProc_kbdProc,hf₁,hf₂,ok_bind] at hc
  obtain ⟨k₂,hd,hk'⟩ := bind_eq_ok.mp hc
  cases hk'
  have hown : Owned { (k.modProc i fun p => { p with state := .pending }) with
      phys := m₂, kbdProc := if k.kbdProc = some i then none else k.kbdProc }
      (Function.update (spaces k) i none) (ends k .rpipe) (ends k .wpipe) := by
    refine ⟨hmem,fun pg hpg => ?_⟩
    simp only [Kernel.pipe,hsh.pipe]
    exact h.owned.refs pg hpg
  obtain ⟨hdr,hlast⟩ := dropAll_last (i := i) (p := k.procs i) hown
    (by simp only [Kernel.modProc_self])
    (fun pg => ⟨by rw [← hends]; exact le_ends k i .rpipe pg,ends_lt k .rpipe pg⟩)
    (fun pg => ⟨by rw [← hends]; exact le_ends k i .wpipe pg,ends_lt k .wpipe pg⟩) hd
  refine ⟨((freeFrom_drops _ _ _ _ _ _ hf₁).trans (freeFrom_drops _ _ _ _ _ _ hf₂)).trans hdr,fun pg hl hn => ?_⟩
  refine hlast pg hl ?_
  have hr := ends_clear .rpipe hzero hlike pg
  have hw := ends_clear .wpipe hzero hlike pg
  rw [hends] at hr hw
  unfold Kernel.LivePipe at hn
  omega

theorem reap_returns {q : Option Slot} (h : KInv k) (hw : WakeSafe k) (hu : ∀ c, Reaches k.next q c → Unread k c)
    (hr : reap n k q = .ok k') : Returns k k' := by
  induction n generalizing k q with
  | zero =>
    cases q with
    | none =>
      cases hr
      exact .refl
    | some c => cases hr
  | succ n ih =>
    cases q with
    | none =>
      cases hr
      exact .refl
    | some c =>
      obtain ⟨k₁,hc,hr⟩ := bind_eq_ok.mp hr
      obtain ⟨-,-,hcl⟩ := clearProc_ok h hw hc
      have hS : ∀ j, j = c → Reaches k.next (some c) j := by
        rintro j rfl
        exact .head j
      have hsub : ∀ j, Reaches k₁.next (k.next c) j → Reaches k.next (some c) j := fun j hj =>
        .step (hj.mono hcl.next)
      exact (clearProc_returns h hw hc).trans (ih hcl.inv ((hcl.mono hS).wakeSafe hw hu)
        (fun j hj => hcl.unread (hu j (hsub j hj))) hr)

/-! ## The parent that waits -/

theorem u2k_free {p : Proc} {write : Bool} {a : ℕ} (h : u2k m p v write = .ok (a,m')) (hx : x ∈ m.free) :
    x ∈ m'.free ∨ a / pgsize = x := by
  unfold u2k at h
  obtain ⟨⟨t₁,i₁,m₁⟩,h₁,h⟩ := bind_eq_ok.mp h
  obtain ⟨rfl,-⟩ := walkSlot_read h₁
  obtain ⟨⟨t₂,i₂,m₂⟩,h₂,h⟩ := bind_eq_ok.mp h
  obtain ⟨rfl,-⟩ := walkSlot_read h₂
  simp only at h
  split at h
  · cases h
  split at h
  · cases h
  split at h
  · cases h
    exact .inl hx
  split at h
  · cases h
  · obtain ⟨⟨pg,m₃⟩,hcow,h⟩ := bind_eq_ok.mp h
    obtain ⟨rest,hfree,-,rfl⟩ := cowPage_ok hcow
    cases h
    rw [hfree] at hx
    rcases List.mem_cons.mp hx with rfl | hx
    · exact .inr (frame_div x (Nat.mod_lt _ (by decide))).1
    · exact .inl hx

theorem storeStatus_free (h : KInv k) (hpa : (k.procs pa).state ≠ .close) (hs : storeStatus k pa v = .ok k')
    (hx : x ∈ k.phys.free) : x ∈ k'.phys.free ∨ maps k'.phys (k.procs pa).pgtbl x ≠ 0 := by
  unfold storeStatus at hs
  split at hs
  · obtain ⟨⟨a,m⟩,hu,hs⟩ := bind_eq_ok.mp hs
    cases hs
    obtain ⟨f,ha,-,hpriv⟩ := u2k_spec h.owned.mem (spaces_some hpa) hu
    have hpriv := hpriv rfl
    rcases u2k_free hu hx with hfree | heq
    · refine .inl ?_
      rw [Kernel.setPhys_phys, (Phys.setBytes_free ..).1]
      exact hfree
    · refine .inr ?_
      have hf : f = x := by rw [← heq, ha, (frame_div f (Nat.mod_lt _ (by decide))).1]
      have hpos := maps_pos hpriv.lt (by rw [hpriv.full]; exact Pte.full_p f)
      rw [hpriv.full, Pte.full_frame, hf] at hpos
      rw [Kernel.setPhys_phys, maps, Phys.setBytes_tbl]
      exact hpos
  · cases hs
    exact .inl hx

/-! ## Exit -/

/-- Every pipe in use is still in use, or its page was given back. -/
def Settles (k k' : Kernel) : Prop := ∀ pg, k.LivePipe pg → k'.LivePipe pg ∨ GivenBack k' pg

theorem Returns.settles (h : Returns k k') : Settles k k' := fun pg hl => by
  by_cases hl' : k'.LivePipe pg
  · exact .inl hl'
  · exact .inr (.inl (h.last pg hl hl'))

theorem livePipe_congr (h : ends k' = ends k) : k'.LivePipe pg ↔ k.LivePipe pg := by
  unfold Kernel.LivePipe
  rw [h]

theorem FdsKept.settles (h : FdsKept k k') : Settles k k' := fun pg hl => .inl (by
  have hr := h.ends_le .rpipe pg
  have hw := h.ends_le .wpipe pg
  unfold Kernel.LivePipe at *
  omega)

/-- A state that differs in what neither descriptors nor memory see. -/
theorem Settles.like (h : Settles k k₁) (hl : ∀ j, (k₁.procs j).Like (k'.procs j)) (hm : k'.phys = k₁.phys) :
    Settles k k' := fun pg hpg => (h pg hpg).imp (livePipe_congr (ends_congr hl)).mpr fun hb => by
  unfold GivenBack
  rw [hm, spaces_congr hl]
  exact hb

theorem Settles.sched (h : Settles k k₁) (hs : k₁.sched = .ok o) : Settles k o.kernel := by
  obtain ⟨k₂,hk,ho⟩ := bind_eq_ok.mp hs
  cases ho
  obtain ⟨i,hi,rfl⟩ := sched_ok hk
  refine h.like (fun j => ?_) rfl
  by_cases hj : j = i
  · subst hj
    change (k₁.procs j).Like ((k₁.modProc j fun p => { p with state := .running }).procs j)
    rw [Kernel.modProc_self]
    exact ⟨rfl,rfl,rfl,by simp [hi]⟩
  · change (k₁.procs j).Like ((k₁.modProc i fun p => { p with state := .running }).procs j)
    rw [Kernel.modProc_ne _ _ _ hj]
    exact ⟨rfl,rfl,rfl,Iff.rfl⟩

theorem killProc_settles (h : Sys k c) (hz : Reapable k c) (hk : killProc k c v = .ok k') : Settles k k' := by
  have hu : ∀ j, Doomed k c j → Unread k j := fun j hj => (h.doomed hz hj).unread
  obtain ⟨k₁,k₂,hrel,hnext,hzc,hreap,hcl,hw₂,hk⟩ := killProc_stages h.inv h.reg.wakeSafe hu hk
  have hret : Returns k k₂ := by
    have hr := reap_returns (hrel.inv h.inv) (hrel.wakeSafe h.reg.wakeSafe)
      (fun j hj => hrel.unread (hu j (.inr (by rwa [hnext] at hj)))) hreap
    refine ⟨by rw [← hrel.phys]; exact hr.drops,fun pg hl hn => hr.last pg ?_ hn⟩
    exact (livePipe_congr hrel.ends).mpr hl
  -- a process that still has a parent was not among the zombies
  have hopen : ∀ pa, (k₂.procs c).parent = some pa → (k₂.procs c).state ≠ .close ∧ (k₂.procs c).waiting = false := by
    intro pa hpa
    have hwait : (k₁.procs c).waiting = false := by
      rw [hrel.waiting]
      exact Bool.eq_false_iff.mpr fun hw => h.spare .wait hw
    rcases hcl.procs c with ⟨-,hp⟩ | hp | ⟨-,ctx,hp⟩
    · rw [hp] at hpa
      cases hpa
    · rw [hp, hrel.state]
      exact ⟨h.open,hwait⟩
    · rw [hp]
      exact ⟨nofun,hwait⟩
  rcases exitAsChild_cases hk with ⟨-,hc⟩ | ⟨pa,hpa,-,rfl⟩ | ⟨pa,k₃,hpa,hwait,hrep,hc⟩
  · exact (hret.trans (clearProc_returns hcl.inv hw₂ hc)).settles
  · obtain ⟨k₃,hrel₃,heq⟩ := becomeZombie_eq k₂ c pa v
    rw [heq]
    refine (hret.settles.like hrel₃.like hrel₃.phys).like (fun j => ?_) rfl
    by_cases hj : j = c
    · subst hj
      rw [Kernel.modProc_self]
      exact ⟨rfl,rfl,rfl,by simp [hrel₃.state,(hopen pa hpa).1]⟩
    · rw [Kernel.modProc_ne _ _ _ hj]
      exact ⟨rfl,rfl,rfl,Iff.rfl⟩
  · have hpac : pa ≠ c := by
      rintro rfl
      rw [(hopen pa hpa).2] at hwait
      cases hwait
    have hopa := hcl.inv.waiting hwait
    have hrepd := reportExit_spec hcl.inv hwait hrep
    have hdet := detach_relinked k₃ c pa
    have hw₃ := hdet.wakeSafe (hrepd.wakeSafe hopa hw₂)
    have hret₃ := clearProc_returns (hdet.inv hrepd.inv) hw₃ hc
    obtain ⟨-,-,hcl₃⟩ := clearProc_ok (hdet.inv hrepd.inv) hw₃ hc
    have hlive : ∀ pg, (detach k₃ c pa).LivePipe pg ↔ k₂.LivePipe pg := fun pg =>
      (livePipe_congr hdet.ends).trans (livePipe_congr (ends_congr (hrepd.like hopa)))
    intro pg hl
    by_cases hl₂ : k₂.LivePipe pg
    · exact hret₃.settles pg ((hlive pg).mpr hl₂)
    · -- the page is free before the report, which may take it
      have hfree := hret.last pg hl hl₂
      unfold reportExit at hrep
      obtain ⟨k₄,hst,hwk⟩ := bind_eq_ok.mp hrep
      cases hwk
      have hl' : (k₂.procs pa).Like { k₂.procs pa with waiting := false } := ⟨rfl,rfl,rfl,Iff.rfl⟩
      have hback := storeStatus_free (hcl.inv.modProc (f := fun p => { p with waiting := false }) hl' nofun)
        (by rw [Kernel.modProc_self]; exact hopa) hst hfree
      rw [Kernel.modProc_self] at hback
      refine .inr (hback.imp (fun hf => ?_) fun hmap => ?_)
      · refine hret₃.drops.mem_free ?_
        rw [hdet.phys]
        exact hf
      · have hpg : (k'.procs pa).pgtbl = (k₂.procs pa).pgtbl ∧ (k'.procs pa).state ≠ .close := by
          obtain ⟨ctx,hpar⟩ := hrepd.parent
          have hdp := (hdet.like pa)
          rcases hcl₃.procs pa with ⟨he,-⟩ | hp | ⟨-,ctx',hp⟩
          · exact absurd he hpac
          · rw [hp, hdp.pgtbl, hpar]
            exact ⟨rfl,by rw [hdet.state, hpar]; nofun⟩
          · rw [hp]
            exact ⟨by rw [hdp.pgtbl, hpar],nofun⟩
        have hmap : maps k₄.phys (k₂.procs pa).pgtbl pg ≠ 0 := hmap
        have hle := MemInv.mapOf_le k'.phys (spaces k') pa pg
        rw [mapOf_some (spaces_some hpg.2), hpg.1] at hle
        have hsame : maps k'.phys (k₂.procs pa).pgtbl pg = maps k₄.phys (k₂.procs pa).pgtbl pg := by
          rw [maps, hcl₃.contents.1, hdet.phys]
          rfl
        omega

/-! ## Traps -/

theorem waitZombie_settles {ohead : Slot} (h : Sys k c) (hs : waitZombie k c ohead tf = .ok o) :
    Settles k o.kernel := by
  unfold waitZombie at hs
  obtain ⟨m,hst,hs⟩ := bind_eq_ok.mp hs
  obtain ⟨k₂,hcl,hs⟩ := bind_eq_ok.mp hs
  cases hs
  obtain ⟨d,hd⟩ : ∃ d, m = { k.phys with data := d } := by
    unfold waitStore at hst
    split at hst
    · exact kstores_data hst
    · cases hst
      exact ⟨_,rfl⟩
  have h₁ := (Quiet.setData h.inv ⟨d,hd⟩).sys h
  have hrel : ∀ nh, Relinked (k.setPhys m) (((k.setPhys m).modProc c fun p => { p with zombieChild := nh }).modPtr nh
      fun p => { p with prevSibling := none }) := fun nh => by
    refine (Relinked.refl.modProc ?_).modPtr ?_ <;> exact fun _ => rfl
  have hret := clearProc_returns ((hrel _).inv h₁.inv) ((hrel _).wakeSafe h₁.reg.wakeSafe) hcl
  exact fun pg hl => hret.settles pg ((livePipe_congr (hrel _).ends).mpr hl)

theorem wait_settles (h : Sys k c) (hs : sysWait k c tf = .ok o) : Settles k o.kernel := by
  unfold sysWait at hs
  obtain ⟨ok,-,hs⟩ := bind_eq_ok.mp hs
  split at hs
  · cases hs
    exact (FdsKept.refl k).settles
  split at hs
  · exact waitZombie_settles h hs
  split at hs
  · cases hs
    exact (FdsKept.refl k).settles
  · have ht : FdsKept k (k.modProc c fun p => { p with waiting := true, waitStatus := tf.rdx }) :=
      (FdsKept.refl k).modProc fun _ => ⟨rfl,.inl rfl⟩
    exact ((ht.block c tf).sched o hs).settles

theorem close_settles (h : Sys k c) (hbal : ∀ fd, fdOf tf.rdx = some fd → Balanced (k.procs c) fd)
    (hs : sysClose k c tf = .ok o) : Settles k o.kernel := by
  unfold sysClose at hs
  split at hs
  · cases hs
    exact (FdsKept.refl k).settles
  · rename_i fd hfd
    simp only at hs
    split at hs
    · cases hs
      exact (FdsKept.refl k).settles
    · rename_i hu
      obtain ⟨k₁,hdrop,hs⟩ := bind_eq_ok.mp hs
      split at hs
      · cases hs
      · rename_i hlt
        cases hs
        have hu' : ((k.procs c).fdesc fd).inuse = true := by simpa using hu
        have hends := h.closeEnds (g := { (k₁.procs c).fdesc (fd + fd) with inuse := false })
          (hbal fd hfd) (by omega) rfl hu' hdrop rfl
        intro pg hl
        by_cases hz : ends k .rpipe pg - ((k.procs c).fdesc fd).hits .rpipe pg +
            (ends k .wpipe pg - ((k.procs c).fdesc fd).hits .wpipe pg) = 0
        · have hfree : pg ∈ k₁.phys.free := dropFdesc_last h.inv.owned hu' ⟨ends_lt ..,ends_lt ..⟩ hdrop hl hz
          exact .inr (.inl hfree)
        · refine .inl ?_
          rw [Kernel.LivePipe, Outcome.kernel, hends _ (.inl rfl), hends _ (.inr rfl)]
          exact hz

theorem Effect.settles (he : Effect k c tr o) (h : Sys k c) (hg : Orderly k c tr) : Settles k o.kernel := by
  have hquiet : ∀ {k'}, Quiet k k' → Settles k k' := fun hq pg hl => .inl (by
    rw [Kernel.LivePipe, hq.ends_eq.1, hq.ends_eq.2]
    exact hl)
  cases he with
  | returned hr =>
    obtain ⟨tf',k',rfl,hq⟩ := hr
    exact hquiet hq
  | forked hc hs =>
    obtain ⟨n,k',rfl,hok⟩ := sysFork_spec h.inv h.open hs
    intro pg hl
    refine .inl ?_
    rw [Kernel.LivePipe, Outcome.kernel, hok.ends_eq h.open, hok.ends_eq h.open]
    unfold Kernel.LivePipe at hl
    omega
  | execed hq he hs =>
    refine Settles.sched (fun pg hl => ?_) hs
    refine .inl ((livePipe_congr he.ends_eq).mpr ?_)
    rw [Kernel.LivePipe, hq.ends_eq.1, hq.ends_eq.2]
    exact hl
  | killed hk hs => exact (killProc_settles h (h.reapable hg.reaps) hk).sched hs
  | unknown hv hu _ _ =>
    obtain ⟨call,hnum⟩ := hg.known hv
    exact absurd hnum (hu call)
  | yielded hs => exact (yield_tables k c tr.tf o hs).settles
  | keyed hs => exact (keyboard_tables k c tr o hs).settles
  | readKbd hs => exact (readKbd_tables k c tr.tf o hs).settles
  | waited _ hs => exact wait_settles h hs
  | piped ho hp =>
    rw [ho]
    intro pg hl
    refine .inl ?_
    rw [Kernel.LivePipe, Outcome.kernel, hp.ends_eq _ (.inl rfl), hp.ends_eq _ (.inr rfl)]
    unfold Kernel.LivePipe at hl
    omega
  | readPipe _ _ _ _ hs => exact (readPipe_tables k c _ tr.tf o hs).settles
  | wrotePipe _ _ _ _ _ hs => exact (writePipe_tables k c _ tr.tf o hs).settles
  | closed hc hs => exact close_settles h (hg.close hc) hs

theorem Step.settles (h : Sys k c) (hs : Step fs Orderly k k') : Settles k k' := by
  cases hs with
  | trap hc hg ht =>
    rw [trapHandler, hc] at ht
    obtain rfl := Option.some.inj (hc.symm.trans h.cur)
    exact (trap_effect h.inv h.open ht).settles h hg
  | store _ _ =>
    apply FdsKept.settles
    exact (FdsKept.refl k).of_procs rfl

/-- `close(3)`. -/
def closeTrap : Trap := ⟨32,0,0,{ Context.zero with rax := 7, rdx := 3 },0⟩

/-- The read end is dropped, and entry 6 of the table is marked unused. -/
theorem close_piped (fs : Fs) (a b : ℕ) (pwd : FileDesc) (hq : m.pipe pg = { Pipe.zero with rref := 1, wref := 1 }) :
    trapHandler fs (pipedKernel m a b pwd pg) closeTrap = .ok (.ret closeTrap.tf
      (((pipedKernel m a b pwd pg).setPipe pg { Pipe.zero with wref := 1 }).setFdesc firstSlot 6 .zero)) := by
  have hcur : (pipedKernel m a b pwd pg).curproc = some firstSlot := rfl
  have hself := pipedKernel_self m a b pwd pg
  have hpipe : (pipedKernel m a b pwd pg).pipe pg = { Pipe.zero with rref := 1, wref := 1 } := hq
  have hfd : ((pipedKernel m a b pwd pg).procs firstSlot).fdesc 3 = FileDesc.zero.endOf .rpipe pg := by
    rw [hself]
    rfl
  have hdrop : dropFdesc (pipedKernel m a b pwd pg) (FileDesc.zero.endOf .rpipe pg) =
      .ok ((pipedKernel m a b pwd pg).setPipe pg { Pipe.zero with wref := 1 }) := by
    change releasePipe ((pipedKernel m a b pwd pg).setPipe pg
      { (pipedKernel m a b pwd pg).pipe pg with rref := dec32 ((pipedKernel m a b pwd pg).pipe pg).rref }) pg = _
    rw [hpipe, releasePipe, Kernel.setPipe_self]
    rfl
  rw [trapHandler_call .close hcur ⟨rfl,rfl⟩]
  rw [Call.run, sysClose]
  rw [show fdOf closeTrap.tf.rdx = some 3 from rfl]
  simp only [hfd,hdrop,ok_bind]
  rw [Kernel.setPipe_procs, hself]
  rfl

end Ukern
