import Ukern.Process.Inv

/-! # Closing descriptors and clearing slots

`clear_proc` gives back the two tables of a slot and one reference for each end of a pipe.
-/
namespace Ukern
open Lib
variable {k k' k₁ : Kernel} {i j r : Slot} {sp : Spaces} {R W R' W' : ℕ → ℕ} {f : FileDesc}

/-- Ends were closed: `R`, `W` became `R'`, `W'`. A reader is woken when the last write end
of its pipe goes. -/
structure Dropped (k k' : Kernel) (sp : Spaces) (R W R' W' : ℕ → ℕ) : Prop where
  owned : Owned k' sp R' W'
  le : ∀ pg, R' pg ≤ R pg ∧ W' pg ≤ W pg
  procs : ∀ j, k'.procs j = k.procs j ∨
    (∃ pg, W pg ≠ 0 ∧ W' pg = 0 ∧ (k.pipe pg).reader = some j) ∧
      ∃ c, k'.procs j = { k.procs j with context := c, state := .ready }
  pipe : ∀ pg, (k'.pipe pg).reader = (k.pipe pg).reader ∧ (k'.pipe pg).writer = (k.pipe pg).writer
  globals : k'.kPgtbl = k.kPgtbl ∧ k'.curproc = k.curproc ∧ k'.kbdProc = k.kbdProc
  contents : k'.phys.tbl = k.phys.tbl ∧ k'.phys.data = k.phys.data

theorem Dropped.refl (h : Owned k sp R W) : Dropped k k sp R W R W :=
  ⟨h,fun _ => ⟨le_rfl,le_rfl⟩,fun _ => Or.inl rfl,fun _ => ⟨rfl,rfl⟩,⟨rfl,rfl,rfl⟩,⟨rfl,rfl⟩⟩

theorem Dropped.trans {R₁ W₁ : ℕ → ℕ} (h : Dropped k k₁ sp R W R₁ W₁) (h' : Dropped k₁ k' sp R₁ W₁ R' W') :
    Dropped k k' sp R W R' W' where
  owned := h'.owned
  le pg := ⟨(h'.le pg).1.trans (h.le pg).1,(h'.le pg).2.trans (h.le pg).2⟩
  procs j := by
    have hmono : ∀ pg, W₁ pg ≠ 0 → W pg ≠ 0 := fun pg hpg => by
      have := (h.le pg).2
      omega
    rcases h'.procs j with h2 | ⟨⟨pg,hw,hw',hr⟩,c,h2⟩
    · rcases h.procs j with h1 | ⟨⟨pg,hw,hw',hr⟩,c,h1⟩
      · exact Or.inl (h2.trans h1)
      · have := (h'.le pg).2
        exact Or.inr ⟨⟨pg,hw,by omega,hr⟩,c,h2.trans h1⟩
    · refine Or.inr ⟨⟨pg,hmono pg hw,hw',(h.pipe pg).1 ▸ hr⟩,c,?_⟩
      rcases h.procs j with h1 | ⟨-,c₁,h1⟩
      · rw [h2, h1]
      · rw [h2, h1]
  pipe pg := ⟨(h'.pipe pg).1.trans (h.pipe pg).1,(h'.pipe pg).2.trans (h.pipe pg).2⟩
  globals := ⟨h'.globals.1.trans h.globals.1,h'.globals.2.1.trans h.globals.2.1,
    h'.globals.2.2.trans h.globals.2.2⟩
  contents := ⟨h'.contents.1.trans h.contents.1,h'.contents.2.trans h.contents.2⟩

theorem dec32_eq {n : ℕ} (h0 : n ≠ 0) (hlt : n < 2^32) : dec32 n = n - 1 := by
  unfold dec32
  omega

/-- Once its counts say `R'`, `W'`, a pipe is freed if and only if no end is left. -/
theorem releasePipe_spec {pg : ℕ} (hm : MemInv k.phys k.kPgtbl sp (live R W)) (hpg : R pg + W pg ≠ 0)
    (hR : ∀ x, x ≠ pg → R' x = R x) (hW : ∀ x, x ≠ pg → W' x = W x)
    (hrefs : ∀ x, R' x + W' x ≠ 0 ∨ x = pg → (k.pipe x).rref = R' x ∧ (k.pipe x).wref = W' x) :
    ∃ m', releasePipe k pg = .ok (k.setPhys m') ∧ Owned (k.setPhys m') sp R' W' ∧
      m'.tbl = k.phys.tbl ∧ m'.data = k.phys.data ∧ m'.pipe = k.phys.pipe := by
  obtain ⟨hr,hw⟩ := hrefs pg (Or.inr rfl)
  have hother : ∀ x, x ≠ pg → live R' W' x = live R W x := fun x hx => by
    simp only [live,hR x hx,hW x hx]
  unfold releasePipe
  rw [hr, hw]
  by_cases hz : R' pg = 0 ∧ W' pg = 0
  · obtain ⟨m',hf,hinv,hsh⟩ := hm.give pg (live_ne hpg)
    rw [if_pos hz, hf]
    refine ⟨m',rfl,⟨hinv.forget fun x => ?_,fun x hx => ?_⟩,hsh.tbl,hsh.data,hsh.pipe⟩
    · by_cases hx : x = pg
      · subst hx
        simp [live,hz]
      · rw [hother x hx, if_neg hx, Nat.sub_zero]
    · have h1 := hrefs x (Or.inl hx)
      simp only [Kernel.pipe,Kernel.setPhys_phys,hsh.pipe]
      exact h1
  · rw [if_neg hz]
    refine ⟨k.phys,rfl,⟨hm.forget fun x => ?_,fun x hx => hrefs x (Or.inl hx)⟩,rfl,rfl,rfl⟩
    by_cases hx : x = pg
    · subst hx
      unfold live
      rw [if_neg hpg]
      split <;> omega
    · exact (hother x hx).le

theorem hits_other {ty : FileType} (h : f.fileType ≠ ty) (pg : ℕ) : f.hits ty pg = 0 :=
  if_neg fun hh => h hh.2.1

theorem hits_self (hf : f.inuse = true) (pg : ℕ) : f.hits f.fileType pg = if pg = f.pipe then 1 else 0 := by
  simp [FileDesc.hits,hf,eq_comm]

theorem hits_kind {ty : FileType} (hf : f.inuse = true) (ht : f.fileType = ty) (pg : ℕ) :
    f.hits ty pg = if pg = f.pipe then 1 else 0 := ht ▸ hits_self hf pg

/-- The common end of both branches: the counts of `pg` are written, then the test for 0. -/
theorem Dropped.of_release (k₁ : Kernel) (R' W' : ℕ → ℕ) {pg : ℕ} {q : Pipe} (h : Owned k sp R W) (hpg : R pg + W pg ≠ 0)
    (hphys : k₁.phys = k.phys.setPipe pg q)
    (hglob : k₁.kPgtbl = k.kPgtbl ∧ k₁.curproc = k.curproc ∧ k₁.kbdProc = k.kbdProc)
    (hreg : q.reader = (k.pipe pg).reader ∧ q.writer = (k.pipe pg).writer)
    (hcnt : q.rref = R' pg ∧ q.wref = W' pg) (hle : ∀ x, R' x ≤ R x ∧ W' x ≤ W x)
    (hother : ∀ x, x ≠ pg → R' x = R x ∧ W' x = W x)
    (hprocs : ∀ j, k₁.procs j = k.procs j ∨ (∃ pg, W pg ≠ 0 ∧ W' pg = 0 ∧ (k.pipe pg).reader = some j) ∧
      ∃ c, k₁.procs j = { k.procs j with context := c, state := .ready }) :
    ∃ k', releasePipe k₁ pg = .ok k' ∧ Dropped k k' sp R W R' W' := by
  have hself : k₁.pipe pg = q := by
    simp only [Kernel.pipe,hphys,Phys.setPipe]
    exact Function.update_self ..
  have hne : ∀ x, x ≠ pg → k₁.pipe x = k.pipe x := fun x hx => by
    simp only [Kernel.pipe,hphys,Phys.setPipe]
    exact Function.update_of_ne hx ..
  have hmem : MemInv k₁.phys k₁.kPgtbl sp (live R W) := by
    rw [hphys, hglob.1]
    exact h.mem.setPipe pg q
  obtain ⟨m',hrel,hown,htbl,hdata,hpipe⟩ := releasePipe_spec hmem hpg (fun x hx => (hother x hx).1)
    (fun x hx => (hother x hx).2) (fun x hx => by
      by_cases hxp : x = pg
      · rw [hxp, hself]
        exact hcnt
      · rw [hne x hxp]
        obtain ⟨h1,h2⟩ := hother x hxp
        rw [h1, h2] at hx ⊢
        exact h.refs x (hx.resolve_right hxp))
  refine ⟨_,hrel,hown,hle,hprocs,fun x => ?_,hglob,htbl.trans (by rw [hphys]; rfl),
    hdata.trans (by rw [hphys]; rfl)⟩
  have hx : (k₁.setPhys m').pipe x = k₁.pipe x := by
    simp only [Kernel.pipe,Kernel.setPhys_phys,hpipe]
  rw [hx]
  by_cases hxp : x = pg
  · rw [hxp, hself]
    exact hreg
  · rw [hne x hxp]
    exact ⟨rfl,rfl⟩

/-- The branch of a write end up to the test: the last one wakes the reader. -/
theorem dropFdesc_write {n : ℕ} (hw : f.fileType = .wpipe) (hdec : dec32 (k.pipe f.pipe).wref = n) :
    ∃ k₁, dropFdesc k f = releasePipe k₁ f.pipe ∧
      k₁.phys = k.phys.setPipe f.pipe { k.pipe f.pipe with wref := n } ∧
      (k₁.kPgtbl = k.kPgtbl ∧ k₁.curproc = k.curproc ∧ k₁.kbdProc = k.kbdProc) ∧
      ∀ j, k₁.procs j = k.procs j ∨ (n = 0 ∧ (k.pipe f.pipe).reader = some j) ∧
        ∃ c, k₁.procs j = { k.procs j with context := c, state := .ready } := by
  simp only [dropFdesc,hw,hdec]
  cases hrd : (k.pipe f.pipe).reader with
  | none => exact ⟨_,rfl,rfl,⟨rfl,rfl,rfl⟩,fun _ => Or.inl rfl⟩
  | some r =>
    by_cases hz : n = 0
    · refine ⟨_,rfl,by simp only [hz,↓reduceIte]; rfl,by simp only [hz,↓reduceIte]; exact ⟨rfl,rfl,rfl⟩,
        fun j => ?_⟩
      simp only [hz,↓reduceIte,Kernel.wake]
      by_cases hj : j = r
      · subst hj
        exact Or.inr ⟨⟨trivial,rfl⟩,_,Kernel.modProc_self ..⟩
      · exact Or.inl (Kernel.modProc_ne _ _ _ hj)
    · exact ⟨_,rfl,by simp only [hz,↓reduceIte]; rfl,by simp only [hz,↓reduceIte]; exact ⟨rfl,rfl,rfl⟩,
        fun j => Or.inl (by simp only [hz,↓reduceIte]; rfl)⟩

theorem dropFdesc_spec (h : Owned k sp R W) (hf : f.inuse = true) (hR : f.hits .rpipe f.pipe ≤ R f.pipe)
    (hW : f.hits .wpipe f.pipe ≤ W f.pipe) (hRlt : R f.pipe < 2^32) (hWlt : W f.pipe < 2^32) :
    ∃ k', dropFdesc k f = .ok k' ∧
      Dropped k k' sp R W (fun pg => R pg - f.hits .rpipe pg) (fun pg => W pg - f.hits .wpipe pg) := by
  have hle : ∀ pg, R pg - f.hits .rpipe pg ≤ R pg ∧ W pg - f.hits .wpipe pg ≤ W pg := fun pg =>
    ⟨Nat.sub_le ..,Nat.sub_le ..⟩
  by_cases hr : f.fileType = .rpipe
  · have hhr := hits_kind hf hr
    have hhw : ∀ x, f.hits .wpipe x = 0 := hits_other (by rw [hr]; decide)
    simp only [hhr,hhw,↓reduceIte,Nat.sub_zero] at hR hle ⊢
    have href := h.refs f.pipe (by omega)
    obtain ⟨k',hrel,hd⟩ := Dropped.of_release
      (k.setPipe f.pipe { k.pipe f.pipe with rref := dec32 (k.pipe f.pipe).rref })
      (fun pg => R pg - if pg = f.pipe then 1 else 0) W h (by omega) rfl
      ⟨rfl,rfl,rfl⟩ ⟨rfl,rfl⟩ ⟨by rw [href.1, dec32_eq (by omega) hRlt, if_pos rfl],href.2⟩ hle
      (fun x hx => ⟨by rw [if_neg hx, Nat.sub_zero],rfl⟩) (fun _ => Or.inl rfl)
    exact ⟨k',by simp only [dropFdesc,hr]; exact hrel,hd⟩
  by_cases hw : f.fileType = .wpipe
  · have hhw := hits_kind hf hw
    have hhr : ∀ x, f.hits .rpipe x = 0 := hits_other hr
    simp only [hhr,hhw,↓reduceIte,Nat.sub_zero] at hW hle ⊢
    have href := h.refs f.pipe (by omega)
    have hdec : dec32 (k.pipe f.pipe).wref = W f.pipe - 1 := by rw [href.2, dec32_eq (by omega) hWlt]
    obtain ⟨k₁,heq,hphys,hglob,hprocs⟩ := dropFdesc_write hw hdec
    obtain ⟨k',hrel,hd⟩ := Dropped.of_release k₁ R (fun pg => W pg - if pg = f.pipe then 1 else 0) h
      (by omega) hphys hglob ⟨rfl,rfl⟩ ⟨href.1,by rw [if_pos rfl]⟩ hle
      (fun x hx => ⟨rfl,by rw [if_neg hx, Nat.sub_zero]⟩) (fun j => (hprocs j).imp id fun ⟨⟨hz,hrd⟩,hc⟩ =>
        ⟨⟨f.pipe,by omega,by rw [if_pos rfl]; exact hz,hrd⟩,hc⟩)
    exact ⟨k',heq.trans hrel,hd⟩
  · have hhr : ∀ x, f.hits .rpipe x = 0 := hits_other hr
    have hhw : ∀ x, f.hits .wpipe x = 0 := hits_other hw
    simp only [hhr,hhw,Nat.sub_zero]
    refine ⟨k,?_,.refl h⟩
    unfold dropFdesc
    cases hty : f.fileType <;> simp_all

theorem dropAll_step {p : Proc} {s : Kernel} {n : ℕ} (hn : n < nfdesc) (hp : (s.procs i).fdesc = p.fdesc)
    (hs : Owned s sp (fun pg => R pg - p.endsBelow .rpipe n pg) (fun pg => W pg - p.endsBelow .wpipe n pg))
    (hR : ∀ pg, p.endsBelow .rpipe nfdesc pg ≤ R pg ∧ R pg < 2^32)
    (hW : ∀ pg, p.endsBelow .wpipe nfdesc pg ≤ W pg ∧ W pg < 2^32) :
    ∃ t, (let f := (s.procs i).fdesc n; if f.inuse then dropFdesc s f else .ok s) = .ok t ∧
      Dropped s t sp (fun pg => R pg - p.endsBelow .rpipe n pg) (fun pg => W pg - p.endsBelow .wpipe n pg)
        (fun pg => R pg - p.endsBelow .rpipe (n+1) pg) (fun pg => W pg - p.endsBelow .wpipe (n+1) pg) := by
  have hmono : ∀ ty pg, p.endsBelow ty n pg + (p.fdesc n).hits ty pg ≤ p.endsBelow ty nfdesc pg := fun ty pg => by
    rw [← endsBelow_succ]
    exact Finset.sum_le_sum_of_subset (by simpa using hn)
  simp only [hp]
  by_cases hu : (p.fdesc n).inuse = true
  · rw [if_pos hu]
    obtain ⟨t,ht,hd⟩ := dropFdesc_spec hs hu
      (by have := hmono .rpipe (p.fdesc n).pipe; have := hR (p.fdesc n).pipe; omega)
      (by have := hmono .wpipe (p.fdesc n).pipe; have := hW (p.fdesc n).pipe; omega)
      (by have := hR (p.fdesc n).pipe; omega) (by have := hW (p.fdesc n).pipe; omega)
    refine ⟨t,ht,?_⟩
    simpa only [endsBelow_succ,Nat.sub_sub] using hd
  · have hz : ∀ ty pg, (p.fdesc n).hits ty pg = 0 := fun ty pg => if_neg fun hh => hu hh.1
    rw [if_neg hu]
    refine ⟨s,rfl,?_⟩
    simpa only [endsBelow_succ,hz,Nat.add_zero] using Dropped.refl hs

theorem Dropped.fdesc {p : Proc} (h : Dropped k k' sp R W R' W') (hp : (k.procs i).fdesc = p.fdesc) :
    (k'.procs i).fdesc = p.fdesc := by
  rcases h.procs i with h1 | ⟨-,c,h1⟩
  · rw [h1, hp]
  · rw [h1]
    exact hp

/-- The descriptor loop of `clear_proc`, after the tables are gone. -/
theorem dropAll_spec {p : Proc} (h : Owned k sp R W) (hp : (k.procs i).fdesc = p.fdesc)
    (hR : ∀ pg, p.endsBelow .rpipe nfdesc pg ≤ R pg ∧ R pg < 2^32)
    (hW : ∀ pg, p.endsBelow .wpipe nfdesc pg ≤ W pg ∧ W pg < 2^32) :
    ∃ k', (List.range nfdesc).foldlM (fun k fd =>
        let f := (k.procs i).fdesc fd
        if f.inuse then dropFdesc k f else .ok k) k = .ok k' ∧
      Dropped k k' sp R W (fun pg => R pg - p.endsBelow .rpipe nfdesc pg)
        (fun pg => W pg - p.endsBelow .wpipe nfdesc pg) := by
  refine foldlM_range_total (fun n s => Dropped k s sp R W (fun pg => R pg - p.endsBelow .rpipe n pg)
    (fun pg => W pg - p.endsBelow .wpipe n pg)) ?_ ?_
  · simpa [Proc.endsBelow] using Dropped.refl h
  · intro n s hn hs
    obtain ⟨t,ht,hd⟩ := dropAll_step hn (hs.fdesc hp) hs.owned hR hW
    exact ⟨t,ht,hs.trans hd⟩

/-- Readers that a closing write end would wake are not closed slots. -/
def WakeSafe (k : Kernel) : Prop :=
  ∀ pg r, ends k .wpipe pg ≠ 0 → (k.pipe pg).reader = some r → (k.procs r).state ≠ .close

/-- Slots in `S` were cleared. -/
structure Clear (k k' : Kernel) (S : Slot → Prop) : Prop where
  inv : KInv k'
  le : ∀ pg, ends k' .rpipe pg ≤ ends k .rpipe pg ∧ ends k' .wpipe pg ≤ ends k .wpipe pg
  procs : ∀ j, (S j ∧ k'.procs j = .zero) ∨ k'.procs j = k.procs j ∨
    (∃ pg, ends k .wpipe pg ≠ 0 ∧ ends k' .wpipe pg = 0 ∧ (k.pipe pg).reader = some j) ∧
      ∃ c, k'.procs j = { k.procs j with context := c, state := .ready }
  pipe : ∀ pg, (k'.pipe pg).reader = (k.pipe pg).reader ∧ (k'.pipe pg).writer = (k.pipe pg).writer
  globals : k'.kPgtbl = k.kPgtbl ∧ k'.curproc = k.curproc
  kbd : k'.kbdProc = k.kbdProc ∨ k'.kbdProc = none ∧ ∃ i, S i ∧ k.kbdProc = some i
  contents : k'.phys.tbl = k.phys.tbl ∧ k'.phys.data = k.phys.data

theorem Proc.zero_ends (ty : FileType) (pg : ℕ) : Proc.zero.ends ty pg = 0 := rfl

theorem ends_clear (ty : FileType) (hi : k'.procs i = .zero) (hj : ∀ j ≠ i, (k.procs j).Like (k'.procs j))
    (pg : ℕ) : ends k' ty pg + (k.procs i).ends ty pg = ends k ty pg := by
  have h := sum_replace (f := fun j => (k'.procs j).ends ty pg) (g := fun j => (k.procs j).ends ty pg)
    (Finset.mem_univ i) fun j _ hji => (hj j hji).ends ty pg
  simp only [hi,Proc.zero_ends,Nat.add_zero] at h
  exact h

theorem spaces_clear (hi : k'.procs i = .zero) (hj : ∀ j ≠ i, (k.procs j).Like (k'.procs j)) :
    spaces k' = Function.update (spaces k) i none := by
  funext j
  by_cases hji : j = i
  · subst hji
    rw [Function.update_self, spaces, hi]
    rfl
  · rw [Function.update_of_ne hji]
    exact (hj j hji).spaceOf

theorem clearProc_spec (h : KInv k) (hi : (k.procs i).state ≠ .close) (hwake : WakeSafe k) :
    ∃ k', clearProc k i = .ok k' ∧ k'.procs i = .zero ∧ Clear k k' (· = i) := by
  have hends : ∀ ty pg, (k.procs i).ends ty pg = (k.procs i).endsBelow ty nfdesc pg := fun ty pg => if_neg hi
  obtain ⟨m₁,m₂,hf₁,hf₂,hmem,hsh⟩ := h.owned.mem.release (spaces_some hi)
  let k₁ : Kernel := { (k.modProc i fun p => { p with state := .pending }) with
    phys := m₂, kbdProc := if k.kbdProc = some i then none else k.kbdProc }
  have hown₁ : Owned k₁ (Function.update (spaces k) i none) (ends k .rpipe) (ends k .wpipe) := by
    refine ⟨hmem,fun pg hpg => ?_⟩
    simp only [Kernel.pipe,k₁,hsh.pipe]
    exact h.owned.refs pg hpg
  have hp₁ : ∀ j, k₁.procs j = (k.modProc i fun p => { p with state := .pending }).procs j := fun _ => rfl
  obtain ⟨k₂,hd,hdr⟩ := dropAll_spec (i := i) (p := k.procs i) hown₁ (by rw [hp₁, Kernel.modProc_self])
    (fun pg => ⟨by rw [← hends]; exact le_ends k i .rpipe pg,ends_lt k .rpipe pg⟩)
    (fun pg => ⟨by rw [← hends]; exact le_ends k i .wpipe pg,ends_lt k .wpipe pg⟩)
  have hpipe₁ : ∀ pg, k₁.pipe pg = k.pipe pg := fun pg => by simp only [Kernel.pipe,k₁,hsh.pipe]
  refine ⟨k₂.setProc i .zero,?_,?_⟩
  · unfold clearProc
    simp only [Kernel.modProc_phys,Kernel.modProc_self,Kernel.modProc_kbdProc]
    exact bind_eq_ok.mpr ⟨m₁,hf₁,bind_eq_ok.mpr ⟨m₂,hf₂,bind_eq_ok.mpr ⟨k₂,hd,rfl⟩⟩⟩
  have hself : (k₂.setProc i .zero).procs i = .zero := Function.update_self ..
  have hprocs : ∀ j ≠ i, (k₂.setProc i .zero).procs j = k.procs j ∨
      (∃ pg, ends k .wpipe pg ≠ 0 ∧ ends k .wpipe pg - (k.procs i).endsBelow .wpipe nfdesc pg = 0 ∧
        (k.pipe pg).reader = some j) ∧
      ∃ c, (k₂.setProc i .zero).procs j = { k.procs j with context := c, state := .ready } := fun j hj => by
    have h1 : (k₂.setProc i .zero).procs j = k₂.procs j := Function.update_of_ne hj ..
    have h2 : k₁.procs j = k.procs j := by rw [hp₁, Kernel.modProc_ne _ _ _ hj]
    rw [h1]
    rcases hdr.procs j with h3 | ⟨⟨pg,hw,hw',hr⟩,c,h3⟩
    · exact Or.inl (h3.trans h2)
    · rw [hpipe₁] at hr
      rw [h2] at h3
      exact Or.inr ⟨⟨pg,hw,hw',hr⟩,c,h3⟩
  have hlike : ∀ j ≠ i, (k.procs j).Like ((k₂.setProc i .zero).procs j) := fun j hj => by
    rcases hprocs j hj with h1 | ⟨⟨pg,hw,-,hr⟩,c,h1⟩
    · rw [h1]
      exact ⟨rfl,rfl,rfl,Iff.rfl⟩
    · rw [h1]
      exact ⟨rfl,rfl,rfl,by simp [hwake pg j hw hr]⟩
  have hcnt : ∀ ty pg, ends (k₂.setProc i .zero) ty pg = ends k ty pg - (k.procs i).endsBelow ty nfdesc pg :=
    fun ty pg => by
      have h1 := ends_clear ty hself hlike pg
      rw [hends] at h1
      omega
  refine ⟨hself,⟨?_,fun j hj => ?_⟩,fun pg => ?_,fun j => ?_,fun pg => ?_,
    ⟨hdr.globals.1,hdr.globals.2.1⟩,?_,⟨hdr.contents.1.trans hsh.tbl,hdr.contents.2.trans hsh.data⟩⟩
  · rw [spaces_clear hself hlike, funext (hcnt .rpipe), funext (hcnt .wpipe)]
    exact ⟨hdr.owned.mem,hdr.owned.refs⟩
  · by_cases hji : j = i
    · rw [hji, hself]
      exact ⟨rfl,rfl,fun _ => rfl⟩
    · rcases hprocs j hji with h1 | ⟨-,c,h1⟩
      · rw [h1] at hj ⊢
        exact h.closed j hj
      · rw [h1] at hj
        simp at hj
  · rw [hcnt, hcnt]
    exact ⟨Nat.sub_le ..,Nat.sub_le ..⟩
  · by_cases hji : j = i
    · exact Or.inl ⟨hji,hji ▸ hself⟩
    · exact Or.inr (by simpa only [hcnt .wpipe] using hprocs j hji)
  · rw [← hpipe₁]
    exact hdr.pipe pg
  · have hk : (k₂.setProc i .zero).kbdProc = if k.kbdProc = some i then none else k.kbdProc :=
      hdr.globals.2.2
    rw [hk]
    by_cases hki : k.kbdProc = some i
    · exact Or.inr ⟨if_pos hki,i,rfl,hki⟩
    · exact Or.inl (if_neg hki)

theorem clearProc_closed (h : KInv k) (hi : (k.procs i).state = .close) : clearProc k i ≠ .ok k' := by
  intro hc
  unfold clearProc at hc
  obtain ⟨m₁,hf,-⟩ := bind_eq_ok.mp hc
  simp only [Kernel.modProc_phys,Kernel.modProc_self,(h.closed i hi).1] at hf
  have hal := (freeFrom_range hf).1
  rw [h.owned.mem.low] at hal
  cases hal

/-- No slot that waits to be woken as a reader. -/
def Unread (k : Kernel) (i : Slot) : Prop := ∀ pg, ends k .wpipe pg ≠ 0 → (k.pipe pg).reader ≠ some i

namespace Clear
variable {S S' : Slot → Prop}

theorem refl (h : KInv k) : Clear k k S :=
  ⟨h,fun _ => ⟨le_rfl,le_rfl⟩,fun _ => Or.inr (Or.inl rfl),fun _ => ⟨rfl,rfl⟩,⟨rfl,rfl⟩,Or.inl rfl,⟨rfl,rfl⟩⟩

theorem mono (h : Clear k k' S) (hS : ∀ j, S j → S' j) : Clear k k' S' :=
  { h with
    procs := fun j => (h.procs j).imp (fun hj => ⟨hS j hj.1,hj.2⟩) id
    kbd := h.kbd.imp id fun hk => ⟨hk.1,hk.2.imp fun i hi => ⟨hS i hi.1,hi.2⟩⟩ }

theorem unread (h : Clear k k' S) (hi : Unread k i) : Unread k' i := fun pg hpg hr => by
  have := (h.le pg).2
  rw [(h.pipe pg).1] at hr
  exact hi pg (by omega) hr

theorem wakeSafe (h : Clear k k' S) (hw : WakeSafe k) (hS : ∀ i, S i → Unread k i) : WakeSafe k' := by
  intro pg r hpg hr
  have hle := (h.le pg).2
  rw [(h.pipe pg).1] at hr
  rcases h.procs r with ⟨hSr,-⟩ | hp | ⟨-,c,hp⟩
  · exact absurd hr (hS r hSr pg (by omega))
  · rw [hp]
    exact hw pg r (by omega) hr
  · rw [hp]
    simp

theorem trans (h : Clear k k₁ S) (h' : Clear k₁ k' S) (hw : WakeSafe k₁) : Clear k k' S where
  inv := h'.inv
  le pg := ⟨(h'.le pg).1.trans (h.le pg).1,(h'.le pg).2.trans (h.le pg).2⟩
  procs j := by
    rcases h'.procs j with hz | h2 | ⟨⟨pg,he,he',hr⟩,c,h2⟩
    · exact Or.inl hz
    · rw [h2]
      rcases h.procs j with hz | h1 | ⟨⟨pg,he,he',hr⟩,c,h1⟩
      · exact Or.inl hz
      · exact Or.inr (Or.inl h1)
      · have := (h'.le pg).2
        exact Or.inr (Or.inr ⟨⟨pg,he,by omega,hr⟩,c,h1⟩)
    · have hle := (h.le pg).2
      have hpe : ∃ pg, ends k .wpipe pg ≠ 0 ∧ ends k' .wpipe pg = 0 ∧ (k.pipe pg).reader = some j :=
        ⟨pg,by omega,he',(h.pipe pg).1 ▸ hr⟩
      rcases h.procs j with ⟨-,h1⟩ | h1 | ⟨-,c₁,h1⟩
      · have := hw pg j he hr
        rw [h1] at this
        exact absurd rfl this
      · exact Or.inr (Or.inr ⟨hpe,c,by rw [h2, h1]⟩)
      · exact Or.inr (Or.inr ⟨hpe,c,by rw [h2, h1]⟩)
  pipe pg := ⟨(h'.pipe pg).1.trans (h.pipe pg).1,(h'.pipe pg).2.trans (h.pipe pg).2⟩
  globals := ⟨h'.globals.1.trans h.globals.1,h'.globals.2.trans h.globals.2⟩
  kbd := by
    rcases h'.kbd with h2 | ⟨h2,i,hi,hk⟩
    · rw [h2]
      exact h.kbd
    · rcases h.kbd with h1 | ⟨h1,-⟩
      · exact Or.inr ⟨h2,i,hi,h1 ▸ hk⟩
      · rw [h1] at hk
        cases hk
  contents := ⟨h'.contents.1.trans h.contents.1,h'.contents.2.trans h.contents.2⟩

end Clear

theorem clearProc_ok (h : KInv k) (hwake : WakeSafe k) (hc : clearProc k i = .ok k') :
    (k.procs i).state ≠ .close ∧ k'.procs i = .zero ∧ Clear k k' (· = i) := by
  have hi : (k.procs i).state ≠ .close := fun hcl => clearProc_closed h hcl hc
  obtain ⟨k₁,hk,hrest⟩ := clearProc_spec h hi hwake
  rw [hc] at hk
  cases hk
  exact ⟨hi,hrest⟩

end Ukern
