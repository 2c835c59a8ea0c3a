import Ukern.Memory.Word
import Ukern.Run.Session

/-! # `sys_pipe` over the memory it scans

The loop of `sys_pipe` looks at 256 descriptors from `curproc->fdesc` on, of which the process has 64. Here they
are taken as they stand in memory, so that the loop can come to its end without two free ones, and the page and
the descriptors are given back.
-/
namespace Ukern
open Lib
variable {k : Kernel} {c : Slot} {m m' : Phys} {tf tf' : Context} {tbl tbl' : ℕ → FileDesc} {l : List ℕ} {t pg nfd : ℕ}

/-- The number of descriptors that the loop looks at. -/
def nscan : ℕ := 256

/-- The loop of `sys_pipe` over the descriptors `l`, with `nfd`. -/
def pipeScan (t pg : ℕ) (fds : U64) : List ℕ → ℕ → Phys → (ℕ → FileDesc) → Except Fault (ℕ × Phys × (ℕ → FileDesc))
  | [], nfd, m, tbl => .ok (nfd,m,tbl)
  | fd :: l, nfd, m, tbl =>
    if (tbl fd).inuse then pipeScan t pg fds l nfd m tbl
    else do
      let m ← kstores m t (fds + BitVec.ofNat 64 (4 * nfd)) (toBytes fd 4)
      let tbl := Function.update tbl fd ((tbl fd).endOf (if nfd = 0 then .rpipe else .wpipe) pg)
      if nfd + 1 = 2 then .ok (nfd + 1,m,tbl) else pipeScan t pg fds l (nfd + 1) m tbl

/-- The last loop of `sys_pipe`. -/
def unuse (tbl : ℕ → FileDesc) (nfd : ℕ) : ℕ → FileDesc :=
  (List.range nfd).foldl (fun tbl fd => Function.update tbl fd { tbl fd with inuse := false }) tbl

/-- `sys_pipe` for process `p` with the memory `tbl` from its descriptors on. Without two free descriptors it
returns without a store to `tf->rax`. -/
def sysPipeScan (m : Phys) (p : Proc) (tbl : ℕ → FileDesc) (tf : Context) :
    Except Fault (Context × Phys × (ℕ → FileDesc)) := do
  if !(← checkStr m p.pPgtbl tf.rdx 8 pteU) then .ok ({ tf with rax := neg efault },m,tbl)
  else
    let (pg,m) ← getPage m true
    let m := m.setPipe pg { m.pipe pg with rref := 1, wref := 1 }
    let (nfd,m,tbl) ← pipeScan p.pgtbl pg tf.rdx (List.range nscan) 0 m tbl
    if nfd = 2 then .ok ({ tf with rax := 0 },m,tbl)
    else
      let m ← freePage m pg
      .ok (tf,m,unuse tbl nfd)

/-- The free ones among the descriptors `l`. -/
def freeOf (tbl : ℕ → FileDesc) (l : List ℕ) : List ℕ := l.filter fun i => !(tbl i).inuse

theorem pipeScan_freeOf {fds : U64} (hl : l.Nodup) :
    pipeScan t pg fds l nfd m tbl = pipeScan t pg fds (freeOf tbl l) nfd m tbl := by
  induction l generalizing nfd m tbl with
  | nil => rfl
  | cons fd l ih =>
    obtain ⟨hfd,hl⟩ := List.nodup_cons.mp hl
    cases hu : (tbl fd).inuse with
    | true =>
      have hdrop : freeOf tbl (fd :: l) = freeOf tbl l := List.filter_cons_of_neg (by simp [hu])
      rw [hdrop, pipeScan, if_pos hu]
      exact ih hl
    | false =>
      have hkeep : freeOf tbl (fd :: l) = fd :: freeOf tbl l := List.filter_cons_of_pos (by simp [hu])
      rw [hkeep, pipeScan, pipeScan]
      refine if_congr Iff.rfl (ih hl) ?_
      congr 1
      funext m'
      refine if_congr Iff.rfl rfl ?_
      rw [ih hl]
      congr 1
      refine List.filter_congr fun i hi => ?_
      have hne : i ≠ fd := by
        rintro rfl
        exact hfd hi
      rw [Function.update_of_ne hne]

theorem freeFd_lowest {p : Proc} {fd r : ℕ} (hr : r < nfdesc) (hle : fd ≤ r) (hfree : (p.fdesc r).inuse = false)
    (hlow : ∀ i < r, fd ≤ i → (p.fdesc i).inuse = true) : freeFd p fd = .ok r := by
  have hfind : (List.range nfdesc).find? (fun i => decide (fd ≤ i) && !(p.fdesc i).inuse) = some r := by
    rw [List.find?_range_eq_some]
    refine ⟨by simp [hle,hfree],List.mem_range.mpr hr,fun i hi => ?_⟩
    by_cases hfd : fd ≤ i
    · simp [hlow i hi hfd]
    · simp [hfd]
  rw [freeFd, hfind]

/-- Two of the descriptors are free. -/
def TwoFree (tbl : ℕ → FileDesc) : Prop :=
  ∃ r w, r < w ∧ w < nscan ∧ (tbl r).inuse = false ∧ (tbl w).inuse = false

/-- The new pipe is on page `pg` and its ends are `r` and `w`, the two lowest descriptors. -/
structure PipeMade (m m' : Phys) (t : ℕ) (fds : U64) (tbl tbl' : ℕ → FileDesc) (r w pg : ℕ) : Prop where
  order : r < w ∧ w < nscan
  free : (tbl r).inuse = false ∧ (tbl w).inuse = false
  lowest : ∀ i < w, i ≠ r → (tbl i).inuse = true
  table : tbl' = Function.update (Function.update tbl r ((tbl r).endOf .rpipe pg)) w ((tbl w).endOf .wpipe pg)
  fresh : pg ∈ m.free ∧ pg ∉ m'.free
  pipe : m'.pipe pg = { Pipe.zero with rref := 1, wref := 1 }
  numbers : ∀ i < 8, userLoad m' t (fds.toNat + i) = some ((toBytes r 4 ++ toBytes w 4).getD i 0)

/-- An error for the caller, with the descriptors and the free pages as they were. -/
structure PipeRefused (m m' : Phys) (tbl tbl' : ℕ → FileDesc) (rax : U64) : Prop where
  error : toInt32 rax < 0
  table : ∀ i < nscan, tbl' i = tbl i
  freed : m'.free = m.free ∧ m'.nfreepages = m.nfreepages

/-- Both descriptors or none. -/
def AllOrNothing (m m' : Phys) (t : ℕ) (tf tf' : Context) (tbl tbl' : ℕ → FileDesc) : Prop :=
  (TwoFree tbl → tf'.rax = 0 ∧ ∃ r w pg, PipeMade m m' t tf.rdx tbl tbl' r w pg) ∧
    (¬ TwoFree tbl → PipeRefused m m' tbl tbl' tf'.rax)

/-! ## The free descriptors -/

theorem mem_freeOf {i : ℕ} : i ∈ freeOf tbl (List.range nscan) ↔ i < nscan ∧ (tbl i).inuse = false := by
  rw [freeOf, List.mem_filter, List.mem_range, Bool.not_eq_true']

theorem freeOf_sorted : (freeOf tbl (List.range nscan)).Pairwise (· < ·) := List.pairwise_lt_range.filter _

theorem freeOf_two {r w : ℕ} (h : freeOf tbl (List.range nscan) = r :: w :: l) :
    (r < w ∧ w < nscan) ∧ ((tbl r).inuse = false ∧ (tbl w).inuse = false) ∧ ∀ i < w, i ≠ r → (tbl i).inuse = true := by
  have hmem : ∀ i, i ∈ r :: w :: l ↔ i < nscan ∧ (tbl i).inuse = false := fun i => h ▸ mem_freeOf
  have hsort : (r :: w :: l).Pairwise (· < ·) := h ▸ freeOf_sorted
  obtain ⟨hr,hsort⟩ := List.pairwise_cons.mp hsort
  obtain ⟨hw,-⟩ := List.pairwise_cons.mp hsort
  have hwm := (hmem w).mp (by simp)
  refine ⟨⟨hr w (by simp),hwm.1⟩,⟨((hmem r).mp (by simp)).2,hwm.2⟩,fun i hi hne => ?_⟩
  by_contra hfree
  have hiw : i ∈ r :: w :: l := (hmem i).mpr ⟨by omega,Bool.not_eq_true _ ▸ hfree⟩
  rcases List.mem_cons.mp hiw with he | hiw
  · exact hne he
  · rcases List.mem_cons.mp hiw with he | hil
    · omega
    · have := hw i hil
      omega

theorem twoFree_iff : TwoFree tbl ↔ ∃ r w l, freeOf tbl (List.range nscan) = r :: w :: l := by
  constructor
  · rintro ⟨r,w,hrw,hw,hfr,hfw⟩
    have hr : r ∈ freeOf tbl (List.range nscan) := mem_freeOf.mpr ⟨by omega,hfr⟩
    have hw : w ∈ freeOf tbl (List.range nscan) := mem_freeOf.mpr ⟨hw,hfw⟩
    match hf : freeOf tbl (List.range nscan) with
    | [] => simp [hf] at hr
    | [f] =>
      simp only [hf,List.mem_singleton] at hr hw
      omega
    | r :: w :: l => exact ⟨r,w,l,rfl⟩
  · rintro ⟨r,w,l,h⟩
    obtain ⟨⟨hrw,hw⟩,⟨hfr,hfw⟩,-⟩ := freeOf_two h
    exact ⟨r,w,hrw,hw,hfr,hfw⟩

/-! ## What the loop does -/

theorem pipeScan_two {fds : U64} {r w : ℕ} (hne : w ≠ r) (hr : (tbl r).inuse = false) (hw : (tbl w).inuse = false) :
    pipeScan t pg fds (r :: w :: l) 0 m tbl = kstores m t fds (toBytes r 4 ++ toBytes w 4) >>= fun m' =>
      .ok (2,m',Function.update (Function.update tbl r ((tbl r).endOf .rpipe pg)) w ((tbl w).endOf .wpipe pg)) := by
  have hw' : (Function.update tbl r ((tbl r).endOf .rpipe pg) w) = tbl w := Function.update_of_ne hne ..
  have h0 : fds + BitVec.ofNat 64 (4 * 0) = fds := BitVec.add_zero fds
  rw [kstores_append, toBytes_length, bind_assoc, pipeScan, if_neg (by simp [hr]), h0]
  refine bind_congr_ok fun m₁ _ => ?_
  rw [if_pos rfl, if_neg (by decide), pipeScan, hw', if_neg (by simp [hw])]
  rfl

theorem pipeScan_one {fds : U64} {f : ℕ} (hf : (tbl f).inuse = false) :
    pipeScan t pg fds [f] 0 m tbl = kstores m t fds (toBytes f 4) >>= fun m' =>
      .ok (1,m',Function.update tbl f ((tbl f).endOf .rpipe pg)) := by
  have h0 : fds + BitVec.ofNat 64 (4 * 0) = fds := BitVec.add_zero fds
  rw [pipeScan, if_neg (by simp [hf]), h0]
  rfl

theorem freePage_taken {m₁ m₂ : Phys} {C : ℕ → ℕ} {z : Bool} (ha : Acct m C) (hg : getPage m z = .ok (pg,m₁))
    (hm : ∃ d q, m₂ = { m₁ with data := d, pipe := q }) :
    ∃ m', freePage m₂ pg = .ok m' ∧ m'.free = m.free ∧ m'.nfreepages = m.nfreepages := by
  obtain ⟨d,q,rfl⟩ := hm
  have hgrow := grow_getPage hg
  have hfree : m.free = pg :: m₁.free := hgrow.free
  have hal : m₁.allocatable pg = true := by
    rw [hgrow.allocatable]
    exact (ha.free_ok pg (by rw [hfree]; simp)).1
  have href : m₁.ref pg = 1 := by
    rw [hgrow.ref, if_pos (by simp)]
  have hcount : m₁.nfreepages + 1 = m.nfreepages := by
    rw [hgrow.count, ha.count, hfree]
    simp
  refine ⟨{ m₁ with
    data := d
    pipe := q
    ref := Function.update m₁.ref pg 0
    free := pg :: m₁.free
    nfreepages := m₁.nfreepages + 1 },?_,hfree.symm,hcount⟩
  unfold freePage
  rw [if_neg, if_neg, if_pos]
  · change m₁.ref pg - 1 = 0
    omega
  · change ¬ m₁.ref pg ≤ 0
    omega
  · change ¬ (!m₁.allocatable pg) = true
    rw [hal]
    decide

/-- The result array is where it was after the page has been taken. -/
theorem Sys.span_getPage {v : U64} {n : ℕ} (h : Sys k c) (hspan : Span k.phys (k.procs c).pgtbl v n)
    (hg : getPage k.phys true = .ok (pg,m)) (m' : Phys) (ht : m'.tbl = m.tbl) : Span m' (k.procs c).pgtbl v n ∧
      ∀ i < n, entry m' (k.procs c).pgtbl (key 3 (v.toNat + i)) =
        entry k.phys (k.procs c).pgtbl (key 3 (v.toNat + i)) := by
  have hu := hspan.user
  have hent : ∀ i < n, entry m' (k.procs c).pgtbl (key 3 (v.toNat + i)) =
      entry k.phys (k.procs c).pgtbl (key 3 (v.toNat + i)) := by
    intro i hi
    rw [entry, ht]
    exact (h.keep_getPage hg).1.entry (key_user (by omega))
  refine ⟨⟨hu,fun i hi => ?_⟩,hent⟩
  rw [hent i hi]
  exact hspan.present i hi

theorem sysPipeScan_made {r w : ℕ} (h : Sys k c) (hstr : checkStr k.phys (k.procs c).pPgtbl tf.rdx 8 pteU = .ok true)
    (hspan : Span k.phys (k.procs c).pgtbl tf.rdx 8) (hg : getPage k.phys true = .ok (pg,m))
    (hf : freeOf tbl (List.range nscan) = r :: w :: l) :
    ∃ m' tbl', sysPipeScan k.phys (k.procs c) tbl tf = .ok ({ tf with rax := 0 },m',tbl') ∧
      PipeMade k.phys m' (k.procs c).pgtbl tf.rdx tbl tbl' r w pg := by
  obtain ⟨horder,⟨hfr,hfw⟩,hlow⟩ := freeOf_two hf
  obtain ⟨m₁,hm₁⟩ : ∃ m₁, m₁ = m.setPipe pg { m.pipe pg with rref := 1, wref := 1 } := ⟨_,rfl⟩
  obtain ⟨hspan₁,hent⟩ := h.span_getPage hspan hg m₁ (by rw [hm₁]; rfl)
  have hlen : (toBytes r 4 ++ toBytes w 4).length = 8 := by
    rw [List.length_append, toBytes_length, toBytes_length]
  rw [← hlen] at hspan₁
  obtain ⟨m₂,hstore,hwrote⟩ := kstores_stored hspan₁ (by rw [hlen]; decide)
  have hgrow := grow_getPage hg
  obtain ⟨d,hd⟩ := hwrote.rest
  refine ⟨m₂,_,?_,horder,⟨hfr,hfw⟩,hlow,rfl,⟨?_,?_⟩,?_,fun i hi => ?_⟩
  · unfold sysPipeScan
    rw [hstr, ok_bind, if_neg (by decide), hg, ok_bind]
    simp only
    rw [pipeScan_freeOf List.nodup_range, hf, pipeScan_two (by omega) hfr hfw, ← hm₁, hstore, ok_bind, ok_bind]
    rfl
  · rw [hgrow.free]
    simp
  · have hnodup := h.inv.owned.mem.acct.nodup
    rw [hgrow.free] at hnodup
    rw [hd, hm₁]
    exact (List.nodup_cons.mp hnodup).1
  · rw [hd, hm₁]
    exact (Function.update_self ..).trans (by rw [(getPage_zero hg).2.2])
  · refine hwrote.userLoad hspan₁ (fun j hj => ?_) (by omega)
    have hu := hspan.user
    rw [hent j (by omega), (h.space.agree _ (key_user (by omega))).covers_iff]
    exact hspan.present j (by omega)

/-- Without them the page is given back, and the caller's `rax` stays as it is. -/
theorem sysPipeScan_full (h : Sys k c) (hstr : checkStr k.phys (k.procs c).pPgtbl tf.rdx 8 pteU = .ok true)
    (hspan : Span k.phys (k.procs c).pgtbl tf.rdx 8) (hg : getPage k.phys true = .ok (pg,m)) (htwo : ¬ TwoFree tbl) :
    ∃ m' tbl', sysPipeScan k.phys (k.procs c) tbl tf = .ok (tf,m',tbl') ∧ m'.free = k.phys.free ∧
      tbl' = match freeOf tbl (List.range nscan) with
        | [] => tbl
        | f :: _ => unuse (Function.update tbl f ((tbl f).endOf .rpipe pg)) 1 := by
  obtain ⟨m₁,hm₁⟩ : ∃ m₁, m₁ = m.setPipe pg { m.pipe pg with rref := 1, wref := 1 } := ⟨_,rfl⟩
  obtain ⟨hspan₁,-⟩ := h.span_getPage hspan hg m₁ (by rw [hm₁]; rfl)
  unfold sysPipeScan
  rw [hstr, ok_bind, if_neg (by decide), hg, ok_bind]
  simp only
  rw [pipeScan_freeOf List.nodup_range, ← hm₁]
  match hf : freeOf tbl (List.range nscan) with
  | [] =>
    have hpage : ∃ d q, m₁ = { m with data := d, pipe := q } := ⟨m.data,_,hm₁⟩
    obtain ⟨m',hfree,hback,-⟩ := freePage_taken h.inv.owned.mem.acct hg hpage
    refine ⟨m',tbl,?_,hback,rfl⟩
    rw [pipeScan, ok_bind, if_neg (show ¬ 0 = 2 by decide), hfree]
    rfl
  | [f] =>
    have hff : (tbl f).inuse = false := (mem_freeOf.mp (by rw [hf]; simp)).2
    have hlen : (toBytes f 4).length = 4 := toBytes_length ..
    have hspan₂ : Span m₁ (k.procs c).pgtbl tf.rdx (toBytes f 4).length := hspan₁.mono (by rw [hlen]; decide)
    obtain ⟨m₂,hstore,hwrote⟩ := kstores_stored hspan₂ (by rw [hlen]; decide)
    obtain ⟨d,hd⟩ := hwrote.rest
    have hpage : ∃ d q, m₂ = { m with data := d, pipe := q } := ⟨d,_,by rw [hd, hm₁]; rfl⟩
    obtain ⟨m',hfree,hback,-⟩ := freePage_taken h.inv.owned.mem.acct hg hpage
    refine ⟨m',_,?_,hback,rfl⟩
    rw [pipeScan_one hff, hstore, ok_bind, ok_bind, if_neg (show ¬ 1 = 2 by decide), hfree]
    rfl
  | r :: w :: l => exact absurd (twoFree_iff.mpr ⟨r,w,l,hf⟩) htwo

theorem sysPipe_eq_scan {r w : ℕ} (hf : freeOf (k.procs c).fdesc (List.range nscan) = r :: w :: l) (hw : w < nfdesc) :
    sysPipe k c tf = sysPipeScan k.phys (k.procs c) (k.procs c).fdesc tf >>= fun res =>
      .ok (.ret res.1 ((k.setPhys res.2.1).setProc c { k.procs c with fdesc := res.2.2 })) := by
  obtain ⟨⟨hrw,-⟩,⟨hfr,hfw⟩,hlow⟩ := freeOf_two hf
  have hr₀ : freeFd (k.procs c) 0 = .ok r :=
    freeFd_lowest (by omega) (Nat.zero_le r) hfr fun i hi _ => hlow i (by omega) (by omega)
  have hw₀ : freeFd (k.procs c) (r+1) = .ok w := freeFd_lowest hw hrw hfw fun i hi hri => hlow i hi (by omega)
  unfold sysPipe sysPipeScan
  rw [bind_assoc]
  refine bind_congr_ok fun b _ => ?_
  cases b with
  | false =>
    have hsame : (k.setPhys k.phys).setProc c { k.procs c with fdesc := (k.procs c).fdesc } = k := by
      simp only [Kernel.setProc,Kernel.setPhys,Function.update_eq_self]
    exact congrArg (fun k => Except.ok (Outcome.ret { tf with rax := neg efault } k)) hsame.symm
  | true =>
    simp only [Bool.not_true,Bool.false_eq_true,↓reduceIte]
    rw [bind_assoc]
    refine bind_congr_ok fun r _ => ?_
    obtain ⟨pg,m⟩ := r
    simp only
    rw [pipeScan_freeOf List.nodup_range, hf, pipeScan_two (by omega) hfr hfw, bind_assoc, bind_assoc]
    exact pipeEnds_eq hr₀ hw₀

/-- All descriptors in use but number 5. -/
def fiveFree : ℕ → FileDesc := fun i => if i = 5 then .zero else { FileDesc.zero with inuse := true }

end Ukern
