import Ukern.Memory.Load
import Ukern.Lib.Post

/-! # Enough free pages

`alloc_page` gives a page as long as two are left: it reads the head of the list after
it has taken one. How many pages a copy of a table takes is known before it starts, and
with fewer than that the copy faults.
-/
namespace Ukern
open Lib Lib.Radix
variable {m m' s : Phys} {l n dst src kp : ℕ} {new : List ℕ} {cnt : Bool} {sp : Spaces} {extra : ℕ → ℕ} {c : Slot}

/-- Everything on the free list may be handed out. -/
def Offers (m : Phys) : Prop := ∀ x ∈ m.free, m.allocatable x = true

theorem Acct.offers {C : ℕ → ℕ} (h : Acct m C) : Offers m := fun x hx => (h.free_ok x hx).1

theorem Grow.offers {S : ℕ → Prop} {inc : ℕ → ℕ} (h : Grow m m' new S inc) (ho : Offers m) : Offers m' :=
  fun x hx => by
    rw [h.allocatable]
    exact ho x (h.mem_free hx)

theorem Grow.length {S : ℕ → Prop} {inc : ℕ → ℕ} (h : Grow m m' new S inc) :
    m.free.length = new.length + m'.free.length := by
  rw [h.free, List.length_append]

theorem allocPage_room (ho : Offers m) (z : Bool) (h : 2 ≤ m.free.length) :
    ∃ pg m', allocPage m z = .ok (some pg,m') ∧ getPage m z = .ok (pg,m') := by
  match hf : m.free with
  | [] => simp [hf] at h
  | [_] => simp [hf] at h
  | pg :: head :: rest =>
    have hal := ho head (by simp [hf])
    have hle : ¬ m.paddr head > m.maxAddr := by
      simp only [Phys.allocatable,decide_eq_true_eq] at hal
      omega
    refine ⟨pg,(if z then m.zeroPage pg else m).unlink pg (head :: rest),?_,?_⟩
    · simp only [allocPage,hf,if_neg hle]
    · simp only [getPage,allocPage,hf,if_neg hle]
      rfl

theorem getPage_room (ho : Offers m) (z : Bool) (h : 2 ≤ m.free.length) : ∃ pg m', getPage m z = .ok (pg,m') := by
  obtain ⟨pg,m',-,hg⟩ := allocPage_room ho z h
  exact ⟨pg,m',hg⟩

theorem getPage_full {z : Bool} (h : m.free.length < 2) : getPage m z = .error .nullDeref := by
  match hf : m.free with
  | [] =>
    simp only [getPage,allocPage,hf]
    rfl
  | [_] =>
    simp only [getPage,allocPage,hf]
    rfl
  | _ :: _ :: _ => simp [hf] at h

/-- What a copy of the first `n` entries comes to, by the number of free pages. -/
def CopyRuns (m : Phys) (cnt : Bool) (l n dst src : ℕ) (r : Except Fault Phys) : Prop :=
  (tables Pte.link 512 m.tbl l n src < m.free.length → ∃ m' new, r = .ok m' ∧
    Copied m m' cnt l n dst src new ∧ new.length = tables Pte.link 512 m.tbl l n src) ∧
  (m.free.length ≤ tables Pte.link 512 m.tbl l n src → r = .error .nullDeref)

/-- A loop that has failed stays failed, and the number of tables only grows. -/
theorem CopyRuns.step {r : Except Fault Phys} {f : Phys → Except Fault Phys} (h : CopyRuns m cnt (l+1) n dst src r)
    (hok : ∀ s new, Copied m s cnt (l+1) n dst src new → new.length = tables Pte.link 512 m.tbl (l+1) n src →
      tables Pte.link 512 m.tbl (l+1) n src < m.free.length → CopyRuns m cnt (l+1) (n+1) dst src (f s)) :
    CopyRuns m cnt (l+1) (n+1) dst src (r >>= f) := by
  rcases Nat.lt_or_ge (tables Pte.link 512 m.tbl (l+1) n src) m.free.length with hlt | hge
  · obtain ⟨s,new,rfl,hc,hlen⟩ := h.1 hlt
    rw [ok_bind]
    exact hok s new hc hlen hlt
  · have hle : tables Pte.link 512 m.tbl (l+1) n src ≤ tables Pte.link 512 m.tbl (l+1) (n+1) src := by
      rw [tables_width_succ]
      exact Nat.le_add_right ..
    rw [h.2 hge, error_bind]
    exact ⟨fun hlt => by omega,fun _ => rfl⟩

theorem copyFrom_room (hs : Source m l n dst src) (ho : Offers m) (hempty : ∀ i < n, m.tbl dst i = .zero)
    (hdst : dst ∉ m.free) (hnodup : m.free.Nodup) (hne : m.free ≠ []) :
    CopyRuns m cnt l n dst src (copyFrom cnt l n m dst src) := by
  induction l generalizing m n dst src with
  | zero =>
    have hpos := List.length_pos_iff.mpr hne
    refine ⟨fun _ => ?_,fun hle => by simp only [tables] at hle; omega⟩
    obtain ⟨m',hm⟩ : ∃ m', copyFrom cnt 0 n m dst src = .ok m' := ⟨_,rfl⟩
    obtain ⟨new,hc⟩ := copyFrom_spec hm hs hempty hdst hnodup hne
    have hnil : new = [] := List.eq_nil_iff_forall_not_mem.mpr fun x hx => by
      have hcount := hc.pages_eq x
      have hpos := List.count_pos_iff.mpr hx
      simp only [pages] at hcount
      omega
    exact ⟨m',new,hm,hc,by rw [hnil]; rfl⟩
  | succ l ih =>
    -- the postcondition for the entries visited so far
    have hpre : ∀ i ≤ n, CopyRuns m cnt (l+1) i dst src (copyFrom cnt (l+1) i m dst src) := by
      intro i
      induction i with
      | zero =>
        intro _
        have hz : tables Pte.link 512 m.tbl (l+1) 0 src = 0 := by simp [tables]
        have hpos := List.length_pos_iff.mpr hne
        exact ⟨fun _ => ⟨m,[],rfl,.zero hne,hz.symm⟩,fun hle => by omega⟩
      | succ i ihi =>
        intro hi
        rw [copyFrom, foldlM_range_succ]
        refine (ihi (by omega)).step fun s new hc hlen hlt => ?_
        have hfree := hc.grow.length
        simp only [hc.row hs]
        cases hp : (m.tbl src i).p with
        | false =>
          have hw : tables Pte.link 512 m.tbl (l+1) (i+1) src = tables Pte.link 512 m.tbl (l+1) i src := by
            rw [tables_width_succ, Pte.link_none hp, Nat.add_zero]
          refine ⟨fun _ => ⟨s,new,rfl,hc.step_absent (hempty i hi) hp,by omega⟩,fun hle => by omega⟩
        | true =>
          simp only [Bool.not_true,Bool.false_eq_true,↓reduceIte]
          have hlink := (hs.small i hi).1 hp
          have hw : tables Pte.link 512 m.tbl (l+1) (i+1) src = tables Pte.link 512 m.tbl (l+1) i src +
              (1 + tables Pte.link 512 m.tbl l 512 (m.tbl src i).frame) := by
            rw [tables_width_succ, hlink]
          by_cases h2 : 2 ≤ s.free.length
          · obtain ⟨pg,s₁,hg⟩ := getPage_room (hc.grow.offers ho) true h2
            have hd := hc.descend hs hi hp hdst hnodup hg rfl
            have hg₁ := (grow_getPage hg).length
            rw [hg, ok_bind]
            simp only [hd.row]
            have hrun := ih hd.source ((grow_getPage hg).offers (hc.grow.offers ho)) hd.empty hd.out hd.nodup hd.free_ne
            simp only [CopyRuns,hd.same.tables] at hrun
            obtain ⟨s₂,hs₂⟩ : ∃ s₂, s₂ = s₁.setEntry dst i ⟨pg,pteP ||| pteW ||| pteU⟩ := ⟨_,rfl⟩
            have hfree₂ : s₂.free = s₁.free := by rw [hs₂]; rfl
            rw [← hs₂] at hrun hd
            rw [hfree₂] at hrun
            simp only [List.length_singleton] at hg₁
            rw [← hs₂]
            refine ⟨fun hlt' => ?_,fun hle => hrun.2 (by omega)⟩
            obtain ⟨m',new',hm,hchild,hlen'⟩ := hrun.1 (by omega)
            refine ⟨m',new ++ [pg] ++ new',hm,hc.step_table hg hs₂ hd.link hd.same hchild hnodup hdst
              fun x hx => hs.leaf_free hi hd.link hx,?_⟩
            simp only [List.length_append,List.length_singleton]
            omega
          · rw [getPage_full (by omega), error_bind]
            exact ⟨fun hlt' => by omega,fun _ => rfl⟩
    exact hpre n le_rfl

/-- Pages that a copy of the user half of `t` takes. -/
def copyCost (m : Phys) (t : ℕ) : ℕ := tables Pte.link 512 m.tbl 3 256 t

theorem Keep.copyCost {t : ℕ} (h : Keep m m' t) : copyCost m' t = Ukern.copyCost m t := h.same.tables

theorem copyPgtbl_room (cnt : Bool) (hr : Receives m dst src) (ho : Offers m) :
    (copyCost m src < m.free.length → ∃ m' new, copyPgtbl m dst src cnt = .ok m' ∧ Cloned m m' cnt dst src new ∧
      m.free.length = copyCost m src + m'.free.length) ∧
    (m.free.length ≤ copyCost m src → copyPgtbl m dst src cnt = .error .nullDeref) := by
  have hrun : CopyRuns m cnt 3 256 dst src _ :=
    copyFrom_room hr.source ho (fun i _ => hr.empty i) hr.out hr.nodup hr.free_ne
  refine ⟨fun hlt => ?_,fun hle => ?_⟩
  · obtain ⟨m₁,new₁,hm,hc₁,hlen⟩ := hrun.1 hlt
    obtain ⟨m',hm'⟩ : ∃ m', copyPgtbl m dst src cnt = .ok m' := ⟨_,by rw [copyPgtbl, hm, ok_bind]⟩
    obtain ⟨new,hc⟩ := copyPgtbl_spec hm' hr
    refine ⟨m',new,hm',hc,?_⟩
    have hfree : m'.free = m₁.free := by
      obtain ⟨hsf,hsd⟩ := hr.source.held src (Nat.ne_of_gt (one_le_pages_root ..))
      rw [copyPgtbl, hm, ok_bind, copyKernelHalf_eq hsd] at hm'
      cases hm'
      rfl
    rw [hfree, hc₁.grow.length, hlen]
    rfl
  · rw [copyPgtbl, hrun.2 hle, error_bind]

theorem clearFrom_free {t : ℕ} (flags : BitVec 12) : (clearFrom flags l n m t).free = m.free := by
  induction l generalizing m n t with
  | zero =>
    refine foldl_inv (I := fun s : Phys => s.free = m.free) (fun s i hs => ?_) rfl
    split
    · exact hs
    · exact hs
  | succ l ih =>
    refine foldl_inv (I := fun s : Phys => s.free = m.free) (fun s i hs => ?_) rfl
    split
    · exact hs
    · exact ih.trans hs

theorem pgtblClearflags_free (m : Phys) (t : ℕ) (flags : BitVec 12) : (pgtblClearflags m t flags).free = m.free :=
  clearFrom_free _

theorem forkTables_room (child : Proc) {m₁ m₂ : Phys} {parent : Proc} (h : MemInv m kp sp extra)
    (hs : sp c = some (parent.pgtbl,parent.pPgtbl))
    (ha : getPage m true = .ok (child.pgtbl,m₁)) (hb : getPage m₁ true = .ok (child.pPgtbl,m₂)) :
    (2 * copyCost m parent.pPgtbl < m₂.free.length → ∃ m', forkTables m₂ child parent = .ok m' ∧
      m₂.free.length = 2 * copyCost m parent.pPgtbl + m'.free.length) ∧
    (m₂.free.length ≤ 2 * copyCost m parent.pPgtbl → forkTables m₂ child parent = .error .nullDeref) := by
  have hsp := h.space c _ _ hs
  have hheld : ∀ x, tblPages m parent.pPgtbl x ≠ 0 → x ∉ m.free := fun x hx => h.tables_held hs (by omega)
  have hleaf : ∀ x, maps m parent.pPgtbl x ≠ 0 → x ∉ m.free := fun x hx => by
    have hle := MemInv.mapOf_le m sp c x
    rw [mapOf_some hs] at hle
    rw [hsp.maps_eq] at hx
    exact h.mapped_not_free (by omega)
  have hroots := roots_spec ha hb h.acct.nodup hsp.small₂ hheld hleaf
  have ho := hroots.grow.offers h.acct.offers
  obtain ⟨hok₁,hfail₁⟩ := copyPgtbl_room true hroots.first ho
  rw [hroots.keep.copyCost] at hok₁ hfail₁
  unfold forkTables
  rcases Nat.lt_or_ge (copyCost m parent.pPgtbl) m₂.free.length with hlt | hge
  · obtain ⟨m₃,new₁,h₁,hc₁,hlen₁⟩ := hok₁ hlt
    obtain ⟨hrec₂,hk₃⟩ := hroots.second hc₁ hsp.small₂ hheld hleaf
    obtain ⟨hok₂,hfail₂⟩ := copyPgtbl_room false hrec₂ (hc₁.grow.offers ho)
    rw [hk₃.copyCost, hroots.keep.copyCost] at hok₂ hfail₂
    rw [h₁, ok_bind]
    refine ⟨fun h2 => ?_,fun h2 => ?_⟩
    · obtain ⟨m₄,new₂,h₂,-,hlen₂⟩ := hok₂ (by omega)
      refine ⟨_,by rw [h₂, ok_bind],?_⟩
      rw [pgtblClearflags_free, pgtblClearflags_free]
      omega
    · rw [hfail₂ (by omega), error_bind]
  · rw [hfail₁ hge, error_bind]
    exact ⟨fun h2 => by omega,fun _ => rfl⟩

/-- A walk that creates a table at every level writes to the slot it starts from and to free pages. -/
theorem walkFrom_empty {v t : ℕ} (alloced : List (Option ℕ)) (ho : Offers m) (hnodup : m.free.Nodup)
    (ht : t ∉ m.free) (h0 : m.tbl t (tblIndex l v) = .zero) (hlen : l < m.free.length) :
    ∃ t' i m', walkFrom true v l m t alloced = .ok (.slot t' i,m') ∧ m'.tbl t' i = .zero ∧ Offers m' ∧
      m.free.length = l + m'.free.length ∧ (l = 0 ∨ t' ∈ m.free) ∧ (∀ x ∈ m'.free, x ∈ m.free) ∧
      ∀ x ∉ m.free, ∀ j, x ≠ t ∨ j ≠ tblIndex l v → m'.tbl x j = m.tbl x j := by
  induction l generalizing m t alloced with
  | zero => exact ⟨t,_,m,rfl,h0,ho,(Nat.zero_add _).symm,Or.inl rfl,fun _ hx => hx,fun _ _ _ _ => rfl⟩
  | succ l ih =>
    obtain ⟨pg,m₁,ha,hg⟩ := allocPage_room ho true (by omega)
    have hgr := grow_getPage hg
    have hpg : pg ∈ m.free := hgr.new_free (by simp)
    have hpt : pg ≠ t := fun he => ht (he ▸ hpg)
    have hlen₁ := hgr.length
    simp only [List.length_singleton] at hlen₁
    obtain ⟨t',i,m',hw,hz,ho',hl,ht',hsub,hrow⟩ := ih (m := m₁.setEntry t (tblIndex (l+1) v) ⟨pg,pteP ||| pteW ||| pteU⟩)
      (t := pg) (alloced ++ [some pg]) (hgr.offers ho) (hgr.nodup hnodup).2.1 ((hgr.nodup hnodup).2.2 pg (by simp))
      (by rw [Phys.setEntry_tbl_ne hpt, (getPage_zero hg).1]) (by change l < m₁.free.length; omega)
    refine ⟨t',i,m',?_,hz,ho',?_,Or.inr ?_,fun x hx => hgr.mem_free (hsub x hx),fun x hx j hj => ?_⟩
    · rw [walkFrom]
      have hps : Pte.zero.ps = false := by decide
      simp only [h0,hps,Pte.zero_p,Bool.false_eq_true,and_false,↓reduceIte,Bool.not_true,ha,ok_bind]
      exact hw
    · change m₁.free.length = l + m'.free.length at hl
      omega
    · rcases ht' with rfl | ht'
      · rw [walkFrom] at hw
        cases hw
        exact hpg
      · exact hgr.mem_free ht'
    · have hxp : x ≠ pg := fun he => hx (he ▸ hpg)
      rw [hrow x (fun hx' => hx (hgr.mem_free hx')) j (Or.inl hxp)]
      have hm₁ : m₁.tbl x = m.tbl x := hgr.tbl x id (by simpa using hxp)
      by_cases hxt : x = t
      · rw [hxt, Phys.setEntry_tbl_self, Function.update_of_ne (hj.resolve_left fun h => h hxt), ← hxt, hm₁]
      · rw [Phys.setEntry_tbl_ne hxt, hm₁]

/-- A page at an address whose top level entry is empty: three tables and the page. -/
theorem mapFresh_empty {v t : ℕ} (ho : Offers m) (hnodup : m.free.Nodup) (ht : t ∉ m.free)
    (h0 : m.tbl t (tblIndex 3 v) = .zero) (hlen : 4 < m.free.length) :
    ∃ pg m', mapFresh m t v = .ok (some pg,m') ∧ Offers m' ∧ m.free.length = 4 + m'.free.length ∧
      ∀ j ≠ tblIndex 3 v, m'.tbl t j = m.tbl t j := by
  obtain ⟨t',i,m₁,hw,hz,ho₁,hl₁,ht',hsub,hrow⟩ := walkFrom_empty [] ho hnodup ht h0 (by omega)
  obtain ⟨pg,m₂,hg⟩ := getPage_room ho₁ true (by omega)
  have hgr := grow_getPage hg
  have hlen₂ := hgr.length
  simp only [List.length_singleton] at hlen₂
  have htt : t ≠ t' := fun he => ht (he ▸ ht'.resolve_left (by decide))
  refine ⟨pg,m₂.setEntry t' i ⟨pg,pteP ||| pteU ||| pteW⟩,?_,hgr.offers ho₁,?_,fun j hj => ?_⟩
  · rw [mapFresh, walkPgtbl, hw, ok_bind]
    simp only [hz,ne_eq,not_true_eq_false,↓reduceIte,hg,ok_bind]
  · change m.free.length = 4 + m₂.free.length
    omega
  · have htp : t ∉ [pg] := fun he => ht (hsub t (hgr.new_free he))
    rw [Phys.setEntry_tbl_ne htt, hgr.tbl t id htp, hrow t ht j (Or.inr hj)]

theorem Phys.setBytes_free (m : Phys) (pa : ℕ) (bs : List UInt8) :
    (m.setBytes pa bs).free = m.free ∧ ∀ x, (m.setBytes pa bs).allocatable x = m.allocatable x := by
  induction bs generalizing m pa with
  | nil => exact ⟨rfl,fun _ => rfl⟩
  | cons b bs ih =>
    obtain ⟨h1,h2⟩ := ih (m.setByte pa b) (pa+1)
    exact ⟨h1,h2⟩

theorem Offers.fill {f off : ℕ} {bs : List UInt8} (ho : Offers m) : Offers (m.fill f off bs) := fun x hx => by
  obtain ⟨h1,h2⟩ := Phys.setBytes_free m (f * pgsize + off) bs
  rw [Phys.fill, h1] at hx
  rw [Phys.fill, h2]
  exact ho x hx

theorem Cloned.copyCost (h : Cloned m m' cnt dst src new) (hnodup : m.free.Nodup) (hdst : dst ∉ m.free) :
    copyCost m' dst = new.length := by
  have hn := (h.grow.nodup hnodup).1
  have hd : dst ∉ new := fun hx => hdst (h.grow.new_free hx)
  have hnd : (dst :: new).Nodup := List.nodup_cons.mpr ⟨hd,hn⟩
  have hF : ∀ x, tblPages m' dst x ≠ 0 → x ∈ (dst :: new).toFinset := fun x hx => by
    rw [h.pages_eq] at hx
    rw [List.mem_toFinset, List.mem_cons]
    by_cases hxd : x = dst
    · exact Or.inl hxd
    · rw [if_neg hxd, Nat.zero_add] at hx
      exact Or.inr (List.count_pos_iff.mp (by omega))
  have hsum := sum_pages hF
  have hlen : ∑ x ∈ (dst :: new).toFinset, tblPages m' dst x = (dst :: new).length := by
    rw [← List.toFinset_card_of_nodup hnd, Finset.card_eq_sum_ones]
    refine Finset.sum_congr rfl fun x hx => ?_
    have hc := List.count_eq_one_of_mem hnd (List.mem_toFinset.mp hx)
    rw [List.count_cons] at hc
    simp only [beq_iff_eq,eq_comm (a := dst)] at hc
    rw [h.pages_eq]
    omega
  rw [List.length_cons] at hlen
  simp only [tblPages] at hlen
  have hc : Ukern.copyCost m' dst = tables Pte.link 512 m'.tbl 3 256 dst := rfl
  omega

theorem Build.root_mem {m₀ : Phys} {a b : ℕ} (h : Build m₀ m a b new) : a ∈ new := h.mem_new (by
  have := one_le_pages_root Pte.link 512 m.tbl 3 512 a
  omega)

/-- The tables of an image under construction are among the pages it took. -/
theorem Halved.copyCost_le {m₀ m₁ : Phys} {a b : ℕ} (h : Halved m₀ m m₁ a b kp new) :
    copyCost m₁ a + 2 ≤ new.length := by
  have hb : b ∈ new := List.count_pos_iff.mp (by
    have := h.count b
    rw [if_pos rfl] at this
    omega)
  have hF : ∀ x, tblPages m₁ a x ≠ 0 → x ∈ new.toFinset := fun x hx =>
    List.mem_toFinset.mpr (List.count_pos_iff.mp (by have := h.count x; omega))
  have hsum := sum_pages hF
  have hle : ∑ x ∈ new.toFinset, (tblPages m₁ a x + if x = b then 1 else 0) ≤ ∑ x ∈ new.toFinset, new.count x :=
    Finset.sum_le_sum fun x _ => by
      have := h.count x
      omega
  rw [Finset.sum_add_distrib, Finset.sum_ite_eq', if_pos (List.mem_toFinset.mpr hb), List.sum_toFinset_count_eq_length] at hle
  simp only [tblPages] at hle
  have hc : Ukern.copyCost m₁ a = tables Pte.link 512 m₁.tbl 3 256 a := rfl
  omega

/-- `buildSpace` on a table whose top level entries for the stack and the arguments are empty. -/
theorem buildSpace_room (args : List UInt8) {m₀ : Phys} {q : Proc} (h : Build m₀ m q.pgtbl q.pPgtbl new)
    (hinv : MemInv m₀ kp sp extra) (ho : Offers m) (hargs : args.length ≤ pgsize)
    (hs : m.tbl q.pgtbl (tblIndex 3 (ustack - pgsize)) = .zero) (hu : m.tbl q.pgtbl (tblIndex 3 uargs) = .zero)
    (hlen : new.length + 14 < m.free.length) :
    ∃ m', buildSpace m kp q args = .ok (true,m') ∧ 3 ≤ copyCost m' q.pPgtbl ∧ copyCost m' q.pPgtbl ≤ new.length + 6 ∧
      m.free.length = 8 + copyCost m' q.pPgtbl + m'.free.length := by
  have hnodup := hinv.acct.nodup
  have hout : ∀ {m new}, Build m₀ m q.pgtbl q.pPgtbl new → m.free.Nodup ∧ q.pgtbl ∉ m.free := fun hB =>
    ⟨(hB.nodup hnodup).2.1,(hB.nodup hnodup).2.2 _ hB.root_mem⟩
  obtain ⟨f,m₁,h1,ho₁,hl₁,hrow₁⟩ := mapFresh_empty ho (hout h).1 (hout h).2 hs (by omega)
  obtain ⟨_,new₁,hfe,hM₁⟩ := mapFresh_spec h hnodup h1
  cases hfe
  have hlen₁ : pgsize - nargs * 8 + uargv.length ≤ pgsize := by
    rw [uargv_length]
    decide
  have hB₁' := hM₁.build.fill hM₁.mem hlen₁
  have hfree₁ : (m₁.fill f (pgsize - nargs * 8) uargv).free = m₁.free := (Phys.setBytes_free ..).1
  have htbl₁ : (m₁.fill f (pgsize - nargs * 8) uargv).tbl = m₁.tbl := Phys.setBytes_tbl ..
  obtain ⟨f₂,m₂,h2,-,hl₂,-⟩ := mapFresh_empty (v := uargs) ho₁.fill (hout hB₁').1 (hout hB₁').2
    (by rw [htbl₁, hrow₁ _ (by decide), hu]) (by rw [hfree₁]; omega)
  obtain ⟨_,new₂,hfe,hM₂⟩ := mapFresh_spec hB₁' hnodup h2
  have hB₂ := hM₂.build
  cases hfe
  rw [hfree₁] at hl₂
  have hB₂' : Build m₀ (m₂.fill f₂ 0 args) q.pgtbl q.pPgtbl new₂ := hB₂.fill hM₂.mem (by omega)
  have hfree₂ : (m₂.fill f₂ 0 args).free = m₂.free := (Phys.setBytes_free ..).1
  obtain ⟨m₃,hm₃⟩ : ∃ m₃, m₃ = copyKernelHalf (m₂.fill f₂ 0 args) q.pgtbl kp := ⟨_,rfl⟩
  have hhal := hB₂'.halve hinv hm₃
  have hcost := hhal.copyCost_le
  have hlen₂ : new₂.length = new.length + 8 := by
    have h3 := h.grow.length
    have h4 := hB₂.grow.length
    omega
  have hfree₃ : m₃.free.length = m₂.free.length := by
    have h3 := hhal.grow.length
    have h4 := hB₂.grow.length
    omega
  have hlow : 3 ≤ copyCost m₃ q.pgtbl := by
    have hkey : key 3 uargs < 256 * 512^3 := by decide
    have htbl₂ : (m₂.fill f₂ 0 args).tbl = m₂.tbl := Phys.setBytes_tbl ..
    have hent : entry m₃ q.pgtbl (key 3 uargs) = .full f₂ := by
      have he := hM₂.entry_eq _ (key_lt 3 uargs)
      rw [if_pos rfl] at he
      rw [← he]
      have h3 : entry m₃ q.pgtbl (key 3 uargs) = entry (m₂.fill f₂ 0 args) q.pgtbl (key 3 uargs) :=
        hhal.same.leafAt (by decide) hkey
      rw [h3, entry, htbl₂]
      rfl
    obtain ⟨p,i,hslot⟩ := slot_of_present (by rw [hent]; exact Pte.full_p f₂)
    exact le_tables_of_slotOf (by decide) hkey hslot
  obtain ⟨m₄,new₄,hc,hcl,hl₄⟩ := (copyPgtbl_room false hhal.receives (hhal.grow.offers hinv.acct.offers)).1 (by omega)
  have hsame : copyCost m₄ q.pPgtbl = copyCost m₃ q.pgtbl := by
    rw [hcl.copyCost hhal.receives.nodup hhal.receives.out]
    have := hcl.grow.length
    omega
  refine ⟨m₄,?_,by omega,by omega,by omega⟩
  rw [buildSpace, h1, ok_bind]
  simp only [h2,ok_bind,← hm₃,hc]

end Ukern
