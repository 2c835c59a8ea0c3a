import Ukern.Memory.Fault

/-! # Mapping a page

A walk that creates tables, followed by a store to the slot it found. The width `w`
of the root is 256 for the user half and 512 for a whole table.
-/
namespace Ukern
open Lib Lib.Radix
variable {m m' m₁ : Phys} {kp t t₂ w n p i v : ℕ} {sp : Spaces} {extra : ℕ → ℕ} {c : Slot} {e : Pte}

/-- Entry `n` below `t` became `e`, with `new` tables on the way. -/
structure Extended (m m' : Phys) (w t n : ℕ) (e : Pte) (new : List ℕ) : Prop where
  grow : Grow m m' new (fun x => pages Pte.link 512 m.tbl 3 w t x ≠ 0) (fun _ => 0)
  entry_eq : ∀ j < w * 512^3, entry m' t j = if j = n then e else entry m t j
  pages_eq : ∀ x, pages Pte.link 512 m'.tbl 3 w t x = pages Pte.link 512 m.tbl 3 w t x + new.count x
  small : Inner Pte.link 512 Pte.Small m.tbl 3 w t → Inner Pte.link 512 Pte.Small m'.tbl 3 w t
  upper : ∀ i, w ≤ i → m'.tbl t i = m.tbl t i
  linked : ∀ i, (m.tbl t i).link 2 ≠ none → m'.tbl t i = m.tbl t i

/-- A table whose pages are held, each once. -/
structure Table (m : Phys) (w t : ℕ) : Prop where
  one : ∀ x, pages Pte.link 512 m.tbl 3 w t x ≤ 1
  fresh : ∀ x ∈ m.free, pages Pte.link 512 m.tbl 3 w t x = 0

theorem Walked.extend {new : List ℕ} (h : Walked m m₁ 3 w t n (p,i) new) (ht : Table m w t)
    (hnodup : m.free.Nodup) (hn : n < w * 512^3) :
    m₁.tbl p i = entry m t n ∧ Extended m (m₁.setEntry p i e) w t n e new := by
  have hone : ∀ x, pages Pte.link 512 m₁.tbl 3 w t x ≤ 1 := fun x => by
    rw [h.pages_eq]
    by_cases hx : x ∈ new
    · rw [ht.fresh x (h.grow.new_free hx), List.count_eq_one_of_mem (h.grow.nodup hnodup).1 hx]
    · rw [List.count_eq_zero_of_not_mem hx]
      exact ht.one x
  obtain ⟨h1,h2,h3⟩ := slotOf_update (z := Pte.zero) (by decide) hn hone h.slot e
    (rfl : (m₁.setEntry p i e).tbl = _)
  have hpt : p ≠ t := slotOf_ne_root (by decide) hn (hone t) h.slot
  have hpp := pages_of_slotOf (by decide) hn h.slot
  rw [h.pages_eq] at hpp
  refine ⟨?_,h.grow.setEntry ?_,fun j hj => ?_,fun x => ?_,fun hs => h3 Pte.Small (h.small hs),?_,?_⟩
  · rw [← entry_eq_slot h.slot]
    exact h.leaf_eq n hn
  · by_cases hx : p ∈ new
    · exact Or.inr hx
    · rw [List.count_eq_zero_of_not_mem hx] at hpp
      exact Or.inl hpp
  · have h4 : entry m₁ t j = entry m t j := h.leaf_eq j hj
    rw [← h4]
    exact h1 j hj
  · rw [h2, h.pages_eq]
  · intro i hi
    rw [Phys.setEntry_tbl_ne (Ne.symm hpt), h.upper i hi]
  · intro i hi
    rw [Phys.setEntry_tbl_ne (Ne.symm hpt), h.linked i hi]

theorem Extended.table {new : List ℕ} (h : Extended m m' w t n e new) (ht : Table m w t)
    (hnodup : m.free.Nodup) : Table m' w t where
  one x := by
    rw [h.pages_eq]
    by_cases hx : x ∈ new
    · rw [ht.fresh x (h.grow.new_free hx), List.count_eq_one_of_mem (h.grow.nodup hnodup).1 hx]
    · rw [List.count_eq_zero_of_not_mem hx]
      exact ht.one x
  fresh x hx := by
    rw [h.pages_eq, ht.fresh x (h.grow.mem_free hx), Nat.zero_add]
    exact List.count_eq_zero_of_not_mem fun hn => (h.grow.nodup hnodup).2.2 x hn hx

theorem walkPgtbl_extend {r : Walk} (hw : walkPgtbl m t v true = .ok (r,m₁)) (hv : tblIndex 3 v < w)
    (ht : Table m w t) (hnodup : m.free.Nodup) (hne : m.free ≠ []) :
    ∃ p i new, r = .slot p i ∧ slotOf Pte.link 512 m₁.tbl 3 t (key 3 v) = some (p,i) ∧
      m₁.tbl p i = entry m t (key 3 v) ∧
      Grow m m₁ new (fun x => pages Pte.link 512 m.tbl 3 w t x ≠ 0) (fun _ => 0) ∧
      ∀ e, Extended m (m₁.setEntry p i e) w t (key 3 v) e new := by
  rcases walkFrom_spec hw hv hnodup hne ht.fresh ht.one with ⟨-,-,hf,-⟩ | ⟨p,new,rfl,-,hwk⟩
  · cases hf
  · have hlt := key_lt_of_index hv
    exact ⟨p,_,new,rfl,hwk.slot,(hwk.extend (e := .zero) ht hnodup hlt).1,hwk.grow,
      fun e => (hwk.extend ht hnodup hlt).2⟩

theorem walkSlot_extend (hw : walkSlot m t v true = .ok (p,i,m₁)) (hv : tblIndex 3 v < w)
    (ht : Table m w t) (hnodup : m.free.Nodup) (hne : m.free ≠ []) :
    m₁.tbl p i = entry m t (key 3 v) ∧
      ∃ new, Grow m m₁ new (fun x => pages Pte.link 512 m.tbl 3 w t x ≠ 0) (fun _ => 0) ∧
        ∀ e, Extended m (m₁.setEntry p i e) w t (key 3 v) e new := by
  unfold walkSlot at hw
  obtain ⟨⟨r,m₂⟩,hr,hw⟩ := bind_eq_ok.mp hw
  obtain ⟨p',i',new,rfl,-,he,hg,hext⟩ := walkPgtbl_extend hr hv ht hnodup hne
  cases hw
  exact ⟨he,new,hg,hext⟩

theorem MemInv.table (h : MemInv m kp sp extra) (hs : sp c = some (t,t₂)) :
    Table m 256 t ∧ Table m 256 t₂ := by
  refine ⟨⟨fun x => ?_,fun x hx => ?_⟩,⟨fun x => ?_,fun x hx => ?_⟩⟩
  · have h1 : tblPages m t x + tblPages m t₂ x ≤ 1 := h.tables_le_one hs x
    exact (Nat.le_add_right _ _).trans h1
  · by_contra hne
    exact h.tables_held hs (x := x) (Nat.ne_of_gt (Nat.add_pos_left (Nat.pos_of_ne_zero hne) _)) hx
  · have h1 : tblPages m t x + tblPages m t₂ x ≤ 1 := h.tables_le_one hs x
    exact (Nat.le_add_left _ _).trans h1
  · by_contra hne
    exact h.tables_held hs (x := x) (Nat.ne_of_gt (Nat.add_pos_right _ (Nat.pos_of_ne_zero hne))) hx

theorem Grow.keep {new : List ℕ} {S : ℕ → Prop} {inc : ℕ → ℕ} (hg : Grow m m' new S inc)
    (hS : ∀ x, tblPages m t x ≠ 0 → ¬ S x ∧ x ∉ m.free) : Keep m m' t :=
  .of_pages fun x hx => hg.tbl x (hS x hx).1 fun hn => (hS x hx).2 (hg.new_free hn)

theorem Keep.table (h : Keep m m' t) (ht : Table m 256 t) (hfree : ∀ x ∈ m'.free, x ∈ m.free) :
    Table m' 256 t where
  one x := by
    rw [h.same.pages]
    exact ht.one x
  fresh x hx := by
    rw [h.same.pages]
    exact ht.fresh x (hfree x hx)

theorem tblIndex_user (hv : v < userTop) : tblIndex 3 v < 256 := by
  have h1 : v / pgsize / 512^3 < 256 := by
    rw [Nat.div_div_eq_div_mul]
    exact Nat.div_lt_of_lt_mul hv
  rw [tblIndex, Nat.mod_eq_of_lt (by omega)]
  exact h1

theorem Pte.full_comm (pg : ℕ) : (⟨pg,pteU ||| pteP ||| pteW⟩ : Pte) = .full pg := by
  rw [Pte.full]
  congr 1

/-- The free page `f`, zeroed, was entered as page `n` in both tables of a process. -/
structure PageAdded (m m' : Phys) (q : Proc) (n f : ℕ) : Prop where
  fresh : f ∈ m.free
  taken : f ∉ m'.free
  free : ∀ x ∈ m'.free, x ∈ m.free
  entry : ∀ j < upages, Ukern.entry m' q.pgtbl j = if j = n then .full f else Ukern.entry m q.pgtbl j
  entry₂ : ∀ j < upages, Ukern.entry m' q.pPgtbl j = if j = n then .full f else Ukern.entry m q.pPgtbl j
  zero : ∀ i, m'.data f i = 0
  data : ∀ x ∉ m.free, m'.data x = m.data x

theorem sbrkPage_spec {q : Proc} {start k : ℕ} (h : MemInv m kp sp extra)
    (hs : sp c = some (q.pgtbl,q.pPgtbl)) (hv : start + k * pgsize < userTop)
    (hb : sbrkPage q start m k = .ok m') :
    MemInv m' kp sp extra ∧ (∃ new, Grow m m' new (fun x => ownOf m (sp c) x ≠ 0) (fun _ => 0)) ∧
      ∃ f, PageAdded m m' q (key 3 (start + k * pgsize)) f := by
  unfold sbrkPage at hb
  obtain ⟨⟨pg,m₁⟩,hg,hb⟩ := bind_eq_ok.mp hb
  obtain ⟨⟨p,i,m₂⟩,hw₁,hb⟩ := bind_eq_ok.mp hb
  obtain ⟨⟨p₂,i₂,m₄⟩,hw₂,hb⟩ := bind_eq_ok.mp hb
  simp only [Pte.full_comm,Except.ok.injEq] at hb hw₂
  have hidx := tblIndex_user hv
  have hn := key_user hv
  have hg₁ := grow_getPage hg
  obtain ⟨ht,ht₂⟩ := h.table hs
  have hheld := fun x => h.tables_held hs (x := x)
  have hk₁ : Keep m m₁ q.pgtbl := hg₁.keep fun x hx => ⟨id,hheld x (by omega)⟩
  have hk₁' : Keep m m₁ q.pPgtbl := hg₁.keep fun x hx => ⟨id,hheld x (by omega)⟩
  have hnd₁ := (hg₁.nodup h.acct.nodup).2.1
  obtain ⟨-,new₁,-,hext₁⟩ := walkSlot_extend hw₁ hidx (hk₁.table ht fun x hx => hg₁.mem_free hx) hnd₁ hg₁.free_ne
  have hx₁ := hext₁ (.full pg)
  have hone := h.tables_le_one hs
  have hk₂ : Keep m₁ (m₂.setEntry p i (.full pg)) q.pPgtbl := hx₁.grow.keep fun x hx => by
    rw [hk₁'.tblPages] at hx
    refine ⟨fun hS => hS ?_,fun hf => hheld x (by omega) (hg₁.mem_free hf)⟩
    have h1 := hk₁.tblPages x
    have h2 := hone x
    simp only [tblPages] at h1 h2 hx
    omega
  have hfree₂ : ∀ x ∈ (m₂.setEntry p i (.full pg)).free, x ∈ m.free := fun x hx =>
    hg₁.mem_free (hx₁.grow.mem_free hx)
  have hpg₂ : ∀ x, tblPages (m₂.setEntry p i (.full pg)) q.pPgtbl x = tblPages m q.pPgtbl x := fun x => by
    rw [hk₂.tblPages, hk₁'.tblPages]
  have hpg₁ : ∀ x, tblPages (m₂.setEntry p i (.full pg)) q.pgtbl x = tblPages m q.pgtbl x + new₁.count x :=
    fun x => by
      have h1 := hx₁.pages_eq x
      have h2 := hk₁.tblPages x
      simp only [tblPages] at h1 h2 ⊢
      omega
  have hnd₂ := hx₁.grow.nodup hnd₁
  obtain ⟨-,new₂,-,hext₂⟩ := walkSlot_extend hw₂ hidx
    (hk₂.table (hk₁'.table ht₂ fun x hx => hg₁.mem_free hx) fun x hx => hx₁.grow.mem_free hx)
    hnd₂.2.1 hx₁.grow.free_ne
  have hx₂ := hext₂ (.full pg)
  rw [hb] at hx₂
  have hk₃ : Keep (m₂.setEntry p i (.full pg)) m' q.pgtbl := hx₂.grow.keep fun x hx => by
    rw [hpg₁] at hx
    by_cases hxn : x ∈ new₁
    · have hxf : x ∈ m.free := hg₁.mem_free (hx₁.grow.new_free hxn)
      refine ⟨fun hS => ?_,hnd₂.2.2 x hxn⟩
      have h1 := hpg₂ x
      have h2 := ht₂.fresh x hxf
      simp only [tblPages] at h1
      omega
    · rw [List.count_eq_zero_of_not_mem hxn] at hx
      refine ⟨fun hS => ?_,fun hf => hheld x (by omega) (hfree₂ x hf)⟩
      have h1 := hpg₂ x
      have h2 := hone x
      simp only [tblPages] at h1 h2 hx
      omega
  have htot : Grow m m' ([pg] ++ new₁ ++ new₂) (fun x => ownOf m (sp c) x ≠ 0) (fun _ => 0) := by
    refine ((hg₁.trans hx₁.grow fun _ _ => rfl).trans hx₂.grow fun _ _ => rfl).mono fun x hx => Or.inl ?_
    rw [ownOf_some hs]
    have h1 := hk₁.tblPages x
    have h2 := hpg₂ x
    simp only [tblPages] at h1 h2 ⊢
    rcases hx with (hx | hx) | hx
    · cases hx
    · omega
    · omega
  have hpgf : pg ∈ m.free := hg₁.new_free (by simp)
  have hnodup := (htot.nodup h.acct.nodup).1
  have hent : ∀ j < upages, entry m' q.pgtbl j =
      if j = key 3 (start + k * pgsize) then .full pg else entry m q.pgtbl j := fun j hj => by
    rw [hk₃.entry hj, hx₁.entry_eq j hj, hk₁.entry hj]
  have hent₂ : ∀ j < upages, entry m' q.pPgtbl j =
      if j = key 3 (start + k * pgsize) then .full pg else entry m q.pPgtbl j := fun j hj => by
    rw [hx₂.entry_eq j hj, hk₂.entry hj, hk₁'.entry hj]
  have hzero : ∀ i, m'.data pg i = 0 := fun i => by
    rw [List.append_assoc, List.singleton_append, List.nodup_cons, List.mem_append, not_or] at hnodup
    rw [hx₂.grow.data pg hnodup.1.2, hx₁.grow.data pg hnodup.1.1, (getPage_zero hg).2.1]
  refine ⟨?_,⟨_,htot⟩,pg,hpgf,(htot.nodup h.acct.nodup).2.2 pg (by simp),fun x hx => htot.mem_free hx,hent,hent₂,
    hzero,fun x hx => htot.data x fun hn => hx (htot.new_free hn)⟩
  have hpgm : mapped m sp pg = 0 := by
    by_contra hne
    exact h.mapped_not_free hne hpgf
  have hfnew : ∀ x ∈ new₁ ++ new₂, x ∈ m.free := fun x hx => htot.new_free (by
    rw [List.append_assoc]
    exact List.mem_append_right _ hx)
  refine h.store (n := key 3 (start + k * pgsize)) (.full pg) (.full pg) (new₁ ++ new₂) hs hn ?_ ?_ (Pte.full_agree pg) ?_ ?_ ?_ ?_ ?_ ?_ htot.allocatable ?_ ?_ (fun _ => Or.inr hpgm) ?_
  · exact hent
  · exact hent₂
  · intro hag
    have hsp := h.space c _ _ hs
    have hkr : m'.tbl kp = m.tbl kp := h.keep_kroot (c := c) fun x hxf hx =>
      htot.tbl x (by simpa using hx) fun hxn => hxf (htot.new_free hxn)
    refine ⟨hk₃.same.inner (hx₁.small (hk₁.same.inner hsp.small)),
      hx₂.small (hk₂.same.inner (hk₁'.same.inner hsp.small₂)),hag,fun i hi hi' => ?_,fun i hi hi' => ?_⟩
    · rw [hk₃.upper i hi, hx₁.upper i hi, hk₁.upper i hi, hkr, hsp.kernel i hi hi']
    · rw [hx₂.upper i hi, hk₂.upper i hi, hk₁'.upper i hi, hkr, hsp.kernel₂ i hi hi']
  · intro x hxf hx
    exact htot.tbl x (by simpa using hx) fun hxn => hxf (htot.new_free hxn)
  · intro x
    rw [ownOf_some hs, ownOf_some hs, hk₃.tblPages, hpg₁, List.count_append]
    have h1 := hx₂.pages_eq x
    have h2 := hpg₂ x
    simp only [tblPages] at h1 h2 ⊢
    omega
  · refine (htot.acct h.acct fun _ _ => rfl).mono fun x => ?_
    simp only [Pte.full_hit,List.count_append,List.count_singleton,beq_iff_eq,eq_comm (a := pg)]
    omega
  · intro x hx
    have hxn : x ∉ [pg] ++ new₁ ++ new₂ := fun hxn => h.own_not_free hx (htot.new_free hxn)
    rw [htot.ref, if_neg hxn]
    simp
  · intro x hx
    rw [htot.ref, if_pos (by rw [List.append_assoc]; exact List.mem_append_right _ hx)]
  · intro x hx
    exact (h.acct.free_ok x (hfnew x hx)).1
  · intro _
    exact (h.acct.free_ok pg hpgf).1
  · intro _ _
    rw [Pte.full_frame, hpgm]
    simp

end Ukern
