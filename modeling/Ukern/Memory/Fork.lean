import Ukern.Memory.Map

/-! # The page table work of `sys_fork`

The child's `pgtbl` maps the parent's pages with one more reference each, `W` is
cleared on both sides, and `p_pgtbl` keeps the rights.
-/
namespace Ukern
open Lib Lib.Radix
variable {m m' : Phys} {kp t t₂ a b dst src : ℕ} {sp : Spaces} {extra : ℕ → ℕ} {c n : Slot}

theorem copyKernelHalf_eq (hne : src ≠ dst) : copyKernelHalf m dst src = { m with
    tbl := Function.update m.tbl dst fun i =>
      if 256 ≤ i ∧ i < 512 then m.tbl src i else m.tbl dst i } := by
  have hinv := foldl_range_inv (n := 256) (s := m)
    (f := fun m i => m.setEntry dst (256+i) (m.tbl src (256+i)))
    (fun k s => s = { m with tbl := Function.update m.tbl dst fun i =>
      if 256 ≤ i ∧ i < 256 + k then m.tbl src i else m.tbl dst i })
    (by
      have : ∀ i, ¬ (256 ≤ i ∧ i < 256 + 0) := fun i => by omega
      simp [this])
    (by
      rintro k s hk rfl
      simp only [Phys.setEntry,Function.update_self,Function.update_of_ne hne,Function.update_idem]
      congr 1
      congr 1
      funext i
      by_cases hi : i = 256 + k
      · subst hi
        simp
      · rw [Function.update_of_ne hi]
        have : (256 ≤ i ∧ i < 256 + (k+1)) ↔ (256 ≤ i ∧ i < 256 + k) := by omega
        simp only [this])
  exact hinv

/-- `copy_pgtbl` into an empty root. -/
structure Cloned (m m' : Phys) (cnt : Bool) (dst src : ℕ) (new : List ℕ) : Prop where
  grow : Grow m m' new (fun x => x = dst) (fun x => if cnt then maps m src x else 0)
  entry_eq : ∀ j < upages, entry m' dst j = (entry m src j).keep
  pages_eq : ∀ x, tblPages m' dst x = (if x = dst then 1 else 0) + new.count x
  small : Inner Pte.link 512 Pte.Small m'.tbl 3 256 dst
  kernel : ∀ i, 256 ≤ i → i < 512 → m'.tbl dst i = m.tbl src i

/-- The fresh table `dst` can take a copy of `src`. -/
structure Receives (m : Phys) (dst src : ℕ) : Prop where
  source : Source m 3 256 dst src
  empty : ∀ i, m.tbl dst i = .zero
  out : dst ∉ m.free
  nodup : m.free.Nodup
  free_ne : m.free ≠ []

theorem copyPgtbl_spec {cnt : Bool} (h : copyPgtbl m dst src cnt = .ok m') (hr : Receives m dst src) :
    ∃ new, Cloned m m' cnt dst src new := by
  unfold copyPgtbl at h
  obtain ⟨m₁,hc,h⟩ := bind_eq_ok.mp h
  have hdst := hr.out
  obtain ⟨new,hcp⟩ := copyFrom_spec hc hr.source (fun i _ => hr.empty i) hdst hr.nodup hr.free_ne
  obtain ⟨hsf,hsd⟩ := hr.source.held src (Nat.ne_of_gt (one_le_pages_root ..))
  rw [copyKernelHalf_eq hsd] at h
  simp only [Except.ok.injEq] at h
  have hdn : dst ∉ new := fun hn => hdst (hcp.grow.new_free hn)
  have hother : ∀ x, x ≠ dst → m'.tbl x = m₁.tbl x := fun x hx => by
    rw [← h]
    exact Function.update_of_ne hx ..
  have hrow : m'.tbl dst = fun i => if 256 ≤ i ∧ i < 512 then m₁.tbl src i else m₁.tbl dst i := by
    rw [← h]
    exact Function.update_self ..
  have hsame : Same Pte.link 512 m₁.tbl m'.tbl 3 256 dst := by
    apply same_of_pages_below
    · intro i hi
      rw [hrow]
      exact if_neg (by omega)
    · rw [hcp.pages_eq, List.count_eq_zero_of_not_mem hdn]
      simp
    · intro x hx _
      exact hother x hx
  refine ⟨new,?_,fun j hj => ?_,fun x => ?_,hsame.inner hcp.small,fun i hi hi' => ?_⟩
  · rw [← h]
    exact hcp.grow.setTbl fun x hx _ => Function.update_of_ne hx ..
  · have h1 : entry m' dst j = entry m₁ dst j := hsame.leafAt (by decide) hj
    rw [h1]
    exact hcp.leaf_eq j hj
  · have h1 : tblPages m' dst x = tblPages m₁ dst x := hsame.pages x
    rw [h1]
    exact hcp.pages_eq x
  · rw [hrow]
    simp only [hi,hi',and_self,↓reduceIte]
    rw [hcp.grow.tbl src hsd fun hn => hsf (hcp.grow.new_free hn)]

theorem pgtblClearflags_spec (hsmall : Inner Pte.link 512 Pte.Small m.tbl 3 256 t)
    (hone : ∀ x, tblPages m t x ≤ 1) (flags : BitVec 12) :
    Cleared m (pgtblClearflags m t flags) (flags &&& pteFlags) 3 256 t :=
  clearFrom_spec hsmall hone

theorem Pte.full_drop (f : ℕ) : (Pte.full f).drop (pteW &&& pteFlags) = ⟨f,pteP ||| pteU⟩ := by
  have hfl : (pteP ||| pteU ||| pteW) &&& ~~~(pteW &&& pteFlags) = pteP ||| pteU := by decide
  rw [Pte.drop, if_pos (Pte.full_p f), Pte.clear, Pte.full, hfl]

theorem Pte.Agree.drop_w {e e₂ : Pte} (h : e.Agree e₂) :
    (e.drop (pteW &&& pteFlags)).p = e.p ∧ (e.drop (pteW &&& pteFlags)).frame = e.frame ∧
    (e.drop (pteW &&& pteFlags)).Agree e₂ ∧ (e.p = true → (e.drop (pteW &&& pteFlags)).w = false) := by
  cases hp : e.p with
  | false =>
    have hd : e.drop (pteW &&& pteFlags) = e := by simp [Pte.drop,hp]
    rw [hd]
    exact ⟨hp,rfl,h,fun h => by cases h⟩
  | true =>
    obtain ⟨hp₂,hf⟩ := h
    obtain ⟨hfr,hfl,-⟩ := hf (hp₂ ▸ hp)
    have hd : e.drop (pteW &&& pteFlags) = ⟨e.frame,pteP ||| pteU⟩ := by
      rcases (Pte.Agree.cases ⟨hp₂,hf⟩ hp).2 with he | he
      · rw [he, Pte.full_drop]
        rfl
      · have hfl : (pteP ||| pteU) &&& ~~~(pteW &&& pteFlags) = pteP ||| pteU := by decide
        rw [Pte.drop, if_pos hp, Pte.clear, he, hfl]
    have hpp : (⟨e.frame,pteP ||| pteU⟩ : Pte).p = true := by
      change (pteP ||| pteU).getLsbD 0 = true
      decide
    rw [hd]
    refine ⟨hpp,rfl,⟨by rw [hpp, ← hp₂, hp],fun _ => ⟨hfr,hfl,Or.inr rfl⟩⟩,fun _ => ?_⟩
    change (pteP ||| pteU).getLsbD 1 = false
    decide

/-- Tables of parent and child after `sys_fork`. -/
structure Forked (m m' : Phys) (sp : Spaces) (c : Slot) (t t₂ a b : ℕ) : Prop where
  child : ∀ j < upages, entry m' a j = (entry m t₂ j).keep.drop (pteW &&& pteFlags)
  child₂ : ∀ j < upages, entry m' b j = (entry m t₂ j).keep
  parent : ∀ j < upages, entry m' t j = (entry m t j).drop (pteW &&& pteFlags)
  parent₂ : Keep m m' t₂
  other : ∀ j ≠ c, ∀ s s₂, sp j = some (s,s₂) → Keep m m' s ∧ Keep m m' s₂
  data : ∀ x, x ∉ m.free → m'.data x = m.data x
  pipe : ∀ x, x ∉ m.free → m'.pipe x = m.pipe x

/-- The two copies of `sys_fork`, before the flags are cleared. -/
structure Doubled (m m' : Phys) (t₂ a b : ℕ) (new : List ℕ) : Prop where
  grow : Grow m m' ([a,b] ++ new) (fun _ => False) (fun x => maps m t₂ x)
  child : ∀ j < upages, entry m' a j = (entry m t₂ j).keep
  child₂ : ∀ j < upages, entry m' b j = (entry m t₂ j).keep
  pages_eq : ∀ x, tblPages m' a x + tblPages m' b x = ([a,b] ++ new).count x
  small : Inner Pte.link 512 Pte.Small m'.tbl 3 256 a
  small₂ : Inner Pte.link 512 Pte.Small m'.tbl 3 256 b
  kernel : ∀ i, 256 ≤ i → i < 512 → m'.tbl a i = m.tbl t₂ i
  kernel₂ : ∀ i, 256 ≤ i → i < 512 → m'.tbl b i = m.tbl t₂ i

/-- Two fresh roots beside a table whose pages are held. -/
structure Roots (m m₂ : Phys) (t₂ a b : ℕ) : Prop where
  first : Receives m₂ a t₂
  empty : ∀ i, m₂.tbl b i = .zero
  ne : a ≠ b
  out : b ∉ m₂.free
  free : a ∈ m.free ∧ b ∈ m.free
  grow : Grow m m₂ [a,b] (fun _ => False) (fun _ => 0)
  keep : Keep m m₂ t₂

theorem roots_spec {m₁ m₂ : Phys} (ha : getPage m true = .ok (a,m₁)) (hb : getPage m₁ true = .ok (b,m₂))
    (hnodup : m.free.Nodup) (hsmall : Inner Pte.link 512 Pte.Small m.tbl 3 256 t₂)
    (hheld : ∀ x, tblPages m t₂ x ≠ 0 → x ∉ m.free) (hleaf : ∀ x, maps m t₂ x ≠ 0 → x ∉ m.free) :
    Roots m m₂ t₂ a b := by
  have hga := grow_getPage ha
  have hgb := grow_getPage hb
  have haf : a ∈ m.free := hga.new_free (by simp)
  have hnd₁ := hga.nodup hnodup
  have hbf : b ∈ m₁.free := hgb.new_free (by simp)
  have hab : a ≠ b := fun he => hnd₁.2.2 a (by simp) (he ▸ hbf)
  have hnd₂ := hgb.nodup hnd₁.2.1
  have hg₂ : Grow m m₂ [a,b] (fun _ => False) (fun _ => 0) :=
    (hga.trans hgb fun _ _ => rfl).mono fun x hx => hx.elim (fun h => h.elim) fun h => h.elim
  have hk₂ : Keep m m₂ t₂ := hg₂.keep fun x hx => ⟨id,hheld x hx⟩
  have hfree₂ : ∀ x ∈ m₂.free, x ∈ m.free := fun x hx => hg₂.mem_free hx
  have hsrc : Source m₂ 3 256 a t₂ := by
    refine ⟨hk₂.same.inner hsmall,fun x hx => ?_,fun x hx => ?_⟩
    · rw [hk₂.same.pages] at hx
      have hxf := hheld x hx
      exact ⟨fun hf => hxf (hfree₂ x hf),fun he => hxf (he ▸ haf)⟩
    · rw [hk₂.same.leafSum] at hx
      exact fun hf => hleaf x hx (hfree₂ x hf)
  refine ⟨⟨hsrc,fun i => ?_,fun hf => hnd₁.2.2 a (by simp) (hgb.mem_free hf),hnd₂.2.1,hgb.free_ne⟩,fun i => ?_,hab,
    hnd₂.2.2 b (by simp),⟨haf,hga.mem_free hbf⟩,hg₂,hk₂⟩
  · rw [hgb.tbl a id (by simpa using hab), (getPage_zero ha).1]
  · rw [(getPage_zero hb).1]

theorem Roots.second {m₂ m₃ : Phys} {new₁ : List ℕ} (h : Roots m m₂ t₂ a b) (hc₁ : Cloned m₂ m₃ true a t₂ new₁)
    (hsmall : Inner Pte.link 512 Pte.Small m.tbl 3 256 t₂)
    (hheld : ∀ x, tblPages m t₂ x ≠ 0 → x ∉ m.free) (hleaf : ∀ x, maps m t₂ x ≠ 0 → x ∉ m.free) :
    Receives m₃ b t₂ ∧ Keep m₂ m₃ t₂ := by
  have hk₂ := h.keep
  have hfree₂ : ∀ x ∈ m₂.free, x ∈ m.free := fun x hx => h.grow.mem_free hx
  have hk₃ : Keep m₂ m₃ t₂ := hc₁.grow.keep fun x hx => by
    rw [hk₂.tblPages] at hx
    have hxf := hheld x hx
    exact ⟨fun he => hxf (he ▸ h.free.1),fun hf => hxf (hfree₂ x hf)⟩
  have hnd₃ := hc₁.grow.nodup h.first.nodup
  have hfree₃ : ∀ x ∈ m₃.free, x ∈ m.free := fun x hx => hfree₂ x (hc₁.grow.mem_free hx)
  have hsrc : Source m₃ 3 256 b t₂ := by
    refine ⟨hk₃.same.inner (hk₂.same.inner hsmall),fun x hx => ?_,fun x hx => ?_⟩
    · rw [hk₃.same.pages, hk₂.same.pages] at hx
      have hxf := hheld x hx
      exact ⟨fun hf => hxf (hfree₃ x hf),fun he => hxf (he ▸ h.free.2)⟩
    · rw [hk₃.same.leafSum, hk₂.same.leafSum] at hx
      exact fun hf => hleaf x hx (hfree₃ x hf)
  refine ⟨⟨hsrc,fun i => ?_,fun hf => h.out (hc₁.grow.mem_free hf),hnd₃.2.1,hc₁.grow.free_ne⟩,hk₃⟩
  rw [hc₁.grow.tbl b h.ne.symm fun hn => h.out (hc₁.grow.new_free hn)]
  exact h.empty i

theorem doubled_spec {m₁ m₂ m₃ : Phys} (ha : getPage m true = .ok (a,m₁)) (hb : getPage m₁ true = .ok (b,m₂))
    (h₁ : copyPgtbl m₂ a t₂ true = .ok m₃) (h₂ : copyPgtbl m₃ b t₂ false = .ok m')
    (hnodup : m.free.Nodup) (hsmall : Inner Pte.link 512 Pte.Small m.tbl 3 256 t₂)
    (hheld : ∀ x, tblPages m t₂ x ≠ 0 → x ∉ m.free) (hleaf : ∀ x, maps m t₂ x ≠ 0 → x ∉ m.free) :
    ∃ new, Doubled m m' t₂ a b new := by
  have hroots := roots_spec ha hb hnodup hsmall hheld hleaf
  obtain ⟨new₁,hc₁⟩ := copyPgtbl_spec h₁ hroots.first
  obtain ⟨hrec₂,hk₃⟩ := hroots.second hc₁ hsmall hheld hleaf
  obtain ⟨new₂,hc₂⟩ := copyPgtbl_spec h₂ hrec₂
  have hab := hroots.ne
  have hab₂ := hroots.first.out
  have hb₂ := hroots.out
  have hg₂ := hroots.grow
  have hk₂ := hroots.keep
  have hnd₃ := hc₁.grow.nodup hroots.first.nodup
  have hka : Keep m₃ m' a := hc₂.grow.keep fun x hx => by
    rw [hc₁.pages_eq] at hx
    by_cases hxa : x = a
    · subst hxa
      exact ⟨hab,fun hf => hab₂ (hc₁.grow.mem_free hf)⟩
    · rw [if_neg hxa] at hx
      have hxn : x ∈ new₁ := List.count_pos_iff.mp (by omega)
      exact ⟨fun he => hb₂ (he ▸ hc₁.grow.new_free hxn),hnd₃.2.2 x hxn⟩
  have hmaps : ∀ x, maps m₂ t₂ x = maps m t₂ x := hk₂.maps
  refine ⟨new₁ ++ new₂,?_,fun j hj => ?_,fun j hj => ?_,fun x => ?_,hka.same.inner hc₁.small,hc₂.small,
    fun i hi hi' => ?_,fun i hi hi' => ?_⟩
  · have hm₁ : ∀ x ∈ [a,b], (if true = true then maps m₂ t₂ x else 0) = 0 := fun x hx => by
      by_contra hne
      simp only [↓reduceIte,hmaps] at hne
      exact hleaf x hne (hg₂.new_free hx)
    have htot := ((hg₂.trans hc₁.grow hm₁).trans hc₂.grow fun _ _ => rfl).mono
      (T := fun _ => False) fun x hx => Or.inr (by
        rcases hx with (hx | rfl) | rfl
        · exact hx.elim
        · simp
        · simp)
    simpa [hmaps] using htot
  · rw [hka.entry hj, hc₁.entry_eq j hj, hk₂.entry hj]
  · rw [hc₂.entry_eq j hj, hk₃.entry hj, hk₂.entry hj]
  · rw [hka.tblPages, hc₁.pages_eq, hc₂.pages_eq]
    simp only [List.count_append,List.count_cons,List.count_nil,beq_iff_eq,eq_comm (a := a),eq_comm (a := b)]
    omega
  · rw [hka.upper i hi, hc₁.kernel i hi hi', hk₂.upper i hi]
  · rw [hc₂.kernel i hi hi', hk₃.upper i hi, hk₂.upper i hi]

theorem Space.maps_eq (h : Space m kp t t₂) (x : ℕ) : maps m t₂ x = maps m t x :=
  maps_congr fun j hj => by
    obtain ⟨h1,h2⟩ := h.agree j hj
    cases hp : (entry m t₂ j).p with
    | false =>
      rw [hp] at h1
      simp [Pte.hit,hp,h1]
    | true => simp [Pte.hit,h1,hp,(h2 hp).1]

theorem Pte.keep_p (e : Pte) : e.keep.p = e.p := by
  cases hp : e.p <;> simp [Pte.keep,hp]

theorem Pte.keep_hit (e : Pte) (x : ℕ) : e.keep.hit x = e.hit x := by
  cases hp : e.p <;> simp [Pte.keep,Pte.hit,hp]

theorem Pte.Agree.keep_self {e e₂ : Pte} (h : e.Agree e₂) : e₂.keep.Agree e₂.keep := by
  refine ⟨rfl,fun hp => ?_⟩
  rw [Pte.keep_p] at hp
  have hfl := (h.2 hp).2.1
  simp [Pte.keep,hp,hfl]

theorem Pte.Agree.drop_hit {e e₂ : Pte} (h : e.Agree e₂) (x : ℕ) :
    (e.drop (pteW &&& pteFlags)).hit x = e.hit x := by
  rw [Pte.hit, h.drop_w.1, h.drop_w.2.1, Pte.hit]

theorem Forked.inv (hf : Forked m m' sp c t t₂ a b) (new : List ℕ) (h : MemInv m kp sp extra)
    (hs : sp c = some (t,t₂)) (hn : sp n = none)
    (hpages : ∀ x, tblPages m' a x + tblPages m' b x = new.count x) (hpar : ∀ x, tblPages m' t x = tblPages m t x)
    (hnew : ∀ x ∈ new, x ∈ m.free)
    (hacct : Acct m' (fun x => own m kp sp extra x + mapped m sp x + new.count x + maps m t₂ x))
    (href : ∀ x, m'.ref x = if x ∈ new then 1 else m.ref x + maps m t₂ x)
    (hal : ∀ x, m'.allocatable x = m.allocatable x) (hkern : Same Pte.link 512 m.tbl m'.tbl 3 512 kp)
    (hchild : (∀ j < upages, (entry m' a j).Agree (entry m' b j)) → Space m' kp a b)
    (hparent : (∀ j < upages, (entry m' t j).Agree (entry m' t₂ j)) → Space m' kp t t₂) :
    MemInv m' kp (Function.update sp n (some (a,b))) extra := by
  have hsp := h.space c t t₂ hs
  have hcn : c ≠ n := by
    rintro rfl
    rw [hs] at hn
    cases hn
  have hself : ∀ j < upages, ((entry m t₂ j).keep).Agree (entry m t₂ j).keep := fun j hj =>
    (hsp.agree j hj).keep_self
  have hmt : ∀ x, maps m' t x = maps m t x := fun x => maps_congr fun j hj => by
    rw [hf.parent j hj, (hsp.agree j hj).drop_hit]
  have hma : ∀ x, maps m' a x = maps m t₂ x := fun x => maps_congr fun j hj => by
    rw [hf.child j hj, (hself j hj).drop_hit, Pte.keep_hit]
  have hmle := fun x => MemInv.mapOf_le m sp c x
  simp only [mapOf_some hs,← hsp.maps_eq] at hmle
  have hsome : Function.update sp n (some (a,b)) n = some (a,b) := Function.update_self ..
  have hoth : ∀ j ≠ n, Function.update sp n (some (a,b)) j = sp j := fun j hj => Function.update_of_ne hj ..
  refine h.assemble (c := n) (fun j hj x => ?_) (fun j hj x => ?_) hkern ?_ (fun x hx => ?_) (fun x hx => ?_)
    hal (fun x hx => ?_) (fun j s s₂ hss => ?_) (fun j s s₂ hss i hi hp hw => ?_)
  · rw [hoth j hj]
    cases hsj : sp j with
    | none => rfl
    | some s =>
      by_cases hjc : j = c
      · subst hjc
        rw [hs] at hsj
        cases hsj
        simp only [ownOf,hpar,hf.parent₂.tblPages]
      · obtain ⟨h1,h2⟩ := hf.other j hjc _ _ hsj
        simp only [ownOf,h1.tblPages,h2.tblPages]
  · rw [hoth j hj]
    cases hsj : sp j with
    | none => rfl
    | some s =>
      by_cases hjc : j = c
      · subst hjc
        rw [hs] at hsj
        cases hsj
        exact hmt x
      · exact (hf.other j hjc _ _ hsj).1.maps x
  · refine hacct.mono fun x => ?_
    rw [hn, hsome, ownOf_some rfl, mapOf_some rfl, hpages, hma]
    simp only [ownOf_none,mapOf_none]
    omega
  · rw [hn] at hx
    have hx' : own m kp sp extra x ≠ 0 := by simpa using hx
    have h1 := (h.own_excl hx').2
    have h2 := hmle x
    have h3 : maps m t₂ x = 0 := by omega
    rw [href, if_neg fun hxn => h.own_not_free hx' (hnew x hxn), h3]
    simp
  · rw [hsome, ownOf_some rfl, hpages] at hx
    rw [href, if_pos (List.count_pos_iff.mp (by omega))]
  · rw [hsome, ownOf_some rfl, mapOf_some rfl, hpages, hma] at hx
    by_cases hxn : x ∈ new
    · exact (h.acct.free_ok x (hnew x hxn)).1
    · rw [List.count_eq_zero_of_not_mem hxn] at hx
      have h2 := hmle x
      exact h.alloc x (by omega)
  · by_cases hjn : j = n
    · subst hjn
      rw [hsome] at hss
      cases hss
      exact hchild fun i hi => by
        rw [hf.child i hi, hf.child₂ i hi]
        exact (hself i hi).drop_w.2.2.1
    · rw [hoth j hjn] at hss
      by_cases hjc : j = c
      · subst hjc
        rw [hs] at hss
        cases hss
        exact hparent fun i hi => by
          rw [hf.parent i hi, hf.parent₂.entry hi]
          exact (hsp.agree i hi).drop_w.2.2.1
      · obtain ⟨h1,h2⟩ := hf.other j hjc _ _ hss
        exact (h.space j s s₂ hss).keep h1 h2 fun i _ hi => (hkern i hi).1
  · -- `W` is left only in the spaces of other processes, which share no page with the parent
    by_cases hjn : j = n
    · subst hjn
      rw [hsome] at hss
      cases hss
      rw [hf.child i hi] at hp hw
      rw [(hself i hi).drop_w.1] at hp
      rw [(hself i hi).drop_w.2.2.2 hp] at hw
      cases hw
    · rw [hoth j hjn] at hss
      by_cases hjc : j = c
      · subst hjc
        rw [hs] at hss
        cases hss
        rw [hf.parent i hi] at hp hw
        rw [(hsp.agree i hi).drop_w.1] at hp
        rw [(hsp.agree i hi).drop_w.2.2.2 hp] at hw
        cases hw
      · rw [(hf.other j hjc _ _ hss).1.entry hi] at hp hw ⊢
        rw [hn, hsome, mapOf_some rfl, hma]
        have h1 := h.wr j s s₂ hss i hi hp hw
        have h2 := MemInv.mapOf_add_le m sp hjc (entry m s i).frame
        have h3 := maps_pos hi hp
        rw [mapOf_some hss, mapOf_some hs, ← hsp.maps_eq] at h2
        simp only [mapOf_none]
        omega

/-- The page tables of `sys_fork`, from the allocation of the two roots on. -/
theorem fork_spec {m₁ m₂ : Phys} {child parent : Proc} (h : MemInv m kp sp extra)
    (hs : sp c = some (parent.pgtbl,parent.pPgtbl)) (hn : sp n = none)
    (ha : getPage m true = .ok (child.pgtbl,m₁)) (hb : getPage m₁ true = .ok (child.pPgtbl,m₂))
    (hf : forkTables m₂ child parent = .ok m') :
    MemInv m' kp (Function.update sp n (some (child.pgtbl,child.pPgtbl))) extra ∧
      Forked m m' sp c parent.pgtbl parent.pPgtbl child.pgtbl child.pPgtbl := by
  unfold forkTables at hf
  obtain ⟨m₃,h₁,hf⟩ := bind_eq_ok.mp hf
  obtain ⟨m₆,h₂,hf⟩ := bind_eq_ok.mp hf
  simp only [Except.ok.injEq] at hf
  have hsp := h.space c _ _ hs
  have hheld := fun x => h.tables_held hs (x := x)
  have hone := h.tables_le_one hs
  have hmle := fun x => MemInv.mapOf_le m sp c x
  simp only [mapOf_some hs] at hmle
  obtain ⟨new,hd⟩ := doubled_spec ha hb h₁ h₂ h.acct.nodup hsp.small₂ (fun x hx => hheld x (by omega))
    (fun x hx => h.mapped_not_free (by have := hmle x; rw [hsp.maps_eq] at hx; omega))
  have hnd := hd.grow.nodup h.acct.nodup
  have hcount : ∀ x, tblPages m₆ child.pgtbl x + tblPages m₆ child.pPgtbl x ≤ 1 := fun x => by
    rw [hd.pages_eq]
    exact List.nodup_iff_count_le_one.mp hnd.1 x
  have hfresh : ∀ x, x ∉ m.free → tblPages m₆ child.pgtbl x + tblPages m₆ child.pPgtbl x = 0 := fun x hx => by
    rw [hd.pages_eq]
    exact List.count_eq_zero_of_not_mem fun hxn => hx (hd.grow.new_free hxn)
  have hcl₁ := pgtblClearflags_spec hd.small (fun x => by have := hcount x; omega) pteW
  have hk₆ : Keep m m₆ parent.pgtbl := hd.grow.keep fun x hx => ⟨id,hheld x (by omega)⟩
  have hk₇ : Keep m₆ (pgtblClearflags m₆ child.pgtbl pteW) parent.pgtbl := .of_pages fun x hx => by
    rw [hk₆.tblPages] at hx
    have h1 := hfresh x (hheld x (by omega))
    exact hcl₁.tbl x (by simp only [tblPages] at h1; omega)
  have hcl₂ := pgtblClearflags_spec (m := pgtblClearflags m₆ child.pgtbl pteW) (t := parent.pgtbl)
    (hk₇.same.inner (hk₆.same.inner hsp.small))
    (fun x => by rw [hk₇.tblPages, hk₆.tblPages]; have := hone x; omega) pteW
  rw [hf] at hcl₂
  have hpt : ∀ x, pages Pte.link 512 (pgtblClearflags m₆ child.pgtbl pteW).tbl 3 256 parent.pgtbl x =
      tblPages m parent.pgtbl x := fun x => by rw [hk₇.same.pages, hk₆.same.pages]; rfl
  have hnew : ∀ x, x ∈ m.free → tblPages m parent.pgtbl x + tblPages m parent.pPgtbl x = 0 := fun x hx => by
    by_contra hne
    exact hheld x hne hx
  have hframe : ∀ x, x ∉ m.free → tblPages m parent.pgtbl x = 0 → m'.tbl x = m.tbl x := fun x hxf hx => by
    have h1 := hfresh x hxf
    rw [hcl₂.tbl x (by rw [hpt, hx]), hcl₁.tbl x (by simp only [tblPages] at h1; omega),
      hd.grow.tbl x id fun hxn => hxf (hd.grow.new_free hxn)]
  have hkc : ∀ s, (∀ x, tblPages m₆ s x ≠ 0 → x ∈ m.free ∧ tblPages m₆ child.pgtbl x = 0) →
      Keep m₆ m' s := fun s hs' => .of_pages fun x hx => by
    obtain ⟨hxf,hxa⟩ := hs' x hx
    have h1 := hnew x hxf
    rw [hcl₂.tbl x (by rw [hpt]; omega), hcl₁.tbl x hxa]
  have hkb : Keep m₆ m' child.pPgtbl := hkc _ fun x hx => by
    have h1 := hcount x
    refine ⟨?_,by omega⟩
    by_contra hxf
    have := hfresh x hxf
    omega
  have hka : Keep (pgtblClearflags m₆ child.pgtbl pteW) m' child.pgtbl := .of_pages fun x hx => by
    have h1 : tblPages (pgtblClearflags m₆ child.pgtbl pteW) child.pgtbl x = tblPages m₆ child.pgtbl x :=
      hcl₁.pages_eq x
    rw [h1] at hx
    apply hcl₂.tbl
    rw [hpt]
    by_contra hne
    have := hfresh x (hheld x (by omega))
    omega
  have hk₂ : Keep m m' parent.pPgtbl := .of_pages fun x hx => by
    have := hone x
    exact hframe x (hheld x (by omega)) (by omega)
  have hent : ∀ j < upages, entry m' child.pgtbl j =
      (entry m parent.pPgtbl j).keep.drop (pteW &&& pteFlags) := fun j hj => by
    rw [hka.entry hj, ← hd.child j hj]
    exact hcl₁.leaf_eq j hj
  have hent₂ : ∀ j < upages, entry m' child.pPgtbl j = (entry m parent.pPgtbl j).keep := fun j hj => by
    rw [hkb.entry hj, hd.child₂ j hj]
  have hpar : ∀ j < upages, entry m' parent.pgtbl j =
      (entry m parent.pgtbl j).drop (pteW &&& pteFlags) := fun j hj => by
    rw [← hk₆.entry hj, ← hk₇.entry hj]
    exact hcl₂.leaf_eq j hj
  have hrest : m' = { m₆ with tbl := m'.tbl } := by rw [hcl₂.rest, hcl₁.rest]
  have hkeep : ∀ j ≠ c, ∀ s s₂, sp j = some (s,s₂) → Keep m m' s ∧ Keep m m' s₂ := fun j hj s s₂ hss =>
    h.keep_other (c := c) (fun x hxf hx => hframe x hxf (by rw [ownOf_some hs] at hx; omega)) hj hss
  have hforked : Forked m m' sp c parent.pgtbl parent.pPgtbl child.pgtbl child.pPgtbl := by
    refine ⟨hent,hent₂,hpar,hk₂,hkeep,fun x hx => ?_,fun x hx => ?_⟩
    · rw [hrest]
      exact hd.grow.data x fun hxn => hx (hd.grow.new_free hxn)
    · rw [hrest]
      exact hd.grow.pipe x fun hxn => hx (hd.grow.new_free hxn)
  have hkx : ∀ x, x ∉ m.free → ownOf m (sp c) x = 0 → m'.tbl x = m.tbl x := fun x hxf hx =>
    hframe x hxf (by rw [ownOf_some hs] at hx; omega)
  have hroot := h.keep_kroot hkx
  refine ⟨hforked.inv ([child.pgtbl,child.pPgtbl] ++ new) h hs hn (fun x => ?_) (fun x => ?_)
    (fun x hx => hd.grow.new_free hx) ?_ (fun x => ?_) (fun x => ?_) (h.keep_kernel hkx).2 (fun hag => ?_)
    (fun hag => ?_),hforked⟩
  · have h1 : tblPages (pgtblClearflags m₆ child.pgtbl pteW) child.pgtbl x = tblPages m₆ child.pgtbl x :=
      hcl₁.pages_eq x
    rw [hka.tblPages, hkb.tblPages, h1, hd.pages_eq]
  · have h1 : tblPages m' parent.pgtbl x =
        pages Pte.link 512 (pgtblClearflags m₆ child.pgtbl pteW).tbl 3 256 parent.pgtbl x := hcl₂.pages_eq x
    rw [h1, hpt]
  · rw [hrest]
    refine (hd.grow.acct h.acct fun x hx => ?_).setTbl _
    have h1 := hmle x
    have h2 := hsp.maps_eq x
    omega
  · rw [hrest]
    exact hd.grow.ref x
  · rw [hrest]
    exact hd.grow.allocatable x
  · refine ⟨hka.same.inner hcl₁.small,hkb.same.inner hd.small₂,hag,fun i hi hi' => ?_,fun i hi hi' => ?_⟩
    · rw [hka.upper i hi, hcl₁.upper i hi, hd.kernel i hi hi', hroot, hsp.kernel₂ i hi hi']
    · rw [hkb.upper i hi, hd.kernel₂ i hi hi', hroot, hsp.kernel₂ i hi hi']
  · refine ⟨hcl₂.small,hk₂.same.inner hsp.small₂,hag,fun i hi hi' => ?_,fun i hi hi' => ?_⟩
    · rw [hcl₂.upper i hi, hk₇.upper i hi, hk₆.upper i hi, hroot, hsp.kernel i hi hi']
    · rw [hk₂.upper i hi, hroot, hsp.kernel₂ i hi hi']

end Ukern
