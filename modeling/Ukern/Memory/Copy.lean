import Ukern.Memory.Walk

/-! # Copying a page table

`copy_pgtbl` builds fresh tables with the present leaves of the source. The loop
invariant is the postcondition for the root entries visited so far.
-/
namespace Ukern
open Lib Lib.Radix
variable {m m' s : Phys} {l n dst src : ℕ} {new : List ℕ} {cnt : Bool}

/-- Weight of an entry for the number of entries that map page `x`. -/
def Pte.hit (x : ℕ) (e : Pte) : ℕ := if e.p = true ∧ e.frame = x then 1 else 0

/-- What a copy keeps of an entry. -/
def Pte.keep (e : Pte) : Pte := if e.p then e else .zero

@[simp] theorem Pte.hit_zero (x : ℕ) : Pte.zero.hit x = 0 := by simp [Pte.hit]

/-- The source table of a copy: held pages, apart from the target. -/
structure Source (m : Phys) (l n dst src : ℕ) : Prop where
  small : Inner Pte.link 512 Pte.Small m.tbl l n src
  held : ∀ x, pages Pte.link 512 m.tbl l n src x ≠ 0 → x ∉ m.free ∧ x ≠ dst
  leaf_held : ∀ x, leafSum Pte.link 512 (Pte.hit x) m.tbl l n src ≠ 0 → x ∉ m.free

/-- The first `n` root entries of `src` were copied to `dst`. -/
structure Copied (m m' : Phys) (cnt : Bool) (l n dst src : ℕ) (new : List ℕ) : Prop where
  grow : Grow m m' new (fun x => x = dst)
    (fun x => if cnt then leafSum Pte.link 512 (Pte.hit x) m.tbl l n src else 0)
  leaf_eq : ∀ k < n * 512^l, leafAt Pte.link 512 .zero m'.tbl l dst k =
    (leafAt Pte.link 512 .zero m.tbl l src k).keep
  pages_eq : ∀ x, pages Pte.link 512 m'.tbl l n dst x = (if x = dst then 1 else 0) + new.count x
  small : Inner Pte.link 512 Pte.Small m'.tbl l n dst
  upper : ∀ i, n ≤ i → m'.tbl dst i = m.tbl dst i

theorem Copied.zero (hne : m.free ≠ []) : Copied m m cnt l 0 dst src [] where
  grow := by simpa only [leafSum_zero_width,ite_self] using Grow.refl hne
  leaf_eq k hk := by simp at hk
  pages_eq x := by simp [pages_zero_width]
  small := inner_zero_width
  upper _ _ := rfl

theorem copyEntry_absent {i : ℕ} (hp : (m.tbl src i).p = false) : copyEntry cnt dst src m i = m := by
  simp [copyEntry,hp]

theorem copyEntry_present {i : ℕ} (hp : (m.tbl src i).p = true) : copyEntry cnt dst src m i =
    if cnt then (m.setEntry dst i (m.tbl src i)).setRef (m.tbl src i).frame
      ((m.setEntry dst i (m.tbl src i)).ref (m.tbl src i).frame + 1)
    else m.setEntry dst i (m.tbl src i) := by
  simp [copyEntry,hp]

theorem copyEntry_tbl {i : ℕ} (hp : (m.tbl src i).p = true) : (copyEntry cnt dst src m i).tbl =
    (m.setEntry dst i (m.tbl src i)).tbl := by
  rw [copyEntry_present hp]
  split <;> rfl

theorem Copied.step_leaf (h : Copied m s cnt 0 n dst src new) (hsrc : src ∉ m.free ∧ src ≠ dst)
    (hempty : m.tbl dst n = .zero)
    (hheld : (m.tbl src n).p = true → (m.tbl src n).frame ∉ m.free) :
    Copied m (copyEntry cnt dst src s n) cnt 0 (n+1) dst src new := by
  have hrow : s.tbl src n = m.tbl src n := by
    rw [h.grow.tbl src hsrc.2 fun hn => hsrc.1 (h.grow.new_free hn)]
  have hleaf := h.leaf_eq
  simp only [pow_zero,mul_one,leafAt] at hleaf
  have hsum : ∀ x, leafSum Pte.link 512 (Pte.hit x) m.tbl 0 (n+1) src =
      leafSum Pte.link 512 (Pte.hit x) m.tbl 0 n src + (m.tbl src n).hit x := fun x =>
    Finset.sum_range_succ ..
  cases hp : (m.tbl src n).p with
  | false =>
    rw [copyEntry_absent (by rw [hrow, hp])]
    refine ⟨?_,?_,h.pages_eq,trivial,fun i hi => h.upper i (by omega)⟩
    · simp only [hsum,Pte.hit,hp,Bool.false_eq_true,false_and,↓reduceIte,Nat.add_zero]
      exact h.grow
    · intro k hk
      simp only [pow_zero,mul_one,leafAt] at hk ⊢
      rcases Nat.lt_succ_iff_lt_or_eq.mp hk with hk | rfl
      · exact hleaf k hk
      · simp [h.upper,hempty,Pte.keep,hp]
  | true =>
    have hnew : (m.tbl src n).frame ∉ new := fun hn => hheld hp (h.grow.new_free hn)
    have htbl : (copyEntry cnt dst src s n).tbl = (s.setEntry dst n (m.tbl src n)).tbl := by
      rw [copyEntry_tbl (by rw [hrow, hp]), hrow]
    refine ⟨?_,?_,h.pages_eq,trivial,?_⟩
    · rw [copyEntry_present (by rw [hrow, hp]), hrow]
      have hset := h.grow.setEntry (t := dst) (i := n) (e := m.tbl src n) (Or.inl rfl)
      cases cnt with
      | false => simpa using hset
      | true =>
        simp only [↓reduceIte,hsum,Pte.hit,hp,true_and,eq_comm (a := (m.tbl src n).frame)] at hset ⊢
        exact hset.raise hnew
    · intro k hk
      simp only [pow_zero,mul_one,leafAt,htbl,Phys.setEntry_tbl_self] at hk ⊢
      rcases Nat.lt_succ_iff_lt_or_eq.mp hk with hk | rfl
      · rw [Function.update_of_ne (by omega), hleaf k hk]
      · simp [Pte.keep,hp]
    · intro i hi
      rw [htbl, Phys.setEntry_tbl_self, Function.update_of_ne (by omega), h.upper i (by omega)]

theorem Copied.step_absent (h : Copied m s cnt (l+1) n dst src new) (hempty : m.tbl dst n = .zero)
    (hp : (m.tbl src n).p = false) : Copied m s cnt (l+1) (n+1) dst src new := by
  have hnone := Pte.link_none hp l
  have hdst : s.tbl dst n = .zero := by rw [h.upper n le_rfl, hempty]
  refine ⟨?_,?_,?_,?_,fun i hi => h.upper i (by omega)⟩
  · simp only [leafSum_width_succ,hnone,Nat.add_zero]
    exact h.grow
  · intro k hk
    rcases key_width_succ (by decide) hk with hk | ⟨hd,-⟩
    · exact h.leaf_eq k hk
    · simp [leafAt,hd,hdst,hnone,Pte.keep]
  · intro x
    rw [pages_width_succ, h.pages_eq, hdst]
    simp
  · rw [inner_width_succ, hdst]
    exact ⟨h.small,Pte.small_zero l,fun c hc => by simp at hc⟩

/-- A present inner entry gets a fresh table, filled by the copy one level below. -/
theorem Copied.step_table {pg c : ℕ} {s₁ s₂ : Phys} {new' : List ℕ}
    (h : Copied m s cnt (l+1) n dst src new) (hg : getPage s true = .ok (pg,s₁))
    (hs₂ : s₂ = s₁.setEntry dst n ⟨pg,pteP ||| pteW ||| pteU⟩)
    (hlink : (m.tbl src n).link l = some c) (hsub : Same Pte.link 512 m.tbl s₂.tbl l 512 c)
    (hchild : Copied s₂ m' cnt l 512 pg c new') (hnodup : m.free.Nodup) (hdst : dst ∉ m.free)
    (hheld : ∀ x ∈ m.free, leafSum Pte.link 512 (Pte.hit x) m.tbl l 512 c = 0) :
    Copied m m' cnt (l+1) (n+1) dst src (new ++ [pg] ++ new') := by
  have hg₁ := grow_getPage hg
  have hg₂ : Grow s s₂ [pg] (fun x => x = dst) (fun _ => 0) := by
    rw [hs₂]
    exact (hg₁.mono fun x hx => hx.elim).setEntry (Or.inl rfl)
  have hpg : pg ∈ s.free := hg₁.new_free (by simp)
  have hnew' : ∀ x ∈ new', x ∈ s.free := fun x hx => hg₂.mem_free (hchild.grow.new_free hx)
  have hdist := (h.grow.nodup hnodup).2.2
  have hdp : dst ≠ pg := fun he => hdst (h.grow.mem_free (he ▸ hpg))
  have hdn : dst ∉ new' := fun hn => hdst (h.grow.mem_free (hnew' dst hn))
  have hrow : m'.tbl dst = Function.update (s.tbl dst) n ⟨pg,pteP ||| pteW ||| pteU⟩ := by
    rw [hchild.grow.tbl dst hdp hdn, hs₂, Phys.setEntry_tbl_self, hg₁.tbl dst id (by simpa using hdp)]
  have hd : (m'.tbl dst n).link l = some pg := by
    rw [hrow, Function.update_self, Pte.link_table]
  have hsame : Same Pte.link 512 s.tbl m'.tbl (l+1) n dst := by
    apply same_of_pages_below
    · intro i hi
      rw [hrow, Function.update_of_ne (by omega)]
    · rw [h.pages_eq, List.count_eq_zero_of_not_mem fun hn => hdst (h.grow.new_free hn)]
      simp
    · intro x hx hp
      have hxn : x ∈ new := by
        rw [h.pages_eq, if_neg hx] at hp
        exact List.count_pos_iff.mp (by omega)
      have hxp : x ≠ pg := fun he => hdist x hxn (he ▸ hpg)
      rw [hchild.grow.tbl x hxp fun hn => hdist x hxn (hnew' x hn), hg₂.tbl x hx (by simpa using hxp)]
  refine ⟨?_,?_,?_,?_,?_⟩
  · have htot := ((h.grow.trans hg₂ fun _ _ => rfl).trans hchild.grow fun x hx => by
      have hxf : x ∈ m.free := by
        rcases List.mem_append.mp hx with hx | hx
        · exact h.grow.new_free hx
        · exact h.grow.mem_free (hg₂.new_free hx)
      rw [hsub.leafSum, hheld x hxf, ite_self]).mono (T := fun x => x = dst) fun x hx => by
        rcases hx with (hx | hx) | hx
        · exact Or.inl hx
        · exact Or.inl hx
        · exact Or.inr (by simp [hx])
    simp only [leafSum_width_succ,hlink]
    cases cnt <;> simpa [hsub.leafSum] using htot
  · intro k hk
    rcases key_width_succ (by decide) hk with hk | ⟨hq,hr⟩
    · rw [hsame.leafAt (by decide) hk, h.leaf_eq k hk]
    · simp only [leafAt,hq,hd,hlink]
      rw [hchild.leaf_eq _ hr, hsub.leafAt (by decide) hr]
  · intro x
    rw [pages_width_succ, hd, hsame.pages, h.pages_eq]
    simp only [hchild.pages_eq,List.count_append,List.count_singleton,beq_iff_eq,eq_comm (a := pg)]
    omega
  · rw [inner_width_succ, hd]
    refine ⟨hsame.inner h.small,?_,fun c hc => ?_⟩
    · rw [hrow, Function.update_self]
      exact fun _ => Pte.link_table l pg
    · cases hc
      exact hchild.small
  · intro i hi
    rw [hrow, Function.update_of_ne (by omega), h.upper i (by omega)]

theorem Source.child {i c pg : ℕ} (hs : Source m (l+1) n dst src) (hi : i < n)
    (hc : (m.tbl src i).link l = some c) (hsub : Same Pte.link 512 m.tbl s.tbl l 512 c)
    (hfree : ∀ x ∈ s.free, x ∈ m.free) (hpg : pg ∈ m.free) : Source s l 512 pg c where
  small := hsub.inner ((hs.small i hi).2 c hc)
  held x hx := by
    have hle := pages_child_le (B := 512) hi hc x
    rw [hsub.pages] at hx
    have hheld := (hs.held x (by omega)).1
    exact ⟨fun hf => hheld (hfree x hf),fun he => hheld (he ▸ hpg)⟩
  leaf_held x hx := by
    have hle := leafSum_child_le (B := 512) hi hc (Pte.hit x)
    rw [hsub.leafSum] at hx
    exact fun hf => hs.leaf_held x (by omega) (hfree x hf)

/-- The copy of a child table starts where the copy of its parent stands. -/
structure Descent (m s₁ s₂ : Phys) (l i src pg : ℕ) : Prop where
  link : (m.tbl src i).link l = some (m.tbl src i).frame
  row : s₁.tbl src i = m.tbl src i
  same : Same Pte.link 512 m.tbl s₂.tbl l 512 (m.tbl src i).frame
  source : Source s₂ l 512 pg (m.tbl src i).frame
  empty : ∀ j < 512, s₂.tbl pg j = .zero
  out : pg ∉ s₂.free
  nodup : s₂.free.Nodup
  free_ne : s₂.free ≠ []

theorem Copied.row {i : ℕ} (hc : Copied m s cnt l n dst src new) (hs : Source m l i dst src) :
    s.tbl src = m.tbl src := by
  have hsrc := hs.held src (by cases l <;> simp [pages])
  exact hc.grow.tbl src hsrc.2 fun hn => hsrc.1 (hc.grow.new_free hn)

theorem Copied.descend {i pg : ℕ} {s₁ s₂ : Phys} (hc : Copied m s cnt (l+1) i dst src new)
    (hs : Source m (l+1) n dst src) (hi : i < n) (hp : (m.tbl src i).p = true) (hdst : dst ∉ m.free)
    (hnodup : m.free.Nodup) (hg : getPage s true = .ok (pg,s₁))
    (hs₂ : s₂ = s₁.setEntry dst i ⟨pg,pteP ||| pteW ||| pteU⟩) : Descent m s₁ s₂ l i src pg := by
  have hsrc := hs.held src (by simp [pages])
  have hg₁ := grow_getPage hg
  have hpgm : pg ∈ m.free := hc.grow.mem_free (hg₁.new_free (by simp))
  have hlink : (m.tbl src i).link l = some (m.tbl src i).frame := (hs.small i hi).1 hp
  have hkeep : ∀ x, x ∉ m.free → x ≠ dst → s₁.tbl x = m.tbl x := fun x hx hxd => by
    rw [hg₁.tbl x id (by simp only [List.mem_singleton]; exact fun he => hx (he ▸ hpgm)),
      hc.grow.tbl x hxd fun hn => hx (hc.grow.new_free hn)]
  have hsub : Same Pte.link 512 m.tbl s₂.tbl l 512 (m.tbl src i).frame := same_of_pages fun x hx => by
    have hle := pages_child_le (B := 512) hi hlink x
    obtain ⟨hxf,hxd⟩ := hs.held x (by omega)
    rw [hs₂, Phys.setEntry_tbl_ne hxd, hkeep x hxf hxd]
  have hnd₁ := hg₁.nodup (hc.grow.nodup hnodup).2.1
  have hpd : pg ≠ dst := fun he => hdst (he ▸ hpgm)
  have hfree : s₂.free = s₁.free := by rw [hs₂]; rfl
  refine ⟨hlink,by rw [hkeep src hsrc.1 hsrc.2],hsub,?_,fun j _ => ?_,?_,?_,?_⟩
  · refine hs.child hi hlink hsub (fun x hx => ?_) hpgm
    rw [hfree] at hx
    exact hc.grow.mem_free (hg₁.mem_free hx)
  · rw [hs₂, Phys.setEntry_tbl_ne hpd, (getPage_zero hg).1]
  · rw [hfree]
    exact hnd₁.2.2 pg (by simp)
  · rw [hfree]
    exact hnd₁.2.1
  · rw [hfree]
    exact hg₁.free_ne

theorem Source.leaf_free {i c x : ℕ} (hs : Source m (l+1) n dst src) (hi : i < n)
    (hc : (m.tbl src i).link l = some c) (hx : x ∈ m.free) :
    leafSum Pte.link 512 (Pte.hit x) m.tbl l 512 c = 0 := by
  have hle := leafSum_child_le (B := 512) hi hc (Pte.hit x)
  by_contra hpos
  exact hs.leaf_held x (by omega) hx

theorem copyFrom_spec (h : copyFrom cnt l n m dst src = .ok m') (hs : Source m l n dst src)
    (hempty : ∀ i < n, m.tbl dst i = .zero) (hdst : dst ∉ m.free) (hnodup : m.free.Nodup)
    (hne : m.free ≠ []) : ∃ new, Copied m m' cnt l n dst src new := by
  induction l generalizing m m' n dst src with
  | zero =>
    cases h
    have hsrc := hs.held src (by simp [pages])
    refine ⟨[],foldl_range_inv (fun i s => Copied m s cnt 0 i dst src []) (.zero hne) ?_⟩
    intro i s hi hc
    refine hc.step_leaf hsrc (hempty i hi) fun hp => hs.leaf_held _ ?_
    have hle : (m.tbl src i).hit (m.tbl src i).frame ≤
        leafSum Pte.link 512 (Pte.hit (m.tbl src i).frame) m.tbl 0 n src :=
      le_sum_range (f := fun j => (m.tbl src j).hit (m.tbl src i).frame) hi
    have hone : (m.tbl src i).hit (m.tbl src i).frame = 1 := by simp [Pte.hit,hp]
    omega
  | succ l ih =>
    refine foldlM_range_inv (fun i s => ∃ new, Copied m s cnt (l+1) i dst src new)
      ⟨[],.zero hne⟩ ?_ h
    rintro i s t hi ⟨new,hc⟩ hstep
    rw [hc.row hs] at hstep
    cases hp : (m.tbl src i).p with
    | false =>
      simp only [hp,Bool.not_false,↓reduceIte] at hstep
      cases hstep
      exact ⟨new,hc.step_absent (hempty i hi) hp⟩
    | true =>
      simp only [hp,Bool.not_true,Bool.false_eq_true,↓reduceIte] at hstep
      obtain ⟨⟨pg,s₁⟩,hg,hstep⟩ := bind_eq_ok.mp hstep
      have hd := hc.descend hs hi hp hdst hnodup hg rfl
      simp only [hd.row] at hstep
      obtain ⟨new',hchild⟩ := ih hstep hd.source hd.empty hd.out hd.nodup hd.free_ne
      exact ⟨_,hc.step_table hg rfl hd.link hd.same hchild hnodup hdst fun x hx => hs.leaf_free hi hd.link hx⟩

end Ukern
