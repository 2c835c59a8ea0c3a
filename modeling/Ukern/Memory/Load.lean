import Ukern.Memory.Image

/-! # Loading an image

`load_img` and the code after it fill a new pair of tables from pages that were free.
While the image is loaded the whole root of `pgtbl` is open, 512 entries wide, since an
address in the file may be any number; the kernel half is put in place at the end.
-/
namespace Ukern
open Lib Lib.Radix
variable {m m' m₀ : Phys} {kp a b n p i pg v : ℕ} {sp : Spaces} {extra : ℕ → ℕ} {c : Slot} {new : List ℕ}

/-- How often the table below `a` maps page `x`, over the whole root. -/
def mapsAll (m : Phys) (a x : ℕ) : ℕ := leafSum Pte.link 512 (Pte.hit x) m.tbl 3 512 a

theorem mapsAll_eq {x : ℕ} : mapsAll m a x = ∑ n ∈ Finset.range (512 * 512^3), (entry m a n).hit x :=
  leafSum_eq (by decide) (Pte.hit_zero x)

/-- What page `x` is counted for below `a`, and whether it is free. -/
def tally (m : Phys) (a x : ℕ) : ℕ := pages Pte.link 512 m.tbl 3 512 a x + mapsAll m a x + m.free.count x

/-- Tables `a` and `b` under construction since `m₀`, out of the pages `new`. -/
structure Build (m₀ m : Phys) (a b : ℕ) (new : List ℕ) : Prop where
  grow : Grow m₀ m new (fun _ => False) (fun _ => 0)
  small : Inner Pte.link 512 Pte.Small m.tbl 3 512 a
  leaf : ∀ n < 512 * 512^3, entry m a n = .zero ∨ ∃ f, entry m a n = .full f
  count : ∀ x, pages Pte.link 512 m.tbl 3 512 a x + mapsAll m a x + (if x = b then 1 else 0) ≤ new.count x
  root : ∀ i, m.tbl b i = .zero

/-- Page `f`, fresh and zero, was mapped at `v`. -/
structure Mapped (m₀ m m' : Phys) (a b v f : ℕ) (new : List ℕ) : Prop where
  build : Build m₀ m' a b new
  mem : f ∈ new
  fresh : f ∈ m.free
  entry_eq : ∀ j < 512 * 512^3, entry m' a j = if j = key 3 v then .full f else entry m a j
  zero : ∀ i, m'.data f i = 0
  data : ∀ x ∉ m.free, m'.data x = m.data x
  free : ∀ x ∈ m'.free, x ∈ m.free
  -- a page that was mapped at `v` before is lost
  tally_eq : ∀ x, tally m' a x + (entry m a (key 3 v)).hit x = tally m a x

namespace Build

theorem start {m₁ : Phys} (hnodup : m₀.free.Nodup) (ha : getPage m₀ true = .ok (a,m₁))
    (hb : getPage m₁ true = .ok (b,m)) : Build m₀ m a b [a,b] := by
  have hga := grow_getPage ha
  have hgb := grow_getPage hb
  have hab : a ≠ b := by
    rintro rfl
    exact (hga.nodup hnodup).2.2 a (by simp) (hgb.new_free (by simp))
  have hrow : m.tbl a = fun _ => .zero := by
    rw [hgb.tbl a id (by simpa using hab)]
    exact (getPage_zero ha).1
  have hnone : ∀ l i, Pte.link l (m.tbl a i) = none := fun l i => by rw [hrow, Pte.link_zero]
  have hent : ∀ n, entry m a n = .zero := fun n => leafAt_of_empty hnone fun i => by rw [hrow]
  refine ⟨(hga.trans hgb fun _ _ => rfl).mono fun _ h => Or.inl (h.elim id id),
    inner_of_empty hnone fun l i => by rw [hrow]; exact Pte.small_zero l,fun n _ => Or.inl (hent n),
    fun x => ?_,fun i => by rw [(getPage_zero hb).1]⟩
  have hmaps : mapsAll m a x = 0 := by
    rw [mapsAll_eq]
    exact Finset.sum_eq_zero fun n _ => by rw [hent, Pte.hit_zero]
  rw [pages_of_empty hnone, hmaps]
  simp only [List.count_cons,List.count_nil,beq_iff_eq,eq_comm (a := a),eq_comm (a := b)]
  split <;> split <;> omega

theorem nodup (h : Build m₀ m a b new) (hnodup : m₀.free.Nodup) :
    new.Nodup ∧ m.free.Nodup ∧ ∀ x ∈ new, x ∉ m.free := h.grow.nodup hnodup

theorem mem_new (h : Build m₀ m a b new) {x : ℕ}
    (hx : pages Pte.link 512 m.tbl 3 512 a x + mapsAll m a x + (if x = b then 1 else 0) ≠ 0) : x ∈ new :=
  List.count_pos_iff.mp (by have := h.count x; omega)

theorem count_le (h : Build m₀ m a b new) (hnodup : m₀.free.Nodup) (x : ℕ) :
    pages Pte.link 512 m.tbl 3 512 a x + mapsAll m a x + (if x = b then 1 else 0) ≤ 1 :=
  (h.count x).trans (List.nodup_iff_count_le_one.mp (h.nodup hnodup).1 x)

theorem table (h : Build m₀ m a b new) (hnodup : m₀.free.Nodup) : Table m 512 a where
  one x := by
    have := h.count_le hnodup x
    omega
  fresh x hx := by
    by_contra hne
    exact (h.nodup hnodup).2.2 x (h.mem_new (by omega)) hx

theorem entry_mem (h : Build m₀ m a b new) (hn : n < 512 * 512^3) {f : ℕ} (he : entry m a n = .full f) :
    f ∈ new := by
  apply h.mem_new
  have h1 := le_sum_range (f := fun j => (entry m a j).hit f) hn
  rw [he, Pte.full_hit, if_pos rfl, ← mapsAll_eq] at h1
  omega

theorem store {f : ℕ} (h : Build m₀ m a b new) (hnodup : m₀.free.Nodup) (hn : n < 512 * 512^3)
    (hslot : slotOf Pte.link 512 m.tbl 3 a n = some (p,i))
    (hroom : ∀ x, pages Pte.link 512 m.tbl 3 512 a x + mapsAll m a x + (if x = b then 1 else 0) +
      (if x = f then 1 else 0) ≤ new.count x) :
    Build m₀ (m.setEntry p i (.full f)) a b new := by
  have hx := Extended.of_slot (e := .full f) (h.table hnodup) h.grow.free_ne hn hslot
  have hp := pages_of_slotOf (n := 512) (by decide) hn hslot
  have hpb : b ≠ p := by
    rintro rfl
    have := h.count_le hnodup b
    rw [if_pos rfl] at this
    omega
  refine ⟨h.grow.setEntry (Or.inr (h.mem_new (by omega))),hx.small h.small,fun j hj => ?_,fun x => ?_,
    fun i => ?_⟩
  · rw [hx.entry_eq j hj]
    split
    · exact Or.inr ⟨f,rfl⟩
    · exact h.leaf j hj
  · have hsum := sum_range_replace (f := fun j => (entry (m.setEntry p i (.full f)) a j).hit x)
      (g := fun j => (entry m a j).hit x) hn (fun j hj hjn => by rw [hx.entry_eq j hj, if_neg hjn])
    simp only [hx.entry_eq n hn,↓reduceIte,Pte.full_hit,← mapsAll_eq] at hsum
    have hpg := hx.pages_eq x
    have hr := hroom x
    rw [List.count_nil] at hpg
    omega
  · rw [Phys.setEntry_tbl_ne hpb]
    exact h.root i

theorem take (h : Build m₀ m a b new) (hnodup : m₀.free.Nodup) (hg : getPage m true = .ok (pg,m')) :
    Build m₀ m' a b (new ++ [pg]) ∧ Same Pte.link 512 m.tbl m'.tbl 3 512 a ∧
      ∀ x, pages Pte.link 512 m'.tbl 3 512 a x + mapsAll m' a x + (if x = b then 1 else 0) +
        (if x = pg then 1 else 0) ≤ (new ++ [pg]).count x := by
  have hgr := grow_getPage hg
  have hpg : pg ∈ m.free := hgr.new_free (by simp)
  have hnew : ∀ x ∈ new, m'.tbl x = m.tbl x := fun x hx => hgr.tbl x id (by
    simp only [List.mem_singleton]
    rintro rfl
    exact (h.nodup hnodup).2.2 x hx hpg)
  have hsame : Same Pte.link 512 m.tbl m'.tbl 3 512 a := same_of_pages fun x hx =>
    hnew x (h.mem_new (by omega))
  have hroom : ∀ x, pages Pte.link 512 m'.tbl 3 512 a x + mapsAll m' a x + (if x = b then 1 else 0) +
      (if x = pg then 1 else 0) ≤ (new ++ [pg]).count x := fun x => by
    have h1 := h.count x
    have h2 : mapsAll m' a x = mapsAll m a x := hsame.leafSum _
    rw [hsame.pages, h2, List.count_append, List.count_singleton]
    simp only [beq_iff_eq,eq_comm (a := pg)]
    omega
  refine ⟨⟨(h.grow.trans hgr fun _ _ => rfl).mono fun _ h => Or.inl (h.elim id id),hsame.inner h.small,
    fun n hn => ?_,fun x => ?_,fun i => ?_⟩,hsame,hroom⟩
  · have he : entry m' a n = entry m a n := hsame.leafAt (by decide) hn
    rw [he]
    exact h.leaf n hn
  · have := hroom x
    omega
  · rw [hnew b (h.mem_new (by simp))]
    exact h.root i

theorem walk {r : Walk} (h : Build m₀ m a b new) (hnodup : m₀.free.Nodup)
    (hw : walkPgtbl m a v true = .ok (r,m')) :
    ∃ p i new', r = .slot p i ∧ slotOf Pte.link 512 m'.tbl 3 a (key 3 v) = some (p,i) ∧
      Build m₀ m' a b (new ++ new') ∧ (∀ j < 512 * 512^3, entry m' a j = entry m a j) ∧
      (∀ x ∉ m.free, m'.data x = m.data x) ∧ (∀ x ∈ m'.free, x ∈ m.free) ∧ ∀ x, tally m' a x = tally m a x := by
  obtain ⟨hnew,hfree,hdisj⟩ := h.nodup hnodup
  obtain ⟨p,i,new',rfl,hslot,he,-,hx⟩ := walkPgtbl_extend hw (Nat.mod_lt _ (by decide)) (h.table hnodup)
    hfree h.grow.free_ne
  have hx := hx (m'.tbl p i)
  rw [Phys.setEntry_same, he] at hx
  have hent : ∀ j < 512 * 512^3, entry m' a j = entry m a j := fun j hj => by
    rw [hx.entry_eq j hj]
    split
    · rename_i hjn
      rw [hjn]
    · rfl
  have hmaps : ∀ x, mapsAll m' a x = mapsAll m a x := fun x => by
    rw [mapsAll_eq, mapsAll_eq]
    exact Finset.sum_congr rfl fun j hj => by rw [hent j (Finset.mem_range.mp hj)]
  refine ⟨p,i,new',rfl,hslot,⟨(h.grow.trans hx.grow fun _ _ => rfl).mono fun x hS => ?_,hx.small h.small,
    fun j hj => ?_,fun x => ?_,fun i => ?_⟩,hent,fun x hx' => hx.grow.data x fun hn => hx' (hx.grow.new_free hn),
    fun x => hx.grow.mem_free,fun x => ?_⟩
  · rcases hS with hS | hS
    · exact hS.elim
    · exact Or.inr (List.mem_append_left _ (h.mem_new (by omega)))
  · rw [hent j hj]
    exact h.leaf j hj
  · have h1 := h.count x
    rw [hx.pages_eq, hmaps, List.count_append]
    omega
  · have hb := h.mem_new (x := b) (by simp)
    have hpb := h.count_le hnodup b
    rw [if_pos rfl] at hpb
    rw [hx.grow.tbl b (by omega) fun hb' => hdisj b hb (hx.grow.new_free hb')]
    exact h.root i
  · rw [tally, tally, hx.pages_eq, hmaps, hx.grow.free, List.count_append]
    omega

theorem map {m₁ m₂ : Phys} {r : Walk} (h : Build m₀ m a b new) (hnodup : m₀.free.Nodup)
    (hw : walkPgtbl m a v true = .ok (r,m₁)) (hg : getPage m₁ true = .ok (pg,m₂)) :
    ∃ p i new', r = .slot p i ∧ Mapped m₀ m (m₂.setEntry p i (.full pg)) a b v pg new' := by
  obtain ⟨p,i,new',rfl,hslot,h₁,hent,hdata,hsub,htally⟩ := h.walk hnodup hw
  obtain ⟨h₂,hsame,hroom⟩ := h₁.take hnodup hg
  have hslot' : slotOf Pte.link 512 m₂.tbl 3 a (key 3 v) = some (p,i) := by
    rw [hsame.slotOf (by decide) (key_lt 3 v), hslot]
  have hx := Extended.of_slot (e := .full pg) (h₂.table hnodup) h₂.grow.free_ne (key_lt 3 v) hslot'
  have hgr := grow_getPage hg
  refine ⟨p,i,_,rfl,h₂.store hnodup (key_lt 3 v) hslot' hroom,by simp,
    hsub pg (hgr.new_free (by simp)),fun j hj => ?_,fun i => congrFun (getPage_zero hg).2.1 i,fun x hx' => ?_,
    fun x hx' => hsub x (hgr.mem_free hx'),fun x => ?_⟩
  · have he : entry m₂ a j = entry m₁ a j := hsame.leafAt (by decide) hj
    rw [hx.entry_eq j hj, he, hent j hj]
  · have hpg : x ∉ [pg] := fun hn => hx' (hsub x (hgr.new_free hn))
    exact (hgr.data x hpg).trans (hdata x hx')
  · have hsum := sum_range_replace (f := fun j => (entry (m₂.setEntry p i (.full pg)) a j).hit x)
      (g := fun j => (entry m₂ a j).hit x) (key_lt 3 v) (fun j hj hjn => by rw [hx.entry_eq j hj, if_neg hjn])
    have he : entry m₂ a (key 3 v) = entry m a (key 3 v) := by
      rw [← hent _ (key_lt 3 v)]
      exact hsame.leafAt (by decide) (key_lt 3 v)
    simp only [hx.entry_eq _ (key_lt 3 v),↓reduceIte,Pte.full_hit,← mapsAll_eq,he] at hsum
    have hmaps : mapsAll m₂ a x = mapsAll m₁ a x := hsame.leafSum _
    have hpages := hx.pages_eq x
    have hfree : m₁.free.count x = (if x = pg then 1 else 0) + m₂.free.count x := by
      rw [hgr.free, List.count_append, List.count_singleton]
      simp only [beq_iff_eq,eq_comm (a := pg)]
    have h1 := htally x
    rw [hsame.pages, List.count_nil] at hpages
    unfold tally at h1 ⊢
    rw [show (m₂.setEntry p i (.full pg)).free = m₂.free from rfl, hpages]
    omega

theorem setByte {pa : ℕ} {x : UInt8} (h : Build m₀ m a b new) (hpa : pa / pgsize ∈ new) :
    Build m₀ (m.setByte pa x) a b new :=
  ⟨{ h.grow with
      data := fun y hy => (Function.update_of_ne (by rintro rfl; exact hy hpa) ..).trans (h.grow.data y hy) },
    h.small,h.leaf,h.count,h.root⟩

theorem fill {f off : ℕ} {bs : List UInt8} (h : Build m₀ m a b new) (hf : f ∈ new)
    (hlen : off + bs.length ≤ pgsize) : Build m₀ (m.fill f off bs) a b new := by
  unfold Phys.fill
  induction bs generalizing m off with
  | nil => exact h
  | cons x bs ih =>
    rw [List.length_cons] at hlen
    have hdiv : (f * pgsize + off) / pgsize = f := by
      rw [Nat.mul_comm, Nat.mul_add_div (by decide), Nat.div_eq_of_lt (by omega), Nat.add_zero]
    have hadd : f * pgsize + off + 1 = f * pgsize + (off+1) := Nat.add_assoc ..
    rw [Phys.setBytes, hadd]
    exact ih (h.setByte (by rw [hdiv]; exact hf)) (by omega)

end Build

theorem loadPage_spec {s : Option (ℕ × ℕ)} (h : Build m₀ m a b new) (hnodup : m₀.free.Nodup)
    (hl : loadPage m a v = .ok (s,m')) :
    ∃ t i f new', s = some (t,i) ∧ m'.tbl t i = .full f ∧ f ∈ new' ∧ Build m₀ m' a b new' := by
  unfold loadPage at hl
  obtain ⟨⟨r,m₁⟩,hw,hl⟩ := bind_eq_ok.mp hl
  obtain ⟨p,i,-,rfl,-⟩ := h.walk hnodup hw
  obtain ⟨⟨pg,m₂⟩,hg,hl⟩ := bind_eq_ok.mp hl
  cases hl
  obtain ⟨p',i',new',hs,hM⟩ := h.map hnodup hw hg
  cases hs
  refine ⟨p,i,pg,new',rfl,?_,hM.mem,hM.build⟩
  rw [Phys.setEntry_tbl_self, Function.update_self]
  rfl

/-- The byte loop: every store goes to a page that was free before. -/
theorem loadBytes_spec {img : Img} {fileend k src : ℕ} {pte : Option (ℕ × ℕ)} {r : Bool}
    (h : Build m₀ m a b new) (hnodup : m₀.free.Nodup)
    (hpte : ∀ t i, pte = some (t,i) → ∃ f ∈ new, m.tbl t i = .full f)
    (hl : loadBytes img a fileend k m pte src v = .ok (r,m')) :
    r = true ∧ ∃ new', Build m₀ m' a b new' := by
  induction k generalizing m pte src v new with
  | zero =>
    cases hl
    exact ⟨rfl,new,h⟩
  | succ k ih =>
    unfold loadBytes at hl
    obtain ⟨⟨pte',m₁⟩,hp,hl⟩ := bind_eq_ok.mp hl
    have hstep : ∃ t i f new', pte' = some (t,i) ∧ m₁.tbl t i = .full f ∧ f ∈ new' ∧
        Build m₀ m₁ a b new' := by
      unfold loadSlot at hp
      split at hp
      · exact loadPage_spec h hnodup hp
      · rename_i hcond
        cases hp
        cases hpe : pte with
        | none => simp [hpe] at hcond
        | some ti =>
          obtain ⟨f,hf,he⟩ := hpte ti.1 ti.2 hpe
          exact ⟨ti.1,ti.2,f,new,rfl,he,hf,h⟩
    obtain ⟨t,i,f,new',rfl,he,hf,hB⟩ := hstep
    simp only at hl
    obtain ⟨m₂,hm₂,hl⟩ := bind_eq_ok.mp hl
    have hB₂ : Build m₀ m₂ a b new' ∧ m₂.tbl = m₁.tbl := by
      unfold loadByte at hm₂
      split at hm₂
      · obtain ⟨x,-,hm₂⟩ := bind_eq_ok.mp hm₂
        cases hm₂
        refine ⟨hB.setByte ?_,rfl⟩
        rw [he, Pte.full_frame, Nat.mul_comm, Nat.mul_add_div (by decide),
          Nat.div_eq_of_lt (Nat.mod_lt _ (by decide)), Nat.add_zero]
        exact hf
      · cases hm₂
        exact ⟨hB,rfl⟩
    refine ih hB₂.1 (fun t' i' hti => ?_) hl
    cases hti
    exact ⟨f,hf,by rw [hB₂.2]; exact he⟩

theorem loadSegs_spec {img : Img} {base k x endUmem e' : ℕ} {r : Bool} (h : Build m₀ m a b new)
    (hnodup : m₀.free.Nodup) (hl : loadSegs img base a k x m endUmem = .ok (r,e',m')) :
    r = true ∧ ∃ new', Build m₀ m' a b new' := by
  induction k generalizing m x endUmem new with
  | zero =>
    cases hl
    exact ⟨rfl,new,h⟩
  | succ k ih =>
    unfold loadSegs at hl
    obtain ⟨ph,-,hl⟩ := bind_eq_ok.mp hl
    split at hl
    · exact ih h hl
    · obtain ⟨⟨r₁,m₁⟩,hb,hl⟩ := bind_eq_ok.mp hl
      obtain ⟨rfl,new',h'⟩ := loadBytes_spec h hnodup (fun _ _ hn => by cases hn) hb
      exact ih h' hl

theorem loadImg_spec {img : Img} {base e' : ℕ} {q : Proc} {r : U64} (h : Build m₀ m q.pgtbl b new)
    (hnodup : m₀.free.Nodup) (hmagic : img.field m base 4 = .ok elfMagic)
    (hl : loadImg img base m q = .ok (r,e',m')) : r = 0 ∧ ∃ new', Build m₀ m' q.pgtbl b new' := by
  unfold loadImg at hl
  obtain ⟨mg,hmg,hl⟩ := bind_eq_ok.mp hl
  rw [hmagic] at hmg
  cases hmg
  rw [if_neg (by simp)] at hl
  obtain ⟨phoff,-,hl⟩ := bind_eq_ok.mp hl
  obtain ⟨phnum,-,hl⟩ := bind_eq_ok.mp hl
  obtain ⟨⟨r₁,e₁,m₁⟩,hs,hl⟩ := bind_eq_ok.mp hl
  obtain ⟨rfl,hB⟩ := loadSegs_spec h hnodup hs
  cases hl
  exact ⟨rfl,hB⟩

theorem mapFresh_spec {s : Option ℕ} (h : Build m₀ m a b new) (hnodup : m₀.free.Nodup)
    (hl : mapFresh m a v = .ok (s,m')) :
    ∃ f new', s = some f ∧ Mapped m₀ m m' a b v f new' := by
  unfold mapFresh at hl
  obtain ⟨⟨r,m₁⟩,hw,hl⟩ := bind_eq_ok.mp hl
  obtain ⟨p,i,-,rfl,-⟩ := h.walk hnodup hw
  simp only at hl
  split at hl
  · cases hl
  obtain ⟨⟨pg,m₂⟩,hg,hl⟩ := bind_eq_ok.mp hl
  cases hl
  obtain ⟨p',i',new',hs,hM⟩ := h.map hnodup hw hg
  cases hs
  exact ⟨pg,new',rfl,hM⟩

/-- The kernel half in place: below the user half nothing changes. -/
theorem Build.kernelHalf (h : Build m₀ m a b new) (hnodup : m₀.free.Nodup) (hkp : kp ∉ m₀.free)
    (hm : m' = copyKernelHalf m a kp) :
    Grow m₀ m' new (fun _ => False) (fun _ => 0) ∧ Same Pte.link 512 m.tbl m'.tbl 3 256 a ∧
      (∀ i, 256 ≤ i → i < 512 → m'.tbl a i = m.tbl kp i) ∧ ∀ i, m'.tbl b i = .zero := by
  have ha : a ∈ new := h.mem_new (by
    have := one_le_pages_root Pte.link 512 m.tbl 3 512 a
    omega)
  have hka : kp ≠ a := by
    rintro rfl
    exact hkp (h.grow.new_free ha)
  have hba : b ≠ a := by
    rintro rfl
    have h1 := h.count_le hnodup b
    have h2 := one_le_pages_root Pte.link 512 m.tbl 3 512 b
    rw [if_pos rfl] at h1
    omega
  have hone : pages Pte.link 512 m.tbl 3 256 a a ≤ 1 :=
    (@pages_width_mono _ Pte.link 512 m.tbl 3 256 a 512 (by decide) a).trans ((h.table hnodup).one a)
  rw [copyKernelHalf_eq hka] at hm
  have hrow : m'.tbl a = fun i => if 256 ≤ i ∧ i < 512 then m.tbl kp i else m.tbl a i := by
    rw [hm]
    exact Function.update_self ..
  have hoth : ∀ x, x ≠ a → m'.tbl x = m.tbl x := fun x hx => by
    rw [hm]
    exact Function.update_of_ne hx ..
  refine ⟨?_,same_of_pages_below (fun i hi => ?_) hone fun x hx _ => hoth x hx,fun i hi hi' => ?_,fun i => ?_⟩
  · rw [hm]
    exact h.grow.setTbl fun x _ hx => Function.update_of_ne (by rintro rfl; exact hx ha) ..
  · rw [hrow]
    exact if_neg (by omega)
  · rw [hrow]
    exact if_pos ⟨hi,hi'⟩
  · rw [hoth b hba]
    exact h.root i

/-- The table of a new image with its kernel half: `p_pgtbl` can take a copy. -/
structure Halved (m₀ m m₁ : Phys) (a b kp : ℕ) (new : List ℕ) : Prop where
  grow : Grow m₀ m₁ new (fun _ => False) (fun _ => 0)
  same : Same Pte.link 512 m.tbl m₁.tbl 3 256 a
  kernel : ∀ i, 256 ≤ i → i < 512 → m₁.tbl a i = m.tbl kp i
  data : m₁.data = m.data
  count : ∀ x, tblPages m₁ a x + maps m₁ a x + (if x = b then 1 else 0) ≤ new.count x
  receives : Receives m₁ b a

theorem Build.halve {m₁ : Phys} (h : Build m₀ m a b new) (hinv : MemInv m₀ kp sp extra)
    (hk : m₁ = copyKernelHalf m a kp) : Halved m₀ m m₁ a b kp new := by
  have hnodup := hinv.acct.nodup
  have hkp : kp ∉ m₀.free := fun hf => by
    have h1 := hinv.kernel_table.fresh kp hf
    have h2 := one_le_pages_root Pte.link 512 m₀.tbl 3 512 kp
    omega
  obtain ⟨hg₁,hsame,hka,hb₁⟩ := h.kernelHalf hnodup hkp hk
  obtain ⟨hnew,hfree₁,hdisj⟩ := hg₁.nodup hnodup
  have hle : ∀ x, tblPages m₁ a x + maps m₁ a x + (if x = b then 1 else 0) ≤ new.count x := fun x => by
    have h1 := h.count x
    have h2 : tblPages m₁ a x = pages Pte.link 512 m.tbl 3 256 a x := hsame.pages x
    have h3 : maps m₁ a x = leafSum Pte.link 512 (Pte.hit x) m.tbl 3 256 a := hsame.leafSum _
    have h4 := @pages_width_mono _ Pte.link 512 m.tbl 3 256 a 512 (by decide) x
    have h5 := @leafSum_width_mono _ Pte.link 512 m.tbl 3 256 a 512 (by decide) (Pte.hit x)
    rw [h2, h3]
    unfold mapsAll at h1
    omega
  have hmem : ∀ x, tblPages m₁ a x + maps m₁ a x + (if x = b then 1 else 0) ≠ 0 → x ∈ new := fun x hx =>
    List.count_pos_iff.mp (by have := hle x; omega)
  have hsrc : Source m₁ 3 256 b a := by
    refine ⟨hsame.inner fun i hi => h.small i (by omega),fun x hx => ?_,fun x hx => ?_⟩
    · have hx' : tblPages m₁ a x ≠ 0 := hx
      refine ⟨hdisj x (hmem x (by omega)),?_⟩
      rintro rfl
      have := (hle x).trans (List.nodup_iff_count_le_one.mp hnew x)
      rw [if_pos rfl] at this
      omega
    · have hx' : maps m₁ a x ≠ 0 := hx
      exact hdisj x (hmem x (by omega))
  have hne : kp ≠ a := fun he => hkp (he ▸ h.grow.new_free (h.mem_new (x := a) (by
    have := one_le_pages_root Pte.link 512 m.tbl 3 512 a
    omega)))
  exact ⟨hg₁,hsame,hka,by rw [hk, copyKernelHalf_eq hne],hle,hsrc,hb₁,hdisj b (hmem b (by simp)),hfree₁,hg₁.free_ne⟩

/-- The last steps for a new image: kernel half and `p_pgtbl`. The tables become those of
slot `c`. -/
theorem Build.finish {m₁ : Phys} (h : Build m₀ m a b new) (hinv : MemInv m₀ kp sp extra)
    (hk : m₁ = copyKernelHalf m a kp) (hc : copyPgtbl m₁ b a false = .ok m') :
    MemInv m' kp (Function.update sp c (some (a,b))) extra ∧
      (∃ new', Grow m₀ m' new' (fun _ => False) (fun _ => 0)) ∧
      (∀ j < upages, entry m' a j = entry m a j) ∧ ∀ x ∈ new, m'.data x = m.data x := by
  have hnodup := hinv.acct.nodup
  have hkp : kp ∉ m₀.free := fun hf => by
    have h1 := hinv.kernel_table.fresh kp hf
    have h2 := one_le_pages_root Pte.link 512 m₀.tbl 3 512 kp
    omega
  obtain ⟨hg₁,hsame,hka,hdata,hle,hrec⟩ := h.halve hinv hk
  obtain ⟨hnew,hfree₁,hdisj⟩ := hg₁.nodup hnodup
  have hmem : ∀ x, tblPages m₁ a x + maps m₁ a x + (if x = b then 1 else 0) ≠ 0 → x ∈ new := fun x hx =>
    List.count_pos_iff.mp (by have := hle x; omega)
  have hle1 : ∀ x, tblPages m₁ a x + maps m₁ a x + (if x = b then 1 else 0) ≤ 1 := fun x =>
    (hle x).trans (List.nodup_iff_count_le_one.mp hnew x)
  have hsmall : Inner Pte.link 512 Pte.Small m₁.tbl 3 256 a :=
    hsame.inner fun i hi => h.small i (by omega)
  have hbnew : b ∈ new := hmem b (by simp)
  obtain ⟨new₂,hcl⟩ := copyPgtbl_spec hc hrec
  have hkeep : Keep m₁ m' a := .of_pages fun x hx => hcl.grow.tbl x (by
      rintro rfl
      have := hle1 x
      rw [if_pos rfl] at this
      omega)
    fun hx' => hdisj x (hmem x (by omega)) (hcl.grow.new_free hx')
  have hg : Grow m₀ m' (new ++ new₂) (fun _ => False) (fun _ => 0) :=
    (hg₁.trans hcl.grow fun _ _ => rfl).mono fun x hx => Or.inr (by
      rcases hx with hx | rfl
      · exact hx.elim
      · exact List.mem_append_left _ hbnew)
  have hent : ∀ j < upages, entry m' a j = entry m a j := fun j hj => by
    have h1 : entry m₁ a j = entry m a j := hsame.leafAt (by decide) hj
    rw [hkeep.entry hj, h1]
  refine ⟨?_,⟨_,hg⟩,hent,fun x hx => by
    rw [hcl.grow.data x fun hn => hdisj x hx (hcl.grow.new_free hn), hdata]⟩
  have hfr : ∀ x ∈ new ++ new₂, x ∈ m₀.free := fun x hx => hg.new_free hx
  have hsome : Function.update sp c (some (a,b)) c = some (a,b) := Function.update_self ..
  have hown : ∀ x, ownOf m' (Function.update sp c (some (a,b)) c) x =
      tblPages m₁ a x + ((if x = b then 1 else 0) + new₂.count x) := fun x => by
    rw [ownOf_some hsome, hkeep.tblPages, hcl.pages_eq]
  have hmap : ∀ x, mapOf m' (Function.update sp c (some (a,b)) c) x = maps m₁ a x := fun x => by
    rw [mapOf_some hsome, hkeep.maps]
  have hnew' : ∀ x, ownOf m' (Function.update sp c (some (a,b)) c) x +
      mapOf m' (Function.update sp c (some (a,b)) c) x ≤ (new ++ new₂).count x := fun x => by
    have := hle x
    rw [hown, hmap, List.count_append]
    omega
  have hin : ∀ x, ownOf m' (Function.update sp c (some (a,b)) c) x +
      mapOf m' (Function.update sp c (some (a,b)) c) x ≠ 0 → x ∈ new ++ new₂ := fun x hx =>
    List.count_pos_iff.mp (by have := hnew' x; omega)
  have hmz : ∀ x ∈ m₀.free, mapped m₀ sp x = 0 := fun x hx => by
    by_contra hne
    exact hinv.mapped_not_free hne hx
  have hent₂ : ∀ j < upages, entry m' b j = (entry m a j).keep := fun j hj => by
    have h1 : entry m₁ a j = entry m a j := hsame.leafAt (by decide) hj
    rw [hcl.entry_eq j hj, h1]
  have hlt : ∀ j < upages, j < 512 * 512^3 := fun j hj => hj.trans (by decide)
  have hkp' : m'.tbl kp = m.tbl kp := by
    rw [hg.tbl kp id fun hx => hkp (hfr kp hx), h.grow.tbl kp id fun hx => hkp (h.grow.new_free hx)]
  refine hinv.change (c := c) (fun j hj => Function.update_of_ne hj ..)
    (fun x hx _ => hg.tbl x id fun hx' => hx (hfr x hx')) ?_ (fun x hx => ?_) (fun x hx => ?_) hg.allocatable
    (fun x hx => (hinv.acct.free_ok x (hfr x (hin x hx))).1) (fun t t₂ hst => ?_) (fun x => ?_)
    (fun t t₂ hst j hj hp _ => ?_)
  · refine (hg.acct hinv.acct fun _ _ => rfl).mono fun x => ?_
    have := hnew' x
    omega
  · rw [hg.ref, if_neg fun hx' => hinv.own_not_free (x := x) (by omega) (hfr x hx')]
    simp
  · rw [hg.ref, if_pos (hin x (by omega))]
  · rw [hsome] at hst
    cases hst
    refine ⟨hkeep.same.inner hsmall,hcl.small,fun j hj => ?_,fun i hi hi' => ?_,fun i hi hi' => ?_⟩
    · rw [hent j hj, hent₂ j hj]
      rcases h.leaf j (hlt j hj) with he | ⟨f,he⟩
      · rw [he, Pte.keep, if_neg (by simp)]
        exact ⟨rfl,fun hp => by simp at hp⟩
      · rw [he, Pte.keep, if_pos (Pte.full_p f)]
        exact Pte.full_agree f
    · rw [hkeep.upper i hi, hka i hi hi', hkp']
    · rw [hcl.kernel i hi hi', hka i hi hi', hkp']
  · by_cases hx : mapOf m' (Function.update sp c (some (a,b)) c) x = 0
    · exact Or.inl (by omega)
    · exact Or.inr (hmz x (hfr x (hin x (by omega))))
  · rw [hsome] at hst
    cases hst
    rw [hent j hj] at hp ⊢
    rcases h.leaf j (hlt j hj) with he | ⟨f,he⟩
    · rw [he] at hp
      simp at hp
    · have hf := h.entry_mem (hlt j hj) he
      have h1 := hle1 f
      rw [he, Pte.full_frame, hmz f (h.grow.new_free hf), hmap]
      omega

theorem toBytes_length (x n : ℕ) : (toBytes x n).length = n := by
  induction n generalizing x with
  | zero => rfl
  | succ n ih => rw [toBytes, List.length_cons, ih]

theorem uargv_length : uargv.length = nargs * 8 := by
  simp [uargv,List.length_flatMap,toBytes_length]

theorem Phys.setBytes_tbl (m : Phys) (pa : ℕ) (bs : List UInt8) : (m.setBytes pa bs).tbl = m.tbl := by
  induction bs generalizing m pa with
  | nil => rfl
  | cons b bs ih => rw [Phys.setBytes, ih]; rfl

section Fill
variable (m) (f off : ℕ) {bs : List UInt8}

theorem frame_div {o : ℕ} (ho : o < pgsize) : (f * pgsize + o) / pgsize = f ∧ (f * pgsize + o) % pgsize = o := by
  rw [Nat.mul_comm]
  exact ⟨by rw [Nat.mul_add_div (by decide), Nat.div_eq_of_lt ho, Nat.add_zero],
    by rw [Nat.mul_add_mod, Nat.mod_eq_of_lt ho]⟩

theorem Phys.fill_cons (b : UInt8) (bs : List UInt8) :
    m.fill f off (b :: bs) = (m.setByte (f * pgsize + off) b).fill f (off+1) bs := by
  rw [Phys.fill, Phys.fill, Phys.setBytes, Nat.add_assoc]

theorem Phys.fill_data_ne {x : ℕ} (hx : x ≠ f) (hlen : off + bs.length ≤ pgsize) :
    (m.fill f off bs).data x = m.data x := by
  induction bs generalizing m off with
  | nil => rfl
  | cons b bs ih =>
    rw [List.length_cons] at hlen
    rw [Phys.fill_cons, ih _ _ (by omega), Phys.setByte, (frame_div f (by omega)).1]
    exact Function.update_of_ne hx ..

theorem Phys.fill_data_lt {j : ℕ} (hj : j < off) (hlen : off + bs.length ≤ pgsize) :
    (m.fill f off bs).data f j = m.data f j := by
  induction bs generalizing m off with
  | nil => rfl
  | cons b bs ih =>
    rw [List.length_cons] at hlen
    obtain ⟨h1,h2⟩ := frame_div f (o := off) (by omega)
    rw [Phys.fill_cons, ih _ _ (by omega) (by omega), Phys.setByte, h1, h2]
    simp only [Function.update_self]
    exact Function.update_of_ne (by omega) ..

theorem Phys.fill_data (i : ℕ) (bs : List UInt8) (hlen : off + bs.length ≤ pgsize) :
    (m.fill f off bs).data f (off + i) = if h : i < bs.length then bs[i] else m.data f (off + i) := by
  induction bs generalizing m off i with
  | nil => rfl
  | cons b bs ih =>
    rw [List.length_cons] at hlen
    obtain ⟨h1,h2⟩ := frame_div f (o := off) (by omega)
    rw [Phys.fill_cons]
    cases i with
    | zero =>
      rw [Nat.add_zero, Phys.fill_data_lt _ _ _ (by omega) (by omega), Phys.setByte, h1, h2]
      simp
    | succ i =>
      have h3 := ih (m.setByte (f * pgsize + off) b) (off + 1) i (by omega)
      rw [show off + (i+1) = off + 1 + i by omega, h3, Phys.setByte, h1, h2]
      simp only [Function.update_self,Function.update_of_ne (show off + 1 + i ≠ off by omega),
        List.length_cons,Nat.add_lt_add_iff_right,List.getElem_cons_succ]

end Fill

/-- Stack and arguments of a new image: the stack is zero below the argument vector. -/
structure Laid (m : Phys) (t : ℕ) (args : List UInt8) : Prop where
  stack : ∃ g, entry m t (key 3 (ustack - pgsize)) = .full g ∧ ∀ i < pgsize - nargs * 8, m.data g i = 0
  args : ∃ f, entry m t (key 3 uargs) = .full f ∧
    ∀ i < pgsize, m.data f i = if h : i < args.length then args[i] else 0
  argv : ∃ g, entry m t (key 3 (ustack - pgsize)) = .full g ∧
    ∀ i (h : i < uargv.length), m.data g (pgsize - nargs * 8 + i) = uargv[i]

theorem Laid.keep {t : ℕ} {args : List UInt8} (h : Laid m t args) (hk : Keep m m' t) (hd : m'.data = m.data) :
    Laid m' t args where
  stack := by
    rw [hd, hk.entry (by decide)]
    exact h.stack
  args := by
    rw [hd, hk.entry (by decide)]
    exact h.args
  argv := by
    rw [hd, hk.entry (by decide)]
    exact h.argv

theorem buildSpace_spec {q : Proc} {args : List UInt8} {r : Bool} (h : Build m₀ m q.pgtbl q.pPgtbl new)
    (hinv : MemInv m₀ kp sp extra) (hargs : args.length ≤ pgsize)
    (hb : buildSpace m kp q args = .ok (r,m')) :
    r = true ∧ MemInv m' kp (Function.update sp c (some (q.pgtbl,q.pPgtbl))) extra ∧
      (∃ new', Grow m₀ m' new' (fun _ => False) (fun _ => 0)) ∧ Laid m' q.pgtbl args := by
  have hnodup := hinv.acct.nodup
  unfold buildSpace at hb
  obtain ⟨⟨s,m₁⟩,h1,hb⟩ := bind_eq_ok.mp hb
  obtain ⟨g,new₁,rfl,hM₁⟩ := mapFresh_spec h hnodup h1
  obtain ⟨⟨s₂,m₂⟩,h2,hb⟩ := bind_eq_ok.mp hb
  have hlen : pgsize - nargs * 8 + uargv.length ≤ pgsize := by
    rw [uargv_length]
    decide
  have hB₁ := hM₁.build.fill hM₁.mem hlen
  obtain ⟨f,new₂,rfl,hM₂⟩ := mapFresh_spec hB₁ hnodup h2
  obtain ⟨m₃,hc,hb⟩ := bind_eq_ok.mp hb
  cases hb
  obtain ⟨hfin,hg,hent,hdata⟩ := (hM₂.build.fill hM₂.mem (by omega)).finish (c := c) hinv rfl hc
  have hgfree : g ∉ (m₁.fill g (pgsize - nargs * 8) uargv).free := (hB₁.nodup hnodup).2.2 g hM₁.mem
  have hgf : entry m₂ q.pgtbl (key 3 (ustack - pgsize)) = .full g := by
    have htbl : (m₁.fill g (pgsize - nargs * 8) uargv).tbl = m₁.tbl := Phys.setBytes_tbl ..
    rw [hM₂.entry_eq _ (key_lt 3 _), if_neg (by decide), entry, htbl]
    exact (hM₁.entry_eq _ (key_lt 3 _)).trans (if_pos rfl)
  have htbl : (m₂.fill f 0 args).tbl = m₂.tbl := Phys.setBytes_tbl ..
  have hstack : entry m' q.pgtbl (key 3 (ustack - pgsize)) = .full g := by
    rw [hent _ (by decide), entry, htbl]
    exact hgf
  have hpage : m'.data g = (m₁.fill g (pgsize - nargs * 8) uargv).data g := by
    have hne : g ≠ f := (ne_of_mem_of_not_mem hM₂.fresh hgfree).symm
    rw [hdata g (hM₂.build.entry_mem (key_lt 3 _) hgf), Phys.fill_data_ne _ _ _ hne (by omega), hM₂.data g hgfree]
  refine ⟨rfl,hfin,hg,⟨g,hstack,fun i hi => ?_⟩,⟨f,?_,fun i hi => ?_⟩,⟨g,hstack,fun i hi => ?_⟩⟩
  · rw [hpage, Phys.fill_data_lt _ _ _ hi hlen, hM₁.zero]
  · rw [hent _ (by decide), entry, htbl]
    exact (hM₂.entry_eq _ (key_lt 3 _)).trans (if_pos rfl)
  · have h3 := Phys.fill_data m₂ f 0 i args (by omega)
    rw [Nat.zero_add, hM₂.zero] at h3
    rw [hdata f hM₂.mem, h3]
  · rw [hpage, Phys.fill_data _ _ _ i uargv hlen, dif_pos hi]

/-- Apart from stack and arguments an address space maps what was loaded. -/
theorem buildSpace_entry {q : Proc} {args : List UInt8} {r : Bool} (h : Build m₀ m q.pgtbl q.pPgtbl new)
    (hinv : MemInv m₀ kp sp extra) (hargs : args.length ≤ pgsize) (hb : buildSpace m kp q args = .ok (r,m'))
    (hn : n < upages) (hstack : n ≠ key 3 (ustack - pgsize)) (huargs : n ≠ key 3 uargs) :
    entry m' q.pgtbl n = entry m q.pgtbl n := by
  have hnodup := hinv.acct.nodup
  have hn' : n < 512 * 512^3 := Nat.lt_of_lt_of_le hn (by decide)
  unfold buildSpace at hb
  obtain ⟨⟨s,m₁⟩,h1,hb⟩ := bind_eq_ok.mp hb
  obtain ⟨g,new₁,rfl,hM₁⟩ := mapFresh_spec h hnodup h1
  obtain ⟨⟨s₂,m₂⟩,h2,hb⟩ := bind_eq_ok.mp hb
  have hlen : pgsize - nargs * 8 + uargv.length ≤ pgsize := by
    rw [uargv_length]
    decide
  obtain ⟨f,new₂,rfl,hM₂⟩ := mapFresh_spec (hM₁.build.fill hM₁.mem hlen) hnodup h2
  obtain ⟨m₃,hc,hb⟩ := bind_eq_ok.mp hb
  cases hb
  obtain ⟨-,-,hent,-⟩ := (hM₂.build.fill hM₂.mem (by omega)).finish (c := slotAt 0) hinv rfl hc
  have htbl₁ : (m₁.fill g (pgsize - nargs * 8) uargv).tbl = m₁.tbl := Phys.setBytes_tbl ..
  have htbl₂ : (m₂.fill f 0 args).tbl = m₂.tbl := Phys.setBytes_tbl ..
  have h₁ := (hM₁.entry_eq n hn').trans (if_neg hstack)
  have h₂ := (hM₂.entry_eq n hn').trans (if_neg huargs)
  unfold entry at h₁ h₂ hent ⊢
  rw [hent n hn, htbl₂, h₂, htbl₁, h₁]

end Ukern
