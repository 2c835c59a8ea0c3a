import Ukern.Memory.Account
import Ukern.Kernel.Access

/-! # Page walks

The tables of `mem.c` are radix tables of 512 entries. A walk with `create` adds
fresh, empty tables on the way to a slot and changes no leaf.
-/
namespace Ukern
open Lib Lib.Radix
variable {m m' : Phys} {l n t k v : ℕ}

/-- A present inner entry leads to a table: no huge page. -/
def Pte.Small (l : ℕ) (e : Pte) : Prop := e.p = true → e.link l = some e.frame

@[simp] theorem Pte.zero_p : Pte.zero.p = false := by decide
@[simp] theorem Pte.link_zero (l : ℕ) : Pte.zero.link l = none := by simp [Pte.link]
theorem Pte.small_zero (l : ℕ) : Pte.zero.Small l := fun h => by cases h

/-- Entries made for inner tables carry `P`, `W` and `U` and no size bit. -/
theorem Pte.link_table (l pg : ℕ) : Pte.link l ⟨pg,pteP ||| pteW ||| pteU⟩ = some pg := by
  have hp : (⟨pg,pteP ||| pteW ||| pteU⟩ : Pte).p = true := by
    change (pteP ||| pteW ||| pteU).getLsbD 0 = true
    decide
  have hs : (⟨pg,pteP ||| pteW ||| pteU⟩ : Pte).ps = false := by
    change (pteP ||| pteW ||| pteU).getLsbD 7 = false
    decide
  simp [Pte.link,hp,hs]

theorem Pte.link_none {e : Pte} (h : e.p = false) (l : ℕ) : e.link l = none := by
  simp [Pte.link,h]

theorem key_lt (l v : ℕ) : key l v < 512 * 512^l := by
  rw [← Nat.pow_succ']
  exact Nat.mod_lt _ (Nat.pow_pos (by decide))

theorem key_zero (v : ℕ) : key 0 v = tblIndex 0 v := by
  simp [key,tblIndex]

theorem key_succ_div (l v : ℕ) : key (l+1) v / 512^(l+1) = tblIndex (l+1) v := by
  rw [key, Nat.pow_succ 512 (l+1), Nat.mod_mul_right_div_self, tblIndex]

theorem key_succ_mod (l v : ℕ) : key (l+1) v % 512^(l+1) = key l v :=
  Nat.mod_mod_of_dvd _ (Nat.pow_dvd_pow 512 (by omega))

theorem tblIndex_lt (l v : ℕ) : tblIndex l v < 512 := Nat.mod_lt _ (by decide)

theorem key_lt_of_index (h : tblIndex l v < n) : key l v < n * 512^l := by
  have hd : key l v / 512^l = tblIndex l v := by
    rw [key, Nat.pow_succ, Nat.mod_mul_right_div_self, tblIndex]
  rw [← hd] at h
  exact (Nat.div_lt_iff_lt_mul (Nat.pow_pos (by decide))).mp h

/-- A walk reached slot `s` of key `k`, taking the pages `new` for new tables. -/
structure Walked (m m' : Phys) (l n t k : ℕ) (s : ℕ × ℕ) (new : List ℕ) : Prop where
  slot : slotOf Pte.link 512 m'.tbl l t k = some s
  grow : Grow m m' new (fun x => pages Pte.link 512 m.tbl l n t x ≠ 0) (fun _ => 0)
  leaf_eq : ∀ k < n * 512^l, leafAt Pte.link 512 .zero m'.tbl l t k = leafAt Pte.link 512 .zero m.tbl l t k
  pages_eq : ∀ x, pages Pte.link 512 m'.tbl l n t x = pages Pte.link 512 m.tbl l n t x + new.count x
  small : Inner Pte.link 512 Pte.Small m.tbl l n t → Inner Pte.link 512 Pte.Small m'.tbl l n t
  upper : ∀ i, n ≤ i → m'.tbl t i = m.tbl t i
  linked : ∀ i, (m.tbl t i).link (l-1) ≠ none → m'.tbl t i = m.tbl t i

theorem Walked.lift_present {c : ℕ} {s : ℕ × ℕ} {new : List ℕ}
    (hidx : tblIndex (l+1) v < n) (hc : (m.tbl t (tblIndex (l+1) v)).link l = some c)
    (hfresh : ∀ x ∈ m.free, pages Pte.link 512 m.tbl (l+1) n t x = 0) (hone : ∀ x, pages Pte.link 512 m.tbl (l+1) n t x ≤ 1)
    (h : Walked m m' l 512 c (key l v) s new) : Walked m m' (l+1) n t (key (l+1) v) s new := by
  have hnew : ∀ x ∈ new, pages Pte.link 512 m.tbl (l+1) n t x = 0 := fun x hx => hfresh x (h.grow.new_free hx)
  have hle := pages_child_le (B := 512) hidx hc
  have hroot : m'.tbl t = m.tbl t := by
    apply h.grow.tbl
    · have h1 := hle t
      have h2 := hone t
      simp only [↓reduceIte] at h1
      omega
    · intro ht
      have h1 := hnew t ht
      have h2 := one_le_pages_root Pte.link 512 m.tbl (l+1) n t
      omega
  have hsb : SameBut Pte.link 512 m.tbl m'.tbl l n t (tblIndex (l+1) v) := by
    intro i hi hne
    refine ⟨by rw [hroot],fun d hd => same_of_pages fun x hx => h.grow.tbl x ?_ ?_⟩
    · have h1 := pages_children_le (B := 512) hi hidx hne hd hc x
      have h2 := hone x
      omega
    · intro hn
      have h1 := pages_child_le (B := 512) hi hd x
      have h2 := hnew x hn
      omega
  have hd : (m'.tbl t (tblIndex (l+1) v)).link l = some c := by rw [hroot]; exact hc
  refine ⟨?_,h.grow.mono fun x hx => ?_,?_,?_,?_,fun i _ => by rw [hroot],fun i _ => by rw [hroot]⟩
  · simp only [slotOf,key_succ_div,key_succ_mod,hd]
    exact h.slot
  · have h1 := hle x
    left
    omega
  · intro k hk
    rw [hsb.leafAt (by decide) hd hk]
    by_cases hj : k / 512^(l+1) = tblIndex (l+1) v
    · have hr : k % 512^(l+1) < 512 * 512^l := by
        rw [← Nat.pow_succ']
        exact Nat.mod_lt _ (Nat.pow_pos (by decide))
      rw [if_pos hj, h.leaf_eq _ hr]
      simp only [leafAt,hj,hc]
    · rw [if_neg hj]
  · intro x
    have hs := hsb.pages hidx hd x
    rw [hc] at hs
    simp only [h.pages_eq x] at hs
    omega
  · intro hq
    refine hsb.inner hq (by rw [hroot]; exact (hq _ hidx).1) ?_
    intro d hd'
    rw [hd] at hd'
    cases hd'
    exact h.small ((hq _ hidx).2 c hc)

theorem Walked.lift_create {pg : ℕ} {rest new : List ℕ} {s : ℕ × ℕ} {m₁ : Phys}
    (hidx : tblIndex (l+1) v < n) (he : (m.tbl t (tblIndex (l+1) v)).link l = none)
    (hf : m.free = pg :: rest) (hnodup : m.free.Nodup)
    (hne : rest ≠ []) (hone : ∀ x, pages Pte.link 512 m.tbl (l+1) n t x ≤ 1)
    (hfresh : ∀ x ∈ m.free, pages Pte.link 512 m.tbl (l+1) n t x = 0)
    (hm₁ : m₁ = ((m.zeroPage pg).unlink pg rest).setEntry t (tblIndex (l+1) v)
      ⟨pg,pteP ||| pteW ||| pteU⟩)
    (h : Walked m₁ m' l 512 pg (key l v) s new) :
    Walked m m' (l+1) n t (key (l+1) v) s (pg :: new) := by
  have hpg : pg ∈ m.free := by rw [hf]; exact List.mem_cons_self
  have htp : t ≠ pg := by
    rintro rfl
    have h1 := hfresh t hpg
    have h2 := one_le_pages_root Pte.link 512 m.tbl (l+1) n t
    omega
  have hnd := List.nodup_cons.mp (hf ▸ hnodup)
  have hfree₁ : m₁.free = rest := by rw [hm₁]; rfl
  have hempty : m₁.tbl pg = fun _ => .zero := by
    rw [hm₁]
    simp [Phys.setEntry,Phys.unlink,Phys.zeroPage,Ne.symm htp]
  have htbl₁ : ∀ x, x ≠ pg → x ≠ t → m₁.tbl x = m.tbl x := fun x hx hxt => by
    rw [hm₁]
    simp [Phys.setEntry,Phys.unlink,Phys.zeroPage,hx,hxt]
  have hroot₁ : m₁.tbl t = Function.update (m.tbl t) (tblIndex (l+1) v)
      ⟨pg,pteP ||| pteW ||| pteU⟩ := by
    rw [hm₁]
    simp [Phys.setEntry,Phys.unlink,Phys.zeroPage,htp]
  have hlinks : ∀ l i, (m₁.tbl pg i).link l = none := fun l i => by rw [hempty]; simp
  have hp₁ : ∀ x, pages Pte.link 512 m₁.tbl l 512 pg x = if x = pg then 1 else 0 :=
    pages_of_empty hlinks
  have hnew : ∀ x ∈ new, x ∈ rest := fun x hx => hfree₁ ▸ h.grow.new_free hx
  have hnewpg : ∀ x ∈ pg :: new, pages Pte.link 512 m.tbl (l+1) n t x = 0 := by
    intro x hx
    rcases List.mem_cons.mp hx with rfl | hx
    · exact hfresh x hpg
    · exact hfresh x (by rw [hf]; exact List.mem_cons_of_mem _ (hnew x hx))
  have hkeep : ∀ x, x ≠ t → pages Pte.link 512 m.tbl (l+1) n t x ≠ 0 → m'.tbl x = m.tbl x := by
    intro x hxt hx
    have hxp : x ≠ pg := fun h' => hx (hnewpg x (by simp [h']))
    rw [h.grow.tbl x (by simp [hp₁,hxp]) (fun hn => hx (hnewpg x (List.mem_cons_of_mem _ hn))),
      htbl₁ x hxp hxt]
  have hroot : m'.tbl t = m₁.tbl t := by
    apply h.grow.tbl t (by simp [hp₁,htp])
    intro hn
    have h1 := hnewpg t (List.mem_cons_of_mem _ hn)
    have h2 := one_le_pages_root Pte.link 512 m.tbl (l+1) n t
    omega
  have hd : (m'.tbl t (tblIndex (l+1) v)).link l = some pg := by
    rw [hroot, hroot₁, Function.update_self, Pte.link_table]
  have hsb : SameBut Pte.link 512 m.tbl m'.tbl l n t (tblIndex (l+1) v) := by
    intro i hi hne
    have hi' : m'.tbl t i = m.tbl t i := by
      rw [hroot, hroot₁, Function.update_of_ne hne]
    refine ⟨hi',fun d hd => same_of_pages fun x hx => ?_⟩
    have h1 := pages_child_le (B := 512) hi hd x
    apply hkeep x
    · rintro rfl
      have h2 := hone x
      simp only [↓reduceIte] at h1
      omega
    · omega
  refine ⟨?_,?_,?_,?_,?_,fun i hi => by rw [hroot, hroot₁, Function.update_of_ne (by omega)],
    fun i hi => ?_⟩
  · simp only [slotOf,key_succ_div,key_succ_mod,hd]
    exact h.slot
  · have hg : Grow m m₁ [pg] (fun x => x = t) (fun _ => 0) := by
      rw [hm₁]
      exact ((grow_unlink (z := true) hf hne).mono fun x hx => hx.elim).setEntry (Or.inl rfl)
    refine (hg.trans h.grow (fun _ _ => rfl)).mono fun x hx => ?_
    rcases hx with rfl | hx
    · have h2 := one_le_pages_root Pte.link 512 m.tbl (l+1) n x
      left
      omega
    · right
      simp only [hp₁,ne_eq,ite_eq_right_iff,one_ne_zero,imp_false,not_not] at hx
      simp [hx]
  · intro k hk
    rw [hsb.leafAt (by decide) hd hk]
    by_cases hj : k / 512^(l+1) = tblIndex (l+1) v
    · have hr : k % 512^(l+1) < 512 * 512^l := by
        rw [← Nat.pow_succ']
        exact Nat.mod_lt _ (Nat.pow_pos (by decide))
      rw [if_pos hj, h.leaf_eq _ hr]
      simp only [leafAt,hj,he]
      exact leafAt_of_empty hlinks (fun i => by rw [hempty])
    · rw [if_neg hj]
  · intro x
    have hs := hsb.pages hidx hd x
    rw [he] at hs
    simp only [h.pages_eq x,hp₁] at hs
    rw [List.count_cons]
    simp only [beq_iff_eq]
    simp only [eq_comm (a := pg)]
    omega
  · intro hq
    refine hsb.inner hq ?_ ?_
    · rw [hroot, hroot₁, Function.update_self]
      exact fun _ => Pte.link_table l pg
    · intro d hd'
      rw [hd] at hd'
      cases hd'
      exact h.small (inner_of_empty hlinks fun l i => by rw [hempty]; exact Pte.small_zero l)
  · have hne : i ≠ tblIndex (l+1) v := by
      rintro rfl
      exact hi he
    rw [hroot, hroot₁, Function.update_of_ne hne]

/-- A walk returns the slot of the page, or fails without `create` on a missing table. -/
theorem walkFrom_spec {create : Bool} {alloced : List (Option ℕ)} {r : Walk}
    (h : walkFrom create v l m t alloced = .ok (r,m')) (hidx : tblIndex l v < n)
    (hnodup : m.free.Nodup) (hne : m.free ≠ [])
    (hfresh : ∀ x ∈ m.free, pages Pte.link 512 m.tbl l n t x = 0)
    (hone : ∀ x, pages Pte.link 512 m.tbl l n t x ≤ 1) :
    (r = .efault ∧ m' = m ∧ create = false ∧ slotOf Pte.link 512 m.tbl l t (key l v) = none) ∨
    ∃ p new, r = .slot p (tblIndex 0 v) ∧ (create = false → m' = m) ∧
      Walked m m' l n t (key l v) (p,tblIndex 0 v) new := by
  induction l generalizing m t n alloced with
  | zero =>
    cases h
    refine Or.inr ⟨t,[],rfl,fun _ => rfl,?_,Grow.refl hne,fun _ _ => rfl,by simp,fun h => h,
      fun _ _ => rfl,fun _ _ => rfl⟩
    simp [slotOf,key_zero]
  | succ l ih =>
    simp only [walkFrom] at h
    split at h
    · cases h
    · rename_i hps
      split at h
      · rename_i hp
        have hc : (m.tbl t (tblIndex (l+1) v)).link l = some (m.tbl t (tblIndex (l+1) v)).frame := by
          rw [Pte.link, if_pos ⟨hp,hps⟩]
        have hle := pages_child_le (B := 512) hidx hc
        rcases ih (n := 512) h (tblIndex_lt l v) hnodup hne
          (fun x hx => by have h1 := hle x; have h2 := hfresh x hx; omega)
          (fun x => by have h1 := hle x; have h2 := hone x; omega) with
          ⟨rfl,rfl,hcr,hs⟩ | ⟨p,new,rfl,hcr,hw⟩
        · refine Or.inl ⟨rfl,rfl,hcr,?_⟩
          simp only [slotOf,key_succ_div,key_succ_mod,hc]
          exact hs
        · exact Or.inr ⟨p,new,rfl,hcr,hw.lift_present hidx hc hfresh hone⟩
      · rename_i hp
        have he := Pte.link_none (Bool.eq_false_iff.mpr hp) l
        split at h
        · rename_i hcr
          cases h
          refine Or.inl ⟨rfl,rfl,by simpa using hcr,?_⟩
          simp only [slotOf,key_succ_div,he]
        · rename_i hcr
          obtain ⟨r',hr,h⟩ := bind_eq_ok.mp h
          rcases allocPage_ok hr with ⟨hf,_⟩ | ⟨pg,rest,hf,hrest,rfl⟩
          · exact absurd hf hne
          · simp only [↓reduceIte] at h
            have hnd := List.nodup_cons.mp (hf ▸ hnodup)
            have htp : pg ≠ t := by
              rintro rfl
              have h1 := hfresh pg (by rw [hf]; exact List.mem_cons_self)
              have h2 := one_le_pages_root Pte.link 512 m.tbl (l+1) n pg
              omega
            have hp₁ := @pages_of_empty _ Pte.link 512 (((m.zeroPage pg).unlink pg rest).setEntry t
              (tblIndex (l+1) v) ⟨pg,pteP ||| pteW ||| pteU⟩).tbl l 512 pg
              (fun l i => by simp [Phys.setEntry,Phys.unlink,Phys.zeroPage,htp])
            rcases ih h (tblIndex_lt l v) hnd.2 hrest
              (fun x hx => by rw [hp₁, if_neg]; rintro rfl; exact hnd.1 hx)
              (fun x => by rw [hp₁]; split <;> omega) with ⟨-,-,hcr',-⟩ | ⟨p,new,rfl,-,hw⟩
            · simp [hcr'] at hcr
            · exact Or.inr ⟨p,pg :: new,rfl,fun hcr' => by simp [hcr'] at hcr,
                hw.lift_create hidx he hf hnodup hrest hone hfresh rfl⟩

theorem walkFrom_read {alloced : List (Option ℕ)} {r : Walk}
    (h : walkFrom false v l m t alloced = .ok (r,m')) :
    m = m' ∧ r = match slotOf Pte.link 512 m.tbl l t (key l v) with
      | some s => .slot s.1 s.2
      | none => .efault := by
  induction l generalizing t alloced with
  | zero =>
    cases h
    simp [slotOf,key_zero]
  | succ l ih =>
    simp only [walkFrom] at h
    simp only [slotOf,key_succ_div,key_succ_mod]
    split at h
    · cases h
    · rename_i hps
      split at h
      · rename_i hp
        have hc : (m.tbl t (tblIndex (l+1) v)).link l = some (m.tbl t (tblIndex (l+1) v)).frame := by
          rw [Pte.link, if_pos ⟨hp,hps⟩]
        rw [hc]
        exact ih h
      · rename_i hp
        cases h
        rw [Pte.link_none (Bool.eq_false_iff.mpr hp) l]
        exact ⟨rfl,rfl⟩

theorem walkFrom_of_slot {create : Bool} {alloced : List (Option ℕ)} {p i : ℕ}
    (h : slotOf Pte.link 512 m.tbl l t (key l v) = some (p,i)) :
    walkFrom create v l m t alloced = .ok (.slot p i,m) := by
  induction l generalizing t alloced with
  | zero =>
    simp only [slotOf,key_zero] at h
    cases h
    rfl
  | succ l ih =>
    simp only [slotOf,key_succ_div,key_succ_mod] at h
    cases hc : (m.tbl t (tblIndex (l+1) v)).link l with
    | none => simp [hc] at h
    | some c =>
      simp only [hc] at h
      obtain ⟨hp,rfl⟩ : ((m.tbl t (tblIndex (l+1) v)).p = true ∧
          ¬ (l < 2 ∧ (m.tbl t (tblIndex (l+1) v)).ps = true)) ∧
          (m.tbl t (tblIndex (l+1) v)).frame = c := by
        simpa [Pte.link] using hc
      simp only [walkFrom]
      rw [if_neg hp.2, if_pos hp.1]
      exact ih h

end Ukern
