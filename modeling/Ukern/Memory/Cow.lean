import Ukern.Memory.Invariant
import Ukern.Kernel.Trap

/-! # Replacing leaves: copy on write, `sbrk`, giving up a space -/
namespace Ukern
open Lib Lib.Radix
variable {m m' : Phys} {kp t t₂ n p i : ℕ} {sp : Spaces} {extra : ℕ → ℕ} {c : Slot} {e : Pte}

/-- Storing a leaf entry. -/
structure Stored (m m' : Phys) (t n : ℕ) (e : Pte) : Prop where
  entry_eq : ∀ j < upages, entry m' t j = if j = n then e else entry m t j
  pages_eq : ∀ x, tblPages m' t x = tblPages m t x
  small : Inner Pte.link 512 Pte.Small m.tbl 3 256 t → Inner Pte.link 512 Pte.Small m'.tbl 3 256 t
  upper : ∀ i, 256 ≤ i → m'.tbl t i = m.tbl t i

theorem stored_setEntry (hone : ∀ x, tblPages m t x ≤ 1) (hn : n < upages)
    (hslot : slotOf Pte.link 512 m.tbl 3 t n = some (p,i)) :
    tblPages m t p ≠ 0 ∧ Stored m (m.setEntry p i e) t n e := by
  obtain ⟨h1,h2,h3⟩ := slotOf_update (z := Pte.zero) (by decide) hn hone hslot e
    (rfl : (m.setEntry p i e).tbl = _)
  have hpt : p ≠ t := slotOf_ne_root (by decide) hn (hone t) hslot
  exact ⟨pages_of_slotOf (by decide) hn hslot,h1,h2,h3 Pte.Small,fun i _ => by
    rw [Phys.setEntry_tbl_ne (Ne.symm hpt)]⟩

theorem Keep.stored (h : Keep m m' t) : Stored m m' t n (Ukern.entry m t n) where
  entry_eq j hj := by
    rw [h.entry hj]
    split
    · rename_i hjn
      rw [hjn]
    · rfl
  pages_eq := h.tblPages
  small hs := h.same.inner hs
  upper := h.upper

theorem stored_pair {p₂ i₂ : ℕ} (e e₂ : Pte) (hone : ∀ x, tblPages m t x + tblPages m t₂ x ≤ 1)
    (hn : n < upages) (hslot : slotOf Pte.link 512 m.tbl 3 t n = some (p,i))
    (hslot₂ : slotOf Pte.link 512 m.tbl 3 t₂ n = some (p₂,i₂)) :
    slotOf Pte.link 512 (m.setEntry p i e).tbl 3 t₂ n = some (p₂,i₂) ∧
    Stored m ((m.setEntry p i e).setEntry p₂ i₂ e₂) t n e ∧
    Stored m ((m.setEntry p i e).setEntry p₂ i₂ e₂) t₂ n e₂ ∧
    ∀ x, tblPages m t x + tblPages m t₂ x = 0 →
      ((m.setEntry p i e).setEntry p₂ i₂ e₂).tbl x = m.tbl x := by
  obtain ⟨hp,h₁⟩ := stored_setEntry (e := e) (fun x => by have := hone x; omega) hn hslot
  have hkeep : Keep m (m.setEntry p i e) t₂ := .of_pages fun x hx => by
    have h1 := hone p
    exact Phys.setEntry_tbl_ne (by rintro rfl; omega)
  have hslot' : slotOf Pte.link 512 (m.setEntry p i e).tbl 3 t₂ n = some (p₂,i₂) := by
    rw [hkeep.same.slotOf (by decide) hn, hslot₂]
  obtain ⟨hp₂,h₂⟩ := stored_setEntry (e := e₂) (fun x => by
    rw [hkeep.tblPages]
    have := hone x
    omega) hn hslot'
  rw [hkeep.tblPages] at hp₂
  have hkeep₂ : Keep (m.setEntry p i e) ((m.setEntry p i e).setEntry p₂ i₂ e₂) t := .of_pages fun x hx => by
    rw [h₁.pages_eq] at hx
    have h1 := hone p₂
    exact Phys.setEntry_tbl_ne (by rintro rfl; omega)
  refine ⟨hslot',⟨fun j hj => ?_,fun x => ?_,fun hsm => hkeep₂.same.inner (h₁.small hsm),fun i hi => ?_⟩,
    ⟨fun j hj => ?_,fun x => ?_,fun hsm => h₂.small (hkeep.same.inner hsm),fun i hi => ?_⟩,fun x hx => ?_⟩
  · rw [hkeep₂.entry hj, h₁.entry_eq j hj]
  · rw [hkeep₂.tblPages, h₁.pages_eq]
  · rw [hkeep₂.upper i hi, h₁.upper i hi]
  · rw [h₂.entry_eq j hj, hkeep.entry hj]
  · rw [h₂.pages_eq, hkeep.tblPages]
  · rw [h₂.upper i hi, hkeep.upper i hi]
  · rw [Phys.setEntry_tbl_ne (by rintro rfl; omega), Phys.setEntry_tbl_ne (by rintro rfl; omega)]

/-- What has to be shown when one leaf of slot `c` is replaced in both tables, with `new`
pages added to the tables. -/
theorem MemInv.store (h : MemInv m kp sp extra) (e e₂ : Pte) (new : List ℕ) (hs : sp c = some (t,t₂))
    (hn : n < upages) (hent : ∀ j < upages, entry m' t j = if j = n then e else entry m t j)
    (hent₂ : ∀ j < upages, entry m' t₂ j = if j = n then e₂ else entry m t₂ j) (hagree : e.Agree e₂)
    (hspace : (∀ j < upages, (entry m' t j).Agree (entry m' t₂ j)) → Space m' kp t t₂)
    (hframe : ∀ x, x ∉ m.free → ownOf m (sp c) x = 0 → m'.tbl x = m.tbl x)
    (hown : ∀ x, ownOf m' (sp c) x = ownOf m (sp c) x + new.count x)
    (hacct : Acct m' (fun x => own m kp sp extra x + new.count x +
      (mapped m sp x - (entry m t n).hit x + e.hit x)))
    (href : ∀ x, own m kp sp extra x ≠ 0 → m'.ref x = m.ref x) (hnew : ∀ x ∈ new, m'.ref x = 1)
    (hal : ∀ x, m'.allocatable x = m.allocatable x) (hnewal : ∀ x ∈ new, m.allocatable x = true)
    (heal : e.p = true → m.allocatable e.frame = true)
    (he : e.p = true → (entry m t n).hit e.frame = 1 ∨ mapped m sp e.frame = 0)
    (hw : e.p = true → e.w = true → mapped m sp e.frame - (entry m t n).hit e.frame + 1 ≤ 1) :
    MemInv m' kp sp extra := by
  have hmaps : ∀ x, mapOf m' (sp c) x + (entry m t n).hit x = mapOf m (sp c) x + e.hit x := fun x => by
    rw [mapOf_some hs, mapOf_some hs]
    exact maps_replace hn hent
  have hmle := fun x => mapOf_le m sp c x
  have hole := fun x => ownOf_le m sp c x
  have hhit : ∀ x, (entry m t n).hit x ≤ mapOf m (sp c) x := fun x => by
    rw [mapOf_some hs, maps_eq]
    exact le_sum_range (f := fun j => (entry m t j).hit x) hn
  have hone : ∀ x, e.hit x = 0 ∨ e.hit x = 1 ∧ e.p = true ∧ e.frame = x := fun x => by
    by_cases hx : e.p = true ∧ e.frame = x
    · exact Or.inr ⟨by simp [Pte.hit,hx],hx⟩
    · exact Or.inl (by simp only [Pte.hit,if_neg hx])
  refine h.change (c := c) (fun _ _ => rfl) hframe ?_ (fun x hx => href x (by omega)) ?_ hal ?_ ?_ ?_ ?_
  · refine hacct.mono fun x => ?_
    have h1 := hmaps x
    have h2 := hmle x
    have h3 := hown x
    have h4 := hole x
    have h5 := hhit x
    simp only [own] at *
    omega
  · intro x hx
    rw [hown] at hx
    by_cases hxn : x ∈ new
    · exact hnew x hxn
    · rw [List.count_eq_zero_of_not_mem hxn] at hx
      have h1 := hole x
      have h2 : own m kp sp extra x ≠ 0 := by
        simp only [own]
        omega
      rw [href x h2, h.solo x h2]
  · intro x hx
    have h1 := hmaps x
    have h2 := hown x
    by_cases hxn : x ∈ new
    · exact hnewal x hxn
    · rw [List.count_eq_zero_of_not_mem hxn] at h2
      rcases hone x with h3 | ⟨h3,hp,rfl⟩
      · have h4 := hole x
        have h5 := hmle x
        exact h.alloc x (by omega)
      · exact heal hp
  · intro s s₂ hss
    rw [hs] at hss
    cases hss
    refine hspace fun j hj => ?_
    rw [hent j hj, hent₂ j hj]
    split
    · exact hagree
    · exact (h.space c t t₂ hs).agree j hj
  · intro x
    have h1 := hmaps x
    rcases hone x with h2 | ⟨h2,hp,rfl⟩
    · left
      omega
    · rcases he hp with h3 | h3
      · left
        omega
      · exact Or.inr h3
  · intro s s₂ hss j hj hp hw'
    rw [hs] at hss
    cases hss
    have h1 := hmaps (entry m' t j).frame
    have h2 := hhit (entry m' t j).frame
    have h3 := hmle (entry m' t j).frame
    rw [hent j hj] at hp hw' h1 h2 h3 ⊢
    by_cases hjn : j = n
    · rw [if_pos hjn] at hp hw' h1 h2 h3 ⊢
      have h4 := hw hp hw'
      have h5 : e.hit e.frame = 1 := by simp [Pte.hit,hp]
      omega
    · rw [if_neg hjn] at hp hw' h1 h2 h3 ⊢
      have h4 := h.wr c t t₂ hs j hj hp hw'
      have h5 := maps_pos hj hp
      have h6 := mapOf_some (m := m) (x := (entry m t j).frame) hs
      rcases hone (entry m t j).frame with h7 | ⟨h7,hpe,hfe⟩
      · omega
      · rcases he hpe with h8 | h8
        · rw [hfe] at h8
          omega
        · rw [hfe] at h8
          omega

/-- Giving up the tables of a slot, and its references to user pages. -/
theorem MemInv.release (h : MemInv m kp sp extra) (hs : sp c = some (t,t₂)) :
    ∃ m₁ m', freePgtbl m t true = .ok m₁ ∧ freePgtbl m₁ t₂ false = .ok m' ∧
      MemInv m' kp (Function.update sp c none) extra ∧
      Shrink m m' (fun x => ownOf m (sp c) x + mapOf m (sp c) x) := by
  have hsp := h.space c t t₂ hs
  have hown := fun x => ownOf_le m sp c x
  have hmap := fun x => mapOf_le m sp c x
  simp only [ownOf_some hs] at hown
  simp only [mapOf_some hs] at hmap
  have hheld : ∀ x, held true m 3 256 t x = tblPages m t x + maps m t x := fun _ => rfl
  obtain ⟨m₁,hm₁,ha₁,hs₁⟩ := freeFrom_spec true h.acct hsp.small
    (fun x => by
      have h1 := hown x
      have h2 := hmap x
      rw [hheld]
      simp only [own]
      omega)
    (fun x hx => h.alloc x (by
      have h1 := hown x
      have h2 := hmap x
      rw [hheld] at hx
      omega))
  have hheld₂ : ∀ x, held false m₁ 3 256 t₂ x = tblPages m t₂ x := fun x => by
    simp [held,tblPages,hs₁.tbl]
  obtain ⟨m',hm',ha',hs'⟩ := freeFrom_spec (t := t₂) false ha₁
    (by rw [hs₁.tbl]; exact hsp.small₂)
    (fun x => by
      have h1 := hown x
      have h2 := hmap x
      rw [hheld₂, hheld]
      simp only [own]
      omega)
    (fun x hx => by
      have h1 := hown x
      rw [hheld₂] at hx
      rw [hs₁.allocatable]
      exact h.alloc x (by omega))
  have hsh : Shrink m m' (fun x => ownOf m (sp c) x + mapOf m (sp c) x) := by
    have htot := hs₁.trans hs'
    simp only [hheld,hheld₂] at htot
    simp only [ownOf_some hs,mapOf_some hs,Nat.add_right_comm]
    exact htot
  refine ⟨m₁,m',hm₁,hm',h.change (c := c) ?_ ?_ ?_ ?_ ?_ ?_ ?_ ?_ ?_ ?_,hsh⟩
  · intro j hj
    exact Function.update_of_ne hj ..
  · intro x _ _
    rw [hsh.tbl]
  · simp only [hheld,hheld₂] at ha'
    simp only [Function.update_self,ownOf_some hs,mapOf_some hs,ownOf_none,mapOf_none]
    refine ha'.mono fun x => ?_
    have h1 := hown x
    have h2 := hmap x
    simp only [own]
    omega
  · intro x hx
    obtain ⟨h1,h2⟩ := h.own_excl (x := x) (by omega)
    have h3 := hmap x
    rw [hsh.ref, mapOf_some hs]
    have h4 : ownOf m (sp c) x = 0 := by omega
    rw [h4]
    have h5 : maps m t x = 0 := by omega
    simp [h5]
  · intro x hx
    simp at hx
  · exact hsh.allocatable
  · intro x hx
    simp at hx
  · intro t t₂ hc
    simp at hc
  · intro x
    simp
  · intro t t₂ hc
    simp at hc

theorem cowPage_ok {f pg : ℕ} (h : cowPage m f = .ok (pg,m')) :
    ∃ rest, m.free = pg :: rest ∧ rest ≠ [] ∧
      m' = { m with
        ref := Function.update (Function.update m.ref f (m.ref f - 1)) pg 1
        free := rest
        nfreepages := m.nfreepages - 1
        data := Function.update m.data pg (m.data f) } := by
  unfold cowPage at h
  obtain ⟨⟨pg',m₁⟩,hg,h⟩ := bind_eq_ok.mp h
  obtain ⟨rest,hf,hne,rfl⟩ := getPage_ok hg
  cases h
  exact ⟨rest,hf,hne,rfl⟩

/-- An entry with full rights. -/
def Pte.full (pg : ℕ) : Pte := ⟨pg,pteP ||| pteU ||| pteW⟩

@[simp] theorem Pte.full_frame (pg : ℕ) : (Pte.full pg).frame = pg := rfl
theorem Pte.full_p (pg : ℕ) : (Pte.full pg).p = true := by
  change (pteP ||| pteU ||| pteW).getLsbD 0 = true
  decide
theorem Pte.full_w (pg : ℕ) : (Pte.full pg).w = true := by
  change (pteP ||| pteU ||| pteW).getLsbD 1 = true
  decide
theorem Pte.full_agree (pg : ℕ) : (Pte.full pg).Agree (.full pg) := by
  have hf : (Pte.full pg).flags = pteFlags := by
    change pteP ||| pteU ||| pteW = pteFlags
    decide
  exact ⟨rfl,fun _ => ⟨rfl,hf,Or.inl hf⟩⟩
theorem Pte.full_hit (pg x : ℕ) : (Pte.full pg).hit x = if x = pg then 1 else 0 := by
  simp [Pte.hit,Pte.full_p,eq_comm]

/-- The page number `n` of slot `c` got the private page `pg`, a copy of the one before. -/
structure Unshared (m m' : Phys) (sp : Spaces) (c : Slot) (t t₂ n pg : ℕ) : Prop where
  entry_eq : ∀ j < upages, entry m' t j = if j = n then .full pg else entry m t j
  entry_eq₂ : ∀ j < upages, entry m' t₂ j = if j = n then .full pg else entry m t₂ j
  other : ∀ j ≠ c, ∀ s s₂, sp j = some (s,s₂) → Keep m m' s ∧ Keep m m' s₂
  fresh : pg ∈ m.free
  data : m'.data = Function.update m.data pg (m.data (entry m t n).frame)
  pipe : m'.pipe = m.pipe

theorem Acct.cow {C : ℕ → ℕ} {f pg : ℕ} (ha : Acct m C) (hf : C f ≠ 0) (h : cowPage m f = .ok (pg,m')) :
    Acct m' (fun x => C x - (if x = f then 1 else 0) + if x = pg then 1 else 0) := by
  obtain ⟨rest,hfree,hne,rfl⟩ := cowPage_ok h
  have hnd := List.nodup_cons.mp (hfree ▸ ha.nodup)
  have hff := ha.not_free hf
  have hpf : pg ≠ f := by
    rintro rfl
    exact hff (by rw [hfree]; exact List.mem_cons_self)
  obtain ⟨-,-,hpg⟩ := ha.free_ok pg (by rw [hfree]; exact List.mem_cons_self)
  refine ⟨hnd.2,hne,?_,?_,?_⟩
  · simp only [ha.count,hfree,List.length_cons]
    omega
  · intro x hx
    have hxm : x ∈ m.free := by
      rw [hfree]
      exact List.mem_cons_of_mem _ hx
    have hxp : x ≠ pg := fun he => hnd.1 (he ▸ hx)
    have hxf : x ≠ f := fun he => hff (he ▸ hxm)
    obtain ⟨h1,h2,h3⟩ := ha.free_ok x hxm
    exact ⟨h1,by simp [hxp,hxf,h2],by simp [hxp,h3]⟩
  · intro x
    have h1 := ha.le_ref x
    by_cases hxp : x = pg
    · subst hxp
      simp [hpg]
    · by_cases hxf : x = f
      · subst hxf
        simp only [Function.update_of_ne hxp,Function.update_self,↓reduceIte,if_neg hxp,Nat.add_zero]
        omega
      · simpa [hxp,hxf] using h1

theorem MemInv.cow {p₂ i₂ pg : ℕ} {m₁ : Phys} (h : MemInv m kp sp extra) (hs : sp c = some (t,t₂))
    (hn : n < upages) (hp : (entry m t n).p = true)
    (hslot : slotOf Pte.link 512 m.tbl 3 t n = some (p,i))
    (hslot₂ : slotOf Pte.link 512 m.tbl 3 t₂ n = some (p₂,i₂))
    (hc : cowPage m (entry m t n).frame = .ok (pg,m₁))
    (hm' : m' = (m₁.setEntry p i (.full pg)).setEntry p₂ i₂ (.full pg)) :
    MemInv m' kp sp extra ∧ Unshared m m' sp c t t₂ n pg := by
  have hmf : mapped m sp (entry m t n).frame ≠ 0 := by
    have h1 := maps_pos hn hp
    have h2 := mapOf_le m sp c (entry m t n).frame
    rw [mapOf_some hs] at h2
    omega
  have hacct := h.acct.cow (by omega) hc
  obtain ⟨rest,hfree,hne,hm₁⟩ := cowPage_ok hc
  have htbl₁ : m₁.tbl = m.tbl := by rw [hm₁]
  have hone : ∀ x, tblPages m₁ t x + tblPages m₁ t₂ x ≤ 1 := fun x => by
    simp only [tblPages,htbl₁]
    exact h.tables_le_one hs x
  obtain ⟨-,h₁,h₂,hfr⟩ := stored_pair (.full pg) (.full pg) hone hn
    (by rw [htbl₁]; exact hslot) (by rw [htbl₁]; exact hslot₂)
  rw [← hm'] at h₁ h₂ hfr
  have hpg : pg ∈ m.free := by
    rw [hfree]
    exact List.mem_cons_self
  have hent : ∀ s, ∀ j, entry m₁ s j = entry m s j := fun s j => by simp only [entry,htbl₁]
  have hpgs : ∀ s x, tblPages m₁ s x = tblPages m s x := fun s x => by simp only [tblPages,htbl₁]
  have hframe : ∀ x, x ∉ m.free → ownOf m (sp c) x = 0 → m'.tbl x = m.tbl x := fun x _ hx => by
    rw [ownOf_some hs] at hx
    rw [hfr x (by rw [hpgs, hpgs]; exact hx), htbl₁]
  have hpf : pg ≠ (entry m t n).frame := fun he => h.mapped_not_free hmf (he ▸ hpg)
  have hp0 : mapped m sp pg = 0 := by
    by_contra hne
    exact h.mapped_not_free hne hpg
  refine ⟨?_,?_⟩
  · refine h.store (.full pg) (.full pg) [] hs hn
      (fun j hj => by rw [h₁.entry_eq j hj, hent]) (fun j hj => by rw [h₂.entry_eq j hj, hent])
      (Pte.full_agree pg) ?_ hframe ?_ ?_ ?_ (by simp) ?_ (by simp) ?_ (fun _ => Or.inr hp0) ?_
    · intro hag
      have hsp := h.space c t t₂ hs
      have hk := h.keep_kroot hframe
      refine ⟨h₁.small (by rw [htbl₁]; exact hsp.small),h₂.small (by rw [htbl₁]; exact hsp.small₂),hag,
        fun i hi hi' => ?_,fun i hi hi' => ?_⟩
      · rw [h₁.upper i hi, htbl₁, hk, hsp.kernel i hi hi']
      · rw [h₂.upper i hi, htbl₁, hk, hsp.kernel₂ i hi hi']
    · intro x
      rw [ownOf_some hs, ownOf_some hs, h₁.pages_eq, h₂.pages_eq, hpgs, hpgs]
      simp
    · rw [hm']
      refine ((hacct.setEntry _ _ _).setEntry _ _ _).mono fun x => ?_
      have h1 : (entry m t n).hit x = if x = (entry m t n).frame then 1 else 0 := by
        simp [Pte.hit,hp,eq_comm]
      rw [Pte.full_hit, h1, List.count_nil]
      by_cases hxf : x = (entry m t n).frame
      · subst hxf
        simp only [↓reduceIte,if_neg (Ne.symm hpf)]
        omega
      · simp only [if_neg hxf]
        omega
    · intro x hx
      have h1 := h.own_excl hx
      have hxf : x ≠ (entry m t n).frame := by
        rintro rfl
        omega
      have hxp : x ≠ pg := fun he => h.own_not_free hx (he ▸ hpg)
      rw [hm', hm₁]
      simp [Phys.setEntry,hxf,hxp]
    · intro x
      rw [hm', hm₁]
      rfl
    · intro _
      exact (h.acct.free_ok pg hpg).1
    · intro _ _
      simp only [Pte.full_frame,hp0]
      simp
  · refine ⟨fun j hj => by rw [h₁.entry_eq j hj, hent],fun j hj => by rw [h₂.entry_eq j hj, hent],
      fun j hj s s₂ hss => h.keep_other hframe hj hss,hpg,?_,?_⟩
    · rw [hm', hm₁]
      rfl
    · rw [hm', hm₁]
      rfl

/-- Setting `W` on a user entry of either kind gives full rights. -/
theorem Pte.Agree.set_w {e e₂ : Pte} (h : e.Agree e₂) (hp : e.p = true) : e.set pteW = .full e.frame := by
  obtain ⟨hpp,hrest⟩ := h
  obtain ⟨-,-,hfl⟩ := hrest (hpp ▸ hp)
  have hflags : e.flags ||| pteW = pteP ||| pteU ||| pteW := by
    rcases hfl with hfl | hfl
    · rw [hfl]
      decide
    · rw [hfl]
  rw [Pte.set, hflags]
  rfl

theorem MemInv.grant (h : MemInv m kp sp extra) (hs : sp c = some (t,t₂)) (hn : n < upages)
    (hp : (entry m t n).p = true) (hslot : slotOf Pte.link 512 m.tbl 3 t n = some (p,i))
    (href : m.ref (entry m t n).frame = 1) (hm' : m' = m.setEntry p i (.full (entry m t n).frame)) :
    MemInv m' kp sp extra ∧ Stored m m' t n (.full (entry m t n).frame) ∧ Keep m m' t₂ ∧
      ∀ j ≠ c, ∀ s s₂, sp j = some (s,s₂) → Keep m m' s ∧ Keep m m' s₂ := by
  have hone := h.tables_le_one hs
  obtain ⟨hpp,h₁⟩ := stored_setEntry (e := .full (entry m t n).frame)
    (fun x => by have := hone x; omega) hn hslot
  rw [← hm'] at h₁
  have hkeep : Keep m m' t₂ := .of_pages fun x hx => by
    have h1 := hone p
    rw [hm']
    exact Phys.setEntry_tbl_ne (by rintro rfl; omega)
  have hframe : ∀ x, x ∉ m.free → ownOf m (sp c) x = 0 → m'.tbl x = m.tbl x := fun x _ hx => by
    rw [ownOf_some hs] at hx
    rw [hm']
    exact Phys.setEntry_tbl_ne (by rintro rfl; omega)
  have hle : mapped m sp (entry m t n).frame ≤ 1 := by
    have h1 := h.acct.le_ref (entry m t n).frame
    omega
  have hmf := maps_pos hn hp
  have hml := mapOf_le m sp c (entry m t n).frame
  rw [mapOf_some hs] at hml
  have hsp := h.space c t t₂ hs
  obtain ⟨hag,hag'⟩ := hsp.agree n hn
  have hhit : ∀ x, (entry m t n).hit x = if x = (entry m t n).frame then 1 else 0 := fun x => by
    simp [Pte.hit,hp,eq_comm]
  refine ⟨h.store (.full (entry m t n).frame) (entry m t₂ n) [] hs hn h₁.entry_eq
    hkeep.stored.entry_eq ⟨by rw [Pte.full_p, ← hag, hp],fun hp₂ => ?_⟩ ?_ hframe ?_ ?_ ?_ (by simp) ?_
    (by simp) ?_ ?_ ?_,h₁,hkeep,fun j hj s s₂ hss => h.keep_other hframe hj hss⟩
  · obtain ⟨hf,hfl,-⟩ := hag' hp₂
    exact ⟨hf,hfl,Or.inl (by change pteP ||| pteU ||| pteW = pteFlags; decide)⟩
  · intro hagree
    have hk := h.keep_kroot hframe
    refine ⟨h₁.small hsp.small,hkeep.same.inner hsp.small₂,hagree,fun i hi hi' => ?_,fun i hi hi' => ?_⟩
    · rw [h₁.upper i hi, hk, hsp.kernel i hi hi']
    · rw [hkeep.upper i hi, hk, hsp.kernel₂ i hi hi']
  · intro x
    rw [ownOf_some hs, ownOf_some hs, h₁.pages_eq, hkeep.tblPages]
    simp
  · rw [hm']
    refine (h.acct.setEntry _ _ _).mono fun x => ?_
    rw [Pte.full_hit, hhit, List.count_nil]
    by_cases hx : x = (entry m t n).frame
    · subst hx
      simp only [↓reduceIte]
      omega
    · simp only [if_neg hx]
      omega
  · intro x _
    rw [hm']
    rfl
  · intro x
    rw [hm']
    rfl
  · intro _
    exact h.alloc _ (by simp only [Pte.full_frame]; omega)
  · intro _
    left
    rw [Pte.full_frame, hhit]
    simp
  · intro _ _
    rw [Pte.full_frame, hhit]
    simp
    omega

end Ukern
