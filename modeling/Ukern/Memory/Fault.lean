import Ukern.Memory.Cow

/-! # `U2K` and the copy-on-write fault

Both give the process a page that nobody else maps, and neither changes what any
process reads.
-/
namespace Ukern
open Lib Lib.Radix
variable {m m' : Phys} {kp t t₂ n p i v : ℕ} {sp : Spaces} {extra : ℕ → ℕ} {c : Slot}

theorem entry_eq_slot (h : slotOf Pte.link 512 m.tbl 3 t n = some (p,i)) : entry m t n = m.tbl p i := by
  rw [entry, leafAt_eq_slot, h]

theorem slot_of_present (h : (entry m t n).p = true) :
    ∃ p i, slotOf Pte.link 512 m.tbl 3 t n = some (p,i) := by
  cases hs : slotOf Pte.link 512 m.tbl 3 t n with
  | none =>
    rw [entry, leafAt_eq_slot, hs] at h
    simp at h
  | some s => exact ⟨s.1,s.2,rfl⟩

theorem walkPgtbl_read {r : Walk} (h : walkPgtbl m t v false = .ok (r,m')) :
    m = m' ∧ r = match slotOf Pte.link 512 m.tbl 3 t (key 3 v) with
      | some s => .slot s.1 s.2
      | none => .efault :=
  walkFrom_read h

theorem walkSlot_read (h : walkSlot m t v false = .ok (p,i,m')) :
    m = m' ∧ slotOf Pte.link 512 m.tbl 3 t (key 3 v) = some (p,i) := by
  unfold walkSlot at h
  obtain ⟨⟨r,m₁⟩,hw,h⟩ := bind_eq_ok.mp h
  obtain ⟨rfl,rfl⟩ := walkPgtbl_read hw
  cases hs : slotOf Pte.link 512 m.tbl 3 t (key 3 v) with
  | none =>
    simp only [hs] at h
    cases h
  | some s =>
    simp only [hs] at h
    cases h
    exact ⟨rfl,rfl⟩

theorem walkSlot_of_slot {create : Bool} (h : slotOf Pte.link 512 m.tbl 3 t (key 3 v) = some (p,i)) :
    walkSlot m t v create = .ok (p,i,m) := by
  rw [walkSlot, walkPgtbl, walkFrom_of_slot h]
  rfl

theorem key_user (hv : v < userTop) : key 3 v < upages := by
  apply key_lt_of_index
  have h1 : v / pgsize / 512^3 < 256 := by
    rw [Nat.div_div_eq_div_mul]
    exact Nat.div_lt_of_lt_mul hv
  rw [tblIndex, Nat.mod_eq_of_lt (by omega)]
  exact h1

/-- Above the user half both tables of a process read like the kernel's. -/
theorem Space.entry_kernel (h : Space m kp t t₂) (hn : upages ≤ n) (hn' : n < 512 * 512^3) :
    entry m t n = entry m kp n ∧ entry m t₂ n = entry m kp n := by
  have h1 : 256 ≤ n / 512^3 := (Nat.le_div_iff_mul_le (by decide)).mpr hn
  have h2 : n / 512^3 < 512 := Nat.div_lt_of_lt_mul (by rwa [Nat.mul_comm] at hn')
  simp only [entry,leafAt,h.kernel _ h1 h2,h.kernel₂ _ h1 h2,and_self]

theorem MemInv.user_page (h : MemInv m kp sp extra) (hs : sp c = some (t,t₂))
    (hu : (entry m t (key 3 v)).u = true ∨ (entry m t₂ (key 3 v)).u = true) : key 3 v < upages := by
  by_contra hlt
  have hk := key_lt 3 v
  obtain ⟨h1,h2⟩ := (h.space c t t₂ hs).entry_kernel (not_lt.mp hlt) hk
  rw [h1, h2, h.kleaf _ hk] at hu
  simp at hu

theorem Pte.covers_pu {e : Pte} (h : e.covers (pteP ||| pteU) = true) : e.p = true ∧ e.u = true := by
  have hf : e.flags &&& (pteP ||| pteU) = pteP ||| pteU := by simpa [Pte.covers] using h
  have h0 := congrArg (fun b => b.getLsbD 0) hf
  have h2 := congrArg (fun b => b.getLsbD 2) hf
  simp only [BitVec.getLsbD_and] at h0 h2
  have e0 : (pteP ||| pteU).getLsbD 0 = true := by decide
  have e2 : (pteP ||| pteU).getLsbD 2 = true := by decide
  rw [e0, Bool.and_true] at h0
  rw [e2, Bool.and_true] at h2
  exact ⟨h0,h2⟩

theorem Pte.covers_puw {e : Pte} (h : e.covers (pteP ||| pteU ||| pteW) = true) :
    e.p = true ∧ e.u = true ∧ e.w = true := by
  have hf : e.flags &&& (pteP ||| pteU ||| pteW) = pteP ||| pteU ||| pteW := by
    simpa [Pte.covers] using h
  have h0 := congrArg (fun b => b.getLsbD 0) hf
  have h1 := congrArg (fun b => b.getLsbD 1) hf
  have h2 := congrArg (fun b => b.getLsbD 2) hf
  simp only [BitVec.getLsbD_and] at h0 h1 h2
  have e0 : (pteP ||| pteU ||| pteW).getLsbD 0 = true := by decide
  have e1 : (pteP ||| pteU ||| pteW).getLsbD 1 = true := by decide
  have e2 : (pteP ||| pteU ||| pteW).getLsbD 2 = true := by decide
  rw [e0, Bool.and_true] at h0
  rw [e1, Bool.and_true] at h1
  rw [e2, Bool.and_true] at h2
  exact ⟨h0,h2,h1⟩

theorem Pte.Agree.cases {e e₂ : Pte} (h : e.Agree e₂) (hp : e.p = true) :
    e₂ = .full e.frame ∧ (e = .full e.frame ∨ e = ⟨e.frame,pteP ||| pteU⟩) := by
  obtain ⟨hpp,hrest⟩ := h
  obtain ⟨hf,hfl,hcase⟩ := hrest (hpp ▸ hp)
  have hfull : pteP ||| pteU ||| pteW = pteFlags := by decide
  obtain ⟨f,fl⟩ := e
  obtain ⟨f₂,fl₂⟩ := e₂
  simp only at hf hfl hcase
  subst hf hfl
  refine ⟨by rw [Pte.full, hfull],?_⟩
  rcases hcase with rfl | rfl
  · exact Or.inl (by rw [Pte.full, hfull])
  · exact Or.inr rfl

theorem Pte.full_covers (f : ℕ) : (Pte.full f).covers (pteP ||| pteU) = true := by
  change ((pteP ||| pteU ||| pteW) &&& (pteP ||| pteU) == pteP ||| pteU) = true
  decide

theorem Pte.full_covers_all (f : ℕ) : (Pte.full f).covers (pteP ||| pteU ||| pteW) = true := by
  change ((pteP ||| pteU ||| pteW) &&& (pteP ||| pteU ||| pteW) == pteP ||| pteU ||| pteW) = true
  decide

theorem Pte.Agree.covers_iff {e e₂ : Pte} (h : e.Agree e₂) : e.covers (pteP ||| pteU) = e.p := by
  cases hp : e.p with
  | false =>
    by_contra hc
    have := (Pte.covers_pu (Bool.eq_true_of_not_eq_false hc)).1
    simp [hp] at this
  | true =>
    rcases (h.cases hp).2 with he | he
    · rw [he]
      exact Pte.full_covers _
    · rw [he]
      change ((pteP ||| pteU) &&& (pteP ||| pteU) == pteP ||| pteU) = true
      decide

@[simp] theorem Phys.byte_frame (f v : ℕ) : m.byte (f * pgsize + v % pgsize) = m.data f (v % pgsize) := by
  have hlt : v % pgsize < pgsize := Nat.mod_lt _ (by decide)
  have hd : (f * pgsize + v % pgsize) / pgsize = f := by
    rw [Nat.mul_comm, Nat.mul_add_div (by decide), Nat.div_eq_of_lt hlt, Nat.add_zero]
  have hm : (f * pgsize + v % pgsize) % pgsize = v % pgsize := by
    rw [Nat.mul_comm, Nat.mul_add_mod, Nat.mod_eq_of_lt hlt]
  rw [Phys.byte, hd, hm]

theorem Space.userLoad_eq (h : Space m kp t t₂) : userLoad m t v =
    if v < userTop ∧ (entry m t (key 3 v)).p = true
    then some (m.data (entry m t (key 3 v)).frame (v % pgsize)) else none := by
  rw [userLoad]
  change (if v < userTop ∧ (entry m t (key 3 v)).covers (pteP ||| pteU) = true
    then some (m.byte ((entry m t (key 3 v)).frame * pgsize + v % pgsize)) else none) = _
  by_cases hv : v < userTop
  · rw [(h.agree _ (key_user hv)).covers_iff, Phys.byte_frame]
  · simp [hv]

/-- Page by page the same bytes. -/
def SamePages (m m' : Phys) (t : ℕ) : Prop :=
  ∀ n < upages, (entry m' t n).p = (entry m t n).p ∧
    ((entry m t n).p = true → m'.data (entry m' t n).frame = m.data (entry m t n).frame)

theorem SamePages.userLoad {kp' : ℕ} (h : SamePages m m' t) (hsp : Space m kp t t₂) (hsp' : Space m' kp' t t₂)
    (v : ℕ) : userLoad m' t v = userLoad m t v := by
  rw [hsp.userLoad_eq, hsp'.userLoad_eq]
  by_cases hv : v < userTop
  · obtain ⟨h1,h2⟩ := h _ (key_user hv)
    rw [h1]
    by_cases hp : (entry m t (key 3 v)).p = true
    · rw [h2 hp]
    · simp [hp]
  · simp [hv]

/-- Page `n` of slot `c` is now behind frame `f`, for no other page; nobody's bytes changed. -/
structure Private (m m' : Phys) (kp : ℕ) (sp : Spaces) (extra : ℕ → ℕ) (t n f : ℕ) : Prop where
  lt : n < upages
  inv : MemInv m' kp sp extra
  full : entry m' t n = .full f
  pages : ∀ j s s₂, sp j = some (s,s₂) → SamePages m m' s
  pipe : m'.pipe = m.pipe
  data : ∀ x, x ∉ m.free → m'.data x = m.data x

theorem Keep.samePages (h : Keep m m' t)
    (hd : ∀ n < upages, (Ukern.entry m t n).p = true →
      m'.data (Ukern.entry m t n).frame = m.data (Ukern.entry m t n).frame) : SamePages m m' t := by
  intro n hn
  rw [h.entry hn]
  exact ⟨rfl,hd n hn⟩

theorem MemInv.entry_held (h : MemInv m kp sp extra) (hs : sp c = some (t,t₂)) (hn : n < upages)
    (hp : (entry m t n).p = true) : (entry m t n).frame ∉ m.free := by
  apply h.mapped_not_free
  have h1 := maps_pos hn hp
  have h2 := mapOf_le m sp c (entry m t n).frame
  rw [mapOf_some hs] at h2
  omega

theorem Unshared.private {f : ℕ} (hu : Unshared m m' sp c t t₂ n f) (h : MemInv m kp sp extra)
    (h' : MemInv m' kp sp extra) (hs : sp c = some (t,t₂)) (hn : n < upages)
    (hp : (entry m t n).p = true) : Private m m' kp sp extra t n f := by
  have hdata : ∀ x, x ∉ m.free → m'.data x = m.data x := fun x hx => by
    rw [hu.data, Function.update_of_ne]
    rintro rfl
    exact hx hu.fresh
  refine ⟨hn,h',by rw [hu.entry_eq n hn, if_pos rfl],fun j s s₂ hss => ?_,hu.pipe,hdata⟩
  by_cases hj : j = c
  · subst hj
    rw [hs] at hss
    cases hss
    intro k hk
    rw [hu.entry_eq k hk]
    split
    · rename_i hkn
      subst hkn
      rw [Pte.full_p, hp]
      refine ⟨rfl,fun _ => ?_⟩
      rw [Pte.full_frame, hu.data, Function.update_self]
    · exact ⟨rfl,fun hpk => hdata _ (h.entry_held hs hk hpk)⟩
  · exact (hu.other j hj s s₂ hss).1.samePages fun k hk hpk => hdata _ (h.entry_held hss hk hpk)

theorem Pte.full_mask (f : ℕ) : (Pte.full f).flags &&& pteFlags = pteFlags := by
  change (pteP ||| pteU ||| pteW) &&& pteFlags = pteFlags
  decide

theorem Pte.ro_mask_ne : (pteP ||| pteU) &&& pteFlags ≠ pteFlags := by decide

theorem u2k_read {q : Proc} {va : U64} {pa : ℕ} (h : MemInv m kp sp extra) (hs : sp c = some (q.pgtbl,q.pPgtbl))
    (hu : u2k m q va false = .ok (pa,m')) : m = m' ∧ key 3 va.toNat < upages ∧
      (entry m q.pgtbl (key 3 va.toNat)).p = true ∧
      pa = (entry m q.pgtbl (key 3 va.toNat)).frame * pgsize + va.toNat % pgsize := by
  unfold u2k at hu
  obtain ⟨⟨t₁,i₁,m₁⟩,hw₁,hu⟩ := bind_eq_ok.mp hu
  obtain ⟨rfl,hslot₁⟩ := walkSlot_read hw₁
  obtain ⟨⟨t₂,i₂,m₂⟩,hw₂,hu⟩ := bind_eq_ok.mp hu
  obtain ⟨rfl,hslot₂⟩ := walkSlot_read hw₂
  have he₁ := entry_eq_slot hslot₁
  simp only [← he₁] at hu
  split at hu
  · cases hu
  rename_i hcov
  obtain ⟨hp,huser⟩ := Pte.covers_pu (by simpa using hcov)
  split at hu
  · cases hu
  rw [if_pos (by simp)] at hu
  cases hu
  exact ⟨rfl,h.user_page hs (Or.inl huser),hp,rfl⟩

/-- `U2K` for writing: the page is the process's own, or it gets a copy on the first free page. -/
theorem u2k_write {q : Proc} {va : U64} {pa : ℕ} (h : MemInv m kp sp extra) (hs : sp c = some (q.pgtbl,q.pPgtbl))
    (hu : u2k m q va true = .ok (pa,m')) :
    key 3 va.toNat < upages ∧ (entry m q.pgtbl (key 3 va.toNat)).p = true ∧
    ((entry m q.pgtbl (key 3 va.toNat) = .full (entry m q.pgtbl (key 3 va.toNat)).frame ∧
        pa = (entry m q.pgtbl (key 3 va.toNat)).frame * pgsize + va.toNat % pgsize ∧ m' = m) ∨
      ((entry m q.pgtbl (key 3 va.toNat)).w = false ∧ ∃ pg rest, m.free = pg :: rest ∧
        pa = pg * pgsize + va.toNat % pgsize ∧ MemInv m' kp sp extra ∧
        Unshared m m' sp c q.pgtbl q.pPgtbl (key 3 va.toNat) pg)) := by
  unfold u2k at hu
  obtain ⟨⟨t₁,i₁,m₁⟩,hw₁,hu⟩ := bind_eq_ok.mp hu
  obtain ⟨rfl,hslot₁⟩ := walkSlot_read hw₁
  obtain ⟨⟨t₂,i₂,m₂⟩,hw₂,hu⟩ := bind_eq_ok.mp hu
  obtain ⟨rfl,hslot₂⟩ := walkSlot_read hw₂
  have he₁ := entry_eq_slot hslot₁
  have he₂ := entry_eq_slot hslot₂
  simp only [← he₁,← he₂,Bool.not_true,Bool.false_eq_true,false_or] at hu
  split at hu
  · cases hu
  rename_i hcov
  obtain ⟨hp,huser⟩ := Pte.covers_pu (by simpa using hcov)
  have hn := h.user_page hs (Or.inl huser)
  obtain ⟨hfull₂,hcase⟩ := ((h.space c _ _ hs).agree _ hn).cases hp
  refine ⟨hn,hp,?_⟩
  split at hu
  · cases hu
  rename_i hframe
  split at hu
  · rename_i hsame
    cases hu
    refine Or.inl ⟨?_,rfl,rfl⟩
    rcases hcase with hc | hc
    · exact hc
    · rw [hfull₂, Pte.full_mask, hc] at hsame
      exact absurd hsame Pte.ro_mask_ne
  · split at hu
    · cases hu
    rename_i hw
    obtain ⟨⟨pg,m₃⟩,hcow,hu⟩ := bind_eq_ok.mp hu
    have hf₂ : (entry m q.pPgtbl (key 3 va.toNat)).frame =
        (entry m q.pgtbl (key 3 va.toNat)).frame := by simpa [eq_comm] using hframe
    rw [hf₂] at hcow
    obtain ⟨rest,hfree,-,-⟩ := cowPage_ok hcow
    simp only [Except.ok.injEq,Prod.mk.injEq] at hu
    obtain ⟨rfl,hm'⟩ := hu
    exact Or.inr ⟨by simp at hw; exact hw.1,pg,rest,hfree,rfl,h.cow hs hn hp hslot₁ hslot₂ hcow hm'.symm⟩

/-- `U2K` on a process that the invariant covers: the frame behind the page, private if
the caller is going to write. -/
theorem u2k_spec {q : Proc} {va : U64} {write : Bool} {pa : ℕ} (h : MemInv m kp sp extra)
    (hs : sp c = some (q.pgtbl,q.pPgtbl)) (hu : u2k m q va write = .ok (pa,m')) :
    ∃ f, pa = f * pgsize + va.toNat % pgsize ∧
      (write = false → m = m' ∧ key 3 va.toNat < upages ∧ (entry m q.pgtbl (key 3 va.toNat)).p = true ∧
        (entry m q.pgtbl (key 3 va.toNat)).frame = f) ∧
      (write = true → Private m m' kp sp extra q.pgtbl (key 3 va.toNat) f) := by
  cases write with
  | false =>
    obtain ⟨hm,hn,hp,hpa⟩ := u2k_read h hs hu
    exact ⟨_,hpa,fun _ => ⟨hm,hn,hp,rfl⟩,nofun⟩
  | true =>
    obtain ⟨hn,hp,⟨hfull,hpa,rfl⟩ | ⟨-,pg,rest,-,hpa,hinv,hun⟩⟩ := u2k_write h hs hu
    · exact ⟨_,hpa,nofun,fun _ => ⟨hn,h,hfull,fun _ _ _ _ _ _ => ⟨rfl,fun _ => rfl⟩,rfl,fun _ _ => rfl⟩⟩
    · exact ⟨pg,hpa,nofun,fun _ => hun.private h hinv hs hn hp⟩

theorem breakCow_spec {q : Proc} (h : MemInv m kp sp extra) (hs : sp c = some (q.pgtbl,q.pPgtbl))
    (hu : (entry m q.pPgtbl (key 3 v)).u = true) (hp₂ : (entry m q.pPgtbl (key 3 v)).p = true)
    (hb : breakCow m q v = .ok m') : ∃ f, Private m m' kp sp extra q.pgtbl (key 3 v) f := by
  unfold breakCow at hb
  obtain ⟨⟨t₁,i₁,m₁⟩,hw₁,hb⟩ := bind_eq_ok.mp hb
  obtain ⟨rfl,hslot₁⟩ := walkSlot_read hw₁
  have hn := h.user_page hs (Or.inr hu)
  have hag := (h.space c _ _ hs).agree _ hn
  have hp : (entry m q.pgtbl (key 3 v)).p = true := by rw [hag.1, hp₂]
  have he₁ := entry_eq_slot hslot₁
  simp only [← he₁] at hb
  split at hb
  · rename_i href
    rw [hag.set_w hp] at hb
    simp only [Except.ok.injEq] at hb
    obtain ⟨hinv,hst,hkeep,hoth⟩ := h.grant hs hn hp hslot₁ href hb.symm
    have hdata : m'.data = m.data := by rw [← hb]; rfl
    refine ⟨_,hn,hinv,by rw [hst.entry_eq _ hn, if_pos rfl],fun j s s₂ hss => ?_,by rw [← hb]; rfl,
      fun _ _ => by rw [hdata]⟩
    by_cases hj : j = c
    · subst hj
      rw [hs] at hss
      cases hss
      intro k hk
      rw [hst.entry_eq k hk, hdata]
      split
      · rename_i hkn
        subst hkn
        exact ⟨by rw [Pte.full_p, hp],fun _ => rfl⟩
      · exact ⟨rfl,fun _ => rfl⟩
    · exact (hoth j hj s s₂ hss).1.samePages fun _ _ _ => by rw [hdata]
  · obtain ⟨⟨pg,m₂⟩,hcow,hb⟩ := bind_eq_ok.mp hb
    obtain ⟨⟨t₂,i₂,m₃⟩,hw₂,hb⟩ := bind_eq_ok.mp hb
    obtain ⟨rfl,hslot₃⟩ := walkSlot_read hw₂
    obtain ⟨p₂,j₂,hslot₂⟩ := slot_of_present hp₂
    have htbl : m₂.tbl = m.tbl := by
      obtain ⟨rest,-,-,rfl⟩ := cowPage_ok hcow
      rfl
    have hpair := (stored_pair (m := m₂) (.full pg) (.full pg)
      (fun x => by simp only [tblPages,htbl]; exact h.tables_le_one hs x) hn
      (by rw [htbl]; exact hslot₁) (by rw [htbl]; exact hslot₂)).1
    have hslots : (p₂,j₂) = (t₂,i₂) := Option.some.inj (hpair.symm.trans hslot₃)
    cases hslots
    simp only [Except.ok.injEq] at hb
    obtain ⟨hinv,hun⟩ := h.cow hs hn hp hslot₁ hslot₂ hcow hb.symm
    exact ⟨pg,hun.private h hinv hs hn hp⟩

end Ukern
