import Ukern.Memory.Map

/-! # Page walks as a map, and walks that fail

A table of four levels is a map from pages to slots. A walk that creates tables only adds to it: slots
that were there stay, with what they hold, and new slots hold 0. A walk that runs out of pages on the
way does not take back what it has linked.
-/
namespace Ukern
open Lib Lib.Radix
variable {m m' m₁ : Phys} {l t v w p i pg : ℕ}

/-- Bits 12 to 47 of an address. -/
def pageBits (v : ℕ) : ℕ := v / 2^12 % 2^36

theorem key_eq_pageBits (v : ℕ) : key 3 v = pageBits v := rfl

/-- No entry above the last level has the size bit at the two levels where it has a meaning. -/
def NoHuge (l : ℕ) (e : Pte) : Prop := ¬ (l < 2 ∧ e.ps = true)

/-- A table whose pages are pairwise distinct and not on the free list, without huge pages. -/
structure TableTree (m : Phys) (pgtbl : ℕ) : Prop where
  table : Table m 512 pgtbl
  nodup : m.free.Nodup
  noHuge : Inner Pte.link 512 NoHuge m.tbl 3 512 pgtbl

/-- The three upper levels on the way to `v` are present. -/
def upperPresent (m : Phys) (pgtbl v : ℕ) : Bool :=
  let e₃ := m.tbl pgtbl (tblIndex 3 v)
  let e₂ := m.tbl e₃.frame (tblIndex 2 v)
  let e₁ := m.tbl e₂.frame (tblIndex 1 v)
  e₃.p && e₂.p && e₁.p

/-! ## Walks that only read -/

theorem Pte.link_of_noHuge {e : Pte} (h : NoHuge l e) : e.link l = if e.p then some e.frame else none := by
  by_cases hp : e.p = true
  · rw [if_pos hp, Pte.link, if_pos ⟨hp,h⟩]
  · rw [if_neg hp, Pte.link_none (Bool.eq_false_iff.mpr hp)]

/-- Without huge pages a walk with `create` 0 returns, and changes nothing. -/
theorem walkFrom_reads {alloced : List (Option ℕ)} (h : Inner Pte.link 512 NoHuge m.tbl l 512 t) :
    walkFrom false v l m t alloced = .ok (match slotOf Pte.link 512 m.tbl l t (key l v) with
      | some s => .slot s.1 s.2
      | none => .efault,m) := by
  induction l generalizing t alloced with
  | zero => simp [walkFrom,slotOf,key_zero]
  | succ l ih =>
    obtain ⟨hn,hsub⟩ := h _ (tblIndex_lt (l+1) v)
    simp only [walkFrom,slotOf,key_succ_div,key_succ_mod]
    rw [if_neg hn]
    split
    · rename_i hp
      have hc : (m.tbl t (tblIndex (l+1) v)).link l = some (m.tbl t (tblIndex (l+1) v)).frame := by
        rw [Pte.link_of_noHuge hn, if_pos hp]
      rw [hc]
      exact ih (hsub _ hc)
    · rename_i hp
      rw [Pte.link_none (Bool.eq_false_iff.mpr hp)]
      rfl

theorem slotOf_isSome (h : Inner Pte.link 512 NoHuge m.tbl 3 512 t) :
    (slotOf Pte.link 512 m.tbl 3 t (key 3 v)).isSome = upperPresent m t v := by
  obtain ⟨h₃,hsub₃⟩ := h _ (tblIndex_lt 3 v)
  simp only [slotOf,key_succ_div,key_succ_mod,upperPresent]
  rw [Pte.link_of_noHuge h₃]
  cases hp₃ : (m.tbl t (tblIndex 3 v)).p with
  | false => rfl
  | true =>
    obtain ⟨h₂,hsub₂⟩ := hsub₃ _ (by rw [Pte.link_of_noHuge h₃, if_pos hp₃]) _ (tblIndex_lt 2 v)
    simp only [↓reduceIte]
    rw [Pte.link_of_noHuge h₂]
    cases hp₂ : (m.tbl (m.tbl t (tblIndex 3 v)).frame (tblIndex 2 v)).p with
    | false => rfl
    | true =>
      obtain ⟨h₁,-⟩ := hsub₂ _ (by rw [Pte.link_of_noHuge h₂, if_pos hp₂]) _ (tblIndex_lt 1 v)
      simp only [↓reduceIte]
      rw [Pte.link_of_noHuge h₁]
      cases (m.tbl (m.tbl (m.tbl t (tblIndex 3 v)).frame (tblIndex 2 v)).frame (tblIndex 1 v)).p with
      | false => rfl
      | true => rfl

/-! ## What a walk leaves alone -/

/-- A walk over any allocator, as `walkFrom` has it with `alloc_page`. -/
def walkWith (alloc : Phys → Except Fault (Option ℕ × Phys)) (create : Bool) (v : ℕ) :
    ℕ → Phys → ℕ → List (Option ℕ) → Except Fault (Walk × Phys)
  | 0, m, t, _ => .ok (.slot t (tblIndex 0 v),m)
  | l+1, m, t, alloced =>
    let e := m.tbl t (tblIndex (l+1) v)
    if l < 2 ∧ e.ps then .error .assertion
    else if e.p then walkWith alloc create v l m e.frame (alloced ++ [none])
    else if !create then .ok (.efault,m)
    else do
      match ← alloc m with
      | (none,m) => .ok (.enomem,← freeAlloced m alloced)
      | (some pg,m) =>
        walkWith alloc create v l (m.setEntry t (tblIndex (l+1) v) ⟨pg,pteP ||| pteW ||| pteU⟩) pg
          (alloced ++ [some pg])

theorem walkFrom_eq_walkWith {create : Bool} {alloced : List (Option ℕ)} :
    walkFrom create v l m t alloced = walkWith (allocPage · true) create v l m t alloced := by
  induction l generalizing m t alloced with
  | zero => rfl
  | succ l ih =>
    simp only [walkFrom,walkWith,ih] <;> rfl

/-- The allocator pops the head of the list, or returns `NULL` when it is empty. -/
structure Pops (alloc : Phys → Except Fault (Option ℕ × Phys)) : Prop where
  none : ∀ m m₁, alloc m = .ok (none,m₁) → m.free = [] ∧ m₁ = m
  some : ∀ m m₁ pg, alloc m = .ok (some pg,m₁) → ∃ rest, m.free = pg :: rest ∧ m₁ = (m.zeroPage pg).unlink pg rest

theorem allocPage_pops : Pops (allocPage · true) where
  none m m₁ h := by
    rcases allocPage_ok h with ⟨hf,hr⟩ | ⟨_,_,_,_,hr⟩
    · cases hr
      exact ⟨hf,rfl⟩
    · cases hr
  some m m₁ pg h := by
    rcases allocPage_ok h with ⟨_,hr⟩ | ⟨pg',rest,hf,_,hr⟩
    · cases hr
    · cases hr
      exact ⟨rest,hf,rfl⟩

theorem freePage_tbl (h : freePage m pg = .ok m') : m'.tbl = m.tbl := by
  unfold freePage at h
  split at h
  · cases h
  split at h
  · cases h
  split at h
  · cases h
    rfl
  · cases h
    rfl

theorem freeAlloced_tbl {alloced : List (Option ℕ)} (h : freeAlloced m alloced = .ok m') : m'.tbl = m.tbl := by
  induction alloced generalizing m with
  | nil =>
    cases h
    rfl
  | cons a rest ih =>
    cases a with
    | none =>
      cases h
      rfl
    | some pg =>
      obtain ⟨m₁,hf,h⟩ := bind_eq_ok.mp h
      exact (ih h).trans (freePage_tbl hf)

/-- A present entry outside the free pages stays, whatever the walk returns. -/
theorem walkWith_keeps {alloc : Phys → Except Fault (Option ℕ × Phys)} (ha : Pops alloc) {create : Bool}
    {alloced : List (Option ℕ)} {r : Walk} (h : walkWith alloc create v l m t alloced = .ok (r,m')) {x : ℕ}
    (hx : x ∉ m.free) {j : ℕ} (hp : (m.tbl x j).p = true) : m'.tbl x j = m.tbl x j := by
  induction l generalizing m t alloced with
  | zero =>
    cases h
    rfl
  | succ l ih =>
    simp only [walkWith] at h
    split at h
    · cases h
    split at h
    · exact ih h hx hp
    rename_i habs
    split at h
    · cases h
      rfl
    obtain ⟨⟨o,m₁⟩,hal,hres⟩ := bind_eq_ok.mp h
    cases o with
    | none =>
      obtain ⟨-,rfl⟩ := ha.none _ _ hal
      obtain ⟨m₂,hf,hres⟩ := bind_eq_ok.mp hres
      cases hres
      rw [freeAlloced_tbl hf]
    | some pg =>
      obtain ⟨rest,hfree,rfl⟩ := ha.some _ _ _ hal
      rw [hfree, List.mem_cons, not_or] at hx
      -- the entry that is written was not present
      have hother : (((m.zeroPage pg).unlink pg rest).setEntry t (tblIndex (l+1) v)
          ⟨pg,pteP ||| pteW ||| pteU⟩).tbl x j = m.tbl x j := by
        have hzero : ((m.zeroPage pg).unlink pg rest).tbl x = m.tbl x := Function.update_of_ne hx.1 ..
        by_cases hxt : x = t
        · subst hxt
          have hj : j ≠ tblIndex (l+1) v := fun hj => habs (hj ▸ hp)
          rw [Phys.setEntry_tbl_self, Function.update_of_ne hj, hzero]
        · rw [Phys.setEntry_tbl_ne hxt, hzero]
      rw [← hother] at hp ⊢
      exact ih hres hx.2 hp

/-! ## Walks that create -/

theorem walkFrom_slot_nil {create : Bool} {alloced : List (Option ℕ)} (hfree : m.free = [])
    (h : walkFrom create v l m t alloced = .ok (.slot p i,m')) :
    m' = m ∧ slotOf Pte.link 512 m.tbl l t (key l v) = some (p,i) := by
  induction l generalizing t alloced with
  | zero =>
    cases h
    exact ⟨rfl,by simp [slotOf,key_zero]⟩
  | succ l ih =>
    simp only [walkFrom] at h
    simp only [slotOf,key_succ_div,key_succ_mod]
    split at h
    · cases h
    rename_i hps
    split at h
    · rename_i hp
      rw [Pte.link, if_pos ⟨hp,hps⟩]
      exact ih h
    split at h
    · cases h
    obtain ⟨r,hr,h⟩ := bind_eq_ok.mp h
    rcases allocPage_ok hr with ⟨-,rfl⟩ | ⟨_,_,hf,-,-⟩
    · obtain ⟨m₂,-,h⟩ := bind_eq_ok.mp h
      cases h
    · rw [hfree] at hf
      cases hf

/-- Page `x` is one of the tables. -/
def IsTable (m : Phys) (pgtbl x : ℕ) : Prop := pages Pte.link 512 m.tbl 3 512 pgtbl x ≠ 0

/-- What a walk to `v` with `create` that returned slot `i` of page `t` has done to the map. -/
structure WalkMap (m m' : Phys) (pgtbl v t i : ℕ) : Prop where
  again : ∀ w, pageBits w = pageBits v → walkPgtbl m' pgtbl w false = .ok (.slot t i,m')
  apart : ∀ w w' t₁ i₁ t₂ i₂, walkPgtbl m' pgtbl w false = .ok (.slot t₁ i₁,m') →
    walkPgtbl m' pgtbl w' false = .ok (.slot t₂ i₂,m') → pageBits w ≠ pageBits w' → (t₁,i₁) ≠ (t₂,i₂)
  kept : ∀ w t₁ i₁, walkPgtbl m pgtbl w false = .ok (.slot t₁ i₁,m) →
    walkPgtbl m' pgtbl w false = .ok (.slot t₁ i₁,m') ∧ m'.tbl t₁ i₁ = m.tbl t₁ i₁
  fresh : ∀ w t₁ i₁, walkPgtbl m pgtbl w false = .ok (.efault,m) →
    walkPgtbl m' pgtbl w false = .ok (.slot t₁ i₁,m') → m'.tbl t₁ i₁ = .zero
  taken : ∃ new, m.free = new ++ m'.free ∧ (∀ x ∈ new, ¬ IsTable m pgtbl x) ∧
    ∀ x, IsTable m' pgtbl x ↔ IsTable m pgtbl x ∨ x ∈ new

/-- A walk with `create` leaves the leaves and adds the pages it takes to the tables. -/
theorem walkPgtbl_adds (h : TableTree m t) (hw : walkPgtbl m t v true = .ok (.slot p i,m')) :
    slotOf Pte.link 512 m'.tbl 3 t (key 3 v) = some (p,i) ∧ Table m' 512 t ∧
      (∀ n < 512 * 512^3, entry m' t n = entry m t n) ∧
      ∃ new, m.free = new ++ m'.free ∧
        ∀ x, pages Pte.link 512 m'.tbl 3 512 t x = pages Pte.link 512 m.tbl 3 512 t x + new.count x := by
  by_cases hfree : m.free = []
  · obtain ⟨rfl,hs⟩ := walkFrom_slot_nil hfree hw
    exact ⟨hs,h.table,fun _ _ => rfl,[],rfl,fun x => by simp⟩
  · obtain ⟨p',i',new,hr,hslot,he,hg,hext⟩ := walkPgtbl_extend (w := 512) hw (tblIndex_lt 3 v) h.table h.nodup hfree
    cases hr
    have hx := hext (m'.tbl p i)
    rw [show m'.setEntry p i (m'.tbl p i) = m' by simp [Phys.setEntry], he] at hx
    refine ⟨hslot,hx.table h.table h.nodup,fun n hn => ?_,new,hg.free,hx.pages_eq⟩
    rw [hx.entry_eq n hn]
    split
    · rename_i hn'
      rw [hn']
    · rfl

/-- `walk_pgtbl` is a map from pages to slots: with `create` it extends the map, without it only reads,
and fails exactly when an upper level is not present. -/
theorem walk_pgtbl_map (m : Phys) (pgtbl v : ℕ) (h : TableTree m pgtbl) :
    (∀ t i m', walkPgtbl m pgtbl v true = .ok (.slot t i,m') → WalkMap m m' pgtbl v t i) ∧
    ∃ r, walkPgtbl m pgtbl v false = .ok (r,m) ∧ (r = .efault ↔ upperPresent m pgtbl v = false) ∧ r ≠ .enomem := by
  constructor
  · intro t i m' hw
    obtain ⟨hslot,htable,hentry,new,hfree,hpages⟩ := walkPgtbl_adds h hw
    have hread : ∀ {m : Phys} {w t₁ i₁}, walkPgtbl m pgtbl w false = .ok (.slot t₁ i₁,m) →
        slotOf Pte.link 512 m.tbl 3 pgtbl (key 3 w) = some (t₁,i₁) := fun {m w t₁ i₁} hr => by
      obtain ⟨-,he⟩ := walkFrom_read hr
      cases hs : slotOf Pte.link 512 m.tbl 3 pgtbl (key 3 w) with
      | none =>
        rw [hs] at he
        cases he
      | some s =>
        rw [hs] at he
        cases he
        rfl
    have hnew : ∀ x ∈ new, pages Pte.link 512 m.tbl 3 512 pgtbl x = 0 := fun x hx =>
      h.table.fresh x (by rw [hfree]; exact List.mem_append_left _ hx)
    refine ⟨fun w hwv => ?_,fun w w' t₁ i₁ t₂ i₂ h1 h2 hne he => ?_,fun w t₁ i₁ h1 => ?_,fun w t₁ i₁ h1 h2 => ?_,
      new,hfree,fun x hx => by rw [IsTable, hnew x hx]; simp,fun x => ?_⟩
    · apply walkFrom_of_slot
      rw [key_eq_pageBits, hwv]
      exact hslot
    · have hs₂ := hread h2
      rw [← he] at hs₂
      exact hne (slotOf_inj (by decide) htable.one (key_lt 3 w) (key_lt 3 w') (hread h1) hs₂)
    · have hs := hread h1
      have hs' : slotOf Pte.link 512 m'.tbl 3 pgtbl (key 3 w) = some (t₁,i₁) := by
        refine slotOf_mono (n := 512) (by decide) (key_lt 3 w) (fun x j l hx hl => ?_) hs
        have hw' := hw
        rw [walkPgtbl, walkFrom_eq_walkWith] at hw'
        refine walkWith_keeps allocPage_pops hw' (fun hf => hx (h.table.fresh x hf)) ?_
        by_contra hp
        exact hl (Pte.link_none (Bool.eq_false_iff.mpr hp) l)
      refine ⟨walkFrom_of_slot hs',?_⟩
      have he := hentry (key 3 w) (key_lt 3 w)
      rw [entry, entry, leafAt_eq_slot, leafAt_eq_slot, hs, hs'] at he
      exact he
    · obtain ⟨-,he⟩ := walkFrom_read h1
      have hnone : slotOf Pte.link 512 m.tbl 3 pgtbl (key 3 w) = none := by
        cases hs : slotOf Pte.link 512 m.tbl 3 pgtbl (key 3 w) with
        | none => rfl
        | some s =>
          rw [hs] at he
          cases he
      have he := hentry (key 3 w) (key_lt 3 w)
      rw [entry, entry, leafAt_eq_slot, leafAt_eq_slot, hread h2, hnone] at he
      exact he
    · rw [IsTable, IsTable, hpages, ← List.count_pos_iff]
      omega
  · refine ⟨_,walkFrom_reads h.noHuge,?_,?_⟩
    · rw [← slotOf_isSome h.noHuge]
      cases slotOf Pte.link 512 m.tbl 3 pgtbl (key 3 v) with
      | none => simp
      | some s => simp
    · cases slotOf Pte.link 512 m.tbl 3 pgtbl (key 3 v) with
      | none => rintro ⟨⟩
      | some s => rintro ⟨⟩

/-- A table in page 1 with nothing in it, and twelve free pages. -/
def bareTable : Phys where
  tbl _ _ := .zero
  data _ _ := 0
  pipe _ := .zero
  ref _ := 0
  free := List.range' 2 12
  nfreepages := 12
  usable _ := true
  endKmem := 0
  maxAddr := 2^20

theorem bareTable_table : Table bareTable 512 1 :=
  have hp : ∀ x, pages Pte.link 512 bareTable.tbl 3 512 1 x = if x = 1 then 1 else 0 :=
    pages_of_empty fun l _ => Pte.link_zero l
  ⟨fun x => by rw [hp]; split <;> omega,fun x hx => by
    rw [hp, if_neg]
    rintro rfl
    revert hx
    decide⟩

theorem bareTable_tree : TableTree bareTable 1 :=
  ⟨bareTable_table,by decide,inner_of_empty (fun l _ => Pte.link_zero l) fun _ _ h =>
    absurd (show Pte.zero.ps = true from h.2) (by decide)⟩

/-- The first walk in an empty table takes three pages. -/
theorem walk_pgtbl_map_bare : ∃ m', walkPgtbl bareTable 1 0x1000 true = .ok (.slot 4 1,m') ∧
    WalkMap bareTable m' 1 0x1000 4 1 := by
  have hw : (walkPgtbl bareTable 1 0x1000 true).toOption.map Prod.fst = some (.slot 4 1) := by decide +kernel
  obtain ⟨⟨r,m'⟩,hw,rfl⟩ := Option.map_eq_some_iff.mp hw
  exact ⟨m',eq_ok_of_toOption hw,(walk_pgtbl_map bareTable 1 0x1000 bareTable_tree).1 4 1 m' (eq_ok_of_toOption hw)⟩

/-! ## Walks that run out of pages -/

/-- `alloc_page(FLAG_ZERO)` without the look at the new head of the list. -/
def popPage (m : Phys) : Except Fault (Option ℕ × Phys) :=
  match m.free with
  | [] => .ok (none,m)
  | pg :: rest => .ok (some pg,(m.zeroPage pg).unlink pg rest)

theorem popPage_pops : Pops popPage where
  none m m₁ h := by
    unfold popPage at h
    split at h
    · rename_i hf
      cases h
      exact ⟨hf,rfl⟩
    · cases h
  some m m₁ pg h := by
    unfold popPage at h
    split at h
    · cases h
    · rename_i hf
      cases h
      exact ⟨_,hf,rfl⟩

/-- `walk_pgtbl` with `create` over such an allocator. -/
def walkPop (m : Phys) (pgtbl v : ℕ) : Except Fault (Walk × Phys) := walkWith popPage true v 3 m pgtbl []

/-- Nothing of the call is left: the tables, the set of free pages, its size and the counts. -/
structure Undone (m m' : Phys) (pgtbl : ℕ) : Prop where
  tables : Same Pte.link 512 m.tbl m'.tbl 3 512 pgtbl
  free : ∀ x, x ∈ m'.free ↔ x ∈ m.free
  count : m'.nfreepages = m.nfreepages
  ref : m'.ref = m.ref

theorem freeAlloced_none {alloced : List (Option ℕ)} (h : ∀ o ∈ alloced, o = none) : freeAlloced m alloced = .ok m := by
  cases alloced with
  | nil => rfl
  | cons o rest =>
    rw [h o List.mem_cons_self]
    rfl

/-- A walk that could not take a single page has changed nothing. -/
theorem walkWith_enomem_nil {alloced : List (Option ℕ)} (hfree : m.free = []) (hnone : ∀ o ∈ alloced, o = none)
    (h : walkWith popPage true v l m t alloced = .ok (.enomem,m')) : m' = m := by
  induction l generalizing t alloced with
  | zero => cases h
  | succ l ih =>
    simp only [walkWith] at h
    split at h
    · cases h
    split at h
    · refine ih (fun o ho => ?_) h
      rcases List.mem_append.mp ho with ho | ho
      · exact hnone o ho
      · exact List.mem_singleton.mp ho
    · have hp : popPage m = .ok (none,m) := by rw [popPage, hfree]
      rw [if_neg (by decide), hp, ok_bind] at h
      dsimp only at h
      rw [freeAlloced_none hnone] at h
      cases h
      rfl

/-- A walk that could take a page has linked it, and leaves it so. -/
theorem walkWith_enomem_links {alloced : List (Option ℕ)} (hfree : m.free ≠ [])
    (hfresh : ∀ x ∈ m.free, pages Pte.link 512 m.tbl l 512 t x = 0)
    (h : walkWith popPage true v l m t alloced = .ok (.enomem,m')) : ¬ Same Pte.link 512 m.tbl m'.tbl l 512 t := by
  induction l generalizing t alloced with
  | zero => cases h
  | succ l ih =>
    intro hsame
    obtain ⟨hroot,hsub⟩ := hsame _ (tblIndex_lt (l+1) v)
    simp only [walkWith] at h
    split at h
    · cases h
    rename_i hps
    split at h
    · rename_i hp
      have hc : (m.tbl t (tblIndex (l+1) v)).link l = some (m.tbl t (tblIndex (l+1) v)).frame := by
        rw [Pte.link, if_pos ⟨hp,hps⟩]
      refine ih (fun x hx => ?_) h (hsub _ hc)
      have h1 := pages_child_le (B := 512) (tblIndex_lt (l+1) v) hc x
      have h2 := hfresh x hx
      omega
    · rename_i habs
      rw [if_neg (by decide)] at h
      obtain ⟨⟨o,m₁⟩,hal,hres⟩ := bind_eq_ok.mp h
      cases o with
      | none => exact hfree (popPage_pops.none _ _ hal).1
      | some pg =>
        obtain ⟨rest,hf,rfl⟩ := popPage_pops.some _ _ _ hal
        -- the new entry is present, and its page is not free
        have ht : t ∉ m.free := fun hx => by
          have h1 := hfresh t hx
          have h2 := one_le_pages_root Pte.link 512 m.tbl (l+1) 512 t
          omega
        rw [hf, List.mem_cons, not_or] at ht
        have hnew : (((m.zeroPage pg).unlink pg rest).setEntry t (tblIndex (l+1) v)
            ⟨pg,pteP ||| pteW ||| pteU⟩).tbl t (tblIndex (l+1) v) = ⟨pg,pteP ||| pteW ||| pteU⟩ := by
          rw [Phys.setEntry_tbl_self, Function.update_self]
        have hp : (⟨pg,pteP ||| pteW ||| pteU⟩ : Pte).p = true := by
          change (pteP ||| pteW ||| pteU).getLsbD 0 = true
          decide
        have hkept := walkWith_keeps popPage_pops hres (x := t) (j := tblIndex (l+1) v) ht.2 (by rw [hnew]; exact hp)
        rw [hnew, hroot] at hkept
        exact habs (hkept ▸ hp)

/-- A walk that returns `-ENOMEM` has undone its work exactly when there was no free page at all. -/
theorem walk_enomem_undone_iff (m m' : Phys) (pgtbl v : ℕ)
    (hfresh : ∀ x ∈ m.free, pages Pte.link 512 m.tbl 3 512 pgtbl x = 0)
    (h : walkPop m pgtbl v = .ok (.enomem,m')) : Undone m m' pgtbl ↔ m.free = [] := by
  constructor
  · intro hu
    by_contra hfree
    exact walkWith_enomem_links hfree hfresh h hu.tables
  · intro hfree
    obtain rfl := walkWith_enomem_nil hfree (by simp) h
    exact ⟨.refl,fun _ => Iff.rfl,rfl,rfl⟩

/-- The table of `bareTable` with fewer free pages, and with the first level already there in page 9. -/
def shortOfPages (free : List ℕ) (linked : Bool) : Phys :=
  { bareTable with
    tbl := fun t i => if linked ∧ t = 1 ∧ i = 0 then ⟨9,pteP ||| pteW ||| pteU⟩ else .zero
    free := free
    nfreepages := free.length }

/-- With one free page and three tables missing, the PML4 is left with an entry for a page on the free
list. With the PDPT there, the page stays in the table and off the list. -/
theorem walk_enomem_leftovers :
    (∃ m', walkPop (shortOfPages [2] false) 1 0 = .ok (.enomem,m') ∧ m'.tbl 1 0 = ⟨2,pteP ||| pteW ||| pteU⟩ ∧
      m'.free = [2] ∧ ¬ Undone (shortOfPages [2] false) m' 1) ∧
    ∃ m', walkPop (shortOfPages [2] true) 1 0 = .ok (.enomem,m') ∧ m'.tbl 9 0 = ⟨2,pteP ||| pteW ||| pteU⟩ ∧
      m'.free = [] ∧ ¬ Undone (shortOfPages [2] true) m' 1 := by
  have hrun : ∀ linked, (walkPop (shortOfPages [2] linked) 1 0).toOption.map (fun r =>
      (r.1,r.2.tbl (if linked then 9 else 1) 0,r.2.free)) =
      some (.enomem,⟨2,pteP ||| pteW ||| pteU⟩,if linked then [] else [2]) := by decide +kernel
  constructor
  · obtain ⟨⟨r,m'⟩,hw,hr⟩ := Option.map_eq_some_iff.mp (hrun false)
    simp only [Prod.mk.injEq,Bool.false_eq_true,↓reduceIte] at hr
    obtain ⟨rfl,htbl,hfree⟩ := hr
    refine ⟨m',eq_ok_of_toOption hw,htbl,hfree,fun hu => ?_⟩
    have h1 := (hu.tables 0 (by decide)).1
    rw [htbl] at h1
    cases h1
  · obtain ⟨⟨r,m'⟩,hw,hr⟩ := Option.map_eq_some_iff.mp (hrun true)
    simp only [Prod.mk.injEq,↓reduceIte] at hr
    obtain ⟨rfl,htbl,hfree⟩ := hr
    refine ⟨m',eq_ok_of_toOption hw,htbl,hfree,fun hu => ?_⟩
    have h1 := (hu.free 2).mpr (by decide)
    rw [hfree] at h1
    cases h1

/-- With no free page at all. -/
theorem walk_enomem_undone_empty : ∃ m', walkPop (shortOfPages [] false) 1 0 = .ok (.enomem,m') ∧
    Undone (shortOfPages [] false) m' 1 :=
  ⟨_,rfl,(walk_enomem_undone_iff _ _ 1 0 (by simp [shortOfPages]) rfl).mpr rfl⟩

end Ukern
