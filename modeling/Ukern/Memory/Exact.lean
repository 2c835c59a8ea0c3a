import Ukern.Memory.Check

/-! # What the pointer checks grant

`check_mem` and `check_str` round the address down before they add the size. They therefore look
at `siz / PGSIZE + 1` pages, whatever the offset in the first one: sometimes one page less than
the range has, and for a range of whole pages one page more.
-/
namespace Ukern
variable {m : Phys} {t n i : ℕ} {addr siz : U64} {flags : BitVec 12}

/-- No large page in the user half. -/
def SmallPages (m : Phys) (t : ℕ) : Prop := ∀ v < userTop, huge m v 3 t = false

/-- A range below the end of the user half. -/
structure UserRange (addr siz : U64) : Prop where
  pos : 0 < siz.toNat
  top : addr.toNat + siz.toNat ≤ userTop

theorem UserRange.count (h : UserRange addr siz) : checkCount addr siz = siz.toNat / pgsize + 1 := by
  have := h.top
  unfold checkCount pgsize userTop at *
  simp only
  omega

/-- Before the page at `siz / PGSIZE` the pages lie in the user half. -/
theorem UserRange.page_lt (h : UserRange addr siz) (hi : i ≤ pageOf addr (siz.toNat - 1)) : page addr i < userTop := by
  have h1 := h.top
  have h2 := h.pos
  unfold page pageOf pgsize userTop at *
  omega

theorem UserRange.small (h : UserRange addr siz) (hs : SmallPages m t) (hi : i ≤ pageOf addr (siz.toNat - 1)) :
    huge m (page addr i) 3 t = false := hs _ (h.page_lt hi)

/-- Every page that the range meets is granted. -/
def AllGranted (m : Phys) (t : ℕ) (flags : BitVec 12) (addr siz : U64) : Prop :=
  ∀ n < siz.toNat, granted m t flags (addr.toNat + n) = true

theorem granted_page (n : ℕ) (hn : addr.toNat + n < 2^64) :
    granted m t flags (addr.toNat + n) = granted m t flags (page addr (pageOf addr n)) := by
  rw [granted, granted, ← lookup_page, Nat.mod_eq_of_lt hn]

theorem UserRange.allGranted_iff (h : UserRange addr siz) : AllGranted m t flags addr siz ↔
    ∀ i ≤ pageOf addr (siz.toNat - 1), granted m t flags (page addr i) = true := by
  have hpos := h.pos
  have htop := h.top
  have hlt : ∀ n < siz.toNat, addr.toNat + n < 2^64 := fun n hn => by
    unfold userTop at htop
    omega
  constructor
  · intro hall i hi
    obtain ⟨n,hn,rfl⟩ := exists_pageOf hi
    rw [← granted_page n (hlt n (by omega))]
    exact hall n (by omega)
  · intro hall n hn
    rw [granted_page n (hlt n hn)]
    exact hall _ (pageOf_mono (by omega))

/-- The page behind a range of whole pages, which `check_mem` looks at, and the last page of a
range that ends in the page behind those it looks at. -/
structure CountSuffices (m : Phys) (t : ℕ) (flags : BitVec 12) (addr siz : U64) : Prop where
  whole : addr.toNat % pgsize = 0 → siz.toNat % pgsize = 0 →
    (∀ i < siz.toNat / pgsize, granted m t flags (page addr i) = true) →
    huge m (page addr (siz.toNat / pgsize)) 3 t = false ∧ granted m t flags (page addr (siz.toNat / pgsize)) = true
  broken : siz.toNat % pgsize ≠ 0 → pgsize < addr.toNat % pgsize + siz.toNat % pgsize →
    (∀ i ≤ siz.toNat / pgsize, granted m t flags (page addr i) = true) →
    granted m t flags (page addr (siz.toNat / pgsize + 1)) = true

/-- How the last page of the range lies to the last page that is looked at. -/
theorem UserRange.last_page (h : UserRange addr siz) :
    (addr.toNat % pgsize = 0 ∧ siz.toNat % pgsize = 0 ∧ pageOf addr (siz.toNat - 1) + 1 = siz.toNat / pgsize) ∨
    (siz.toNat % pgsize ≠ 0 ∧ pgsize < addr.toNat % pgsize + siz.toNat % pgsize ∧
      pageOf addr (siz.toNat - 1) = siz.toNat / pgsize + 1) ∨
    (¬ (addr.toNat % pgsize = 0 ∧ siz.toNat % pgsize = 0) ∧
      ¬ (siz.toNat % pgsize ≠ 0 ∧ pgsize < addr.toNat % pgsize + siz.toNat % pgsize) ∧
      pageOf addr (siz.toNat - 1) = siz.toNat / pgsize) := by
  have hpos := h.pos
  unfold pageOf pgsize
  omega

/-- `check_mem` answers, and says whether every page of the range is granted, exactly if the pages
it looks at suffice. -/
theorem check_mem_exact_iff (hs : SmallPages m t) (h : UserRange addr siz) :
    (∃ b, checkMem m t addr siz flags = .ok b ∧ (b = true ↔ AllGranted m t flags addr siz)) ↔
      CountSuffices m t flags addr siz := by
  have hcount := h.count
  have hsmall : ∀ i ≤ pageOf addr (siz.toNat - 1), huge m (page addr i) 3 t = false := fun i hi => h.small hs hi
  -- what an answer says
  have htrue : ∀ b, checkMem m t addr siz flags = .ok b →
      (b = true ↔ ∀ i ≤ siz.toNat / pgsize, granted m t flags (page addr i) = true) := fun b hb => by
    constructor
    · rintro rfl i hi
      exact checkMem_true hb i (by omega)
    · intro hall
      have := checkMem_of_granted ⟨b,hb⟩ fun i hi => hall i (by omega)
      rw [hb] at this
      exact Except.ok.inj this
  have hans : (∀ i ≤ siz.toNat / pgsize, (∀ j < i, granted m t flags (page addr j) = true) →
      huge m (page addr i) 3 t = false) → ∃ b, checkMem m t addr siz flags = .ok b := fun hno =>
    checkMem_returns.mpr fun i hi => hno i (by omega)
  rw [h.allGranted_iff]
  rcases h.last_page with ⟨ha,hz,hlast⟩ | ⟨hz,ho,hlast⟩ | ⟨hnw,hnb,hlast⟩
  · constructor
    · rintro ⟨b,hb,hiff⟩
      refine ⟨fun _ _ hall => ?_,fun hz' => absurd hz hz'⟩
      have hbt := hiff.mpr fun i hi => hall i (by omega)
      exact ⟨checkMem_returns.mp ⟨b,hb⟩ _ (by omega) hall,(htrue b hb).mp hbt _ le_rfl⟩
    · intro hc
      obtain ⟨b,hb⟩ := hans fun i hi hall => by
        rcases hi.lt_or_eq with hlt | rfl
        · exact hsmall i (by omega)
        · exact (hc.whole ha hz hall).1
      refine ⟨b,hb,(htrue b hb).trans ⟨fun hall i hi => hall i (by omega),fun hall i hi => ?_⟩⟩
      rcases hi.lt_or_eq with hlt | rfl
      · exact hall i (by omega)
      · exact (hc.whole ha hz fun j hj => hall j (by omega)).2
  · obtain ⟨b,hb⟩ := hans fun i hi _ => hsmall i (by omega)
    constructor
    · rintro ⟨b,hb,hiff⟩
      refine ⟨fun _ hz' => absurd hz' hz,fun _ _ hall => ?_⟩
      exact hiff.mp ((htrue b hb).mpr hall) _ (by omega)
    · intro hc
      refine ⟨b,hb,(htrue b hb).trans ⟨fun hall i hi => ?_,fun hall i hi => hall i (by omega)⟩⟩
      by_cases hi' : i ≤ siz.toNat / pgsize
      · exact hall i hi'
      · rw [show i = siz.toNat / pgsize + 1 by omega]
        exact hc.broken hz ho hall
  · obtain ⟨b,hb⟩ := hans fun i hi _ => hsmall i (by omega)
    refine iff_of_true ⟨b,hb,?_⟩ ⟨fun h1 h2 => absurd ⟨h1,h2⟩ hnw,fun h1 h2 => absurd ⟨h1,h2⟩ hnb⟩
    rw [htrue b hb, hlast]

/-- `check_str` answers, and says whether a string of fewer than `siz` bytes stands on granted pages,
exactly if that can be told from the page on which a string ends. -/
theorem check_str_exact_iff (hs : SmallPages m t) (h : UserRange addr siz) :
    (∃ b, checkStr m t addr siz flags = .ok b ∧ (b = true ↔ ∃ n < siz.toNat, Str m t flags addr n)) ↔
      (∀ n, Str m t flags addr n → (n < siz.toNat ↔ pageOf addr n ≤ siz.toNat / pgsize)) ∧
      ((∀ i < siz.toNat / pgsize, Runs m t flags addr i) → huge m (page addr (siz.toNat / pgsize)) 3 t = false) := by
  have hcount := h.count
  have hle : ∀ i < siz.toNat / pgsize, i ≤ pageOf addr (siz.toNat - 1) := fun i hi => by
    rcases h.last_page with ⟨-,-,hl⟩ | ⟨-,-,hl⟩ | ⟨-,-,hl⟩ <;> omega
  constructor
  · rintro ⟨b,hb,hiff⟩
    have htrue := checkStr_true ⟨b,hb⟩
    rw [hb, Except.ok.injEq, hiff] at htrue
    refine ⟨fun n hn => ⟨fun hlt => ?_,fun hp => ?_⟩,fun hall => checkStr_returns.mp ⟨b,hb⟩ _ (by omega) hall⟩
    · obtain ⟨n',hp,hn'⟩ := htrue.mp ⟨n,hlt,hn⟩
      rw [hn.unique hn']
      omega
    · obtain ⟨n',hlt,hn'⟩ := htrue.mpr ⟨n,by omega,hn⟩
      rw [hn.unique hn']
      exact hlt
  · rintro ⟨hpage,hlast⟩
    obtain ⟨b,hb⟩ := checkStr_returns.mpr fun i hi hall => by
      rw [hcount] at hi
      rcases (Nat.lt_succ_iff.mp hi).lt_or_eq with hlt | rfl
      · exact h.small hs (hle i hlt)
      · exact hlast hall
    have htrue := checkStr_true ⟨b,hb⟩
    rw [hb, Except.ok.injEq] at htrue
    refine ⟨b,hb,htrue.trans ⟨?_,?_⟩⟩
    · rintro ⟨n,hp,hn⟩
      exact ⟨n,(hpage n hn).mpr (by omega),hn⟩
    · rintro ⟨n,hlt,hn⟩
      have := (hpage n hn).mp hlt
      exact ⟨n,by omega,hn⟩

/-! ## Two pages -/

/-- The page at `0x1000` is mapped, filled with `a`s, and perhaps the one behind it, which is zero. -/
def twoPages (second : Bool) : Phys where
  tbl t i :=
    if t = 1 ∧ i = 0 then ⟨2,pteFlags⟩
    else if t = 2 ∧ i = 0 then ⟨3,pteFlags⟩
    else if t = 3 ∧ i = 0 then ⟨4,pteFlags⟩
    else if t = 4 ∧ i = 1 then ⟨5,pteFlags⟩
    else if t = 4 ∧ i = 2 ∧ second then ⟨6,pteFlags⟩
    else .zero
  data f _ := if f = 5 then 97 else 0
  pipe _ := .zero
  ref _ := 1
  free := []
  nfreepages := 0
  usable _ := false
  endKmem := 0
  maxAddr := 0

theorem huge_eq_false (h : ∀ t i, (m.tbl t i).ps = false) (v l t : ℕ) : huge m v l t = false := by
  induction l generalizing t with
  | zero => rfl
  | succ l ih => simp only [huge,h,ih,Bool.and_false,Bool.or_false]

theorem twoPages_small (second : Bool) : SmallPages (twoPages second) 1 := fun v _ => by
  refine huge_eq_false (fun t i => ?_) v 3 1
  unfold twoPages
  simp only
  repeat' split
  all_goals rfl

/-- Two bytes across the end of the page: the second page is not looked at. -/
theorem check_mem_grants_hole : SmallPages (twoPages false) 1 ∧ UserRange 0x1FFF 2 ∧
    checkMem (twoPages false) 1 0x1FFF 2 (pteU ||| pteW) = .ok true ∧
    ¬ AllGranted (twoPages false) 1 (pteU ||| pteW) 0x1FFF 2 := by
  refine ⟨twoPages_small false,⟨by decide,by decide⟩,rfl,fun h => ?_⟩
  have h1 : granted (twoPages false) 1 (pteU ||| pteW) (0x1FFF + 1) = true := h 1 (by decide)
  cases h1

theorem check_mem_exact_in_page : ∃ b, checkMem (twoPages false) 1 0x1100 16 pteU = .ok b ∧
    (b = true ↔ AllGranted (twoPages false) 1 pteU 0x1100 16) :=
  (check_mem_exact_iff (twoPages_small false) ⟨by decide,by decide⟩).mpr
    ⟨fun h => absurd h (by decide),fun _ h => absurd h (by decide)⟩

/-- The string `a` across the end of the page: it is refused. -/
theorem check_str_refuses_string : SmallPages (twoPages true) 1 ∧ UserRange 0x1FFF 2 ∧
    Str (twoPages true) 1 pteU 0x1FFF 1 ∧ checkStr (twoPages true) 1 0x1FFF 2 pteU = .ok false := by
  refine ⟨twoPages_small true,⟨by decide,by decide⟩,⟨fun i hi => ?_,fun i hi => ?_,rfl⟩,rfl⟩
  · obtain rfl | rfl : i = 0 ∨ i = 1 := by omega
    all_goals rfl
  · obtain rfl : i = 0 := by omega
    decide

/-- The empty string at the start of the second page. -/
theorem check_str_exact_empty : ∃ b, checkStr (twoPages true) 1 0x2000 16 pteU = .ok b ∧
    (b = true ↔ ∃ n < (16 : U64).toNat, Str (twoPages true) 1 pteU 0x2000 n) := by
  have hempty : Str (twoPages true) 1 pteU 0x2000 0 :=
    ⟨fun i hi => by rw [Nat.le_zero.mp hi]; rfl,fun i hi => absurd hi i.not_lt_zero,rfl⟩
  refine (check_str_exact_iff (twoPages_small true) ⟨by decide,by decide⟩).mpr ⟨fun n hn => ?_,fun _ => rfl⟩
  rw [hn.unique hempty]
  decide

end Ukern
