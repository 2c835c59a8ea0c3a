import Ukern.Kernel.Boot
import Ukern.Lib.Scan
import Ukern.Memory.Fork

/-! # Pointer checks

`check_mem` and `check_str` visit the pages of a range until one of them decides. What
they do with any 64-bit address is stated over what the tables hold for each page: a
large page on the way, or an entry that grants access or does not.
-/
namespace Ukern
open Lib Lib.Radix
variable {m : Phys} {t v l n i : ℕ} {addr siz : U64} {flags : BitVec 12}

/-- The size bit is set in a PDPT or page directory entry on the way to `v`. -/
def huge (m : Phys) (v : ℕ) : ℕ → ℕ → Bool
  | 0, _ => false
  | l+1, t =>
    let e := m.tbl t (tblIndex (l+1) v)
    (decide (l < 2) && e.ps) || (e.p && huge m v l e.frame)

/-- The page of `v` is present with all the flags. -/
def granted (m : Phys) (t : ℕ) (flags : BitVec 12) (v : ℕ) : Bool := (lookup m t v).covers (flags ||| pteP)

theorem zero_covers (flags : BitVec 12) : Pte.zero.covers (flags ||| pteP) = false := by
  have hne : 0#12 &&& (flags ||| pteP) ≠ flags ||| pteP := by
    intro h
    have hbit := congrArg (·.getLsbD 0) h
    simp [pteP] at hbit
  exact beq_eq_false_iff_ne.mpr hne

/-- A walk that only reads trips on a large page, and finds the slot otherwise. -/
theorem walkFrom_eq (m : Phys) (v l t : ℕ) (al : List (Option ℕ)) : walkFrom false v l m t al =
    if huge m v l t then .error .assertion
    else .ok (match slotOf Pte.link 512 m.tbl l t (key l v) with
      | some s => .slot s.1 s.2
      | none => .efault,m) := by
  induction l generalizing t al with
  | zero => simp [walkFrom,huge,slotOf,key_zero]
  | succ l ih =>
    rw [walkFrom, huge]
    simp only [slotOf,key_succ_div,key_succ_mod]
    by_cases hps : l < 2 ∧ (m.tbl t (tblIndex (l+1) v)).ps = true
    · rw [if_pos hps, if_pos (by simp [hps.1, hps.2])]
    · have hfst : (decide (l < 2) && (m.tbl t (tblIndex (l+1) v)).ps) = false := by simpa using hps
      rw [if_neg hps, hfst, Bool.false_or]
      cases hp : (m.tbl t (tblIndex (l+1) v)).p with
      | false => simp [Pte.link, hp]
      | true =>
        have hc : (m.tbl t (tblIndex (l+1) v)).link l = some (m.tbl t (tblIndex (l+1) v)).frame := by
          rw [Pte.link, if_pos ⟨hp,hps⟩]
        rw [hc, if_pos rfl, Bool.true_and]
        exact ih _ _

/-- The start of page `i` of a range, as the loops reach it. -/
def page (addr : U64) (i : ℕ) : ℕ := (addr.toNat / pgsize * pgsize + i * pgsize) % 2^64

theorem page_zero (addr : U64) : page addr 0 = addr.toNat / pgsize * pgsize := by
  have hlt := addr.isLt
  unfold page pgsize
  omega

theorem page_succ (addr : U64) (i : ℕ) : (page addr i + pgsize) % 2^64 = page addr (i+1) := by
  unfold page pgsize
  omega

/-- Visit one page in `check_mem`. -/
def memStep (m : Phys) (t : ℕ) (flags : BitVec 12) (addr : U64) (i : ℕ) : Except Fault (Option Bool) :=
  if huge m (page addr i) 3 t then .error .assertion
  else .ok (if granted m t flags (page addr i) then none else some false)

theorem checkPages_eq (n i : ℕ) : checkPages m t (flags ||| pteP) n (page addr i) =
    scan (memStep m t flags addr) true n i := by
  induction n generalizing i with
  | zero => rfl
  | succ n ih =>
    rw [checkPages, scan, walkPgtbl, walkFrom_eq, memStep, granted, lookup, leafAt_eq_slot]
    cases huge m (page addr i) 3 t with
    | true => rfl
    | false =>
      cases hs : slotOf Pte.link 512 m.tbl 3 t (key 3 (page addr i)) with
      | none => simp [zero_covers, ok_bind]
      | some s =>
        simp only [ok_bind, page_succ, ih, Bool.false_eq_true, if_false]
        cases (m.tbl s.1 s.2).covers (flags ||| pteP) <;> rfl

theorem checkMem_eq : checkMem m t addr siz flags =
    scan (memStep m t flags addr) true (checkCount addr siz) 0 := by
  rw [checkMem, ← page_zero]
  exact checkPages_eq _ 0

/-! ## Strings -/

/-- Byte `n` of the string at `addr`, through the tables. -/
def strByte (m : Phys) (t : ℕ) (addr : U64) (n : ℕ) : UInt8 :=
  m.data (lookup m t ((addr.toNat + n) % 2^64)).frame ((addr.toNat + n) % pgsize)

/-- The page that byte `n` lies on. -/
def pageOf (addr : U64) (n : ℕ) : ℕ := (addr.toNat % pgsize + n) / pgsize

/-- A zero byte on page `i`, at `addr` or behind it. -/
def hasNul (m : Phys) (t : ℕ) (addr : U64) (i : ℕ) : Bool :=
  let off := if i = 0 then addr.toNat % pgsize else 0
  (List.range (pgsize - off)).any fun j => m.data (lookup m t (page addr i)).frame (off + j) == 0

/-- Visit one page in `check_str`. -/
def strStep (m : Phys) (t : ℕ) (flags : BitVec 12) (addr : U64) (i : ℕ) : Except Fault (Option Bool) :=
  if huge m (page addr i) 3 t then .error .assertion
  else .ok (if !granted m t flags (page addr i) then some false
    else if hasNul m t addr i then some true else none)

theorem checkStrPages_eq (n i : ℕ) : checkStrPages m t (flags ||| pteP) n (page addr i)
    (if i = 0 then addr.toNat % pgsize else 0) = scan (strStep m t flags addr) false n i := by
  induction n generalizing i with
  | zero => rfl
  | succ n ih =>
    have hrest := ih (i+1)
    rw [if_neg (Nat.succ_ne_zero i)] at hrest
    rw [checkStrPages, scan, walkPgtbl, walkFrom_eq, strStep, granted, hasNul, lookup, leafAt_eq_slot]
    cases huge m (page addr i) 3 t with
    | true => rfl
    | false =>
      cases hs : slotOf Pte.link 512 m.tbl 3 t (key 3 (page addr i)) with
      | none => simp [zero_covers, ok_bind]
      | some s =>
        simp only [ok_bind, page_succ, hrest, Bool.false_eq_true, if_false]
        cases (m.tbl s.1 s.2).covers (flags ||| pteP) with
        | false => rfl
        | true =>
          simp only [Bool.not_true, Bool.false_eq_true, if_false]
          generalize (List.range _).any _ = b
          cases b <;> rfl

theorem checkStr_eq : checkStr m t addr siz flags =
    scan (strStep m t flags addr) false (checkCount addr siz) 0 := by
  rw [checkStr, ← page_zero]
  exact checkStrPages_eq _ 0

theorem lookup_page (addr : U64) (n : ℕ) :
    lookup m t ((addr.toNat + n) % 2^64) = lookup m t (page addr (pageOf addr n)) := by
  have hkey : key 3 ((addr.toNat + n) % 2^64) = key 3 (page addr (pageOf addr n)) := by
    unfold key page pageOf pgsize
    omega
  rw [lookup, lookup, hkey]

theorem pageOf_eq_iff : pageOf addr n = i ↔ ∃ j < pgsize - (if i = 0 then addr.toNat % pgsize else 0),
    addr.toNat % pgsize + n = i * pgsize + (if i = 0 then addr.toNat % pgsize else 0) + j := by
  have hoff : addr.toNat % pgsize < pgsize := Nat.mod_lt _ (by decide)
  unfold pageOf
  generalize addr.toNat % pgsize = o at *
  unfold pgsize at *
  constructor
  · intro h
    refine ⟨o + n - (i * 4096 + (if i = 0 then o else 0)),?_,?_⟩
    · split <;> omega
    · split <;> omega
  · rintro ⟨j,hj,hn⟩
    by_cases hi : i = 0
    · rw [if_pos hi] at hj hn
      omega
    · rw [if_neg hi] at hj hn
      omega

theorem hasNul_iff : hasNul m t addr i = true ↔ ∃ n, pageOf addr n = i ∧ strByte m t addr n = 0 := by
  have hbyte : ∀ {n j : ℕ}, pageOf addr n = i →
      addr.toNat % pgsize + n = i * pgsize + (if i = 0 then addr.toNat % pgsize else 0) + j →
      j < pgsize - (if i = 0 then addr.toNat % pgsize else 0) → strByte m t addr n =
        m.data (lookup m t (page addr i)).frame ((if i = 0 then addr.toNat % pgsize else 0) + j) := by
    intro n j hpage hn hj
    have hmod : (addr.toNat + n) % pgsize = (if i = 0 then addr.toNat % pgsize else 0) + j := by
      rw [← Nat.mod_add_mod, hn]
      unfold pgsize at *
      omega
    rw [strByte, lookup_page, hpage, hmod]
  unfold hasNul
  simp only [List.any_eq_true, List.mem_range, beq_iff_eq]
  constructor
  · rintro ⟨j,hj,hb⟩
    have hle : addr.toNat % pgsize ≤ i * pgsize + (if i = 0 then addr.toNat % pgsize else 0) + j := by
      have hoff : addr.toNat % pgsize < pgsize := Nat.mod_lt _ (by decide)
      unfold pgsize at *
      split <;> omega
    have hn := Nat.add_sub_cancel' hle
    have hpage := pageOf_eq_iff.mpr ⟨j,hj,hn⟩
    exact ⟨_,hpage,(hbyte hpage hn hj).trans hb⟩
  · rintro ⟨n,hpage,hb⟩
    obtain ⟨j,hj,hn⟩ := pageOf_eq_iff.mp hpage
    exact ⟨j,hj,(hbyte hpage hn hj).symm.trans hb⟩

/-- A string of length `n` at `addr`, all of it on pages that are granted. -/
structure Str (m : Phys) (t : ℕ) (flags : BitVec 12) (addr : U64) (n : ℕ) : Prop where
  pages : ∀ i ≤ n, granted m t flags (page addr (pageOf addr i)) = true
  text : ∀ i < n, strByte m t addr i ≠ 0
  nul : strByte m t addr n = 0

/-- Page `i` is granted and the string goes on behind it. -/
def Runs (m : Phys) (t : ℕ) (flags : BitVec 12) (addr : U64) (i : ℕ) : Prop :=
  granted m t flags (page addr i) = true ∧ hasNul m t addr i = false

theorem pageOf_mono {n n' : ℕ} (h : n ≤ n') : pageOf addr n ≤ pageOf addr n' :=
  Nat.div_le_div_right (Nat.add_le_add_left h _)

theorem exists_pageOf {n i : ℕ} (h : i ≤ pageOf addr n) : ∃ j ≤ n, pageOf addr j = i := by
  have hoff : addr.toNat % pgsize < pgsize := Nat.mod_lt _ (by decide)
  unfold pageOf at *
  generalize addr.toNat % pgsize = o at *
  unfold pgsize at *
  refine ⟨i * 4096 - o,?_,?_⟩
  · omega
  · by_cases hi : i = 0
    · subst hi
      omega
    · omega

theorem Str.runs {n i : ℕ} (h : Str m t flags addr n) (hi : i < pageOf addr n) : Runs m t flags addr i := by
  obtain ⟨j,hj,hpage⟩ := exists_pageOf hi.le
  refine ⟨hpage ▸ h.pages j hj,?_⟩
  by_contra hnul
  obtain ⟨n',hn',hb⟩ := hasNul_iff.mp (Bool.eq_true_of_not_eq_false hnul)
  refine h.text n' ?_ hb
  by_contra hle
  have : pageOf addr n ≤ pageOf addr n' := pageOf_mono (Nat.le_of_not_lt hle)
  omega

theorem Str.last {n : ℕ} (h : Str m t flags addr n) :
    granted m t flags (page addr (pageOf addr n)) = true ∧ hasNul m t addr (pageOf addr n) = true :=
  ⟨h.pages n le_rfl,hasNul_iff.mpr ⟨n,rfl,h.nul⟩⟩

theorem exists_str (hruns : ∀ j < i, Runs m t flags addr j) (hg : granted m t flags (page addr i) = true)
    (hnul : hasNul m t addr i = true) : ∃ n, pageOf addr n = i ∧ Str m t flags addr n := by
  classical
  obtain ⟨n,hn,hb⟩ := hasNul_iff.mp hnul
  have hex : ∃ n, strByte m t addr n = 0 := ⟨n,hb⟩
  have hle : Nat.find hex ≤ n := Nat.find_le hb
  have hpage : pageOf addr (Nat.find hex) = i := by
    refine le_antisymm (hn ▸ pageOf_mono hle) (Nat.le_of_not_lt fun hlt => ?_)
    have hno := (hruns _ hlt).2
    rw [hasNul_iff.mpr ⟨Nat.find hex,rfl,Nat.find_spec hex⟩] at hno
    cases hno
  refine ⟨Nat.find hex,hpage,fun j hj => ?_,fun j hj => Nat.find_min hex hj,Nat.find_spec hex⟩
  rcases (hpage ▸ pageOf_mono hj : pageOf addr j ≤ i).lt_or_eq with hlt | heq
  · exact (hruns _ hlt).1
  · rw [heq]
    exact hg

/-! ## What the checks answer -/

/-- All of the range lies below the end of the user half. -/
def InUser (addr : U64) (n : ℕ) : Prop := ∀ i < n, (addr.toNat + i) % 2^64 < userTop

theorem memStep_none : memStep m t flags addr i = .ok none ↔
    huge m (page addr i) 3 t = false ∧ granted m t flags (page addr i) = true := by
  unfold memStep
  cases huge m (page addr i) 3 t <;> cases granted m t flags (page addr i) <;> simp

theorem memStep_error (e : Fault) : memStep m t flags addr i = .error e ↔
    huge m (page addr i) 3 t = true ∧ e = .assertion := by
  unfold memStep
  cases huge m (page addr i) 3 t <;> cases granted m t flags (page addr i) <;> simp [eq_comm]

theorem strStep_none : strStep m t flags addr i = .ok none ↔
    huge m (page addr i) 3 t = false ∧ Runs m t flags addr i := by
  unfold strStep Runs
  cases huge m (page addr i) 3 t <;> cases granted m t flags (page addr i) <;>
    cases hasNul m t addr i <;> simp

theorem strStep_error (e : Fault) : strStep m t flags addr i = .error e ↔
    huge m (page addr i) 3 t = true ∧ e = .assertion := by
  unfold strStep
  cases huge m (page addr i) 3 t <;> cases granted m t flags (page addr i) <;>
    cases hasNul m t addr i <;> simp [eq_comm]

theorem strStep_true : strStep m t flags addr i = .ok (some true) ↔ huge m (page addr i) 3 t = false ∧
    granted m t flags (page addr i) = true ∧ hasNul m t addr i = true := by
  unfold strStep
  cases huge m (page addr i) 3 t <;> cases granted m t flags (page addr i) <;>
    cases hasNul m t addr i <;> simp

/-- A loop over pages that stops by failing at a large page, or goes on where `G` holds. -/
theorem returns_iff {step : ℕ → Except Fault (Option Bool)} {big : ℕ → Bool} {G : ℕ → Prop} {last : Bool}
    (hnone : ∀ i, step i = .ok none ↔ big i = false ∧ G i)
    (herror : ∀ i e, step i = .error e ↔ big i = true ∧ e = Fault.assertion) :
    (∃ b, scan step last n 0 = .ok b) ↔ ∀ i < n, (∀ j < i, G j) → big i = false := by
  rw [scan_returns]
  constructor
  · intro h i
    induction i using Nat.strong_induction_on with
    | _ i ih =>
      intro hi hG
      by_contra hbig
      have hbig' := Bool.eq_true_of_not_eq_false hbig
      have herr := (herror i _).mpr ⟨hbig',rfl⟩
      refine h i hi ⟨fun l hl => ?_,?_⟩ _ herr
      · exact (hnone l).mpr ⟨ih l hl (by omega) fun j hj => hG j (by omega),hG l hl⟩
      · rw [herr]
        nofun
  · intro h i hi hs e he
    have hbig := ((herror i e).mp he).1
    rw [h i hi fun j hj => ((hnone j).mp (hs.before j hj)).2] at hbig
    cases hbig

theorem checkMem_returns : (∃ b, checkMem m t addr siz flags = .ok b) ↔ ∀ i < checkCount addr siz,
    (∀ j < i, granted m t flags (page addr j) = true) → huge m (page addr i) 3 t = false := by
  rw [checkMem_eq]
  exact returns_iff (fun _ => memStep_none) fun _ => memStep_error

theorem checkMem_true (h : checkMem m t addr siz flags = .ok true) :
    ∀ i < checkCount addr siz, granted m t flags (page addr i) = true := by
  rw [checkMem_eq, scan_eq_ok] at h
  rcases h with ⟨j,-,hs,hj⟩ | ⟨hall,-⟩
  · unfold memStep at hj
    split at hj
    · cases hj
    · split at hj <;> cases hj
  · exact fun i hi => (memStep_none.mp (hall i hi)).2

theorem checkMem_of_granted (hr : ∃ b, checkMem m t addr siz flags = .ok b)
    (h : ∀ i < checkCount addr siz, granted m t flags (page addr i) = true) :
    checkMem m t addr siz flags = .ok true := by
  have hno := checkMem_returns.mp hr
  rw [checkMem_eq, scan_eq_ok]
  refine .inr ⟨fun i hi => memStep_none.mpr ⟨?_,h i hi⟩,rfl⟩
  exact hno i hi fun j hj => h j (by omega)

theorem checkStr_returns : (∃ b, checkStr m t addr siz flags = .ok b) ↔ ∀ i < checkCount addr siz,
    (∀ j < i, Runs m t flags addr j) → huge m (page addr i) 3 t = false := by
  rw [checkStr_eq]
  exact returns_iff (fun _ => strStep_none) fun _ => strStep_error

/-- `check_str` grants exactly the strings that end on one of the pages it may visit. -/
theorem checkStr_true (hr : ∃ b, checkStr m t addr siz flags = .ok b) :
    checkStr m t addr siz flags = .ok true ↔
      ∃ n, pageOf addr n < checkCount addr siz ∧ Str m t flags addr n := by
  have hno := checkStr_returns.mp hr
  rw [checkStr_eq, scan_eq_ok]
  constructor
  · rintro (⟨j,hj,hs,htrue⟩ | ⟨-,h⟩)
    · obtain ⟨-,hg,hnul⟩ := strStep_true.mp htrue
      obtain ⟨n,hn,hstr⟩ := exists_str (fun l hl => (strStep_none.mp (hs.before l hl)).2) hg hnul
      exact ⟨n,hn ▸ hj,hstr⟩
    · cases h
  · rintro ⟨n,hn,hstr⟩
    have hsmall : ∀ i ≤ pageOf addr n, huge m (page addr i) 3 t = false := fun i hi =>
      hno i (by omega) fun j hj => hstr.runs (by omega)
    have htrue := strStep_true.mpr ⟨hsmall _ le_rfl,hstr.last⟩
    refine .inl ⟨pageOf addr n,hn,⟨fun l hl => strStep_none.mpr ⟨hsmall l hl.le,hstr.runs hl⟩,?_⟩,htrue⟩
    rw [htrue]
    nofun

theorem Str.unique {n n' : ℕ} (h : Str m t flags addr n) (h' : Str m t flags addr n') : n = n' := by
  rcases Nat.lt_trichotomy n n' with hlt | heq | hlt
  · exact absurd h.nul (h'.text n hlt)
  · exact heq
  · exact absurd h'.nul (h.text n' hlt)

/-- For every address and size the checks answer, and refuse what is not all in the user
half, exactly when no large page is met before a page decides, and no range or string
outside the user half is granted page by page. -/
theorem pointer_checks_iff (m : Phys) (t : ℕ) (addr siz : U64) (flags : BitVec 12) :
    ((∃ b, checkMem m t addr siz flags = .ok b ∧ (¬ InUser addr siz.toNat → b = false)) ↔
      (∀ i < checkCount addr siz, (∀ j < i, granted m t flags (page addr j) = true) →
        huge m (page addr i) 3 t = false) ∧
      ((∀ i < checkCount addr siz, granted m t flags (page addr i) = true) → InUser addr siz.toNat)) ∧
    ((∃ b, checkStr m t addr siz flags = .ok b ∧
        ∀ n, Str m t flags addr n → ¬ InUser addr (n+1) → b = false) ↔
      (∀ i < checkCount addr siz, (∀ j < i, Runs m t flags addr j) → huge m (page addr i) 3 t = false) ∧
      ∀ n, Str m t flags addr n → pageOf addr n < checkCount addr siz → InUser addr (n+1)) := by
  rw [← checkMem_returns, ← checkStr_returns]
  constructor
  · constructor
    · rintro ⟨b,hb,hout⟩
      refine ⟨⟨b,hb⟩,fun hall => ?_⟩
      rw [checkMem_of_granted ⟨b,hb⟩ hall] at hb
      cases hb
      by_contra h
      cases hout h
    · rintro ⟨⟨b,hb⟩,hin⟩
      refine ⟨b,hb,fun hout => ?_⟩
      cases b with
      | false => rfl
      | true => exact absurd (hin (checkMem_true hb)) hout
  · constructor
    · rintro ⟨b,hb,hout⟩
      refine ⟨⟨b,hb⟩,fun n hn hlt => ?_⟩
      rw [(checkStr_true ⟨b,hb⟩).mpr ⟨n,hlt,hn⟩] at hb
      cases hb
      by_contra h
      cases hout n hn h
    · rintro ⟨⟨b,hb⟩,hin⟩
      refine ⟨b,hb,fun n hn hout => ?_⟩
      cases b with
      | false => rfl
      | true =>
        obtain ⟨n',hlt,hn'⟩ := (checkStr_true ⟨_,hb⟩).mp hb
        rw [hn'.unique hn] at hlt
        exact absurd (hin n hn hlt) hout

/-! ## A process table -/

/-- One gibibyte of memory and empty tables. -/
def blankPhys : Phys := ⟨fun _ _ => .zero,fun _ _ => 0,fun _ => .zero,fun _ => 0,[],0,fun _ => false,0,2^30⟩

/-- A process table at frame 600 with the kernel half of `k_pgtbl` at frame 1. -/
def halfTable : Phys := copyKernelHalf (initKpgtbl 1 0 blankPhys) 600 1

set_option maxRecDepth 20000 in
/-- The first address of the direct map trips the assertion of `walk_pgtbl`. -/
theorem check_trips_on_direct_map :
    (∀ i, 256 ≤ i → i < 512 → halfTable.tbl 600 i = halfTable.tbl 1 i) ∧
    checkMem halfTable 600 kernbase 8 (pteU ||| pteW) = .error .assertion ∧
    checkStr halfTable 600 kernbase 256 pteU = .error .assertion := by
  refine ⟨fun i hlo hhi => ?_,rfl,rfl⟩
  rw [halfTable, copyKernelHalf_eq (by decide)]
  simp [hlo, hhi]

end Ukern
