import Ukern.Kernel.Boot
import Ukern.Kernel.Access
import Ukern.Lib.Fold
import Ukern.Memory.Check

/-! # The kernel's own page table

`init_kpgtbl` clears the PML4, the PDPTs behind it and the two tables of the stack, and stores four
kinds of entries: the PDPTs, the pages of 1 GiB at two addresses each, and the way to the stack. A page
of 1 GiB goes to a place that its number alone gives, so no store meets another one.
-/
namespace Ukern
open Lib
variable {m : Phys} {kPgtbl kstack : ℕ}

/-- One past the kernel stack. -/
def kstackEnd : ℕ := 0xFFFFFFFFFFFFF000

/-- The entries that a walk of the MMU reads. -/
def mmuEntries (m : Phys) (v : ℕ) : ℕ → ℕ → List Pte
  | 0, t => [m.tbl t (tblIndex 0 v)]
  | l+1, t =>
    let e := m.tbl t (tblIndex (l+1) v)
    if !e.p ∨ (l < 2 ∧ e.ps) then [e] else e :: mmuEntries m v l e.frame

/-- The tables below a PML4, with their levels. -/
inductive TableOf (m : Phys) (root : ℕ) : ℕ → ℕ → Prop
  | root : TableOf m root 3 root
  | next {l t i : ℕ} (h : TableOf m root (l+1) t) (hi : i < 512) (hp : (m.tbl t i).p = true)
      (hps : ¬ (l < 2 ∧ (m.tbl t i).ps = true)) : TableOf m root l (m.tbl t i).frame

theorem Phys.setEntry_apply (m : Phys) (t i : ℕ) (e : Pte) (x j : ℕ) :
    (m.setEntry t i e).tbl x j = if x = t ∧ j = i then e else m.tbl x j := by
  by_cases hx : x = t
  · rw [hx, Phys.setEntry_tbl_self]
    by_cases hj : j = i
    · rw [if_pos ⟨rfl,hj⟩, hj, Function.update_self]
    · rw [if_neg fun h => hj h.2, Function.update_of_ne hj]
  · rw [Phys.setEntry_tbl_ne hx, if_neg fun h => hx h.1]

/-! ## Where a page of 1 GiB goes -/

/-- The entry of page `g`. -/
def gibEntry (g : ℕ) : Pte := ⟨g * 2^18,pteP ||| pdePS ||| pteW⟩

theorem kernbase_or {n : ℕ} (h : n < 2^46) : (kernbase ||| BitVec.ofNat 64 n).toNat = 0xFFFF800000000000 + n := by
  have hn : (BitVec.ofNat 64 n).toNat = n := by
    rw [BitVec.toNat_ofNat]
    exact Nat.mod_eq_of_lt (by omega)
  have hbase : kernbase.toNat = 2^47 * 0x1FFFF := by decide
  have hor : 2^47 * 0x1FFFF + n = 2^47 * 0x1FFFF ||| n := Nat.two_pow_add_eq_or_of_lt (by omega) _
  rw [BitVec.toNat_or, hn, hbase, ← hor]
  norm_num

theorem tblIndex_low {a : ℕ} (h : a < 2^46) :
    tblIndex 3 a = a / 0x40000000 / 512 ∧ tblIndex 2 a = a / 0x40000000 % 512 := by
  unfold tblIndex pgsize
  omega

theorem tblIndex_high {a : ℕ} (h : a < 2^46) :
    tblIndex 3 (0xFFFF800000000000 + a) = 256 + a / 0x40000000 / 512 ∧
      tblIndex 2 (0xFFFF800000000000 + a) = a / 0x40000000 % 512 := by
  unfold tblIndex pgsize
  omega

theorem mapDirect_eq {g : ℕ} (hg : g < 2^16) : mapDirect kPgtbl m g =
    (m.setEntry (kPgtbl + 1 + g / 512) (g % 512) (gibEntry g)).setEntry (kPgtbl + 257 + g / 512) (g % 512)
      (gibEntry g) := by
  have hlt : g * 0x40000000 < 2^46 := by omega
  have haddr : (BitVec.ofNat 64 (g * 0x40000000)).toNat = g * 0x40000000 := by
    rw [BitVec.toNat_ofNat]
    exact Nat.mod_eq_of_lt (by omega)
  have hdiv : g * 0x40000000 / 0x40000000 = g := Nat.mul_div_cancel g (by decide)
  have hframe : g * 0x40000000 / pgsize = g * 2^18 := by
    unfold pgsize
    omega
  obtain ⟨hlow3,hlow2⟩ := tblIndex_low hlt
  obtain ⟨hhigh3,hhigh2⟩ := tblIndex_high hlt
  unfold mapDirect regKpgtbl1Gpage gibEntry
  dsimp only
  rw [haddr, kernbase_or hlt, hlow3, hlow2, hhigh3, hhigh2, hdiv, hframe, ← Nat.add_assoc]

/-- The loop over physical memory: page `g` is at its two places, and there only. -/
theorem foldl_mapDirect (kPgtbl : ℕ) (m : Phys) {n : ℕ} (hn : n ≤ 2^16) :
    (∀ g < n, ((List.range n).foldl (mapDirect kPgtbl) m).tbl (kPgtbl + 1 + g / 512) (g % 512) = gibEntry g ∧
      ((List.range n).foldl (mapDirect kPgtbl) m).tbl (kPgtbl + 257 + g / 512) (g % 512) = gibEntry g) ∧
    ∀ t i, (t ≤ kPgtbl ∨ kPgtbl + 385 ≤ t) → ((List.range n).foldl (mapDirect kPgtbl) m).tbl t i = m.tbl t i := by
  refine foldl_range_inv (fun n (m' : Phys) => (∀ g < n, m'.tbl (kPgtbl + 1 + g / 512) (g % 512) = gibEntry g ∧
    m'.tbl (kPgtbl + 257 + g / 512) (g % 512) = gibEntry g) ∧
      ∀ t i, (t ≤ kPgtbl ∨ kPgtbl + 385 ≤ t) → m'.tbl t i = m.tbl t i) ⟨nofun,fun _ _ _ => rfl⟩ ?_
  rintro g' m' hg' ⟨hin,hout⟩
  have hg16 : g' < 2^16 := by omega
  rw [mapDirect_eq hg16]
  simp only [Phys.setEntry_apply]
  constructor
  · intro g hg
    -- the number of a page is its row and its place in it
    rcases Nat.lt_succ_iff_lt_or_eq.mp hg with hg | rfl
    · obtain ⟨hlow,hhigh⟩ := hin g hg
      rw [hlow, hhigh]
      constructor
      · rw [if_neg (by omega), if_neg (by omega)]
      · rw [if_neg (by omega), if_neg (by omega)]
    · constructor
      · rw [if_neg (by omega), if_pos ⟨rfl,rfl⟩]
      · rw [if_pos ⟨rfl,rfl⟩]
  · intro t i ht
    rw [if_neg (by omega), if_neg (by omega)]
    exact hout t i ht

/-! ## What the tables hold -/

/-- The rights of all entries that lead somewhere. -/
def pteKernel : BitVec 12 := pteP ||| pteW

/-- An entry that is present and writable, and not for user code. -/
structure Pte.KernelOnly (e : Pte) : Prop where
  p : e.p = true
  w : e.w = true
  u : e.u = false

theorem pteKernel_only (f : ℕ) : (⟨f,pteKernel⟩ : Pte).KernelOnly := by
  constructor
  · show pteKernel.getLsbD 0 = true
    decide
  · show pteKernel.getLsbD 1 = true
    decide
  · show pteKernel.getLsbD 2 = false
    decide

theorem pteKernel_ps (f : ℕ) : (⟨f,pteKernel⟩ : Pte).ps = false := by
  show pteKernel.getLsbD 7 = false
  decide

theorem gibEntry_only (g : ℕ) : (gibEntry g).KernelOnly := by
  constructor
  · show (pteP ||| pdePS ||| pteW).getLsbD 0 = true
    decide
  · show (pteP ||| pdePS ||| pteW).getLsbD 1 = true
    decide
  · show (pteP ||| pdePS ||| pteW).getLsbD 2 = false
    decide

theorem gibEntry_ps (g : ℕ) : (gibEntry g).ps = true := by
  show (pteP ||| pdePS ||| pteW).getLsbD 7 = true
  decide

/-- An entry at place `i` of table `t` is not for user code, and leads to a table of the next level, if
it does not map anything itself. -/
structure TableEntry (kPgtbl t i : ℕ) (e : Pte) : Prop where
  user : e.u = false
  pml4 : t = kPgtbl → e.p = true → e.frame = kPgtbl + 1 + i
  pdpt : kPgtbl < t → t ≤ kPgtbl + 512 → e.p = true → e.ps = true ∨ e.frame = kPgtbl + 513
  pd : t = kPgtbl + 513 → e.p = true → e.frame = kPgtbl + 514

/-- All entries are of this kind. -/
def TableEntries (m : Phys) (kPgtbl : ℕ) : Prop :=
  ∀ t i, kPgtbl ≤ t → t < kPgtbl + 515 → TableEntry kPgtbl t i (m.tbl t i)

theorem TableEntries.setEntry (h : TableEntries m kPgtbl) {t i : ℕ} {e : Pte} (he : TableEntry kPgtbl t i e) :
    TableEntries (m.setEntry t i e) kPgtbl := by
  intro t' i' hlo hhi
  rw [Phys.setEntry_apply]
  split
  · rename_i hti
    rw [hti.1, hti.2]
    exact he
  · exact h t' i' hlo hhi

theorem tableEntries_clear (kPgtbl : ℕ) (m : Phys) : TableEntries (clearKpgtbl kPgtbl m) kPgtbl := by
  intro t i hlo hhi
  have hzero : (clearKpgtbl kPgtbl m).tbl t i = .zero := if_pos ⟨hlo,hhi⟩
  rw [hzero]
  exact ⟨rfl,fun _ => nofun,fun _ _ => nofun,fun _ => nofun⟩

theorem tableEntry_gib {t i g : ℕ} (hlo : kPgtbl < t) (hhi : t ≤ kPgtbl + 512) : TableEntry kPgtbl t i (gibEntry g) :=
  ⟨(gibEntry_only g).u,fun ht => absurd ht hlo.ne',fun _ _ _ => .inl (gibEntry_ps g),
    fun ht => absurd ht (by omega)⟩

theorem TableEntries.mapDirect (h : TableEntries m kPgtbl) {n : ℕ} (hn : n ≤ 2^16) :
    TableEntries ((List.range n).foldl (mapDirect kPgtbl) m) kPgtbl := by
  refine foldl_range_inv (fun _ m => TableEntries m kPgtbl) h fun g m hg h => ?_
  rw [mapDirect_eq (by omega)]
  refine (h.setEntry ?_).setEntry ?_
  · exact tableEntry_gib (by omega) (by omega)
  · exact tableEntry_gib (by omega) (by omega)

/-- The kernel's table: the PDPTs, `n` pages of 1 GiB at two places each, and the stack. -/
structure KernelTable (kPgtbl kstack n : ℕ) (m : Phys) : Prop where
  pml4 : ∀ i < 512, m.tbl kPgtbl i = ⟨kPgtbl + 1 + i,pteKernel⟩
  low : ∀ g < n, m.tbl (kPgtbl + 1 + g / 512) (g % 512) = gibEntry g
  high : ∀ g < n, m.tbl (kPgtbl + 257 + g / 512) (g % 512) = gibEntry g
  pdpt : m.tbl (kPgtbl + 512) 511 = ⟨kPgtbl + 513,pteKernel⟩
  pd : m.tbl (kPgtbl + 513) 511 = ⟨kPgtbl + 514,pteKernel⟩
  pt : m.tbl (kPgtbl + 514) 510 = ⟨kstack,pteKernel⟩
  entries : TableEntries m kPgtbl

/-- The number of pages of 1 GiB that the loop over physical memory registers. -/
def gibPages (m : Phys) : ℕ := (m.maxAddr + 0x3FFFFFFF) / 0x40000000

def fillPml4 (kPgtbl : ℕ) (m : Phys) : Phys :=
  (List.range 512).foldl (fun m i => m.setEntry kPgtbl i ⟨kPgtbl + 1 + i,pteKernel⟩) m

theorem fillPml4_spec (h : TableEntries m kPgtbl) : (∀ i < 512, (fillPml4 kPgtbl m).tbl kPgtbl i =
      ⟨kPgtbl + 1 + i,pteKernel⟩) ∧ (fillPml4 kPgtbl m).maxAddr = m.maxAddr ∧ TableEntries (fillPml4 kPgtbl m) kPgtbl := by
  have hloop : ∀ n, (∀ i < n, ((List.range n).foldl (fun m i => m.setEntry kPgtbl i ⟨kPgtbl + 1 + i,pteKernel⟩) m).tbl
      kPgtbl i = ⟨kPgtbl + 1 + i,pteKernel⟩) ∧
      ((List.range n).foldl (fun m i => m.setEntry kPgtbl i ⟨kPgtbl + 1 + i,pteKernel⟩) m).maxAddr = m.maxAddr ∧
      TableEntries ((List.range n).foldl (fun m i => m.setEntry kPgtbl i ⟨kPgtbl + 1 + i,pteKernel⟩) m) kPgtbl := by
    intro n
    refine foldl_range_inv (fun n (m' : Phys) => (∀ i < n, m'.tbl kPgtbl i = ⟨kPgtbl + 1 + i,pteKernel⟩) ∧
      m'.maxAddr = m.maxAddr ∧ TableEntries m' kPgtbl) ⟨nofun,rfl,h⟩ ?_
    rintro n m' - ⟨hin,hmax,hent⟩
    refine ⟨fun i hi => ?_,hmax,hent.setEntry ?_⟩
    · rw [Phys.setEntry_apply]
      rcases Nat.lt_succ_iff_lt_or_eq.mp hi with hi | rfl
      · rw [if_neg fun he => hi.ne he.2, hin i hi]
      · rw [if_pos ⟨rfl,rfl⟩]
    · exact ⟨(pteKernel_only _).u,fun _ _ => rfl,fun hlo => absurd rfl hlo.ne',fun ht => absurd ht (by omega)⟩
  unfold fillPml4
  exact hloop 512

theorem initKpgtbl_table (kPgtbl kstack : ℕ) (hmax : m.maxAddr ≤ 2^46) :
    KernelTable kPgtbl kstack (gibPages m) (initKpgtbl kPgtbl kstack m) := by
  have hn : gibPages m ≤ 2^16 := by
    unfold gibPages
    omega
  obtain ⟨hpml4,hkeep,hent⟩ := fillPml4_spec (tableEntries_clear kPgtbl m)
  have hcount : gibPages (fillPml4 kPgtbl (clearKpgtbl kPgtbl m)) = gibPages m := by
    rw [gibPages, hkeep]
    rfl
  obtain ⟨hgib,hrest⟩ := foldl_mapDirect kPgtbl (fillPml4 kPgtbl (clearKpgtbl kPgtbl m)) hn
  have hdirect := hent.mapDirect hn
  have heq : initKpgtbl kPgtbl kstack m = (((((List.range (gibPages m)).foldl (mapDirect kPgtbl)
      (fillPml4 kPgtbl (clearKpgtbl kPgtbl m))).setEntry (kPgtbl + 512) 511 ⟨kPgtbl + 513,pteKernel⟩).setEntry
        (kPgtbl + 513) 511 ⟨kPgtbl + 514,pteKernel⟩).setEntry (kPgtbl + 514) 510 ⟨kstack,pteKernel⟩) := by
    rw [← hcount]
    rfl
  rw [heq]
  generalize (List.range (gibPages m)).foldl (mapDirect kPgtbl) (fillPml4 kPgtbl (clearKpgtbl kPgtbl m)) = m₁ at *
  refine ⟨?_,?_,?_,?_,?_,?_,?_⟩
  · intro i hi
    simp only [Phys.setEntry_apply]
    rw [if_neg (by omega), if_neg (by omega), if_neg (by omega), hrest _ _ (.inl le_rfl)]
    exact hpml4 i hi
  · intro g hg
    simp only [Phys.setEntry_apply]
    rw [if_neg (by omega), if_neg (by omega), if_neg (by omega)]
    exact (hgib g hg).1
  · intro g hg
    simp only [Phys.setEntry_apply]
    rw [if_neg (by omega), if_neg (by omega), if_neg (by omega)]
    exact (hgib g hg).2
  · rw [Phys.setEntry_apply, if_neg (by omega), Phys.setEntry_apply, if_neg (by omega), Phys.setEntry_apply,
      if_pos ⟨rfl,rfl⟩]
  · rw [Phys.setEntry_apply, if_neg (by omega), Phys.setEntry_apply, if_pos ⟨rfl,rfl⟩]
  · rw [Phys.setEntry_apply, if_pos ⟨rfl,rfl⟩]
  · refine ((hdirect.setEntry ?_).setEntry ?_).setEntry ?_
    · exact ⟨(pteKernel_only _).u,fun ht => absurd ht (by omega),fun _ _ _ => .inr rfl,fun ht => absurd ht (by omega)⟩
    · exact ⟨(pteKernel_only _).u,fun ht => absurd ht (by omega),fun _ hhi => absurd hhi (by omega),fun _ _ => rfl⟩
    · exact ⟨(pteKernel_only _).u,fun ht => absurd ht (by omega),fun _ hhi => absurd hhi (by omega),
        fun ht => absurd ht (by omega)⟩

/-! ## What the MMU makes of them -/

/-- Address `v` leads to `pa`, through entries for the kernel only. -/
structure MapsTo (m : Phys) (l t v pa : ℕ) : Prop where
  address : mmuWalk m v l t = some pa
  entries : ∀ e ∈ mmuEntries m v l t, e.KernelOnly

theorem MapsTo.step {l t v pa f : ℕ} (he : m.tbl t (tblIndex (l+1) v) = ⟨f,pteKernel⟩) (h : MapsTo m l f v pa) :
    MapsTo m (l+1) t v pa := by
  constructor
  · rw [mmuWalk, he]
    dsimp only
    rw [(pteKernel_only f).p, pteKernel_ps, if_neg (by decide), if_neg (by simp)]
    exact h.address
  · rw [mmuEntries, he]
    dsimp only
    rw [(pteKernel_only f).p, pteKernel_ps, if_neg (by simp)]
    intro e hmem
    rcases List.mem_cons.mp hmem with rfl | hmem
    · exact pteKernel_only f
    · exact h.entries e hmem

theorem mapsTo_gib {t v g : ℕ} (he : m.tbl t (tblIndex 2 v) = gibEntry g) :
    MapsTo m 2 t v (g * 0x40000000 + v % 0x40000000) := by
  have hframe : (gibEntry g).frame = g * 2^18 := rfl
  have hpa : (gibEntry g).frame * pgsize + v % (pgsize * 512^(1+1)) = g * 0x40000000 + v % 0x40000000 := by
    rw [hframe]
    unfold pgsize
    omega
  constructor
  · rw [mmuWalk, he, (gibEntry_only g).p, gibEntry_ps, if_neg (by decide), if_pos ⟨by decide,rfl⟩, hpa]
  · rw [mmuEntries, he, (gibEntry_only g).p, gibEntry_ps, if_pos (.inr ⟨by decide,rfl⟩)]
    intro e hmem
    rw [List.mem_singleton.mp hmem]
    exact gibEntry_only g

theorem mapsTo_page {t v f : ℕ} (he : m.tbl t (tblIndex 0 v) = ⟨f,pteKernel⟩) :
    MapsTo m 0 t v (f * pgsize + v % pgsize) := by
  constructor
  · rw [mmuWalk, he]
    dsimp only
    rw [if_pos (pteKernel_only f).p]
  · rw [mmuEntries, he]
    intro e hmem
    rw [List.mem_singleton.mp hmem]
    exact pteKernel_only f

variable {n : ℕ}

theorem KernelTable.maps_low (h : KernelTable kPgtbl kstack n m) {pa : ℕ} (hpa : pa < 2^46)
    (hg : pa / 0x40000000 < n) :
    MapsTo m 3 kPgtbl pa pa := by
  obtain ⟨h3,h2⟩ := tblIndex_low hpa
  have hgib := h.low _ hg
  rw [← h3, ← h2] at hgib
  have hmap := mapsTo_gib hgib
  rw [Nat.mul_comm, Nat.div_add_mod] at hmap
  exact hmap.step (h.pml4 _ (Nat.mod_lt _ (by decide)))

theorem KernelTable.maps_high (h : KernelTable kPgtbl kstack n m) {pa : ℕ} (hpa : pa < 2^46)
    (hg : pa / 0x40000000 < n) :
    MapsTo m 3 kPgtbl (0xFFFF800000000000 + pa) pa := by
  obtain ⟨h3,h2⟩ := tblIndex_high hpa
  have hgib := h.high _ hg
  have hrow : kPgtbl + 257 + pa / 0x40000000 / 512 = kPgtbl + 1 + tblIndex 3 (0xFFFF800000000000 + pa) := by
    rw [h3]
    omega
  rw [hrow, ← h2] at hgib
  have hmap := mapsTo_gib hgib
  have hoff : pa / 0x40000000 * 0x40000000 + (0xFFFF800000000000 + pa) % 0x40000000 = pa := by omega
  rw [hoff] at hmap
  exact hmap.step (h.pml4 _ (Nat.mod_lt _ (by decide)))

theorem KernelTable.maps_stack (h : KernelTable kPgtbl kstack n m) {v : ℕ} (hlo : kstackEnd - 4096 ≤ v)
    (hhi : v < kstackEnd) :
    MapsTo m 3 kPgtbl v (kstack * pgsize + v % pgsize) := by
  unfold kstackEnd at hlo hhi
  have h3 : tblIndex 3 v = 511 := by
    unfold tblIndex pgsize
    omega
  have h2 : tblIndex 2 v = 511 := by
    unfold tblIndex pgsize
    omega
  have h1 : tblIndex 1 v = 511 := by
    unfold tblIndex pgsize
    omega
  have h0 : tblIndex 0 v = 510 := by
    unfold tblIndex pgsize
    omega
  have hpage : MapsTo m 0 (kPgtbl + 514) v (kstack * pgsize + v % pgsize) := mapsTo_page (by rw [h0]; exact h.pt)
  have hpd : MapsTo m 1 (kPgtbl + 513) v (kstack * pgsize + v % pgsize) := hpage.step (by rw [h1]; exact h.pd)
  have hpdpt : MapsTo m 2 (kPgtbl + 512) v (kstack * pgsize + v % pgsize) := hpd.step (by rw [h2]; exact h.pdpt)
  exact hpdpt.step (by rw [h3]; exact h.pml4 511 (by decide))

/-- The tables below the kernel's PML4 are those that were laid out. -/
theorem KernelTable.tables (h : KernelTable kPgtbl kstack n m) {l t : ℕ} (ht : TableOf m kPgtbl l t) :
    (l = 3 ∧ t = kPgtbl) ∨ (l = 2 ∧ kPgtbl < t ∧ t ≤ kPgtbl + 512) ∨ (l = 1 ∧ t = kPgtbl + 513) ∨
      (l = 0 ∧ t = kPgtbl + 514) := by
  induction ht with
  | root => exact .inl ⟨rfl,rfl⟩
  | @next l t i _ hi hp hps ih =>
    rcases ih with ⟨hl,rfl⟩ | ⟨hl,hlo,hhi⟩ | ⟨hl,rfl⟩ | ⟨hl,-⟩
    · have hf := (h.entries t i le_rfl (by omega)).pml4 rfl hp
      exact .inr (.inl ⟨by omega,by omega,by omega⟩)
    · rcases (h.entries t i hlo.le (by omega)).pdpt hlo hhi hp with hbig | hf
      · exact absurd ⟨by omega,hbig⟩ hps
      · exact .inr (.inr (.inl ⟨by omega,hf⟩))
    · have hf := (h.entries _ i (by omega) (by omega)).pd rfl hp
      exact .inr (.inr (.inr ⟨by omega,hf⟩))
    · exact absurd hl (by omega)

theorem KernelTable.user (h : KernelTable kPgtbl kstack n m) {l t : ℕ} (ht : TableOf m kPgtbl l t) (i : ℕ) :
    (m.tbl t i).u = false := by
  rcases h.tables ht with ⟨-,rfl⟩ | ⟨-,hlo,hhi⟩ | ⟨-,rfl⟩ | ⟨-,rfl⟩
  · exact (h.entries _ i le_rfl (by omega)).user
  · exact (h.entries _ i hlo.le (by omega)).user
  · exact (h.entries _ i (by omega) (by omega)).user
  · exact (h.entries _ i (by omega) (by omega)).user

/-- After `init_kpgtbl` all of physical memory is where it is, and at `KERNBASE`, the stack is where the
kernel expects it, and nothing is for user code. -/
theorem kernel_direct_map (kPgtbl kstack : ℕ) (m : Phys) (hmax : m.maxAddr ≤ 2^46) :
    (∀ pa < m.maxAddr, MapsTo (initKpgtbl kPgtbl kstack m) 3 kPgtbl pa pa ∧
      MapsTo (initKpgtbl kPgtbl kstack m) 3 kPgtbl (kernbase ||| BitVec.ofNat 64 pa).toNat pa) ∧
    (∀ v, kstackEnd - 4096 ≤ v → v < kstackEnd →
      MapsTo (initKpgtbl kPgtbl kstack m) 3 kPgtbl v (kstack * pgsize + v % pgsize)) ∧
    ∀ l t i, TableOf (initKpgtbl kPgtbl kstack m) kPgtbl l t → ((initKpgtbl kPgtbl kstack m).tbl t i).u = false := by
  have h := initKpgtbl_table kPgtbl kstack hmax
  refine ⟨fun pa hpa => ?_,fun v hlo hhi => h.maps_stack hlo hhi,fun l t i ht => h.user ht i⟩
  have hlt : pa < 2^46 := by omega
  have hg : pa / 0x40000000 < gibPages m := by
    unfold gibPages
    omega
  refine ⟨h.maps_low hlt hg,?_⟩
  rw [kernbase_or hlt]
  exact h.maps_high hlt hg

/-- The last byte of one gibibyte. -/
theorem kernel_direct_map_blank : blankPhys.maxAddr ≤ 2^46 ∧
    MapsTo (initKpgtbl 1 600 blankPhys) 3 1 0x3FFFFFFF 0x3FFFFFFF :=
  ⟨by decide,((kernel_direct_map 1 600 blankPhys (by decide)).1 0x3FFFFFFF (by decide)).1⟩

end Ukern
