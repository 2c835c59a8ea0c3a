import Ukern.Run.Waitless
import Ukern.Run.Running
import Ukern.Memory.Fault

/-! # The program break

What a process may rely on after `sys_sbrk`, and when it gets it. The break counts bytes and
the tables map pages: the pages between the two rounded breaks are mapped anew, whatever was
there, and the page that the old break lies in is taken to be mapped.
-/
namespace Ukern
open Lib Lib.Radix
variable {fs : Fs} {k k' : Kernel} {c : Slot} {tf tf' : Context} {m m₁ m' : Phys} {kp : ℕ} {sp : Spaces}
  {extra : ℕ → ℕ} {q : Proc}

/-- The pages from `a` up to `b` were added, page `n` in the frame `frames n`. -/
structure PagesAdded (m m' : Phys) (q : Proc) (a b : ℕ) (frames : ℕ → ℕ) : Prop where
  fresh : ∀ n, a ≤ n → n < b → frames n ∈ m.free ∧ frames n ∉ m'.free
  free : ∀ x ∈ m'.free, x ∈ m.free
  entry : ∀ j < upages, Ukern.entry m' q.pgtbl j =
    if a ≤ j ∧ j < b then .full (frames j) else Ukern.entry m q.pgtbl j
  entry₂ : ∀ j < upages, Ukern.entry m' q.pPgtbl j =
    if a ≤ j ∧ j < b then .full (frames j) else Ukern.entry m q.pPgtbl j
  zero : ∀ n, a ≤ n → n < b → ∀ i, m'.data (frames n) i = 0
  data : ∀ x ∉ m.free, m'.data x = m.data x

namespace PagesAdded
variable {a b f : ℕ} {frames : ℕ → ℕ}

theorem refl (m : Phys) (q : Proc) (a : ℕ) (frames : ℕ → ℕ) : PagesAdded m m q a a frames where
  fresh n h1 h2 := absurd h1 (by omega)
  free _ hx := hx
  entry j _ := (if_neg (by omega)).symm
  entry₂ j _ := (if_neg (by omega)).symm
  zero n h1 h2 := absurd h1 (by omega)
  data _ _ := rfl

theorem update_entry (e : ℕ → Pte) (hab : a ≤ b) (j : ℕ) :
    (if j = b then Pte.full f else if a ≤ j ∧ j < b then .full (frames j) else e j) =
      if a ≤ j ∧ j < b + 1 then .full (Function.update frames b f j) else e j := by
  by_cases hj : j = b
  · rw [if_pos hj, if_pos (by omega), hj, Function.update_self]
  · rw [if_neg hj, Function.update_of_ne hj]
    exact if_congr (by omega) rfl rfl

theorem step (h : PagesAdded m m₁ q a b frames) (hab : a ≤ b) (hp : PageAdded m₁ m' q b f) :
    PagesAdded m m' q a (b+1) (Function.update frames b f) where
  fresh n h1 h2 := by
    by_cases hn : n = b
    · rw [hn, Function.update_self]
      exact ⟨h.free f hp.fresh,hp.taken⟩
    · rw [Function.update_of_ne hn]
      obtain ⟨h3,h4⟩ := h.fresh n h1 (by omega)
      exact ⟨h3,fun hx => h4 (hp.free _ hx)⟩
  free x hx := h.free x (hp.free x hx)
  entry j hj := by rw [hp.entry j hj, h.entry j hj, update_entry _ hab]
  entry₂ j hj := by rw [hp.entry₂ j hj, h.entry₂ j hj, update_entry _ hab]
  zero n h1 h2 i := by
    by_cases hn : n = b
    · rw [hn, Function.update_self, hp.zero]
    · rw [Function.update_of_ne hn, hp.data _ (h.fresh n h1 (by omega)).2, h.zero n h1 (by omega)]
  data x hx := by rw [hp.data x fun hf => hx (h.free x hf), h.data x hx]

end PagesAdded

/-- The user pages of the slots other than `c` are the same. -/
def Others (m m' : Phys) (sp : Spaces) (c : Slot) : Prop := ∀ j ≠ c, ∀ t t₂, sp j = some (t,t₂) →
  ∀ n < upages, entry m' t n = entry m t n ∧ entry m' t₂ n = entry m t₂ n

theorem sbrkLoop_spec {start n : ℕ} (h : MemInv m kp sp extra) (hs : sp c = some (q.pgtbl,q.pPgtbl))
    (hal : start % pgsize = 0) (hv : ∀ i < n, start + i * pgsize < userTop)
    (hl : (List.range n).foldlM (sbrkPage q start) m = .ok m') :
    MemInv m' kp sp extra ∧ (∃ frames, PagesAdded m m' q (start / pgsize) (start / pgsize + n) frames) ∧
      Others m m' sp c := by
  refine foldlM_range_inv (fun i s => MemInv s kp sp extra ∧
    (∃ frames, PagesAdded m s q (start / pgsize) (start / pgsize + i) frames) ∧ Others m s sp c)
    ⟨h,⟨fun _ => 0,.refl ..⟩,fun _ _ _ _ _ _ _ => ⟨rfl,rfl⟩⟩ (fun i s s' hi hinv hp => ?_) hl
  obtain ⟨hm,⟨frames,hadd⟩,hoth⟩ := hinv
  obtain ⟨hm',⟨new,hg⟩,f,hpage⟩ := sbrkPage_spec hm hs (hv i hi) hp
  have hkey : key 3 (start + i * pgsize) = start / pgsize + i := by
    have := hv i hi
    simp only [key,pgsize,userTop] at *
    omega
  rw [hkey] at hpage
  refine ⟨hm',⟨_,hadd.step (by omega) hpage⟩,fun j hj t t₂ ht n hn => ?_⟩
  have hkeep := hm.keep_other (c := c) (fun x hx hx' => hg.tbl x (fun hne => hne hx') fun hn => hx (hg.new_free hn)) hj ht
  obtain ⟨h1,h2⟩ := hoth j hj t t₂ ht n hn
  exact ⟨by rw [hkeep.1.entry hn, h1],by rw [hkeep.2.entry hn, h2]⟩

theorem roundup_mod (x : ℕ) : roundup (x % 2^64) = roundup x := by
  unfold roundup pgsize
  omega

theorem roundup_aligned (x : ℕ) : roundup x % pgsize = 0 := Nat.mul_mod_left ..

/-- The pages from the old rounded break to the new one start between the two breaks. -/
theorem roundup_between {b inc j : ℕ} (h : b + inc + pgsize ≤ 2^64) :
    (roundup b / pgsize ≤ j ∧ j < roundup b / pgsize + (roundup (b + inc) - roundup b) / pgsize) ↔
      (b ≤ j * pgsize ∧ j * pgsize < b + inc) := by
  unfold roundup pgsize at *
  omega

theorem le_roundup {x : ℕ} (h : x + pgsize ≤ 2^64) : x ≤ roundup x := by
  unfold roundup pgsize at *
  omega

/-- What a process gets from an `sys_sbrk(inc)` that returned `brk`. Every byte behind the old
break can be used, pages that were not mapped before are zero and its own, and pages that were
mapped, of any process, are as they were. -/
structure Handed (k k' : Kernel) (c : Slot) (brk inc : ℕ) : Prop where
  bytes : ∀ v, brk ≤ v → v < brk + inc → v < userTop ∧
    (lookup k'.phys (k'.procs c).pPgtbl v).covers (pteP ||| pteU ||| pteW) = true ∧
    (lookup k'.phys (k'.procs c).pgtbl v).covers (pteP ||| pteU) = true
  fresh : ∀ n < upages, (entry k.phys (k.procs c).pPgtbl n).p = false →
    (entry k'.phys (k'.procs c).pPgtbl n).p = true →
    (∀ i < pgsize, k'.phys.data (entry k'.phys (k'.procs c).pPgtbl n).frame i = 0) ∧
    ∀ j ≠ c, (k'.procs j).state ≠ .close → ∀ l < upages, (entry k'.phys (k'.procs j).pPgtbl l).p = true →
      (entry k'.phys (k'.procs j).pPgtbl l).frame ≠ (entry k'.phys (k'.procs c).pPgtbl n).frame
  kept : ∀ j, (k.procs j).state ≠ .close → ∀ n < upages, (entry k.phys (k.procs j).pPgtbl n).p = true →
    entry k'.phys (k'.procs j).pPgtbl n = entry k.phys (k.procs j).pPgtbl n ∧
    entry k'.phys (k'.procs j).pgtbl n = entry k.phys (k.procs j).pgtbl n ∧
    k'.phys.data (entry k.phys (k.procs j).pPgtbl n).frame = k.phys.data (entry k.phys (k.procs j).pPgtbl n).frame

/-- The break can move up by `inc`: it stays below `UMAX`, the page it lies in is mapped, and the
pages that start behind it are not. -/
def Movable (k : Kernel) (c : Slot) (inc : ℕ) : Prop :=
  inc = 0 ∨ (k.procs c).endUmem % 2^64 + inc < umax ∧
    ((k.procs c).endUmem % 2^64 % pgsize = 0 ∨
      (entry k.phys (k.procs c).pPgtbl ((k.procs c).endUmem % 2^64 / pgsize)).p = true) ∧
    ∀ n, (k.procs c).endUmem % 2^64 ≤ n * pgsize → n * pgsize < (k.procs c).endUmem % 2^64 + inc →
      (entry k.phys (k.procs c).pPgtbl n).p = false

/-- What `sys_sbrk` did when it did not refuse. -/
structure BreakMoved (k k' : Kernel) (c : Slot) (b inc : ℕ) (frames : ℕ → ℕ) : Prop where
  fits : roundup (b + inc) < umax
  inv : MemInv k'.phys k.kPgtbl (spaces k) (live (ends k .rpipe) (ends k .wpipe))
  added : PagesAdded k.phys k'.phys (k.procs c) (roundup b / pgsize)
    (roundup b / pgsize + (roundup (b + inc) - roundup b) / pgsize) frames
  others : Others k.phys k'.phys (spaces k) c
  tables : ∀ j, (k'.procs j).pgtbl = (k.procs j).pgtbl ∧ (k'.procs j).pPgtbl = (k.procs j).pPgtbl ∧
    (k'.procs j).state = (k.procs j).state

theorem sysSbrk_moved (h : KInv k) (hc : (k.procs c).state ≠ .close)
    (hs : sysSbrk k c tf = .ok (.ret tf' k')) (hne : tf'.rax ≠ 0) :
    tf'.rax = BitVec.ofNat 64 (k.procs c).endUmem ∧
      ∃ frames, BreakMoved k k' c ((k.procs c).endUmem % 2^64) tf.rdx.toNat frames := by
  unfold sysSbrk at hs
  simp only at hs
  split at hs
  · cases hs
    exact absurd rfl hne
  rename_i href
  obtain ⟨m,hl,hs⟩ := bind_eq_ok.mp hs
  obtain ⟨b,hb⟩ : ∃ b, b = (k.procs c).endUmem % 2^64 := ⟨_,rfl⟩
  have ho : roundup (k.procs c).endUmem = roundup b := by rw [hb, roundup_mod]
  have hn : roundup (((k.procs c).endUmem + tf.rdx.toNat) % 2^64) = roundup (b + tf.rdx.toNat) := by
    rw [← roundup_mod (b + _), hb, Nat.mod_add_mod]
  rw [ho, hn] at hl href
  have hmax : roundup (b + tf.rdx.toNat) < umax := by
    simp only [sbrkRefused,Bool.or_eq_true,decide_eq_true_eq,not_or,not_le] at href
    exact href.1
  have hv : ∀ i < (roundup (b + tf.rdx.toNat) - roundup b) / pgsize, roundup b + i * pgsize < userTop := fun i hi => by
    have hle : (i+1) * pgsize ≤ roundup (b + tf.rdx.toNat) - roundup b :=
      Nat.le_trans (Nat.mul_le_mul_right _ hi) (Nat.div_mul_le_self _ _)
    have htop : umax < userTop := by decide
    have hpos : 0 < pgsize := by decide
    rw [Nat.add_mul, Nat.one_mul] at hle
    omega
  obtain ⟨hm,⟨frames,hadd⟩,hoth⟩ := sbrkLoop_spec h.owned.mem (spaces_some hc) (roundup_aligned b) hv hl
  rw [← hb]
  cases hs
  refine ⟨rfl,frames,hmax,hm,hadd,hoth,fun j => ⟨?_,?_,?_⟩⟩
  · refine Kernel.modProc_keeps (·.pgtbl) ?_ j
    exact fun _ => rfl
  · refine Kernel.modProc_keeps (·.pPgtbl) ?_ j
    exact fun _ => rfl
  · refine Kernel.modProc_keeps (·.state) ?_ j
    exact fun _ => rfl

theorem Pte.p_of_covers {e : Pte} (h : e.covers (pteP ||| pteU ||| pteW) = true) : e.p = true := by
  have h1 := congrArg (BitVec.getLsbD · 0) (eq_of_beq h)
  simp only [BitVec.getLsbD_and] at h1
  exact (Bool.and_eq_true_iff.mp (h1.trans (by decide))).1

theorem key_page {v : ℕ} (hv : v < userTop) : key 3 v = v / pgsize := by
  unfold key userTop pgsize at *
  omega

theorem page_user {v : ℕ} (hv : v < userTop) : v / pgsize < upages := key_page hv ▸ key_user hv

section Break
variable {b inc : ℕ} {frames : ℕ → ℕ} {j : Slot} {n : ℕ}

theorem MemInv.page_mapped (h : MemInv m kp sp extra) {t t₂ : ℕ} (hs : sp j = some (t,t₂)) (hn : n < upages)
    (hp : (entry m t₂ n).p = true) : mapOf m (sp j) (entry m t₂ n).frame ≠ 0 := by
  obtain ⟨hpp,hag⟩ := (h.space j t t₂ hs).agree n hn
  rw [mapOf_some hs, ← (hag hp).1]
  exact maps_pos hn (hpp.trans hp)

theorem MemInv.page_held (h : MemInv m kp sp extra) {t t₂ : ℕ} (hs : sp j = some (t,t₂)) (hn : n < upages)
    (hp : (entry m t₂ n).p = true) : (entry m t₂ n).frame ∉ m.free := by
  have h1 := h.page_mapped hs hn hp
  have h2 := MemInv.mapOf_le m sp j (entry m t₂ n).frame
  exact h.mapped_not_free (by omega)

theorem MemInv.page_alone (h : MemInv m kp sp extra) {t t₂ u u₂ l : ℕ} (hs : sp c = some (t,t₂)) (hn : n < upages)
    (he : entry m t n = .full (frames n)) (hj : j ≠ c) (hu : sp j = some (u,u₂)) (hl : l < upages)
    (hp : (entry m u₂ l).p = true) : (entry m u₂ l).frame ≠ frames n := fun hf => by
  have h1 := h.wr c t t₂ hs n hn (by rw [he, Pte.full_p]) (by rw [he, Pte.full_w])
  have h2 := maps_pos (m := m) (t := t) hn (by rw [he, Pte.full_p])
  have h3 := h.page_mapped hu hl hp
  have h4 := MemInv.mapOf_add_le m sp hj (frames n)
  rw [he, Pte.full_frame] at h1 h2
  rw [hf] at h3
  rw [mapOf_some hs] at h4
  omega

namespace BreakMoved
variable (hm : BreakMoved k k' c b inc frames) (h : KInv k) (hc : (k.procs c).state ≠ .close)

include hm in
theorem lt_umax (hsp : b + inc + pgsize ≤ 2^64) : b + inc < umax := (le_roundup hsp).trans_lt hm.fits

include hm in
theorem old_page (hn : n < upages) (hout : ¬ (roundup b / pgsize ≤ n ∧
    n < roundup b / pgsize + (roundup (b + inc) - roundup b) / pgsize)) :
    entry k'.phys (k'.procs c).pgtbl n = entry k.phys (k.procs c).pgtbl n ∧
      entry k'.phys (k'.procs c).pPgtbl n = entry k.phys (k.procs c).pPgtbl n := by
  rw [(hm.tables c).1, (hm.tables c).2.1, hm.added.entry n hn, hm.added.entry₂ n hn, if_neg hout, if_neg hout]
  exact ⟨rfl,rfl⟩

include hm in
theorem new_page (hn : n < upages) (hin : roundup b / pgsize ≤ n ∧
    n < roundup b / pgsize + (roundup (b + inc) - roundup b) / pgsize) :
    entry k'.phys (k'.procs c).pgtbl n = .full (frames n) ∧
      entry k'.phys (k'.procs c).pPgtbl n = .full (frames n) := by
  rw [(hm.tables c).1, (hm.tables c).2.1, hm.added.entry n hn, hm.added.entry₂ n hn, if_pos hin, if_pos hin]
  exact ⟨rfl,rfl⟩

include hm h hc in
theorem movable (hb : b = (k.procs c).endUmem % 2^64) (hinc : inc < 2^63) (hh : Handed k k' c b inc) :
    Movable k c inc := by
  rw [Movable, ← hb]
  by_cases hz : inc = 0
  · exact Or.inl hz
  obtain ⟨htop,-,hcov⟩ := hh.bytes b le_rfl (by omega)
  have hsp : b + inc + pgsize ≤ 2^64 := by
    unfold userTop at htop
    unfold pgsize
    omega
  refine Or.inr ⟨hm.lt_umax hsp,?_,fun n h1 h2 => ?_⟩
  · rw [or_iff_not_imp_left]
    intro hal
    have hn := page_user htop
    rw [lookup, key_page htop] at hcov
    have hp := (Pte.covers_pu hcov).1
    have hout := hm.old_page hn (n := b / pgsize) fun hin => by
      have := ((roundup_between hsp).mp hin).1
      unfold pgsize at this hal
      omega
    have hag := (h.owned.mem.space c _ _ (spaces_some hc)).agree _ hn
    rw [← hag.1, ← hout.1]
    exact hp
  · have hn : n < upages := by
      have := hm.lt_umax hsp
      unfold umax pgsize upages at *
      omega
    have hin := (roundup_between hsp).mpr ⟨h1,h2⟩
    by_contra hp
    rw [Bool.not_eq_false] at hp
    have hk := (hh.kept c hc n hn hp).1
    rw [(hm.new_page hn hin).2] at hk
    have hf := h.owned.mem.page_held (spaces_some hc) hn hp
    rw [← hk, Pte.full_frame] at hf
    exact hf (hm.added.fresh n hin.1 hin.2).1

include hm h hc in
theorem handed (hb : b = (k.procs c).endUmem % 2^64) (hmov : Movable k c inc) : Handed k k' c b inc := by
  rw [Movable, ← hb] at hmov
  have hlive : ∀ j, (k.procs j).state ≠ .close → spaces k j = some ((k.procs j).pgtbl,(k.procs j).pPgtbl) :=
    fun j hj => spaces_some hj
  -- no page between the breaks was mapped
  have hold : ∀ n < upages, (entry k.phys (k.procs c).pPgtbl n).p = true → ¬ (roundup b / pgsize ≤ n ∧
      n < roundup b / pgsize + (roundup (b + inc) - roundup b) / pgsize) := fun n hn hp hin => by
    rcases hmov with hz | ⟨hmax,-,hfree⟩
    · rw [hz, Nat.add_zero, Nat.sub_self, Nat.zero_div] at hin
      omega
    · obtain ⟨h1,h2⟩ := (roundup_between (by unfold umax pgsize at *; omega)).mp hin
      rw [hfree n h1 h2] at hp
      cases hp
  refine ⟨fun v h1 h2 => ?_,fun n hn hp hp' => ?_,fun j hj n hn hp => ?_⟩
  · obtain hz | ⟨hmax,hin,-⟩ := hmov
    · omega
    have htop : v < userTop := by
      unfold umax at hmax
      unfold userTop
      omega
    have hn := page_user htop
    rw [lookup, lookup, key_page htop]
    refine ⟨htop,?_⟩
    by_cases hin' : roundup b / pgsize ≤ v / pgsize ∧
        v / pgsize < roundup b / pgsize + (roundup (b + inc) - roundup b) / pgsize
    · obtain ⟨e1,e2⟩ := hm.new_page hn hin'
      unfold entry at e1 e2
      rw [e1, e2]
      exact ⟨Pte.full_covers_all _,Pte.full_covers _⟩
    · -- otherwise it is the page of the old break
      obtain ⟨e1,e2⟩ := hm.old_page hn hin'
      rw [roundup_between (by unfold umax pgsize at *; omega)] at hin'
      have hpage : v / pgsize = b / pgsize ∧ b % pgsize ≠ 0 := by
        unfold pgsize at *
        omega
      have hp := hin.resolve_left hpage.2
      rw [← hpage.1] at hp
      have hag := (h.owned.mem.space c _ _ (hlive c hc)).agree _ hn
      have hcov := hag.covers_iff
      rw [hag.1, hp] at hcov
      have hfull := (hag.cases (hag.1.trans hp)).1
      unfold entry at e1 e2 hfull hcov
      rw [e1, e2, hcov, hfull]
      exact ⟨Pte.full_covers_all _,rfl⟩
  · have hin : roundup b / pgsize ≤ n ∧ n < roundup b / pgsize + (roundup (b + inc) - roundup b) / pgsize := by
      by_contra hout
      rw [(hm.old_page hn hout).2, hp] at hp'
      cases hp'
    have hpage := hm.new_page hn hin
    rw [hpage.2, Pte.full_frame]
    refine ⟨fun i _ => hm.added.zero n hin.1 hin.2 i,fun j hj hlj l hl hpl => ?_⟩
    rw [(hm.tables j).2.2] at hlj
    rw [(hm.tables j).2.1] at hpl ⊢
    rw [(hm.tables c).1] at hpage
    exact hm.inv.page_alone (hlive c hc) hn hpage.1 hj (hlive j hlj) hl hpl
  · have hheld := h.owned.mem.page_held (hlive j hj) hn hp
    refine ⟨?_,?_,hm.added.data _ hheld⟩
    · by_cases hjc : j = c
      · subst hjc
        exact (hm.old_page hn (hold n hn hp)).2
      · rw [(hm.tables j).2.1]
        exact (hm.others j hjc _ _ (hlive j hj) n hn).2
    · by_cases hjc : j = c
      · subst hjc
        exact (hm.old_page hn (hold n hn hp)).1
      · rw [(hm.tables j).1]
        exact (hm.others j hjc _ _ (hlive j hj) n hn).1

end BreakMoved
end Break

/-- An image whose only segment is empty and ends one byte into a page: `0x3FE000`, or the page of
the arguments. -/
def breakImg (args : Bool) : Img := fun _ a => .ok (match a with
  | 0 => 0x7F | 1 => 0x45 | 2 => 0x4C | 3 => 0x46 | 32 => 64 | 56 => 1 | 64 => 1
  | 80 => 0x01 | 81 => cond args 0xF0 0xE0 | 82 => 0x3F | _ => 0)

theorem breakImg_bare : Bare (breakImg false) (max · 0x3FE001) ∧ Bare (breakImg true) (max · 0x3FF001) :=
  ⟨⟨fun _ _ => rfl,fun _ => rfl⟩,⟨fun _ _ => rfl,fun _ => rfl⟩⟩

/-- With more than 500 free pages nothing that needs no page is refused. -/
theorem sbrkRefused_same {x : ℕ} (hx : x < umax) (h1 : 500 < m.nfreepages) (h2 : m.nfreepages < 2^32) :
    sbrkRefused m x x = false := by
  have hzero : (0#64 / BitVec.ofNat 64 pgsize).toNat = 0 := by decide
  simp only [sbrkRefused,BitVec.sub_self,not_le.mpr hx,decide_false,Bool.false_or,decide_eq_false_iff_not,not_le]
  rw [BitVec.toInt_eq_toNat_cond, BitVec.toInt_eq_toNat_cond, BitVec.toNat_sub, BitVec.toNat_sub, BitVec.toNat_ofNat,
    BitVec.toNat_ofNat, hzero, freepagesLowwater]
  omega

/-- The registers of `sys_sbrk(inc)`. -/
def sbrkFrame (inc : U64) : Context := { Context.zero with rdx := inc }

/-- Up to the end of its page the break moves without taking a page. -/
theorem sysSbrk_same {x : ℕ} (hb : (k.procs c).endUmem = x) (hx : x % pgsize = 1) (hmax : x + pgsize < umax)
    (h1 : 500 < k.phys.nfreepages) (h2 : k.phys.nfreepages < 2^32) :
    ∃ k', sysSbrk k c (sbrkFrame 1) = .ok (.ret { sbrkFrame 1 with rax := BitVec.ofNat 64 x } k') ∧
      k'.phys = k.phys ∧ (k'.procs c).pPgtbl = (k.procs c).pPgtbl := by
  have hround : roundup ((x + (sbrkFrame 1).rdx.toNat) % 2^64) = roundup x ∧ roundup x < umax := by
    have hrdx : (sbrkFrame 1).rdx.toNat = 1 := rfl
    rw [hrdx]
    unfold roundup umax pgsize at *
    omega
  unfold sysSbrk
  simp only [hb,hround.1]
  rw [sbrkRefused_same hround.2 h1 h2, Nat.sub_self, Nat.zero_div, List.range_zero, List.foldlM_nil]
  refine ⟨_,rfl,rfl,?_⟩
  rw [Kernel.modProc_self]
  rfl

theorem started_break (args : Bool) : ∃ m a b pwd,
    Unwaited rootFs (breakKernel m a b pwd (cond args 0x3FF001 0x3FE001)) ∧ Laid m a [] ∧ BarePages m b ∧
      500 < m.nfreepages ∧ m.nfreepages < 2^32 := by
  have hboot : ∃ m a b pwd, Started rootFs (breakKernel m a b pwd (cond args 0x3FF001 0x3FE001)) ∧
      Laid m a [] ∧ BarePages m b ∧ 3 ≤ copyCost m b ∧ copyCost m b ≤ 8 ∧ 600 = 10 + copyCost m b + m.free.length := by
    cases args with
    | false => exact started_bare breakImg_bare.1 rootFs_opens (by decide)
    | true => exact started_bare breakImg_bare.2 rootFs_opens (by decide)
  obtain ⟨m,a,b,pwd,hs,hlaid,hpages,hlow,hhigh,hN⟩ := hboot
  have hu : Unwaited rootFs (breakKernel m a b pwd (cond args 0x3FF001 0x3FE001)) := ⟨_,hs,.refl⟩
  have hlen : m.nfreepages = m.free.length := hu.inv.owned.mem.acct.count
  exact ⟨m,a,b,pwd,hu,hlaid,hpages,by omega,by omega⟩

/-- `(n_pgend - o_pgend) / PGSIZE` of `sys_sbrk`. -/
def sbrkPages (k : Kernel) (c : Slot) (tf : Context) : ℕ :=
  (roundup (((k.procs c).endUmem + tf.rdx.toNat) % 2^64) + 2^64 - roundup (k.procs c).endUmem) % 2^64 / pgsize

def sbrkPasses (k : Kernel) (c : Slot) (tf : Context) : Prop :=
  sbrkRefused k.phys (roundup (k.procs c).endUmem) (roundup (((k.procs c).endUmem + tf.rdx.toNat) % 2^64)) = false

/-- What passes leaves the reserve, and what does not pass changes nothing. -/
structure SbrkSound (k : Kernel) (c : Slot) (tf : Context) : Prop where
  reserve : sbrkPasses k c tf → sbrkPages k c tf + freepagesLowwater ≤ k.phys.nfreepages
  refused : ¬ sbrkPasses k c tf → sysSbrk k c tf = .ok (.ret { tf with rax := 0 } k)

/-- The request ends below `UMAX`, asks for more than the free pages less the reserve, and leaves the
reserve of twice the free pages. -/
def CountedTwice (k : Kernel) (c : Slot) (tf : Context) : Prop :=
  roundup (((k.procs c).endUmem + tf.rdx.toNat) % 2^64) < umax ∧
    k.phys.nfreepages < sbrkPages k c tf + freepagesLowwater ∧
    sbrkPages k c tf + freepagesLowwater < 2 * k.phys.nfreepages

theorem roundup_lt (x : ℕ) : roundup x < 2^64 := by
  unfold roundup pgsize
  omega

theorem sbrkPages_lt (k : Kernel) (c : Slot) (tf : Context) : sbrkPages k c tf < 2^52 := by
  unfold sbrkPages pgsize
  omega

theorem sbrkPages_eq (k : Kernel) (c : Slot) (tf : Context) :
    ((BitVec.ofNat 64 (roundup (((k.procs c).endUmem + tf.rdx.toNat) % 2^64)) -
      BitVec.ofNat 64 (roundup (k.procs c).endUmem)) / BitVec.ofNat 64 pgsize).toNat = sbrkPages k c tf := by
  have ho := roundup_lt (k.procs c).endUmem
  have hn := roundup_lt (((k.procs c).endUmem + tf.rdx.toNat) % 2^64)
  rw [BitVec.toNat_udiv, BitVec.toNat_sub, BitVec.toNat_ofNat, BitVec.toNat_ofNat,
    show (BitVec.ofNat 64 pgsize).toNat = pgsize from rfl, Nat.mod_eq_of_lt ho, Nat.mod_eq_of_lt hn, sbrkPages]
  congr 2
  omega

theorem sbrkPasses_iff (hfree : k.phys.nfreepages ≤ 2^63) : sbrkPasses k c tf ↔
    roundup (((k.procs c).endUmem + tf.rdx.toNat) % 2^64) < umax ∧
      sbrkPages k c tf + freepagesLowwater < 2 * k.phys.nfreepages := by
  have hp := sbrkPages_lt k c tf
  have hlow : (BitVec.ofNat 64 k.phys.nfreepages - BitVec.ofNat 64 freepagesLowwater).toInt =
      (k.phys.nfreepages : ℤ) - freepagesLowwater := by
    rw [BitVec.toInt_eq_toNat_cond, BitVec.toNat_sub, BitVec.toNat_ofNat, BitVec.toNat_ofNat]
    unfold freepagesLowwater
    omega
  have hnew : ∀ x : U64, x.toNat = sbrkPages k c tf →
      (x - BitVec.ofNat 64 k.phys.nfreepages).toInt = (sbrkPages k c tf : ℤ) - k.phys.nfreepages := fun x hx => by
    rw [BitVec.toInt_eq_toNat_cond, BitVec.toNat_sub, BitVec.toNat_ofNat, hx]
    omega
  simp only [sbrkPasses,sbrkRefused,hlow,hnew _ (sbrkPages_eq k c tf),Bool.or_eq_false_iff,decide_eq_false_iff_not,
    not_le]
  omega

theorem sysSbrk_refused (h : ¬ sbrkPasses k c tf) : sysSbrk k c tf = .ok (.ret { tf with rax := 0 } k) := by
  unfold sysSbrk
  dsimp only
  rw [if_pos (by simpa [sbrkPasses] using h)]
  rfl

/-- Each page that the loop maps takes at least one page off the free list. -/
theorem sbrkLoop_length {start n : ℕ} (h : MemInv m kp sp extra) (hs : sp c = some (q.pgtbl,q.pPgtbl))
    (hv : ∀ i < n, start + i * pgsize < userTop) (hl : (List.range n).foldlM (sbrkPage q start) m = .ok m') :
    m'.free.length + n ≤ m.free.length := by
  have hloop : MemInv m' kp sp extra ∧ m'.free.length + n ≤ m.free.length := by
    refine foldlM_range_inv (fun i s => MemInv s kp sp extra ∧ s.free.length + i ≤ m.free.length) ⟨h,le_rfl⟩
      (fun i s s' hi hinv hp => ?_) hl
    obtain ⟨hm,hlen⟩ := hinv
    obtain ⟨hm',⟨new,hg⟩,f,hpage⟩ := sbrkPage_spec hm hs (hv i hi) hp
    have hne : new ≠ [] := by
      rintro rfl
      have hf := hpage.fresh
      rw [hg.free] at hf
      exact hpage.taken hf
    have hlen' : s.free.length = new.length + s'.free.length := by rw [hg.free, List.length_append]
    have := List.length_pos_of_ne_nil hne
    exact ⟨hm',by omega⟩
  exact hloop.2

/-- The registers of a request for 2500 pages. -/
def greedyFrame : Context := sbrkFrame (BitVec.ofNat 64 (2500 * 4096))

end Ukern
