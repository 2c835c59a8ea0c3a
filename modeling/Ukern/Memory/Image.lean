import Ukern.Memory.KernelTable
import Ukern.Kernel.Exec

/-! # Disk blocks and the image area

`sata_read_block` and `sys_exec` map pages below `k_pgtbl`: a block keeps its page, an
image gives its pages back at `free_img`.
-/
namespace Ukern
open Lib Lib.Radix
variable {m m' m₁ m₂ : Phys} {kp n p i v pg : ℕ} {sp : Spaces} {extra : ℕ → ℕ} {e : Pte} {new : List ℕ}

theorem Pte.u_kernel (pg : ℕ) : (⟨pg,pteP⟩ : Pte).u = false := by
  change pteP.getLsbD 2 = false
  decide

theorem Pte.p_kernel (pg : ℕ) : (⟨pg,pteP⟩ : Pte).p = true := by
  change pteP.getLsbD 0 = true
  decide

theorem Phys.setEntry_same (t i : ℕ) : m.setEntry t i (m.tbl t i) = m := by
  simp [Phys.setEntry]

theorem Extended.of_slot {w t : ℕ} (ht : Table m w t) (hne : m.free ≠ []) (hn : n < w * 512^3)
    (hslot : slotOf Pte.link 512 m.tbl 3 t n = some (p,i)) : Extended m (m.setEntry p i e) w t n e [] := by
  obtain ⟨h1,h2,h3⟩ := slotOf_update (z := Pte.zero) (by decide) hn ht.one hslot e
    (rfl : (m.setEntry p i e).tbl = _)
  have hpt : p ≠ t := slotOf_ne_root (by decide) hn (ht.one t) hslot
  refine ⟨(Grow.refl hne).setEntry (Or.inl (pages_of_slotOf (by decide) hn hslot)),h1,
    fun x => by rw [h2]; rfl,h3 Pte.Small,fun i _ => ?_,fun i _ => ?_⟩
  · rw [Phys.setEntry_tbl_ne (Ne.symm hpt)]
  · rw [Phys.setEntry_tbl_ne (Ne.symm hpt)]

/-- The kernel table gained tables and pages; entries that were in use are as before. -/
structure KGrow (m m' : Phys) (kp : ℕ) (new : List ℕ) : Prop where
  grow : Grow m m' new (fun x => kpages m kp x ≠ 0) (fun _ => 0)
  pages : ∀ x, kpages m' kp x ≠ 0 → kpages m kp x ≠ 0 ∨ x ∈ new
  used : ∀ n < 512 * 512^3, entry m kp n ≠ .zero → entry m' kp n = entry m kp n

namespace KGrow

theorem refl (hne : m.free ≠ []) : KGrow m m kp [] :=
  ⟨.refl hne,fun _ h => Or.inl h,fun _ _ _ => rfl⟩

theorem trans {new' : List ℕ} (h : KGrow m m₁ kp new) (h' : KGrow m₁ m' kp new') :
    KGrow m m' kp (new ++ new') where
  grow := (h.grow.trans h'.grow fun _ _ => rfl).mono fun x hx => by
    rcases hx with hx | hx
    · exact Or.inl hx
    · exact (h.pages x hx).imp id (List.mem_append_left _)
  pages x hx := by
    rcases h'.pages x hx with hx | hx
    · exact (h.pages x hx).imp id (List.mem_append_left _)
    · exact Or.inr (List.mem_append_right _ hx)
  used n hn hne := by
    have h1 := h.used n hn hne
    rw [h'.used n hn (h1 ▸ hne), h1]

theorem of_extended (h : Extended m m' 512 kp n e new) (he : entry m kp n = .zero ∨ e = entry m kp n) :
    KGrow m m' kp new where
  grow := h.grow
  pages x hx := by
    by_cases hn : x ∈ new
    · exact Or.inr hn
    · have h1 : kpages m' kp x = kpages m kp x + new.count x := h.pages_eq x
      rw [List.count_eq_zero_of_not_mem hn] at h1
      exact Or.inl (by omega)
  used j hj hne := by
    rw [h.entry_eq j hj]
    split
    · rename_i hjn
      subst hjn
      exact he.resolve_left hne
    · rfl

end KGrow

theorem MemInv.kwalk {r : Walk} (h : MemInv m kp sp extra) (hw : walkPgtbl m kp v true = .ok (r,m₁)) :
    ∃ p i new, r = .slot p i ∧ slotOf Pte.link 512 m₁.tbl 3 kp (key 3 v) = some (p,i) ∧
      m₁.tbl p i = entry m kp (key 3 v) ∧ MemInv m₁ kp sp extra ∧
      Extended m m₁ 512 kp (key 3 v) (entry m kp (key 3 v)) new := by
  obtain ⟨p,i,new,rfl,hslot,he,-,hx⟩ := walkPgtbl_extend hw (Nat.mod_lt _ (by decide)) h.kernel_table
    h.acct.nodup h.acct.free_ne
  have hx' := hx (m₁.tbl p i)
  rw [Phys.setEntry_same, he] at hx'
  exact ⟨p,i,new,rfl,hslot,he,h.kextend hx' (h.kleaf _ (key_lt 3 v)),hx'⟩

/-- A page for a slot of the kernel table that a walk has found. -/
theorem MemInv.kmap (h : MemInv m kp sp extra) (hn : n < 512 * 512^3)
    (hslot : slotOf Pte.link 512 m.tbl 3 kp n = some (p,i)) (hzero : m.tbl p i = .zero)
    (hg : getPage m true = .ok (pg,m')) :
    MemInv (m'.setEntry p i ⟨pg,pteP⟩) kp sp (fun x => extra x + if x = pg then 1 else 0) ∧
      KGrow m (m'.setEntry p i ⟨pg,pteP⟩) kp [pg] ∧
      entry (m'.setEntry p i ⟨pg,pteP⟩) kp n = ⟨pg,pteP⟩ := by
  have h' := h.take hg
  have hgr := grow_getPage hg
  have hsame : Same Pte.link 512 m.tbl m'.tbl 3 512 kp := same_of_pages fun x hx =>
    hgr.tbl x id fun hx' => hx (h.kernel_table.fresh x (hgr.new_free hx'))
  have hslot' : slotOf Pte.link 512 m'.tbl 3 kp n = some (p,i) := by
    rw [hsame.slotOf (by decide) hn, hslot]
  have hent : ∀ j < 512 * 512^3, entry m' kp j = entry m kp j := fun j hj => hsame.leafAt (by decide) hj
  have hx := Extended.of_slot (e := ⟨pg,pteP⟩) h'.kernel_table h'.acct.free_ne hn hslot'
  refine ⟨h'.kextend hx (Pte.u_kernel pg),?_,by rw [hx.entry_eq n hn, if_pos rfl]⟩
  have hk₁ : KGrow m m' kp [pg] := ⟨hgr.mono fun _ hf => hf.elim,
    fun x hx => Or.inl (by
      have h1 : kpages m' kp x = kpages m kp x := hsame.pages x
      rwa [← h1]),
    fun j hj _ => hent j hj⟩
  have hk₂ := KGrow.of_extended hx (Or.inl (by rw [hent n hn, entry_eq_slot hslot, hzero]))
  exact hk₁.trans hk₂

theorem sataReadBlock_spec {b : ℕ × ℕ} (h : MemInv m kp sp extra) (hb : sataReadBlock kp m b = .ok m') :
    MemInv m' kp sp extra ∧ ∃ new, KGrow m m' kp new := by
  unfold sataReadBlock at hb
  obtain ⟨⟨p,i,m₁⟩,hw,hb⟩ := bind_eq_ok.mp hb
  unfold walkSlot at hw
  obtain ⟨⟨r,m₂⟩,hr,hw⟩ := bind_eq_ok.mp hw
  obtain ⟨p',i',new,rfl,hslot,he,h₁,hx⟩ := h.kwalk hr
  cases hw
  have hk := KGrow.of_extended hx (Or.inr rfl)
  simp only at hb
  split at hb
  · rename_i hz
    obtain ⟨⟨pg,m₂⟩,hg,hb⟩ := bind_eq_ok.mp hb
    cases hb
    obtain ⟨h₂,hk₂,-⟩ := h₁.kmap (key_lt 3 _) hslot hz hg
    exact ⟨h₂.forget fun _ => Nat.le_add_right _ _,_,hk.trans hk₂⟩
  · cases hb
    exact ⟨h₁,_,hk⟩

theorem mapMmio_spec {va addr r : U64} (h : MemInv m kp sp extra) (ha : addr.toNat % pgsize = 0)
    (hm : mapMmio m kp va addr = .ok (r,m')) : MemInv m' kp sp extra ∧ ∀ x, x ∉ m.free → m'.pipe x = m.pipe x := by
  unfold mapMmio at hm
  obtain ⟨⟨w,m₁⟩,hw,hm⟩ := bind_eq_ok.mp hm
  obtain ⟨p,i,new,rfl,hslot,he,h₁,hx⟩ := h.kwalk hw
  cases hm
  have hlow : addr.setWidth 12 = 0 := by
    apply BitVec.eq_of_toNat_eq
    rw [BitVec.toNat_setWidth]
    exact ha
  have hu : (⟨addr.toNat / pgsize,addr.setWidth 12 ||| pteP ||| pteW ||| ptePWT ||| ptePCD⟩ : Pte).u = false := by
    rw [hlow]
    change (0 ||| pteP ||| pteW ||| ptePWT ||| ptePCD).getLsbD 2 = false
    decide
  exact ⟨h₁.kextend (.of_slot h₁.kernel_table h₁.acct.free_ne (key_lt 3 va.toNat) hslot) hu,
    fun x hxf => hx.grow.pipe x fun hn => hxf (hx.grow.new_free hn)⟩

theorem diskRead_spec {bs : List (ℕ × ℕ)} (h : MemInv m kp sp extra) (hb : diskRead kp m bs = .ok m') :
    MemInv m' kp sp extra ∧ ∃ new, KGrow m m' kp new := by
  induction bs generalizing m with
  | nil =>
    cases hb
    exact ⟨h,[],.refl h.acct.free_ne⟩
  | cons b bs ih =>
    unfold diskRead at hb
    rw [List.foldlM_cons] at hb
    obtain ⟨m₁,h1,hb⟩ := bind_eq_ok.mp hb
    obtain ⟨hi₁,new₁,hk₁⟩ := sataReadBlock_spec h h1
    obtain ⟨hi₂,new₂,hk₂⟩ := ih hi₁ hb
    exact ⟨hi₂,_,hk₁.trans hk₂⟩

theorem MemInv.withContents (h : MemInv m kp sp extra) (d : ℕ → ℕ → UInt8) (q : ℕ → Pipe) :
    MemInv { m with data := d, pipe := q } kp sp extra where
  acct := ⟨h.acct.nodup,h.acct.free_ne,h.acct.count,h.acct.free_ok,h.acct.le_ref⟩
  solo := h.solo
  space i t t₂ hs := by
    have hsp := h.space i t t₂ hs
    exact ⟨hsp.small,hsp.small₂,hsp.agree,hsp.kernel,hsp.kernel₂⟩
  alloc := h.alloc
  wr := h.wr
  kroot := h.kroot
  kleaf := h.kleaf
  low := h.low

theorem MemInv.setByte (h : MemInv m kp sp extra) (pa : ℕ) (b : UInt8) : MemInv (m.setByte pa b) kp sp extra :=
  h.withContents _ m.pipe

theorem MemInv.setBytes (h : MemInv m kp sp extra) (pa : ℕ) (bs : List UInt8) :
    MemInv (m.setBytes pa bs) kp sp extra := by
  induction bs generalizing m pa with
  | nil => exact h
  | cons b bs ih => exact ih (h.setByte pa b) (pa+1)

theorem MemInv.setPipe (h : MemInv m kp sp extra) (pg : ℕ) (q : Pipe) : MemInv (m.setPipe pg q) kp sp extra :=
  h.withContents m.data _

/-- Page number of page `i` of the image area. -/
def imgKey (i : ℕ) : ℕ := key 3 (execImg + i * pgsize)

theorem imgKey_lt (i : ℕ) : imgKey i < 512 * 512^3 := key_lt 3 _

/-- The image stands behind its entries. -/
def ImgMapped (m : Phys) (kp : ℕ) (frames : List ℕ) : Prop :=
  ∀ i pg, frames[i]? = some pg → entry m kp (imgKey i) = ⟨pg,pteP⟩

theorem Pte.kernel_ne_zero (pg : ℕ) : (⟨pg,pteP⟩ : Pte) ≠ .zero := by
  intro h
  have hp := Pte.p_kernel pg
  rw [h] at hp
  simp at hp

theorem ImgMapped.keep {frames : List ℕ} (h : ImgMapped m kp frames) (hk : KGrow m m' kp new) :
    ImgMapped m' kp frames := by
  intro i pg hi
  have he := h i pg hi
  rw [hk.used (imgKey i) (imgKey_lt i) (by rw [he]; exact Pte.kernel_ne_zero pg), he]

theorem mapImgPage_spec {frames frames' : List ℕ} (h : MemInv m kp sp (fun x => extra x + frames.count x))
    (him : ImgMapped m kp frames) (hb : mapImgPage kp (frames,m) frames.length = .ok (frames',m')) :
    frames'.length = frames.length + 1 ∧ MemInv m' kp sp (fun x => extra x + frames'.count x) ∧
      ImgMapped m' kp frames' ∧ ∃ new, KGrow m m' kp new := by
  unfold mapImgPage at hb
  obtain ⟨⟨r,m₁⟩,hr,hb⟩ := bind_eq_ok.mp hb
  obtain ⟨p,i,new,rfl,hslot,he,h₁,hx⟩ := h.kwalk hr
  have hk := KGrow.of_extended hx (Or.inr rfl)
  simp only at hb
  split at hb
  · cases hb
  rename_i hz
  obtain ⟨⟨pg,m₂⟩,hg,hb⟩ := bind_eq_ok.mp hb
  cases hb
  obtain ⟨h₂,hk₂,hpg⟩ := h₁.kmap (key_lt 3 _) hslot (not_not.mp hz) hg
  refine ⟨by simp,?_,?_,_,hk.trans hk₂⟩
  · refine h₂.forget fun x => ?_
    rw [List.count_append, List.count_singleton]
    simp only [beq_iff_eq,eq_comm (a := pg)]
    omega
  · intro j q hj
    rw [List.getElem?_append] at hj
    split at hj
    · exact (him.keep (hk.trans hk₂)) j q hj
    · have hjl : j = frames.length ∧ q = pg := by
        rw [List.getElem?_singleton] at hj
        split at hj
        · cases hj
          exact ⟨by omega,rfl⟩
        · cases hj
      rw [hjl.1, hjl.2]
      exact hpg

theorem mapImg_spec {frames : List ℕ} (h : MemInv m kp sp extra)
    (hb : mapImg kp m n = .ok (frames,m')) :
    frames.length = n ∧ MemInv m' kp sp (fun x => extra x + frames.count x) ∧
      ImgMapped m' kp frames ∧ ∃ new, KGrow m m' kp new := by
  refine foldlM_range_inv (fun i st => st.1.length = i ∧ MemInv st.2 kp sp (fun x => extra x + st.1.count x) ∧
    ImgMapped st.2 kp st.1 ∧ ∃ new, KGrow m st.2 kp new) ?_ ?_ hb
  · exact ⟨rfl,h,fun i pg hi => by simp at hi,[],.refl h.acct.free_ne⟩
  · rintro i ⟨fr,s⟩ ⟨fr',s'⟩ hi ⟨hlen,hinv,him,new,hk⟩ hs
    subst hlen
    obtain ⟨hlen',hinv',him',new',hk'⟩ := mapImgPage_spec hinv him hs
    exact ⟨hlen',hinv',him',_,hk.trans hk'⟩

/-- The image area while pages from `i` on are still mapped. -/
structure ImgFrom (m s : Phys) (kp : ℕ) (sp : Spaces) (extra : ℕ → ℕ) (frames : List ℕ) (i : ℕ) : Prop where
  inv : MemInv s kp sp (fun x => extra x + (frames.drop i).count x)
  mapped : ∀ j pg, i ≤ j → frames[j]? = some pg → entry s kp (imgKey j) = ⟨pg,pteP⟩
  data : s.data = m.data
  pipe : s.pipe = m.pipe
  kpages_eq : ∀ x, kpages s kp x = kpages m kp x
  tbl : ∀ x, kpages m kp x = 0 → s.tbl x = m.tbl x

theorem unmapImgPage_spec {frames : List ℕ} {s s' : Phys} (h : ImgFrom m s kp sp extra frames i)
    (hi : i < frames.length) (hu : unmapImgPage kp s i = .ok s') : ImgFrom m s' kp sp extra frames (i+1) := by
  have hdrop : frames.drop i = frames[i] :: frames.drop (i+1) := List.drop_eq_getElem_cons hi
  have hget : frames[i]? = some frames[i] := List.getElem?_eq_getElem hi
  have hent := h.mapped i _ le_rfl hget
  unfold unmapImgPage at hu
  obtain ⟨⟨r,s₁⟩,hr,hu⟩ := bind_eq_ok.mp hu
  obtain ⟨rfl,rfl⟩ := walkPgtbl_read hr
  obtain ⟨t,j,hslot⟩ := slot_of_present (m := s) (t := kp) (n := imgKey i) (by rw [hent]; exact Pte.p_kernel _)
  have hent' := entry_eq_slot hslot
  rw [hent] at hent'
  have hslot' : slotOf Pte.link 512 s.tbl 3 kp (key 3 (execImg + i * pgsize)) = some (t,j) := hslot
  simp only [hslot',← hent'] at hu
  obtain ⟨m₁,hf,hu⟩ := bind_eq_ok.mp hu
  cases hu
  obtain ⟨m₂,hf₂,hinv,hsh⟩ := h.inv.give frames[i] (by rw [hdrop, List.count_cons_self]; omega)
  rw [hf] at hf₂
  cases hf₂
  have hx := Extended.of_slot (e := .zero) hinv.kernel_table hinv.acct.free_ne (imgKey_lt i)
    (by rw [hsh.tbl]; exact hslot)
  have hkp : ∀ x, kpages (m₁.setEntry t j .zero) kp x = kpages m kp x := fun x => by
    have h1 := hx.pages_eq x
    rw [List.count_nil, Nat.add_zero, hsh.tbl] at h1
    exact h1.trans (h.kpages_eq x)
  refine ⟨(hinv.kextend hx rfl).forget fun x => ?_,fun j' pg hj hpg => ?_,hsh.data.trans h.data,
    hsh.pipe.trans h.pipe,hkp,fun x hx0 => ?_⟩
  · rw [hdrop, List.count_cons]
    simp only [beq_iff_eq,eq_comm (a := frames[i])]
    split <;> omega
  · have hold := h.mapped j' pg (by omega) hpg
    rw [hx.entry_eq _ (imgKey_lt j'), if_neg, ← hold]
    · simp only [entry,hsh.tbl]
    · intro hkey
      rw [hkey, hent] at hold
      have hpf : frames[i] = pg := congrArg Pte.frame hold
      have h1 := h.inv.own_le_one pg
      have h2 : 0 < (frames.drop (i+1)).count pg := List.count_pos_iff.mpr
        (List.mem_of_getElem? (i := j' - (i+1)) (by rw [List.getElem?_drop, ← hpg]; congr 1; omega))
      simp only [own,hdrop,hpf,List.count_cons_self] at h1
      omega
  · -- the entry lies in a page of the kernel's table
    have hpt : kpages s kp t ≠ 0 := pages_of_slotOf (n := 512) (by decide) (imgKey_lt i) hslot
    have hxt : x ≠ t := by
      rintro rfl
      rw [h.kpages_eq] at hpt
      exact hpt hx0
    rw [Phys.setEntry_tbl_ne hxt, hsh.tbl]
    exact h.tbl x hx0

theorem unmapImg_spec {frames : List ℕ} (h : MemInv m kp sp (fun x => extra x + frames.count x))
    (him : ImgMapped m kp frames) (hu : unmapImg kp m frames.length = .ok m') :
    MemInv m' kp sp extra ∧ m'.data = m.data ∧ m'.pipe = m.pipe ∧
      ∀ x, kpages m kp x = 0 → m'.tbl x = m.tbl x := by
  have hend : ImgFrom m m' kp sp extra frames frames.length :=
    foldlM_range_inv (fun i s => ImgFrom m s kp sp extra frames i)
      ⟨h,fun j pg _ hj => him j pg hj,rfl,rfl,fun _ => rfl,fun _ _ => rfl⟩
      (fun i s t hi hs ht => unmapImgPage_spec hs hi ht) hu
  refine ⟨?_,hend.data,hend.pipe,hend.tbl⟩
  have h1 := hend.inv
  simpa only [List.drop_length,List.count_nil,Nat.add_zero] using h1

theorem MemInv.keep_of_kernel {c : Slot} {t t₂ : ℕ} (h : MemInv m kp sp extra) (hs : sp c = some (t,t₂))
    (htbl : ∀ x, kpages m kp x = 0 → m'.tbl x = m.tbl x) : Keep m m' t ∧ Keep m m' t₂ := by
  have hx : ∀ x, tblPages m t x + tblPages m t₂ x ≠ 0 → m'.tbl x = m.tbl x := fun x hx => htbl x (by
    have h1 := ownOf_le m sp c x
    have h2 := h.own_le_one x
    rw [ownOf_some hs] at h1
    simp only [own] at h2
    omega)
  exact ⟨.of_pages fun x hx' => hx x (by omega),.of_pages fun x hx' => hx x (by omega)⟩

theorem readImg_spec {fs : Fs} {frames : List ℕ} {f : FileDesc} (h : MemInv m kp sp extra)
    (him : ImgMapped m kp frames) (hr : readImg fs m kp frames f = .ok m') :
    MemInv m' kp sp extra ∧ ImgMapped m' kp frames ∧ ∀ x, x ∉ m.free → m'.pipe x = m.pipe x := by
  unfold readImg at hr
  obtain ⟨m₁,hd,hr⟩ := bind_eq_ok.mp hr
  obtain ⟨h₁,new,hk⟩ := diskRead_spec h hd
  have hm₁ : ∀ x, x ∉ m.free → m₁.pipe x = m.pipe x := fun x hx =>
    hk.grow.pipe x fun hn => hx (hk.grow.new_free hn)
  refine foldlM_range_inv (fun _ s => MemInv s kp sp extra ∧ ImgMapped s kp frames ∧
    ∀ x, x ∉ m.free → s.pipe x = m.pipe x) ⟨h₁,him.keep hk,hm₁⟩ ?_ hr
  rintro i s t hi ⟨hs,hsm,hp⟩ ht
  split at ht
  · cases ht
    exact ⟨hs.setByte _ _,hsm,hp⟩
  · cases ht

end Ukern
