import Ukern.Run.Apart

/-! # Nobody writes into a process that waits

A trap that hands out no data changes the memory of the process that took it, and gives a parent in `sys_wait` the
status word. Everybody else finds every byte where it was. Over runs: from the time a process leaves the processor
to the time it is given it again, its memory is what it was, whatever the others do.
-/
namespace Ukern
open Lib Lib.Radix
variable {fs : Fs} {k k' k₁ : Kernel} {c n q : Slot} {m m' m₁ : Phys} {tf : Context} {o : Outcome} {tr : Trap} {v : U64}
  {kp s s₂ : ℕ} {sp : Spaces} {extra : ℕ → ℕ} {frames : List ℕ}

/-! ## Tables that are built and given back -/

/-- New pages come from the free list, and a process has none of them. -/
theorem Grow.samePages {new : List ℕ} {S : ℕ → Prop} {inc : ℕ → ℕ} (hg : Grow m m' new S inc)
    (h : MemInv m kp sp extra) (hs : sp q = some (s,s₂)) (hS : ∀ x, tblPages m s x ≠ 0 → ¬ S x) : SamePages m m' s := by
  have hkeep : Keep m m' s := hg.keep fun x hx => ⟨hS x hx,h.tables_held hs (by omega)⟩
  apply hkeep.samePages
  intro i hi hp
  exact hg.data _ fun hn => h.entry_held hs hi hp (hg.new_free hn)

theorem KGrow.samePages {new : List ℕ} (hg : KGrow m m' kp new) (h : MemInv m kp sp extra) (hs : sp q = some (s,s₂)) :
    SamePages m m' s := by
  refine hg.grow.samePages h hs fun x hx hk => ?_
  have h1 := MemInv.ownOf_le m sp q x
  have h2 := h.own_le_one x
  rw [ownOf_some hs] at h1
  simp only [own] at h2
  omega

theorem diskRead_spared {bs : List (ℕ × ℕ)} (h : KInv k) (hd : diskRead k.kPgtbl k.phys bs = .ok m) :
    Spared k (k.setPhys m) q := by
  obtain ⟨-,new,hk⟩ := diskRead_spec h.owned.mem hd
  exact .setPhys fun hopen => hk.samePages h.owned.mem (spaces_some hopen)

theorem exfatOpen_spared {path : ℕ → Option UInt8} {pwd f f' : FileDesc} {opendir : Bool} {r : U64} (h : KInv k)
    (he : exfatOpen fs k.phys k.kPgtbl path pwd f opendir = .ok (r,f',m)) : Spared k (k.setPhys m) q := by
  unfold exfatOpen at he
  obtain ⟨res,-,he⟩ := bind_eq_ok.mp he
  obtain ⟨m₁,hd,he⟩ := bind_eq_ok.mp he
  have hu := diskRead_spared (q := q) h hd
  simp only at he
  split at he
  · cases he
  split at he
  · cases he
    exact hu
  split at he
  · cases he
    exact hu
  split at he
  · cases he
    exact hu
  · cases he
    exact hu

theorem sysOpenAs_spared {opendir : Bool} (h : KInv k) (hs : sysOpenAs opendir fs k c tf = .ok o) :
    Spared k o.kernel q := by
  unfold sysOpenAs at hs
  obtain ⟨b,-,hs⟩ := bind_eq_ok.mp hs
  split at hs
  · exact .done (Spared.refl k q) hs
  obtain ⟨fd,-,hs⟩ := bind_eq_ok.mp hs
  obtain ⟨⟨r,f',m⟩,he,hs⟩ := bind_eq_ok.mp hs
  have ho := exfatOpen_spared (q := q) h he
  simp only at hs
  split at hs
  · exact (ho.trans .setFdesc).done hs
  · exact (ho.trans .setFdesc).done hs

theorem sysChdir_spared (h : KInv k) (hs : sysChdir fs k c tf = .ok o) : Spared k o.kernel q := by
  unfold sysChdir at hs
  obtain ⟨b,-,hs⟩ := bind_eq_ok.mp hs
  split at hs
  · exact .done (Spared.refl k q) hs
  obtain ⟨⟨r,f',m⟩,he,hs⟩ := bind_eq_ok.mp hs
  have ho := exfatOpen_spared (q := q) h he
  simp only at hs
  split at hs
  · exact ho.done hs
  · exact (ho.trans (Spared.modProc id rfl)).done hs

theorem sysSbrk_spared (h : KInv k) (hc : (k.procs c).state ≠ .close) (hs : sysSbrk k c tf = .ok o) (hq : q ≠ c) :
    Spared k o.kernel q := by
  unfold sysSbrk at hs
  simp only at hs
  split at hs
  · exact .done (Spared.refl k q) hs
  rename_i href
  obtain ⟨m,hl,hs⟩ := bind_eq_ok.mp hs
  have hmax : roundup (((k.procs c).endUmem + tf.rdx.toNat) % 2^64) < umax := by
    simp only [sbrkRefused,Bool.or_eq_true,decide_eq_true_eq,not_or,not_le] at href
    exact href.1
  have htop : umax < userTop := by decide
  have hloop : MemInv m k.kPgtbl (spaces k) (live (ends k .rpipe) (ends k .wpipe)) ∧
      ((k.procs q).state ≠ .close → SamePages k.phys m (k.procs q).pgtbl) := by
    refine foldlM_range_inv (fun _ t => MemInv t k.kPgtbl (spaces k) (live (ends k .rpipe) (ends k .wpipe)) ∧
      ((k.procs q).state ≠ .close → SamePages k.phys t (k.procs q).pgtbl))
      ⟨h.owned.mem,fun _ => SamePages.refl k.phys _⟩ (fun i t t' hi hinv hp => ?_) hl
    have hle : (i+1) * pgsize ≤ roundup (((k.procs c).endUmem + tf.rdx.toNat) % 2^64) -
        roundup (k.procs c).endUmem := Nat.le_trans (Nat.mul_le_mul_right _ hi) (Nat.div_mul_le_self _ _)
    have hpos : 0 < pgsize := by decide
    have hv : roundup (k.procs c).endUmem + i * pgsize < userTop := by
      rw [Nat.add_mul, Nat.one_mul] at hle
      omega
    obtain ⟨hm,⟨new,hg⟩,-⟩ := sbrkPage_spec hinv.1 (spaces_some hc) hv hp
    refine ⟨hm,fun hopen => (hinv.2 hopen).trans (hg.samePages hinv.1 (spaces_some hopen) fun x hx hown => ?_)⟩
    -- a table of `q` is none of `c`
    have h1 := MemInv.ownOf_add_le t (spaces k) hq x
    have h2 := hinv.1.own_le_one x
    rw [ownOf_some (spaces_some hopen)] at h1
    simp only [own] at h2
    omega
  exact ((Spared.setPhys hloop.2).trans (Spared.modProc id rfl)).done hs

/-! ## Fork -/

theorem Forked.samePages {t t₂ a b : ℕ} (hf : Forked m m' sp c t t₂ a b) (h : MemInv m kp sp extra)
    (hc : sp c = some (t,t₂)) (hs : sp q = some (s,s₂)) : SamePages m m' s := by
  have hdata : ∀ i < upages, (entry m s i).p = true → m'.data (entry m s i).frame = m.data (entry m s i).frame :=
    fun i hi hp => hf.data _ (h.entry_held hs hi hp)
  by_cases hq : q = c
  · subst hq
    rw [hc] at hs
    cases hs
    intro i hi
    -- the parent's entries only lose the right to write
    obtain ⟨h1,h2,-,-⟩ := ((h.space q _ _ hc).agree i hi).drop_w
    rw [hf.parent i hi, h1, h2]
    exact ⟨rfl,hdata i hi⟩
  · exact (hf.other q hq s s₂ hs).1.samePages hdata

theorem ForkOk.spared (hf : ForkOk k k' c n tf) (h : KInv k) (hc : (k.procs c).state ≠ .close) (hq : q ≠ n) :
    Spared k k' q := by
  have hcore := hf.core q hq
  obtain ⟨m,P,hphys,hforked⟩ := hf.tables
  intro hopen
  rw [Proc.state_of_core hcore] at hopen
  refine ⟨hopen,(Proc.Like.of_core hcore).pgtbl,?_⟩
  have hsame := hforked.samePages h.owned.mem (spaces_some hc) (spaces_some hopen)
  rw [hphys]
  exact hsame.trans (.of_contents rfl rfl)

/-! ## Exec -/

/-- `read_file` stores into the pages of the image, which no process maps. -/
theorem readImg_samePages {f : FileDesc} (h : MemInv m kp sp fun x => extra x + frames.count x)
    (hr : readImg fs m kp frames f = .ok m') (hs : sp q = some (s,s₂)) : SamePages m m' s := by
  unfold readImg at hr
  obtain ⟨m₁,hd,hr⟩ := bind_eq_ok.mp hr
  obtain ⟨h₁,new,hk⟩ := diskRead_spec h hd
  refine (hk.samePages h hs).trans ?_
  refine (foldlM_range_inv (fun _ t => MemInv t kp sp (fun x => extra x + frames.count x) ∧ SamePages m₁ t s)
    ⟨h₁,SamePages.refl m₁ s⟩ ?_ hr).2
  rintro i t t' - ⟨ht,hsame⟩ hput
  split at hput
  · rename_i pg hpg
    cases hput
    refine ⟨ht.setByte _ _,hsame.trans fun j hj => ⟨rfl,fun hp => ?_⟩⟩
    change (t.setByte (pg * pgsize + i % pgsize) _).data (entry t s j).frame = t.data (entry t s j).frame
    funext x
    rw [Phys.setByte_data, if_neg]
    rintro ⟨hf,-⟩
    -- a page of the image has one owner, and that is not a process
    have hown : own t kp sp (fun x => extra x + frames.count x) pg ≠ 0 := by
      have hcnt := List.count_pos_iff.mpr (List.mem_of_getElem? hpg)
      simp only [own]
      omega
    have h2 := maps_pos hj hp
    have h3 := MemInv.mapOf_le t sp q (entry t s j).frame
    rw [mapOf_some hs] at h3
    rw [hf] at h2 h3
    have h4 := (ht.own_excl hown).2
    omega
  · cases hput

theorem unmapImg_samePages (h : MemInv m kp sp fun x => extra x + frames.count x) (him : ImgMapped m kp frames)
    (hu : unmapImg kp m frames.length = .ok m') (hs : sp q = some (s,s₂)) : SamePages m m' s := by
  obtain ⟨-,hdata,-,htbl⟩ := unmapImg_spec h him hu
  apply (h.keep_of_kernel hs htbl).1.samePages
  intro i _ _
  rw [hdata]

/-- The old image is given back, the new one is built on free pages. -/
theorem execLoad_samePages (h : MemInv k.phys k.kPgtbl (spaces k) fun x => extra x + frames.count x)
    (hc : (k.procs c).state ≠ .close) (hmagic : (imgAt frames).field k.phys execImg 4 = .ok elfMagic)
    (he : execLoad (imgAt frames) k c tf = .ok k') (hq : q ≠ c) (hs : spaces k q = some (s,s₂)) :
    SamePages k.phys k'.phys s := by
  unfold execLoad at he
  obtain ⟨m₁,hf₁,he⟩ := bind_eq_ok.mp he
  obtain ⟨m₂,hf₂,he⟩ := bind_eq_ok.mp he
  obtain ⟨⟨a,m₃⟩,ha,he⟩ := bind_eq_ok.mp he
  obtain ⟨⟨b,m₄⟩,hb,he⟩ := bind_eq_ok.mp he
  obtain ⟨⟨r,endUmem,m₅⟩,hl,he⟩ := bind_eq_ok.mp he
  simp only [Kernel.modProc_phys,Kernel.modProc_self,Kernel.setPhys_phys,Kernel.setPhys_procs,
    Kernel.modProc_kPgtbl,Kernel.setPhys_kPgtbl] at hf₁ hf₂ hl he
  obtain ⟨m₁',m₂',hf₁',hf₂',hrel,hsh⟩ := h.release (spaces_some hc)
  rw [hf₁] at hf₁'
  cases hf₁'
  rw [hf₂] at hf₂'
  cases hf₂'
  have hB := Build.start hrel.acct.nodup ha hb
  have hdata : ∀ pg ∈ frames, m₄.data pg = k.phys.data pg := fun pg hpg => by
    have hcnt := List.count_pos_iff.mpr hpg
    have hheld : pg ∉ m₂.free := hrel.own_not_free (by simp only [own]; omega)
    rw [hB.grow.data pg fun hn => hheld (hB.grow.new_free hn), hsh.data]
  obtain ⟨rfl,new,hB₂⟩ := loadImg_spec (q := { k.procs c with
    state := .pending, pgtbl := a, pPgtbl := b }) hB hrel.acct.nodup (by rw [field_congr hdata]; exact hmagic) hl
  rw [if_neg (by simp)] at he
  obtain ⟨⟨ok,m₆⟩,hbs,he⟩ := bind_eq_ok.mp he
  obtain ⟨rfl,-,⟨new',hg⟩,-⟩ := buildSpace_spec (c := c) (q := { k.procs c with
    state := .pending, pgtbl := a, pPgtbl := b, endUmem := endUmem }) hB₂ hrel (by simp [nargs,arglen,pgsize]) hbs
  obtain ⟨entry,-,he⟩ := bind_eq_ok.mp he
  simp only [Except.ok.injEq] at he
  subst he
  have hs₂ : Function.update (spaces k) c none q = some (s,s₂) := by
    rw [Function.update_of_ne hq]
    exact hs
  exact (SamePages.of_contents hsh.tbl hsh.data).trans (hg.samePages hrel hs₂ fun _ _ => id)

/-- `sys_exec` fails and leaves everything as it was, or it replaces the memory of its caller. -/
theorem sysExec_cases (h : KInv k) (hc : (k.procs c).state ≠ .close) (hs : sysExec fs k c tf = .ok o) :
    (∃ e k', o = .ret { tf with rax := e } k' ∧ k'.procs = k.procs ∧ ∀ q, Spared k k' q) ∨
      ∃ k', o = .run k' ∧ ∀ q ≠ c, Spared k k' q := by
  unfold sysExec at hs
  simp only at hs
  split at hs
  · cases hs
    exact .inl ⟨_,k,rfl,rfl,Spared.refl k⟩
  obtain ⟨⟨ok,k₁⟩,ha,hs⟩ := bind_eq_ok.mp hs
  obtain ⟨a,rfl⟩ := saveArgs_eq ha
  have hq₁ : Quiet k { k with argvBuf := a } := .argvBuf h a
  have hsp₁ : ∀ q, Spared k { k with argvBuf := a } q := fun q => .of_record id rfl rfl rfl
  have hp₁ : ({ k with argvBuf := a } : Kernel).procs = k.procs := rfl
  generalize ({ k with argvBuf := a } : Kernel) = k₁ at hs hq₁ hsp₁ hp₁
  cases ok with
  | false =>
    cases hs
    exact .inl ⟨_,k₁,rfl,hp₁,hsp₁⟩
  | true =>
  obtain ⟨⟨r,f,m⟩,ho,hs⟩ := bind_eq_ok.mp hs
  have hq₂ := (exfatOpen_quiet hq₁.inv ho).1
  have hsp₂ : ∀ q, Spared k (k₁.setPhys m) q := fun q => (hsp₁ q).trans (exfatOpen_spared hq₁.inv ho)
  have hp₂ : (k₁.setPhys m).procs = k.procs := hp₁
  generalize k₁.setPhys m = k₂ at hs hq₂ hsp₂ hp₂
  have hc₂ : (k₂.procs c).state ≠ .close := by
    rw [hp₂]
    exact hc
  simp only at hs
  split at hs
  · cases hs
    exact .inl ⟨_,k₂,rfl,hp₂,hsp₂⟩
  obtain ⟨⟨frames,m₃⟩,hmap,hs⟩ := bind_eq_ok.mp hs
  obtain ⟨m₄,hrd,hs⟩ := bind_eq_ok.mp hs
  obtain ⟨mg,hmg,hs⟩ := bind_eq_ok.mp hs
  obtain ⟨hlen,hm₃,him₃,new,hk⟩ := mapImg_spec hq₂.inv.owned.mem hmap
  obtain ⟨hm₄,him₄,-⟩ := readImg_spec hm₃ him₃ hrd
  have himg : ∀ q, (k₂.procs q).state ≠ .close → SamePages k₂.phys m₄ (k₂.procs q).pgtbl := fun q hopen =>
    (hk.samePages hq₂.inv.owned.mem (spaces_some hopen)).trans (readImg_samePages hm₃ hrd (spaces_some hopen))
  rw [← hlen] at hs
  split at hs
  · -- the image is unmapped again
    obtain ⟨m₅,hu,hs⟩ := bind_eq_ok.mp hs
    cases hs
    refine .inl ⟨_,k₂.setPhys m₅,rfl,hp₂,fun q => (hsp₂ q).trans (.setPhys fun hopen => ?_)⟩
    exact (himg q hopen).trans (unmapImg_samePages hm₄ him₄ hu (spaces_some hopen))
  · rename_i hmagic
    simp only [ne_eq,Decidable.not_not] at hmagic
    subst hmagic
    obtain ⟨k₃,hl,hs⟩ := bind_eq_ok.mp hs
    obtain ⟨m₅,hu,hs⟩ := bind_eq_ok.mp hs
    have hld := execLoad_spec (k := k₂.setPhys m₄) hm₄ him₄ hc₂ hmg hl
    rw [hld.globals.1] at hu
    obtain ⟨k',hk',ho'⟩ := bind_eq_ok.mp hs
    refine .inr ⟨k',(Except.ok.inj ho').symm,fun q hq => ?_⟩
    have hsched : Spared (k₃.setPhys m₅) o.kernel q := Spared.sched hs
    rw [← Except.ok.inj ho'] at hsched
    refine ((hsp₂ q).trans fun hopen => ?_).trans hsched
    change (k₃.procs q).state ≠ .close at hopen
    rw [hld.procs q hq] at hopen
    have hload := execLoad_samePages (k := k₂.setPhys m₄) hm₄ hc₂ hmg hl hq (spaces_some hopen)
    have hsq : Function.update (spaces (k₂.setPhys m₄)) c (some ((k₃.procs c).pgtbl,(k₃.procs c).pPgtbl)) q =
        some ((k₂.procs q).pgtbl,(k₂.procs q).pPgtbl) := by
      rw [Function.update_of_ne hq]
      exact spaces_some hopen
    refine ⟨hopen,?_,(himg q hopen).trans (hload.trans (unmapImg_samePages hld.mem hld.img hu hsq))⟩
    change (k₃.procs q).pgtbl = _
    rw [hld.procs q hq]
    rfl

theorem sysExec_spared (h : KInv k) (hc : (k.procs c).state ≠ .close) (hs : sysExec fs k c tf = .ok o) (hq : q ≠ c) :
    Spared k o.kernel q := by
  rcases sysExec_cases h hc hs with ⟨e,k',rfl,-,hall⟩ | ⟨k',rfl,hoth⟩
  · exact hall q
  · exact hoth q hq

/-- `exec` with seventeen arguments. -/
def argcTrap : Trap := ⟨32,0,0,{ Context.zero with rax := BitVec.ofNat 64 Call.exec.num.toNat, rcx := 17 },0⟩

theorem sysWrite_spared (hs : sysWrite k c tf = .ok o)
    (hw : ∀ fd, fdOf tf.rdx = some fd → ((k.procs c).fdesc fd).fileType ≠ .wpipe) : Spared k o.kernel q := by
  have hsame : o.kernel = k := by
    unfold sysWrite at hs
    split at hs
    · cases hs
      rfl
    rename_i fd hfd
    split at hs
    · cases hs
      rfl
    obtain ⟨b,-,hs⟩ := bind_eq_ok.mp hs
    split at hs
    · cases hs
      rfl
    simp only at hs
    split at hs
    · cases hs
      rfl
    split at hs
    · obtain ⟨_,-,hs⟩ := bind_eq_ok.mp hs
      cases hs
      rfl
    · rename_i hty
      exact absurd hty (hw fd hfd)
    · cases hs
      rfl
  rw [hsame]
  exact Spared.refl k q

theorem sysWait_spared (h : Sys k c) (hw : (k.procs c).zombieChild = none ∨ tf.rdx = 0) (hs : sysWait k c tf = .ok o) :
    Spared k o.kernel q := by
  unfold sysWait at hs
  obtain ⟨b,-,hs⟩ := bind_eq_ok.mp hs
  split at hs
  · exact .done (Spared.refl k q) hs
  split at hs
  · rename_i z hz
    have h0 : tf.rdx = 0 := hw.resolve_left (by rw [hz]; rintro ⟨⟩)
    unfold waitZombie waitStore at hs
    obtain ⟨m,hm,hs⟩ := bind_eq_ok.mp hs
    rw [if_neg (by rw [h0]; simp)] at hm
    cases hm
    obtain ⟨k₁,hc,hs⟩ := bind_eq_ok.mp hs
    have hrel : Relinked k ((k.modProc c fun p => { p with zombieChild := (k.procs z).nextSibling }).modPtr
        (k.procs z).nextSibling fun p => { p with prevSibling := none }) := by
      refine (Relinked.refl.modProc ?_).modPtr ?_ <;> exact fun _ => rfl
    have hwake := hrel.wakeSafe h.reg.wakeSafe
    have hclear := (clearProc_ok (hrel.inv h.inv) hwake hc).2.2
    exact (hrel.spared.trans (hclear.spared hwake)).done hs
  · split at hs
    · exact .done (Spared.refl k q) hs
    · have hmark : Spared k (k.modProc c fun p => { p with waiting := true, waitStatus := tf.rdx }) q :=
        .modProc id rfl
      refine (hmark.trans (Spared.block ?_ tf)).trans (Spared.sched hs)
      rw [Kernel.modProc_self]
      exact h.open

/-- A closed write end may let a reader go, but gives it no bytes. -/
theorem sysClose_spared (h : Sys k c) (hs : sysClose k c tf = .ok o) : Spared k o.kernel q := by
  unfold sysClose at hs
  split at hs
  · exact .done (Spared.refl k q) hs
  rename_i fd hfd
  simp only at hs
  split at hs
  · exact .done (Spared.refl k q) hs
  rename_i hu
  obtain ⟨k₁,hdrop,hs⟩ := bind_eq_ok.mp hs
  split at hs
  · cases hs
  cases hs
  obtain ⟨hdr,-,hlike⟩ := h.dropFdesc (fdOf_lt hfd) rfl (by simpa using hu) hdrop
  refine Spared.trans (.of_record ?_ (hlike q).pgtbl hdr.contents.1 hdr.contents.2) .setFdesc
  intro hopen hc
  exact hopen ((hlike q).close.mpr hc)

/-- A page fault ends the process, or gives it a page of its own with the bytes that were there. -/
theorem pageFault_cases (h : Sys k c) (hv : tr.vecnum = 14) (hs : pageFaultHandler k c tr = .ok o) :
    (tr.Fatal k c ∧ ∃ k₁, killProc k c killStatus = .ok k₁ ∧ k₁.sched = .ok o) ∨
      ¬ tr.Fatal k c ∧ ∀ q, Spared k o.kernel q := by
  have hkill : (tr.errno ≠ 7 ∨ (lookup k.phys (k.procs c).pPgtbl tr.cr2.toNat).covers
      (pteP ||| pteU ||| pteW) = false) → (do (← killProc k c killStatus).sched) = .ok o →
      tr.Fatal k c ∧ ∃ k₁, killProc k c killStatus = .ok k₁ ∧ k₁.sched = .ok o := by
    intro hf hs
    obtain ⟨k₁,hk,hs⟩ := bind_eq_ok.mp hs
    exact ⟨.inr (.inr ⟨hv,hf⟩),k₁,hk,hs⟩
  unfold pageFaultHandler at hs
  split at hs
  · rename_i herr
    split at hs
    · cases hs
    · exact .inl (hkill (.inl herr) hs)
  rename_i herr
  obtain ⟨⟨w,m₁⟩,hw,hs⟩ := bind_eq_ok.mp hs
  rcases lookup_of_walk hw with ⟨t,i,rfl,hleaf⟩ | ⟨rfl,hleaf⟩
  · simp only at hs
    split at hs
    · rename_i hcov
      obtain ⟨m,hb,hs⟩ := bind_eq_ok.mp hs
      cases hs
      rw [← hleaf] at hcov
      obtain ⟨hp,hu,-⟩ := Pte.covers_puw hcov
      obtain ⟨f,hpriv⟩ := breakCow_spec h.inv.owned.mem (spaces_some h.open) hu hp hb
      refine .inr ⟨?_,fun q => .setPhys fun hopen => hpriv.pages q _ _ (spaces_some hopen)⟩
      rintro (h1 | ⟨h1,-⟩ | ⟨-,h1 | h1⟩)
      · omega
      · omega
      · exact herr h1
      · rw [hcov] at h1
        cases h1
    · rename_i hcov
      exact .inl (hkill (.inr (by rw [hleaf]; simpa using hcov)) hs)
  · exact .inl (hkill (.inr (by rw [hleaf]; decide)) hs)

theorem keyboard_spared (hb : k.kbdProc = none) (hs : keyboard k c tr = .ok o) : Spared k o.kernel q := by
  unfold keyboard at hs
  split at hs
  · rw [serveKbd, show (k.queueKey tr.getch).kbdProc = none from hb] at hs
    cases hs
    exact .of_record id rfl rfl rfl
  · cases hs
    exact Spared.refl k q

/-! ## Traps -/

/-- A trap that hands no data to user memory: no read, no new pipe, no status of a child that is dead already, and
no key for a process that waits for one. What is written goes to the screen, and the status word that a parent
waits for stays inside its page. -/
structure Discreet (k : Kernel) (c : Slot) (tr : Trap) : Prop where
  call : ∀ call, tr.Calls call → call ∉ [Call.read,.readdir,.pipe]
  write : tr.Calls .write → ∀ fd, fdOf tr.tf.rdx = some fd → ((k.procs c).fdesc fd).fileType ≠ .wpipe
  wait : tr.Calls .wait → (k.procs c).zombieChild = none ∨ tr.tf.rdx = 0
  key : tr.vecnum = 36 → k.kbdProc = none
  status : tr.Fatal k c → StatusFits k

/-- A process that ends touches the memory of no process but a parent whose wait it ends. -/
theorem Discreet.exit_spared (hd : Discreet k c tr) (h : Sys k c) (hg : Orderly k c tr) (hf : tr.Fatal k c)
    (hk : killProc k c v = .ok k₁) (hs : k₁.sched = .ok o)
    (hw : (k.procs q).waiting = true → (o.kernel.procs q).waiting = true) : Spared k o.kernel q := by
  rcases killProc_told h (h.reapable hg.reaps) (hd.status hf) hk with hall | ⟨pa,ht,hoth⟩
  · exact (hall q).1.trans (Spared.sched hs)
  · have hq : q ≠ pa := by
      rintro rfl
      have hend := hw ht.before
      rw [(Kindred.refl.sched hs).waiting, ht.after.1] at hend
      cases hend
    exact (hoth q hq).1.trans (Spared.sched hs)

/-- A process that is told of no exit keeps its memory, unless it takes the trap itself and that is an `exec` or an
`sbrk`. -/
theorem trap_spared (h : Sys k c) (hg : Orderly k c tr) (hd : Discreet k c tr) (hs : trapHandler fs k tr = .ok o)
    (hq : q = c → ¬ tr.Calls .exec ∧ ¬ tr.Calls .sbrk) (hopen : (k.procs q).state ≠ .close)
    (hw : tr.Fatal k c → (k.procs q).waiting = true → (o.kernel.procs q).waiting = true) : Spared k o.kernel q := by
  rw [trapHandler, h.cur] at hs
  change trapHandlerAt fs k c tr = .ok o at hs
  unfold trapHandlerAt at hs
  split at hs
  · rename_i hv
    obtain ⟨k₁,hk,hs⟩ := bind_eq_ok.mp hs
    have hf : tr.Fatal k c := .inl hv
    exact hd.exit_spared h hg hf hk hs (hw hf)
  · rename_i hv
    rcases pageFault_cases h hv hs with ⟨hf,k₁,hk,hs⟩ | ⟨-,hall⟩
    · exact hd.exit_spared h hg hf hk hs (hw hf)
    · exact hall q
  · rename_i hv
    obtain ⟨call,hnum⟩ := hg.known hv
    have hcall : tr.Calls call := ⟨hv,hnum⟩
    have hdata := hd.call call hcall
    rw [syscall_run call hnum] at hs
    cases call with
    | exit =>
      obtain ⟨k₁,hk,hs⟩ := bind_eq_ok.mp hs
      have hf : tr.Fatal k c := .inr (.inl ⟨hv,.inl hnum⟩)
      exact hd.exit_spared h hg hf hk hs (hw hf)
    | fork =>
      obtain ⟨n,k',rfl,hf⟩ := sysFork_spec h.inv h.open hs
      apply hf.spared h.inv h.open
      rintro rfl
      exact hopen hf.fresh
    | exec => exact sysExec_spared h.inv h.open hs fun hqc => (hq hqc).1 hcall
    | sbrk => exact sysSbrk_spared h.inv h.open hs fun hqc => (hq hqc).2 hcall
    | wait => exact sysWait_spared h (hd.wait hcall) hs
    | write => exact sysWrite_spared hs (hd.write hcall)
    | openFile => exact sysOpenAs_spared h.inv hs
    | opendir => exact sysOpenAs_spared h.inv hs
    | chdir => exact sysChdir_spared h.inv hs
    | close => exact sysClose_spared h hs
    | getpid => exact .done (Spared.refl k q) hs
    | read => simp at hdata
    | readdir => simp at hdata
    | pipe => simp at hdata
  · exact Spared.trans (.modProc (fun _ => h.open) rfl) (Spared.sched hs)
  · rename_i hv
    exact keyboard_spared (hd.key hv) hs
  · split at hs
    · cases hs
      exact Spared.refl k q
    · cases hs

theorem userStore_patched {a : ℕ} {b : UInt8} (h : KInv k) (hc : (k.procs c).state ≠ .close)
    (hst : userStore k.phys (k.procs c).pgtbl a b = some m) : Patched k.phys m k.kPgtbl (spaces k)
      (live (ends k .rpipe) (ends k .wpipe)) c (patch a [b]) := by
  unfold userStore at hst
  simp only at hst
  split at hst
  · rename_i hcov
    cases hst
    obtain ⟨ha,hcov⟩ := hcov
    obtain ⟨hp,hu,hw⟩ := Pte.covers_puw hcov
    have hsp := h.owned.mem.space c _ _ (spaces_some hc)
    have hfull : entry k.phys (k.procs c).pgtbl (key 3 a) = .full (entry k.phys (k.procs c).pgtbl (key 3 a)).frame := by
      rcases ((hsp.agree _ (key_user ha)).cases hp).2 with he | he
      · exact he
      · rw [entry] at he
        rw [lookup] at hw
        rw [he] at hw
        exact absurd hw (by change ¬ (pteP ||| pteU).getLsbD 1 = true; decide)
    apply (Patched.setByte (b := b) h.owned.mem (spaces_some hc) ha hfull).congr
    intro x
    rw [patch_cons, patch_nil, Option.none_or]
  · cases hst

theorem userStore_spared {a : ℕ} {b : UInt8} (h : KInv k) (hc : (k.procs c).state ≠ .close)
    (hst : userStore k.phys (k.procs c).pgtbl a b = some m) (hq : q ≠ c) : Spared k (k.setPhys m) q :=
  .setPhys fun hopen => (userStore_patched h hc hst).others q hq _ _ (spaces_some hopen)

/-! ## Runs -/

/-- A step of the machine during which process `q` does not run: no data is handed out, and if `q` is in `sys_wait`,
it stays there. -/
structure Rests (fs : Fs) (q : Slot) (k k' : Kernel) : Prop where
  step : Step fs (fun k c tr => Orderly k c tr ∧ Discreet k c tr) k k'
  idle : (k.procs q).state ≠ .running ∧ (k.procs q).state ≠ .close
  lasts : (k'.procs q).state ≠ .close
  waits : (k.procs q).waiting = true → (k'.procs q).waiting = true

theorem Step.mono {G G' : Kernel → Slot → Trap → Prop} (h : Step fs G k k') (hG : ∀ k c tr, G k c tr → G' k c tr) :
    Step fs G' k k' := by
  cases h with
  | trap hc hg hs => exact .trap hc (hG _ _ _ hg) hs
  | store hc hs => exact .store hc hs

theorem Reachable.then {G : Kernel → Slot → Trap → Prop} (hr : Reachable fs G k) (h : Step fs G k k') :
    Reachable fs G k' := by
  obtain ⟨k₀,h₀,hrun⟩ := hr
  exact ⟨k₀,h₀,hrun.tail h⟩

theorem Rests.spared (h : Rests fs q k k') (hs : Sys k c) : Spared k k' q := by
  have hq : q ≠ c := by
    rintro rfl
    exact h.idle.1 hs.state
  obtain ⟨hstep,hidle,-,hwaits⟩ := h
  cases hstep with
  | trap hc hg hk =>
    obtain rfl := Option.some.inj (hc.symm.trans hs.cur)
    exact trap_spared hs hg.1 hg.2 hk (fun he => absurd he hq) hidle.2 fun _ => hwaits
  | store hc hk =>
    obtain rfl := Option.some.inj (hc.symm.trans hs.cur)
    exact userStore_spared hs.inv hs.open hk hq

theorem timer_discreet (k : Kernel) (c : Slot) : Discreet k c timerTrap := by
  have hv : timerTrap.vecnum = 33 := rfl
  refine ⟨fun _ hc => ?_,fun hc => ?_,fun hc => ?_,fun hk => ?_,fun hf => ?_⟩
  · exact absurd (hv.symm.trans hc.1) (by decide)
  · exact absurd (hv.symm.trans hc.1) (by decide)
  · exact absurd (hv.symm.trans hc.1) (by decide)
  · exact absurd (hv.symm.trans hk) (by decide)
  · rcases hf with h | ⟨h,-⟩ | ⟨h,-⟩ <;> exact absurd (hv.symm.trans h) (by decide)

end Ukern
