import Ukern.Process.Calls

/-! # `sys_exec` and `create_proc`

The image stands in the kernel table while the old tables are given up and new ones are
filled from it.
-/
namespace Ukern
open Lib Lib.Radix
variable {k k' k₁ : Kernel} {c n : Slot} {m m' m₁ m₂ : Phys} {kp : ℕ} {sp : Spaces} {extra : ℕ → ℕ}
  {frames : List ℕ} {tf : Context} {o : Outcome} {argc : U64}

theorem imgAt_congr (h : ∀ pg ∈ frames, m'.data pg = m.data pg) (a : ℕ) : imgAt frames m' a = imgAt frames m a := by
  unfold imgAt
  split
  · split
    · rename_i pg hpg
      rw [h pg (List.mem_of_getElem? hpg)]
    · rfl
  · rfl

theorem field_congr (h : ∀ pg ∈ frames, m'.data pg = m.data pg) (a n : ℕ) :
    (imgAt frames).field m' a n = (imgAt frames).field m a n := by
  induction n generalizing a with
  | zero => rfl
  | succ n ih => rw [Img.field, Img.field, imgAt_congr h, ih]

/-- Entries of the kernel table after a step that writes no page but free ones. -/
theorem Grow.imgMapped {new : List ℕ} (hg : Grow m m' new (fun _ => False) (fun _ => 0))
    (h : MemInv m kp sp extra) (him : ImgMapped m kp frames) : ImgMapped m' kp frames := by
  have hsame : Same Pte.link 512 m.tbl m'.tbl 3 512 kp := same_of_pages fun x hx =>
    hg.tbl x id fun hn => hx (h.kernel_table.fresh x (hg.new_free hn))
  intro i pg hi
  have he : entry m' kp (imgKey i) = entry m kp (imgKey i) := hsame.leafAt (by decide) (imgKey_lt i)
  rw [he]
  exact him i pg hi

/-- The part of `sys_exec` that replaces the tables of `c`. -/
structure Loaded (k k' : Kernel) (c : Slot) (argc : U64) (extra : ℕ → ℕ) (frames : List ℕ) : Prop where
  mem : MemInv k'.phys k.kPgtbl (Function.update (spaces k) c (some ((k'.procs c).pgtbl,(k'.procs c).pPgtbl)))
    (fun x => extra x + frames.count x)
  img : ImgMapped k'.phys k.kPgtbl frames
  pipe : ∀ x, extra x ≠ 0 → k'.phys.pipe x = k.phys.pipe x
  procs : ∀ j ≠ c, k'.procs j = k.procs j
  self : ∃ a b e ctx, k'.procs c = { k.procs c with
    pgtbl := a, pPgtbl := b, endUmem := e, context := ctx, state := .ready }
  globals : k'.kPgtbl = k.kPgtbl ∧ k'.curproc = k.curproc ∧ k'.kbdProc = k.kbdProc
  args : Laid k'.phys (k'.procs c).pgtbl ((List.range (nargs * arglen)).map k.argvBuf)
  context : ∃ entry, (k'.procs c).context = { Context.zero.start entry with rdi := argc }

theorem execLoad_spec (h : MemInv k.phys k.kPgtbl (spaces k) (fun x => extra x + frames.count x))
    (him : ImgMapped k.phys k.kPgtbl frames) (hc : (k.procs c).state ≠ .close)
    (hmagic : (imgAt frames).field k.phys execImg 4 = .ok elfMagic)
    (he : execLoad (imgAt frames) k c tf = .ok k') : Loaded k k' c tf.rcx extra frames := by
  unfold execLoad at he
  obtain ⟨m₁,hf₁,he⟩ := bind_eq_ok.mp he
  obtain ⟨m₂,hf₂,he⟩ := bind_eq_ok.mp he
  obtain ⟨⟨a,m₃⟩,ha,he⟩ := bind_eq_ok.mp he
  obtain ⟨⟨b,m₄⟩,hb,he⟩ := bind_eq_ok.mp he
  obtain ⟨⟨r,endUmem,m₅⟩,hl,he⟩ := bind_eq_ok.mp he
  simp only [Kernel.modProc_phys,Kernel.modProc_self,Kernel.setPhys_phys,Kernel.setPhys_procs,
    Kernel.modProc_kPgtbl,Kernel.setPhys_kPgtbl] at hf₁ hf₂ hl he
  obtain ⟨m₁',m₂',hf₁',hf₂',hrel,hsh⟩ := h.release (spaces_some hc)
  rw [hf₁] at hf₁'
  cases hf₁'
  rw [hf₂] at hf₂'
  cases hf₂'
  have hB := Build.start hrel.acct.nodup ha hb
  have hheld : ∀ x, extra x + frames.count x ≠ 0 → x ∉ m₂.free := fun x hx =>
    hrel.own_not_free (by simp only [own]; omega)
  have hdata : ∀ pg ∈ frames, m₄.data pg = k.phys.data pg := fun pg hpg => by
    have hcnt := List.count_pos_iff.mpr hpg
    rw [hB.grow.data pg fun hn => hheld pg (by omega) (hB.grow.new_free hn), hsh.data]
  obtain ⟨rfl,new,hB₂⟩ := loadImg_spec (q := { k.procs c with
    state := .pending, pgtbl := a, pPgtbl := b }) hB hrel.acct.nodup (by rw [field_congr hdata]; exact hmagic) hl
  rw [if_neg (by simp)] at he
  obtain ⟨⟨ok,m₆⟩,hbs,he⟩ := bind_eq_ok.mp he
  obtain ⟨rfl,hmem,⟨new',hg⟩,hargs'⟩ := buildSpace_spec (c := c) (q := { k.procs c with
    state := .pending, pgtbl := a, pPgtbl := b, endUmem := endUmem }) hB₂ hrel (by simp [nargs,arglen,pgsize]) hbs
  obtain ⟨entry,-,he⟩ := bind_eq_ok.mp he
  simp only [Except.ok.injEq] at he
  rw [Function.update_idem] at hmem
  have him₂ : ImgMapped m₂ k.kPgtbl frames := fun i pg hi => by
    have h1 := him i pg hi
    simp only [Ukern.entry,hsh.tbl] at h1 ⊢
    exact h1
  subst he
  refine ⟨?_,?_,fun x hx => ?_,fun j hj => ?_,?_,⟨rfl,rfl,rfl⟩,?_,entry,by rw [Kernel.modProc_self]⟩
  · simp only [Kernel.modProc_self,Kernel.modProc_phys,Kernel.setPhys_phys,Kernel.setPhys_procs]
    exact hmem
  · exact hg.imgMapped hrel him₂
  · simp only [Kernel.modProc_phys,Kernel.setPhys_phys]
    rw [hg.pipe x fun hn => hheld x (by omega) (hg.new_free hn), hsh.pipe]
  · simp only [Kernel.modProc_ne _ _ _ hj,Kernel.setPhys_procs]
  · exact ⟨a,b,endUmem,{ Context.zero.start entry with rdi := tf.rcx },by
      simp only [Kernel.modProc_self,Kernel.setPhys_procs]⟩
  · simp only [Kernel.modProc_self,Kernel.modProc_phys,Kernel.setPhys_phys,Kernel.setPhys_procs]
    exact hargs'

/-- A successful `sys_exec`, before it leaves through `sched`. -/
structure ExecOk (k k' : Kernel) (c : Slot) : Prop where
  inv : KInv k'
  procs : ∀ j ≠ c, k'.procs j = k.procs j
  self : ∃ a b e ctx, k'.procs c = { k.procs c with
    pgtbl := a, pPgtbl := b, endUmem := e, context := ctx, state := .ready }
  ends_eq : ends k' = ends k
  pipe : ∀ pg, ends k .rpipe pg + ends k .wpipe pg ≠ 0 → k'.pipe pg = k.pipe pg
  globals : k'.kPgtbl = k.kPgtbl ∧ k'.curproc = k.curproc ∧ k'.kbdProc = k.kbdProc
  args : Laid k'.phys (k'.procs c).pgtbl ((List.range (nargs * arglen)).map k.argvBuf)

theorem Loaded.ok (h : KInv k) (hc : (k.procs c).state ≠ .close)
    (hl : Loaded k k' c argc (live (ends k .rpipe) (ends k .wpipe)) frames)
    (hu : unmapImg k.kPgtbl k'.phys frames.length = .ok m) : ExecOk k (k'.setPhys m) c := by
  obtain ⟨hm,hdata,hp,htbl⟩ := unmapImg_spec hl.mem hl.img hu
  have hkeep := (hl.mem.keep_of_kernel (Function.update_self ..) htbl).1
  obtain ⟨a,b,e,ctx,hself⟩ := hl.self
  have hlike : ∀ j, j ≠ c → (k.procs j).Like (k'.procs j) := fun j hj => by
    rw [hl.procs j hj]
    exact ⟨rfl,rfl,rfl,Iff.rfl⟩
  have hends : ends k' = ends k := by
    funext ty pg
    refine Finset.sum_congr rfl fun j _ => ?_
    by_cases hj : j = c
    · rw [hj, hself, Proc.ends, Proc.ends, if_neg hc, if_neg (by rintro ⟨⟩)]
      rfl
    · rw [hl.procs j hj]
  have hpipe : ∀ pg, live (ends k .rpipe) (ends k .wpipe) pg ≠ 0 → m.pipe pg = k.phys.pipe pg := fun pg hpg => by
    rw [hp, hl.pipe pg hpg]
  refine ⟨h.retable (n := c) hlike hends ?_ (fun j hj => ?_) hm hpipe rfl hl.globals.1,hl.procs,
    ⟨a,b,e,ctx,hself⟩,hends,fun pg hpg => ?_,hl.globals,?_⟩
  · rw [Kernel.setPhys_procs, hself]
    rintro ⟨⟩
  · rw [Kernel.setPhys_procs, hl.procs j hj]
  · rw [Kernel.pipe, Kernel.setPhys_phys, hpipe pg (live_ne hpg)]
    rfl
  · exact hl.args.keep hkeep hdata

/-- The frames of the image came from the free list, where no pipe is. -/
theorem Loaded.of_setPhys (hl : Loaded (k.setPhys m) k' c argc extra frames)
    (hp : ∀ x, extra x ≠ 0 → m.pipe x = k.phys.pipe x) : Loaded k k' c argc extra frames :=
  { hl with pipe := fun x hx => (hl.pipe x hx).trans (hp x hx) }

theorem saveArg_eq {t : ℕ} {src : U64} {i n j : ℕ} (h : saveArg k t src i n j = .ok k') :
    ∃ a, k' = { k with argvBuf := a } := by
  have hput : ∀ {k k' : Kernel} {a : ℕ} {b : UInt8}, saveArg.put k a b = .ok k' → ∃ a, k' = { k with argvBuf := a } := by
    intro k k' a b h
    unfold saveArg.put at h
    split at h
    · cases h
      exact ⟨_,rfl⟩
    · cases h
  induction n generalizing k j with
  | zero => exact hput h
  | succ n ih =>
    obtain ⟨b,-,h⟩ := bind_eq_ok.mp h
    split at h
    · exact hput h
    · obtain ⟨k₁,h1,h⟩ := bind_eq_ok.mp h
      obtain ⟨a₁,rfl⟩ := hput h1
      obtain ⟨a,rfl⟩ := ih h
      exact ⟨a,rfl⟩

theorem saveArgs_eq {argv : U64} {n i : ℕ} {b : Bool} (h : saveArgs k c argv n i = .ok (b,k')) :
    ∃ a, k' = { k with argvBuf := a } := by
  induction n generalizing k i with
  | zero =>
    cases h
    exact ⟨_,rfl⟩
  | succ n ih =>
    obtain ⟨arg,-,h⟩ := bind_eq_ok.mp h
    obtain ⟨ok,-,h⟩ := bind_eq_ok.mp h
    split at h
    · cases h
      exact ⟨_,rfl⟩
    · obtain ⟨k₁,h1,h⟩ := bind_eq_ok.mp h
      obtain ⟨a₁,rfl⟩ := saveArg_eq h1
      obtain ⟨a,rfl⟩ := ih h
      exact ⟨a,rfl⟩

theorem Quiet.argvBuf (h : KInv k) (a : ℕ → UInt8) : Quiet k { k with argvBuf := a } :=
  ⟨⟨⟨h.owned.mem,h.owned.refs⟩,h.closed⟩,fun _ => .refl _,⟨rfl,rfl⟩,fun _ _ => ⟨rfl,rfl⟩,⟨rfl,rfl,rfl⟩⟩

/-- The image was replaced: the arguments were saved in `k₁`, and `k₂` is the state at `sched`. -/
structure Execed (k : Kernel) (c : Slot) (tf : Context) (k₁ k₂ : Kernel) : Prop where
  quiet : Quiet k k₁
  ok : ExecOk k₁ k₂ c
  saved : saveArgs k c tf.rbx (toInt32 tf.rcx).toNat 0 = .ok (true,{ k with argvBuf := k₁.argvBuf })
  context : ∃ entry, (k₂.procs c).context = { Context.zero.start entry with rdi := tf.rcx }

/-- `sys_exec` refuses and returns, or replaces the image and leaves through `sched`. -/
theorem sysExec_spec {fs : Fs} (h : KInv k) (hc : (k.procs c).state ≠ .close)
    (hs : sysExec fs k c tf = .ok o) :
    Returned k o ∨ ∃ k₁ k₂, Execed k c tf k₁ k₂ ∧ k₂.sched = .ok o := by
  unfold sysExec at hs
  simp only at hs
  split at hs
  · exact Or.inl (.done (.refl h) hs)
  obtain ⟨⟨ok,k₁⟩,ha,hs⟩ := bind_eq_ok.mp hs
  obtain ⟨a,rfl⟩ := saveArgs_eq ha
  have hq₁ : Quiet k { k with argvBuf := a } := .argvBuf h a
  have hbuf : ({ k with argvBuf := a } : Kernel).argvBuf = a := rfl
  generalize hk₁ : ({ k with argvBuf := a } : Kernel) = k₁ at hs hq₁ hbuf
  have hc₁ : (k₁.procs c).state ≠ .close := by rw [(hq₁.procs c).state]; exact hc
  cases ok with
  | false => exact Or.inl (.done hq₁ hs)
  | true =>
  obtain ⟨⟨r,f,m⟩,ho,hs⟩ := bind_eq_ok.mp hs
  have hq₂ := (exfatOpen_quiet hq₁.inv ho).1
  replace hbuf : (k₁.setPhys m).argvBuf = a := hbuf
  generalize k₁.setPhys m = k₂ at hs hq₂ hbuf
  have hc₂ : (k₂.procs c).state ≠ .close := by rw [(hq₂.procs c).state]; exact hc₁
  simp only at hs
  split at hs
  · exact Or.inl (.done (hq₁.trans hq₂) hs)
  obtain ⟨⟨frames,m₃⟩,hmap,hs⟩ := bind_eq_ok.mp hs
  obtain ⟨m₄,hrd,hs⟩ := bind_eq_ok.mp hs
  obtain ⟨mg,hmg,hs⟩ := bind_eq_ok.mp hs
  obtain ⟨hlen,hm₃,him₃,new,hk⟩ := mapImg_spec hq₂.inv.owned.mem hmap
  obtain ⟨hm₄,him₄,hp₄⟩ := readImg_spec hm₃ him₃ hrd
  rw [← hlen] at hs
  have hp : ∀ x, live (ends k₂ .rpipe) (ends k₂ .wpipe) x ≠ 0 → m₄.pipe x = k₂.phys.pipe x := fun x hx => by
    rw [hp₄ x (hm₃.own_not_free (by simp only [own]; omega)),
      hk.grow.pipe x fun hn => hq₂.inv.live_held hx (hk.grow.new_free hn)]
  split at hs
  · obtain ⟨m₅,hu,hs⟩ := bind_eq_ok.mp hs
    obtain ⟨hm₅,-,hp₅,-⟩ := unmapImg_spec hm₄ him₄ hu
    have hq₃ : Quiet k₂ (k₂.setPhys m₅) := .setPhys hq₂.inv hm₅ fun x hx => by rw [hp₅, hp x hx]
    exact Or.inl (.done ((hq₁.trans hq₂).trans hq₃) hs)
  · rename_i hmagic
    simp only [ne_eq,Decidable.not_not] at hmagic
    subst hmagic
    obtain ⟨k₃,hl,hs⟩ := bind_eq_ok.mp hs
    obtain ⟨m₅,hu,hs⟩ := bind_eq_ok.mp hs
    have hld := (execLoad_spec (k := k₂.setPhys m₄) hm₄ him₄ hc₂ hmg hl).of_setPhys hp
    rw [hld.globals.1] at hu
    refine Or.inr ⟨k₂,k₃.setPhys m₅,⟨hq₁.trans hq₂,hld.ok hq₂.inv hc₂ hu,?_,hld.context⟩,hs⟩
    rw [ha, hbuf, hk₁]

/-- `create_proc` brought slot `n` to life. -/
structure Created (k k' : Kernel) (n : Slot) : Prop where
  inv : KInv k'
  fresh : (k.procs n).state = .close
  procs : ∀ j ≠ n, k'.procs j = k.procs j
  self : ∃ q : Proc, k'.procs n = { k.procs n with
    pgtbl := q.pgtbl, pPgtbl := q.pPgtbl, pid := q.pid, endUmem := q.endUmem, pwd := q.pwd, fdesc := q.fdesc
    context := q.context, state := .ready }
  ends_eq : ends k' .rpipe = ends k .rpipe ∧ ends k' .wpipe = ends k .wpipe
  pipe : ∀ pg, ends k .rpipe pg + ends k .wpipe pg ≠ 0 →
    (k'.pipe pg).reader = (k.pipe pg).reader ∧ (k'.pipe pg).writer = (k.pipe pg).writer
  globals : k'.kPgtbl = k.kPgtbl ∧ k'.curproc = k.curproc ∧ k'.kbdProc = k.kbdProc

theorem loadImg_magic {img : Img} {base e' : ℕ} {q : Proc} (hl : loadImg img base m q = .ok (0,e',m')) :
    img.field m base 4 = .ok elfMagic := by
  unfold loadImg at hl
  obtain ⟨mg,hmg,hl⟩ := bind_eq_ok.mp hl
  split at hl
  · simp only [Except.ok.injEq,Prod.mk.injEq] at hl
    exact absurd hl.1 (by decide)
  · rename_i h
    simp only [ne_eq,Decidable.not_not] at h
    rw [hmg, h]

/-- The tables of a process in a fresh slot, before its record is complete. -/
theorem createTables_spec {img : Img} {a b e : ℕ} {args : List UInt8} {m₃ : Phys} {ok : Bool} (h : KInv k)
    (hn : (k.procs n).state = .close) (ha : getPage k.phys true = .ok (a,m₁)) (hb : getPage m₁ true = .ok (b,m₂))
    (hl : loadImg img 0 m₂ ((k.allot n a b m₂).procs n) = .ok (0,e,m₃)) (hargs : args.length ≤ pgsize)
    (hk : k₁ = ((k.allot n a b m₂).setPhys m₃).modProc n fun p => { p with endUmem := e })
    (hbs : buildSpace m₃ k.kPgtbl (k₁.procs n) args = .ok (ok,m)) :
    ok = true ∧ KInv (k₁.setPhys m) ∧ ends k₁ = ends k ∧
      ∀ pg, live (ends k .rpipe) (ends k .wpipe) pg ≠ 0 → m.pipe pg = k.phys.pipe pg := by
  have hself : k₁.procs n = { k.procs n with
      pgtbl := a, pPgtbl := b, state := .pending, pid := (k.gPid + 1) % 2^64, endUmem := e } := by
    rw [hk, Kernel.modProc_self, Kernel.setPhys_procs, allot_self]
  have hne : ∀ j ≠ n, k₁.procs j = k.procs j := fun j hj => by
    rw [hk, Kernel.modProc_ne _ _ _ hj, Kernel.setPhys_procs, allot_ne hj]
  have hlike : ∀ j ≠ n, (k.procs j).Like (k₁.procs j) := fun j hj => by
    rw [hne j hj]
    exact ⟨rfl,rfl,rfl,Iff.rfl⟩
  have hB := Build.start h.owned.mem.acct.nodup ha hb
  rw [allot_self] at hl
  obtain ⟨-,new,hB₂⟩ := loadImg_spec hB h.owned.mem.acct.nodup (loadImg_magic hl) hl
  rw [hself] at hbs
  obtain ⟨rfl,hmem,⟨new',hg⟩,-⟩ := buildSpace_spec (c := n) hB₂ h.owned.mem hargs hbs
  have hst : (k₁.procs n).state ≠ .close := by
    rw [hself]
    nofun
  have hends : ends k₁ = ends k := h.ends_open hn hlike (by rw [hself]) hst
  have hp : ∀ pg, live (ends k .rpipe) (ends k .wpipe) pg ≠ 0 → m.pipe pg = k.phys.pipe pg := fun pg hpg =>
    hg.pipe pg fun hnew => h.live_held hpg (hg.new_free hnew)
  refine ⟨rfl,?_,hends,hp⟩
  have hlike' : ∀ j ≠ n, (k.procs j).Like ((k₁.setPhys m).procs j) := hlike
  refine h.retable hlike' hends hst (fun j hj => ?_) ?_ hp rfl ?_
  · rw [Kernel.setPhys_procs, hne j hj]
  · rw [Kernel.setPhys_procs, hself]
    exact hmem
  · rw [hk]
    rfl

/-- A change of one record that keeps its tables and its ends of pipes. -/
theorem KInv.modRecord {g : Proc → Proc} (h : KInv k) (hst : (k.procs n).state ≠ .close)
    (hg : (g (k.procs n)).state ≠ .close) (htbl : (g (k.procs n)).pgtbl = (k.procs n).pgtbl ∧
      (g (k.procs n)).pPgtbl = (k.procs n).pPgtbl)
    (hhits : ∀ ty, ty = .rpipe ∨ ty = .wpipe → ∀ fd pg,
      ((g (k.procs n)).fdesc fd).hits ty pg = ((k.procs n).fdesc fd).hits ty pg) :
    KInv (k.modProc n g) ∧ ends (k.modProc n g) .rpipe = ends k .rpipe ∧
      ends (k.modProc n g) .wpipe = ends k .wpipe := by
  have hsp : spaces (k.modProc n g) = spaces k := by
    funext j
    by_cases hj : j = n
    · rw [hj, spaces, Kernel.modProc_self, spaceOf, if_neg hg, htbl.1, htbl.2, spaces_some hst]
    · rw [spaces, Kernel.modProc_ne _ _ _ hj]
      rfl
  have hends : ∀ ty, ty = .rpipe ∨ ty = .wpipe → ends (k.modProc n g) ty = ends k ty := fun ty hty => by
    funext pg
    refine Finset.sum_congr rfl fun j _ => ?_
    by_cases hj : j = n
    · rw [hj, Kernel.modProc_self, Proc.ends, Proc.ends, if_neg hst, if_neg hg]
      exact Finset.sum_congr rfl fun fd _ => hhits ty hty fd pg
    · rw [Kernel.modProc_ne _ _ _ hj]
  have hR := hends .rpipe (Or.inl rfl)
  have hW := hends .wpipe (Or.inr rfl)
  refine ⟨⟨by rw [hsp, hR, hW]; exact ⟨h.owned.mem,h.owned.refs⟩,fun j hj => ?_⟩,hR,hW⟩
  by_cases hjn : j = n
  · rw [hjn, Kernel.modProc_self] at hj
    exact absurd hj hg
  · rw [Kernel.modProc_ne _ _ _ hjn] at hj ⊢
    exact h.closed j hj

theorem createProc_spec {fs : Fs} {img : Img} (h : KInv k) (hs : createProc fs img k = .ok k') :
    ∃ n, Created k k' n := by
  unfold createProc at hs
  obtain ⟨⟨r,k₁⟩,ha,hs⟩ := bind_eq_ok.mp hs
  rcases allocProc_ok ha with ⟨rfl,-⟩ | ⟨n,a,b,m₁,m₂,rfl,hn,hga,hgb,rfl⟩
  · cases hs
  replace hn := closedSlot_closed hn
  obtain ⟨⟨r,e,m₃⟩,hl,hs⟩ := bind_eq_ok.mp hs
  simp only at hs
  split at hs
  · cases hs
  rename_i hr
  simp only [ne_eq,Decidable.not_not] at hr
  subst hr
  obtain ⟨⟨ok,m₄⟩,hbs,hs⟩ := bind_eq_ok.mp hs
  generalize hk₁ : ((k.allot n a b m₂).setPhys m₃).modProc n (fun p => { p with endUmem := e }) = k₁ at hbs hs
  have hkp : k₁.kPgtbl = k.kPgtbl ∧ k₁.curproc = k.curproc ∧ k₁.kbdProc = k.kbdProc ∧ k₁.phys = m₃ := by
    rw [← hk₁]
    exact ⟨rfl,rfl,rfl,rfl⟩
  rw [hkp.1, hkp.2.2.2] at hbs
  obtain ⟨rfl,hinv,hends,hp⟩ := createTables_spec h hn hga hgb hl (by simp) hk₁.symm hbs
  obtain ⟨⟨r,pwd,m₅⟩,ho,hs⟩ := bind_eq_ok.mp hs
  obtain ⟨entry,-,hs⟩ := bind_eq_ok.mp hs
  have hq := (exfatOpen_quiet hinv ho).1
  have hself : k₁.procs n = { k.procs n with
      pgtbl := a, pPgtbl := b, state := .pending, pid := (k.gPid + 1) % 2^64, endUmem := e } := by
    rw [← hk₁, Kernel.modProc_self, Kernel.setPhys_procs, allot_self]
  have hne : ∀ j ≠ n, k₁.procs j = k.procs j := fun j hj => by
    rw [← hk₁, Kernel.modProc_ne _ _ _ hj, Kernel.setPhys_procs, allot_ne hj]
  have hfd : ∀ fd, ((k₁.procs n).fdesc fd).inuse = false := by
    rw [hself]
    exact (h.closed n hn).2.2
  simp only [Except.ok.injEq] at hs
  obtain ⟨hinv',hR,hW⟩ := KInv.modRecord (n := n) (g := fun p => { p with
      pwd := pwd
      fdesc := fun fd =>
        if fd = 0 then { p.fdesc fd with fileType := .kbd, inuse := true }
        else if fd = 1 ∨ fd = 2 then { p.fdesc fd with fileType := .screen, inuse := true }
        else p.fdesc fd
      context := p.context.start entry
      state := .ready }) hq.inv (by simp [hself]) nofun ⟨rfl,rfl⟩ (fun ty hty fd pg => by
    rw [show (((k₁.setPhys m₄).setPhys m₅).procs n) = k₁.procs n from rfl, hits_unused (hfd fd)]
    simp only
    split_ifs
    · refine hits_plain ?_ hty pg
      exact ⟨nofun,nofun⟩
    · refine hits_plain ?_ hty pg
      exact ⟨nofun,nofun⟩
    · exact hits_unused (hfd fd) ty pg)
  have hrec : ∃ q : Proc, k'.procs n = { k.procs n with
      pgtbl := q.pgtbl, pPgtbl := q.pPgtbl, pid := q.pid, endUmem := q.endUmem, pwd := q.pwd, fdesc := q.fdesc
      context := q.context, state := .ready } := by
    refine ⟨k'.procs n,?_⟩
    rw [← hs, Kernel.modProc_self, Kernel.setPhys_procs, hself]
  subst hs
  refine ⟨n,hinv',hn,fun j hj => ?_,hrec,⟨?_,?_⟩,fun pg hpg => ?_,hkp.1,hkp.2.1,hkp.2.2.1⟩
  · rw [Kernel.modProc_ne _ _ _ hj]
    exact hne j hj
  · rw [← hends]
    exact hR
  · rw [← hends]
    exact hW
  · have h1 := hq.pipe pg (by rw [← hends] at hpg; exact hpg)
    rw [show (k₁.setPhys m₄).pipe pg = k.pipe pg from hp pg (live_ne hpg)] at h1
    exact h1

end Ukern
