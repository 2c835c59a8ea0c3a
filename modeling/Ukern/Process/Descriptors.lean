import Ukern.Process.Calls

/-! # Allocation of descriptors

`sys_open`, `sys_opendir` and `sys_pipe` look for a free entry with `fd < 256`, over a table
of 64 entries.
-/
namespace Ukern
open Lib
variable {fs : Fs} {k k' : Kernel} {c : Slot} {tf : Context} {o : Outcome} {opendir : Bool} {fd : ℕ} {m m' : Phys}

/-- Entry `fd` of the table is free. -/
def Proc.FreeAt (p : Proc) (fd : ℕ) : Prop := fd < nfdesc ∧ (p.fdesc fd).inuse = false

/-- The number that `x` carries passes the range test of the calls, and its entry is in use. -/
def Proc.Accepts (p : Proc) (x : U64) : Prop := ∃ fd, fdOf x = some fd ∧ (p.fdesc fd).inuse = true

/-- Of all processes only `c` changed, and of `c` only entries of its table. -/
def OnlyFdesc (k k' : Kernel) (c : Slot) : Prop :=
  (∀ j ≠ c, k'.procs j = k.procs j) ∧
    ∃ fds, k'.procs c = { k.procs c with fdesc := fds } ∧ ∀ fd, nfdesc ≤ fd → fds fd = (k.procs c).fdesc fd

/-- A call of process `c` that is to hand out one descriptor. -/
def OpensInside (k : Kernel) (c : Slot) (call : Except Fault Outcome) : Prop :=
  call ≠ .error .overrun ∧ ∀ o, call = .ok o → ∃ tf k', o = .ret tf k' ∧ OnlyFdesc k k' c ∧
    ((∃ fd, (k.procs c).FreeAt fd ∧ tf.rax = BitVec.ofNat 64 fd ∧ (k'.procs c).Accepts tf.rax) ∨ tf.rax.toInt < 0) ∧
    ((∀ fd, ¬ (k.procs c).FreeAt fd) → tf.rax = neg emfile)

/-- The path recorded for the caller's argument stays inside `path[256]`. -/
def PathFits (fs : Fs) (k : Kernel) (c : Slot) (path : U64) : Prop :=
  fs.resolve (userPath k.phys (k.procs c).pgtbl path) (k.procs c).pwd ≠ .error .overrun ∧
    ∀ r m, fs.resolve (userPath k.phys (k.procs c).pgtbl path) (k.procs c).pwd = .ok r →
      diskRead k.kPgtbl k.phys r.blocks = .ok m → r.path.length < 256

theorem freeFd_error {p : Proc} {fd₀ : ℕ} {e : Fault} (h : freeFd p fd₀ = .error e) :
    e = .overrun ∧ ∀ fd, fd₀ ≤ fd → ¬ p.FreeAt fd := by
  unfold freeFd at h
  split at h
  · cases h
  · rename_i hn
    cases h
    refine ⟨rfl,fun fd hle hf => ?_⟩
    have h1 := List.find?_eq_none.mp hn fd (List.mem_range.mpr hf.1)
    simp [hle,hf.2] at h1

theorem fdOf_ofNat (h : fd < nfdesc) : fdOf (BitVec.ofNat 64 fd) = some fd := by
  have hint : toInt32 (BitVec.ofNat 64 fd) = fd := by
    unfold nfdesc at h
    unfold toInt32
    rw [BitVec.toInt_eq_toNat_cond]
    simp only [BitVec.toNat_setWidth,BitVec.toNat_ofNat]
    split <;> omega
  unfold nfdesc at h
  rw [fdOf, hint, if_pos (by omega)]
  simp

theorem onlyFdesc_setFdesc {f : FileDesc} (h : fd < nfdesc) :
    OnlyFdesc k ((k.setPhys m).setFdesc c fd f) c := by
  refine ⟨fun j hj => by rw [Kernel.setFdesc, Kernel.modProc_ne _ _ _ hj]; rfl,_,Kernel.modProc_self ..,fun fd' hfd' => ?_⟩
  exact Function.update_of_ne (by omega) ..

/-- The computation stays inside the arrays of `struct proc`. -/
def Inside {α : Type} (x : Except Fault α) : Prop := x ≠ .error .overrun

namespace Inside
variable {α β : Type} {x : Except Fault α} {f : α → Except Fault β} {a : α} {e : Fault}

theorem ok : Inside (.ok a) := nofun

theorem bind (hx : Inside x) (hf : ∀ a, x = .ok a → Inside (f a)) : Inside (x >>= f) := by
  cases x with
  | error e =>
    intro h
    exact hx (congrArg Except.error (Except.error.inj h))
  | ok a => exact hf a rfl

theorem allocPage (m : Phys) (z : Bool) : Inside (Ukern.allocPage m z) := by
  unfold Ukern.allocPage
  split
  · exact ok
  split
  · nofun
  split
  · nofun
  · exact ok

theorem getPage (m : Phys) (z : Bool) : Inside (Ukern.getPage m z) := by
  refine bind (allocPage m z) fun r _ => ?_
  split
  · nofun
  · exact ok

theorem freePage (m : Phys) (pg : ℕ) : Inside (Ukern.freePage m pg) := by
  unfold Ukern.freePage
  split
  · nofun
  split
  · nofun
  split <;> exact ok

theorem freeAlloced (m : Phys) (l : List (Option ℕ)) : Inside (Ukern.freeAlloced m l) := by
  induction l generalizing m with
  | nil => exact ok
  | cons a l ih =>
    cases a with
    | none => exact ok
    | some pg => exact bind (freePage m pg) fun m' _ => ih m'

theorem walkFrom (create : Bool) (v l : ℕ) (m : Phys) (t : ℕ) (alloced : List (Option ℕ)) :
    Inside (Ukern.walkFrom create v l m t alloced) := by
  induction l generalizing m t alloced with
  | zero => exact ok
  | succ l ih =>
    unfold Ukern.walkFrom
    simp only
    split
    · nofun
    split
    · exact ih _ _ _
    split
    · exact ok
    · refine bind (allocPage m true) fun r _ => ?_
      split
      · exact bind (freeAlloced _ _) fun _ _ => ok
      · exact ih _ _ _

theorem walkSlot (m : Phys) (t v : ℕ) (create : Bool) : Inside (Ukern.walkSlot m t v create) := by
  refine bind (walkFrom create v 3 m t []) fun r _ => ?_
  split
  · exact ok
  · nofun

theorem diskRead (kp : ℕ) (m : Phys) (bs : List (ℕ × ℕ)) : Inside (Ukern.diskRead kp m bs) := by
  induction bs generalizing m with
  | nil => exact ok
  | cons b bs ih =>
    unfold Ukern.diskRead
    rw [List.foldlM_cons]
    refine bind (bind (walkSlot _ _ _ _) fun r _ => ?_) fun m' _ => ih m'
    obtain ⟨t,i,m₁⟩ := r
    simp only
    split
    · exact bind (getPage _ _) fun _ _ => ok
    · exact ok

theorem kstores (m : Phys) (t : ℕ) (v : U64) (bs : List UInt8) : Inside (Ukern.kstores m t v bs) := by
  induction bs generalizing m v with
  | nil => exact ok
  | cons b bs ih =>
    refine bind ?_ fun m' _ => ih m' (v+1)
    unfold Ukern.kstore
    split
    · nofun
    split
    · nofun
    · exact ok

end Inside

theorem exfatOpen_inside (fs : Fs) (opendir : Bool) (m : Phys) (kp : ℕ) (path : ℕ → Option UInt8) (pwd f : FileDesc) :
    Inside (exfatOpen fs m kp path pwd f opendir) ↔ fs.resolve path pwd ≠ .error .overrun ∧
      ∀ r m₁, fs.resolve path pwd = .ok r → diskRead kp m r.blocks = .ok m₁ → r.path.length < 256 := by
  unfold exfatOpen
  cases hr : fs.resolve path pwd with
  | error e =>
    constructor
    · exact fun h => ⟨fun he => h (by rw [Except.error.inj he]; rfl),nofun⟩
    · exact fun h he => h.1 (congrArg Except.error (Except.error.inj he))
  | ok r =>
    constructor
    · refine fun h => ⟨nofun,fun r' m₁ he hd => ?_⟩
      cases he
      by_contra hlen
      apply h
      simp only [bind,Except.bind,hd]
      rw [if_pos (by omega)]
    · intro h
      refine Inside.bind .ok fun r' he => ?_
      cases he
      refine Inside.bind (Inside.diskRead _ _ _) fun m₁ hd => ?_
      have hlen := h.2 r m₁ rfl hd
      simp only
      rw [if_neg (by omega)]
      split
      · exact .ok
      split
      · exact .ok
      split <;> exact .ok

theorem exfatOpen_neg {path : ℕ → Option UInt8} {pwd f f' : FileDesc} {kp : ℕ} {r : U64}
    (h : exfatOpen fs m kp path pwd f opendir = .ok (r,f',m')) : r = 0 ∨ r.toInt < 0 := by
  unfold exfatOpen at h
  obtain ⟨res,-,h⟩ := bind_eq_ok.mp h
  obtain ⟨m₁,-,h⟩ := bind_eq_ok.mp h
  simp only at h
  split at h
  · cases h
  split at h
  · rename_i e _
    cases h
    right
    cases e <;> decide
  split at h
  · cases h
    exact Or.inr (by decide)
  split at h
  · cases h
    exact Or.inr (by decide)
  · cases h
    exact Or.inl rfl

/-- One search for a descriptor, then the file: the table is not left if and only if an entry
is free and the path fits. -/
theorem sysOpenAs_inside_iff
    (hptr : checkStr k.phys (k.procs c).pPgtbl tf.rdx 256 pteU = .ok true) :
    OpensInside k c (sysOpenAs opendir fs k c tf) ↔ (∃ fd, (k.procs c).FreeAt fd) ∧ PathFits fs k c tf.rdx := by
  unfold sysOpenAs
  extract_lets p
  rw [hptr, ok_bind, if_neg (by simp)]
  cases hfd : freeFd p 0 with
  | error e =>
    obtain ⟨rfl,hfull⟩ := freeFd_error hfd
    rw [error_bind]
    constructor
    · exact fun h => absurd rfl h.1
    · rintro ⟨⟨fd,hf⟩,-⟩
      exact absurd hf (hfull fd (Nat.zero_le _))
  | ok fd =>
    obtain ⟨hlt,-,hfree⟩ := freeFd_ok hfd
    have hat : (k.procs c).FreeAt fd := ⟨hlt,hfree⟩
    rw [ok_bind]
    have hin := exfatOpen_inside fs opendir k.phys k.kPgtbl
      (userPath k.phys (k.procs c).pgtbl tf.rdx) (k.procs c).pwd ((k.procs c).fdesc fd)
    cases ho : exfatOpen fs k.phys k.kPgtbl (userPath k.phys p.pgtbl tf.rdx) p.pwd (p.fdesc fd) opendir with
    | error e =>
      rw [ho] at hin
      rw [error_bind]
      constructor
      · exact fun h => ⟨⟨fd,hat⟩,hin.mp fun he => h.1 (by rw [Except.error.inj he])⟩
      · exact fun h => ⟨fun he => hin.mpr h.2 (by rw [Except.error.inj he]),nofun⟩
    | ok res =>
      obtain ⟨r,f,m⟩ := res
      rw [ho] at hin
      rw [ok_bind]
      have hno : ¬ ∀ fd, ¬ (k.procs c).FreeAt fd := fun h => h fd hat
      refine ⟨fun _ => ⟨⟨fd,hat⟩,hin.mp .ok⟩,fun _ => ⟨?_,fun o ho' => ?_⟩⟩
      · simp only
        split <;> nofun
      · simp only at ho'
        split at ho'
        · cases ho'
          refine ⟨_,_,rfl,onlyFdesc_setFdesc hlt,Or.inl ⟨fd,hat,rfl,fd,fdOf_ofNat hlt,?_⟩,fun h => absurd h hno⟩
          simp [Kernel.setFdesc]
        · rename_i hr
          cases ho'
          exact ⟨_,_,rfl,onlyFdesc_setFdesc hlt,Or.inr ((exfatOpen_neg ho).resolve_left hr),fun h => absurd h hno⟩

/-- A call of process `c` that is to hand out the two ends of a pipe. -/
def PipesInside (k : Kernel) (c : Slot) (call : Except Fault Outcome) : Prop :=
  call ≠ .error .overrun ∧ ∀ o, call = .ok o → ∃ tf k' rfd wfd, o = .ret tf k' ∧ OnlyFdesc k k' c ∧ rfd ≠ wfd ∧
    (k.procs c).FreeAt rfd ∧ (k.procs c).FreeAt wfd ∧
    (k'.procs c).Accepts (BitVec.ofNat 64 rfd) ∧ (k'.procs c).Accepts (BitVec.ofNat 64 wfd)

theorem pipeEnd_ok {pg : ℕ} {dst : U64} {ty : FileType} (h : pipeEnd k c pg fd dst ty = .ok k') (hfd : fd < nfdesc) :
    OnlyFdesc k k' c ∧ ((k'.procs c).fdesc fd).inuse = true ∧
      ∀ fd' ≠ fd, (k'.procs c).fdesc fd' = (k.procs c).fdesc fd' := by
  unfold pipeEnd at h
  obtain ⟨m,-,h⟩ := bind_eq_ok.mp h
  cases h
  refine ⟨onlyFdesc_setFdesc hfd,?_,fun fd' hne => ?_⟩
  · simp [Kernel.setFdesc]
  · simp only [Kernel.setFdesc,Kernel.modProc_self,Kernel.setPhys_procs,Function.update_of_ne hne]

theorem OnlyFdesc.trans {k₁ : Kernel} (h : OnlyFdesc k k₁ c) (h' : OnlyFdesc k₁ k' c) : OnlyFdesc k k' c := by
  obtain ⟨h1,fds,h2,h3⟩ := h
  obtain ⟨h4,fds',h5,h6⟩ := h'
  refine ⟨fun j hj => (h4 j hj).trans (h1 j hj),fds',by rw [h5, h2],fun fd hfd => ?_⟩
  rw [h6 fd hfd, h2]
  exact h3 fd hfd

theorem freeFd_le {p : Proc} {fd₀ fd' : ℕ} (h : freeFd p fd₀ = .ok fd) (hle : fd₀ ≤ fd') (hf : p.FreeAt fd') :
    fd ≤ fd' := by
  unfold freeFd at h
  split at h
  · rename_i i hi
    cases h
    by_contra hlt
    have h1 := (List.find?_range_eq_some.mp hi).2.2 fd' (by omega)
    simp [hle,hf.2] at h1
  · cases h

theorem sysPipe_ok (hptr : checkStr k.phys (k.procs c).pPgtbl tf.rdx 8 pteU = .ok true)
    (hs : sysPipe k c tf = .ok o) : ∃ tf k' rfd wfd, o = .ret tf k' ∧ OnlyFdesc k k' c ∧ rfd < wfd ∧
    (k.procs c).FreeAt rfd ∧ (k.procs c).FreeAt wfd ∧
    (k'.procs c).Accepts (BitVec.ofNat 64 rfd) ∧ (k'.procs c).Accepts (BitVec.ofNat 64 wfd) := by
  unfold sysPipe at hs
  rw [hptr, ok_bind, if_neg (by simp)] at hs
  obtain ⟨⟨pg,m⟩,-,hs⟩ := bind_eq_ok.mp hs
  obtain ⟨rfd,hr,hs⟩ := bind_eq_ok.mp hs
  obtain ⟨k₂,h₂,hs⟩ := bind_eq_ok.mp hs
  obtain ⟨wfd,hw,hs⟩ := bind_eq_ok.mp hs
  obtain ⟨k₃,h₃,hs⟩ := bind_eq_ok.mp hs
  obtain ⟨hrlt,-,hrfree⟩ := freeFd_ok hr
  obtain ⟨hwlt,hle,hwfree⟩ := freeFd_ok hw
  obtain ⟨ho₂,huse₂,hrest₂⟩ := pipeEnd_ok h₂ hrlt
  obtain ⟨ho₃,huse₃,hrest₃⟩ := pipeEnd_ok h₃ hwlt
  rw [hrest₂ wfd (by omega)] at hwfree
  cases hs
  refine ⟨_,k₃,rfd,wfd,rfl,?_,by omega,⟨hrlt,hrfree⟩,⟨hwlt,hwfree⟩,⟨rfd,fdOf_ofNat hrlt,?_⟩,wfd,fdOf_ofNat hwlt,huse₃⟩
  · have ho : OnlyFdesc k k₂ c := ⟨ho₂.1,ho₂.2⟩
    exact ho.trans ho₃
  · rw [hrest₃ rfd (by omega)]
    exact huse₂

theorem sysPipe_inside (hfree : ∃ a b, a < b ∧ (k.procs c).FreeAt a ∧ (k.procs c).FreeAt b)
    (hptr : checkStr k.phys (k.procs c).pPgtbl tf.rdx 8 pteU = .ok true) : PipesInside k c (sysPipe k c tf) := by
  refine ⟨?_,fun o ho => ?_⟩
  · obtain ⟨a,b,hab,ha,hb⟩ := hfree
    unfold sysPipe
    rw [hptr, ok_bind, if_neg (by simp)]
    refine Inside.bind (Inside.getPage _ _) fun r _ => ?_
    obtain ⟨pg,m⟩ := r
    refine Inside.bind (fun he => ?_) fun rfd hr => ?_
    · exact (freeFd_error he).2 a (Nat.zero_le _) ha
    have hra := freeFd_le hr (Nat.zero_le _) ha
    refine Inside.bind (Inside.bind (Inside.kstores _ _ _ _) fun _ _ => .ok) fun k₂ h₂ => ?_
    obtain ⟨-,-,hrest⟩ := pipeEnd_ok h₂ (freeFd_ok hr).1
    refine Inside.bind (fun he => ?_) fun wfd hw => ?_
    · refine (freeFd_error he).2 b (by omega) ⟨hb.1,?_⟩
      rw [hrest b (by omega)]
      exact hb.2
    · exact Inside.bind (Inside.bind (Inside.kstores _ _ _ _) fun _ _ => .ok) fun _ _ => .ok
  · obtain ⟨tf,k',rfd,wfd,h1,h2,h3,h4⟩ := sysPipe_ok hptr ho
    exact ⟨tf,k',rfd,wfd,h1,h2,by omega,h4⟩

/-- Memory with one user page at 0x1000, all zero: tables in frames 1 to 4 and again in 6 to 9,
the page in frame 5. -/
def onePage : Phys where
  tbl t i := if (t,i) = (1,0) then .full 2 else if (t,i) = (2,0) then .full 3 else if (t,i) = (3,0) then .full 4
    else if (t,i) = (4,1) then .full 5 else if (t,i) = (6,0) then .full 7 else if (t,i) = (7,0) then .full 8
    else if (t,i) = (8,0) then .full 9 else if (t,i) = (9,1) then .full 5 else .zero
  data _ _ := 0
  pipe _ := .zero
  ref _ := 1
  free := [10,11,12]
  nfreepages := 3
  usable _ := true
  endKmem := 0
  maxAddr := 13 * 4096

/-- Process 0 runs in that memory, with the given descriptors. -/
def onePageKernel (fds : ℕ → FileDesc) : Kernel where
  phys := onePage
  kPgtbl := 0
  procs := Function.update (fun _ => .zero) (slotAt 0) { Proc.zero with
    pgtbl := 1, pPgtbl := 6, pid := 1, state := .running, fdesc := fds }
  curproc := some (slotAt 0)
  kbdProc := none
  kbdBuffer _ := 0
  kbdBufBeg := 0
  kbdBufSiz := 0
  gPid := 1
  argvBuf _ := 0

/-- A system call with its argument at the last byte of the page. -/
def callAt (num : U64) : Context := { Context.zero with rax := num, rdx := 0x1FFF }

/-- A file system that is its root directory. -/
def rootFs : Fs where
  resolve _ _ := .ok ⟨.ok ⟨0,1,true,0⟩,[],[]⟩
  content _ _ := 0
  readBlocks _ _ := []
  dirent _ := ([],0)
  dirBlocks _ := []

/-- How a computation failed. -/
def faultOf {α : Type} : Except Fault α → Option Fault
  | .error e => some e
  | .ok _ => none

theorem eq_error_of_faultOf {α : Type} {x : Except Fault α} {e : Fault} (h : faultOf x = some e) : x = .error e := by
  cases x with
  | error e' => exact congrArg _ (Option.some.inj h)
  | ok a => cases h

end Ukern
