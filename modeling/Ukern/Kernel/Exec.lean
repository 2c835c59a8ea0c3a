import Ukern.Kernel.Syscall

/-! # `load_img`, `sys_exec` and `create_proc`

The image stands at `EXEC_IMG` while it is loaded. An `Img` reads its bytes by
address; an address outside the mapped pages is not part of a loadable image.
-/
namespace Ukern

abbrev Img := Phys → ℕ → Except Fault UInt8

/-- A little-endian field of `n` bytes. -/
def Img.field (img : Img) (m : Phys) (a : ℕ) : ℕ → Except Fault ℕ
  | 0 => .ok 0
  | n+1 => do .ok ((← img m a).toNat + 256 * (← Img.field img m ((a+1) % 2^64) n))

def elfMagic : ℕ := 0x464C457F
def ptLoad : ℕ := 1

/-- `struct Elf64_Phdr`, the members in use. -/
structure Phdr where
  type : ℕ
  offset : ℕ
  vaddr : ℕ
  filesz : ℕ
  memsz : ℕ

def Img.phdr (img : Img) (m : Phys) (a : ℕ) : Except Fault Phdr := do
  .ok ⟨← img.field m a 4,← img.field m (a+8) 8,← img.field m (a+16) 8,← img.field m (a+32) 8,
    ← img.field m (a+40) 8⟩

/-- The page of an address while a segment is loaded: walk, take a page and map it.
`none` is the error return after `free_pgtbl`. -/
def loadPage (m : Phys) (pgtbl va : ℕ) : Except Fault (Option (ℕ × ℕ) × Phys) := do
  match ← walkPgtbl m pgtbl (va / pgsize * pgsize) true with
  | (.slot t i,m) =>
    let (pg,m) ← getPage m true
    .ok (some (t,i),m.setEntry t i ⟨pg,pteP ||| pteU ||| pteW⟩)
  | (_,m) => .ok (none,← freePgtbl m pgtbl true)

/-- A new page at the start of a segment and at each page boundary; `pte` is null before the
first page. -/
def loadSlot (m : Phys) (pgtbl : ℕ) (pte : Option (ℕ × ℕ)) (va : ℕ) : Except Fault (Option (ℕ × ℕ) × Phys) :=
  if pte.isNone ∨ va % pgsize = 0 then loadPage m pgtbl va else .ok (pte,m)

/-- The store `if (src <= fileend)`. -/
def loadByte (img : Img) (m : Phys) (fileend src pa : ℕ) : Except Fault Phys :=
  if src ≤ fileend then do .ok (m.setByte pa (← img m src)) else .ok m

/-- The byte loop of `load_img`. -/
def loadBytes (img : Img) (pgtbl fileend : ℕ) :
    ℕ → Phys → Option (ℕ × ℕ) → ℕ → ℕ → Except Fault (Bool × Phys)
  | 0, m, _, _, _ => .ok (true,m)
  | n+1, m, pte, src, va => do
    match ← loadSlot m pgtbl pte va with
    | (none,m) => .ok (false,m)
    | (some (t,i),m) =>
      let m ← loadByte img m fileend src ((m.tbl t i).frame * pgsize + va % pgsize)
      loadBytes img pgtbl fileend n m (some (t,i)) (src+1) ((va+1) % 2^64)

/-- The segment loop of `load_img`. The second component follows `end_umem`. -/
def loadSegs (img : Img) (base pgtbl : ℕ) : ℕ → ℕ → Phys → ℕ → Except Fault (Bool × ℕ × Phys)
  | 0, _, m, endUmem => .ok (true,endUmem,m)
  | n+1, a, m, endUmem => do
    let ph ← img.phdr m a
    if ph.type ≠ ptLoad then loadSegs img base pgtbl n (a+56) m endUmem
    else
      let src := (base + ph.offset) % 2^64
      let fileend := (src + ph.filesz) % 2^64
      let memend := (src + ph.memsz) % 2^64
      let endUmem := max endUmem ((ph.vaddr + ph.memsz) % 2^64)
      match ← loadBytes img pgtbl fileend (memend - src) m none src ph.vaddr with
      | (false,m) => .ok (false,endUmem,m)
      | (true,m) => loadSegs img base pgtbl n (a+56) m endUmem

/-- `load_img`. -/
def loadImg (img : Img) (base : ℕ) (m : Phys) (p : Proc) : Except Fault (U64 × ℕ × Phys) := do
  if (← img.field m base 4) ≠ elfMagic then .ok (neg enoexec,p.endUmem,m)
  else
    let phoff ← img.field m (base+32) 8
    let phnum ← img.field m (base+56) 2
    match ← loadSegs img base p.pgtbl phnum ((base + phoff) % 2^64) m p.endUmem with
    | (false,endUmem,m) => .ok (neg enomem,endUmem,m)
    | (true,endUmem,m) => .ok (0,endUmem,m)

/-- Map a fresh page at an unmapped user address, as both callers of `load_img` do for the
stack and for the arguments. `none` is an error of `walk_pgtbl`. -/
def mapFresh (m : Phys) (pgtbl va : ℕ) : Except Fault (Option ℕ × Phys) := do
  match ← walkPgtbl m pgtbl va true with
  | (.slot t i,m) =>
    if m.tbl t i ≠ .zero then .error .assertion
    else
      let (pg,m) ← getPage m true
      .ok (some pg,m.setEntry t i ⟨pg,pteP ||| pteU ||| pteW⟩)
  | (_,m) => .ok (none,m)

/-- The argument vector at the end of the stack page. -/
def uargv : List UInt8 := (List.range nargs).flatMap fun i => toBytes (uargs + 256 * i) 8

def userCs : U64 := 0x18 ||| 3
def userSs : U64 := 0x20 ||| 3
def userRflags : U64 := 0x02 ||| 0x200 ||| (3 <<< 12)

/-- Context of a new image. -/
def Context.start (c : Context) (entry : ℕ) : Context :=
  { c with
    rip := BitVec.ofNat 64 entry
    cs := userCs
    rsp := BitVec.ofNat 64 (ustack - nargs * 8)
    ss := userSs
    rflags := userRflags
    rsi := BitVec.ofNat 64 (ustack - nargs * 8) }

/-- Fill a page with the given bytes, from its start plus `off`. -/
def Phys.fill (m : Phys) (pg off : ℕ) (bs : List UInt8) : Phys := m.setBytes (pg * pgsize + off) bs

/-- Number of pages of the image: the steps of `while (addr < addr_end)`. -/
def imgPages (fileLen : ℕ) : ℕ := ((execImg + fileLen) % 2^64 - execImg + (pgsize - 1)) / pgsize

/-- One page of the image area. On a failed walk the code jumps to `free_img` and uses
`proc`, which has no value there yet. -/
def mapImgPage (kPgtbl : ℕ) (st : List ℕ × Phys) (i : ℕ) : Except Fault (List ℕ × Phys) := do
  match ← walkPgtbl st.2 kPgtbl (execImg + i * pgsize) true with
  | (.slot t j,m) =>
    if m.tbl t j ≠ .zero then .error .assertion
    else
      let (pg,m) ← getPage m true
      .ok (st.1 ++ [pg],m.setEntry t j ⟨pg,pteP⟩)
  | _ => .error .outOfBounds

def mapImg (kPgtbl : ℕ) (m : Phys) (n : ℕ) : Except Fault (List ℕ × Phys) :=
  (List.range n).foldlM (mapImgPage kPgtbl) ([],m)

/-- One page of the loop at `free_img`. -/
def unmapImgPage (kPgtbl : ℕ) (m : Phys) (i : ℕ) : Except Fault Phys := do
  match ← walkPgtbl m kPgtbl (execImg + i * pgsize) false with
  | (.slot t j,m) => .ok ((← freePage m (m.tbl t j).frame).setEntry t j .zero)
  | _ => .error .assertion

def unmapImg (kPgtbl : ℕ) (m : Phys) (n : ℕ) : Except Fault Phys :=
  (List.range n).foldlM (unmapImgPage kPgtbl) m

/-- `read_file` into the image area. -/
def readImg (fs : Fs) (m : Phys) (kPgtbl : ℕ) (frames : List ℕ) (f : FileDesc) : Except Fault Phys := do
  let m ← diskRead kPgtbl m (fs.readBlocks f (readLen f.fileLen f))
  (List.range (readLen f.fileLen f)).foldlM (fun m i =>
    match frames[i / pgsize]? with
    | some pg => .ok (m.setByte (pg * pgsize + i % pgsize) (fs.content f i))
    | none => .error .nullDeref) m

/-- The image as the kernel reads it at `EXEC_IMG`. -/
def imgAt (frames : List ℕ) : Img := fun m a =>
  if execImg ≤ a then
    match frames[(a - execImg) / pgsize]? with
    | some pg => .ok (m.data pg ((a - execImg) % pgsize))
    | none => .error .outOfBounds
  else .error .outOfBounds

/-- `strncpy` into row `i` of `argv_buf`; the closing zero may fall into the next row. -/
def saveArg (k : Kernel) (t : ℕ) (src : U64) (i : ℕ) : ℕ → ℕ → Except Fault Kernel
  | 0, j => put k (i * arglen + j) 0
  | n+1, j => do
    let b ← kload k.phys t (src + BitVec.ofNat 64 j)
    if b = 0 then put k (i * arglen + j) 0
    else saveArg (← put k (i * arglen + j) b) t src i n (j+1)
where
  put (k : Kernel) (a : ℕ) (b : UInt8) : Except Fault Kernel :=
    if a < nargs * arglen then .ok { k with argvBuf := Function.update k.argvBuf a b }
    else .error .outOfBounds

/-- The loop over `argv`; `false` is the error return. -/
def saveArgs (k : Kernel) (c : Slot) (argv : U64) : ℕ → ℕ → Except Fault (Bool × Kernel)
  | 0, _ => .ok (true,k)
  | n+1, i => do
    let p := k.procs c
    let arg := BitVec.ofNat 64 (ofBytes (← kloads k.phys p.pgtbl (argv + BitVec.ofNat 64 (8 * i)) 8))
    if !(← checkStr k.phys p.pPgtbl arg (BitVec.ofNat 64 arglen) pteU) then .ok (false,k)
    else saveArgs (← saveArg k p.pgtbl arg i arglen 0) c argv n (i+1)

/-- Stack and arguments of the new image, the kernel half, and the copy to `p_pgtbl`.
`none` where the code kills the process. -/
def buildSpace (m : Phys) (kPgtbl : ℕ) (p : Proc) (args : List UInt8) : Except Fault (Bool × Phys) := do
  match ← mapFresh m p.pgtbl (ustack - pgsize) with
  | (none,m) => .ok (false,m)
  | (some pg,m) =>
    let m := m.fill pg (pgsize - nargs * 8) uargv
    match ← mapFresh m p.pgtbl uargs with
    | (none,m) => .ok (false,m)
    | (some pg,m) =>
      let m := copyKernelHalf (m.fill pg 0 args) p.pgtbl kPgtbl
      .ok (true,← copyPgtbl m p.pPgtbl p.pgtbl false)

/-- `sys_exec` from the point where the old image is destroyed, up to `free_img`. -/
def execLoad (img : Img) (k : Kernel) (c : Slot) (tf : Context) : Except Fault Kernel := do
  let k := k.modProc c fun p => { p with state := .pending }
  let m ← freePgtbl k.phys (k.procs c).pgtbl true
  let m ← freePgtbl m (k.procs c).pPgtbl false
  let (a,m) ← getPage m true
  let (b,m) ← getPage m true
  let k := (k.setPhys m).modProc c fun p => { p with pgtbl := a, pPgtbl := b }
  let (r,endUmem,m) ← loadImg img execImg k.phys (k.procs c)
  let k := (k.setPhys m).modProc c fun p => { p with endUmem := endUmem }
  if r ≠ 0 then killProc k c r
  else
    let args := (List.range (nargs * arglen)).map k.argvBuf
    match ← buildSpace k.phys k.kPgtbl (k.procs c) args with
    | (false,m) => killProc (k.setPhys m) c (neg enomem)
    | (true,m) =>
      let entry ← img.field m (execImg + 24) 8
      .ok ((k.setPhys m).modProc c fun p => { p with
        context := { Context.zero.start entry with rdi := tf.rcx }
        state := .ready })

/-- `sys_exec`. -/
def sysExec (fs : Fs) (k : Kernel) (c : Slot) (tf : Context) : Except Fault Outcome := do
  let argc := toInt32 tf.rcx
  if (nargs : ℤ) < argc then k.done tf (neg einval)
  else match ← saveArgs k c tf.rbx argc.toNat 0 with
    | (false,k) => k.done tf (neg einval)
    | (true,k) =>
      let p := k.procs c
      let (r,f,m) ← exfatOpen fs k.phys k.kPgtbl (userPath k.phys p.pgtbl tf.rdx) p.pwd .zero false
      let k := k.setPhys m
      if r ≠ 0 then k.done tf r
      else
        let n := imgPages f.fileLen
        let (frames,m) ← mapImg k.kPgtbl k.phys n
        let m ← readImg fs m k.kPgtbl frames f
        let img := imgAt frames
        let k := k.setPhys m
        if (← img.field m execImg 4) ≠ elfMagic then
          (k.setPhys (← unmapImg k.kPgtbl k.phys n)).done tf (neg enoexec)
        else
          let k ← execLoad img k c tf
          (k.setPhys (← unmapImg k.kPgtbl k.phys n)).sched

/-- `create_proc` on an image that is linked into the kernel. -/
def createProc (fs : Fs) (img : Img) (k : Kernel) : Except Fault Kernel := do
  match ← allocProc k with
  | (none,_) => .error .panic
  | (some n,k) =>
    let (r,endUmem,m) ← loadImg img 0 k.phys (k.procs n)
    if r ≠ 0 then .error .assertion
    else
      let k := (k.setPhys m).modProc n fun p => { p with endUmem := endUmem }
      match ← buildSpace k.phys k.kPgtbl (k.procs n) [] with
      | (false,_) => .error .panic
      | (true,m) =>
        let (_,pwd,m) ← exfatOpen fs m k.kPgtbl (fun i => some (if i = 0 then 47 else 0)) .zero (k.procs n).pwd true
        let entry ← img.field m 24 8
        .ok ((k.setPhys m).modProc n fun p => { p with
          pwd := pwd
          fdesc := fun fd =>
            if fd = 0 then { p.fdesc fd with fileType := .kbd, inuse := true }
            else if fd = 1 ∨ fd = 2 then { p.fdesc fd with fileType := .screen, inuse := true }
            else p.fdesc fd
          context := p.context.start entry
          state := .ready })

end Ukern
