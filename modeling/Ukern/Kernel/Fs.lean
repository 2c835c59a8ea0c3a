import Ukern.Kernel.Access

/-! # Files as the system calls use them

The on-disk structures are a parameter: `Fs` says what a path resolves to, which
bytes a read delivers and which disk blocks a call fetches. Around it stand the
parts of `fs.c`, `exfat.c` and `sata.c` that act on kernel state: the descriptor
that `exfat_open` fills in, the length `exfat_read_file` returns, and the page
that each fetched block takes in the kernel's page table.
-/
namespace Ukern

def kdisk : U64 := 0xFFFFC00000000000

/-- `struct exfat_dir_file`. -/
structure DirFile where
  clusId : ℕ
  useFat : ℕ
  isDir : Bool
  fileLen : ℕ

def eisdir : ℕ := 31
def enametoolong : ℕ := 37
def enotdir : ℕ := 57

/-- The error returns of the path loop of `exfat_open`. -/
inductive PathError
  | notDir | noEntry | nameTooLong
  deriving DecidableEq, Repr

def PathError.errno : PathError → ℕ
  | .notDir => enotdir
  | .noEntry => enoent
  | .nameTooLong => enametoolong

/-- What the path loop of `exfat_open` comes to: a file or an error, the contents of
`fdesc->path`, and the blocks it fetched. -/
structure Resolved where
  node : Except PathError DirFile
  path : List UInt8
  blocks : List (ℕ × ℕ)

structure Fs where
  /-- The argument gives the bytes of the path, `none` where they are not mapped. -/
  resolve : (ℕ → Option UInt8) → FileDesc → Except Fault Resolved
  /-- Byte `i` that a read at the descriptor's position delivers. -/
  content : FileDesc → ℕ → UInt8
  readBlocks : FileDesc → ℕ → List (ℕ × ℕ)
  /-- The stores of `exfat_read_dir` into `struct dirent`, and the new `read_ptr`. -/
  dirent : FileDesc → List (Fin 280 × UInt8) × ℕ
  dirBlocks : FileDesc → List (ℕ × ℕ)

/-- The page table work of `sata_read_block`. -/
def sataReadBlock (kPgtbl : ℕ) (m : Phys) (b : ℕ × ℕ) : Except Fault Phys := do
  let vaddr := kdisk ||| (BitVec.ofNat 64 b.1 <<< 41) ||| (BitVec.ofNat 64 b.2 <<< 12)
  let (t,i,m) ← walkSlot m kPgtbl vaddr.toNat true
  if m.tbl t i = .zero then do
    let (pg,m) ← getPage m true
    .ok (m.setEntry t i ⟨pg,pteP⟩)
  else .ok m

def diskRead (kPgtbl : ℕ) (m : Phys) (blocks : List (ℕ × ℕ)) : Except Fault Phys :=
  blocks.foldlM (sataReadBlock kPgtbl) m

/-- A path in user memory, as the kernel reads it. -/
def userPath (m : Phys) (t : ℕ) (path : U64) (i : ℕ) : Option UInt8 :=
  (kload m t (path + BitVec.ofNat 64 i)).toOption

/-- `exfat_open`, with the result in `rax` form. A path of 256 bytes runs over `fdesc->path`. -/
def exfatOpen (fs : Fs) (m : Phys) (kPgtbl : ℕ) (path : ℕ → Option UInt8) (pwd f : FileDesc)
    (opendir : Bool) : Except Fault (U64 × FileDesc × Phys) := do
  let r ← fs.resolve path pwd
  let m ← diskRead kPgtbl m r.blocks
  let f := { f with path := r.path }
  if 256 ≤ r.path.length then .error .overrun
  else match r.node with
    | .error e => .ok (neg e.errno,f,m)
    | .ok n =>
      if opendir && !n.isDir then .ok (neg enotdir,f,m)
      else if !opendir && n.isDir then .ok (neg eisdir,f,m)
      else .ok (0,{ f with
        headCluster := n.clusId
        useFat := n.useFat
        fileLen := n.fileLen
        readPtr := 0
        fileType := if opendir then .dir else .reg },m)

/-- The number of bytes `exfat_read_file` delivers. -/
def readLen (sz : ℕ) (f : FileDesc) : ℕ := min (sz % 2^32) ((f.fileLen + 2^64 - f.readPtr) % 2^64)

/-- `exfat_read_file` into user memory. -/
def exfatReadFile (fs : Fs) (m : Phys) (kPgtbl t : ℕ) (dst : U64) (sz : ℕ) (f : FileDesc) :
    Except Fault (ℕ × Phys) := do
  let m ← diskRead kPgtbl m (fs.readBlocks f (readLen sz f))
  let m ← kstores m t dst ((List.range (readLen sz f)).map (fs.content f))
  .ok (readLen sz f,m)

/-- `exfat_read_dir`. -/
def exfatReadDir (fs : Fs) (m : Phys) (kPgtbl t : ℕ) (dst : U64) (f : FileDesc) :
    Except Fault (FileDesc × Phys) := do
  let m ← diskRead kPgtbl m (fs.dirBlocks f)
  let m ← (fs.dirent f).1.foldlM (fun m s => kstore m t (dst + BitVec.ofNat 64 s.1.val) s.2) m
  .ok ({ f with readPtr := (fs.dirent f).2 },m)

end Ukern
