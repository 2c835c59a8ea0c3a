import Ukern.Kernel.Fs

/-! # exFAT

The functions of `exfat.c` and the two path routines of `fs.c`, over the contents of a volume.
Which sector a cluster starts at and how `disk_read` brings its blocks into memory are left out:
`clus c o` is byte `o` of cluster `c`, and every cluster can be read. A loop whose length the
disk decides runs on `fuel`, and `hang` stands for more rounds than that.
-/
namespace Ukern

/-- A volume, with the members of `struct exFAT_hdr` in use. -/
structure Volume where
  bytePerSecShift : ℕ
  secPerClusShift : ℕ
  rtdirCluster : ℕ
  /-- `fs->fat[id]`, a `u32`. -/
  fat : ℕ → ℕ
  clus : ℕ → ℕ → UInt8

def Volume.clusSize (v : Volume) : ℕ := 2^(v.bytePerSecShift + v.secPerClusShift)

/-- `clus_size / sizeof(struct dir_entry)`. -/
def Volume.entryPerclus (v : Volume) : ℕ := v.clusSize / 32

def noFatChain : ℕ := 0x02
def fatEnd : ℕ := 0xFFFFFFFF

/-! ## Directory entries -/

/-- A directory entry as the two scanners tell them apart, with the members they read. -/
inductive DirEntry
  | last
  | file (attr : ℕ)
  | stream (secondaryFlags nameLen validDataLen firstClus : ℕ)
  | name (fileName : ℕ → ℕ)
  | other

/-- A little-endian member of `n` bytes at `o`. -/
def member (r : ℕ → UInt8) (o n : ℕ) : ℕ := ofBytes ((List.range n).map fun i => r (o + i))

/-- The 32 bytes of `struct file_dir_entry`, `stream_ext_entry` or `file_name_entry`. -/
def DirEntry.parse (r : ℕ → UInt8) : DirEntry :=
  if r 0 = 0x00 then .last
  else if r 0 = 0x85 then .file (member r 4 2)
  else if r 0 = 0xC0 then .stream (member r 1 1) (member r 3 1) (member r 8 8) (member r 20 4)
  else if r 0 = 0xC1 then .name fun k => member r (2 + 2 * k) 2
  else .other

/-- `dir[j]` in cluster `c`. -/
def Volume.entry (v : Volume) (c j : ℕ) : DirEntry := .parse fun o => v.clus c (32 * j + o)

/-- The cluster that is read, and the one to be read next. -/
structure DirCursor where
  dir : ℕ
  clusId : ℕ

/-- The cluster behind `c`: the next in the chain, or `clus_id++`. -/
def Volume.after (v : Volume) (useFat c : ℕ) : ℕ := if useFat ≠ 0 then v.fat c else (c + 1) % 2^32

/-- The head of both scanning loops: at the start of a cluster it is read, unless the chain is over. -/
def Volume.fetch (v : Volume) (useFat i : ℕ) (cur : DirCursor) : Option DirCursor :=
  if i % v.entryPerclus = 0 then
    if cur.clusId = fatEnd then none else some ⟨cur.clusId,v.after useFat cur.clusId⟩
  else some cur

/-- A scanning loop from entry `i`: the body `step` goes on or returns, `last` is the end of the chain. -/
def Volume.scanDir {σ ρ : Type} (v : Volume) (useFat : ℕ) (step : ℕ → σ → DirEntry → σ ⊕ ρ) (last : σ → ρ) :
    ℕ → ℕ → DirCursor → σ → Except Fault ρ
  | 0, _, _, _ => .error .hang
  | fuel+1, i, cur, s =>
    match v.fetch useFat i cur with
    | none => .ok (last s)
    | some cur =>
      match step i s (v.entry cur.dir (i % v.entryPerclus)) with
      | .inr r => .ok r
      | .inl s => v.scanDir useFat step last fuel (i+1) cur s

/-! ## `exfat_walk_dir` -/

def toUpperCase (c : UInt8) : UInt8 := if 97 ≤ c ∧ c ≤ 122 then c - 32 else c

/-- `cmp_fn`: true when the two differ. The second argument is cut to its low byte. -/
def cmpFn (c₁ : UInt8) (c₂ : ℕ) : Bool := toUpperCase c₁ != toUpperCase (UInt8.ofNat c₂)

structure WalkState where
  namePtr : ℕ
  nameDismatch : Bool
  clusId : ℕ
  useFat : ℕ
  fnLen : ℕ
  isDir : Bool
  dataLen : ℕ

def WalkState.init : WalkState := ⟨0,false,0,0,0,false,0⟩

/-- The comparison loop over `n` units of a name entry from unit `k`. -/
def cmpUnits (name : List UInt8) (fnLen : ℕ) (u : ℕ → ℕ) : ℕ → ℕ → ℕ → Bool → ℕ × Bool
  | 0, _, namePtr, dis => (namePtr,dis)
  | n+1, k, namePtr, dis =>
    if !dis ∧ namePtr < fnLen ∧ namePtr < name.length then
      cmpUnits name fnLen u n (k+1) (namePtr+1) (cmpFn (name.getD namePtr 0) (u k))
    else (namePtr,dis)

/-- The body of `exfat_walk_dir`. -/
def walkEntry (name : List UInt8) (_ : ℕ) (s : WalkState) : DirEntry → WalkState ⊕ Option DirFile
  | .last => .inr none
  | .file attr => .inl { s with nameDismatch := false, namePtr := 0, isDir := attr.testBit 4 }
  | .stream flags len valid first => .inl { s with
      clusId := first
      fnLen := len
      dataLen := valid
      useFat := if flags &&& noFatChain = 0 then 1 else 0 }
  | .name u =>
    let (namePtr,dis) := cmpUnits name s.fnLen u 15 0 s.namePtr s.nameDismatch
    if !dis ∧ namePtr = s.fnLen ∧ namePtr = name.length then
      .inr (some ⟨s.clusId,s.useFat,s.isDir,s.dataLen⟩)
    else .inl { s with namePtr := namePtr, nameDismatch := dis }
  | .other => .inl s

/-- `exfat_walk_dir`; `none` is the return value -1. -/
def exfatWalkDir (v : Volume) (fuel : ℕ) (name : List UInt8) (curDir : DirFile) : Except Fault (Option DirFile) :=
  v.scanDir curDir.useFat (walkEntry name) (fun _ => none) fuel 0 ⟨0,curDir.clusId⟩ .init

/-! ## `exfat_read_dir` -/

def dtDir : ℕ := 3
def dtReg : ℕ := 6

/-- What a call stores into its `struct dirent`: a member that it leaves alone is `none`. -/
structure Dirent where
  dIno : Option ℕ
  fileLen : Option ℕ
  dName : ℕ → Option UInt8
  dType : Option ℕ

structure ReadState where
  namePtr : ℕ
  fnLen : ℕ
  dst : Dirent

def ReadState.init : ReadState := ⟨0,0,⟨none,none,fun _ => none,none⟩⟩

/-- The copy loop over `n` units of a name entry from unit `k`. -/
def copyUnits (fnLen : ℕ) (u : ℕ → ℕ) : ℕ → ℕ → ℕ → (ℕ → Option UInt8) → ℕ × (ℕ → Option UInt8)
  | 0, _, namePtr, dName => (namePtr,dName)
  | n+1, k, namePtr, dName =>
    if namePtr < fnLen then
      copyUnits fnLen u n (k+1) (namePtr+1) (Function.update dName namePtr (some (UInt8.ofNat (u k))))
    else (namePtr,dName)

/-- The stores at `no_dirent`. -/
def Dirent.ended (dst : Dirent) : Dirent :=
  { dst with dIno := some 0, fileLen := some 0, dName := Function.update dst.dName 0 (some 0) }

/-- The body of `exfat_read_dir`, with the new `read_ptr`. -/
def readEntry (readPtr i : ℕ) (s : ReadState) (e : DirEntry) : ReadState ⊕ (Dirent × ℕ) :=
  if i < readPtr then .inl s
  else match e with
    | .last => .inr (s.dst.ended,readPtr)
    | .file attr => .inl { s with namePtr := 0, dst.dType := some (if attr.testBit 4 then dtDir else dtReg) }
    | .stream _ len valid first => .inl { s with fnLen := len, dst.fileLen := some valid, dst.dIno := some first }
    | .name u =>
      let (namePtr,dName) := copyUnits s.fnLen u 15 0 s.namePtr s.dst.dName
      let dst := { s.dst with dName := Function.update dName namePtr (some 0) }
      if namePtr = s.fnLen then .inr (dst,i+1) else .inl { s with namePtr := namePtr, dst := dst }
    | .other => .inl s

/-- `exfat_read_dir` on a directory at `head` from entry `readPtr`. -/
def exfatReadDirAt (v : Volume) (fuel head useFat readPtr : ℕ) : Except Fault (Dirent × ℕ) :=
  v.scanDir useFat (readEntry readPtr) (fun s => (s.dst.ended,readPtr)) fuel 0 ⟨0,head⟩ .init

/-! ## `exfat_read_file` -/

/-- `while (ptr >= clus_size)`: the position inside the cluster, and the cluster. -/
def Volume.seek (v : Volume) (useFat : ℕ) : ℕ → ℕ → ℕ → ℕ × ℕ
  | 0, ptr, c => (ptr,c)
  | n+1, ptr, c => if v.clusSize ≤ ptr then v.seek useFat n (ptr - v.clusSize) (v.after useFat c) else (ptr,c)

/-- The copy loop; `dst` has the bytes stored so far. A chunk is no longer than a cluster, so the
inner loop runs at most once. -/
def Volume.copyOut (v : Volume) (useFat : ℕ) : ℕ → ℕ → ℕ → ℕ → List UInt8 → Except Fault (List UInt8)
  | 0, sz, _, _, dst => if sz = 0 then .ok dst else .error .hang
  | fuel+1, sz, ptr, c, dst =>
    if sz = 0 then .ok dst
    else
      let n := min sz (v.clusSize - ptr)
      v.copyOut useFat fuel (sz - n) 0 (if v.clusSize ≤ n then v.after useFat c else c)
        (dst ++ (List.range n).map fun i => v.clus c (ptr + i))

/-- `exfat_read_file`: the return value, and the bytes stored from `dst` on. `ptr` and `r` are `int`;
with a negative `ptr` the first chunk begins in front of the cluster. -/
def exfatReadFileAt (v : Volume) (sz : ℕ) (f : FileDesc) : Except Fault (ℤ × List UInt8) :=
  let ptr := (BitVec.ofNat 32 f.readPtr).toInt
  let pos := v.seek f.useFat ptr.toNat ptr.toNat f.headCluster
  let sz := readLen sz f
  if ptr < 0 ∧ sz ≠ 0 then .error .outOfBounds
  else do
    let dst ← v.copyOut f.useFat sz sz pos.1 pos.2 []
    .ok ((BitVec.ofNat 32 sz).toInt,dst)

/-- Calls of `sys_read` on one regular file, one for each size: the bytes they deliver, one call after
the other, and the descriptor they leave. -/
def sysReads (v : Volume) : List ℕ → FileDesc → Except Fault (List UInt8 × FileDesc)
  | [], f => .ok ([],f)
  | sz :: szs, f => do
    let (r,bs) ← exfatReadFileAt v sz f
    let (bs',f') ← sysReads v szs { f with readPtr := (f.readPtr + (BitVec.ofInt 64 r).toNat) % 2^64 }
    .ok (bs ++ bs',f')

/-! ## `exfat_open` -/

/-- `path` and `path_len` of the descriptor that is filled in. -/
structure PathBuf where
  path : List UInt8
  pathLen : ℕ
  deriving DecidableEq, Repr

/-- `path_len += path_push(path, name)`. Both `strcat`s end inside `path[256]` or run over it. -/
def pathPush (p : PathBuf) (name : List UInt8) : Except Fault PathBuf :=
  if p.path.length + 1 + name.length < 256 then .ok ⟨p.path ++ 47 :: name,p.pathLen + (1 + name.length)⟩
  else .error .overrun

/-- The last `/` before position `n`. -/
def lastSlash (path : List UInt8) : ℕ → Option ℕ
  | 0 => none
  | n+1 => if path.getD n 0 = 47 then some n else lastSlash path n

/-- `path_len -= path_pop(path, path_len)`. -/
def pathPop (p : PathBuf) : Except Fault PathBuf :=
  if p.pathLen = 0 then .ok p
  else if p.path.getD 0 0 ≠ 47 then .error .assertion
  else match lastSlash p.path p.pathLen with
    | some i => .ok ⟨p.path.take i,p.pathLen - (p.pathLen - i)⟩
    | none => .error .panic

/-- What the path loop comes to: a file or an error, `path` and `path_len`, and the static buffer
`name[256]` as it leaves it. -/
structure Opened where
  node : Except PathError DirFile
  buf : PathBuf
  name : ℕ → UInt8

def pathByte (path : ℕ → Option UInt8) (i : ℕ) : Except Fault UInt8 :=
  match path i with
  | some b => .ok b
  | none => .error .nullDeref

/-- The nested call of `exfat_open` for the parent directory: its return value is dropped, and
without a directory `parent` keeps what was on the stack. -/
def parentDir (junk : DirFile) : Except PathError DirFile → DirFile
  | .ok d => if d.isDir then { d with fileLen := 0 } else { junk with isDir := true, fileLen := 0 }
  | .error _ => { junk with isDir := true, fileLen := 0 }

/-- One component, which stands in `name[0..ind)`. -/
def enterName (v : Volume) (fuel : ℕ) (junk : DirFile) (reopen : List UInt8 → (ℕ → UInt8) → Except Fault Opened)
    (ind : ℕ) (name : ℕ → UInt8) (cur : DirFile) (p : PathBuf) : Except Fault Opened :=
  if ind = 0 then .ok ⟨.ok cur,p,name⟩
  else do
    let name := Function.update name ind 0
    let comp := (List.range ind).map name
    if comp = [46] then .ok ⟨.ok cur,p,name⟩
    else if comp = [46,46] then
      let p ← pathPop p
      let o ← reopen p.path name
      .ok ⟨.ok (parentDir junk o.node),p,o.name⟩
    else if !cur.isDir then .ok ⟨.error .notDir,p,name⟩
    else match ← exfatWalkDir v fuel comp cur with
      | none => .ok ⟨.error .noEntry,p,name⟩
      | some d => .ok ⟨.ok d,← pathPush p comp,name⟩

/-- The loop of `exfat_open` over the bytes of the path, from byte `i` on for `n` bytes. -/
def openLoop (v : Volume) (fuel : ℕ) (junk : DirFile) (reopen : List UInt8 → (ℕ → UInt8) → Except Fault Opened)
    (path : ℕ → Option UInt8) : ℕ → ℕ → ℕ → (ℕ → UInt8) → DirFile → PathBuf → Except Fault Opened
  | 0, _, _, name, _, p => .ok ⟨.error .nameTooLong,p,name⟩
  | n+1, i, ind, name, cur, p => do
    let b ← pathByte path i
    if b ≠ 47 ∧ b ≠ 0 then openLoop v fuel junk reopen path n (i+1) (ind+1) (Function.update name ind b) cur p
    else
      let o ← enterName v fuel junk reopen ind name cur p
      match o.node with
      | .error _ => .ok o
      | .ok d => if b ≠ 0 then openLoop v fuel junk reopen path n (i+1) 0 o.name d o.buf else .ok o

def Volume.root (v : Volume) : DirFile := ⟨v.rtdirCluster,1,true,0⟩

/-- Where `exfat_open` starts, and the path it starts with. -/
def openStart (v : Volume) (b : UInt8) (pwd : Option FileDesc) : Except Fault (DirFile × PathBuf) :=
  if b = 47 ∨ b = 0 then .ok (v.root,⟨[],0⟩)
  else match pwd with
    | none => .error .nullDeref
    | some f =>
      if f.path.length < 256 then .ok (⟨f.headCluster,f.useFat,true,0⟩,⟨f.path,f.path.length⟩)
      else .error .overrun

/-- `exfat_open` up to the last component; `depth` bounds the nested calls. -/
def exfatResolve (v : Volume) (fuel : ℕ) (junk : DirFile) :
    ℕ → (ℕ → Option UInt8) → Option FileDesc → (ℕ → UInt8) → Except Fault Opened
  | 0, _, _, _ => .error .hang
  | depth+1, path, pwd, name => do
    let (cur,p) ← openStart v (← pathByte path 0) pwd
    openLoop v fuel junk (fun s name => exfatResolve v fuel junk depth (fun i => some (s.getD i 0)) none name)
      path 256 0 0 name cur p

end Ukern
