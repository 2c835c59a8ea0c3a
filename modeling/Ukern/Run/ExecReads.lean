import Ukern.Exfat.Open
import Ukern.Run.Args

/-! # What `sys_exec` reads through user pointers

Only the strings of the argument vector are looked at before they are read. The pointers to them are
read first, and the path is read byte by byte inside `exfat_open`.
-/
namespace Ukern
open Lib
variable {k k' : Kernel} {c : Slot} {m : Phys} {t t₂ kp i j n r : ℕ} {src argv : U64} {tf : Context} {text : List UInt8}
  {e : Fault}

/-! ## Reading through any memory -/

/-- A load through a user pointer. -/
abbrev Reader := U64 → Except Fault UInt8

def loadsVia (rd : Reader) (v : U64) : ℕ → Except Fault (List UInt8)
  | 0 => .ok []
  | n+1 => do .ok ((← rd v) :: (← loadsVia rd (v+1) n))

def saveArgVia (rd : Reader) (k : Kernel) (src : U64) (i : ℕ) : ℕ → ℕ → Except Fault Kernel
  | 0, j => saveArg.put k (i * arglen + j) 0
  | n+1, j => do
    let b ← rd (src + BitVec.ofNat 64 j)
    if b = 0 then saveArg.put k (i * arglen + j) 0
    else saveArgVia rd (← saveArg.put k (i * arglen + j) b) src i n (j+1)

/-- The loop over `argv`. `check_str` looks at frames, not through the pointer. -/
def saveArgsVia (rd : Reader) (k : Kernel) (c : Slot) (argv : U64) : ℕ → ℕ → Except Fault (Bool × Kernel)
  | 0, _ => .ok (true,k)
  | n+1, i => do
    let arg := BitVec.ofNat 64 (ofBytes (← loadsVia rd (argv + BitVec.ofNat 64 (8 * i)) 8))
    if !(← checkStr k.phys (k.procs c).pPgtbl arg (BitVec.ofNat 64 arglen) pteU) then .ok (false,k)
    else saveArgsVia rd (← saveArgVia rd k arg i arglen 0) c argv n (i+1)

/-- The part of `sys_exec` that reads through user pointers: the arguments, and then the path. -/
def execReads (v : Volume) (fuel : ℕ) (junk : DirFile) (name : ℕ → UInt8) (rd : Reader) (k : Kernel) (c : Slot)
    (tf : Context) : Except Fault (Kernel × Option Opened) := do
  match ← saveArgsVia rd k c tf.rbx (toInt32 tf.rcx).toNat 0 with
  | (false,k) => .ok (k,none)
  | (true,k) =>
    let o ← exfatResolve v fuel junk 2 (fun i => (rd (tf.rdx + BitVec.ofNat 64 i)).toOption) (some (k.procs c).pwd) name
    .ok (k,some o)

/-- `sys_exec` from the point where the file is found. -/
def execOpened (fs : Fs) (k : Kernel) (c : Slot) (tf : Context) (found : Resolved) : Except Fault Outcome := do
  let (r,f,m) ← exfatOpen { fs with resolve := fun _ _ => .ok found } k.phys k.kPgtbl (fun _ => none) (k.procs c).pwd
    .zero false
  let k := k.setPhys m
  if r ≠ 0 then k.done tf r
  else
    let n := imgPages f.fileLen
    let (frames,m) ← mapImg k.kPgtbl k.phys n
    let m ← readImg fs m k.kPgtbl frames f
    let img := imgAt frames
    let k := k.setPhys m
    if (← img.field m execImg 4) ≠ elfMagic then
      (k.setPhys (← unmapImg k.kPgtbl k.phys n)).done tf (neg enoexec)
    else
      let k ← execLoad img k c tf
      (k.setPhys (← unmapImg k.kPgtbl k.phys n)).sched

theorem loadsVia_kload (v : U64) : loadsVia (kload m t) v n = kloads m t v n := by
  induction n generalizing v with
  | zero => rfl
  | succ n ih => rw [loadsVia, kloads, ih]

theorem saveArgVia_kload (hm : k.phys = m) : saveArgVia (kload m t) k src i n j = saveArg k t src i n j := by
  induction n generalizing k j with
  | zero => rfl
  | succ n ih =>
    rw [saveArgVia, saveArg, hm]
    refine bind_congr_ok fun b _ => ?_
    split
    · rfl
    refine bind_congr_ok fun k₁ hk₁ => ih ?_
    unfold saveArg.put at hk₁
    split at hk₁
    · cases hk₁
      exact hm
    · cases hk₁

theorem saveArgsVia_kload (hm : k.phys = m) (ht : (k.procs c).pgtbl = t) :
    saveArgsVia (kload m t) k c argv n i = saveArgs k c argv n i := by
  induction n generalizing k i with
  | zero => rfl
  | succ n ih =>
    rw [saveArgsVia, saveArgs, loadsVia_kload, hm, ht]
    refine bind_congr_ok fun bs _ => bind_congr_ok fun b _ => ?_
    split
    · rfl
    rw [saveArgVia_kload hm]
    refine bind_congr_ok fun k₁ hk₁ => ?_
    obtain ⟨a,rfl⟩ := saveArg_eq hk₁
    exact ih hm ht

section Front
variable {v : Volume} {fuel : ℕ} {junk : DirFile} {name : ℕ → UInt8}
  {blocks : (ℕ → Option UInt8) → FileDesc → List (ℕ × ℕ)} {disk : Fs}

theorem exfatOpen_resolved {path : ℕ → Option UInt8} {pwd f : FileDesc} {opendir : Bool} :
    exfatOpen (v.fs fuel junk name blocks disk) m kp path pwd f opendir =
      exfatResolve v fuel junk 2 path (some pwd) name >>= fun o => exfatOpen { v.fs fuel junk name blocks disk with
        resolve := fun _ _ => .ok ⟨o.node,o.buf.path,blocks path pwd⟩ } m kp (fun _ => none) pwd f opendir := by
  unfold exfatOpen
  dsimp only [Volume.fs]
  rw [bind_assoc]

/-- `sys_exec` reads, and then goes on without its user pointers. -/
theorem sysExec_reads :
    sysExec (v.fs fuel junk name blocks disk) k c tf =
      if (nargs : ℤ) < toInt32 tf.rcx then k.done tf (neg einval)
      else execReads v fuel junk name (kload k.phys (k.procs c).pgtbl) k c tf >>= fun x => match x.2 with
        | none => x.1.done tf (neg einval)
        | some o => execOpened (v.fs fuel junk name blocks disk) x.1 c tf
            ⟨o.node,o.buf.path,blocks (userPath k.phys (k.procs c).pgtbl tf.rdx) (k.procs c).pwd⟩ := by
  rw [sysExec]
  dsimp only
  split
  · rfl
  rw [execReads, saveArgsVia_kload rfl rfl, bind_assoc]
  refine bind_congr_ok fun x hx => ?_
  obtain ⟨ok,k₁⟩ := x
  obtain ⟨a,rfl⟩ := saveArgs_eq hx
  cases ok with
  | false => rfl
  | true =>
    dsimp only
    rw [exfatOpen_resolved, bind_assoc, bind_assoc]
    refine bind_congr_ok fun o _ => ?_
    rfl

end Front

/-! ## Mapped addresses -/

/-- The page of the address has P and U in `p_pgtbl`. -/
def UserMapped (m : Phys) (t₂ : ℕ) (a : U64) : Prop := a.toNat < userTop ∧ granted m t₂ pteU a.toNat = true

instance (m : Phys) (t₂ : ℕ) : DecidablePred (UserMapped m t₂) := fun _ => inferInstanceAs (Decidable (_ ∧ _))

theorem Space.kload_mapped (h : Space m kp t t₂) {a : U64} (ha : UserMapped m t₂ a) : ∃ b, kload m t a = .ok b :=
  ⟨_,h.kload_granted ha.1 ha.2⟩

/-- The result of `F` depends on the loads at the addresses in `V` alone. -/
def ReadsOnly {α : Type} (V : U64 → Prop) (F : Reader → α) (rd : Reader) : Prop :=
  ∀ rd' : Reader, (∀ a, V a → rd' a = rd a) → F rd' = F rd

/-- Loads that give `x` outside `V`. -/
def Reader.outside (rd : Reader) (V : U64 → Prop) [DecidablePred V] (x : Except Fault UInt8) : Reader := fun a =>
  if V a then rd a else x

theorem outside_eq {rd : Reader} {V : U64 → Prop} [DecidablePred V] {x : Except Fault UInt8} (a : U64) (ha : V a) :
    Reader.outside rd V x a = rd a := if_pos ha

theorem add_byte (v : U64) (j : ℕ) : v + 1 + BitVec.ofNat 64 j = v + BitVec.ofNat 64 (j+1) := by
  rw [Nat.add_comm j 1, BitVec.ofNat_add, ← BitVec.add_assoc]
  rfl

theorem loadsVia_congr {rd rd' : Reader} {v : U64} (h : ∀ b < n, rd' (v + BitVec.ofNat 64 b) = rd (v + BitVec.ofNat 64 b)) :
    loadsVia rd' v n = loadsVia rd v n := by
  induction n generalizing v with
  | zero => rfl
  | succ n ih =>
    have h0 := h 0 n.succ_pos
    rw [BitVec.add_zero] at h0
    rw [loadsVia, loadsVia, h0, ih fun b hb => ?_]
    rw [add_byte]
    exact h (b+1) (Nat.succ_lt_succ hb)

theorem loadsVia_outside {rd : Reader} {V : U64 → Prop} [DecidablePred V] {v : U64} (hok : ∀ a, V a → ∃ b, rd a = .ok b)
    (h : ∃ b < n, ¬ V (v + BitVec.ofNat 64 b)) : loadsVia (Reader.outside rd V (.error e)) v n = .error e := by
  induction n generalizing v with
  | zero =>
    obtain ⟨b,hb,-⟩ := h
    exact absurd hb b.not_lt_zero
  | succ n ih =>
    rw [loadsVia, Reader.outside]
    by_cases hv : V v
    · obtain ⟨x,hx⟩ := hok v hv
      obtain ⟨b,hb,hno⟩ := h
      rw [if_pos hv, hx, ok_bind, ih]
      · rfl
      · cases b with
        | zero =>
          rw [BitVec.add_zero] at hno
          exact absurd hv hno
        | succ b =>
          rw [← add_byte] at hno
          exact ⟨b,Nat.lt_of_succ_lt_succ hb,hno⟩
    · rw [if_neg hv]
      rfl

/-- A string that `check_str` accepts lies on the page of its address. -/
theorem Space.accepts (h : Space m kp t t₂) (hc : checkStr m t₂ src (BitVec.ofNat 64 arglen) pteU = .ok true)
    (htop : src.toNat < userTop) :
    ∃ text, TextAt m t src text ∧ ∀ j ≤ text.length, UserMapped m t₂ (src + BitVec.ofNat 64 j) := by
  obtain ⟨n,hp,hstr⟩ := (checkStr_true ⟨_,hc⟩).mp hc
  have hcount : checkCount src (BitVec.ofNat 64 arglen) = 1 := by
    have harg : (BitVec.ofNat 64 arglen).toNat = 256 := rfl
    unfold checkCount
    rw [harg]
    unfold userTop at htop
    unfold pgsize
    simp only
    omega
  have hend : src.toNat + n < userTop := by
    rw [hcount] at hp
    unfold pageOf pgsize userTop at *
    omega
  have hlen : ((List.range n).map (strByte m t₂ src)).length = n := by simp
  refine ⟨(List.range n).map (strByte m t₂ src),?_,fun j hj => ?_⟩
  · refine h.textAt (by rw [hlen]; exact hend) (by rw [hlen]; exact hstr) fun j hj => ?_
    rw [List.getElem_map, List.getElem_range]
  · rw [hlen] at hj
    have hv : (src + BitVec.ofNat 64 j).toNat = src.toNat + j := by
      rw [BitVec.toNat_add, BitVec.toNat_ofNat]
      unfold userTop at hend
      omega
    have hg := hstr.pages j hj
    rw [granted, ← lookup_page, Nat.mod_eq_of_lt (by unfold userTop at hend; omega)] at hg
    exact ⟨by omega,by rw [hv]; exact hg⟩

theorem TextAt.unique {text' : List UInt8} (h : TextAt m t src text) (h' : TextAt m t src text') :
    text.length ≤ text'.length := by
  by_contra hlt
  have h1 := h.read text'.length (by omega)
  rw [h'.read _ le_rfl] at h1
  have h0 : text'.getD text'.length 0 = 0 := by simp
  have hget : text.getD text'.length 0 = text[text'.length] := by simp [show text'.length < text.length by omega]
  rw [h0, hget] at h1
  exact h.nonzero _ (List.getElem_mem _) (Except.ok.inj h1).symm

theorem saveArgVia_text {rd : Reader} (hm : k.phys = m) (h : TextAt m t src text)
    (hrd : ∀ j ≤ text.length, rd (src + BitVec.ofNat 64 j) = kload m t (src + BitVec.ofNat 64 j)) (hj : j ≤ text.length) :
    saveArgVia rd k src i n j = saveArg k t src i n j := by
  induction n generalizing k j with
  | zero => rfl
  | succ n ih =>
    rw [saveArgVia, saveArg, hrd j hj, hm, h.read j hj, ok_bind, ok_bind]
    rcases hj.lt_or_eq with hlt | rfl
    · split
      · rfl
      refine bind_congr_ok fun k₁ hk₁ => ih ?_ hlt
      unfold saveArg.put at hk₁
      split at hk₁
      · cases hk₁
        exact hm
      · cases hk₁
    · have h0 : text.getD text.length 0 = 0 := by simp
      rw [if_pos h0, if_pos h0]

/-! ## The arguments -/

/-- Argument `i`: its pointer can be read, and `check_str` accepts the string. -/
def Accepted (m : Phys) (t t₂ : ℕ) (argv : U64) (i : ℕ) : Prop :=
  ∃ bs, kloads m t (argv + BitVec.ofNat 64 (8 * i)) 8 = .ok bs ∧
    checkStr m t₂ (BitVec.ofNat 64 (ofBytes bs)) (BitVec.ofNat 64 arglen) pteU = .ok true

/-- Argument `i`: its pointer is mapped, and a string that `check_str` accepts has an address of the user. -/
structure ArgMapped (m : Phys) (t t₂ : ℕ) (argv : U64) (i : ℕ) : Prop where
  pointer : ∀ b < 8, UserMapped m t₂ (argv + BitVec.ofNat 64 (8 * i) + BitVec.ofNat 64 b)
  string : ∀ bs, kloads m t (argv + BitVec.ofNat 64 (8 * i)) 8 = .ok bs →
    checkStr m t₂ (BitVec.ofNat 64 (ofBytes bs)) (BitVec.ofNat 64 arglen) pteU = .ok true →
      (BitVec.ofNat 64 (ofBytes bs)).toNat < userTop

theorem Accepted.argAt (h : Accepted k.phys (k.procs c).pgtbl (k.procs c).pPgtbl argv i)
    (hsp : Space k.phys kp (k.procs c).pgtbl (k.procs c).pPgtbl)
    (hmap : ArgMapped k.phys (k.procs c).pgtbl (k.procs c).pPgtbl argv i) : ∃ text, ArgAt k c argv i text := by
  obtain ⟨bs,hbs,hc⟩ := h
  obtain ⟨text,htext,-⟩ := hsp.accepts hc (hmap.string bs hbs hc)
  exact ⟨text,⟨bs,hbs,hc,htext⟩⟩

/-- The tables of the caller and what is mapped in them. -/
structure Tables (k : Kernel) (c : Slot) (m : Phys) (t t₂ : ℕ) : Prop where
  phys : k.phys = m
  pgtbl : (k.procs c).pgtbl = t
  pPgtbl : (k.procs c).pPgtbl = t₂

theorem Tables.setBuf (h : Tables k c m t t₂) (buf : ℕ → UInt8) : Tables { k with argvBuf := buf } c m t t₂ :=
  ⟨h.phys,h.pgtbl,h.pPgtbl⟩

/-- One argument that is mapped: any loads that agree on what is mapped give the same. -/
theorem saveArgsVia_succ {rd : Reader} (hk : Tables k c m t t₂) (hsp : Space m kp t t₂)
    (hrd : ∀ a, UserMapped m t₂ a → rd a = kload m t a) (hmap : ArgMapped m t t₂ argv i) :
    saveArgsVia rd k c argv (n+1) i = (do
      let arg := BitVec.ofNat 64 (ofBytes (← kloads m t (argv + BitVec.ofNat 64 (8 * i)) 8))
      if !(← checkStr m t₂ arg (BitVec.ofNat 64 arglen) pteU) then .ok (false,k)
      else saveArgsVia rd (← saveArg k t arg i arglen 0) c argv n (i+1)) := by
  have hload : loadsVia rd (argv + BitVec.ofNat 64 (8 * i)) 8 = kloads m t (argv + BitVec.ofNat 64 (8 * i)) 8 := by
    rw [← loadsVia_kload]
    exact loadsVia_congr fun b hb => hrd _ (hmap.pointer b hb)
  rw [saveArgsVia, hload, hk.phys, hk.pPgtbl]
  refine bind_congr_ok fun bs hbs => bind_congr_ok fun ok hok => ?_
  cases ok with
  | false => rw [if_pos (show (!false) = true by decide), if_pos (show (!false) = true by decide)]
  | true =>
    obtain ⟨text,htext,hmapped⟩ := hsp.accepts hok (hmap.string bs hbs hok)
    rw [if_neg (show ¬ (!true) = true by decide), if_neg (show ¬ (!true) = true by decide),
      saveArgVia_text hk.phys htext (fun j hj => hrd _ (hmapped j hj)) (Nat.zero_le _)]

/-- The arguments as far as they are accepted are mapped. -/
def ArgsMapped (m : Phys) (t t₂ : ℕ) (argv : U64) (i n : ℕ) : Prop :=
  ∀ r < n, (∀ j < r, Accepted m t t₂ argv (i + j)) → ArgMapped m t t₂ argv (i + r)

theorem ArgsMapped.head (h : ArgsMapped m t t₂ argv i (n+1)) : ArgMapped m t t₂ argv i := h 0 n.succ_pos nofun

theorem ArgsMapped.tail (h : ArgsMapped m t t₂ argv i (n+1)) (ha : Accepted m t t₂ argv i) :
    ArgsMapped m t t₂ argv (i+1) n := fun r hr hj => by
  have := h (r+1) (Nat.succ_lt_succ hr) fun j hj' => by
    cases j with
    | zero => exact ha
    | succ j =>
      rw [Nat.add_comm j 1, ← Nat.add_assoc]
      exact hj j (Nat.lt_of_succ_lt_succ hj')
  rwa [Nat.add_comm r 1, ← Nat.add_assoc] at this

theorem saveArgsVia_mapped {rd : Reader} (hk : Tables k c m t t₂) (hsp : Space m kp t t₂)
    (hrd : ∀ a, UserMapped m t₂ a → rd a = kload m t a) (hmap : ArgsMapped m t t₂ argv i n) :
    saveArgsVia rd k c argv n i = saveArgs k c argv n i := by
  induction n generalizing k i with
  | zero => rfl
  | succ n ih =>
    rw [saveArgsVia_succ hk hsp hrd hmap.head, saveArgs, hk.phys, hk.pgtbl, hk.pPgtbl]
    refine bind_congr_ok fun bs hbs => bind_congr_ok fun ok hok => ?_
    cases ok with
    | false => rw [if_pos (show (!false) = true by decide), if_pos (show (!false) = true by decide)]
    | true =>
      rw [if_neg (show ¬ (!true) = true by decide), if_neg (show ¬ (!true) = true by decide)]
      refine bind_congr_ok fun k₁ hk₁ => ?_
      obtain ⟨a,rfl⟩ := saveArg_eq hk₁
      exact ih (hk.setBuf _) (hmap.tail ⟨bs,hbs,hok⟩)

theorem saveArgsVia_unmapped (hk : Tables k c m t t₂) (hsp : Space m kp t t₂) (hno : ¬ ArgMapped m t t₂ argv i) :
    saveArgsVia (Reader.outside (kload m t) (UserMapped m t₂) (.error e)) k c argv (n+1) i = .error e := by
  rw [saveArgsVia]
  by_cases hptr : ∀ b < 8, UserMapped m t₂ (argv + BitVec.ofNat 64 (8 * i) + BitVec.ofNat 64 b)
  · have hload : loadsVia (Reader.outside (kload m t) (UserMapped m t₂) (.error e)) (argv + BitVec.ofNat 64 (8 * i)) 8 =
        kloads m t (argv + BitVec.ofNat 64 (8 * i)) 8 := by
      rw [← loadsVia_kload]
      exact loadsVia_congr fun b hb => outside_eq _ (hptr b hb)
    obtain ⟨bs,hbs,hc,htop⟩ : ∃ bs, kloads m t (argv + BitVec.ofNat 64 (8 * i)) 8 = .ok bs ∧
        checkStr m t₂ (BitVec.ofNat 64 (ofBytes bs)) (BitVec.ofNat 64 arglen) pteU = .ok true ∧
        userTop ≤ (BitVec.ofNat 64 (ofBytes bs)).toNat := by
      by_contra hall
      push Not at hall
      exact hno ⟨hptr,hall⟩
    have hout : ¬ UserMapped m t₂ (BitVec.ofNat 64 (ofBytes bs) + BitVec.ofNat 64 0) := by
      rw [BitVec.add_zero]
      exact fun h => absurd h.1 (by omega)
    rw [hload, hbs, ok_bind]
    dsimp only
    rw [hk.phys, hk.pPgtbl, hc, ok_bind, if_neg (by decide), show arglen = 255 + 1 from rfl, saveArgVia,
      Reader.outside, if_neg hout]
    rfl
  · push Not at hptr
    rw [loadsVia_outside (fun a ha => hsp.kload_mapped ha) hptr]
    rfl

/-- Argument `i + r` is read though it is not mapped, if those before it are accepted. -/
theorem saveArgsVia_reads (hk : Tables k c m t t₂) (hsp : Space m kp t t₂) (hr : r < n) (hle : i + n ≤ nargs)
    (hacc : ∀ j < r, Accepted m t t₂ argv (i + j) ∧ ArgMapped m t t₂ argv (i + j)) (hno : ¬ ArgMapped m t t₂ argv (i + r)) :
    saveArgsVia (Reader.outside (kload m t) (UserMapped m t₂) (.error e)) k c argv n i = .error e := by
  obtain ⟨n,rfl⟩ := Nat.exists_eq_succ_of_ne_zero (Nat.zero_lt_of_lt hr).ne'
  induction r generalizing k i n with
  | zero => exact saveArgsVia_unmapped hk hsp hno
  | succ r ih =>
    obtain ⟨⟨bs,hbs,hc⟩,hmap⟩ := hacc 0 r.succ_pos
    rw [Nat.add_zero] at hbs hmap
    obtain ⟨text,htext,-⟩ := hsp.accepts hc (hmap.string bs hbs hc)
    have hroom : i * arglen + 0 + (text.take arglen).length < nargs * arglen := by
      rw [List.length_take]
      unfold nargs arglen at *
      omega
    have hrow := saveArg_row (k := k) (i := i) (n := arglen) (hk.phys ▸ htext) (Nat.zero_le _)
    rw [List.drop_zero, if_pos hroom] at hrow
    rw [saveArgsVia_succ hk hsp outside_eq hmap, hbs, ok_bind]
    dsimp only
    rw [hc, ok_bind, if_neg (by decide), hrow, ok_bind]
    obtain ⟨n,rfl⟩ := Nat.exists_eq_succ_of_ne_zero (show n ≠ 0 by omega)
    have hidx : ∀ j, i + 1 + j = i + (j+1) := fun j => by omega
    refine ih (i := i+1) (hk.setBuf _) (fun j hj => ?_) ?_ n (by omega) (by omega)
    · rw [hidx]
      exact hacc (j+1) (by omega)
    · rw [hidx]
      exact hno

/-- The last row has room for its string. -/
def RoomAt (m : Phys) (t : ℕ) (argv : U64) (i : ℕ) : Prop :=
  ∀ bs text, kloads m t (argv + BitVec.ofNat 64 (8 * i)) 8 = .ok bs → TextAt m t (BitVec.ofNat 64 (ofBytes bs)) text →
    text.length < arglen

/-- Arguments that were all saved were accepted, and the last row had room. -/
theorem saveArgs_accepted {k₁ : Kernel} (hk : Tables k c m t t₂) (hsp : Space m kp t t₂) (hmap : ArgsMapped m t t₂ argv i n)
    (hle : i + n ≤ nargs) (h : saveArgs k c argv n i = .ok (true,k₁)) :
    (∀ r < n, Accepted m t t₂ argv (i + r)) ∧ (i + n = nargs → 0 < n → RoomAt m t argv (nargs - 1)) := by
  induction n generalizing k i with
  | zero => exact ⟨nofun,fun _ h0 => absurd h0 (lt_irrefl 0)⟩
  | succ n ih =>
    rw [saveArgs, hk.phys, hk.pgtbl, hk.pPgtbl] at h
    obtain ⟨bs,hbs,h⟩ := bind_eq_ok.mp h
    obtain ⟨ok,hok,h⟩ := bind_eq_ok.mp h
    cases ok with
    | false =>
      rw [if_pos (show (!false) = true by decide)] at h
      cases h
    | true =>
      rw [if_neg (show ¬ (!true) = true by decide)] at h
      obtain ⟨k₂,hsave,h⟩ := bind_eq_ok.mp h
      have hacc : Accepted m t t₂ argv i := ⟨bs,hbs,hok⟩
      obtain ⟨a,rfl⟩ := saveArg_eq hsave
      obtain ⟨hrest,hroom⟩ := ih (hk.setBuf a) (hmap.tail hacc) (by omega) h
      refine ⟨fun r hr => ?_,fun hn _ => ?_⟩
      · cases r with
        | zero => exact hacc
        | succ r =>
          rw [Nat.add_comm r 1, ← Nat.add_assoc]
          exact hrest r (by omega)
      · rcases Nat.eq_zero_or_pos n with rfl | hpos
        · -- the last row
          obtain rfl : i = nargs - 1 := by omega
          obtain ⟨text,htext,-⟩ := hsp.accepts hok (hmap.head.string bs hbs hok)
          have hrow := saveArg_row (k := k) (i := nargs - 1) (n := arglen) (hk.phys ▸ htext) (Nat.zero_le _)
          rw [hsave, List.drop_zero] at hrow
          have hshort : text.length < arglen := by
            by_contra hlong
            rw [if_neg] at hrow
            · cases hrow
            · rw [List.length_take]
              unfold nargs arglen at *
              omega
          intro bs' text' hbs' htext'
          rw [hbs] at hbs'
          cases hbs'
          exact (htext'.unique htext).trans_lt hshort
        · exact hroom (by omega) hpos

theorem saveArgs_of_accepted (hk : Tables k c m t t₂) (hsp : Space m kp t t₂) (hmap : ArgsMapped m t t₂ argv i n)
    (hle : i + n ≤ nargs) (hacc : ∀ r < n, Accepted m t t₂ argv (i + r))
    (hroom : i + n = nargs → 0 < n → RoomAt m t argv (nargs - 1)) : ∃ k₁, saveArgs k c argv n i = .ok (true,k₁) := by
  induction n generalizing k i with
  | zero => exact ⟨k,rfl⟩
  | succ n ih =>
    have h0 : Accepted m t t₂ argv i := hacc 0 n.succ_pos
    obtain ⟨text,hat⟩ : ∃ text, ArgAt k c argv i text := by
      obtain ⟨rfl,rfl,rfl⟩ := hk
      exact h0.argAt hsp hmap.head
    have hfit : i * arglen + (text.take arglen).length < nargs * arglen := by
      rw [List.length_take]
      by_cases hi : i = nargs - 1
      · obtain ⟨bs,hbs,-,htext⟩ := hat.passed
        rw [hk.phys, hk.pgtbl] at hbs htext
        have := hroom (by omega) n.succ_pos bs text (hi ▸ hbs) htext
        unfold nargs arglen at *
        omega
      · unfold nargs arglen at *
        omega
    rw [saveArgs_succ hat, if_pos hfit]
    refine ih (hk.setBuf _) (hmap.tail h0) (by omega) (fun r hr => ?_) fun hn hpos => hroom (by omega) n.succ_pos
    rw [Nat.add_assoc, Nat.add_comm 1 r]
    exact hacc (r+1) (by omega)

/-! ## The path -/

/-- The text at a user pointer, as far as it is mapped. -/
def mappedPath (m : Phys) (t t₂ : ℕ) (ptr : U64) (i : ℕ) : Option UInt8 :=
  if UserMapped m t₂ (ptr + BitVec.ofNat 64 i) then (kload m t (ptr + BitVec.ofNat 64 i)).toOption else none

/-- The text ends where it is mapped, or one of its complete components is refused. -/
def PathMapped (v : Volume) (fuel : ℕ) (names : List (List UInt8)) (path : ℕ → Option UInt8) : Prop :=
  (components path 256 0 []).2 = .unmapped →
    ∀ ns, v.travel fuel (startNames path names) (components path 256 0 []).1 ≠ .arrived ns

/-- What `sys_exec` reads is mapped: the pointers to the arguments as far as these are accepted, and if
they are saved, the path. -/
structure ExecMapped (v : Volume) (fuel : ℕ) (names : List (List UInt8)) (m : Phys) (t t₂ : ℕ) (tf : Context) : Prop where
  args : ArgsMapped m t t₂ tf.rbx 0 (toInt32 tf.rcx).toNat
  path : (∀ i < (toInt32 tf.rcx).toNat, Accepted m t t₂ tf.rbx i) →
    ((toInt32 tf.rcx).toNat = nargs → RoomAt m t tf.rbx (nargs - 1)) → PathMapped v fuel names (mappedPath m t t₂ tf.rdx)

section Path
variable {v : Volume} {fuel : ℕ} {junk : DirFile} {name : ℕ → UInt8} {names : List (List UInt8)} {pwd : FileDesc}

theorem exfatResolve_mapped_iff (junk : DirFile) (name : ℕ → UInt8) {path : ℕ → Option UInt8} (hf : DirAt v fuel pwd names) :
    exfatResolve v fuel junk 2 path (some pwd) name ≠ .error .nullDeref ↔ PathMapped v fuel names path := by
  rw [Ne, exfatResolve_nullDeref_iff hf, journey_nullDeref_iff, not_and, not_exists]
  rfl

theorem execReads_error {rd : Reader} (h : saveArgsVia rd k c tf.rbx (toInt32 tf.rcx).toNat 0 = .error e) :
    execReads v fuel junk name rd k c tf = .error e := by
  rw [execReads, h, error_bind]

theorem execReads_refused {rd : Reader} (h : saveArgsVia rd k c tf.rbx (toInt32 tf.rcx).toNat 0 = .ok (false,k')) :
    execReads v fuel junk name rd k c tf = .ok (k',none) := by
  rw [execReads, h, ok_bind]

/-- The text at the path pointer, through any loads. -/
def textVia (rd : Reader) (ptr : U64) (i : ℕ) : Option UInt8 := (rd (ptr + BitVec.ofNat 64 i)).toOption

theorem execReads_saved {rd : Reader} (h : saveArgsVia rd k c tf.rbx (toInt32 tf.rcx).toNat 0 = .ok (true,k')) :
    execReads v fuel junk name rd k c tf =
      exfatResolve v fuel junk 2 (textVia rd tf.rdx) (some (k'.procs c).pwd) name >>= fun o => .ok (k',some o) := by
  rw [execReads, h, ok_bind]
  rfl

theorem ReadsOnly.args (hk : Tables k c m t t₂) (hsp : Space m kp t t₂) (hle : toInt32 tf.rcx ≤ nargs)
    (h : ReadsOnly (UserMapped m t₂) (fun rd => execReads v fuel junk name rd k c tf) (kload m t)) :
    ArgsMapped m t t₂ tf.rbx 0 (toInt32 tf.rcx).toNat := by
  intro r
  -- the first argument that is not mapped gives whatever its loads give
  induction r using Nat.strong_induction_on with
  | h r ih =>
    intro hr hacc
    by_contra hno
    have hbefore : ∀ j < r, Accepted m t t₂ tf.rbx (0 + j) ∧ ArgMapped m t t₂ tf.rbx (0 + j) := fun j hj =>
      ⟨hacc j hj,ih j hj (hj.trans hr) fun l hl => hacc l (hl.trans hj)⟩
    have herr : ∀ e, execReads v fuel junk name (Reader.outside (kload m t) (UserMapped m t₂) (.error e)) k c tf =
        .error e := fun e => execReads_error (saveArgsVia_reads hk hsp hr (by omega) hbefore hno)
    have h1 : .error .panic = execReads v fuel junk name (kload m t) k c tf := (herr .panic).symm.trans (h _ outside_eq)
    have h2 : .error .hang = execReads v fuel junk name (kload m t) k c tf := (herr .hang).symm.trans (h _ outside_eq)
    rw [← h1] at h2
    cases h2

theorem ReadsOnly.path (hk : Tables k c m t t₂) (hsp : Space m kp t t₂) (hf : DirAt v fuel (k.procs c).pwd names)
    (h : ReadsOnly (UserMapped m t₂) (fun rd => execReads v fuel junk name rd k c tf) (kload m t))
    (hargs : ArgsMapped m t t₂ tf.rbx 0 (toInt32 tf.rcx).toNat)
    (hs : saveArgs k c tf.rbx (toInt32 tf.rcx).toNat 0 = .ok (true,k')) :
    PathMapped v fuel names (mappedPath m t t₂ tf.rdx) := by
  have hpwd : (k'.procs c).pwd = (k.procs c).pwd := by
    obtain ⟨buf,rfl⟩ := saveArgs_eq hs
    rfl
  have hvia : ∀ x, execReads v fuel junk name (Reader.outside (kload m t) (UserMapped m t₂) x) k c tf =
      exfatResolve v fuel junk 2 (textVia (Reader.outside (kload m t) (UserMapped m t₂) x) tf.rdx)
        (some (k.procs c).pwd) name >>= fun o => .ok (k',some o) := fun x => by
    rw [execReads_saved ((saveArgsVia_mapped hk hsp outside_eq hargs).trans hs), hpwd]
  -- with a zero wherever nothing is mapped, no byte is missed
  have htotal : exfatResolve v fuel junk 2 (textVia (Reader.outside (kload m t) (UserMapped m t₂) (.ok 0)) tf.rdx)
      (some (k.procs c).pwd) name ≠ .error .nullDeref := by
    refine (exfatResolve_mapped_iff junk name hf).mpr fun hend => absurd hend (components_total fun i => ?_)
    unfold textVia Reader.outside
    split
    · rename_i hi
      obtain ⟨b,hb⟩ := hsp.kload_mapped hi
      rw [hb]
      nofun
    · nofun
  have hmissed : textVia (Reader.outside (kload m t) (UserMapped m t₂) (.error .panic)) tf.rdx =
      mappedPath m t t₂ tf.rdx := by
    funext i
    unfold textVia Reader.outside mappedPath
    split <;> rfl
  have hsame := (h _ (outside_eq (x := .error .panic))).trans (h _ (outside_eq (x := .ok 0))).symm
  dsimp only at hsame
  rw [hvia, hvia, hmissed] at hsame
  rw [← exfatResolve_mapped_iff junk name hf]
  intro herr
  rw [herr, error_bind] at hsame
  rcases bind_eq_error.mp hsame.symm with he | ⟨o,-,ho⟩
  · exact htotal he
  · cases ho

theorem ExecMapped.readsOnly (h : ExecMapped v fuel names m t t₂ tf) (hk : Tables k c m t t₂) (hsp : Space m kp t t₂)
    (hf : DirAt v fuel (k.procs c).pwd names) (hle : toInt32 tf.rcx ≤ nargs) :
    ReadsOnly (UserMapped m t₂) (fun rd => execReads v fuel junk name rd k c tf) (kload m t) := by
  intro rd' hrd
  dsimp only
  have hvia : ∀ rd : Reader, (∀ a, UserMapped m t₂ a → rd a = kload m t a) →
      saveArgsVia rd k c tf.rbx (toInt32 tf.rcx).toNat 0 = saveArgs k c tf.rbx (toInt32 tf.rcx).toNat 0 :=
    fun rd hrd => saveArgsVia_mapped hk hsp hrd h.args
  have h1 := hvia rd' hrd
  have h2 := hvia (kload m t) fun _ _ => rfl
  cases hs : saveArgs k c tf.rbx (toInt32 tf.rcx).toNat 0 with
  | error e => rw [execReads_error (h1.trans hs), execReads_error (h2.trans hs)]
  | ok x =>
    obtain ⟨ok,k₁⟩ := x
    cases ok with
    | false => rw [execReads_refused (h1.trans hs), execReads_refused (h2.trans hs)]
    | true =>
      obtain ⟨hacc,hroom⟩ := saveArgs_accepted hk hsp h.args (by omega) hs
      have hpath : PathMapped v fuel names (mappedPath m t t₂ tf.rdx) := by
        refine h.path (fun i hi => ?_) fun hn => hroom (by omega) (by rw [hn]; decide)
        have := hacc i hi
        rwa [Nat.zero_add] at this
      have hpwd : (k₁.procs c).pwd = (k.procs c).pwd := by
        obtain ⟨buf,rfl⟩ := saveArgs_eq hs
        rfl
      have hne : exfatResolve v fuel junk 2 (mappedPath m t t₂ tf.rdx) (some (k.procs c).pwd) name ≠ .error .nullDeref :=
        (exfatResolve_mapped_iff junk name hf).mpr hpath
      have hext : ∀ rd : Reader, (∀ a, UserMapped m t₂ a → rd a = kload m t a) → ∀ i b,
          mappedPath m t t₂ tf.rdx i = some b → textVia rd tf.rdx i = some b := by
        intro rd hrd i b hi
        unfold mappedPath at hi
        split at hi
        · rename_i hm
          rw [textVia, hrd _ hm]
          exact hi
        · cases hi
      rw [execReads_saved (h1.trans hs), execReads_saved (h2.trans hs), hpwd,
        exfatResolve_extends (hext rd' hrd) hne, exfatResolve_extends (hext _ fun _ _ => rfl) hne]

theorem execReads_mapped_iff (hk : Tables k c m t t₂) (hsp : Space m kp t t₂) (hf : DirAt v fuel (k.procs c).pwd names)
    (hle : toInt32 tf.rcx ≤ nargs) :
    ReadsOnly (UserMapped m t₂) (fun rd => execReads v fuel junk name rd k c tf) (kload m t) ↔
      ExecMapped v fuel names m t t₂ tf := by
  refine ⟨fun h => ?_,fun h => h.readsOnly hk hsp hf hle⟩
  have hargs := h.args hk hsp hle
  refine ⟨hargs,fun hacc hroom => ?_⟩
  obtain ⟨k₁,hs⟩ := saveArgs_of_accepted hk hsp hargs (by omega) (fun r hr => by rw [Nat.zero_add]; exact hacc r hr)
    fun hn _ => hroom (by omega)
  exact h.path hk hsp hf hargs hs

end Path

/-! ## The call -/

/-- A call of `sys_exec` reads what is mapped for the user, and a call that refuses its arguments leaves
the process as it is. -/
structure ExecReadsMapped (v : Volume) (fuel : ℕ) (junk : DirFile) (name : ℕ → UInt8) (k : Kernel) (c : Slot)
    (tf : Context) : Prop where
  reads : toInt32 tf.rcx ≤ nargs → ReadsOnly (UserMapped k.phys (k.procs c).pPgtbl)
    (fun rd => execReads v fuel junk name rd k c tf) (kload k.phys (k.procs c).pgtbl)
  refused : (nargs < toInt32 tf.rcx ∨ ∃ k₁, saveArgs k c tf.rbx (toInt32 tf.rcx).toNat 0 = .ok (false,k₁)) →
    ∀ blocks disk, ∃ buf, sysExec (v.fs fuel junk name blocks disk) k c tf =
      .ok (.ret { tf with rax := neg einval } { k with argvBuf := buf })

theorem sysExec_refused {fs : Fs}
    (h : nargs < toInt32 tf.rcx ∨ ∃ k₁, saveArgs k c tf.rbx (toInt32 tf.rcx).toNat 0 = .ok (false,k₁)) :
    ∃ buf, sysExec fs k c tf = .ok (.ret { tf with rax := neg einval } { k with argvBuf := buf }) := by
  rw [sysExec]
  dsimp only
  by_cases hn : (nargs : ℤ) < toInt32 tf.rcx
  · rw [if_pos hn]
    exact ⟨k.argvBuf,rfl⟩
  · obtain ⟨k₁,hs⟩ := h.resolve_left hn
    obtain ⟨buf,rfl⟩ := saveArgs_eq hs
    rw [if_neg hn, hs, ok_bind]
    exact ⟨buf,rfl⟩

/-- `sys_exec` reads only what is mapped for the user exactly if the pointers it reaches are mapped, the
strings it takes have addresses of the user, and the path ends where it is mapped. -/
theorem exec_reads_mapped_iff {v : Volume} {fuel : ℕ} {names : List (List UInt8)}
    (hsp : Space k.phys k.kPgtbl (k.procs c).pgtbl (k.procs c).pPgtbl) (hf : DirAt v fuel (k.procs c).pwd names)
    (junk : DirFile) (name : ℕ → UInt8) : ExecReadsMapped v fuel junk name k c tf ↔
      (toInt32 tf.rcx ≤ nargs → ExecMapped v fuel names k.phys (k.procs c).pgtbl (k.procs c).pPgtbl tf) := by
  have hk : Tables k c k.phys (k.procs c).pgtbl (k.procs c).pPgtbl := ⟨rfl,rfl,rfl⟩
  constructor
  · intro h hle
    exact (execReads_mapped_iff hk hsp hf hle).mp (h.reads hle)
  · intro h
    exact ⟨fun hle => (execReads_mapped_iff hk hsp hf hle).mpr (h hle),fun hr _ _ => sysExec_refused hr⟩

theorem exfatResolve_missing {v : Volume} {fuel depth : ℕ} {junk : DirFile} {name : ℕ → UInt8} {pwd : Option FileDesc}
    {path : ℕ → Option UInt8} (h : path 0 = none) :
    exfatResolve v fuel junk (depth+1) path pwd name = .error .nullDeref := by
  rw [exfatResolve, pathByte, h]
  rfl

theorem exfatResolve_empty {v : Volume} {fuel depth : ℕ} {junk : DirFile} {name : ℕ → UInt8} {pwd : Option FileDesc}
    {path : ℕ → Option UInt8} (h : path 0 = some 0) :
    exfatResolve v fuel junk (depth+1) path pwd name = .ok ⟨.ok v.root,⟨[],0⟩,name⟩ := by
  have hstart : openStart v 0 pwd = .ok (v.root,⟨[],0⟩) := by cases pwd <;> rfl
  rw [exfatResolve, pathByte, h]
  dsimp only
  rw [ok_bind, hstart, ok_bind, show 256 = 255 + 1 from rfl, openLoop, pathByte, h]
  rfl

/-- The first process calls with the path at address 0, where nothing is mapped: the kernel faults. -/
theorem exec_reads_null_path : ∃ k, Started longFs k ∧
    ¬ ExecReadsMapped longVolume 32 longVolume.root (fun _ => 0) k firstSlot .zero ∧
    sysExec longFs k firstSlot .zero = .error .nullDeref := by
  have hopen : OpensRoot longFs := ⟨_,[],by decide,rfl⟩
  obtain ⟨m,a,b,pwd,hs,-,hbare,-⟩ := started_bare (N := 19) stubImg_bare hopen le_rfl
  obtain ⟨c,hsys⟩ := hs.sys
  obtain rfl : c = firstSlot := Option.some.inj hsys.cur.symm
  have hsp := hsys.inv.owned.mem.space firstSlot _ _ (spaces_some hsys.open)
  refine ⟨_,hs,?_⟩
  generalize hk : breakKernel m a b pwd (id 0) = k at *
  have hphys : k.phys = m := by rw [← hk]; rfl
  have hself : k.procs firstSlot = { loneProc a b pwd with endUmem := id 0 } := by rw [← hk, breakKernel_self]
  have hpg : (k.procs firstSlot).pgtbl = a := by rw [hself]; rfl
  have hpg₂ : (k.procs firstSlot).pPgtbl = b := by rw [hself]; rfl
  rw [hphys, hpg, hpg₂] at hsp
  have hno : (lookup m b 0).p = false := hbare 0 (by decide) (by decide) (by decide)
  have hno' : (lookup m a 0).p = false := (hsp.agree 0 (by decide)).1.trans hno
  have hload : kload k.phys (k.procs firstSlot).pgtbl 0 = .error .nullDeref := by
    rw [hphys, hpg, kload, if_neg (by decide), translate]
    simp [hno']
  have hmap : ¬ UserMapped k.phys (k.procs firstSlot).pPgtbl 0 := fun h => by
    have h1 : (lookup m b 0).p = true := by
      rw [hphys, hpg₂] at h
      exact Pte.p_of_covers_u h.2
    rw [hno] at h1
    cases h1
  constructor
  · intro h
    have hsame := h.reads (by decide) _ (outside_eq (x := .ok 0))
    dsimp only at hsame
    rw [execReads_saved rfl, execReads_saved rfl, exfatResolve_empty, exfatResolve_missing] at hsame
    · cases hsame
    · rw [textVia, show (Context.zero.rdx + BitVec.ofNat 64 0) = 0 from rfl, hload]
      rfl
    · rw [textVia, show (Context.zero.rdx + BitVec.ofNat 64 0) = 0 from rfl, Reader.outside, if_neg hmap]
      rfl
  · rw [longFs, sysExec_reads, if_neg (by decide), execReads_saved rfl, exfatResolve_missing]
    · rfl
    · rw [textVia, show (Context.zero.rdx + BitVec.ofNat 64 0) = 0 from rfl, hload]
      rfl

/-- In the root directory, with the empty path on the page of the arguments. -/
theorem exec_reads_own_page : ∃ k, ExecReadsMapped longVolume 32 longVolume.root (fun _ => 0) k firstSlot
    { Context.zero with rdx := BitVec.ofNat 64 uargs } := by
  obtain ⟨m,a,b,pwd,hs,hlaid,-⟩ := started_lone (N := 19) rootFs_opens le_rfl
  obtain ⟨c,hsys⟩ := hs.sys
  obtain rfl : c = firstSlot := Option.some.inj hsys.cur.symm
  have hsp := hsys.inv.owned.mem.space firstSlot _ _ (spaces_some hsys.open)
  rw [loneKernel_self] at hsp
  let root : FileDesc := { FileDesc.zero with headCluster := 4, useFat := 1, fileType := .dir }
  have hroot : DirAt longVolume 32 ((loneKernel m a b root).procs firstSlot).pwd [] := by
    rw [loneKernel_self]
    exact ⟨nofun,rfl,by decide,longVolume.root,rfl,rfl,rfl,rfl⟩
  refine ⟨loneKernel m a b root,(exec_reads_mapped_iff ?_ hroot _ _).mpr fun _ => ⟨fun r hr => ?_,fun _ _ hend => ?_⟩⟩
  · rw [loneKernel_self]
    exact hsp
  · exact absurd hr (Nat.not_lt_zero r)
  · have h0 : mappedPath m a b (BitVec.ofNat 64 uargs) 0 = some 0 := by
      obtain ⟨f,he,hd⟩ := hlaid.args
      have hu : userLoad m a uargs = some 0 := by
        rw [userLoad_full he (by decide), hd _ (by decide)]
        rfl
      rw [mappedPath, show BitVec.ofNat 64 uargs + BitVec.ofNat 64 0 = BitVec.ofNat 64 uargs from rfl, if_pos,
        kload_of_userLoad hu]
      · rfl
      · exact ⟨by decide,(hsp.granted_full (by decide) he).1⟩
    rw [loneKernel_self] at hend
    replace hend : (components (mappedPath m a b (BitVec.ofNat 64 uargs)) (255 + 1) 0 []).2 = .unmapped := hend
    rw [components, h0] at hend
    cases hend

end Ukern
