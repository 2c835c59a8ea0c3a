import Ukern.Pipe.State

/-! # Wake-ups of a writer

A write that does not fit wakes a reader that waits, and the reader calls for the rest. If the rest
fits then, the write is over and the writer made ready; but `sys_write` only sees the count of its
own call, and blocks the writer for good.
-/
namespace Ukern
open Lib
variable {k k' k₁ : Kernel} {c r w : Slot} {tf : Context} {q : Pipe} {o : Outcome} {pg n s : ℕ} {invoke : Bool}

/-! ## The two bookkeepings -/

/-- `n` bytes of the writer have been entered. -/
structure Pipe.Filled (q q' : Pipe) (n : ℕ) : Prop where
  reader : q'.reader = q.reader
  rsiz : q'.rsiz = q.rsiz
  len : q'.len = q.len + n
  all : q.wptr + n = q.wsiz → q'.writer = none
  part : q.wptr + n < q.wsiz → q'.writer = q.writer ∧ q'.wptr = q.wptr + n ∧ q'.wsiz = q.wsiz

/-- `n` bytes have been taken out for the reader. -/
structure Pipe.Drained (q q' : Pipe) (n : ℕ) : Prop where
  reader : q'.reader = none
  len : q'.len = q.len - n
  writer : q'.writer = q.writer
  wptr : q'.wptr = q.wptr
  wsiz : q'.wsiz = q.wsiz

theorem Pipe.filled (b : ℕ → UInt8) (hn : q.wptr + n ≤ q.wsiz) (hsiz : q.wsiz < 2^32) (hlen : q.len + n < 2^32) :
    Pipe.Filled q (({ q with buf := b } : Pipe).given n) n := by
  unfold Pipe.given
  dsimp only
  rw [Nat.mod_eq_of_lt (show q.wptr + n < 2^32 by omega), Nat.mod_eq_of_lt hlen]
  split
  · rename_i heq
    exact ⟨rfl,rfl,rfl,fun _ => rfl,fun h => absurd heq h.ne⟩
  · rename_i hne
    exact ⟨rfl,rfl,rfl,fun h => absurd h hne,fun _ => ⟨rfl,rfl,rfl⟩⟩

theorem Pipe.drained (hn : n ≤ q.len) (hlen : q.len < 2^32) : Pipe.Drained q (q.taken n) n := by
  refine ⟨rfl,?_,rfl,rfl,rfl⟩
  unfold Pipe.taken
  dsimp only
  omega

/-- The process can run. -/
def Awake (k : Kernel) (c : Slot) : Prop := (k.procs c).state = .running ∨ (k.procs c).state = .ready

theorem Awake.wakeIf {p : Prop} [Decidable p] {v : U64} (h : Awake k c) : Awake (if p then k.wake r v else k) c := by
  split
  · by_cases hc : c = r
    · subst hc
      exact .inr (by simp [Kernel.wake])
    · rw [Awake, Kernel.wake, Kernel.modProc_ne _ _ _ hc]
      exact h
  · exact h

theorem pipeReadCopy_procs (h : pipeReadCopy k pg r n = .ok k') : k'.procs = k.procs := by
  unfold pipeReadCopy at h
  obtain ⟨⟨rbuf,m⟩,-,h⟩ := bind_eq_ok.mp h
  obtain ⟨m₁,-,h⟩ := bind_eq_ok.mp h
  cases h
  rfl

theorem pipeWriteCopy_procs (h : pipeWriteCopy k pg w n = .ok k') : k'.procs = k.procs := by
  unfold pipeWriteCopy at h
  obtain ⟨⟨wbuf,m⟩,-,h⟩ := bind_eq_ok.mp h
  obtain ⟨m₁,-,h⟩ := bind_eq_ok.mp h
  cases h
  rfl

/-! ## What one call does -/

section Calls
variable {g : Kernel → Except Fault (ℕ × Kernel)}

/-- `pipe_write` of a registered writer: the copy, then the call for a reader. -/
theorem pipeWriteWith_ok (hlen : (k.pipe pg).len ≤ pipeBuflen - 1) (hsiz : (k.pipe pg).wsiz < 2^32)
    (hptr : (k.pipe pg).wptr < (k.pipe pg).wsiz) (hroom : (k.pipe pg).len < pipeBuflen - 1)
    (h : pipeWriteWith g k pg invoke = .ok (n,k')) :
    n = min (pipeBuflen - 1 - (k.pipe pg).len) ((k.pipe pg).wsiz - (k.pipe pg).wptr) ∧
    ∃ k₁, Pipe.Filled (k.pipe pg) (k₁.pipe pg) n ∧ (∀ c, Awake k c → Awake k₁ c) ∧
      ((k.pipe pg).reader = none ∧ k' = k₁ ∨ (k.pipe pg).reader ≠ none ∧ ∃ s, g k₁ = .ok (s,k')) := by
  have hsize := Pipe.writeSize_eq hlen hsiz hptr
  unfold pipeWriteWith at h
  dsimp only at h
  rw [hsize, if_neg (by omega)] at h
  split at h
  · cases h
  obtain ⟨k₁,hc,h⟩ := bind_eq_ok.mp h
  obtain ⟨b,hb⟩ := pipeWriteCopy_pipe hc
  have hfill := Pipe.filled (q := k.pipe pg) (n := min (pipeBuflen - 1 - (k.pipe pg).len)
    ((k.pipe pg).wsiz - (k.pipe pg).wptr)) b (by omega) hsiz (by unfold pipeBuflen at *; omega)
  rw [← hb] at hfill
  have hawake : ∀ c, Awake k c → Awake k₁ c := fun c hk => by rwa [Awake, pipeWriteCopy_procs hc]
  rw [wakeIf_pipe, hfill.reader] at h
  split at h
  · rename_i hsome
    obtain ⟨⟨s,k₂⟩,hg,h⟩ := bind_eq_ok.mp h
    cases h
    exact ⟨rfl,_,by rwa [wakeIf_pipe],fun c hk => (hawake c hk).wakeIf,
      .inr ⟨Option.isSome_iff_ne_none.mp hsome,s,hg⟩⟩
  · rename_i hnone
    cases h
    exact ⟨rfl,_,by rwa [wakeIf_pipe],fun c hk => (hawake c hk).wakeIf,.inl ⟨by simpa using hnone,rfl⟩⟩

/-- `pipe_read` of a registered reader: nothing, or the copy and the call for a writer. -/
theorem pipeReadWith_ok (hlen : (k.pipe pg).len < 2^32) (h : pipeReadWith g k pg invoke = .ok (n,k')) :
    n = min (k.pipe pg).len (k.pipe pg).rsiz ∧ (n = 0 ∧ k' = k ∨ 0 < n ∧
    ∃ k₁, Pipe.Drained (k.pipe pg) (k₁.pipe pg) n ∧ (∀ c, Awake k c → Awake k₁ c) ∧
      ((k.pipe pg).writer = none ∧ k' = k₁ ∨ (k.pipe pg).writer ≠ none ∧ ∃ s, g k₁ = .ok (s,k'))) := by
  unfold pipeReadWith at h
  dsimp only at h
  split at h
  · rename_i hzero
    cases h
    exact ⟨hzero.symm,.inl ⟨rfl,rfl⟩⟩
  rename_i hpos
  split at h
  · cases h
  obtain ⟨k₁,hc,h⟩ := bind_eq_ok.mp h
  have hdrain := Pipe.drained (Nat.min_le_left (k.pipe pg).len (k.pipe pg).rsiz) hlen
  have hpipe : k₁.pipe pg = (k.pipe pg).taken (min (k.pipe pg).len (k.pipe pg).rsiz) := pipeReadCopy_pipe hc
  rw [← hpipe] at hdrain
  have hawake : ∀ c, Awake k c → Awake k₁ c := fun c hk => by rwa [Awake, pipeReadCopy_procs hc]
  rw [wakeIf_pipe, hdrain.writer] at h
  split at h
  · rename_i hsome
    obtain ⟨⟨s,k₂⟩,hg,h⟩ := bind_eq_ok.mp h
    cases h
    exact ⟨rfl,.inr ⟨Nat.pos_of_ne_zero hpos,_,by rwa [wakeIf_pipe],fun c hk => (hawake c hk).wakeIf,
      .inr ⟨Option.isSome_iff_ne_none.mp hsome,s,hg⟩⟩⟩
  · rename_i hnone
    cases h
    exact ⟨rfl,.inr ⟨Nat.pos_of_ne_zero hpos,_,by rwa [wakeIf_pipe],fun c hk => (hawake c hk).wakeIf,
      .inl ⟨by simpa using hnone,rfl⟩⟩⟩

end Calls

/-! ## A write from beginning to end -/

/-- The bytes that a waiting reader takes out of `n` bytes in the pipe. -/
def Pipe.handed (q : Pipe) (n : ℕ) : ℕ := if q.reader = none then 0 else min n q.rsiz

/-- The first call fills the pipe, and the reader makes room for the rest. -/
def Pipe.Outruns (q : Pipe) (n : ℕ) : Prop :=
  q.reader ≠ none ∧ 0 < q.rsiz ∧ q.len < pipeBuflen - 1 ∧
    pipeBuflen - 1 - q.len < n ∧ n ≤ pipeBuflen - 1 - q.len + min (pipeBuflen - 1) q.rsiz

/-- A write that fits is over, and a waiting reader takes its bytes. -/
theorem pipeWrite_fits {g : Kernel → Except Fault (ℕ × Kernel)} (hsiz : (k.pipe pg).wsiz < 2^32)
    (hptr : (k.pipe pg).wptr < (k.pipe pg).wsiz)
    (hfit : (k.pipe pg).len + ((k.pipe pg).wsiz - (k.pipe pg).wptr) ≤ pipeBuflen - 1)
    (h : pipeWriteWith (fun k => pipeReadWith g k pg true) k pg invoke = .ok (n,k')) :
    n = (k.pipe pg).wsiz - (k.pipe pg).wptr ∧ (k'.pipe pg).writer = none ∧ (∀ c, Awake k c → Awake k' c) ∧
      (k'.pipe pg).len + (k.pipe pg).handed ((k.pipe pg).len + n) = (k.pipe pg).len + n := by
  obtain ⟨hn,k₁,hfill,hawake,hnext⟩ := pipeWriteWith_ok (by omega) hsiz hptr (by omega) h
  have hn' : n = (k.pipe pg).wsiz - (k.pipe pg).wptr := by omega
  have hwriter := hfill.all (by omega)
  refine ⟨hn',?_⟩
  rcases hnext with ⟨hr,rfl⟩ | ⟨hr,s,hs⟩
  · exact ⟨hwriter,hawake,by rw [Pipe.handed, if_pos hr, hfill.len, Nat.add_zero]⟩
  · rw [Pipe.handed, if_neg hr, ← hfill.len, ← hfill.rsiz]
    obtain ⟨hs',⟨hzero,rfl⟩ | ⟨-,k₂,hdrain,hawake',hlast⟩⟩ :=
      pipeReadWith_ok (by rw [hfill.len]; unfold pipeBuflen at hfit; omega) hs
    · exact ⟨hwriter,hawake,by omega⟩
    · obtain ⟨-,rfl⟩ : (k₁.pipe pg).writer = none ∧ k' = k₂ := hlast.resolve_right fun h => h.1 hwriter
      refine ⟨hdrain.writer.trans hwriter,fun c hk => hawake' c (hawake c hk),?_⟩
      rw [hdrain.len]
      omega

/-- A write that does not fit: it is over by itself exactly if a waiting reader makes room for the rest. -/
theorem pipeWrite_part {g : Kernel → Except Fault (ℕ × Kernel)} (hlen : (k.pipe pg).len ≤ pipeBuflen - 1)
    (hsiz : (k.pipe pg).wsiz < 2^32) (hptr : (k.pipe pg).wptr = 0) (hpos : 0 < (k.pipe pg).wsiz)
    (hpart : pipeBuflen - 1 - (k.pipe pg).len < (k.pipe pg).wsiz) (hw : (k.pipe pg).writer = some w)
    (h : pipeWriteWith (fun k => pipeReadWith (fun k => pipeWriteWith g k pg true) k pg true) k pg invoke = .ok (n,k')) :
    n < (k.pipe pg).wsiz ∧ ((k.pipe pg).Outruns (k.pipe pg).wsiz → (k'.pipe pg).writer = none) ∧
      (¬ (k.pipe pg).Outruns (k.pipe pg).wsiz → (k'.pipe pg).writer = some w ∧ (k'.pipe pg).wptr < (k'.pipe pg).wsiz) := by
  by_cases hroom : (k.pipe pg).len < pipeBuflen - 1
  · obtain ⟨hn,k₁,hfill,-,hnext⟩ := pipeWriteWith_ok hlen hsiz (hptr ▸ hpos) hroom h
    rw [hptr, Nat.sub_zero, Nat.min_eq_left hpart.le] at hn
    obtain ⟨hwriter,hwptr,hwsiz⟩ := hfill.part (by rw [hptr, Nat.zero_add, hn]; exact hpart)
    rw [hptr, Nat.zero_add] at hwptr
    have hfull : (k₁.pipe pg).len = pipeBuflen - 1 := by
      rw [hfill.len, hn]
      omega
    refine ⟨hn ▸ hpart,?_⟩
    rcases hnext with ⟨hr,rfl⟩ | ⟨hr,s,hs⟩
    · exact ⟨fun ho => absurd hr ho.1,fun _ => ⟨hwriter.trans hw,by rw [hwptr, hwsiz, hn]; exact hpart⟩⟩
    obtain ⟨hs',hread⟩ := pipeReadWith_ok (by rw [hfull]; decide) hs
    rw [hfull, hfill.rsiz] at hs'
    rcases hread with ⟨hzero,rfl⟩ | ⟨hspos,k₂,hdrain,-,hlast⟩
    · have hnoread : (k.pipe pg).rsiz = 0 := by
        rw [hzero] at hs'
        unfold pipeBuflen at hs'
        omega
      exact ⟨fun ho => absurd ho.2.1 (by rw [hnoread]; decide),
        fun _ => ⟨hwriter.trans hw,by rw [hwptr, hwsiz, hn]; exact hpart⟩⟩
    · obtain ⟨-,n₂,hn₂⟩ := hlast.resolve_left fun h => by rw [hwriter, hw] at h; cases h.1
      have hs_le : s ≤ pipeBuflen - 1 := hs' ▸ Nat.min_le_left _ _
      have hlen₂ : (k₂.pipe pg).len = pipeBuflen - 1 - s := by rw [hdrain.len, hfull]
      have hwptr₂ : (k₂.pipe pg).wptr = n := hdrain.wptr.trans hwptr
      have hwsiz₂ : (k₂.pipe pg).wsiz = (k.pipe pg).wsiz := hdrain.wsiz.trans hwsiz
      obtain ⟨hn₂',k₃,hfill₃,-,hend⟩ := pipeWriteWith_ok (by rw [hlen₂]; exact Nat.sub_le _ _) (by rwa [hwsiz₂])
        (by rw [hwptr₂, hwsiz₂, hn]; exact hpart) (by rw [hlen₂]; omega) hn₂
      obtain ⟨-,rfl⟩ := hend.resolve_right fun h => h.1 hdrain.reader
      have hall := hfill₃.all
      have hsome := hfill₃.part
      rw [hwptr₂, hwsiz₂] at hall hsome hn₂'
      rw [hlen₂, Nat.sub_sub_self hs_le] at hn₂'
      rw [Pipe.Outruns, ← hs', ← hn]
      refine ⟨fun ho => hall ?_,fun ho => ?_⟩
      · have hle := ho.2.2.2.2
        rw [hn₂', Nat.min_eq_right (by omega)]
        omega
      · have hmore : n + s < (k.pipe pg).wsiz := by
          by_contra hle
          exact ho ⟨hr,by rw [hs'] at hspos; exact (lt_min_iff.mp hspos).2,hroom,hn ▸ hpart,Nat.le_of_not_lt hle⟩
        rw [Nat.min_eq_left (by omega)] at hn₂'
        obtain ⟨h1,h2,h3⟩ := hsome (by rw [hn₂']; exact hmore)
        exact ⟨h1.trans (hdrain.writer.trans (hwriter.trans hw)),by rw [h2, h3, hn₂']; exact hmore⟩
  · have hsize := Pipe.writeSize_eq hlen hsiz (by omega)
    unfold pipeWriteWith at h
    dsimp only at h
    rw [hsize, if_pos (by omega)] at h
    cases h
    exact ⟨hpos,fun ho => absurd ho.2.2.1 hroom,fun _ => ⟨hw,by omega⟩⟩

/-! ## `sys_write` -/

/-- What a trap leaves in `rax` of process `c`. -/
def Outcome.rax (o : Outcome) (c : Slot) : U64 :=
  match o with
  | .ret tf _ => tf.rax
  | .run k => (k.procs c).context.rax

/-- A write is over for the process and all bytes are taken, or the process waits and is registered. -/
def WriteSettled (q : Pipe) (c : Slot) (pg : ℕ) (tf : Context) (o : Outcome) : Prop :=
  (Awake o.kernel c ∧ o.rax c = tf.rbx ∧ (o.kernel.pipe pg).writer = none ∧
    (o.kernel.pipe pg).len + q.handed (q.len + tf.rbx.toNat) = q.len + tf.rbx.toNat) ∨
  ((o.kernel.procs c).state = .pending ∧ (o.kernel.pipe pg).writer = some c ∧
    (o.kernel.pipe pg).wptr < (o.kernel.pipe pg).wsiz)

theorem sched_pending (hc : (k.procs c).state = .pending) (h : k.sched = .ok o) :
    (o.kernel.procs c).state = .pending := by
  unfold Kernel.sched at h
  obtain ⟨k',hs,h⟩ := bind_eq_ok.mp h
  obtain ⟨i,hi,rfl⟩ := sched_ok hs
  cases h
  have hne : c ≠ i := fun hci => by
    rw [← hci, hc] at hi
    cases hi
  have hkeep : (k.modProc i fun p => { p with state := .running }).procs c = k.procs c := Kernel.modProc_ne _ _ _ hne
  exact (congrArg Proc.state hkeep).trans hc

/-- Blocked, the writer is not ready, whatever has become of its write. -/
theorem writeSettled_blocked {q : Pipe} (h : (k.block c tf).sched = .ok o) : WriteSettled q c pg tf o ↔
    (k.pipe pg).writer = some c ∧ (k.pipe pg).wptr < (k.pipe pg).wsiz := by
  have hblock : ((k.block c tf).procs c).state = .pending := by rw [Kernel.block, Kernel.modProc_self]
  have hpend := sched_pending hblock h
  have hpipe : o.kernel.pipe pg = k.pipe pg := sched_pipe (k := k.block c tf) pg h
  rw [WriteSettled, hpipe, Awake, hpend]
  simp

theorem writePipe_settled_iff (hlen : (k.pipe pg).len ≤ pipeBuflen - 1) (hc : (k.procs c).state = .running)
    (hsz : tf.Fits) (h : writePipe k c pg tf = .ok o) : WriteSettled (k.pipe pg) c pg tf o ↔
      (k.pipe pg).writer = none ∧ ¬ (k.pipe pg).Outruns tf.rbx.toNat := by
  unfold writePipe at h
  split at h
  · rename_i hbusy
    cases h
    refine iff_of_false ?_ fun hno => by rw [hno.1] at hbusy; cases hbusy
    rintro (⟨-,hrax,-⟩ | ⟨hpend,-⟩)
    · have hlt := hsz.2
      rw [← (show neg ebusy = tf.rbx from hrax)] at hlt
      exact absurd hlt (by decide)
    · rw [show (Outcome.kernel (.ret { tf with rax := neg ebusy } k)) = k from rfl, hc] at hpend
      cases hpend
  rename_i hfree
  have hnone : (k.pipe pg).writer = none := by simpa using hfree
  dsimp only at h
  obtain ⟨⟨n,k'⟩,hp,h⟩ := bind_eq_ok.mp h
  change pipeWrite 3 (k.asWriter c pg tf) pg false = .ok (n,k') at hp
  rw [← pipeWrite_ends 0 fun _ => .error .hang] at hp
  have hq : (k.asWriter c pg tf).pipe pg = { k.pipe pg with
      writer := some c, wsiz := tf.rbx.toNat, wptr := 0, wbuf := tf.rcx.toNat } := by
    rw [Kernel.asWriter, Kernel.setPipe_self, Nat.mod_eq_of_lt hsz.2]
  obtain ⟨hpos,hlt⟩ := hsz
  dsimp only at h
  by_cases hfit : (k.pipe pg).len + tf.rbx.toNat ≤ pipeBuflen - 1
  · obtain ⟨hn,hwriter,hawake,hsum⟩ := pipeWrite_fits (by rwa [hq]) (by rwa [hq]) (by rw [hq]; exact hfit) hp
    rw [hq] at hn hsum
    obtain rfl : n = tf.rbx.toNat := hn
    rw [if_neg (Nat.lt_irrefl _), if_pos rfl] at h
    cases h
    refine iff_of_true (.inl ⟨hawake c (.inl hc),?_,hwriter,hsum⟩) ⟨hnone,fun ho => absurd ho.2.2.2.1 (by omega)⟩
    exact BitVec.ofNat_toNat ..
  · obtain ⟨hn,hover,hwait⟩ := pipeWrite_part (by rwa [hq]) (by rwa [hq]) (by rw [hq]) (by rwa [hq])
      (by rw [hq]; simp only; omega) (by rw [hq]) hp
    rw [hq] at hn hover hwait
    rw [if_neg (by simp only at hn; omega), if_neg (by simp only at hn; omega)] at h
    rw [writeSettled_blocked h]
    constructor
    · rintro ⟨hw,-⟩
      refine ⟨hnone,fun ho => ?_⟩
      rw [hover ho] at hw
      cases hw
    · rintro ⟨-,ho⟩
      exact hwait ho

/-- A write to a pipe ends as it should exactly if no writer waits there and the write does not outrun
a waiting reader. -/
theorem pipe_write_settled_iff {fd : ℕ} (hlen : (k.pipe pg).len ≤ pipeBuflen - 1)
    (hc : (k.procs c).state = .running) (hfd : fdOf tf.rdx = some fd) (hin : ((k.procs c).fdesc fd).inuse = true)
    (hty : ((k.procs c).fdesc fd).fileType = .wpipe) (hpg : ((k.procs c).fdesc fd).pipe = pg) (hsz : tf.Fits)
    (hbuf : checkMem k.phys (k.procs c).pPgtbl tf.rcx tf.rbx pteU = .ok true) (h : sysWrite k c tf = .ok o) :
    WriteSettled (k.pipe pg) c pg tf o ↔ (k.pipe pg).writer = none ∧ ¬ (k.pipe pg).Outruns tf.rbx.toNat := by
  refine writePipe_settled_iff hlen hc hsz ?_
  unfold sysWrite at h
  rw [hfd] at h
  dsimp only at h
  rw [if_neg hsz.ne_zero, hbuf, ok_bind, hin, hty, hpg] at h
  exact h

/-! ## A reader that waits for one byte -/

def secondSlot : Slot := slotAt 1

/-- Each of two processes has a page of its own at `0x1000`. -/
def twoSpaces : Phys := { twoPages false with
  tbl := fun t i =>
    if 10 ≤ t ∧ t % 10 < 3 ∧ i = 0 then ⟨t + 1,pteFlags⟩
    else if 10 ≤ t ∧ t % 10 = 3 ∧ i = 1 then ⟨if t / 10 % 2 = 1 then 14 else 24,pteFlags⟩
    else .zero }

/-- The first process holds the read end of pipe 9, the second its write end. -/
def pipePair (i : Slot) : Proc :=
  if i = firstSlot then { Proc.zero with
    state := .running
    pgtbl := 10
    pPgtbl := 30
    fdesc := fun _ => { FileDesc.zero with inuse := true, fileType := .rpipe, pipe := 9 } }
  else if i = secondSlot then { Proc.zero with
    state := .ready
    pgtbl := 20
    pPgtbl := 40
    fdesc := fun _ => { FileDesc.zero with inuse := true, fileType := .wpipe, pipe := 9 } }
  else .zero

def pairKernel : Kernel :=
  { bootKernel 0 with phys := twoSpaces.setPipe 9 Pipe.fresh, procs := pipePair, curproc := some firstSlot }

/-- `read(3, 0x1000, n)` or `write(3, 0x1000, n)`. -/
def transfer (n : U64) : Context := { Context.zero with rdx := 3, rcx := 0x1000, rbx := n }

/-- The first process waits for one byte, the second writes `n` bytes. -/
theorem pairKernel_write (n : U64) {x : ProcState × Option Slot}
    (hx : ((sysRead rootFs pairKernel firstSlot (transfer 1)).toOption.bind fun o =>
      if (o.kernel.procs secondSlot).state = .running then
        (sysWrite o.kernel secondSlot (transfer n)).toOption.map fun o =>
          ((o.kernel.procs secondSlot).state,(o.kernel.pipe 9).writer)
      else none) = some x) :
    ∃ k o, Relation.ReflTransGen (PipeStep rootFs 9) pairKernel k ∧ (k.procs secondSlot).state = .running ∧
      sysWrite k secondSlot (transfer n) = .ok o ∧
      x = ((o.kernel.procs secondSlot).state,(o.kernel.pipe 9).writer) := by
  obtain ⟨o,ho,hx⟩ := Option.bind_eq_some_iff.mp hx
  split at hx
  · rename_i hrun
    obtain ⟨o',ho',rfl⟩ := Option.map_eq_some_iff.mp hx
    have hread := eq_ok_of_toOption ho
    refine ⟨o.kernel,o',.single (.read (show fdOf (transfer 1).rdx = some 3 from rfl) rfl rfl rfl
      ⟨by decide,by decide⟩ hread),hrun,eq_ok_of_toOption ho',rfl⟩
  · cases hx

/-- A reader waits for one byte and 4032 bytes are written: the call fills the pipe, the reader takes its
byte and the last byte is entered. The write is over, and the writer blocked. -/
theorem pipe_write_lost_wakeup : ∃ k o, Relation.ReflTransGen (PipeStep rootFs 9) pairKernel k ∧
    (k.procs secondSlot).state = .running ∧ sysWrite k secondSlot (transfer 4032) = .ok o ∧
    (o.kernel.procs secondSlot).state = .pending ∧ (o.kernel.pipe 9).writer = none ∧
    ¬ WriteSettled (k.pipe 9) secondSlot 9 (transfer 4032) o := by
  obtain ⟨k,o,hrun,hk,hw,hx⟩ := pairKernel_write 4032 (x := (.pending,none)) (by decide +kernel)
  obtain ⟨h1,h2⟩ := Prod.mk.inj hx
  refine ⟨k,o,hrun,hk,hw,h1.symm,h2.symm,?_⟩
  rintro (⟨hawake,-⟩ | ⟨-,hwriter,-⟩)
  · rw [Awake, ← h1] at hawake
    rcases hawake with h | h <;> cases h
  · rw [← h2] at hwriter
    cases hwriter

/-- The second process runs, and nobody waits. -/
def writerKernel : Kernel := pairKernel.modProc secondSlot fun p => { p with state := .running }

theorem pipe_write_settled_seven : ∃ o, sysWrite writerKernel secondSlot (transfer 7) = .ok o ∧
    WriteSettled Pipe.fresh secondSlot 9 (transfer 7) o := by
  obtain ⟨o,ho⟩ : ∃ o, sysWrite writerKernel secondSlot (transfer 7) = .ok o := exists_ok (by decide +kernel)
  refine ⟨o,ho,?_⟩
  exact (pipe_write_settled_iff (k := writerKernel) (show (writerKernel.pipe 9).len ≤ _ by decide) rfl rfl rfl rfl rfl
    ⟨by decide,by decide⟩ rfl ho).mpr ⟨rfl,fun h => absurd rfl h.1⟩

end Ukern
