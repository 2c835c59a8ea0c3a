import Ukern.Run.Coherent
import Ukern.Run.Turns
import Ukern.Memory.Exact

/-! # The state of a pipe

`pipe_read` and `pipe_write` serve whoever waits on the other side. So a reader waits only at an
empty pipe and a writer only at a full one, and after a writer and a reader have been served there
is nobody left to call for: the two functions nest at most three deep.
-/
namespace Ukern
open Lib
variable {fs : Fs} {k k' k₁ : Kernel} {c r w : Slot} {tf : Context} {m m' : Phys} {q : Pipe}
  {pg n : ℕ} {invoke : Bool}

/-! ## What a copy does to the pipe -/

theorem getPage_frame {x : ℕ} (h : getPage m false = .ok (x,m')) :
    m'.pipe = m.pipe ∧ m.free.length ≤ m'.free.length + 1 := by
  unfold getPage allocPage at h
  split at h
  · cases h
  · rename_i hfree
    split at h
    · cases h
    · split at h
      · cases h
      · cases h
        exact ⟨rfl,by rw [hfree]; rfl⟩

theorem u2k_frame {p : Proc} {v : U64} {write : Bool} {pa : ℕ} (h : u2k m p v write = .ok (pa,m')) :
    m'.pipe = m.pipe ∧ m.free.length ≤ m'.free.length + 1 := by
  unfold u2k at h
  obtain ⟨⟨t₁,i₁,m₁⟩,hw₁,h⟩ := bind_eq_ok.mp h
  obtain ⟨rfl,-⟩ := walkSlot_read hw₁
  obtain ⟨⟨t₂,i₂,m₂⟩,hw₂,h⟩ := bind_eq_ok.mp h
  obtain ⟨rfl,-⟩ := walkSlot_read hw₂
  simp only at h
  split at h
  · cases h
  split at h
  · cases h
  split at h
  · cases h
    exact ⟨rfl,Nat.le_succ _⟩
  split at h
  · cases h
  obtain ⟨⟨x,m₃⟩,hcow,h⟩ := bind_eq_ok.mp h
  unfold cowPage at hcow
  obtain ⟨⟨y,m₄⟩,hg,hcow⟩ := bind_eq_ok.mp hcow
  have hframe := getPage_frame hg
  cases hcow
  cases h
  exact hframe

theorem u2k_pipe {p : Proc} {v : U64} {write : Bool} {pa : ℕ} (h : u2k m p v write = .ok (pa,m')) :
    m'.pipe = m.pipe := (u2k_frame h).1

theorem pipeReadLoop_pipe {p : Proc} {base tail rbuf i ind j : ℕ}
    (h : pipeReadLoop pg p base tail n m rbuf i ind j = .ok m') : m'.pipe = m.pipe := by
  induction n generalizing m rbuf i ind j with
  | zero => cases h
  | succ n ih =>
    rw [pipeReadLoop] at h
    split at h
    · cases h
      rfl
    · simp only at h
      split at h
      · have hpipe := ih h
        exact hpipe
      · obtain ⟨⟨rbuf',m₁⟩,hu,h⟩ := bind_eq_ok.mp h
        have hpipe := u2k_pipe hu
        exact (ih h).trans hpipe

theorem pipeWriteLoop_pipe {p : Proc} {base tail wbuf i ind j : ℕ}
    (h : pipeWriteLoop pg p base tail n m wbuf i ind j = .ok m') : ∃ b, m'.pipe pg = { m.pipe pg with buf := b } := by
  induction n generalizing m wbuf i ind j with
  | zero => cases h
  | succ n ih =>
    rw [pipeWriteLoop] at h
    split at h
    · cases h
      exact ⟨_,rfl⟩
    · simp only at h
      have hset : ∀ b, (m.setPipe pg { m.pipe pg with buf := b }).pipe pg = { m.pipe pg with buf := b } := fun b =>
        Function.update_self ..
      split at h
      · obtain ⟨b,hb⟩ := ih h
        exact ⟨b,by rw [hb, hset]⟩
      · obtain ⟨⟨wbuf',m₁⟩,hu,h⟩ := bind_eq_ok.mp h
        obtain ⟨b,hb⟩ := ih h
        exact ⟨b,by rw [hb, u2k_pipe hu, hset]⟩

theorem pipeReadCopy_pipe (h : pipeReadCopy k pg r n = .ok k') : k'.pipe pg = (k.pipe pg).taken n := by
  unfold pipeReadCopy at h
  obtain ⟨⟨rbuf,m⟩,hu,h⟩ := bind_eq_ok.mp h
  obtain ⟨m₁,hl,h⟩ := bind_eq_ok.mp h
  cases h
  rw [Kernel.setPipe_self, pipeReadLoop_pipe hl, u2k_pipe hu]
  rfl

theorem pipeWriteCopy_pipe (h : pipeWriteCopy k pg w n = .ok k') :
    ∃ b, k'.pipe pg = ({ k.pipe pg with buf := b } : Pipe).given n := by
  unfold pipeWriteCopy at h
  obtain ⟨⟨wbuf,m⟩,hu,h⟩ := bind_eq_ok.mp h
  obtain ⟨m₁,hl,h⟩ := bind_eq_ok.mp h
  cases h
  obtain ⟨b,hb⟩ := pipeWriteLoop_pipe hl
  refine ⟨b,?_⟩
  rw [Kernel.setPipe_self, hb, u2k_pipe hu]
  rfl

/-! ## The invariant -/

/-- A pipe between two calls: a reader waits for the first byte, a writer for room. -/
structure Pipe.Sound (q : Pipe) : Prop where
  head : q.head < pipeBuflen
  len : q.len ≤ pipeBuflen - 1
  one : q.reader = none ∨ q.writer = none
  reader : q.reader ≠ none → q.len = 0 ∧ 0 < q.rsiz
  writer : q.writer ≠ none → q.len = pipeBuflen - 1 ∧ q.wptr < q.wsiz

/-- What also holds inside a call. -/
structure Pipe.Sized (q : Pipe) : Prop where
  head : q.head < pipeBuflen
  len : q.len ≤ pipeBuflen - 1
  wsiz : q.wsiz < 2^32
  wptr : q.writer ≠ none → q.wptr < q.wsiz
  held : 0 < q.wref

namespace Pipe

theorem writeSize_eq (hlen : q.len ≤ pipeBuflen - 1) (hsiz : q.wsiz < 2^32) (hw : q.wptr < q.wsiz) :
    q.writeSize = min (pipeBuflen - 1 - q.len) (q.wsiz - q.wptr) := by
  unfold Pipe.writeSize
  unfold pipeBuflen at hlen ⊢
  omega

theorem Sized.writeSize (h : q.Sized) (hw : q.wptr < q.wsiz) :
    q.writeSize = min (pipeBuflen - 1 - q.len) (q.wsiz - q.wptr) := writeSize_eq h.len h.wsiz hw

theorem Sized.taken (h : q.Sized) (hn : n ≤ q.len) : (q.taken n).Sized where
  head := by
    have h1 := h.head
    have h2 := h.len
    unfold Pipe.taken
    dsimp only
    unfold pipeBuflen at *
    split <;> omega
  len := by
    have h2 := h.len
    unfold Pipe.taken
    dsimp only
    unfold pipeBuflen at *
    omega
  wsiz := h.wsiz
  wptr := h.wptr
  held := h.held

theorem Sized.given (h : q.Sized) (hw : q.wptr < q.wsiz) : (q.given q.writeSize).Sized ∧
    ((q.given q.writeSize).writer ≠ none → (q.given q.writeSize).len = pipeBuflen - 1) ∧
    (q.given q.writeSize).len = q.len + q.writeSize := by
  have hsize := h.writeSize hw
  have h1 := h.head
  have h2 := h.len
  have h3 := h.wsiz
  generalize q.writeSize = n at *
  have hptr : (q.wptr + n) % 2^32 = q.wptr + n := Nat.mod_eq_of_lt (by omega)
  have hsum : (q.len + n) % 2^32 = q.len + n := Nat.mod_eq_of_lt (by unfold pipeBuflen at *; omega)
  unfold Pipe.given
  dsimp only
  rw [hptr, hsum]
  split
  · refine ⟨⟨h1,?_,Nat.two_pow_pos 32,fun hne => absurd rfl hne,h.held⟩,fun hne => absurd rfl hne,rfl⟩
    change q.len + n ≤ pipeBuflen - 1
    omega
  · refine ⟨⟨h1,?_,h3,fun _ => ?_,h.held⟩,fun _ => ?_,rfl⟩
    · change q.len + n ≤ pipeBuflen - 1
      omega
    · change q.wptr + n < q.wsiz
      omega
    · change q.len + n = pipeBuflen - 1
      omega

theorem Sized.sound (h : q.Sized) (hr : q.reader = none) (hw : q.writer ≠ none → q.len = pipeBuflen - 1) : q.Sound :=
  ⟨h.head,h.len,.inl hr,fun hne => absurd hr hne,fun hne => ⟨hw hne,h.wptr hne⟩⟩

theorem given_reader : (q.given n).reader = q.reader := (q.given_fields n).2.2.1

theorem given_rsiz : (q.given n).rsiz = q.rsiz := by
  unfold Pipe.given
  dsimp only
  split <;> rfl

end Pipe

theorem pipeReadCopy_sized (h : (k.pipe pg).Sized) (hc : pipeReadCopy k pg r (k.pipe pg).readSize = .ok k') :
    (k'.pipe pg).Sized ∧ (k'.pipe pg).reader = none := by
  rw [pipeReadCopy_pipe hc]
  exact ⟨h.taken (Nat.min_le_left _ _),rfl⟩

theorem pipeWriteCopy_sized (h : (k.pipe pg).Sized) (hw : (k.pipe pg).wptr < (k.pipe pg).wsiz)
    (hc : pipeWriteCopy k pg w (k.pipe pg).writeSize = .ok k') : (k'.pipe pg).Sized ∧
    ((k'.pipe pg).writer ≠ none → (k'.pipe pg).len = pipeBuflen - 1) ∧
    (k'.pipe pg).len = (k.pipe pg).len + (k.pipe pg).writeSize ∧
    (k'.pipe pg).reader = (k.pipe pg).reader ∧ (k'.pipe pg).rsiz = (k.pipe pg).rsiz := by
  obtain ⟨b,hb⟩ := pipeWriteCopy_pipe hc
  have hq : ({ k.pipe pg with buf := b } : Pipe).Sized := ⟨h.head,h.len,h.wsiz,h.wptr,h.held⟩
  obtain ⟨hs,hfull,hlen⟩ := hq.given hw
  rw [hb]
  exact ⟨hs,hfull,hlen,Pipe.given_reader,Pipe.given_rsiz⟩

/-! ## Nested calls -/

/-- `pipe_read` with `write` for the call of `pipe_write` at its end. -/
def pipeReadWith (write : Kernel → Except Fault (ℕ × Kernel)) (k : Kernel) (pg : ℕ) (invoke : Bool) :
    Except Fault (ℕ × Kernel) :=
  let q := k.pipe pg
  let n := q.readSize
  if n = 0 then .ok (0,k)
  else match q.reader with
    | none => .error .nullDeref
    | some r => do
      let k ← pipeReadCopy k pg r n
      let k := if invoke then k.wake r (BitVec.ofNat 64 n) else k
      if (k.pipe pg).writer.isSome then do
        let (_,k) ← write k
        .ok (n,k)
      else .ok (n,k)

/-- `pipe_write` with `read` for the call of `pipe_read` at its end. -/
def pipeWriteWith (read : Kernel → Except Fault (ℕ × Kernel)) (k : Kernel) (pg : ℕ) (invoke : Bool) :
    Except Fault (ℕ × Kernel) :=
  let q := k.pipe pg
  let n := q.writeSize
  if n = 0 then .ok (0,k)
  else match q.writer with
    | none => .error .nullDeref
    | some w => do
      let k ← pipeWriteCopy k pg w n
      let k := if invoke ∧ (q.wptr + n) % 2^32 = q.wsiz then k.wake w (BitVec.ofNat 64 q.wsiz) else k
      if (k.pipe pg).reader.isSome then do
        let (_,k) ← read k
        .ok (n,k)
      else .ok (n,k)

variable {depth : ℕ}

theorem pipeRead_succ :
    pipeRead (depth+1) k pg invoke = pipeReadWith (fun k => pipeWrite depth k pg true) k pg invoke := by
  rw [pipeRead]
  rfl

theorem pipeWrite_succ :
    pipeWrite (depth+1) k pg invoke = pipeWriteWith (fun k => pipeRead depth k pg true) k pg invoke := by
  rw [pipeWrite]
  rfl

theorem wakeIf_pipe {p : Prop} [Decidable p] {v : U64} : (if p then k.wake r v else k).pipe pg = k.pipe pg := by
  split <;> rfl

section Nested
variable (g g' : Kernel → Except Fault (ℕ × Kernel))

theorem pipeWriteWith_alone (hr : (k.pipe pg).reader = none) :
    pipeWriteWith g k pg invoke = pipeWriteWith g' k pg invoke := by
  unfold pipeWriteWith
  dsimp only
  split
  · rfl
  split
  · rfl
  refine bind_congr_ok fun k₁ hc => ?_
  obtain ⟨b,hb⟩ := pipeWriteCopy_pipe hc
  have hr₁ : (k₁.pipe pg).reader = none := by rw [hb, Pipe.given_reader, hr]
  rw [wakeIf_pipe, hr₁]
  rfl

/-- A call of `pipe_read` calls for a writer, which calls nobody. -/
theorem pipeReadWith_nested : pipeReadWith (fun k => pipeWriteWith g k pg true) k pg invoke =
    pipeReadWith (fun k => pipeWriteWith g' k pg true) k pg invoke := by
  unfold pipeReadWith
  dsimp only
  split
  · rfl
  split
  · rfl
  refine bind_congr_ok fun k₁ hc => ?_
  rw [pipeWriteWith_alone g g']
  rw [wakeIf_pipe, pipeReadCopy_pipe hc]
  rfl

end Nested

/-- `pipe_write`, `pipe_read` in it, and `pipe_write` in that: nothing is called from there. -/
theorem pipeRead_ends (depth : ℕ) (g : Kernel → Except Fault (ℕ × Kernel)) :
    pipeReadWith (fun k => pipeWriteWith g k pg true) k pg invoke = pipeRead (depth+2) k pg invoke := by
  rw [pipeRead_succ, pipeReadWith_nested g fun k => pipeRead depth k pg true]
  simp only [pipeWrite_succ]

theorem pipeWrite_ends (depth : ℕ) (g : Kernel → Except Fault (ℕ × Kernel)) :
    pipeWriteWith (fun k => pipeReadWith (fun k => pipeWriteWith g k pg true) k pg true) k pg invoke =
      pipeWrite (depth+3) k pg invoke := by
  rw [pipeWrite_succ]
  simp only [pipeRead_ends depth]

/-! ## The copies come to an end -/

/-- The computation ends, in whatever way. -/
def Halts {α : Type} (x : Except Fault α) : Prop := x ≠ .error .hang

theorem Halts.bind {α β : Type} {x : Except Fault α} {f : α → Except Fault β} (hx : Halts x)
    (hf : ∀ a, x = .ok a → Halts (f a)) : Halts (x >>= f) := fun h => by
  rcases bind_eq_error.mp h with h | ⟨a,ha,h⟩
  · exact hx h
  · exact hf a ha h

theorem walkFrom_halts {v l t : ℕ} {alloced : List (Option ℕ)} : Halts (walkFrom false v l m t alloced) := by
  induction l generalizing t alloced with
  | zero => rintro ⟨⟩
  | succ l ih =>
    rw [walkFrom]
    split
    · rintro ⟨⟩
    split
    · exact ih
    · rintro ⟨⟩

theorem walkSlot_halts {t v : ℕ} : Halts (walkSlot m t v false) := by
  refine .bind walkFrom_halts fun r _ => ?_
  split
  · nofun
  · nofun

theorem u2k_halts {p : Proc} {v : U64} {write : Bool} : Halts (u2k m p v write) := by
  unfold u2k
  refine .bind walkSlot_halts fun a ha => .bind ?_ fun b _ => ?_
  · obtain ⟨rfl,-⟩ := walkSlot_read (p := a.1) (i := a.2.1) ha
    exact walkSlot_halts
  dsimp only
  split
  · nofun
  split
  · nofun
  split
  · nofun
  split
  · nofun
  refine .bind (fun h => ?_) fun _ _ => nofun
  rcases cowPage_error h with h | h <;> cases h

/-- The steps from `j` to `tail` in the ring. -/
def ringDist (tail j : ℕ) : ℕ := (tail + pipeBuflen - j) % pipeBuflen

theorem ringDist_next {tail j : ℕ} (ht : tail < pipeBuflen) (hj : j < pipeBuflen) (hne : j ≠ tail) :
    ringDist tail (ringNext j) + 1 = ringDist tail j ∧ ringNext j < pipeBuflen := by
  unfold ringDist ringNext pipeBuflen at *
  split <;> omega

theorem pipeReadLoop_halts {p : Proc} {base tail rbuf i ind j : ℕ} (ht : tail < pipeBuflen) (hj : j < pipeBuflen)
    (hn : ringDist tail j < n) : Halts (pipeReadLoop pg p base tail n m rbuf i ind j) := by
  induction n generalizing m rbuf i ind j with
  | zero => omega
  | succ n ih =>
    rw [pipeReadLoop]
    split
    · rintro ⟨⟩
    rename_i hne
    obtain ⟨hd,hlt⟩ := ringDist_next ht hj hne
    dsimp only
    split
    · exact ih hlt (by omega)
    · exact .bind u2k_halts fun _ _ => ih hlt (by omega)

theorem pipeWriteLoop_halts {p : Proc} {base tail wbuf i ind j : ℕ} (ht : tail < pipeBuflen) (hj : j < pipeBuflen)
    (hn : ringDist tail j < n) : Halts (pipeWriteLoop pg p base tail n m wbuf i ind j) := by
  induction n generalizing m wbuf i ind j with
  | zero => omega
  | succ n ih =>
    rw [pipeWriteLoop]
    split
    · rintro ⟨⟩
    rename_i hne
    obtain ⟨hd,hlt⟩ := ringDist_next ht hj hne
    dsimp only
    split
    · exact ih hlt (by omega)
    · exact .bind u2k_halts fun _ _ => ih hlt (by omega)

theorem pipeBuflen_pos : 0 < pipeBuflen := by decide

theorem pipeReadCopy_halts (hh : (k.pipe pg).head < pipeBuflen) : Halts (pipeReadCopy k pg r n) := by
  refine .bind u2k_halts fun _ _ => .bind ?_ fun _ _ => nofun
  exact pipeReadLoop_halts (Nat.mod_lt _ pipeBuflen_pos) hh (Nat.mod_lt _ pipeBuflen_pos)

theorem pipeWriteCopy_halts : Halts (pipeWriteCopy k pg w n) := by
  refine .bind u2k_halts fun _ _ => .bind ?_ fun _ _ => nofun
  exact pipeWriteLoop_halts (Nat.mod_lt _ pipeBuflen_pos) (Nat.mod_lt _ pipeBuflen_pos) (Nat.mod_lt _ pipeBuflen_pos)

/-! ## What a call leaves -/

/-- A call that ends, and leaves the pipe in order. -/
structure Serving (pg : ℕ) (x : Except Fault (ℕ × Kernel)) : Prop where
  halts : Halts x
  sound : ∀ r, x = .ok r → (r.2.pipe pg).Sound ∧ (r.2.pipe pg).Sized

namespace Serving

theorem ok {r : ℕ × Kernel} (h : (r.2.pipe pg).Sound) (h' : (r.2.pipe pg).Sized) : Serving pg (.ok r) :=
  ⟨nofun,fun _ hr => by cases hr; exact ⟨h,h'⟩⟩

theorem bind {α : Type} {x : Except Fault α} {f : α → Except Fault (ℕ × Kernel)} (hx : Halts x)
    (hf : ∀ a, x = .ok a → Serving pg (f a)) : Serving pg (x >>= f) := by
  refine ⟨hx.bind fun a ha => (hf a ha).halts,fun r hr => ?_⟩
  obtain ⟨a,ha,hr⟩ := bind_eq_ok.mp hr
  exact (hf a ha).sound r hr

theorem nested {x : Except Fault (ℕ × Kernel)} (hx : Serving pg x) :
    Serving pg (x >>= fun r => .ok (n,r.2)) :=
  .bind hx.halts fun r hr => .ok (hx.sound r hr).1 (hx.sound r hr).2

theorem writeAlone (g : Kernel → Except Fault (ℕ × Kernel)) (h : (k.pipe pg).Sized)
    (hr : (k.pipe pg).reader = none) (hw : (k.pipe pg).writer ≠ none) : Serving pg (pipeWriteWith g k pg invoke) := by
  have hptr := h.wptr hw
  unfold pipeWriteWith
  dsimp only
  split
  · rename_i h0
    rw [h.writeSize hptr] at h0
    refine .ok (h.sound hr fun _ => ?_) h
    have := h.len
    change (k.pipe pg).len = _
    omega
  cases hw' : (k.pipe pg).writer with
  | none => exact absurd hw' hw
  | some w =>
    refine .bind pipeWriteCopy_halts fun k₁ hc => ?_
    obtain ⟨hs,hfull,-,hr₁,-⟩ := pipeWriteCopy_sized h hptr hc
    rw [hr] at hr₁
    rw [wakeIf_pipe, hr₁, if_neg (by decide)]
    refine .ok ?_ ?_
    · change ((ite _ _ _ : Kernel).pipe pg).Sound
      rw [wakeIf_pipe]
      exact hs.sound hr₁ hfull
    · change ((ite _ _ _ : Kernel).pipe pg).Sized
      rwa [wakeIf_pipe]

/-- A reader at a pipe with bytes in it, and the writer it calls for. -/
theorem read (g : Kernel → Except Fault (ℕ × Kernel)) (h : (k.pipe pg).Sized)
    (hr : (k.pipe pg).reader ≠ none) (hn : 0 < (k.pipe pg).readSize) :
    Serving pg (pipeReadWith (fun k => pipeWriteWith g k pg true) k pg invoke) := by
  unfold pipeReadWith
  dsimp only
  rw [if_neg hn.ne']
  cases hr' : (k.pipe pg).reader with
  | none => exact absurd hr' hr
  | some r =>
    refine .bind (pipeReadCopy_halts h.head) fun k₁ hc => ?_
    obtain ⟨hs,hr₁⟩ := pipeReadCopy_sized h hc
    generalize hk₂ : (if invoke = true then k₁.wake r (BitVec.ofNat 64 (k.pipe pg).readSize) else k₁) = k₂
    have hpipe : k₂.pipe pg = k₁.pipe pg := by rw [← hk₂, wakeIf_pipe]
    rw [← hpipe] at hs hr₁
    split
    · rename_i hw
      exact (writeAlone g hs hr₁ (Option.isSome_iff_ne_none.mp hw)).nested
    · rename_i hw
      exact .ok (hs.sound hr₁ fun hne => absurd (Option.isSome_iff_ne_none.mpr hne) hw) hs

/-- A writer, the reader it may find waiting, and itself again if it is not done. -/
theorem write (g : Kernel → Except Fault (ℕ × Kernel)) (h : (k.pipe pg).Sized)
    (hr : (k.pipe pg).reader ≠ none → (k.pipe pg).len = 0 ∧ 0 < (k.pipe pg).rsiz) (hw : (k.pipe pg).writer ≠ none) :
    Serving pg (pipeWriteWith (fun k => pipeReadWith (fun k => pipeWriteWith g k pg true) k pg true) k pg invoke) := by
  by_cases hnone : (k.pipe pg).reader = none
  · exact writeAlone _ h hnone hw
  obtain ⟨hlen,hrsiz⟩ := hr hnone
  have hptr := h.wptr hw
  have hsize := h.writeSize hptr
  have hn : 0 < (k.pipe pg).writeSize := by
    rw [hsize, hlen]
    unfold pipeBuflen
    omega
  unfold pipeWriteWith
  dsimp only
  rw [if_neg hn.ne']
  cases hw' : (k.pipe pg).writer with
  | none => exact absurd hw' hw
  | some w =>
    refine .bind pipeWriteCopy_halts fun k₁ hc => ?_
    obtain ⟨hs,-,hlen₁,hr₁,hrsiz₁⟩ := pipeWriteCopy_sized h hptr hc
    generalize hk₂ : (if invoke = true ∧ ((k.pipe pg).wptr + (k.pipe pg).writeSize) % 2^32 = (k.pipe pg).wsiz
      then k₁.wake w (BitVec.ofNat 64 (k.pipe pg).wsiz) else k₁) = k₂
    have hpipe : k₂.pipe pg = k₁.pipe pg := by rw [← hk₂, wakeIf_pipe]
    rw [← hpipe] at hs hlen₁ hr₁ hrsiz₁
    rw [← hr₁] at hnone
    rw [if_pos (Option.isSome_iff_ne_none.mpr hnone)]
    refine (read g hs hnone ?_).nested
    rw [Pipe.readSize, hlen₁, hrsiz₁]
    omega

end Serving

/-! ## Runs -/

/-- What `sys_read` enters in the pipe before it calls `pipe_read`. -/
def Kernel.asReader (k : Kernel) (c : Slot) (pg : ℕ) (tf : Context) : Kernel :=
  k.setPipe pg { k.pipe pg with reader := some c, rsiz := tf.rbx.toNat % 2^32, rbuf := tf.rcx.toNat }

/-- What `sys_write` enters in the pipe before it calls `pipe_write`. -/
def Kernel.asWriter (k : Kernel) (c : Slot) (pg : ℕ) (tf : Context) : Kernel :=
  k.setPipe pg { k.pipe pg with writer := some c, wsiz := tf.rbx.toNat % 2^32, wptr := 0, wbuf := tf.rcx.toNat }

/-- A size that the calls take as it is. -/
def Context.Fits (tf : Context) : Prop := 0 < tf.rbx.toNat ∧ tf.rbx.toNat < 2^32

theorem Context.Fits.ne_zero (h : tf.Fits) : tf.rbx ≠ 0 := fun h0 => by
  have hpos := h.1
  rw [h0] at hpos
  exact Nat.lt_irrefl 0 hpos

/-- A call on an end of pipe `pg`, or anything else that leaves the pipe alone but for its reference
counts, as long as there is a write end. -/
inductive PipeStep (fs : Fs) (pg : ℕ) : Kernel → Kernel → Prop
  | read {k : Kernel} {c : Slot} {tf : Context} {fd : ℕ} {o : Outcome} (hfd : fdOf tf.rdx = some fd)
      (hin : ((k.procs c).fdesc fd).inuse = true) (hty : ((k.procs c).fdesc fd).fileType = .rpipe)
      (hpg : ((k.procs c).fdesc fd).pipe = pg) (hsz : tf.Fits) (h : sysRead fs k c tf = .ok o) :
      PipeStep fs pg k o.kernel
  | write {k : Kernel} {c : Slot} {tf : Context} {fd : ℕ} {o : Outcome} (hfd : fdOf tf.rdx = some fd)
      (hin : ((k.procs c).fdesc fd).inuse = true) (hty : ((k.procs c).fdesc fd).fileType = .wpipe)
      (hpg : ((k.procs c).fdesc fd).pipe = pg) (hsz : tf.Fits) (h : sysWrite k c tf = .ok o) :
      PipeStep fs pg k o.kernel
  | other {k k' : Kernel} {r w : ℕ} (hw : 0 < w) (h : k'.pipe pg = { k.pipe pg with rref := r, wref := w }) :
      PipeStep fs pg k k'

/-- The pipe is in order, and there is a write end. -/
structure Pipe.Kept (q : Pipe) : Prop where
  sound : q.Sound
  sized : q.Sized

variable {o : Outcome}

theorem sched_pipe (pg : ℕ) (h : k.sched = .ok o) : o.kernel.pipe pg = k.pipe pg := by
  unfold Kernel.sched at h
  obtain ⟨k',hs,h⟩ := bind_eq_ok.mp h
  obtain ⟨i,-,rfl⟩ := sched_eq_ok hs
  cases h
  rfl

theorem Pipe.Kept.asReader (h : (k.pipe pg).Kept) : ((k.asReader c pg tf).pipe pg).Sized := by
  rw [Kernel.asReader, Kernel.setPipe_self]
  exact ⟨h.sized.head,h.sized.len,h.sized.wsiz,h.sized.wptr,h.sized.held⟩

theorem Pipe.Kept.asWriter (h : (k.pipe pg).Kept) (hsz : tf.Fits) : ((k.asWriter c pg tf).pipe pg).Sized := by
  rw [Kernel.asWriter, Kernel.setPipe_self]
  refine ⟨h.sized.head,h.sized.len,Nat.mod_lt _ (Nat.two_pow_pos 32),fun _ => ?_,h.sized.held⟩
  change 0 < tf.rbx.toNat % 2^32
  rw [Nat.mod_eq_of_lt hsz.2]
  exact hsz.1

theorem Pipe.Kept.reads (h : (k.pipe pg).Kept) (hsz : tf.Fits) (hlen : 0 < (k.pipe pg).len)
    (g : Kernel → Except Fault (ℕ × Kernel)) :
    Serving pg (pipeReadWith (fun k => pipeWriteWith g k pg true) (k.asReader c pg tf) pg false) := by
  refine .read g h.asReader ?_ ?_
  · rw [Kernel.asReader, Kernel.setPipe_self]
    exact Option.some_ne_none c
  · rw [Kernel.asReader, Kernel.setPipe_self]
    change 0 < min (k.pipe pg).len (tf.rbx.toNat % 2^32)
    have := hsz.1
    rw [Nat.mod_eq_of_lt hsz.2]
    omega

theorem Pipe.Kept.writes (h : (k.pipe pg).Kept) (hsz : tf.Fits) (g : Kernel → Except Fault (ℕ × Kernel)) :
    Serving pg (pipeWriteWith (fun k => pipeReadWith (fun k => pipeWriteWith g k pg true) k pg true)
      (k.asWriter c pg tf) pg false) := by
  refine .write g (h.asWriter hsz) ?_ ?_
  · rw [Kernel.asWriter, Kernel.setPipe_self]
    exact h.sound.reader
  · rw [Kernel.asWriter, Kernel.setPipe_self]
    exact Option.some_ne_none c

theorem readPipe_kept (h : (k.pipe pg).Kept) (hsz : tf.Fits) (hr : readPipe k c pg tf = .ok o) :
    (o.kernel.pipe pg).Kept := by
  unfold readPipe at hr
  split at hr
  · cases hr
    exact h
  rename_i hnone
  change (if 0 < ((k.asReader c pg tf).pipe pg).len then do
    let (n,k) ← pipeRead 3 (k.asReader c pg tf) pg false
    k.done tf (BitVec.ofNat 64 n)
    else if ((k.asReader c pg tf).pipe pg).wref = 0 then (k.asReader c pg tf).done tf 0
    else ((k.asReader c pg tf).block c tf).sched) = .ok o at hr
  have hpipe : (k.asReader c pg tf).pipe pg =
      { k.pipe pg with reader := some c, rsiz := tf.rbx.toNat % 2^32, rbuf := tf.rcx.toNat } := Kernel.setPipe_self ..
  split at hr
  · rename_i hlen
    rw [hpipe] at hlen
    obtain ⟨⟨n,k'⟩,hp,hr⟩ := bind_eq_ok.mp hr
    rw [← pipeRead_ends 1 fun _ => .error .hang] at hp
    obtain ⟨h1,h2⟩ := (h.reads hsz hlen _).sound _ hp
    cases hr
    exact ⟨h1,h2⟩
  rename_i hlen
  have hwref : ((k.asReader c pg tf).pipe pg).wref ≠ 0 := h.asReader.held.ne'
  rw [if_neg hwref] at hr
  have hk : o.kernel.pipe pg = (k.asReader c pg tf).pipe pg :=
    sched_pipe (k := (k.asReader c pg tf).block c tf) pg hr
  rw [hk]
  refine ⟨?_,h.asReader⟩
  rw [hpipe] at hlen ⊢
  have hzero : (k.pipe pg).len = 0 := Nat.eq_zero_of_not_pos hlen
  have hw : (k.pipe pg).writer = none := by
    by_contra hw
    have hfull := (h.sound.writer hw).1
    unfold pipeBuflen at hfull
    omega
  refine ⟨h.sound.head,h.sound.len,.inr hw,fun _ => ⟨hzero,?_⟩,fun hne => absurd hw hne⟩
  change 0 < tf.rbx.toNat % 2^32
  rw [Nat.mod_eq_of_lt hsz.2]
  exact hsz.1

theorem writePipe_kept (h : (k.pipe pg).Kept) (hsz : tf.Fits) (hw : writePipe k c pg tf = .ok o) :
    (o.kernel.pipe pg).Kept := by
  unfold writePipe at hw
  split at hw
  · cases hw
    exact h
  dsimp only at hw
  obtain ⟨⟨n,k'⟩,hp,hw⟩ := bind_eq_ok.mp hw
  change pipeWrite 3 (k.asWriter c pg tf) pg false = .ok (n,k') at hp
  rw [← pipeWrite_ends 0 fun _ => .error .hang] at hp
  obtain ⟨h1,h2⟩ := (h.writes hsz _).sound _ hp
  dsimp only at hw
  split at hw
  · cases hw
  split at hw
  · cases hw
    exact ⟨h1,h2⟩
  · have hk : o.kernel.pipe pg = k'.pipe pg := sched_pipe (k := k'.block c tf) pg hw
    rw [hk]
    exact ⟨h1,h2⟩

theorem PipeStep.kept (h : (k.pipe pg).Kept) (hs : PipeStep fs pg k k') : (k'.pipe pg).Kept := by
  cases hs with
  | read hfd hin hty hpg hsz hr =>
    rename_i c tf fd o
    unfold sysRead at hr
    rw [hfd] at hr
    dsimp only at hr
    rw [if_neg hsz.ne_zero] at hr
    obtain ⟨b,-,hr⟩ := bind_eq_ok.mp hr
    split at hr
    · cases hr
      exact h
    · rw [hin, hty, hpg] at hr
      exact readPipe_kept h hsz hr
  | write hfd hin hty hpg hsz hw =>
    rename_i c tf fd o
    unfold sysWrite at hw
    rw [hfd] at hw
    dsimp only at hw
    rw [if_neg hsz.ne_zero] at hw
    obtain ⟨b,-,hw⟩ := bind_eq_ok.mp hw
    split at hw
    · cases hw
      exact h
    · rw [hin, hty, hpg] at hw
      exact writePipe_kept h hsz hw
  | other hw hq =>
    rw [hq]
    exact ⟨⟨h.sound.head,h.sound.len,h.sound.one,h.sound.reader,h.sound.writer⟩,
      ⟨h.sized.head,h.sized.len,h.sized.wsiz,h.sized.wptr,hw⟩⟩

theorem PipeStep.run_kept {k₀ : Kernel} (h : (k₀.pipe pg).Kept) (hrun : Relation.ReflTransGen (PipeStep fs pg) k₀ k) :
    (k.pipe pg).Kept := by
  induction hrun with
  | refl => exact h
  | tail _ hs ih => exact hs.kept ih

/-- A pipe as `sys_pipe` makes it. -/
def Pipe.fresh : Pipe := { Pipe.zero with rref := 1, wref := 1 }

theorem Pipe.fresh_kept : Pipe.fresh.Kept :=
  ⟨⟨by decide,by decide,.inl rfl,fun h => absurd rfl h,fun h => absurd rfl h⟩,
    ⟨by decide,by decide,by decide,fun h => absurd rfl h,by decide⟩⟩

/-- Calls of `sys_read` and `sys_write` keep a pipe in order, and each of them ends: a call of
`pipe_read` in `sys_read` enters `pipe_write` once and a call of `pipe_write` in `sys_write` enters
`pipe_read` once and `pipe_write` once more, so that it does not matter what stands for a call beyond. -/
theorem pipe_stays_sound {k₀ k : Kernel} (h0 : k₀.pipe pg = Pipe.fresh)
    (hrun : Relation.ReflTransGen (PipeStep fs pg) k₀ k) : (k.pipe pg).Sound ∧
    ∀ (c : Slot) (tf : Context), tf.Fits →
      (0 < (k.pipe pg).len → Halts (pipeRead 3 (k.asReader c pg tf) pg false) ∧
        ∀ g, pipeReadWith (fun k => pipeWriteWith g k pg true) (k.asReader c pg tf) pg false =
          pipeRead 3 (k.asReader c pg tf) pg false) ∧
      Halts (pipeWrite 3 (k.asWriter c pg tf) pg false) ∧
      ∀ g, pipeWriteWith (fun k => pipeReadWith (fun k => pipeWriteWith g k pg true) k pg true)
        (k.asWriter c pg tf) pg false = pipeWrite 3 (k.asWriter c pg tf) pg false := by
  have hk : (k.pipe pg).Kept := PipeStep.run_kept (by rw [h0]; exact Pipe.fresh_kept) hrun
  refine ⟨hk.sound,fun c tf hsz => ⟨fun hlen => ⟨?_,fun g => pipeRead_ends 1 g⟩,?_,fun g => pipeWrite_ends 0 g⟩⟩
  · rw [← pipeRead_ends 1 fun _ => .error .hang]
    exact (hk.reads hsz hlen _).halts
  · rw [← pipeWrite_ends 0 fun _ => .error .hang]
    exact (hk.writes hsz _).halts

/-! ## One write -/

/-- One process, with a page at `0x1000` and the write end of pipe 9 as descriptor 3. -/
def pipeKernel (q : Pipe) : Kernel :=
  { bootKernel 0 with
    phys := (twoPages false).setPipe 9 q
    procs := fun _ => { Proc.zero with
      pgtbl := 1
      pPgtbl := 1
      fdesc := fun _ => { FileDesc.zero with inuse := true, fileType := .wpipe, pipe := 9 } } }

/-- `write(3, 0x1000, 7)`. -/
def writeSeven : Context := { Context.zero with rdx := 3, rcx := 0x1000, rbx := 7 }

theorem pipe_stays_sound_write : ∃ k, Relation.ReflTransGen (PipeStep rootFs 9) (pipeKernel Pipe.fresh) k ∧
    (k.pipe 9).len = 7 ∧ (k.pipe 9).Sound := by
  obtain ⟨o,ho,hlen⟩ : ∃ o, sysWrite (pipeKernel Pipe.fresh) firstSlot writeSeven = .ok o ∧ (o.kernel.pipe 9).len = 7 := by
    have hany : ((sysWrite (pipeKernel Pipe.fresh) firstSlot writeSeven).toOption.any fun o =>
      (o.kernel.pipe 9).len == 7) = true := by decide +kernel
    cases hw : sysWrite (pipeKernel Pipe.fresh) firstSlot writeSeven with
    | error e =>
      rw [hw] at hany
      cases hany
    | ok o =>
      rw [hw] at hany
      exact ⟨o,rfl,by simpa [Except.toOption] using hany⟩
  have hrun : Relation.ReflTransGen (PipeStep rootFs 9) (pipeKernel Pipe.fresh) o.kernel :=
    .single (.write (c := firstSlot) (show fdOf writeSeven.rdx = some 3 from rfl) rfl rfl rfl ⟨by decide,by decide⟩ ho)
  exact ⟨_,hrun,hlen,(pipe_stays_sound rfl hrun).1⟩

end Ukern
