import Ukern.Pipe.State
import Ukern.Memory.Room

/-! # Which addresses a pipe copy translates

Both copy loops translate the user address of the next byte as soon as it starts a page, also when
the byte just copied was the last. To say which addresses reach `U2K`, the loops are read with an
arbitrary translation in its place: an address is passed if the result depends on what the
translation does there.
-/
namespace Ukern
open Lib Lib.Radix
variable {k k' : Kernel} {c r w : Slot} {m m' : Phys} {p : Proc} {pg n : ℕ} {write : Bool}

/-- The type of `U2K`. -/
abbrev Translate := Phys → Proc → U64 → Bool → Except Fault (ℕ × Phys)

/-- A copy loop with `tr` for `U2K`; `move` copies one byte. -/
def copyLoop (tr : Translate) (move : Phys → ℕ → ℕ → Phys) (p : Proc) (write : Bool) (base tail : ℕ) :
    ℕ → Phys → ℕ → ℕ → ℕ → ℕ → Except Fault Phys
  | 0, _, _, _, _, _ => .error .hang
  | n+1, m, buf, i, ind, j =>
    if j = tail then .ok m
    else
      let m := move m (buf + ind) j
      let v := (base + (i+1)) % 2^64
      if v % pgsize ≠ 0 then copyLoop tr move p write base tail n m buf (i+1) (ind+1) (ringNext j)
      else do
        let (buf,m) ← tr m p (BitVec.ofNat 64 v) write
        copyLoop tr move p write base tail n m buf (i+1) 0 (ringNext j)

def moveOut (pg : ℕ) (m : Phys) (a j : ℕ) : Phys := m.setByte a ((m.pipe pg).buf j)

def moveIn (pg : ℕ) (m : Phys) (a j : ℕ) : Phys :=
  m.setPipe pg { m.pipe pg with buf := Function.update (m.pipe pg).buf j (m.byte a) }

theorem pipeReadLoop_eq {base tail buf i ind j : ℕ} : pipeReadLoop pg p base tail n m buf i ind j =
    copyLoop u2k (moveOut pg) p true base tail n m buf i ind j := by
  induction n generalizing m buf i ind j with
  | zero => rfl
  | succ n ih =>
    rw [pipeReadLoop, copyLoop]
    simp only [ih]
    rfl

theorem pipeWriteLoop_eq {base tail buf i ind j : ℕ} : pipeWriteLoop pg p base tail n m buf i ind j =
    copyLoop u2k (moveIn pg) p false base tail n m buf i ind j := by
  induction n generalizing m buf i ind j with
  | zero => rfl
  | succ n ih =>
    rw [pipeWriteLoop, copyLoop]
    simp only [ih]
    rfl

/-- A copy at `base`, from place `j` of the ring to `tail`. -/
def copyBytes (tr : Translate) (move : Phys → ℕ → ℕ → Phys) (p : Proc) (write : Bool) (base tail j : ℕ) (m : Phys) :
    Except Fault Phys := do
  let (buf,m) ← tr m p (BitVec.ofNat 64 base) write
  copyLoop tr move p write base tail pipeBuflen m buf 0 0 j

/-- `pipeReadCopy` with `tr` for `U2K`. -/
def pipeReadVia (k : Kernel) (pg : ℕ) (r : Slot) (n : ℕ) (tr : Translate) : Except Fault Kernel := do
  let q := k.pipe pg
  let m ← copyBytes tr (moveOut pg) (k.procs r) true q.rbuf ((q.head + n) % 2^32 % pipeBuflen) q.head k.phys
  .ok ((k.setPhys m).setPipe pg ((m.pipe pg).taken n))

/-- `pipeWriteCopy` with `tr` for `U2K`. -/
def pipeWriteVia (k : Kernel) (pg : ℕ) (w : Slot) (n : ℕ) (tr : Translate) : Except Fault Kernel := do
  let q := k.pipe pg
  let m ← copyBytes tr (moveIn pg) (k.procs w) false ((q.wbuf + q.wptr) % 2^64)
    ((q.head + q.len + n) % 2^32 % pipeBuflen) ((q.head + q.len) % 2^32 % pipeBuflen) k.phys
  .ok ((k.setPhys m).setPipe pg ((m.pipe pg).given n))

theorem pipeReadCopy_eq : pipeReadCopy k pg r n = pipeReadVia k pg r n u2k := by
  unfold pipeReadCopy pipeReadVia copyBytes
  simp only [pipeReadLoop_eq,bind_assoc]

theorem pipeWriteCopy_eq : pipeWriteCopy k pg w n = pipeWriteVia k pg w n u2k := by
  unfold pipeWriteCopy pipeWriteVia copyBytes
  simp only [pipeWriteLoop_eq,bind_assoc]

/-- The result of `f` depends on `tr` only at the addresses in `V`. -/
def PassesOnly {α : Type} (f : Translate → α) (V : U64 → Prop) : Prop :=
  ∀ tr tr' : Translate, (∀ v, V v → ∀ m p write, tr m p v write = tr' m p v write) → f tr = f tr'

section Loop
variable {tr tr' : Translate} {move : Phys → ℕ → ℕ → Phys} {base tail fuel buf i ind j : ℕ}

/-- The loop translates the page starts behind `i`, up to the address behind the last byte. -/
theorem copyLoop_congr (ht : tail < pipeBuflen) (hj : j < pipeBuflen)
    (h : ∀ l, i < l → l ≤ i + ringDist tail j → (base + l) % 2^64 % pgsize = 0 →
      ∀ m, tr m p (BitVec.ofNat 64 ((base + l) % 2^64)) write = tr' m p (BitVec.ofNat 64 ((base + l) % 2^64)) write) :
    copyLoop tr move p write base tail fuel m buf i ind j = copyLoop tr' move p write base tail fuel m buf i ind j := by
  induction fuel generalizing m buf i ind j with
  | zero => rfl
  | succ fuel ih =>
    rw [copyLoop, copyLoop]
    by_cases hne : j = tail
    · rw [if_pos hne, if_pos hne]
    obtain ⟨hd,hlt⟩ := ringDist_next ht hj hne
    have hrest : ∀ l, i + 1 < l → l ≤ i + 1 + ringDist tail (ringNext j) → (base + l) % 2^64 % pgsize = 0 →
        ∀ m, tr m p (BitVec.ofNat 64 ((base + l) % 2^64)) write =
          tr' m p (BitVec.ofNat 64 ((base + l) % 2^64)) write :=
      fun l hl hl' => h l (by omega) (by omega)
    rw [if_neg hne, if_neg hne]
    dsimp only
    by_cases hpage : (base + (i+1)) % 2^64 % pgsize = 0
    · rw [if_neg (not_not.mpr hpage), if_neg (not_not.mpr hpage), h (i+1) (by omega) (by omega) hpage]
      exact bind_congr_ok fun _ _ => ih hlt hrest
    · rw [if_pos hpage, if_pos hpage]
      exact ih hlt hrest

theorem copyLoop_ok (htr : ∀ m v, ∃ r, tr m p v write = .ok r) (ht : tail < pipeBuflen) (hj : j < pipeBuflen)
    (hf : ringDist tail j < fuel) : ∃ m', copyLoop tr move p write base tail fuel m buf i ind j = .ok m' := by
  induction fuel generalizing m buf i ind j with
  | zero => omega
  | succ fuel ih =>
    rw [copyLoop]
    by_cases hne : j = tail
    · rw [if_pos hne]
      exact ⟨_,rfl⟩
    obtain ⟨hd,hlt⟩ := ringDist_next ht hj hne
    rw [if_neg hne]
    dsimp only
    split
    · exact ih hlt (by omega)
    · obtain ⟨x,hx⟩ := htr (move m (buf + ind) j) (BitVec.ofNat 64 ((base + (i+1)) % 2^64))
      rw [hx, ok_bind]
      exact ih hlt (by omega)

theorem copyLoop_error {l : ℕ} {e : Fault} (htr : ∀ m v, (∃ r, tr m p v write = .ok r) ∨ tr m p v write = .error e)
    (hbad : ∀ m, tr m p (BitVec.ofNat 64 ((base + l) % 2^64)) write = .error e) (ht : tail < pipeBuflen)
    (hj : j < pipeBuflen) (hf : ringDist tail j < fuel) (hl : i < l) (hl' : l ≤ i + ringDist tail j)
    (hpage : (base + l) % 2^64 % pgsize = 0) :
    copyLoop tr move p write base tail fuel m buf i ind j = .error e := by
  induction fuel generalizing m buf i ind j with
  | zero => omega
  | succ fuel ih =>
    have hne : j ≠ tail := by
      rintro rfl
      have : ringDist j j = 0 := by
        unfold ringDist
        rw [Nat.add_sub_cancel_left, Nat.mod_self]
      omega
    obtain ⟨hd,hlt⟩ := ringDist_next ht hj hne
    rw [copyLoop, if_neg hne]
    dsimp only
    by_cases hil : i + 1 = l
    · rw [hil, if_neg (not_not.mpr hpage), hbad]
      rfl
    · split
      · exact ih hlt (by omega) (by omega) (by omega)
      · rcases htr (move m (buf + ind) j) (BitVec.ofNat 64 ((base + (i+1)) % 2^64)) with ⟨x,hx⟩ | hx
        · rw [hx, ok_bind]
          exact ih hlt (by omega) (by omega) (by omega)
        · rw [hx]
          rfl

end Loop

/-- The addresses that a copy passes: its first, and every page start up to the address behind its last
byte. -/
theorem copyBytes_passes_iff {α : Type} {F : Phys → α} {move : Phys → ℕ → ℕ → Phys} {base tail j : ℕ}
    (ht : tail < pipeBuflen) (hj : j < pipeBuflen) (hd : ringDist tail j = n) (V : U64 → Prop) :
    PassesOnly (fun tr => do
      let m ← copyBytes tr move p write base tail j m
      (.ok (F m) : Except Fault α)) V ↔
      V (BitVec.ofNat 64 base) ∧ ∀ l, 0 < l → l ≤ n → (base + l) % 2^64 % pgsize = 0 →
        V (BitVec.ofNat 64 ((base + l) % 2^64)) := by
  have hlt : n < pipeBuflen := hd ▸ Nat.mod_lt _ pipeBuflen_pos
  constructor
  · intro h
    -- a translation that fails at `a` alone goes unnoticed if `a` is not in `V`
    have hfail : ∀ a, ¬ V a → ∃ tr : Translate, (∀ m v, (∃ r, tr m p v write = .ok r) ∨ tr m p v write = .error .panic) ∧
        (∀ m, tr m p a write = .error .panic) ∧ ∃ m', copyBytes tr move p write base tail j m = .ok m' := by
      intro a ha
      let good : Translate := fun m _ _ _ => .ok (0,m)
      let bad : Translate := fun m _ v _ => if v = a then .error .panic else .ok (0,m)
      have heq := h bad good fun v hv m p write => if_neg (show ¬ v = a from fun hva => ha (hva ▸ hv))
      refine ⟨bad,fun m v => ?_,fun m => if_pos rfl,?_⟩
      · by_cases hv : v = a
        · exact .inr (if_pos hv)
        · exact .inl ⟨_,if_neg hv⟩
      · obtain ⟨m',hgood⟩ : ∃ m', copyBytes good move p write base tail j m = .ok m' :=
          copyLoop_ok (fun m v => ⟨_,rfl⟩) ht hj (by omega)
        dsimp only at heq
        rw [hgood, ok_bind] at heq
        obtain ⟨m'',hbad,-⟩ := bind_eq_ok.mp heq
        exact ⟨m'',hbad⟩
    constructor
    · by_contra hV
      obtain ⟨tr,-,hbad,m',hok⟩ := hfail _ hV
      rw [copyBytes, hbad] at hok
      cases hok
    · intro l hl hln hpage
      by_contra hV
      obtain ⟨tr,htr,hbad,m',hok⟩ := hfail _ hV
      rw [copyBytes] at hok
      obtain ⟨⟨buf,m₁⟩,-,hok⟩ := bind_eq_ok.mp hok
      dsimp only at hok
      rw [copyLoop_error htr hbad ht hj (by omega) hl (by omega) hpage] at hok
      cases hok
  · rintro ⟨h0,h⟩ tr tr' hagree
    have heq : copyBytes tr move p write base tail j m = copyBytes tr' move p write base tail j m := by
      rw [copyBytes, copyBytes, hagree _ h0]
      refine bind_congr_ok fun x _ => copyLoop_congr ht hj fun l hl hl' hpage m => ?_
      rw [hd, Nat.zero_add] at hl'
      exact hagree _ (h l hl hl' hpage) m p write
    dsimp only
    rw [heq]

/-! ## The two buffers -/

def Pipe.rbuffer (q : Pipe) (v : ℕ) : Prop := q.rbuf ≤ v ∧ v < q.rbuf + q.rsiz

def Pipe.wbuffer (q : Pipe) (v : ℕ) : Prop := q.wbuf ≤ v ∧ v < q.wbuf + q.wsiz

/-- All that the reader asked for is there, and its buffer ends with a page. -/
def Pipe.ReadsOver (q : Pipe) : Prop := q.rsiz ≤ q.len ∧ (q.rbuf + q.rsiz) % pgsize = 0

/-- There is room for all that the writer has left, and its buffer ends with a page. -/
def Pipe.WritesOver (q : Pipe) : Prop := q.wsiz - q.wptr ≤ pipeBuflen - 1 - q.len ∧ (q.wbuf + q.wsiz) % pgsize = 0

theorem ringDist_add {j : ℕ} (hj : j < pipeBuflen) (hn : n < pipeBuflen) : ringDist ((j + n) % 2^32 % pipeBuflen) j = n := by
  unfold ringDist pipeBuflen at *
  omega

/-- A copy of `n` bytes from `o` on into a buffer at `b` passes the address behind the buffer exactly
when it fills it and the buffer ends with a page. -/
theorem passes_buffer_iff {b o siz : ℕ} (hn : 0 < n) (hle : o + n ≤ siz) (hb : b + siz ≤ userTop) :
    ((b ≤ (BitVec.ofNat 64 ((b + o) % 2^64)).toNat ∧ (BitVec.ofNat 64 ((b + o) % 2^64)).toNat < b + siz) ∧
      ∀ l, 0 < l → l ≤ n → ((b + o) % 2^64 + l) % 2^64 % pgsize = 0 →
        b ≤ (BitVec.ofNat 64 (((b + o) % 2^64 + l) % 2^64)).toNat ∧
          (BitVec.ofNat 64 (((b + o) % 2^64 + l) % 2^64)).toNat < b + siz) ↔
      ¬ (o + n = siz ∧ (b + siz) % pgsize = 0) := by
  unfold userTop pgsize at *
  have hnat : ∀ x, x ≤ b + siz → (BitVec.ofNat 64 x).toNat = x := fun x hx => by
    rw [BitVec.toNat_ofNat, Nat.mod_eq_of_lt (by omega)]
  have hbase : (b + o) % 2^64 = b + o := Nat.mod_eq_of_lt (by omega)
  rw [hbase, hnat _ (by omega)]
  constructor
  · rintro ⟨-,h⟩ ⟨hfill,hpage⟩
    have hend : (b + o + n) % 2^64 = b + siz := by
      rw [Nat.mod_eq_of_lt (by omega)]
      omega
    have hlast := (h n hn le_rfl (by rw [hend]; exact hpage)).2
    rw [hend, hnat _ le_rfl] at hlast
    exact Nat.lt_irrefl _ hlast
  · intro h
    refine ⟨⟨by omega,by omega⟩,fun l hl hln hpage => ?_⟩
    have hl64 : (b + o + l) % 2^64 = b + o + l := Nat.mod_eq_of_lt (by omega)
    rw [hl64] at hpage
    rw [hl64, hnat _ (by omega)]
    refine ⟨by omega,?_⟩
    by_contra hend
    exact h ⟨by omega,by rw [← hpage]; congr 1; omega⟩

theorem pipeReadVia_passes_iff (hh : (k.pipe pg).head < pipeBuflen) (hl : (k.pipe pg).len ≤ pipeBuflen - 1)
    (hn : 0 < (k.pipe pg).readSize) (hb : (k.pipe pg).rbuf + (k.pipe pg).rsiz ≤ userTop) :
    PassesOnly (pipeReadVia k pg r (k.pipe pg).readSize) (fun v => (k.pipe pg).rbuffer v.toNat) ↔
      ¬ (k.pipe pg).ReadsOver := by
  have hsize : (k.pipe pg).readSize = min (k.pipe pg).len (k.pipe pg).rsiz := rfl
  have hd := ringDist_add hh (n := (k.pipe pg).readSize) (by unfold pipeBuflen at *; omega)
  have hbuf := passes_buffer_iff (o := 0) hn (by omega) hb
  have hbase : ((k.pipe pg).rbuf + 0) % 2^64 = (k.pipe pg).rbuf := Nat.mod_eq_of_lt (by unfold userTop at hb; omega)
  rw [hbase] at hbuf
  unfold pipeReadVia Pipe.rbuffer Pipe.ReadsOver
  rw [copyBytes_passes_iff (Nat.mod_lt _ pipeBuflen_pos) hh hd, hbuf]
  refine not_congr (and_congr_left fun _ => ?_)
  omega

theorem pipeWriteVia_passes_iff (hh : (k.pipe pg).head < pipeBuflen) (hl : (k.pipe pg).len ≤ pipeBuflen - 1)
    (hs : (k.pipe pg).wsiz < 2^32) (hw : (k.pipe pg).wptr < (k.pipe pg).wsiz) (hn : 0 < (k.pipe pg).writeSize)
    (hb : (k.pipe pg).wbuf + (k.pipe pg).wsiz ≤ userTop) :
    PassesOnly (pipeWriteVia k pg w (k.pipe pg).writeSize) (fun v => (k.pipe pg).wbuffer v.toNat) ↔
      ¬ (k.pipe pg).WritesOver := by
  have hsize := Pipe.writeSize_eq hl hs hw
  have hj : ((k.pipe pg).head + (k.pipe pg).len) % 2^32 % pipeBuflen < pipeBuflen := Nat.mod_lt _ pipeBuflen_pos
  have hd : ringDist (((k.pipe pg).head + (k.pipe pg).len + (k.pipe pg).writeSize) % 2^32 % pipeBuflen)
      (((k.pipe pg).head + (k.pipe pg).len) % 2^32 % pipeBuflen) = (k.pipe pg).writeSize := by
    unfold ringDist pipeBuflen at *
    omega
  unfold pipeWriteVia Pipe.wbuffer Pipe.WritesOver
  rw [copyBytes_passes_iff (Nat.mod_lt _ pipeBuflen_pos) hj hd,
    passes_buffer_iff (o := (k.pipe pg).wptr) hn (by omega) hb]
  refine not_congr (and_congr_left fun _ => ?_)
  omega

/-! ## Copies that stay inside do not fail -/

section Room
variable {kp : ℕ} {sp : Spaces} {extra : ℕ → ℕ} {base tail fuel buf i ind j : ℕ} {move : Phys → ℕ → ℕ → Phys}

theorem cowPage_room {f : ℕ} (h : MemInv m kp sp extra) (hroom : 2 ≤ m.free.length) : ∃ r, cowPage m f = .ok r := by
  obtain ⟨x,m',hg⟩ := getPage_room (m := m.setRef f (m.ref f - 1)) (fun x hx => h.acct.offers x hx) false hroom
  unfold cowPage
  dsimp only
  rw [hg]
  exact ⟨_,rfl⟩

theorem u2k_room {v : U64} (h : MemInv m kp sp extra) (hs : sp c = some (p.pgtbl,p.pPgtbl))
    (hcov : (lookup m p.pPgtbl v.toNat).covers (pteP ||| pteU ||| pteW) = true) (hroom : write = true → 2 ≤ m.free.length) :
    ∃ pa m', u2k m p v write = .ok (pa,m') ∧ MemInv m' kp sp extra ∧ m.free.length ≤ m'.free.length + 1 ∧
      ∀ x, (lookup m p.pPgtbl x).covers (pteP ||| pteU ||| pteW) = true →
        (lookup m' p.pPgtbl x).covers (pteP ||| pteU ||| pteW) = true := by
  cases hu : u2k m p v write with
  | error e =>
    obtain ⟨hw,f,hcow⟩ := u2k_error_cow h hs hcov hu
    obtain ⟨r,hr⟩ := cowPage_room (f := f) h (hroom hw)
    rw [hr] at hcow
    cases hcow
  | ok r =>
    obtain ⟨pa,m'⟩ := r
    obtain ⟨f,-,hread,hwrite⟩ := u2k_spec h hs hu
    refine ⟨pa,m',rfl,?_⟩
    cases write with
    | false =>
      obtain ⟨rfl,-⟩ := hread rfl
      exact ⟨h,Nat.le_succ _,fun _ hx => hx⟩
    | true =>
      have hp := hwrite rfl
      refine ⟨hp.inv,(u2k_frame hu).2,fun x hx => ?_⟩
      -- what is mapped stays mapped, and `p_pgtbl` grants all rights on it
      obtain ⟨hp₂,hu₂,-⟩ := Pte.covers_puw hx
      have hn := h.user_page hs (Or.inr hu₂)
      have hpres : (entry m p.pgtbl (key 3 x)).p = true := by
        rw [((h.space c _ _ hs).agree _ hn).1]
        exact hp₂
      have hpres' : (entry m' p.pgtbl (key 3 x)).p = true := by
        rw [(hp.pages c _ _ hs _ hn).1]
        exact hpres
      obtain ⟨hfull,-⟩ := ((hp.inv.space c _ _ hs).agree _ hn).cases hpres'
      rw [show lookup m' p.pPgtbl x = _ from hfull]
      exact Pte.full_covers_all _

/-- A move changes contents only. -/
def Moves (move : Phys → ℕ → ℕ → Phys) : Prop :=
  ∀ m a j, ∃ d q, move m a j = { m with data := d, pipe := q }

/-- There is at most one page start on the way, and with a page to spare it is passed. -/
theorem copyLoop_room (hmove : Moves move) (h : MemInv m kp sp extra) (hs : sp c = some (p.pgtbl,p.pPgtbl))
    (ht : tail < pipeBuflen) (hj : j < pipeBuflen) (hf : ringDist tail j < fuel)
    (hpages : ∀ l, i < l → l ≤ i + ringDist tail j → (base + l) % 2^64 % pgsize = 0 →
      (lookup m p.pPgtbl ((base + l) % 2^64)).covers (pteP ||| pteU ||| pteW) = true ∧
        (write = true → 2 ≤ m.free.length)) :
    ∃ m', copyLoop u2k move p write base tail fuel m buf i ind j = .ok m' := by
  induction fuel generalizing m buf i ind j with
  | zero => omega
  | succ fuel ih =>
    rw [copyLoop]
    by_cases hne : j = tail
    · rw [if_pos hne]
      exact ⟨_,rfl⟩
    obtain ⟨hd,hlt⟩ := ringDist_next ht hj hne
    have hsmall : ringDist tail j < pipeBuflen := Nat.mod_lt _ pipeBuflen_pos
    rw [if_neg hne]
    dsimp only
    obtain ⟨d,q,hm⟩ := hmove m (buf + ind) j
    rw [hm]
    have hinv : MemInv { m with data := d, pipe := q } kp sp extra := h.withContents d q
    by_cases hpage : (base + (i+1)) % 2^64 % pgsize = 0
    · rw [if_neg (not_not.mpr hpage)]
      obtain ⟨hcov,hroom⟩ := hpages (i+1) (by omega) (by omega) hpage
      have hnat : (BitVec.ofNat 64 ((base + (i+1)) % 2^64)).toNat = (base + (i+1)) % 2^64 := by
        rw [BitVec.toNat_ofNat, Nat.mod_mod]
      obtain ⟨pa,m₁,hu,hinv₁,-⟩ := u2k_room (v := BitVec.ofNat 64 ((base + (i+1)) % 2^64)) hinv hs
        (by rw [hnat]; exact hcov) hroom
      rw [hu, ok_bind]
      refine ih hinv₁ hlt (by omega) fun l hl hl' hpage' => absurd hpage' ?_
      unfold pgsize pipeBuflen at *
      omega
    · rw [if_pos hpage]
      exact ih hinv hlt (by omega) fun l hl hl' hpage' => hpages l (by omega) (by omega) hpage'

/-- A copy whose page starts are all mapped, with two pages to spare. -/
theorem copyBytes_room (hmove : Moves move) (h : MemInv m kp sp extra) (hs : sp c = some (p.pgtbl,p.pPgtbl))
    (ht : tail < pipeBuflen) (hj : j < pipeBuflen) (hroom : write = true → 3 ≤ m.free.length)
    (hbase : (lookup m p.pPgtbl (BitVec.ofNat 64 base).toNat).covers (pteP ||| pteU ||| pteW) = true)
    (hpages : ∀ l, 0 < l → l ≤ ringDist tail j → (base + l) % 2^64 % pgsize = 0 →
      (lookup m p.pPgtbl (BitVec.ofNat 64 ((base + l) % 2^64)).toNat).covers (pteP ||| pteU ||| pteW) = true) :
    ∃ m', copyBytes u2k move p write base tail j m = .ok m' := by
  obtain ⟨pa,m₁,hu,hinv,hfree,hkeep⟩ := u2k_room h hs hbase fun hw => (Nat.le_succ 2).trans (hroom hw)
  rw [copyBytes, hu, ok_bind]
  refine copyLoop_room hmove hinv hs ht hj (Nat.mod_lt _ pipeBuflen_pos) fun l hl hl' hpage => ⟨hkeep _ ?_,fun hw => ?_⟩
  · have hcov := hpages l hl (by omega) hpage
    rwa [BitVec.toNat_ofNat, Nat.mod_mod] at hcov
  · have := hroom hw
    omega

/-- Where the process has every address that is passed, the copy does not fail. -/
theorem PassesOnly.copies {α : Type} {F : Phys → α} {V : U64 → Prop} (hV : PassesOnly (fun tr => do
      let m ← copyBytes tr move p write base tail j m
      (.ok (F m) : Except Fault α)) V)
    (hcov : ∀ v, V v → (lookup m p.pPgtbl v.toNat).covers (pteP ||| pteU ||| pteW) = true) (hmove : Moves move)
    (h : MemInv m kp sp extra) (hs : sp c = some (p.pgtbl,p.pPgtbl)) (ht : tail < pipeBuflen) (hj : j < pipeBuflen)
    (hroom : write = true → 3 ≤ m.free.length) : ∃ m', copyBytes u2k move p write base tail j m = .ok m' := by
  obtain ⟨hbase,hpages⟩ := (copyBytes_passes_iff ht hj rfl V).mp hV
  exact copyBytes_room hmove h hs ht hj hroom (hcov _ hbase) fun l hl hl' hpage => hcov _ (hpages l hl hl' hpage)

end Room

theorem moves_moveOut : Moves (moveOut pg) := fun m _ _ => ⟨_,m.pipe,rfl⟩

theorem moves_moveIn : Moves (moveIn pg) := fun m _ _ => ⟨m.data,_,rfl⟩

/-- The addresses that `pipe_read` passes to `U2K` lie in the reader's buffer unless the reader gets all it
asked for and its buffer ends with a page; with them there, nothing beyond the buffer can make the copy
fail. The same holds for `pipe_write` and what the writer has left. -/
theorem pipe_copies_inside_iff (hh : (k.pipe pg).head < pipeBuflen) (hl : (k.pipe pg).len ≤ pipeBuflen - 1) :
    (∀ r, 0 < (k.pipe pg).readSize → (k.pipe pg).rbuf + (k.pipe pg).rsiz ≤ userTop →
      pipeReadCopy k pg r (k.pipe pg).readSize = pipeReadVia k pg r (k.pipe pg).readSize u2k ∧
      (PassesOnly (pipeReadVia k pg r (k.pipe pg).readSize) (fun v => (k.pipe pg).rbuffer v.toNat) ↔
        ¬ (k.pipe pg).ReadsOver) ∧
      (¬ (k.pipe pg).ReadsOver → KInv k → (k.procs r).state ≠ .close → 3 ≤ k.phys.free.length →
        (∀ v, (k.pipe pg).rbuffer v →
          (lookup k.phys (k.procs r).pPgtbl v).covers (pteP ||| pteU ||| pteW) = true) →
        ∃ k', pipeReadCopy k pg r (k.pipe pg).readSize = .ok k')) ∧
    ∀ w, 0 < (k.pipe pg).writeSize → (k.pipe pg).wptr < (k.pipe pg).wsiz → (k.pipe pg).wsiz < 2^32 →
      (k.pipe pg).wbuf + (k.pipe pg).wsiz ≤ userTop →
      pipeWriteCopy k pg w (k.pipe pg).writeSize = pipeWriteVia k pg w (k.pipe pg).writeSize u2k ∧
      (PassesOnly (pipeWriteVia k pg w (k.pipe pg).writeSize) (fun v => (k.pipe pg).wbuffer v.toNat) ↔
        ¬ (k.pipe pg).WritesOver) ∧
      (¬ (k.pipe pg).WritesOver → KInv k → (k.procs w).state ≠ .close →
        (∀ v, (k.pipe pg).wbuffer v →
          (lookup k.phys (k.procs w).pPgtbl v).covers (pteP ||| pteU ||| pteW) = true) →
        ∃ k', pipeWriteCopy k pg w (k.pipe pg).writeSize = .ok k') := by
  constructor
  · intro r hn hb
    have hiff := pipeReadVia_passes_iff (r := r) hh hl hn hb
    refine ⟨pipeReadCopy_eq,hiff,fun hin hk hr hroom hcov => ?_⟩
    obtain ⟨m',hm⟩ := (hiff.mpr hin).copies (fun v hv => hcov _ hv) moves_moveOut hk.owned.mem (spaces_some hr)
      (Nat.mod_lt _ pipeBuflen_pos) hh fun _ => hroom
    rw [pipeReadCopy_eq, pipeReadVia, hm]
    exact ⟨_,rfl⟩
  · intro w hn hw hs hb
    have hiff := pipeWriteVia_passes_iff (w := w) hh hl hs hw hn hb
    refine ⟨pipeWriteCopy_eq,hiff,fun hin hk hw' hcov => ?_⟩
    obtain ⟨m',hm⟩ := (hiff.mpr hin).copies (fun v hv => hcov _ hv) moves_moveIn hk.owned.mem (spaces_some hw')
      (Nat.mod_lt _ pipeBuflen_pos) (Nat.mod_lt _ pipeBuflen_pos) nofun
    rw [pipeWriteCopy_eq, pipeWriteVia, hm]
    exact ⟨_,rfl⟩

/-! ## One byte at the end of a page -/

/-- One byte in the pipe, and a reader with one byte of room at `b`. -/
def oneByte (b : ℕ) : Pipe := { Pipe.fresh with len := 1, rsiz := 1, rbuf := b, reader := some firstSlot }

/-- With a buffer that is the last byte of a page and nothing mapped behind it, `pipe_read` trips an
assertion of `U2K`. -/
theorem pipe_read_passes_end :
    (∀ v, (oneByte 0x1FFF).rbuffer v → (lookup (pipeKernel (oneByte 0x1FFF)).phys 1 v).covers (pteP ||| pteU ||| pteW) = true) ∧
    pipeRead 3 (pipeKernel (oneByte 0x1FFF)) 9 false = .error .assertion := by
  constructor
  · rintro v ⟨h1,h2⟩
    obtain rfl : v = 0x1FFF := by
      change 0x1FFF ≤ v at h1
      change v < 0x1FFF + 1 at h2
      omega
    decide +kernel
  · exact eq_error_of_faultOf (by decide +kernel)

theorem pipe_read_inside_page :
    PassesOnly (pipeReadVia (pipeKernel (oneByte 0x1000)) 9 firstSlot 1) fun v => (oneByte 0x1000).rbuffer v.toNat :=
  ((pipe_copies_inside_iff (show ((pipeKernel (oneByte 0x1000)).pipe 9).head < pipeBuflen by decide) (by decide)).1
    firstSlot (by decide) (by decide)).2.1.mpr fun h => absurd h.2 (by decide)

end Ukern
