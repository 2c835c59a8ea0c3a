import Ukern.Lib.Alias
import Ukern.Memory.Word
import Ukern.Run.Coherent
import Ukern.Run.Household
import Ukern.Run.Session

/-! # The status of `wait`

The status of a child gets to its parent in two ways: `sys_wait` stores it through the parent's own mapping if
the child is dead already, and `exit_as_child` stores it through a kernel address of the parent's page if the
parent sleeps. The first does not ask whether the page is shared, the second goes on behind the page if the word
does not end in it.
-/
namespace Ukern
open Lib Lib.Radix
variable {k k' k₁ : Kernel} {c i j pa z : Slot} {m m' : Phys} {p v : U64} {tf : Context} {a t kp t₂ : ℕ} {bs : List UInt8}

/-! ## What is stored, and who sees it -/

/-- The contents of the pages, by frame and offset. -/
def Phys.cells (m : Phys) : ℕ × ℕ → UInt8 := fun l => m.data l.1 l.2

/-- The place of a byte that a process in `S` can read. -/
noncomputable def placeOf (k : Kernel) (S : Set Slot) (x : Slot × ℕ) : Option (ℕ × ℕ) := by
  classical
  exact if x.1 ∈ S ∧ x.2 < userTop ∧ (entry k.phys (k.procs x.1).pgtbl (key 3 x.2)).p = true
    then some (frameAt k.phys (k.procs x.1).pgtbl x.2,x.2 % pgsize) else none

theorem placeOf_some {S : Set Slot} {l : ℕ × ℕ} : placeOf k S (j,a) = some l ↔
    j ∈ S ∧ a < userTop ∧ (entry k.phys (k.procs j).pgtbl (key 3 a)).p = true ∧
      frameAt k.phys (k.procs j).pgtbl a = l.1 ∧ a % pgsize = l.2 := by
  rw [placeOf, Option.ite_none_right_eq_some, Option.some.injEq, Prod.ext_iff]
  simp only [and_assoc]

theorem userLoad_place {S : Set Slot} (h : KInv k) (hS : j ∈ S) (hj : (k.procs j).state ≠ .close) (ht : m.tbl = k.phys.tbl) :
    userLoad m (k.procs j).pgtbl a = (placeOf k S (j,a)).map m.cells := by
  have hsp := h.owned.mem.space j _ _ (spaces_some hj)
  have hent : ∀ n, entry m (k.procs j).pgtbl n = entry k.phys (k.procs j).pgtbl n := fun n => by
    rw [entry, ht]
    rfl
  have hload : userLoad m (k.procs j).pgtbl a =
      if a < userTop ∧ (entry k.phys (k.procs j).pgtbl (key 3 a)).covers (pteP ||| pteU) = true
      then some (m.data (frameAt k.phys (k.procs j).pgtbl a) (a % pgsize)) else none := by
    rw [userLoad]
    change (if a < userTop ∧ (entry m (k.procs j).pgtbl (key 3 a)).covers (pteP ||| pteU) = true
      then some (m.byte ((entry m (k.procs j).pgtbl (key 3 a)).frame * pgsize + a % pgsize)) else none) = _
    rw [hent, Phys.byte_frame]
    rfl
  rw [hload, placeOf]
  by_cases ha : a < userTop
  · rw [(hsp.agree _ (key_user ha)).covers_iff]
    by_cases hp : (entry k.phys (k.procs j).pgtbl (key 3 a)).p = true
    · rw [if_pos ⟨ha,hp⟩, if_pos ⟨hS,ha,hp⟩]
      rfl
    · rw [if_neg (by simp [hp]), if_neg (by simp [hp])]
      rfl
  · rw [if_neg (by simp [ha]), if_neg (by simp [ha])]
    rfl

theorem Wrote.puts (h : Wrote m m' t p bs) : Puts m.cells m'.cells
    (fun n => (frameAt m t (p.toNat + n),(p.toNat + n) % pgsize)) bs.length (fun n => bs.getD n 0) where
  put n hn := h.bytes n hn
  rest l hl := h.others l.1 l.2 fun ⟨n,hn,hf,hx⟩ => hl n hn (Prod.ext hf hx)

theorem Phys.setBytes_puts (m : Phys) (pa : ℕ) (bs : List UInt8) : Puts m.cells (m.setBytes pa bs).cells
    (fun n => ((pa + n) / pgsize,(pa + n) % pgsize)) bs.length (fun n => bs.getD n 0) := by
  induction bs using List.reverseRecOn with
  | nil => exact ⟨nofun,fun _ _ => rfl⟩
  | append_singleton bs b ih =>
    have hcell : ∀ l, (m.setBytes pa (bs ++ [b])).cells l =
        if l = ((pa + bs.length) / pgsize,(pa + bs.length) % pgsize) then b else (m.setBytes pa bs).cells l := by
      intro l
      have hbyte := Phys.setByte_data (m.setBytes pa bs) ((pa + bs.length) / pgsize) (pa + bs.length) b l.1 l.2
      rw [Nat.div_add_mod'] at hbyte
      rw [Phys.setBytes_append, Phys.cells]
      simp only [Phys.setBytes,hbyte,Prod.ext_iff,Phys.cells]
    rw [List.length_append, List.length_singleton]
    refine ⟨fun n hn => ?_,fun l hl => ?_⟩
    · rw [hcell]
      by_cases hb : n = bs.length
      · rw [hb, if_pos rfl, List.getD_append_right _ _ _ _ (Nat.le_refl _), Nat.sub_self]
        rfl
      · rw [if_neg, ih.put n (by omega), List.getD_append _ _ _ _ (by omega)]
        intro heq
        rw [Prod.mk.injEq] at heq
        have hsame := Nat.div_add_mod' (pa + n) pgsize
        rw [heq.1, heq.2, Nat.div_add_mod'] at hsame
        omega
    · rw [hcell, if_neg (hl bs.length (by omega)), ih.rest l fun n hn => hl n (by omega)]

/-! ## Whose bytes change -/

/-- The status is where the parent asked for it, and no process sees another change. -/
structure Lands (k k' : Kernel) (pa : Slot) (p v : U64) : Prop where
  status : ∀ n < 8, userLoad k'.phys (k'.procs pa).pgtbl (p.toNat + n) = some ((toBytes v.toNat 8).getD n 0)
  others : ∀ j, (k'.procs j).state ≠ .close → ∀ a, ¬ (j = pa ∧ p.toNat ≤ a ∧ a < p.toNat + 8) →
    userLoad k'.phys (k'.procs j).pgtbl a = userLoad k.phys (k.procs j).pgtbl a

/-- Process `z` is gone, the others have the address spaces they had. -/
structure Gone (k k' : Kernel) (z : Slot) : Prop where
  open_iff : ∀ j, (k'.procs j).state ≠ .close ↔ (k.procs j).state ≠ .close ∧ j ≠ z
  pgtbl : ∀ j ≠ z, (k'.procs j).pgtbl = (k.procs j).pgtbl

theorem Clear.gone (h : Clear k k' (· = z)) (hz : k'.procs z = .zero) (hw : WakeSafe k) : Gone k k' z := by
  have hother : ∀ j ≠ z, ((k'.procs j).state ≠ .close ↔ (k.procs j).state ≠ .close) ∧
      (k'.procs j).pgtbl = (k.procs j).pgtbl := by
    intro j hj
    rcases h.procs j with ⟨hjz,-⟩ | hsame | ⟨⟨pg,hpg,-,hreader⟩,c,hc⟩
    · exact absurd hjz hj
    · rw [hsame]
      exact ⟨Iff.rfl,rfl⟩
    · rw [hc]
      exact ⟨iff_of_true nofun (hw pg j hpg hreader),rfl⟩
  refine ⟨fun j => ?_,fun j hj => (hother j hj).2⟩
  by_cases hj : j = z
  · rw [hj, hz]
    exact iff_of_false (fun hh => hh rfl) fun hh => hh.2 rfl
  · rw [(hother j hj).1]
    exact (and_iff_left hj).symm

theorem Gone.of_like (h : Gone k₁ k' z) (hl : ∀ j, (k.procs j).Like (k₁.procs j)) : Gone k k' z where
  open_iff j := by
    rw [h.open_iff j, ne_eq, (hl j).close]
  pgtbl j hj := by
    rw [h.pgtbl j hj, (hl j).pgtbl]

theorem status_varies {n : ℕ} (hn : n < 8) (b : UInt8) : ∃ v : U64, (toBytes v.toNat 8).getD n 0 ≠ b := by
  have hzero : ∀ n < 8, (toBytes (0 : U64).toNat 8).getD n 0 = 0 := by decide
  have hones : ∀ n < 8, (toBytes (BitVec.allOnes 64).toNat 8).getD n 0 = 255 := by decide
  by_cases hb : b = 0
  · refine ⟨BitVec.allOnes 64,?_⟩
    rw [hones n hn, hb]
    decide
  · refine ⟨0,?_⟩
    rw [hzero n hn]
    exact Ne.symm hb

theorem page_byte {q : ℕ} (hq : q < upages) (v : ℕ) : q * pgsize + v % pgsize < userTop ∧
    key 3 (q * pgsize + v % pgsize) = q ∧ (q * pgsize + v % pgsize) % pgsize = v % pgsize := by
  unfold upages at hq
  unfold userTop key pgsize
  omega

section
variable {w : ℕ → ℕ × ℕ} {after : U64 → Kernel}

/-- The processes left when `z` is gone. -/
def Kernel.left (k : Kernel) (z : Slot) : Set Slot := {j | (k.procs j).state ≠ .close ∧ j ≠ z}

theorem lands_iff_delivers (h : KInv k) (hpa : pa ∈ k.left z) (hgone : Gone k k' z) (ht : k'.phys.tbl = k.phys.tbl) :
    Lands k k' pa p v ↔ Delivers (placeOf k (k.left z)) k.phys.cells k'.phys.cells
      (fun n => (pa,p.toNat + n)) 8 (fun n => (toBytes v.toNat 8).getD n 0) := by
  have hold : ∀ j ∈ k.left z, ∀ a, userLoad k.phys (k.procs j).pgtbl a = (placeOf k (k.left z) (j,a)).map k.phys.cells :=
    fun j hj a => userLoad_place h hj hj.1 rfl
  have hnew : ∀ j ∈ k.left z, ∀ a, userLoad k'.phys (k'.procs j).pgtbl a =
      (placeOf k (k.left z) (j,a)).map k'.phys.cells := by
    intro j hj a
    rw [hgone.pgtbl j hj.2]
    exact userLoad_place h hj hj.1 ht
  constructor
  · intro hl
    refine ⟨fun n hn => ?_,?_⟩
    · rw [← hnew pa hpa]
      exact hl.status n hn
    · rintro ⟨j,a⟩ hx
      by_cases hj : j ∈ k.left z
      · rw [← hnew j hj, ← hold j hj]
        refine hl.others j ((hgone.open_iff j).mpr hj) a ?_
        rintro ⟨rfl,hle,hlt⟩
        refine hx (a - p.toNat) (by omega) (Prod.ext rfl ?_)
        simp only
        omega
      · have hnone : placeOf k (k.left z) (j,a) = none := by
          rw [placeOf]
          exact if_neg fun hh => hj hh.1
        rw [hnone]
        rfl
  · intro hd
    refine ⟨fun n hn => ?_,fun j hj a hx => ?_⟩
    · rw [hnew pa hpa]
      exact hd.got n hn
    · have hj' := (hgone.open_iff j).mp hj
      rw [hnew j hj', hold j hj']
      refine hd.others (j,a) fun n hn he => hx ?_
      cases he
      exact ⟨rfl,Nat.le_add_right _ _,by omega⟩

/-- A store at the offsets of the word lands exactly if it goes into frames that the parent has there, and nobody
else. -/
theorem lands_iff (h : KInv k) (hpa : pa ∈ k.left z) (hspan : Span k.phys (k.procs pa).pgtbl p 8)
    (hgone : ∀ v, Gone k (after v) z) (ht : ∀ v, (after v).phys.tbl = k.phys.tbl)
    (hput : ∀ v : U64, Puts k.phys.cells (after v).phys.cells w 8 fun n => (toBytes v.toNat 8).getD n 0)
    (hoff : ∀ n < 8, (w n).2 = (p.toNat + n) % pgsize) :
    (∀ v, Lands k (after v) pa p v) ↔ ∀ n < 8, frameAt k.phys (k.procs pa).pgtbl (p.toNat + n) = (w n).1 ∧
      ∀ x ∈ k.mappers (w n).1, x.1 = z ∨ x = (pa,key 3 (p.toNat + n)) := by
  have hu := hspan.user
  have hplace : ∀ n < 8, placeOf k (k.left z) (pa,p.toNat + n) =
      some (frameAt k.phys (k.procs pa).pgtbl (p.toNat + n),(p.toNat + n) % pgsize) := fun n hn =>
    placeOf_some.mpr ⟨hpa,by omega,hspan.present n hn,rfl,rfl⟩
  have hiff := delivers_iff (r := fun n => (pa,p.toNat + n))
    (fun n hn => status_varies hn) hput fun n hn => ⟨_,hplace n hn,fun j hj hjn he => by
      -- the offsets of the eight bytes are different
      have := congrArg Prod.snd he
      rw [hoff j hj] at this
      simp only at this
      unfold pgsize at this
      omega⟩
  refine (forall_congr' fun v => lands_iff_delivers h hpa (hgone v) (ht v)).trans (hiff.trans ?_)
  refine forall_congr' fun n => forall_congr' fun hn => ?_
  rw [hplace n hn, Option.some.injEq, Prod.ext_iff, hoff n hn]
  refine and_congr (and_iff_left rfl) ⟨fun hh x hx => ?_,fun hh y hy => ?_⟩
  · obtain ⟨j,q⟩ := x
    obtain ⟨hlt,hopen,hp,hf⟩ := hx
    by_cases hj : j = z
    · exact .inl hj
    · obtain ⟨ha,hkey,hmod⟩ := page_byte hlt (p.toNat + n)
      have hy := hh (j,q * pgsize + (p.toNat + n) % pgsize)
        (placeOf_some.mpr ⟨⟨hopen,hj⟩,ha,by rw [hkey]; exact hp,by rw [frameAt, hkey]; exact hf,by rw [hmod, hoff n hn]⟩)
      obtain ⟨hjpa,haddr⟩ := Prod.mk.inj hy
      rw [hjpa, ← haddr, hkey]
      exact .inr rfl
  · obtain ⟨j,a⟩ := y
    obtain ⟨hj,ha,hp,hf,ho⟩ := placeOf_some.mp hy
    have hx := (hh (j,key 3 a) ⟨key_user ha,hj.1,hp,hf⟩).resolve_left hj.2
    obtain ⟨hjpa,hpage⟩ := Prod.mk.inj hx
    rw [hjpa, addr_eq ha (by omega) hpage (ho.trans (hoff n hn))]

end

/-! ## The child is dead before the call -/

/-- A zombie with another exit value. -/
def Kernel.died (k : Kernel) (z : Slot) (v : U64) : Kernel := k.modProc z fun p => { p with exitVal := v }

/-- A call of `sys_wait` with a status pointer that it accepts, when the child `z` is a zombie. -/
structure Reaps (k : Kernel) (c z : Slot) (tf : Context) : Prop where
  sys : Sys k c
  child : (k.procs c).zombieChild = some z
  zombie : (k.procs z).state = .zombie
  asked : tf.rdx ≠ 0
  accepted : waitCheck k.phys (k.procs c).pPgtbl tf.rdx = .ok true
  mapped : Span k.phys (k.procs c).pgtbl tf.rdx 8

theorem Reaps.ne (h : Reaps k c z tf) : c ≠ z := by
  rintro rfl
  have hrun := (h.sys.running c).mpr rfl
  rw [h.zombie] at hrun
  cases hrun

/-- The call returns: the status is stored through the caller's table, then the zombie is cleared. -/
theorem Reaps.runs (h : Reaps k c z tf) (v : U64) : ∃ k' m, Wrote k.phys m (k.procs c).pgtbl tf.rdx (toBytes v.toNat 8) ∧
    sysWait (k.died z v) c tf = .ok (.ret { tf with rax := BitVec.ofNat 64 (k.procs z).pid } k') ∧
    Gone k k' z ∧ k'.phys.tbl = m.tbl ∧ k'.phys.data = m.data := by
  have hne := h.ne
  have hc : (k.died z v).procs c = k.procs c := Kernel.modProc_ne _ _ _ hne
  have hz : (k.died z v).procs z = { k.procs z with exitVal := v } := Kernel.modProc_self ..
  have hlen : (toBytes v.toNat 8).length = 8 := toBytes_length ..
  obtain ⟨m,hm,hwrote⟩ := kstores_stored (hlen.symm ▸ h.mapped) (by rw [hlen]; decide)
  have hs := (Quiet.setData h.sys.inv hwrote.rest).sys h.sys
  obtain ⟨k₁,hk₁⟩ : ∃ k₁, k₁ = (((k.setPhys m).died z v).modProc c fun p =>
      { p with zombieChild := (k.procs z).nextSibling }).modPtr (k.procs z).nextSibling
        fun p => { p with prevSibling := none } := ⟨_,rfl⟩
  have hrel : Relinked (k.setPhys m) k₁ := by
    rw [hk₁]
    refine ((Relinked.refl.modProc ?_).modProc ?_).modPtr ?_ <;> exact fun _ => rfl
  have hwake := hrel.wakeSafe hs.reg.wakeSafe
  have hopen : (k₁.procs z).state ≠ .close := by
    rw [hrel.state, Kernel.setPhys_procs, h.zombie]
    decide
  obtain ⟨k',hclear,hzero,hcl⟩ := clearProc_spec (hrel.inv hs.inv) hopen hwake
  refine ⟨k',m,hwrote,?_,(hcl.gone hzero hwake).of_like hrel.like,?_,?_⟩
  · have hstore : waitStore (k.died z v).phys (k.procs c).pgtbl tf.rdx v = .ok m := (if_pos h.asked).trans hm
    have hcheck : waitCheck (k.died z v).phys (k.procs c).pPgtbl tf.rdx = .ok true := h.accepted
    unfold sysWait
    rw [hc, hcheck, ok_bind, if_neg (by decide), h.child]
    change waitZombie (k.died z v) c z tf = _
    unfold waitZombie
    simp only [hc,hz,hstore,ok_bind]
    change clearProc ((((k.setPhys m).died z v).modProc c _).modPtr _ _) z >>= _ = _
    rw [← hk₁, hclear, ok_bind, Kernel.setPhys_procs, hz]
    rfl
  · rw [hcl.contents.1, hrel.phys]
    rfl
  · rw [hcl.contents.2, hrel.phys]
    rfl

theorem Reaps.lands_iff (h : Reaps k c z tf) :
    (∀ v, ∃ k', sysWait (k.died z v) c tf = .ok (.ret { tf with rax := BitVec.ofNat 64 (k.procs z).pid } k') ∧
      Lands k k' c tf.rdx v) ↔
    ∀ n < 8, ∀ x ∈ k.mappers (frameAt k.phys (k.procs c).pgtbl (tf.rdx.toNat + n)),
      x.1 = z ∨ x = (c,key 3 (tf.rdx.toNat + n)) := by
  choose after m hwrote hrun hgone htbl hdata using h.runs
  have hput : ∀ v, Puts k.phys.cells (after v).phys.cells (fun n =>
      (frameAt k.phys (k.procs c).pgtbl (tf.rdx.toNat + n),(tf.rdx.toNat + n) % pgsize)) 8
      (fun n => (toBytes v.toNat 8).getD n 0) := by
    intro v
    have hcells : (after v).phys.cells = (m v).cells := by
      unfold Phys.cells
      rw [hdata v]
    have hlen : (toBytes v.toNat 8).length = 8 := toBytes_length ..
    have hp := (hwrote v).puts
    rwa [hlen, ← hcells] at hp
  have hcopen : (k.procs c).state ≠ .close := by
    rw [(h.sys.running c).mpr rfl]
    decide
  have hiff := Ukern.lands_iff h.sys.inv ⟨hcopen,h.ne⟩ h.mapped hgone
    (fun v => (htbl v).trans (by obtain ⟨d,hd⟩ := (hwrote v).rest; rw [hd])) hput fun _ _ => rfl
  simp only [true_and] at hiff
  rw [← hiff]
  refine forall_congr' fun v => ⟨?_,fun hl => ⟨_,hrun v,hl⟩⟩
  rintro ⟨k',hk',hl⟩
  rw [hrun v] at hk'
  cases hk'
  exact hl

/-! ## The child exits while the parent sleeps -/

/-- The frame that `U2K` gives for the first byte of the word: that of the page, or the copy made for the store. -/
def aliasFrame (k : Kernel) (pa : Slot) : ℕ :=
  let e := entry k.phys (k.procs pa).pgtbl (key 3 (k.procs pa).waitStatus.toNat)
  if e.w then e.frame else k.phys.free.headD 0

/-- Page `q` of process `pa` is in frame `f` now, with what was in it before, and it is its own. -/
structure Owns (k : Kernel) (m : Phys) (pa : Slot) (q f : ℕ) : Prop where
  quiet : Quiet k (k.setPhys m)
  pages : ∀ j, (k.procs j).state ≠ .close → SamePages k.phys m (k.procs j).pgtbl
  entry_eq : ∀ j, (k.procs j).state ≠ .close → ∀ n < upages, entry m (k.procs j).pgtbl n =
    if j = pa ∧ n = q then .full f else entry k.phys (k.procs j).pgtbl n

theorem u2k_owns {w : ℕ} (h : KInv k) (hpa : (k.procs pa).state ≠ .close)
    (hu : u2k k.phys (k.procs pa) (k.procs pa).waitStatus true = .ok (w,m)) :
    w = aliasFrame k pa * pgsize + (k.procs pa).waitStatus.toNat % pgsize ∧
      Owns k m pa (key 3 (k.procs pa).waitStatus.toNat) (aliasFrame k pa) := by
  have hq := u2k_quiet h hpa hu
  obtain ⟨f,-,-,hpriv⟩ := u2k_spec h.owned.mem (spaces_some hpa) hu
  have hpages := fun j hj => (hpriv rfl).pages j _ _ (spaces_some hj)
  obtain ⟨hn,hp,⟨hfull,hw,rfl⟩ | ⟨hro,pg,rest,hfree,hw,-,hun⟩⟩ := u2k_write h.owned.mem (spaces_some hpa) hu
  · have hf : aliasFrame k pa = (entry k.phys (k.procs pa).pgtbl (key 3 (k.procs pa).waitStatus.toNat)).frame := by
      refine if_pos ?_
      rw [hfull]
      exact Pte.full_w _
    rw [hf]
    refine ⟨hw,hq,hpages,fun j _ n _ => ?_⟩
    split
    · rename_i hjn
      rw [hjn.1, hjn.2]
      exact hfull
    · rfl
  · have hf : aliasFrame k pa = pg := by
      have hneg : ¬ (entry k.phys (k.procs pa).pgtbl (key 3 (k.procs pa).waitStatus.toNat)).w = true := by
        rw [hro]
        decide
      refine (if_neg hneg).trans ?_
      rw [hfree]
      rfl
    rw [hf]
    refine ⟨hw,hq,hpages,fun j hj n hnu => ?_⟩
    by_cases hjpa : j = pa
    · rw [hjpa, hun.entry_eq n hnu]
      simp only [true_and]
    · rw [if_neg fun hh => hjpa hh.1]
      exact (hun.other j hjpa _ _ (spaces_some hj)).1.entry hnu

/-- `exit_as_child` with a parent that sleeps in `sys_wait`. -/
structure Wakes (k : Kernel) (i pa : Slot) : Prop where
  sys : Sys k i
  parent : (k.procs i).parent = some pa
  waiting : (k.procs pa).waiting = true
  asked : (k.procs pa).waitStatus ≠ 0
  mapped : Span k.phys (k.procs pa).pgtbl (k.procs pa).waitStatus 8
  completes : ∃ v, (exitAsChild k i v).isOk = true

theorem Wakes.asleep (h : Wakes k i pa) : (k.procs pa).state = .pending := h.sys.reg.pending .wait pa h.waiting

theorem Wakes.ne (h : Wakes k i pa) : pa ≠ i := by
  rintro rfl
  have hrun := (h.sys.running pa).mpr rfl
  rw [h.asleep] at hrun
  cases hrun

theorem Wakes.owns (h : Wakes k i pa) : ∃ m, u2k k.phys (k.procs pa) (k.procs pa).waitStatus true =
      .ok (aliasFrame k pa * pgsize + (k.procs pa).waitStatus.toNat % pgsize,m) ∧
    Owns k m pa (key 3 (k.procs pa).waitStatus.toNat) (aliasFrame k pa) := by
  obtain ⟨v,hv⟩ := h.completes
  obtain ⟨k',hk'⟩ := exists_ok hv
  obtain ⟨hnone,-⟩ | ⟨pa',hpa',hno,-⟩ | ⟨pa',k₁,hpa',-,hr,-⟩ := exitAsChild_cases hk'
  · rw [h.parent] at hnone
    cases hnone
  · rw [h.parent] at hpa'
    cases hpa'
    rw [h.waiting] at hno
    cases hno
  · rw [h.parent] at hpa'
    cases hpa'
    unfold reportExit at hr
    obtain ⟨k₂,hs,-⟩ := bind_eq_ok.mp hr
    unfold storeStatus at hs
    rw [Kernel.modProc_self, if_pos h.asked] at hs
    obtain ⟨⟨w,m⟩,hu,-⟩ := bind_eq_ok.mp hs
    change u2k k.phys (k.procs pa) (k.procs pa).waitStatus true = .ok (w,m) at hu
    obtain ⟨rfl,howns⟩ := u2k_owns h.sys.inv (by rw [h.asleep]; decide) hu
    exact ⟨m,hu,howns⟩

theorem Wakes.unread (h : Wakes k i pa) : Unread k pa := by
  intro pg hpg hr
  cases h.sys.reg.unique .wait (.read pg) pa h.waiting ⟨hpg,hr⟩

/-- The call returns: the status is stored at the physical address, then the child is cleared. -/
theorem Wakes.runs {w : ℕ} (h : Wakes k i pa)
    (hu : u2k k.phys (k.procs pa) (k.procs pa).waitStatus true = .ok (w,m)) (v : U64) :
    ∃ k', exitAsChild k i v = .ok k' ∧ (k'.procs pa).state = .ready ∧
      (k'.procs pa).context = { (k.procs pa).context with rax := BitVec.ofNat 64 (k.procs i).pid } ∧
      Gone k k' i ∧ k'.phys.tbl = m.tbl ∧ k'.phys.data = (m.setBytes w (toBytes v.toNat 8)).data := by
  have hpa : (k.procs pa).state ≠ .close := by
    rw [h.asleep]
    decide
  obtain ⟨k₁,hk₁⟩ : ∃ k₁, k₁ = (((k.modProc pa fun p => { p with waiting := false }).setPhys
      (m.setBytes w (toBytes v.toNat 8))).wake pa (BitVec.ofNat 64 (k.procs i).pid)) := ⟨_,rfl⟩
  have hreport : reportExit k i pa v = .ok k₁ := by
    have hstore : storeStatus (k.modProc pa fun p => { p with waiting := false }) pa v =
        .ok ((k.modProc pa fun p => { p with waiting := false }).setPhys (m.setBytes w (toBytes v.toNat 8))) := by
      unfold storeStatus
      rw [Kernel.modProc_self, if_pos h.asked]
      change u2k k.phys (k.procs pa) (k.procs pa).waitStatus true >>= _ = _
      rw [hu]
      rfl
    unfold reportExit
    rw [hstore, ok_bind, Kernel.setPhys_procs, Kernel.modProc_ne _ _ _ h.ne.symm, ← hk₁]
  have hrep := reportExit_spec h.sys.inv h.waiting hreport
  have hrel := detach_relinked k₁ i pa
  have hwake := hrel.wakeSafe (hrep.wakeSafe hpa h.sys.reg.wakeSafe)
  have hi : ((detach k₁ i pa).procs i).state ≠ .close := by
    rw [hrel.state, hrep.procs i h.ne.symm, (h.sys.running i).mpr rfl]
    decide
  obtain ⟨k',hclear,hzero,hcl⟩ := clearProc_spec (hrel.inv hrep.inv) hi hwake
  have hself : (k'.procs pa).core = (k₁.procs pa).core := by
    rcases hcl.procs pa with ⟨hpi,-⟩ | hsame | ⟨⟨pg,hpg,-,hr⟩,-⟩
    · exact absurd hpi h.ne
    · rw [hsame, hrel.core]
    · exact absurd hr (hrel.unread (hrep.unread hpa h.unread) pg hpg)
  have hwoken : k₁.procs pa = { k.procs pa with
      context := { (k.procs pa).context with rax := BitVec.ofNat 64 (k.procs i).pid }, state := .ready, waiting := false } := by
    rw [hk₁, Kernel.wake, Kernel.modProc_self, Kernel.setPhys_procs, Kernel.modProc_self]
  have hphys : (detach k₁ i pa).phys = m.setBytes w (toBytes v.toNat 8) := by
    rw [hrel.phys, hk₁]
    rfl
  refine ⟨k',?_,?_,?_,?_,?_,?_⟩
  · unfold exitAsChild
    rw [h.parent]
    simp only [h.waiting,Bool.not_true,Bool.false_eq_true,↓reduceIte]
    rw [hreport, ok_bind]
    exact hclear
  · rw [Proc.state_of_core hself, hwoken]
  · have hctx := congrArg Proc.context hself
    rw [hwoken] at hctx
    exact hctx
  · exact ((hcl.gone hzero hwake).of_like hrel.like).of_like (hrep.like hpa)
  · rw [hcl.contents.1, hphys]
    exact (Phys.setBytes_frame ..).2
  · rw [hcl.contents.2, hphys]

section
variable {q f g : ℕ}

theorem Owns.mappers_self (h : Owns k m pa q f) (hpa : (k.procs pa).state ≠ .close) (hq : q < upages) :
    (k.setPhys m).mappers f = {(pa,q)} := by
  have hfull : entry m (k.procs pa).pgtbl q = .full f := by
    rw [h.entry_eq pa hpa q hq, if_pos ⟨rfl,rfl⟩]
  have hown := h.quiet.inv.pageTables.writable pa q hpa hq
  simp only [Kernel.setPhys_procs] at hown
  change (entry m _ q).p = true → (entry m _ q).w = true → (k.setPhys m).mappers (entry m _ q).frame = _ at hown
  rw [hfull] at hown
  exact hown (Pte.full_p f) (Pte.full_w f)

/-- Other frames have the pages they had, but for the one that has moved. -/
theorem Owns.mem_mappers (h : Owns k m pa q f) (hg : g ≠ f) (x : Slot × ℕ) :
    x ∈ (k.setPhys m).mappers g ↔ x ∈ k.mappers g ∧ x ≠ (pa,q) := by
  obtain ⟨j,n⟩ := x
  by_cases hjn : j = pa ∧ n = q
  · refine iff_of_false ?_ fun hh => hh.2 (Prod.ext hjn.1 hjn.2)
    rintro ⟨hn,hj,-,hfr⟩
    change (entry m (k.procs j).pgtbl n).frame = g at hfr
    rw [h.entry_eq j hj n hn, if_pos hjn] at hfr
    exact hg hfr.symm
  · have hne : (j,n) ≠ (pa,q) := fun hh => hjn (Prod.mk.inj hh)
    rw [and_iff_left hne]
    refine and_congr_right fun hn => and_congr_right fun hj => ?_
    change (entry m (k.procs j).pgtbl n).p = true ∧ (entry m (k.procs j).pgtbl n).frame = g ↔ _
    rw [h.entry_eq j hj n hn, if_neg hjn]

theorem Owns.lands (h : Owns k m pa q f) (hk : KInv k) (hgone : Gone k k' i) : Lands (k.setPhys m) k' pa p v ↔ Lands k k' pa p v := by
  have hload : ∀ j, (k'.procs j).state ≠ .close → ∀ a, userLoad m (k.procs j).pgtbl a = userLoad k.phys (k.procs j).pgtbl a := by
    intro j hj a
    have hopen := ((hgone.open_iff j).mp hj).1
    exact (h.pages j hopen).userLoad (hk.owned.mem.space j _ _ (spaces_some hopen))
      (h.quiet.inv.owned.mem.space j _ _ (spaces_some hopen)) a
  constructor
  · intro hl
    refine ⟨hl.status,fun j hj a hx => ?_⟩
    rw [← hload j hj]
    exact hl.others j hj a hx
  · intro hl
    refine ⟨hl.status,fun j hj a hx => ?_⟩
    rw [Kernel.setPhys_procs]
    exact (hl.others j hj a hx).trans (hload j hj a).symm

end

/-- The word ends in its page, or in the parent's own next page and that is in the next frame. -/
theorem Wakes.lands_iff (h : Wakes k i pa) :
    (∀ v, ∃ k', exitAsChild k i v = .ok k' ∧ (k'.procs pa).state = .ready ∧
      (k'.procs pa).context = { (k.procs pa).context with rax := BitVec.ofNat 64 (k.procs i).pid } ∧
      Lands k k' pa (k.procs pa).waitStatus v) ↔
    ∀ n < 8, pgsize ≤ (k.procs pa).waitStatus.toNat % pgsize + n →
      frameAt k.phys (k.procs pa).pgtbl ((k.procs pa).waitStatus.toNat + n) = aliasFrame k pa + 1 ∧
      ∀ x ∈ k.mappers (aliasFrame k pa + 1), x.1 = i ∨ x = (pa,key 3 (k.procs pa).waitStatus.toNat) ∨
        x = (pa,key 3 ((k.procs pa).waitStatus.toNat + n)) := by
  obtain ⟨m,hu,howns⟩ := h.owns
  choose after hrun hready hctx hgone htbl hdata using h.runs hu
  have hpa : (k.procs pa).state ≠ .close := by
    rw [h.asleep]
    decide
  have hspan := h.mapped
  generalize hP : (k.procs pa).waitStatus = p at *
  have hput : ∀ v, Puts m.cells (after v).phys.cells (fun n => ((aliasFrame k pa * pgsize + p.toNat % pgsize + n) / pgsize,
      (aliasFrame k pa * pgsize + p.toNat % pgsize + n) % pgsize)) 8 (fun n => (toBytes v.toNat 8).getD n 0) := by
    intro v
    have hcells : (after v).phys.cells = (m.setBytes (aliasFrame k pa * pgsize + p.toNat % pgsize) (toBytes v.toNat 8)).cells := by
      unfold Phys.cells
      rw [hdata v]
    have hlen : (toBytes v.toNat 8).length = 8 := toBytes_length ..
    have hp := Phys.setBytes_puts m (aliasFrame k pa * pgsize + p.toNat % pgsize) (toBytes v.toNat 8)
    rwa [hlen, ← hcells] at hp
  have hu := hspan.user
  have hspan' : Span m (k.procs pa).pgtbl p 8 := by
    refine ⟨hu,fun n hn => ?_⟩
    rw [howns.entry_eq pa hpa _ (key_user (by omega))]
    split
    · exact Pte.full_p _
    · exact hspan.present n hn
  have hiff := Ukern.lands_iff howns.quiet.inv ⟨hpa,h.ne⟩ hspan' (fun v => (hgone v).of_like fun _ => ⟨rfl,rfl,rfl,Iff.rfl⟩)
    htbl hput fun n _ => by
      unfold pgsize
      omega
  trans ∀ v, Lands (k.setPhys m) (after v) pa p v
  · refine forall_congr' fun v => ?_
    rw [howns.lands h.sys.inv (hgone v)]
    refine ⟨?_,fun hl => ⟨_,hrun v,hready v,hctx v,hl⟩⟩
    rintro ⟨k',hk',-,-,hl⟩
    rw [hrun v] at hk'
    cases hk'
    exact hl
  rw [hiff]
  refine forall_congr' fun n => forall_congr' fun hn => ?_
  have hkey := key_user (show p.toNat + n < userTop by omega)
  rcases Nat.lt_or_ge (p.toNat % pgsize + n) pgsize with hin | hout
  · -- the page of the first byte is the parent's own
    have hplace : (aliasFrame k pa * pgsize + p.toNat % pgsize + n) / pgsize = aliasFrame k pa := by
      unfold pgsize at *
      omega
    have hsame : key 3 (p.toNat + n) = key 3 p.toNat := by
      unfold key pgsize at *
      omega
    refine iff_of_true ?_ fun hle => absurd hle (by omega)
    rw [hplace, howns.mappers_self hpa (by rw [← hsame]; exact hkey), hsame]
    refine ⟨?_,fun x hx => .inr hx⟩
    change (entry m (k.procs pa).pgtbl (key 3 (p.toNat + n))).frame = _
    rw [howns.entry_eq pa hpa _ hkey, if_pos ⟨rfl,hsame⟩]
    rfl
  · have hplace : (aliasFrame k pa * pgsize + p.toNat % pgsize + n) / pgsize = aliasFrame k pa + 1 := by
      unfold pgsize at *
      omega
    have hnext : key 3 (p.toNat + n) ≠ key 3 p.toNat := by
      unfold key pgsize userTop at *
      omega
    have hframe : frameAt m (k.procs pa).pgtbl (p.toNat + n) = frameAt k.phys (k.procs pa).pgtbl (p.toNat + n) := by
      rw [frameAt, howns.entry_eq pa hpa _ hkey, if_neg fun hh => hnext hh.2]
      rfl
    rw [imp_iff_right hout, hplace]
    refine and_congr (by rw [← hframe]; rfl) (forall_congr' fun x => ?_)
    rw [howns.mem_mappers (Nat.succ_ne_self _)]
    refine ⟨fun hh hx => ?_,fun hh hx => ?_⟩
    · by_cases hfirst : x = (pa,key 3 p.toNat)
      · exact .inr (.inl hfirst)
      · exact (hh ⟨hx,hfirst⟩).imp_right .inr
    · exact (hh hx.1).imp_right fun hor => hor.resolve_left hx.2

/-! ## Both orders -/

theorem Lands.same {l l' : Kernel} {pb : Slot} (h : Lands k k' pa p v) (h' : Lands l l' pb p v)
    (hpa : (k'.procs pa).state ≠ .close) (hpb : (l'.procs pb).state ≠ .close)
    (heq : ∀ a, userLoad k.phys (k.procs pa).pgtbl a = userLoad l.phys (l.procs pb).pgtbl a) (a : ℕ) :
    userLoad k'.phys (k'.procs pa).pgtbl a = userLoad l'.phys (l'.procs pb).pgtbl a := by
  by_cases ha : p.toNat ≤ a ∧ a < p.toNat + 8
  · obtain ⟨n,rfl⟩ := Nat.exists_eq_add_of_le ha.1
    rw [h.status n (by omega), h'.status n (by omega)]
  · rw [h.others pa hpa a fun hin => ha hin.2, h'.others pb hpb a fun hin => ha hin.2]
    exact heq a

/-- The page of the arguments, as a place for the status. -/
def statusFrame : Context := { Context.zero with rax := 3, rdx := BitVec.ofNat 64 uargs }

theorem Bereaved.reaps {x : Slot} (h : Bereaved k₁ k pa x v) (hs : Sys k pa)
    (hargs : (entry k.phys (k.procs pa).pgtbl (key 3 uargs)).p = true) : Reaps k pa x statusFrame := by
  have haddr : (BitVec.ofNat 64 uargs).toNat = uargs := by decide
  have hbuf : Buffer k.phys (k.procs pa).pgtbl (BitVec.ofNat 64 uargs) 8 := by
    refine ⟨by decide,by decide,?_⟩
    rw [haddr]
    exact hargs
  refine ⟨hs,h.child,h.zombie,by decide,?_,⟨by decide,fun i hi => ?_⟩⟩
  · change waitCheck k.phys (k.procs pa).pPgtbl (BitVec.ofNat 64 uargs) = .ok true
    rw [waitCheck, if_neg (by decide)]
    exact hbuf.checkMem hs.space (by decide) (.inr rfl)
  · have hkey : key 3 ((BitVec.ofNat 64 uargs).toNat + i) = key 3 uargs := by
      rw [haddr]
      unfold key pgsize uargs
      omega
    change (entry k.phys (k.procs pa).pgtbl (key 3 ((BitVec.ofNat 64 uargs).toNat + i))).p = true
    rw [hkey]
    exact hargs

end Ukern
