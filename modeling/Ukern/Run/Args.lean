import Mathlib.Data.List.GetD
import Ukern.Run.Running
import Ukern.Memory.Buffer

/-! # The arguments of `sys_exec`

The strings are saved in the rows of `argv_buf` and copied to the page at `UARGS`. `strncpy` puts its
zero behind the 256 bytes it may copy: the row of a longer string has no end, and behind the last
row there is no room for it.
-/
namespace Ukern
open Lib
variable {k k' : Kernel} {c : Slot} {m : Phys} {t i j n r : ℕ} {src : U64} {tf : Context} {text : List UInt8}
  {texts : List (List UInt8)} {buf : ℕ → UInt8}

/-! ## Rows -/

/-- Bytes written into a buffer from position `p`. -/
def writeAt (buf : ℕ → UInt8) (p : ℕ) (bs : List UInt8) (x : ℕ) : UInt8 :=
  if p ≤ x ∧ x < p + bs.length then bs.getD (x - p) 0 else buf x

theorem writeAt_cons (buf : ℕ → UInt8) (p : ℕ) (b : UInt8) (bs : List UInt8) :
    writeAt buf p (b :: bs) = writeAt (Function.update buf p b) (p+1) bs := by
  funext x
  unfold writeAt
  rw [List.length_cons]
  rcases Nat.lt_trichotomy x p with h | rfl | h
  · rw [if_neg (by omega), if_neg (by omega), Function.update_of_ne (by omega)]
  · rw [if_pos (by omega), if_neg (by omega), Nat.sub_self, Function.update_self]
    rfl
  · rw [show x - p = x - (p+1) + 1 by omega, List.getD_cons_succ, Function.update_of_ne (by omega)]
    exact if_congr (by omega) rfl rfl

theorem writeAt_nil (buf : ℕ → UInt8) (p : ℕ) : writeAt buf p [] = buf := by
  funext x
  exact if_neg (by simp)

theorem writeAt_singleton (buf : ℕ → UInt8) (p : ℕ) (b : UInt8) : writeAt buf p [b] = Function.update buf p b := by
  rw [writeAt_cons, writeAt_nil]

/-- What `strncpy` copies of an argument. -/
def argRow (text : List UInt8) : List UInt8 := text.take arglen ++ [0]

/-- The string `text` can be read at `src`, up to its zero. -/
structure TextAt (m : Phys) (t : ℕ) (src : U64) (text : List UInt8) : Prop where
  read : ∀ j ≤ text.length, kload m t (src + BitVec.ofNat 64 j) = .ok (text.getD j 0)
  nonzero : ∀ b ∈ text, b ≠ 0

theorem saveArg_row (h : TextAt k.phys t src text) (hj : j ≤ text.length) :
    saveArg k t src i n j =
      if i * arglen + j + ((text.drop j).take n).length < nargs * arglen then
        .ok { k with argvBuf := writeAt k.argvBuf (i * arglen + j) ((text.drop j).take n ++ [0]) }
      else .error .outOfBounds := by
  induction n generalizing k j with
  | zero =>
    rw [saveArg, saveArg.put, List.take_zero, List.nil_append, writeAt_singleton, List.length_nil, Nat.add_zero]
  | succ n ih =>
    rw [saveArg, h.read j hj]
    change (if text.getD j 0 = 0 then _ else _) = _
    rcases hj.lt_or_eq with hlt | rfl
    · have hget : text.getD j 0 = text[j] := by simp [hlt]
      have hne : text[j] ≠ 0 := h.nonzero _ (List.getElem_mem hlt)
      rw [hget, if_neg hne, List.drop_eq_getElem_cons hlt, List.take_succ_cons, List.cons_append, writeAt_cons,
        List.length_cons, saveArg.put]
      by_cases hroom : i * arglen + j < nargs * arglen
      · rw [if_pos hroom]
        refine (ih (k := { k with argvBuf := Function.update k.argvBuf (i * arglen + j) text[j] }) h hlt).trans ?_
        have hpos : i * arglen + (j+1) = i * arglen + j + 1 := (Nat.add_assoc ..).symm
        have hlen : i * arglen + j + 1 + ((text.drop (j+1)).take n).length =
            i * arglen + j + (((text.drop (j+1)).take n).length + 1) := by omega
        rw [hpos, hlen]
      · rw [if_neg hroom, if_neg (by omega)]
        rfl
    · have hget : text.getD text.length 0 = 0 := by simp
      rw [hget, if_pos rfl, List.drop_length, List.take_nil, List.nil_append, writeAt_singleton, saveArg.put,
        List.length_nil, Nat.add_zero]

/-- The rows from `i` on, filled one after the other. -/
def saveRows (buf : ℕ → UInt8) (i : ℕ) : List (List UInt8) → ℕ → UInt8
  | [] => buf
  | text :: texts => saveRows (writeAt buf (i * arglen) (argRow text)) (i+1) texts

/-- Argument `i` of the caller: its pointer can be read, `check_str` accepts it, and `text` stands there. -/
structure ArgAt (k : Kernel) (c : Slot) (argv : U64) (i : ℕ) (text : List UInt8) : Prop where
  passed : ∃ bs, kloads k.phys (k.procs c).pgtbl (argv + BitVec.ofNat 64 (8 * i)) 8 = .ok bs ∧
    checkStr k.phys (k.procs c).pPgtbl (BitVec.ofNat 64 (ofBytes bs)) (BitVec.ofNat 64 arglen) pteU = .ok true ∧
    TextAt k.phys (k.procs c).pgtbl (BitVec.ofNat 64 (ofBytes bs)) text

theorem ArgAt.setBuf {argv : U64} (h : ArgAt k c argv i text) (buf : ℕ → UInt8) :
    ArgAt { k with argvBuf := buf } c argv i text := ⟨h.passed⟩

theorem saveArgs_succ {argv : U64} (h : ArgAt k c argv i text) : saveArgs k c argv (n+1) i =
    if i * arglen + (text.take arglen).length < nargs * arglen then
      saveArgs { k with argvBuf := writeAt k.argvBuf (i * arglen) (argRow text) } c argv n (i+1)
    else .error .outOfBounds := by
  obtain ⟨bs,hbs,hcheck,htext⟩ := h.passed
  have hrow := saveArg_row (i := i) (n := arglen) htext (Nat.zero_le _)
  rw [List.drop_zero, Nat.add_zero] at hrow
  rw [saveArgs, hbs, ok_bind]
  dsimp only
  rw [hcheck, ok_bind, if_neg (by decide), hrow, argRow]
  by_cases hroom : i * arglen + (text.take arglen).length < nargs * arglen
  · rw [if_pos hroom, if_pos hroom, ok_bind]
  · rw [if_neg hroom, if_neg hroom]
    rfl

/-- All arguments are saved if the last row has room for its string. -/
theorem saveArgs_rows {argv : U64} (h : ∀ r text, texts[r]? = some text → ArgAt k c argv (i + r) text)
    (hlen : i + texts.length ≤ nargs) (hfit : ∀ text, texts[nargs - 1 - i]? = some text → text.length < arglen) :
    saveArgs k c argv texts.length i = .ok (true,{ k with argvBuf := saveRows k.argvBuf i texts }) := by
  induction texts generalizing k i with
  | nil => rfl
  | cons text texts ih =>
    rw [List.length_cons] at hlen ⊢
    have hroom : i * arglen + (text.take arglen).length < nargs * arglen := by
      rw [List.length_take]
      by_cases hi : i = nargs - 1
      · have := hfit text (by rw [hi, Nat.sub_self]; rfl)
        unfold nargs arglen at *
        omega
      · unfold nargs arglen at *
        omega
    have h0 : ArgAt k c argv i text := h 0 text rfl
    rw [saveArgs_succ h0, if_pos hroom]
    refine ih (fun r text' hr => ?_) (by omega) fun text' hr => ?_
    · have := h (r+1) text' hr
      rw [← Nat.add_assoc, Nat.add_right_comm] at this
      exact this.setBuf _
    · refine hfit text' ?_
      have hlt : nargs - 1 - (i+1) < texts.length := (List.getElem?_eq_some_iff.mp hr).1
      rw [show nargs - 1 - i = nargs - 1 - (i+1) + 1 by omega]
      exact hr

theorem saveArgs_over {argv : U64} (h : ∀ r text, texts[r]? = some text → ArgAt k c argv (i + r) text)
    (hi : i < nargs) (hr : texts[nargs - 1 - i]? = some text) (hover : arglen ≤ text.length) :
    saveArgs k c argv texts.length i = .error .outOfBounds := by
  induction texts generalizing k i with
  | nil => cases hr
  | cons text' texts ih =>
    have h0 : ArgAt k c argv i text' := h 0 text' rfl
    rw [List.length_cons, saveArgs_succ h0]
    by_cases hlast : i = nargs - 1
    · rw [hlast, Nat.sub_self] at hr
      cases hr
      refine if_neg ?_
      rw [List.length_take]
      unfold nargs arglen at *
      omega
    · split
      · refine ih (fun r text' hr => ?_) (by omega) ?_
        · have := h (r+1) text' hr
          rw [← Nat.add_assoc, Nat.add_right_comm] at this
          exact this.setBuf _
        · rwa [show nargs - 1 - i = nargs - 1 - (i+1) + 1 by omega] at hr
      · rfl

theorem saveRows_before {x : ℕ} (hx : x < i * arglen) : saveRows buf i texts x = buf x := by
  induction texts generalizing buf i with
  | nil => rfl
  | cons text texts ih =>
    rw [saveRows, ih (by rw [Nat.succ_mul]; omega), writeAt, if_neg (by omega)]

theorem saveRows_row (buf : ℕ → UInt8) (hr : texts[r]? = some text) (hj : j ≤ text.length) (hlt : j < arglen) :
    saveRows buf i texts ((i + r) * arglen + j) = text.getD j 0 := by
  induction texts generalizing buf i r with
  | nil => cases hr
  | cons text' texts ih =>
    rw [saveRows]
    cases r with
    | zero =>
      cases hr
      change saveRows _ (i+1) texts (i * arglen + j) = _
      rw [saveRows_before (by rw [Nat.succ_mul]; omega), writeAt, argRow, List.length_append,
        List.length_take, List.length_singleton, if_pos (by omega), Nat.add_sub_cancel_left]
      rcases hj.lt_or_eq with h | rfl
      · rw [List.getD_append _ _ _ _ (by rw [List.length_take]; omega)]
        simp [List.getD_eq_getElem?_getD,hlt]
      · rw [List.take_of_length_le hlt.le, List.getD_append_right _ _ _ _ le_rfl, Nat.sub_self]
        simp
    | succ r =>
      rw [show i + (r+1) = i + 1 + r by omega]
      exact ih _ hr

/-! ## The strings that `check_str` accepts -/

/-- Argument `i` passes `check_str`, and `text` is the string at its address. -/
structure Passes (k : Kernel) (c : Slot) (argv : U64) (i : ℕ) (text : List UInt8) : Prop where
  passed : ∃ bs arg, kloads k.phys (k.procs c).pgtbl (argv + BitVec.ofNat 64 (8 * i)) 8 = .ok bs ∧
    arg = BitVec.ofNat 64 (ofBytes bs) ∧
    checkStr k.phys (k.procs c).pPgtbl arg (BitVec.ofNat 64 arglen) pteU = .ok true ∧
    arg.toNat + text.length < userTop ∧ Str k.phys (k.procs c).pPgtbl pteU arg text.length ∧
    ∀ j (h : j < text.length), strByte k.phys (k.procs c).pPgtbl arg j = text[j]

theorem Pte.p_of_covers_u {e : Pte} (h : e.covers (pteU ||| pteP) = true) : e.p = true := by
  unfold Pte.covers at h
  have h1 : (e.flags &&& (pteU ||| pteP)).getLsbD 0 = (pteU ||| pteP).getLsbD 0 := by rw [beq_iff_eq.mp h]
  rw [BitVec.getLsbD_and] at h1
  simpa [Pte.p,pteU,pteP] using h1

theorem Space.kload_granted {kp t₂ : ℕ} {v : U64} (h : Space m kp t t₂) (hv : v.toNat < userTop)
    (hg : granted m t₂ pteU v.toNat = true) :
    kload m t v = .ok (m.data (lookup m t₂ v.toNat).frame (v.toNat % pgsize)) := by
  have hp : (lookup m t₂ v.toNat).p = true := Pte.p_of_covers_u hg
  have hkey : key 3 v.toNat < upages := by
    unfold key upages pgsize userTop at *
    omega
  have hag : (lookup m t v.toNat).Agree (lookup m t₂ v.toNat) := h.agree _ hkey
  have hp' : (lookup m t v.toNat).p = true := hag.1.trans hp
  have hf := (hag.2 hp).1
  obtain ⟨hdiv,hmod⟩ := frame_div (lookup m t₂ v.toNat).frame (o := v.toNat % pgsize) (Nat.mod_lt _ (by decide))
  rw [kload, if_neg (Nat.not_le.mpr hv), translate]
  simp only [hv,hp',and_self,↓reduceIte,Phys.byte,hdiv,hmod,hf]

/-- A string on pages that are granted in `p_pgtbl` can be read through `pgtbl`. -/
theorem Space.textAt {kp t₂ : ℕ} (h : Space m kp t t₂) (htop : src.toNat + text.length < userTop)
    (hstr : Str m t₂ pteU src text.length) (htext : ∀ j (h : j < text.length), strByte m t₂ src j = text[j]) :
    TextAt m t src text := by
  refine ⟨fun j hj => ?_,fun b hb => ?_⟩
  · have hv : (src + BitVec.ofNat 64 j).toNat = src.toNat + j := by
      rw [BitVec.toNat_add, BitVec.toNat_ofNat]
      unfold userTop at htop
      omega
    have hlt : src.toNat + j < 2^64 := by
      unfold userTop at htop
      omega
    have hg := hstr.pages j hj
    rw [granted, ← lookup_page, Nat.mod_eq_of_lt hlt] at hg
    rw [h.kload_granted (by omega) (by rw [hv]; exact hg), hv]
    rcases hj.lt_or_eq with hlt' | rfl
    · have := htext j hlt'
      rw [strByte, Nat.mod_eq_of_lt hlt] at this
      simp [this,hlt']
    · have := hstr.nul
      rw [strByte, Nat.mod_eq_of_lt hlt] at this
      simp [this]
  · obtain ⟨j,hj,rfl⟩ := List.getElem_of_mem hb
    rw [← htext j hj]
    exact hstr.text j hj

theorem Passes.argAt {argv : U64} (h : Passes k c argv i text) (hinv : KInv k) (hc : (k.procs c).state ≠ .close) :
    ArgAt k c argv i text := by
  obtain ⟨bs,arg,hbs,rfl,hcheck,htop,hstr,htext⟩ := h.passed
  exact ⟨bs,hbs,hcheck,(hinv.owned.mem.space c _ _ (spaces_some hc)).textAt htop hstr htext⟩

/-! ## What the new image finds -/

/-- A string and its zero in user memory. -/
def UserString (m : Phys) (t a : ℕ) (s : List UInt8) : Prop := ∀ j ≤ s.length, userLoad m t (a + j) = some (s.getD j 0)

/-- The new image of `c` has its arguments, each cut to 255 characters. -/
structure Delivered (k' : Kernel) (c : Slot) (argc : U64) (texts : List (List UInt8)) : Prop where
  rdi : (k'.procs c).context.rdi = argc
  rsi : (k'.procs c).context.rsi = BitVec.ofNat 64 (ustack - nargs * 8)
  pointers : ∀ i < nargs, ∀ b < 8,
    userLoad k'.phys (k'.procs c).pgtbl (ustack - nargs * 8 + (8 * i + b)) = (toBytes (uargs + 256 * i) 8)[b]?
  strings : ∀ i text, texts[i]? = some text →
    UserString k'.phys (k'.procs c).pgtbl (uargs + 256 * i) (text.take 255)

theorem userLoad_full {f v : ℕ} (he : entry m t (key 3 v) = .full f) (hv : v < userTop) :
    userLoad m t v = some (m.data f (v % pgsize)) := by
  have hl : lookup m t v = .full f := he
  obtain ⟨hdiv,hmod⟩ := frame_div f (o := v % pgsize) (Nat.mod_lt _ (by decide))
  rw [userLoad, hl]
  simp only [hv,Pte.full_covers,and_self,↓reduceIte,Pte.full_frame,Phys.byte,hdiv,hmod]

theorem Laid.argument {x : ℕ} {args : List UInt8} (h : Laid m t args) (hx : x < args.length) (hlt : x < pgsize) :
    userLoad m t (uargs + x) = some args[x] := by
  obtain ⟨f,he,hd⟩ := h.args
  have hkey : key 3 (uargs + x) = key 3 uargs := by
    unfold key uargs pgsize at *
    omega
  have hmod : (uargs + x) % pgsize = x := by
    unfold uargs pgsize at *
    omega
  have htop : uargs + x < userTop := by
    unfold uargs userTop pgsize at *
    omega
  rw [userLoad_full (hkey ▸ he) htop, hmod, hd x hlt, dif_pos hx]

theorem uargv_pointer : ∀ i < nargs, ∀ b < 8, uargv[8 * i + b]? = (toBytes (uargs + 256 * i) 8)[b]? := by
  decide

theorem Laid.pointer {b : ℕ} {args : List UInt8} (h : Laid m t args) (hi : i < nargs) (hb : b < 8) :
    userLoad m t (ustack - nargs * 8 + (8 * i + b)) = (toBytes (uargs + 256 * i) 8)[b]? := by
  obtain ⟨g,he,hd⟩ := h.argv
  have hlen : 8 * i + b < uargv.length := by
    rw [uargv_length]
    omega
  have hkey : key 3 (ustack - nargs * 8 + (8 * i + b)) = key 3 (ustack - pgsize) := by
    unfold key ustack nargs pgsize at *
    omega
  have hmod : (ustack - nargs * 8 + (8 * i + b)) % pgsize = pgsize - nargs * 8 + (8 * i + b) := by
    unfold ustack nargs pgsize at *
    omega
  have htop : ustack - nargs * 8 + (8 * i + b) < userTop := by
    unfold ustack userTop nargs at *
    omega
  rw [userLoad_full (hkey ▸ he) htop, hmod, hd _ hlen, ← List.getElem?_eq_getElem hlen]
  exact uargv_pointer i hi b hb

/-- The page at `0x1000` holds fifteen pointers to `0x1200`, where a zero is, and one to `0x1100`,
where 256 characters `a` stand. -/
def argPhys : Phys where
  tbl t i :=
    if t = 4 ∧ i = 1 then ⟨5,pteFlags⟩
    else if 1 ≤ t ∧ t < 4 ∧ i = 0 then ⟨t+1,pteFlags⟩
    else .zero
  data _ x :=
    if x < 120 ∧ x % 8 = 1 then 0x12
    else if x = 121 then 0x11
    else if 0x100 ≤ x ∧ x < 0x200 then 97
    else 0
  pipe _ := .zero
  ref _ := 1
  free := []
  nfreepages := 0
  usable _ := true
  endKmem := 0
  maxAddr := 0

def argKernel : Kernel :=
  { bootKernel 0 with phys := argPhys, procs := fun _ => { Proc.zero with pgtbl := 1, pPgtbl := 1 } }

theorem argKernel_short : ∀ i < 15, Passes argKernel firstSlot 0x1000 i [] := fun i hi => by
  refine ⟨[0,0x12,0,0,0,0,0,0],0x1200,eq_ok_of_toOption ?_,rfl,eq_ok_of_toOption (by decide +kernel),by decide,⟨?_,nofun,rfl⟩,
    nofun⟩
  · revert i
    decide +kernel
  · rintro j hj
    rw [Nat.le_zero.mp hj]
    rfl

theorem argKernel_long : Passes argKernel firstSlot 0x1000 15 (List.replicate 256 97) := by
  have hpages : ∀ j < 257, granted argKernel.phys 1 pteU (page 0x1100 (pageOf 0x1100 j)) = true := by decide +kernel
  have htext : ∀ j < 256, strByte argKernel.phys 1 0x1100 j = 97 := by decide +kernel
  have hlen : (List.replicate 256 (97 : UInt8)).length = 256 := List.length_replicate
  refine ⟨[0,0x11,0,0,0,0,0,0],0x1100,eq_ok_of_toOption (by decide +kernel),rfl,eq_ok_of_toOption (by decide +kernel),
    by decide +kernel,⟨fun j hj => ?_,fun j hj => ?_,by decide +kernel⟩,fun j hj => ?_⟩
  · exact hpages j (by omega)
  · rw [hlen] at hj
    exact (htext j hj).trans_ne (by decide)
  · rw [List.getElem_replicate]
    exact htext j (by omega)

theorem kload_of_userLoad {v : U64} {b : UInt8} (h : userLoad m t v.toNat = some b) : kload m t v = .ok b := by
  unfold userLoad at h
  simp only [Option.ite_none_right_eq_some,Option.some.injEq] at h
  obtain ⟨⟨hv,hc⟩,rfl⟩ := h
  rw [kload, if_neg (Nat.not_le.mpr hv), translate]
  simp only [hv,Pte.p_of_covers_u (e := lookup m t v.toNat) (by rwa [show pteU ||| pteP = pteP ||| pteU by decide]),
    and_self,↓reduceIte]

theorem kloads_of_kload {v : U64} (bs : List UInt8)
    (h : ∀ j (hj : j < bs.length), kload m t (v + BitVec.ofNat 64 j) = .ok bs[j]) : kloads m t v bs.length = .ok bs := by
  induction bs generalizing v with
  | nil => rfl
  | cons b bs ih =>
    have h0 := h 0 (Nat.succ_pos _)
    rw [show v + BitVec.ofNat 64 0 = v by simp] at h0
    rw [List.length_cons, kloads, h0, ih fun j hj => ?_]
    · rfl
    · have hadd : v + 1 + BitVec.ofNat 64 j = v + BitVec.ofNat 64 (j+1) := by
        rw [Nat.add_comm j 1, BitVec.ofNat_add, ← BitVec.add_assoc]
        rfl
      rw [hadd]
      exact h (j+1) (Nat.succ_lt_succ hj)

/-- A page that the user has in `pgtbl` is granted in `p_pgtbl`, on the same frame. -/
theorem Space.granted_full {kp t₂ f v : ℕ} (h : Space m kp t t₂) (hv : v < userTop)
    (he : entry m t (key 3 v) = .full f) : granted m t₂ pteU v = true ∧ (lookup m t₂ v).frame = f := by
  have hkey : key 3 v < upages := by
    unfold key upages pgsize userTop at *
    omega
  have hag : (entry m t (key 3 v)).Agree (entry m t₂ (key 3 v)) := h.agree _ hkey
  rw [he] at hag
  have hp : (entry m t₂ (key 3 v)).p = true := hag.1.symm.trans (Pte.full_p f)
  obtain ⟨hf,hfl,-⟩ := hag.2 hp
  refine ⟨?_,hf.symm⟩
  rw [granted, Pte.covers, show lookup m t₂ v = entry m t₂ (key 3 v) from rfl, hfl]
  decide

theorem loneKernel_passes {pwd : FileDesc} {a b : ℕ} (h : Sys (loneKernel m a b pwd) firstSlot) (hlaid : Laid m a []) :
    Passes (loneKernel m a b pwd) firstSlot (BitVec.ofNat 64 (ustack - nargs * 8)) 0 [] := by
  have hopen := h.open
  have hsp := h.inv.owned.mem.space firstSlot _ _ (spaces_some hopen)
  rw [loneKernel_self] at hsp
  obtain ⟨f,he,hd⟩ := hlaid.args
  obtain ⟨hg,hf⟩ := hsp.granted_full (v := uargs) (by decide) he
  have hpage : page (BitVec.ofNat 64 uargs) 0 = uargs := rfl
  have hbyte : strByte m b (BitVec.ofNat 64 uargs) 0 = 0 := by
    rw [strByte, show ((BitVec.ofNat 64 uargs).toNat + 0) % 2^64 = uargs from rfl]
    refine (congrArg (fun g => m.data g _) hf).trans ?_
    exact hd 0 (by decide)
  have hstr : Str m b pteU (BitVec.ofNat 64 uargs) 0 := by
    refine ⟨fun j hj => ?_,fun j hj => absurd hj (Nat.not_lt_zero j),hbyte⟩
    rw [Nat.le_zero.mp hj]
    exact hg
  refine ⟨toBytes uargs 8,BitVec.ofNat 64 uargs,?_,rfl,?_,by decide,?_,fun j hj => absurd hj (Nat.not_lt_zero j)⟩
  · rw [loneKernel_self]
    refine kloads_of_kload (toBytes uargs 8) fun j hj => ?_
    refine kload_of_userLoad ?_
    rw [toBytes_length] at hj
    have hp := hlaid.pointer (i := 0) (by decide) hj
    have hv : (BitVec.ofNat 64 (ustack - nargs * 8) + BitVec.ofNat 64 (8 * 0) + BitVec.ofNat 64 j).toNat =
        ustack - nargs * 8 + (8 * 0 + j) := by
      simp only [BitVec.toNat_add,BitVec.toNat_ofNat]
      unfold ustack nargs
      omega
    rw [hv]
    exact hp.trans (List.getElem?_eq_getElem _)
  · rw [loneKernel_self]
    have hnul : hasNul m b (BitVec.ofNat 64 uargs) 0 = true := hasNul_iff.mpr ⟨0,rfl,hbyte⟩
    refine (checkStr_true (checkStr_returns.mpr fun i hi hruns => ?_)).mpr ⟨0,by decide,hstr⟩
    rcases Nat.eq_zero_or_pos i with rfl | hpos
    · exact huge_of_present (Pte.p_of_covers_u hg)
    · have := (hruns 0 hpos).2
      rw [show (loneKernel m a b pwd).phys = m from rfl, show (loneProc a b pwd).pPgtbl = b from rfl, hnul] at this
      cases this
  · rw [loneKernel_self]
    exact hstr

end Ukern
