import Ukern.Lib.Emit
import Ukern.User.Printfmt

/-! # Integers in print

`printint` says the numeral of its number, behind the padding, and `get_precision` counts its digits. So the
directives for integers print a text from which the argument can be read again.
-/
namespace Ukern.Printf
open Ukern.Lib
variable {σ : Type} {put : Putch σ} {n base len fuel : ℕ} {buf buf' : Buf} {text : List UInt8} {w : U64} {c : UInt8}
  {flags fmt : List UInt8} {args : List Arg} {sp : Spec} {width : ℤ}

/-! ## Numerals -/

def digitChar (d : ℕ) : UInt8 := if 9 < d then UInt8.ofNat (d - 10 + 97) else UInt8.ofNat (d + 48)

/-- The numeral without leading zeros. -/
def numeral (base n : ℕ) : List UInt8 := if n = 0 then [48] else (Nat.digits base n).reverse.map digitChar

/-- The value of a digit. -/
def digitValue (base : ℕ) (c : UInt8) : Option ℕ :=
  let d := if 48 ≤ c ∧ c ≤ 57 then some (c.toNat - 48) else if 97 ≤ c ∧ c ≤ 102 then some (c.toNat - 87) else none
  d.filter (· < base)

/-- Reading a numeral. -/
def parse (base : ℕ) (text : List UInt8) : Option ℕ :=
  if text = [] then none else (text.mapM (digitValue base)).map (readDigits base)

theorem digitValue_digitChar {d : ℕ} (hd : d < base) (hb : base ≤ 16) : digitValue base (digitChar d) = some d := by
  have hall : ∀ d < 16, (if 48 ≤ digitChar d ∧ digitChar d ≤ 57 then some ((digitChar d).toNat - 48)
      else if 97 ≤ digitChar d ∧ digitChar d ≤ 102 then some ((digitChar d).toNat - 87) else none) = some d := by decide
  rw [digitValue, hall d (by omega), Option.filter_some, decide_eq_true hd]
  rfl

theorem mapM_digitChar {ds : List ℕ} (hds : ∀ d ∈ ds, d < base) (hb : base ≤ 16) :
    (ds.map digitChar).mapM (digitValue base) = some ds := by
  induction ds with
  | nil => rfl
  | cons d ds ih =>
    rw [List.map_cons, List.mapM_cons, digitValue_digitChar (hds d List.mem_cons_self) hb,
      ih fun e he => hds e (List.mem_cons_of_mem d he)]
    rfl

theorem parse_numeral (h2 : 2 ≤ base) (hb : base ≤ 16) (n : ℕ) : parse base (numeral base n) = some n := by
  by_cases hn : n = 0
  · subst hn
    have hzero : ([0].map digitChar).mapM (digitValue base) = some [0] := mapM_digitChar (by simp; omega) hb
    rw [numeral, if_pos rfl, parse, if_neg (by decide)]
    change ([digitChar 0].mapM (digitValue base)).map _ = _
    rw [← List.map_singleton, hzero]
    simp [readDigits]
  · have hne : (Nat.digits base n).reverse ≠ [] := by
      rw [ne_eq, List.reverse_eq_nil_iff]
      exact Nat.digits_ne_nil_iff_ne_zero.mpr hn
    rw [numeral, if_neg hn, parse, if_neg (by simpa using hne),
      mapM_digitChar (fun d hd => Nat.digits_lt_base (by omega) (List.mem_reverse.mp hd)) hb, Option.map_some,
      readDigits_digits]

theorem numeral_length (hn : n ≠ 0) : (numeral base n).length = (Nat.digits base n).length := by
  rw [numeral, if_neg hn, List.length_map, List.length_reverse]

theorem numeral_head (h2 : 2 ≤ base) (hb : base ≤ 16) (hn : n ≠ 0) : (numeral base n).head? ≠ some 48 := by
  rw [numeral, if_neg hn, List.head?_map, List.head?_reverse]
  intro hh
  obtain ⟨d,hd,hc⟩ := Option.map_eq_some_iff.mp hh
  have hlast := Nat.getLast_digit_ne_zero base hn
  have hmem := List.mem_of_getLast? hd
  have hlt := Nat.digits_lt_base (by omega) hmem
  have hd0 : d ≠ 0 := by
    rw [List.getLast?_eq_some_getLast (Nat.digits_ne_nil_iff_ne_zero.mpr hn)] at hd
    cases hd
    exact hlast
  have hall : ∀ d < 16, d ≠ 0 → digitChar d ≠ 48 := by decide
  exact hall d (by omega) hd0 hc

/-! ## `printint` and `get_precision` -/

/-- The bases of the two calls. -/
def IsBase (base : ℕ) : Prop := base = 10 ∨ base = 16

theorem IsBase.two_le (h : IsBase base) : 2 ≤ base := by
  rcases h with rfl | rfl <;> decide

theorem IsBase.le (h : IsBase base) : base ≤ 16 := by
  rcases h with rfl | rfl <;> decide

theorem IsBase.digits_length (h : IsBase base) (hn : n < 2^64) : (Nat.digits base n).length ≤ 20 := by
  rw [Nat.digits_length_le_iff h.two_le]
  have hpow : 2^64 ≤ base^20 := by
    rcases h with rfl | rfl <;> decide
  omega

theorem IsBase.numeral_length (h : IsBase base) (hn : n < 2^64) : (numeral base n).length ≤ 20 := by
  by_cases h0 : n = 0
  · rw [numeral, if_pos h0]
    decide
  · rw [Printf.numeral_length h0]
    exact h.digits_length hn

theorem map_update_length (buf : Buf) (len : ℕ) (c : UInt8) :
    (List.range len).map (Function.update buf len c) = (List.range len).map buf := by
  refine List.map_congr_left fun j hj => Function.update_of_ne ?_ _ _
  exact Nat.ne_of_lt (List.mem_range.mp hj)

theorem digitLoop_succ (hn : n ≠ 0) (hlen : len < bufSize) : digitLoop base (fuel+1) n len buf =
    digitLoop base fuel (n / base) (len+1) (Function.update buf len (digitChar (n % base))) := by
  rw [digitLoop, if_neg hn, storeAt, if_pos hlen, ok_bind, digitChar]
  split
  · rw [storeAt, if_pos hlen, ok_bind, Function.update_idem]
  · rw [ok_bind]

/-- The loop leaves the digits behind what the buffer had, the last one first. -/
theorem digitLoop_spec (h2 : 2 ≤ base) (fuel n len : ℕ) (buf : Buf) (hfuel : (Nat.digits base n).length < fuel)
    (hroom : len + (Nat.digits base n).length ≤ bufSize) :
    ∃ buf', digitLoop base fuel n len buf = .ok (len + (Nat.digits base n).length,buf') ∧
      (List.range (len + (Nat.digits base n).length)).map buf' =
        (List.range len).map buf ++ (Nat.digits base n).map digitChar := by
  induction fuel generalizing n len buf with
  | zero => omega
  | succ fuel ih =>
    by_cases hn : n = 0
    · subst hn
      rw [digitLoop, if_pos rfl]
      exact ⟨buf,by simp,by simp⟩
    · have hdigits := Nat.digits_def' h2 (Nat.pos_of_ne_zero hn)
      rw [hdigits, List.length_cons] at hfuel hroom
      have hlen : len < bufSize := by omega
      obtain ⟨buf',hrun,hmap⟩ := ih (n / base) (len + 1) (Function.update buf len (digitChar (n % base)))
        (by omega) (by omega)
      have hcount : len + 1 + (Nat.digits base (n / base)).length = len + (Nat.digits base n).length := by
        rw [hdigits, List.length_cons]
        omega
      refine ⟨buf',?_,?_⟩
      · rw [digitLoop_succ hn hlen, hrun, hcount]
      · rw [← hcount, hmap, List.range_succ, List.map_append, map_update_length, List.append_assoc, hdigits]
        simp

theorem fillBuf_spec (hb : IsBase base) (hn : n < 2^64) (buf : Buf) : ∃ buf',
    fillBuf n base buf = .ok ((numeral base n).length,buf') ∧
      (List.range (numeral base n).length).map buf' = numeral base n := by
  rw [fillBuf]
  by_cases h0 : n = 0
  · subst h0
    rw [if_pos rfl]
    refine ⟨Function.update buf 0 48,rfl,?_⟩
    simp [numeral]
  · have hle := hb.digits_length hn
    obtain ⟨buf',hrun,hmap⟩ := digitLoop_spec hb.two_le (bufSize + 1) n 0 buf
      (by unfold bufSize; omega) (by unfold bufSize; omega)
    rw [Nat.zero_add] at hrun hmap
    rw [if_neg h0, hrun, ok_bind, numeral_length h0]
    refine ⟨_,rfl,?_⟩
    rw [map_swapLoop, hmap, numeral, if_neg h0]
    simp

theorem printint_emits (put : Putch σ) (hb : IsBase base) (w : U64) (width : ℤ) (padc : UInt8) :
    Emits put (printint put w base width padc)
      (List.replicate (width - (numeral base w.toNat).length).toNat padc ++ numeral base w.toNat) := by
  intro buf
  obtain ⟨buf',hfill,hmap⟩ := fillBuf_spec hb w.isLt buf
  have hle := hb.numeral_length w.isLt
  have hstore : storeAt buf' (numeral base w.toNat).length 0 =
      .ok (Function.update buf' (numeral base w.toNat).length 0) := if_pos (by unfold bufSize; omega)
  refine ⟨Function.update buf' (numeral base w.toNat).length 0,fun s => ?_⟩
  have hpads : ∀ k s, (List.range k).foldlM (fun s _ => put s padc) s = (List.replicate k padc).foldlM put s := by
    intro k s
    rw [foldlM_speaks put (fun _ => padc), List.map_const', List.length_range]
  rw [printint, hfill, ok_bind]
  simp only [hstore,ok_bind]
  rw [hpads, List.foldlM_append, bind_assoc]
  congr 1
  funext s
  rw [foldlM_speaks put, map_update_length, hmap]

theorem precisionLoop_spec (h2 : 2 ≤ base) (hfuel : (Nat.digits base n).length < fuel) :
    precisionLoop base fuel n len = .ok (len + (Nat.digits base n).length) := by
  induction fuel generalizing n len with
  | zero => omega
  | succ fuel ih =>
    rw [precisionLoop]
    by_cases hn : n = 0
    · subst hn
      rw [if_pos rfl, Nat.digits_zero, List.length_nil, Nat.add_zero]
    · have hdigits := Nat.digits_def' h2 (Nat.pos_of_ne_zero hn)
      rw [hdigits, List.length_cons] at hfuel
      rw [if_neg hn, ih (by omega), hdigits, List.length_cons]
      congr 1
      omega

/-- The number that is printed for a signed argument. -/
def absU64 (w : U64) : U64 := if w.toInt < 0 then -w else w

theorem absU64_toNat (w : U64) : (absU64 w).toNat = w.toInt.natAbs := by
  have hlt := w.isLt
  have hint := BitVec.toInt_eq_toNat_cond w
  rw [absU64]
  by_cases hneg : w.toInt < 0
  · rw [if_pos hneg, BitVec.toNat_neg]
    split at hint
    · omega
    · omega
  · rw [if_neg hneg]
    split at hint
    · omega
    · omega

theorem getPrecision_eq (hb : IsBase base) (w : U64) (sign : Bool) :
    getPrecision w base sign = .ok (numeral base (if sign then absU64 w else w).toNat).length := by
  have hloop : ∀ w : U64, (if w = 0 then .ok 1 else precisionLoop base 65 w.toNat 0 : Except Fault ℕ) =
      .ok (numeral base w.toNat).length := by
    intro w
    by_cases hw : w = 0
    · rw [if_pos hw, hw]
      rfl
    · have hn : w.toNat ≠ 0 := fun hh => hw (BitVec.eq_of_toNat_eq hh)
      have hle := hb.digits_length w.isLt
      rw [if_neg hw, precisionLoop_spec hb.two_le (by omega), numeral_length hn, Nat.zero_add]
  rw [getPrecision, hloop]
  cases sign <;> simp [absU64]

/-! ## The directives -/

/-- The characters between `%` and the directive. -/
def Flags (flags : List UInt8) : Prop := ∀ f ∈ flags, f = '0'.toUInt8 ∨ f = 'l'.toUInt8

def specOf (flags : List UInt8) : Spec :=
  ⟨flags.contains 'l'.toUInt8,-1,if flags.contains '0'.toUInt8 then '0'.toUInt8 else 32⟩

theorem formatLoop_flags (hf : Flags flags) (sp : Spec) (buf : Buf) (s : σ) :
    formatLoop put (some sp) (flags ++ fmt) args buf s =
      formatLoop put (some ⟨sp.long || flags.contains 'l'.toUInt8,sp.width,
        if flags.contains '0'.toUInt8 then '0'.toUInt8 else sp.padc⟩) fmt args buf s := by
  induction flags generalizing sp with
  | nil => simp
  | cons f flags ih =>
    have ih := fun sp => ih (fun g hg => hf g (List.mem_cons_of_mem f hg)) sp
    rw [List.cons_append, formatLoop]
    rcases hf f List.mem_cons_self with rfl | rfl
    · rw [if_pos rfl, ih]
      congr 3
      simp
    · rw [if_neg (by decide), if_pos rfl, ih]
      congr 3
      simp

theorem directive_speaks {a : Arg} {f : Buf → σ → Except Fault (Buf × σ)} (hf : Flags flags) (h0 : c ≠ '0'.toUInt8)
    (hl : c ≠ 'l'.toUInt8) (hconv : ∀ buf s, convert put c (specOf flags) (a :: args) buf s =
      f buf s >>= fun r => .ok (args,r)) (he : Emits put f text) (fmt : List UInt8) :
    Says put (vprintfmt put (37 :: (flags ++ c :: fmt)) (a :: args)) text (vprintfmt put fmt args) := by
  have heq : vprintfmt put (37 :: (flags ++ c :: fmt)) (a :: args) =
      fun buf s => f buf s >>= fun r => vprintfmt put fmt args r.1 r.2 := by
    funext buf s
    have hspec : (⟨Spec.init.long || flags.contains 'l'.toUInt8,Spec.init.width,
        if flags.contains '0'.toUInt8 then '0'.toUInt8 else Spec.init.padc⟩ : Spec) = specOf flags := by
      rw [specOf, Spec.init, Bool.false_or]
    rw [vprintfmt, formatLoop, if_pos (by decide), formatLoop_flags hf, hspec, formatLoop, if_neg h0, if_neg hl, hconv,
      bind_assoc]
    rfl
  rw [heq]
  exact he.bind

theorem widthOr_unsigned (hb : IsBase base) (w : U64) :
    widthOr (-1) w base false = .ok ((numeral base w.toNat).length : ℤ) := by
  rw [widthOr, if_pos rfl, getPrecision_eq hb]
  rfl

theorem widthOr_signed (hb : IsBase base) (w : U64) :
    widthOr (-1) w base true = .ok ((numeral base (absU64 w).toNat).length : ℤ) := by
  rw [widthOr, if_pos rfl, getPrecision_eq hb]
  rfl

/-- The argument of an unsigned directive. -/
def unsignedArg (flags : List UInt8) (w : U64) : ℕ :=
  if flags.contains 'l'.toUInt8 then w.toNat else w.toNat % 2^32

/-- The argument of a signed directive. -/
def signedArg (flags : List UInt8) (w : U64) : ℤ :=
  if flags.contains 'l'.toUInt8 then w.toInt else (w.setWidth 32).toInt

theorem printUnsigned_emits (hb : IsBase base) (flags : List UInt8) (w : U64) :
    Emits put (printUnsigned base put (specOf flags) w) (numeral base (unsignedArg flags w)) := by
  have hnum : (if (specOf flags).long then w else low32 w).toNat = unsignedArg flags w := by
    change (if flags.contains 'l'.toUInt8 then w else low32 w).toNat = _
    rw [unsignedArg]
    split
    · rfl
    · rw [low32, BitVec.toNat_setWidth, BitVec.toNat_setWidth]
      omega
  generalize hx : (if (specOf flags).long then w else low32 w) = x at hnum
  have he := printint_emits put hb x (numeral base (unsignedArg flags w)).length (specOf flags).padc
  rw [hnum, Int.sub_self] at he
  have heq : printUnsigned base put (specOf flags) w =
      printint put x base (numeral base (unsignedArg flags w)).length (specOf flags).padc := by
    funext buf s
    have hw : (specOf flags).width = -1 := rfl
    rw [printUnsigned, hx, hw, widthOr_unsigned hb, ok_bind, hnum]
  rw [heq]
  exact he

/-- The text of a signed number. -/
def signedNumeral (i : ℤ) : List UInt8 := if i < 0 then 45 :: numeral 10 i.natAbs else numeral 10 i.natAbs

theorem low32s_toInt (w : U64) : (low32s w).toInt = (w.setWidth 32).toInt := by
  rw [low32s, BitVec.toInt_signExtend_of_le (by decide)]

theorem printD_emits (flags : List UInt8) (w : U64) :
    Emits put (printD put (specOf flags) w) (signedNumeral (signedArg flags w)) := by
  have hint : (if (specOf flags).long then w else low32s w).toInt = signedArg flags w := by
    change (if flags.contains 'l'.toUInt8 then w else low32s w).toInt = _
    rw [signedArg]
    split
    · rfl
    · exact low32s_toInt w
  have hb : IsBase 10 := .inl rfl
  have hw : (specOf flags).width = -1 := rfl
  have habs := absU64_toNat (if (specOf flags).long then w else low32s w)
  rw [hint] at habs
  generalize hx : (if (specOf flags).long then w else low32s w) = x at hint habs
  by_cases hneg : signedArg flags w < 0
  · have hax : absU64 x = -x := if_pos (by rw [hint]; exact hneg)
    have he := printint_emits put hb (-x) ((numeral 10 (signedArg flags w).natAbs).length - 1) (specOf flags).padc
    have hpad : (((numeral 10 (signedArg flags w).natAbs).length : ℤ) - 1 -
        (numeral 10 (signedArg flags w).natAbs).length).toNat = 0 := by omega
    rw [← hax, habs, hpad] at he
    have heq : printD put (specOf flags) w = fun buf s => put s 45 >>= fun s => printint put (absU64 x) 10
        ((numeral 10 (signedArg flags w).natAbs).length - 1) (specOf flags).padc buf s := by
      funext buf s
      rw [printD, hx, hw, widthOr_signed hb, ok_bind, hint, if_pos hneg, habs, hax]
    rw [heq, signedNumeral, if_pos hneg]
    exact (says_put (g := fun buf s => printint put (absU64 x) 10
      ((numeral 10 (signedArg flags w).natAbs).length - 1) (specOf flags).padc buf s)).trans he
  · have hax : absU64 x = x := if_neg (by rw [hint]; exact hneg)
    have he := printint_emits put hb x (numeral 10 (signedArg flags w).natAbs).length (specOf flags).padc
    rw [← hax, habs, Int.sub_self] at he
    have heq : printD put (specOf flags) w = printint put (absU64 x) 10
        (numeral 10 (signedArg flags w).natAbs).length (specOf flags).padc := by
      funext buf s
      rw [printD, hx, hw, widthOr_signed hb, ok_bind, hint, if_neg hneg, habs, hax]
    rw [heq, signedNumeral, if_neg hneg]
    exact he

/-- Integers are printed as their canonical numerals. -/
theorem integers_printed_canonically :
    (∀ (σ : Type) (put : Putch σ) (n : U64) (base : ℕ) (width : ℤ) (padc : UInt8), IsBase base →
      ∃ len, getPrecision n base false = .ok len ∧ len < bufSize ∧ (numeral base n.toNat).length = len ∧
        Emits put (printint put n base width padc)
          (List.replicate (max 0 (width - len)).toNat padc ++ numeral base n.toNat)) ∧
    (∀ base n, IsBase base → parse base (numeral base n) = some n ∧ (n ≠ 0 → (numeral base n).head? ≠ some 48)) ∧
    ∀ (σ : Type) (put : Putch σ) (flags fmt : List UInt8) (w : U64) (args : List Arg), Flags flags →
      Says put (vprintfmt put (37 :: (flags ++ 'u'.toUInt8 :: fmt)) (.int w :: args))
        (numeral 10 (unsignedArg flags w)) (vprintfmt put fmt args) ∧
      Says put (vprintfmt put (37 :: (flags ++ 'x'.toUInt8 :: fmt)) (.int w :: args))
        (numeral 16 (unsignedArg flags w)) (vprintfmt put fmt args) ∧
      Says put (vprintfmt put (37 :: (flags ++ 'd'.toUInt8 :: fmt)) (.int w :: args))
        (signedNumeral (signedArg flags w)) (vprintfmt put fmt args) := by
  refine ⟨fun σ put n base width padc hb => ?_,fun base n hb => ?_,fun σ put flags fmt w args hf => ⟨?_,?_,?_⟩⟩
  · have hle := hb.numeral_length n.isLt
    refine ⟨_,getPrecision_eq hb n false,?_,rfl,?_⟩
    · change (numeral base n.toNat).length < bufSize
      unfold bufSize
      omega
    · have he := printint_emits put hb n width padc
      have hmax : ∀ i : ℤ, (max 0 i).toNat = i.toNat := by omega
      rw [hmax]
      exact he
  · exact ⟨parse_numeral hb.two_le hb.le n,numeral_head hb.two_le hb.le⟩
  · exact directive_speaks hf (by decide) (by decide) (fun _ _ => rfl) (printUnsigned_emits (.inl rfl) flags w) fmt
  · exact directive_speaks hf (by decide) (by decide) (fun _ _ => rfl) (printUnsigned_emits (.inr rfl) flags w) fmt
  · exact directive_speaks hf (by decide) (by decide) (fun _ _ => rfl) (printD_emits flags w) fmt

example : signedNumeral (signedArg ['l'.toUInt8] (BitVec.intMin 64)) =
    "-9223372036854775808".toList.map Char.toUInt8 := by decide +kernel

end Ukern.Printf
