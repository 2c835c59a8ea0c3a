import Ukern.User.Numeral

/-! # Fractions in print

The directive `f` prints the integer part and then the millionths as an integer without its zeros at the end,
filled up to the length of the integer part. The zeros that stand in front of the millionths are lost, so the
place value is right only where none are missing, or where the filling puts them back.
-/
namespace Ukern.Printf
open Ukern.Lib
variable {σ : Type} {put : Putch σ} {a k m n z fuel : ℕ} {x : ℚ} {padc : UInt8} {flags fmt text : List UInt8} {args : List Arg}

/-! ## What is printed -/

/-- The integer part of the argument, and the millionths behind it. -/
def intPart (x : ℚ) : ℕ := ⌊x⌋.toNat
def millionths (x : ℚ) : ℕ := ⌊(x - intPart x) * 1000000⌋.toNat

/-- The zeros at the end of a decimal numeral. -/
def trailingZeros (k : ℕ) : ℕ := ((Nat.digits 10 k).takeWhile (· = 0)).length

def stripped (k : ℕ) : ℕ := k / 10^trailingZeros k

theorem trailingZeros_spec (hn : n % 10 ≠ 0) (z : ℕ) : trailingZeros (10^z * n) = z ∧ stripped (10^z * n) = n := by
  have hpos : 0 < n := Nat.pos_of_ne_zero fun h0 => hn (by rw [h0])
  have hz : trailingZeros (10^z * n) = z := by
    rw [trailingZeros, Nat.digits_base_pow_mul (by decide) hpos, Nat.digits_def' (by decide) hpos]
    rw [List.takeWhile_append_of_pos (by simp), List.takeWhile_cons_of_neg (by simpa using hn)]
    simp
  refine ⟨hz,?_⟩
  rw [stripped, hz, Nat.mul_div_cancel_left _ (Nat.pow_pos (by decide))]

/-- Every number is a power of ten and something that does not end in a zero. -/
theorem exists_stripped (hk : k ≠ 0) : ∃ z n, k = 10^z * n ∧ n % 10 ≠ 0 := by
  induction k using Nat.strongRecOn with
  | ind k ih =>
    by_cases h0 : k % 10 = 0
    · obtain ⟨z,n,hkn,hn⟩ := ih (k / 10) (by omega) (by omega)
      refine ⟨z+1,n,?_,hn⟩
      rw [Nat.pow_succ', Nat.mul_assoc, ← hkn]
      omega
    · exact ⟨0,k,by simp,h0⟩

theorem stripZeros_mul (hn : n % 10 ≠ 0) (hz : z < fuel) : stripZeros fuel (10^z * n) = .ok n := by
  induction z generalizing fuel with
  | zero =>
    obtain ⟨fuel,rfl⟩ := Nat.exists_eq_succ_of_ne_zero (Nat.ne_of_gt hz)
    rw [Nat.pow_zero, Nat.one_mul, stripZeros, if_neg hn]
  | succ z ih =>
    obtain ⟨fuel,rfl⟩ := Nat.exists_eq_succ_of_ne_zero (Nat.ne_of_gt (Nat.lt_of_le_of_lt (Nat.zero_le _) hz))
    have hdiv : 10^(z+1) * n = 10 * (10^z * n) := by rw [Nat.pow_succ', Nat.mul_assoc]
    rw [hdiv, stripZeros, if_pos (Nat.mul_mod_right ..), Nat.mul_div_cancel_left _ (by decide), ih (by omega)]

theorem stripZeros_eq (hk : k ≠ 0) (hlt : k < 2^64) : stripZeros 20 k = .ok (stripped k) := by
  obtain ⟨z,n,rfl,hn⟩ := exists_stripped hk
  rw [(trailingZeros_spec hn z).2]
  refine stripZeros_mul hn ?_
  by_contra hge
  have hpow : 10^20 ≤ 10^z := Nat.pow_le_pow_right (by decide) (by omega)
  have hle : 10^z ≤ 10^z * n := Nat.le_mul_of_pos_right _ (Nat.pos_of_ne_zero fun h0 => hn (by rw [h0]))
  omega

def padcOf (flags : List UInt8) : UInt8 := if flags.contains '0'.toUInt8 then '0'.toUInt8 else 32

/-- What stands behind the point. -/
def fractionDigits (padc : UInt8) (a k : ℕ) : List UInt8 :=
  List.replicate ((numeral 10 a).length - (numeral 10 (stripped k)).length) padc ++ numeral 10 (stripped k)

def fractionText (padc : UInt8) (a k : ℕ) : List UInt8 :=
  numeral 10 a ++ if k = 0 then [] else 46 :: fractionDigits padc a k

theorem truncU64_eq (h0 : 0 ≤ x) (h1 : x < 2^64) : truncU64 x = .ok (BitVec.ofNat 64 ⌊x⌋.toNat) ∧ ⌊x⌋.toNat < 2^64 := by
  refine ⟨if_pos ⟨by linarith,h1⟩,?_⟩
  have hfloor : ⌊x⌋ < 2^64 := Int.floor_lt.mpr (by exact_mod_cast h1)
  have hnonneg : 0 ≤ ⌊x⌋ := Int.floor_nonneg.mpr h0
  omega

theorem intPart_cast (h0 : 0 ≤ x) : (intPart x : ℚ) = ⌊x⌋ := by
  have hnonneg : 0 ≤ ⌊x⌋ := Int.floor_nonneg.mpr h0
  rw [intPart]
  exact_mod_cast Int.toNat_of_nonneg hnonneg

theorem rest_bounds (h0 : 0 ≤ x) : 0 ≤ (x - intPart x) * 1000000 ∧ (x - intPart x) * 1000000 < 1000000 := by
  rw [intPart_cast h0]
  have hle := Int.floor_le x
  have hlt := Int.lt_floor_add_one x
  constructor
  · nlinarith
  · nlinarith

theorem millionths_lt (h0 : 0 ≤ x) : millionths x < 1000000 := by
  obtain ⟨hpos,hlt⟩ := rest_bounds h0
  have hfloor : ⌊(x - intPart x) * 1000000⌋ < 1000000 := Int.floor_lt.mpr (by exact_mod_cast hlt)
  have hnonneg : 0 ≤ ⌊(x - intPart x) * 1000000⌋ := Int.floor_nonneg.mpr hpos
  rw [millionths]
  omega

theorem toNat_ofNat64 (hn : n < 2^64) : (BitVec.ofNat 64 n).toNat = n := by
  rw [BitVec.toNat_ofNat, Nat.mod_eq_of_lt hn]

theorem fraction_emits (put : Putch σ) (padc : UInt8) (a : ℕ) (hk : k < 2^64) :
    Emits put (fun buf s => if BitVec.ofNat 64 k = 0 then .ok (buf,s) else do
      let num := BitVec.ofNat 64 (← stripZeros 20 (BitVec.ofNat 64 k).toNat)
      let s ← put s 46
      let width ← widthOr (numeral 10 a).length num 10 false
      printint put num 10 width padc buf s) (if k = 0 then [] else 46 :: fractionDigits padc a k) := by
  have h0 : BitVec.ofNat 64 k = 0 ↔ k = 0 := by
    rw [← BitVec.toNat_inj, toNat_ofNat64 hk]
    rfl
  by_cases hk0 : k = 0
  · rw [if_pos hk0]
    simp only [h0.mpr hk0,↓reduceIte]
    exact Says.refl
  · have hstrip : stripped k < 2^64 := Nat.lt_of_le_of_lt (Nat.div_le_self ..) hk
    have hwidth : ∀ num, widthOr (numeral 10 a).length num 10 false = .ok ((numeral 10 a).length : ℤ) := fun num =>
      if_neg (by omega)
    have he := printint_emits put (.inl rfl) (BitVec.ofNat 64 (stripped k)) (numeral 10 a).length padc
    rw [toNat_ofNat64 hstrip, Int.toNat_sub] at he
    rw [if_neg hk0]
    simp only [mt h0.mp hk0,↓reduceIte,toNat_ofNat64 hk,stripZeros_eq hk0 hk,ok_bind,hwidth]
    exact (says_put (g := fun buf s =>
      printint put (BitVec.ofNat 64 (stripped k)) 10 (numeral 10 a).length padc buf s)).trans he

theorem printF_emits (h0 : 0 ≤ x) (h1 : x < 2^64) (flags : List UInt8) :
    Emits put (printF put (specOf flags) x) (fractionText (padcOf flags) (intPart x) (millionths x)) := by
  obtain ⟨ha,halt⟩ : truncU64 x = .ok (BitVec.ofNat 64 (intPart x)) ∧ intPart x < 2^64 := truncU64_eq h0 h1
  obtain ⟨hpos,hlt⟩ := rest_bounds h0
  obtain ⟨hk,hklt⟩ := truncU64_eq hpos (hlt.trans (by norm_num))
  have he := printint_emits put (.inl rfl) (BitVec.ofNat 64 (intPart x)) (numeral 10 (intPart x)).length (padcOf flags)
  rw [toNat_ofNat64 halt, Int.sub_self] at he
  have hw : (specOf flags).width = -1 := rfl
  have hp : (specOf flags).padc = padcOf flags := rfl
  have heq : printF put (specOf flags) x = fun buf s =>
      printint put (BitVec.ofNat 64 (intPart x)) 10 (numeral 10 (intPart x)).length (padcOf flags) buf s >>= fun r =>
        (fun buf s => if BitVec.ofNat 64 (millionths x) = 0 then .ok (buf,s) else do
          let num := BitVec.ofNat 64 (← stripZeros 20 (BitVec.ofNat 64 (millionths x)).toNat)
          let s ← put s 46
          let width ← widthOr (numeral 10 (intPart x)).length num 10 false
          printint put num 10 width (padcOf flags) buf s) r.1 r.2 := by
    funext buf s
    rw [printF, ha, ok_bind, hw, widthOr_unsigned (.inl rfl), ok_bind, toNat_ofNat64 halt, hp]
    congr 1
    funext r
    change (truncU64 ((x - intPart x) * 1000000) >>= _) = _
    rw [hk, ok_bind]
    rfl
  rw [heq]
  exact he.bind.trans (fraction_emits put (padcOf flags) (intPart x) hklt)

/-! ## Whether it has the value -/

/-- The numeral of `a`, and behind it, if `k` is not 0, a point and digits that denote `k` millionths. -/
structure FractionExact (text : List UInt8) (a k : ℕ) : Prop where
  whole : k = 0 → text = numeral 10 a
  point : k ≠ 0 → ∃ ds v, text = numeral 10 a ++ 46 :: ds ∧ parse 10 ds = some v ∧ v * 10^6 = k * 10^ds.length

/-- No zero of the millionths is missing behind the point: they have six digits and the integer part is not longer
than what is left of them, or the filling is of zeros and makes up for those that were taken away. -/
def FractionFits (padc : UInt8) (a k : ℕ) : Prop :=
  k = 0 ∨ (100000 ≤ k ∧ (numeral 10 a).length + trailingZeros k ≤ 6) ∨
    (padc = '0'.toUInt8 ∧ (numeral 10 a).length + trailingZeros k = 6)

theorem parse_zeros (m n : ℕ) : parse 10 (List.replicate m 48 ++ numeral 10 n) = some n := by
  have hparse : parse 10 (numeral 10 n) = some n := parse_numeral (by decide) (by decide) n
  induction m with
  | zero => exact hparse
  | succ m ih =>
    have hne : List.replicate m 48 ++ numeral 10 n ≠ [] := by
      intro hnil
      rw [hnil] at ih
      cases ih
    rw [parse, if_neg hne] at ih
    obtain ⟨ds,hds,hread⟩ := Option.map_eq_some_iff.mp ih
    rw [List.replicate_succ, List.cons_append, parse, if_neg (List.cons_ne_nil _ _), List.mapM_cons, hds]
    have hzero : digitValue 10 48 = some 0 := by decide
    rw [hzero]
    change some (readDigits 10 (0 :: ds)) = _
    rw [readDigits, List.foldl_cons]
    exact congrArg some hread

theorem parse_blank (hm : m ≠ 0) (y : List UInt8) : parse 10 (List.replicate m 32 ++ y) = none := by
  obtain ⟨m,rfl⟩ := Nat.exists_eq_succ_of_ne_zero hm
  have hblank : digitValue 10 32 = none := by decide
  rw [List.replicate_succ, List.cons_append, parse, if_neg (List.cons_ne_nil _ _), List.mapM_cons, hblank]
  rfl

theorem length_pow_mul (hn : n % 10 ≠ 0) (z : ℕ) : (Nat.digits 10 (10^z * n)).length = z + (numeral 10 n).length := by
  have hn0 : n ≠ 0 := fun h0 => hn (by rw [h0])
  rw [Nat.digits_base_pow_mul (by decide) (Nat.pos_of_ne_zero hn0), List.length_append, List.length_replicate,
    numeral_length hn0]

theorem fractionDigits_length (padc : UInt8) (a k : ℕ) :
    (fractionDigits padc a k).length = max (numeral 10 a).length (numeral 10 (stripped k)).length := by
  rw [fractionDigits, List.length_append, List.length_replicate]
  omega

theorem parse_fractionDigits (hpad : padc = '0'.toUInt8 ∨ padc = 32) (a k : ℕ) : parse 10 (fractionDigits padc a k) =
    if padc = '0'.toUInt8 ∨ (numeral 10 a).length ≤ (numeral 10 (stripped k)).length then some (stripped k) else none := by
  rw [fractionDigits]
  by_cases hle : (numeral 10 a).length ≤ (numeral 10 (stripped k)).length
  · have hzeros := parse_zeros 0 (stripped k)
    rw [if_pos (.inr hle), Nat.sub_eq_zero_of_le hle]
    exact hzeros
  · rcases hpad with rfl | rfl
    · rw [if_pos (.inl rfl)]
      exact parse_zeros _ _
    · rw [if_neg (by simp [hle]; decide)]
      exact parse_blank (by omega) _

/-- The digits denote the millionths if together with the zeros that were taken away they are six. -/
theorem value_iff (hn : n ≠ 0) (l : ℕ) : n * 10^6 = 10^z * n * 10^l ↔ l + z = 6 := by
  have hpow : 10^z * n * 10^l = n * 10^(l + z) := by
    rw [Nat.pow_add]
    ring
  rw [hpow, Nat.mul_right_inj hn, Nat.pow_right_inj (by decide)]
  exact eq_comm

theorem fits_iff {la ln z K : ℕ} {q : Prop} (h0 : K ≠ 0) (hsix : z + ln ≤ 6) (hfive : 5 < z + ln ↔ 10^5 ≤ K) :
    (q ∨ la ≤ ln) ∧ max la ln + z = 6 ↔ K = 0 ∨ (100000 ≤ K ∧ la + z ≤ 6) ∨ (q ∧ la + z = 6) := by
  by_cases hq : q
  · simp only [hq,true_or,true_and]
    omega
  · simp only [hq,false_or,false_and,or_false]
    omega

theorem fractionExact_iff (hpad : padc = '0'.toUInt8 ∨ padc = 32) (hk : k < 1000000) :
    FractionExact (fractionText padc a k) a k ↔ FractionFits padc a k := by
  by_cases hk0 : k = 0
  · refine iff_of_true ⟨fun _ => ?_,fun hne => absurd hk0 hne⟩ (.inl hk0)
    rw [fractionText, if_pos hk0, List.append_nil]
  · have htext : fractionText padc a k = numeral 10 a ++ 46 :: fractionDigits padc a k := by
      rw [fractionText, if_neg hk0]
    have hexact : FractionExact (fractionText padc a k) a k ↔
        ∃ v, parse 10 (fractionDigits padc a k) = some v ∧ v * 10^6 = k * 10^(fractionDigits padc a k).length := by
      rw [htext]
      constructor
      · intro h
        obtain ⟨ds,v,hds,hv⟩ := h.point hk0
        have heq := List.cons.inj (List.append_cancel_left hds)
        rw [heq.2]
        exact ⟨v,hv⟩
      · rintro ⟨v,hv⟩
        exact ⟨fun h => absurd h hk0,fun _ => ⟨_,v,rfl,hv⟩⟩
    obtain ⟨z,n,rfl,hn⟩ := exists_stripped hk0
    obtain ⟨hz,hs⟩ := trailingZeros_spec hn z
    have hn0 : n ≠ 0 := fun h0 => hn (by rw [h0])
    have hlen := length_pow_mul hn z
    have hsix := (Nat.digits_length_le_iff (show 1 < 10 by decide) (k := 6) (10^z * n)).mpr (by omega)
    have hfive := Nat.lt_digits_length_iff (show 1 < 10 by decide) (k := 5) (10^z * n)
    rw [hlen] at hsix hfive
    rw [hexact, parse_fractionDigits hpad, fractionDigits_length, FractionFits, hz, hs]
    rw [← fits_iff hk0 hsix hfive, ← value_iff hn0]
    by_cases hread : padc = '0'.toUInt8 ∨ (numeral 10 a).length ≤ (numeral 10 n).length
    · rw [if_pos hread, and_iff_right hread]
      constructor
      · rintro ⟨v,hv,heq⟩
        cases hv
        exact heq
      · intro heq
        exact ⟨n,rfl,heq⟩
    · rw [if_neg hread]
      exact iff_of_false (fun ⟨v,hv,_⟩ => nomatch hv) fun hh => hread hh.1

theorem numeral_ne_point {c : UInt8} (hc : c ∈ numeral 10 n) : c ≠ 46 := by
  rw [numeral] at hc
  split at hc
  · rw [List.mem_singleton.mp hc]
    decide
  · obtain ⟨d,hd,rfl⟩ := List.mem_map.mp hc
    have hall : ∀ d < 10, digitChar d ≠ 46 := by decide
    exact hall d (Nat.digits_lt_base (by decide) (List.mem_reverse.mp hd))

theorem FractionExact.takeWhile (h : FractionExact text a k) : text.takeWhile (· ≠ 46) = numeral 10 a := by
  have hall : ∀ c ∈ numeral 10 a, (decide (c ≠ 46)) = true := fun c hc => decide_eq_true (numeral_ne_point hc)
  by_cases hk : k = 0
  · rw [h.whole hk]
    rw [← List.append_nil (numeral 10 a), List.takeWhile_append_of_pos hall]
    rfl
  · obtain ⟨ds,v,htext,-⟩ := h.point hk
    rw [htext, List.takeWhile_append_of_pos hall, List.takeWhile_cons_of_neg (by decide), List.append_nil]

theorem FractionExact.inj {a' k' : ℕ} (h : FractionExact text a k) (h' : FractionExact text a' k') : a = a' ∧ k = k' := by
  have ha : a = a' := by
    have hread : parse 10 (numeral 10 a) = some a := parse_numeral (by decide) (by decide) a
    rw [← h.takeWhile, h'.takeWhile, parse_numeral (by decide) (by decide)] at hread
    exact (Option.some.inj hread).symm
  subst ha
  refine ⟨rfl,?_⟩
  by_cases hk : k = 0
  · by_cases hk' : k' = 0
    · rw [hk, hk']
    · obtain ⟨ds,v,htext,-⟩ := h'.point hk'
      rw [h.whole hk] at htext
      exact absurd (congrArg List.length htext) (by simp)
  · obtain ⟨ds,v,htext,hv,hval⟩ := h.point hk
    by_cases hk' : k' = 0
    · rw [h'.whole hk'] at htext
      exact absurd (congrArg List.length htext) (by simp)
    · obtain ⟨ds',v',htext',hv',hval'⟩ := h'.point hk'
      rw [htext] at htext'
      have hds := (List.cons.inj (List.append_cancel_left htext')).2
      subst hds
      rw [hv] at hv'
      cases hv'
      exact Nat.eq_of_mul_eq_mul_right (Nat.pow_pos (by decide)) (hval.symm.trans hval')

theorem padcOf_cases (flags : List UInt8) : padcOf flags = '0'.toUInt8 ∨ padcOf flags = 32 := by
  rw [padcOf]
  split
  · exact .inl rfl
  · exact .inr rfl

/-- What `%f` prints, when it has the value of the argument, and that it is then the text of this value only. -/
theorem fraction_printed_iff (flags : List UInt8) :
    (∀ x, 0 ≤ x → x < 2^64 → Flags flags →
      (∀ (σ : Type) (put : Putch σ) (fmt : List UInt8) (args : List Arg),
        Says put (vprintfmt put (37 :: (flags ++ 'f'.toUInt8 :: fmt)) (.dbl x :: args))
          (fractionText (padcOf flags) (intPart x) (millionths x)) (vprintfmt put fmt args)) ∧
      (FractionExact (fractionText (padcOf flags) (intPart x) (millionths x)) (intPart x) (millionths x) ↔
        FractionFits (padcOf flags) (intPart x) (millionths x))) ∧
    ∀ x y, 0 ≤ x → 0 ≤ y → FractionFits (padcOf flags) (intPart x) (millionths x) →
      FractionFits (padcOf flags) (intPart y) (millionths y) →
      (intPart x,millionths x) ≠ (intPart y,millionths y) →
      fractionText (padcOf flags) (intPart x) (millionths x) ≠ fractionText (padcOf flags) (intPart y) (millionths y) := by
  refine ⟨fun x h0 h1 hf => ⟨fun σ put fmt args => ?_,?_⟩,fun x y hx hy hfx hfy hne heq => ?_⟩
  · exact directive_speaks hf (by decide) (by decide) (fun _ _ => rfl) (printF_emits h0 h1 flags) fmt
  · exact fractionExact_iff (padcOf_cases flags) (millionths_lt h0)
  · have hex := (fractionExact_iff (padcOf_cases flags) (millionths_lt hx)).mpr hfx
    have hey := (fractionExact_iff (padcOf_cases flags) (millionths_lt hy)).mpr hfy
    rw [← heq] at hey
    obtain ⟨ha,hk⟩ := hex.inj hey
    exact hne (Prod.ext ha hk)

/-- A twentieth and a half are both printed as `0.5`. -/
theorem twentieth_printed_as_half :
    (vprintfmt (fun s c => .ok (s ++ [c])) ("%f".toList.map Char.toUInt8) [.dbl (1/20)] (fun _ => 0) []).map (·.2) =
      .ok ("0.5".toList.map Char.toUInt8) ∧
    (vprintfmt (fun s c => .ok (s ++ [c])) ("%f".toList.map Char.toUInt8) [.dbl (1/2)] (fun _ => 0) []).map (·.2) =
      .ok ("0.5".toList.map Char.toUInt8) ∧
    (intPart (1/20),millionths (1/20)) = (0,50000) ∧ (intPart (1/2),millionths (1/2)) = (0,500000) := by
  decide +kernel

end Ukern.Printf
