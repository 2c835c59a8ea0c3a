import Mathlib.Tactic.Common
import Ukern.Kernel.Partition

/-! # Partition types by their GUID

`guid_eq` compares two GUIDs as strings. What it misses is behind the first zero byte of a known GUID:
the empty one has it at the start, and two others at byte 10. The first bytes of the known GUIDs are
all different, so that no entry compares equal to two of them.
-/
namespace Ukern
variable {a b g : ℕ → UInt8} {n i : ℕ} {t u : GuidType} {w : Window} {did : ℕ} {d : DiskTable} {par : GptPar}

/-! ## The comparison -/

/-- Byte `i` is compared: no byte before it is zero. -/
def Compared (b : ℕ → UInt8) (i j : ℕ) : Prop := ∀ l, i ≤ l → l < j → b l ≠ 0

theorem strcmpFrom_iff : strcmpFrom a b n i = true ↔ ∀ j, i ≤ j → j < i + n → Compared b i j → a j = b j := by
  induction n generalizing i with
  | zero =>
    refine iff_of_true rfl ?_
    intro j hj hlt
    omega
  | succ n ih =>
    rw [strcmpFrom]
    by_cases hne : a i = b i
    · rw [if_neg (not_not.mpr hne)]
      by_cases hz : a i = 0
      · rw [if_pos hz]
        refine iff_of_true rfl ?_
        intro j hj hlt hc
        rcases hj.eq_or_lt with rfl | hj
        · exact hne
        · exact absurd (hne ▸ hz) (hc i le_rfl hj)
      · rw [if_neg hz, ih]
        constructor
        · intro h j hj hlt hc
          rcases hj.eq_or_lt with rfl | hj
          · exact hne
          · exact h j hj (by omega) fun l hl hlj => hc l (by omega) hlj
        · intro h j hj hlt hc
          refine h j (by omega) (by omega) fun l hl hlj => ?_
          rcases hl.eq_or_lt with rfl | hl
          · exact hne ▸ hz
          · exact hc l hl hlj
    · rw [if_pos hne]
      refine iff_of_false Bool.false_ne_true fun h => hne (h i le_rfl (by omega) ?_)
      intro l hl hli
      omega

/-- All sixteen bytes agree. -/
def SameGuid (a b : ℕ → UInt8) : Prop := ∀ i < 16, a i = b i

instance (a b : ℕ → UInt8) : Decidable (SameGuid a b) := inferInstanceAs (Decidable (∀ i < 16, _))

/-- The bytes of a known GUID up to its first zero byte, which is compared as well. -/
def GuidType.stop : GuidType → ℕ
  | .empty => 1 | .mbr => 11 | .efi => 11 | _ => 16

theorem GuidType.stop_le (t : GuidType) : t.stop ≤ 16 := by cases t <;> decide

theorem compared_iff (t : GuidType) {j : ℕ} (hj : j < 16) : Compared t.known.bytes 0 j ↔ j < t.stop := by
  have hdec : ∀ j < 16, (∀ l < j, t.known.bytes l ≠ 0) ↔ j < t.stop := by cases t <;> decide
  rw [← hdec j hj]
  constructor
  · intro h l hl
    exact h l (Nat.zero_le l) hl
  · intro h l _ hl
    exact h l hl

theorem guidEq_known : guidEq g t.known.bytes = true ↔ ∀ i < t.stop, g i = t.known.bytes i := by
  rw [guidEq, streq, strcmpFrom_iff]
  constructor
  · intro h i hi
    have hlt : i < 16 := hi.trans_le (GuidType.stop_le t)
    exact h i (Nat.zero_le i) (by omega) ((compared_iff t hlt).mpr hi)
  · intro h j _ hj hc
    exact h j ((compared_iff t (by omega)).mp hc)

theorem SameGuid.guidEq (h : SameGuid g t.known.bytes) : guidEq g t.known.bytes = true :=
  guidEq_known.mpr fun i hi => h i (hi.trans_le (GuidType.stop_le t))

/-! ## The type of an entry -/

theorem known_first (h : t.known.bytes 0 = u.known.bytes 0) : t = u := by
  revert h
  cases t <;> cases u <;> decide

theorem GuidType.stop_pos (t : GuidType) : 0 < t.stop := by cases t <;> decide

theorem guidEq_unique (ht : guidEq g t.known.bytes = true) (hu : guidEq g u.known.bytes = true) : t = u := by
  apply known_first
  rw [← guidEq_known.mp ht 0 (GuidType.stop_pos t), ← guidEq_known.mp hu 0 (GuidType.stop_pos u)]

theorem GuidType.mem_all (t : GuidType) : t ∈ GuidType.all := by cases t <;> decide

theorem detectType_eq_some : detectType g = some t ↔ guidEq g t.known.bytes = true := by
  have hstop : ∀ u, detectType g = some u → guidEq g u.known.bytes = true := by
    intro u hu
    simpa using List.find?_some hu
  constructor
  · exact hstop t
  · intro h
    cases hd : detectType g with
    | none => exact absurd h (List.find?_eq_none.mp hd t (GuidType.mem_all t))
    | some u => rw [guidEq_unique h (hstop u hd)]

/-- The comparison sees all there is to see of this GUID. -/
def Telling (g : ℕ → UInt8) : Prop :=
  (g 0 = 0 → SameGuid g GuidType.empty.known.bytes) ∧
  ∀ t : GuidType, t = .mbr ∨ t = .efi → (∀ i ≤ 10, g i = t.known.bytes i) → SameGuid g t.known.bytes

theorem telling_iff : Telling g ↔ ∀ t : GuidType, guidEq g t.known.bytes = true → SameGuid g t.known.bytes := by
  constructor
  · rintro ⟨hempty,hcut⟩ t ht
    have heq := guidEq_known.mp ht
    by_cases h16 : t.stop = 16
    · intro i hi
      exact heq i (h16 ▸ hi)
    · cases t with
      | empty => exact hempty (heq 0 (by decide))
      | mbr => exact hcut .mbr (.inl rfl) fun i hi => heq i (Nat.lt_succ_iff.mpr hi)
      | efi => exact hcut .efi (.inr rfl) fun i hi => heq i (Nat.lt_succ_iff.mpr hi)
      | _ => exact absurd rfl h16
  · intro h
    constructor
    · intro h0
      refine h .empty (guidEq_known.mpr fun i hi => ?_)
      obtain rfl : i = 0 := Nat.lt_one_iff.mp hi
      exact h0
    · rintro t (rfl | rfl) ht
      · exact h .mbr (guidEq_known.mpr fun i hi => ht i (Nat.lt_succ_iff.mp hi))
      · exact h .efi (guidEq_known.mpr fun i hi => ht i (Nat.lt_succ_iff.mp hi))

/-! ## The entry in the table -/

/-- The partition goes to the table with type `t`. -/
def Recorded (w : Window) (did : ℕ) (d : DiskTable) (par : GptPar) (t : GuidType) : Prop :=
  ∃ d', detectGuid w did d par = .ok d' ∧ d'.nPart = d.nPart + 1 ∧
    d'.part = Function.update d.part d.nPart.toNat (par.part t)

/-- The table stays, and the entry is reported as unknown. -/
def Ignored (w : Window) (did : ℕ) (d : DiskTable) (par : GptPar) : Prop :=
  ∃ s, detectGuid w did d par = .ok (d.print s)

theorem detectFs_table (w : Window) (d : DiskTable) (pid : ℕ) :
    (d.detectFs w pid).nPart = d.nPart ∧ (d.detectFs w pid).part = d.part := by
  unfold DiskTable.detectFs
  dsimp only
  split <;> exact ⟨rfl,rfl⟩

theorem recorded_of_type (hroom : d.nPart.toNat < 128) (ht : t ≠ .empty) (h : detectType par.typeGuid = some t) :
    Recorded w did d par t := by
  have hrec : d.record (par.part t) = .ok { d with
      nPart := d.nPart + 1, part := Function.update d.part d.nPart.toNat (par.part t) } :=
    if_neg (not_le.mpr hroom)
  unfold Recorded detectGuid
  rw [h]
  cases t with
  | empty => exact absurd rfl ht
  | _ =>
    simp only [hrec]
    refine ⟨_,rfl,?_⟩
    split
    · exact detectFs_table _ _ _
    · exact ⟨rfl,rfl⟩

theorem detectGuid_empty (h : detectType par.typeGuid = some .empty) : detectGuid w did d par = .ok d := by
  unfold detectGuid
  rw [h]

theorem ignored_of_none (h : detectType par.typeGuid = none) : Ignored w did d par := by
  unfold Ignored detectGuid
  rw [h]
  exact ⟨_,rfl⟩

theorem DiskTable.print_ne (d : DiskTable) (s : String) : d.print s ≠ d := by
  intro h
  have hlen := congrArg (fun d => d.printed.length) h
  simp [DiskTable.print] at hlen

theorem nPart_succ_ne (n : UInt8) : n + 1 ≠ n := by
  intro h
  simp at h

theorem GuidType.num_inj (h : t.num = u.num) : t = u := by
  revert h
  cases t <;> cases u <;> decide

/-- What becomes of the entry shows which type the loop stopped at. -/
theorem recorded_iff (hroom : d.nPart.toNat < 128) (ht : t ≠ .empty) :
    Recorded w did d par t ↔ detectType par.typeGuid = some t := by
  refine ⟨fun h => ?_,recorded_of_type hroom ht⟩
  obtain ⟨d',hd,hn,hp⟩ := h
  cases hu : detectType par.typeGuid with
  | none =>
    obtain ⟨s,hs⟩ := ignored_of_none (w := w) (d := d) hu
    cases hd.symm.trans hs
    exact absurd hn.symm (nPart_succ_ne d.nPart)
  | some u =>
    by_cases he : u = .empty
    · subst he
      cases hd.symm.trans (detectGuid_empty hu)
      exact absurd hn.symm (nPart_succ_ne d.nPart)
    · obtain ⟨d'',hd'',-,hp''⟩ := recorded_of_type (w := w) hroom he hu
      cases hd.symm.trans hd''
      have hpart := congrFun (hp''.symm.trans hp) d.nPart.toNat
      rw [Function.update_self, Function.update_self] at hpart
      rw [GuidType.num_inj (congrArg DiskPart.partType hpart)]

theorem skipped_iff (hroom : d.nPart.toNat < 128) :
    detectGuid w did d par = .ok d ↔ detectType par.typeGuid = some .empty := by
  refine ⟨fun h => ?_,detectGuid_empty⟩
  cases hu : detectType par.typeGuid with
  | none =>
    obtain ⟨s,hs⟩ := ignored_of_none (w := w) (d := d) hu
    exact absurd (Except.ok.inj (hs.symm.trans h)) (DiskTable.print_ne d s)
  | some u =>
    by_cases he : u = .empty
    · rw [he]
    · obtain ⟨d',hd,hn,-⟩ := recorded_of_type (w := w) hroom he hu
      cases hd.symm.trans h
      exact absurd hn.symm (nPart_succ_ne d.nPart)

/-- `detect_guid` goes by the whole GUID, whatever the table holds and whatever else the entry says. -/
structure ByWholeGuid (g : ℕ → UInt8) : Prop where
  known : ∀ w did d par, par.typeGuid = g → d.nPart.toNat < 128 → ∀ t : GuidType, t ≠ .empty →
    (Recorded w did d par t ↔ SameGuid g t.known.bytes)
  empty : ∀ w did d par, par.typeGuid = g → d.nPart.toNat < 128 →
    (detectGuid w did d par = .ok d ↔ SameGuid g GuidType.empty.known.bytes)
  other : ∀ w did d par, par.typeGuid = g → (∀ t : GuidType, ¬ SameGuid g t.known.bytes) → Ignored w did d par

theorem Telling.detectType_iff (h : Telling g) (t : GuidType) : detectType g = some t ↔ SameGuid g t.known.bytes := by
  rw [detectType_eq_some]
  exact ⟨telling_iff.mp h t,SameGuid.guidEq⟩

theorem ByWholeGuid.telling (h : ByWholeGuid g) : Telling g := by
  apply telling_iff.mpr
  intro t ht
  have htype : detectType g = some t := detectType_eq_some.mpr ht
  have hroom : DiskTable.zero.nPart.toNat < 128 := by decide
  by_cases he : t = .empty
  · subst he
    exact (h.empty (fun _ => 0) 0 .zero ⟨g,0,0⟩ rfl hroom).mp ((skipped_iff hroom).mpr htype)
  · exact (h.known (fun _ => 0) 0 .zero ⟨g,0,0⟩ rfl hroom t he).mp ((recorded_iff hroom he).mpr htype)

/-- Types are recognised by the whole GUID exactly if the GUID is all zero or does not start with a zero
byte, and is one of the two known GUIDs with a zero byte or differs from them before or at that byte. -/
theorem by_whole_guid_iff (g : ℕ → UInt8) : ByWholeGuid g ↔ Telling g := by
  constructor
  · exact ByWholeGuid.telling
  · intro h
    constructor
    · rintro w did d par rfl hroom t ht
      rw [recorded_iff hroom ht, h.detectType_iff]
    · rintro w did d par rfl hroom
      rw [skipped_iff hroom, h.detectType_iff]
    · rintro w did d par rfl hno
      apply ignored_of_none
      rw [Option.eq_none_iff_forall_ne_some]
      intro t ht
      exact hno t ((h.detectType_iff t).mp ht)

/-- A GUID that starts with a zero byte and is not empty, and one that is the EFI system partition's up to
byte 10 and then differs from it. -/
theorem guid_cut_short : ¬ ByWholeGuid (fun i => if i = 0 then 0 else 1) ∧
    ¬ ByWholeGuid (fun i => if i ≤ 10 then GuidType.efi.known.bytes i else 0) := by
  constructor
  · intro h
    exact absurd (h.telling.1 rfl 1 (by decide)) (by decide)
  · intro h
    have hsame := h.telling.2 .efi (.inr rfl) fun i hi => if_pos hi
    exact absurd (hsame 11 (by decide)) (by decide)

end Ukern
