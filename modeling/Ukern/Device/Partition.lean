import Ukern.Lib.Fold
import Ukern.Kernel.Partition

/-! # The partition table of a disk

Both scanners append to one table of 128 entries. They fill it with the partitions that the MBR and
the GPT name, in that order, as long as there are not more; a GPT is read again for every entry of the
MBR that announces one.
-/
namespace Ukern
open Lib
variable {w : Window} {did : ℕ} {d : DiskTable} {l l' : List DiskPart} {es es' : List ℤ} {p : DiskPart}
  {x : Except Fault DiskTable}

/-! ## What the tables name -/

/-- The partition that entry `i` of the GPT stands for, if its type is known. -/
def Window.entryParts (w : Window) (i : ℕ) : List DiskPart :=
  match detectType (w.gptPar (w.entryAt i)).typeGuid with
  | none => []
  | some .empty => []
  | some t => [(w.gptPar (w.entryAt i)).part t]

def Window.gptParts (w : Window) : List DiskPart :=
  if w.gptSign = 0x5452415020494645 then (List.range w.nPararr.toNat).flatMap w.entryParts else []

def Window.gptEntries (w : Window) : List ℤ :=
  if w.gptSign = 0x5452415020494645 then (List.range w.nPararr.toNat).map w.entryAt else []

/-- The partitions behind entry `i` of the MBR. -/
def Window.mbrParts (w : Window) (i : ℕ) : List DiskPart :=
  if w.mbrType i = 0xEE then w.gptParts else if (mbrText (w.mbrType i)).isSome then [w.mbrPart i] else []

def Window.mbrEntries (w : Window) (i : ℕ) : List ℤ := if w.mbrType i = 0xEE then w.gptEntries else []

def Window.tableParts (w : Window) : List DiskPart := (List.range 4).flatMap w.mbrParts

/-! ## The table -/

/-- The table holds the partitions `l`. -/
structure Lists (d : DiskTable) (l : List DiskPart) : Prop where
  room : l.length ≤ 128
  count : d.nPart.toNat = l.length
  part : ∀ i (h : i < l.length), d.part i = l[i]

/-- The result is a table with the partitions `l`, unless they are too many. -/
structure Fills (x : Except Fault DiskTable) (l : List DiskPart) (es : List ℤ) : Prop where
  fits : l.length ≤ 128 → ∃ d, x = .ok d ∧ Lists d l ∧ d.entries = es
  full : 128 < l.length → ∃ e, x = .error e

namespace Fills

theorem ok (h : Lists d l) (hes : d.entries = es) : Fills (.ok d) l es where
  fits := fun _ => ⟨d,rfl,h,hes⟩
  full := fun hlt => absurd h.room (not_le.mpr hlt)

theorem bind {f : DiskTable → Except Fault DiskTable} (h : Fills x l es)
    (hf : ∀ d, Lists d l → d.entries = es → Fills (f d) (l ++ l') es') : Fills (x >>= f) (l ++ l') es' := by
  have hlen : (l ++ l').length = l.length + l'.length := List.length_append
  constructor
  · intro hle
    obtain ⟨d,hx,hd,hes⟩ := h.fits (by omega)
    rw [hx]
    exact (hf d hd hes).fits hle
  · intro hlt
    by_cases hl : l.length ≤ 128
    · obtain ⟨d,hx,hd,hes⟩ := h.fits hl
      rw [hx]
      exact (hf d hd hes).full hlt
    · obtain ⟨e,hx⟩ := h.full (not_le.mp hl)
      rw [hx]
      exact ⟨e,rfl⟩

/-- A loop whose rounds append `P i` to the table and look at the entries `E i`. -/
theorem foldlM {f : DiskTable → ℕ → Except Fault DiskTable} {P : ℕ → List DiskPart} {E : ℕ → List ℤ}
    (hf : ∀ i d l, Lists d l → Fills (f d i) (l ++ P i) (d.entries ++ E i)) (is : List ℕ) (h : Lists d l) :
    Fills (is.foldlM f d) (l ++ is.flatMap P) (d.entries ++ is.flatMap E) := by
  induction is generalizing d l with
  | nil => exact .ok (by simpa using h) (by simp)
  | cons i is ih =>
    rw [List.foldlM_cons, List.flatMap_cons, List.flatMap_cons, ← List.append_assoc, ← List.append_assoc]
    apply (hf i d l h).bind
    intro d' hd' hes
    rw [← hes]
    exact ih hd'

end Fills

theorem Lists.print (h : Lists d l) (s : String) : Lists (d.print s) l := ⟨h.room,h.count,h.part⟩

theorem Lists.detectFs (h : Lists d l) (pid : ℕ) :
    Lists (d.detectFs w pid) l ∧ (d.detectFs w pid).entries = d.entries := by
  unfold DiskTable.detectFs
  dsimp only
  split
  · exact ⟨⟨h.room,h.count,h.part⟩,rfl⟩
  · exact ⟨h,rfl⟩

theorem Lists.record (h : Lists d l) (p : DiskPart) : Fills (d.record p) (l ++ [p]) d.entries := by
  have hlen : (l ++ [p]).length = l.length + 1 := by simp
  have hcount := h.count
  unfold DiskTable.record
  constructor
  · intro hle
    rw [if_neg (by omega)]
    refine ⟨_,rfl,⟨hle,?_,?_⟩,rfl⟩
    · have hsucc : (d.nPart + 1).toNat = (d.nPart.toNat + 1) % 2^8 := by simp
      rw [hlen, ← hcount]
      dsimp only
      omega
    · intro i hi
      dsimp only
      by_cases hil : i < l.length
      · rw [Function.update_of_ne (by omega), h.part i hil, List.getElem_append_left hil]
      · obtain rfl : i = d.nPart.toNat := by omega
        rw [Function.update_self, List.getElem_append_right (by omega)]
        simp
  · intro hlt
    rw [if_pos (by omega)]
    exact ⟨_,rfl⟩

/-! ## The scanners -/

theorem gptStep_fills (i : ℕ) (h : Lists d l) :
    Fills (gptStep w did d i) (l ++ w.entryParts i) (d.entries ++ [w.entryAt i]) := by
  have hd : Lists { d with entries := d.entries ++ [w.entryAt i] } l := ⟨h.room,h.count,h.part⟩
  unfold gptStep detectGuid Window.entryParts
  cases ht : detectType (w.gptPar (w.entryAt i)).typeGuid with
  | none => exact .ok (by simpa using hd.print _) rfl
  | some t =>
    by_cases he : t = .empty
    · subst he
      exact .ok (by simpa using hd) rfl
    · cases t with
      | empty => exact absurd rfl he
      | _ =>
        rw [← List.append_nil (l ++ _)]
        apply (hd.record _).bind
        intro d' hd' hes
        rw [List.append_nil]
        split
        · exact .ok (hd'.detectFs _).1 ((hd'.detectFs _).2.trans hes)
        · exact .ok hd' hes

theorem initGpt_fills (h : Lists d l) :
    Fills (initGpt w did d) (l ++ w.gptParts) (d.entries ++ w.gptEntries) := by
  unfold initGpt Window.gptParts Window.gptEntries
  by_cases hs : w.gptSign = 0x5452415020494645
  · rw [if_neg (not_not.mpr hs), if_pos hs, if_pos hs, List.map_eq_flatMap]
    exact Fills.foldlM (fun i d l => gptStep_fills i) (List.range w.nPararr.toNat) (h.print _)
  · rw [if_pos hs, if_neg hs, if_neg hs, List.append_nil, List.append_nil]
    exact .ok (h.print _) rfl

theorem mbrStep_fills (i : ℕ) (h : Lists d l) :
    Fills (mbrStep w did d i) (l ++ w.mbrParts i) (d.entries ++ w.mbrEntries i) := by
  unfold mbrStep Window.mbrParts Window.mbrEntries
  cases ht : mbrText (w.mbrType i) with
  | none =>
    have hg : w.mbrType i ≠ 0xEE := by
      intro hg
      rw [hg] at ht
      exact absurd ht (by decide)
    rw [if_neg hg, if_neg hg, List.append_nil]
    exact .ok (by simpa using h.print _) rfl
  | some text =>
    dsimp only
    by_cases hg : w.mbrType i = 0xEE
    · rw [if_pos hg, if_pos hg, if_pos hg]
      exact initGpt_fills (h.print _)
    · rw [if_neg hg, if_neg hg, if_neg hg, List.append_nil]
      exact (h.print _).record _

theorem initMbr_fills (w : Window) (did : ℕ) :
    Fills (initMbr .sata w did .zero) w.tableParts ((List.range 4).flatMap w.mbrEntries) := by
  have hzero : Lists .zero [] := ⟨Nat.zero_le _,rfl,fun i hi => absurd hi (Nat.not_lt_zero i)⟩
  exact Fills.foldlM (fun i d l => mbrStep_fills i) (List.range 4) hzero

/-! ## The bounds -/

/-- The entry lies in blocks 0 to 5, which were read. -/
def InLoaded (a : ℤ) : Prop := 0 ≤ a ∧ a + 128 ≤ 6 * 4096

instance (a : ℤ) : Decidable (InLoaded a) := inferInstanceAs (Decidable (_ ∧ _))

/-- What the scanners should leave: every partition named is in the table, none is counted twice or lost,
and only what was read from the disk was looked at. -/
structure TablesBounded (w : Window) (did : ℕ) : Prop where
  recorded : ∃ d, initMbr .sata w did .zero = .ok d ∧ d.nPart.toNat = w.tableParts.length ∧
    (∀ i (h : i < w.tableParts.length), d.part i = w.tableParts[i]) ∧ ∀ a ∈ d.entries, InLoaded a

/-- A GPT that is announced and has its signature has its entries in the blocks that are read. -/
def EntriesLoaded (w : Window) : Prop :=
  (∃ i < 4, w.mbrType i = 0xEE) → w.gptSign = 0x5452415020494645 → ∀ i : ℕ, (i : ℤ) < w.nPararr → InLoaded (w.entryAt i)

theorem entriesLoaded_iff : EntriesLoaded w ↔ ∀ a ∈ (List.range 4).flatMap w.mbrEntries, InLoaded a := by
  simp only [List.mem_flatMap, List.mem_range, Window.mbrEntries, Window.gptEntries]
  constructor
  · rintro h a ⟨i,hi,ha⟩
    split_ifs at ha with hg hs
    · obtain ⟨j,hj,rfl⟩ := List.mem_map.mp ha
      have hlt := List.mem_range.mp hj
      exact h ⟨i,hi,hg⟩ hs j (by omega)
    · cases ha
    · cases ha
  · rintro h ⟨i,hi,hg⟩ hs j hj
    refine h _ ⟨i,hi,?_⟩
    rw [if_pos hg, if_pos hs]
    exact List.mem_map.mpr ⟨j,List.mem_range.mpr (by omega),rfl⟩

theorem TablesBounded.named (h : TablesBounded w did) : w.tableParts.length ≤ 128 ∧ EntriesLoaded w := by
  have hfill := initMbr_fills w did
  obtain ⟨d,hd,-,-,hes⟩ := h
  rw [entriesLoaded_iff]
  by_cases hle : w.tableParts.length ≤ 128
  · obtain ⟨d',hd',-,hes'⟩ := hfill.fits hle
    cases hd.symm.trans hd'
    exact ⟨hle,hes' ▸ hes⟩
  · obtain ⟨e,he⟩ := hfill.full (not_le.mp hle)
    cases hd.symm.trans he

/-- The tables stay in bounds exactly if the MBR and the GPT name at most 128 partitions, and the entries
of the GPT lie in the blocks that are read. -/
theorem partition_tables_bounded_iff (w : Window) (did : ℕ) :
    TablesBounded w did ↔ w.tableParts.length ≤ 128 ∧ EntriesLoaded w := by
  constructor
  · exact TablesBounded.named
  · rintro ⟨hle,hin⟩
    obtain ⟨d,hd,hl,hes⟩ := (initMbr_fills w did).fits hle
    rw [entriesLoaded_iff, ← hes] at hin
    exact ⟨d,hd,hl.count,hl.part,hin⟩

/-- A protective MBR and a GPT of `n` Linux partitions, one every `size` bytes. -/
def linuxDisk (n size : ℕ) : Window := fun a =>
  if a = 446 + 4 then 0xEE
  else if 512 ≤ a ∧ a < 520 then (toBytes 0x5452415020494645 8).getD (a - 512).toNat 0
  else if 592 ≤ a ∧ a < 596 then (toBytes n 4).getD (a - 592).toNat 0
  else if 596 ≤ a ∧ a < 600 then (toBytes size 4).getD (a - 596).toNat 0
  else if 1024 ≤ a ∧ (a - 1024) % size < 16 then GuidType.linuxFs.known.bytes ((a - 1024) % size).toNat
  else 0

/-- 129 partitions overrun the table. Two entries of which the second is 24 KiB behind the first fit the
table, but the second one was not read. -/
theorem partition_tables_overrun : ¬ TablesBounded (linuxDisk 129 128) 0 ∧ ¬ TablesBounded (linuxDisk 2 24576) 0 := by
  constructor
  · intro h
    exact absurd h.named.1 (by decide +kernel)
  · intro h
    have hin := h.named.2 ⟨0,by decide,by decide⟩ (by decide +kernel) 1 (by decide +kernel)
    exact absurd hin (by decide +kernel)

end Ukern
