import Mathlib.Data.List.SplitOn
import Ukern.User.LineEditor

/-! # The words of a command line

The loop of `sh.c` that cuts a line into `argv`, on the arrays it writes: row `argc` of `argv_buf`, up to
column `j`. It refines the cut into lists of characters, which is where the words of the line come from.
-/
namespace Ukern.Sh
open Ukern.Lib
variable {cmdbuf : ℕ → UInt8} {ptr i n : ℕ} {argv : List (List UInt8)} {word cs l : List UInt8}

/-- `argc`, `j` and `argv_buf`. -/
structure Argv where
  argc : ℕ
  j : ℕ
  buf : ℕ → ℕ → UInt8

/-- `argv[argc][j] = c`, where `argv[i]` is `argv_buf[i]`. -/
def Argv.store (a : Argv) (c : UInt8) : Except Undefined Argv :=
  if a.argc < nargv ∧ a.j < argSize then
    .ok { a with buf := Function.update a.buf a.argc (Function.update (a.buf a.argc) a.j c) }
  else .error .argvOverrun

/-- The loop over `i <= ptr` with the rounds that are left; `none` is the jump to `next_buf`. -/
def splitLine (cmdbuf : ℕ → UInt8) (ptr : ℕ) : ℕ → ℕ → Argv → Except Undefined (Option Argv)
  | 0, _, a => .ok (some a)
  | n+1, i, a =>
    if i < ptr ∧ !blank (cmdbuf i) then do
      let a ← a.store (cmdbuf i)
      let a := { a with j := a.j + 1 }
      if a.j = argSize then .ok none else splitLine cmdbuf ptr n (i+1) a
    else if a.j ≠ 0 then do
      let a ← a.store 0
      splitLine cmdbuf ptr n (i+1) { a with argc := a.argc + 1, j := 0 }
    else splitLine cmdbuf ptr n (i+1) a

/-- What `argv` points to after the loop, with `argv_buf` as the line before left it. -/
def tokenize (cmdbuf : ℕ → UInt8) (ptr : ℕ) (buf : ℕ → ℕ → UInt8) : Except Undefined (Option Argv) :=
  splitLine cmdbuf ptr (ptr+1) 0 ⟨0,0,buf⟩

/-! ## The words -/

/-- The maximal runs of characters that are not blank. -/
def runs (l : List UInt8) : List (List UInt8) := (l.splitOnP blank).filter (· ≠ [])

theorem wordsFrom_eq (word cs : List UInt8) :
    wordsFrom word cs = ((cs.splitOnP blank).modifyHead (word ++ ·)).filter (· ≠ []) := by
  induction cs generalizing word with
  | nil =>
    rw [wordsFrom, List.splitOnP_nil, closeWord]
    split_ifs with h <;> simp [h]
  | cons c cs ih =>
    rw [wordsFrom, List.splitOnP_cons_eq_if_modifyHead]
    split_ifs with hc
    · have hnil : (cs.splitOnP blank).modifyHead ([] ++ ·) = cs.splitOnP blank := by
        cases cs.splitOnP blank <;> rfl
      rw [ih [], hnil, List.modifyHead_cons, List.append_nil, List.filter_cons, closeWord]
      split_ifs with h h' <;> simp_all
    · rw [ih, List.modifyHead_modifyHead]
      simp [Function.comp_def]

theorem words_eq_runs (l : List UInt8) : words l = runs l := by
  have hnil : (l.splitOnP blank).modifyHead ([] ++ ·) = l.splitOnP blank := by
    cases l.splitOnP blank <;> rfl
  rw [words, wordsFrom_eq, hnil, runs]

/-! ## The arrays -/

/-- The arrays hold the words `argv` and the characters `word` of the next one. -/
structure Stores (a : Argv) (argv : List (List UInt8)) (word : List UInt8) : Prop where
  argc : a.argc = argv.length
  j : a.j = word.length
  rows : ∀ i < argv.length, Holds (a.buf i) (argv.getD i [])
  row : ∀ t < word.length, a.buf a.argc t = word.getD t 0
  short : ∀ w ∈ argv, w.length < argSize
  column : word.length < argSize
  fits : argv.length ≤ nargv
  room : word ≠ [] → argv.length < nargv

namespace Stores
variable {a : Argv} {c : UInt8}

theorem push (h : Stores a argv word) (hroom : argv.length < nargv) : ∃ a', a.store c = .ok a' ∧
    (word.length + 1 < argSize → Stores { a' with j := a'.j + 1 } argv (word ++ [c])) ∧ a'.j = word.length := by
  refine ⟨_,if_pos ⟨h.argc ▸ hroom,h.j ▸ h.column⟩,fun hlt => ?_,h.j⟩
  constructor
  · exact h.argc
  · rw [List.length_append, ← h.j]
    rfl
  · intro i hi
    have hne : i ≠ a.argc := by
      rw [h.argc]
      exact hi.ne
    dsimp only
    rw [Function.update_of_ne hne]
    exact h.rows i hi
  · intro t ht
    dsimp only
    rw [Function.update_self]
    rw [List.length_append, List.length_singleton] at ht
    rcases Nat.lt_succ_iff_lt_or_eq.mp ht with ht | rfl
    · rw [Function.update_of_ne (by rw [h.j]; exact ht.ne), h.row t ht, List.getD_append _ _ _ _ ht]
    · rw [← h.j, Function.update_self, List.getD_append_right _ _ _ _ (by rw [h.j])]
      simp [h.j]
  · exact h.short
  · simpa using hlt
  · exact h.fits
  · exact fun _ => hroom

theorem close (h : Stores a argv word) (hne : word ≠ []) : ∃ a', a.store 0 = .ok a' ∧
    Stores { a' with argc := a'.argc + 1, j := 0 } (argv ++ [word]) [] := by
  have hroom := h.room hne
  refine ⟨_,if_pos ⟨h.argc ▸ hroom,h.j ▸ h.column⟩,?_⟩
  constructor
  · rw [List.length_append, ← h.argc]
    rfl
  · rfl
  · intro i hi
    dsimp only
    rw [List.length_append, List.length_singleton] at hi
    rcases Nat.lt_succ_iff_lt_or_eq.mp hi with hi | rfl
    · rw [Function.update_of_ne (by rw [h.argc]; exact hi.ne), List.getD_append _ _ _ _ hi]
      exact h.rows i hi
    · rw [← h.argc, Function.update_self, List.getD_append_right _ _ _ _ (by rw [h.argc]), h.argc, Nat.sub_self]
      intro t ht
      rcases (show t ≤ word.length from ht).eq_or_lt with rfl | ht
      · rw [← h.j, Function.update_self, h.j]
        exact (List.getD_eq_default _ _ le_rfl).symm
      · rw [Function.update_of_ne (by rw [h.j]; exact ht.ne), ← h.argc]
        exact h.row t ht
  · exact fun t ht => absurd ht (Nat.not_lt_zero t)
  · intro w hw
    rcases List.mem_append.mp hw with hw | hw
    · exact h.short w hw
    · rw [List.mem_singleton.mp hw]
      exact h.column
  · decide
  · simpa using hroom
  · exact fun h => absurd rfl h

end Stores

/-! ## The loop -/

/-- The loop on the arrays comes to the same end as the cut into lists. -/
def Agrees (x : Except Undefined (Option Argv)) : Except Undefined (Option (List (List UInt8))) → Prop
  | .error e => x = .error e
  | .ok none => x = .ok none
  | .ok (some ws) => ∃ a, x = .ok (some a) ∧ Stores a ws []

theorem splitLine_agrees {a : Argv} (h : Stores a argv word) (hptr : i + cs.length = ptr)
    (hcs : ∀ t < cs.length, cmdbuf (i + t) = cs.getD t 0) :
    Agrees (splitLine cmdbuf ptr (cs.length + 1) i a) (splitArgs argv word cs) := by
  induction cs generalizing i a argv word with
  | nil =>
    have hend : ¬ (i < ptr ∧ !blank (cmdbuf i)) := by
      rintro ⟨hlt,-⟩
      rw [← hptr] at hlt
      exact absurd hlt (lt_irrefl i)
    rw [splitLine, if_neg hend, splitArgs, closeWord, h.j]
    by_cases hw : word = []
    · subst hw
      exact ⟨a,rfl,h⟩
    · rw [if_pos (by simpa using hw), if_neg hw]
      obtain ⟨a',hstore,h'⟩ := h.close hw
      rw [hstore]
      exact ⟨_,rfl,h'⟩
  | cons c cs ih =>
    rw [List.length_cons] at hptr
    have hlt : i < ptr := by omega
    have hc : cmdbuf i = c := hcs 0 (Nat.succ_pos _)
    have hptr' : i + 1 + cs.length = ptr := by omega
    have hcs' : ∀ t < cs.length, cmdbuf (i + 1 + t) = cs.getD t 0 := by
      intro t ht
      have := hcs (t+1) (Nat.succ_lt_succ ht)
      rwa [← add_assoc, add_right_comm, List.getD_cons_succ] at this
    rw [List.length_cons, splitLine, splitArgs, hc]
    by_cases hb : blank c
    · rw [if_neg (by simp [hb]), if_pos hb, closeWord, h.j]
      by_cases hw : word = []
      · subst hw
        exact ih h hptr' hcs'
      · rw [if_pos (by simpa using hw), if_neg hw]
        obtain ⟨a',hstore,h'⟩ := h.close hw
        rw [hstore]
        exact ih h' hptr' hcs'
    · rw [if_pos ⟨hlt,by simpa using hb⟩, if_neg hb]
      by_cases hfull : argv.length = nargv
      · have hstore : a.store c = .error .argvOverrun := if_neg fun hroom => by
          rw [h.argc, hfull] at hroom
          exact lt_irrefl _ hroom.1
        rw [if_pos hfull, hstore]
        exact rfl
      · rw [if_neg hfull]
        obtain ⟨a',hstore,hpush,hj⟩ := h.push (c := c) (lt_of_le_of_ne h.fits hfull)
        rw [hstore, ok_bind]
        dsimp only
        rw [hj]
        have hcol := h.column
        by_cases hlong : word.length + 1 = argSize
        · rw [if_pos hlong, if_pos hlong]
          exact rfl
        · rw [if_neg hlong, if_neg hlong]
          exact ih (hj ▸ hpush (by omega)) hptr' hcs'

/-- The line in `cmdbuf`. -/
def lineOf (cmdbuf : ℕ → UInt8) (ptr : ℕ) : List UInt8 := (List.range ptr).map cmdbuf

theorem tokenize_agrees (cmdbuf : ℕ → UInt8) (ptr : ℕ) (buf : ℕ → ℕ → UInt8) :
    Agrees (tokenize cmdbuf ptr buf) (splitArgs [] [] (lineOf cmdbuf ptr)) := by
  have hlen : (lineOf cmdbuf ptr).length = ptr := by simp [lineOf]
  have hempty : Stores ⟨0,0,buf⟩ [] [] :=
    { argc := rfl, j := rfl, rows := nofun, row := nofun, short := nofun, column := by decide, fits := by decide
      room := fun h => absurd rfl h }
  have hline : ∀ t < (lineOf cmdbuf ptr).length, cmdbuf (0 + t) = (lineOf cmdbuf ptr).getD t 0 := by
    intro t ht
    rw [Nat.zero_add, List.getD_eq_getElem _ _ ht]
    simp [lineOf]
  have hagree := splitLine_agrees hempty (Nat.zero_add _) hline
  rwa [hlen] at hagree

/-! ## The words in the arrays -/

/-- The line is rejected, or its words are in `argv`, and nothing was written outside the arrays. -/
def SplitsSafely (cmdbuf : ℕ → UInt8) (ptr : ℕ) (buf : ℕ → ℕ → UInt8) : Prop :=
  tokenize cmdbuf ptr buf = .ok none ∨ ∃ a, tokenize cmdbuf ptr buf = .ok (some a) ∧
    a.argc = (runs (lineOf cmdbuf ptr)).length ∧ a.argc ≤ nargv ∧
    ∀ i (h : i < (runs (lineOf cmdbuf ptr)).length),
      (runs (lineOf cmdbuf ptr))[i].length < argSize ∧ Holds (a.buf i) (runs (lineOf cmdbuf ptr))[i]

theorem splitArgs_fits (l : List UInt8) : (∃ r, splitArgs [] [] l = .ok r) ↔ FitsArgv (runs l) := by
  rw [splitArgs_ok (by decide) (by decide) (by simp), ← words_eq_runs]
  simp [FitsArgv, words]

theorem SplitsSafely.fits {buf : ℕ → ℕ → UInt8} (h : SplitsSafely cmdbuf ptr buf) : FitsArgv (runs (lineOf cmdbuf ptr)) := by
  apply (splitArgs_fits _).mp
  have hagree := tokenize_agrees cmdbuf ptr buf
  cases hs : splitArgs [] [] (lineOf cmdbuf ptr) with
  | error e =>
    rw [hs] at hagree
    have herr : tokenize cmdbuf ptr buf = .error e := hagree
    rcases h with h | ⟨a,h,-⟩
    · cases herr.symm.trans h
    · cases herr.symm.trans h
  | ok r => exact ⟨r,rfl⟩

/-- Lines are cut safely exactly if they have at most sixteen words, or one of the first sixteen has 256
characters or more. -/
theorem shell_splits_safely_iff (cmdbuf : ℕ → UInt8) (ptr : ℕ) (buf : ℕ → ℕ → UInt8) :
    SplitsSafely cmdbuf ptr buf ↔ FitsArgv (runs (lineOf cmdbuf ptr)) := by
  refine ⟨SplitsSafely.fits,fun hfits => ?_⟩
  have hagree := tokenize_agrees cmdbuf ptr buf
  obtain ⟨r,hr⟩ := (splitArgs_fits _).mpr hfits
  rw [hr] at hagree
  cases r with
  | none => exact .inl hagree
  | some ws =>
    obtain ⟨a,ha,hst⟩ := hagree
    have hws : ws = runs (lineOf cmdbuf ptr) := (splitArgs_some hr).trans (words_eq_runs _)
    subst hws
    refine .inr ⟨a,ha,hst.argc,hst.argc ▸ hst.fits,fun i hi => ⟨hst.short _ (List.getElem_mem hi),?_⟩⟩
    have hrow := hst.rows i hi
    rwa [List.getD_eq_getElem _ _ hi] at hrow

/-- Seventeen one-letter words: the seventeenth goes through `argv[16]`. -/
theorem shell_seventeen_words : ¬ SplitsSafely (fun i => if i % 2 = 0 then 97 else 32) 33 (fun _ _ => 0) := by
  intro h
  rcases h.fits with hle | ⟨w,hw,hlong⟩
  · exact absurd hle (by decide +kernel)
  · have hshort : ∀ w ∈ (runs (lineOf (fun i => if i % 2 = 0 then 97 else 32) 33)).take nargv, w.length < argSize := by
      decide +kernel
    exact absurd hlong (not_le.mpr (hshort w hw))

end Ukern.Sh
