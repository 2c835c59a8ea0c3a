import Mathlib.Algebra.Order.Group.Nat
import Mathlib.Tactic.Common
import Ukern.Lib.Fold
import Ukern.User.Sh

/-! # The line editor of the shell

A line, the lines entered before it and how far back the cursor is among them: the
editor a user has in mind. The shell keeps to it key by key, as long as no line is
shortened, no recalled line is changed and every word finds its `argv`.
-/
namespace Ukern.Sh
open Ukern.Lib

/-- Printable text that fits the buffer. -/
@[ext] structure Line where
  chars : List UInt8
  printable : ∀ c ∈ chars, 0x20 ≤ c ∧ c < 0x7F
  short : chars.length < bufSize

namespace Line

def nil : Line := ⟨[],by simp,by decide⟩

def snoc (l : Line) (c : Printable) (h : l.chars.length + 1 < bufSize) : Line where
  chars := l.chars ++ [c.1]
  printable := by
    intro d hd
    rcases List.mem_append.mp hd with hd | hd
    · exact l.printable d hd
    · rw [List.mem_singleton.mp hd]
      exact c.2
  short := by simpa using h

def dropLast (l : Line) : Line where
  chars := l.chars.dropLast
  printable := fun c hc => l.printable c (List.mem_of_mem_dropLast hc)
  short := by
    have h := l.short
    rw [List.length_dropLast]
    omega

theorem no_nul (l : Line) : 0 ∉ l.chars := fun h => absurd (l.printable 0 h).1 (by decide)

theorem no_backspace (l : Line) : 8 ∉ l.chars := fun h => absurd (l.printable 8 h).1 (by decide)

end Line

/-! ## Words -/

/-- The words of a text that begins inside `word`. -/
def wordsFrom : List UInt8 → List UInt8 → List (List UInt8)
  | word, [] => closeWord [] word
  | word, c :: cs =>
    if blank c then closeWord [] word ++ wordsFrom [] cs else wordsFrom (word ++ [c]) cs

def words (l : List UInt8) : List (List UInt8) := wordsFrom [] l

/-- Every word that is stored has an `argv`: there are at most sixteen, or one of the
first sixteen is too long and ends the loop. -/
def FitsArgv (ws : List (List UInt8)) : Prop :=
  ws.length ≤ nargv ∨ ∃ w ∈ ws.take nargv, argSize ≤ w.length

theorem closeWord_eq (argv : List (List UInt8)) (word : List UInt8) :
    closeWord argv word = argv ++ closeWord [] word := by
  unfold closeWord
  split <;> simp

theorem wordsFrom_cons {word : List UInt8} (h : word ≠ []) (cs : List UInt8) :
    ∃ w ws, wordsFrom word cs = w :: ws ∧ word.length ≤ w.length := by
  induction cs generalizing word with
  | nil => exact ⟨word,[],by simp [wordsFrom, closeWord, h],le_rfl⟩
  | cons c cs ih =>
    rw [wordsFrom]
    split
    · exact ⟨word,wordsFrom [] cs,by simp [closeWord, h],le_rfl⟩
    · have hne : word ++ [c] ≠ [] := by simp
      obtain ⟨w,ws,hw,hle⟩ := ih hne
      exact ⟨w,ws,hw,by rw [List.length_append] at hle; omega⟩

theorem words_eq_nil {l : List UInt8} : words l = [] ↔ ∀ c ∈ l, blank c := by
  unfold words
  induction l with
  | nil => simp [wordsFrom, closeWord]
  | cons c cs ih =>
    rw [wordsFrom]
    by_cases hc : blank c
    · rw [if_pos hc, closeWord, if_pos rfl, List.nil_append, ih]
      simp [hc]
    · obtain ⟨w,ws,hw,-⟩ := wordsFrom_cons (List.cons_ne_nil c []) cs
      rw [if_neg hc, List.nil_append, hw]
      simp [hc]

theorem splitArgs_some {argv : List (List UInt8)} {word l : List UInt8} {r : List (List UInt8)}
    (h : splitArgs argv word l = .ok (some r)) : r = argv ++ wordsFrom word l := by
  induction l generalizing argv word with
  | nil =>
    cases h
    exact closeWord_eq argv word
  | cons c cs ih =>
    rw [splitArgs] at h
    rw [wordsFrom]
    split at h
    · rename_i hc
      rw [if_pos hc, ih h, closeWord_eq argv, List.append_assoc]
    · rename_i hc
      rw [if_neg hc]
      split_ifs at h
      · cases h
      · exact ih h

theorem splitArgs_blank {argv : List (List UInt8)} {l : List UInt8} (h : ∀ c ∈ l, blank c) :
    splitArgs argv [] l = .ok (some argv) := by
  induction l with
  | nil => rfl
  | cons c cs ih =>
    rw [splitArgs, if_pos (h c (by simp)), closeWord, if_pos rfl]
    exact ih fun d hd => h d (by simp [hd])

/-- A word has no `argv` exactly when the line has too many words before one that is
too long. -/
theorem splitArgs_ok {argv : List (List UInt8)} {word l : List UInt8} (hargv : argv.length ≤ nargv)
    (hword : word.length < argSize) (hroom : word ≠ [] → argv.length < nargv) :
    (∃ r, splitArgs argv word l = .ok r) ↔ argv.length + (wordsFrom word l).length ≤ nargv ∨
      ∃ w ∈ (wordsFrom word l).take (nargv - argv.length), argSize ≤ w.length := by
  induction l generalizing argv word with
  | nil =>
    refine iff_of_true ⟨_,rfl⟩ (.inl ?_)
    by_cases h : word = []
    · simpa [wordsFrom, closeWord, h] using hargv
    · simpa [wordsFrom, closeWord, h] using hroom h
  | cons c cs ih =>
    rw [splitArgs, wordsFrom]
    by_cases hc : blank c
    · rw [if_pos hc, if_pos hc]
      by_cases h : word = []
      · rw [h, closeWord, closeWord, if_pos rfl, if_pos rfl, List.nil_append]
        exact ih hargv (by decide) (by simp)
      · have hlt := hroom h
        have hlen : (argv ++ [word]).length = argv.length + 1 := by simp
        rw [closeWord, closeWord, if_neg h, if_neg h, List.nil_append, List.singleton_append,
          ih (by omega) (by decide) (by simp), hlen]
        have htake : nargv - argv.length = (nargv - (argv.length + 1)) + 1 := by omega
        rw [htake, List.take_succ_cons, List.length_cons]
        simp only [List.mem_cons, exists_eq_or_imp]
        constructor
        · rintro (hle | hw)
          · exact .inl (by omega)
          · exact .inr (.inr hw)
        · rintro (hle | hw | hw)
          · exact .inl (by omega)
          · omega
          · exact .inr hw
    · rw [if_neg hc, if_neg hc]
      have hne : word ++ [c] ≠ [] := by simp
      obtain ⟨w,ws,hw,hle⟩ := wordsFrom_cons hne cs
      rw [List.length_append, List.length_singleton] at hle
      by_cases hfull : argv.length = nargv
      · rw [if_pos hfull, hw, hfull]
        simp
      · rw [if_neg hfull]
        by_cases hlong : word.length + 1 = argSize
        · rw [if_pos hlong, hw]
          refine iff_of_true ⟨_,rfl⟩ (.inr ⟨w,?_,by omega⟩)
          rw [show nargv - argv.length = (nargv - argv.length - 1) + 1 by omega, List.take_succ_cons]
          simp
        · rw [if_neg hlong]
          exact ih hargv (by simp; omega) (fun _ => by omega)

namespace Shell
variable {s : Shell}

theorem enter_of_fits (h : FitsArgv (words s.typed)) :
    s.enter = if words s.typed = [] then .ok s.newPrompt else s.nextBuf := by
  have hok : ∃ r, splitArgs [] [] s.typed = .ok r :=
    (splitArgs_ok (by decide) (by decide) (by simp)).mpr (by simpa [FitsArgv, words] using h)
  obtain ⟨r,hr⟩ := hok
  unfold enter
  rw [hr, ok_bind]
  split_ifs with hnil
  · rw [splitArgs_blank (words_eq_nil.mp hnil)] at hr
    cases hr
    rfl
  · cases r with
    | none => rfl
    | some ws =>
      have hws : ws = words s.typed := splitArgs_some hr
      cases ws with
      | nil => exact absurd hws.symm hnil
      | cons w ws => rfl

theorem fits_of_enter {s' : Shell} (h : s.enter = .ok s') : FitsArgv (words s.typed) := by
  obtain ⟨r,hr,-⟩ := bind_eq_ok.mp h
  have hok := (splitArgs_ok (by decide) (by decide) (by simp)).mp ⟨r,hr⟩
  simpa [FitsArgv, words] using hok

end Shell

/-! ## The editor -/

@[ext] structure Editor where
  line : Line
  /-- The lines entered before, the last one first. -/
  earlier : List Line
  /-- How many lines the cursor is back; 0 is the line not entered yet. -/
  back : ℕ
  /-- The line not entered yet, while the cursor is back. -/
  draft : Line
  earlier_le : earlier.length ≤ nhist - 1
  back_le : back ≤ earlier.length

namespace Editor

def init : Editor := ⟨.nil,[],0,.nil,Nat.zero_le _,le_rfl⟩

/-- The line `b` lines back. -/
def lineAt (e : Editor) : ℕ → Line
  | 0 => e.draft
  | b+1 => e.earlier.getD b e.draft

def type (e : Editor) (c : Printable) : Editor :=
  if h : e.line.chars.length + 1 < bufSize then { e with line := e.line.snoc c h } else e

def enter (e : Editor) : Editor :=
  if words e.line.chars = [] then { e with line := .nil, back := 0, back_le := Nat.zero_le _ }
  else
    { e with
      line := .nil, earlier := (e.line :: e.earlier).take (nhist - 1), back := 0
      earlier_le := by rw [List.length_take]; omega
      back_le := Nat.zero_le _ }

/-- Leaving the line not entered yet puts it aside. -/
def stash (e : Editor) : Editor := if e.back = 0 then { e with draft := e.line } else e

def up (e : Editor) : Editor :=
  if h : e.back < e.earlier.length then
    { e with
      draft := e.stash.draft, line := e.stash.lineAt (e.back + 1), back := e.back + 1
      back_le := h }
  else e

def down (e : Editor) : Editor :=
  if e.back = 0 then e
  else
    { e with
      line := e.lineAt (e.back - 1), back := e.back - 1
      back_le := (Nat.sub_le _ _).trans e.back_le }

def press (e : Editor) : Key → Editor
  | .char c => e.type c
  | .backspace => { e with line := e.line.dropLast }
  | .enter => e.enter
  | .up => e.up
  | .down => e.down

def run (e : Editor) (keys : List Key) : Editor := keys.foldl press e

end Editor

/-- Slot `h` of the ring holds the line `l`. -/
structure Shell.Slot (s : Shell) (h : ℕ) (l : Line) : Prop where
  text : Holds (s.history h) l.chars
  length : s.histptr h = l.chars.length

/-- The slot of the ring that is `b` lines back. -/
def Shell.slotAt (s : Shell) (b : ℕ) : ℕ := (s.latest + nhist - b) % nhist

/-- The shell's variables stand for the editor `e`. -/
structure Refines (s : Shell) (e : Editor) : Prop where
  text : Holds s.cmdbuf e.line.chars
  ptr : s.ptr = e.line.chars.length
  screen : s.screen = prompt ++ e.line.chars
  latest : s.latest = s.total % nhist
  stored : e.earlier.length = min s.total (nhist - 1)
  hist : s.hist = s.slotAt e.back
  slots : ∀ b ≤ e.earlier.length, (b = 0 → 0 < e.back) → s.Slot (s.slotAt b) (e.lineAt b)

theorem refines_init : Refines .init .init where
  text := by
    intro i hi
    obtain rfl : i = 0 := by simpa [Editor.init, Line.nil] using hi
    rfl
  ptr := rfl
  screen := rfl
  latest := rfl
  stored := rfl
  hist := rfl
  slots := by
    intro b hb h0
    obtain rfl : b = 0 := Nat.le_zero.mp hb
    exact absurd (h0 rfl) (lt_irrefl 0)

namespace Refines
variable {s : Shell} {e : Editor}

theorem typed (h : Refines s e) : s.typed = e.line.chars := by
  rw [Shell.typed, h.ptr]
  refine List.ext_getElem (by simp) fun i hi hi' => ?_
  rw [List.getElem_map, List.getElem_range]
  exact h.text.get hi'

theorem printf_text (screen : List UInt8) (l : Line) : printf screen l.chars = screen ++ l.chars := by
  have hput : ∀ (t : List UInt8), 8 ∉ t → ∀ screen, printf screen t = screen ++ t := by
    intro t
    induction t with
    | nil => intro _ screen; exact (List.append_nil screen).symm
    | cons c t ih =>
      intro h8 screen
      have hc : c ≠ 8 := fun hc => h8 (by simp [hc])
      have ht := ih (fun h => h8 (by simp [h])) (screen ++ [c])
      simpa [printf, putch, hc] using ht
  exact hput _ l.no_backspace screen

theorem erase_screen (t l : List UInt8) :
    (List.range l.length).foldl (fun screen _ => printf screen [8]) (t ++ l) = t := by
  have hconst : ∀ (screen : List UInt8), printf screen [8] = screen.dropLast := fun _ => rfl
  simp only [hconst]
  rw [List.foldl_const, List.length_range]
  induction l using List.reverseRecOn with
  | nil => simp
  | append_singleton l c ih =>
    rw [List.length_append, List.length_singleton, Function.iterate_succ_apply,
      ← List.append_assoc, List.dropLast_concat, ih]

theorem latest_lt (h : Refines s e) : s.latest < 100 := by
  rw [h.latest]
  exact Nat.mod_lt _ (by decide)

theorem back_le (h : Refines s e) : e.back ≤ min s.total 99 := by
  have := e.back_le
  rw [h.stored] at this
  exact this

theorem hist_eq (h : Refines s e) : s.hist = (s.latest + 100 - e.back) % 100 := h.hist

theorem hist_eq_latest (h : Refines s e) : s.hist = s.latest ↔ e.back = 0 := by
  have hl := h.latest_lt
  have hb := h.back_le
  rw [h.hist_eq]
  omega

theorem oldest_iff (h : Refines s e) : s.Oldest ↔ e.back = e.earlier.length := by
  have hl : s.latest = s.total % 100 := h.latest
  have hb := h.back_le
  have hst : e.earlier.length = min s.total 99 := h.stored
  rw [hst, Shell.Oldest, h.hist_eq, nhist]
  omega

theorem fetch (h : Refines s e) {s₁ : Shell} (hptr : s₁.ptr = s.ptr) (hscreen : s₁.screen = s.screen)
    {i : ℕ} {l : Line} (hslot : s₁.Slot i l) :
    Holds (s₁.fetch i).cmdbuf l.chars ∧ (s₁.fetch i).ptr = l.chars.length ∧
      (s₁.fetch i).screen = prompt ++ l.chars := by
  have hbuf : Holds (s₁.fetch i).cmdbuf l.chars := hslot.text.strncpy l.no_nul l.short.le _
  refine ⟨hbuf,hslot.length,?_⟩
  change printf ((List.range s₁.ptr).foldl _ s₁.screen) (cstring (s₁.fetch i).cmdbuf 0 bufSize) = _
  rw [hbuf.cstring l.no_nul l.short, hptr, hscreen, h.screen, h.ptr, erase_screen, printf_text]

theorem lineAt_stash {b : ℕ} (hb : b ≤ e.earlier.length) (h0 : b = 0 → 0 < e.back) :
    e.stash.lineAt b = e.lineAt b := by
  unfold Editor.stash
  split
  · cases b with
    | zero => have := h0 rfl; omega
    | succ b =>
      simp only [Editor.lineAt]
      rw [List.getD_eq_getElem _ _ hb, List.getD_eq_getElem _ _ hb]
  · rfl

/-- Before the cursor leaves the line not entered yet, its slot holds that line. -/
theorem save (h : Refines s e) {b : ℕ} (hb : b ≤ e.earlier.length) :
    s.save.Slot (s.slotAt b) (e.stash.lineAt b) := by
  have hl := h.latest_lt
  have hst : e.earlier.length = min s.total 99 := h.stored
  by_cases hback : e.back = 0
  · have hsave : s.save = { s with
        history := Function.update s.history s.latest (strncpy (s.history s.latest) s.cmdbuf bufSize)
        histptr := Function.update s.histptr s.latest s.ptr } :=
      if_pos (h.hist_eq_latest.mpr hback)
    rw [hsave]
    rcases Nat.eq_zero_or_pos b with rfl | hpos
    · have hat : s.slotAt 0 = s.latest := by
        rw [Shell.slotAt, nhist]
        omega
      have hline : e.stash.lineAt 0 = e.line := by simp [Editor.stash, hback, Editor.lineAt]
      rw [hat, hline]
      refine ⟨?_,?_⟩
      · dsimp only
        rw [Function.update_self]
        exact h.text.strncpy e.line.no_nul e.line.short.le _
      · dsimp only
        rw [Function.update_self, h.ptr]
    · have hat : s.slotAt b ≠ s.latest := by
        rw [Shell.slotAt, nhist]
        omega
      have hslot := h.slots b hb (fun h0 => by omega)
      rw [lineAt_stash hb (fun h0 => by omega)]
      refine ⟨?_,?_⟩
      · dsimp only
        rw [Function.update_of_ne hat]
        exact hslot.text
      · dsimp only
        rw [Function.update_of_ne hat]
        exact hslot.length
  · have hsave : s.save = s := if_neg fun hh => hback (h.hist_eq_latest.mp hh)
    rw [hsave, lineAt_stash hb fun _ => Nat.pos_of_ne_zero hback]
    exact h.slots b hb fun _ => Nat.pos_of_ne_zero hback

theorem save_keeps (s : Shell) : s.save.ptr = s.ptr ∧ s.save.screen = s.screen ∧
    s.save.latest = s.latest ∧ s.save.total = s.total := by
  unfold Shell.save
  split <;> exact ⟨rfl,rfl,rfl,rfl⟩

theorem stash_earlier (e : Editor) : e.stash.earlier = e.earlier := by
  unfold Editor.stash
  split <;> rfl

theorem lineAt_up (hlt : e.back < e.earlier.length) (b : ℕ) : e.up.lineAt b = e.stash.lineAt b := by
  rw [Editor.up, dif_pos hlt]
  cases b with
  | zero => rfl
  | succ b =>
    simp only [Editor.lineAt, stash_earlier]

theorem up (h : Refines s e) : Refines s.keyUp e.up := by
  by_cases hold : e.back = e.earlier.length
  · have hs : s.keyUp = s := if_pos (h.oldest_iff.mpr hold)
    have he : e.up = e := dif_neg (by omega)
    rw [hs, he]
    exact h
  · have hlt : e.back < e.earlier.length := lt_of_le_of_ne e.back_le hold
    have hs : s.keyUp = s.save.fetch ((s.hist + 99) % nhist) :=
      if_neg fun ho => hold (h.oldest_iff.mp ho)
    have hl := h.latest_lt
    have hb := h.back_le
    have hat : (s.hist + 99) % nhist = s.slotAt (e.back + 1) := by
      rw [h.hist_eq, Shell.slotAt, nhist]
      omega
    obtain ⟨hptr,hscreen,hlatest,htotal⟩ := save_keeps s
    obtain ⟨htext,hlen,hshown⟩ := h.fetch hptr hscreen (h.save (b := e.back + 1) hlt)
    rw [hs, hat, Editor.up, dif_pos hlt]
    refine ⟨htext,hlen,hshown,?_,?_,?_,?_⟩
    · change s.save.latest = s.save.total % nhist
      rw [hlatest, htotal, h.latest]
    · change e.earlier.length = min s.save.total _
      rw [htotal, h.stored]
    · change s.slotAt (e.back + 1) = s.save.slotAt (e.back + 1)
      rw [Shell.slotAt, Shell.slotAt, hlatest]
    · intro b hb _
      have hslot := h.save hb
      have hat' : s.save.slotAt b = s.slotAt b := by rw [Shell.slotAt, Shell.slotAt, hlatest]
      rw [← lineAt_up hlt, Editor.up, dif_pos hlt, ← hat'] at hslot
      exact ⟨hslot.text,hslot.length⟩

theorem down (h : Refines s e) : Refines s.keyDown e.down := by
  by_cases h0 : e.back = 0
  · have hs : s.keyDown = s := if_pos (h.hist_eq_latest.mpr h0)
    have he : e.down = e := if_pos h0
    rw [hs, he]
    exact h
  · have hs : s.keyDown = s.fetch ((s.hist + 1) % nhist) :=
      if_neg fun hh => h0 (h.hist_eq_latest.mp hh)
    have hl := h.latest_lt
    have hb := h.back_le
    have hat : (s.hist + 1) % nhist = s.slotAt (e.back - 1) := by
      rw [h.hist_eq, Shell.slotAt, nhist]
      omega
    have hslot := h.slots (e.back - 1) ((Nat.sub_le _ _).trans e.back_le)
      fun _ => Nat.pos_of_ne_zero h0
    obtain ⟨htext,hlen,hshown⟩ := h.fetch rfl rfl hslot
    rw [hs, hat, Editor.down, if_neg h0]
    refine ⟨htext,hlen,hshown,h.latest,h.stored,rfl,?_⟩
    intro b hb _
    have hslot := h.slots b hb fun _ => Nat.pos_of_ne_zero h0
    exact ⟨hslot.text,hslot.length⟩

/-! ## Typing and entering -/

theorem type (h : Refines s e) (c : Printable) : Refines (s.insert c) (e.type c) := by
  by_cases hroom : e.line.chars.length + 1 < bufSize
  · have hs : s.insert c = { s with
        cmdbuf := Function.update (Function.update s.cmdbuf s.ptr c) (s.ptr + 1) 0
        ptr := s.ptr + 1
        screen := printf s.screen [c.1] } := if_pos (by rw [h.ptr]; omega)
    rw [hs, Editor.type, dif_pos hroom]
    refine ⟨?_,?_,?_,h.latest,h.stored,h.hist,fun b hb h0 => ?_⟩
    · dsimp only
      rw [h.ptr]
      exact h.text.snoc c.1
    · simp [Line.snoc, h.ptr]
    · have hc : c.1 ≠ 8 := fun h8 => absurd c.2.1 (by rw [h8]; decide)
      simp [Line.snoc, printf, putch, hc, h.screen]
    · have hslot := h.slots b hb h0
      exact ⟨hslot.text,hslot.length⟩
  · have hs : s.insert c = s := if_neg (by rw [h.ptr]; omega)
    rw [hs, Editor.type, dif_neg hroom]
    exact h

theorem backspace (h : Refines s e) (h0 : s.ptr = 0) :
    Refines s.erase { e with line := e.line.dropLast } := by
  have hs : s.erase = s := if_neg (by omega)
  have hnil : e.line.chars = [] := List.length_eq_zero_iff.mp (h.ptr.symm.trans h0)
  have hline : e.line.dropLast = e.line := by
    ext1
    simp [Line.dropLast, hnil]
  rw [hs, hline]
  exact h

theorem newPrompt_text (s : Shell) : Holds s.newPrompt.cmdbuf Line.nil.chars := by
  intro i hi
  obtain rfl : i = 0 := Nat.le_zero.mp hi
  change Function.update s.cmdbuf 0 0 0 = 0
  exact Function.update_self ..

theorem enter_blank (h : Refines s e) (hblank : words e.line.chars = []) (hback : e.back = 0) :
    Refines s.newPrompt e.enter := by
  rw [Editor.enter, if_pos hblank]
  refine ⟨newPrompt_text s,rfl,rfl,h.latest,h.stored,?_,?_⟩
  · have hhist := h.hist
    rw [hback] at hhist
    exact hhist
  · intro b hb h0
    have hslot := h.slots b hb fun hz => absurd (h0 hz) (lt_irrefl 0)
    exact ⟨hslot.text,hslot.length⟩

/-- In the ring the line just entered comes before those entered earlier. -/
theorem record_slot (h : Refines s e) {b : ℕ} (hb : b ≤ e.earlier.length) (hb99 : b < 99) :
    s.record.Slot (s.record.slotAt (b + 1)) ((e.line :: e.earlier).getD b e.draft) := by
  have hl := h.latest_lt
  have hlatest : s.record.latest = (s.latest + 1) % 100 := rfl
  cases b with
  | zero =>
    have hat : s.record.slotAt (0 + 1) = s.latest := by
      rw [Shell.slotAt, nhist, hlatest]
      omega
    rw [hat]
    refine ⟨?_,?_⟩
    · rw [Shell.record]
      dsimp only
      rw [Function.update_self]
      exact h.text.strncpy e.line.no_nul h.ptr.ge _
    · rw [Shell.record]
      dsimp only
      rw [Function.update_self]
      exact h.ptr
  | succ b =>
    have hat : s.record.slotAt (b + 1 + 1) = s.slotAt (b + 1) := by
      rw [Shell.slotAt, Shell.slotAt, nhist, hlatest]
      omega
    have hne : s.slotAt (b + 1) ≠ s.latest := by
      rw [Shell.slotAt, nhist]
      omega
    have hslot := h.slots (b + 1) hb fun h0 => absurd h0 (Nat.succ_ne_zero b)
    rw [hat]
    refine ⟨?_,?_⟩
    · rw [Shell.record]
      dsimp only
      rw [Function.update_of_ne hne]
      exact hslot.text
    · rw [Shell.record]
      dsimp only
      rw [Function.update_of_ne hne]
      exact hslot.length

theorem enter_line (h : Refines s e) (hline : words e.line.chars ≠ []) :
    Refines s.record.newPrompt e.enter := by
  have hl : s.latest = s.total % 100 := h.latest
  have hst : e.earlier.length = min s.total 99 := h.stored
  have hlatest : s.record.latest = (s.latest + 1) % 100 := rfl
  have htotal : s.record.total = s.total + 1 := rfl
  rw [Editor.enter, if_neg hline]
  have hlen : ((e.line :: e.earlier).take (nhist - 1)).length = min (s.total + 1) (nhist - 1) := by
    rw [List.length_take, List.length_cons, hst, nhist]
    omega
  refine ⟨newPrompt_text _,rfl,rfl,?_,hlen,?_,?_⟩
  · change s.record.latest = s.record.total % nhist
    rw [hlatest, htotal, hl, nhist]
    omega
  · change (s.latest + 1) % nhist = ((s.latest + 1) % nhist + nhist - 0) % nhist
    rw [nhist]
    omega
  · intro b hb h0
    have hb' : b ≤ min (s.total + 1) 99 := hb.trans hlen.le
    cases b with
    | zero => exact absurd (h0 rfl) (lt_irrefl 0)
    | succ b =>
      have hslot := h.record_slot (b := b) (by omega) (by omega)
      have hget : ((e.line :: e.earlier).take (nhist - 1)).getD b e.draft =
          (e.line :: e.earlier).getD b e.draft := by
        rw [List.getD_eq_getElem _ _ (Nat.lt_of_succ_le hb), List.getElem_take,
          List.getD_eq_getElem _ _ (by rw [List.length_cons]; omega)]
      rw [← hget] at hslot
      exact ⟨hslot.text,hslot.length⟩

end Refines

/-! ## Any sequence of keys -/

/-- The line shown is not a changed copy of an earlier one, unless it is the oldest. -/
def Editor.Unchanged (e : Editor) : Prop :=
  e.back = 0 ∨ e.back = e.earlier.length ∨ e.line = e.lineAt e.back

/-- What holds of the editor beside, when keys are pressed as `Admits` says. -/
structure Editor.Sound (e : Editor) : Prop where
  earlier : ∀ l ∈ e.earlier, words l.chars ≠ []
  line : 0 < e.back → words e.line.chars ≠ []
  unchanged : e.Unchanged

/-- When a key keeps the shell in step with the editor: nothing is erased, a recalled
line is not typed at unless it is the oldest, and a line entered has room in `argv`
and in `total`. -/
def Shell.Admits (s : Shell) : Key → Prop
  | .char _ => s.hist = s.latest ∨ s.Oldest ∨ s.ptr + 1 = bufSize
  | .backspace => s.ptr = 0
  | .enter => FitsArgv (words s.typed) ∧ (words s.typed ≠ [] → s.total + 1 ≠ 2 ^ 31)
  | .up => True
  | .down => True

namespace Editor
variable {e : Editor}

theorem lineAt_earlier (hs : ∀ l ∈ e.earlier, words l.chars ≠ []) {b : ℕ} (hb : b < e.earlier.length) :
    words (e.lineAt (b + 1)).chars ≠ [] := by
  rw [lineAt, List.getD_eq_getElem _ _ hb]
  exact hs _ (List.getElem_mem hb)

theorem Sound.type (hs : e.Sound) (c : Printable)
    (hc : e.back = 0 ∨ e.back = e.earlier.length ∨ e.line.chars.length + 1 = bufSize) :
    (e.type c).Sound := by
  by_cases hroom : e.line.chars.length + 1 < bufSize
  · rw [Editor.type, dif_pos hroom]
    refine ⟨hs.earlier,fun hb => ?_,?_⟩
    · have hline := hs.line hb
      rw [ne_eq, words_eq_nil] at hline ⊢
      exact fun hall => hline fun d hd => hall d (List.mem_append_left _ hd)
    · rcases hc with h | h | h
      · exact .inl h
      · exact .inr (.inl h)
      · omega
  · rw [Editor.type, dif_neg hroom]
    exact hs

theorem Sound.enter (hs : e.Sound) : e.enter.Sound := by
  rw [Editor.enter]
  split
  · exact ⟨hs.earlier,fun h => absurd h (lt_irrefl 0),.inl rfl⟩
  · rename_i hline
    refine ⟨fun l hl => ?_,fun h => absurd h (lt_irrefl 0),.inl rfl⟩
    rcases List.mem_cons.mp (List.mem_of_mem_take hl) with rfl | hl
    · exact hline
    · exact hs.earlier l hl

theorem Sound.up (hs : e.Sound) : e.up.Sound := by
  by_cases hlt : e.back < e.earlier.length
  · have hline : e.up.line = e.up.lineAt (e.back + 1) := by
      rw [Refines.lineAt_up hlt, Editor.up, dif_pos hlt]
    have hearlier : e.up.earlier = e.earlier := by rw [Editor.up, dif_pos hlt]
    have hback : e.up.back = e.back + 1 := by rw [Editor.up, dif_pos hlt]
    refine ⟨by rw [hearlier]; exact hs.earlier,fun _ => ?_,.inr (.inr (by rw [hback]; exact hline))⟩
    rw [hline]
    exact lineAt_earlier (by rw [hearlier]; exact hs.earlier) (by rw [hearlier]; exact hlt)
  · rw [Editor.up, dif_neg hlt]
    exact hs

theorem Sound.down (hs : e.Sound) : e.down.Sound := by
  by_cases h0 : e.back = 0
  · rw [Editor.down, if_pos h0]
    exact hs
  · rw [Editor.down, if_neg h0]
    refine ⟨hs.earlier,fun hb => ?_,.inr (.inr rfl)⟩
    have hle := e.back_le
    have hb' : 0 < e.back - 1 := hb
    obtain ⟨b,hb1⟩ : ∃ b, e.back - 1 = b + 1 := ⟨e.back - 2,by omega⟩
    change words (e.lineAt (e.back - 1)).chars ≠ []
    rw [hb1]
    exact lineAt_earlier hs.earlier (by omega)

/-- One line up and down again shows what the ring has for the place. -/
theorem up_down (hlt : e.back < e.earlier.length) :
    e.up.down.line = e.stash.lineAt e.back ∧ e.up.down.earlier = e.earlier ∧
      e.up.down.back = e.back ∧ e.up.down.draft = e.stash.draft := by
  have hup : e.up.back = e.back + 1 := by rw [up, dif_pos hlt]
  have hdown : e.up.down.line = e.up.lineAt e.back := by
    rw [down, if_neg (by omega)]
    change e.up.lineAt (e.up.back - 1) = _
    rw [hup, Nat.add_sub_cancel]
  refine ⟨by rw [hdown, Refines.lineAt_up hlt],?_,?_,?_⟩
  · rw [down, if_neg (by omega), up, dif_pos hlt]
  · rw [down, if_neg (by omega)]
    change e.up.back - 1 = e.back
    omega
  · rw [down, if_neg (by omega), up, dif_pos hlt]

theorem up_down_recalled (hlt : e.back < e.earlier.length) (hb : e.back ≠ 0)
    (hline : e.line = e.lineAt e.back) : e.up.down = e := by
  obtain ⟨h1,h2,h3,h4⟩ := up_down hlt
  have hstash : e.stash = e := if_neg hb
  rw [hstash] at h1 h4
  exact Editor.ext (h1.trans hline.symm) h2 h3 h4

/-- `k` keys up and `k` keys down. -/
def arrows (k : ℕ) : List Key := List.replicate k .up ++ List.replicate k .down

theorem run_arrows_succ (e : Editor) (k : ℕ) : e.run (arrows (k+1)) = (e.up.run (arrows k)).down := by
  have hl : arrows (k+1) = .up :: (arrows k ++ [.down]) := by
    rw [arrows, arrows, List.replicate_succ, List.replicate_succ', List.cons_append,
      List.append_assoc]
  rw [hl, run, run, List.foldl_cons, List.foldl_append]
  rfl

theorem run_arrows_recalled {k : ℕ} (hk : k ≤ e.earlier.length - e.back) (hb : e.back ≠ 0)
    (hline : e.line = e.lineAt e.back) : e.run (arrows k) = e := by
  induction k generalizing e with
  | zero => rfl
  | succ k ih =>
    have hlt : e.back < e.earlier.length := by omega
    have hup : e.up.back = e.back + 1 ∧ e.up.earlier = e.earlier := by
      rw [up, dif_pos hlt]
      exact ⟨rfl,rfl⟩
    have hline' : e.up.line = e.up.lineAt e.up.back := by
      rw [Refines.lineAt_up hlt, hup.1, up, dif_pos hlt]
    rw [run_arrows_succ, ih (by rw [hup.1, hup.2]; omega) (by omega) hline',
      up_down_recalled hlt hb hline]

/-- Arrows up and back down restore a line that is not a changed copy. -/
theorem run_arrows (hu : e.Unchanged) {k : ℕ} (hk : k ≤ e.earlier.length - e.back) :
    (e.run (arrows k)).line = e.line := by
  cases k with
  | zero => rfl
  | succ k =>
    have hlt : e.back < e.earlier.length := by omega
    have hup : e.up.back = e.back + 1 ∧ e.up.earlier = e.earlier := by
      rw [up, dif_pos hlt]
      exact ⟨rfl,rfl⟩
    have hline' : e.up.line = e.up.lineAt e.up.back := by
      rw [Refines.lineAt_up hlt, hup.1, up, dif_pos hlt]
    have hback : e.up.run (arrows k) = e.up :=
      run_arrows_recalled (by rw [hup.1, hup.2]; omega) (by omega) hline'
    rw [run_arrows_succ, hback, (up_down hlt).1]
    rcases hu with h0 | h0 | h0
    · simp [stash, h0, lineAt]
    · omega
    · by_cases hb : e.back = 0
      · simp [stash, hb, lineAt]
      · rw [stash, if_neg hb, h0]

end Editor

namespace Shell
variable {s : Shell} {e : Editor}

theorem press_char (s : Shell) (c : Printable) : s.press (Key.char c).code = .ok (s.insert c) := by
  have hne : ∀ d : UInt8, ¬ (0x20 ≤ d ∧ d < 0x7F) → c.1 ≠ d := by
    rintro d hd rfl
    exact hd c.2
  rw [press, Key.code, if_neg (hne 8 (by decide)), if_neg (hne 10 (by decide)),
    if_neg (hne 0xE2 (by decide)), if_neg (hne 0xE3 (by decide))]

theorem press_refines (h : Refines s e) (hs : e.Sound) {key : Key} (ha : s.Admits key) :
    ∃ s', s.press key.code = .ok s' ∧ Refines s' (e.press key) ∧ (e.press key).Sound := by
  cases key with
  | char c =>
    refine ⟨_,press_char s c,h.type c,hs.type c ?_⟩
    rw [← h.hist_eq_latest, ← h.oldest_iff, ← h.ptr]
    exact ha
  | backspace =>
    have hnil : e.line.dropLast = e.line := by
      ext1
      simp [Line.dropLast, List.length_eq_zero_iff.mp (h.ptr.symm.trans ha)]
    refine ⟨s.erase,rfl,h.backspace ha,?_⟩
    rw [Editor.press, hnil]
    exact hs
  | enter =>
    obtain ⟨hfits,htotal⟩ := ha
    have henter := enter_of_fits hfits
    rw [h.typed] at henter htotal
    by_cases hblank : words e.line.chars = []
    · have hback : e.back = 0 := by
        by_contra hb
        exact hs.line (Nat.pos_of_ne_zero hb) hblank
      rw [if_pos hblank] at henter
      exact ⟨_,henter,h.enter_blank hblank hback,hs.enter⟩
    · rw [if_neg hblank, nextBuf, if_neg (htotal hblank)] at henter
      exact ⟨_,henter,h.enter_line hblank,hs.enter⟩
  | up => exact ⟨_,rfl,h.up,hs.up⟩
  | down => exact ⟨_,rfl,h.down,hs.down⟩

theorem run_append (s : Shell) (ks ks' : List Key) :
    s.run (ks ++ ks') = s.run ks >>= fun s => s.run ks' := List.foldlM_append ..

theorem run_take_succ {keys : List Key} {i : ℕ} (hi : i < keys.length) (s : Shell) :
    s.run (keys.take (i+1)) = s.run (keys.take i) >>= fun s => s.press keys[i].code := by
  rw [List.take_succ_eq_append_getElem hi, run_append]
  congr 1
  funext s
  exact bind_pure _

theorem run_refines {keys : List Key} {i : ℕ} (hi : i ≤ keys.length)
    (ha : ∀ (j : ℕ) (hj : j < keys.length) (s : Shell), j < i →
      init.run (keys.take j) = .ok s → s.Admits keys[j]) :
    ∃ s, init.run (keys.take i) = .ok s ∧ Refines s (Editor.init.run (keys.take i)) ∧
      (Editor.init.run (keys.take i)).Sound := by
  induction i with
  | zero =>
    refine ⟨init,rfl,refines_init,?_,fun h => absurd h (lt_irrefl 0),.inl rfl⟩
    exact fun l hl => absurd hl List.not_mem_nil
  | succ i ih =>
    obtain ⟨s,hrun,hr,hs⟩ := ih (by omega) fun j hj s hji => ha j hj s (by omega)
    have hlt : i < keys.length := hi
    obtain ⟨s',hs',hr',hsound⟩ := press_refines hr hs (ha i hlt s (by omega) hrun)
    have he : Editor.init.run (keys.take (i+1)) =
        (Editor.init.run (keys.take i)).press keys[i] := by
      rw [Editor.run, List.take_succ_eq_append_getElem hi, List.foldl_append]
      rfl
    rw [run_take_succ hi, hrun, he]
    exact ⟨s',hs',hr',hsound⟩

/-- The buffer, its length and the screen show the line `l`. -/
structure Shows (s : Shell) (l : List UInt8) : Prop where
  buffer : Holds s.cmdbuf l
  length : s.ptr = l.length
  strlen : strlen s.cmdbuf = s.ptr
  screen : s.screen = prompt ++ l

theorem Shows.unique {l l' : List UInt8} (h : s.Shows l) (h' : s.Shows l') : l = l' :=
  List.append_cancel_left (h.screen.symm.trans h'.screen)

end Shell

theorem Refines.shows {s : Shell} {e : Editor} (h : Refines s e) : s.Shows e.line.chars where
  buffer := h.text
  length := h.ptr
  strlen := (h.text.strlen e.line.no_nul e.line.short).trans h.ptr.symm
  screen := h.screen

/-- What the keys should have led to: the line of the editor is shown; after an Enter
the next key up recalls the line entered; keys up and as many down restore the line. -/
structure Works (keys : List Key) (s : Shell) : Prop where
  shows : s.Shows (Editor.init.run keys).line.chars
  entered : ∀ before, keys = before ++ [.enter] → s.hist = s.latest ∧
    (words (Editor.init.run before).line.chars ≠ [] →
      ∃ s', s.press Key.up.code = .ok s' ∧ s'.Shows (Editor.init.run before).line.chars)
  restores : ∀ k ≤ (Editor.init.run keys).earlier.length - (Editor.init.run keys).back,
    ∃ s', s.run (Editor.arrows k) = .ok s' ∧ s'.Shows (Editor.init.run keys).line.chars

theorem Refines.run_arrows {s : Shell} {e : Editor} (h : Refines s e) {keys : List Key}
    (hk : ∀ key ∈ keys, key = .up ∨ key = .down) :
    ∃ s', s.run keys = .ok s' ∧ Refines s' (e.run keys) := by
  induction keys generalizing s e with
  | nil => exact ⟨s,rfl,h⟩
  | cons key keys ih =>
    have hrest : ∀ key ∈ keys, key = .up ∨ key = .down := fun key hkey => hk key (by simp [hkey])
    rcases hk key (by simp) with rfl | rfl
    · exact ih h.up hrest
    · exact ih h.down hrest

theorem mem_arrows {k : ℕ} {key : Key} (h : key ∈ Editor.arrows k) : key = .up ∨ key = .down := by
  rcases List.mem_append.mp h with h | h
  · exact .inl (List.eq_of_mem_replicate h)
  · exact .inr (List.eq_of_mem_replicate h)

theorem Editor.enter_up {e : Editor} (h : words e.line.chars ≠ []) : e.enter.up.line = e.line := by
  have hlt : e.enter.back < e.enter.earlier.length := by
    rw [Editor.enter, if_neg h]
    change 0 < ((e.line :: e.earlier).take (nhist - 1)).length
    rw [List.length_take, List.length_cons, nhist]
    omega
  have hat : e.enter.up.line = e.enter.stash.lineAt (e.enter.back + 1) := by
    rw [Editor.up, dif_pos hlt]
  rw [hat, Refines.lineAt_stash hlt (fun h0 => absurd h0 (Nat.succ_ne_zero _)), Editor.enter,
    if_neg h]
  rfl

theorem Refines.works {keys : List Key} {s : Shell} (h : Refines s (Editor.init.run keys))
    (hs : (Editor.init.run keys).Sound) : Works keys s where
  shows := h.shows
  entered := by
    rintro before rfl
    have he : Editor.init.run (before ++ [.enter]) = (Editor.init.run before).enter := by
      rw [Editor.run, List.foldl_append]
      rfl
    rw [he] at h
    have hback : (Editor.init.run before).enter.back = 0 := by
      rw [Editor.enter]
      split <;> rfl
    refine ⟨h.hist_eq_latest.mpr hback,fun hline => ⟨s.keyUp,rfl,?_⟩⟩
    rw [← Editor.enter_up hline]
    exact h.up.shows
  restores := by
    intro k hk
    obtain ⟨s',hrun,h'⟩ := h.run_arrows fun _ => mem_arrows (k := k)
    have hline := Editor.run_arrows hs.unchanged hk
    have hshows := h'.shows
    rw [hline] at hshows
    exact ⟨s',hrun,hshows⟩

/-- A changed copy of an earlier line is lost by one key up and one down. -/
theorem type_lost {s : Shell} {e : Editor} (h : Refines s e) (hu : e.Unchanged) {c : Printable}
    (hb : e.back ≠ 0) (hlt : e.back < e.earlier.length) (hroom : e.line.chars.length + 1 < bufSize) :
    ∃ s', (s.insert c).run (Editor.arrows 1) = .ok s' ∧ ¬ s'.Shows (e.type c).line.chars := by
  obtain ⟨s',hrun,h'⟩ := (h.type c).run_arrows fun _ => mem_arrows (k := 1)
  refine ⟨s',hrun,fun hshows => ?_⟩
  have htype : e.type c = { e with line := e.line.snoc c hroom } := dif_pos hroom
  have hback : (e.type c).back = e.back := by rw [htype]
  have hstash : (e.type c).stash = e.type c := if_neg (by rw [hback]; exact hb)
  have hlineAt : ∀ b, (e.type c).lineAt b = e.lineAt b := by
    intro b
    rw [htype]
    cases b <;> rfl
  have hline : ((e.type c).run (Editor.arrows 1)).line = e.line := by
    have hlt' : (e.type c).back < (e.type c).earlier.length := by rw [htype]; exact hlt
    rw [Editor.run_arrows_succ]
    change (e.type c).up.down.line = e.line
    rw [(Editor.up_down hlt').1, hstash, hback, hlineAt]
    rcases hu with h0 | h0 | h0
    · exact absurd h0 hb
    · omega
    · exact h0.symm
  have heq := hshows.unique h'.shows
  rw [hline, htype] at heq
  exact absurd (congrArg List.length heq) (by simp [Line.snoc])

theorem admits_of_works {keys : List Key} {key : Key} {s s' : Shell}
    (h : Refines s (Editor.init.run keys)) (hs : (Editor.init.run keys).Sound)
    (hp : s.press key.code = .ok s') (hw : Works (keys ++ [key]) s') : s.Admits key := by
  have he : Editor.init.run (keys ++ [key]) = (Editor.init.run keys).press key := by
    rw [Editor.run, List.foldl_append]
    rfl
  have hshows := hw.shows
  have hrestores := hw.restores
  rw [he] at hshows hrestores
  generalize Editor.init.run keys = e at h hs hshows hrestores
  cases key with
  | char c =>
    rw [Shell.press_char] at hp
    cases hp
    by_contra hna
    simp only [Shell.Admits, not_or] at hna
    obtain ⟨hlatest,hold,hfull⟩ := hna
    rw [h.hist_eq_latest] at hlatest
    rw [h.oldest_iff] at hold
    rw [h.ptr] at hfull
    have hlt := lt_of_le_of_ne e.back_le hold
    have hroom : e.line.chars.length + 1 < bufSize := by
      have := e.line.short
      omega
    obtain ⟨s',hrun,hlost⟩ := type_lost h hs.unchanged hlatest hlt hroom
    have htype : e.press (.char c) = e.type c := rfl
    have habove : 1 ≤ (e.type c).earlier.length - (e.type c).back := by
      rw [Editor.type, dif_pos hroom]
      change 1 ≤ e.earlier.length - e.back
      omega
    obtain ⟨s'',hrun',hshows'⟩ := hrestores 1 habove
    rw [hrun] at hrun'
    cases hrun'
    exact hlost hshows'
  | backspace =>
    cases hp
    by_contra hpos
    have hpos' : 0 < s.ptr := Nat.pos_of_ne_zero hpos
    -- the byte taken off the screen is still in the buffer
    have hlen := hshows.strlen
    have hs' : s.erase = { s with ptr := s.ptr - 1, screen := printf s.screen [8] } := if_pos hpos'
    rw [hs'] at hlen
    have hold := h.shows.strlen
    dsimp only at hlen
    omega
  | enter =>
    have hfits := Shell.fits_of_enter hp
    refine ⟨hfits,fun hline ht => ?_⟩
    have henter : s.enter = .ok s' := hp
    rw [Shell.enter_of_fits hfits, if_neg hline, Shell.nextBuf, if_pos ht] at henter
    cases henter
  | up => trivial
  | down => trivial

/-- For every sequence of keys: the shell does after every key what the editor says,
exactly when every key is admitted where it is pressed. -/
theorem works_iff (keys : List Key) :
    (∀ i ≤ keys.length, ∃ s, Shell.init.run (keys.take i) = .ok s ∧ Works (keys.take i) s) ↔
      ∀ (i : ℕ) (hi : i < keys.length) (s : Shell), Shell.init.run (keys.take i) = .ok s →
        s.Admits keys[i] := by
  constructor
  · intro hall i
    induction i using Nat.strong_induction_on with
    | _ i ih =>
      intro hi s hrun
      obtain ⟨s₁,hrun₁,hr,hs⟩ := Shell.run_refines (i := i) hi.le fun j hj s hji => ih j hji hj s
      rw [hrun] at hrun₁
      cases hrun₁
      obtain ⟨s',hrun',hw⟩ := hall (i+1) hi
      rw [Shell.run_take_succ hi, hrun] at hrun'
      rw [List.take_succ_eq_append_getElem hi] at hw
      exact admits_of_works hr hs hrun' hw
  · intro ha i hi
    obtain ⟨s,hrun,hr,hs⟩ := Shell.run_refines hi fun j hj s _ => ha j hj s
    exact ⟨s,hrun,hr.works hs⟩

def letter (c : UInt8) (h : 0x20 ≤ c ∧ c < 0x7F) : Key := .char ⟨c,h⟩

/-- Four sequences of keys. After `a` and a backspace the buffer still holds `a`.
After `a`, Enter, up, backspace and Enter the cursor is still back. After `a`, Enter,
`b`, Enter, up and `x`, a key up and a key down turn `bx` into `b`. A line of
seventeen words has no defined effect. -/
theorem editor_differs :
    (∃ s, Shell.init.run [letter 97 (by decide),.backspace] = .ok s ∧ s.ptr = 0 ∧
      strlen s.cmdbuf = 1) ∧
    (∃ s, Shell.init.run [letter 97 (by decide),.enter,.up,.backspace,.enter] = .ok s ∧
      s.hist ≠ s.latest) ∧
    (∃ s s', Shell.init.run [letter 97 (by decide),.enter,letter 98 (by decide),.enter,.up,
        letter 120 (by decide)] = .ok s ∧ s.screen = prompt ++ [98,120] ∧
      s.run [.up,.down] = .ok s' ∧ s'.screen = prompt ++ [98]) ∧
    ∀ s, Shell.init.run ((List.replicate 17 [letter 97 (by decide),letter 32 (by decide)]).flatten ++
      [.enter]) ≠ .ok s := by
  refine ⟨⟨_,rfl,rfl,?_⟩,⟨_,rfl,?_⟩,⟨_,_,rfl,?_,rfl,?_⟩,?_⟩
  · decide +kernel
  · decide +kernel
  · decide +kernel
  · decide +kernel
  · intro s h
    have hfail : (Shell.init.run ((List.replicate 17
        [letter 97 (by decide),letter 32 (by decide)]).flatten ++ [.enter])).toBool = false := by
      decide +kernel
    rw [h] at hfail
    cases hfail

end Ukern.Sh
