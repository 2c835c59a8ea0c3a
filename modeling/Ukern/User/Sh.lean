import Mathlib.Algebra.Group.Nat.Defs
import Ukern.User.String

/-! # The shell

The event loop of `user/sh.c`. A key is the byte `sys_read` delivers. `screen` is
what the terminal shows from the last prompt on, where `'\b'` takes a cell away.
What running a command prints comes before the next prompt, so `fork`, `exec`,
`wait` and `chdir` do not show in the state of the editor.
-/
namespace Ukern.Sh

def nargv : ℕ := 16
def argSize : ℕ := 256
def nhist : ℕ := 100
def bufSize : ℕ := 4096

/-- Where the program has no defined behaviour: a word that has no `argv`, and a
signed overflow of `total`. -/
inductive Undefined
  | argvOverrun | totalOverflow
  deriving DecidableEq, Repr

structure Shell where
  cmdbuf : ℕ → UInt8
  history : ℕ → ℕ → UInt8
  histptr : ℕ → ℕ
  total : ℕ
  ptr : ℕ
  latest : ℕ
  hist : ℕ
  screen : List UInt8

/-- `"sh # "`. -/
def prompt : List UInt8 := [115,104,32,35,32]

def putch (screen : List UInt8) (c : UInt8) : List UInt8 :=
  if c = 8 then screen.dropLast else screen ++ [c]

def printf (screen : List UInt8) (text : List UInt8) : List UInt8 := text.foldl putch screen

def blank (c : UInt8) : Bool := c = 32 ∨ c = 9

/-- `if (j != 0)`: close the word in hand. -/
def closeWord (argv : List (List UInt8)) (word : List UInt8) : List (List UInt8) :=
  if word = [] then argv else argv ++ [word]

/-- The loop that cuts the line into words, with `argc = argv.length` and
`j = word.length`; `none` is the exit of a word that is too long. -/
def splitArgs : List (List UInt8) → List UInt8 → List UInt8 →
    Except Undefined (Option (List (List UInt8)))
  | argv, word, [] => .ok (some (closeWord argv word))
  | argv, word, c :: cs =>
    if blank c then splitArgs (closeWord argv word) [] cs
    else if argv.length = nargv then .error .argvOverrun
    else if word.length + 1 = argSize then .ok none
    else splitArgs argv (word ++ [c]) cs

namespace Shell

/-- The first `ptr` bytes of `cmdbuf`. -/
def typed (s : Shell) : List UInt8 := (List.range s.ptr).map s.cmdbuf

def init : Shell :=
  { cmdbuf := fun _ => 0, history := fun _ _ => 0, histptr := fun _ => 0, total := 0, ptr := 0,
    latest := 0, hist := 0, screen := prompt }

def erase (s : Shell) : Shell :=
  if 0 < s.ptr then { s with ptr := s.ptr - 1, screen := printf s.screen [8] } else s

/-- From `new_prompt` on. -/
def newPrompt (s : Shell) : Shell :=
  { s with ptr := 0, cmdbuf := Function.update s.cmdbuf 0 0, screen := prompt }

/-- Put the line into the ring. -/
def record (s : Shell) : Shell :=
  { s with
    history := Function.update s.history s.latest (strncpy (s.history s.latest) s.cmdbuf s.ptr)
    histptr := Function.update s.histptr s.latest s.ptr
    latest := (s.latest + 1) % nhist
    hist := (s.latest + 1) % nhist
    total := s.total + 1 }

/-- From `next_buf` on. -/
def nextBuf (s : Shell) : Except Undefined Shell :=
  if s.total + 1 = 2 ^ 31 then .error .totalOverflow else .ok s.record.newPrompt

def enter (s : Shell) : Except Undefined Shell := do
  match ← splitArgs [] [] s.typed with
  | some [] => .ok s.newPrompt
  | _ => s.nextBuf

/-- The test that stops a key up. -/
def Oldest (s : Shell) : Prop := s.hist = (s.latest + 1) % nhist ∨ s.hist = 0 ∧ s.total < 100

instance (s : Shell) : Decidable s.Oldest := inferInstanceAs (Decidable (_ ∨ _))

/-- Take the line off the screen and show the one of slot `h`. -/
def fetch (s : Shell) (h : ℕ) : Shell :=
  let screen := (List.range s.ptr).foldl (fun screen _ => printf screen [8]) s.screen
  let cmdbuf := strncpy s.cmdbuf (s.history h) bufSize
  { s with
    hist := h, ptr := s.histptr h, cmdbuf := cmdbuf
    screen := printf screen (cstring cmdbuf 0 bufSize) }

/-- `if (hist == latest)`: save the current line first. -/
def save (s : Shell) : Shell :=
  if s.hist = s.latest then
    { s with
      history := Function.update s.history s.latest (strncpy (s.history s.latest) s.cmdbuf bufSize)
      histptr := Function.update s.histptr s.latest s.ptr }
  else s

def keyUp (s : Shell) : Shell :=
  if s.Oldest then s else s.save.fetch ((s.hist + 99) % nhist)

def keyDown (s : Shell) : Shell :=
  if s.hist = s.latest then s else s.fetch ((s.hist + 1) % nhist)

def insert (s : Shell) (c : UInt8) : Shell :=
  if s.ptr < bufSize - 1 then
    { s with
      cmdbuf := Function.update (Function.update s.cmdbuf s.ptr c) (s.ptr + 1) 0
      ptr := s.ptr + 1
      screen := printf s.screen [c] }
  else s

/-- One round of the event loop. -/
def press (s : Shell) (c : UInt8) : Except Undefined Shell :=
  if c = 8 then .ok s.erase
  else if c = 10 then s.enter
  else if c = 0xE2 then .ok s.keyUp
  else if c = 0xE3 then .ok s.keyDown
  else .ok (s.insert c)

end Shell

/-- The printable characters. -/
abbrev Printable := {c : UInt8 // 0x20 ≤ c ∧ c < 0x7F}

inductive Key
  | char (c : Printable) | backspace | enter | up | down
  deriving DecidableEq

def Key.code : Key → UInt8
  | .char c => c
  | .backspace => 8
  | .enter => 10
  | .up => 0xE2
  | .down => 0xE3

/-- A whole sequence of keys. -/
def Shell.run (s : Shell) (keys : List Key) : Except Undefined Shell :=
  keys.foldlM (fun s key => s.press key.code) s

end Ukern.Sh
