import Mathlib.Logic.Function.Basic
import Ukern.Kernel.State

/-! # The console

`console.c`. The static variables are one record, with the words of the source
as `UInt32`, so that the cursor wraps where the source's does. C does not check an
index: `cbuf` is indexed by the `int` it is given, and `prints` records that
argument for every call of `print_font_at`.
-/
namespace Ukern

def tabSize : UInt32 := 4

/-- `struct screen`, without the two fields `init_console` does not read. -/
structure Screen where
  buf : U64
  glyph : ℕ → UInt8
  width : UInt32
  height : UInt32
  hpixel : UInt32
  vpixel : UInt32
  bytesPerGlyph : UInt32

structure Console where
  ind : UInt32
  rows : UInt32
  cols : UInt32
  width : UInt32
  hpixel : UInt32
  vpixel : UInt32
  bytesPerGlyph : UInt32
  font : ℕ → UInt8
  cbuf : ℤ → UInt8
  pixelbuf : ℕ → UInt32
  prints : List ℤ

/-- A `u32` passed as an `int`. -/
def intOf (x : UInt32) : ℤ := x.toBitVec.toInt

namespace Console

def glyphAt (con : Console) (ch : UInt8) (i j : UInt32) : Bool :=
  let n := i * ((con.hpixel + 7) / 8) * 8 + j
  let ind := n / 8
  let off := n % 8
  (con.font (ch.toUInt32 * con.bytesPerGlyph + ind).toNat).toBitVec.getLsbD (7 - off.toNat)

def ischar (ch : UInt8) : Bool := 0x20 ≤ ch ∧ ch < 0x7F

/-- The pixel a cell's row `i` and column `j` fall on. -/
def pixelAt (con : Console) (pos i j : UInt32) : UInt32 :=
  let r := pos / con.cols * con.vpixel
  let c := pos % con.cols * con.hpixel
  (r + i) * con.width + c + j

def printFontAt (con : Console) (ch : UInt8) (pos : UInt32) : Console :=
  let shown := if ischar ch then ch else 63
  let draw (pixels : ℕ → UInt32) (i : ℕ) : ℕ → UInt32 :=
    (List.range con.hpixel.toNat).foldl (fun pixels j =>
      let i := UInt32.ofNat i
      let j := UInt32.ofNat j
      Function.update pixels (con.pixelAt pos i j).toNat
        (if con.glyphAt shown i j then 0x00FFFFFF else 0)) pixels
  { con with
    cbuf := Function.update con.cbuf (intOf pos) ch
    pixelbuf := (List.range con.vpixel.toNat).foldl draw con.pixelbuf
    prints := con.prints ++ [intOf pos] }

/-- One round of the first loop of a full screen: cell `i` takes what is below it. -/
def liftCell (con : Console) (i : ℕ) : Console :=
  let below := con.cbuf (intOf (UInt32.ofNat i + con.cols))
  if con.cbuf i ≠ below then con.printFontAt below (UInt32.ofNat i) else con

/-- One round of the second loop: cell `i` of the last line is blanked. -/
def blankCell (con : Console) (i : ℕ) : Console :=
  if con.cbuf i ≠ 32 then con.printFontAt 32 (UInt32.ofNat i) else con

/-- What `console_putch` does first when the cursor is behind the last cell. -/
def scroll (con : Console) : Console :=
  let last := ((con.rows - 1) * con.cols).toNat
  let con := (List.range last).foldl liftCell con
  let con := (List.range' last ((con.rows * con.cols).toNat - last)).foldl blankCell con
  { con with ind := con.ind - con.cols }

/-- `print_font_at(ch, ind); ++ind`. -/
def put (con : Console) (ch : UInt8) : Console :=
  let con := con.printFontAt ch con.ind
  { con with ind := con.ind + 1 }

/-- `do { print_font_at(' ', ind); ++ind; } while (ind % m)`. -/
def blanks (m : UInt32) (con : Console) : Console :=
  if (con.put 32).ind % m ≠ 0 then blanks m (con.put 32) else con.put 32
termination_by 2 ^ 32 - con.ind.toNat
decreasing_by
  rename_i h
  -- the loop stops at the latest when the cursor wraps to 0
  have hne : con.ind + 1 ≠ 0 := by
    intro h0
    exact h (by simp [put, printFontAt, h0])
  have hlt := con.ind.toNat_lt
  have hsucc : (con.ind + 1).toNat = (con.ind.toNat + 1) % 2 ^ 32 := by simp
  have hnz : (con.ind + 1).toNat ≠ 0 := fun h0 => hne (UInt32.toNat.inj h0)
  change 2 ^ 32 - (con.ind + 1).toNat < 2 ^ 32 - con.ind.toNat
  omega

end Console

def consolePutch (con : Console) (c : UInt8) : Console :=
  let con := if con.ind = con.rows * con.cols then con.scroll else con
  if c = 10 then con.blanks con.cols
  else if c = 8 then
    let con := { con with ind := con.ind - 1 }
    con.printFontAt 32 con.ind
  else if c = 13 then { con with ind := con.ind - con.ind % con.cols }
  else if c = 9 then con.blanks tabSize
  else con.put c

/-- The static variables after the assignments of `init_console`, before it clears
the screen. -/
def Screen.blank (s : Screen) : Console :=
  { ind := 0
    rows := s.height / s.vpixel
    cols := s.width / s.hpixel
    width := s.width
    hpixel := s.hpixel
    vpixel := s.vpixel
    bytesPerGlyph := s.bytesPerGlyph
    font := s.glyph
    cbuf := fun _ => 0
    pixelbuf := fun _ => 0
    prints := [] }

def initConsole (s : Screen) : Except Fault Console :=
  let con := (List.replicate (s.height / s.vpixel).toNat 10).foldl consolePutch s.blank
  let con := { con with ind := 0 }
  if s.buf &&& 0x7FFFFF = 0 then .ok con else .error .assertion

/-- The bytes given to `console_putch`, in order. -/
def Console.write (con : Console) (bytes : List UInt8) : Console := bytes.foldl consolePutch con

end Ukern
