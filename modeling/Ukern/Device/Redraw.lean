import Ukern.Lib.Grid
import Ukern.Device.Console

/-! # What the screen shows

`console_putch` draws a cell only where its character changes, also when it scrolls. The screen shows
`cbuf` all the same: every block of pixels holds the glyph of its cell, because no two blocks share a
pixel. `cbuf` is the contents of a terminal that moves all its lines up at once.
-/
namespace Ukern

/-! ## The terminal -/

/-- A terminal of `rows` lines, with a cursor that may stand behind the last cell. -/
structure Terminal where
  rows : ℕ
  cols : ℕ
  cell : ℕ → UInt8
  cursor : ℕ

namespace Terminal

def size (t : Terminal) : ℕ := t.rows * t.cols

def clear (rows cols : ℕ) : Terminal := ⟨rows,cols,fun _ => 32,0⟩

/-- Every line takes the place of the one above it, and the last line is blank. -/
def scroll (t : Terminal) : Terminal :=
  { t with
    cell := fun i => if i < (t.rows - 1) * t.cols then t.cell (i + t.cols) else 32
    cursor := t.cursor - t.cols }

def blankTo (t : Terminal) (stop : ℕ) : Terminal :=
  { t with cell := fun i => if t.cursor ≤ i ∧ i < stop then 32 else t.cell i, cursor := stop }

/-- The effect of a byte on a terminal whose cursor is on a cell. -/
def act (t : Terminal) (c : UInt8) : Terminal :=
  if c = 10 then t.blankTo (Console.nextStop t.cols t.cursor)
  else if c = 8 then { t with cell := Function.update t.cell (t.cursor - 1) 32, cursor := t.cursor - 1 }
  else if c = 13 then { t with cursor := t.cursor - t.cursor % t.cols }
  else if c = 9 then t.blankTo (Console.nextStop 4 t.cursor)
  else { t with cell := Function.update t.cell t.cursor c, cursor := t.cursor + 1 }

def putch (t : Terminal) (c : UInt8) : Terminal := if t.cursor = t.size then t.scroll.act c else t.act c

def write (t : Terminal) (bytes : List UInt8) : Terminal := bytes.foldl putch t

end Terminal

namespace Console
open Lib
variable {G con con' : Console} {P P' : ℕ → UInt8} {D D' : ℕ → Prop} {p q i j h : ℕ} {ch c : UInt8} {m : UInt32}

/-! ## Pixels -/

/-- A screen of `h` pixel lines that holds all the cells, with pixels that a `u32` can count. -/
structure Geometry (G : Console) (h : ℕ) : Prop where
  fits : G.Fits
  rows : G.rows.toNat * G.vpixel.toNat ≤ h
  cols : G.cols.toNat * G.hpixel.toNat ≤ G.width.toNat
  area : G.width.toNat * h ≤ 2 ^ 32

/-- Where row `i` and column `j` of a cell's block are. -/
def pixelOf (G : Console) (p i j : ℕ) : ℕ := (G.pixelAt (UInt32.ofNat p) (UInt32.ofNat i) (UInt32.ofNat j)).toNat

theorem Geometry.pixelOf_eq (hG : G.Geometry h) (hp : p < G.cells) (hi : i < G.vpixel.toNat) (hj : j < G.hpixel.toNat) :
    ∃ y x, G.pixelOf p i j = y * G.width.toNat + x ∧ x < G.width.toNat ∧
      y = p / G.cols.toNat * G.vpixel.toNat + i ∧ x = p % G.cols.toNat * G.hpixel.toNat + j := by
  have hcols := hG.fits.cols
  have hcells := hG.fits.cells
  have hrow : p / G.cols.toNat < G.rows.toNat := Nat.div_lt_of_lt_mul (by rwa [Nat.mul_comm])
  have hcol : p % G.cols.toNat < G.cols.toNat := Nat.mod_lt _ hcols
  obtain ⟨y,hy⟩ : ∃ y, y = p / G.cols.toNat * G.vpixel.toNat + i := ⟨_,rfl⟩
  obtain ⟨x,hx⟩ : ∃ x, x = p % G.cols.toNat * G.hpixel.toNat + j := ⟨_,rfl⟩
  have hylt : y < h := by
    have hle := Nat.mul_le_mul_right G.vpixel.toNat (Nat.succ_le_of_lt hrow)
    rw [Nat.succ_mul] at hle
    have := hG.rows
    omega
  have hxlt : x < G.width.toNat := by
    have hle := Nat.mul_le_mul_right G.hpixel.toNat (Nat.succ_le_of_lt hcol)
    rw [Nat.succ_mul] at hle
    have := hG.cols
    omega
  have hlt : y * G.width.toNat + x < 2 ^ 32 := by
    have hle := Nat.mul_le_mul_right G.width.toNat (Nat.succ_le_of_lt hylt)
    rw [Nat.succ_mul, Nat.mul_comm h] at hle
    have := hG.area
    omega
  refine ⟨y,x,?_,hxlt,hy,hx⟩
  have hpi : (UInt32.ofNat p).toNat = p := by
    rw [UInt32.toNat_ofNat']
    exact Nat.mod_eq_of_lt (by omega)
  have hmod : G.pixelOf p i j = (y * G.width.toNat + x) % 2 ^ 32 := by
    rw [hy, hx, pixelOf, pixelAt]
    simp only [UInt32.toNat_add, UInt32.toNat_mul, UInt32.toNat_div, UInt32.toNat_mod, hpi, UInt32.toNat_ofNat']
    simp only [Nat.mod_add_mod, Nat.add_mod_mod, Nat.mod_mul_mod, Nat.add_assoc]
  rw [hmod, Nat.mod_eq_of_lt hlt]

theorem Geometry.pixelOf_inj (hG : G.Geometry h) {i' j' : ℕ} (hp : p < G.cells) (hq : q < G.cells)
    (hi : i < G.vpixel.toNat) (hj : j < G.hpixel.toNat) (hi' : i' < G.vpixel.toNat) (hj' : j' < G.hpixel.toNat)
    (he : G.pixelOf p i j = G.pixelOf q i' j') : p = q ∧ i = i' ∧ j = j' := by
  obtain ⟨y,x,hpix,hx,hy',hx'⟩ := hG.pixelOf_eq hp hi hj
  obtain ⟨y₂,x₂,hpix₂,hx₂,hy₂',hx₂'⟩ := hG.pixelOf_eq hq hi' hj'
  obtain ⟨rfl,rfl⟩ := row_major hx hx₂ (by rw [← hpix, he, hpix₂])
  obtain ⟨hrow,rfl⟩ := row_major hi hi' (hy'.symm.trans hy₂')
  obtain ⟨hcol,rfl⟩ := row_major hj hj' (hx'.symm.trans hx₂')
  refine ⟨?_,rfl,rfl⟩
  rw [← Nat.div_add_mod p G.cols.toNat, hrow, hcol, Nat.div_add_mod]

/-- The colour of a pixel of the character's glyph. -/
def shade (G : Console) (ch : UInt8) (i j : ℕ) : UInt32 :=
  if G.glyphAt (if ischar ch then ch else 63) (UInt32.ofNat i) (UInt32.ofNat j) then 0x00FFFFFF else 0

/-- The block of cell `p` shows the character, or a question mark for it. -/
def Shows (G : Console) (pixels : ℕ → UInt32) (p : ℕ) (ch : UInt8) : Prop :=
  ∀ i < G.vpixel.toNat, ∀ j < G.hpixel.toNat, pixels (G.pixelOf p i j) = G.shade ch i j

/-- The static variables that no byte changes. -/
structure SameFont (G con : Console) : Prop where
  grid : G.SameGrid con
  width : con.width = G.width
  hpixel : con.hpixel = G.hpixel
  vpixel : con.vpixel = G.vpixel
  bytesPerGlyph : con.bytesPerGlyph = G.bytesPerGlyph
  font : con.font = G.font

theorem SameFont.pixelOf (hs : G.SameFont con) : con.pixelOf = G.pixelOf := by
  unfold Console.pixelOf pixelAt
  rw [hs.grid.2, hs.vpixel, hs.hpixel, hs.width]

theorem SameFont.shade (hs : G.SameFont con) : con.shade = G.shade := by
  unfold Console.shade glyphAt
  rw [hs.hpixel, hs.font, hs.bytesPerGlyph]

theorem printFontAt_pixelbuf (con : Console) (ch : UInt8) (p : ℕ) : (con.printFontAt ch (UInt32.ofNat p)).pixelbuf =
    (List.range con.vpixel.toNat).foldl (fun f i => (List.range con.hpixel.toNat).foldl
      (fun f j => Function.update f (con.pixelOf p i j) (con.shade ch i j)) f) con.pixelbuf := rfl

/-! ## Cells -/

/-- The cells in `D` have the characters `P`, and the screen shows them. -/
structure Drawn (G con : Console) (P : ℕ → UInt8) (D : ℕ → Prop) : Prop where
  same : G.SameFont con
  cbuf : ∀ p < G.cells, D p → con.cbuf p = P p
  shows : ∀ p < G.cells, D p → G.Shows con.pixelbuf p (P p)

namespace Drawn

theorem congr (hd : G.Drawn con P D) (h : ∀ p < G.cells, D' p → D p ∧ P p = P' p) : G.Drawn con P' D' where
  same := hd.same
  cbuf := by
    intro p hp hD
    obtain ⟨hD,he⟩ := h p hp hD
    rw [hd.cbuf p hp hD, he]
  shows := by
    intro p hp hD
    obtain ⟨hD,he⟩ := h p hp hD
    rw [← he]
    exact hd.shows p hp hD

theorem ind (hd : G.Drawn con P D) (x : UInt32) : G.Drawn { con with ind := x } P D :=
  ⟨⟨hd.same.grid,hd.same.width,hd.same.hpixel,hd.same.vpixel,hd.same.bytesPerGlyph,hd.same.font⟩,hd.cbuf,hd.shows⟩

theorem printFontAt (hd : G.Drawn con P D) (hG : G.Geometry h) (hp : p < G.cells) (ch : UInt8) :
    G.Drawn (con.printFontAt ch (UInt32.ofNat p)) (Function.update P p ch) (fun q => D q ∨ q = p) := by
  have hcells := hG.fits.cells
  have hint : intOf (UInt32.ofNat p) = p := intOf_ofNat (by omega)
  have hpix := printFontAt_pixelbuf con ch p
  rw [hd.same.vpixel, hd.same.hpixel, hd.same.pixelOf, hd.same.shade] at hpix
  obtain ⟨hin,hout⟩ := foldl_grid (G.shade ch) con.pixelbuf fun i hi j hj i' hi' j' hj' he =>
    (hG.pixelOf_inj hp hp hi hj hi' hj' he).2
  rw [← hpix] at hin hout
  constructor
  · exact ⟨hd.same.grid,hd.same.width,hd.same.hpixel,hd.same.vpixel,hd.same.bytesPerGlyph,hd.same.font⟩
  · intro q hq hD
    change Function.update con.cbuf (intOf (UInt32.ofNat p)) ch q = _
    rw [hint]
    by_cases he : q = p
    · rw [he, Function.update_self, Function.update_self]
    · rw [Function.update_of_ne (by exact_mod_cast he), Function.update_of_ne he]
      exact hd.cbuf q hq (hD.resolve_right he)
  · intro q hq hD i hi j hj
    by_cases he : q = p
    · rw [he, Function.update_self]
      exact hin i hi j hj
    · rw [hout, Function.update_of_ne he]
      · exact hd.shows q hq (hD.resolve_right he) i hi j hj
      · intro i' hi' j' hj' hpq
        exact he (hG.pixelOf_inj hq hp hi hj hi' hj' hpq).1

theorem put (hd : G.Drawn con P D) (hG : G.Geometry h) (hp : con.ind.toNat < G.cells) (ch : UInt8) :
    G.Drawn (con.put ch) (Function.update P con.ind.toNat ch) (fun q => D q ∨ q = con.ind.toNat) := by
  have hofNat : UInt32.ofNat con.ind.toNat = con.ind := UInt32.ofNat_toNat
  have hprint := (hd.printFontAt hG hp ch).ind (con.ind + 1)
  rw [hofNat] at hprint
  exact hprint

theorem blanks (hd : G.Drawn con P D) (hG : G.Geometry h) (hm : 0 < m.toNat)
    (hstop : nextStop m.toNat con.ind.toNat ≤ G.cells) :
    G.Drawn (con.blanks m) (fun i => if con.ind.toNat ≤ i ∧ i < nextStop m.toNat con.ind.toNat then 32 else P i)
      (fun i => D i ∨ con.ind.toNat ≤ i ∧ i < nextStop m.toNat con.ind.toNat) := by
  have hcells := hG.fits.cells
  fun_induction Console.blanks m con generalizing P D with
  | case1 con hgo ih =>
    have hlt := lt_nextStop hm con.ind.toNat
    have hsucc : (con.put 32).ind.toNat = con.ind.toNat + 1 := by
      rw [put_ind, toNat_succ (by omega)]
    have hnext : nextStop m.toNat (con.put 32).ind.toNat = nextStop m.toNat con.ind.toNat := by
      rw [hsucc, nextStop_succ]
      rw [← hsucc, ← UInt32.toNat_mod]
      exact fun h0 => hgo (UInt32.toNat.inj h0)
    rw [hnext] at ih
    refine (ih (hd.put hG (by omega) 32) hstop).congr ?_
    intro p _ hp
    rw [hsucc]
    rcases Nat.lt_trichotomy p con.ind.toNat with hpi | hpi | hpi
    · have hD := hp.resolve_right (by omega)
      exact ⟨.inl (.inl hD),by rw [if_neg (by omega), if_neg (by omega), Function.update_of_ne hpi.ne]⟩
    · exact ⟨.inl (.inr hpi),by rw [if_neg (by omega), if_pos (by omega), hpi, Function.update_self]⟩
    · refine ⟨hp.elim (fun hD => .inl (.inl hD)) fun hr => .inr (by omega),?_⟩
      rw [Function.update_of_ne hpi.ne']
      exact if_congr (by omega) rfl rfl
  | case2 con hend =>
    have hlt := lt_nextStop hm con.ind.toNat
    have hsucc : (con.put 32).ind.toNat = con.ind.toNat + 1 := by
      rw [put_ind, toNat_succ (by omega)]
    have hnext : nextStop m.toNat con.ind.toNat = con.ind.toNat + 1 := by
      apply nextStop_of_mod
      rw [← hsucc, ← UInt32.toNat_mod, not_not.mp hend]
      rfl
    refine (hd.put hG (by omega) 32).congr ?_
    intro p _ hp
    rw [hnext] at hp ⊢
    by_cases hpi : p = con.ind.toNat
    · exact ⟨.inr hpi,by rw [if_pos (by omega), hpi, Function.update_self]⟩
    · exact ⟨.inl (hp.resolve_right (by omega)),by rw [if_neg (by omega), Function.update_of_ne hpi]⟩

/-- Cell `i` takes the character of the cell below it, drawn only if it is another one. -/
theorem liftCell (hd : G.Drawn con P fun _ => True) (hG : G.Geometry h) (hi : i + G.cols.toNat < G.cells) :
    G.Drawn (con.liftCell i) (Function.update P i (P (i + G.cols.toNat))) fun _ => True := by
  have hcells := hG.fits.cells
  have hbelow : con.cbuf (intOf (UInt32.ofNat i + con.cols)) = P (i + G.cols.toNat) := by
    have hnat : (UInt32.ofNat i + con.cols).toNat = i + G.cols.toNat := by
      rw [UInt32.toNat_add, UInt32.toNat_ofNat', hd.same.grid.2]
      omega
    rw [intOf_eq (by omega), hnat]
    exact hd.cbuf _ hi trivial
  have hhere : con.cbuf i = P i := hd.cbuf i (by omega) trivial
  unfold Console.liftCell
  rw [hbelow, hhere]
  by_cases he : P i = P (i + G.cols.toNat)
  · rw [if_neg (not_not.mpr he), ← he, Function.update_eq_self]
    exact hd
  · rw [if_pos he]
    exact (hd.printFontAt hG (by omega) _).congr fun p _ _ => ⟨.inl trivial,rfl⟩

theorem blankCell (hd : G.Drawn con P fun _ => True) (hG : G.Geometry h) (hi : i < G.cells) :
    G.Drawn (con.blankCell i) (Function.update P i 32) fun _ => True := by
  unfold Console.blankCell
  rw [show con.cbuf i = P i from hd.cbuf i hi trivial]
  by_cases he : P i = 32
  · rw [if_neg (not_not.mpr he), ← he, Function.update_eq_self]
    exact hd
  · rw [if_pos he]
    exact (hd.printFontAt hG hi _).congr fun p _ _ => ⟨.inl trivial,rfl⟩

/-- The loop works in place, from the first cell on: what it still has to read is as it was. -/
theorem lift (hd : G.Drawn con P fun _ => True) (hG : G.Geometry h) :
    G.Drawn ((List.range (G.cells - G.cols.toNat)).foldl Console.liftCell con)
      (fun i => if i < G.cells - G.cols.toNat then P (i + G.cols.toNat) else P i) fun _ => True := by
  refine foldl_range_inv (fun n con => G.Drawn con (fun i => if i < n then P (i + G.cols.toNat) else P i) fun _ => True)
    (by simpa using hd) ?_
  intro n con hn hc
  refine (hc.liftCell hG (by omega)).congr fun p _ _ => ⟨trivial,?_⟩
  have hcols := hG.fits.cols
  rcases Nat.lt_trichotomy p n with hp | rfl | hp
  · rw [Function.update_of_ne hp.ne, if_pos hp, if_pos (by omega)]
  · rw [Function.update_self, if_neg (by omega), if_pos (by omega)]
  · rw [Function.update_of_ne hp.ne', if_neg (by omega), if_neg (by omega)]

theorem wipe (hd : G.Drawn con P fun _ => True) (hG : G.Geometry h) {a : ℕ} (ha : a ≤ G.cells) :
    G.Drawn ((List.range' a (G.cells - a)).foldl Console.blankCell con)
      (fun i => if a ≤ i then 32 else P i) fun _ => True := by
  rw [List.range'_eq_map_range, List.foldl_map]
  have hstep : ∀ n con, n < G.cells - a → G.Drawn con (fun i => if a ≤ i ∧ i < a + n then 32 else P i) (fun _ => True) →
      G.Drawn (con.blankCell (a + n)) (fun i => if a ≤ i ∧ i < a + (n + 1) then 32 else P i) fun _ => True := by
    intro n con hn hc
    refine (hc.blankCell hG (by omega)).congr fun p _ _ => ⟨trivial,?_⟩
    by_cases hp : p = a + n
    · rw [hp, Function.update_self, if_pos (by omega)]
    · rw [Function.update_of_ne hp]
      exact if_congr (by omega) rfl rfl
  have hstart : G.Drawn con (fun i => if a ≤ i ∧ i < a + 0 then 32 else P i) fun _ => True :=
    hd.congr fun p _ _ => ⟨trivial,by rw [if_neg (by omega)]⟩
  refine (foldl_range_inv _ hstart hstep).congr fun p hp _ => ⟨trivial,?_⟩
  exact if_congr (by omega) rfl rfl

theorem scroll (hd : G.Drawn con P fun _ => True) (hG : G.Geometry h) :
    G.Drawn con.scroll (fun i => if i < G.cells - G.cols.toNat then P (i + G.cols.toNat) else 32) fun _ => True := by
  have hlift := hd.lift hG
  have hgrid := hlift.same.grid
  have hlast : ((con.rows - 1) * con.cols).toNat = G.cells - G.cols.toNat := by
    rw [(hd.same.grid.fits hG.fits).toNat_last, hd.same.grid.cells, hd.same.grid.2]
  have hall := (hgrid.fits hG.fits).toNat_cells
  rw [hgrid.cells] at hall
  unfold Console.scroll
  dsimp only
  rw [hlast, hall]
  refine ((hlift.wipe hG (Nat.sub_le _ _)).congr fun p _ _ => ⟨trivial,?_⟩).ind _
  by_cases hp : p < G.cells - G.cols.toNat
  · rw [if_neg (not_le.mpr hp), if_pos hp, if_pos hp]
  · rw [if_pos (not_lt.mp hp), if_neg hp]

end Drawn

/-! ## One byte -/

/-- The console shows the terminal. -/
structure Matches (G con : Console) (t : Terminal) : Prop where
  drawn : G.Drawn con t.cell fun _ => True
  cursor : con.ind.toNat = t.cursor
  rows : t.rows = G.rows.toNat
  cols : t.cols = G.cols.toNat

namespace Matches
variable {t : Terminal}

theorem size (hm : G.Matches con t) : t.size = G.cells := by rw [Terminal.size, hm.rows, hm.cols, cells]

theorem scroll (hm : G.Matches con t) (hG : G.Geometry h) (hfull : t.cursor = t.size) : G.Matches con.scroll t.scroll := by
  have hcols := hG.fits.cols_le
  have hfits := hm.drawn.same.grid.fits hG.fits
  have hind : con.ind.toNat = con.cells := by rw [hm.cursor, hfull, hm.size, hm.drawn.same.grid.cells]
  constructor
  · refine (hm.drawn.scroll hG).congr fun p _ _ => ⟨trivial,?_⟩
    rw [Terminal.scroll, hm.cols, hm.rows, Nat.sub_mul, Nat.one_mul]
    rfl
  · rw [(scroll_spec hfits hind).2.1, hm.drawn.same.grid.cells, hm.drawn.same.grid.2, Terminal.scroll, hfull, hm.size, hm.cols]
  · exact hm.rows
  · exact hm.cols

theorem blanks (hm : G.Matches con t) (hG : G.Geometry h) (hpos : 0 < m.toNat)
    (hstop : nextStop m.toNat t.cursor ≤ G.cells) : G.Matches (con.blanks m) (t.blankTo (nextStop m.toNat t.cursor)) := by
  have hcells := hG.fits.cells
  rw [← hm.cursor] at hstop ⊢
  constructor
  · refine (hm.drawn.blanks hG hpos hstop).congr fun p _ _ => ⟨.inl trivial,?_⟩
    rw [Terminal.blankTo, hm.cursor]
  · exact (blanks_spec hpos (by omega)).1
  · exact hm.rows
  · exact hm.cols

/-- A byte on a cell of the screen, when the cursor does not leave it. -/
theorem act (hm : G.Matches con t) (hG : G.Geometry h) (hlt : t.cursor < G.cells) (c : UInt8)
    (h8 : c = 8 → 0 < t.cursor) (h9 : c = 9 → nextStop 4 t.cursor ≤ G.cells) : G.Matches
      (if c = 10 then con.blanks con.cols
      else if c = 8 then con.backspace
      else if c = 13 then { con with ind := con.ind - con.ind % con.cols }
      else if c = 9 then con.blanks tabSize
      else con.put c) (t.act c) := by
  have hcells := hG.fits.cells
  have hcur := hm.cursor
  have hcols : con.cols = G.cols := hm.drawn.same.grid.2
  unfold Terminal.act
  split_ifs with h10 hb hr ht
  · have hstop : nextStop G.cols.toNat t.cursor ≤ G.cells :=
      Nat.mul_le_mul_right _ (Nat.div_lt_of_lt_mul (by rwa [Nat.mul_comm]))
    rw [hcols, hm.cols]
    exact hm.blanks hG hG.fits.cols hstop
  · have hpos := h8 hb
    have hsub : (con.ind - 1).toNat = t.cursor - 1 := by
      rw [UInt32.toNat_sub_of_le _ _ (UInt32.le_iff_toNat_le.mpr (by rw [hcur]; exact hpos)), hcur]
      rfl
    have hof : UInt32.ofNat (t.cursor - 1) = con.ind - 1 := by rw [← hsub, UInt32.ofNat_toNat]
    have hprint := (hm.drawn.ind (con.ind - 1)).printFontAt hG (show t.cursor - 1 < G.cells by omega) 32
    rw [hof] at hprint
    exact ⟨hprint.congr fun p _ _ => ⟨.inl trivial,rfl⟩,hsub,hm.rows,hm.cols⟩
  · refine ⟨hm.drawn.ind _,?_,hm.rows,hm.cols⟩
    have hle : (con.ind % con.cols).toNat ≤ con.ind.toNat := by
      rw [UInt32.toNat_mod]
      exact Nat.mod_le _ _
    rw [UInt32.toNat_sub_of_le _ _ (UInt32.le_iff_toNat_le.mpr hle), UInt32.toNat_mod, hcur, hcols, hm.cols]
  · exact hm.blanks hG (m := tabSize) (by decide) (h9 ht)
  · have hput := hm.drawn.put hG (by rwa [hcur]) c
    rw [hcur] at hput
    refine ⟨hput.congr fun p _ _ => ⟨.inl trivial,rfl⟩,?_,hm.rows,hm.cols⟩
    rw [put_ind, toNat_succ (by omega), hcur]

/-- The console before the byte acts, with the terminal scrolled if it has to be. -/
theorem ready (hm : G.Matches con t) (hG : G.Geometry h) (hle : t.cursor ≤ G.cells) :
    ∃ t', G.Matches con.ready t' ∧ t'.cursor < G.cells ∧ ∀ c, t.putch c = t'.act c := by
  have hcols := hG.fits.cols
  have hcols' := hG.fits.cols_le
  have hfits := hm.drawn.same.grid.fits hG.fits
  have hfull : con.ind = con.rows * con.cols ↔ t.cursor = t.size := by
    rw [← UInt32.toNat_inj, hfits.toNat_cells, hm.cursor, hm.drawn.same.grid.cells, hm.size]
  unfold Console.ready Terminal.putch
  by_cases hc : t.cursor = t.size
  · rw [if_pos (hfull.mpr hc)]
    refine ⟨t.scroll,hm.scroll hG hc,?_,fun c => if_pos hc⟩
    rw [Terminal.scroll, hc, hm.size, hm.cols]
    dsimp only
    omega
  · rw [if_neg (mt hfull.mp hc)]
    rw [hm.size] at hc
    exact ⟨t,hm,by omega,fun c => if_neg (by rwa [hm.size])⟩

theorem putch (hm : G.Matches con t) (hG : G.Geometry h) (hle : t.cursor ≤ G.cells) (c : UInt8)
    (hnext : (consolePutch con c).ind.toNat ≤ G.cells) : G.Matches (consolePutch con c) (t.putch c) := by
  have hcells := hG.fits.cells
  obtain ⟨t',hm',hlt,hact⟩ := hm.ready hG hle
  rw [consolePutch_eq] at hnext ⊢
  rw [hact]
  refine hm'.act hG hlt c ?_ ?_
  · rintro rfl
    by_contra h0
    -- the cursor would wrap to the largest `u32`
    have hz : con.ready.ind = 0 := by
      apply UInt32.toNat.inj
      rw [hm'.cursor]
      exact Nat.eq_zero_of_not_pos h0
    have hback : (con.ready.ind - 1).toNat ≤ G.cells := hnext
    rw [hz] at hback
    have hbig : (0 - 1 : UInt32).toNat = 2 ^ 32 - 1 := rfl
    omega
  · rintro rfl
    have hstop : nextStop 4 con.ready.ind.toNat < 2 ^ 31 := by
      rw [hm'.cursor, nextStop]
      omega
    have hind := (blanks_spec (m := tabSize) (by decide) hstop).1
    have htab : (con.ready.blanks tabSize).ind.toNat ≤ G.cells := hnext
    rw [hind, hm'.cursor] at htab
    exact htab

/-- Every byte that leaves the cursor on the screen keeps the match. -/
theorem write (hm : G.Matches con t) (hG : G.Geometry h) (bytes : List UInt8)
    (hcur : ∀ i ≤ bytes.length, (con.write (bytes.take i)).ind.toNat ≤ G.cells) :
    G.Matches (con.write bytes) (t.write bytes) := by
  induction bytes generalizing con t with
  | nil => exact hm
  | cons c bytes ih =>
    have hle : t.cursor ≤ G.cells := hm.cursor ▸ hcur 0 (Nat.zero_le _)
    refine ih (hm.putch hG hle c (hcur 1 (Nat.succ_pos _))) fun i hi => ?_
    exact hcur (i+1) (Nat.succ_le_succ hi)

end Matches

/-! ## Whole runs -/

/-- After `k` newlines on a fresh console the first `k` lines are blank. -/
theorem newlines_drawn {s : Screen} (hG : s.blank.Geometry h) {k : ℕ} (hk : k ≤ s.blank.rows.toNat) :
    s.blank.Drawn ((List.replicate k 10).foldl consolePutch s.blank) (fun _ => 32)
      (fun p => p < k * s.blank.cols.toNat) := by
  induction k with
  | zero =>
    refine ⟨⟨⟨rfl,rfl⟩,rfl,rfl,rfl,rfl,rfl⟩,?_,?_⟩
    · intro p _ hp
      omega
    · intro p _ hp
      omega
  | succ k ih =>
    have hd := ih (by omega)
    obtain ⟨hg,hind,-⟩ := newlines_spec s hG.fits (Nat.le_of_succ_le hk)
    rw [List.replicate_succ', List.foldl_append]
    generalize (List.replicate k 10).foldl consolePutch s.blank = con at hd hg hind ⊢
    have hlt : con.ind.toNat < con.cells := by
      rw [hind, hg.cells, hg.2]
      exact Nat.mul_lt_mul_of_pos_right (by omega) hG.fits.cols
    have hstop : nextStop con.cols.toNat con.ind.toNat = (k+1) * s.blank.cols.toNat := by
      rw [nextStop, hind, hg.2, Nat.mul_div_cancel _ hG.fits.cols]
    have hle := nextStop_cols_le hlt
    rw [hg.cells] at hle
    change s.blank.Drawn (consolePutch con 10) _ _
    rw [newline_eq (hg.fits hG.fits) hlt]
    refine (hd.blanks hG (hg.fits hG.fits).cols hle).congr fun p _ hp => ?_
    rw [hstop, hind, hg.2]
    by_cases hpk : p < k * s.blank.cols.toNat
    · exact ⟨.inl hpk,if_neg (by omega)⟩
    · exact ⟨.inr ⟨by omega,hp⟩,if_pos ⟨by omega,hp⟩⟩

theorem initConsole_matches {s : Screen} (hG : s.blank.Geometry h) (hinit : initConsole s = .ok con) :
    s.blank.Matches con (.clear s.blank.rows.toNat s.blank.cols.toNat) := by
  have hd := newlines_drawn hG le_rfl
  unfold initConsole at hinit
  dsimp only at hinit
  split at hinit
  · cases hinit
    exact ⟨(hd.congr fun p hp _ => ⟨hp,rfl⟩).ind 0,rfl,rfl,rfl⟩
  · cases hinit

/-- What the console should be after the bytes: `cbuf` is the contents of the terminal, and every block of
pixels shows its cell of `cbuf`. -/
def ShowsTerminal (s : Screen) (con : Console) (bytes : List UInt8) : Prop :=
  ∀ p < con.cells,
    (con.write bytes).cbuf p = ((Terminal.clear s.blank.rows.toNat s.blank.cols.toNat).write bytes).cell p ∧
    s.blank.Shows (con.write bytes).pixelbuf p ((con.write bytes).cbuf p)

theorem Screen.geometry {s : Screen} (hf : s.blank.Fits) (harea : s.width.toNat * s.height.toNat ≤ 2 ^ 32) :
    s.blank.Geometry s.height.toNat where
  fits := hf
  rows := by
    rw [show s.blank.rows = s.height / s.vpixel from rfl, UInt32.toNat_div]
    exact Nat.div_mul_le_self _ _
  cols := by
    rw [show s.blank.cols = s.width / s.hpixel from rfl, UInt32.toNat_div]
    exact Nat.div_mul_le_self _ _
  area := harea

/-- On every screen whose cells fit `cbuf` and whose pixels a `u32` can count, and for every sequence of
bytes during which the cursor stays on the screen, drawing only what changes is as good as drawing it all. -/
theorem redraw_shows_terminal {s : Screen} (hf : s.blank.Fits) (harea : s.width.toNat * s.height.toNat ≤ 2 ^ 32)
    (hinit : initConsole s = .ok con) (bytes : List UInt8)
    (hcur : ∀ i ≤ bytes.length, (con.write (bytes.take i)).ind.toNat ≤ con.cells) : ShowsTerminal s con bytes := by
  have hG := Screen.geometry hf harea
  have hm := initConsole_matches hG hinit
  have hcells : con.cells = s.blank.cells := hm.drawn.same.grid.cells
  rw [hcells] at hcur
  have hend := hm.write hG bytes hcur
  intro p hp
  rw [hcells] at hp
  have hcell := hend.drawn.cbuf p hp trivial
  refine ⟨hcell,?_⟩
  rw [hcell]
  exact hend.drawn.shows p hp trivial

theorem initConsole_cursor {s : Screen} (hf : s.blank.Fits) (hinit : initConsole s = .ok con) (c : UInt8)
    (h8 : c ≠ 8) (h9 : c ≠ 9) : ∀ i ≤ [c].length, (con.write ([c].take i)).ind.toNat ≤ con.cells := by
  obtain ⟨hg,-,hs⟩ := initConsole_spec hf hinit
  have hfits := hg.fits hf
  intro i hi
  obtain rfl | rfl : i = 0 ∨ i = 1 := by
    rw [List.length_singleton] at hi
    omega
  · exact hs.ind
  · rw [← (consolePutch_sameGrid hfits hs c).cells]
    exact ((consolePutch_safe hfits hs c).mpr (room_of_other h8 h9)).ind

theorem redraw_shows_terminal_text : ∃ con, initConsole (textScreen 25 80) = .ok con ∧
    ShowsTerminal (textScreen 25 80) con [65] := by
  obtain ⟨con,h⟩ := textScreen_opens 25 80
  have hf : (textScreen 25 80).blank.Fits := ⟨by decide,by decide,by decide⟩
  exact ⟨con,h,redraw_shows_terminal hf (by decide) h [65] (initConsole_cursor hf h 65 (by decide) (by decide))⟩

/-- 512 lines of 256 cells, each of 256 lines of 256 pixels. The letter `A` has its first pixel set. -/
def hugeScreen : Screen :=
  { buf := 0, glyph := fun n => if n = 65 * 8192 then 0x80 else 0, width := 65536, height := 131072, hpixel := 256,
    vpixel := 256, bytesPerGlyph := 8192 }

/-- The pixels of cell 65536 are those of cell 0, modulo `2^32`. -/
theorem redraw_aliases : ∃ con, initConsole hugeScreen = .ok con ∧ hugeScreen.blank.Fits ∧
    (∀ i ≤ [65].length, (con.write ([65].take i)).ind.toNat ≤ con.cells) ∧ ¬ ShowsTerminal hugeScreen con [65] := by
  have hf : hugeScreen.blank.Fits := ⟨by decide,by decide,by decide⟩
  obtain ⟨con,hinit⟩ : ∃ con, initConsole hugeScreen = .ok con := by
    unfold initConsole
    exact ⟨_,if_pos (by decide)⟩
  refine ⟨con,hinit,hf,initConsole_cursor hf hinit 65 (by decide) (by decide),fun hshow => ?_⟩
  have hcells : con.cells = 131072 := (initConsole_spec hf hinit).1.cells.trans (by decide)
  obtain ⟨hcell,hpix⟩ := hshow 0 (by omega)
  obtain ⟨hcell',hpix'⟩ := hshow 65536 (by omega)
  rw [hcell] at hpix
  rw [hcell'] at hpix'
  have hA := hpix 0 (by decide) 0 (by decide)
  have hblank := hpix' 0 (by decide) 0 (by decide)
  rw [show hugeScreen.blank.pixelOf 65536 0 0 = hugeScreen.blank.pixelOf 0 0 0 by decide, hA] at hblank
  exact absurd hblank (by decide)

end Console

end Ukern
