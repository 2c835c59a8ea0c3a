import Mathlib.Tactic.Linarith
import Ukern.Kernel.Console

/-! # The console stays on the screen

Between two calls of `console_putch` the cursor is a cell or just behind the last
one. Each byte keeps that, and every cell drawn is a cell of the screen, with two
exceptions that a user can choose: a backspace in the first cell and a tab whose
next stop is behind the screen.
-/
namespace Ukern.Console
variable {con con' : Console} {m : UInt32} {c : UInt8} {i : ℕ}

def cells (con : Console) : ℕ := con.rows.toNat * con.cols.toNat

/-- The geometries under consideration: `cbuf` has a byte for every cell. -/
structure Fits (con : Console) : Prop where
  rows : 0 < con.rows.toNat
  cols : 0 < con.cols.toNat
  cells : con.cells ≤ 1920 * 1080

/-- A position given to `print_font_at` is a cell. -/
def OnScreen (con : Console) (p : ℤ) : Prop := 0 ≤ p ∧ p < con.cells

/-- The cursor is in place and no call of `print_font_at` has left the screen. -/
structure Safe (con : Console) : Prop where
  ind : con.ind.toNat ≤ con.cells
  prints : ∀ p ∈ con.prints, con.OnScreen p

/-- Same numbers of rows and columns. -/
def SameGrid (con con' : Console) : Prop := con'.rows = con.rows ∧ con'.cols = con.cols

theorem SameGrid.trans {con'' : Console} (h : con.SameGrid con') (h' : con'.SameGrid con'') :
    con.SameGrid con'' := ⟨h'.1.trans h.1,h'.2.trans h.2⟩

theorem SameGrid.cells (h : con.SameGrid con') : con'.cells = con.cells := by
  rw [Console.cells, Console.cells, h.1, h.2]

theorem SameGrid.fits (h : con.SameGrid con') (hf : con.Fits) : con'.Fits where
  rows := by rw [h.1]; exact hf.rows
  cols := by rw [h.2]; exact hf.cols
  cells := by rw [h.cells]; exact hf.cells

theorem SameGrid.onScreen (h : con.SameGrid con') (p : ℤ) : con'.OnScreen p ↔ con.OnScreen p := by
  rw [OnScreen, OnScreen, h.cells]

@[simp] theorem printFontAt_ind (ch : UInt8) (pos : UInt32) :
    (con.printFontAt ch pos).ind = con.ind := rfl
@[simp] theorem printFontAt_prints (ch : UInt8) (pos : UInt32) :
    (con.printFontAt ch pos).prints = con.prints ++ [intOf pos] := rfl
@[simp] theorem put_ind (ch : UInt8) : (con.put ch).ind = con.ind + 1 := rfl
@[simp] theorem put_prints (ch : UInt8) : (con.put ch).prints = con.prints ++ [intOf con.ind] := rfl

theorem printFontAt_sameGrid (ch : UInt8) (pos : UInt32) : con.SameGrid (con.printFontAt ch pos) :=
  ⟨rfl,rfl⟩

theorem put_sameGrid (ch : UInt8) : con.SameGrid (con.put ch) := ⟨rfl,rfl⟩

theorem blanks_sameGrid (m : UInt32) (con : Console) : con.SameGrid (con.blanks m) := by
  fun_induction blanks m con with
  | case1 con _ ih => exact (put_sameGrid 32).trans ih
  | case2 con _ => exact put_sameGrid 32

theorem intOf_eq {x : UInt32} (h : x.toNat < 2 ^ 31) : intOf x = x.toNat := by
  rw [intOf, BitVec.toInt_eq_toNat_of_lt]
  · rfl
  · change 2 * x.toNat < 2 ^ 32
    omega

theorem intOf_ofNat (h : i < 2 ^ 31) : intOf (UInt32.ofNat i) = i := by
  have hi : (UInt32.ofNat i).toNat = i := by
    rw [UInt32.toNat_ofNat']
    exact Nat.mod_eq_of_lt (by omega)
  rw [intOf_eq (by rw [hi]; exact h), hi]

theorem toNat_succ {x : UInt32} (h : x.toNat + 1 < 2 ^ 32) : (x + 1).toNat = x.toNat + 1 := by
  rw [UInt32.toNat_add]
  exact Nat.mod_eq_of_lt h

namespace Fits

theorem toNat_cells (h : con.Fits) : (con.rows * con.cols).toNat = con.cells := by
  have hc := h.cells
  rw [UInt32.toNat_mul]
  exact Nat.mod_eq_of_lt (by rw [Console.cells] at hc; omega)

theorem cols_le (h : con.Fits) : con.cols.toNat ≤ con.cells := Nat.le_mul_of_pos_left _ h.rows

theorem toNat_last (h : con.Fits) :
    ((con.rows - 1) * con.cols).toNat = con.cells - con.cols.toNat := by
  have hr := h.rows
  have hc := h.cells
  have hsub : (con.rows - 1).toNat = con.rows.toNat - 1 := by
    rw [UInt32.toNat_sub_of_le]
    · rfl
    · exact UInt32.le_iff_toNat_le.mpr hr
  have hle : (con.rows.toNat - 1) * con.cols.toNat ≤ con.cells := Nat.mul_le_mul_right _ (by omega)
  rw [UInt32.toNat_mul, hsub, Nat.mod_eq_of_lt (by omega), Console.cells, Nat.sub_mul, Nat.one_mul]

end Fits

/-! ## Scrolling -/

/-- From `con` to `con'` only cells of the screen are drawn. -/
structure Drew (con con' : Console) : Prop where
  grid : con.SameGrid con'
  ind : con'.ind = con.ind
  prints : ∃ l, con'.prints = con.prints ++ l ∧ ∀ p ∈ l, con.OnScreen p

theorem Drew.refl (con : Console) : con.Drew con := ⟨⟨rfl,rfl⟩,rfl,[],by simp⟩

theorem Drew.trans {con'' : Console} (h : con.Drew con') (h' : con'.Drew con'') :
    con.Drew con'' := by
  obtain ⟨l,hl,hs⟩ := h.prints
  obtain ⟨l',hl',hs'⟩ := h'.prints
  refine ⟨h.grid.trans h'.grid,h'.ind.trans h.ind,l ++ l',by rw [hl', hl, List.append_assoc],?_⟩
  intro p hp
  rcases List.mem_append.mp hp with hp | hp
  · exact hs p hp
  · exact (h.grid.onScreen p).mp (hs' p hp)

theorem printFontAt_drew (hf : con.Fits) (ch : UInt8) (hi : i < con.cells) :
    con.Drew (con.printFontAt ch (UInt32.ofNat i)) := by
  refine ⟨printFontAt_sameGrid ch _,rfl,[intOf (UInt32.ofNat i)],rfl,?_⟩
  intro p hp
  have hc := hf.cells
  rw [List.mem_singleton.mp hp, intOf_ofNat (by omega)]
  exact ⟨by omega,by exact_mod_cast hi⟩

theorem liftCell_drew (hf : con.Fits) (hi : i < con.cells) : con.Drew (con.liftCell i) := by
  unfold liftCell
  dsimp only
  split
  · exact printFontAt_drew hf _ hi
  · exact Drew.refl con

theorem blankCell_drew (hf : con.Fits) (hi : i < con.cells) : con.Drew (con.blankCell i) := by
  unfold blankCell
  split
  · exact printFontAt_drew hf _ hi
  · exact Drew.refl con

theorem foldl_drew {f : Console → ℕ → Console}
    (hstep : ∀ con : Console, ∀ i, con.Fits → i < con.cells → con.Drew (f con i)) {l : List ℕ}
    (hf : con.Fits) (hl : ∀ i ∈ l, i < con.cells) : con.Drew (l.foldl f con) := by
  induction l generalizing con with
  | nil => exact Drew.refl con
  | cons a l ih =>
    have h := hstep con a hf (hl a (by simp))
    refine h.trans (ih (h.grid.fits hf) fun i hi => ?_)
    rw [h.grid.cells]
    exact hl i (by simp [hi])

/-- Scrolling draws on the screen and moves the cursor up by one line. -/
theorem scroll_spec (hf : con.Fits) (hi : con.ind.toNat = con.cells) :
    con.SameGrid con.scroll ∧ con.scroll.ind.toNat = con.cells - con.cols.toNat ∧
      ∃ l, con.scroll.prints = con.prints ++ l ∧ ∀ p ∈ l, con.OnScreen p := by
  obtain ⟨con₁,hcon₁⟩ : ∃ x, x = (List.range (con.cells - con.cols.toNat)).foldl liftCell con :=
    ⟨_,rfl⟩
  obtain ⟨con₂,hcon₂⟩ : ∃ x, x = (List.range' (con.cells - con.cols.toNat)
      ((con₁.rows * con₁.cols).toNat - (con.cells - con.cols.toNat))).foldl blankCell con₁ := ⟨_,rfl⟩
  have hcols := hf.cols_le
  have h₁ : con.Drew con₁ := by
    rw [hcon₁]
    refine foldl_drew (fun _ _ => liftCell_drew) hf fun i hi => ?_
    have := List.mem_range.mp hi
    omega
  have h₂ : con₁.Drew con₂ := by
    rw [hcon₂]
    refine foldl_drew (fun _ _ => blankCell_drew) (h₁.grid.fits hf) fun i hi => ?_
    obtain ⟨j,hj,rfl⟩ := List.mem_range'.mp hi
    rw [(h₁.grid.fits hf).toNat_cells] at hj
    omega
  have h := h₁.trans h₂
  have heq : con.scroll = { con₂ with ind := con₂.ind - con₂.cols } := by
    rw [hcon₂, hcon₁, scroll, hf.toNat_last]
  rw [heq]
  refine ⟨h.grid,?_,h.prints⟩
  change (con₂.ind - con₂.cols).toNat = _
  rw [h.ind, h.grid.2, UInt32.toNat_sub_of_le, hi]
  rw [UInt32.le_iff_toNat_le, hi]
  exact hcols

/-! ## Loops to the next stop -/

/-- The next multiple of `m` behind `n`. -/
def nextStop (m n : ℕ) : ℕ := (n / m + 1) * m

theorem lt_nextStop {m : ℕ} (hm : 0 < m) (n : ℕ) : n < nextStop m n :=
  Nat.lt_mul_of_div_lt (Nat.lt_succ_self _) hm

theorem nextStop_succ {m n : ℕ} (h : (n + 1) % m ≠ 0) :
    nextStop m (n+1) = nextStop m n := by
  have hnd : ¬ m ∣ n + 1 := fun hd => h (Nat.mod_eq_zero_of_dvd hd)
  rw [nextStop, nextStop, Nat.succ_div_of_not_dvd hnd]

theorem nextStop_of_mod {m n : ℕ} (h : (n + 1) % m = 0) : nextStop m n = n + 1 := by
  rw [nextStop, ← Nat.succ_div_of_dvd (Nat.dvd_of_mod_eq_zero h)]
  exact Nat.div_mul_cancel (Nat.dvd_of_mod_eq_zero h)

/-- The loop prints every cell from the cursor up to the next multiple of `m`. -/
theorem blanks_spec (hm : 0 < m.toNat) (hlt : nextStop m.toNat con.ind.toNat < 2 ^ 31) :
    (con.blanks m).ind.toNat = nextStop m.toNat con.ind.toNat ∧
      (con.blanks m).prints = con.prints ++
        (List.range' con.ind.toNat (nextStop m.toNat con.ind.toNat - con.ind.toNat)).map Nat.cast := by
  -- on the number of cells still to print
  obtain ⟨d,hd⟩ : ∃ d, nextStop m.toNat con.ind.toNat = con.ind.toNat + (d + 1) :=
    ⟨nextStop m.toNat con.ind.toNat - con.ind.toNat - 1,by
      have := lt_nextStop hm con.ind.toNat
      omega⟩
  induction d generalizing con with
  | zero =>
    have hsucc : (con.ind + 1).toNat = con.ind.toNat + 1 := toNat_succ (by omega)
    have hstop : (con.ind + 1) % m = 0 := by
      apply UInt32.toNat.inj
      have hdvd : m.toNat ∣ con.ind.toNat + 1 := ⟨con.ind.toNat / m.toNat + 1,by
        rw [Nat.mul_comm]; exact hd.symm⟩
      rw [UInt32.toNat_mod, hsucc]
      exact Nat.mod_eq_zero_of_dvd hdvd
    rw [blanks, if_neg (by simp [hstop]), put_ind, put_prints, hsucc, hd, intOf_eq (by omega)]
    refine ⟨rfl,?_⟩
    rw [show con.ind.toNat + (0 + 1) - con.ind.toNat = 1 by omega]
    rfl
  | succ d ih =>
    have hsucc : (con.ind + 1).toNat = con.ind.toNat + 1 := toNat_succ (by omega)
    have hmod : (con.ind.toNat + 1) % m.toNat ≠ 0 := by
      intro h
      have := nextStop_of_mod h
      omega
    have hgo : (con.put 32).ind % m ≠ 0 := by
      intro h
      have h' := congrArg UInt32.toNat h
      rw [put_ind, UInt32.toNat_mod, hsucc] at h'
      exact hmod h'
    have hput : (con.put 32).ind.toNat = con.ind.toNat + 1 := hsucc
    have hnext : nextStop m.toNat (con.put 32).ind.toNat = nextStop m.toNat con.ind.toNat := by
      rw [hput, nextStop_succ hmod]
    obtain ⟨hind,hprints⟩ := ih (by rw [hnext]; exact hlt) (by rw [hnext, hput]; omega)
    rw [blanks, if_pos hgo, hind, hprints, hnext, hput, put_prints, intOf_eq (by omega), hd]
    refine ⟨rfl,?_⟩
    have hrange : List.range' con.ind.toNat (d + 1 + 1) =
        con.ind.toNat :: List.range' (con.ind.toNat + 1) (d + 1) := List.range'_succ
    rw [Nat.add_sub_cancel_left, show con.ind.toNat + (d + 1 + 1) - (con.ind.toNat + 1) = d + 1 by
      omega, hrange, List.map_cons, List.append_assoc, List.singleton_append]

/-! ## One byte -/

/-- The cell the next byte acts on: a full screen is scrolled first. -/
def place (con : Console) : ℕ :=
  if con.ind.toNat = con.cells then con.cells - con.cols.toNat else con.ind.toNat

/-- The byte has room: a backspace a cell before it, a tab its stop on the screen. -/
def Room (con : Console) (c : UInt8) : Prop :=
  (c = 8 → 0 < con.place) ∧ (c = 9 → nextStop 4 con.place ≤ con.cells)

/-- What `con'` has to keep for the byte to be harmless, when it only adds to the
calls made before. -/
theorem safe_iff {l : List ℤ} (hs : con.Safe) (hg : con.SameGrid con')
    (hp : con'.prints = con.prints ++ l) :
    con'.Safe ↔ con'.ind.toNat ≤ con.cells ∧ ∀ p ∈ l, con.OnScreen p := by
  constructor
  · intro h
    refine ⟨hg.cells ▸ h.ind,fun p hl => (hg.onScreen p).mp (h.prints p ?_)⟩
    rw [hp]
    exact List.mem_append_right _ hl
  · rintro ⟨hi,hl⟩
    refine ⟨by rw [hg.cells]; exact hi,fun p hm => (hg.onScreen p).mpr ?_⟩
    rw [hp] at hm
    rcases List.mem_append.mp hm with hm | hm
    · exact hs.prints p hm
    · exact hl p hm

/-- The console with the cursor on the cell the byte acts on. -/
def ready (con : Console) : Console := if con.ind = con.rows * con.cols then con.scroll else con

theorem room_of_other (h8 : c ≠ 8) (h9 : c ≠ 9) : con.Room c :=
  ⟨fun h => absurd h h8,fun h => absurd h h9⟩

theorem place_lt (hf : con.Fits) (hs : con.Safe) : con.place < con.cells := by
  have hc := hf.cols
  have hle := hf.cols_le
  have hi := hs.ind
  unfold place
  split <;> omega

theorem ready_spec (hf : con.Fits) (hs : con.Safe) :
    con.SameGrid con.ready ∧ con.ready.ind.toNat = con.place ∧ con.ready.Safe := by
  have hlt := place_lt hf hs
  by_cases h : con.ind = con.rows * con.cols
  · have hi : con.ind.toNat = con.cells := by rw [h, hf.toNat_cells]
    obtain ⟨hg,hind,l,hp,hl⟩ := scroll_spec hf hi
    have hpl : con.scroll.ind.toNat = con.place := by rw [hind, place, if_pos hi]
    rw [ready, if_pos h]
    exact ⟨hg,hpl,(safe_iff hs hg hp).mpr ⟨by omega,hl⟩⟩
  · have hi : con.ind.toNat ≠ con.cells := by
      rw [← hf.toNat_cells]
      exact fun hn => h (UInt32.toNat.inj hn)
    rw [ready, if_neg h, place, if_neg hi]
    exact ⟨⟨rfl,rfl⟩,rfl,hs⟩

theorem put_safe (hf : con.Fits) (hs : con.Safe) (hlt : con.ind.toNat < con.cells) (ch : UInt8) :
    (con.put ch).Safe := by
  have hc := hf.cells
  refine (safe_iff hs (put_sameGrid ch) (put_prints ch)).mpr ⟨?_,?_⟩
  · rw [put_ind, toNat_succ (by omega)]
    exact hlt
  · intro p hp
    rw [List.mem_singleton.mp hp, intOf_eq (by omega)]
    exact ⟨by omega,by exact_mod_cast hlt⟩

/-- A loop to the next stop stays on the screen when the stop is on it. -/
theorem blanks_safe (hs : con.Safe) (hm : 0 < m.toNat)
    (hlt : nextStop m.toNat con.ind.toNat < 2 ^ 31) :
    (con.blanks m).Safe ↔ nextStop m.toNat con.ind.toNat ≤ con.cells := by
  obtain ⟨hind,hprints⟩ := blanks_spec hm hlt
  rw [safe_iff hs (blanks_sameGrid m con) hprints, hind]
  refine ⟨And.left,fun h => ⟨h,fun p hp => ?_⟩⟩
  obtain ⟨q,hq,rfl⟩ := List.mem_map.mp hp
  obtain ⟨j,hj,rfl⟩ := List.mem_range'.mp hq
  exact ⟨by omega,by push_cast; omega⟩

theorem nextStop_cols_le (hlt : con.ind.toNat < con.cells) :
    nextStop con.cols.toNat con.ind.toNat ≤ con.cells :=
  Nat.mul_le_mul_right _ (Nat.div_lt_of_lt_mul (by rwa [Nat.mul_comm]))

/-- The branch of `'\b'`. -/
def backspace (con : Console) : Console :=
  let con := { con with ind := con.ind - 1 }
  con.printFontAt 32 con.ind

theorem backspace_safe (hf : con.Fits) (hs : con.Safe) :
    con.backspace.Safe ↔ 0 < con.ind.toNat := by
  have hc := hf.cells
  have hi := hs.ind
  have hiff : con.backspace.Safe ↔
      (con.ind - 1).toNat ≤ con.cells ∧ ∀ p ∈ [intOf (con.ind - 1)], con.OnScreen p :=
    safe_iff hs ⟨rfl,rfl⟩ rfl
  rw [hiff]
  constructor
  · rintro ⟨hle,-⟩
    by_contra h0
    -- the cursor wraps to the largest `u32`
    have hz : con.ind = 0 := UInt32.toNat.inj (by simpa using h0)
    rw [hz] at hle
    have hbig : (0 - 1 : UInt32).toNat = 2 ^ 32 - 1 := rfl
    omega
  · intro hpos
    have hsub : (con.ind - 1).toNat = con.ind.toNat - 1 :=
      UInt32.toNat_sub_of_le _ _ (UInt32.le_iff_toNat_le.mpr hpos)
    refine ⟨by omega,fun p hp => ?_⟩
    rw [List.mem_singleton.mp hp, intOf_eq (by omega), hsub]
    exact ⟨by omega,by omega⟩

theorem return_safe (hs : con.Safe) :
    Safe { con with ind := con.ind - con.ind % con.cols } := by
  have hi := hs.ind
  have hle : (con.ind % con.cols).toNat ≤ con.ind.toNat := by
    rw [UInt32.toNat_mod]
    exact Nat.mod_le _ _
  have hsub := UInt32.toNat_sub_of_le _ _ (UInt32.le_iff_toNat_le.mpr hle)
  exact ⟨by change (con.ind - con.ind % con.cols).toNat ≤ con.cells; omega,hs.prints⟩

theorem consolePutch_eq (con : Console) (c : UInt8) :
    consolePutch con c =
      if c = 10 then con.ready.blanks con.ready.cols
      else if c = 8 then con.ready.backspace
      else if c = 13 then { con.ready with ind := con.ready.ind - con.ready.ind % con.ready.cols }
      else if c = 9 then con.ready.blanks tabSize
      else con.ready.put c := rfl

theorem newline_safe (hf : con.Fits) (hs : con.Safe) (hlt : con.ind.toNat < con.cells) :
    (con.blanks con.cols).Safe := by
  have hstop := nextStop_cols_le hlt
  have hc := hf.cells
  exact (blanks_safe hs hf.cols (by omega)).mpr hstop

/-- A byte keeps the console on the screen exactly when it has room. -/
theorem consolePutch_safe (hf : con.Fits) (hs : con.Safe) (c : UInt8) :
    (consolePutch con c).Safe ↔ con.Room c := by
  obtain ⟨hg,hind,hs'⟩ := ready_spec hf hs
  have hf' := hg.fits hf
  have hlt := place_lt hf hs
  have hlt' : con.ready.ind.toNat < con.ready.cells := by rw [hg.cells, hind]; exact hlt
  rw [consolePutch_eq]
  split_ifs with h10 h8 h13 h9
  · exact iff_of_true (newline_safe hf' hs' hlt') (room_of_other (by rw [h10]; decide) (by rw [h10]; decide))
  · have h9 : c ≠ 9 := by rw [h8]; decide
    rw [backspace_safe hf' hs', hind]
    exact ⟨fun h => ⟨fun _ => h,fun h' => absurd h' h9⟩,fun h => h.1 h8⟩
  · exact iff_of_true (return_safe hs') (room_of_other h8 (by rw [h13]; decide))
  · have hstop : nextStop 4 con.place < 2 ^ 31 := by
      have hc := hf.cells
      unfold nextStop
      omega
    have hsafe := blanks_safe hs' (m := tabSize) (by decide) (by rw [hind]; exact hstop)
    rw [hsafe, hind, hg.cells]
    exact ⟨fun h => ⟨fun h' => absurd h' h8,fun _ => h⟩,fun h => h.2 h9⟩
  · exact iff_of_true (put_safe hf' hs' hlt' c) (room_of_other h8 h9)

/-! ## Whole runs -/

theorem consolePutch_sameGrid (hf : con.Fits) (hs : con.Safe) (c : UInt8) :
    con.SameGrid (consolePutch con c) := by
  obtain ⟨hg,-,-⟩ := ready_spec hf hs
  rw [consolePutch_eq]
  split_ifs
  · exact hg.trans (blanks_sameGrid _ _)
  · exact hg
  · exact hg
  · exact hg.trans (blanks_sameGrid _ _)
  · exact hg

@[simp] theorem write_take_succ {bytes : List UInt8} (hi : i < bytes.length) :
    con.write (bytes.take (i+1)) = consolePutch (con.write (bytes.take i)) bytes[i] := by
  rw [write, List.take_succ_eq_append_getElem hi, List.foldl_append]
  rfl

theorem write_sameGrid {bytes : List UInt8} (hf : con.Fits) (hi : i ≤ bytes.length)
    (hs : ∀ j < i, (con.write (bytes.take j)).Safe) : con.SameGrid (con.write (bytes.take i)) := by
  induction i with
  | zero => exact ⟨rfl,rfl⟩
  | succ i ih =>
    have hg := ih (by omega) fun j hj => hs j (by omega)
    rw [write_take_succ (by omega)]
    exact hg.trans (consolePutch_sameGrid (hg.fits hf) (hs i (by omega)) _)

theorem newline_eq (hf : con.Fits) (hlt : con.ind.toNat < con.cells) : consolePutch con 10 = con.blanks con.cols := by
  have hready : con.ready = con := by
    refine if_neg fun h => ?_
    rw [h, hf.toNat_cells] at hlt
    exact lt_irrefl _ hlt
  rw [consolePutch_eq, if_pos rfl, hready]

/-- After `k` newlines on a fresh console the cursor is at the start of line `k`. -/
theorem newlines_spec (s : Screen) (hf : s.blank.Fits) {k : ℕ} (hk : k ≤ s.blank.rows.toNat) :
    let con := (List.replicate k 10).foldl consolePutch s.blank
    s.blank.SameGrid con ∧ con.ind.toNat = k * con.cols.toNat ∧ con.Safe := by
  induction k with
  | zero =>
    refine ⟨⟨rfl,rfl⟩,?_,?_,?_⟩
    · exact (Nat.zero_mul _).symm
    · exact Nat.zero_le _
    · exact fun p hp => absurd hp List.not_mem_nil
  | succ k ih =>
    obtain ⟨hg,hind,hs⟩ := ih (by omega)
    rw [List.replicate_succ', List.foldl_append]
    generalize (List.replicate k 10).foldl consolePutch s.blank = con at hg hind hs ⊢
    have hf' := hg.fits hf
    have hlt : con.ind.toNat < con.cells := by
      rw [hind, hg.cells, hg.2]
      exact Nat.mul_lt_mul_of_pos_right (by omega) hf.cols
    have heq := newline_eq hf' hlt
    have hc := hf'.cells
    have hstop := nextStop_cols_le hlt
    have hgrid := blanks_sameGrid con.cols con
    change s.blank.SameGrid (consolePutch con 10) ∧
      (consolePutch con 10).ind.toNat = (k+1) * (consolePutch con 10).cols.toNat ∧
      (consolePutch con 10).Safe
    rw [heq]
    refine ⟨hg.trans hgrid,?_,newline_safe hf' hs hlt⟩
    rw [(blanks_spec hf'.cols (by omega)).1, hgrid.2, hind, nextStop,
      Nat.mul_div_cancel _ hf'.cols]

theorem initConsole_spec {s : Screen} (hf : s.blank.Fits) (h : initConsole s = .ok con) :
    s.blank.SameGrid con ∧ con.ind = 0 ∧ con.Safe := by
  obtain ⟨hg,-,hs⟩ := newlines_spec s hf le_rfl
  unfold initConsole at h
  dsimp only at h
  split at h
  · cases h
    exact ⟨hg,rfl,Nat.zero_le _,hs.prints⟩
  · cases h

/-- Along every sequence of bytes the console stays on the screen as long as every
byte has room where it is written, and no longer. -/
theorem write_safe_iff {s : Screen} (hf : s.blank.Fits) (h : initConsole s = .ok con)
    (bytes : List UInt8) :
    (∀ i ≤ bytes.length, (con.write (bytes.take i)).Safe) ↔
      ∀ (i : ℕ) (hi : i < bytes.length), (con.write (bytes.take i)).Room bytes[i] := by
  obtain ⟨hg,-,hs⟩ := initConsole_spec hf h
  have hfc := hg.fits hf
  constructor
  · intro hall i hi
    have hgi : con.SameGrid (con.write (bytes.take i)) :=
      write_sameGrid hfc (by omega) fun j hj => hall j (by omega)
    have hnext := hall (i+1) hi
    rw [write_take_succ hi] at hnext
    exact (consolePutch_safe (hgi.fits hfc) (hall i (by omega)) _).mp hnext
  · intro hroom i hi
    induction i using Nat.strong_induction_on with
    | _ i ih =>
      cases i with
      | zero => exact hs
      | succ i =>
        have hgi : con.SameGrid (con.write (bytes.take i)) :=
          write_sameGrid hfc (by omega) fun j hj => ih j (by omega) (by omega)
        rw [write_take_succ (by omega)]
        exact (consolePutch_safe (hgi.fits hfc) (ih i (by omega) (by omega)) _).mpr
          (hroom i (by omega))

/-- A text screen of `rows` lines and `cols` columns with glyphs of one pixel. -/
def textScreen (rows cols : UInt32) : Screen :=
  { buf := 0, glyph := fun _ => 0, width := cols, height := rows, hpixel := 1, vpixel := 1,
    bytesPerGlyph := 1 }

theorem textScreen_opens (rows cols : UInt32) :
    ∃ con, initConsole (textScreen rows cols) = .ok con :=
  ⟨_,if_pos (by simp [textScreen])⟩

theorem write_safe_iff_text : ∃ con, initConsole (textScreen 25 80) = .ok con ∧
    ((∀ i ≤ [65,9,8].length, (con.write ([65,9,8].take i)).Safe) ↔
      ∀ (i : ℕ) (hi : i < [65,9,8].length), (con.write ([65,9,8].take i)).Room [65,9,8][i]) := by
  obtain ⟨con,h⟩ := textScreen_opens 25 80
  exact ⟨con,h,write_safe_iff ⟨by decide,by decide,by decide⟩ h [65,9,8]⟩

theorem initConsole_place {s : Screen} (hf : s.blank.Fits) (h : initConsole s = .ok con) :
    con.place = 0 := by
  obtain ⟨hg,hind,-⟩ := initConsole_spec hf h
  have hpos : 0 < con.cells := Nat.mul_pos (hg.fits hf).rows (hg.fits hf).cols
  have hz : con.ind.toNat = 0 := by rw [hind]; rfl
  rw [place, if_neg (by omega), hz]

/-- A backspace written first leaves a screen of 25 lines and 80 columns, and a tab
written first leaves one of a line and three columns. -/
theorem leaves_screen :
    (∃ con, (textScreen 25 80).blank.Fits ∧ initConsole (textScreen 25 80) = .ok con ∧
      ¬ (con.write [8]).Safe) ∧
    ∃ con, (textScreen 1 3).blank.Fits ∧ initConsole (textScreen 1 3) = .ok con ∧
      ¬ (con.write [9]).Safe := by
  constructor
  · obtain ⟨con,h⟩ := textScreen_opens 25 80
    have hf : (textScreen 25 80).blank.Fits := ⟨by decide,by decide,by decide⟩
    obtain ⟨hg,-,hs⟩ := initConsole_spec hf h
    refine ⟨con,hf,h,fun hsafe => ?_⟩
    have hroom := ((consolePutch_safe (hg.fits hf) hs 8).mp hsafe).1 rfl
    rw [initConsole_place hf h] at hroom
    exact lt_irrefl 0 hroom
  · obtain ⟨con,h⟩ := textScreen_opens 1 3
    have hf : (textScreen 1 3).blank.Fits := ⟨by decide,by decide,by decide⟩
    obtain ⟨hg,-,hs⟩ := initConsole_spec hf h
    refine ⟨con,hf,h,fun hsafe => ?_⟩
    have hroom := ((consolePutch_safe (hg.fits hf) hs 9).mp hsafe).2 rfl
    rw [initConsole_place hf h, hg.cells] at hroom
    exact absurd hroom (by decide)

end Ukern.Console
