import Ukern.Exfat.Chain
import Mathlib.Data.List.GetD

/-! # Entry sets

A file is a file entry, a stream extension and its name in pieces of fifteen units. Over one such
set `exfat_read_dir` copies what the set says, and `exfat_walk_dir` compares its name. Deleted
entries and the ones that belong to the volume lie anywhere between the sets.
-/
namespace Ukern
open Lib
variable {i p n k fnLen readPtr : ℕ} {u : ℕ → ℕ} {name : List UInt8} {es : List DirEntry}

/-- What an entry set says about a file with an 8-bit name. -/
structure FileSet where
  attr : ℕ
  secondaryFlags : ℕ
  validDataLen : ℕ
  firstClus : ℕ
  name : List UInt8

namespace FileSet

def isDir (f : FileSet) : Bool := f.attr.testBit 4

def useFat (f : FileSet) : ℕ := if f.secondaryFlags &&& noFatChain = 0 then 1 else 0

/-- What opening the file yields. -/
def node (f : FileSet) : DirFile := ⟨f.firstClus,f.useFat,f.isDir,f.validDataLen⟩

end FileSet

/-- The file-name entries of `name` from unit `p` on. What stands behind the name is not looked at. -/
inductive Named (name : List UInt8) : ℕ → List DirEntry → Prop
  | done : Named name name.length []
  | more {p : ℕ} {u : ℕ → ℕ} {es : List DirEntry} (hp : p < name.length)
      (hu : ∀ j, p ≤ j → j < min (p + 15) name.length → u (j - p) = (name.getD j 0).toNat)
      (hs : Named name (min (p + 15) name.length) es) : Named name p (.name u :: es)

/-- The entry sets of a directory, in the order in which they stand there. -/
inductive Listed : List FileSet → List DirEntry → Prop
  | nil : Listed [] []
  | other {fs : List FileSet} {es : List DirEntry} (hs : Listed fs es) : Listed fs (.other :: es)
  | set {f : FileSet} {fs : List FileSet} {ns es : List DirEntry} (hname : f.name ≠ []) (hn : Named f.name 0 ns)
      (hs : Listed fs es) : Listed (f :: fs)
        (.file f.attr :: .stream f.secondaryFlags f.name.length f.validDataLen f.firstClus :: (ns ++ es))

/-! ## Reading -/

theorem copyUnits_eq {dName : ℕ → Option UInt8} (hp : p ≤ fnLen) : copyUnits fnLen u n k p dName =
    (min (p + n) fnLen,fun j => if p ≤ j ∧ j < min (p + n) fnLen then some (UInt8.ofNat (u (k + (j - p)))) else dName j) := by
  induction n generalizing k p dName with
  | zero =>
    rw [copyUnits, Nat.add_zero, Nat.min_eq_left hp]
    congr 1
    funext j
    rw [if_neg (by omega)]
  | succ n ih =>
    rw [copyUnits]
    by_cases hlt : p < fnLen
    · rw [if_pos hlt, ih hlt]
      congr 1
      · omega
      · funext j
        by_cases hj : p + 1 ≤ j ∧ j < min (p + 1 + n) fnLen
        · rw [if_pos hj, if_pos (by omega), show k + 1 + (j - (p + 1)) = k + (j - p) by omega]
        · rw [if_neg hj]
          by_cases hjp : j = p
          · rw [hjp, Function.update_self, if_pos (by omega), Nat.sub_self, Nat.add_zero]
          · rw [Function.update_of_ne hjp, if_neg (by omega)]
    · have : p = fnLen := by omega
      rw [if_neg hlt, this]
      congr 1
      · omega
      · funext j
        rw [if_neg (by omega)]

theorem Named.nil (h : Named name name.length es) : es = [] := by
  cases h with
  | done => rfl
  | more hp => exact absurd hp (Nat.lt_irrefl _)

/-- The call has stored what `f` says. -/
structure Dirent.Shows (r : Dirent) (f : FileSet) : Prop where
  ino : r.dIno = some f.firstClus
  len : r.fileLen = some f.validDataLen
  type : r.dType = some (if f.isDir then dtDir else dtReg)
  name : ∀ j < f.name.length, r.dName j = some (f.name.getD j 0)
  nul : r.dName f.name.length = some 0

theorem consume_readNames {s : ReadState} (hn : Named name p es) (hp : p < name.length) (hptr : s.namePtr = p)
    (hlen : s.fnLen = name.length) (hold : ∀ j < p, s.dst.dName j = some (name.getD j 0)) (hi : readPtr ≤ i) :
    ∃ dName, consume (readEntry readPtr) i s es = .inr ({ s.dst with dName := dName },i + es.length) ∧
      (∀ j < name.length, dName j = some (name.getD j 0)) ∧ dName name.length = some 0 := by
  induction hn generalizing s i with
  | done => exact absurd hp (Nat.lt_irrefl _)
  | @more p u es _ hu hs ih =>
    obtain ⟨q,hq⟩ : ∃ q, q = min (p + 15) name.length := ⟨_,rfl⟩
    obtain ⟨dName,hd⟩ : ∃ dName, dName = Function.update (fun j => if p ≤ j ∧ j < q
      then some (UInt8.ofNat (u (0 + (j - p)))) else s.dst.dName j) q (some 0) := ⟨_,rfl⟩
    have hstep : readEntry readPtr i s (.name u) = if q = name.length then
        .inr ({ s.dst with dName := dName },i+1) else .inl { s with namePtr := q, dst.dName := dName } := by
      rw [readEntry, if_neg (Nat.not_lt.mpr hi)]
      simp only [hptr,hlen,copyUnits_eq hp.le,← hq,← hd]
    have hnew : ∀ j < q, dName j = some (name.getD j 0) := fun j hj => by
      rw [hd, Function.update_of_ne (Nat.ne_of_lt hj)]
      by_cases hpj : p ≤ j
      · rw [if_pos ⟨hpj,hj⟩, Nat.zero_add, hu j hpj (hq ▸ hj), UInt8.ofNat_toNat]
      · rw [if_neg (by omega)]
        exact hold j (by omega)
    rw [consume, hstep]
    rw [← hq] at hs ih
    by_cases hlast : q = name.length
    · rw [if_pos hlast]
      rw [hlast] at hs hnew hd
      rw [hs.nil]
      exact ⟨dName,rfl,hnew,by rw [hd, Function.update_self]⟩
    · rw [if_neg hlast]
      obtain ⟨dName',hc,hall⟩ := ih (s := { s with namePtr := q, dst.dName := dName }) (i := i+1)
        (by omega) rfl hlen hnew (by omega)
      refine ⟨dName',?_,hall⟩
      simp only [hc,List.length_cons]
      rw [Nat.add_right_comm, Nat.add_assoc]

theorem consume_readSet {f : FileSet} {s : ReadState} {ns : List DirEntry} (hname : f.name ≠ [])
    (hn : Named f.name 0 ns) (hi : readPtr ≤ i) : ∃ dst : Dirent, dst.Shows f ∧
      consume (readEntry readPtr) i s (.file f.attr :: .stream f.secondaryFlags f.name.length f.validDataLen
        f.firstClus :: ns) = .inr (dst,i + (2 + ns.length)) := by
  obtain ⟨dName,hc,hall,hnul⟩ := consume_readNames (s := ⟨0,f.name.length,{ s.dst with
      dType := some (if f.isDir then dtDir else dtReg), fileLen := some f.validDataLen, dIno := some f.firstClus }⟩)
    hn (List.length_pos_iff.mpr hname) rfl rfl nofun (i := i+2) (show readPtr ≤ i + 2 by omega)
  refine ⟨⟨some f.firstClus,some f.validDataLen,dName,some (if f.isDir then dtDir else dtReg)⟩,
    ⟨rfl,rfl,rfl,hall,hnul⟩,?_⟩
  rw [consume, readEntry, if_neg (Nat.not_lt.mpr hi)]
  simp only
  rw [consume, readEntry, if_neg (by omega)]
  simp only
  rw [show i + (2 + ns.length) = i + 2 + ns.length by omega]
  exact hc

/-- From the position behind some entry sets a read finds the next one. -/
theorem consume_readNext {f : FileSet} {fs : List FileSet} {s : ReadState} (hl : Listed (f :: fs) es)
    (hi : readPtr ≤ i) : ∃ dst mid rest, es = mid ++ rest ∧ mid ≠ [] ∧ Listed fs rest ∧ dst.Shows f ∧
      consume (readEntry readPtr) i s mid = .inr (dst,i + mid.length) := by
  generalize hfs : f :: fs = gs at hl
  induction hl generalizing i with
  | nil => cases hfs
  | other _ ih =>
    obtain ⟨dst,mid,rest,rfl,-,hrest,hshow,hc⟩ := ih (i := i+1) (by omega) hfs
    refine ⟨dst,.other :: mid,rest,rfl,List.cons_ne_nil _ _,hrest,hshow,?_⟩
    rw [consume, readEntry, if_neg (Nat.not_lt.mpr hi)]
    simp only [hc,List.length_cons]
    rw [Nat.add_right_comm, Nat.add_assoc]
  | @set g gs ns es hname hn hs _ =>
    cases hfs
    obtain ⟨dst,hshow,hc⟩ := consume_readSet (s := s) hname hn hi
    refine ⟨dst,_,es,rfl,List.cons_ne_nil _ _,hs,hshow,hc.trans ?_⟩
    rw [List.length_cons, List.length_cons, Nat.add_comm 2]

theorem Listed.eq_other {e : DirEntry} (hl : Listed [] es) (he : e ∈ es) : e = .other := by
  generalize hfs : ([] : List FileSet) = gs at hl
  induction hl with
  | nil => cases he
  | other _ ih =>
    rcases List.mem_cons.mp he with rfl | he
    · rfl
    · exact ih he hfs
  | set => cases hfs

theorem consume_readNone {s : ReadState} (hl : Listed [] es) (hi : readPtr ≤ i) :
    consume (readEntry readPtr) i s es = .inl s := by
  refine consume_pass fun j e hij _ he => ?_
  rw [hl.eq_other he, readEntry, if_neg (by omega)]

theorem consume_readSkip {s : ReadState} (h : i + es.length ≤ readPtr) :
    consume (readEntry readPtr) i s es = .inl s :=
  consume_pass fun j e _ hj _ => by
    unfold readEntry
    exact if_pos (by omega)

/-! ## Looking up -/

/-- The same name up to letter case. -/
def SameName (a b : List UInt8) : Prop := a.map toUpperCase = b.map toUpperCase

instance (a b : List UInt8) : Decidable (SameName a b) := inferInstanceAs (Decidable (_ = _))

theorem sameName_iff {a b : List UInt8} : SameName a b ↔
    a.length = b.length ∧ ∀ j < b.length, toUpperCase (a.getD j 0) = toUpperCase (b.getD j 0) := by
  constructor
  · intro h
    have hlen : a.length = b.length := by simpa using congrArg List.length h
    refine ⟨hlen,fun j hj => ?_⟩
    have hget := congrArg (·[j]?) h
    simp only [List.getElem?_map,List.getElem?_eq_getElem hj,List.getElem?_eq_getElem (hlen ▸ hj),Option.map_some,
      Option.some_inj] at hget
    rwa [List.getD_eq_getElem _ _ (hlen ▸ hj), List.getD_eq_getElem _ _ hj]
  · rintro ⟨hlen,hall⟩
    refine List.ext_getElem (by simpa using hlen) fun j h1 h2 => ?_
    rw [List.length_map] at h1 h2
    have hj := hall j h2
    rw [List.getD_eq_getElem _ _ h1, List.getD_eq_getElem _ _ h2] at hj
    rwa [List.getElem_map, List.getElem_map]

/-- The comparison loop: it runs to the end of the piece or of one of the names, or finds a difference. -/
theorem cmpUnits_spec (name : List UInt8) {other : List UInt8}
    (hu : ∀ j, p ≤ j → j < min (p + n) fnLen → u (k + (j - p)) = (other.getD j 0).toNat)
    (hp : p ≤ min fnLen name.length) :
    (cmpUnits name fnLen u n k p false = (min (p + n) (min fnLen name.length),false) ∧
      ∀ j, p ≤ j → j < min (p + n) (min fnLen name.length) → toUpperCase (name.getD j 0) = toUpperCase (other.getD j 0)) ∨
    (∃ q, cmpUnits name fnLen u n k p false = (q,true)) ∧
      ∃ j < min fnLen name.length, toUpperCase (name.getD j 0) ≠ toUpperCase (other.getD j 0) := by
  induction n generalizing k p with
  | zero =>
    refine .inl ⟨?_,fun j h1 h2 => by omega⟩
    rw [cmpUnits, Nat.add_zero, Nat.min_eq_left hp]
  | succ n ih =>
    rw [cmpUnits]
    by_cases hlt : p < fnLen ∧ p < name.length
    · rw [if_pos ⟨rfl,hlt⟩]
      have hunit := hu p le_rfl (by omega)
      rw [Nat.sub_self, Nat.add_zero] at hunit
      rw [cmpFn, hunit, UInt8.ofNat_toNat]
      by_cases heq : toUpperCase (name.getD p 0) = toUpperCase (other.getD p 0)
      · rw [heq, bne_self_eq_false]
        have hu' : ∀ j, p + 1 ≤ j → j < min (p + 1 + n) fnLen → u (k + 1 + (j - (p + 1))) = (other.getD j 0).toNat :=
          fun j h1 h2 => by
            rw [show k + 1 + (j - (p + 1)) = k + (j - p) by omega]
            exact hu j (by omega) (by omega)
        rcases ih hu' (by omega) with ⟨hc,hall⟩ | hdiff
        · refine .inl ⟨by rw [hc, Nat.add_right_comm, Nat.add_assoc],fun j h1 h2 => ?_⟩
          by_cases hj : j = p
          · rw [hj, heq]
          · exact hall j (by omega) (by omega)
        · exact .inr hdiff
      · refine .inr ⟨⟨p+1,?_⟩,p,by omega,heq⟩
        rw [bne_iff_ne.mpr heq]
        cases n with
        | zero => rfl
        | succ n => rw [cmpUnits, if_neg (by simp)]
    · rw [if_neg fun h => hlt h.2]
      refine .inl ⟨?_,fun j h1 h2 => by omega⟩
      rw [show min (p + (n + 1)) (min fnLen name.length) = p by omega]

theorem cmpUnits_dismatch (p : ℕ) : cmpUnits name fnLen u 15 0 p true = (p,true) := by
  rw [cmpUnits, if_neg (by simp)]

theorem cmpUnits_past (hp : name.length ≤ p) : cmpUnits name fnLen u 15 0 p false = (p,false) := by
  rw [cmpUnits, if_neg (by omega)]

/-- Up to unit `p` the walk has compared `name` with `other`: no difference so far, or there is one. -/
def Tracks (name other : List UInt8) (p : ℕ) (s : WalkState) : Prop :=
  (s.nameDismatch = false ∧ s.namePtr = min p name.length ∧
    ∀ j < min p name.length, toUpperCase (name.getD j 0) = toUpperCase (other.getD j 0)) ∨
  (s.nameDismatch = true ∧ ∃ j < min other.length name.length,
    toUpperCase (name.getD j 0) ≠ toUpperCase (other.getD j 0))

theorem Tracks.step {other : List UInt8} {s : WalkState} (h : Tracks name other p s) (hp : p < other.length)
    (hu : ∀ j, p ≤ j → j < min (p + 15) other.length → u (j - p) = (other.getD j 0).toNat) :
    ∃ q dis, cmpUnits name other.length u 15 0 s.namePtr s.nameDismatch = (q,dis) ∧
      Tracks name other (min (p + 15) other.length) { s with namePtr := q, nameDismatch := dis } := by
  rcases h with ⟨hd,hptr,hall⟩ | ⟨hd,hdiff⟩
  · rw [hd, hptr]
    by_cases hle : p ≤ name.length
    · rw [Nat.min_eq_left hle] at hall ⊢
      have hu' : ∀ j, p ≤ j → j < min (p + 15) other.length → u (0 + (j - p)) = (other.getD j 0).toNat := fun j h1 h2 => by
        rw [Nat.zero_add, hu j h1 h2]
      rcases cmpUnits_spec name hu' (by omega) with ⟨hc,hmore⟩ | ⟨⟨q,hc⟩,hdiff⟩
      · refine ⟨_,_,hc,.inl ⟨rfl,?_,fun j hj => ?_⟩⟩
        · exact (Nat.min_assoc _ _ _).symm
        · by_cases hpj : j < p
          · exact hall j hpj
          · exact hmore j (by omega) (by omega)
      · exact ⟨_,_,hc,.inr ⟨rfl,hdiff⟩⟩
    · rw [Nat.min_eq_right (by omega)] at hall ⊢
      refine ⟨_,_,cmpUnits_past le_rfl,.inl ⟨rfl,?_,fun j hj => hall j (by omega)⟩⟩
      simp only
      omega
  · rw [hd]
    exact ⟨_,_,cmpUnits_dismatch _,.inr ⟨rfl,hdiff⟩⟩

/-- With the whole name compared the walk knows whether it is the same. -/
theorem Tracks.match_iff {other : List UInt8} {s : WalkState} (h : Tracks name other p s) (hp : p ≤ other.length) :
    ((!s.nameDismatch) = true ∧ s.namePtr = other.length ∧ s.namePtr = name.length) ↔
      p = other.length ∧ SameName name other := by
  rw [sameName_iff]
  rcases h with ⟨hd,hptr,hall⟩ | ⟨hd,j,hj,hne⟩
  · rw [hd, hptr]
    constructor
    · rintro ⟨-,h1,h2⟩
      exact ⟨by omega,by omega,fun j hj => hall j (by omega)⟩
    · rintro ⟨h1,h2,-⟩
      exact ⟨rfl,by omega,by omega⟩
  · rw [hd]
    constructor
    · rintro ⟨h1,-⟩
      cases h1
    · rintro ⟨-,-,hall⟩
      exact absurd (hall j (by omega)) hne

/-- Over the pieces of a name the walk stops if it is the one it looks for. -/
theorem consume_walkNames {other : List UInt8} {s : WalkState} (hn : Named other p es) (hp : p < other.length)
    (hlen : s.fnLen = other.length) (ht : Tracks name other p s) :
    (SameName name other → consume (walkEntry name) i s es = .inr (some ⟨s.clusId,s.useFat,s.isDir,s.dataLen⟩)) ∧
    (¬ SameName name other → ∃ t, consume (walkEntry name) i s es = .inl t) := by
  induction hn generalizing s i with
  | done => exact absurd hp (Nat.lt_irrefl _)
  | @more p u es _ hu hs ih =>
    obtain ⟨q,dis,hc,ht'⟩ := ht.step hp hu
    have hiff := ht'.match_iff (Nat.min_le_right _ _)
    have hstep : walkEntry name i s (.name u) = if (!dis) = true ∧ q = other.length ∧ q = name.length then
        .inr (some ⟨s.clusId,s.useFat,s.isDir,s.dataLen⟩) else .inl { s with namePtr := q, nameDismatch := dis } := by
      rw [walkEntry, hlen]
      simp only [hc]
    rw [consume, hstep]
    by_cases hlast : min (p + 15) other.length = other.length
    · rw [hlast] at hs
      rw [hs.nil]
      constructor
      · intro hsame
        rw [if_pos (hiff.mpr ⟨hlast,hsame⟩)]
      · intro hdiff
        rw [if_neg fun h => hdiff (hiff.mp h).2]
        exact ⟨_,rfl⟩
    · rw [if_neg fun h => hlast (hiff.mp h).1]
      exact ih (s := { s with namePtr := q, nameDismatch := dis }) (by omega) hlen ht'

theorem consume_walkSet (name : List UInt8) {f : FileSet} {s : WalkState} {ns : List DirEntry} (hname : f.name ≠ [])
    (hn : Named f.name 0 ns) :
    (SameName name f.name → consume (walkEntry name) i s (.file f.attr :: .stream f.secondaryFlags f.name.length
      f.validDataLen f.firstClus :: ns) = .inr (some f.node)) ∧
    (¬ SameName name f.name → ∃ t, consume (walkEntry name) i s (.file f.attr :: .stream f.secondaryFlags
      f.name.length f.validDataLen f.firstClus :: ns) = .inl t) :=
  consume_walkNames (s := ⟨0,false,f.firstClus,f.useFat,f.name.length,f.isDir,f.validDataLen⟩) hn
    (List.length_pos_iff.mpr hname) rfl (.inl ⟨rfl,by simp,by simp⟩)

theorem consume_walk (name : List UInt8) {fs : List FileSet} {s : WalkState} (hl : Listed fs es) :
    match fs.find? fun f => SameName name f.name with
    | some f => consume (walkEntry name) i s es = .inr (some f.node)
    | none => ∃ t, consume (walkEntry name) i s es = .inl t := by
  induction hl generalizing s i with
  | nil => exact ⟨s,rfl⟩
  | other _ ih => exact ih
  | @set f fs ns es hname hn _ ih =>
    obtain ⟨hsame,hdiff⟩ := consume_walkSet name (s := s) (i := i) hname hn
    rw [List.find?_cons]
    by_cases hf : SameName name f.name
    · simp only [hf,decide_true]
      exact consume_inr_append (hsame hf)
    · obtain ⟨t,ht⟩ := hdiff hf
      simp only [hf,decide_false]
      have happ : consume (walkEntry name) i s (.file f.attr :: .stream f.secondaryFlags f.name.length
          f.validDataLen f.firstClus :: (ns ++ es)) = consume (walkEntry name) (i + (ns.length + 2)) t es :=
        consume_inl_append ht
      rw [happ]
      exact ih

end Ukern
