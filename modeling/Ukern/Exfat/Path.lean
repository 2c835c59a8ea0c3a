import Ukern.Kernel.Exfat
import Ukern.Lib.Fold
import Mathlib.Data.List.GetD

/-! # Resolving a path

`exfat_open` walks over the bytes of a path and keeps two things in step: the directory it stands in
and the text of the path to it. A name is looked up and appended; for `..` the text is cut and opened
again from the root. Here the same walk is done on lists of names, and the code follows it as long as
the text fits `path[256]`.
-/
namespace Ukern
open Lib
variable {v : Volume} {fuel : ℕ} {junk : DirFile} {names names' : List (List UInt8)} {c : List UInt8}
  {cur d : DirFile} {p : PathBuf}

/-! ## Names in a tree -/

/-- What `exfat_walk_dir` finds in a directory. -/
def Volume.look (v : Volume) (fuel : ℕ) (d : DirFile) (name : List UInt8) : Option DirFile :=
  match exfatWalkDir v fuel name d with
  | .ok r => r
  | .error _ => none

theorem look_eq_some {e : DirFile} : v.look fuel d c = some e ↔ exfatWalkDir v fuel c d = .ok (some e) := by
  unfold Volume.look
  cases exfatWalkDir v fuel c d with
  | error e => exact ⟨nofun,nofun⟩
  | ok r => exact ⟨fun h => congrArg Except.ok h,fun h => Except.ok.inj h⟩

/-- Looking up names one after the other. -/
def Volume.descend (v : Volume) (fuel : ℕ) : DirFile → List (List UInt8) → Option DirFile
  | d, [] => some d
  | d, c :: cs => if d.isDir then (v.look fuel d c).bind fun d => v.descend fuel d cs else none

theorem descend_append {d : DirFile} {cs ds : List (List UInt8)} :
    v.descend fuel d (cs ++ ds) = (v.descend fuel d cs).bind fun e => v.descend fuel e ds := by
  induction cs generalizing d with
  | nil => rfl
  | cons c cs ih =>
    rw [List.cons_append, Volume.descend, Volume.descend]
    split
    · cases v.look fuel d c with
      | none => rfl
      | some e => exact ih
    · rfl

theorem descend_concat {d : DirFile} : v.descend fuel d (names ++ [c]) =
    (v.descend fuel d names).bind fun e => if e.isDir then v.look fuel e c else none := by
  rw [descend_append]
  congr 1
  funext e
  rw [Volume.descend]
  split
  · cases v.look fuel e c <;> rfl
  · rfl

/-- The text of a path. -/
def pathOf (names : List (List UInt8)) : List UInt8 := names.flatMap fun c => 47 :: c

theorem pathOf_concat : pathOf (names ++ [c]) = pathOf names ++ 47 :: c := by
  simp [pathOf]

/-- A name that is looked up. -/
structure Plain (c : List UInt8) : Prop where
  ne_nil : c ≠ []
  ne_dot : c ≠ [46]
  ne_dots : c ≠ [46,46]
  slash : (47 : UInt8) ∉ c
  nul : (0 : UInt8) ∉ c

def Clean (names : List (List UInt8)) : Prop := ∀ c ∈ names, Plain c

theorem Clean.dropLast (h : Clean names) : Clean names.dropLast := fun c hc => h c (List.mem_of_mem_dropLast hc)

theorem Clean.concat (h : Clean names) (hc : Plain c) : Clean (names ++ [c]) := fun e he => by
  rcases List.mem_append.mp he with he | he
  · exact h e he
  · rw [List.mem_singleton.mp he]
    exact hc

theorem Clean.nul (h : Clean names) : (0 : UInt8) ∉ pathOf names := fun h0 => by
  obtain ⟨c,hc,h0⟩ := List.mem_flatMap.mp h0
  rcases List.mem_cons.mp h0 with h0 | h0
  · exact absurd h0 (by decide)
  · exact (h c hc).nul h0

/-! ## The walk on names -/

/-- How a walk ends: at a path, refused at one, or with a fault, for which a path that does not fit, a byte
of the text that cannot be read and a directory without an end are the reasons. -/
inductive Journey
  | arrived (names : List (List UInt8))
  | refused (e : PathError) (names : List (List UInt8))
  | fault (e : Fault)

/-- One component of a path. -/
def Volume.stepName (v : Volume) (fuel : ℕ) (names : List (List UInt8)) (c : List UInt8) : Journey :=
  if c = [] ∨ c = [46] then .arrived names
  else if c = [46,46] then .arrived names.dropLast
  else match v.descend fuel v.root names with
    | none => .refused .noEntry names
    | some d =>
      if d.isDir = false then .refused .notDir names
      else match exfatWalkDir v fuel c d with
        | .error e => .fault e
        | .ok none => .refused .noEntry names
        | .ok (some _) => if (pathOf (names ++ [c])).length < 256 then .arrived (names ++ [c]) else .fault .overrun

/-- The components of a path, one after the other. -/
def Volume.travel (v : Volume) (fuel : ℕ) : List (List UInt8) → List (List UInt8) → Journey
  | names, [] => .arrived names
  | names, c :: cs =>
    match v.stepName fuel names c with
    | .arrived names => v.travel fuel names cs
    | j => j

/-- How a text ends: with its last component, unfinished after 256 bytes, or where it cannot be read. -/
inductive PathEnd
  | nul
  | long
  | unmapped
  deriving DecidableEq

/-- The complete components of a text in memory, from byte `i` on for `n` bytes, of which `acc` has been
read, and how it ends. -/
def components (path : ℕ → Option UInt8) : ℕ → ℕ → List UInt8 → List (List UInt8) × PathEnd
  | 0, _, _ => ([],.long)
  | n+1, i, acc =>
    match path i with
    | none => ([],.unmapped)
    | some b =>
      if b = 0 then ([acc],.nul)
      else if b = 47 then (acc :: (components path n (i+1) []).1,(components path n (i+1) []).2)
      else components path n (i+1) (acc ++ [b])

def Journey.ends : Journey → PathEnd → Journey
  | .arrived names, .nul => .arrived names
  | .arrived names, .long => .refused .nameTooLong names
  | .arrived _, .unmapped => .fault .nullDeref
  | j, _ => j

/-- The components of a string, of which `acc` has been read. -/
def splitPath (acc : List UInt8) : List UInt8 → List (List UInt8)
  | [] => [acc]
  | b :: s => if b = 47 then acc :: splitPath [] s else splitPath (acc ++ [b]) s

theorem splitPath_name {acc s : List UInt8} (hc : (47 : UInt8) ∉ c) :
    splitPath acc (c ++ 47 :: s) = (acc ++ c) :: splitPath [] s := by
  induction c generalizing acc with
  | nil => rw [List.nil_append, List.append_nil, splitPath, if_pos rfl]
  | cons b c ih =>
    rw [List.mem_cons, not_or] at hc
    rw [List.cons_append, splitPath, if_neg (Ne.symm hc.1), ih hc.2, List.append_assoc]
    rfl

theorem splitPath_last {acc : List UInt8} (hc : (47 : UInt8) ∉ c) : splitPath acc c = [acc ++ c] := by
  induction c generalizing acc with
  | nil => rw [splitPath, List.append_nil]
  | cons b c ih =>
    rw [List.mem_cons, not_or] at hc
    rw [splitPath, if_neg (Ne.symm hc.1), ih hc.2, List.append_assoc]
    rfl

/-- A text made of names has those names as components, behind the first slash. -/
theorem splitPath_pathOf (h : Clean names) : splitPath [] (pathOf names) = [] :: names := by
  induction names with
  | nil => rfl
  | cons c names ih =>
    have hc := (h c List.mem_cons_self).slash
    have ih := ih fun e he => h e (List.mem_cons_of_mem _ he)
    rw [pathOf, List.flatMap_cons, List.cons_append, splitPath, if_pos rfl]
    congr 1
    cases names with
    | nil => rw [List.flatMap_nil, List.append_nil, splitPath_last hc, List.nil_append]
    | cons e names =>
      rw [List.flatMap_cons, List.cons_append, splitPath_name hc, List.nil_append]
      congr 1
      rw [pathOf, List.flatMap_cons, List.cons_append, splitPath, if_pos rfl] at ih
      exact (List.cons.inj ih).2

/-! ## The code follows the walk -/

/-- The directory or file the code stands at; of a directory it does not know the length. -/
structure Node (cur d : DirFile) : Prop where
  clusId : cur.clusId = d.clusId
  useFat : cur.useFat = d.useFat
  isDir : cur.isDir = d.isDir
  file : d.isDir = false → cur = d

theorem Node.walk (h : Node cur d) (name : List UInt8) : exfatWalkDir v fuel name cur = exfatWalkDir v fuel name d := by
  rw [exfatWalkDir, exfatWalkDir, h.clusId, h.useFat]

/-- The code stands at `names`, and has the text of it. -/
structure Standing (v : Volume) (fuel : ℕ) (names : List (List UInt8)) (cur : DirFile) (p : PathBuf) : Prop where
  clean : Clean names
  node : ∃ d, v.descend fuel v.root names = some d ∧ Node cur d
  buf : p = ⟨pathOf names,(pathOf names).length⟩
  short : (pathOf names).length < 256

/-- What the code makes of a walk. -/
def Journey.Result (v : Volume) (fuel : ℕ) (x : Except Fault Opened) : Journey → Prop
  | .arrived names => ∃ o cur, x = .ok o ∧ o.node = .ok cur ∧ Standing v fuel names cur o.buf
  | .refused e names => ∃ o, x = .ok o ∧ o.node = .error e ∧ o.buf = ⟨pathOf names,(pathOf names).length⟩ ∧
      (pathOf names).length < 256 ∧ Clean names
  | .fault e => x = .error e

theorem standing_root : Standing v fuel [] v.root ⟨[],0⟩ :=
  ⟨nofun,⟨_,rfl,⟨rfl,rfl,rfl,fun _ => rfl⟩⟩,rfl,by decide⟩

theorem lastSlash_eq {a : List UInt8} (hc : (47 : UInt8) ∉ c) {n : ℕ} (hn : n ≤ c.length) :
    lastSlash (a ++ 47 :: c) (a.length + 1 + n) = some a.length := by
  induction n with
  | zero =>
    rw [Nat.add_zero, lastSlash, if_pos]
    rw [List.getD_append_right _ _ _ _ le_rfl, Nat.sub_self]
    rfl
  | succ n ih =>
    have hne : (a ++ 47 :: c).getD (a.length + 1 + n) 0 ≠ 47 := by
      rw [List.getD_append_right _ _ _ _ (by omega), show a.length + 1 + n - a.length = n + 1 by omega,
        List.getD_cons_succ, List.getD_eq_getElem _ _ (by omega)]
      exact fun h => hc (h ▸ List.getElem_mem _)
    rw [← Nat.add_assoc, lastSlash, if_neg hne]
    exact ih (by omega)

theorem pathPop_eq (h : Clean names) : pathPop ⟨pathOf names,(pathOf names).length⟩ =
    .ok ⟨pathOf names.dropLast,(pathOf names.dropLast).length⟩ := by
  rcases List.eq_nil_or_concat names with rfl | ⟨front,c,rfl⟩
  · rfl
  have hc := (h c (by simp)).slash
  rw [List.concat_eq_append, List.dropLast_concat, pathOf_concat, pathPop]
  have hlen : (pathOf front ++ 47 :: c).length = (pathOf front).length + 1 + c.length := by
    rw [List.length_append, List.length_cons]
    omega
  have hhead : (pathOf front ++ 47 :: c).getD 0 0 = 47 := by
    cases front with
    | nil => rfl
    | cons e front => rfl
  dsimp only
  rw [if_neg (by omega), if_neg (not_not.mpr hhead), hlen, lastSlash_eq hc le_rfl]
  dsimp only
  rw [List.take_left, Nat.sub_sub_self (by omega)]

/-- What the code needs of the nested call for `..`: it finds the directory. -/
def Reopens (v : Volume) (fuel : ℕ) (reopen : List UInt8 → (ℕ → UInt8) → Except Fault Opened) : Prop :=
  ∀ names name, Clean names → (∃ d, v.descend fuel v.root names = some d) → (pathOf names).length < 256 →
    (Journey.arrived names).Result v fuel (reopen (pathOf names) name)

variable {reopen : List UInt8 → (ℕ → UInt8) → Except Fault Opened}

theorem descend_dropLast (h : v.descend fuel v.root names = some d) :
    ∃ e, v.descend fuel v.root names.dropLast = some e ∧ e.isDir = true := by
  rcases List.eq_nil_or_concat names with rfl | ⟨front,c,rfl⟩
  · exact ⟨_,rfl,rfl⟩
  rw [List.concat_eq_append, descend_concat] at h
  obtain ⟨e,he,h⟩ := Option.bind_eq_some_iff.mp h
  rw [List.concat_eq_append, List.dropLast_concat]
  refine ⟨e,he,?_⟩
  by_contra hd
  rw [if_neg hd] at h
  cases h

theorem pathOf_dropLast_le : (pathOf names.dropLast).length ≤ (pathOf names).length := by
  rcases List.eq_nil_or_concat names with rfl | ⟨front,c,rfl⟩
  · exact le_rfl
  · rw [List.concat_eq_append, List.dropLast_concat, pathOf_concat, List.length_append]
    exact Nat.le_add_right _ _

/-- One component: the code does with `name[0..ind)` what the walk does. -/
theorem enterName_result (junk : DirFile) (h : Standing v fuel names cur p) {ind : ℕ} {name : ℕ → UInt8}
    (hname : (List.range ind).map name = c) (hslash : (47 : UInt8) ∉ c) (hnul : (0 : UInt8) ∉ c)
    (hre : c = [46,46] → Reopens v fuel reopen) :
    (v.stepName fuel names c).Result v fuel (enterName v fuel junk reopen ind name cur p) := by
  have hlen : c.length = ind := by rw [← hname, List.length_map, List.length_range]
  unfold enterName
  by_cases h0 : ind = 0
  · have hnil : c = [] := List.length_eq_zero_iff.mp (hlen.trans h0)
    rw [if_pos h0, Volume.stepName, if_pos (.inl hnil)]
    exact ⟨_,cur,rfl,rfl,h⟩
  have hcomp : (List.range ind).map (Function.update name ind 0) = c := by
    rw [← hname]
    refine List.map_congr_left fun i hi => Function.update_of_ne ?_ ..
    exact (List.mem_range.mp hi).ne
  have hnil : c ≠ [] := fun hc => h0 (by rw [← hlen, hc]; rfl)
  rw [if_neg h0]
  dsimp only
  rw [hcomp, Volume.stepName]
  by_cases hdot : c = [46]
  · rw [if_pos hdot, if_pos (.inr hdot)]
    exact ⟨_,cur,rfl,rfl,h⟩
  rw [if_neg hdot, if_neg (not_or.mpr ⟨hnil,hdot⟩)]
  obtain ⟨d,hd,hnode⟩ := h.node
  by_cases hdots : c = [46,46]
  · rw [if_pos hdots, if_pos hdots, h.buf, pathPop_eq h.clean, ok_bind]
    obtain ⟨e,he,hedir⟩ := descend_dropLast hd
    have hshort : (pathOf names.dropLast).length < 256 := pathOf_dropLast_le.trans_lt h.short
    obtain ⟨o,cur',ho,hcur,hst⟩ := hre hdots _ (Function.update name ind 0) h.clean.dropLast ⟨e,he⟩ hshort
    dsimp only
    rw [ho, ok_bind]
    obtain ⟨e',he',hnode'⟩ := hst.node
    rw [he] at he'
    cases he'
    have hdir : cur'.isDir = true := hnode'.isDir.trans hedir
    refine ⟨_,_,rfl,rfl,⟨h.clean.dropLast,⟨e,he,?_⟩,rfl,hshort⟩⟩
    rw [hcur, parentDir, if_pos hdir]
    exact ⟨hnode'.clusId,hnode'.useFat,hnode'.isDir,fun hf => by rw [hedir] at hf; cases hf⟩
  rw [if_neg hdots, if_neg hdots, hd]
  dsimp only
  by_cases hdir : d.isDir = true
  · have hcur : cur.isDir = true := hnode.isDir.trans hdir
    rw [if_neg (by rw [hcur]; decide), if_neg (by rw [hdir]; decide), hnode.walk]
    cases hr : exfatWalkDir v fuel c d with
    | error e => rfl
    | ok r =>
      rw [ok_bind]
      cases r with
      | none => exact ⟨_,rfl,rfl,h.buf,h.short,h.clean⟩
      | some e =>
        have hlook : v.look fuel d c = some e := by rw [Volume.look, hr]
        have hplain : Plain c := ⟨hnil,hdot,hdots,hslash,hnul⟩
        have hsum : (pathOf names).length + 1 + c.length = (pathOf (names ++ [c])).length := by
          rw [pathOf_concat, List.length_append, List.length_cons]
          omega
        dsimp only
        rw [pathPush, h.buf]
        dsimp only
        rw [hsum]
        by_cases hfit : (pathOf (names ++ [c])).length < 256
        · rw [if_pos hfit, if_pos hfit, ok_bind]
          refine ⟨_,e,rfl,rfl,⟨h.clean.concat hplain,⟨e,?_,⟨rfl,rfl,rfl,fun _ => rfl⟩⟩,?_,hfit⟩⟩
          · rw [descend_concat, hd, Option.bind_some, if_pos hdir, hlook]
          · dsimp only
            rw [← pathOf_concat, ← hsum, Nat.add_assoc]
        · rw [if_neg hfit, if_neg hfit]
          rfl
  · have hfile : d.isDir = false := by simpa using hdir
    have hcur : cur.isDir = false := hnode.isDir.trans hfile
    rw [if_pos (by rw [hcur]; rfl), if_pos hfile]
    exact ⟨_,rfl,rfl,h.buf,h.short,h.clean⟩

theorem travel_cons_arrived {cs : List (List UInt8)} (h : v.stepName fuel names c = .arrived names') :
    v.travel fuel names (c :: cs) = v.travel fuel names' cs := by
  rw [Volume.travel, h]

theorem openLoop_result (junk : DirFile) {path : ℕ → Option UInt8} {n i ind : ℕ} {acc : List UInt8}
    {name : ℕ → UInt8} (h : Standing v fuel names cur p) (hname : (List.range ind).map name = acc)
    (hslash : (47 : UInt8) ∉ acc) (hnul : (0 : UInt8) ∉ acc)
    (hre : [46,46] ∈ (components path n i acc).1 → Reopens v fuel reopen) :
    ((v.travel fuel names (components path n i acc).1).ends (components path n i acc).2).Result v fuel
      (openLoop v fuel junk reopen path n i ind name cur p) := by
  induction n generalizing i ind acc name names cur p with
  | zero =>
    rw [components, Volume.travel, openLoop]
    exact ⟨_,rfl,rfl,h.buf,h.short,h.clean⟩
  | succ n ih =>
    have hlen : acc.length = ind := by rw [← hname, List.length_map, List.length_range]
    rw [openLoop, pathByte]
    cases hb : path i with
    | none =>
      rw [components, hb]
      rfl
    | some b =>
      dsimp only
      rw [ok_bind]
      by_cases hplain : b ≠ 47 ∧ b ≠ 0
      · -- one more byte of a name
        have hcomp : components path (n+1) i acc = components path n (i+1) (acc ++ [b]) := by
          rw [components, hb]
          dsimp only
          rw [if_neg hplain.2, if_neg hplain.1]
        rw [hcomp] at hre ⊢
        rw [if_pos hplain]
        refine ih h ?_ ?_ ?_ hre
        · rw [List.range_succ, List.map_append, List.map_singleton, Function.update_self, ← hname]
          congr 1
          exact List.map_congr_left fun j hj => Function.update_of_ne (List.mem_range.mp hj).ne ..
        · rw [List.mem_append, List.mem_singleton]
          exact fun hm => hm.elim hslash fun hm => hplain.1 hm.symm
        · rw [List.mem_append, List.mem_singleton]
          exact fun hm => hm.elim hnul fun hm => hplain.2 hm.symm
      · rw [if_neg hplain]
        -- a component is complete
        have hhead : (components path (n+1) i acc).1 = acc :: (if b = 0 then [] else (components path n (i+1) []).1) ∧
            (components path (n+1) i acc).2 = if b = 0 then .nul else (components path n (i+1) []).2 := by
          rw [components, hb]
          dsimp only
          by_cases h0 : b = 0
          · rw [if_pos h0, if_pos h0, if_pos h0]
            exact ⟨rfl,rfl⟩
          · have h47 : b = 47 := by
              by_contra h47
              exact hplain ⟨h47,h0⟩
            rw [if_neg h0, if_neg h0, if_neg h0, if_pos h47]
            exact ⟨rfl,rfl⟩
        rw [hhead.1] at hre
        rw [hhead.1, hhead.2]
        have hstep := enterName_result junk h hname hslash hnul fun hc => hre (hc ▸ List.mem_cons_self)
        cases hj : v.stepName fuel names acc with
        | arrived names' =>
          rw [hj] at hstep
          obtain ⟨o,cur',ho,hcur,hst⟩ := hstep
          rw [travel_cons_arrived hj, ho, ok_bind, hcur]
          dsimp only
          by_cases h0 : b = 0
          · rw [if_pos h0, if_pos h0, if_neg (not_not.mpr h0)]
            exact ⟨o,cur',rfl,hcur,hst⟩
          · rw [if_neg h0, if_neg h0, if_pos h0]
            rw [if_neg h0] at hre
            exact ih hst rfl nofun nofun fun hd => hre (List.mem_cons_of_mem _ hd)
        | refused e names' =>
          rw [hj] at hstep
          obtain ⟨o,ho,herr,hbuf⟩ := hstep
          rw [Volume.travel, hj, ho, ok_bind, herr]
          exact ⟨o,rfl,herr,hbuf⟩
        | fault e =>
          rw [hj] at hstep
          rw [Volume.travel, hj, show enterName _ _ _ _ _ _ _ _ = _ from hstep]
          rfl

theorem components_string {path : ℕ → Option UInt8} {n i : ℕ} {acc s : List UInt8} (hs : s.length < n)
    (hpath : ∀ j ≤ s.length, path (i + j) = some (s.getD j 0)) (hnul : (0 : UInt8) ∉ s) :
    components path n i acc = (splitPath acc s,.nul) := by
  induction s generalizing n i acc with
  | nil =>
    obtain ⟨n,rfl⟩ := Nat.exists_eq_succ_of_ne_zero (Nat.zero_lt_of_lt hs).ne'
    have h0 : path i = some 0 := hpath 0 le_rfl
    rw [components, h0]
    rfl
  | cons b s ih =>
    obtain ⟨n,rfl⟩ := Nat.exists_eq_succ_of_ne_zero (Nat.zero_lt_of_lt hs).ne'
    have hb : path i = some b := hpath 0 (Nat.zero_le _)
    rw [List.mem_cons, not_or] at hnul
    have hrest : ∀ j ≤ s.length, path (i + 1 + j) = some (s.getD j 0) := fun j hj => by
      have := hpath (j+1) (by rw [List.length_cons]; omega)
      rw [show i + 1 + j = i + (j+1) by omega, this, List.getD_cons_succ]
    have hs' : s.length < n := by
      rw [List.length_cons] at hs
      omega
    rw [components, hb]
    dsimp only
    rw [if_neg (Ne.symm hnul.1), splitPath, ih hs' hrest hnul.2, ih hs' hrest hnul.2]
    split <;> rfl

theorem travel_names {cs : List (List UInt8)} (h : Clean cs) (hd : v.descend fuel v.root (names ++ cs) = some d)
    (hlen : (pathOf (names ++ cs)).length < 256) : v.travel fuel names cs = .arrived (names ++ cs) := by
  induction cs generalizing names with
  | nil => rw [Volume.travel, List.append_nil]
  | cons c cs ih =>
    have hc := h c List.mem_cons_self
    have happ : names ++ c :: cs = names ++ [c] ++ cs := by simp
    rw [happ] at hd hlen ⊢
    obtain ⟨e,he,-⟩ := Option.bind_eq_some_iff.mp (descend_append ▸ hd)
    have he' := he
    rw [descend_concat] at he'
    obtain ⟨f,hf,hlook⟩ := Option.bind_eq_some_iff.mp he'
    have hfit : (pathOf (names ++ [c])).length < 256 := by
      refine Nat.lt_of_le_of_lt ?_ hlen
      simp only [pathOf,List.flatMap_append,List.length_append]
      omega
    have hdir : f.isDir = true := by
      by_contra hno
      rw [if_neg hno] at hlook
      cases hlook
    rw [if_pos hdir] at hlook
    have hstep : v.stepName fuel names c = .arrived (names ++ [c]) := by
      rw [Volume.stepName, if_neg (not_or.mpr ⟨hc.ne_nil,hc.ne_dot⟩), if_neg hc.ne_dots, hf]
      dsimp only
      rw [if_neg (by rw [hdir]; decide), look_eq_some.mp hlook]
      dsimp only
      rw [if_pos hfit]
    rw [travel_cons_arrived hstep]
    exact ih (fun e he => h e (List.mem_cons_of_mem _ he)) hd hlen

/-- The nested call opens the path of a directory from the root, without a further one. -/
theorem exfatResolve_reopens (depth : ℕ) : Reopens v fuel fun s name =>
    exfatResolve v fuel junk (depth+1) (fun i => some (s.getD i 0)) none name := by
  intro names name hclean ⟨d,hd⟩ hlen
  have hcomp : components (fun i => some ((pathOf names).getD i 0)) 256 0 [] = ([] :: names,.nul) := by
    rw [components_string hlen (fun j _ => by rw [Nat.zero_add]) hclean.nul, splitPath_pathOf hclean]
  have hfirst : (pathOf names).getD 0 0 = 47 ∨ (pathOf names).getD 0 0 = 0 := by
    cases names with
    | nil => exact .inr rfl
    | cons c names => exact .inl rfl
  have htravel : v.travel fuel [] ([] :: names) = .arrived names := by
    have hstep : v.stepName fuel [] [] = .arrived [] := by rw [Volume.stepName, if_pos (.inl rfl)]
    rw [travel_cons_arrived hstep]
    exact travel_names hclean hd hlen
  have hloop : (Journey.arrived names).Result v fuel (openLoop v fuel junk
      (fun s name => exfatResolve v fuel junk depth (fun i => some (s.getD i 0)) none name)
      (fun i => some ((pathOf names).getD i 0)) 256 0 0 name v.root ⟨[],0⟩) := by
    have hre : [46,46] ∈ (components (fun i => some ((pathOf names).getD i 0)) 256 0 []).1 → Reopens v fuel
        (fun s name => exfatResolve v fuel junk depth (fun i => some (s.getD i 0)) none name) := by
      rw [hcomp]
      intro hmem
      rcases List.mem_cons.mp hmem with hm | hm
      · cases hm
      · exact absurd rfl (hclean _ hm).ne_dots
    have h := openLoop_result junk standing_root (show (List.range 0).map name = [] from rfl) List.not_mem_nil
      List.not_mem_nil hre
    rw [hcomp, htravel] at h
    exact h
  dsimp only
  rw [exfatResolve, pathByte]
  dsimp only
  rw [ok_bind, openStart, if_pos hfirst, ok_bind]
  exact hloop

/-! ## The whole call -/

/-- The descriptor of a directory, with the path to it. -/
structure DirAt (v : Volume) (fuel : ℕ) (f : FileDesc) (names : List (List UInt8)) : Prop where
  clean : Clean names
  path : f.path = pathOf names
  short : (pathOf names).length < 256
  node : ∃ d, v.descend fuel v.root names = some d ∧ d.isDir = true ∧ f.headCluster = d.clusId ∧ f.useFat = d.useFat

/-- A text that is empty or starts with a slash is resolved from the root, any other one from `names`. -/
def startNames (path : ℕ → Option UInt8) (names : List (List UInt8)) : List (List UInt8) :=
  if path 0 = some 47 ∨ path 0 = some 0 then [] else names

/-- How the walk for the text at `path` ends. -/
def Volume.journey (v : Volume) (fuel : ℕ) (path : ℕ → Option UInt8) (names : List (List UInt8)) : Journey :=
  (v.travel fuel (startNames path names) (components path 256 0 []).1).ends (components path 256 0 []).2

theorem exfatResolve_result {f : FileDesc} (hf : DirAt v fuel f names) (path : ℕ → Option UInt8) (depth : ℕ)
    (name : ℕ → UInt8) : (v.journey fuel path names).Result v fuel
      (exfatResolve v fuel junk (depth+2) path (some f) name) := by
  rw [exfatResolve, pathByte]
  cases h0 : path 0 with
  | none =>
    rw [Volume.journey, components, h0]
    rfl
  | some b =>
    obtain ⟨cur,p,hstart,hst⟩ : ∃ cur p, openStart v b (some f) = .ok (cur,p) ∧
        Standing v fuel (startNames path names) cur p := by
      rw [openStart, startNames, h0]
      by_cases hroot : b = 47 ∨ b = 0
      · rw [if_pos hroot, if_pos (hroot.imp (congrArg some) (congrArg some))]
        exact ⟨_,_,rfl,standing_root⟩
      · have hroot' : ¬ (some b = some 47 ∨ some b = some 0) := fun hs =>
          hroot (hs.imp Option.some.inj Option.some.inj)
        obtain ⟨d,hd,hdir,hclus,hfat⟩ := hf.node
        rw [if_neg hroot, if_neg hroot', hf.path, if_pos hf.short]
        refine ⟨_,_,rfl,hf.clean,⟨d,hd,hclus,hfat,hdir.symm,fun hno => ?_⟩,rfl,hf.short⟩
        rw [hdir] at hno
        cases hno
    dsimp only
    rw [ok_bind, hstart, ok_bind]
    exact openLoop_result junk hst rfl List.not_mem_nil List.not_mem_nil fun _ => exfatResolve_reopens depth

/-! ## Normal form -/

/-- Empty components and `.` are left out, `..` removes the name before it. -/
def normStep (names : List (List UInt8)) (c : List UInt8) : List (List UInt8) :=
  if c = [] ∨ c = [46] then names else if c = [46,46] then names.dropLast else names ++ [c]

theorem stepName_arrived (h : v.stepName fuel names c = .arrived names') : names' = normStep names c := by
  unfold Volume.stepName at h
  unfold normStep
  split at h
  · rename_i hc
    rw [if_pos hc]
    cases h
    rfl
  rename_i hc
  rw [if_neg hc]
  split at h
  · rename_i hc
    rw [if_pos hc]
    cases h
    rfl
  rename_i hc
  rw [if_neg hc]
  split at h
  · cases h
  split at h
  · cases h
  split at h
  · cases h
  · cases h
  split at h
  · cases h
    rfl
  · cases h

theorem travel_arrived {cs : List (List UInt8)} (h : v.travel fuel names cs = .arrived names') :
    names' = cs.foldl normStep names := by
  induction cs generalizing names with
  | nil =>
    cases h
    rfl
  | cons c cs ih =>
    rw [Volume.travel] at h
    split at h
    · rename_i hstep
      rw [List.foldl_cons, ← stepName_arrived hstep]
      exact ih h
    · rename_i hno
      rw [h] at hno
      exact absurd rfl (hno names')

theorem journey_arrived {path : ℕ → Option UInt8} (h : v.journey fuel path names = .arrived names') :
    names' = (components path 256 0 []).1.foldl normStep (startNames path names) ∧
      (components path 256 0 []).2 = .nul := by
  unfold Volume.journey at h
  cases ht : v.travel fuel (startNames path names) (components path 256 0 []).1 with
  | arrived ns =>
    rw [ht] at h
    cases he : (components path 256 0 []).2 with
    | nul =>
      rw [he] at h
      cases h
      exact ⟨travel_arrived ht,rfl⟩
    | long =>
      rw [he] at h
      cases h
    | unmapped =>
      rw [he] at h
      cases h
  | refused e ns =>
    rw [ht] at h
    cases h
  | fault e =>
    rw [ht] at h
    cases h

end Ukern
