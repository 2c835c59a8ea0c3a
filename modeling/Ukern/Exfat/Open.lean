import Ukern.Exfat.Path
import Ukern.Process.Descriptors
import Ukern.Process.Exec

/-! # Descriptors that `exfat_open` fills in

The system calls take a volume for their file system. A descriptor that a call fills in has the normal
form of its path and what the path leads to, and a process stays in a directory that its path leads to.
The text of a path is appended to without a look at its length, so what has to be asked of a call is
that no path on its way is longer than a descriptor holds.
-/
namespace Ukern
open Lib
variable {v : Volume} {fuel : ℕ} {junk : DirFile} {name : ℕ → UInt8}
  {blocks : (ℕ → Option UInt8) → FileDesc → List (ℕ × ℕ)} {disk : Fs} {names names' cs : List (List UInt8)} {d : DirFile} {path : ℕ → Option UInt8} {pwd f f' : FileDesc}
  {m m' : Phys} {kp : ℕ} {opendir : Bool} {r : U64} {k k' : Kernel} {tf : Context} {o : Outcome}

/-- A file system on a volume. `name` is what the static buffer has in it, `junk` what the stack has. -/
def Volume.fs (v : Volume) (fuel : ℕ) (junk : DirFile) (name : ℕ → UInt8)
    (blocks : (ℕ → Option UInt8) → FileDesc → List (ℕ × ℕ)) (disk : Fs) : Fs :=
  { disk with
    resolve := fun path pwd => do
      let o ← exfatResolve v fuel junk 2 path (some pwd) name
      .ok ⟨o.node,o.buf.path,blocks path pwd⟩ }

/-! ## Paths that fit -/

section Fit
variable {c : List UInt8}

/-- What exists has an existing parent, so the walk stands somewhere or is refused. -/
theorem stepName_exists (hd : v.descend fuel v.root names = some d) (hlen : (pathOf names).length < 256)
    {e : DirFile} (he : v.descend fuel v.root (normStep names c) = some e) : v.stepName fuel names c =
      if (pathOf (normStep names c)).length < 256 then .arrived (normStep names c) else .fault .overrun := by
  unfold normStep Volume.stepName at *
  by_cases h1 : c = [] ∨ c = [46]
  · rw [if_pos h1, if_pos h1, if_pos hlen]
  rw [if_neg h1] at he ⊢
  rw [if_neg h1]
  by_cases h2 : c = [46,46]
  · rw [if_pos h2, if_pos h2, if_pos (pathOf_dropLast_le.trans_lt hlen)]
  rw [if_neg h2] at he ⊢
  rw [if_neg h2, hd]
  rw [descend_concat, hd, Option.bind_some] at he
  have hdir : d.isDir = true := by
    by_contra hno
    rw [if_neg hno] at he
    cases he
  rw [if_pos hdir] at he
  dsimp only
  rw [if_neg (by rw [hdir]; decide), look_eq_some.mp he]

theorem scanDir_error {σ ρ : Type} {step : ℕ → σ → DirEntry → σ ⊕ ρ} {last : σ → ρ} {useFat i : ℕ} {cur : DirCursor}
    {s : σ} {e : Fault} (h : v.scanDir useFat step last fuel i cur s = .error e) : e = .hang := by
  induction fuel generalizing i cur s with
  | zero =>
    cases h
    rfl
  | succ fuel ih =>
    rw [Volume.scanDir] at h
    split at h
    · cases h
    · split at h
      · cases h
      · exact ih h

theorem stepName_missing (hd : v.descend fuel v.root names = some d)
    (he : v.descend fuel v.root (normStep names c) = none) :
    (∃ e, v.stepName fuel names c = .refused e names) ∨ v.stepName fuel names c = .fault .hang := by
  unfold normStep at he
  unfold Volume.stepName
  by_cases h1 : c = [] ∨ c = [46]
  · rw [if_pos h1, hd] at he
    cases he
  rw [if_neg h1] at he ⊢
  by_cases h2 : c = [46,46]
  · obtain ⟨e,he',-⟩ := descend_dropLast hd
    rw [if_pos h2, he'] at he
    cases he
  rw [if_neg h2] at he ⊢
  rw [descend_concat, hd, Option.bind_some] at he
  rw [hd]
  dsimp only
  by_cases hdir : d.isDir = true
  · rw [if_neg (by rw [hdir]; decide)]
    rw [if_pos hdir] at he
    cases hw : exfatWalkDir v fuel c d with
    | error e =>
      right
      rw [scanDir_error hw]
    | ok r =>
      have hr : r = none := by
        rw [Volume.look, hw] at he
        exact he
      rw [hr]
      exact .inl ⟨_,rfl⟩
  · rw [if_pos (by simpa using hdir)]
    exact .inl ⟨_,rfl⟩

/-- Every path on the way that exists has at most 255 bytes. -/
def Volume.PathsFit (v : Volume) (fuel : ℕ) (names cs : List (List UInt8)) : Prop :=
  ∀ i ≤ cs.length, (∀ j ≤ i, v.descend fuel v.root ((cs.take j).foldl normStep names) ≠ none) →
    (pathOf ((cs.take i).foldl normStep names)).length < 256

theorem pathsFit_cons (hd : v.descend fuel v.root names = some d) (hlen : (pathOf names).length < 256) :
    v.PathsFit fuel names (c :: cs) ↔ (v.descend fuel v.root (normStep names c) ≠ none →
      (pathOf (normStep names c)).length < 256 ∧ v.PathsFit fuel (normStep names c) cs) := by
  constructor
  · intro h he
    have hpre : ∀ i ≤ cs.length, (∀ j ≤ i, v.descend fuel v.root ((cs.take j).foldl normStep (normStep names c)) ≠ none) →
        (pathOf ((cs.take i).foldl normStep (normStep names c))).length < 256 := fun i hi hj => by
      refine h (i+1) (by rw [List.length_cons]; omega) fun j hj' => ?_
      cases j with
      | zero =>
        rw [List.take_zero, List.foldl_nil, hd]
        exact Option.some_ne_none d
      | succ j => exact hj j (by omega)
    refine ⟨hpre 0 (Nat.zero_le _) fun j hj => ?_,hpre⟩
    rw [Nat.le_zero.mp hj]
    exact he
  · intro h i hi hj
    cases i with
    | zero => exact hlen
    | succ i =>
      have he : v.descend fuel v.root (normStep names c) ≠ none := hj 1 (by omega)
      exact (h he).2 i (by rw [List.length_cons] at hi; omega) fun j hj' => hj (j+1) (by omega)

/-- The walk runs over exactly when a path on its way does not fit. -/
theorem travel_overrun_iff (hd : v.descend fuel v.root names = some d) (hlen : (pathOf names).length < 256) :
    v.travel fuel names cs = .fault .overrun ↔ ¬ v.PathsFit fuel names cs := by
  induction cs generalizing names d with
  | nil =>
    refine iff_of_false (by rintro ⟨⟩) (not_not.mpr fun i hi _ => ?_)
    rw [List.take_nil]
    exact hlen
  | cons c cs ih =>
    rw [pathsFit_cons hd hlen, Volume.travel]
    cases he : v.descend fuel v.root (normStep names c) with
    | none =>
      have hfit : none ≠ (none : Option DirFile) → (pathOf (normStep names c)).length < 256 ∧
          v.PathsFit fuel (normStep names c) cs := fun hne => absurd rfl hne
      refine iff_of_false ?_ (not_not.mpr hfit)
      rcases stepName_missing hd he with ⟨e,h⟩ | h
      · rw [h]
        rintro ⟨⟩
      · rw [h]
        rintro ⟨⟩
    | some e =>
      rw [stepName_exists hd hlen he]
      by_cases hfit : (pathOf (normStep names c)).length < 256
      · rw [if_pos hfit]
        dsimp only
        rw [ih he hfit]
        refine not_congr ⟨fun h _ => ⟨hfit,h⟩,fun h => (h (Option.some_ne_none e)).2⟩
      · rw [if_neg hfit]
        exact iff_of_true rfl fun h => hfit (h (Option.some_ne_none e)).1

end Fit

/-! ## One call -/

theorem journey_overrun_iff : v.journey fuel path names = .fault .overrun ↔
    v.travel fuel (startNames path names) (components path 256 0 []).1 = .fault .overrun := by
  unfold Volume.journey
  cases v.travel fuel (startNames path names) (components path 256 0 []).1 with
  | arrived ns => cases (components path 256 0 []).2 <;> exact iff_of_false nofun nofun
  | refused e ns => exact Iff.rfl
  | fault e => exact Iff.rfl

theorem fs_resolve (junk : DirFile) (name : ℕ → UInt8) (blocks : (ℕ → Option UInt8) → FileDesc → List (ℕ × ℕ))
    (disk : Fs) (hf : DirAt v fuel pwd names) (path : ℕ → Option UInt8) :
    match v.journey fuel path names with
    | .arrived ns => ∃ cur, Standing v fuel ns cur ⟨pathOf ns,(pathOf ns).length⟩ ∧
        (v.fs fuel junk name blocks disk).resolve path pwd = .ok ⟨.ok cur,pathOf ns,blocks path pwd⟩
    | .refused e ns => Clean ns ∧ (pathOf ns).length < 256 ∧
        (v.fs fuel junk name blocks disk).resolve path pwd = .ok ⟨.error e,pathOf ns,blocks path pwd⟩
    | .fault e => (v.fs fuel junk name blocks disk).resolve path pwd = .error e := by
  have h : (v.journey fuel path names).Result v fuel (exfatResolve v fuel junk 2 path (some pwd) name) :=
    exfatResolve_result hf path 0 name
  unfold Volume.fs
  cases hj : v.journey fuel path names with
  | arrived ns =>
    rw [hj] at h
    obtain ⟨o,cur,ho,hcur,hst⟩ := h
    refine ⟨cur,⟨hst.clean,hst.node,rfl,hst.short⟩,?_⟩
    dsimp only
    rw [ho, ok_bind, hcur, hst.buf]
  | refused e ns =>
    rw [hj] at h
    obtain ⟨o,ho,herr,hbuf,hshort,hclean⟩ := h
    refine ⟨hclean,hshort,?_⟩
    dsimp only
    rw [ho, ok_bind, herr, hbuf]
  | fault e =>
    rw [hj] at h
    dsimp only
    rw [show exfatResolve _ _ _ _ _ _ _ = _ from h]
    rfl

theorem descend_startNames (hf : DirAt v fuel pwd names) (path : ℕ → Option UInt8) :
    (pathOf (startNames path names)).length < 256 ∧
      ∃ d, v.descend fuel v.root (startNames path names) = some d := by
  unfold startNames
  split
  · exact ⟨by decide,_,rfl⟩
  · obtain ⟨d,hd,-⟩ := hf.node
    exact ⟨hf.short,d,hd⟩

theorem exfatOpen_inside_iff (hf : DirAt v fuel pwd names) :
    Inside (exfatOpen (v.fs fuel junk name blocks disk) m kp path pwd f opendir) ↔
      v.PathsFit fuel (startNames path names) (components path 256 0 []).1 := by
  obtain ⟨hlen,d,hd⟩ := descend_startNames hf path
  rw [exfatOpen_inside, ← not_iff_not, ← travel_overrun_iff hd hlen, ← journey_overrun_iff, not_and_or, not_not]
  have h := fs_resolve junk name blocks disk hf path
  cases hj : v.journey fuel path names with
  | arrived ns =>
    rw [hj] at h
    obtain ⟨cur,hst,hr⟩ := h
    refine iff_of_false (not_or.mpr ⟨?_,not_not.mpr ?_⟩) nofun
    · rw [hr]
      nofun
    · rw [hr]
      intro r m₁ he _
      cases he
      exact hst.short
  | refused e ns =>
    rw [hj] at h
    obtain ⟨-,hshort,hr⟩ := h
    refine iff_of_false (not_or.mpr ⟨?_,not_not.mpr ?_⟩) nofun
    · rw [hr]
      nofun
    · rw [hr]
      intro r m₁ he _
      cases he
      exact hshort
  | fault e =>
    rw [hj] at h
    rw [show (v.fs fuel junk name blocks disk).resolve path pwd = .error e from h]
    constructor
    · rintro (he | he)
      · cases he
        rfl
      · exact absurd (fun _ _ => nofun) he
    · intro he
      cases he
      exact .inl rfl

/-- A walk fails because a directory cannot be searched, or because a path does not fit. -/
theorem stepName_fault {a : List UInt8} {e : Fault} (h : v.stepName fuel names a = .fault e) :
    (∃ d, exfatWalkDir v fuel a d = .error e) ∨ e = .overrun := by
  unfold Volume.stepName at h
  split at h
  · cases h
  split at h
  · cases h
  split at h
  · cases h
  split at h
  · cases h
  split at h
  · rename_i hw
    cases h
    exact .inl ⟨_,hw⟩
  · cases h
  split at h
  · cases h
  · cases h
    exact .inr rfl

theorem travel_fault {e : Fault} (h : v.travel fuel names cs = .fault e) :
    (∃ a d, exfatWalkDir v fuel a d = .error e) ∨ e = .overrun := by
  induction cs generalizing names with
  | nil => cases h
  | cons a cs ih =>
    rw [Volume.travel] at h
    split at h
    · exact ih h
    · exact (stepName_fault h).imp_left (Exists.intro a)

/-- A byte of the text is missed exactly if the complete components in front of it are walked. -/
theorem journey_nullDeref_iff : v.journey fuel path names = .fault .nullDeref ↔
    (components path 256 0 []).2 = .unmapped ∧
      ∃ ns, v.travel fuel (startNames path names) (components path 256 0 []).1 = .arrived ns := by
  unfold Volume.journey
  cases ht : v.travel fuel (startNames path names) (components path 256 0 []).1 with
  | arrived ns =>
    cases (components path 256 0 []).2 with
    | nul => exact iff_of_false nofun fun h => nomatch h.1
    | long => exact iff_of_false nofun fun h => nomatch h.1
    | unmapped => exact iff_of_true rfl ⟨rfl,ns,rfl⟩
  | refused e ns => exact iff_of_false nofun fun ⟨_,_,h⟩ => nomatch h
  | fault e =>
    refine iff_of_false (fun h => ?_) fun ⟨_,_,h⟩ => nomatch h
    cases h
    rcases travel_fault ht with ⟨a,d,he⟩ | h
    · cases scanDir_error he
    · cases h

theorem components_total {n i : ℕ} {acc : List UInt8} (h : ∀ i, path i ≠ none) :
    (components path n i acc).2 ≠ .unmapped := by
  induction n generalizing i acc with
  | zero => rintro ⟨⟩
  | succ n ih =>
    rw [components]
    split
    · rename_i hi
      exact absurd hi (h i)
    split
    · rintro ⟨⟩
    split
    · exact ih
    · exact ih

/-- What is not missing in a text is read in the same way where more of it can be read. -/
theorem openLoop_extends {reopen : List UInt8 → (ℕ → UInt8) → Except Fault Opened} {g : ℕ → Option UInt8} {n i ind : ℕ}
    {cur : DirFile} {p : PathBuf} (hext : ∀ i b, g i = some b → path i = some b)
    (hne : openLoop v fuel junk reopen g n i ind name cur p ≠ .error .nullDeref) :
    openLoop v fuel junk reopen path n i ind name cur p = openLoop v fuel junk reopen g n i ind name cur p := by
  induction n generalizing i ind name cur p with
  | zero => rfl
  | succ n ih =>
    rw [openLoop, pathByte] at hne ⊢
    rw [openLoop, pathByte]
    cases hb : g i with
    | none =>
      rw [hb] at hne
      exact absurd rfl hne
    | some b =>
      rw [hb] at hne
      rw [hext i b hb]
      dsimp only at hne ⊢
      rw [ok_bind] at hne ⊢
      rw [ok_bind]
      split
      · rename_i hplain
        rw [if_pos hplain] at hne
        exact ih hne
      · rename_i hplain
        rw [if_neg hplain] at hne
        refine bind_congr_ok fun o ho => ?_
        rw [ho, ok_bind] at hne
        split
        · rfl
        · rename_i d hd
          rw [hd] at hne
          dsimp only at hne
          split
          · rename_i h0
            rw [if_pos h0] at hne
            exact ih hne
          · rfl

theorem exfatResolve_extends {g : ℕ → Option UInt8} {depth : ℕ} {pwd : Option FileDesc}
    (hext : ∀ i b, g i = some b → path i = some b)
    (hne : exfatResolve v fuel junk depth g pwd name ≠ .error .nullDeref) :
    exfatResolve v fuel junk depth path pwd name = exfatResolve v fuel junk depth g pwd name := by
  cases depth with
  | zero => rfl
  | succ depth =>
    rw [exfatResolve, pathByte] at hne ⊢
    rw [exfatResolve, pathByte]
    cases hb : g 0 with
    | none =>
      rw [hb] at hne
      exact absurd rfl hne
    | some b =>
      rw [hb] at hne
      rw [hext 0 b hb]
      dsimp only at hne ⊢
      rw [ok_bind] at hne ⊢
      rw [ok_bind]
      refine bind_congr_ok fun st hst => ?_
      rw [hst, ok_bind] at hne
      exact openLoop_extends hext hne

theorem exfatResolve_nullDeref_iff (hf : DirAt v fuel pwd names) :
    exfatResolve v fuel junk 2 path (some pwd) name = .error .nullDeref ↔ v.journey fuel path names = .fault .nullDeref := by
  have h : (v.journey fuel path names).Result v fuel (exfatResolve v fuel junk 2 path (some pwd) name) :=
    exfatResolve_result hf path 0 name
  cases hj : v.journey fuel path names with
  | arrived ns =>
    rw [hj] at h
    obtain ⟨o,cur,ho,-⟩ := h
    rw [ho]
    exact iff_of_false nofun nofun
  | refused e ns =>
    rw [hj] at h
    obtain ⟨o,ho,-⟩ := h
    rw [ho]
    exact iff_of_false nofun nofun
  | fault e =>
    rw [hj] at h
    rw [show exfatResolve v fuel junk 2 path (some pwd) name = .error e from h]
    exact ⟨fun he => congrArg _ (Except.error.inj he),fun he => congrArg _ (Journey.fault.inj he)⟩

/-- The names that a path comes to in normal form. -/
def normal (names : List (List UInt8)) (path : ℕ → Option UInt8) : List (List UInt8) :=
  (components path 256 0 []).1.foldl normStep (startNames path names)

/-- What the descriptor of an opened path has in it. -/
structure Canonical (v : Volume) (fuel : ℕ) (names : List (List UInt8)) (path : ℕ → Option UInt8) (opendir : Bool)
    (f : FileDesc) : Prop where
  ended : (components path 256 0 []).2 = .nul
  text : f.path = pathOf (normal names path)
  node : ∃ d, v.descend fuel v.root (normal names path) = some d ∧ f.headCluster = d.clusId ∧ f.useFat = d.useFat ∧
    d.isDir = opendir ∧ f.fileType = if opendir then .dir else .reg

/-- A call that returns has a path that fits, and with 0 it has what the path leads to. -/
theorem exfatOpen_path (hf : DirAt v fuel pwd names)
    (h : exfatOpen (v.fs fuel junk name blocks disk) m kp path pwd f opendir = .ok (r,f',m')) :
    ∃ ns, Clean ns ∧ f'.path = pathOf ns ∧ (pathOf ns).length < 256 ∧
      (r = 0 → ns = normal names path ∧ v.journey fuel path names = .arrived ns ∧
        Canonical v fuel names path opendir f') := by
  have hres := fs_resolve junk name blocks disk hf path
  unfold exfatOpen at h
  cases hj : v.journey fuel path names with
  | fault e =>
    rw [hj] at hres
    rw [show (v.fs fuel junk name blocks disk).resolve path pwd = .error e from hres] at h
    cases h
  | refused e ns =>
    rw [hj] at hres
    obtain ⟨hclean,hshort,hr⟩ := hres
    rw [hr, ok_bind] at h
    obtain ⟨m₁,-,h⟩ := bind_eq_ok.mp h
    dsimp only at h
    rw [if_neg (by omega)] at h
    cases h
    refine ⟨ns,hclean,rfl,hshort,fun h0 => absurd h0 ?_⟩
    cases e <;> decide
  | arrived ns =>
    rw [hj] at hres
    obtain ⟨cur,hst,hr⟩ := hres
    have hshort := hst.short
    obtain ⟨d,hd,hnode⟩ := hst.node
    have hns : ns = normal names path := (journey_arrived hj).1
    have hend := (journey_arrived hj).2
    rw [hr, ok_bind] at h
    obtain ⟨m₁,-,h⟩ := bind_eq_ok.mp h
    dsimp only at h
    rw [if_neg (by omega)] at h
    split at h
    · cases h
      exact ⟨ns,hst.clean,rfl,hshort,fun h0 => absurd h0 (by decide)⟩
    rename_i hdir
    split at h
    · cases h
      exact ⟨ns,hst.clean,rfl,hshort,fun h0 => absurd h0 (by decide)⟩
    rename_i hreg
    cases h
    have hkind : d.isDir = opendir := by
      rw [← hnode.isDir]
      cases opendir <;> cases hc : cur.isDir <;> simp_all
    exact ⟨ns,hst.clean,rfl,hshort,fun _ => ⟨hns,rfl,⟨hend,congrArg pathOf hns,d,hns ▸ hd,hnode.clusId,hnode.useFat,
      hkind,rfl⟩⟩⟩

/-- The directory that was opened is one that its path leads to. -/
theorem exfatOpen_dirAt (hf : DirAt v fuel pwd names)
    (h : exfatOpen (v.fs fuel junk name blocks disk) m kp path pwd f true = .ok (0,f',m')) :
    DirAt v fuel f' (normal names path) := by
  obtain ⟨ns,hclean,hpath,hshort,hok⟩ := exfatOpen_path hf h
  obtain ⟨rfl,-,hc⟩ := hok rfl
  obtain ⟨d,hd,hclus,hfat,hdir,-⟩ := hc.node
  exact ⟨hclean,hpath,hshort,d,hd,hdir,hclus,hfat⟩

/-! ## A process and its directory -/

variable {c : Slot}

/-- A call that fails leaves the directory of the process alone. -/
theorem sysChdir_pwd {fs : Fs} (h : sysChdir fs k c tf = .ok o) : (o.kernel.procs c).pwd = (k.procs c).pwd ∨
    ∃ m, exfatOpen fs k.phys k.kPgtbl (userPath k.phys (k.procs c).pgtbl tf.rdx) (k.procs c).pwd .zero true =
      .ok (0,(o.kernel.procs c).pwd,m) := by
  unfold sysChdir at h
  obtain ⟨ok,-,h⟩ := bind_eq_ok.mp h
  split at h
  · cases h
    exact .inl rfl
  obtain ⟨⟨r,f,m⟩,ho,h⟩ := bind_eq_ok.mp h
  dsimp only at h
  split at h
  · cases h
    exact .inl rfl
  · rename_i hr
    cases h
    rw [not_not.mp hr] at ho
    refine .inr ⟨m,ho.trans ?_⟩
    simp only [Outcome.kernel,Kernel.modProc,Kernel.setProc,Function.update_self]

theorem sysOpenAs_pwd {fs : Fs} (h : sysOpenAs opendir fs k c tf = .ok o) :
    (o.kernel.procs c).pwd = (k.procs c).pwd := by
  unfold sysOpenAs at h
  obtain ⟨ok,-,h⟩ := bind_eq_ok.mp h
  split at h
  · cases h
    rfl
  obtain ⟨fd,-,h⟩ := bind_eq_ok.mp h
  obtain ⟨⟨r,f,m⟩,-,h⟩ := bind_eq_ok.mp h
  dsimp only at h
  split at h <;>
  · cases h
    simp only [Outcome.kernel,Kernel.setFdesc,Kernel.modProc,Kernel.setProc,Function.update_self,Kernel.setPhys]

theorem clearProc_self {i : Slot} (h : clearProc k i = .ok k') : (k'.procs i).state = .close := by
  unfold clearProc at h
  obtain ⟨m₁,-,h⟩ := bind_eq_ok.mp h
  obtain ⟨m₂,-,h⟩ := bind_eq_ok.mp h
  obtain ⟨k₁,-,h⟩ := bind_eq_ok.mp h
  cases h
  simp only [Kernel.setProc,Function.update_self]
  rfl

theorem killProc_self {i : Slot} {x : U64} (h : killProc k i x = .ok k') :
    (k'.procs i).state = .zombie ∨ (k'.procs i).state = .close := by
  unfold killProc at h
  obtain ⟨k₁,-,h⟩ := bind_eq_ok.mp h
  unfold exitAsChild at h
  split at h
  · exact .inr (clearProc_self h)
  split at h
  · cases h
    left
    simp only [becomeZombie,Kernel.modProc,Kernel.setProc,Function.update_self]
  · obtain ⟨k₂,-,h⟩ := bind_eq_ok.mp h
    exact .inr (clearProc_self h)

theorem execLoad_pwd {img : Img} (h : execLoad img k c tf = .ok k') : (k'.procs c).pwd = (k.procs c).pwd ∨
    (k'.procs c).state = .zombie ∨ (k'.procs c).state = .close := by
  unfold execLoad at h
  obtain ⟨m₁,-,h⟩ := bind_eq_ok.mp h
  obtain ⟨m₂,-,h⟩ := bind_eq_ok.mp h
  obtain ⟨⟨a,m₃⟩,-,h⟩ := bind_eq_ok.mp h
  obtain ⟨⟨b,m₄⟩,-,h⟩ := bind_eq_ok.mp h
  obtain ⟨⟨r,e,m₅⟩,-,h⟩ := bind_eq_ok.mp h
  dsimp only at h
  split at h
  · exact .inr (killProc_self h)
  obtain ⟨⟨ok,m₆⟩,-,h⟩ := bind_eq_ok.mp h
  cases ok with
  | false => exact .inr (killProc_self h)
  | true =>
    obtain ⟨entry,-,h⟩ := bind_eq_ok.mp h
    cases h
    left
    simp only [Kernel.modProc,Kernel.setProc,Kernel.setPhys,Function.update_self]

theorem sysExec_pwd {fs : Fs} (h : sysExec fs k c tf = .ok o)
    (hlive : (o.kernel.procs c).state = .ready ∨ (o.kernel.procs c).state = .running) :
    (o.kernel.procs c).pwd = (k.procs c).pwd := by
  unfold sysExec at h
  dsimp only at h
  split at h
  · cases h
    rfl
  obtain ⟨⟨ok,k₁⟩,ha,h⟩ := bind_eq_ok.mp h
  obtain ⟨a,rfl⟩ := saveArgs_eq ha
  cases ok with
  | false =>
    cases h
    rfl
  | true =>
    obtain ⟨⟨r,f,m⟩,-,h⟩ := bind_eq_ok.mp h
    dsimp only at h
    split at h
    · cases h
      rfl
    obtain ⟨⟨frames,m₁⟩,-,h⟩ := bind_eq_ok.mp h
    obtain ⟨m₂,-,h⟩ := bind_eq_ok.mp h
    obtain ⟨mg,-,h⟩ := bind_eq_ok.mp h
    split at h
    · obtain ⟨m₃,-,h⟩ := bind_eq_ok.mp h
      cases h
      rfl
    obtain ⟨k₂,hl,h⟩ := bind_eq_ok.mp h
    obtain ⟨m₃,-,h⟩ := bind_eq_ok.mp h
    obtain ⟨k₃,hs,h⟩ := bind_eq_ok.mp h
    cases h
    obtain ⟨i,hi,rfl⟩ := sched_ok hs
    simp only [Outcome.kernel,Kernel.modProc,Kernel.setProc,Kernel.setPhys] at hi hlive ⊢
    rcases execLoad_pwd hl with hp | hdead
    · by_cases hic : c = i
      · subst hic
        rw [Function.update_self]
        exact hp
      · rw [Function.update_of_ne hic]
        exact hp
    · have hic : c ≠ i := fun hic => by
        subst hic
        rw [hi] at hdead
        rcases hdead with hd | hd <;> cases hd
      rw [Function.update_of_ne hic] at hlive
      rcases hlive with hl | hl <;> rcases hdead with hd | hd <;> rw [hl] at hd <;> cases hd

/-- What happens to a process that resolves paths on a volume. The stack and the static buffer are
different at each call; `other` is anything that leaves its directory alone. -/
inductive PathStep (v : Volume) (fuel : ℕ) (c : Slot) : Kernel → Kernel → Prop
  | chdir {k : Kernel} {tf : Context} {o : Outcome} (junk : DirFile) (name : ℕ → UInt8)
      (blocks : (ℕ → Option UInt8) → FileDesc → List (ℕ × ℕ)) (disk : Fs)
      (h : sysChdir (v.fs fuel junk name blocks disk) k c tf = .ok o) : PathStep v fuel c k o.kernel
  | opens {k : Kernel} {tf : Context} {o : Outcome} (junk : DirFile) (name : ℕ → UInt8)
      (blocks : (ℕ → Option UInt8) → FileDesc → List (ℕ × ℕ)) (disk : Fs) (opendir : Bool)
      (h : sysOpenAs opendir (v.fs fuel junk name blocks disk) k c tf = .ok o) : PathStep v fuel c k o.kernel
  | exec {k : Kernel} {tf : Context} {o : Outcome} (junk : DirFile) (name : ℕ → UInt8)
      (blocks : (ℕ → Option UInt8) → FileDesc → List (ℕ × ℕ)) (disk : Fs)
      (h : sysExec (v.fs fuel junk name blocks disk) k c tf = .ok o)
      (hlive : (o.kernel.procs c).state = .ready ∨ (o.kernel.procs c).state = .running) : PathStep v fuel c k o.kernel
  | other {k k' : Kernel} (h : (k'.procs c).pwd = (k.procs c).pwd) : PathStep v fuel c k k'

theorem sysChdir_dirAt (hf : DirAt v fuel (k.procs c).pwd names)
    (h : sysChdir (v.fs fuel junk name blocks disk) k c tf = .ok o) :
    ∃ ns, DirAt v fuel (o.kernel.procs c).pwd ns := by
  rcases sysChdir_pwd h with hp | ⟨m,ho⟩
  · rw [hp]
    exact ⟨names,hf⟩
  · exact ⟨_,exfatOpen_dirAt hf ho⟩

theorem PathStep.dirAt (h : PathStep v fuel c k k') (hf : ∃ ns, DirAt v fuel (k.procs c).pwd ns) :
    ∃ ns, DirAt v fuel (k'.procs c).pwd ns := by
  cases h with
  | chdir _ _ _ _ h =>
    obtain ⟨ns,hf⟩ := hf
    exact sysChdir_dirAt hf h
  | opens _ _ _ _ opendir h =>
    rw [sysOpenAs_pwd h]
    exact hf
  | exec _ _ _ _ h hlive =>
    rw [sysExec_pwd h hlive]
    exact hf
  | other h =>
    rw [h]
    exact hf

theorem pathSteps_dirAt (h : Relation.ReflTransGen (PathStep v fuel c) k k')
    (hf : ∃ ns, DirAt v fuel (k.procs c).pwd ns) : ∃ ns, DirAt v fuel (k'.procs c).pwd ns := by
  induction h with
  | refl => exact hf
  | tail _ hstep ih => exact hstep.dirAt ih

/-- A path that is opened keeps to `path[256]`: all stores are inside, the path that is left ends there,
and one that is too long is refused. -/
structure KeepsPath (names : List (List UInt8)) (path : ℕ → Option UInt8)
    (x : Except Fault (U64 × FileDesc × Phys)) : Prop where
  inside : Inside x
  stored : ∀ r f m, x = .ok (r,f,m) → f.path.length ≤ 255 ∧ (0 : UInt8) ∉ f.path
  refused : ∀ r f m, x = .ok (r,f,m) → 255 < (pathOf (normal names path)).length → r.toInt < 0

theorem keepsPath_iff (hf : DirAt v fuel pwd names) :
    KeepsPath names path (exfatOpen (v.fs fuel junk name blocks disk) m kp path pwd f opendir) ↔
      v.PathsFit fuel (startNames path names) (components path 256 0 []).1 := by
  refine ⟨fun h => (exfatOpen_inside_iff hf).mp h.inside,fun h => ⟨(exfatOpen_inside_iff hf).mpr h,?_,?_⟩⟩
  · intro r f' m' hx
    obtain ⟨ns,hclean,hpath,hshort,-⟩ := exfatOpen_path hf hx
    rw [hpath]
    exact ⟨by omega,hclean.nul⟩
  · intro r f' m' hx hlong
    obtain ⟨ns,-,-,hshort,hok⟩ := exfatOpen_path hf hx
    refine (exfatOpen_neg hx).resolve_left fun hr => ?_
    rw [(hok hr).1] at hshort
    omega

/-- A process that starts in a directory is in one all along, and a call keeps to the text of a path as
long as every existing directory on the way has one that fits. -/
theorem open_keeps_path_iff {k₀ : Kernel} (h₀ : DirAt v fuel (k₀.procs c).pwd names)
    (hrun : Relation.ReflTransGen (PathStep v fuel c) k₀ k) : ∃ ns, DirAt v fuel (k.procs c).pwd ns ∧
      (∀ junk name blocks disk path f opendir, KeepsPath ns path (exfatOpen (v.fs fuel junk name blocks disk)
        k.phys k.kPgtbl path (k.procs c).pwd f opendir) ↔
          v.PathsFit fuel (startNames path ns) (components path 256 0 []).1) ∧
      ∀ junk name blocks disk tf o, sysChdir (v.fs fuel junk name blocks disk) k c tf = .ok o →
        255 < (pathOf (normal ns (userPath k.phys (k.procs c).pgtbl tf.rdx))).length →
          (o.kernel.procs c).pwd = (k.procs c).pwd := by
  obtain ⟨ns,hf⟩ := pathSteps_dirAt hrun ⟨names,h₀⟩
  refine ⟨ns,hf,fun junk name blocks disk path f opendir => keepsPath_iff hf,
    fun junk name blocks disk tf o ho hlong => ?_⟩
  refine (sysChdir_pwd ho).resolve_right fun ⟨m,hopen⟩ => ?_
  have := (exfatOpen_dirAt hf hopen).short
  omega

/-- A volume with one directory, whose name is 255 times the letter `a`. -/
def longVolume : Volume where
  bytePerSecShift := 9
  secPerClusShift := 1
  rtdirCluster := 4
  fat _ := fatEnd
  clus c o :=
    if c ≠ 4 then 0
    else if o / 32 = 0 then if o % 32 = 0 then 0x85 else if o % 32 = 4 then 0x10 else 0
    else if o / 32 = 1 then if o % 32 = 0 then 0xC0 else if o % 32 = 3 then 255 else if o % 32 = 20 then 5 else 0
    else if o / 32 < 19 then if o % 32 = 0 then 0xC1 else if o % 2 = 0 then 97 else 0
    else 0

/-- Process 0 is in the root of that volume, with the name in its memory. -/
def longKernel : Kernel :=
  { onePageKernel fun _ => .zero with phys := { onePage with data := fun _ o => if o < 255 then 97 else 0 } }.modProc
    (slotAt 0) fun p => { p with pwd := { FileDesc.zero with headCluster := 4, useFat := 1, fileType := .dir } }

def longFs : Fs := longVolume.fs 32 longVolume.root (fun _ => 0) (fun _ _ => []) rootFs

theorem longKernel_dirAt : DirAt longVolume 32 (longKernel.procs (slotAt 0)).pwd [] :=
  ⟨nofun,rfl,by decide,longVolume.root,rfl,rfl,rfl,rfl⟩

/-- The name is accepted by `sys_chdir`, and with its slash it takes 256 bytes. -/
theorem chdir_runs_over_path : DirAt longVolume 32 (longKernel.procs (slotAt 0)).pwd [] ∧
    checkStr longKernel.phys (longKernel.procs (slotAt 0)).pPgtbl 0x1000 256 pteU = .ok true ∧
    sysChdir longFs longKernel (slotAt 0) { Context.zero with rax := 10, rdx := 0x1000 } = .error .overrun :=
  ⟨longKernel_dirAt,eq_ok_of_toOption (by decide +kernel),eq_error_of_faultOf (by decide +kernel)⟩

theorem open_keeps_path_root : ∃ ns, DirAt longVolume 32 (longKernel.procs (slotAt 0)).pwd ns ∧
    ∀ f opendir, KeepsPath ns (fun _ => some 0) (exfatOpen longFs longKernel.phys longKernel.kPgtbl (fun _ => some 0)
      (longKernel.procs (slotAt 0)).pwd f opendir) := by
  obtain ⟨ns,hf,h,-⟩ := open_keeps_path_iff longKernel_dirAt .refl
  refine ⟨ns,hf,fun f opendir => (h _ _ _ _ (fun _ => some 0) f opendir).mpr fun i hi _ => ?_⟩
  have hi : i ≤ 1 := hi
  rw [startNames, if_pos (.inr rfl)]
  obtain rfl | rfl : i = 0 ∨ i = 1 := by omega
  · decide
  · decide

/-- A path is resolved to what its normal form leads to, and a process stays in a directory that its
path leads to. -/
theorem exfat_open_canonical (hf : DirAt v fuel pwd names) (junk : DirFile) (name : ℕ → UInt8)
    (blocks : (ℕ → Option UInt8) → FileDesc → List (ℕ × ℕ)) (disk : Fs) :
    (∀ m kp path f opendir f' m',
      exfatOpen (v.fs fuel junk name blocks disk) m kp path pwd f opendir = .ok (0,f',m') →
        Canonical v fuel names path opendir f' ∧ (opendir = true → DirAt v fuel f' (normal names path)) ∧
        ∃ o, exfatResolve v fuel junk 2 path (some pwd) name = .ok o ∧ o.buf = ⟨f'.path,f'.path.length⟩) ∧
      ∀ k c tf o, (k.procs c).pwd = pwd → sysChdir (v.fs fuel junk name blocks disk) k c tf = .ok o →
        ∃ ns, DirAt v fuel (o.kernel.procs c).pwd ns := by
  constructor
  · intro m kp path f opendir f' m' h
    obtain ⟨ns,-,hpath,-,hok⟩ := exfatOpen_path hf h
    obtain ⟨rfl,hj,hc⟩ := hok rfl
    refine ⟨hc,fun hdir => ?_,?_⟩
    · subst hdir
      exact exfatOpen_dirAt hf h
    · have hres : (v.journey fuel path names).Result v fuel (exfatResolve v fuel junk 2 path (some pwd) name) :=
        exfatResolve_result hf path 0 name
      rw [hj] at hres
      obtain ⟨o,cur,ho,-,hst⟩ := hres
      rw [hpath]
      exact ⟨o,ho,hst.buf⟩
  · intro k c tf o hp h
    exact sysChdir_dirAt (hp ▸ hf) h

/-- From the root, `../.` leads to the root. -/
theorem exfat_open_canonical_dots : ∃ f m, exfatOpen longFs longKernel.phys longKernel.kPgtbl
      (fun i => some ([46,46,47,46].getD i 0)) (longKernel.procs (slotAt 0)).pwd .zero true = .ok (0,f,m) ∧
    Canonical longVolume 32 [] (fun i => some ([46,46,47,46].getD i 0)) true f := by
  refine ⟨_,_,rfl,?_⟩
  exact ((exfat_open_canonical longKernel_dirAt longVolume.root (fun _ => 0) (fun _ _ => []) rootFs).1
    longKernel.phys longKernel.kPgtbl _ .zero true _ _ rfl).1

end Ukern
