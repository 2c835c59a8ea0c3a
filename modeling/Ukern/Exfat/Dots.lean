import Ukern.Exfat.Open

/-! # The nested call for a parent directory

For `..` the code opens the path it has cut, from the root, and that call fills the same static buffer
`name[256]`. The path is longer or shorter than the one that is resolved, as the current directory has
it; what bounds the nesting is that a stored path is made of names that were looked up. Here the nested
call is a parameter: only what it does at such paths counts, and of that not what it leaves in the buffer.
-/
namespace Ukern
open Lib
variable {v : Volume} {fuel : ℕ} {junk : DirFile} {names : List (List UInt8)} {cur : DirFile} {p : PathBuf}
  {reopen reopen' : List UInt8 → (ℕ → UInt8) → Except Fault Opened} {name name' : ℕ → UInt8}
  {N : (ℕ → UInt8) → (ℕ → UInt8) → Prop} {path : ℕ → Option UInt8} {pwd : FileDesc}

/-- `exfat_open` up to the last component, with `reopen` as its nested call. -/
def exfatOpenWith (v : Volume) (fuel : ℕ) (junk : DirFile) (reopen : List UInt8 → (ℕ → UInt8) → Except Fault Opened)
    (path : ℕ → Option UInt8) (pwd : Option FileDesc) (name : ℕ → UInt8) : Except Fault Opened := do
  let (cur,p) ← openStart v (← pathByte path 0) pwd
  openLoop v fuel junk reopen path 256 0 0 name cur p

/-- A text with its end, in the memory of the kernel. -/
def textAt (s : List UInt8) : ℕ → Option UInt8 := fun i => some (s.getD i 0)

/-- The nested call, with `depth` levels to go. -/
def nestedOpen (v : Volume) (fuel : ℕ) (junk : DirFile) (depth : ℕ) (s : List UInt8) (name : ℕ → UInt8) :
    Except Fault Opened :=
  exfatResolve v fuel junk depth (textAt s) none name

theorem exfatResolve_succ (depth : ℕ) (path : ℕ → Option UInt8) (pwd : Option FileDesc) (name : ℕ → UInt8) :
    exfatResolve v fuel junk (depth+1) path pwd name =
      exfatOpenWith v fuel junk (nestedOpen v fuel junk depth) path pwd name := rfl

/-! ## Two nested calls -/

/-- The same outcome, with buffers related by `N`. -/
structure Like (N : (ℕ → UInt8) → (ℕ → UInt8) → Prop) (o o' : Opened) : Prop where
  node : o.node = o'.node
  buf : o.buf = o'.buf
  name : N o.name o'.name

def Alike (N : (ℕ → UInt8) → (ℕ → UInt8) → Prop) : Except Fault Opened → Except Fault Opened → Prop
  | .ok o, .ok o' => Like N o o'
  | .error e, .error e' => e = e'
  | _, _ => False

/-- The same up to what is left in the static buffer. -/
def SameButName : Except Fault Opened → Except Fault Opened → Prop := Alike fun _ _ => True

theorem alike_eq {x y : Except Fault Opened} (h : Alike Eq x y) : x = y := by
  cases x with
  | error e =>
    cases y with
    | error e' => exact congrArg Except.error h
    | ok o' => cases h
  | ok o =>
    cases y with
    | error e' => cases h
    | ok o' =>
      obtain ⟨n,b,s⟩ := o
      obtain ⟨n',b',s'⟩ := o'
      obtain ⟨rfl,rfl,rfl⟩ := h
      rfl

theorem Alike.refl (hN : ∀ s, N s s) (x : Except Fault Opened) : Alike N x x := by
  cases x with
  | error e => exact Eq.refl e
  | ok o => exact ⟨rfl,rfl,hN _⟩

theorem Alike.trans (hN : ∀ s t u, N s t → N t u → N s u) {x y z : Except Fault Opened} (h : Alike N x y)
    (h' : Alike N y z) : Alike N x z := by
  cases x <;> cases y <;> cases z <;> try contradiction
  · exact Eq.trans h h'
  · exact ⟨h.node.trans h'.node,h.buf.trans h'.buf,hN _ _ _ h.name h'.name⟩

theorem Alike.bind {x y : Except Fault Opened} (h : Alike N x y) {f g : Opened → Except Fault Opened}
    (hfg : ∀ o o', x = .ok o → Like N o o' → Alike N (f o) (g o')) : Alike N (x >>= f) (y >>= g) := by
  cases x with
  | error e =>
    cases y with
    | error e' => exact h
    | ok o' => cases h
  | ok o =>
    cases y with
    | error e' => cases h
    | ok o' => exact hfg o o' rfl h

/-- A path as the code stores it. -/
structure StoredPath (names : List (List UInt8)) (p : PathBuf) : Prop where
  clean : Clean names
  buf : p = ⟨pathOf names,(pathOf names).length⟩
  short : (pathOf names).length < 256

/-- The two do the same at the paths that are stored. -/
def Agree (N : (ℕ → UInt8) → (ℕ → UInt8) → Prop) (reopen reopen' : List UInt8 → (ℕ → UInt8) → Except Fault Opened) :
    Prop :=
  ∀ names name name', Clean names → (pathOf names).length < 256 → N name name' →
    Alike N (reopen (pathOf names) name) (reopen' (pathOf names) name')

theorem enterName_stored (h : StoredPath names p) {ind : ℕ} {o : Opened} (hslash : ∀ j < ind, name j ≠ 47)
    (hnul : ∀ j < ind, name j ≠ 0) (ho : enterName v fuel junk reopen ind name cur p = .ok o) :
    ∃ names', StoredPath names' o.buf := by
  unfold enterName at ho
  split at ho
  · cases ho
    exact ⟨names,h⟩
  rename_i hind
  dsimp only at ho
  split at ho
  · cases ho
    exact ⟨names,h⟩
  rename_i hdot
  split at ho
  · rw [h.buf, pathPop_eq h.clean, ok_bind] at ho
    obtain ⟨o',-,ho⟩ := bind_eq_ok.mp ho
    cases ho
    exact ⟨_,h.clean.dropLast,rfl,pathOf_dropLast_le.trans_lt h.short⟩
  rename_i hdots
  split at ho
  · cases ho
    exact ⟨names,h⟩
  obtain ⟨r,-,ho⟩ := bind_eq_ok.mp ho
  cases r with
  | none =>
    cases ho
    exact ⟨names,h⟩
  | some d =>
    -- the name that was looked up is appended
    obtain ⟨p',hp,ho⟩ := bind_eq_ok.mp ho
    cases ho
    generalize hc : (List.range ind).map (Function.update name ind 0) = c at hdot hdots hp
    have hmem : ∀ b ∈ c, ∃ j < ind, name j = b := by
      intro b hb
      rw [← hc] at hb
      obtain ⟨j,hj,rfl⟩ := List.mem_map.mp hb
      have hj := List.mem_range.mp hj
      exact ⟨j,hj,(Function.update_of_ne hj.ne ..).symm⟩
    have hplain : Plain c := by
      refine ⟨?_,hdot,hdots,?_,?_⟩
      · intro hnil
        rw [hnil] at hc
        have hlen := congrArg List.length hc
        rw [List.length_map, List.length_range] at hlen
        exact hind hlen
      · intro hb
        obtain ⟨j,hj,hb⟩ := hmem _ hb
        exact hslash j hj hb
      · intro hb
        obtain ⟨j,hj,hb⟩ := hmem _ hb
        exact hnul j hj hb
    rw [pathPush, h.buf] at hp
    dsimp only at hp
    have hsum : (pathOf names).length + 1 + c.length = (pathOf (names ++ [c])).length := by
      rw [pathOf_concat, List.length_append, List.length_cons]
      omega
    split at hp
    · rename_i hfit
      cases hp
      refine ⟨names ++ [c],h.clean.concat hplain,?_,hsum ▸ hfit⟩
      dsimp only
      rw [← pathOf_concat, ← hsum, Nat.add_assoc]
    · cases hp

/-- A component asks the nested call for a stored path, and reads of `name` what stands in front of `ind`. -/
theorem enterName_alike (h : StoredPath names p) (hN : ∀ s t i b, N s t → N (Function.update s i b) (Function.update t i b))
    {ind : ℕ} (hname : ∀ j < ind, name j = name' j) (hbuf : N name name')
    (hre : (List.range ind).map name = [46,46] → Agree N reopen reopen') :
    Alike N (enterName v fuel junk reopen ind name cur p) (enterName v fuel junk reopen' ind name' cur p) := by
  unfold enterName
  split
  · exact ⟨rfl,rfl,hbuf⟩
  have hcut : ∀ s : ℕ → UInt8, (List.range ind).map (Function.update s ind 0) = (List.range ind).map s := fun s =>
    List.map_congr_left fun j hj => Function.update_of_ne (List.mem_range.mp hj).ne ..
  have hcomp : (List.range ind).map name' = (List.range ind).map name :=
    List.map_congr_left fun j hj => (hname j (List.mem_range.mp hj)).symm
  have hbuf' := hN _ _ ind 0 hbuf
  dsimp only
  rw [hcut, hcut, hcomp]
  split
  · exact ⟨rfl,rfl,hbuf'⟩
  split
  · rename_i hdots
    rw [h.buf, pathPop_eq h.clean, ok_bind, ok_bind]
    have hshort : (pathOf names.dropLast).length < 256 := pathOf_dropLast_le.trans_lt h.short
    refine (hre hdots _ _ _ h.clean.dropLast hshort hbuf').bind fun o o' _ ho => ?_
    exact ⟨by rw [ho.node],rfl,ho.name⟩
  split
  · exact ⟨rfl,rfl,hbuf'⟩
  cases exfatWalkDir v fuel ((List.range ind).map name) cur with
  | error e => exact Eq.refl e
  | ok r =>
    rw [ok_bind, ok_bind]
    cases r with
    | none => exact ⟨rfl,rfl,hbuf'⟩
    | some d =>
      dsimp only
      cases pathPush p ((List.range ind).map name) with
      | error e => exact Eq.refl e
      | ok p' => exact ⟨rfl,rfl,hbuf'⟩

theorem openLoop_alike (hN : ∀ s t i b, N s t → N (Function.update s i b) (Function.update t i b))
    {n i ind : ℕ} {acc : List UInt8} (h : StoredPath names p) (hacc : (List.range ind).map name = acc)
    (hname : ∀ j < ind, name j = name' j) (hslash : (47 : UInt8) ∉ acc) (hnul : (0 : UInt8) ∉ acc) (hbuf : N name name')
    (hre : [46,46] ∈ (components path n i acc).1 → Agree N reopen reopen') :
    Alike N (openLoop v fuel junk reopen path n i ind name cur p)
      (openLoop v fuel junk reopen' path n i ind name' cur p) := by
  induction n generalizing i ind acc name name' names cur p with
  | zero => exact ⟨rfl,rfl,hbuf⟩
  | succ n ih =>
    rw [openLoop, openLoop, pathByte]
    rw [components] at hre
    cases hb : path i with
    | none => exact Eq.refl Fault.nullDeref
    | some b =>
      rw [hb] at hre
      dsimp only at hre ⊢
      rw [ok_bind, ok_bind]
      by_cases hplain : b ≠ 47 ∧ b ≠ 0
      · rw [if_neg hplain.2, if_neg hplain.1] at hre
        rw [if_pos hplain, if_pos hplain]
        refine ih h ?_ ?_ ?_ ?_ (hN _ _ _ _ hbuf) hre
        · rw [List.range_succ, List.map_append, List.map_singleton, Function.update_self, ← hacc]
          congr 1
          exact List.map_congr_left fun j hj => Function.update_of_ne (List.mem_range.mp hj).ne ..
        · intro j hj
          by_cases hji : j = ind
          · rw [hji, Function.update_self, Function.update_self]
          · rw [Function.update_of_ne hji, Function.update_of_ne hji]
            exact hname j (by omega)
        · rw [List.mem_append, List.mem_singleton]
          exact fun hm => hm.elim hslash fun hm => hplain.1 hm.symm
        · rw [List.mem_append, List.mem_singleton]
          exact fun hm => hm.elim hnul fun hm => hplain.2 hm.symm
      rw [if_neg hplain, if_neg hplain]
      have hhead : (List.range ind).map name = [46,46] → Agree N reopen reopen' := fun hdots => by
        refine hre ?_
        rw [← hacc, hdots]
        split
        · exact List.mem_singleton.mpr rfl
        split
        · exact List.mem_cons_self
        · rename_i h0 h47
          exact absurd ⟨h47,h0⟩ hplain
      refine (enterName_alike h hN hname hbuf hhead).bind fun o o' ho hlike => ?_
      rw [← hlike.node]
      cases hnode : o.node with
      | error e => exact hlike
      | ok d =>
        dsimp only
        by_cases h0 : b = 0
        · rw [if_neg (not_not.mpr h0), if_neg (not_not.mpr h0)]
          exact hlike
        have h47 : b = 47 := by
          by_contra h47
          exact hplain ⟨h47,h0⟩
        rw [if_neg h0, if_pos h47] at hre
        rw [if_pos h0, if_pos h0, ← hlike.buf]
        -- the next component starts at `name[0]`: nothing of the buffer has to agree
        have hof : ∀ j < ind, name j ∈ acc := fun j hj => by
          rw [← hacc]
          exact List.mem_map.mpr ⟨j,List.mem_range.mpr hj,rfl⟩
        obtain ⟨names',hst⟩ := enterName_stored h (fun j hj hb => hslash (hb ▸ hof j hj))
          (fun j hj hb => hnul (hb ▸ hof j hj)) ho
        exact ih hst rfl (fun _ h => absurd h (Nat.not_lt_zero _)) List.not_mem_nil List.not_mem_nil hlike.name fun hd => hre (List.mem_cons_of_mem _ hd)

theorem openStart_stored {b : UInt8} {cur : DirFile} {p : PathBuf} {pwd : Option FileDesc}
    (hpwd : ∀ f, pwd = some f → ∃ names, Clean names ∧ f.path = pathOf names)
    (h : openStart v b pwd = .ok (cur,p)) : ∃ names, StoredPath names p := by
  unfold openStart at h
  split at h
  · cases h
    exact ⟨[],nofun,rfl,by decide⟩
  cases pwd with
  | none => cases h
  | some f =>
    dsimp only at h
    split at h
    · rename_i hshort
      cases h
      obtain ⟨names,hclean,hpath⟩ := hpwd f rfl
      rw [hpath] at hshort ⊢
      exact ⟨names,hclean,rfl,hshort⟩
    · cases h

theorem exfatOpenWith_alike (hN : ∀ s t i b, N s t → N (Function.update s i b) (Function.update t i b))
    {pwd : Option FileDesc} (hpwd : ∀ f, pwd = some f → ∃ names, Clean names ∧ f.path = pathOf names)
    (hbuf : N name name') (hre : [46,46] ∈ (components path 256 0 []).1 → Agree N reopen reopen') :
    Alike N (exfatOpenWith v fuel junk reopen path pwd name) (exfatOpenWith v fuel junk reopen' path pwd name') := by
  unfold exfatOpenWith
  cases pathByte path 0 with
  | error e => exact Eq.refl e
  | ok b =>
    rw [ok_bind, ok_bind]
    cases hs : openStart v b pwd with
    | error e => exact Eq.refl e
    | ok s =>
      obtain ⟨cur,p⟩ := s
      obtain ⟨names,hst⟩ := openStart_stored hpwd hs
      rw [ok_bind, ok_bind]
      exact openLoop_alike hN hst rfl nofun nofun nofun hbuf hre

/-! ## A stored path is opened without a nested call -/

theorem components_stored (hclean : Clean names) (hshort : (pathOf names).length < 256) :
    [46,46] ∉ (components (textAt (pathOf names)) 256 0 []).1 := by
  rw [components_string hshort (fun j _ => by rw [Nat.zero_add]; rfl) hclean.nul, splitPath_pathOf hclean]
  intro hm
  rcases List.mem_cons.mp hm with hm | hm
  · cases hm
  · exact (hclean _ hm).ne_dots rfl

theorem exfatOpenWith_stored (hN : ∀ s t i b, N s t → N (Function.update s i b) (Function.update t i b))
    (hclean : Clean names) (hshort : (pathOf names).length < 256) (hbuf : N name name') :
    Alike N (exfatOpenWith v fuel junk reopen (textAt (pathOf names)) none name)
      (exfatOpenWith v fuel junk reopen' (textAt (pathOf names)) none name') :=
  exfatOpenWith_alike hN nofun hbuf fun hd => absurd hd (components_stored hclean hshort)

theorem nestedOpen_agree (hN : ∀ s t i b, N s t → N (Function.update s i b) (Function.update t i b)) (d d' : ℕ) :
    Agree N (nestedOpen v fuel junk (d+1)) (nestedOpen v fuel junk (d'+1)) :=
  fun _ _ _ hclean hshort hbuf => exfatOpenWith_stored hN hclean hshort hbuf

/-! ## The call returns -/

/-- With directories that end and a text that can be read, only a path that does not fit stops a walk. -/
theorem journey_fault (hwalk : ∀ c d, ∃ r, exfatWalkDir v fuel c d = .ok r) (hread : ∀ i, path i ≠ none) {e : Fault}
    (h : v.journey fuel path names = .fault e) : e = .overrun := by
  unfold Volume.journey at h
  cases ht : v.travel fuel (startNames path names) (components path 256 0 []).1 with
  | arrived ns =>
    rw [ht] at h
    cases he : (components path 256 0 []).2 with
    | nul =>
      rw [he] at h
      cases h
    | long =>
      rw [he] at h
      cases h
    | unmapped => exact absurd he (components_total hread)
  | refused e' ns =>
    rw [ht] at h
    cases h
  | fault e' =>
    rw [ht] at h
    cases h
    refine (travel_fault ht).resolve_left fun ⟨c,d,he⟩ => ?_
    obtain ⟨r,hr⟩ := hwalk c d
    rw [hr] at he
    cases he

/-- The call returns exactly when the walk does not run over `path[256]`. -/
theorem exfatResolve_returns_iff (hf : DirAt v fuel pwd names) (hwalk : ∀ c d, ∃ r, exfatWalkDir v fuel c d = .ok r)
    (hread : ∀ i, path i ≠ none) : (∃ o, exfatResolve v fuel junk 2 path (some pwd) name = .ok o) ↔
      v.PathsFit fuel (startNames path names) (components path 256 0 []).1 := by
  obtain ⟨hlen,d,hd⟩ := descend_startNames hf path
  have hover : ¬ v.PathsFit fuel (startNames path names) (components path 256 0 []).1 ↔
      v.journey fuel path names = .fault .overrun :=
    (travel_overrun_iff hd hlen).symm.trans journey_overrun_iff.symm
  have h : (v.journey fuel path names).Result v fuel (exfatResolve v fuel junk 2 path (some pwd) name) :=
    exfatResolve_result hf path 0 name
  rw [← not_iff_not, hover]
  cases hj : v.journey fuel path names with
  | arrived ns =>
    rw [hj] at h
    obtain ⟨o,cur,ho,-⟩ := h
    exact iff_of_false (not_not.mpr ⟨o,ho⟩) nofun
  | refused e ns =>
    rw [hj] at h
    obtain ⟨o,ho,-⟩ := h
    exact iff_of_false (not_not.mpr ⟨o,ho⟩) nofun
  | fault e =>
    rw [hj] at h
    refine iff_of_true ?_ (by rw [journey_fault hwalk hread hj])
    rintro ⟨o,ho⟩
    have he : exfatResolve v fuel junk 2 path (some pwd) name = .error e := h
    rw [he] at ho
    cases ho

/-- Descriptors that a call of `exfat_open` for a directory has filled in, from the root or from the
directory of another one. -/
inductive Produced (v : Volume) (fuel : ℕ) : FileDesc → Prop
  | absolute {junk : DirFile} {name : ℕ → UInt8} {blocks : (ℕ → Option UInt8) → FileDesc → List (ℕ × ℕ)} {disk : Fs}
      {m m' : Phys} {kp : ℕ} {path : ℕ → Option UInt8} {pwd f f' : FileDesc} (h0 : path 0 = some 47 ∨ path 0 = some 0)
      (h : exfatOpen (v.fs fuel junk name blocks disk) m kp path pwd f true = .ok (0,f',m')) : Produced v fuel f'
  | relative {junk : DirFile} {name : ℕ → UInt8} {blocks : (ℕ → Option UInt8) → FileDesc → List (ℕ × ℕ)} {disk : Fs}
      {m m' : Phys} {kp : ℕ} {path : ℕ → Option UInt8} {pwd f f' : FileDesc} (hp : Produced v fuel pwd)
      (h : exfatOpen (v.fs fuel junk name blocks disk) m kp path pwd f true = .ok (0,f',m')) : Produced v fuel f'

/-- The descriptor of the root. -/
def rootDesc (v : Volume) : FileDesc :=
  { FileDesc.zero with headCluster := v.rtdirCluster, useFat := 1, fileType := .dir }

theorem rootDesc_dirAt : DirAt v fuel (rootDesc v) [] := ⟨nofun,rfl,by decide,v.root,rfl,rfl,rfl,rfl⟩

theorem exfatResolve_absolute (h0 : path 0 = some 47 ∨ path 0 = some 0) (depth : ℕ) (f g : Option FileDesc) :
    exfatResolve v fuel junk (depth+1) path f name = exfatResolve v fuel junk (depth+1) path g name := by
  rw [exfatResolve_succ, exfatResolve_succ, exfatOpenWith, exfatOpenWith, pathByte]
  rcases h0 with h0 | h0
  · rw [h0]
    rfl
  · rw [h0]
    rfl

theorem Produced.dirAt (h : Produced v fuel pwd) : ∃ names, DirAt v fuel pwd names := by
  induction h with
  | @absolute junk name blocks disk m m' kp path pwd f f' h0 h =>
    have hroot : exfatOpen (v.fs fuel junk name (fun p _ => blocks p pwd) disk) m kp path (rootDesc v) f true =
        .ok (0,f',m') := by
      rw [← h]
      unfold exfatOpen Volume.fs
      dsimp only
      rw [exfatResolve_absolute h0 1 (some (rootDesc v)) (some pwd)]
    exact ⟨_,exfatOpen_dirAt rootDesc_dirAt hroot⟩
  | relative _ h ih =>
    obtain ⟨names,hf⟩ := ih
    exact ⟨_,exfatOpen_dirAt hf h⟩

/-- How a path is resolved, with `..` in it or not. -/
structure DotsOnce (v : Volume) (fuel : ℕ) (junk : DirFile) (path : ℕ → Option UInt8) (pwd : FileDesc)
    (name : ℕ → UInt8) : Prop where
  /-- The call returns. -/
  returns : ∀ blocks disk m kp f opendir, (∃ m', diskRead kp m (blocks path pwd) = .ok m') →
    ∃ r, exfatOpen (v.fs fuel junk name blocks disk) m kp path pwd f opendir = .ok r
  /-- More levels than one below the call are not used. -/
  depth : ∀ d, exfatResolve v fuel junk (d+2) path (some pwd) name = exfatResolve v fuel junk 2 path (some pwd) name
  /-- The nested call is made for paths without `.` and `..` only. -/
  clean : ∀ reopen, (∀ names name, Clean names → (pathOf names).length < 256 →
      reopen (pathOf names) name = nestedOpen v fuel junk 1 (pathOf names) name) →
    exfatOpenWith v fuel junk reopen path (some pwd) name = exfatResolve v fuel junk 2 path (some pwd) name
  /-- The call for such a path makes none of its own. -/
  leaf : ∀ reopen names name, Clean names → (pathOf names).length < 256 →
    exfatOpenWith v fuel junk reopen (textAt (pathOf names)) none name = nestedOpen v fuel junk 1 (pathOf names) name
  /-- What the nested call leaves in the static buffer is not used, nor what was in it before. -/
  scratch : ∀ reopen name', (∀ names name, Clean names → (pathOf names).length < 256 →
      SameButName (reopen (pathOf names) name) (nestedOpen v fuel junk 1 (pathOf names) name)) →
    SameButName (exfatOpenWith v fuel junk reopen path (some pwd) name')
      (exfatResolve v fuel junk 2 path (some pwd) name)

theorem exfatResolve_stored (hf : DirAt v fuel pwd names) {o : Opened}
    (ho : exfatResolve v fuel junk 2 path (some pwd) name = .ok o) : ∃ ns, StoredPath ns o.buf := by
  have h : (v.journey fuel path names).Result v fuel (exfatResolve v fuel junk 2 path (some pwd) name) :=
    exfatResolve_result hf path 0 name
  rw [ho] at h
  cases hj : v.journey fuel path names with
  | arrived ns =>
    rw [hj] at h
    obtain ⟨o',cur,ho',-,hst⟩ := h
    cases ho'
    exact ⟨ns,hst.clean,hst.buf,hst.short⟩
  | refused e ns =>
    rw [hj] at h
    obtain ⟨o',ho',-,hbuf,hshort,hclean⟩ := h
    cases ho'
    exact ⟨ns,hclean,hbuf,hshort⟩
  | fault e =>
    rw [hj] at h
    cases h

theorem exfatOpen_returns_iff (hf : DirAt v fuel pwd names) : (∀ blocks disk m kp f opendir,
      (∃ m', diskRead kp m (blocks path pwd) = .ok m') →
        ∃ r, exfatOpen (v.fs fuel junk name blocks disk) m kp path pwd f opendir = .ok r) ↔
      ∃ o, exfatResolve v fuel junk 2 path (some pwd) name = .ok o := by
  constructor
  · intro h
    obtain ⟨r,hr⟩ := h (fun _ _ => []) rootFs onePage 0 .zero true ⟨onePage,rfl⟩
    obtain ⟨x,hx,-⟩ := bind_eq_ok.mp hr
    obtain ⟨o,ho,-⟩ := bind_eq_ok.mp hx
    exact ⟨o,ho⟩
  · intro ⟨o,ho⟩ blocks disk m kp f opendir ⟨m',hm⟩
    obtain ⟨ns,hst⟩ := exfatResolve_stored hf ho
    unfold exfatOpen Volume.fs
    dsimp only
    rw [ho, ok_bind, ok_bind, hm, ok_bind]
    dsimp only
    rw [hst.buf, if_neg (by dsimp only; exact Nat.not_le.mpr hst.short)]
    cases o.node with
    | error e => exact ⟨_,rfl⟩
    | ok d =>
      dsimp only
      split
      · exact ⟨_,rfl⟩
      split
      · exact ⟨_,rfl⟩
      · exact ⟨_,rfl⟩

/-- `..` is resolved by one nested call that makes none, and with directories that end the call
returns, exactly if the existing directories on the way have paths that fit. -/
theorem dots_resolved_once_iff (hp : Produced v fuel pwd) (hwalk : ∀ c d, ∃ r, exfatWalkDir v fuel c d = .ok r) :
    ∃ names, DirAt v fuel pwd names ∧ ∀ (junk : DirFile) (s name : ℕ → UInt8),
      DotsOnce v fuel junk (fun i => some (s i)) pwd name ↔
        v.PathsFit fuel (startNames (fun i => some (s i)) names) (components (fun i => some (s i)) 256 0 []).1 := by
  obtain ⟨names,hf⟩ := hp.dirAt
  have hpwd : ∀ f, some pwd = some f → ∃ names, Clean names ∧ f.path = pathOf names := by
    intro f h
    cases h
    exact ⟨names,hf.clean,hf.path⟩
  have hupd : ∀ (s t : ℕ → UInt8) i b, s = t → Function.update s i b = Function.update t i b := fun s t i b h => by
    rw [h]
  refine ⟨names,hf,fun junk s name => ?_⟩
  rw [← exfatResolve_returns_iff hf hwalk (fun i => Option.some_ne_none (s i)), ← exfatOpen_returns_iff hf]
  refine ⟨fun h => h.returns,fun h => ⟨h,?_,?_,?_,?_⟩⟩
  · intro d
    exact alike_eq (exfatOpenWith_alike hupd hpwd rfl fun _ => nestedOpen_agree hupd d 0)
  · intro reopen hre
    refine alike_eq (exfatOpenWith_alike hupd hpwd rfl fun _ ns t t' hclean hshort ht => ?_)
    rw [ht, hre ns t' hclean hshort]
    exact .refl (fun _ => rfl) _
  · intro reopen ns t hclean hshort
    exact alike_eq (exfatOpenWith_stored hupd hclean hshort rfl)
  · intro reopen name' hre
    refine exfatOpenWith_alike (fun _ _ _ _ _ => trivial) hpwd trivial fun _ ns t t' hclean hshort _ => ?_
    refine (hre ns t hclean hshort).trans (fun _ _ _ _ _ => trivial) ?_
    exact nestedOpen_agree (fun _ _ _ _ _ => trivial) 0 0 ns t t' hclean hshort trivial

theorem exfatWalkDir_returns {k : ℕ} (hk : k < v.entryPerclus) (hlast : ∀ c, v.entry c k = .last) (hfuel : k < fuel)
    (c : List UInt8) (d : DirFile) : ∃ r, exfatWalkDir v fuel c d = .ok r := by
  have hscan : ∀ n i (cur : DirCursor) (s : WalkState), i ≤ k → k < i + n →
      ∃ r, v.scanDir d.useFat (walkEntry c) (fun _ => none) n i cur s = .ok r := by
    intro n
    induction n with
    | zero => exact fun i cur s hi hn => absurd hn (by omega)
    | succ n ih =>
      intro i cur s hi hn
      rw [Volume.scanDir]
      split
      · exact ⟨_,rfl⟩
      split
      · exact ⟨_,rfl⟩
      · rename_i cur' _ s' hs
        have hne : i ≠ k := by
          intro he
          rw [he, Nat.mod_eq_of_lt hk, hlast] at hs
          cases hs
        exact ih (i+1) _ _ (by omega) (by omega)
  exact hscan fuel 0 _ _ (Nat.zero_le _) (by omega)

/-- A volume with a directory in a directory; the name of both is 150 times the letter `a`. -/
def deepVolume : Volume where
  bytePerSecShift := 9
  secPerClusShift := 1
  rtdirCluster := 4
  fat _ := fatEnd
  clus c o :=
    if c ≠ 4 ∧ c ≠ 5 then 0
    else if o / 32 = 0 then if o % 32 = 0 then 0x85 else if o % 32 = 4 then 0x10 else 0
    else if o / 32 = 1 then
      if o % 32 = 0 then 0xC0 else if o % 32 = 3 then 150 else if o % 32 = 20 then UInt8.ofNat (c+1) else 0
    else if o / 32 < 12 then if o % 32 = 0 then 0xC1 else if o % 2 = 0 then 97 else 0
    else 0

theorem deepVolume_walks (c : List UInt8) (d : DirFile) : ∃ r, exfatWalkDir deepVolume 32 c d = .ok r := by
  refine exfatWalkDir_returns (k := 12) (by decide) (fun c => ?_) (by decide) c d
  have hfree : deepVolume.clus c (32 * 12 + 0) = 0 := by
    change (if c ≠ 4 ∧ c ≠ 5 then (0 : UInt8) else 0) = 0
    rw [ite_self]
  rw [Volume.entry, DirEntry.parse, hfree]
  rfl

def deepName : List UInt8 := List.replicate 150 97

theorem deepVolume_opened : ∃ f, Produced deepVolume 32 f ∧ f.path = 47 :: deepName ∧ f.headCluster = 5 ∧
    f.useFat = 1 := by
  have hopen : (exfatOpen (deepVolume.fs 32 deepVolume.root (fun _ => 0) (fun _ _ => []) rootFs) onePage 0
      (textAt (47 :: deepName)) .zero .zero true).toOption.map (fun x => (x.1,x.2.1.path,x.2.1.headCluster,x.2.1.useFat)) =
        some (0,47 :: deepName,5,1) := by
    decide +kernel
  obtain ⟨⟨r,f,m⟩,hx,hf⟩ := Option.map_eq_some_iff.mp hopen
  simp only [Prod.mk.injEq] at hf
  obtain ⟨rfl,hpath,hclus,hfat⟩ := hf
  exact ⟨f,.absolute (.inl rfl) (eq_ok_of_toOption hx),hpath,hclus,hfat⟩

/-- From there the name of the inner directory leads to a path of 302 bytes. -/
theorem deep_path_runs_over : ∃ f, Produced deepVolume 32 f ∧ (∀ c d, ∃ r, exfatWalkDir deepVolume 32 c d = .ok r) ∧
    exfatResolve deepVolume 32 deepVolume.root 2 (textAt deepName) (some f) (fun _ => 0) = .error .overrun ∧
    ¬ DotsOnce deepVolume 32 deepVolume.root (textAt deepName) f (fun _ => 0) := by
  obtain ⟨f,hp,hpath,hclus,hfat⟩ := deepVolume_opened
  have hover : exfatResolve deepVolume 32 deepVolume.root 2 (textAt deepName) (some f) (fun _ => 0) =
      .error .overrun := by
    have hstart : openStart deepVolume 97 (some f) =
        .ok (⟨5,1,true,0⟩,⟨47 :: deepName,(47 :: deepName).length⟩) := by
      rw [openStart, if_neg (by decide), hpath, hclus, hfat, if_pos (by decide +kernel)]
    have hbyte : pathByte (textAt deepName) 0 = .ok 97 := rfl
    rw [exfatResolve_succ, exfatOpenWith, hbyte, ok_bind, hstart, ok_bind]
    exact eq_error_of_faultOf (by decide +kernel)
  refine ⟨f,hp,deepVolume_walks,hover,fun h => ?_⟩
  obtain ⟨r,hr⟩ := h.returns (fun _ _ => []) rootFs onePage 0 .zero true ⟨onePage,rfl⟩
  obtain ⟨x,hx,-⟩ := bind_eq_ok.mp hr
  obtain ⟨o,ho,-⟩ := bind_eq_ok.mp hx
  rw [hover] at ho
  cases ho

/-- From the outer directory, `..` leads back to the root. -/
theorem dots_resolved_once_deep : ∃ f, Produced deepVolume 32 f ∧
    DotsOnce deepVolume 32 deepVolume.root (textAt [46,46]) f (fun _ => 0) := by
  obtain ⟨f,hp,-⟩ := deepVolume_opened
  obtain ⟨names,hf,h⟩ := dots_resolved_once_iff hp deepVolume_walks
  refine ⟨f,hp,(h deepVolume.root _ _).mpr ?_⟩
  have hcomp : components (textAt [46,46]) 256 0 [] = ([[46,46]],.nul) := by decide
  change deepVolume.PathsFit 32 (startNames (textAt [46,46]) names) (components (textAt [46,46]) 256 0 []).1
  rw [hcomp, startNames, if_neg (by decide)]
  intro i hi _
  obtain rfl | rfl : i = 0 ∨ i = 1 := Nat.le_one_iff_eq_zero_or_eq_one.mp hi
  · exact hf.short
  · exact pathOf_dropLast_le.trans_lt hf.short

end Ukern
