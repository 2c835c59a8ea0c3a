import Ukern.Exfat.Bounds

/-! # Looking up a name

Names on the disk are UTF-16. `cmp_fn` compares a byte of the name that is looked up with the low byte
of a unit, so a lookup takes the first entry set that agrees in the low bytes.
-/
namespace Ukern
open Lib
variable {v : Volume} {d : Directory} {i n k p fnLen useFat head : ℕ} {u : ℕ → ℕ} {name : List UInt8}
  {units : List ℕ} {es : List DirEntry}

/-- What an entry set says about a file. -/
structure WideSet where
  attr : ℕ
  secondaryFlags : ℕ
  validDataLen : ℕ
  firstClus : ℕ
  units : List ℕ

variable {ws : List WideSet}

/-- The low bytes of its name. -/
def WideSet.narrow (f : WideSet) : FileSet :=
  ⟨f.attr,f.secondaryFlags,f.validDataLen,f.firstClus,f.units.map UInt8.ofNat⟩

def WideSet.node (f : WideSet) : DirFile := f.narrow.node

/-- The file-name entries of a name from unit `p` on. -/
inductive WideNamed (units : List ℕ) : ℕ → List DirEntry → Prop
  | done : WideNamed units units.length []
  | more {p : ℕ} {u : ℕ → ℕ} {es : List DirEntry} (hp : p < units.length)
      (hu : ∀ j, p ≤ j → j < min (p + 15) units.length → u (j - p) = units.getD j 0)
      (hs : WideNamed units (min (p + 15) units.length) es) : WideNamed units p (.name u :: es)

/-- The entry sets of a directory, with deleted and unknown entries between them. -/
inductive WideListed : List WideSet → List DirEntry → Prop
  | nil : WideListed [] []
  | other {ws : List WideSet} {es : List DirEntry} (hs : WideListed ws es) : WideListed ws (.other :: es)
  | set {f : WideSet} {ws : List WideSet} {ns es : List DirEntry} (hname : f.units ≠ []) (hn : WideNamed f.units 0 ns)
      (hs : WideListed ws es) : WideListed (f :: ws)
        (.file f.attr :: .stream f.secondaryFlags f.units.length f.validDataLen f.firstClus :: (ns ++ es))

/-! ## Low bytes -/

/-- The entry with the low bytes of its units only. -/
def DirEntry.narrow : DirEntry → DirEntry
  | .name u => .name fun k => u k % 256
  | e => e

theorem cmpFn_mod (c : UInt8) (x : ℕ) : cmpFn c (x % 256) = cmpFn c x := by
  have hx : UInt8.ofNat (x % 256) = UInt8.ofNat x := UInt8.toNat_inj.mp (by simp)
  rw [cmpFn, cmpFn, hx]

theorem cmpUnits_mod {dis : Bool} :
    cmpUnits name fnLen (fun k => u k % 256) n k p dis = cmpUnits name fnLen u n k p dis := by
  induction n generalizing k p dis with
  | zero => rfl
  | succ n ih => rw [cmpUnits, cmpUnits, cmpFn_mod, ih]

theorem walkEntry_narrow (i : ℕ) (s : WalkState) (e : DirEntry) :
    walkEntry name i s e.narrow = walkEntry name i s e := by
  cases e with
  | name u => rw [DirEntry.narrow, walkEntry, walkEntry, cmpUnits_mod]
  | _ => rfl

theorem WideNamed.narrow (h : WideNamed units p es) : Named (units.map UInt8.ofNat) p (es.map DirEntry.narrow) := by
  have hlen : (units.map UInt8.ofNat).length = units.length := List.length_map _
  induction h with
  | done =>
    rw [← hlen]
    exact .done
  | @more p u es hp hu _ ih =>
    refine .more (hlen ▸ hp) (fun j h1 h2 => ?_) (by rwa [hlen])
    rw [hlen] at h2
    have hj : j < units.length := by omega
    rw [hu j h1 h2, List.getD_eq_getElem _ _ hj, List.getD_eq_getElem _ _ (hlen ▸ hj), List.getElem_map]
    simp

theorem WideListed.narrow (h : WideListed ws es) : Listed (ws.map WideSet.narrow) (es.map DirEntry.narrow) := by
  induction h with
  | nil => exact .nil
  | other _ ih => exact .other ih
  | @set f ws ns es hname hn _ ih =>
    have hset := Listed.set (f := f.narrow) (by simpa [WideSet.narrow] using hname) hn.narrow ih
    rw [List.map_cons, List.map_cons, List.map_cons, List.map_append]
    simpa [WideSet.narrow,DirEntry.narrow] using hset

/-- The two agree in the low bytes, up to letter case. -/
def LowMatch (name : List UInt8) (f : WideSet) : Prop := SameName name f.narrow.name

instance : DecidablePred (LowMatch name) := fun _ => inferInstanceAs (Decidable (SameName _ _))

/-- A walk finds the first entry set that agrees in the low bytes. -/
theorem WideListed.consume_walk (name : List UInt8) (hl : WideListed ws es) {s : WalkState} :
    match ws.find? fun f => LowMatch name f with
    | some f => consume (walkEntry name) i s es = .inr (some f.node)
    | none => ∃ t, consume (walkEntry name) i s es = .inl t := by
  have hc := Ukern.consume_walk name (i := i) (s := s) hl.narrow
  rw [consume_map walkEntry_narrow, List.find?_map] at hc
  have hpred : ((fun f : FileSet => decide (SameName name f.name)) ∘ WideSet.narrow) = fun f => decide (LowMatch name f) :=
    rfl
  rw [hpred] at hc
  cases hf : ws.find? (fun f => LowMatch name f) with
  | some f =>
    rw [hf] at hc
    exact hc
  | none =>
    rw [hf] at hc
    exact hc

/-! ## The exact match -/

def upperUnit (c : ℕ) : ℕ := if 97 ≤ c ∧ c ≤ 122 then c - 32 else c

/-- The same code units, up to the case of ASCII letters. -/
def SameUnits (name : List UInt8) (units : List ℕ) : Prop :=
  name.map (fun b => upperUnit b.toNat) = units.map upperUnit

instance : Decidable (SameUnits name units) := inferInstanceAs (Decidable (_ = _))

theorem toUpperCase_toNat (b : UInt8) : (toUpperCase b).toNat = upperUnit b.toNat := by
  rw [toUpperCase, upperUnit]
  have hle : (97 ≤ b ∧ b ≤ 122) ↔ 97 ≤ b.toNat ∧ b.toNat ≤ 122 := Iff.rfl
  by_cases h : 97 ≤ b ∧ b ≤ 122
  · rw [if_pos h, if_pos (hle.mp h), UInt8.toNat_sub_of_le _ _ (UInt8.le_iff_toNat_le.mpr ?_)]
    · rfl
    · exact le_trans (by decide) (hle.mp h).1
  · rw [if_neg h, if_neg (fun h' => h (hle.mpr h'))]

theorem toUpperCase_ofNat {b : UInt8} {x : ℕ} (h : upperUnit b.toNat = upperUnit x) :
    toUpperCase b = toUpperCase (UInt8.ofNat x) := by
  have hb := b.toNat_lt
  have hx : x < 256 := by
    unfold upperUnit at h
    split at h <;> split at h <;> omega
  refine UInt8.toNat_inj.mp ?_
  rw [toUpperCase_toNat, toUpperCase_toNat, h, UInt8.toNat_ofNat_of_lt' hx]

theorem SameUnits.lowMatch {f : WideSet} (h : SameUnits name f.units) : LowMatch name f := by
  have hlen : name.length = f.units.length := by simpa [SameUnits] using congrArg List.length h
  refine List.ext_getElem (by simpa [WideSet.narrow] using hlen) fun j h1 h2 => ?_
  have hj := congrArg (·[j]?) h
  rw [List.length_map] at h1
  simp only [List.getElem?_map,List.getElem?_eq_getElem h1,List.getElem?_eq_getElem (hlen ▸ h1),Option.map_some,
    Option.some_inj] at hj
  simpa [WideSet.narrow] using toUpperCase_ofNat hj

/-- The first entry set with the name. -/
def exactSet (name : List UInt8) (ws : List WideSet) : Option WideSet := ws.find? fun f => SameUnits name f.units

/-- The first entry set that agrees in the low bytes. -/
def lowSet (name : List UInt8) (ws : List WideSet) : Option WideSet := ws.find? fun f => LowMatch name f

theorem exactSet_none (h : lowSet name ws = none) : exactSet name ws = none := by
  rw [exactSet, List.find?_eq_none]
  intro f hf hsame
  have hlow := List.find?_eq_none.mp h f hf
  exact hlow (by simpa using (of_decide_eq_true hsame).lowMatch)

/-- `exfat_walk_dir` finds the first entry set with the name, and nothing if there is none. -/
def Directory.LooksUp (d : Directory) (v : Volume) (ws : List WideSet) (name : List UInt8) : Prop :=
  ∃ fuel, exfatWalkDir v fuel name ⟨d.cluster 0,d.useFat,true,0⟩ = .ok ((exactSet name ws).map WideSet.node)

/-- The first set that agrees in the low bytes says the same as the first one with the name. -/
def LowExact (name : List UInt8) (ws : List WideSet) : Prop :=
  ∀ f, lowSet name ws = some f → (exactSet name ws).map WideSet.node = some f.node

namespace Directory

theorem OnDisk.walk_low (h : d.OnDisk v) (hl : WideListed ws d.entries) {f : WideSet} (hf : lowSet name ws = some f) :
    ∃ fuel, exfatWalkDir v fuel name ⟨d.cluster 0,d.useFat,true,0⟩ = .ok (some f.node) := by
  have hc := hl.consume_walk name (i := 0) (s := .init)
  rw [lowSet] at hf
  rw [hf] at hc
  exact ⟨d.entries.length,scanDir_stop h.sees hc le_rfl⟩

theorem OnDisk.walk_pass (hl : WideListed ws d.entries) (hf : lowSet name ws = none) :
    ∃ t, consume (walkEntry name) 0 .init d.entries = .inl t := by
  have hc := hl.consume_walk name (i := 0) (s := .init)
  rw [lowSet] at hf
  rw [hf] at hc
  exact hc

theorem OnDisk.walk_none (h : d.OnDisk v) (hl : WideListed ws d.entries) (hf : lowSet name ws = none)
    (he : d.useFat ≠ 0 ∨ d.Marked) :
    ∃ fuel, exfatWalkDir v fuel name ⟨d.cluster 0,d.useFat,true,0⟩ = .ok none := by
  obtain ⟨t,ht⟩ := OnDisk.walk_pass hl hf
  have hend : ScanEnds v d.useFat (0 + d.entries.length) (d.cursor v d.entries.length) := by
    rw [Nat.zero_add]
    exact h.ended he
  exact ⟨_,scanDir_end h.sees hend ht rfl (Nat.lt_succ_self _)⟩

/-- No entry has a name of more than 255 units, wherever the walk goes. -/
theorem OnDisk.walk_long (h : d.OnDisk v) (hu : d.useFat = 0) (hname : 255 < name.length) :
    ∃ fuel, exfatWalkDir v fuel name ⟨d.cluster 0,d.useFat,true,0⟩ = .ok none := by
  have hhead := (h.valid 0 h.nonempty).2
  obtain ⟨n,hn⟩ := contiguous_ends (v := v) (show d.cluster 0 < 2^32 by omega)
  obtain ⟨m,hm⟩ := hn.runs (h.per ▸ h.pos)
  obtain ⟨res,hr⟩ : ∃ res, exfatWalkDir v (m + 1) name ⟨d.cluster 0,0,true,0⟩ = .ok res :=
    hm.returns (fun _ => ⟨none,rfl⟩) (Nat.zero_le m) (Nat.lt_succ_self _)
  obtain ⟨rfl,-⟩ := scanDir_long hname (show WalkState.init.fnLen < 256 by decide) hr
  rw [hu]
  exact ⟨_,hr⟩

end Directory

/-! ## A file behind the directory -/

theorem sees_track (v : Volume) (useFat head : ℕ) (h : ∀ j, i ≤ j → j < i + n →
      v.fetch useFat j (v.track useFat head j) = some (v.track useFat head (j+1))) :
    Sees v useFat i (v.track useFat head i)
      ((List.range' i n).map fun j => v.entry (v.chain useFat head (j / v.entryPerclus)) (j % v.entryPerclus))
      (v.track useFat head (i + n)) := by
  induction n generalizing i with
  | zero => exact .nil
  | succ n ih =>
    have hs := ih (i := i+1) fun j h1 h2 => h j (by omega) (by omega)
    rw [show i + 1 + n = i + (n + 1) by omega] at hs
    rw [List.range'_succ, List.map_cons]
    exact .cons (h i le_rfl (by omega)) hs

/-- Byte `o` of entry `k` of an entry set with the name. -/
def setByte (name : List UInt8) : ℕ → ℕ → UInt8
  | 0, o => if o = 0 then 0x85 else 0
  | 1, o => if o = 0 then 0xC0 else if o = 3 then UInt8.ofNat name.length else 0
  | m+2, o => if o = 0 then 0xC1 else if o % 2 = 0 then name.getD (15 * m + (o / 2 - 1)) 0 else 0

/-- The volume with such an entry set from cluster `c` on. -/
def plant (v : Volume) (c : ℕ) (name : List UInt8) : Volume := { v with
  clus := fun x o =>
    if x = c ∨ x = c + 1 then setByte name ((x - c) * v.entryPerclus + o / 32) (o % 32) else v.clus x o }

/-- Entry `k` of the set. -/
def setEntry (name : List UInt8) (k : ℕ) (e : DirEntry) : Prop :=
  ∃ r, (∀ o < 32, r o = setByte name k o) ∧ e = .parse r

theorem plant_entry (v : Volume) (name : List UInt8) {c q j : ℕ} (hq : q ≤ 1) :
    setEntry name (q * v.entryPerclus + j) ((plant v c name).entry (c + q) j) := by
  refine ⟨_,fun o ho => ?_,rfl⟩
  rw [plant]
  simp only
  rw [if_pos (by omega), Nat.add_sub_cancel_left, show (32 * j + o) / 32 = j by omega, show (32 * j + o) % 32 = o by omega]

theorem plant_entry_ne {c x j : ℕ} (h0 : x ≠ c) (h1 : x ≠ c + 1) : (plant v c name).entry x j = v.entry x j := by
  have hclus : (plant v c name).clus x = v.clus x := by
    rw [plant]
    simp only [h0,h1,or_self,if_false]
  rw [Volume.entry, Volume.entry, hclus]

theorem setEntry_file {e : DirEntry} (h : setEntry name 0 e) : e = .file 0 := by
  obtain ⟨r,hr,rfl⟩ := h
  simp [DirEntry.parse,member,ofBytes,List.range_succ,hr,setByte]

theorem setEntry_stream {e : DirEntry} (h : setEntry name 1 e) (hname : name.length < 256) :
    e = .stream 0 name.length 0 0 := by
  obtain ⟨r,hr,rfl⟩ := h
  simp [DirEntry.parse,member,ofBytes,List.range_succ,hr,setByte,Nat.mod_eq_of_lt hname]

theorem setEntry_name {e : DirEntry} {m : ℕ} (h : setEntry name (m+2) e) :
    ∃ u, e = .name u ∧ ∀ x < 15, u x = (name.getD (15 * m + x) 0).toNat := by
  obtain ⟨r,hr,rfl⟩ := h
  refine ⟨fun x => member r (2 + 2 * x) 2,?_,fun x hx => ?_⟩
  · simp [DirEntry.parse,hr,setByte]
  · have h0 := hr (2 + 2 * x) (by omega)
    have h1 := hr (2 + 2 * x + 1) (by omega)
    rw [setByte, if_neg (by omega), if_pos (by omega), show (2 + 2 * x) / 2 - 1 = x by omega] at h0
    rw [setByte, if_neg (by omega), if_neg (by omega)] at h1
    simp [member,ofBytes,List.range_succ,h0,h1]

theorem named_pieces (name : List UInt8) {e : ℕ → DirEntry} {b m : ℕ} (he : ∀ m, 15 * m < name.length → setEntry name (m+2) (e (b + m)))
    (h1 : name.length ≤ 15 * (m + n)) (h2 : 15 * (m + n) < name.length + 15) :
    Named name (min (15 * m) name.length) ((List.range' (b + m) n).map e) := by
  induction n generalizing m with
  | zero =>
    rw [Nat.min_eq_right (by omega)]
    exact .done
  | succ n ih =>
    obtain ⟨u,hu,hval⟩ := setEntry_name (he m (by omega))
    rw [List.range'_succ, List.map_cons, hu, Nat.min_eq_left (by omega)]
    refine .more (by omega) (fun j hj1 hj2 => ?_) ?_
    · rw [hval _ (by omega), show 15 * m + (j - 15 * m) = j by omega]
    · have hs := ih (m := m+1) (by omega) (by omega)
      rwa [Nat.mul_add, Nat.mul_one, ← Nat.add_assoc] at hs

theorem consume_planted {e : ℕ → DirEntry} {b : ℕ} {s : WalkState} (hname : name.length < 256)
    (he : ∀ k < 32, setEntry name k (e (b + k))) :
    ∃ m ≤ 19, ∃ f, consume (walkEntry name) i s ((List.range' b m).map e) = .inr (some f) := by
  have hfile := setEntry_file (he 0 (by omega))
  have hstream := setEntry_stream (he 1 (by omega)) hname
  rw [Nat.add_zero] at hfile
  by_cases hnil : name = []
  · obtain ⟨u,hu,-⟩ := setEntry_name (he 2 (by omega))
    refine ⟨3,by omega,⟨0,1,false,0⟩,?_⟩
    rw [List.range'_succ, List.range'_succ, List.range'_succ, List.map_cons, List.map_cons, List.map_cons, hfile,
      hstream, hu, hnil]
    rfl
  · have hnames := named_pieces name (e := e) (b := b + 2) (m := 0) (n := (name.length + 14) / 15)
      (fun m hm => by
        have := he (m + 2) (by omega)
        rwa [show b + (m + 2) = b + 2 + m by omega] at this) (by omega) (by omega)
    rw [Nat.mul_zero, Nat.zero_min, Nat.add_zero] at hnames
    refine ⟨(name.length + 14) / 15 + 2,by omega,FileSet.node ⟨0,0,0,0,name⟩,?_⟩
    rw [List.range'_succ, List.range'_succ, List.map_cons, List.map_cons, hfile, hstream]
    exact (consume_walkSet name (f := ⟨0,0,0,0,name⟩) hnil hnames).1 rfl

namespace Directory

/-- The cluster behind a contiguous directory. -/
def behind (d : Directory) : ℕ := d.cluster 0 + d.clusters.length

theorem OnDisk.behind_le (h : d.OnDisk v) (hu : d.useFat = 0) : d.behind ≤ 0xFFFFFFF7 := by
  have hpos := h.nonempty
  have hval := (h.valid (d.clusters.length - 1) (by omega)).2
  rw [h.cluster_eq hu (by omega)] at hval
  rw [behind]
  omega

theorem OnDisk.plant (h : d.OnDisk v) (hu : d.useFat = 0) (hm : ¬ d.Marked) : d.OnDisk (plant v d.behind name) := by
  refine ⟨h.per,h.pos,h.nonempty,h.valid,h.link,fun hu' => absurd hu hu',h.fits,fun i hi => ?_,fun hm' => absurd hm' hm⟩
  have hj : i / d.perClus < d.clusters.length := Nat.div_lt_of_lt_mul (hi.trans_le h.fits)
  have hclus := h.cluster_eq hu hj
  rw [plant_entry_ne (by rw [behind]; omega) (by rw [behind]; omega)]
  exact h.entry i hi

/-- The first 32 entries behind a directory without a free entry lie in the next two clusters. -/
theorem OnDisk.chain_behind (h : d.OnDisk v) (hu : d.useFat = 0) (hm : ¬ d.Marked) (hper : 16 ≤ d.perClus) (hk : k < 32) :
    v.chain 0 (d.cluster 0) ((d.entries.length + k) / d.perClus) = d.behind + k / d.perClus ∧
      (d.entries.length + k) % d.perClus = k % d.perClus ∧ k / d.perClus ≤ 1 := by
  have hfull : d.entries.length = d.perClus * d.clusters.length := le_antisymm h.fits (Nat.le_of_not_lt hm)
  have hq := Nat.div_lt_of_lt_mul (show k < d.perClus * 2 by omega)
  have hle := h.behind_le hu
  rw [behind] at hle ⊢
  rw [hfull, Nat.mul_add_div h.pos, Nat.mul_add_mod]
  refine ⟨?_,rfl,by omega⟩
  rw [chain_contiguous (by omega), Nat.add_assoc]

/-- Behind a contiguous directory without a free entry a walk may find a set of any name. -/
theorem OnDisk.finds_planted (h : d.OnDisk v) (hu : d.useFat = 0) (hm : ¬ d.Marked) (hper : 16 ≤ d.perClus)
    (hname : name.length < 256) {t : WalkState} (hc : consume (walkEntry name) 0 .init d.entries = .inl t) :
    ∃ v', d.OnDisk v' ∧ ∃ f, d.Finds v' name f := by
  obtain ⟨v',hv'⟩ : ∃ v', v' = Ukern.plant v d.behind name := ⟨_,rfl⟩
  have hdisk : d.OnDisk v' := hv' ▸ h.plant hu hm
  have hset : ∀ k < 32, setEntry name k (v'.entry
      (v'.chain 0 (d.cluster 0) ((d.entries.length + k) / v'.entryPerclus)) ((d.entries.length + k) % v'.entryPerclus)) :=
    fun k hk => by
      obtain ⟨hchain,hmod,hq⟩ := hdisk.chain_behind hu hm hper hk
      have hentry := plant_entry v name (c := d.behind) (j := k % d.perClus) hq
      rw [h.per, Nat.div_add_mod', ← hv'] at hentry
      rwa [hdisk.per, hchain, hmod]
  obtain ⟨m,hm19,f,hf⟩ := consume_planted (i := 0 + d.entries.length) (s := t) (b := d.entries.length)
    (e := fun j => v'.entry (v'.chain 0 (d.cluster 0) (j / v'.entryPerclus)) (j % v'.entryPerclus)) hname hset
  have hsees := sees_track v' 0 (d.cluster 0) (i := d.entries.length) (n := m) fun j h1 h2 => by
    obtain ⟨k,rfl⟩ := Nat.exists_eq_add_of_le h1
    obtain ⟨hchain,-,hq⟩ := hdisk.chain_behind hu hm hper (show k < 32 by omega)
    have hle := h.behind_le hu
    rw [fetch_track, if_neg]
    rintro ⟨-,hend⟩
    rw [hdisk.per, hchain, fatEnd] at hend
    omega
  have hall := hdisk.sees
  rw [hdisk.cursor_eq h.fits, hu] at hall
  have hstop := (consume_inl_append hc).trans hf
  have hwalk : ∃ fuel, exfatWalkDir v' fuel name ⟨d.cluster 0,0,true,0⟩ = .ok (some f) :=
    ⟨_,scanDir_stop (hall.append (by rw [Nat.zero_add]; exact hsees)) hstop le_rfl⟩
  exact ⟨v',hdisk,f,by rwa [Finds, hu]⟩

end Directory

def wideVolume : Volume where
  bytePerSecShift := 9
  secPerClusShift := 0
  rtdirCluster := 4
  fat _ := fatEnd
  clus x o := if x = 4 then ([rawFile,rawStream 7 6,[0xC1,0,0x41,0x01],rawFile,rawStream 9 5,rawName 98].getD
    (o / 32) []).getD (o % 32) 0 else 0

def wideDir : Directory := ⟨16,[4],1,(List.range 6).map (wideVolume.entry 4)⟩

def wideFiles : List WideSet := [⟨0x20,1,7,6,[0x141]⟩,⟨0x20,1,9,5,[98]⟩]

theorem wideDir_onDisk : wideDir.OnDisk wideVolume :=
  oneCluster_onDisk (show 2^(9 + 0) / 32 = 16 by decide) (by decide) rfl rfl

theorem WideListed.letter {x : ℕ} {u : ℕ → ℕ} (attr flags len c : ℕ) (hu : u 0 = x) (hs : WideListed ws es) :
    WideListed (⟨attr,flags,len,c,[x]⟩ :: ws) (.file attr :: .stream flags 1 len c :: ([.name u] ++ es)) := by
  refine .set (f := ⟨attr,flags,len,c,[x]⟩) (List.cons_ne_nil _ _) (.more (by simp) (fun j _ hj => ?_) .done) hs
  have hj : j = 0 := by
    simp only [List.length_singleton] at hj
    omega
  rw [hj]
  exact hu

theorem wideDir_listed : WideListed wideFiles wideDir.entries :=
  .letter 0x20 1 7 6 rfl (.letter 0x20 1 9 5 rfl .nil)

end Ukern
