import Ukern.Exfat.Entries

/-! # Listing a directory

Successive calls of `exfat_read_dir` run through the entry sets, and `exfat_walk_dir` finds what they
list. The end is reported by `d_ino = 0`, which is also the first cluster of an empty file; and a
contiguous directory without a free entry is read past its last cluster.
-/
namespace Ukern
open Lib
variable {v v' : Volume} {d : Directory} {fs : List FileSet} {p p' : ℕ} {r r' : Dirent} {rs : List Dirent}
  {name : List UInt8}

namespace Directory

/-- A call of `exfat_read_dir` at entry `p`. -/
def Reads (d : Directory) (v : Volume) (p : ℕ) (r : Dirent) (p' : ℕ) : Prop :=
  ∃ fuel, exfatReadDirAt v fuel (d.cluster 0) d.useFat p = .ok (r,p')

/-- Successive calls from entry `p` on. -/
inductive Calls (d : Directory) (v : Volume) : ℕ → List Dirent → ℕ → Prop
  | nil {p : ℕ} : Calls d v p [] p
  | cons {p p' p'' : ℕ} {r : Dirent} {rs : List Dirent} (h : d.Reads v p r p') (hs : Calls d v p' rs p'') :
      Calls d v p (r :: rs) p''

/-- A call of `exfat_walk_dir`. -/
def Finds (d : Directory) (v : Volume) (name : List UInt8) (n : DirFile) : Prop :=
  ∃ fuel, exfatWalkDir v fuel name ⟨d.cluster 0,d.useFat,true,0⟩ = .ok (some n)

theorem Reads.unique (h : d.Reads v p r p') {p'' : ℕ} (h' : d.Reads v p r' p'') : r = r' ∧ p' = p'' := by
  obtain ⟨n,hn⟩ := h
  obtain ⟨n',hn'⟩ := h'
  exact Prod.mk.inj (scanDir_unique hn hn')

theorem Calls.snoc (h : d.Calls v p rs p') {p'' : ℕ} (h' : d.Reads v p' r p'') : d.Calls v p (rs ++ [r]) p'' := by
  induction h with
  | nil => exact .cons h' .nil
  | cons h _ ih => exact .cons h (ih h')

/-- Entry `p` is the first one behind some of the entry sets; `fs` are those that follow. -/
def At (d : Directory) (p : ℕ) (fs : List FileSet) : Prop :=
  ∃ pre rest, d.entries = pre ++ rest ∧ pre.length = p ∧ Listed fs rest

theorem At.next {f : FileSet} (h : d.At p (f :: fs)) (hd : d.OnDisk v) :
    ∃ r p', d.Reads v p r p' ∧ r.Shows f ∧ p < p' ∧ d.At p' fs := by
  obtain ⟨pre,rest,he,rfl,hl⟩ := h
  obtain ⟨dst,mid,rest',rfl,hne,hl',hshow,hc⟩ := consume_readNext (s := .init) hl (le_refl pre.length)
  have hpos : 0 < mid.length := List.length_pos_iff.mpr hne
  refine ⟨dst,pre.length + mid.length,⟨d.entries.length,?_⟩,hshow,by omega,pre ++ mid,rest',?_,?_,hl'⟩
  · refine scanDir_stop hd.sees ?_ le_rfl
    rw [he, consume_inl_append (consume_readSkip (by simp)), Nat.zero_add]
    exact consume_inr_append hc
  · rw [he, List.append_assoc]
  · rw [List.length_append]

theorem At.end (h : d.At p []) (hd : d.OnDisk v) (he : d.useFat ≠ 0 ∨ d.Marked) :
    d.Reads v p ReadState.init.dst.ended p := by
  obtain ⟨pre,rest,hes,rfl,hl⟩ := h
  have hlen : pre.length ≤ d.entries.length := by
    rw [hes, List.length_append]
    omega
  have hend : ScanEnds v d.useFat (0 + d.entries.length) (d.cursor v d.entries.length) := by
    rw [Nat.zero_add]
    exact hd.ended he
  refine ⟨d.entries.length + 1,scanDir_end hd.sees hend ?_ ?_ (Nat.lt_succ_self _)⟩
  · rw [hes, consume_inl_append (consume_readSkip (by simp)), Nat.zero_add]
    exact consume_readNone hl le_rfl
  · rw [readEntry, if_neg (by omega)]

/-- The results of successive calls: the entry sets in order, then the end. -/
def Results (fs : List FileSet) (rs : List Dirent) : Prop := ∀ n (h : n < rs.length),
  (∀ f, fs[n]? = some f → rs[n].Shows f) ∧ (fs[n]? = none → rs[n].dIno = some 0)

theorem Results.cons {f : FileSet} (hr : r.Shows f) (h : Results fs rs) : Results (f :: fs) (r :: rs) := fun n hn => by
  cases n with
  | zero => exact ⟨fun g hg => by cases hg; exact hr,nofun⟩
  | succ n => exact h n (by simpa using hn)

theorem Results.finish (hr : r.dIno = some 0) (h : Results [] rs) : Results [] (r :: rs) := fun n hn => by
  cases n with
  | zero => exact ⟨nofun,fun _ => hr⟩
  | succ n => exact h n (by simpa using hn)

theorem At.calls (hd : d.OnDisk v) (he : d.useFat ≠ 0 ∨ d.Marked) (hc : d.Calls v p rs p') (h : d.At p fs) :
    d.At p' (fs.drop rs.length) ∧ Results fs rs := by
  induction hc generalizing fs with
  | nil => exact ⟨h,nofun⟩
  | cons hr _ ih =>
    cases fs with
    | nil =>
      obtain ⟨rfl,rfl⟩ := hr.unique (h.end hd he)
      obtain ⟨h1,h2⟩ := ih h
      refine ⟨?_,h2.finish rfl⟩
      rwa [List.drop_nil] at h1 ⊢
    | cons f fs =>
      obtain ⟨r',p'',hr',hshow,-,hat⟩ := h.next hd
      obtain ⟨rfl,rfl⟩ := hr.unique hr'
      obtain ⟨h1,h2⟩ := ih hat
      exact ⟨h1,h2.cons hshow⟩

/-- The calls for the first entry sets, whatever the directory ends with. -/
theorem At.reach {gs : List FileSet} (hd : d.OnDisk v) (h : d.At p (gs ++ fs)) :
    ∃ rs p', d.Calls v p rs p' ∧ rs.length = gs.length ∧ d.At p' fs ∧ Results gs rs := by
  induction gs generalizing p with
  | nil => exact ⟨[],p,.nil,rfl,h,nofun⟩
  | cons g gs ih =>
    obtain ⟨r,q,hr,hshow,-,hat⟩ := At.next h hd
    obtain ⟨rs,p',hc,hlen,hat',hres⟩ := ih hat
    exact ⟨r :: rs,p',.cons hr hc,by rw [List.length_cons, hlen, List.length_cons],hat',hres.cons hshow⟩

theorem at_zero (hl : Listed fs d.entries) : d.At 0 fs := ⟨[],d.entries,rfl,rfl,hl⟩

/-! ## Past the end -/

theorem OnDisk.cluster_eq (h : d.OnDisk v) (hu : d.useFat = 0) {j : ℕ} (hj : j < d.clusters.length) :
    d.cluster j = d.cluster 0 + j := by
  induction j with
  | zero => rfl
  | succ j ih =>
    have hlink := h.link j hj
    have hval := (h.valid j (by omega)).2
    have hj' := ih (by omega)
    rw [Volume.after, if_neg (by simpa using hu)] at hlink
    omega

/-- The volume with cluster `c` full of file-name entries. -/
def litter (v : Volume) (c : ℕ) : Volume := { v with clus := Function.update v.clus c fun _ => 0xC1 }

theorem litter_entry (c j : ℕ) : ∃ u, (litter v c).entry c j = .name u := by
  have hbyte : ∀ o, (litter v c).clus c o = 0xC1 := fun o => by
    rw [litter]
    simp only [Function.update_self]
  rw [Volume.entry, DirEntry.parse]
  simp only [hbyte]
  exact ⟨_,rfl⟩

theorem litter_entry_ne {c c' : ℕ} (hc : c' ≠ c) (j : ℕ) : (litter v c).entry c' j = v.entry c' j := by
  have hclus : (litter v c).clus c' = v.clus c' := Function.update_of_ne hc ..
  rw [Volume.entry, Volume.entry, hclus]

theorem OnDisk.cluster_le (h : d.OnDisk v) (hu : d.useFat = 0) {j : ℕ} (hj : j < d.clusters.length) :
    d.cluster j ≤ d.cluster (d.clusters.length - 1) := by
  have h1 := h.cluster_eq hu hj
  have h2 := h.cluster_eq hu (Nat.sub_lt h.nonempty Nat.one_pos)
  omega

/-- Behind a contiguous directory without a free entry the next cluster is fetched. -/
theorem OnDisk.fetch_behind (h : d.OnDisk v) (hu : d.useFat = 0) (hm : ¬ d.Marked) :
    ∃ cur, v.fetch d.useFat d.entries.length (d.cursor v d.entries.length) = some cur ∧
      cur.dir = d.cluster (d.clusters.length - 1) + 1 := by
  obtain ⟨hmod,hcur⟩ := h.full hm
  have hval := (h.valid _ (Nat.sub_lt h.nonempty Nat.one_pos)).2
  have hnext : v.after d.useFat (d.cluster (d.clusters.length - 1)) = d.cluster (d.clusters.length - 1) + 1 := by
    rw [Volume.after, if_neg (by simpa using hu), Nat.mod_eq_of_lt (by omega)]
  have hne : d.cluster (d.clusters.length - 1) + 1 ≠ fatEnd := by
    unfold fatEnd
    omega
  rw [Volume.fetch, h.per, if_pos hmod, hcur, hnext, if_neg hne]
  exact ⟨_,rfl,rfl⟩

/-- Behind a contiguous directory without a free entry a call returns what lies there. -/
theorem OnDisk.overread (h : d.OnDisk v) (hu : d.useFat = 0) (hm : ¬ d.Marked) :
    ∃ v', d.OnDisk v' ∧ ∀ p, d.At p [] → ∃ r p', d.Reads v' p r p' ∧ p < p' ∧ r.dIno = none := by
  obtain ⟨c,hc⟩ : ∃ c, c = d.cluster (d.clusters.length - 1) + 1 := ⟨_,rfl⟩
  have hval := (h.valid _ (Nat.sub_lt h.nonempty Nat.one_pos)).2
  have hdisk : d.OnDisk (litter v c) := by
    refine ⟨h.per,h.pos,h.nonempty,h.valid,h.link,fun hu' => absurd hu hu',h.fits,fun i hi => ?_,fun hm' => absurd hm' hm⟩
    have hle := h.cluster_le hu (Nat.div_lt_of_lt_mul (hi.trans_le h.fits))
    rw [litter_entry_ne (by omega)]
    exact h.entry i hi
  refine ⟨litter v c,hdisk,fun p hat => ?_⟩
  obtain ⟨cur,hfetch,hdir⟩ := hdisk.fetch_behind hu hm
  have hsees := hdisk.sees.append (.cons (by rwa [Nat.zero_add]) .nil)
  rw [Nat.zero_add, hdisk.per, (hdisk.full hm).1, hdir, ← hc] at hsees
  obtain ⟨u,hentry⟩ := litter_entry (v := v) c 0
  rw [hentry] at hsees
  obtain ⟨pre,rest,hes,rfl,hlist⟩ := hat
  have hlen : pre.length ≤ d.entries.length := by
    rw [hes, List.length_append]
    omega
  -- without a stream entry in this call the length of the name is 0, so the piece completes it
  have hstep : readEntry pre.length d.entries.length .init (.name u) =
      .inr ({ ReadState.init.dst with dName := Function.update ReadState.init.dst.dName 0 (some 0) },
        d.entries.length + 1) := by
    rw [readEntry, if_neg (by omega)]
    rfl
  have hpass : consume (readEntry pre.length) 0 .init d.entries = .inl .init := by
    rw [hes, consume_inl_append (consume_readSkip (by simp)), Nat.zero_add]
    exact consume_readNone hlist le_rfl
  have hc : consume (readEntry pre.length) 0 .init (d.entries ++ [.name u]) = .inr ({ ReadState.init.dst with
      dName := Function.update ReadState.init.dst.dName 0 (some 0) },d.entries.length + 1) := by
    rw [consume_inl_append hpass, consume, Nat.zero_add, hstep]
  exact ⟨_,d.entries.length + 1,⟨_,scanDir_stop hsees hc le_rfl⟩,by omega,rfl⟩

/-! ## The two contracts -/

/-- Called again and again from entry 0, `exfat_read_dir` yields the entry sets in order, none of them
with `d_ino = 0`, and from then on `d_ino = 0`. -/
structure Lists (d : Directory) (v : Volume) (fs : List FileSet) : Prop where
  returns : ∀ rs p, d.Calls v 0 rs p → ∃ r p', d.Reads v p r p'
  sets : ∀ rs p, d.Calls v 0 rs p → ∀ n (h : n < rs.length), ∀ f, fs[n]? = some f →
    rs[n].Shows f ∧ rs[n].dIno ≠ some 0
  finish : ∀ rs p, d.Calls v 0 rs p → ∀ n (h : n < rs.length), fs[n]? = none → rs[n].dIno = some 0

theorem OnDisk.lists (h : d.OnDisk v) (hl : Listed fs d.entries) (hne : ∀ f ∈ fs, f.firstClus ≠ 0)
    (he : d.useFat ≠ 0 ∨ d.Marked) : d.Lists v fs := by
  refine ⟨fun rs p hc => ?_,fun rs p hc n hn f hf => ?_,fun rs p hc n hn hf => ?_⟩
  · obtain ⟨hat,-⟩ := At.calls h he hc (at_zero hl)
    cases hdrop : fs.drop rs.length with
    | nil =>
      rw [hdrop] at hat
      exact ⟨_,_,hat.end h he⟩
    | cons f gs =>
      rw [hdrop] at hat
      obtain ⟨r,p',hr,-⟩ := hat.next h
      exact ⟨r,p',hr⟩
  · obtain ⟨-,hres⟩ := At.calls h he hc (at_zero hl)
    have hshow := (hres n hn).1 f hf
    refine ⟨hshow,fun hz => hne f (List.mem_of_getElem? hf) ?_⟩
    rw [hshow.ino] at hz
    exact Option.some_inj.mp hz
  · exact ((At.calls h he hc (at_zero hl)).2 n hn).2 hf

/-- The string that a call leaves in `d_name`. -/
def HasName (r : Dirent) (name : List UInt8) : Prop :=
  (∀ j < name.length, r.dName j = some (name.getD j 0)) ∧ r.dName name.length = some 0 ∧ 0 ∉ name

/-- What `exfat_read_dir` returns can be opened under its name, and what can be opened is returned. A
call returns an entry when it moves `read_ptr`. -/
structure Agrees (d : Directory) (v : Volume) : Prop where
  opens : ∀ rs p r p', d.Calls v 0 rs p → d.Reads v p r p' → p < p' → ∃ name n, HasName r name ∧
    d.Finds v name n ∧ r.dIno = some n.clusId ∧ r.fileLen = some n.fileLen ∧
    r.dType = some (if n.isDir then dtDir else dtReg)
  lists : ∀ name n, d.Finds v name n → ∃ rs p r p' name', d.Calls v 0 rs p ∧ d.Reads v p r p' ∧ p < p' ∧
    HasName r name' ∧ SameName name name'

theorem OnDisk.finds (h : d.OnDisk v) (hl : Listed fs d.entries) {f : FileSet}
    (hf : fs.find? (fun f => SameName name f.name) = some f) : d.Finds v name f.node := by
  have hc := consume_walk name (i := 0) (s := .init) hl
  rw [hf] at hc
  exact ⟨d.entries.length,scanDir_stop h.sees hc le_rfl⟩

theorem OnDisk.found (h : d.OnDisk v) (hl : Listed fs d.entries) (he : d.useFat ≠ 0 ∨ d.Marked) {n : DirFile}
    (hn : d.Finds v name n) : ∃ f, fs.find? (fun f => SameName name f.name) = some f := by
  have hc := consume_walk name (i := 0) (s := .init) hl
  cases hf : fs.find? (fun f => SameName name f.name) with
  | some f => exact ⟨f,rfl⟩
  | none =>
    rw [hf] at hc
    obtain ⟨t,ht⟩ := hc
    have hend : ScanEnds v d.useFat (0 + d.entries.length) (d.cursor v d.entries.length) := by
      rw [Nat.zero_add]
      exact h.ended he
    obtain ⟨fuel,hn⟩ := hn
    have hnone := scanDir_unique hn (scanDir_end h.sees hend ht rfl (Nat.lt_succ_self _))
    cases hnone

theorem find_sameName {f : FileSet} (hdiff : fs.Pairwise fun f g => ¬ SameName f.name g.name) (hf : f ∈ fs) :
    fs.find? (fun g => SameName f.name g.name) = some f := by
  induction hdiff with
  | nil => cases hf
  | @cons g gs hg _ ih =>
    rcases List.mem_cons.mp hf with rfl | hf
    · exact List.find?_cons_of_pos (by simp [SameName])
    · rw [List.find?_cons_of_neg (by simpa using fun hs => hg f hf hs.symm)]
      exact ih hf

theorem Shows.hasName {f : FileSet} (h : r.Shows f) (hz : 0 ∉ f.name) : HasName r f.name := ⟨h.name,h.nul,hz⟩

theorem OnDisk.agrees (h : d.OnDisk v) (hl : Listed fs d.entries) (hz : ∀ f ∈ fs, 0 ∉ f.name)
    (hdiff : fs.Pairwise fun f g => ¬ SameName f.name g.name) (he : d.useFat ≠ 0 ∨ d.Marked) : d.Agrees v := by
  refine ⟨fun rs p r p' hc hr hlt => ?_,fun name n hn => ?_⟩
  · obtain ⟨hat,-⟩ := At.calls h he hc (at_zero hl)
    cases hdrop : fs.drop rs.length with
    | nil =>
      rw [hdrop] at hat
      exact absurd (hr.unique (hat.end h he)).2 (by omega)
    | cons f gs =>
      rw [hdrop] at hat
      obtain ⟨r',p'',hr',hshow,-⟩ := hat.next h
      obtain ⟨rfl,-⟩ := hr.unique hr'
      have hf : f ∈ fs := List.mem_of_mem_drop (i := rs.length) (by rw [hdrop]; exact List.mem_cons_self)
      exact ⟨f.name,f.node,Shows.hasName hshow (hz f hf),h.finds hl (find_sameName hdiff hf),hshow.ino,hshow.len,hshow.type⟩
  · obtain ⟨f,hfind⟩ := h.found hl he hn
    have hf := List.mem_of_find?_eq_some hfind
    obtain ⟨gs,gs',rfl⟩ := List.append_of_mem hf
    obtain ⟨rs,p,hc,-,hat,-⟩ := At.reach h (at_zero hl)
    obtain ⟨r,p',hr,hshow,hlt,-⟩ := hat.next h
    refine ⟨rs,p,r,p',f.name,hc,hr,hlt,Shows.hasName hshow (hz f hf),?_⟩
    simpa using List.find?_some hfind

end Directory

open Directory in
/-- `exfat_read_dir` and `exfat_walk_dir` agree on a directory, wherever it lies, exactly if its end
can be seen. -/
theorem readdir_walk_agree_iff (h : d.OnDisk v) (hl : Listed fs d.entries) (hz : ∀ f ∈ fs, 0 ∉ f.name)
    (hdiff : fs.Pairwise fun f g => ¬ SameName f.name g.name) :
    (∀ v, d.OnDisk v → d.Agrees v) ↔ d.useFat ≠ 0 ∨ d.Marked := by
  refine ⟨fun hall => ?_,fun he v hv => hv.agrees hl hz hdiff he⟩
  by_contra hend
  rw [not_or, not_not] at hend
  obtain ⟨v',hv',hover⟩ := h.overread hend.1 hend.2
  have hat : d.At 0 (fs ++ []) := by
    rw [List.append_nil]
    exact at_zero hl
  obtain ⟨rs,p,hc,-,hat,-⟩ := At.reach hv' hat
  obtain ⟨r,p',hr,hlt,hnone⟩ := hover p hat
  obtain ⟨-,n,-,-,hino,-⟩ := (hall v' hv').opens rs p r p' hc hr hlt
  rw [hnone] at hino
  cases hino

/-! A contiguous directory of deleted entries in cluster 4, and the data of a file behind it. -/

def fullVolume : Volume where
  bytePerSecShift := 9
  secPerClusShift := 0
  rtdirCluster := 3
  fat _ := 0
  clus x _ := if x = 4 then 0x05 else 0xC1

def fullDir : Directory := ⟨16,[4],0,List.replicate 16 .other⟩

theorem fullDir_onDisk : fullDir.OnDisk fullVolume where
  per := show 2^(9 + 0) / 32 = 16 by decide
  pos := by decide
  nonempty := by decide
  valid := by decide
  link j hj := absurd hj (by simp [fullDir])
  final h := absurd rfl h
  fits := by simp [fullDir]
  entry i hi := by
    have hi' : i < 16 := by simpa [fullDir] using hi
    have hper : fullDir.perClus = 16 := rfl
    simp only [hper,Nat.div_eq_of_lt hi']
    simp only [fullDir,List.getElem_replicate]
    rfl
  marker h := absurd h (by simp [Directory.Marked,fullDir])

/-- Past the end of the directory the data of the file is taken for an entry: it has no name, and
nothing is stored in `d_ino`. -/
theorem readdir_returns_file_data : fullDir.OnDisk fullVolume ∧ Listed [] fullDir.entries ∧
    (∃ r, fullDir.Reads fullVolume 0 r 17 ∧ r.dIno = none ∧ r.dName 0 = some 0) ∧ ¬ fullDir.Agrees fullVolume := by
  have hr : ∃ r, fullDir.Reads fullVolume 0 r 17 ∧ r.dIno = none ∧ r.dName 0 = some 0 :=
    ⟨_,⟨17,rfl⟩,rfl,rfl⟩
  refine ⟨fullDir_onDisk,?_,hr,fun h => ?_⟩
  · have hother : ∀ n, Listed [] (List.replicate n .other) := fun n => by
      induction n with
      | zero => exact .nil
      | succ n ih => exact .other ih
    exact hother 16
  · obtain ⟨r,hr,hnone,-⟩ := hr
    obtain ⟨-,n,-,-,hino,-⟩ := h.opens [] 0 r 17 .nil hr (by decide)
    rw [hnone] at hino
    cases hino

theorem oneCluster_onDisk {n : ℕ} (hper : v.entryPerclus = 16) (hn : n < 16) (hfat : v.fat 4 = fatEnd)
    (hlast : v.entry 4 n = .last) : Directory.OnDisk ⟨16,[4],1,(List.range n).map (v.entry 4)⟩ v := by
  have hlen : ((List.range n).map (v.entry 4)).length = n := by rw [List.length_map, List.length_range]
  refine ⟨hper,Nat.succ_pos 15,Nat.one_pos,fun j hj => ?_,fun j hj => absurd hj (by simp),fun _ => hfat,?_,
    fun i hi => ?_,fun _ => ?_⟩
  · rw [show j = 0 from Nat.lt_one_iff.mp hj]
    exact (show 2 ≤ 4 ∧ 4 ≤ 0xFFFFFFF6 by decide)
  · simp only [hlen,List.length_singleton]
    omega
  · have hi : i < n := hlen ▸ hi
    simp only [Nat.div_eq_of_lt (hi.trans hn),Nat.mod_eq_of_lt (hi.trans hn),List.getElem_map,List.getElem_range]
    rfl
  · simp only [hlen,Nat.div_eq_of_lt hn,Nat.mod_eq_of_lt hn]
    exact hlast

/-! A small root directory in cluster 4 with the files `a`, which may be empty, and `b`. -/

def rawFile : List UInt8 := [0x85,0x02,0,0,0x20]
def rawStream (len c : UInt8) : List UInt8 := [0xC0,0x01,0,1,0,0,0,0,len,0,0,0,0,0,0,0,0,0,0,0,c]
def rawName (x : UInt8) : List UInt8 := [0xC1,0,x]

def twoFiles (empty : Bool) : List (List UInt8) :=
  [rawFile,if empty then rawStream 0 0 else rawStream 7 6,rawName 97,rawFile,rawStream 9 5,rawName 98]

def smallVolume (empty : Bool) : Volume where
  bytePerSecShift := 9
  secPerClusShift := 0
  rtdirCluster := 4
  fat _ := fatEnd
  clus x o := if x = 4 then ((twoFiles empty).getD (o / 32) []).getD (o % 32) 0 else 0

def smallDir (empty : Bool) : Directory := ⟨16,[4],1,(List.range 6).map ((smallVolume empty).entry 4)⟩

def smallFiles (empty : Bool) : List FileSet :=
  [if empty then ⟨0x20,1,0,0,[97]⟩ else ⟨0x20,1,7,6,[97]⟩,⟨0x20,1,9,5,[98]⟩]

theorem smallDir_onDisk (empty : Bool) : (smallDir empty).OnDisk (smallVolume empty) :=
  oneCluster_onDisk (show 2^(9 + 0) / 32 = 16 by decide) (by decide) rfl (by cases empty <;> rfl)

theorem Listed.letter {x : UInt8} {u : ℕ → ℕ} {es : List DirEntry} (attr flags len c : ℕ) (hu : u 0 = x.toNat)
    (hs : Listed fs es) :
    Listed (⟨attr,flags,len,c,[x]⟩ :: fs) (.file attr :: .stream flags 1 len c :: ([.name u] ++ es)) := by
  refine .set (f := ⟨attr,flags,len,c,[x]⟩) (List.cons_ne_nil _ _) (.more (by simp) (fun j _ hj => ?_) .done) hs
  have hj : j = 0 := by
    simp only [List.length_singleton] at hj
    omega
  rw [hj]
  exact hu

theorem smallDir_listed (empty : Bool) : Listed (smallFiles empty) (smallDir empty).entries := by
  have hb : ∀ v : Volume, v.entry 4 3 = .file 0x20 → v.entry 4 4 = .stream 1 1 9 5 →
      (∃ u, v.entry 4 5 = .name u ∧ u 0 = 98) → Listed [⟨0x20,1,9,5,[98]⟩] [v.entry 4 3,v.entry 4 4,v.entry 4 5] := by
    rintro v h3 h4 ⟨u,h5,hu⟩
    rw [h3, h4, h5]
    exact Listed.letter 0x20 1 9 5 hu .nil
  cases empty with
  | false => exact Listed.letter 0x20 1 7 6 rfl (hb (smallVolume false) rfl rfl ⟨_,rfl,rfl⟩)
  | true => exact Listed.letter 0x20 1 0 0 rfl (hb (smallVolume true) rfl rfl ⟨_,rfl,rfl⟩)

theorem readdir_walk_agree_two_files : (smallDir true).Agrees (smallVolume true) :=
  (readdir_walk_agree_iff (smallDir_onDisk true) (smallDir_listed true) (by decide) (by decide)).mpr (.inl (by decide)) _
    (smallDir_onDisk true)

end Ukern
