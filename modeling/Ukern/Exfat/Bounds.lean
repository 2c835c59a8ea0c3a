import Ukern.Exfat.Listing
import Ukern.Exfat.File

/-! # How far a scan goes

A scan follows the links it reads from the disk until it meets an end marker or the end of a FAT
chain. A contiguous directory without a free entry has neither, and the scan goes on in the clusters
behind it; and nothing bounds it on a chain that leads back into itself.
-/
namespace Ukern
open Lib
variable {v : Volume} {d : Directory} {useFat head i n fuel p p' : ℕ} {cur cur' : DirCursor} {es : List DirEntry}
  {r : Dirent}

/-- The values of `read_ptr` that calls of `exfat_read_dir` on an open directory arrive at. -/
inductive ReadPtr (v : Volume) (head useFat : ℕ) : ℕ → Prop
  | zero : ReadPtr v head useFat 0
  | next {p p' fuel : ℕ} {r : Dirent} (hp : ReadPtr v head useFat p)
      (hr : exfatReadDirAt v fuel head useFat p = .ok (r,p')) : ReadPtr v head useFat p'

/-! ## Inside the directory -/

section Inspected
variable {σ ρ : Type} {step : ℕ → σ → DirEntry → σ ⊕ ρ} {s t : σ}

/-- The clusters in which a scan inspects entries, in the order of the entries. -/
def Volume.inspected (v : Volume) (useFat : ℕ) (step : ℕ → σ → DirEntry → σ ⊕ ρ) :
    ℕ → ℕ → DirCursor → σ → List ℕ
  | 0, _, _, _ => []
  | fuel+1, i, cur, s =>
    match v.fetch useFat i cur with
    | none => []
    | some cur => cur.dir ::
      match step i s (v.entry cur.dir (i % v.entryPerclus)) with
      | .inr _ => []
      | .inl s => v.inspected useFat step fuel (i+1) cur s

theorem inspected_pass {c : ℕ} (h : Sees v useFat i cur es cur') (hc : consume step i s es = .inl t)
    (hin : c ∈ v.inspected useFat step fuel (i + es.length) cur' t) :
    c ∈ v.inspected useFat step (fuel + es.length) i cur s := by
  induction h generalizing s with
  | nil =>
    cases hc
    exact hin
  | cons hf _ ih =>
    rw [consume] at hc
    rw [List.length_cons, ← Nat.add_assoc, Volume.inspected, hf]
    simp only
    split at hc
    · rename_i hs
      rw [hs]
      refine List.mem_cons_of_mem _ (ih hc ?_)
      rwa [List.length_cons, Nat.add_comm _ 1, ← Nat.add_assoc] at hin
    · cases hc

/-- Where the end of the directory can be seen, a scan that stops there does not leave it. -/
theorem Directory.OnDisk.inspected (h : d.OnDisk v) (he : d.useFat ≠ 0 ∨ d.Marked)
    (hstop : ∀ s, ∃ r, step d.entries.length s .last = .inr r) (hi : i ≤ d.entries.length) :
    ∀ c ∈ v.inspected d.useFat step fuel i (d.cursor v i) s, c ∈ d.clusters := by
  induction fuel generalizing i s with
  | zero => exact fun _ h => absurd h List.not_mem_nil
  | succ fuel ih =>
    have hmem : i < d.perClus * d.clusters.length → (d.cursor v (i+1)).dir ∈ d.clusters := fun hlt => by
      have hj : i / d.perClus < d.clusters.length := Nat.div_lt_of_lt_mul hlt
      rw [cursor, cluster, List.getD_eq_getElem _ _ hj]
      exact List.getElem_mem hj
    rw [Volume.inspected]
    by_cases hlt : i < d.entries.length
    · have hroom := hlt.trans_le h.fits
      rw [h.fetch hroom]
      refine List.forall_mem_cons.mpr ⟨hmem hroom,?_⟩
      cases step i s (v.entry (d.cursor v (i+1)).dir (i % v.entryPerclus)) with
      | inr r => exact fun _ h => absurd h List.not_mem_nil
      | inl s => exact ih hlt
    · obtain rfl : i = d.entries.length := le_antisymm hi (Nat.le_of_not_lt hlt)
      rcases h.ended he with hf | ⟨cur',hf,hl⟩
      · rw [hf]
        exact fun _ h => absurd h List.not_mem_nil
      · by_cases hm : d.Marked
        · obtain ⟨r,hr⟩ := hstop s
          rw [hf]
          simp only [hl,hr,List.mem_singleton]
          rw [h.fetch hm] at hf
          cases hf
          rintro c rfl
          exact hmem hm
        · -- without a marker the chain is over, so nothing is fetched
          have hu := he.resolve_right hm
          obtain ⟨hmod,hcur⟩ := h.full hm
          rw [Volume.fetch, h.per, if_pos hmod, hcur, Volume.after, if_pos hu, h.final hu, if_pos rfl] at hf
          cases hf

end Inspected

namespace Directory

/-- Looking up any name and reading from any position reached, the two scanners inspect entries in
the clusters of the directory only. -/
structure Confined (d : Directory) (v : Volume) : Prop where
  walk : ∀ name fuel, ∀ c ∈ v.inspected d.useFat (walkEntry name) fuel 0 ⟨0,d.cluster 0⟩ .init, c ∈ d.clusters
  read : ∀ p, ReadPtr v (d.cluster 0) d.useFat p → ∀ fuel,
    ∀ c ∈ v.inspected d.useFat (readEntry p) fuel 0 ⟨0,d.cluster 0⟩ .init, c ∈ d.clusters

end Directory

theorem readEntry_inr {s : ReadState} {e : DirEntry} (h : readEntry p i s e = .inr (r,p')) :
    p ≤ i ∧ (e = .last ∧ p' = p ∨ p' = i + 1) := by
  unfold readEntry at h
  split at h
  · cases h
  · rename_i hi
    refine ⟨Nat.le_of_not_lt hi,?_⟩
    cases e with
    | last =>
      cases h
      exact .inl ⟨rfl,rfl⟩
    | file attr => cases h
    | stream flags len valid first => cases h
    | name u =>
      simp only at h
      split at h
      · cases h
        exact .inr rfl
      · cases h
    | other => cases h

theorem consume_readDir_inr {s : ReadState} (hlast : .last ∉ es) (hc : consume (readEntry p) i s es = .inr (r,p')) :
    p < p' ∧ p' ≤ i + es.length := by
  induction es generalizing i s with
  | nil => cases hc
  | cons e es ih =>
    rw [consume] at hc
    rw [List.length_cons]
    split at hc
    · have := ih (fun hmem => hlast (List.mem_cons_of_mem _ hmem)) hc
      omega
    · rename_i hs
      cases hc
      obtain ⟨hle,⟨rfl,-⟩ | rfl⟩ := readEntry_inr hs
      · exact absurd List.mem_cons_self hlast
      · omega

/-- A scan that stands at `track i` before entry `i`, and is over at entry `n`. -/
structure ScanRuns (v : Volume) (useFat : ℕ) (track : ℕ → DirCursor) (n : ℕ) : Prop where
  go : ∀ i < n, v.fetch useFat i (track i) = some (track (i+1))
  ends : ScanEnds v useFat n (track n)

section ScanRuns
variable {track : ℕ → DirCursor} {σ ρ : Type} {step : ℕ → σ → DirEntry → σ ⊕ ρ} {last : σ → ρ} {s : σ}

theorem ScanRuns.returns (h : ScanRuns v useFat track n) (hstop : ∀ s, ∃ r, step n s .last = .inr r) (hi : i ≤ n)
    (hfuel : n - i < fuel) : ∃ r, v.scanDir useFat step last fuel i (track i) s = .ok r := by
  induction fuel generalizing i s with
  | zero => omega
  | succ fuel ih =>
    rw [Volume.scanDir]
    by_cases hlt : i < n
    · rw [h.go i hlt]
      simp only
      cases step i s (v.entry (track (i+1)).dir (i % v.entryPerclus)) with
      | inr r => exact ⟨r,rfl⟩
      | inl s => exact ih hlt (by omega)
    · obtain rfl : i = n := le_antisymm hi (Nat.le_of_not_lt hlt)
      rcases h.ends with hf | ⟨cur',hf,hl⟩
      · rw [hf]
        exact ⟨_,rfl⟩
      · obtain ⟨r,hr⟩ := hstop s
        rw [hf]
        simp only [hl,hr]
        exact ⟨r,rfl⟩

theorem ScanRuns.readDir_le {s : ReadState} (h : ScanRuns v useFat track n) (hp : p ≤ n) (hi : i ≤ n)
    (hr : v.scanDir useFat (readEntry p) (fun s => (s.dst.ended,p)) fuel i (track i) s = .ok (r,p')) : p' ≤ n := by
  induction fuel generalizing i s with
  | zero => cases hr
  | succ fuel ih =>
    rw [Volume.scanDir] at hr
    by_cases hlt : i < n
    · rw [h.go i hlt] at hr
      simp only at hr
      split at hr
      · rename_i hs
        cases hr
        rcases (readEntry_inr hs).2 with ⟨-,rfl⟩ | rfl
        · exact hp
        · exact hlt
      · exact ih hlt hr
    · obtain rfl : i = n := le_antisymm hi (Nat.le_of_not_lt hlt)
      rcases h.ends with hf | ⟨cur',hf,hl⟩
      · rw [hf] at hr
        cases hr
        exact hp
      · rw [hf] at hr
        simp only [hl,readEntry,if_neg (Nat.not_lt.mpr hp)] at hr
        cases hr
        exact hp

theorem ScanRuns.readPtr (h : ScanRuns v useFat track n) (h0 : track 0 = ⟨0,head⟩) (hp : ReadPtr v head useFat p) :
    p ≤ n := by
  induction hp with
  | zero => exact Nat.zero_le n
  | next _ hr ih =>
    rw [exfatReadDirAt, ← h0] at hr
    exact h.readDir_le ih (Nat.zero_le n) hr

theorem readEntry_last {s : ReadState} (hp : p ≤ n) : ∃ r, readEntry p n s .last = .inr r := by
  rw [readEntry, if_neg (Nat.not_lt.mpr hp)]
  exact ⟨_,rfl⟩

end ScanRuns

namespace Directory

theorem OnDisk.runs (h : d.OnDisk v) (he : d.useFat ≠ 0 ∨ d.Marked) :
    ScanRuns v d.useFat (d.cursor v) d.entries.length where
  go _ hi := h.fetch (hi.trans_le h.fits)
  ends := h.ended he

theorem OnDisk.confined (h : d.OnDisk v) (he : d.useFat ≠ 0 ∨ d.Marked) : d.Confined v where
  walk _ _ := h.inspected he (fun _ => ⟨none,rfl⟩) (Nat.zero_le _)
  read _ hp _ := h.inspected he (fun _ => readEntry_last ((h.runs he).readPtr rfl hp)) (Nat.zero_le _)

/-- Calls of `exfat_read_dir` arrive at a position from which no entry set of the directory is left. -/
theorem OnDisk.exhausted (h : d.OnDisk v) (hlast : .last ∉ d.entries) :
    ∃ p t, ReadPtr v (d.cluster 0) d.useFat p ∧ consume (readEntry p) 0 .init d.entries = .inl t := by
  by_contra hno
  push Not at hno
  -- every call would then return an entry and move `read_ptr` on, inside the directory
  have hall : ∀ k, ∃ p, k ≤ p ∧ p ≤ d.entries.length ∧ ReadPtr v (d.cluster 0) d.useFat p := fun k => by
    induction k with
    | zero => exact ⟨0,le_rfl,Nat.zero_le _,.zero⟩
    | succ k ih =>
      obtain ⟨p,hk,-,hp⟩ := ih
      cases hc : consume (readEntry p) 0 .init d.entries with
      | inl t => exact absurd hc (hno p t hp)
      | inr res =>
        obtain ⟨hlt,hle⟩ := consume_readDir_inr hlast hc
        rw [Nat.zero_add] at hle
        exact ⟨res.2,by omega,hle,.next hp (scanDir_stop h.sees hc le_rfl)⟩
  obtain ⟨p,h1,h2,-⟩ := hall (d.entries.length + 1)
  omega

theorem OnDisk.behind_notMem (h : d.OnDisk v) (hu : d.useFat = 0) :
    d.cluster (d.clusters.length - 1) + 1 ∉ d.clusters := fun hmem => by
  obtain ⟨j,hj,he⟩ := List.getElem_of_mem hmem
  have hle := h.cluster_le hu hj
  rw [cluster, List.getD_eq_getElem _ _ hj, he] at hle
  omega

end Directory

/-- The scans of a directory stay inside it exactly if it is linked in the FAT or has an end marker. -/
theorem dir_scans_confined_iff (h : d.OnDisk v) (hlast : .last ∉ d.entries) :
    d.Confined v ↔ d.useFat ≠ 0 ∨ d.Marked := by
  refine ⟨fun hin => ?_,h.confined⟩
  by_contra hend
  rw [not_or, not_not] at hend
  obtain ⟨p,t,hp,hc⟩ := h.exhausted hlast
  obtain ⟨cur,hf,hdir⟩ := h.fetch_behind hend.1 hend.2
  refine h.behind_notMem hend.1 (hin.read p hp (1 + d.entries.length) _ (inspected_pass h.sees hc ?_))
  rw [Nat.zero_add, Volume.inspected, hf]
  exact List.mem_cons.mpr (.inl hdir.symm)

theorem Named.no_marker {name : List UInt8} (h : Named name p es) : .last ∉ es := by
  induction h with
  | done => exact List.not_mem_nil
  | more _ _ _ ih => simpa using ih

theorem Listed.no_marker {fs : List FileSet} (h : Listed fs es) : .last ∉ es := by
  induction h with
  | nil => exact List.not_mem_nil
  | other _ ih => simpa using ih
  | set _ hn _ ih => simpa using ⟨hn.no_marker,ih⟩

theorem fullDir_no_marker : .last ∉ fullDir.entries := fun h => by
  rw [fullDir] at h
  cases List.eq_of_mem_replicate h

/-- Cluster 4 is the whole directory. A lookup goes on in cluster 5, and so does `exfat_read_dir`, which
returns entry 16 from there. -/
theorem dir_scans_leave_directory : fullDir.OnDisk fullVolume ∧ .last ∉ fullDir.entries ∧ fullDir.clusters = [4] ∧
    5 ∈ fullVolume.inspected 0 (walkEntry [97]) 17 0 ⟨0,4⟩ .init ∧
    (∃ r, exfatReadDirAt fullVolume 17 4 0 0 = .ok (r,17)) ∧ ¬ fullDir.Confined fullVolume := by
  have hin : 5 ∈ fullVolume.inspected 0 (walkEntry [97]) 17 0 ⟨0,4⟩ .init := by decide +kernel
  refine ⟨fullDir_onDisk,fullDir_no_marker,rfl,hin,⟨_,rfl⟩,fun h => ?_⟩
  exact absurd (h.walk [97] 17 5 hin) (by decide)

theorem dir_scans_confined_two_files : (smallDir false).Confined (smallVolume false) :=
  (dir_scans_confined_iff (smallDir_onDisk false) (smallDir_listed false).no_marker).mpr (.inl (by decide))

/-! ## To the end -/

/-- Cluster `n` of the chain is its end, or has an end marker. -/
def Volume.EndsAt (v : Volume) (useFat head n : ℕ) : Prop :=
  v.chain useFat head n = fatEnd ∨ ∃ j < v.entryPerclus, v.entry (v.chain useFat head n) j = .last

theorem Volume.EndsAt.scanEnds (h : v.EndsAt useFat head n) (hper : 0 < v.entryPerclus) :
    ∃ i, ScanEnds v useFat i (v.track useFat head i) := by
  rcases h with he | ⟨j,hj,hl⟩
  · refine ⟨v.entryPerclus * n,.inl ?_⟩
    rw [fetch_track, if_pos ⟨Nat.mul_mod_right _ _,by rwa [Nat.mul_div_cancel_left _ hper]⟩]
  · have hdiv : (v.entryPerclus * n + j) / v.entryPerclus = n := by
      rw [Nat.mul_add_div hper, Nat.div_eq_of_lt hj, Nat.add_zero]
    have hmod : (v.entryPerclus * n + j) % v.entryPerclus = j := by
      rw [Nat.mul_add_mod, Nat.mod_eq_of_lt hj]
    refine ⟨v.entryPerclus * n + j,?_⟩
    rw [ScanEnds, fetch_track]
    split
    · exact .inl rfl
    · refine .inr ⟨_,rfl,?_⟩
      rw [Volume.track, hdiv, hmod]
      exact hl

theorem ScanEnds.endsAt (h : ScanEnds v useFat i (v.track useFat head i)) (hper : 0 < v.entryPerclus) :
    ∃ n, v.EndsAt useFat head n := by
  refine ⟨i / v.entryPerclus,?_⟩
  rw [ScanEnds, fetch_track] at h
  split at h
  · rename_i he
    exact .inl he.2
  · obtain h | ⟨cur',hc,hl⟩ := h
    · cases h
    · cases hc
      exact .inr ⟨_,Nat.mod_lt _ hper,hl⟩

theorem Volume.EndsAt.runs (h : v.EndsAt useFat head n) (hper : 0 < v.entryPerclus) :
    ∃ n, ScanRuns v useFat (v.track useFat head) n := by
  classical
  have hex := h.scanEnds hper
  refine ⟨Nat.find hex,fun i hi => ?_,Nat.find_spec hex⟩
  have hno := Nat.find_min hex hi
  rw [ScanEnds, fetch_track] at hno
  rw [fetch_track]
  split at hno
  · exact absurd (.inl rfl) hno
  · rename_i he
    rw [if_neg he]

theorem parse_nameLen {f : ℕ → UInt8} {flags len valid first : ℕ}
    (h : DirEntry.parse f = .stream flags len valid first) : len < 256 := by
  have hlt : member f 3 1 < 256 := by
    simpa [member,ofBytes] using (f 3).toNat_lt
  rw [DirEntry.parse] at h
  split at h
  · cases h
  · split at h
    · cases h
    · split at h
      · cases h
        exact hlt
      · split at h <;> cases h

theorem walkEntry_long {name : List UInt8} {s : WalkState} {c j : ℕ} (hname : 255 < name.length) (hs : s.fnLen < 256)
    (he : v.entry c j ≠ .last) : ∃ t, walkEntry name i s (v.entry c j) = .inl t ∧ t.fnLen < 256 := by
  cases hentry : v.entry c j with
  | last => exact absurd hentry he
  | file attr => exact ⟨_,rfl,hs⟩
  | stream flags len valid first => exact ⟨_,rfl,parse_nameLen hentry⟩
  | name u =>
    rw [walkEntry]
    simp only
    rw [if_neg (by omega)]
    exact ⟨_,rfl,hs⟩
  | other => exact ⟨_,rfl,hs⟩

/-- Looking up such a name, a scan only returns at an end of the chain. -/
theorem scanDir_long {name : List UInt8} {s : WalkState} {res : Option DirFile} (hname : 255 < name.length)
    (hs : s.fnLen < 256)
    (hr : v.scanDir useFat (walkEntry name) (fun _ => none) fuel i (v.track useFat head i) s = .ok res) :
    res = none ∧ ∃ j, ScanEnds v useFat j (v.track useFat head j) := by
  induction fuel generalizing i s with
  | zero => cases hr
  | succ fuel ih =>
    rw [Volume.scanDir] at hr
    cases hf : v.fetch useFat i (v.track useFat head i) with
    | none =>
      rw [hf] at hr
      cases hr
      exact ⟨rfl,i,.inl hf⟩
    | some cur =>
      rw [hf] at hr
      simp only at hr
      by_cases hl : v.entry cur.dir (i % v.entryPerclus) = .last
      · rw [hl] at hr
        cases hr
        exact ⟨rfl,i,.inr ⟨cur,hf,hl⟩⟩
      · obtain ⟨t,ht,hlen⟩ := walkEntry_long (i := i) hname hs hl
        rw [ht] at hr
        have hcur : cur = v.track useFat head (i+1) := by
          rw [fetch_track] at hf
          split at hf
          · cases hf
          · exact (Option.some.inj hf).symm
        subst hcur
        exact ih hlen hr

theorem seek_lt {ptr c : ℕ} (hn : ptr ≤ n) : (v.seek useFat n ptr c).1 < v.clusSize := by
  have hpos := v.clusSize_pos
  induction n generalizing ptr c with
  | zero =>
    rw [Volume.seek]
    omega
  | succ n ih =>
    rw [Volume.seek]
    split
    · exact ih (by omega)
    · omega

theorem copyOut_returns {sz ptr : ℕ} (c : ℕ) (dst : List UInt8) (hf : sz ≤ fuel) (hptr : ptr < v.clusSize) :
    ∃ bs, v.copyOut useFat fuel sz ptr c dst = .ok bs := by
  induction fuel generalizing sz ptr c dst with
  | zero =>
    obtain rfl : sz = 0 := by omega
    exact ⟨dst,copyOut_nothing⟩
  | succ fuel ih =>
    rw [Volume.copyOut]
    split
    · exact ⟨dst,rfl⟩
    · exact ih _ _ (by omega) v.clusSize_pos

/-- The loops of `exfat_read_file` come to an end. -/
structure ReadFileEnds (v : Volume) (sz : ℕ) (f : FileDesc) : Prop where
  seek : ∀ ptr, ptr = (BitVec.ofNat 32 f.readPtr).toInt.toNat →
    (v.seek f.useFat ptr ptr f.headCluster).1 < v.clusSize
  copy : exfatReadFileAt v sz f ≠ .error .hang

theorem readFileEnds (v : Volume) (sz : ℕ) (f : FileDesc) : ReadFileEnds v sz f := by
  refine ⟨fun ptr _ => seek_lt le_rfl,fun h => ?_⟩
  rw [exfatReadFileAt] at h
  split at h
  · cases h
  · obtain ⟨bs,hbs⟩ : ∃ bs, v.copyOut f.useFat (readLen sz f) (readLen sz f) _ _ [] = .ok bs :=
      copyOut_returns _ _ le_rfl (seek_lt le_rfl)
    rw [hbs] at h
    cases h

/-- The three walks over the chain from `head` on come to an end: looking up any name, reading a
directory from any position reached, and reading a file. -/
structure Volume.WalksEnd (v : Volume) (useFat head : ℕ) : Prop where
  walkDir : ∀ name isDir len, ∃ fuel res, exfatWalkDir v fuel name ⟨head,useFat,isDir,len⟩ = .ok res
  readDir : ∀ p, ReadPtr v head useFat p → ∃ fuel res, exfatReadDirAt v fuel head useFat p = .ok res
  readFile : ∀ sz f, f.headCluster = head → f.useFat = useFat → ReadFileEnds v sz f

theorem chain_contiguous (h : head + n < 2^32) : v.chain 0 head n = head + n := by
  induction n with
  | zero => rfl
  | succ n ih =>
    rw [Volume.chain_succ, ih (by omega), Volume.after, if_neg (by simp), Nat.mod_eq_of_lt (by omega), Nat.add_assoc]

/-- A contiguous run of clusters arrives at the number of the end of a chain. -/
theorem contiguous_ends (hhead : head < 2^32) : ∃ n, v.EndsAt 0 head n := by
  refine ⟨2^32 - 1 - head,.inl ?_⟩
  rw [chain_contiguous (by omega), fatEnd]
  omega

/-- Cluster 4 follows itself in the FAT and is full of deleted entries. -/
def loopVolume : Volume := { fullVolume with fat := fun _ => 4 }

theorem loopVolume_chain (n : ℕ) : loopVolume.chain 1 4 n = 4 := Function.iterate_fixed rfl n

end Ukern
