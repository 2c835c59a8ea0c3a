import Ukern.Kernel.Exfat
import Ukern.Lib.Scan
import Mathlib.Logic.Function.Iterate

/-! # Directories on the disk

Both scanners run over the clusters of a directory in the same way. What they come across is the
list of its entries, and then an end marker, the end of a FAT chain or, for a contiguous directory
without a free entry, whatever lies in the cluster behind it.
-/
namespace Ukern
open Lib
variable {v : Volume} {useFat head i n fuel : ℕ} {cur cur' cur'' : DirCursor} {es es' : List DirEntry} {e : DirEntry}

/-- From entry `i` on a scan comes across `es`. -/
inductive Sees (v : Volume) (useFat : ℕ) : ℕ → DirCursor → List DirEntry → DirCursor → Prop
  | nil {i : ℕ} {cur : DirCursor} : Sees v useFat i cur [] cur
  | cons {i : ℕ} {cur cur' cur'' : DirCursor} {es : List DirEntry} (hf : v.fetch useFat i cur = some cur')
      (hs : Sees v useFat (i+1) cur' es cur'') :
      Sees v useFat i cur (v.entry cur'.dir (i % v.entryPerclus) :: es) cur''

theorem Sees.append (h : Sees v useFat i cur es cur') (h' : Sees v useFat (i + es.length) cur' es' cur'') :
    Sees v useFat i cur (es ++ es') cur'' := by
  induction h with
  | nil => exact h'
  | cons hf hs ih =>
    refine .cons hf (ih ?_)
    rw [List.length_cons] at h'
    rwa [Nat.add_right_comm, Nat.add_assoc]

/-- The scan is over at entry `i`. -/
def ScanEnds (v : Volume) (useFat i : ℕ) (cur : DirCursor) : Prop :=
  v.fetch useFat i cur = none ∨
    ∃ cur', v.fetch useFat i cur = some cur' ∧ v.entry cur'.dir (i % v.entryPerclus) = .last

section Scan
variable {σ ρ : Type} {step : ℕ → σ → DirEntry → σ ⊕ ρ} {last : σ → ρ} {s t : σ} {r r' : ρ}

theorem scanDir_mono (h : v.scanDir useFat step last fuel i cur s = .ok r) :
    v.scanDir useFat step last (fuel+1) i cur s = .ok r := by
  induction fuel generalizing i cur s with
  | zero => cases h
  | succ fuel ih =>
    rw [Volume.scanDir] at h ⊢
    cases hf : v.fetch useFat i cur with
    | none =>
      rw [hf] at h
      exact h
    | some cur' =>
      rw [hf] at h
      simp only at h ⊢
      cases hs : step i s (v.entry cur'.dir (i % v.entryPerclus)) with
      | inl t =>
        rw [hs] at h
        exact ih h
      | inr t =>
        rw [hs] at h
        exact h

theorem scanDir_le {n : ℕ} (h : v.scanDir useFat step last fuel i cur s = .ok r) (hn : fuel ≤ n) :
    v.scanDir useFat step last n i cur s = .ok r := by
  induction hn with
  | refl => exact h
  | step _ ih => exact scanDir_mono ih

theorem scanDir_unique {n : ℕ} (h : v.scanDir useFat step last fuel i cur s = .ok r)
    (h' : v.scanDir useFat step last n i cur s = .ok r') : r = r' := by
  have h1 := scanDir_le h (Nat.le_max_left fuel n)
  rw [scanDir_le h' (Nat.le_max_right fuel n)] at h1
  exact (Except.ok.inj h1).symm

/-- A scan does what its body does with the entries it comes across. -/
theorem scanDir_stop (h : Sees v useFat i cur es cur') (hc : consume step i s es = .inr r) (hn : es.length ≤ fuel) :
    v.scanDir useFat step last fuel i cur s = .ok r := by
  induction h generalizing s fuel with
  | nil => cases hc
  | cons hf _ ih =>
    cases fuel with
    | zero => simp at hn
    | succ fuel =>
      rw [consume] at hc
      rw [Volume.scanDir, hf]
      simp only
      split at hc
      · rename_i hs
        rw [hs]
        exact ih hc (by simpa using hn)
      · rename_i hs
        cases hc
        rw [hs]

theorem scanDir_pass (h : Sees v useFat i cur es cur') (hc : consume step i s es = .inl t) :
    v.scanDir useFat step last (fuel + es.length) i cur s =
      v.scanDir useFat step last fuel (i + es.length) cur' t := by
  induction h generalizing s with
  | nil =>
    cases hc
    rfl
  | cons hf _ ih =>
    rw [consume] at hc
    rw [List.length_cons, ← Nat.add_assoc, Volume.scanDir, hf]
    simp only
    split at hc
    · rename_i hs
      rw [hs]
      simp only
      rw [ih hc, Nat.add_right_comm]
      rfl
    · cases hc

theorem scanDir_end (h : Sees v useFat i cur es cur') (he : ScanEnds v useFat (i + es.length) cur')
    (hc : consume step i s es = .inl t) (hlast : step (i + es.length) t .last = .inr (last t))
    (hn : es.length < fuel) : v.scanDir useFat step last fuel i cur s = .ok (last t) := by
  obtain ⟨n,rfl⟩ : ∃ n, fuel = n + 1 + es.length := ⟨fuel - 1 - es.length,by omega⟩
  rw [scanDir_pass h hc, Volume.scanDir]
  rcases he with hf | ⟨cur'',hf,hl⟩
  · rw [hf]
  · rw [hf]
    simp only [hl,hlast]

end Scan

/-- The clusters that follow one another from `head` on. -/
def Volume.chain (v : Volume) (useFat head n : ℕ) : ℕ := (v.after useFat)^[n] head

theorem Volume.chain_succ : v.chain useFat head (n+1) = v.after useFat (v.chain useFat head n) :=
  Function.iterate_succ_apply' ..

/-- Where a scan from `head` stands before entry `i`. -/
def Volume.track (v : Volume) (useFat head : ℕ) : ℕ → DirCursor
  | 0 => ⟨0,head⟩
  | i+1 => ⟨v.chain useFat head (i / v.entryPerclus),v.chain useFat head (i / v.entryPerclus + 1)⟩

theorem fetch_track : v.fetch useFat i (v.track useFat head i) =
    if i % v.entryPerclus = 0 ∧ v.chain useFat head (i / v.entryPerclus) = fatEnd then none
    else some (v.track useFat head (i+1)) := by
  rw [Volume.fetch]
  by_cases hm : i % v.entryPerclus = 0
  · have hid : (v.track useFat head i).clusId = v.chain useFat head (i / v.entryPerclus) := by
      cases i with
      | zero => rw [Nat.zero_div]; rfl
      | succ i => rw [Nat.succ_div_of_dvd (Nat.dvd_of_mod_eq_zero hm)]; rfl
    rw [if_pos hm, hid]
    by_cases he : v.chain useFat head (i / v.entryPerclus) = fatEnd
    · rw [if_pos he, if_pos ⟨hm,he⟩]
    · rw [if_neg he, if_neg fun h => he h.2, Volume.track, Volume.chain_succ]
  · rw [if_neg hm, if_neg fun h => hm h.1]
    cases i with
    | zero => exact absurd (Nat.zero_mod _) hm
    | succ i =>
      have hdiv : (i+1) / v.entryPerclus = i / v.entryPerclus :=
        Nat.succ_div_of_not_dvd fun hd => hm (Nat.mod_eq_zero_of_dvd hd)
      rw [Volume.track, Volume.track, hdiv]

/-- A directory: its clusters, whether they are linked in the FAT, and its entries before the end
marker. -/
structure Directory where
  perClus : ℕ
  clusters : List ℕ
  useFat : ℕ
  entries : List DirEntry

namespace Directory
variable {d : Directory}

def cluster (d : Directory) (j : ℕ) : ℕ := d.clusters.getD j 0

/-- There is room behind the last entry, and so an end marker. -/
def Marked (d : Directory) : Prop := d.entries.length < d.perClus * d.clusters.length

/-- The volume holds the directory: valid clusters in a chain or in a row, and its entries in them. -/
structure OnDisk (d : Directory) (v : Volume) : Prop where
  per : v.entryPerclus = d.perClus
  pos : 0 < d.perClus
  nonempty : 0 < d.clusters.length
  valid : ∀ j < d.clusters.length, 2 ≤ d.cluster j ∧ d.cluster j ≤ 0xFFFFFFF6
  link : ∀ j, j + 1 < d.clusters.length → v.after d.useFat (d.cluster j) = d.cluster (j+1)
  final : d.useFat ≠ 0 → v.fat (d.cluster (d.clusters.length - 1)) = fatEnd
  fits : d.entries.length ≤ d.perClus * d.clusters.length
  entry : ∀ i (h : i < d.entries.length), v.entry (d.cluster (i / d.perClus)) (i % d.perClus) = d.entries[i]
  marker : d.Marked →
    v.entry (d.cluster (d.entries.length / d.perClus)) (d.entries.length % d.perClus) = .last

/-- Where a scan stands before it fetches entry `i`. -/
def cursor (d : Directory) (v : Volume) : ℕ → DirCursor
  | 0 => ⟨0,d.cluster 0⟩
  | i+1 => ⟨d.cluster (i / d.perClus),v.after d.useFat (d.cluster (i / d.perClus))⟩

theorem OnDisk.chain (h : d.OnDisk v) {j : ℕ} (hj : j < d.clusters.length) :
    v.chain d.useFat (d.cluster 0) j = d.cluster j := by
  induction j with
  | zero => rfl
  | succ j ih => rw [Volume.chain_succ, ih (by omega), h.link j hj]

theorem OnDisk.cursor_eq (h : d.OnDisk v) (hi : i ≤ d.perClus * d.clusters.length) :
    d.cursor v i = v.track d.useFat (d.cluster 0) i := by
  cases i with
  | zero => rfl
  | succ i => rw [cursor, Volume.track, Volume.chain_succ, h.per, h.chain (Nat.div_lt_of_lt_mul hi)]

theorem OnDisk.fetch (h : d.OnDisk v) (hi : i < d.perClus * d.clusters.length) :
    v.fetch d.useFat i (d.cursor v i) = some (d.cursor v (i+1)) := by
  have hj : i / d.perClus < d.clusters.length := Nat.div_lt_of_lt_mul hi
  rw [h.cursor_eq hi.le, h.cursor_eq hi, fetch_track, if_neg]
  rintro ⟨-,hend⟩
  have hval := (h.valid _ hj).2
  rw [h.per, h.chain hj, fatEnd] at hend
  omega

theorem OnDisk.sees_drop (h : d.OnDisk v) (hi : i ≤ d.entries.length) :
    Sees v d.useFat i (d.cursor v i) (d.entries.drop i) (d.cursor v d.entries.length) := by
  induction hn : d.entries.length - i generalizing i with
  | zero =>
    have : i = d.entries.length := by omega
    subst this
    rw [List.drop_length]
    exact .nil
  | succ n ih =>
    have hlt : i < d.entries.length := by omega
    rw [List.drop_eq_getElem_cons hlt, ← h.entry i hlt, ← h.per]
    have hf := h.fetch (hlt.trans_le h.fits)
    have hs := Sees.cons hf (ih (by omega) (by omega))
    rw [cursor] at hs
    rw [h.per] at hs ⊢
    exact hs

theorem OnDisk.sees (h : d.OnDisk v) :
    Sees v d.useFat 0 ⟨0,d.cluster 0⟩ d.entries (d.cursor v d.entries.length) := h.sees_drop (Nat.zero_le _)

/-- Behind a directory without a free entry the next cluster is due. -/
theorem OnDisk.full (h : d.OnDisk v) (hm : ¬ d.Marked) : d.entries.length % d.perClus = 0 ∧
    d.cursor v d.entries.length =
      ⟨d.cluster (d.clusters.length - 1),v.after d.useFat (d.cluster (d.clusters.length - 1))⟩ := by
  have hfull : d.entries.length = d.perClus * d.clusters.length := le_antisymm h.fits (Nat.le_of_not_lt hm)
  refine ⟨by rw [hfull, Nat.mul_mod_right],?_⟩
  obtain ⟨n,hn⟩ : ∃ n, d.entries.length = n + 1 :=
    Nat.exists_eq_succ_of_ne_zero (by rw [hfull]; exact (Nat.mul_pos h.pos h.nonempty).ne')
  have hdiv : n / d.perClus = d.clusters.length - 1 := by
    obtain ⟨l,hl⟩ := Nat.exists_eq_succ_of_ne_zero h.nonempty.ne'
    have hpos := h.pos
    rw [hl, Nat.succ_eq_add_one, Nat.mul_add, Nat.mul_one] at hfull
    rw [show n = d.perClus * l + (d.perClus - 1) by omega, Nat.mul_add_div hpos,
      Nat.div_eq_of_lt (by omega), hl, Nat.add_zero, Nat.succ_sub_one]
  rw [hn, cursor, hdiv]

theorem OnDisk.ended (h : d.OnDisk v) (he : d.useFat ≠ 0 ∨ d.Marked) :
    ScanEnds v d.useFat d.entries.length (d.cursor v d.entries.length) := by
  by_cases hm : d.Marked
  · refine .inr ⟨_,h.fetch hm,?_⟩
    rw [h.per]
    exact h.marker hm
  · obtain ⟨hmod,hcur⟩ := h.full hm
    have hu := he.resolve_right hm
    refine .inl ?_
    rw [Volume.fetch, h.per, if_pos hmod, hcur, if_pos]
    rw [Volume.after, if_pos hu]
    exact h.final hu

end Directory
end Ukern
