import Ukern.Memory.Load
import Ukern.Memory.Fault

/-! # What `load_img` leaves in memory

The loader maps a fresh page at the first byte of a segment and at each page boundary, whatever the
table holds there. A segment is therefore described by the pages it maps, in order, and by the
bytes it has stored; two segments that meet in a page undo each other.
-/
namespace Ukern
open Lib Lib.Radix
variable {m m' m₀ m₁ m₂ s : Phys} {a b va k l n src fileend base : ℕ} {img : Img} {pte : Option (ℕ × ℕ)}
  {new keys keys' : List ℕ} {ph : Phdr} {phs : List Phdr}

/-! ## The pages of a range -/

/-- The page number of byte `k` behind `va`. -/
def pageAt (va k : ℕ) : ℕ := (va + k) / pgsize % 512^4

/-- The pages of `n` bytes from `va`, each at its first byte. -/
def pagesOf (va n : ℕ) : List ℕ :=
  ((List.range n).filter fun k => k = 0 ∨ (va + k) % pgsize = 0).map (pageAt va)

theorem pageAt_lt (va k : ℕ) : pageAt va k < 512 * 512^3 := Nat.mod_lt _ (by decide)

theorem key_pageAt (va k : ℕ) : key 3 ((va + k) % 2^64) = pageAt va k := by
  unfold key pageAt pgsize
  omega

theorem key_pageAt_floor (va k : ℕ) : key 3 ((va + k) % 2^64 / pgsize * pgsize) = pageAt va k := by
  rw [← key_pageAt, key, key, Nat.mul_div_cancel _ (by decide)]

theorem pagesOf_succ (va k : ℕ) : pagesOf va (k+1) =
    pagesOf va k ++ if k = 0 ∨ (va + k) % pgsize = 0 then [pageAt va k] else [] := by
  unfold pagesOf
  rw [List.range_succ, List.filter_append, List.map_append, List.filter_singleton]
  split <;> simp_all

theorem mem_pagesOf {j : ℕ} : j ∈ pagesOf va n ↔ ∃ k < n, pageAt va k = j := by
  simp only [pagesOf,List.mem_map,List.mem_filter,List.mem_range,decide_eq_true_eq]
  constructor
  · rintro ⟨k,⟨hk,-⟩,rfl⟩
    exact ⟨k,hk,rfl⟩
  · rintro ⟨k,hk,rfl⟩
    -- the first byte of the page of `k`, or of the range
    by_cases hfirst : (va + k) / pgsize * pgsize ≤ va
    · refine ⟨0,⟨by omega,.inl rfl⟩,?_⟩
      unfold pageAt pgsize at *
      omega
    · refine ⟨(va + k) / pgsize * pgsize - va,⟨?_,.inr ?_⟩,?_⟩ <;> unfold pageAt pgsize at * <;> omega

/-- Bytes of a range that fits the address space: on one page only if at most a page apart. -/
theorem pageAt_inj (hfit : va % pgsize + n ≤ 2^48) (hk : k < n) (hl : l < n) (h : pageAt va k = pageAt va l) :
    (va + k) / pgsize = (va + l) / pgsize := by
  unfold pageAt pgsize at *
  omega

/-! ## Pages placed in a table -/

/-- The byte at `v`, as the table below `a` maps it. -/
def byteAt (m : Phys) (a v : ℕ) : UInt8 := m.data (entry m a (key 3 v)).frame (v % pgsize)

theorem byteAt_full {f : ℕ} (h : entry m a (pageAt va k) = .full f) :
    byteAt m a (va + k) = m.data f ((va + k) % pgsize) := by
  have hkey : key 3 (va + k) = pageAt va k := rfl
  rw [byteAt, hkey, h, Pte.full_frame]

/-- Fresh pages were mapped at `keys` since `s`, in this order. A page is lost where an entry was in
use already. -/
structure Placed (m₀ s m : Phys) (a b : ℕ) (keys : List ℕ) : Prop where
  build : ∃ new, Build m₀ m a b new
  free : ∀ x ∈ m.free, x ∈ s.free
  data : ∀ x ∉ s.free, m.data x = s.data x
  lt : ∀ j ∈ keys, j < 512 * 512^3
  unused : ∀ j < 512 * 512^3, j ∉ keys → entry m a j = entry s a j
  used : ∀ j ∈ keys, ∃ f ∈ s.free, entry m a j = .full f
  lost : ∃ lost : ℕ → ℕ, (∀ x, tally m a x + lost x = tally s a x) ∧
    (∀ x, lost x ≠ 0 → x ∈ s.free ∨ ∃ j < 512 * 512^3, entry s a j = .full x) ∧
    ((∀ x, lost x = 0) ↔ keys.Nodup ∧ ∀ j ∈ keys, entry s a j = .zero)

theorem Pte.full_ne_zero (f : ℕ) : Pte.full f ≠ .zero := fun h => by
  have := Pte.full_p f
  rw [h] at this
  simp at this

namespace Placed

theorem refl (h : Build m₀ m a b new) : Placed m₀ m m a b [] where
  build := ⟨new,h⟩
  free _ h := h
  data _ _ := rfl
  lt _ h := absurd h List.not_mem_nil
  unused _ _ _ := rfl
  used _ h := absurd h List.not_mem_nil
  lost := ⟨fun _ => 0,fun _ => Nat.add_zero _,fun _ h => absurd rfl h,by simp⟩

theorem of_mapped {v f : ℕ} (h : Build m₀ m a b new) (hM : Mapped m₀ m m' a b v f keys') :
    Placed m₀ m m' a b [key 3 v] := by
  refine ⟨⟨_,hM.build⟩,hM.free,hM.data,?_,fun j hj hne => ?_,fun j hj => ?_,fun x => (entry m a (key 3 v)).hit x,
    hM.tally_eq,fun x hx => .inr ⟨key 3 v,key_lt 3 v,?_⟩,?_⟩
  · rintro j hj
    rw [List.mem_singleton.mp hj]
    exact key_lt 3 v
  · rw [hM.entry_eq j hj, if_neg (by simpa using hne)]
  · obtain rfl := List.mem_singleton.mp hj
    exact ⟨f,hM.fresh,by rw [hM.entry_eq _ (key_lt 3 v), if_pos rfl]⟩
  · beta_reduce at hx
    rcases h.leaf _ (key_lt 3 v) with he | ⟨g,he⟩
    · rw [he, Pte.hit_zero] at hx
      exact absurd rfl hx
    · rw [he, Pte.full_hit] at hx
      rw [he, (ite_ne_right_iff.mp hx).1]
  · simp only [List.nodup_singleton,true_and,List.mem_singleton,forall_eq]
    constructor
    · intro h0
      rcases h.leaf _ (key_lt 3 v) with he | ⟨g,he⟩
      · exact he
      · have := h0 g
        rw [he, Pte.full_hit, if_pos rfl] at this
        cases this
    · intro he x
      rw [he, Pte.hit_zero]

theorem zero_iff (h : Placed m₀ s m a b keys) {j : ℕ} (hj : j < 512 * 512^3) :
    entry m a j = .zero ↔ j ∉ keys ∧ entry s a j = .zero := by
  by_cases hmem : j ∈ keys
  · obtain ⟨f,-,he⟩ := h.used j hmem
    simp [he,hmem,Pte.full_ne_zero]
  · simp [h.unused j hj hmem,hmem]

theorem trans (h : Placed m₀ s m a b keys) (h' : Placed m₀ m m' a b keys') :
    Placed m₀ s m' a b (keys ++ keys') where
  build := h'.build
  free x hx := h.free x (h'.free x hx)
  data x hx := (h'.data x fun hf => hx (h.free x hf)).trans (h.data x hx)
  lt j hj := (List.mem_append.mp hj).elim (h.lt j) (h'.lt j)
  unused j hj hne := by
    rw [List.mem_append, not_or] at hne
    rw [h'.unused j hj hne.2, h.unused j hj hne.1]
  used j hj := by
    by_cases hmem : j ∈ keys'
    · obtain ⟨f,hf,he⟩ := h'.used j hmem
      exact ⟨f,h.free f hf,he⟩
    · have hk := (List.mem_append.mp hj).resolve_right hmem
      rw [h'.unused j (h.lt j hk) hmem]
      exact h.used j hk
  lost := by
    obtain ⟨lost,hl,hsub,hl0⟩ := h.lost
    obtain ⟨lost',hl',hsub',hl0'⟩ := h'.lost
    refine ⟨fun x => lost x + lost' x,fun x => ?_,fun x hx => ?_,?_⟩
    · rw [← hl x, ← hl' x]
      beta_reduce
      omega
    · beta_reduce at hx
      by_cases hx' : lost' x = 0
      · exact hsub x (by omega)
      rcases hsub' x hx' with hf | ⟨j,hj,he⟩
      · exact .inl (h.free x hf)
      by_cases hmem : j ∈ keys
      · obtain ⟨f,hf,he'⟩ := h.used j hmem
        rw [he] at he'
        cases he'
        exact .inl hf
      · exact .inr ⟨j,hj,by rw [← h.unused j hj hmem, he]⟩
    have hzero : (∀ j ∈ keys', entry m a j = .zero) ↔ (∀ j ∈ keys', j ∉ keys) ∧ ∀ j ∈ keys', entry s a j = .zero := by
      rw [← forall₂_and]
      exact forall₂_congr fun j hj => h.zero_iff (h'.lt j hj)
    simp only [Nat.add_eq_zero_iff,forall_and,hl0,hl0',hzero,List.nodup_append',List.mem_append,or_imp,List.disjoint_right]
    tauto

theorem setByte {pa : ℕ} {x : UInt8} (h : Placed m₀ s m a b keys) (hB : Build m₀ m a b new) (hnew : pa / pgsize ∈ new)
    (hpa : pa / pgsize ∈ s.free) : Placed m₀ s (m.setByte pa x) a b keys :=
  ⟨⟨new,hB.setByte hnew⟩,h.free,
    fun y hy => (Function.update_of_ne (by rintro rfl; exact hy hpa) ..).trans (h.data y hy),
    h.lt,h.unused,h.used,h.lost⟩

/-- From an empty table: every page taken is in use exactly if none was lost. -/
theorem kept_iff (h : Placed m₀ s m a b keys) (hB : Build m₀ s a b new) (hnodup : m₀.free.Nodup)
    (hs : ∀ j < 512 * 512^3, entry s a j = .zero) :
    (∀ x ∈ s.free, x ∉ m.free → 0 < pages Pte.link 512 m.tbl 3 512 a x + mapsAll m a x) ↔ keys.Nodup := by
  obtain ⟨lost,hl,hsub,hl0⟩ := h.lost
  have htally : ∀ x ∈ s.free, tally s a x = 1 := fun x hx => by
    have h1 := (hB.table hnodup).fresh x hx
    have h2 : mapsAll s a x = 0 := by
      rw [mapsAll_eq]
      exact Finset.sum_eq_zero fun j hj => by rw [hs j (Finset.mem_range.mp hj), Pte.hit_zero]
    rw [tally, h1, h2, List.count_eq_one_of_mem (hB.nodup hnodup).2.1 hx]
  have hnd : (∀ x, lost x = 0) ↔ keys.Nodup :=
    hl0.trans (and_iff_left fun j hj => hs j (h.lt j hj))
  rw [← hnd]
  constructor
  · intro hkept x
    by_contra hx
    have hf : x ∈ s.free := by
      rcases hsub x hx with hf | ⟨j,hj,he⟩
      · exact hf
      · exact absurd (by rw [← he, hs j hj]) (Pte.full_ne_zero x)
    have h1 := hl x
    rw [htally x hf, tally] at h1
    have := hkept x hf fun hm => by
      have := List.count_pos_iff.mpr hm
      omega
    omega
  · intro h0 x hf hm
    have h1 := hl x
    rw [htally x hf, h0 x, tally, List.count_eq_zero_of_not_mem hm] at h1
    omega

end Placed

/-! ## One segment -/

/-- The image lies on pages that are not free. -/
def Still (img : Img) (m₀ : Phys) : Prop := ∀ m : Phys, (∀ x ∉ m₀.free, m.data x = m₀.data x) → img m = img m₀

theorem Build.img_eq (h : Build m₀ m a b new) (hstill : Still img m₀) : img m = img m₀ :=
  hstill m fun x hx => h.grow.data x fun hn => hx (h.grow.new_free hn)

/-- Byte `l` of a segment: from the image up to `fileend`, zero behind it. -/
def SegByte (img : Img) (m : Phys) (src fileend l : ℕ) (x : UInt8) : Prop :=
  if src + l ≤ fileend then img m (src + l) = .ok x else x = 0

/-- Byte `l` is in place. -/
def SegStored (img : Img) (m₀ : Phys) (a va src fileend : ℕ) (m : Phys) (l : ℕ) : Prop :=
  ∃ f x, entry m a (pageAt va l) = .full f ∧ m.data f ((va + l) % pgsize) = x ∧ SegByte img m₀ src fileend l x

/-- The loop has stored `k` bytes of a segment since `s`. -/
structure SegPart (img : Img) (m₀ s : Phys) (a b va src fileend k : ℕ) (m : Phys) (pte : Option (ℕ × ℕ)) : Prop where
  placed : Placed m₀ s m a b (pagesOf va k)
  none : k = 0 → pte = none
  cur : 0 < k → ∃ t i f, pte = some (t,i) ∧ m.tbl t i = .full f ∧ entry m a (pageAt va (k-1)) = .full f ∧
    f ∈ s.free ∧ ∀ o, (va + (k-1)) % pgsize < o → o < pgsize → m.data f o = 0
  bytes : va % pgsize + k ≤ 2^48 → ∀ l < k, SegStored img m₀ a va src fileend m l

/-- The page of byte `k` is there, at `t`, `i`; what has not been stored on it is zero. -/
structure SegReady (img : Img) (m₀ s : Phys) (a b va src fileend k : ℕ) (m : Phys) (t i f : ℕ) : Prop where
  placed : Placed m₀ s m a b (pagesOf va (k+1))
  slot : m.tbl t i = .full f
  entry_eq : entry m a (pageAt va k) = .full f
  fresh : f ∈ s.free
  zero : ∀ o, (va + k) % pgsize ≤ o → o < pgsize → m.data f o = 0
  bytes : va % pgsize + (k+1) ≤ 2^48 → ∀ l < k, SegStored img m₀ a va src fileend m l

theorem loadPage_mapped {v : ℕ} {r : Option (ℕ × ℕ)} (h : Build m₀ m a b new) (hnodup : m₀.free.Nodup)
    (hl : loadPage m a v = .ok (r,m')) :
    ∃ t i f new', r = some (t,i) ∧ m'.tbl t i = .full f ∧ Mapped m₀ m m' a b (v / pgsize * pgsize) f new' := by
  unfold loadPage at hl
  obtain ⟨⟨r,m₁⟩,hw,hl⟩ := bind_eq_ok.mp hl
  obtain ⟨p,i,-,rfl,-⟩ := h.walk hnodup hw
  obtain ⟨⟨pg,m₂⟩,hg,hl⟩ := bind_eq_ok.mp hl
  cases hl
  obtain ⟨p',i',new',hs,hM⟩ := h.map hnodup hw hg
  cases hs
  refine ⟨p,i,pg,new',rfl,?_,hM⟩
  rw [Phys.setEntry_tbl_self, Function.update_self]
  rfl

theorem Build.not_free {j f : ℕ} (h : Build m₀ m a b new) (hnodup : m₀.free.Nodup) (hj : j < 512 * 512^3)
    (he : entry m a j = .full f) : f ∉ m.free := (h.nodup hnodup).2.2 f (h.entry_mem hj he)

theorem Build.entry_inj {j j' f : ℕ} (h : Build m₀ m a b new) (hnodup : m₀.free.Nodup) (hj : j < 512 * 512^3)
    (hj' : j' < 512 * 512^3) (he : entry m a j = .full f) (he' : entry m a j' = .full f) : j = j' := by
  by_contra hne
  have h1 := h.count_le hnodup f
  have h2 := Finset.add_le_sum (f := fun j => (entry m a j).hit f) (fun _ _ => Nat.zero_le _)
    (Finset.mem_range.mpr hj) (Finset.mem_range.mpr hj') hne
  rw [he, he', Pte.full_hit, if_pos rfl, ← mapsAll_eq] at h2
  omega

theorem SegPart.ready {r : Option (ℕ × ℕ)} (h : SegPart img m₀ s a b va src fileend k m pte) (hnodup : m₀.free.Nodup)
    (hl : loadSlot m a pte ((va + k) % 2^64) = .ok (r,m₁)) :
    ∃ t i f, r = some (t,i) ∧ SegReady img m₀ s a b va src fileend k m₁ t i f := by
  obtain ⟨new,hB⟩ := h.placed.build
  have hmod : (va + k) % 2^64 % pgsize = (va + k) % pgsize := Nat.mod_mod_of_dvd _ (by decide)
  unfold loadSlot at hl
  rw [hmod] at hl
  by_cases hpage : k = 0 ∨ (va + k) % pgsize = 0
  · -- the first byte, or a page boundary
    have hcond : pte.isNone = true ∨ (va + k) % pgsize = 0 := hpage.imp (fun h0 => by rw [h.none h0]; rfl) id
    rw [if_pos hcond] at hl
    obtain ⟨t,i,f,new',rfl,hslot,hM⟩ := loadPage_mapped hB hnodup hl
    have hkey := key_pageAt_floor va k
    have hplaced := h.placed.trans (.of_mapped hB hM)
    rw [hkey] at hplaced
    refine ⟨t,i,f,rfl,?_,hslot,?_,h.placed.free f hM.fresh,fun o _ _ => hM.zero o,fun hfit l hlk => ?_⟩
    · rw [pagesOf_succ, if_pos hpage]
      exact hplaced
    · rw [hM.entry_eq _ (pageAt_lt va k), hkey, if_pos rfl]
    · obtain ⟨g,x,he,hd,hx⟩ := h.bytes (by omega) l hlk
      refine ⟨g,x,?_,?_,hx⟩
      · rw [hM.entry_eq _ (pageAt_lt va l), hkey, if_neg fun heq => ?_, he]
        have := pageAt_inj hfit (by omega) (by omega) heq
        unfold pgsize at *
        omega
      · rw [hM.data g (hB.not_free hnodup (pageAt_lt va l) he), hd]
  · obtain ⟨t,i,f,rfl,hslot,he,hf,hz⟩ := h.cur (by omega)
    have hprev : pageAt va (k-1) = pageAt va k := by
      unfold pageAt pgsize at *
      omega
    rw [if_neg (by simpa using fun h0 => hpage (.inr h0))] at hl
    cases hl
    refine ⟨t,i,f,rfl,?_,hslot,hprev ▸ he,hf,fun o ho hlt => hz o ?_ hlt,fun hfit l hlk => h.bytes (by omega) l hlk⟩
    · rw [pagesOf_succ, if_neg hpage, List.append_nil]
      exact h.placed
    · unfold pgsize at *
      omega

theorem SegReady.store {t i f : ℕ} (h : SegReady img m₀ s a b va src fileend k m₁ t i f) (hnodup : m₀.free.Nodup)
    (hstill : Still img m₀)
    (hl : loadByte img m₁ fileend (src + k) ((m₁.tbl t i).frame * pgsize + (va + k) % 2^64 % pgsize) = .ok m₂) :
    SegPart img m₀ s a b va src fileend (k+1) m₂ (some (t,i)) := by
  obtain ⟨new,hB⟩ := h.placed.build
  have hmod : (va + k) % 2^64 % pgsize = (va + k) % pgsize := Nat.mod_mod_of_dvd _ (by decide)
  have hlt : (va + k) % pgsize < pgsize := Nat.mod_lt _ (by decide)
  obtain ⟨hdiv,hoff⟩ := frame_div f hlt
  rw [h.slot, Pte.full_frame, hmod] at hl
  have hzero := h.zero
  unfold loadByte at hl
  split at hl
  · rename_i hle
    obtain ⟨x,hx,hl⟩ := bind_eq_ok.mp hl
    cases hl
    rw [hB.img_eq hstill] at hx
    -- only this byte of the page changes
    have hsame : ∀ g o, g ≠ f ∨ o ≠ (va + k) % pgsize →
        (m₁.setByte (f * pgsize + (va + k) % pgsize) x).data g o = m₁.data g o := fun g o hne => by
      rw [Phys.setByte, hdiv, hoff]
      by_cases hg : g = f
      · subst hg
        simp only [Function.update_self]
        exact Function.update_of_ne (hne.resolve_left (not_not_intro rfl)) ..
      · exact congrFun (Function.update_of_ne hg ..) o
    have hself : (m₁.setByte (f * pgsize + (va + k) % pgsize) x).data f ((va + k) % pgsize) = x := by
      rw [Phys.setByte, hdiv, hoff]
      simp only [Function.update_self]
    refine ⟨h.placed.setByte hB ?_ ?_,fun h0 => absurd h0 (Nat.succ_ne_zero k),fun _ => ⟨t,i,f,rfl,h.slot,h.entry_eq,h.fresh,fun o ho hlt => ?_⟩,
      fun hfit l hlk => ?_⟩
    · rw [hdiv]
      exact hB.entry_mem (pageAt_lt va k) h.entry_eq
    · rw [hdiv]
      exact h.fresh
    · rw [Nat.add_sub_cancel] at ho
      rw [hsame f o (.inr (by omega))]
      exact hzero o (by omega) hlt
    · rcases (Nat.lt_succ_iff.mp hlk).lt_or_eq with hlt' | rfl
      · obtain ⟨g,y,he,hd,hy⟩ := h.bytes hfit l hlt'
        refine ⟨g,y,he,?_,hy⟩
        rw [hsame g _ ?_, hd]
        by_cases hg : g = f
        · -- bytes of one page have different offsets
          refine .inr fun hoff => ?_
          subst hg
          have := pageAt_inj hfit (by omega) (by omega)
            (hB.entry_inj hnodup (pageAt_lt va l) (pageAt_lt va k) he h.entry_eq)
          unfold pgsize at *
          omega
        · exact .inl hg
      · refine ⟨f,x,h.entry_eq,hself,?_⟩
        rw [SegByte, if_pos hle]
        exact hx
  · rename_i hgt
    cases hl
    refine ⟨h.placed,fun h0 => absurd h0 (Nat.succ_ne_zero k),fun _ => ⟨t,i,f,rfl,h.slot,h.entry_eq,h.fresh,fun o ho hlt => ?_⟩,fun hfit l hlk => ?_⟩
    · rw [Nat.add_sub_cancel] at ho
      exact hzero o (by omega) hlt
    · rcases (Nat.lt_succ_iff.mp hlk).lt_or_eq with hlt' | rfl
      · exact h.bytes hfit l hlt'
      · refine ⟨f,0,h.entry_eq,hzero _ le_rfl hlt,?_⟩
        rw [SegByte, if_neg hgt]

theorem loadBytes_part {r : Bool} (h : SegPart img m₀ s a b va src fileend k m pte) (hnodup : m₀.free.Nodup)
    (hstill : Still img m₀) (hl : loadBytes img a fileend n m pte (src + k) ((va + k) % 2^64) = .ok (r,m')) :
    r = true ∧ ∃ pte', SegPart img m₀ s a b va src fileend (k + n) m' pte' := by
  induction n generalizing k m pte with
  | zero =>
    cases hl
    exact ⟨rfl,pte,h⟩
  | succ n ih =>
    unfold loadBytes at hl
    obtain ⟨⟨pte',m₁⟩,hp,hl⟩ := bind_eq_ok.mp hl
    obtain ⟨t,i,f,rfl,hready⟩ := h.ready hnodup hp
    simp only at hl
    obtain ⟨m₂,hm₂,hl⟩ := bind_eq_ok.mp hl
    have hva : ((va + k) % 2^64 + 1) % 2^64 = (va + (k+1)) % 2^64 := by omega
    rw [hva, Nat.add_assoc] at hl
    obtain ⟨hr,pte',hpart⟩ := ih (hready.store hnodup hstill hm₂) hl
    exact ⟨hr,pte',by rwa [show k + (n+1) = k + 1 + n by omega]⟩

/-! ## The segments of an image -/

/-- Address of the first byte of a segment in the image. -/
def Phdr.start (base : ℕ) (ph : Phdr) : ℕ := (base + ph.offset) % 2^64

/-- The bytes that the loop handles: none if the end of the segment is beyond the last address. -/
def Phdr.steps (base : ℕ) (ph : Phdr) : ℕ := (ph.start base + ph.memsz) % 2^64 - ph.start base

/-- The pages of a `PT_LOAD` segment. -/
def Phdr.pages (base : ℕ) (ph : Phdr) : List ℕ := if ph.type = ptLoad then pagesOf ph.vaddr (ph.steps base) else []

/-- One iteration of the segment loop. -/
def loadSeg (img : Img) (base pgtbl : ℕ) (m : Phys) (ph : Phdr) : Except Fault (Bool × Phys) :=
  if ph.type ≠ ptLoad then .ok (true,m)
  else loadBytes img pgtbl ((ph.start base + ph.filesz) % 2^64) (ph.steps base) m none (ph.start base) ph.vaddr

/-- The iterations that load `phs`, one after the other. -/
inductive Loads (img : Img) (base pgtbl : ℕ) : Phys → List Phdr → Phys → Prop
  | nil (m : Phys) : Loads img base pgtbl m [] m
  | cons {m m₁ m' : Phys} {ph : Phdr} {phs : List Phdr} (hseg : loadSeg img base pgtbl m ph = .ok (true,m₁))
      (hrest : Loads img base pgtbl m₁ phs m') : Loads img base pgtbl m (ph :: phs) m'

/-- `n` program headers from `x`. -/
def Img.phdrs (img : Img) (m : Phys) : ℕ → ℕ → Except Fault (List Phdr)
  | 0, _ => .ok []
  | n+1, x => do .ok ((← img.phdr m x) :: (← Img.phdrs img m n (x+56)))

/-- The program headers of an ELF image. -/
def Img.headers (img : Img) (base : ℕ) (m : Phys) : Except Fault (List Phdr) := do
  let phoff ← img.field m (base+32) 8
  let phnum ← img.field m (base+56) 2
  img.phdrs m phnum ((base + phoff) % 2^64)

theorem Img.field_congr {m m' : Phys} (h : img m = img m') (x n : ℕ) : img.field m x n = img.field m' x n := by
  induction n generalizing x with
  | zero => rfl
  | succ n ih => simp only [Img.field,h,ih]

theorem Img.phdr_congr {m m' : Phys} (h : img m = img m') (x : ℕ) : img.phdr m x = img.phdr m' x := by
  simp only [Img.phdr,Img.field_congr h]

theorem Img.phdrs_congr {m m' : Phys} (h : img m = img m') (n x : ℕ) : img.phdrs m n x = img.phdrs m' n x := by
  induction n generalizing x with
  | zero => rfl
  | succ n ih => simp only [Img.phdrs,Img.phdr_congr h,ih]

/-- What one iteration leaves. -/
structure SegDone (img : Img) (base : ℕ) (m₀ m : Phys) (a b : ℕ) (ph : Phdr) (m' : Phys) : Prop where
  placed : Placed m₀ m m' a b (ph.pages base)
  bytes : ph.type = ptLoad → ph.vaddr % pgsize + ph.steps base ≤ 2^48 → ∀ l < ph.steps base,
    SegStored img m₀ a ph.vaddr (ph.start base) ((ph.start base + ph.filesz) % 2^64) m' l

theorem loadSeg_done {r : Bool} (hB : Build m₀ m a b new) (hnodup : m₀.free.Nodup) (hstill : Still img m₀)
    (hva : ph.vaddr < 2^64) (hl : loadSeg img base a m ph = .ok (r,m')) :
    r = true ∧ SegDone img base m₀ m a b ph m' := by
  unfold loadSeg at hl
  split at hl
  · rename_i hty
    cases hl
    refine ⟨rfl,?_,fun h => absurd h hty⟩
    rw [Phdr.pages, if_neg hty]
    exact .refl hB
  · rename_i hty
    rw [not_ne_iff] at hty
    have hstart : SegPart img m₀ m a b ph.vaddr (ph.start base) ((ph.start base + ph.filesz) % 2^64) 0 m none :=
      ⟨.refl hB,fun _ => rfl,fun h => absurd h (Nat.lt_irrefl 0),fun _ l hl => absurd hl l.not_lt_zero⟩
    have hva' : ph.vaddr = (ph.vaddr + 0) % 2^64 := by omega
    rw [hva', ← Nat.add_zero (ph.start base)] at hl
    obtain ⟨hr,pte',hpart⟩ := loadBytes_part hstart hnodup hstill hl
    rw [Nat.zero_add] at hpart
    refine ⟨hr,?_,fun _ => hpart.bytes⟩
    rw [Phdr.pages, if_pos hty]
    exact hpart.placed

theorem Img.field_lt {x n v : ℕ} (h : img.field m x n = .ok v) : v < 256^n := by
  induction n generalizing x v with
  | zero =>
    cases h
    decide
  | succ n ih =>
    unfold Img.field at h
    obtain ⟨y,-,h⟩ := bind_eq_ok.mp h
    obtain ⟨z,hz,h⟩ := bind_eq_ok.mp h
    cases h
    have h1 := ih hz
    have h2 : y.toNat < 256 := y.toNat_lt
    rw [Nat.pow_succ]
    omega

theorem Img.phdr_vaddr_lt {x : ℕ} (h : img.phdr m x = .ok ph) : ph.vaddr < 2^64 := by
  unfold Img.phdr at h
  obtain ⟨_,-,h⟩ := bind_eq_ok.mp h
  obtain ⟨_,-,h⟩ := bind_eq_ok.mp h
  obtain ⟨v,hv,h⟩ := bind_eq_ok.mp h
  obtain ⟨_,-,h⟩ := bind_eq_ok.mp h
  obtain ⟨_,-,h⟩ := bind_eq_ok.mp h
  cases h
  exact Img.field_lt hv

theorem loadSegs_loads {x e e' : ℕ} {r : Bool} (hB : Build m₀ m a b new) (hnodup : m₀.free.Nodup)
    (hstill : Still img m₀) (hl : loadSegs img base a n x m e = .ok (r,e',m')) :
    ∃ phs, img.phdrs m₀ n x = .ok phs ∧ (∀ ph ∈ phs, ph.vaddr < 2^64) ∧ Loads img base a m phs m' := by
  induction n generalizing m x e new with
  | zero =>
    cases hl
    exact ⟨[],rfl,nofun,.nil _⟩
  | succ n ih =>
    unfold loadSegs at hl
    obtain ⟨ph,hph,hl⟩ := bind_eq_ok.mp hl
    have hva := Img.phdr_vaddr_lt hph
    rw [Img.phdr_congr (hB.img_eq hstill)] at hph
    -- the header goes in front of those of the remaining iterations
    have hcons : ∀ {m₁ : Phys}, loadSeg img base a m ph = .ok (true,m₁) →
        (∃ phs, img.phdrs m₀ n (x+56) = .ok phs ∧ (∀ ph ∈ phs, ph.vaddr < 2^64) ∧ Loads img base a m₁ phs m') →
        ∃ phs, img.phdrs m₀ (n+1) x = .ok phs ∧ (∀ ph ∈ phs, ph.vaddr < 2^64) ∧ Loads img base a m phs m' := by
      rintro m₁ hseg ⟨phs,hphs,hlt,hloads⟩
      refine ⟨ph :: phs,?_,?_,.cons hseg hloads⟩
      · simp only [Img.phdrs,hph,hphs]
        rfl
      · rintro q (_ | hq)
        · exact hva
        · exact hlt q ‹_›
    split at hl
    · rename_i hty
      exact hcons (if_pos hty) (ih hB hl)
    · rename_i hty
      obtain ⟨⟨r₁,m₁⟩,hb,hl⟩ := bind_eq_ok.mp hl
      have hseg : loadSeg img base a m ph = .ok (r₁,m₁) := (if_neg hty).trans hb
      obtain ⟨rfl,hdone⟩ := loadSeg_done hB hnodup hstill hva hseg
      obtain ⟨new',hB'⟩ := hdone.placed.build
      exact hcons hseg (ih hB' hl)

/-- Two empty tables, as `alloc_proc` and `sys_exec` make them for a new image. -/
structure FreshTables (m₀ m : Phys) (a b : ℕ) : Prop where
  nodup : m₀.free.Nodup
  pages : ∃ m₁, getPage m₀ true = .ok (a,m₁) ∧ getPage m₁ true = .ok (b,m)

theorem FreshTables.build (h : FreshTables m₀ m a b) : Build m₀ m a b [a,b] := by
  obtain ⟨m₁,ha,hb⟩ := h.pages
  exact .start h.nodup ha hb

theorem FreshTables.empty (h : FreshTables m₀ m a b) (j : ℕ) : entry m a j = .zero := by
  obtain ⟨m₁,ha,hb⟩ := h.pages
  have hga := grow_getPage ha
  have hgb := grow_getPage hb
  have hab : a ≠ b := by
    rintro rfl
    exact (hga.nodup h.nodup).2.2 a (by simp) (hgb.new_free (by simp))
  have hrow : m.tbl a = fun _ => .zero := by
    rw [hgb.tbl a id (by simpa using hab)]
    exact (getPage_zero ha).1
  exact leafAt_of_empty (fun l i => by rw [hrow, Pte.link_zero]) fun i => by rw [hrow]

theorem loadImg_loads {p : Proc} {e' : ℕ} (h : FreshTables m₀ m p.pgtbl b) (hstill : Still img m₀)
    (hl : loadImg img base m p = .ok (0,e',m')) :
    ∃ phs, img.headers base m = .ok phs ∧ (∀ ph ∈ phs, ph.vaddr < 2^64) ∧ Loads img base p.pgtbl m phs m' := by
  unfold loadImg at hl
  obtain ⟨mg,-,hl⟩ := bind_eq_ok.mp hl
  split at hl
  · cases hl
  obtain ⟨phoff,hoff,hl⟩ := bind_eq_ok.mp hl
  obtain ⟨phnum,hnum,hl⟩ := bind_eq_ok.mp hl
  obtain ⟨⟨r₁,e₁,m₁⟩,hs,hl⟩ := bind_eq_ok.mp hl
  obtain ⟨phs,hphs,hlt,hloads⟩ := loadSegs_loads h.build h.nodup hstill hs
  obtain ⟨rfl,-⟩ := loadSegs_spec h.build h.nodup hs
  cases hl
  refine ⟨phs,?_,hlt,hloads⟩
  rw [Img.headers, hoff, hnum, ← hphs]
  exact Img.phdrs_congr (h.build.img_eq hstill) ..

namespace Loads

theorem placed (h : Loads img base a m phs m') (hB : Build m₀ m a b new) (hnodup : m₀.free.Nodup)
    (hstill : Still img m₀) (hva : ∀ ph ∈ phs, ph.vaddr < 2^64) :
    Placed m₀ m m' a b (phs.flatMap (Phdr.pages base)) := by
  induction h generalizing new with
  | nil m => exact .refl hB
  | cons hseg hrest ih =>
    obtain ⟨-,hdone⟩ := loadSeg_done hB hnodup hstill (hva _ List.mem_cons_self) hseg
    obtain ⟨new',hB'⟩ := hdone.placed.build
    exact hdone.placed.trans (ih hB' fun q hq => hva q (List.mem_cons_of_mem _ hq))

theorem split (pre : List Phdr) {post : List Phdr} (h : Loads img base a m (pre ++ ph :: post) m') :
    ∃ m₁ m₂, Loads img base a m pre m₁ ∧ loadSeg img base a m₁ ph = .ok (true,m₂) ∧ Loads img base a m₂ post m' := by
  induction pre generalizing m with
  | nil =>
    cases h with
    | cons hseg hrest => exact ⟨m,_,.nil m,hseg,hrest⟩
  | cons q pre ih =>
    cases h with
    | cons hseg hrest =>
      obtain ⟨m₁,m₂,h1,h2,h3⟩ := ih hrest
      exact ⟨m₁,m₂,.cons hseg h1,h2,h3⟩

end Loads

/-! ## Small images -/

/-- An image that consists of its headers. -/
def segImg (segs : List Phdr) : Img := fun _ x =>
  .ok ((toBytes elfMagic 32 ++ toBytes 64 24 ++ toBytes segs.length 8 ++ segs.flatMap fun q =>
    toBytes q.type 8 ++ toBytes q.offset 8 ++ toBytes q.vaddr 16 ++ toBytes q.filesz 8 ++ toBytes q.memsz 16).getD x 0)

theorem segImg_still (segs : List Phdr) (m : Phys) : Still (segImg segs) m := fun _ _ => rfl

/-- Sixteen free pages. -/
def tinyPhys : Phys where
  tbl _ _ := .zero
  data _ _ := 0
  pipe _ := .zero
  ref _ := 0
  free := List.range' 16 16
  nfreepages := 16
  usable _ := true
  endKmem := 0
  maxAddr := 2^20

/-- The first two are taken for the tables of `tinyProc`. -/
def tinyTables : Phys :=
  (((tinyPhys.zeroPage 16).unlink 16 (List.range' 17 15)).zeroPage 17).unlink 17 (List.range' 18 14)

def tinyProc : Proc := { Proc.zero with pgtbl := 16, pPgtbl := 17 }

theorem tinyTables_fresh : FreshTables tinyPhys tinyTables tinyProc.pgtbl 17 :=
  ⟨List.nodup_range',_,rfl,rfl⟩

/-- Whether the segments are loaded and leave a memory with a given property. -/
def loadsTo (segs : List Phdr) (test : Phys → Bool) : Bool :=
  match loadImg (segImg segs) 0 tinyTables tinyProc with
  | .ok (r,_,m') => r == 0 && test m'
  | .error _ => false

theorem exists_of_loadsTo (segs : List Phdr) (test : Phys → Bool) (h : loadsTo segs test = true) :
    ∃ e' m', loadImg (segImg segs) 0 tinyTables tinyProc = .ok (0,e',m') ∧ test m' = true := by
  unfold loadsTo at h
  split at h
  · rename_i r e' m' hl
    simp only [Bool.and_eq_true,beq_iff_eq] at h
    exact ⟨e',m',h.1 ▸ hl,h.2⟩
  · cases h

/-- A segment of one byte of the file, with `memsz` bytes in memory. -/
def byteSeg (vaddr memsz : ℕ) : Phdr := ⟨ptLoad,0,vaddr,1,memsz⟩

/-! ## Each segment -/

theorem Placed.keeps {f : ℕ} (h : Placed m₀ m m' a b keys) (hB : Build m₀ m a b new) (hnodup : m₀.free.Nodup)
    (hk : pageAt va k ∉ keys) (he : entry m a (pageAt va k) = .full f) :
    entry m' a (pageAt va k) = .full f ∧ byteAt m' a (va + k) = byteAt m a (va + k) := by
  have he' : entry m' a (pageAt va k) = .full f := by rw [h.unused _ (pageAt_lt va k) hk, he]
  refine ⟨he',?_⟩
  rw [byteAt_full he', byteAt_full he, h.data f (hB.not_free hnodup (pageAt_lt va k) he)]

/-- The segment is in memory: the bytes of the file, zeros behind them, and on every page the three flags. -/
structure SegLoaded (img : Img) (base : ℕ) (m : Phys) (a : ℕ) (ph : Phdr) (m' : Phys) : Prop where
  file : ∀ k < ph.filesz, img m ((base + ph.offset + k) % 2^64) = .ok (byteAt m' a (ph.vaddr + k))
  bss : ∀ k, ph.filesz ≤ k → k < ph.memsz → byteAt m' a (ph.vaddr + k) = 0
  pages : ∀ k < ph.memsz, (entry m' a (pageAt ph.vaddr k)).covers (pteP ||| pteU ||| pteW) = true

/-- No page holds bytes of both segments. -/
def Phdr.Apart (p q : Phdr) : Prop := ∀ k < p.memsz, ∀ l < q.memsz, pageAt p.vaddr k ≠ pageAt q.vaddr l

theorem Phdr.steps_le (base : ℕ) (ph : Phdr) : ph.steps base ≤ ph.memsz := by
  unfold Phdr.steps
  omega

theorem Phdr.Apart.not_mem {qs : List Phdr} (h : ∀ q ∈ qs, q.type = ptLoad → ph.Apart q) (hk : k < ph.memsz) :
    pageAt ph.vaddr k ∉ qs.flatMap (Phdr.pages base) := by
  rw [List.mem_flatMap]
  rintro ⟨q,hq,hmem⟩
  unfold Phdr.pages at hmem
  split at hmem
  · rename_i hty
    obtain ⟨l,hl,heq⟩ := mem_pagesOf.mp hmem
    exact h q hq hty k hk l (hl.trans_le (q.steps_le base)) heq.symm
  · cases hmem

/-- What the segment loop keeps: each iteration the bytes of the segments before it, and all of them
the pages that were taken. -/
structure SegsKept (img : Img) (base : ℕ) (m : Phys) (a : ℕ) (phs : List Phdr) (m' : Phys) : Prop where
  bytes : ∀ pre ph post m₁ m₂, phs = pre ++ ph :: post → Loads img base a m pre m₁ →
    loadSeg img base a m₁ ph = .ok (true,m₂) → ∀ q ∈ pre, q.type = ptLoad → ∀ k < q.steps base,
    byteAt m₂ a (q.vaddr + k) = byteAt m₁ a (q.vaddr + k)
  pages : ∀ x ∈ m.free, x ∉ m'.free → 0 < Lib.Radix.pages Pte.link 512 m'.tbl 3 512 a x + mapsAll m' a x

end Ukern
