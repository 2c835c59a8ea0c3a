import Mathlib.Data.List.Nodup
import Ukern.Lib.Fold
import Ukern.Kernel.Pcie

/-! # The routes of the bus scan

`scan_bus` has no memory of the buses it has seen, so it takes every route that the bridges offer from
bus 0 on. It ends exactly if no route comes back to a bus it has passed, and it visits a device once for
every route to its bus.
-/
namespace Ukern.Pcie
open Lib
variable {cfg : Config} {b c d : UInt8} {f g n : ℕ} {p q : List Func} {log : List Func}

namespace Config

/-- A function with header type 0. -/
def Device (cfg : Config) (b : UInt8) (f : ℕ) : Prop := f < 0x100 ∧ cfg.isAbsent b f = false ∧ cfg.isDevice b f = true

/-- A function with any other header type. -/
def Bridge (cfg : Config) (b : UInt8) (f : ℕ) : Prop :=
  f < 0x100 ∧ cfg.isAbsent b f = false ∧ cfg.isDevice b f = false

/-- The bridges passed on a way from one bus to another. -/
inductive Route (cfg : Config) : UInt8 → List Func → UInt8 → Prop
  | here (b : UInt8) : Route cfg b [] b
  | through {b c : UInt8} {f : ℕ} {p : List Func} (hb : cfg.Bridge b f) (hp : Route cfg (cfg.secondary b f) p c) :
      Route cfg b ((b,f) :: p) c

end Config
open Config

namespace Config.Route

theorem append (h : cfg.Route b p c) (h' : cfg.Route c q d) : cfg.Route b (p ++ q) d := by
  induction h with
  | here => exact h'
  | through hb _ ih => exact .through hb (ih h')

theorem leave (h : cfg.Route b p c) (hd : d ∈ p.map Prod.fst) : ∃ q, cfg.Route b q d := by
  induction h with
  | here => simp at hd
  | @through b c f p hb _ ih =>
    rw [List.map_cons, List.mem_cons] at hd
    rcases hd with rfl | hd
    · exact ⟨[],.here _⟩
    · obtain ⟨q,hq⟩ := ih hd
      exact ⟨(b,f) :: q,.through hb hq⟩

theorem rounds (h : cfg.Route b q b) (hq : q ≠ []) (n : ℕ) : ∃ r, cfg.Route b r b ∧ n ≤ r.length := by
  induction n with
  | zero => exact ⟨[],.here b,Nat.zero_le _⟩
  | succ n ih =>
    obtain ⟨r,hr,hle⟩ := ih
    refine ⟨q ++ r,h.append hr,?_⟩
    have hpos : 0 < q.length := List.length_pos_iff.mpr hq
    rw [List.length_append]
    omega

end Config.Route

/-! ## The end of the scan -/

/-- No route from this bus comes back to a bus it has passed. -/
def Config.Acyclic (cfg : Config) (b : UInt8) : Prop := ∀ p c, cfg.Route b p c → ∀ q, cfg.Route c q c → q = []

theorem Config.Acyclic.below (h : cfg.Acyclic b) (hf : cfg.Bridge b f) : cfg.Acyclic (cfg.secondary b f) := by
  intro p c hp
  exact h _ c (.through hf hp)

theorem Config.Acyclic.nodup (h : cfg.Acyclic b) (hp : cfg.Route b p c) : (p.map Prod.fst).Nodup := by
  induction hp with
  | here => exact List.nodup_nil
  | @through b c f p hf hp ih =>
    rw [List.map_cons, List.nodup_cons]
    refine ⟨fun hmem => ?_,ih (h.below hf)⟩
    obtain ⟨q,hq⟩ := hp.leave hmem
    have hnil := h [] b (.here b) _ (.through hf hq)
    cases hnil

/-- Every route from this bus has fewer than `n` bridges. -/
def Config.Shallow (cfg : Config) (n : ℕ) (b : UInt8) : Prop := ∀ p c, cfg.Route b p c → p.length < n

theorem Config.Acyclic.shallow (h : cfg.Acyclic b) : cfg.Shallow 257 b := by
  intro p c hp
  have hnodup : (p.map fun x => x.1.toNat).Nodup := by
    have hmap := (h.nodup hp).map fun _ _ => UInt8.toNat.inj
    rwa [List.map_map] at hmap
  have hsub : (p.map fun x => x.1.toNat) ⊆ List.range 256 := by
    intro x hx
    obtain ⟨y,-,rfl⟩ := List.mem_map.mp hx
    exact List.mem_range.mpr y.1.toNat_lt
  have hle := (hnodup.subperm hsub).length_le
  rw [List.length_map, List.length_range] at hle
  omega

theorem Config.Shallow.acyclic (h : cfg.Shallow n b) : cfg.Acyclic b := by
  intro p c hp q hq
  by_contra hne
  obtain ⟨r,hr,hle⟩ := hq.rounds hne n
  have hlt := h _ _ (hp.append hr)
  rw [List.length_append] at hlt
  omega

theorem Config.Shallow.below (h : cfg.Shallow (n+1) b) (hf : cfg.Bridge b f) : cfg.Shallow n (cfg.secondary b f) := by
  intro p c hp
  have hlt := h _ _ (.through hf hp)
  rw [List.length_cons] at hlt
  omega

/-- The functions that a scan of the bus visits, in order. -/
def visits (cfg : Config) : ℕ → UInt8 → List Func
  | 0, _ => []
  | n+1, b => (List.range 0x100).flatMap fun f =>
    if cfg.isAbsent b f then [] else if cfg.isDevice b f then [(b,f)] else visits cfg n (cfg.secondary b f)

theorem scanBus_shallow (h : cfg.Shallow n b) (log : List Func) : cfg.scanBus n b log = .ok (log ++ visits cfg n b) := by
  induction n generalizing b log with
  | zero => exact absurd (h [] b (.here b)) (Nat.not_lt_zero _)
  | succ n ih =>
    rw [scanBus, visits]
    apply foldlM_flatMap
    intro f hf log
    unfold scanDevfn
    split_ifs with ha hd
    · rw [List.append_nil]
    · rfl
    · exact ih (h.below ⟨List.mem_range.mp hf,by simpa using ha,by simpa using hd⟩) log

theorem shallow_of_scanBus {log' : List Func} (h : cfg.scanBus n b log = .ok log') : cfg.Shallow n b := by
  induction n generalizing b log log' with
  | zero => cases h
  | succ n ih =>
    intro p c hp
    cases hp with
    | here => exact Nat.succ_pos n
    | @through _ _ f p hf hp =>
      obtain ⟨log₁,log₂,hstep⟩ := foldlM_round h (List.mem_range.mpr hf.1)
      unfold scanDevfn at hstep
      rw [hf.2.1, hf.2.2, if_neg Bool.false_ne_true, if_neg Bool.false_ne_true] at hstep
      exact Nat.succ_lt_succ (ih hstep p c hp)

/-! ## The devices visited -/

theorem mem_visits (h : cfg.Shallow n b) : (d,g) ∈ visits cfg n b ↔ cfg.Device d g ∧ ∃ p, cfg.Route b p d := by
  induction n generalizing b with
  | zero => exact absurd (h [] b (.here b)) (Nat.not_lt_zero _)
  | succ n ih =>
    rw [visits, List.mem_flatMap]
    constructor
    · rintro ⟨f,hf,hmem⟩
      have hlt := List.mem_range.mp hf
      split_ifs at hmem with ha hd
      · cases hmem
      · cases List.mem_singleton.mp hmem
        exact ⟨⟨hlt,by simpa using ha,hd⟩,[],.here _⟩
      · have hbr : cfg.Bridge b f := ⟨hlt,by simpa using ha,by simpa using hd⟩
        obtain ⟨hdev,p,hp⟩ := (ih (h.below hbr)).mp hmem
        exact ⟨hdev,_,.through hbr hp⟩
    · rintro ⟨hdev,p,hp⟩
      cases hp with
      | here =>
        refine ⟨g,List.mem_range.mpr hdev.1,?_⟩
        simp [hdev.2.1, hdev.2.2]
      | @through _ _ f p hf hp =>
        refine ⟨f,List.mem_range.mpr hf.1,?_⟩
        simp only [hf.2.1, hf.2.2, if_neg Bool.false_ne_true]
        exact (ih (h.below hf)).mpr ⟨hdev,p,hp⟩

/-- A bus with a device is reached on one route at most. -/
def Config.OneRoute (cfg : Config) (b : UInt8) : Prop :=
  ∀ d g, cfg.Device d g → ∀ p q, cfg.Route b p d → cfg.Route b q d → p = q

theorem Config.OneRoute.below (h : cfg.OneRoute b) (hf : cfg.Bridge b f) : cfg.OneRoute (cfg.secondary b f) := by
  intro d g hd p q hp hq
  exact (List.cons.inj (h d g hd _ _ (.through hf hp) (.through hf hq))).2

/-- The functions visited behind function `f`. -/
def piece (cfg : Config) (n : ℕ) (b : UInt8) (f : ℕ) : List Func :=
  if cfg.isAbsent b f then [] else if cfg.isDevice b f then [(b,f)] else visits cfg n (cfg.secondary b f)

theorem visits_succ : visits cfg (n+1) b = (List.range 0x100).flatMap (piece cfg n b) := rfl

/-- A visit behind function `f` is a visit of a device of this bus, or it is made through that bridge. -/
theorem mem_piece (h : cfg.Shallow (n+1) b) (hf : f < 0x100) : (d,g) ∈ piece cfg n b f ↔
    cfg.Device d g ∧ (d = b ∧ g = f ∨ cfg.Bridge b f ∧ ∃ p, cfg.Route (cfg.secondary b f) p d) := by
  unfold piece
  split_ifs with ha hd
  · simp only [List.not_mem_nil, false_iff]
    rintro ⟨hdev,⟨rfl,rfl⟩ | ⟨hbr,-⟩⟩
    · exact absurd (ha.symm.trans hdev.2.1) (by decide)
    · exact absurd (ha.symm.trans hbr.2.1) (by decide)
  · have habs : cfg.isAbsent b f = false := by simpa using ha
    rw [List.mem_singleton, Prod.mk.injEq]
    constructor
    · rintro ⟨rfl,rfl⟩
      exact ⟨⟨hf,habs,hd⟩,.inl ⟨rfl,rfl⟩⟩
    · rintro ⟨-,h | ⟨hbr,-⟩⟩
      · exact h
      · exact absurd (hd.symm.trans hbr.2.2) (by decide)
  · have hbr : cfg.Bridge b f := ⟨hf,by simpa using ha,by simpa using hd⟩
    rw [mem_visits (h.below hbr)]
    constructor
    · rintro ⟨hdev,hp⟩
      exact ⟨hdev,.inr ⟨hbr,hp⟩⟩
    · rintro ⟨hdev,⟨rfl,rfl⟩ | ⟨-,hp⟩⟩
      · exact absurd (hdev.2.2.symm.trans hbr.2.2) (by decide)
      · exact ⟨hdev,hp⟩

/-- A device visited behind two functions of the bus is reached on two routes. -/
theorem Config.OneRoute.disjoint (h : cfg.OneRoute b) (hs : cfg.Shallow (n+1) b) {f' : ℕ} (hf : f < 0x100)
    (hf' : f' < 0x100) (hne : f ≠ f') : (piece cfg n b f).Disjoint (piece cfg n b f') := by
  rintro ⟨d,g⟩ hmem hmem'
  obtain ⟨hdev,hway⟩ := (mem_piece hs hf).mp hmem
  obtain ⟨-,hway'⟩ := (mem_piece hs hf').mp hmem'
  rcases hway with ⟨rfl,rfl⟩ | ⟨hbr,p,hp⟩ <;> rcases hway' with ⟨hd,hg⟩ | ⟨hbr',p',hp'⟩
  · exact hne hg
  · cases h _ _ hdev _ _ (.here _) (.through hbr' hp')
  · subst hd
    cases h _ _ hdev _ _ (.here _) (.through hbr hp)
  · cases h _ _ hdev _ _ (.through hbr hp) (.through hbr' hp')
    exact hne rfl

theorem nodup_visits (hs : cfg.Shallow n b) : (visits cfg n b).Nodup ↔ cfg.OneRoute b := by
  induction n generalizing b with
  | zero => exact absurd (hs [] b (.here b)) (Nat.not_lt_zero _)
  | succ n ih =>
    rw [visits_succ, List.nodup_flatMap]
    constructor
    · rintro ⟨hnodup,hpair⟩ d g hdev p q hp hq
      have hdisj : ∀ f f', f < 0x100 → f' < 0x100 → f ≠ f' → (piece cfg n b f).Disjoint (piece cfg n b f') := by
        intro f f' hf hf' hne
        have : Std.Symm (Function.onFun List.Disjoint (piece cfg n b)) := ⟨fun _ _ h => h.symm⟩
        exact hpair.forall (List.mem_range.mpr hf) (List.mem_range.mpr hf') hne
      -- the first step of each route tells in which piece the visit is
      have hway : ∀ f r, cfg.Bridge b f → cfg.Route (cfg.secondary b f) r d → (d,g) ∈ piece cfg n b f :=
        fun f r hf hr => (mem_piece hs hf.1).mpr ⟨hdev,.inr ⟨hf,r,hr⟩⟩
      have hback : ∀ f r, cfg.Bridge d f → d = b → ¬ cfg.Route (cfg.secondary d f) r d := by
        rintro f r hf rfl hr
        have hne : g ≠ f := by
          rintro rfl
          exact absurd (hdev.2.2.symm.trans hf.2.2) (by decide)
        have hmem : (d,g) ∈ piece cfg n d g := (mem_piece hs hdev.1).mpr ⟨hdev,.inl ⟨rfl,rfl⟩⟩
        exact hdisj g f hdev.1 hf.1 hne hmem (hway f r hf hr)
      cases hp with
      | here =>
        cases hq with
        | here => rfl
        | through hf hr => exact absurd hr (hback _ _ hf rfl)
      | @through _ _ f r hf hr =>
        cases hq with
        | here => exact absurd hr (hback _ _ hf rfl)
        | @through _ _ f' r' hf' hr' =>
          by_cases hff : f = f'
          · subst hff
            have hpiece : (visits cfg n (cfg.secondary b f)).Nodup := by
              have := hnodup f (List.mem_range.mpr hf.1)
              rwa [piece, hf.2.1, hf.2.2, if_neg Bool.false_ne_true, if_neg Bool.false_ne_true] at this
            rw [(ih (hs.below hf)).mp hpiece d g hdev r r' hr hr']
          · exact absurd (hway f' r' hf' hr') (hdisj f f' hf.1 hf'.1 hff (hway f r hf hr))
    · intro h
      constructor
      · intro f hf
        unfold piece
        split_ifs with ha hd
        · exact List.nodup_nil
        · exact List.nodup_singleton _
        · have hbr : cfg.Bridge b f := ⟨List.mem_range.mp hf,by simpa using ha,by simpa using hd⟩
          exact (ih (hs.below hbr)).mpr (h.below hbr)
      · apply List.nodup_range.pairwise_of_forall_ne
        intro f hf f' hf' hne
        exact h.disjoint hs (List.mem_range.mp hf) (List.mem_range.mp hf') hne

/-- The scan of bus 0 ends, and no function is initialised twice. -/
def EnumeratesOnce (cfg : Config) : Prop := ∃ n log, cfg.scanBus n 0 [] = .ok log ∧ log.Nodup

/-- The enumeration ends and visits every function at most once exactly if no chain of bridges from bus 0
on comes back to a bus it has passed, and no bus with a device is reached by two chains. -/
theorem pcie_enumeration_iff (cfg : Config) : EnumeratesOnce cfg ↔ cfg.Acyclic 0 ∧ cfg.OneRoute 0 := by
  constructor
  · rintro ⟨n,log,hscan,hnodup⟩
    have hs := shallow_of_scanBus hscan
    rw [scanBus_shallow hs, List.nil_append] at hscan
    rw [← Except.ok.inj hscan, nodup_visits hs] at hnodup
    exact ⟨hs.acyclic,hnodup⟩
  · rintro ⟨hac,hone⟩
    have hs := hac.shallow
    have hscan := scanBus_shallow hs []
    rw [List.nil_append] at hscan
    exact ⟨257,_,hscan,(nodup_visits hs).mpr hone⟩

/-- Function 0 of device 0 is a bridge that was never given a secondary bus, and there is nothing else. -/
def unconfigured : Config where
  base := 0
  word a := if 4096 ≤ a.toNat then 0xFFFFFFFF else if a = 0x0C then 0x00010000 else 0

/-- The scan of bus 0 comes back to bus 0 for ever. -/
theorem pcie_scan_never_ends : ¬ EnumeratesOnce unconfigured := by
  rintro ⟨n,log,hscan,-⟩
  have hbridge : unconfigured.Bridge 0 0 := by
    refine ⟨by decide,?_,?_⟩ <;> decide
  have hback : unconfigured.Route 0 [(0,0)] 0 := .through hbridge (.here 0)
  cases (shallow_of_scanBus hscan).acyclic [] 0 (.here 0) _ hback

end Ukern.Pcie
