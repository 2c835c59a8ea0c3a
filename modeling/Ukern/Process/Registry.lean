import Ukern.Process.Fate

/-! # Blocked processes and the one that runs

Whoever waits for an event is entered with the event, is blocked, and waits for nothing
else. This is what a wake-up relies on.
-/
namespace Ukern
open Lib
variable {k k' k₁ : Kernel} {c i j n r : Slot} {S : Slot → Prop} {tf : Context} {a : Cause}

/-- Every registration is an old one, or the one of `c` that just blocked. -/
theorem Reg.of_block (h : Reg k) (a₀ : Cause) (hsub : ∀ a r, Registered k' a r → Registered k a r ∧ r ≠ c ∨ a = a₀ ∧ r = c)
    (hst : ∀ a r, Registered k' a r → r ≠ c → (k'.procs r).state = (k.procs r).state)
    (hc : (k'.procs c).state = .pending) : Reg k' where
  pending a r ha := by
    rcases hsub a r ha with ⟨h1,hr⟩ | ⟨-,rfl⟩
    · rw [hst a r ha hr]
      exact h.pending a r h1
    · exact hc
  unique a b r ha hb := by
    rcases hsub a r ha with ⟨h1,hr⟩ | ⟨rfl,rfl⟩
    · rcases hsub b r hb with ⟨h2,-⟩ | ⟨-,rfl⟩
      · exact h.unique a b r h1 h2
      · exact absurd rfl hr
    · rcases hsub b r hb with ⟨-,hr⟩ | ⟨rfl,-⟩
      · exact absurd rfl hr
      · rfl

theorem Reg.of_sub (h : Reg k) (hsub : ∀ a r, Registered k' a r → Registered k a r)
    (hst : ∀ a r, Registered k' a r → (k'.procs r).state = (k.procs r).state) : Reg k' where
  pending a r ha := by
    rw [hst a r ha]
    exact h.pending a r (hsub a r ha)
  unique a b r ha hb := h.unique a b r (hsub a r ha) (hsub b r hb)

theorem Reg.wakeSafe (h : Reg k) : WakeSafe k := fun pg r hpg hr hc => by
  have h1 := h.pending (.read pg) r ⟨hpg,hr⟩
  rw [hc] at h1
  cases h1

/-- Nobody is to be woken for slot `j`. -/
def Spare (k : Kernel) (j : Slot) : Prop := ∀ a, ¬ Registered k a j

theorem Spare.unread (h : Spare k j) : Unread k j := fun pg hpg hr => h (.read pg) ⟨hpg,hr⟩

theorem Reg.spare (h : Reg k) (hj : (k.procs j).state ≠ .pending) : Spare k j := fun a ha => hj (h.pending a j ha)

theorem Quiet.registered (h : Quiet k k') : Registered k' a r ↔ Registered k a r := by
  cases a with
  | kbd => simp only [Registered,h.globals.2.2]
  | wait => simp only [Registered,(h.procs r).waiting]
  | read pg =>
    simp only [Registered,h.ends_eq.2]
    exact and_congr_right fun hpg => by rw [(h.pipe pg (by omega)).1]
  | write pg =>
    simp only [Registered,h.ends_eq.1,h.ends_eq.2]
    exact and_congr_right fun hpg => by rw [(h.pipe pg hpg).2]

theorem Quiet.reg (h : Quiet k k') (hr : Reg k) : Reg k' :=
  hr.of_sub (fun _ _ ha => h.registered.mp ha) fun _ r _ => (h.procs r).state

theorem Ended.registered (h : Ended k k' S) (ha : Registered k' a r) : Registered k a r := by
  cases a with
  | kbd =>
    rcases h.kbd with h1 | ⟨h1,-⟩
    · exact h1.symm.trans ha
    · have h2 : k'.kbdProc = some r := ha
      rw [h1] at h2
      cases h2
  | wait =>
    have hw : (k'.procs r).waiting = true := ha
    show (k.procs r).waiting = true
    cases h.fate r with
    | kept h1 => rw [← Proc.waiting_of_core h1]; exact hw
    | cleared _ h1 =>
      rw [Proc.waiting_of_core (h1.trans Proc.core_zero.symm)] at hw
      cases hw
    | zombie _ ctx w hww h1 =>
      rw [Proc.waiting_of_core h1] at hw
      exact hww hw
    | woken pg ctx _ _ _ h1 =>
      rw [Proc.waiting_of_core h1] at hw
      exact hw
    | reported ctx hww h1 => exact hww
  | read pg =>
    have hle := (h.le pg).2
    obtain ⟨h1,h2⟩ := ha
    rw [(h.pipe pg).1] at h2
    exact ⟨by omega,h2⟩
  | write pg =>
    have hle := h.le pg
    obtain ⟨h1,h2⟩ := ha
    rw [(h.pipe pg).2] at h2
    exact ⟨by omega,h2⟩

theorem Ended.reg (h : Ended k k' S) (hr : Reg k) (hS : ∀ j, S j → Spare k j) : Reg k' := by
  refine hr.of_sub (fun a r ha => h.registered ha) fun a r ha => ?_
  have hold := h.registered ha
  cases h.fate r with
  | kept h1 => exact Proc.state_of_core h1
  | cleared hSr _ => exact absurd hold (hS r hSr a)
  | zombie hSr _ _ _ _ => exact absurd hold (hS r hSr a)
  | woken pg ctx h0 h1 hrd h2 =>
    have heq := hr.unique a (.read pg) r hold ⟨h0,hrd⟩
    subst heq
    exact absurd h1 ha.1
  | reported ctx hw h1 =>
    have heq := hr.unique a .wait r hold hw
    subst heq
    have hwait : (k'.procs r).waiting = true := ha
    rw [Proc.waiting_of_core h1] at hwait
    cases hwait

theorem ForkOk.ends_eq (h : ForkOk k k' c n tf) (hc : (k.procs c).state ≠ .close) (ty : FileType) (pg : ℕ) :
    ends k' ty pg = ends k ty pg + (k.procs c).ends ty pg := by
  have hsum := sum_replace (f := fun j => (k.procs j).ends ty pg) (g := fun j => (k'.procs j).ends ty pg)
    (Finset.mem_univ n) fun j _ hj => ((Proc.Like.of_core (h.core j hj)).ends ty pg).symm
  have hold : (k.procs n).ends ty pg = 0 := if_pos h.fresh
  have hnew : (k'.procs n).ends ty pg = (k.procs c).ends ty pg := by
    rw [Proc.ends, Proc.ends, if_neg hc, if_neg (by rw [h.child.1]; rintro ⟨⟩)]
    exact Finset.sum_congr rfl fun fd hfd => by rw [h.fdesc fd (Finset.mem_range.mp hfd)]
  simp only [hold,hnew] at hsum
  simp only [ends]
  omega

theorem ForkOk.ends_ne (h : ForkOk k k' c n tf) (hc : (k.procs c).state ≠ .close) {ty : FileType} {pg : ℕ}
    (hpg : ends k' ty pg ≠ 0) : ends k ty pg ≠ 0 := by
  rw [h.ends_eq hc] at hpg
  have := le_ends k c ty pg
  omega

theorem ForkOk.registered (h : ForkOk k k' c n tf) (hk : KInv k) (hc : (k.procs c).state ≠ .close)
    (ha : Registered k' a r) : Registered k a r := by
  have hpipe : ∀ pg, ends k .rpipe pg + ends k .wpipe pg ≠ 0 →
      (k'.pipe pg).reader = (k.pipe pg).reader ∧ (k'.pipe pg).writer = (k.pipe pg).writer := fun pg hpg => by
    obtain ⟨x,y,hxy⟩ := h.pipe pg (hk.live_held (live_ne hpg))
    rw [hxy]
    exact ⟨rfl,rfl⟩
  cases a with
  | kbd => exact h.globals.2.2.symm.trans ha
  | wait =>
    have hw : (k'.procs r).waiting = true := ha
    by_cases hr : r = n
    · rw [hr, h.child.2.1] at hw
      cases hw
    · rw [Proc.waiting_of_core (h.core r hr)] at hw
      exact hw
  | read pg =>
    obtain ⟨h1,h2⟩ := ha
    have hne := h.ends_ne hc h1
    exact ⟨hne,by rw [← (hpipe pg (by omega)).1]; exact h2⟩
  | write pg =>
    obtain ⟨h1,h2⟩ := ha
    have hne : ends k .rpipe pg + ends k .wpipe pg ≠ 0 := by
      have hr := h.ends_eq hc .rpipe pg
      have hw := h.ends_eq hc .wpipe pg
      have hr' := le_ends k c .rpipe pg
      have hw' := le_ends k c .wpipe pg
      omega
    exact ⟨hne,by rw [← (hpipe pg hne).2]; exact h2⟩

theorem ForkOk.reg (h : ForkOk k k' c n tf) (hk : KInv k) (hc : (k.procs c).state ≠ .close) (hr : Reg k) :
    Reg k' := by
  refine hr.of_sub (fun a r ha => h.registered hk hc ha) fun a r ha => ?_
  have hp := hr.pending a r (h.registered hk hc ha)
  have hrn : r ≠ n := by
    rintro rfl
    rw [h.fresh] at hp
    cases hp
  exact Proc.state_of_core (h.core r hrn)

theorem ExecOk.registered (h : ExecOk k k' c) : Registered k' a r ↔ Registered k a r := by
  have hw : (k'.procs r).waiting = (k.procs r).waiting := by
    by_cases hr : r = c
    · obtain ⟨x,y,e,ctx,hx⟩ := h.self
      rw [hr, hx]
    · rw [h.procs r hr]
  cases a with
  | kbd => simp only [Registered,h.globals.2.2]
  | wait => simp only [Registered,hw]
  | read pg =>
    simp only [Registered,h.ends_eq]
    exact and_congr_right fun hpg => by rw [h.pipe pg (by omega)]
  | write pg =>
    simp only [Registered,h.ends_eq]
    exact and_congr_right fun hpg => by rw [h.pipe pg hpg]

end Ukern
