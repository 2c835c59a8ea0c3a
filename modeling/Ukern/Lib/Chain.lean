import Mathlib.Data.List.Nodup

/-! # Chains of pointers

A partial function `next` and a start: what can be reached, and the list that is
visited when the walk ends.
-/
namespace Ukern.Lib
variable {α : Type*} {next next' : α → Option α} {o : Option α} {a b : α} {l l' : List α}

/-- `b` is met on the walk from `o`. -/
inductive Reaches (next : α → Option α) : Option α → α → Prop
  | head (a : α) : Reaches next (some a) a
  | step {a b : α} : Reaches next (next a) b → Reaches next (some a) b

/-- The walk from `o` visits `l` and ends. -/
def Chain (next : α → Option α) : Option α → List α → Prop
  | o, [] => o = none
  | o, a :: l => o = some a ∧ Chain next (next a) l

namespace Reaches

theorem not_none : ¬ Reaches next none b := nofun

theorem mono (h : Reaches next' o b) (hcut : ∀ a, next' a = next a ∨ next' a = none) : Reaches next o b := by
  induction h with
  | head a => exact .head a
  | @step a b h ih =>
    rcases hcut a with he | he
    · exact .step (he ▸ ih)
    · rw [he] at h
      exact absurd h not_none

theorem upto (h : Reaches next o b) (hn : ∀ a, a ≠ b → next' a = next a) : Reaches next' o b := by
  induction h with
  | head a => exact .head a
  | @step a b h ih =>
    by_cases hab : a = b
    · exact hab ▸ .head a
    · refine .step ?_
      rw [hn a hab]
      exact ih hn

end Reaches

namespace Chain

theorem reaches (h : Chain next o l) : Reaches next o b ↔ b ∈ l := by
  induction l generalizing o with
  | nil =>
    rw [show o = none from h]
    simp [Reaches.not_none]
  | cons a l ih =>
    obtain ⟨rfl,h⟩ := h
    rw [List.mem_cons, ← ih h]
    constructor
    · intro hr
      cases hr with
      | head => exact Or.inl rfl
      | step hr => exact Or.inr hr
    · rintro (rfl | hr)
      · exact .head b
      · exact .step hr

theorem unique (h : Chain next o l) (h' : Chain next o l') : l = l' := by
  induction l generalizing o l' with
  | nil =>
    cases l' with
    | nil => rfl
    | cons a l' => rw [show o = none from h] at h'; exact absurd h'.1 nofun
  | cons a l ih =>
    obtain ⟨rfl,h⟩ := h
    cases l' with
    | nil => exact absurd h' nofun
    | cons b l' =>
      obtain ⟨hb,h'⟩ := h'
      cases hb
      rw [ih h h']

theorem suffix (h : Chain next o l) (ha : a ∈ l) : ∃ l₁, Chain next (some a) l₁ ∧ l₁.length ≤ l.length := by
  induction l generalizing o with
  | nil => simp at ha
  | cons c l ih =>
    obtain ⟨rfl,h⟩ := h
    rcases List.mem_cons.mp ha with rfl | ha
    · exact ⟨a :: l,⟨rfl,h⟩,Nat.le_refl _⟩
    · obtain ⟨l₁,h₁,hlen⟩ := ih h ha
      exact ⟨l₁,h₁,Nat.le_succ_of_le hlen⟩

theorem nodup (h : Chain next o l) : l.Nodup := by
  induction l generalizing o with
  | nil => exact List.nodup_nil
  | cons a l ih =>
    obtain ⟨rfl,h⟩ := h
    refine List.nodup_cons.mpr ⟨fun ha => ?_,ih h⟩
    obtain ⟨l₁,h₁,hlen⟩ := h.suffix ha
    have hall : Chain next (some a) (a :: l) := ⟨rfl,h⟩
    have heq := h₁.unique hall
    rw [heq, List.length_cons] at hlen
    omega

theorem congr (h : Chain next o l) (hn : ∀ a ∈ l, next' a = next a) : Chain next' o l := by
  induction l generalizing o with
  | nil => exact h
  | cons a l ih =>
    refine ⟨h.1,?_⟩
    rw [hn a List.mem_cons_self]
    exact ih h.2 fun b hb => hn b (List.mem_cons_of_mem _ hb)

theorem eq_none (h : Chain next o []) : o = none := h

/-- The last link, which ended the walk, now leads to one more element. -/
theorem snoc (h : Chain next o (l ++ [a])) (hnew : b ∉ l ++ [a]) (hsame : ∀ c, c ≠ a → next' c = next c)
    (ha : next' a = some b) (hb : next' b = none) : Chain next' o (l ++ [a] ++ [b]) := by
  induction l generalizing o with
  | nil =>
    obtain ⟨rfl,-⟩ := h
    exact ⟨rfl,ha,hb⟩
  | cons c l ih =>
    have hnd := h.nodup
    obtain ⟨rfl,h⟩ := h
    simp only [List.cons_append,List.nodup_cons,List.mem_append,List.mem_singleton,not_or] at hnd
    refine ⟨rfl,?_⟩
    rw [hsame c hnd.1.2]
    exact ih h fun hm => hnew (List.mem_cons_of_mem _ hm)

theorem head_mem (h : Chain next (some a) l) : a ∈ l := h.reaches.mp (.head a)

theorem mem_of_next (h : Chain next o l) (ha : a ∈ l) (hb : next a = some b) : b ∈ l := by
  induction l generalizing o with
  | nil => cases ha
  | cons c l ih =>
    rcases List.mem_cons.mp ha with rfl | ha
    · have htail := h.2
      rw [hb] at htail
      exact List.mem_cons_of_mem _ htail.head_mem
    · exact List.mem_cons_of_mem _ (ih h.2 ha)

theorem next_ne (h : Chain next o l) (ha : a ∈ l) : next a ≠ some a := by
  induction l generalizing o with
  | nil => cases ha
  | cons c l ih =>
    rcases List.mem_cons.mp ha with rfl | ha
    · intro hself
      have htail := h.2
      rw [hself] at htail
      exact (List.nodup_cons.mp h.nodup).1 htail.head_mem
    · exact ih h.2 ha

end Chain

/-- A chain that can be walked backwards: `prev` leads from each element to the one in front of it, and from
the first one to `p`. -/
def DChain (next prev : α → Option α) : Option α → Option α → List α → Prop
  | _, o, [] => o = none
  | p, o, a :: l => o = some a ∧ prev a = p ∧ DChain next prev (some a) (next a) l

namespace DChain
variable {prev prev' : α → Option α} {p : Option α}

theorem chain (h : DChain next prev p o l) : Chain next o l := by
  induction l generalizing p o with
  | nil => exact h
  | cons a l ih => exact ⟨h.1,ih h.2.2⟩

theorem congr (h : DChain next prev p o l) (hn : ∀ a ∈ l, next' a = next a) (hp : ∀ a ∈ l, prev' a = prev a) :
    DChain next' prev' p o l := by
  induction l generalizing p o with
  | nil => exact h
  | cons a l ih =>
    refine ⟨h.1,(hp a List.mem_cons_self).trans h.2.1,?_⟩
    rw [hn a List.mem_cons_self]
    exact ih h.2.2 (fun b hb => hn b (List.mem_cons_of_mem _ hb)) fun b hb => hp b (List.mem_cons_of_mem _ hb)

theorem rehead (h : DChain next prev p o l) (hn : ∀ a ∈ l, next' a = next a) {q : Option α}
    (hhead : ∀ a ∈ l, o = some a → prev' a = q) (hp : ∀ a ∈ l, o ≠ some a → prev' a = prev a) :
    DChain next' prev' q o l := by
  cases l with
  | nil => exact h
  | cons a l =>
    have hnd := List.nodup_cons.mp h.chain.nodup
    refine ⟨h.1,hhead a List.mem_cons_self h.1,?_⟩
    rw [hn a List.mem_cons_self]
    refine h.2.2.congr (fun b hb => hn b (List.mem_cons_of_mem _ hb)) fun b hb => ?_
    refine hp b (List.mem_cons_of_mem _ hb) fun hob => hnd.1 ?_
    rw [h.1] at hob
    exact Option.some.inj hob ▸ hb

theorem prev_of_next (h : DChain next prev p o l) (ha : a ∈ l) (hb : next a = some b) : prev b = some a := by
  induction l generalizing p o with
  | nil => cases ha
  | cons c l ih =>
    rcases List.mem_cons.mp ha with rfl | ha
    · have htail := h.2.2
      rw [hb] at htail
      cases l with
      | nil => cases htail
      | cons d l =>
        obtain ⟨hd,hprev,-⟩ := htail
        rw [Option.some.inj hd]
        exact hprev
    · exact ih h.2.2 ha

theorem prev_cases (h : DChain next prev p o l) (hb : b ∈ l) :
    (o = some b ∧ prev b = p) ∨ ∃ a ∈ l, prev b = some a ∧ next a = some b := by
  induction l generalizing p o with
  | nil => cases hb
  | cons c l ih =>
    rcases List.mem_cons.mp hb with rfl | hb
    · exact Or.inl ⟨h.1,h.2.1⟩
    · rcases ih h.2.2 hb with ⟨hnc,hpb⟩ | ⟨a,ha,hpa,hna⟩
      · exact Or.inr ⟨c,List.mem_cons_self,hpb,hnc⟩
      · exact Or.inr ⟨a,List.mem_cons_of_mem _ ha,hpa,hna⟩

theorem unlink [DecidableEq α] {c : α} (h : DChain next prev p o l) (hc : p ≠ some c)
    (hn : ∀ a ∈ l, a ≠ c → next' a = if next a = some c then next c else next a)
    (hp : ∀ a ∈ l, a ≠ c → prev' a = if prev a = some c then prev c else prev a) :
    DChain next' prev' p (if o = some c then next c else o) (l.erase c) := by
  induction l generalizing p o with
  | nil =>
    rw [show o = none from h]
    exact rfl
  | cons a l ih =>
    obtain ⟨hoa,hpa,htail⟩ := id h
    have hnd := List.nodup_cons.mp h.chain.nodup
    by_cases hac : a = c
    · subst hac
      -- the tail keeps its links, but its first element gets a new predecessor
      rw [List.erase_cons_head, if_pos hoa]
      have hne : ∀ b ∈ l, b ≠ a := by
        rintro b hb rfl
        exact hnd.1 hb
      refine htail.rehead (fun b hb => ?_) (fun b hb hfirst => ?_) fun b hb hlater => ?_
      · rw [hn b (List.mem_cons_of_mem _ hb) (hne b hb), if_neg]
        exact fun hba => hnd.1 (htail.chain.mem_of_next hb hba)
      · rw [hp b (List.mem_cons_of_mem _ hb) (hne b hb), h.prev_of_next List.mem_cons_self hfirst, if_pos rfl, hpa]
      · rw [hp b (List.mem_cons_of_mem _ hb) (hne b hb), if_neg]
        intro hba
        rcases htail.prev_cases hb with ⟨hfirst,-⟩ | ⟨d,hd,hdb,-⟩
        · exact hlater hfirst
        · exact hne d hd (Option.some.inj (hdb.symm.trans hba))
    · have ho : o ≠ some c := fun hoc => hac (Option.some.inj (hoa.symm.trans hoc))
      have hprev : prev' a = p := by
        rw [hp a List.mem_cons_self hac, hpa, if_neg hc]
      rw [if_neg ho, List.erase_cons_tail (by simpa using hac)]
      refine ⟨hoa,hprev,?_⟩
      rw [hn a List.mem_cons_self hac]
      exact ih htail (fun hh => hac (Option.some.inj hh)) (fun b hb => hn b (List.mem_cons_of_mem _ hb))
        fun b hb => hp b (List.mem_cons_of_mem _ hb)

end DChain

end Ukern.Lib
