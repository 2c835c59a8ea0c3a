import Mathlib.Data.List.GetD
import Ukern.Memory.Buffer

/-! # Stores at any user address

The bytes of a kernel store through a user pointer go through the page table one by one, so a word may lie in
two pages whose frames have nothing to do with each other.
-/
namespace Ukern
open Lib Lib.Radix
variable {m m' : Phys} {t t₂ kp n : ℕ} {v : U64} {bs cs : List UInt8}

theorem kstores_append (m : Phys) (v : U64) (l bs : List UInt8) :
    kstores m t v (l ++ bs) = kstores m t v l >>= fun m => kstores m t (v + BitVec.ofNat 64 l.length) bs := by
  induction l generalizing m v with
  | nil => simp only [List.nil_append, kstores, List.length_nil, BitVec.add_zero, ok_bind]
  | cons a l ih =>
    simp only [List.cons_append, kstores]
    cases h : kstore m t v a with
    | error e => rfl
    | ok m' =>
      rw [ok_bind, ok_bind, ih]
      congr 1
      funext m
      rw [List.length_cons, Nat.add_comm, BitVec.ofNat_add, BitVec.add_assoc]
      rfl

theorem Phys.setBytes_append (m : Phys) (pa : ℕ) (l bs : List UInt8) :
    m.setBytes pa (l ++ bs) = (m.setBytes pa l).setBytes (pa + l.length) bs := by
  induction l generalizing m pa with
  | nil => rfl
  | cons b l ih =>
    rw [List.cons_append, setBytes, setBytes, ih, List.length_cons, Nat.add_assoc, Nat.add_comm 1]

theorem kstores_snoc (m : Phys) (v : U64) (l : List UInt8) (b : UInt8) :
    kstores m t v (l ++ [b]) = kstores m t v l >>= fun m => kstore m t (v + BitVec.ofNat 64 l.length) b := by
  rw [kstores_append]
  congr 1
  funext m
  rw [kstores]
  cases kstore m t (v + BitVec.ofNat 64 l.length) b <;> rfl

theorem Phys.setByte_data (m : Phys) (f v : ℕ) (b : UInt8) (f' i : ℕ) : (m.setByte (f * pgsize + v % pgsize) b).data f' i =
    if f' = f ∧ i = v % pgsize then b else m.data f' i := by
  have hlt : v % pgsize < pgsize := Nat.mod_lt _ (by decide)
  have hd : (f * pgsize + v % pgsize) / pgsize = f := by
    rw [Nat.mul_comm, Nat.mul_add_div (by decide), Nat.div_eq_of_lt hlt, Nat.add_zero]
  have hm : (f * pgsize + v % pgsize) % pgsize = v % pgsize := by
    rw [Nat.mul_comm, Nat.mul_add_mod, Nat.mod_eq_of_lt hlt]
  simp only [Phys.setByte,hd,hm]
  by_cases hf : f' = f
  · subst hf
    rw [Function.update_self]
    by_cases hi : i = v % pgsize
    · rw [hi, Function.update_self, if_pos ⟨rfl,rfl⟩]
    · rw [Function.update_of_ne hi, if_neg fun hh => hi hh.2]
  · rw [Function.update_of_ne hf, if_neg fun hh => hf hh.1]

/-- A user address is its page number and the place in the page. -/
theorem addr_eq {v w : ℕ} (hv : v < userTop) (hw : w < userTop) (hk : key 3 v = key 3 w)
    (hm : v % pgsize = w % pgsize) : v = w := by
  unfold userTop at hv hw
  unfold key pgsize at hk
  unfold pgsize at hm
  omega

/-- `n` bytes from `v` on are mapped user memory. -/
structure Span (m : Phys) (t : ℕ) (v : U64) (n : ℕ) : Prop where
  user : v.toNat + n ≤ userTop
  present : ∀ i < n, (entry m t (key 3 (v.toNat + i))).p = true

/-- The frame behind a user address. -/
def frameAt (m : Phys) (t a : ℕ) : ℕ := (entry m t (key 3 a)).frame

/-- Frame `f` and offset `x` are the place of one of the `n` bytes from `v` on. -/
def Hit (m : Phys) (t : ℕ) (v : U64) (n f x : ℕ) : Prop :=
  ∃ i < n, f = frameAt m t (v.toNat + i) ∧ x = (v.toNat + i) % pgsize

/-- The bytes `bs` have been stored from `v` on, and nothing else. -/
structure Wrote (m m' : Phys) (t : ℕ) (v : U64) (bs : List UInt8) : Prop where
  rest : ∃ d, m' = { m with data := d }
  bytes : ∀ i < bs.length, m'.data (frameAt m t (v.toNat + i)) ((v.toNat + i) % pgsize) = bs.getD i 0
  others : ∀ f x, ¬ Hit m t v bs.length f x → m'.data f x = m.data f x

theorem Buffer.span (h : Buffer m t v n) : Span m t v n := by
  have hu := h.user
  have hf := h.fits
  refine ⟨?_,fun i hi => ?_⟩
  · unfold userTop pgsize at *
    omega
  · have hkey : key 3 (v.toNat + i) = key 3 v.toNat := by
      unfold key pgsize at *
      omega
    rw [hkey]
    exact h.present

theorem Span.mono {n' : ℕ} (h : Span m t v n) (hle : n' ≤ n) : Span m t v n' :=
  ⟨by have := h.user; omega,fun i hi => h.present i (by omega)⟩

theorem Span.add_toNat (h : Span m t v n) {i : ℕ} (hi : i ≤ n) : (v + BitVec.ofNat 64 i).toNat = v.toNat + i := by
  have hu := h.user
  rw [BitVec.toNat_add, BitVec.toNat_ofNat]
  unfold userTop at hu
  omega

theorem Span.skip (h : Span m t v n) {i : ℕ} (hi : i ≤ n) : Span m t (v + BitVec.ofNat 64 i) (n - i) := by
  have hu := h.user
  refine ⟨?_,fun j hj => ?_⟩
  · rw [h.add_toNat hi]
    omega
  · rw [h.add_toNat hi, Nat.add_assoc]
    exact h.present (i+j) (by omega)

theorem Wrote.frameAt_eq (h : Wrote m m' t v bs) (s a : ℕ) : frameAt m' s a = frameAt m s a := by
  obtain ⟨d,rfl⟩ := h.rest
  rfl

theorem Wrote.mapped {s : ℕ} {u : U64} (h : Wrote m m' t v bs) (hm : Span m s u n) : Span m' s u n := by
  obtain ⟨d,rfl⟩ := h.rest
  exact ⟨hm.user,hm.present⟩

theorem Wrote.userLoad (h : Wrote m m' t v bs) (hs : Span m t v bs.length)
    (hc : ∀ i < bs.length, (entry m t (key 3 (v.toNat + i))).covers (pteP ||| pteU) = true) {i : ℕ} (hi : i < bs.length) :
    userLoad m' t (v.toNat + i) = some (bs.getD i 0) := by
  have hbyte := h.bytes i hi
  have hu := hs.user
  obtain ⟨d,rfl⟩ := h.rest
  have hif : v.toNat + i < userTop ∧ (entry m t (key 3 (v.toNat + i))).covers (pteP ||| pteU) = true :=
    ⟨by omega,hc i hi⟩
  rw [Ukern.userLoad]
  refine (if_pos hif).trans ?_
  rw [Phys.byte_frame]
  exact congrArg some hbyte

theorem kstore_stored {b : UInt8} (h : Span m t v 1) :
    kstore m t v b = .ok (m.setByte (frameAt m t v.toNat * pgsize + v.toNat % pgsize) b) := by
  have hu := h.user
  rw [kstore, if_neg (by omega), translate, if_pos ⟨by omega,h.present 0 (by omega)⟩]
  rfl

theorem kstores_stored (h : Span m t v bs.length) (hlen : bs.length ≤ pgsize) :
    ∃ m', kstores m t v bs = .ok m' ∧ Wrote m m' t v bs := by
  induction bs using List.reverseRecOn with
  | nil => exact ⟨m,rfl,⟨⟨_,rfl⟩,nofun,fun _ _ _ => rfl⟩⟩
  | append_singleton bs b ih =>
    rw [List.length_append, List.length_singleton] at h hlen
    obtain ⟨m₁,h₁,hs⟩ := ih (h.mono (by omega)) (by omega)
    have hlast : Span m₁ t (v + BitVec.ofNat 64 bs.length) 1 := by
      have := hs.mapped (h.skip (i := bs.length) (by omega))
      rwa [Nat.add_sub_cancel_left] at this
    have haddr := h.add_toNat (i := bs.length) (by omega)
    rw [kstores_snoc, h₁, ok_bind, kstore_stored hlast, haddr, hs.frameAt_eq]
    refine ⟨_,rfl,?_,fun i hi => ?_,fun f x hx => ?_⟩
    · obtain ⟨d,rfl⟩ := hs.rest
      exact ⟨_,rfl⟩
    · rw [Phys.setByte_data]
      rw [List.length_append, List.length_singleton] at hi
      by_cases hb : i = bs.length
      · rw [hb, if_pos ⟨rfl,rfl⟩, List.getD_append_right _ _ _ _ (Nat.le_refl _), Nat.sub_self]
        rfl
      · -- the bytes are less than a page apart, so they have different offsets
        rw [if_neg, hs.bytes i (by omega), List.getD_append _ _ _ _ (by omega)]
        rintro ⟨-,hoff⟩
        unfold pgsize at *
        omega
    · rw [Phys.setByte_data, if_neg, hs.others]
      · rintro ⟨i,hi,hfx⟩
        exact hx ⟨i,by simp only [List.length_append,List.length_singleton]; omega,hfx⟩
      · intro hfx
        exact hx ⟨bs.length,by simp,hfx⟩

end Ukern
