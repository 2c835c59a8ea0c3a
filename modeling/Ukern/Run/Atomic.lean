import Ukern.Run.Running

/-! # Calls that fail before they have changed anything

`sys_fork` should either make a child or return an error and leave the kernel as it was. It
has no error return: it takes the slot and every page for granted, so it succeeds exactly
when a slot is closed and two copies of the caller's tables fit into the free pages.
-/
namespace Ukern
open Lib
variable {fs : Fs} {k k' : Kernel} {c n : Slot} {tf : Context}

/-- Slot `n` holds a child of `c`: memory, descriptors, directory and context are the parent's. -/
structure ChildOf (k k' : Kernel) (c n : Slot) (tf : Context) : Prop where
  fresh : (k.procs n).state = .close
  ready : (k'.procs n).state = .ready
  memory : ∀ v, userLoad k'.phys (k'.procs n).pgtbl v = userLoad k.phys (k.procs c).pgtbl v
  fdesc : ∀ fd < nfdesc, (k'.procs n).fdesc fd = (k.procs c).fdesc fd
  pwd : (k'.procs n).pwd = (k.procs c).pwd
  context : (k'.procs n).context = { tf with rax := 0 }

/-- Either a child, and its pid in `rax`, or a negative error and the kernel as it was. -/
def ForkAtomic (k : Kernel) (c : Slot) (tf : Context) : Prop :=
  (∃ k' n, sysFork k c tf = .ok (.ret { tf with rax := BitVec.ofNat 64 (k'.procs n).pid } k') ∧
    ChildOf k k' c n tf) ∨
  ∃ rax : U64, rax.toInt < 0 ∧ sysFork k c tf = .ok (.ret { tf with rax := rax } k)

theorem Forked.childLoad {m m' : Phys} {sp : Spaces} {kp t t₂ a b : ℕ} {extra : ℕ → ℕ}
    (hf : Forked m m' sp c t t₂ a b) (h : MemInv m kp sp extra) (hs : sp c = some (t,t₂))
    (hs' : Space m' kp a b) (v : ℕ) : userLoad m' a v = userLoad m t v := by
  have hsp := h.space c t t₂ hs
  rw [hs'.userLoad_eq, hsp.userLoad_eq]
  by_cases hv : v < userTop
  · have hag := hsp.agree _ (key_user hv)
    rw [hf.child _ (key_user hv)]
    cases hp : (entry m t (key 3 v)).p with
    | false =>
      have hp₂ : (entry m t₂ (key 3 v)).p = false := hag.1.symm.trans hp
      have hz : (entry m t₂ (key 3 v)).keep.drop (pteW &&& pteFlags) = .zero := by
        simp [Pte.keep,Pte.drop,hp₂]
      rw [hz]
      simp
    | true =>
      have hfull := (hag.cases hp).1
      rw [hfull, Pte.keep, if_pos (Pte.full_p _), Pte.full_drop]
      have hp₁ : (⟨(entry m t (key 3 v)).frame,pteP ||| pteU⟩ : Pte).p = true := by
        change (pteP ||| pteU).getLsbD 0 = true
        decide
      rw [hp₁, hf.data _ (h.entry_held hs (key_user hv) hp)]
  · simp [hv]

theorem allocProc_room (ho : Offers k.phys) (hn : k.closedSlot = some n) :
    (2 < k.phys.free.length → ∃ a b m₁ m₂, getPage k.phys true = .ok (a,m₁) ∧ getPage m₁ true = .ok (b,m₂) ∧
      allocProc k = .ok (some n,k.allot n a b m₂)) ∧
    (k.phys.free.length ≤ 2 → allocProc k = .error .nullDeref) := by
  unfold allocProc
  simp only [hn]
  by_cases h1 : 2 ≤ k.phys.free.length
  · obtain ⟨a,m₁,ha⟩ := getPage_room ho true h1
    have hl := (grow_getPage ha).length
    simp only [List.length_singleton] at hl
    rw [ha, ok_bind]
    refine ⟨fun h2 => ?_,fun h2 => ?_⟩
    · obtain ⟨b,m₂,hb⟩ := getPage_room ((grow_getPage ha).offers ho) true (by omega)
      exact ⟨a,b,m₁,m₂,rfl,hb,by simp only [hb,ok_bind]⟩
    · simp only [getPage_full (m := m₁) (z := true) (by omega),error_bind]
  · rw [getPage_full (by omega), error_bind]
    exact ⟨fun h2 => by omega,fun _ => rfl⟩

theorem forkFdesc_free (n c : Slot) (k : Kernel) (fd : ℕ) : (forkFdesc n c k fd).phys.free = k.phys.free := by
  unfold forkFdesc
  dsimp only
  split
  · rfl
  · split <;> rfl

theorem sysFork_room (tf : Context) (h : Sys k c) (hn : k.closedSlot = some n) :
    (2 + 2 * copyCost k.phys (k.procs c).pPgtbl < k.phys.free.length → ∃ o, sysFork k c tf = .ok o ∧
      k.phys.free.length = 2 + 2 * copyCost k.phys (k.procs c).pPgtbl + o.kernel.phys.free.length) ∧
    (k.phys.free.length ≤ 2 + 2 * copyCost k.phys (k.procs c).pPgtbl → sysFork k c tf = .error .nullDeref) := by
  have hinv := h.inv.owned.mem
  obtain ⟨hok,hfull⟩ := allocProc_room hinv.acct.offers hn
  by_cases h2 : k.phys.free.length ≤ 2
  · refine ⟨fun hroom => by omega,fun _ => ?_⟩
    rw [sysFork, hfull h2, error_bind]
  · obtain ⟨a,b,m₁,m₂,ha,hb,hal⟩ := hok (by omega)
    have hl₁ := (grow_getPage ha).length
    have hl₂ := (grow_getPage hb).length
    simp only [List.length_singleton] at hl₁ hl₂
    have hnc : c ≠ n := by
      rintro rfl
      exact h.open (closedSlot_closed hn)
    obtain ⟨k₁,hk₁⟩ : ∃ k₁, k₁ = addChild (k.allot n a b m₂) n c := ⟨_,rfl⟩
    have hrel : Relinked (k.allot n a b m₂) k₁ := hk₁ ▸ addChild_relinked
    have hln := hrel.like n
    have hlc := hrel.like c
    rw [allot_self] at hln
    rw [allot_ne hnc] at hlc
    have hspc : spaces k c = some ((k₁.procs c).pgtbl,(k₁.procs c).pPgtbl) := by
      rw [hlc.pgtbl, hlc.pPgtbl]
      exact spaces_some h.open
    have hroom := forkTables_room (k₁.procs n) hinv hspc (by rw [hln.pgtbl]; exact ha)
      (by rw [hln.pPgtbl]; exact hb)
    have hph : k₁.phys = m₂ := hrel.phys
    rw [hlc.pPgtbl] at hroom
    unfold sysFork
    simp only [hal,ok_bind,← hk₁,hph]
    refine ⟨fun hlt => ?_,fun hle => ?_⟩
    · obtain ⟨m₃,hm₃,hlen⟩ := hroom.1 (by omega)
      refine ⟨_,by rw [hm₃, ok_bind]; rfl,?_⟩
      have hfree : ∀ l : List ℕ, (l.foldl (forkFdesc n c) (k₁.setPhys m₃)).phys.free = m₃.free := by
        intro l
        refine foldl_inv (I := fun s : Kernel => s.phys.free = m₃.free) (fun s fd hs => ?_) rfl
        rw [forkFdesc_free]
        exact hs
      have hlen' := congrArg List.length (hfree (List.range nfdesc))
      generalize (List.range nfdesc).foldl (forkFdesc n c) (k₁.setPhys m₃) = k₂ at hlen' ⊢
      change _ = _ + k₂.phys.free.length
      omega
    · rw [hroom.2 (by omega), error_bind]

theorem sysFork_child {o : Outcome} (h : Sys k c) (hf : sysFork k c tf = .ok o) :
    ∃ k' n, o = .ret { tf with rax := BitVec.ofNat 64 (k'.procs n).pid } k' ∧ ChildOf k k' c n tf := by
  obtain ⟨n,k',rfl,hok⟩ := sysFork_spec h.inv h.open hf
  refine ⟨k',n,rfl,hok.fresh,hok.child.1,fun v => ?_,hok.fdesc,hok.pwd,hok.child.2.2⟩
  obtain ⟨m,P,hm,hforked⟩ := hok.tables
  have hspn : spaces k' n = some ((k'.procs n).pgtbl,(k'.procs n).pPgtbl) := spaces_some (by rw [hok.child.1]; nofun)
  have hsp := hok.inv.owned.mem.space n _ _ hspn
  rw [hm, hok.globals.1] at hsp
  rw [hm]
  exact hforked.childLoad h.inv.owned.mem (spaces_some h.open)
    ⟨hsp.small,hsp.small₂,hsp.agree,hsp.kernel,hsp.kernel₂⟩ v

theorem closedSlot_lone (m : Phys) (a b : ℕ) (pwd : FileDesc) : ∃ n, (loneKernel m a b pwd).closedSlot = some n := by
  cases hf : (loneKernel m a b pwd).closedSlot with
  | none =>
    have h1 := List.find?_eq_none.mp hf (slotAt 1) (List.mem_finRange _)
    rw [loneKernel_ne _ _ _ _ (by decide)] at h1
    exact absurd rfl h1
  | some n => exact ⟨n,rfl⟩

end Ukern
