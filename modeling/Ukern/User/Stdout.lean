import Ukern.User.Numeral

/-! # The buffer of `printf`

`putch` puts a NUL behind every character. The one behind the character that fills the buffer is stored outside of
it, before the buffer is given away, so a call of `printf` may print at most 4095 characters. Those are written as
they are.
-/
namespace Ukern.Printf
open Ukern.Lib
variable {o o' : Stdout} {b : Buf} {cs : List UInt8} {c : UInt8}

/-- What has been stored and not yet written. -/
def Stdout.pending (o : Stdout) : List UInt8 := (List.range o.len).map o.buf

theorem Stdout.store_eq {i : ℕ} (hi : i < stdoutSize) (c : UInt8) :
    o.store i c = .ok { o with buf := Function.update o.buf i c } := if_pos hi

theorem putch_room (h : o.len + 1 < stdoutSize) (c : UInt8) : ∃ o', putch o c = .ok o' ∧ o'.len = o.len + 1 ∧
    o'.pending = o.pending ++ [c] ∧ o'.written = o.written := by
  refine ⟨{ o with
    buf := Function.update (Function.update o.buf o.len c) (o.len + 1) 0
    len := o.len + 1 },?_,rfl,?_,rfl⟩
  · rw [putch, if_neg (by omega), Stdout.store_eq (by omega), ok_bind]
    exact Stdout.store_eq h 0
  · rw [Stdout.pending, Stdout.pending, map_update_length, List.range_succ, List.map_append, map_update_length]
    simp

theorem putch_full (h : o.len + 1 = stdoutSize) (c : UInt8) : putch o c = .error .outOfBounds := by
  rw [putch, if_neg (by omega), Stdout.store_eq (by omega), ok_bind]
  exact if_neg (by simp only; omega)

theorem putchs_room (h : o.len + cs.length < stdoutSize) : ∃ o', cs.foldlM putch o = .ok o' ∧
    o'.len = o.len + cs.length ∧ o'.pending = o.pending ++ cs ∧ o'.written = o.written := by
  induction cs generalizing o with
  | nil => exact ⟨o,rfl,rfl,(List.append_nil _).symm,rfl⟩
  | cons c cs ih =>
    rw [List.length_cons] at h
    obtain ⟨o₁,h₁,hlen₁,hpend₁,hw₁⟩ := putch_room (o := o) (by omega) c
    obtain ⟨o',h',hlen',hpend',hw'⟩ := ih (o := o₁) (by omega)
    refine ⟨o',?_,?_,?_,hw'.trans hw₁⟩
    · rw [List.foldlM_cons, h₁]
      exact h'
    · rw [hlen', hlen₁, List.length_cons]
      omega
    · rw [hpend', hpend₁, List.append_assoc]
      rfl

theorem putchs_full (ho : o.len < stdoutSize) (h : stdoutSize ≤ o.len + cs.length) :
    cs.foldlM putch o = .error .outOfBounds := by
  induction cs generalizing o with
  | nil =>
    rw [List.length_nil] at h
    omega
  | cons c cs ih =>
    rw [List.length_cons] at h
    rw [List.foldlM_cons]
    by_cases hlast : o.len + 1 = stdoutSize
    · rw [putch_full hlast]
      rfl
    · obtain ⟨o₁,h₁,hlen₁,-,-⟩ := putch_room (o := o) (by omega) c
      rw [h₁, ok_bind]
      exact ih (by omega) (by omega)

/-! ## Calls of `printf` -/

/-- A call, and the characters that `vprintfmt` produces for it. -/
structure Call where
  fmt : List UInt8
  ap : List Arg
  chars : List UInt8
  produces : Emits putch (vprintfmt putch fmt ap) chars

/-- The calls return one after the other, and each has written its characters. -/
def AllWritten : List Call → Buf → Stdout → Prop
  | [], _, _ => True
  | call :: calls, b, o => ∃ b' o' ws, printf call.fmt call.ap b o = .ok (b',o') ∧
      o'.written = o.written ++ ws ∧ ws.flatten = call.chars ∧ AllWritten calls b' o'

theorem printf_eq (call : Call) (b : Buf) : ∃ b', ∀ o, printf call.fmt call.ap b o =
    call.chars.foldlM putch o >>= fun o => .ok (b',if 0 < o.len then o.flush else o) := by
  obtain ⟨b',h⟩ := call.produces b
  refine ⟨b',fun o => ?_⟩
  rw [printf, h, bind_assoc]
  rfl

theorem printf_room (call : Call) (ho : o.len = 0) (h : call.chars.length < stdoutSize) (b : Buf) :
    ∃ b' o' ws, printf call.fmt call.ap b o = .ok (b',o') ∧ o'.written = o.written ++ ws ∧
      ws.flatten = call.chars ∧ o'.len = 0 := by
  obtain ⟨b',hrun⟩ := printf_eq call b
  obtain ⟨o₁,h₁,hlen,hpend,hw⟩ := putchs_room (show o.len + call.chars.length < stdoutSize by omega)
  have hempty : o.pending = [] := by rw [Stdout.pending, ho]; rfl
  rw [hempty, List.nil_append] at hpend
  rw [hrun, h₁, ok_bind]
  by_cases hpos : 0 < o₁.len
  · refine ⟨b',o₁.flush,[o₁.pending],by rw [if_pos hpos],?_,?_,rfl⟩
    · rw [Stdout.flush, hw]
      rfl
    · rw [List.flatten_singleton, hpend]
  · have hnil : call.chars = [] := List.length_eq_zero_iff.mp (by omega)
    refine ⟨b',o₁,[],by rw [if_neg hpos],?_,?_,by omega⟩
    · rw [hw, List.append_nil]
    · rw [hnil]
      rfl

theorem printf_full (call : Call) (ho : o.len = 0) (h : stdoutSize ≤ call.chars.length) (b : Buf) :
    printf call.fmt call.ap b o = .error .outOfBounds := by
  obtain ⟨b',hrun⟩ := printf_eq call b
  rw [hrun, putchs_full (by rw [ho]; decide) (by omega)]
  rfl

theorem allWritten_iff (calls : List Call) (b : Buf) (ho : o.len = 0) :
    AllWritten calls b o ↔ ∀ call ∈ calls, call.chars.length < stdoutSize := by
  induction calls generalizing b o with
  | nil => exact iff_of_true trivial nofun
  | cons call calls ih =>
    rw [List.forall_mem_cons, AllWritten]
    by_cases hlen : call.chars.length < stdoutSize
    · obtain ⟨b',o',ws,hrun,hw,hflat,ho'⟩ := printf_room call ho hlen b
      rw [and_iff_right hlen, ← ih b' ho']
      constructor
      · rintro ⟨b₁,o₁,ws₁,hrun₁,-,-,hall⟩
        rw [hrun] at hrun₁
        cases hrun₁
        exact hall
      · intro hall
        exact ⟨b',o',ws,hrun,hw,hflat,hall⟩
    · refine iff_of_false ?_ fun hh => hlen hh.1
      rintro ⟨b₁,o₁,ws₁,hrun₁,-⟩
      rw [printf_full call ho (Nat.le_of_not_lt hlen)] at hrun₁
      cases hrun₁

/-- Any number of calls from the start of a program: the stores stay inside the buffer and everything is written in
order exactly if no call prints 4096 characters or more. -/
theorem printf_complete_iff (calls : List Call) (b buf : Buf) :
    AllWritten calls b ⟨buf,0,[]⟩ ↔ ∀ call ∈ calls, call.chars.length < 4096 :=
  allWritten_iff calls b rfl

theorem string_speaks {σ : Type} (put : Putch σ) (s fmt : List UInt8) (args : List Arg) :
    Says put (vprintfmt put (37 :: ([] ++ 's'.toUInt8 :: fmt)) (.str s :: args)) s (vprintfmt put fmt args) := by
  have he : Emits put (fun (b : Buf) o => printstr put s o >>= fun o => .ok (b,o)) s := fun b => ⟨b,fun _ => rfl⟩
  have hnone : Flags [] := nofun
  refine directive_speaks hnone (by decide) (by decide) (fun b o => ?_) he fmt
  change (printstr put s o >>= fun o => .ok (args,b,o)) = _
  rw [bind_assoc]
  rfl

/-- `printf("%s", s)`, which is how `cat` prints a block. -/
def Call.string (s : List UInt8) : Call where
  fmt := "%s".toList.map Char.toUInt8
  ap := [.str s]
  chars := s
  produces := string_speaks putch s [] []

/-- A block of 4096 characters is too long. -/
theorem block_runs_over : printf ("%s".toList.map Char.toUInt8) [.str (List.replicate 4096 97)] (fun _ => 0)
    ⟨fun _ => 0,0,[]⟩ = .error .outOfBounds := by
  refine printf_full (.string (List.replicate 4096 97)) rfl ?_ (fun _ => 0)
  change 4096 ≤ (List.replicate 4096 (97 : UInt8)).length
  rw [List.length_replicate]

end Ukern.Printf
