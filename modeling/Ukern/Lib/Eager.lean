import Mathlib.Logic.Function.Basic
import Ukern.Lib.Simulation

/-! # Processes with private memories

The machine that copy-on-write stands in for: a fork copies the whole memory at once, and whatever is written
reaches the memory of one process.
-/
namespace Ukern.Lib
variable {P A B : Type*} [DecidableEq P]

/-- The memory of each process; a process that does not exist has none. -/
abbrev Memories (P A B : Type*) := P → Option (A → Option B)

inductive Act (P A B : Type*)
  | fork (p n : P)
  | put (p : P) (g : A → Option B)
  | become (p : P) (f : A → Option B)
  | exit (p : P)

inductive Eager : Memories P A B → Act P A B → Memories P A B → Prop
  | fork {M : Memories P A B} {p n : P} {f : A → Option B} (hp : M p = some f) (hn : M n = none) :
      Eager M (.fork p n) (Function.update M n (some f))
  /-- The bytes of `g` are written, all of them at addresses that the process has. -/
  | put {M : Memories P A B} {p : P} {f g : A → Option B} (hp : M p = some f) (hg : ∀ a, f a = none → g a = none) :
      Eager M (.put p g) (Function.update M p (some fun a => (g a).or (f a)))
  | become {M : Memories P A B} {p : P} {f f' : A → Option B} (hp : M p = some f) :
      Eager M (.become p f') (Function.update M p (some f'))
  | exit {M : Memories P A B} {p : P} {f : A → Option B} (hp : M p = some f) :
      Eager M (.exit p) (Function.update M p none)

end Ukern.Lib
