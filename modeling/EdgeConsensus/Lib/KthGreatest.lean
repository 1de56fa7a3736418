import Mathlib.Data.Fintype.Card
import Mathlib.Data.Fintype.Lattice
import Mathlib.Order.Bounds.Basic

/-!
# The k-th greatest value

Of finitely many values `M i` in a linear order, `reached M x` counts those that are
at least `x`; the `k`-th greatest is the greatest `x` that `k` of them reach.

* `KthGreatest.of_forall_le`: what all values reach is not above it.
* `KthGreatest.forall_le_iff`: all values reach it if and only if it is the least one.
-/

namespace EdgeConsensus.Lib

variable {ι α : Type*} [Fintype ι] [LinearOrder α] {M : ι → α} {k : ℕ} {x y : α}

/-- How many values reach `x`. -/
def reached (M : ι → α) (x : α) : ℕ := (Finset.univ.filter fun i => x ≤ M i).card

/-- `x` is the greatest that `k` values reach. -/
def KthGreatest (M : ι → α) (k : ℕ) (x : α) : Prop := IsGreatest {x | k ≤ reached M x} x

theorem reached_eq_card (h : ∀ i, x ≤ M i) : reached M x = Fintype.card ι := by
  unfold reached
  rw [Finset.filter_true_of_mem fun i _ => h i]
  rfl

theorem exists_of_reached (h : 0 < reached M x) : ∃ i, x ≤ M i := by
  obtain ⟨i, hi⟩ := Finset.card_pos.1 h
  exact ⟨i, (Finset.mem_filter.1 hi).2⟩

/-- What all values reach is not above the `k`-th greatest. -/
theorem KthGreatest.of_forall_le (h : KthGreatest M k x) (hk : k ≤ Fintype.card ι) (hy : ∀ i, y ≤ M i) :
    y ≤ x := by
  have hreached : k ≤ reached M y := by rw [reached_eq_card hy]; exact hk
  exact h.2 hreached

/-- **All values reach the `k`-th greatest** if and only if it is the least one. -/
theorem KthGreatest.forall_le_iff (h : KthGreatest M k x) (hk : k ≤ Fintype.card ι) {l : ι}
    (hl : ∀ i, M l ≤ M i) : (∀ i, x ≤ M i) ↔ x = M l := by
  constructor
  · intro hx
    exact le_antisymm (hx l) (h.of_forall_le hk hl)
  · rintro rfl
    exact hl

end EdgeConsensus.Lib
