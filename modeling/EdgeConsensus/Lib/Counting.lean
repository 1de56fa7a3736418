import Mathlib.Data.Finset.Card
import Mathlib.Data.Finset.Range
import Mathlib.Order.Monotone.Basic

/-!
# Counting the changes of a run

* `card_changes_le`: a number that only grows changes as often as it has grown, at most.
* `card_windows_le`: of consecutive windows, no more have a change in them than there are changes.
-/

namespace EdgeConsensus.Lib

open scoped Finset

/-- **A number that only grows** changes as often as it has grown, at most. -/
theorem card_changes_le {f : ℕ → ℕ} (hmono : ∀ k, f k ≤ f (k + 1)) (m : ℕ) :
    #{k ∈ Finset.range m | f k ≠ f (k + 1)} + f 0 ≤ f m := by
  induction m with
  | zero => simp
  | succ m ih =>
    rw [Finset.range_add_one, Finset.filter_insert]
    have hstep := hmono m
    split
    · rename_i hchange
      rw [Finset.card_insert_of_notMem (by simp)]
      omega
    · omega

/-- **Windows with a change** are no more than the changes: window `j` is from `t j` on and before `t (j + 1)`. -/
theorem card_windows_le {t : ℕ → ℕ} (ht : Monotone t) (p : ℕ → Prop) [DecidablePred p] (r : ℕ) :
    #{j ∈ Finset.range r | ∃ l < t (j + 1), t j ≤ l ∧ p l} ≤ #{l ∈ Finset.range (t r) | p l} := by
  induction r with
  | zero => simp
  | succ r ih =>
    have hle : t r ≤ t (r + 1) := ht (Nat.le_succ r)
    have hsub : {l ∈ Finset.range (t r) | p l} ⊆ {l ∈ Finset.range (t (r + 1)) | p l} :=
      Finset.filter_subset_filter _ (Finset.range_mono hle)
    rw [Finset.range_add_one, Finset.filter_insert]
    split
    · rename_i hchange
      obtain ⟨l, hl, htl, hp⟩ := hchange
      -- the change in the last window is none of those before
      have hnew : l ∉ {l ∈ Finset.range (t r) | p l} := by
        intro hmem
        have hlt := Finset.mem_range.1 (Finset.mem_filter.1 hmem).1
        omega
      have hinsert : insert l {l ∈ Finset.range (t r) | p l} ⊆ {l ∈ Finset.range (t (r + 1)) | p l} := by
        intro x hx
        rcases Finset.mem_insert.1 hx with rfl | hx
        · exact Finset.mem_filter.2 ⟨Finset.mem_range.2 hl, hp⟩
        · exact hsub hx
      have hcard : #{l ∈ Finset.range (t r) | p l} + 1 ≤ #{l ∈ Finset.range (t (r + 1)) | p l} := by
        rw [← Finset.card_insert_of_notMem hnew]
        exact Finset.card_le_card hinsert
      rw [Finset.card_insert_of_notMem (by simp)]
      omega
    · exact ih.trans (Finset.card_le_card hsub)

end EdgeConsensus.Lib
