import Mathlib.Data.List.Basic
import Mathlib.Logic.Function.Iterate
import Mathlib.Tactic.Common

/-!
# Catching up by probing

A copy `F` is brought to agree with a list `L` by entries that carry a tag `τ`. One
probe at `k` compares the tags just before `k`: if they differ, it goes one back (but
not below 1); if they agree, it cuts the copy there, appends the entry of `L` at `k`,
and goes one on.

* `probes_append`: from a common part of length `k`, each probe adds one entry.
* `probes_converge`: if the two have the same first element and agree up to wherever
  their tags do, the probes end with `F = L`, whatever the length of `F`.
-/

namespace EdgeConsensus.Lib

variable {α β : Type*} {τ : α → β} {L F : List α} {k : ℕ}

/-- The copies agree as far as any tags do. -/
def Agree (τ : α → β) (L F : List α) : Prop :=
  ∀ (i : ℕ) (x y : α), L[i]? = some x → F[i]? = some y → τ x = τ y → ∀ j ≤ i, L[j]? = F[j]?

theorem Agree.take_eq (h : Agree τ L F) (h0 : 0 < k) (hk : k ≤ L.length)
    (ht : (F[k - 1]?).map τ = (L[k - 1]?).map τ) : F.take k = L.take k := by
  have hlt : k - 1 < L.length := by omega
  have hL : L[k - 1]? = some L[k - 1] := List.getElem?_eq_getElem hlt
  rw [hL, Option.map_some, Option.map_eq_some_iff] at ht
  obtain ⟨y, hy, hty⟩ := ht
  refine List.ext_getElem? fun j => ?_
  rcases Nat.lt_or_ge j k with hj | hj
  · rw [List.getElem?_take_of_lt hj, List.getElem?_take_of_lt hj]
    exact (h (k - 1) L[k - 1] y hL hy hty.symm j (by omega)).symm
  · rw [List.getElem?_eq_none (by rw [List.length_take]; omega),
      List.getElem?_eq_none (by rw [List.length_take]; omega)]

variable [DecidableEq β]

/-- One probe at `k`: the copy and the next place. -/
def probe (τ : α → β) (L : List α) (p : List α × ℕ) : List α × ℕ :=
  if (p.1[p.2 - 1]?).map τ = (L[p.2 - 1]?).map τ then (p.1.take p.2 ++ L[p.2]?.toList, p.2 + 1)
  else (p.1, if p.2 ≠ 1 then p.2 - 1 else p.2)

/-- Where the copies agree up to `k`, a probe at `k` adds the next entry. -/
theorem probe_take (h0 : 0 < k) (h : F.take k = L.take k) :
    probe τ L (F, k) = (L.take (k + 1), k + 1) := by
  have hbefore : F[k - 1]? = L[k - 1]? := by
    rw [← List.getElem?_take_of_lt (by omega : k - 1 < k), h, List.getElem?_take_of_lt (by omega)]
  unfold probe
  simp only [hbefore, if_true, h, List.take_add_one]

/-- **From agreement up to `k` on, each probe adds one entry.** -/
theorem probes_append (h0 : 0 < k) (h : F.take k = L.take k) :
    ∀ r, (probe τ L)^[r + 1] (F, k) = (L.take (k + r + 1), k + r + 1) := by
  intro r
  induction r with
  | zero => exact probe_take h0 h
  | succ r ih =>
    have htake : (L.take (k + r + 1)).take (k + r + 1) = L.take (k + r + 1) := by
      rw [List.take_take, Nat.min_self]
    rw [Function.iterate_succ_apply', ih]
    exact probe_take (by omega) htake

/-- **Probing converges**: it goes back to where the copies agree, and on from there to the
end. On the way it stays inside the list. -/
theorem probes_converge (h : Agree τ L F) (hfirst : F[0]? = L[0]?) (h0 : 0 < k) (hk : k < L.length) :
    ∃ r, r ≤ k + L.length ∧ (probe τ L)^[r] (F, k) = (L, L.length) ∧
      ∀ j < r, 0 < ((probe τ L)^[j] (F, k)).2 ∧ ((probe τ L)^[j] (F, k)).2 < L.length := by
  induction k with
  | zero => omega
  | succ k ih =>
    by_cases ht : (F[k]?).map τ = (L[k]?).map τ
    · -- forward to the end
      have htake := h.take_eq (k := k + 1) h0 (by omega) ht
      have hiter := probes_append (τ := τ) h0 htake
      refine ⟨L.length - (k + 1), by omega, ?_, fun j hj => ?_⟩
      · obtain ⟨r, hr⟩ : ∃ r, L.length - (k + 1) = r + 1 := ⟨L.length - (k + 1) - 1, by omega⟩
        have hlen : k + 1 + r + 1 = L.length := by omega
        rw [hr, hiter r, hlen, List.take_length]
      · cases j with
        | zero => exact ⟨h0, hk⟩
        | succ j =>
          rw [hiter j]
          exact ⟨by omega, by omega⟩
    · -- one back
      have hk0 : k ≠ 0 := by
        rintro rfl
        exact ht (by rw [hfirst])
      have hprobe : probe τ L (F, k + 1) = (F, k) := by
        unfold probe
        simp only [Nat.add_sub_cancel, if_neg ht]
        rw [if_pos (by omega)]
      obtain ⟨r, hr, hend, hin⟩ := ih (by omega) (by omega)
      refine ⟨r + 1, by omega, ?_, fun j hj => ?_⟩
      · rw [Function.iterate_succ_apply, hprobe]
        exact hend
      · cases j with
        | zero => exact ⟨h0, hk⟩
        | succ j =>
          rw [Function.iterate_succ_apply, hprobe]
          exact hin j (by omega)

end EdgeConsensus.Lib
