import Mathlib.Data.List.Basic
import Mathlib.Data.Nat.Init
import Mathlib.Data.Nat.Notation

/-!
# Runs of a deterministic system

A system is a total step function on states; a run is a list of events from an
initial state, and `stateAt step s es k` is the state after the first `k` events
(the last state from `es.length` on).

* `stateAt_invariant`: what holds at first and is kept by every step of the run
  holds at every time.
* `stateAt_mono`: a reflexive transitive relation kept by every step relates any
  two times in order.
* `happens`: what the events of a run do, as a property of its times; `Latest` is the
  last time before a given one at which something happened.
-/

namespace EdgeConsensus.Lib

variable {σ ε : Type*}

/-- The state after the first `k` events. -/
def stateAt (step : σ → ε → σ) (s : σ) (es : List ε) (k : ℕ) : σ :=
  (es.take k).foldl step s

variable (step : σ → ε → σ) (s : σ) (es : List ε)

@[simp] theorem stateAt_zero : stateAt step s es 0 = s := by simp [stateAt]

variable {step s es}

theorem stateAt_succ {k : ℕ} (hk : k < es.length) :
    stateAt step s es (k + 1) = step (stateAt step s es k) es[k] := by
  unfold stateAt
  rw [List.take_add_one, List.getElem?_eq_getElem hk, Option.toList_some, List.foldl_append]
  rfl

theorem stateAt_end {k : ℕ} (hk : es.length ≤ k) : stateAt step s es (k + 1) = stateAt step s es k := by
  unfold stateAt
  rw [List.take_of_length_le hk, List.take_of_length_le (by omega)]

variable (step s es) in
/-- A time of a run is followed by a step of it, or by itself. -/
theorem stateAt_succ_cases (k : ℕ) :
    (∃ hk : k < es.length, stateAt step s es (k + 1) = step (stateAt step s es k) es[k]) ∨
      stateAt step s es (k + 1) = stateAt step s es k := by
  rcases Nat.lt_or_ge k es.length with hk | hk
  · exact Or.inl ⟨hk, stateAt_succ hk⟩
  · exact Or.inr (stateAt_end hk)

/-- **Invariant rule.** -/
theorem stateAt_invariant {P : σ → Prop} (h0 : P s)
    (hstep : ∀ k (hk : k < es.length), P (stateAt step s es k) →
      P (step (stateAt step s es k) es[k])) :
    ∀ k, P (stateAt step s es k) := by
  intro k
  induction k with
  | zero => rwa [stateAt_zero]
  | succ k ih =>
    rcases stateAt_succ_cases step s es k with ⟨hk, h⟩ | h
    · rw [h]; exact hstep k hk ih
    · rw [h]; exact ih

/-- **Monotonicity rule.** -/
theorem stateAt_mono {R : σ → σ → Prop} (hrefl : ∀ s, R s s)
    (htrans : ∀ s t u, R s t → R t u → R s u)
    (hstep : ∀ k (hk : k < es.length), R (stateAt step s es k) (step (stateAt step s es k) es[k]))
    {j k : ℕ} (hjk : j ≤ k) : R (stateAt step s es j) (stateAt step s es k) := by
  induction k, hjk using Nat.le_induction with
  | base => exact hrefl _
  | succ k _ ih =>
    rcases stateAt_succ_cases step s es k with ⟨hk, h⟩ | h
    · rw [h]; exact htrans _ _ _ ih (hstep k hk)
    · rw [h]; exact ih

/-! ## Times at which something happens -/

/-- Event `k` of the run exists, and does what `p` asks in the state it meets. -/
def happens (step : σ → ε → σ) (s : σ) (es : List ε) (p : σ → ε → Bool) (k : ℕ) : Bool :=
  es[k]?.any (p (stateAt step s es k))

theorem happens_eq {p : σ → ε → Bool} {k : ℕ} (hk : k < es.length) :
    happens step s es p k = p (stateAt step s es k) es[k] := by
  simp [happens, hk]

theorem happens_end {p : σ → ε → Bool} {k : ℕ} (hk : es.length ≤ k) :
    happens step s es p k = false := by
  have hnone : es[k]? = none := List.getElem?_eq_none hk
  simp [happens, hnone]

/-- `l` is the last time before `k` that has the property. -/
def Latest (q : ℕ → Bool) (l k : ℕ) : Prop :=
  l < k ∧ q l = true ∧ ∀ x < k, l < x → q x = false

instance decidableLatest (q : ℕ → Bool) (l k : ℕ) : Decidable (Latest q l k) :=
  inferInstanceAs (Decidable (l < k ∧ q l = true ∧ ∀ x < k, l < x → q x = false))

variable {q : ℕ → Bool} {l k : ℕ}

theorem latest_succ_self (h : q k = true) : Latest q k (k + 1) :=
  ⟨Nat.lt_succ_self k, h, fun x hx hkx => absurd hx (by omega)⟩

theorem Latest.succ (h : Latest q l k) (hk : q k = false) : Latest q l (k + 1) := by
  obtain ⟨hl, hq, hnone⟩ := h
  refine ⟨by omega, hq, ?_⟩
  intro x hx hlx
  rcases Nat.lt_succ_iff_lt_or_eq.1 hx with hx | rfl
  · exact hnone x hx hlx
  · exact hk

/-! ## Small systems -/

instance neZeroTwo : @NeZero ℕ Zero.ofOfNat0 2 := Nat.instNeZeroSucc

instance neZeroThree : @NeZero ℕ Zero.ofOfNat0 3 := Nat.instNeZeroSucc

instance neZeroFour : @NeZero ℕ Zero.ofOfNat0 4 := Nat.instNeZeroSucc

end EdgeConsensus.Lib
