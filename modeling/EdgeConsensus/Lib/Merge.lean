import Mathlib.Data.List.Basic
import Mathlib.Data.Nat.Notation
import Mathlib.Logic.Function.Basic
import Mathlib.Tactic.Common

/-!
# One queue, several sources

Sources of their own states fill one queue, in whatever order they are polled. A poll may
find nothing to do, or move its source on and put at most one item into the queue.

* `fromSource_run`: what a source has put into the queue depends on its own state and on
  how often it was polled, and not on the others.
-/

namespace EdgeConsensus.Lib

variable {ι σ α : Type*} [DecidableEq ι]

/-- The queue's items are kept with the source that they are from. -/
structure Merged (ι σ α : Type*) where
  source : ι → σ
  queue : List (ι × α)

/-- What one source does in `k` polls: the items that it has for the queue, and its state. -/
def drain (poll : σ → Option (Option α × σ)) : ℕ → σ → List α × σ
  | 0, s => ([], s)
  | k + 1, s =>
    match poll s with
    | none => ([], s)
    | some (x, s') => (x.toList ++ (drain poll k s').1, (drain poll k s').2)

namespace Merged

/-- Source `i` is polled. -/
def step (poll : σ → Option (Option α × σ)) (m : Merged ι σ α) (i : ι) : Merged ι σ α :=
  match poll (m.source i) with
  | none => m
  | some (x, s) =>
    { source := Function.update m.source i s, queue := m.queue ++ x.toList.map fun a => (i, a) }

/-- The items of the queue that are from source `i`, in their order. -/
def fromSource (m : Merged ι σ α) (i : ι) : List α := (m.queue.filter (·.1 = i)).map Prod.snd

theorem fromSource_step_ne (poll : σ → Option (Option α × σ)) (m : Merged ι σ α) {i j : ι} (h : j ≠ i) :
    (m.step poll j).fromSource i = m.fromSource i ∧ (m.step poll j).source i = m.source i := by
  unfold step fromSource
  cases hpoll : poll (m.source j) with
  | none => exact ⟨rfl, rfl⟩
  | some r =>
    obtain ⟨x, s⟩ := r
    constructor
    · have hnone : (x.toList.map fun a => (j, a)).filter (fun p => decide (p.1 = i)) = [] := by
        rw [List.filter_eq_nil_iff]
        intro p hp
        obtain ⟨a, -, rfl⟩ := List.mem_map.1 hp
        simpa using h
      simp only [List.filter_append, hnone, List.append_nil]
    · exact Function.update_of_ne (Ne.symm h) s m.source

theorem drain_none {poll : σ → Option (Option α × σ)} {s : σ} (h : poll s = none) (k : ℕ) :
    drain poll k s = ([], s) := by
  cases k with
  | zero => rfl
  | succ k => simp only [drain, h]

/-- **A source's items are what it drains to**, whatever the others do. -/
theorem fromSource_run (poll : σ → Option (Option α × σ)) (i : ι) (es : List ι) :
    ∀ m : Merged ι σ α, (es.foldl (step poll) m).fromSource i =
      m.fromSource i ++ (drain poll (es.count i) (m.source i)).1 := by
  induction es with
  | nil =>
    intro m
    simp [drain]
  | cons j es ih =>
    intro m
    rw [List.foldl_cons, ih (m.step poll j)]
    -- a turn of another source leaves this one as it is
    by_cases hji : j = i
    · subst hji
      rw [List.count_cons_self]
      cases hpoll : poll (m.source j) with
      | none =>
        have hstep : m.step poll j = m := by simp only [step, hpoll]
        rw [hstep, drain_none hpoll, drain_none hpoll]
      | some r =>
        obtain ⟨x, s⟩ := r
        have hsource : (m.step poll j).source j = s := by simp [step, hpoll]
        have hfrom : (m.step poll j).fromSource j = m.fromSource j ++ x.toList := by
          cases x <;> simp [step, hpoll, fromSource]
        rw [hsource, hfrom, drain, hpoll, List.append_assoc]
    · obtain ⟨hfrom, hsource⟩ := fromSource_step_ne poll m hji
      rw [hfrom, hsource, List.count_cons_of_ne hji]

end Merged

end EdgeConsensus.Lib
