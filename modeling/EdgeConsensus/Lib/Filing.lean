import Mathlib.Data.List.Basic
import Mathlib.Data.Nat.Notation
import Mathlib.Logic.Function.Basic

/-!
# Filing a sequence under keys

A map in which every item of a sequence is filed under its key, so that a later item
takes the place of an earlier one with the same key.

* `fileAll_apply`: under a key lies the last of the items with that key (`lastWith`),
  or what lay there before.
-/

namespace EdgeConsensus.Lib

variable {α κ : Type*} [DecidableEq κ] (key : α → κ)

/-- The last item with this key. -/
def lastWith (k : κ) (l : List α) : Option α := (l.filter fun x => key x = k).getLast?

/-- The items are filed one after the other. -/
def fileAll (m : κ → Option α) (l : List α) : κ → Option α :=
  l.foldl (fun m x => Function.update m (key x) (some x)) m

@[simp] theorem lastWith_nil (k : κ) : lastWith key k [] = none := rfl

theorem lastWith_append (k : κ) (l l' : List α) :
    lastWith key k (l ++ l') = (lastWith key k l').or (lastWith key k l) := by
  unfold lastWith
  rw [List.filter_append, List.getLast?_append]

theorem lastWith_singleton (k : κ) (x : α) : lastWith key k [x] = if key x = k then some x else none := by
  unfold lastWith
  by_cases hx : key x = k
  · simp [hx]
  · simp [hx]

theorem lastWith_cons (k : κ) (x : α) (l : List α) :
    lastWith key k (x :: l) = (lastWith key k l).or (if key x = k then some x else none) := by
  have happend := lastWith_append key k [x] l
  rwa [lastWith_singleton] at happend

/-- An item with another key at the end does not matter, wherever the list is cut. -/
theorem lastWith_take_concat {k : κ} {x : α} (hx : key x ≠ k) (l : List α) (i : ℕ) :
    lastWith key k ((l ++ [x]).take i) = lastWith key k (l.take i) := by
  rw [List.take_append, lastWith_append]
  have hnone : lastWith key k ([x].take (i - l.length)) = none := by
    cases i - l.length with
    | zero => rfl
    | succ j => simp [lastWith, hx]
  rw [hnone, Option.none_or]

@[simp] theorem fileAll_nil (m : κ → Option α) : fileAll key m [] = m := rfl

@[simp] theorem fileAll_singleton (m : κ → Option α) (x : α) :
    fileAll key m [x] = Function.update m (key x) (some x) := rfl

theorem fileAll_append (m : κ → Option α) (l l' : List α) :
    fileAll key m (l ++ l') = fileAll key (fileAll key m l) l' := by
  unfold fileAll
  rw [List.foldl_append]

/-- **What lies under a key**: the last item filed with it, or what lay there before. -/
theorem fileAll_apply (k : κ) (l : List α) (m : κ → Option α) :
    fileAll key m l k = (lastWith key k l).or (m k) := by
  induction l generalizing m with
  | nil => rfl
  | cons x l ih =>
    have hstep : fileAll key m (x :: l) = fileAll key (Function.update m (key x) (some x)) l := rfl
    rw [hstep, ih, lastWith_cons, Option.or_assoc]
    by_cases hx : key x = k
    · subst hx
      simp
    · rw [Function.update_of_ne (Ne.symm hx), if_neg hx, Option.none_or]

end EdgeConsensus.Lib
