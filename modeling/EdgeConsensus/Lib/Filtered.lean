import Mathlib.Data.List.Basic
import Mathlib.Data.Nat.Notation

/-!
# Places in a filtered list

* `place p l i`: how many of the first `i` entries of `l` pass the filter `p`, so where entry `i` is among those
  that pass, if it does (`getElem?_place`).
-/

namespace EdgeConsensus.Lib

variable {α : Type*} (p : α → Bool) (l : List α)

/-- How many of the first `i` entries pass the filter. -/
def place (i : ℕ) : ℕ := (l.take i).countP p

variable {p l}

theorem place_mono {i j : ℕ} (hij : i ≤ j) : place p l i ≤ place p l j :=
  (List.take_sublist_take_left hij).countP_le

/-- What is appended later takes no place from what is there. -/
theorem place_le_append (i : ℕ) (l' : List α) : place p l i ≤ place p (l ++ l') i := by
  unfold place
  rw [List.take_append, List.countP_append]
  exact Nat.le_add_right _ _

theorem place_succ {i : ℕ} {x : α} (hx : l[i]? = some x) (hp : p x = true) :
    place p l (i + 1) = place p l i + 1 := by
  unfold place
  rw [List.take_add_one, hx, List.countP_append, Option.toList_some, List.countP_singleton, if_pos hp]

/-- **Where an entry is in the filtered list.** -/
theorem getElem?_place {i : ℕ} {x : α} (hx : l[i]? = some x) (hp : p x = true) :
    (l.filter p)[place p l i]? = some x := by
  obtain ⟨hi, hget⟩ := List.getElem?_eq_some_iff.1 hx
  have hsplit : l = l.take i ++ x :: l.drop (i + 1) := by
    rw [← hget, List.getElem_cons_drop, List.take_append_drop]
  have hfilter : l.filter p = (l.take i).filter p ++ x :: (l.drop (i + 1)).filter p := by
    rw [← List.filter_cons_of_pos hp, ← List.filter_append, ← hsplit]
  have hplace : place p l i = ((l.take i).filter p).length := List.countP_eq_length_filter
  rw [hplace, hfilter, List.getElem?_append_right (Nat.le_refl _), Nat.sub_self]
  rfl

end EdgeConsensus.Lib
