import Mathlib.Data.List.Nodup
import Mathlib.Tactic.Common

/-!
# Dictionaries in order of insertion

A finite map as the list of its entries in the order in which their keys came, which is the order an iteration
over it takes. An assignment to a key that is there leaves the key in its place.

* `find?_eq_some`: a lookup finds exactly the entries.
* `keys_assign`, `keys_erase`: the keys, in their order, after an assignment and a deletion.
* `mem_assign`, `mem_erase`: the entries after them.
-/

namespace EdgeConsensus.Lib

structure Dict (κ ν : Type*) where
  entries : List (κ × ν)
  nodup : (entries.map Prod.fst).Nodup
  deriving DecidableEq

namespace Dict

variable {κ ν : Type*} {d : Dict κ ν} {k k' : κ} {v : ν} {x y : κ × ν}

def empty : Dict κ ν := ⟨[], List.nodup_nil⟩

/-- The keys, in their order. -/
def keys (d : Dict κ ν) : List κ := d.entries.map Prod.fst

theorem nodup_keys (d : Dict κ ν) : d.keys.Nodup := d.nodup

theorem mem_keys : k ∈ d.keys ↔ ∃ v, (k, v) ∈ d.entries := by simp [keys]

/-- A key has one entry. -/
theorem key_unique (hx : x ∈ d.entries) (hy : y ∈ d.entries) (h : x.1 = y.1) : x = y :=
  List.inj_on_of_nodup_map d.nodup hx hy h

variable [DecidableEq κ]

/-- Assignment in the entries, at the end if the key is new. -/
def assignEntry (k : κ) (v : ν) : List (κ × ν) → List (κ × ν)
  | [] => [(k, v)]
  | x :: l => if x.1 = k then (k, v) :: l else x :: assignEntry k v l

theorem map_assignEntry (k : κ) (v : ν) (l : List (κ × ν)) :
    (assignEntry k v l).map Prod.fst = if k ∈ l.map Prod.fst then l.map Prod.fst else l.map Prod.fst ++ [k] := by
  induction l with
  | nil => simp [assignEntry]
  | cons x l ih =>
    unfold assignEntry
    by_cases hx : x.1 = k
    · simp [hx]
    · rw [if_neg hx, List.map_cons, ih, List.map_cons]
      by_cases hk : k ∈ l.map Prod.fst
      · rw [if_pos hk, if_pos (List.mem_cons_of_mem _ hk)]
      · have hnot : k ∉ x.1 :: l.map Prod.fst := by
          rw [List.mem_cons, not_or]
          exact ⟨Ne.symm hx, hk⟩
        rw [if_neg hk, if_neg hnot]
        rfl

theorem nodup_assignEntry {k : κ} {v : ν} {l : List (κ × ν)} (h : (l.map Prod.fst).Nodup) :
    ((assignEntry k v l).map Prod.fst).Nodup := by
  rw [map_assignEntry]
  split
  · exact h
  · rename_i hk
    apply List.Nodup.append h (List.nodup_singleton k)
    intro x hx hxk
    rw [List.mem_singleton.1 hxk] at hx
    exact hk hx

theorem mem_assignEntry {k : κ} {v : ν} {l : List (κ × ν)} (h : (l.map Prod.fst).Nodup) {x : κ × ν} :
    x ∈ assignEntry k v l ↔ x = (k, v) ∨ (x ∈ l ∧ x.1 ≠ k) := by
  induction l with
  | nil => simp [assignEntry]
  | cons y l ih =>
    rw [List.map_cons, List.nodup_cons] at h
    obtain ⟨hy, hl⟩ := h
    unfold assignEntry
    by_cases hk : y.1 = k
    · -- no other entry has the key
      have hne : ∀ z ∈ l, z.1 ≠ k := by
        intro z hz hzk
        apply hy
        rw [hk, ← hzk]
        exact List.mem_map_of_mem hz
      rw [if_pos hk, List.mem_cons, List.mem_cons]
      constructor
      · rintro (rfl | hx)
        · exact Or.inl rfl
        · exact Or.inr ⟨Or.inr hx, hne x hx⟩
      · rintro (rfl | ⟨rfl | hx, hxk⟩)
        · exact Or.inl rfl
        · exact absurd hk hxk
        · exact Or.inr hx
    · rw [if_neg hk, List.mem_cons, ih hl, List.mem_cons]
      constructor
      · rintro (rfl | rfl | ⟨hx, hxk⟩)
        · exact Or.inr ⟨Or.inl rfl, hk⟩
        · exact Or.inl rfl
        · exact Or.inr ⟨Or.inr hx, hxk⟩
      · rintro (rfl | ⟨rfl | hx, hxk⟩)
        · exact Or.inr (Or.inl rfl)
        · exact Or.inl rfl
        · exact Or.inr (Or.inr ⟨hx, hxk⟩)

/-- The value of a key. -/
def find? (d : Dict κ ν) (k : κ) : Option ν := (d.entries.find? fun x => x.1 = k).map Prod.snd

/-- Assignment, or insertion at the end. -/
def assign (d : Dict κ ν) (k : κ) (v : ν) : Dict κ ν := ⟨assignEntry k v d.entries, nodup_assignEntry d.nodup⟩

/-- Deletion of a key. -/
def erase (d : Dict κ ν) (k : κ) : Dict κ ν :=
  ⟨d.entries.filter fun x => x.1 ≠ k, d.nodup.sublist (List.filter_sublist.map Prod.fst)⟩

/-- **A lookup finds exactly the entries.** -/
theorem find?_eq_some : d.find? k = some v ↔ (k, v) ∈ d.entries := by
  unfold find?
  rw [Option.map_eq_some_iff]
  constructor
  · rintro ⟨x, hx, rfl⟩
    have hk : x.1 = k := by simpa using List.find?_some hx
    subst hk
    exact List.mem_of_find?_eq_some hx
  · intro hmem
    cases hf : d.entries.find? fun x => x.1 = k with
    | none =>
      have hnot := List.find?_eq_none.1 hf _ hmem
      simp at hnot
    | some x =>
      have hk : x.1 = k := by simpa using List.find?_some hf
      have hx := key_unique (List.mem_of_find?_eq_some hf) hmem hk
      exact ⟨x, rfl, by rw [hx]⟩

/-- A key that is there is found. -/
theorem find?_of_mem_keys (h : k ∈ d.keys) : ∃ v, d.find? k = some v := by
  obtain ⟨v, hv⟩ := mem_keys.1 h
  exact ⟨v, find?_eq_some.2 hv⟩

theorem mem_assign : x ∈ (d.assign k v).entries ↔ x = (k, v) ∨ (x ∈ d.entries ∧ x.1 ≠ k) :=
  mem_assignEntry d.nodup

/-- **An assignment** puts a new key behind all others, and leaves the keys as they are otherwise. -/
theorem keys_assign (d : Dict κ ν) (k : κ) (v : ν) :
    (d.assign k v).keys = if k ∈ d.keys then d.keys else d.keys ++ [k] := map_assignEntry k v d.entries

theorem assignEntry_of_notMem {l : List (κ × ν)} (h : k ∉ l.map Prod.fst) :
    assignEntry k v l = l ++ [(k, v)] := by
  induction l with
  | nil => rfl
  | cons x l ih =>
    rw [List.map_cons, List.mem_cons, not_or] at h
    unfold assignEntry
    rw [if_neg (Ne.symm h.1), ih h.2]
    rfl

theorem entries_assign_of_notMem (h : k ∉ d.keys) : (d.assign k v).entries = d.entries ++ [(k, v)] :=
  assignEntry_of_notMem h

theorem find?_assign_self (d : Dict κ ν) (k : κ) (v : ν) : (d.assign k v).find? k = some v :=
  find?_eq_some.2 (mem_assign.2 (Or.inl rfl))

theorem keys_prefix_assign (d : Dict κ ν) (k : κ) (v : ν) : d.keys <+: (d.assign k v).keys := by
  rw [keys_assign]
  split
  · exact List.prefix_rfl
  · exact List.prefix_append _ _

theorem mem_keys_assign : k' ∈ (d.assign k v).keys ↔ k' = k ∨ k' ∈ d.keys := by
  rw [keys_assign]
  split
  · rename_i hk
    constructor
    · intro h
      exact Or.inr h
    · rintro (rfl | h)
      · exact hk
      · exact h
  · rw [List.mem_append, List.mem_singleton, or_comm]

theorem mem_erase : x ∈ (d.erase k).entries ↔ x ∈ d.entries ∧ x.1 ≠ k := by simp [erase]

/-- **A deletion** leaves the other keys in their order. -/
theorem keys_erase (d : Dict κ ν) (k : κ) : (d.erase k).keys = d.keys.filter (· ≠ k) := by
  unfold keys erase
  rw [List.filter_map]
  rfl

end Dict

end EdgeConsensus.Lib
