import Mathlib.Data.Option.Basic
import Mathlib.Order.Lattice
import Mathlib.Tactic.Common

/-!
# Maps sorted by key

A finite map as the list of its entries in the order of their keys, which is the
order an iteration over it takes. The list is sorted by construction, so a key has
one entry at most, and the map is what its entries are:

* `find?_eq_some`: a lookup finds exactly the entries.
* `find?_assign`, `find?_filter`: lookups after an insertion and a pruning.
-/

namespace EdgeConsensus.Lib

structure SortedMap (κ ν : Type*) [LinearOrder κ] where
  entries : List (κ × ν)
  sorted : entries.Pairwise fun x y => x.1 < y.1

namespace SortedMap

variable {κ ν : Type*} [LinearOrder κ]

/-- Insertion into the entries, over the entry of the same key if there is one. -/
def insertEntry (k : κ) (v : ν) : List (κ × ν) → List (κ × ν)
  | [] => [(k, v)]
  | x :: l =>
    if k < x.1 then (k, v) :: x :: l
    else if k = x.1 then (k, v) :: l
    else x :: insertEntry k v l

theorem mem_insertEntry {k : κ} {v : ν} {l : List (κ × ν)} (h : l.Pairwise fun x y => x.1 < y.1)
    {x : κ × ν} : x ∈ insertEntry k v l ↔ x = (k, v) ∨ (x ∈ l ∧ x.1 ≠ k) := by
  induction l with
  | nil => simp [insertEntry]
  | cons y l ih =>
    obtain ⟨hy, hl⟩ := List.pairwise_cons.1 h
    unfold insertEntry
    split
    · rename_i hlt
      -- all entries there are have greater keys
      have hne : ∀ z ∈ y :: l, z.1 ≠ k := by
        intro z hz
        rcases List.mem_cons.1 hz with rfl | hz
        · exact ne_of_gt hlt
        · exact ne_of_gt (lt_trans hlt (hy z hz))
      rw [List.mem_cons]
      exact ⟨fun h => h.imp_right fun hx => ⟨hx, hne x hx⟩, fun h => h.imp_right And.left⟩
    split
    · rename_i heq
      subst heq
      have hne : ∀ z ∈ l, z.1 ≠ y.1 := fun z hz => ne_of_gt (hy z hz)
      rw [List.mem_cons, List.mem_cons]
      constructor
      · rintro (rfl | hx)
        · exact Or.inl rfl
        · exact Or.inr ⟨Or.inr hx, hne x hx⟩
      · rintro (rfl | ⟨rfl | hx, hk⟩)
        · exact Or.inl rfl
        · exact absurd rfl hk
        · exact Or.inr hx
    · rename_i hne
      rw [List.mem_cons, ih hl, List.mem_cons]
      constructor
      · rintro (rfl | rfl | ⟨hx, hk⟩)
        · exact Or.inr ⟨Or.inl rfl, fun h => hne h.symm⟩
        · exact Or.inl rfl
        · exact Or.inr ⟨Or.inr hx, hk⟩
      · rintro (rfl | ⟨rfl | hx, hk⟩)
        · exact Or.inr (Or.inl rfl)
        · exact Or.inl rfl
        · exact Or.inr (Or.inr ⟨hx, hk⟩)

theorem sorted_insertEntry {k : κ} {v : ν} {l : List (κ × ν)} (h : l.Pairwise fun x y => x.1 < y.1) :
    (insertEntry k v l).Pairwise fun x y => x.1 < y.1 := by
  induction l with
  | nil => simp [insertEntry]
  | cons y l ih =>
    obtain ⟨hy, hl⟩ := List.pairwise_cons.1 h
    unfold insertEntry
    split
    · rename_i hlt
      refine List.pairwise_cons.2 ⟨fun z hz => ?_, h⟩
      rcases List.mem_cons.1 hz with rfl | hz
      · exact hlt
      · exact lt_trans hlt (hy z hz)
    split
    · rename_i heq
      subst heq
      exact List.pairwise_cons.2 ⟨hy, hl⟩
    · rename_i hnlt hne
      refine List.pairwise_cons.2 ⟨fun z hz => ?_, ih hl⟩
      rcases (mem_insertEntry hl).1 hz with rfl | ⟨hz, -⟩
      · exact lt_of_le_of_ne (not_lt.1 hnlt) fun h => hne h.symm
      · exact hy z hz

def empty : SortedMap κ ν := ⟨[], List.Pairwise.nil⟩

/-- The value of a key. -/
def find? (m : SortedMap κ ν) (k : κ) : Option ν := (m.entries.find? fun x => x.1 = k).map Prod.snd

/-- Insertion or assignment. -/
def assign (m : SortedMap κ ν) (k : κ) (v : ν) : SortedMap κ ν :=
  ⟨insertEntry k v m.entries, sorted_insertEntry m.sorted⟩

/-- The entries that pass a test. -/
def filter (m : SortedMap κ ν) (p : κ → ν → Bool) : SortedMap κ ν :=
  ⟨m.entries.filter fun x => p x.1 x.2, m.sorted.filter _⟩

variable {m : SortedMap κ ν} {k : κ} {v : ν}

/-- A key has one entry. -/
theorem key_unique {x y : κ × ν} (hx : x ∈ m.entries) (hy : y ∈ m.entries) (h : x.1 = y.1) : x = y := by
  have h1 : m.entries.Pairwise fun x y => x.1 = y.1 → x = y :=
    m.sorted.imp fun hlt heq => absurd heq (ne_of_lt hlt)
  have h2 : m.entries.Pairwise (flip fun x y => x.1 = y.1 → x = y) :=
    m.sorted.imp fun hlt heq => absurd heq (ne_of_gt hlt)
  exact List.Pairwise.forall_of_forall_of_flip (fun _ _ _ => rfl) h1 h2 hx hy h

/-- **A lookup finds exactly the entries.** -/
theorem find?_eq_some : m.find? k = some v ↔ (k, v) ∈ m.entries := by
  unfold find?
  rw [Option.map_eq_some_iff]
  constructor
  · rintro ⟨x, hx, rfl⟩
    have hk : x.1 = k := by simpa using List.find?_some hx
    subst hk
    exact List.mem_of_find?_eq_some hx
  · intro hmem
    cases hf : m.entries.find? fun x => x.1 = k with
    | none =>
      have := List.find?_eq_none.1 hf _ hmem
      simp at this
    | some x =>
      have hk : x.1 = k := by simpa using List.find?_some hf
      have hx := key_unique (List.mem_of_find?_eq_some hf) hmem hk
      exact ⟨x, rfl, by rw [hx]⟩

theorem find?_eq_none : m.find? k = none ↔ ∀ v, (k, v) ∉ m.entries := by
  constructor
  · intro h v hmem
    rw [find?_eq_some.2 hmem] at h
    cases h
  · intro h
    cases hf : m.find? k with
    | none => rfl
    | some v => exact absurd (find?_eq_some.1 hf) (h v)

theorem mem_assign {x : κ × ν} : x ∈ (m.assign k v).entries ↔ x = (k, v) ∨ (x ∈ m.entries ∧ x.1 ≠ k) :=
  mem_insertEntry m.sorted

theorem find?_assign (k' : κ) : (m.assign k v).find? k' = if k' = k then some v else m.find? k' := by
  split
  · rename_i h
    subst h
    exact find?_eq_some.2 (mem_assign.2 (Or.inl rfl))
  · rename_i h
    cases hf : m.find? k' with
    | some v' => exact find?_eq_some.2 (mem_assign.2 (Or.inr ⟨find?_eq_some.1 hf, h⟩))
    | none =>
      rw [find?_eq_none] at hf ⊢
      intro v' hmem
      rcases mem_assign.1 hmem with heq | ⟨hmem, -⟩
      · exact h (Prod.mk.inj heq).1
      · exact hf v' hmem

theorem find?_filter (p : κ → ν → Bool) : (m.filter p).find? k = (m.find? k).filter (p k) := by
  cases hf : m.find? k with
  | none =>
    rw [Option.filter_none, find?_eq_none]
    intro v hmem
    exact find?_eq_none.1 hf v ((List.mem_filter.1 hmem).1)
  | some v =>
    have hmem := find?_eq_some.1 hf
    by_cases hp : p k v = true
    · rw [Option.filter_some, if_pos hp]
      exact find?_eq_some.2 (List.mem_filter.2 ⟨hmem, hp⟩)
    · rw [Option.filter_some, if_neg hp, find?_eq_none]
      intro v' hmem'
      obtain ⟨h1, h2⟩ := List.mem_filter.1 hmem'
      rw [find?_eq_some.2 h1] at hf
      rw [Option.some.inj hf] at h2
      exact hp h2

end SortedMap

end EdgeConsensus.Lib
