import Mathlib.Order.Lattice

/-!
# Scanning for the first of the greatest

A scan goes over a list with a best so far, which it replaces only by something greater
(`Scans`). It ends with what it started from, where nothing in the list is greater, or
with the first of the greatest in the list: `Scans.foldl`.
-/

namespace EdgeConsensus.Lib

variable {α β σ : Type*} [LinearOrder β]

/-- The step `g` takes an item over, as `t x`, exactly when its value `f x` is above the value of the
best so far. -/
structure Scans (g : σ → α → σ) (v : σ → β) (f : α → β) (t : α → σ) : Prop where
  take : ∀ b x, v b < f x → g b x = t x
  keep : ∀ b x, f x ≤ v b → g b x = b
  value : ∀ x, v (t x) = f x

/-- `x` is in the list, greater than all before it and no less than all behind it. -/
def FirstGreatest (f : α → β) (l : List α) (x : α) : Prop :=
  ∃ l₁ l₂, l = l₁ ++ x :: l₂ ∧ (∀ y ∈ l₁, f y < f x) ∧ ∀ y ∈ l₂, f y ≤ f x

variable {g : σ → α → σ} {v : σ → β} {f : α → β} {t : α → σ}

/-- **What a scan ends with.** -/
theorem Scans.foldl (h : Scans g v f t) (l : List α) (b : σ) :
    (l.foldl g b = b ∧ ∀ x ∈ l, f x ≤ v b) ∨
      ∃ x, FirstGreatest f l x ∧ v b < f x ∧ l.foldl g b = t x := by
  induction l generalizing b with
  | nil => exact Or.inl ⟨rfl, by simp⟩
  | cons y l ih =>
    rw [List.foldl_cons]
    rcases lt_or_ge (v b) (f y) with hlt | hge
    · -- the head is taken over: it is the first of the greatest, or one behind it is greater
      rw [h.take b y hlt]
      rcases ih (t y) with ⟨hfold, hall⟩ | ⟨x, ⟨l₁, l₂, hl, hbefore, hbehind⟩, hgt, hfold⟩
      · rw [h.value] at hall
        exact Or.inr ⟨y, ⟨[], l, rfl, by simp, hall⟩, hlt, hfold⟩
      · rw [h.value] at hgt
        refine Or.inr ⟨x, ⟨y :: l₁, l₂, by rw [hl]; rfl, ?_, hbehind⟩, lt_trans hlt hgt, hfold⟩
        intro z hz
        rcases List.mem_cons.1 hz with rfl | hz
        · exact hgt
        · exact hbefore z hz
    · rw [h.keep b y hge]
      rcases ih b with ⟨hfold, hall⟩ | ⟨x, ⟨l₁, l₂, hl, hbefore, hbehind⟩, hgt, hfold⟩
      · exact Or.inl ⟨hfold, List.forall_mem_cons.2 ⟨hge, hall⟩⟩
      · refine Or.inr ⟨x, ⟨y :: l₁, l₂, by rw [hl]; rfl, ?_, hbehind⟩, hgt, hfold⟩
        intro z hz
        rcases List.mem_cons.1 hz with rfl | hz
        · exact lt_of_le_of_lt hge hgt
        · exact hbefore z hz

theorem FirstGreatest.mem {l : List α} {x : α} (h : FirstGreatest f l x) : x ∈ l := by
  obtain ⟨l₁, l₂, rfl, -, -⟩ := h
  simp

theorem FirstGreatest.le {l : List α} {x y : α} (h : FirstGreatest f l x) (hy : y ∈ l) : f y ≤ f x := by
  obtain ⟨l₁, l₂, rfl, hbefore, hbehind⟩ := h
  rcases List.mem_append.1 hy with hy | hy
  · exact le_of_lt (hbefore y hy)
  rcases List.mem_cons.1 hy with rfl | hy
  · exact le_rfl
  · exact hbehind y hy

/-- In a sorted list, the first of the greatest is the least of them. -/
theorem FirstGreatest.least {l : List α} {x y : α} {r : α → α → Prop} (h : FirstGreatest f l x)
    (hl : l.Pairwise r) (hy : y ∈ l) (heq : f y = f x) : y = x ∨ r x y := by
  obtain ⟨l₁, l₂, rfl, hbefore, -⟩ := h
  rcases List.mem_append.1 hy with hy | hy
  · exact absurd heq (ne_of_lt (hbefore y hy))
  rcases List.mem_cons.1 hy with rfl | hy
  · exact Or.inl rfl
  · have hbehind := (List.pairwise_append.1 hl).2.1
    exact Or.inr (List.rel_of_pairwise_cons hbehind hy)

end EdgeConsensus.Lib
