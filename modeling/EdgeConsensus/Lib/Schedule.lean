import EdgeConsensus.Lib.Run
import Mathlib.Data.Finset.Insert

/-!
# Schedules

What a system can be made to do. Some events show a label and the others are silent; `Performs` says that
some list of events leads from one state to another and shows just these labels, and `Leads` that a state can
be led on silently to one with a given property.

* `leads_sweep`: a property that can be extended by one index at a time can be extended to all of them.
* `performs_all`: where each label can be performed, so can each list of labels.
-/

namespace EdgeConsensus.Lib

variable {σ ε β ι : Type*} {step : σ → ε → σ} {label : ε → Option β} {s t u : σ} {l l' : List β}

/-- Some schedule leads from `s` to `t`, and what its events show is `l`. -/
def Performs (step : σ → ε → σ) (label : ε → Option β) (s : σ) (l : List β) (t : σ) : Prop :=
  ∃ es : List ε, es.filterMap label = l ∧ es.foldl step s = t

variable (step label) in
theorem performs_refl (s : σ) : Performs step label s [] s := ⟨[], rfl, rfl⟩

theorem Performs.trans (h : Performs step label s l t) (h' : Performs step label t l' u) :
    Performs step label s (l ++ l') u := by
  obtain ⟨es, hes, hst⟩ := h
  obtain ⟨es', hes', htu⟩ := h'
  refine ⟨es ++ es', ?_, ?_⟩
  · rw [List.filterMap_append, hes, hes']
  · rw [List.foldl_append, hst, htu]

theorem performs_silent {e : ε} (h : label e = none) (s : σ) : Performs step label s [] (step s e) :=
  ⟨[e], by simp [h], rfl⟩

theorem performs_event {e : ε} {b : β} (h : label e = some b) (s : σ) : Performs step label s [b] (step s e) :=
  ⟨[e], by simp [h], rfl⟩

variable (step label) in
/-- Silent events can lead from `s` to a state with property `P`. -/
def Leads (P : σ → Prop) (s : σ) : Prop := ∃ t, Performs step label s [] t ∧ P t

theorem leads_here {P : σ → Prop} (h : P s) : Leads step label P s := ⟨s, performs_refl step label s, h⟩

theorem leads_step {P : σ → Prop} {e : ε} (he : label e = none) (h : Leads step label P (step s e)) :
    Leads step label P s := by
  obtain ⟨t, hst, ht⟩ := h
  exact ⟨t, (performs_silent he s).trans hst, ht⟩

theorem leads_event {P : σ → Prop} {e : ε} (he : label e = none) (h : P (step s e)) : Leads step label P s :=
  leads_step he (leads_here h)

theorem Leads.bind {P Q : σ → Prop} (h : Leads step label P s) (hPQ : ∀ t, P t → Leads step label Q t) :
    Leads step label Q s := by
  obtain ⟨t, hst, ht⟩ := h
  obtain ⟨u, htu, hu⟩ := hPQ t ht
  exact ⟨u, hst.trans htu, hu⟩

/-- **Sweeps**: an index at a time, to all of them. -/
theorem leads_sweep [DecidableEq ι] {P : Finset ι → σ → Prop} (T : Finset ι)
    (hstep : ∀ S i s, i ∈ T → i ∉ S → P S s → Leads step label (P (insert i S)) s) (h0 : P ∅ s) :
    Leads step label (P T) s := by
  -- by induction on the indices swept so far, which are among those of `T`
  have hsub : ∀ S ⊆ T, Leads step label (P S) s := by
    intro S
    induction S using Finset.induction_on with
    | empty =>
      intro _
      exact leads_here h0
    | insert i S hi ih =>
      intro hS
      rw [Finset.insert_subset_iff] at hS
      exact (ih hS.2).bind fun t ht => hstep S i t hS.1 hi ht
  exact hsub T (Finset.Subset.refl T)

/-- **Service**: what is performed for one label at a time is performed for a list; the property may speak of
all labels so far. -/
theorem performs_all {P : List β → σ → Prop}
    (hone : ∀ l b s, P l s → ∃ t, Performs step label s [b] t ∧ P (l ++ [b]) t) :
    ∀ (bs l : List β) (s : σ), P l s → ∃ t, Performs step label s bs t ∧ P (l ++ bs) t := by
  intro bs
  induction bs with
  | nil =>
    intro l s h
    exact ⟨s, performs_refl step label s, by rwa [List.append_nil]⟩
  | cons b bs ih =>
    intro l s h
    obtain ⟨t, hst, ht⟩ := hone l b s h
    obtain ⟨u, htu, hu⟩ := ih (l ++ [b]) t ht
    rw [List.append_assoc] at hu
    exact ⟨u, hst.trans htu, hu⟩

end EdgeConsensus.Lib
