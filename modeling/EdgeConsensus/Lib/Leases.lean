import EdgeConsensus.Lib.Dict
import Mathlib.Data.Nat.Init
import Mathlib.Data.Nat.Notation
import Mathlib.Order.Basic

/-!
# Leases

A table whose entries have to be renewed. Anybody may file an entry, with a time, at any moment. One thread sweeps
the table now and then: it takes down the keys and then goes through them, and deletes those whose entry is over
its time. It looks at an entry in one step and deletes the key in another, and entries may be filed in between.

* `not_failed`: the sweep finds every key that it has taken down.
* `entry_filed`: an entry has been filed, and nothing has been filed for its key since.
* `swept`, `pass`: what a sweep leaves is in time, or has been filed since the sweep began; so it is after each
  pass of a loop around the sweep.
* `dropped`: what disappears was over its time when the sweep looked at it, and what has been filed for it since
  then is lost.
-/

namespace EdgeConsensus.Lib

variable {κ ν : Type*}

/-- Where the thread is that sweeps, from the time `start`: about to look at the first of the keys `todo`, or
about to delete `k`. It fails if a key is gone. -/
inductive Sweep (κ : Type*)
  | resting
  | checking (start : ℕ) (todo : List κ)
  | deleting (start : ℕ) (k : κ) (todo : List κ)
  | failed
  deriving DecidableEq

namespace Sweep

/-- The keys that are still to be looked at or to be deleted. -/
def todo : Sweep κ → List κ
  | .checking _ todo => todo
  | .deleting _ k todo => k :: todo
  | _ => []

/-- The time of a sweep that goes on. -/
def start? : Sweep κ → Option ℕ
  | .checking start _ => some start
  | .deleting start _ _ => some start
  | _ => none

end Sweep

/-- The table, with a value and a time for each key, and the thread. -/
structure Leases (κ ν : Type*) where
  table : Dict κ (ν × ℕ)
  sweep : Sweep κ

namespace Leases

variable [DecidableEq κ] {timer start i j : ℕ} {s s' : Leases κ ν} {k : κ} {x y : ν × ℕ} {todo : List κ}

/-- The next step of the sweep. -/
def advance (timer : ℕ) (s : Leases κ ν) : Leases κ ν :=
  match s.sweep with
  | .resting => s
  | .checking _ [] => { s with sweep := .resting }
  | .checking start (k :: todo) =>
    match s.table.find? k with
    | none => { s with sweep := .failed }
    | some x => { s with sweep := if x.2 + timer ≤ start then .deleting start k todo else .checking start todo }
  | .deleting start k todo =>
    if k ∈ s.table.keys then { table := s.table.erase k, sweep := .checking start todo }
    else { s with sweep := .failed }
  | .failed => s

/-- **What a step of the sweep does.** -/
inductive Advances (timer : ℕ) (s : Leases κ ν) : Leases κ ν → Prop
  | rest : s.sweep.start? = none → Advances timer s s
  | finish {start : ℕ} : s.sweep = .checking start [] → Advances timer s { s with sweep := .resting }
  | pass {start : ℕ} {k : κ} {todo : List κ} {x : ν × ℕ} : s.sweep = .checking start (k :: todo) →
    (k, x) ∈ s.table.entries → start < x.2 + timer → Advances timer s { s with sweep := .checking start todo }
  | find {start : ℕ} {k : κ} {todo : List κ} {x : ν × ℕ} : s.sweep = .checking start (k :: todo) →
    (k, x) ∈ s.table.entries → x.2 + timer ≤ start → Advances timer s { s with sweep := .deleting start k todo }
  | delete {start : ℕ} {k : κ} {todo : List κ} : s.sweep = .deleting start k todo → k ∈ s.table.keys →
    Advances timer s ⟨s.table.erase k, .checking start todo⟩
  | fail {k : κ} : k ∈ s.sweep.todo → k ∉ s.table.keys → Advances timer s { s with sweep := .failed }

theorem advance_cases (timer : ℕ) (s : Leases κ ν) : s.Advances timer (s.advance timer) := by
  unfold advance
  split
  · rename_i h
    exact .rest (by rw [h]; rfl)
  · rename_i h
    exact .finish h
  · rename_i start k todo h
    split
    · rename_i hnone
      refine .fail (k := k) (by rw [h]; exact List.mem_cons_self) ?_
      intro hk
      obtain ⟨v, hv⟩ := Dict.find?_of_mem_keys hk
      rw [hv] at hnone
      cases hnone
    · rename_i x hsome
      have hx := Dict.find?_eq_some.1 hsome
      by_cases hover : x.2 + timer ≤ start
      · rw [if_pos hover]
        exact .find h hx hover
      · rw [if_neg hover]
        exact .pass h hx (by omega)
  · rename_i start k todo h
    by_cases hk : k ∈ s.table.keys
    · rw [if_pos hk]
      exact .delete h hk
    · rw [if_neg hk]
      exact .fail (by rw [h]; exact List.mem_cons_self) hk
  · rename_i h
    exact .rest (by rw [h]; rfl)

/-- A sweep that comes to its end has nothing more to look at. -/
theorem Advances.ends (h : s.Advances timer s') (hrest : s'.sweep = .resting) (hs : s.sweep ≠ .resting) :
    ∃ start, s.sweep = .checking start [] := by
  cases h with
  | rest => exact absurd hrest hs
  | @finish start hsweep => exact ⟨start, hsweep⟩
  | pass => cases hrest
  | find => cases hrest
  | delete => cases hrest
  | fail => cases hrest

/-- What is about to be deleted is dealt with in the next step of the sweep. -/
theorem Advances.deletes (h : s.Advances timer s') (hs : s.sweep = .deleting start k todo) :
    s'.sweep ≠ .deleting start k todo := by
  intro hs'
  cases h with
  | rest hrest =>
    rw [hs] at hrest
    cases hrest
  | finish => cases hs'
  | pass => cases hs'
  | find hchecking =>
    rw [hs] at hchecking
    cases hchecking
  | delete => cases hs'
  | fail => cases hs'

/-- One step, and the entry that it files: nothing happens, somebody files an entry, a sweep begins or goes on. -/
inductive Step (timer : ℕ) (s : Leases κ ν) : Option (κ × ν × ℕ) → Leases κ ν → Prop
  | idle : Step timer s none s
  | file (k : κ) (x : ν × ℕ) : Step timer s (some (k, x)) ⟨s.table.assign k x, s.sweep⟩
  | begin (start : ℕ) : s.sweep = .resting → Step timer s none ⟨s.table, .checking start s.table.keys⟩
  | advance : Step timer s none (s.advance timer)

/-- The sweep has not failed, and the keys that it has taken down are there, each once. -/
structure Tracks (s : Leases κ ν) : Prop where
  alive : s.sweep ≠ .failed
  nodup : s.sweep.todo.Nodup
  mem : ∀ k ∈ s.sweep.todo, k ∈ s.table.keys

/-- Only the sweep deletes keys, and those that it has still to look at are others. -/
theorem Tracks.step {o : Option (κ × ν × ℕ)} (h : s.Tracks) (hstep : s.Step timer o s') : s'.Tracks := by
  cases hstep with
  | idle => exact h
  | file k x => exact ⟨h.alive, h.nodup, fun k' hk' => Dict.mem_keys_assign.2 (Or.inr (h.mem k' hk'))⟩
  | begin start _ => exact ⟨fun h => (by cases h), s.table.nodup_keys, fun k hk => hk⟩
  | advance =>
    have hcases := advance_cases timer s
    generalize s.advance timer = t at hcases
    cases hcases with
    | rest => exact h
    | finish => exact ⟨fun h => (by cases h), List.nodup_nil, fun k hk => by cases hk⟩
    | @pass start k todo x hsweep =>
      have htodo : s.sweep.todo = k :: todo := by rw [hsweep]; rfl
      refine ⟨fun h => (by cases h), ?_, fun k' hk' => h.mem k' ?_⟩
      · exact (List.nodup_cons.1 (htodo ▸ h.nodup)).2
      · rw [htodo]
        exact List.mem_cons_of_mem _ hk'
    | @find start k todo x hsweep =>
      have htodo : s.sweep.todo = k :: todo := by rw [hsweep]; rfl
      refine ⟨fun h => (by cases h), ?_, fun k' hk' => h.mem k' (by rw [htodo]; exact hk')⟩
      have hnodup := h.nodup
      rwa [htodo] at hnodup
    | @delete start k todo hsweep =>
      have htodo : s.sweep.todo = k :: todo := by rw [hsweep]; rfl
      obtain ⟨hk, hnodup⟩ := List.nodup_cons.1 (htodo ▸ h.nodup)
      refine ⟨fun h => (by cases h), hnodup, fun k' hk' => ?_⟩
      rw [Dict.keys_erase, List.mem_filter]
      refine ⟨h.mem k' (by rw [htodo]; exact List.mem_cons_of_mem _ hk'), ?_⟩
      simp only [ne_eq, decide_eq_true_eq]
      rintro rfl
      exact hk hk'
    | fail hk hgone => exact absurd (h.mem _ hk) hgone

/-- **A key that is still to be looked at** stays so in a step that leaves its entry,
unless the entry is in time. -/
theorem Step.looked {o : Option (κ × ν × ℕ)} {start start' : ℕ} (hstep : s.Step timer o s')
    (hstart : s.sweep.start? = some start) (hstart' : s'.sweep.start? = some start') {e : κ × ν × ℕ}
    (he : e ∈ s.table.entries) (he' : e ∈ s'.table.entries) (htodo : e.1 ∈ s.sweep.todo) :
    e.1 ∈ s'.sweep.todo ∨ start < e.2.2 + timer := by
  cases hstep with
  | idle => exact Or.inl htodo
  | file => exact Or.inl htodo
  | begin _ hrest =>
    rw [hrest] at hstart
    cases hstart
  | advance =>
    have hcases := advance_cases timer s
    generalize s.advance timer = t at hcases hstart' he'
    cases hcases with
    | rest => exact Or.inl htodo
    | finish => cases hstart'
    | @pass _ k todo x hsweep hx htime =>
      rw [hsweep] at hstart htodo
      obtain rfl := Option.some.inj hstart
      rcases List.mem_cons.1 htodo with hk | hmem
      · obtain rfl := Dict.key_unique he hx hk
        exact Or.inr htime
      · exact Or.inl hmem
    | find hsweep _ _ =>
      rw [hsweep] at htodo
      exact Or.inl htodo
    | @delete _ k todo hsweep _ =>
      rw [hsweep] at htodo
      rcases List.mem_cons.1 htodo with hk | hmem
      · exact absurd hk (Dict.mem_erase.1 he').2
      · exact Or.inl hmem
    | fail => cases hstart'

/-- A sweep that goes on after a step of it is the same one. -/
theorem Advances.goes_on (h : s.Advances timer s') (hstart : s'.sweep.start? = some start) :
    s.sweep.start? = some start := by
  cases h with
  | rest => exact hstart
  | finish => cases hstart
  | pass hsweep _ _ =>
    rw [hsweep]
    exact hstart
  | find hsweep _ _ =>
    rw [hsweep]
    exact hstart
  | delete hsweep _ =>
    rw [hsweep]
    exact hstart
  | fail => cases hstart

/-- A sweep that goes on is the same one, or begins at this step with all keys. -/
theorem Step.start_cases {o : Option (κ × ν × ℕ)} (hstep : s.Step timer o s')
    (hstart : s'.sweep.start? = some start) :
    s.sweep.start? = some start ∨ (s.sweep = .resting ∧ s'.table = s.table ∧ s'.sweep.todo = s.table.keys) := by
  cases hstep with
  | idle => exact Or.inl hstart
  | file => exact Or.inl hstart
  | begin _ hrest => exact Or.inr ⟨hrest, rfl, rfl⟩
  | advance => exact Or.inl ((advance_cases timer s).goes_on hstart)

/-- A sweep that stops has looked at all its keys, or fails. -/
theorem Step.stop_cases {o : Option (κ × ν × ℕ)} (hstep : s.Step timer o s')
    (hstart : s.sweep.start? = some start) (hstop : s'.sweep.start? = none) :
    (o = none ∧ s'.table = s.table ∧ s.sweep.todo = []) ∨ s'.sweep = .failed := by
  cases hstep with
  | idle =>
    rw [hstart] at hstop
    cases hstop
  | file =>
    rw [hstart] at hstop
    cases hstop
  | begin => cases hstop
  | advance =>
    have hcases := advance_cases timer s
    generalize s.advance timer = t at hcases hstop
    cases hcases with
    | rest hrest =>
      rw [hstart] at hrest
      cases hrest
    | finish hsweep =>
      rw [hsweep]
      exact Or.inl ⟨rfl, rfl, rfl⟩
    | pass => cases hstop
    | find => cases hstop
    | delete => cases hstop
    | fail => exact Or.inr rfl

/-! ## Histories -/

/-- A history of the table, from an empty one, with the entries that are filed. -/
structure History (timer : ℕ) (s : ℕ → Leases κ ν) (filed : ℕ → Option (κ × ν × ℕ)) : Prop where
  start : s 0 = ⟨Dict.empty, .resting⟩
  step : ∀ j, (s j).Step timer (filed j) (s (j + 1))

namespace History

variable {s : ℕ → Leases κ ν} {filed : ℕ → Option (κ × ν × ℕ)}

theorem tracks (h : History timer s filed) (j : ℕ) : (s j).Tracks := by
  induction j with
  | zero =>
    rw [h.start]
    exact ⟨fun h => (by cases h), List.nodup_nil, fun k hk => by cases hk⟩
  | succ j ih => exact ih.step (h.step j)

/-- **The sweep does not fail.** -/
theorem not_failed (h : History timer s filed) (j : ℕ) : (s j).sweep ≠ .failed := (h.tracks j).alive

/-- **Where an entry comes from**: it is an old one, or is filed in this step. -/
theorem entry_cases (h : History timer s filed) {e : κ × ν × ℕ} (he : e ∈ (s (j + 1)).table.entries) :
    filed j = some e ∨ (e ∈ (s j).table.entries ∧ ∀ x, filed j ≠ some (e.1, x)) := by
  have hstep := h.step j
  generalize hs : s (j + 1) = t at hstep he
  generalize hf : filed j = o at hstep ⊢
  cases hstep with
  | idle => exact Or.inr ⟨he, fun x h => by cases h⟩
  | file k x =>
    rcases Dict.mem_assign.1 he with rfl | ⟨he, hk⟩
    · exact Or.inl rfl
    · refine Or.inr ⟨he, fun y hy => hk ?_⟩
      exact (congrArg Prod.fst (Option.some.inj hy)).symm
  | begin start _ => exact Or.inr ⟨he, fun x h => by cases h⟩
  | advance =>
    refine Or.inr ⟨?_, fun x h => by cases h⟩
    have hcases := advance_cases timer (s j)
    generalize (s j).advance timer = t at hcases he
    cases hcases with
    | rest => exact he
    | finish => exact he
    | pass => exact he
    | find => exact he
    | delete => exact (Dict.mem_erase.1 he).1
    | fail => exact he

/-- **An entry has been filed**, and nothing has been filed for its key since. -/
theorem entry_filed (h : History timer s filed) {e : κ × ν × ℕ} (he : e ∈ (s j).table.entries) :
    ∃ i < j, filed i = some e ∧ ∀ l, i < l → l < j → ∀ x, filed l ≠ some (e.1, x) := by
  induction j with
  | zero =>
    rw [h.start] at he
    cases he
  | succ j ih =>
    rcases h.entry_cases he with hfiled | ⟨he, hnone⟩
    · exact ⟨j, Nat.lt_succ_self j, hfiled, fun l hl hlj => by omega⟩
    · obtain ⟨i, hij, hfiled, hsince⟩ := ih he
      refine ⟨i, by omega, hfiled, fun l hl hlj => ?_⟩
      rcases Nat.lt_succ_iff_lt_or_eq.1 hlj with hlj | rfl
      · exact hsince l hl hlj
      · exact hnone

/-- What is in the table has been there at an earlier time, or has been filed since. -/
theorem entry_since (h : History timer s filed) {e : κ × ν × ℕ} (hij : i ≤ j) (he : e ∈ (s j).table.entries) :
    e ∈ (s i).table.entries ∨ ∃ l, i ≤ l ∧ l < j ∧ filed l = some e := by
  induction j, hij using Nat.le_induction with
  | base => exact Or.inl he
  | succ j hij ih =>
    rcases h.entry_cases he with hfiled | ⟨he, -⟩
    · exact Or.inr ⟨j, hij, Nat.lt_succ_self j, hfiled⟩
    · rcases ih he with hold | ⟨l, hil, hlj, hfiled⟩
      · exact Or.inl hold
      · exact Or.inr ⟨l, hil, by omega, hfiled⟩

/-! ## What a sweep leaves -/

/-- A sweep from the time `start` has begun at `i` and goes on at `j`. -/
structure Sweeping (s : ℕ → Leases κ ν) (i start j : ℕ) : Prop where
  before : i < j
  began : (s i).sweep = .resting
  start : ∀ l, i < l → l ≤ j → (s l).sweep.start? = some start

/-- The entry is in time for a sweep from `start`, or has been filed since `i`. -/
def Current (filed : ℕ → Option (κ × ν × ℕ)) (timer i start j : ℕ) (e : κ × ν × ℕ) : Prop :=
  start < e.2.2 + timer ∨ ∃ l, i < l ∧ l < j ∧ filed l = some e

/-- What goes on at `j` has begun; and what it has already looked at is current. -/
def Swept (filed : ℕ → Option (κ × ν × ℕ)) (s : ℕ → Leases κ ν) (timer j : ℕ) : Prop :=
  ∀ start, (s j).sweep.start? = some start → ∃ i, Sweeping s i start j ∧
    ∀ e ∈ (s j).table.entries, e.1 ∈ (s j).sweep.todo ∨ Current filed timer i start j e

omit [DecidableEq κ] in
theorem Sweeping.succ (h : Sweeping s i start j) (hstart : (s (j + 1)).sweep.start? = some start) :
    Sweeping s i start (j + 1) := by
  refine ⟨by have := h.before; omega, h.began, fun l hl hlj => ?_⟩
  rcases Nat.le_succ_iff.1 hlj with hlj | rfl
  · exact h.start l hl hlj
  · exact hstart

omit [DecidableEq κ] in
theorem Current.mono {e : κ × ν × ℕ} {j' : ℕ} (h : Current filed timer i start j e) (hj : j ≤ j') :
    Current filed timer i start j' e := by
  rcases h with htime | ⟨l, hl, hlj, hfiled⟩
  · exact Or.inl htime
  · exact Or.inr ⟨l, hl, by omega, hfiled⟩

theorem swept_all (h : History timer s filed) (j : ℕ) : Swept filed s timer j := by
  induction j with
  | zero =>
    intro start hstart
    rw [h.start] at hstart
    cases hstart
  | succ j ih =>
    intro start hstart
    rcases (h.step j).start_cases hstart with hold | ⟨hrest, htable, htodo⟩
    · obtain ⟨i, hsweeping, hlooked⟩ := ih start hold
      have hij := hsweeping.before
      refine ⟨i, hsweeping.succ hstart, fun e he => ?_⟩
      rcases h.entry_cases he with hfiled | ⟨hmem, -⟩
      · exact Or.inr (Or.inr ⟨j, hij, Nat.lt_succ_self j, hfiled⟩)
      rcases hlooked e hmem with hin | hcurrent
      · exact ((h.step j).looked hold hstart hmem he hin).imp_right Or.inl
      · exact Or.inr (hcurrent.mono (Nat.le_succ j))
    · -- the sweep begins here
      refine ⟨j, ⟨Nat.lt_succ_self j, hrest, fun l hl hlj => ?_⟩, fun e he => Or.inl ?_⟩
      · obtain rfl : l = j + 1 := by omega
        exact hstart
      · rw [htodo]
        rw [htable] at he
        exact Dict.mem_keys.2 ⟨e.2, he⟩

/-- **What a sweep leaves is current**: every entry is in time for it, or has been filed since it began. -/
theorem swept (h : History timer s filed) (hstart : (s j).sweep.start? = some start)
    (hstop : (s (j + 1)).sweep.start? = none) :
    ∃ i, Sweeping s i start j ∧ ∀ e ∈ (s (j + 1)).table.entries, Current filed timer i start (j + 1) e := by
  obtain ⟨i, hsweeping, hlooked⟩ := h.swept_all j start hstart
  refine ⟨i, hsweeping, fun e he => ?_⟩
  rcases (h.step j).stop_cases hstart hstop with ⟨-, htable, htodo⟩ | hfailed
  · rw [htable] at he
    rcases hlooked e he with hin | hcurrent
    · rw [htodo] at hin
      cases hin
    · exact hcurrent.mono (Nat.le_succ j)
  · exact absurd hfailed (h.not_failed (j + 1))

/-- A loop sweeps the table once in each pass: it sweeps nothing at its `home`, a sweep that begins does so at
the time that the loop has at hand, and the loop comes home with nothing more to look at. -/
structure Loop (s : ℕ → Leases κ ν) (home begins : ℕ → Prop) (time : ℕ → ℕ) : Prop where
  rests : ∀ j, home j → (s j).sweep.start? = none
  starts : ∀ j start, (s j).sweep = .resting → (s (j + 1)).sweep.start? = some start → begins j ∧ start = time j
  ends : ∀ j, ¬ home j → home (j + 1) → ∃ start, (s j).sweep = .checking start []

/-- **What a pass of the loop leaves is current.** -/
theorem pass {home begins : ℕ → Prop} {time : ℕ → ℕ} (h : History timer s filed) (hloop : Loop s home begins time)
    (hout : ¬ home j) (hend : home (j + 1)) : ∃ i < j, begins i ∧ (∀ l, i < l → l ≤ j → ¬ home l) ∧
      ∀ e ∈ (s (j + 1)).table.entries,
        time i < e.2.2 + timer ∨ ∃ l, i < l ∧ l ≤ j ∧ filed l = some e := by
  obtain ⟨start, hlast⟩ := hloop.ends j hout hend
  have hgoes : (s j).sweep.start? = some start := by
    rw [hlast]
    rfl
  obtain ⟨i, hsweeping, hcurrent⟩ := h.swept hgoes (hloop.rests (j + 1) hend)
  have hij : i < j := hsweeping.before
  have hstart : (s (i + 1)).sweep.start? = some start := hsweeping.start (i + 1) (Nat.lt_succ_self i) hij
  obtain ⟨hbegins, rfl⟩ := hloop.starts i start hsweeping.began hstart
  refine ⟨i, hij, hbegins, fun l hil hlj hhome => ?_, fun e he => ?_⟩
  · have hgoing : (s l).sweep.start? = some (time i) := hsweeping.start l hil hlj
    rw [hloop.rests l hhome] at hgoing
    cases hgoing
  · refine (hcurrent e he).imp_right ?_
    rintro ⟨l, hil, hlj, hfiled⟩
    exact ⟨l, hil, by omega, hfiled⟩

/-! ## What disappears -/

/-- At `i` the sweep has found the entry over its time, and at `j` it is about to delete its key. -/
structure Found (s : ℕ → Leases κ ν) (timer i j : ℕ) (e : κ × ν × ℕ) (start : ℕ) (todo : List κ) : Prop where
  before : i < j
  mem : e ∈ (s i).table.entries
  overdue : e.2.2 + timer ≤ start
  checking : (s i).sweep = .checking start (e.1 :: todo)
  deleting : ∀ l, i < l → l ≤ j → (s l).sweep = .deleting start e.1 todo

/-- What is about to be deleted has been found over its time. -/
theorem found (h : History timer s filed) (hsweep : (s j).sweep = .deleting start k todo) :
    ∃ i x, Found s timer i j (k, x) start todo := by
  induction j with
  | zero =>
    rw [h.start] at hsweep
    cases hsweep
  | succ j ih =>
    have hold : (s j).sweep = .deleting start k todo → ∃ i x, Found s timer i (j + 1) (k, x) start todo := by
      intro hj
      obtain ⟨i, x, hfound⟩ := ih hj
      refine ⟨i, x, by have := hfound.before; omega, hfound.mem, hfound.overdue,
        hfound.checking, fun l hl hlj => ?_⟩
      rcases Nat.le_succ_iff.1 hlj with hlj | rfl
      · exact hfound.deleting l hl hlj
      · exact hsweep
    have hstep := h.step j
    generalize hs : s (j + 1) = t at hstep hsweep
    generalize filed j = o at hstep
    cases hstep with
    | idle => exact hold hsweep
    | file => exact hold hsweep
    | begin => cases hsweep
    | advance =>
      have hcases := advance_cases timer (s j)
      generalize (s j).advance timer = t at hcases hsweep hs
      cases hcases with
      | rest => exact hold hsweep
      | finish => cases hsweep
      | pass => cases hsweep
      | @find _ _ _ x hchecking hx htime =>
        obtain ⟨rfl, rfl, rfl⟩ := Sweep.deleting.inj hsweep
        refine ⟨j, x, Nat.lt_succ_self j, hx, htime, hchecking, fun l hl hlj => ?_⟩
        obtain rfl : l = j + 1 := by omega
        rw [hs]
      | delete => cases hsweep
      | fail => cases hsweep

/-- **What disappears was over its time** when the sweep looked at it, and whatever has been filed for
its key since then is lost. -/
theorem dropped (h : History timer s filed) (hk : k ∈ (s j).table.keys) (hgone : k ∉ (s (j + 1)).table.keys) :
    ∃ i x start todo, Found s timer i j (k, x) start todo := by
  have hstep := h.step j
  generalize s (j + 1) = t at hstep hgone
  generalize filed j = o at hstep
  cases hstep with
  | idle => exact absurd hk hgone
  | file k' x => exact absurd (Dict.mem_keys_assign.2 (Or.inr hk)) hgone
  | begin => exact absurd hk hgone
  | advance =>
    have hcases := advance_cases timer (s j)
    generalize (s j).advance timer = t at hcases hgone
    cases hcases with
    | rest => exact absurd hk hgone
    | finish => exact absurd hk hgone
    | pass => exact absurd hk hgone
    | find => exact absurd hk hgone
    | @delete start k' todo hdeleting =>
      obtain rfl : k' = k := by
        by_contra hne
        refine hgone ?_
        rw [Dict.keys_erase, List.mem_filter]
        exact ⟨hk, by simpa using Ne.symm hne⟩
      obtain ⟨i, x, hfound⟩ := h.found hdeleting
      exact ⟨i, x, start, todo, hfound⟩
    | fail => exact absurd hk hgone

end History

end Leases
end EdgeConsensus.Lib
