import EdgeConsensus.Log.ReadLog

/-!
# Reading a part of the commit log

`read_logs_start_end` goes through the lines as `read_log` does, keeps the entries from `start` on
and stops behind `end` (`stop` here). It keeps them in a local, and it has no `return`.

* `readLoop_eq`: the entries it keeps are those that were asked for, with an end of 0 as no end.
* `range_bound_iff`: when that makes no difference.
* `range_reads`: nothing of this is returned, for any log and any bounds.
-/

namespace EdgeConsensus.Log

open Lib

/-- What `read_log` makes of a line. -/
abbrev Pair : Type := List Char × List Char

/-- `output` and `index`, the locals of `read_logs_start_end`. -/
structure Reading where
  output : List Pair := []
  index : ℕ := 0

/-- The test behind each line: `end and index > end`. -/
def stops (stop : Option ℕ) (index : ℕ) : Bool := stop.any fun e => e ≠ 0 && index > e

/-- A line before `start` is not even split. -/
def keep (start : ℕ) (line : List Char) (r : Reading) : Option (List Pair) :=
  if r.index ≥ start then (readLine line).map fun entry => r.output ++ [entry] else some r.output

/-- The loop of `read_logs_start_end`. -/
def readLoop (start : ℕ) (stop : Option ℕ) : List (List Char) → Reading → Option Reading
  | [], r => some r
  | line :: rest, r => do
    let output ← keep start line r
    let index := r.index + 1
    if stops stop index then some ⟨output, index⟩ else readLoop start stop rest ⟨output, index⟩

/-- What was read is dropped at the end: the value is `None`, here `some none`. -/
def CommitLog.readLogsStartEnd (l : CommitLog) (start : ℕ) (stop : Option ℕ) :
    Option (Option (List Pair)) := do
  let text ← decode l.file
  let _ ← readLoop start stop (textLines text) {}
  return none

/-! ## What is asked for -/

/-- The index is one that is asked for. -/
def inRange (start : ℕ) (stop : Option ℕ) (i : ℕ) : Bool := start ≤ i && stop.all (i ≤ ·)

/-- The entries that are asked for, if the first one has the index `i`. -/
def range (start : ℕ) (stop : Option ℕ) (entries : List Pair) (i : ℕ := 0) : List Pair :=
  ((entries.zipIdx i).filter fun p => inRange start stop p.2).map Prod.fst

/-- **A range read agrees with the full read.** -/
def RangeAgrees (l : CommitLog) (entries : List Pair) (start : ℕ) (stop : Option ℕ) : Prop :=
  l.readLogsStartEnd start stop = some (some (range start stop entries))

/-- The bound that the loop has: an end of 0 is taken for no end. -/
def bound (stop : Option ℕ) : Option ℕ := stop.filter (· ≠ 0)

section Range

variable {start i : ℕ} {stop : Option ℕ}

theorem range_cons (entry : Pair) (entries : List Pair) :
    range start stop (entry :: entries) i =
      (if inRange start stop i then [entry] else []) ++ range start stop entries (i + 1) := by
  unfold range
  rw [List.zipIdx_cons, List.filter_cons]
  split <;> rfl

/-- Behind the end nothing is asked for. -/
theorem range_past {e : ℕ} (he : stop = some e) (hi : e < i) (entries : List Pair) :
    range start stop entries i = [] := by
  unfold range
  rw [List.map_eq_nil_iff, List.filter_eq_nil_iff]
  intro p hp
  have hle : i ≤ p.2 := List.le_snd_of_mem_zipIdx hp
  have hlt : ¬ p.2 ≤ e := by omega
  simp [inRange, he, hlt]

theorem range_none (entries : List Pair) : range start none entries i = entries.drop (start - i) := by
  induction entries generalizing i with
  | nil => exact List.drop_nil.symm
  | cons entry entries ih =>
    rw [range_cons, ih]
    by_cases hstart : start ≤ i
    · have hzero : start - i = 0 := by omega
      have hzero' : start - (i + 1) = 0 := by omega
      have hin : inRange start none i = true := by simp [inRange, hstart]
      rw [if_pos hin, hzero, hzero']
      rfl
    · have hsucc : start - i = start - (i + 1) + 1 := by omega
      have hout : inRange start none i = false := by simp [inRange, hstart]
      rw [if_neg (Bool.eq_false_iff.1 hout), hsucc]
      rfl

/-- Up to the end 0 there is one entry at most. -/
theorem range_zero (entries : List Pair) : range start (some 0) entries = (entries.take 1).drop start := by
  cases entries with
  | nil => exact List.drop_nil.symm
  | cons entry entries =>
    rw [range_cons, range_past rfl (Nat.zero_lt_one), List.append_nil]
    cases start with
    | zero => rfl
    | succ k =>
      have hout : inRange (k + 1) (some 0) 0 = false := rfl
      rw [if_neg (Bool.eq_false_iff.1 hout)]
      exact List.drop_nil.symm

end Range

/-! ## The loop -/

theorem stops_iff {stop : Option ℕ} {i : ℕ} : stops stop i = true ↔ ∃ e, bound stop = some e ∧ e < i := by
  unfold stops bound
  cases stop with
  | none => simp
  | some e => simp [Option.filter]

/-- **The loop keeps what is asked for**, up to its own bound: `entries` is what `read_log` makes of the lines,
and the index is not past the bound when a line is reached. -/
theorem readLoop_eq (start : ℕ) (stop : Option ℕ) {lines : List (List Char)} :
    ∀ {entries : List Pair} {r : Reading}, lines.map readLine = entries.map some →
      (∀ e ∈ bound stop, r.index ≤ e) →
      ∃ index, readLoop start stop lines r =
        some ⟨r.output ++ range start (bound stop) entries r.index, index⟩ := by
  induction lines with
  | nil =>
    intro entries r hread _
    obtain rfl : entries = [] := by simpa using hread.symm
    refine ⟨r.index, ?_⟩
    rw [readLoop]
    simp [range]
  | cons line rest ih =>
    intro entries r hread hbound
    cases entries with
    | nil => cases hread
    | cons entry entries =>
      obtain ⟨hline, hrest⟩ := List.cons.inj hread
      -- up to the bound, only `start` decides
      have hin : inRange start (bound stop) r.index = decide (start ≤ r.index) := by
        have hall : (bound stop).all (r.index ≤ ·) = true := by
          rw [Option.all_eq_true]
          intro e he
          exact decide_eq_true (hbound e he)
        unfold inRange
        rw [hall, Bool.and_true]
      have hkept : keep start line r =
          some (r.output ++ if inRange start (bound stop) r.index then [entry] else []) := by
        unfold keep
        rw [hin]
        by_cases hstart : start ≤ r.index
        · simp [hstart, hline]
        · simp [hstart]
      rw [readLoop, hkept, range_cons, ← List.append_assoc]
      simp only [Option.bind_eq_bind, Option.bind_some]
      split
      · rename_i hstops
        obtain ⟨e, he, hlt⟩ := stops_iff.1 hstops
        refine ⟨r.index + 1, ?_⟩
        rw [range_past he hlt, List.append_nil]
      · rename_i hgoes
        refine ih hrest ?_
        intro e he
        show r.index + 1 ≤ e
        by_contra hgt
        exact hgoes (stops_iff.2 ⟨e, he, by omega⟩)

/-- **The local has the right entries exactly if** the end is not 0, or there is no entry behind the first one
that `start` leaves. -/
theorem range_bound_iff (start : ℕ) (stop : Option ℕ) (entries : List Pair) :
    range start (bound stop) entries = range start stop entries ↔
      stop ≠ some 0 ∨ entries.length ≤ max start 1 := by
  by_cases hzero : stop = some 0
  · subst hzero
    have hbound : bound (some 0) = none := rfl
    rw [hbound, range_none, range_zero]
    constructor
    · intro heq
      have hlen := congrArg List.length heq
      rw [List.length_drop, List.length_drop, List.length_take] at hlen
      exact Or.inr (by omega)
    · rintro (hne | hshort)
      · exact absurd rfl hne
      by_cases hone : entries.length ≤ 1
      · rw [List.take_of_length_le hone]
        rfl
      · have hlong : entries.length ≤ start := by omega
        rw [List.drop_eq_nil_of_le (by omega), List.drop_eq_nil_of_le (by rw [List.length_take]; omega)]
  · have hbound : bound stop = stop := by
      cases stop with
      | none => rfl
      | some e =>
        have hne : e ≠ 0 := fun h => hzero (congrArg some h)
        simp [bound, Option.filter, hne]
    rw [hbound]
    exact iff_of_true rfl (Or.inl hzero)

/-! ## What is returned -/

/-- Of a log that `read_log` reads, every range is read. -/
theorem readLogsStartEnd_eq {l : CommitLog} {entries : List Pair} (h : l.readLog = some entries) (start : ℕ)
    (stop : Option ℕ) : l.readLogsStartEnd start stop = some none := by
  unfold CommitLog.readLog at h
  obtain ⟨text, htext, hread⟩ := Option.bind_eq_some_iff.1 h
  obtain ⟨index, hloop⟩ := readLoop_eq start stop (r := {}) (mapM_eq_some.1 hread)
    (fun e _ => Nat.zero_le e)
  unfold CommitLog.readLogsStartEnd
  simp only [htext, hloop, Option.bind_eq_bind, Option.bind_some]
  rfl

/-- **No range read agrees with the full read**: it does not raise, and it returns `None`, not a list. -/
theorem range_reads (l : CommitLog) (entries : List Pair) (h : l.readLog = some entries) (start : ℕ)
    (stop : Option ℕ) : l.readLogsStartEnd start stop = some none ∧ ¬ RangeAgrees l entries start stop := by
  have hnone := readLogsStartEnd_eq h start stop
  refine ⟨hnone, ?_⟩
  intro hagrees
  unfold RangeAgrees at hagrees
  rw [hnone] at hagrees
  cases hagrees

/-- A log with two entries. -/
def twoCalls : CommitLog := CommitLog.logs [⟨1, ['x']⟩, ⟨2, ['y']⟩]

theorem readLog_twoCalls : twoCalls.readLog = some [(['1'], [' ', 'x']), (['2'], [' ', 'y'])] := by
  unfold twoCalls CommitLog.readLog
  rw [(CommitLog.holds_logs [⟨1, ['x']⟩, ⟨2, ['y']⟩]).file, decode_encode]
  decide

theorem range_reads_twoCalls :
    twoCalls.readLogsStartEnd 0 (some 1) = some none ∧
      ¬ RangeAgrees twoCalls [(['1'], [' ', 'x']), (['2'], [' ', 'y'])] 0 (some 1) :=
  range_reads twoCalls _ readLog_twoCalls 0 (some 1)

/-- Both entries are asked for. -/
theorem output_dropped :
    ¬ ∀ (l : CommitLog) (entries : List Pair), l.readLog = some entries → ∀ (start : ℕ) (stop : Option ℕ),
      RangeAgrees l entries start stop := by
  intro h
  have hagrees := h twoCalls _ readLog_twoCalls 0 (some 1)
  unfold RangeAgrees at hagrees
  rw [readLogsStartEnd_eq readLog_twoCalls] at hagrees
  cases hagrees

end EdgeConsensus.Log
