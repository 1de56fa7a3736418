import EdgeConsensus.Log.CommitLog

/-!
# Reading the commit log

`read_log` splits each line at its commas, without the blanks around the line. What `log` wrote
has a blank behind the comma, so a command is never read as it was logged, unless it is empty.

* `holds_logs`: after any calls of `log`, the file holds their entries.
* `read_line`: an entry is read back exactly if its command is empty.
* `log_round_trip`: a log is read back exactly if all its commands are empty.
* `command_blank`: one command that is not.
-/

namespace EdgeConsensus.Log

open Lib

/-- `term, command = line.strip().split(",")`, which raises unless there are two parts. -/
def readLine (line : List Char) : Option (List Char × List Char) :=
  match (strip line).splitOn ',' with
  | [term, command] => some (term, command)
  | _ => none

namespace CommitLog

def readLog (l : CommitLog) : Option (List (List Char × List Char)) := do
  let text ← decode l.file
  (textLines text).mapM readLine

/-- The log after these calls of `log`. -/
def logs (calls : List LogEntry) : CommitLog := calls.foldl (fun l e => l.log e.term e.command) init

end CommitLog

/-- The entry that `read_log` is to return. -/
def LogEntry.pair (e : LogEntry) : List Char × List Char := (str e.term, e.command)

/-- **What was logged is read back**, and the index and the term are those of the last call. -/
def RoundTrip (calls : List LogEntry) : Prop :=
  (CommitLog.logs calls).readLog = some (calls.map LogEntry.pair) ∧
    (CommitLog.logs calls).getLastIndexTerm =
      ((calls.length : ℤ) - 1, (calls.getLast?.map LogEntry.term).getD 0)

/-! ## Runs of `log` -/

namespace CommitLog

theorem holds_init : init.Holds [] where
  file := rfl
  lastIndex := rfl
  lastTerm := by
    intro e he
    cases he

/-- `log` adds an entry to what the file holds. -/
theorem Holds.log {l : CommitLog} {es : List LogEntry} (h : l.Holds es) (e : LogEntry) :
    (l.log e.term e.command).Holds (es ++ [e]) where
  file := by
    have hline : render [e] = e.line := List.flatMap_singleton _ _
    show l.file ++ encode e.line = _
    rw [h.file, render_append, hline, encode_append]
  lastIndex := by
    show l.lastIndex + 1 = _
    rw [h.lastIndex, List.length_append, List.length_singleton]
    push_cast
    omega
  lastTerm := by
    intro d hd
    rw [List.getLast?_concat] at hd
    obtain rfl := Option.some.inj hd
    rfl

theorem holds_logs (calls : List LogEntry) : (logs calls).Holds calls := by
  induction calls using List.reverseRecOn with
  | nil => exact holds_init
  | append_singleton calls e ih =>
    have hstep : logs (calls ++ [e]) = (logs calls).log e.term e.command := by
      unfold logs
      rw [List.foldl_concat]
    rw [hstep]
    exact ih.log e

/-- The index and the term are right after any calls. -/
theorem getLastIndexTerm_logs (calls : List LogEntry) :
    (logs calls).getLastIndexTerm = ((calls.length : ℤ) - 1, (calls.getLast?.map LogEntry.term).getD 0) := by
  have hholds := holds_logs calls
  have hterm : (logs calls).lastTerm = (calls.getLast?.map LogEntry.term).getD 0 := by
    cases hlast : calls.getLast? with
    | none =>
      rw [List.getLast?_eq_none_iff.1 hlast]
      rfl
    | some e => exact hholds.lastTerm e hlast
  unfold getLastIndexTerm
  rw [hholds.lastIndex, hterm]

/-- `read_log` reads the lines of one entry after the other. -/
theorem textLines_render (es : List LogEntry) : textLines (render es) = es.flatMap fun e => textLines e.line := by
  induction es with
  | nil => rfl
  | cons e es ih =>
    have hline : render (e :: es) = (str e.term ++ [',', ' '] ++ e.command) ++ '\n' :: render es := by
      simp [render, LogEntry.line]
    rw [hline, textLines_append, ih]
    rfl

end CommitLog

/-! ## One entry -/

theorem mem_str {z : ℤ} {c : Char} (h : c ∈ str z) : isWhitespace c = false ∧ c ≠ ',' ∧ c ≠ '\r' ∧ c ≠ '\n' := by
  have hc : c = '-' ∨ c.isDigit = true := by
    unfold str Json.dumpsInt at h
    split at h
    · rcases List.mem_cons.1 h with rfl | hdigit
      · exact Or.inl rfl
      · exact Or.inr (Nat.isDigit_of_mem_toDigits (by omega) (by omega) hdigit)
    · exact Or.inr (Nat.isDigit_of_mem_toDigits (by omega) (by omega) h)
  rcases hc with rfl | hdigit
  · decide
  have hrange := Char.isDigit_iff_toNat.1 hdigit
  have hlow : 48 ≤ c.toNat := hrange.1
  have hhigh : c.toNat ≤ 57 := hrange.2
  refine ⟨?_, ?_, ?_, ?_⟩
  · simp only [isWhitespace, Bool.or_eq_false_iff, Bool.and_eq_false_iff, decide_eq_false_iff_not]
    omega
  all_goals
    rintro rfl
    cases hdigit

theorem str_ne_nil (z : ℤ) : str z ≠ [] := by
  obtain ⟨c, cs, hcs, -⟩ := Json.dumpsInt_cons z
  show Json.dumpsInt z ≠ []
  rw [hcs]
  exact List.cons_ne_nil c cs

/-- A line does not begin with a blank. -/
theorem str_head {z : ℤ} {rest : List Char} {c : Char} (h : c ∈ (str z ++ rest).head?) :
    isWhitespace c = false := by
  obtain ⟨d, ds, hds⟩ := List.exists_cons_of_ne_nil (str_ne_nil z)
  have hmem : d ∈ str z := by
    rw [hds]
    exact List.mem_cons_self
  rw [hds] at h
  obtain rfl := Option.some.inj h
  exact (mem_str hmem).1

/-- A line is its two parts with the comma between them. -/
theorem readLine_eq_some {line term command : List Char} (h : readLine line = some (term, command)) :
    strip line = term ++ ',' :: command := by
  unfold readLine at h
  split at h
  · rename_i t c hsplit
    obtain ⟨rfl, rfl⟩ := Prod.mk.inj (Option.some.inj h)
    have htext : [','].intercalate ((strip line).splitOn ',') = strip line := List.intercalate_splitOn ','
    rw [hsplit] at htext
    rw [← htext]
    simp [List.intercalate]
  · cases h

/-- Without the newline, a line ends as its command does. -/
theorem strip_line {z : ℤ} {command : List Char} (hlast : ∃ c ∈ command.getLast?, isWhitespace c = false) :
    strip (LogEntry.line ⟨z, command⟩) = str z ++ [',', ' '] ++ command := by
  obtain ⟨last, hmem, hplain⟩ := hlast
  refine strip_append ?_ ?_ ?_ ?_
  · rw [List.append_assoc]
    exact List.append_ne_nil_of_left_ne_nil (str_ne_nil z) _
  · intro c hc
    rw [List.append_assoc] at hc
    exact str_head hc
  · intro c hc
    rw [List.getLast?_append, Option.mem_def.1 hmem] at hc
    obtain rfl := Option.some.inj hc
    exact hplain
  · intro c hc
    obtain rfl := List.mem_singleton.1 hc
    rfl

/-- With no command, the line is what comes before its comma, and the comma. -/
theorem readLine_empty (z : ℤ) : readLine (LogEntry.line ⟨z, []⟩) = some (str z, []) := by
  have hstrip : strip ((str z ++ [',']) ++ [' ', '\n']) = str z ++ [','] := by
    refine strip_append ?_ ?_ ?_ ?_
    · exact List.append_ne_nil_of_left_ne_nil (str_ne_nil z) _
    · intro c hc
      exact str_head hc
    · intro c hc
      rw [List.getLast?_concat] at hc
      obtain rfl := Option.some.inj hc
      rfl
    · exact List.all_eq_true.1 rfl
  have hline : LogEntry.line ⟨z, []⟩ = (str z ++ [',']) ++ [' ', '\n'] := by
    simp [LogEntry.line]
  have hcomma : ',' ∉ str z := fun h => (mem_str h).2.1 rfl
  unfold readLine
  rw [hline, hstrip, List.splitOn_append_cons_self_of_not_mem hcomma, List.splitOn_nil]

/-- An entry with no command is one line. -/
theorem textLines_empty (z : ℤ) : textLines (LogEntry.line ⟨z, []⟩) = [LogEntry.line ⟨z, []⟩] := by
  have hreturn : '\r' ∉ LogEntry.line ⟨z, []⟩ := by
    intro hmem
    have hor : '\r' ∈ str z := by simpa [LogEntry.line] using hmem
    exact (mem_str hor).2.2.1 rfl
  have hfeed : '\n' ∉ str z := fun h => (mem_str h).2.2.2 rfl
  have hcount : (LogEntry.line ⟨z, []⟩).count '\n' = 1 := by
    simp [LogEntry.line, List.count_eq_zero.2 hfeed]
  have hplain := universal_of_not_mem hreturn
  have hone : (textLines (LogEntry.line ⟨z, []⟩)).length = 1 := by
    refine (length_textLines (str z ++ [',', ' '] ++ [])).trans ?_
    show (universal false (LogEntry.line ⟨z, []⟩)).count '\n' = 1
    rw [hplain, hcount]
  obtain ⟨line, hline⟩ := List.length_eq_one_iff.1 hone
  rw [hline, textLines_eq_singleton hline, hplain]

/-- A command that is not empty is not read back. -/
theorem readLine_ne {z : ℤ} {command line : List Char} (hne : command ≠ [])
    (hline : textLines (LogEntry.line ⟨z, command⟩) = [line]) : readLine line ≠ some (str z, command) := by
  intro hread
  have htext := readLine_eq_some hread
  -- what is read of a line does not end in a blank, so the command does not
  have hlast : ∃ c ∈ command.getLast?, isWhitespace c = false := by
    have hread : command.getLast hne ∈ (strip line).getLast? := by
      rw [htext, ← List.singleton_append, ← List.append_assoc, List.getLast?_append,
        List.getLast?_eq_some_getLast hne]
      rfl
    exact ⟨command.getLast hne, List.getLast?_eq_some_getLast hne, strip_getLast hread⟩
  have hplain : universal false (LogEntry.line ⟨z, command⟩) = LogEntry.line ⟨z, command⟩ := by
    refine universal_plain _ ?_ ?_
    · obtain ⟨c, hc, hblank⟩ := hlast
      rw [List.getLast?_append, Option.mem_def.1 hc]
      rintro hreturn
      obtain rfl : c = '\r' := Option.some.inj hreturn
      exact absurd hblank (by decide)
    · have hlen := length_textLines (str z ++ [',', ' '] ++ command)
      have hone := congrArg List.length hline
      exact hlen.symm.trans hone
  rw [textLines_eq_singleton hline, hplain, strip_line hlast] at htext
  -- the blank behind the comma is read with the command
  have hlen := congrArg List.length htext
  simp only [List.length_append, List.length_cons, List.length_nil] at hlen
  omega

/-- **An entry is read back exactly if its command is empty.** -/
theorem read_line (e : LogEntry) : (textLines e.line).map readLine = [some e.pair] ↔ e.command = [] := by
  obtain ⟨z, command⟩ := e
  constructor
  · intro h
    by_contra hne
    obtain ⟨line, hline, hread⟩ := List.map_eq_singleton_iff.1 h
    exact readLine_ne hne hline hread
  · rintro rfl
    rw [textLines_empty, List.map_singleton, readLine_empty]
    rfl

/-! ## The whole log -/

/-- **A log is read back exactly if all its commands are empty.** -/
theorem log_round_trip (calls : List LogEntry) : RoundTrip calls ↔ ∀ e ∈ calls, e.command = [] := by
  have hread : (CommitLog.logs calls).readLog = (textLines (render calls)).mapM readLine := by
    unfold CommitLog.readLog
    rw [(CommitLog.holds_logs calls).file, decode_encode]
    rfl
  have hne : ∀ e ∈ calls, (textLines e.line).map readLine ≠ [] := by
    intro e _
    have hone := one_le_count_universal (str e.term ++ [',', ' '] ++ e.command) (b := false) (Or.inl rfl)
    have hlen := length_textLines (str e.term ++ [',', ' '] ++ e.command)
    refine List.ne_nil_of_length_pos ?_
    rw [List.length_map]
    exact lt_of_lt_of_eq hone hlen.symm
  calc RoundTrip calls
    _ ↔ (textLines (render calls)).mapM readLine = some (calls.map LogEntry.pair) := by
        unfold RoundTrip
        rw [hread]
        exact and_iff_left (CommitLog.getLastIndexTerm_logs calls)
    _ ↔ (calls.flatMap fun e => (textLines e.line).map readLine) = calls.map fun e => some e.pair := by
        rw [mapM_eq_some, CommitLog.textLines_render, List.map_flatMap, List.map_map]
        rfl
    _ ↔ ∀ e ∈ calls, (textLines e.line).map readLine = [some e.pair] := flatMap_eq_map_iff calls hne
    _ ↔ ∀ e ∈ calls, e.command = [] := forall₂_congr fun e _ => read_line e

/-- One call is read back with the blank. -/
theorem command_blank :
    (CommitLog.logs [⟨1, ['x']⟩]).readLog = some [(['1'], [' ', 'x'])] ∧ ¬ ∀ calls, RoundTrip calls := by
  have hread : (CommitLog.logs [⟨1, ['x']⟩]).readLog = some [(['1'], [' ', 'x'])] := by
    unfold CommitLog.readLog
    rw [(CommitLog.holds_logs [⟨1, ['x']⟩]).file, decode_encode]
    decide
  refine ⟨hread, fun h => ?_⟩
  have hback := (h [⟨1, ['x']⟩]).1
  rw [hread] at hback
  exact absurd hback (by decide)

end EdgeConsensus.Log
