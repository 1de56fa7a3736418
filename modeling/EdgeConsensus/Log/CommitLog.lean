import EdgeConsensus.Lib.Json
import EdgeConsensus.Lib.TextFile
import Mathlib.Order.Lattice.Nat

/-!
# The commit log

`commitlog.py`: one line for each entry in a file, and the index and term of the last entry
beside it. `log` appends an entry; `log_replace` is meant to overwrite the entries from
`start` on, but it opens the file at its beginning and writes there.

* `replaceLoop_spec`: what the loop of `log_replace` writes, and what it does to the index
  and the term.
* `log_replace_keeps`: when that is what was meant.
* `prefix_lost`: the entries before `start` are overwritten.
-/

namespace EdgeConsensus.Log

open Lib

/-- `str` of an integer. -/
def str (z : ℤ) : List Char := Json.dumpsInt z

/-- What is logged: a term and a command. -/
structure LogEntry where
  term : ℤ
  command : List Char

/-- `f"{term}, {command}\n"`. -/
def LogEntry.line (e : LogEntry) : List Char := str e.term ++ [',', ' '] ++ e.command ++ ['\n']

/-- The text of a file with these entries. -/
def render (es : List LogEntry) : List Char := es.flatMap LogEntry.line

structure CommitLog where
  file : List UInt8
  lastTerm : ℤ
  lastIndex : ℤ

namespace CommitLog

/-- `__init__`, on an empty file. -/
def init : CommitLog where
  file := []
  lastTerm := 0
  lastIndex := -1

/-- It is also what `log` and `log_replace` return when they are done. -/
def getLastIndexTerm (l : CommitLog) : ℤ × ℤ := (l.lastIndex, l.lastTerm)

def log (l : CommitLog) (term : ℤ) (command : List Char) : CommitLog where
  file := l.file ++ encode (LogEntry.line ⟨term, command⟩)
  lastTerm := term
  lastIndex := l.lastIndex + 1

/-! ## Replacing -/

/-- The open file, and the fields that the loop of `log_replace` sets. -/
structure Replacing where
  file : Handle
  lastTerm : ℤ
  lastIndex : ℤ

/-- A round that writes a command. -/
def replaceOne (term index : ℤ) (command : List Char) (r : Replacing) : Replacing where
  file := r.file.write (LogEntry.line ⟨term, command⟩)
  lastTerm := if index > r.lastIndex then term else r.lastTerm
  lastIndex := if index > r.lastIndex then index else r.lastIndex

/-- The loop of `log_replace`, at `index`, with the commands from `i` on. -/
def replaceLoop (term start index : ℤ) (commands : List (List Char)) (r : Replacing) : Replacing :=
  match commands with
  | [] => r
  | command :: rest =>
    if index ≥ start then replaceLoop term start (index + 1) rest (replaceOne term index command r)
    else replaceLoop term start (index + 1) (command :: rest) r
termination_by (commands.length, (start - index).toNat)

def logReplace (l : CommitLog) (term : ℤ) (commands : List (List Char)) (start : ℤ) : CommitLog :=
  if commands.length > 0 then
    let r := replaceLoop term start 0 commands ⟨{ bytes := l.file }, l.lastTerm, l.lastIndex⟩
    { file := r.file.truncate.bytes, lastTerm := r.lastTerm, lastIndex := r.lastIndex }
  else l

/-- **The file holds these entries**, and the index and the term are those of the last one. -/
structure Holds (l : CommitLog) (es : List LogEntry) : Prop where
  file : l.file = encode (render es)
  lastIndex : l.lastIndex = es.length - 1
  lastTerm : ∀ e ∈ es.getLast?, l.lastTerm = e.term

end CommitLog

/-! ## Lines -/

theorem render_append (es fs : List LogEntry) : render (es ++ fs) = render es ++ render fs :=
  List.flatMap_append

theorem render_eq_nil {es : List LogEntry} : render es = [] ↔ es = [] := by
  cases es with
  | nil => exact iff_of_true rfl rfl
  | cons e es =>
    refine iff_of_false ?_ (List.cons_ne_nil e es)
    intro h
    have hline := (List.append_eq_nil_iff.1 h).1
    simp [LogEntry.line] at hline

namespace CommitLog

theorem replaceOne_lastIndex (term index : ℤ) (command : List Char) (r : Replacing) :
    (replaceOne term index command r).lastIndex = max r.lastIndex index := by
  show (if index > r.lastIndex then index else r.lastIndex) = _
  split <;> omega

/-- **The loop writes the commands one behind the other**, from the position on; the last one has the index
`max index start` plus what there are more of them. -/
theorem replaceLoop_spec (term start index : ℤ) (commands : List (List Char)) (r : Replacing)
    {text : List Char} (hwritten : r.file.Written text) :
    (replaceLoop term start index commands r).file.Written (text ++ render (commands.map (LogEntry.mk term))) ∧
      (commands = [] → replaceLoop term start index commands r = r) ∧
      (commands ≠ [] →
        (replaceLoop term start index commands r).lastIndex =
            max r.lastIndex (max index start + commands.length - 1) ∧
          (replaceLoop term start index commands r).lastTerm =
            if r.lastIndex < max index start + commands.length - 1 then term else r.lastTerm) := by
  fun_induction replaceLoop term start index commands r generalizing text with
  | case1 index r =>
    refine ⟨?_, fun _ => rfl, fun h => absurd rfl h⟩
    simpa [render] using hwritten
  | case2 index r command rest hge ih =>
    obtain ⟨hfile, hnil, hcons⟩ := ih (hwritten.write _)
    refine ⟨?_, fun h => absurd h (List.cons_ne_nil _ _), fun _ => ?_⟩
    · have htext : text ++ render ((command :: rest).map (LogEntry.mk term)) =
          text ++ LogEntry.line ⟨term, command⟩ ++ render (rest.map (LogEntry.mk term)) := by
        simp [render]
      rw [htext]
      exact hfile
    · have hmax : max index start = index := max_eq_left hge
      have hmax' : max (index + 1) start = index + 1 := by omega
      rw [List.length_cons, hmax]
      by_cases hrest : rest = []
      · rw [hnil hrest, hrest]
        refine ⟨?_, ?_⟩
        · rw [replaceOne_lastIndex]
          simp
        · show (if index > r.lastIndex then term else r.lastTerm) = _
          simp
      · obtain ⟨hindex, hterm⟩ := hcons hrest
        have hpos := List.length_pos_iff.2 hrest
        have hone := replaceOne_lastIndex term index command r
        rw [hindex, hterm, hmax', hone]
        refine ⟨by push_cast; omega, ?_⟩
        by_cases hlast : r.lastIndex < index + rest.length
        · rw [if_pos (by omega), if_pos (by push_cast; omega)]
        · rw [if_neg (by omega), if_neg (by push_cast; omega)]
          exact if_neg (by omega)
  | case3 index r command rest hlt ih =>
    obtain ⟨hfile, -, hcons⟩ := ih hwritten
    refine ⟨hfile, fun h => absurd h (List.cons_ne_nil _ _), fun h => ?_⟩
    obtain ⟨hindex, hterm⟩ := hcons h
    have hmax : max (index + 1) start = max index start := by omega
    rw [hindex, hterm, hmax]
    exact ⟨rfl, rfl⟩

/-- The file has the commands and nothing else, whatever `start` is. -/
theorem logReplace_spec (l : CommitLog) (term : ℤ) {commands : List (List Char)} (start : ℤ)
    (hne : commands ≠ []) :
    (l.logReplace term commands start).file = encode (render (commands.map (LogEntry.mk term))) ∧
      (l.logReplace term commands start).lastIndex = max l.lastIndex (max 0 start + commands.length - 1) ∧
      (l.logReplace term commands start).lastTerm =
        if l.lastIndex < max 0 start + commands.length - 1 then term else l.lastTerm := by
  have hpos := List.length_pos_iff.2 hne
  obtain ⟨hfile, -, hcons⟩ :=
    replaceLoop_spec term start 0 commands ⟨{ bytes := l.file }, l.lastTerm, l.lastIndex⟩
      (Handle.written_start l.file)
  unfold logReplace
  rw [if_pos hpos]
  exact ⟨hfile.truncate, hcons hne⟩

/-- With no commands nothing is removed. -/
theorem holds_logReplace_nil {l : CommitLog} {es : List LogEntry} (h : l.Holds es) (term : ℤ) {start : ℤ}
    (hstart : start ≤ es.length) : (l.logReplace term [] start).Holds (es.take start.toNat) ↔
      start.toNat = es.length := by
  have hsame : l.logReplace term [] start = l := rfl
  rw [hsame]
  constructor
  · intro hholds
    have hindex := hholds.lastIndex
    rw [h.lastIndex, List.length_take] at hindex
    omega
  · intro hall
    rw [hall, List.take_length]
    exact h

/-- From the beginning, the log becomes longer, or the term of its last entry is right already. -/
theorem holds_logReplace_zero {l : CommitLog} {es : List LogEntry} (h : l.Holds es) {term start : ℤ}
    {commands : List (List Char)} (hne : commands ≠ []) (hzero : start ≤ 0)
    (hlonger : es.length < commands.length ∨ es.length = commands.length ∧ ∀ e ∈ es.getLast?, e.term = term) :
    (l.logReplace term commands start).Holds (commands.map (LogEntry.mk term)) := by
  obtain ⟨hfile, hindex, hterm⟩ := logReplace_spec l term start hne
  have hpos := List.length_pos_iff.2 hne
  have hlast := h.lastIndex
  refine ⟨hfile, ?_, fun e he => ?_⟩
  · rw [hindex, hlast, List.length_map]
    omega
  · obtain ⟨command, -, rfl⟩ := List.mem_map.1 (List.mem_of_getLast? he)
    rw [hterm, hlast]
    rcases hlonger with hlt | ⟨heq, hsame⟩
    · rw [if_pos (by omega)]
    · have hes : es ≠ [] := List.ne_nil_of_length_pos (by omega)
      have hgetLast := List.getLast?_eq_some_getLast hes
      rw [if_neg (by omega), h.lastTerm _ hgetLast]
      exact hsame _ hgetLast

/-- With commands, the file has nothing else, and index and term are only ever raised. -/
theorem of_holds_logReplace {l : CommitLog} {es : List LogEntry} (h : l.Holds es) {term start : ℤ}
    {commands : List (List Char)} (hne : commands ≠ [])
    (hholds : (l.logReplace term commands start).Holds (es.take start.toNat ++ commands.map (LogEntry.mk term))) :
    start ≤ 0 ∧ (es.length < commands.length ∨
      es.length = commands.length ∧ ∀ e ∈ es.getLast?, e.term = term) := by
  obtain ⟨hfile, hindex, hterm⟩ := logReplace_spec l term start hne
  have hlast := h.lastIndex
  -- the file has nothing but the commands, so nothing was to be kept
  have htext := encode_injective (hfile.symm.trans hholds.file)
  have hkept : render (es.take start.toNat) = [] := by
    rw [render_append] at htext
    exact List.self_eq_append_left.1 htext
  have hnone := congrArg List.length (render_eq_nil.1 hkept)
  rw [List.length_take, List.length_nil] at hnone
  have hindex' := hholds.lastIndex
  rw [hindex, hlast, List.length_append, List.length_take, List.length_map] at hindex'
  have hpos := List.length_pos_iff.2 hne
  refine ⟨by omega, ?_⟩
  by_cases hlt : es.length < commands.length
  · exact Or.inl hlt
  refine Or.inr ⟨by omega, fun e he => ?_⟩
  -- no index is new, so the term stays that of the old last entry
  have hold := h.lastTerm e he
  rw [hlast, if_neg (by omega), hold] at hterm
  obtain ⟨rest, command, rfl⟩ := (List.eq_nil_or_concat commands).resolve_left hne
  have hnew := hholds.lastTerm ⟨term, command⟩ (by simp)
  exact hterm.symm.trans hnew

/-- **`log_replace` does what it is meant to exactly if** it has no commands and nothing to remove, or it
begins at 0 and the new log is longer than the old one, or as long and the last term is the same. -/
theorem log_replace_keeps (l : CommitLog) (es : List LogEntry) (h : l.Holds es) (term : ℤ)
    (commands : List (List Char)) (start : ℤ) (hstart : start ≤ es.length) :
    (l.logReplace term commands start).Holds (es.take start.toNat ++ commands.map (LogEntry.mk term)) ↔
      commands = [] ∧ start.toNat = es.length ∨
        commands ≠ [] ∧ start ≤ 0 ∧
          (es.length < commands.length ∨
            es.length = commands.length ∧ ∀ e ∈ es.getLast?, e.term = term) := by
  by_cases hne : commands = []
  · subst hne
    rw [List.map_nil, List.append_nil, holds_logReplace_nil h term hstart]
    constructor
    · intro hall
      exact Or.inl ⟨rfl, hall⟩
    · rintro (⟨-, hall⟩ | ⟨hne, -⟩)
      · exact hall
      · exact absurd rfl hne
  · constructor
    · intro hholds
      exact Or.inr ⟨hne, of_holds_logReplace h hne hholds⟩
    · rintro (⟨hnil, -⟩ | ⟨-, hzero, hlonger⟩)
      · exact absurd hnil hne
      have hstart0 : start.toNat = 0 := by omega
      rw [hstart0, List.take_zero, List.nil_append]
      exact holds_logReplace_zero h hne hzero hlonger

/-! ## The entries before `start` -/

/-- Two entries of term 1. -/
def twoEntries : List LogEntry := [⟨1, ['a']⟩, ⟨1, ['b']⟩]

def twoEntriesLog : CommitLog := ⟨encode (render twoEntries), 1, 1⟩

theorem holds_twoEntries : twoEntriesLog.Holds twoEntries where
  file := rfl
  lastIndex := rfl
  lastTerm := by
    intro e he
    obtain rfl : LogEntry.mk 1 ['b'] = e := Option.some.inj he
    rfl

theorem log_replace_keeps_longer :
    (twoEntriesLog.logReplace 2 [['c'], ['d'], ['e']] 0).Holds
        (twoEntries.take (0 : ℤ).toNat ++ [['c'], ['d'], ['e']].map (LogEntry.mk 2)) ↔
      [['c'], ['d'], ['e']] = [] ∧ (0 : ℤ).toNat = twoEntries.length ∨
        [['c'], ['d'], ['e']] ≠ [] ∧ (0 : ℤ) ≤ 0 ∧
          (twoEntries.length < [['c'], ['d'], ['e']].length ∨
            twoEntries.length = [['c'], ['d'], ['e']].length ∧ ∀ e ∈ twoEntries.getLast?, e.term = 2) :=
  log_replace_keeps twoEntriesLog twoEntries holds_twoEntries 2 [['c'], ['d'], ['e']] 0 (by decide)

/-- The second entry is to be replaced: the first one is lost with it, and index and term stay. -/
theorem prefix_lost :
    ¬ ∀ (l : CommitLog) (es : List LogEntry), l.Holds es → ∀ (term : ℤ) (commands : List (List Char)) (start : ℤ),
      start ≤ es.length →
        (l.logReplace term commands start).Holds (es.take start.toNat ++ commands.map (LogEntry.mk term)) := by
  intro h
  have hholds := h twoEntriesLog twoEntries holds_twoEntries 2 [['c']] 1 (by decide)
  have hfile := (logReplace_spec twoEntriesLog 2 1 (List.cons_ne_nil ['c'] [])).1
  have htext := encode_injective (hfile.symm.trans hholds.file)
  exact absurd htext (by decide)

end CommitLog

end EdgeConsensus.Log
