import EdgeConsensus.Raft.CommitIndex

/-!
# The commit rule of a follower

A follower that accepts an entry while the leader's commit index is ahead of its own
commits in the same go. What it commits is not the leader's commit index but the place of
the entry before the new one, and under the term of the new entry. `follower_commit_rule`
says exactly when this is right: the entry before is within the leader's commit index, and
both entries have one term. It is not when a leader replicates a request that its client
made in an earlier term: `stale_request_term`.
-/

namespace EdgeConsensus.Raft

variable {n : ℕ}

namespace RaftNode

variable {s : RaftNode n} {m : AppendEntriesMessage n}

/-- The last applied term is that of the entry at the commit index, which the log has. -/
def AppliedTerm (s : RaftNode n) : Prop :=
  (s.log[s.commitIndex]?).map Entry.term = some s.lastAppliedTerm

instance (s : RaftNode n) : Decidable s.AppliedTerm := by
  unfold AppliedTerm; infer_instance

theorem accepts_verified (hacc : s.accepts m = true) {p : ℕ} (hp : m.prevLogIndex = some p) :
    ∃ f, s.log[p]? = some f ∧ m.prevLogTerm = some f.term := by
  simp only [accepts, Bool.and_eq_true, hp] at hacc
  obtain ⟨-, hver⟩ := hacc
  cases ht : m.prevLogTerm with
  | none => simp [ht] at hver
  | some t =>
    simp only [ht] at hver
    rw [verifyEntry_iff, Option.map_eq_some_iff] at hver
    obtain ⟨f, hf, rfl⟩ := hver
    exact ⟨f, hf, rfl⟩

/-- **A follower that accepts an entry raises nothing**, and this is what it has committed. -/
theorem exists_accepts_loop (hacc : s.accepts m = true) {p : ℕ} (hp : m.prevLogIndex = some p)
    {e : Entry} (he : m.entries = some e) (timers : Timers n) :
    ∃ s', s.loop timers (some (.appendEntries m)) = some s' ∧ s'.log = s.log.take (p + 1) ++ [e] ∧
      s'.commitIndex = (if m.leaderCommit > s.commitIndex then p else s.commitIndex) ∧
      s'.lastAppliedTerm = if m.leaderCommit > s.commitIndex then e.term else s.lastAppliedTerm := by
  obtain ⟨f, hf, ht⟩ := accepts_verified hacc hp
  have hplace : p < s.log.length := (List.getElem?_eq_some_iff.1 hf).1
  have hver : s.verifyEntry p f.term = true := by
    rw [verifyEntry_iff, hf]
    rfl
  simp only [accepts, Bool.and_eq_true, decide_eq_true_eq] at hacc
  obtain ⟨⟨⟨⟨⟨hframe, hrole⟩, hdir⟩, htype⟩, hterm⟩, -⟩ := hacc
  -- the part of the log that is kept has a last entry
  have hlast : ∃ g, (s.log.take (p + 1)).getLast? = some g := by
    have hpos : 0 < (s.log.take (p + 1)).length := by
      rw [List.length_take]
      omega
    exact ⟨_, List.getLast?_eq_some_getLast (List.length_pos_iff.1 hpos)⟩
  obtain ⟨g, hg⟩ := hlast
  have hhandle : ∃ u, s.followerHandle (.appendEntries m) = some u ∧ u.log = s.log.take (p + 1) ++ [e] ∧
      u.commitIndex = (if m.leaderCommit > s.commitIndex then p else s.commitIndex) ∧
      u.lastAppliedTerm = if m.leaderCommit > s.commitIndex then e.term else s.lastAppliedTerm := by
    have hnot : ¬ m.term < s.currentTerm := by omega
    unfold followerHandle followerAppendEntries appendEntry
    simp only [Message.direction, Message.base, hdir, htype, hnot, if_false, hp, ht, hver, he, hg,
      Option.bind_eq_bind, Option.bind_some, Option.pure_def, Option.getD_some, Bool.not_true,
      Bool.false_eq_true, decide_eq_true_eq]
    refine ⟨_, rfl, ?_⟩
    by_cases hc : m.leaderCommit > s.commitIndex
    · simp only [hc, if_true]
      exact ⟨rfl, rfl, rfl⟩
    · simp only [hc, if_false]
      exact ⟨rfl, rfl, rfl⟩
  obtain ⟨u, hu, hlog, hcommit, happlied⟩ := hhandle
  rw [loop_follower hframe hrole]
  unfold followerLoop
  simp only [Option.elim_some, hu, Option.bind_eq_bind, Option.bind_some, Option.pure_def]
  refine ⟨_, rfl, ?_⟩
  split
  · exact ⟨hlog, hcommit, happlied⟩
  · exact ⟨hlog, hcommit, happlied⟩

end RaftNode

/-- **The commit rule of a follower** that goes from `s` to `s'` on an AppendEntries message. -/
structure FollowerCommitRule (s : RaftNode n) (m : AppendEntriesMessage n) (s' : RaftNode n) : Prop where
  mono : s.commitIndex ≤ s'.commitIndex
  bound : s'.commitIndex ≤ max s.commitIndex m.leaderCommit
  term : s'.AppliedTerm

/-- **The commit rule of a follower holds exactly where it does not commit, or the entry before the
new one is within the leader's commit index and of the new entry's term.** -/
theorem follower_commit_rule (s : RaftNode n) (timers : Timers n) (m : AppendEntriesMessage n) {p : ℕ}
    {e : Entry} (hacc : s.accepts m = true) (hp : m.prevLogIndex = some p) (he : m.entries = some e)
    (happlied : s.AppliedTerm) (hle : s.commitIndex ≤ p) :
    ∃ s', s.loop timers (some (.appendEntries m)) = some s' ∧
      (FollowerCommitRule s m s' ↔
        (m.leaderCommit > s.commitIndex → p ≤ m.leaderCommit ∧ m.prevLogTerm = some e.term)) := by
  obtain ⟨s', hs', hlog, hcommit, hterm⟩ := RaftNode.exists_accepts_loop hacc hp he timers
  obtain ⟨f, hf, ht⟩ := RaftNode.accepts_verified hacc hp
  refine ⟨s', hs', ?_⟩
  -- up to the entry before the new one, the log is as it was
  have hkept : ∀ i, i ≤ p → s'.log[i]? = s.log[i]? := by
    intro i hi
    have hplace : p < s.log.length := (List.getElem?_eq_some_iff.1 hf).1
    have hin : i < (s.log.take (p + 1)).length := by
      rw [List.length_take]
      omega
    rw [hlog, List.getElem?_append_left hin, List.getElem?_take_of_lt (by omega)]
  by_cases hc : m.leaderCommit > s.commitIndex
  · rw [if_pos hc] at hcommit hterm
    have happlied' : s'.AppliedTerm ↔ f.term = e.term := by
      unfold RaftNode.AppliedTerm
      rw [hcommit, hterm, hkept p le_rfl, hf]
      simp
    rw [ht, Option.some.injEq]
    constructor
    · intro hrule _
      have hbound := hrule.bound
      exact ⟨by omega, happlied'.1 hrule.term⟩
    · intro h
      obtain ⟨hpl, hfe⟩ := h hc
      exact ⟨by omega, by omega, happlied'.2 hfe⟩
  · rw [if_neg hc] at hcommit hterm
    have happlied' : s'.AppliedTerm := by
      unfold RaftNode.AppliedTerm
      rw [hcommit, hterm, hkept _ hle]
      exact happlied
    constructor
    · intro _ h
      exact absurd h hc
    · intro _
      exact ⟨by omega, by omega, happlied'⟩

/-- Node 0 of two leads in term 2 and has committed its leader entry, of which node 1 has not been told. -/
def untold : List (Event 2) := [.take 1 0 1, .take 1 0 2, .take 0 1 1]

/-- The message with which node 0 then replicates a request that its client made in term `t`. -/
def appendAfterCommit (t : ℕ) : AppendEntriesMessage 2 where
  type := .appendEntries
  term := 2
  sender := 0
  receiver := some 1
  direction := .request
  leaderId := some 0
  prevLogIndex := some 1
  prevLogTerm := some 2
  entries := some ⟨t, .int 7, .int 7⟩
  leaderCommit := 1

/-- The client made its request when node 0 was in term 2. -/
def freshRequest : List (Event 2) := elect ++ .clientRequest 0 (.int 7) (.int 7) :: untold

set_option maxRecDepth 10000 in
theorem follower_commit_rule_freshRequest :
    .appendEntries (appendAfterCommit 2) ∈ (wAt freshRequest 13).chan 0 1 ∧
      ∃ s', ((wAt freshRequest 13).node 1).loop {} (some (.appendEntries (appendAfterCommit 2))) = some s' ∧
        FollowerCommitRule ((wAt freshRequest 13).node 1) (appendAfterCommit 2) s' := by
  refine ⟨by decide, ?_⟩
  obtain ⟨s', hs', hrule⟩ := follower_commit_rule ((wAt freshRequest 13).node 1) {} (appendAfterCommit 2)
    (p := 1) (e := ⟨2, .int 7, .int 7⟩) (by decide) rfl rfl (by decide) (by decide)
  exact ⟨s', hs', hrule.2 fun _ => ⟨le_rfl, rfl⟩⟩

/-- The client made its request when node 0 was in term 1. -/
def staleRequest : List (Event 2) := .clientRequest 0 (.int 7) (.int 7) :: elect ++ untold

set_option maxRecDepth 10000 in
/-- **The wrong term**: node 1 commits the leader entry, of term 2, and takes term 1 for its term. -/
theorem stale_request_term :
    .appendEntries (appendAfterCommit 1) ∈ (wAt staleRequest 13).chan 0 1 ∧
      ((wAt staleRequest 13).node 1).accepts (appendAfterCommit 1) = true ∧
      ((wAt staleRequest 13).node 1).AppliedTerm ∧
      ((wAt staleRequest 13).node 1).commitIndex ≤ 1 ∧
      ∃ s', ((wAt staleRequest 13).node 1).loop {} (some (.appendEntries (appendAfterCommit 1))) = some s' ∧
        ¬ FollowerCommitRule ((wAt staleRequest 13).node 1) (appendAfterCommit 1) s' := by
  refine ⟨by decide, by decide, by decide, by decide, ?_⟩
  have hnot : ∀ u ∈ ((wAt staleRequest 13).node 1).loop {} (some (.appendEntries (appendAfterCommit 1))),
      ¬ u.AppliedTerm := by decide
  have hsome : (((wAt staleRequest 13).node 1).loop {}
      (some (.appendEntries (appendAfterCommit 1)))).isSome = true := by decide
  obtain ⟨s', hs'⟩ := Option.isSome_iff_exists.1 hsome
  exact ⟨s', hs', fun hrule => hnot s' hs' hrule.term⟩

end EdgeConsensus.Raft
