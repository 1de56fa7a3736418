import EdgeConsensus.Lib.KthGreatest
import EdgeConsensus.Raft.Tracking
import Mathlib.Order.Lattice.Nat

/-!
# The commit rule

A leader is to commit what is replicated on a majority: the greatest index that more
than half of the match indices reach. The scan over the sorted match indices goes on
after it has found that index, and ends at the least of them, as all match indices
reach that one. `commit_rule` says exactly when the two agree; they do not when a
majority has an entry and some node lags: `lagging_node`.
-/

namespace EdgeConsensus.Raft

variable {n : ℕ}

/-- The greatest index that a majority of the match indices reach. -/
def majorityIndex (M : Fin n → ℕ) : ℕ :=
  Nat.findGreatest (fun i => n / 2 + 1 ≤ Lib.reached M i) (Finset.univ.sup M)

theorem majorityIndex_kthGreatest (M : Fin n → ℕ) (a : Fin n) :
    Lib.KthGreatest M (n / 2 + 1) (majorityIndex M) := by
  have hn : n / 2 + 1 ≤ n := by
    have := a.isLt
    omega
  have hzero : n / 2 + 1 ≤ Lib.reached M 0 := by
    rw [Lib.reached_eq_card fun i => Nat.zero_le (M i), Fintype.card_fin]
    exact hn
  refine ⟨Nat.findGreatest_spec (P := fun i => n / 2 + 1 ≤ Lib.reached M i) (Nat.zero_le _) hzero,
    fun i hi => ?_⟩
  have hi' : n / 2 + 1 ≤ Lib.reached M i := hi
  obtain ⟨j, hj⟩ := Lib.exists_of_reached (M := M) (by omega : 0 < Lib.reached M i)
  exact Nat.le_findGreatest (hj.trans (Finset.le_sup (Finset.mem_univ j))) hi'

namespace RaftNode

variable {s s' : RaftNode n} {m : AppendEntriesMessage n}

/-- The match indices with the acknowledgement counted. -/
def acknowledged (s : RaftNode n) (m : AppendEntriesMessage n) : Fin n → ℕ :=
  match s.nextIndex m.sender with
  | none => s.matchIndex
  | some next =>
    if m.results.success == some true then Function.update s.matchIndex m.sender next else s.matchIndex

/-- **What a leader commits** on an acknowledgement: the committable index, if it is new. -/
theorem leaderAcknowledge_commit (h : s.leaderAcknowledge m = some s')
    (hn : s.nextIndex m.sender ≠ none) :
    s'.matchIndex = s.acknowledged m ∧
      s'.commitIndex = max s.commitIndex (maxCommittableIndex (s.acknowledged m)) := by
  rcases leaderAcknowledge_cases h with ⟨hnone, -⟩ | ⟨k, next, out, hk, -, -, hc⟩
  · exact absurd hnone hn
  have hack : s.acknowledged m = if m.results.success == some true then
      Function.update s.matchIndex m.sender k else s.matchIndex := by
    unfold acknowledged
    rw [hk]
  rw [hack]
  rcases commitMatched_cases hc with ⟨hle, rfl⟩ | ⟨hgt, hc⟩
  · exact ⟨rfl, (max_eq_left hle).symm⟩
  · obtain ⟨e, -, rfl⟩ := broadcastCommmitEntries_eq hc
    exact ⟨rfl, (max_eq_right (le_of_lt hgt)).symm⟩

theorem leaderHandle_acknowledge (hd : m.direction = .response) (ht : m.type = .acknowledge) :
    s.leaderHandle (.appendEntries m) = s.leaderAcknowledge m := by
  unfold leaderHandle
  simp only [Message.direction, Message.base, hd, ht]

end RaftNode

/-- **The commit rule** for a leader in state `s` that handles an Acknowledge: it has committed the
index replicated on a majority, if that is new. -/
def CommitRule (s : RaftNode n) (m : AppendEntriesMessage n) : Prop :=
  ∀ s', s.leaderHandle (.appendEntries m) = some s' →
    s'.commitIndex = max s.commitIndex (majorityIndex s'.matchIndex)

/-- **The commit rule holds exactly where the majority's index is not new, or all match
indices reach it.** A leader that keeps track handles the Acknowledge without an exception. -/
theorem commit_rule (s : RaftNode n) (m : AppendEntriesMessage n) (hd : m.direction = .response)
    (ht : m.type = .acknowledge) (hn : s.nextIndex m.sender ≠ none) :
    (s.Tracks → ∃ s', s.leaderHandle (.appendEntries m) = some s') ∧
      ∀ s', s.leaderHandle (.appendEntries m) = some s' →
        (CommitRule s m ↔ majorityIndex (s.acknowledged m) ≤ s.commitIndex ∨
          ∀ i, majorityIndex (s.acknowledged m) ≤ s.acknowledged m i) := by
  unfold CommitRule
  rw [RaftNode.leaderHandle_acknowledge hd ht]
  refine ⟨fun htracks => ?_, fun s' h => ?_⟩
  · obtain ⟨s', hs', -⟩ := htracks.acknowledge m
    exact ⟨s', hs'⟩
  obtain ⟨hmatch, hcommit⟩ := RaftNode.leaderAcknowledge_commit h hn
  have hone : (∀ u, s.leaderAcknowledge m = some u →
      u.commitIndex = max s.commitIndex (majorityIndex u.matchIndex)) ↔
      s'.commitIndex = max s.commitIndex (majorityIndex s'.matchIndex) := by
    constructor
    · intro hall
      exact hall s' h
    · intro heq u hu
      obtain rfl : s' = u := Option.some.inj (h.symm.trans hu)
      exact heq
  rw [hone, hmatch, hcommit]
  set M := s.acknowledged m
  -- the committable index is the least match index
  obtain ⟨l, hl, hleast⟩ := exists_maxCommittableIndex M m.sender
  have hmajority := majorityIndex_kthGreatest M m.sender
  have hcard : n / 2 + 1 ≤ Fintype.card (Fin n) := by
    rw [Fintype.card_fin]
    have := m.sender.isLt
    omega
  have hle := hmajority.of_forall_le hcard hleast
  rw [hmajority.forall_le_iff hcard hleast, hl]
  omega

/-- The acknowledgement of node 1 for the leader entry of node 0, in term 2. -/
def acknowledgement (n : ℕ) (a b : Fin n) : AppendEntriesMessage n where
  type := .acknowledge
  term := 2
  sender := b
  receiver := some a
  direction := .response
  leaderId := some a
  prevLogIndex := some 0
  prevLogTerm := some 1
  entries := none
  leaderCommit := 0
  results := { term := some 2, success := some true }

/-- Node 0 of two leads, and has an acknowledgement to handle. -/
def acknowledgedOnce : List (Event 2) := elect ++ [.take 1 0 1, .take 1 0 2]

set_option maxRecDepth 10000 in
theorem commit_rule_acknowledgedOnce :
    .appendEntries (acknowledgement 2 0 1) ∈ (wAt acknowledgedOnce 11).chan 1 0 ∧
      CommitRule ((wAt acknowledgedOnce 11).node 0) (acknowledgement 2 0 1) :=
  ⟨by decide, ((commit_rule _ _ rfl rfl (by decide)).2 _ (Option.some_get (by decide)).symm).2
    (Or.inr (by decide))⟩

/-- Node 0 of three leads; node 1 has acknowledged its leader entry, which node 2 has not got. -/
def laggingNode : List (Event 3) :=
  [.call 0, .timeout 0, .call 0, .call 1, .take 1 0 0, .take 0 0 0, .take 0 0 1, .take 0 1 0, .call 0,
    .take 1 0 1, .take 1 0 2]

set_option maxRecDepth 10000 in
/-- **A majority is not enough**: with the match indices 1, 1 and 0, the leader commits nothing. -/
theorem lagging_node :
    .appendEntries (acknowledgement 3 0 1) ∈ (wAt laggingNode 11).chan 1 0 ∧
      ((wAt laggingNode 11).node 0).presides = true ∧
      ¬ CommitRule ((wAt laggingNode 11).node 0) (acknowledgement 3 0 1) := by
  refine ⟨by decide, by decide, fun h => ?_⟩
  have hnot : ∀ s' ∈ ((wAt laggingNode 11).node 0).leaderHandle (.appendEntries (acknowledgement 3 0 1)),
      s'.commitIndex ≠ max ((wAt laggingNode 11).node 0).commitIndex (majorityIndex s'.matchIndex) := by
    decide
  have hsome : (((wAt laggingNode 11).node 0).leaderHandle
      (.appendEntries (acknowledgement 3 0 1))).isSome = true := by decide
  obtain ⟨s', hs'⟩ := Option.isSome_iff_exists.1 hsome
  exact hnot s' hs' (h s' hs')

end EdgeConsensus.Raft
