import EdgeConsensus.Raft.Tracking

/-!
# The commit index

A follower commits whatever a Committal message names, and cuts its log with no
regard to what it has committed. So the commit index can go back, or past the end
of the log: `commit_goes_back`. `commit_index_invariant` says exactly when neither
happens: in the runs where each follower that obeys a Committal message has the
entry it names and has not committed more, and each follower that accepts an entry
has committed nothing that it cuts off (`KeepsCommits`).
-/

namespace EdgeConsensus.Raft

variable {n : ℕ}

/-- **The commit index of a run**: it is the last applied index, inside the log, and
never goes back. -/
structure CommitInvariant (es : List (Event n)) : Prop where
  applied : ∀ k a, ((wAt es k).node a).lastAppliedIndex = ((wAt es k).node a).commitIndex
  inside : ∀ k a, ((wAt es k).node a).commitIndex ≤ ((wAt es k).node a).logMaxIndex
  readable : ∀ k a, ((wAt es k).node a).checkCommittedEntry ≠ none
  mono : ∀ j k a, j ≤ k → ((wAt es j).node a).commitIndex ≤ ((wAt es k).node a).commitIndex

namespace RaftNode

variable {s s' : RaftNode n} {timers : Timers n}

theorem commitIndex_lt_iff (h : s.log ≠ []) :
    s.commitIndex < s.log.length ↔ s.commitIndex ≤ s.logMaxIndex ∧ s.checkCommittedEntry ≠ none := by
  have hpos : 0 < s.log.length := List.length_pos_iff.2 h
  have hread : s.checkCommittedEntry ≠ none ↔ s.commitIndex < s.log.length := by
    unfold checkCommittedEntry
    simp
  rw [hread]
  unfold logMaxIndex
  omega

/-- **What a follower that accepts an entry ends with.** -/
theorem accepts_loop {m : AppendEntriesMessage n} (hacc : s.accepts m = true)
    (h : s.loop timers (some (.appendEntries m)) = some s') :
    ∃ p e, m.prevLogIndex = some p ∧ p < s.log.length ∧ s'.log = s.log.take (p + 1) ++ [e] ∧
      s'.commitIndex = if m.leaderCommit > s.commitIndex then p else s.commitIndex := by
  simp only [accepts, Bool.and_eq_true, decide_eq_true_eq] at hacc
  obtain ⟨⟨⟨⟨⟨hf, hr⟩, hd⟩, ht⟩, hterm⟩, hver⟩ := hacc
  rw [loop_follower hf hr] at h
  obtain ⟨u, hu, rfl⟩ := followerLoop_cases h
  -- the election timer touches neither the log nor the commit index
  have hsame : ∀ x : RaftNode n, (x.setCurrentRole .candidate).leave.log = x.log ∧
      (x.setCurrentRole .candidate).leave.commitIndex = x.commitIndex := fun x => ⟨rfl, rfl⟩
  have hu' : s.followerAppendEntries m = some u := by
    rw [Option.elim_some] at hu
    unfold followerHandle at hu
    simpa [Message.direction, Message.base, hd, ht] using hu
  have hgoal : ∃ p e, m.prevLogIndex = some p ∧ p < s.log.length ∧ u.log = s.log.take (p + 1) ++ [e] ∧
      u.commitIndex = if m.leaderCommit > s.commitIndex then p else s.commitIndex := by
    rcases followerAppendEntries_cases hu' with ⟨-, hlt | ⟨p, t, hp, hpt, hno⟩⟩ |
      ⟨p, t, e, hp, hpt, -, -, hyes, rfl⟩
    · omega
    · simp [hp, hpt, hno] at hver
    · have hlt : p < s.log.length := by
        rw [verifyEntry_iff, Option.map_eq_some_iff] at hyes
        obtain ⟨f, hf, -⟩ := hyes
        exact (List.getElem?_eq_some_iff.1 hf).1
      refine ⟨p, e, hp, hlt, ?_, ?_⟩
      · split <;> rfl
      · split <;> rfl
  split
  · rw [(hsame u).1, (hsame u).2]; exact hgoal
  · exact hgoal

/-- **What a follower that obeys a Committal message ends with.** -/
theorem obeys_loop {m : AppendEntriesMessage n} (hob : s.obeys m = true)
    (h : s.loop timers (some (.appendEntries m)) = some s') :
    ∃ i, m.prevLogIndex = some i ∧ s'.log = s.log ∧ s'.commitIndex = i := by
  simp only [obeys, Bool.and_eq_true, decide_eq_true_eq] at hob
  obtain ⟨⟨⟨hf, hr⟩, hd⟩, ht⟩ := hob
  rw [loop_follower hf hr] at h
  obtain ⟨u, hu, rfl⟩ := followerLoop_cases h
  have hu' : s.followerCommittal m = some u := by
    rw [Option.elim_some] at hu
    unfold followerHandle at hu
    simpa [Message.direction, Message.base, hd, ht] using hu
  unfold followerCommittal at hu'
  simp only [Option.bind_eq_bind, Option.pure_def, Option.bind_eq_some_iff, Option.some.injEq] at hu'
  obtain ⟨i, hi, t, -, rfl⟩ := hu'
  refine ⟨i, hi, ?_, ?_⟩
  · split <;> rfl
  · split <;> rfl

/-- A leader commits inside its log. -/
theorem Tracks.commit_lt {incoming : Option (Message n)} {M : Fin n → ℕ} (h : s.Tracks)
    (hM : Credited s incoming M) (i : Fin n) (hlt : s.commitIndex < maxCommittableIndex M) :
    maxCommittableIndex M < s.log.length := by
  have hle := maxCommittableIndex_le M i
  have hmatch := h.matched i
  cases hM with
  | same => omega
  | @credit m k recv next =>
    by_cases hi : i = m.sender
    · subst hi
      rw [Function.update_self] at hle
      unfold credits at next
      split at next
      · have hk := (h.next m.sender k next).2
        omega
      · cases next
    · rw [Function.update_of_ne hi] at hle
      omega

end RaftNode

namespace World

/-- The follower that handles a replication message in the step keeps its commits:
it cuts nothing off that it has committed, and commits no less than before, inside
its log. -/
def KeepsCommits (w : World n) (ev : Event n) : Prop :=
  (∀ d ∈ w.accepted ev, ∀ p ∈ d.2.prevLogIndex,
    (w.node d.1).commitIndex ≤ if d.2.leaderCommit > (w.node d.1).commitIndex then p else p + 1) ∧
  ∀ d ∈ w.obeyed ev, ∀ i ∈ d.2.prevLogIndex,
    (w.node d.1).commitIndex ≤ i ∧ i < (w.node d.1).log.length

instance (w : World n) (ev : Event n) : Decidable (w.KeepsCommits ev) := by
  unfold KeepsCommits; infer_instance

variable {w : World n} {ev : Event n}

theorem round_of_delivered {b : Fin n} {m : Message n} (h : w.delivered ev = some (b, m)) :
    w.round ev = some (b, some m) := by
  unfold delivered at h
  rw [Option.bind_eq_some_iff] at h
  obtain ⟨⟨b', m'⟩, hr, hm⟩ := h
  rw [Option.map_eq_some_iff] at hm
  obtain ⟨x, rfl, heq⟩ := hm
  obtain ⟨rfl, rfl⟩ := Prod.mk.inj heq
  exact hr

theorem round_of_accepted {d : Fin n × AppendEntriesMessage n} (h : d ∈ w.accepted ev) :
    w.round ev = some (d.1, some (.appendEntries d.2)) ∧ (w.node d.1).accepts d.2 = true := by
  unfold accepted at h
  split at h
  · rename_i b m hd
    split at h
    · rename_i hacc
      obtain rfl : (b, m) = d := by simpa using h
      exact ⟨round_of_delivered hd, hacc⟩
    · cases h
  · cases h

theorem round_of_obeyed {d : Fin n × AppendEntriesMessage n} (h : d ∈ w.obeyed ev) :
    w.round ev = some (d.1, some (.appendEntries d.2)) ∧ (w.node d.1).obeys d.2 = true := by
  unfold obeyed at h
  split at h
  · rename_i b m hd
    split at h
    · rename_i hob
      obtain rfl : (b, m) = d := by simpa using h
      exact ⟨round_of_delivered hd, hob⟩
    · cases h
  · cases h

/-- The round in which a message is handled. -/
theorem Tracked.round_loop (h : w.Tracked) {b : Fin n} {m : Option (Message n)}
    (hr : w.round ev = some (b, m)) :
    ∃ timers s, (w.node b).loop timers m = some s ∧ (w.step ev).node b = { s with talker := [] } := by
  obtain ⟨s, w₁, hacts, heq⟩ := h.round_acts hr
  cases hacts with
  | clientRequest => cases hr
  | call => cases hr
  | loop _ r frame recv run => exact ⟨r.toTimers, s, run, by rw [heq, put_node_self]⟩

end World

variable {es : List (Event n)}

/-- **A step that keeps commits keeps the commit index in the log, and never takes it back.** -/
theorem commit_step {k : ℕ} (hc : ∀ hk : k < es.length, (wAt es k).KeepsCommits es[k]) (a : Fin n)
    (hlt : ((wAt es k).node a).commitIndex < ((wAt es k).node a).log.length) :
    ((wAt es k).node a).commitIndex ≤ ((wAt es (k + 1)).node a).commitIndex ∧
      ((wAt es (k + 1)).node a).commitIndex < ((wAt es (k + 1)).node a).log.length := by
  obtain ⟨⟨input, hstep, hround⟩, -⟩ := wAt_log es k a
  cases hstep with
  | keep log commit =>
    rw [commit, log]
    exact ⟨le_rfl, hlt⟩
  | call role role' term log commit =>
    rw [commit, log, List.length_append]
    exact ⟨le_rfl, by omega⟩
  | @lead incoming entries M round presides grows log taken credited matched commit =>
    have hlen := grows.log.length_le
    rcases commit with heq | ⟨hgt, hmax⟩
    · rw [heq]
      exact ⟨le_rfl, by omega⟩
    -- match indices are inside the log, and a leader commits one of them
    · have hinside := ((tracked_wAt es k).tracks a presides).commit_lt credited a (by omega)
      exact ⟨by omega, by omega⟩
  | @accept m p t e round accepts index prevTerm entries verified log commit =>
    obtain ⟨hk, hr⟩ := hround _ round
    have hkeep := (hc hk).1 _ (accepted_of_round hr accepts) p index
    have hp : p < ((wAt es k).node a).log.length := by
      rw [RaftNode.verifyEntry_iff, Option.map_eq_some_iff] at verified
      obtain ⟨f, hf, -⟩ := verified
      exact (List.getElem?_eq_some_iff.1 hf).1
    -- the log ends behind the entry that was accepted
    have hlen : ((wAt es (k + 1)).node a).log.length = p + 2 := by
      rw [log, List.length_append, List.length_take, List.length_singleton]
      omega
    rw [commit, hlen]
    simp only at hkeep
    split at hkeep
    · rename_i hgt
      rw [if_pos hgt]
      omega
    · rename_i hgt
      rw [if_neg hgt]
      omega
  | @committal m i t round obeys index prevTerm log commit =>
    obtain ⟨hk, hr⟩ := hround _ round
    obtain ⟨hle, hinside⟩ := (hc hk).2 _ (obeyed_of_round hr obeys) i index
    rw [commit, log]
    exact ⟨hle, hinside⟩

theorem commit_lt (hc : ∀ k (hk : k < es.length), (wAt es k).KeepsCommits es[k]) (k : ℕ) (a : Fin n) :
    ((wAt es k).node a).commitIndex < ((wAt es k).node a).log.length := by
  induction k with
  | zero => simp [World.init, RaftNode.init]
  | succ k ih => exact (commit_step (hc k) a ih).2

/-- A run that keeps its commit indices has only steps that keep commits. -/
theorem CommitInvariant.keepsCommits (h : CommitInvariant es) {k : ℕ} (hk : k < es.length) :
    (wAt es k).KeepsCommits es[k] := by
  have htracked := tracked_wAt es k
  have hlog := (tracked_wAt es (k + 1)).log
  -- what the step must keep is what the invariant says of the node after it
  have hafter : ∀ a, ((wAt es (k + 1)).node a).commitIndex < ((wAt es (k + 1)).node a).log.length :=
    fun a => (RaftNode.commitIndex_lt_iff (hlog a)).2 ⟨h.inside (k + 1) a, h.readable (k + 1) a⟩
  have hmono : ∀ a, ((wAt es k).node a).commitIndex ≤ ((wAt es (k + 1)).node a).commitIndex :=
    fun a => h.mono k (k + 1) a (by omega)
  rw [wAt_succ es hk] at hafter hmono
  refine ⟨fun d hd p hp => ?_, fun d hd i hi => ?_⟩
  · obtain ⟨hr, hacc⟩ := World.round_of_accepted hd
    obtain ⟨timers, s, hs, hnode⟩ := htracked.round_loop hr
    obtain ⟨p', e, hp', hlt, hlogs, hcommit⟩ := RaftNode.accepts_loop hacc hs
    obtain rfl : p' = p := Option.some.inj (hp'.symm.trans hp)
    have h1 := hafter d.1
    have h2 := hmono d.1
    rw [hnode] at h1 h2
    simp only [hlogs, hcommit, List.length_append, List.length_take, List.length_singleton] at h1 h2
    split at h2
    · rename_i hgt
      rw [if_pos hgt]
      exact h2
    · rename_i hgt
      rw [if_neg hgt]
      rw [if_neg hgt] at h1
      omega
  · obtain ⟨hr, hob⟩ := World.round_of_obeyed hd
    obtain ⟨timers, s, hs, hnode⟩ := htracked.round_loop hr
    obtain ⟨i', hi', hlogs, hcommit⟩ := RaftNode.obeys_loop hob hs
    obtain rfl : i' = i := Option.some.inj (hi'.symm.trans hi)
    have h1 := hafter d.1
    have h2 := hmono d.1
    rw [hnode] at h1 h2
    simp only [hlogs, hcommit] at h1 h2
    exact ⟨h2, h1⟩

/-- **The commit index stays in the log and never goes back exactly in the runs whose
followers keep their commits.** -/
theorem commit_index_invariant :
    (∀ k (hk : k < es.length), (wAt es k).KeepsCommits es[k]) ↔ CommitInvariant es := by
  constructor
  · intro hc
    have hlt := commit_lt hc
    have hstep : ∀ k a, ((wAt es k).node a).commitIndex ≤ ((wAt es (k + 1)).node a).commitIndex :=
      fun k a => (commit_step (hc k) a (hlt k a)).1
    refine ⟨fun k a => (tracked_wAt es k).applied a, fun k a => ?_, fun k a => ?_, fun j k a hjk => ?_⟩
    · exact ((RaftNode.commitIndex_lt_iff ((tracked_wAt es k).log a)).1 (hlt k a)).1
    · exact ((RaftNode.commitIndex_lt_iff ((tracked_wAt es k).log a)).1 (hlt k a)).2
    · induction k, hjk using Nat.le_induction with
      | base => exact le_rfl
      | succ k _ ih => exact le_trans ih (hstep k a)
  · intro h k hk
    exact h.keepsCommits hk

/-- Node 0 commits its leader entry and a request, and is deposed by node 1; then it
takes the messages to itself, which have been delayed. -/
def lateCommittal : List (Event 2) :=
  elect ++ [.take 1 0 1, .take 1 0 2, .take 0 1 1, .clientRequest 0 (.str "x") (.int 7), .loop 0 {},
    .take 1 0 3, .take 1 0 4, .take 0 1 2, .timeout 1, .call 1, .take 0 1 3, .call 0,
    .take 0 0 2, .take 0 0 3, .take 0 0 4]

set_option maxRecDepth 10000 in
/-- **The commit index goes back**: node 0, which has committed index 2, obeys its own
Committal message for index 1. And it goes past the end of the log: after `staleAck`,
node 1 obeys the Committal message for the request that it has not got. -/
theorem commit_goes_back :
    ¬ CommitInvariant lateCommittal ∧ ¬ CommitInvariant (staleAck ++ [.take 1 0 6]) := by
  refine ⟨fun h => ?_, fun h => ?_⟩
  · exact absurd (h.mono 17 24 0 (by decide)) (by decide +kernel)
  · exact h.readable 18 1 (by decide +kernel)

end EdgeConsensus.Raft
