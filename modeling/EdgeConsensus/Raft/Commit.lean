import EdgeConsensus.Raft.LogMatching
import Mathlib.Data.Finset.Card

/-!
# Commits

A leader credits an acknowledgement, which names no index, to whatever
`next_index` holds; followers cut their logs behind whatever an AppendEntries
message names and commit what they are told. Each of these can go wrong on a
delayed or repeated message. On the other hand `maxCommittableIndex` is the least
match index, so a leader commits only what all nodes are credited with.

In the runs whose steps avoid the defects (one predicate for each, below), credits
are true (`credits_held`), so commits rest on unanimous acknowledgements
(`commits`), and with that:

* `commit_quorum`: what a leader commits is in a majority of logs (in all).
* `state_machine_safety`: committed entries agree, everywhere and always.
* `leader_completeness`: later leaders have what earlier ones committed.
-/

namespace EdgeConsensus.Raft

open Finset

variable {n : ℕ}

namespace World

/-- The AppendEntries message that a follower accepts in the step. -/
def accepted (w : World n) (ev : Event n) : Option (Fin n × AppendEntriesMessage n) :=
  match w.delivered ev with
  | some (b, .appendEntries m) => if (w.node b).accepts m then some (b, m) else none
  | _ => none

/-- The Committal message that a follower obeys in the step. -/
def obeyed (w : World n) (ev : Event n) : Option (Fin n × AppendEntriesMessage n) :=
  match w.delivered ev with
  | some (b, .appendEntries m) => if (w.node b).obeys m then some (b, m) else none
  | _ => none

/-- The credit a leader gives in the step: leader, sender and index. -/
def credited (w : World n) (ev : Event n) : Option (Fin n × Fin n × ℕ) :=
  match w.delivered ev with
  | some (b, .appendEntries m) => ((w.node b).credits m).map fun k => (b, m.sender, k)
  | _ => none

/-- A follower accepts entries in the term of the message, which it has adopted. -/
def TermAdopted (w : World n) (ev : Event n) : Prop :=
  ∀ d ∈ w.accepted ev, d.2.term = (w.node d.1).currentTerm

/-- A follower that has the message's entry already has nothing behind it to lose. -/
def KeepsMatching (w : World n) (ev : Event n) : Prop :=
  ∀ d ∈ w.accepted ev, ∀ p ∈ d.2.prevLogIndex, (w.node d.1).log[p + 1]? = d.2.entries →
    (w.node d.1).log.length = p + 2

/-- A follower that commits on accepting an entry commits no more than the leader had. -/
def CommitBound (w : World n) (ev : Event n) : Prop :=
  ∀ d ∈ w.accepted ev, d.2.leaderCommit > (w.node d.1).commitIndex →
    ∀ p ∈ d.2.prevLogIndex, p ≤ d.2.leaderCommit

/-- A follower that obeys a Committal message has the entry it names. -/
def CommittalMatches (w : World n) (ev : Event n) : Prop :=
  ∀ d ∈ w.obeyed ev, ∀ i ∈ d.2.prevLogIndex, ∀ t ∈ d.2.prevLogTerm,
    (w.node d.1).verifyEntry i t = true

/-- A majority of the logs hold the entry of node `c` at `m`. -/
def OnMajority (w : World n) (c : Fin n) (m : ℕ) : Prop :=
  ∃ e ∈ (w.node c).log[m]?, n / 2 + 1 ≤ #{i | (w.node i).log[m]? = some e}

instance (w : World n) (c : Fin n) (m : ℕ) : Decidable (w.OnMajority c m) := by
  unfold OnMajority; infer_instance

instance (w : World n) (ev : Event n) : Decidable (w.TermAdopted ev) := by
  unfold TermAdopted; infer_instance

instance (w : World n) (ev : Event n) : Decidable (w.KeepsMatching ev) := by
  unfold KeepsMatching; infer_instance

instance (w : World n) (ev : Event n) : Decidable (w.CommitBound ev) := by
  unfold CommitBound; infer_instance

instance (w : World n) (ev : Event n) : Decidable (w.CommittalMatches ev) := by
  unfold CommittalMatches; infer_instance

end World

variable (es : List (Event n))

/-- A leader's credit is true: by then the sender of the acknowledgement has held,
in the leader's term, the leader's entry at the index it is credited with. -/
def AckTruthful (k : ℕ) (ev : Event n) : Prop :=
  ∀ d ∈ (wAt es k).credited ev, (history es).Held k d.1 d.2.1 d.2.2

instance (k : ℕ) (ev : Event n) : Decidable (AckTruthful es k ev) := by
  unfold AckTruthful; infer_instance

/-- The steps of the run do replication without the defects. -/
structure Replicating : Prop where
  voteInTerm : ∀ k (hk : k < es.length), (wAt es k).VoteInTerm es[k]
  entryInTerm : ∀ k (hk : k < es.length), (wAt es k).EntryInTerm es[k]
  termAdopted : ∀ k (hk : k < es.length), (wAt es k).TermAdopted es[k]
  keepsMatching : ∀ k (hk : k < es.length), (wAt es k).KeepsMatching es[k]
  ackTruthful : ∀ k (hk : k < es.length), AckTruthful es k es[k]

/-- The steps of the run do commits without the defects, too. -/
structure Committing : Prop extends Replicating es where
  commitBound : ∀ k (hk : k < es.length), (wAt es k).CommitBound es[k]
  committalMatches : ∀ k (hk : k < es.length), (wAt es k).CommittalMatches es[k]

/-- **Commit quorum soundness** of a run: when a leader raises its commit index, a
majority of the logs hold its entry there. -/
def CommitQuorum : Prop :=
  ∀ (k : ℕ) (c : Fin n), ((wAt es k).node c).currentRole = .leader →
    ((wAt es k).node c).commitIndex < ((wAt es (k + 1)).node c).commitIndex →
    (wAt es (k + 1)).OnMajority c ((wAt es (k + 1)).node c).commitIndex

/-- **State machine safety** of a run: what two nodes have committed at an index, at
any two times, is one entry. -/
def StateMachineSafety : Prop :=
  ∀ (k l : ℕ) (a b : Fin n) (i : ℕ), i ≤ ((wAt es k).node a).commitIndex →
    i ≤ ((wAt es l).node b).commitIndex →
    ∃ e ∈ ((wAt es k).node a).log[i]?, ((wAt es l).node b).log[i]? = some e

/-- **Leader completeness** of a run: a node that becomes leader of a greater term has
what a leader had committed before. -/
def LeaderCompleteness : Prop :=
  ∀ (k l : ℕ) (a b : Fin n) (i : ℕ) (e : Entry), ((wAt es k).node a).currentRole = .leader →
    i ≤ ((wAt es k).node a).commitIndex → ((wAt es k).node a).log[i]? = some e → k ≤ l →
    ((wAt es l).node b).currentRole ≠ .leader → ((wAt es (l + 1)).node b).currentRole = .leader →
    ((wAt es k).node a).currentTerm < ((wAt es (l + 1)).node b).currentTerm →
    ((wAt es (l + 1)).node b).log[i]? = some e

/-! ## The committable index is the least match index -/

theorem foldl_last {α : Type*} {P : α → Prop} [DecidablePred P] (l : List α) (x y : α) (hx : P x) :
    (l ++ [x]).foldl (fun acc a => if P a then a else acc) y = x := by
  rw [List.foldl_append]
  simp [hx]

/-- **The committable index** is the least match index. -/
theorem exists_maxCommittableIndex (M : Fin n → ℕ) (a : Fin n) :
    ∃ l, RaftNode.maxCommittableIndex M = M l ∧ ∀ i, M l ≤ M i := by
  unfold RaftNode.maxCommittableIndex
  set L := ((List.finRange n).map M).insertionSort (· ≥ ·) with hL
  have hlen : L.length = n := by rw [hL, List.length_insertionSort]; simp
  have hmem : ∀ x, x ∈ L ↔ ∃ i, M i = x := by
    intro x
    rw [hL, List.mem_insertionSort, List.mem_map]
    simp
  have hsorted : L.Pairwise (· ≥ ·) := by
    rw [hL]; exact List.pairwise_insertionSort _ _
  -- the last index is the least, and all match indices reach it
  rcases List.eq_nil_or_concat L with h0 | ⟨init, x, hx⟩
  · have ha := (hmem (M a)).2 ⟨a, rfl⟩
    rw [h0] at ha; cases ha
  rw [List.concat_eq_append] at hx
  have hleast : ∀ y ∈ L, x ≤ y := by
    intro y hy
    rw [hx] at hy hsorted
    rcases List.mem_append.1 hy with hy | hy
    · exact (List.pairwise_append.1 hsorted).2.2 y hy x (by simp)
    · rw [List.mem_singleton.1 hy]
  have hcount : L.countP (fun j => decide (x ≤ j)) ≥ n / 2 + 1 := by
    rw [List.countP_eq_length.2 fun y hy => by simpa using hleast y hy, hlen]
    have := a.isLt
    omega
  have hfold := foldl_last (P := fun a => L.countP (fun j => decide (a ≤ j)) ≥ n / 2 + 1) init x 0 hcount
  rw [← hx] at hfold
  rw [hfold]
  obtain ⟨l, rfl⟩ := (hmem x).1 (by rw [hx]; simp)
  exact ⟨l, rfl, fun i => hleast _ ((hmem (M i)).2 ⟨i, rfl⟩)⟩

theorem maxCommittableIndex_le (M : Fin n → ℕ) (i : Fin n) : RaftNode.maxCommittableIndex M ≤ M i := by
  obtain ⟨l, hl, hleast⟩ := exists_maxCommittableIndex M i
  rw [hl]
  exact hleast i

/-! ## What the conditions give -/

section

variable {es} {k : ℕ} {a : Fin n} {m : AppendEntriesMessage n}

theorem delivered_of_round {w : World n} {ev : Event n} {x : Message n}
    (h : w.round ev = some (a, some x)) : w.delivered ev = some (a, x) := by
  simp [World.delivered, h]

theorem accepted_of_round {w : World n} {ev : Event n}
    (h : w.round ev = some (a, some (.appendEntries m))) (hacc : (w.node a).accepts m = true) :
    (a, m) ∈ w.accepted ev := by
  simp [World.accepted, delivered_of_round h, hacc]

theorem obeyed_of_round {w : World n} {ev : Event n}
    (h : w.round ev = some (a, some (.appendEntries m))) (hob : (w.node a).obeys m = true) :
    (a, m) ∈ w.obeyed ev := by
  simp [World.obeyed, delivered_of_round h, hob]

theorem credited_of_round {w : World n} {ev : Event n} {j : ℕ}
    (h : w.round ev = some (a, some (.appendEntries m))) (hc : (w.node a).credits m = some j) :
    (a, m.sender, j) ∈ w.credited ev := by
  simp [World.credited, delivered_of_round h, hc]

/-- **What a follower obeys was told by a leader.** -/
theorem obeyed_told {i t : ℕ} (hk : k < es.length)
    (hround : (wAt es k).round es[k] = some (a, some (.appendEntries m)))
    (hob : ((wAt es k).node a).obeys m = true) (hi : m.prevLogIndex = some i)
    (ht : m.prevLogTerm = some t) :
    ∃ c, ∃ q ≤ k, ∃ e, ((wAt es q).node c).Tells m i e ∧ t = e.term := by
  obtain ⟨c, hmem⟩ := World.round_some hround
  obtain ⟨q, hq, hv⟩ := backed es k c a _ hmem
  simp only [RaftNode.obeys, Bool.and_eq_true, decide_eq_true_eq] at hob
  obtain ⟨i', e, ho⟩ := (hv hob.1.2).2 hob.2
  obtain rfl : i' = i := Option.some.inj (ho.index.symm.trans hi)
  exact ⟨c, q, hq, e, ho, Option.some.inj (ht.symm.trans ho.prevTerm)⟩

end

variable {es}

/-- **Replication without the defects is careful.** -/
theorem Replicating.careful (h : Replicating es) : (history es).Careful Entry.term where
  toReplicated := replicated h.voteInTerm h.entryInTerm
  careful := fun k a => by
    rcases log_cases h.entryInTerm k a with hkeep | hled | ⟨hk, m, q, c, p, prev, e, hr, hacc, ho, hA⟩
    · exact Or.inl hkeep
    · exact Or.inr (Or.inl hled)
    have hmem := accepted_of_round hr hacc
    refine Or.inr (Or.inr ⟨q, c, p, e, hA, ?_, fun hheld => ?_⟩)
    · exact ho.term.symm.trans (h.termAdopted k hk _ hmem)
    · exact h.keepsMatching k hk _ hmem p ho.index (by rw [ho.entries]; exact hheld)

/-- A leader's match index is no more than what it has committed, or is true. -/
def Matched (es : List (Event n)) (k : ℕ) (c i : Fin n) (j : ℕ) : Prop :=
  j ≤ ((wAt es k).node c).commitIndex ∨ (history es).Held k c i j

/-- **Credits keep match indices true.** -/
theorem Replicating.credited (h : Replicating es) {k : ℕ} {c : Fin n} {incoming : Option (Message n)}
    {M : Fin n → ℕ} (hk : k < es.length) (hr : (wAt es k).round es[k] = some (c, incoming))
    (hM : ∀ i, Matched es k c i (((wAt es k).node c).matchIndex i))
    (hc : RaftNode.Credited ((wAt es k).node c) incoming M) (i : Fin n) : Matched es k c i (M i) := by
  cases hc with
  | same => exact hM i
  | @credit m j recv next =>
    subst recv
    by_cases hi : i = m.sender
    · subst hi
      rw [Function.update_self]
      exact Or.inr (h.ackTruthful k hk _ (credited_of_round hr next))
    · rw [Function.update_of_ne hi]
      exact hM i

/-- **A leader's match indices are true**, where they exceed its commit index. -/
theorem Replicating.matched (h : Replicating es) (k : ℕ) (c : Fin n)
    (hp : ((wAt es k).node c).presides = true) :
    ∀ i, Matched es k c i (((wAt es k).node c).matchIndex i) := by
  induction k with
  | zero => simp [World.init, RaftNode.init, RaftNode.presides] at hp
  | succ k ih =>
    intro i
    obtain ⟨⟨input, hstep, hround⟩, -⟩ := wAt_log es k c
    have hself : ((wAt es (k + 1)).node c).matchIndex c + 1 = ((wAt es (k + 1)).node c).log.length →
        (history es).Held (k + 1) c c (((wAt es (k + 1)).node c).matchIndex c) := by
      intro hlen
      refine Lib.History.Held.self ?_
      show _ < ((wAt es (k + 1)).node c).log.length
      omega
    cases hstep with
    | keep log commit presides =>
      obtain ⟨hp', hterm, hmatch⟩ := presides hp
      rw [hmatch]
      rcases ih hp' i with hle | hheld
      · exact Or.inl (by rw [commit]; exact hle)
      · refine Or.inr (hheld.succ hterm ?_)
        show ((wAt es k).node c).log <+: ((wAt es (k + 1)).node c).log
        rw [log]
    | call role role' term log commit matched =>
      -- a new leader starts from its commit index
      rcases matched i with hM | ⟨hi, hM⟩
      · exact Or.inl (by rw [hM, commit])
      · rw [(wired_wAt k c).1] at hi
        subst hi
        exact Or.inr (hself hM)
    | lead round presides grows log taken credited matched commit =>
      obtain ⟨hk, hr⟩ := hround _ round
      rcases matched i with hM | ⟨hi, hM⟩
      · -- a credit of this round, or of an earlier one
        rw [hM]
        rcases h.credited hk hr (ih presides) credited i with hle | hheld
        · exact Or.inl (le_trans hle grows.commit)
        · exact Or.inr (hheld.succ grows.term grows.log)
      · rw [(wired_wAt k c).1] at hi
        subst hi
        exact Or.inr (hself hM)
    | accept round accepts index prevTerm entries verified log commit follows =>
      rw [follows] at hp; cases hp
    | committal round obeys index prevTerm log commit follows =>
      rw [follows] at hp; cases hp

/-- **A leader commits what all nodes have acknowledged.** -/
theorem Replicating.acked (h : Replicating es) {k : ℕ} {c : Fin n}
    (hlead : ((wAt es k).node c).currentRole = .leader)
    (hlt : ((wAt es k).node c).commitIndex < ((wAt es (k + 1)).node c).commitIndex) :
    (history es).Acked k c ((wAt es (k + 1)).node c).commitIndex := by
  refine ⟨hlead, fun i => ?_⟩
  obtain ⟨⟨input, hstep, hround⟩, -⟩ := wAt_log es k c
  cases hstep with
  | keep log commit => omega
  | call role role' term log commit => omega
  | @lead incoming entries M round presides grows log taken credited matched commit =>
    obtain ⟨hk, hr⟩ := hround _ round
    rcases commit with heq | ⟨-, hmax⟩
    · omega
    -- the committable index is no more than what the node is credited with
    have hle := maxCommittableIndex_le M i
    rw [← hmax] at hle
    rcases h.credited hk hr (h.matched k c presides) credited i with hM | hM
    · omega
    · exact hM.below h.careful.toReplicated hle
  | accept round accepts =>
    simp [RaftNode.accepts, hlead] at accepts
  | committal round obeys =>
    simp [RaftNode.obeys, hlead] at obeys

/-- **Commit quorum soundness without the defects of replication.** -/
theorem commit_quorum (h : Replicating es) : CommitQuorum es := by
  intro k c hlead hlt
  have hack := h.acked hlead hlt
  obtain ⟨-, -, -, e, -, he⟩ := hack.2 c
  have hall : ∀ i, ((wAt es (k + 1)).node i).log[((wAt es (k + 1)).node c).commitIndex]? = some e := by
    intro i
    have hkeep := hack.keeps h.careful (show k ≤ k + 1 by omega) i
    exact (Lib.getElem?_of_take hkeep (by omega)).trans he
  refine ⟨e, hall c, ?_⟩
  rw [filter_true_of_mem fun i _ => hall i, card_univ, Fintype.card_fin]
  have := c.isLt
  omega

/-- Node 0 of two is elected, and appends its leader entry. -/
def elect : List (Event 2) :=
  [.call 0, .timeout 0, .call 0, .call 1, .take 1 0 0, .take 0 0 0, .take 0 0 1, .take 0 1 0, .call 0]

/-- Node 1 gets the leader entry, acknowledges it, and is told of the commit. -/
def commitOnce : List (Event 2) := elect ++ [.take 1 0 1, .take 1 0 2, .take 0 1 1, .take 1 0 3]

set_option maxRecDepth 10000 in
theorem replicating_commitOnce : Replicating commitOnce :=
  ⟨by decide, by decide, by decide, by decide, by decide⟩

theorem commit_quorum_commitOnce :
    ((wAt commitOnce 12).node 0).commitIndex = 1 ∧ CommitQuorum commitOnce :=
  ⟨by decide, commit_quorum replicating_commitOnce⟩

/-- The leader entry is sent to node 1 twice, and both acknowledgements are still
on their way when the leader appends a request; the second is credited to it. -/
def staleAck : List (Event 2) :=
  elect ++ [.loop 0 { resend := fun _ => true }, .take 1 0 1, .take 1 0 2, .take 1 0 3,
    .clientRequest 0 (.str "x") (.int 7), .loop 0 {}, .take 0 1 1, .take 0 1 2]

set_option maxRecDepth 10000 in
/-- **Commit quorum soundness fails**: the leader commits the request at index 2,
which node 1 has not got. -/
theorem false_credit : ¬ CommitQuorum staleAck := by
  intro h
  exact absurd (h 16 0 (by decide +kernel) (by decide +kernel)) (by decide +kernel)

/-- **The commit indices of a cluster are commits** of its replicated log. -/
theorem Committing.commits (h : Committing es) :
    (history es).Commits Entry.term fun k a => ((wAt es k).node a).commitIndex where
  init := fun a => rfl
  step := fun k a => by
    obtain ⟨⟨input, hstep, hround⟩, -⟩ := wAt_log es k a
    cases hstep with
    | keep log commit => exact Or.inl commit
    | call role role' term log commit => exact Or.inl commit
    | lead round presides grows log taken credited matched commit =>
      rcases commit with heq | ⟨hlt, -⟩
      · exact Or.inl heq
      · exact Or.inr (Or.inl (h.acked (RaftNode.presides_role presides) hlt))
    | @accept m p t e round accepts index prevTerm entries verified log commit =>
      obtain ⟨hk, hr⟩ := hround _ round
      obtain ⟨c, q, hq, prev, ho, rfl⟩ := accepted_offer hk hr accepts index prevTerm entries
      -- a new commit index is one of the sender's, and up to it the logs agree
      by_cases hc : m.leaderCommit > ((wAt es k).node a).commitIndex
      · rw [if_pos hc] at commit
        rw [RaftNode.verifyEntry_iff, Option.map_eq_some_iff] at verified
        obtain ⟨f, hf, hterm⟩ := verified
        have hp := h.commitBound k hk _ (accepted_of_round hr accepts) hc p index
        rw [commit]
        refine Or.inr (Or.inr ⟨q, hq, c, le_trans hp ho.commit, prev, f, ho.behind, ?_, hterm⟩)
        show ((wAt es (k + 1)).node a).log[p]? = some f
        obtain ⟨hlen, -⟩ := List.getElem?_eq_some_iff.1 hf
        rw [log, List.getElem?_append_left (by rw [List.length_take]; omega),
          List.getElem?_take_of_lt (by omega), hf]
      · exact Or.inl (by rw [commit, if_neg hc])
    | @committal m i t round obeys index prevTerm log commit =>
      obtain ⟨hk, hr⟩ := hround _ round
      obtain ⟨c, q, hq, e, ho, rfl⟩ := obeyed_told hk hr obeys index prevTerm
      -- a Committal message names an entry that its sender has committed
      have hver := h.committalMatches k hk _ (obeyed_of_round hr obeys) i index _ prevTerm
      rw [RaftNode.verifyEntry_iff, Option.map_eq_some_iff] at hver
      obtain ⟨f, hf, hterm⟩ := hver
      rw [commit]
      refine Or.inr (Or.inr ⟨q, hq, c, ho.commit, e, f, ho.entry, ?_, hterm⟩)
      show ((wAt es (k + 1)).node a).log[i]? = some f
      rw [log, hf]

/-- **State machine safety without the defects.** -/
theorem state_machine_safety (h : Committing es) : StateMachineSafety es := by
  intro k l a b i ha hb
  exact h.commits.committed_agree h.careful (k := k) (l := l) (i := a) (j := b) ha hb

set_option maxRecDepth 10000 in
theorem committing_commitOnce : Committing commitOnce :=
  ⟨replicating_commitOnce, by decide, by decide⟩

theorem state_machine_safety_commitOnce :
    ((wAt commitOnce 13).node 1).commitIndex = 1 ∧ StateMachineSafety commitOnce :=
  ⟨by decide, state_machine_safety committing_commitOnce⟩

/-- After that, node 1 is elected without the request. -/
def lostRequest : List (Event 2) :=
  staleAck ++ [.timeout 1, .call 1, .take 0 1 3, .take 1 1 0, .take 1 1 1, .take 1 0 7]

/-- The new leader entry overwrites the request in the log of node 0. -/
def overwritten : List (Event 2) := lostRequest ++ [.call 1, .call 0, .take 0 1 4, .take 0 1 5]

set_option maxRecDepth 10000 in
/-- **State machine safety fails**: node 0 commits the request of its client at
index 2, and later has the leader entry of node 1 committed there. -/
theorem committed_overwritten : ¬ StateMachineSafety overwritten := by
  intro h
  exact absurd (h 17 27 0 0 2 (by decide +kernel) (by decide +kernel)) (by decide +kernel)

/-- **Leader completeness without the defects.** -/
theorem leader_completeness (h : Committing es) : LeaderCompleteness es := by
  intro k l a b i e _ ha he hkl _ _ _
  have hcomplete := h.commits.complete h.careful (k := k) (l := l + 1) (i := a) ha (by omega) b
  exact hcomplete.trans he

/-- Node 0 commits its leader entry, and node 1 is elected next. -/
def commitThenElect : List (Event 2) :=
  commitOnce ++ [.timeout 1, .call 1, .take 0 1 2, .take 1 1 0, .take 1 1 1, .take 1 0 4]

set_option maxRecDepth 10000 in
theorem committing_commitThenElect : Committing commitThenElect :=
  ⟨⟨by decide, by decide, by decide, by decide, by decide⟩, by decide, by decide⟩

theorem leader_completeness_commitThenElect :
    ((wAt commitThenElect 19).node 1).currentRole = .leader ∧ LeaderCompleteness commitThenElect :=
  ⟨by decide, leader_completeness committing_commitThenElect⟩

set_option maxRecDepth 10000 in
/-- **Leader completeness fails**: node 0 has committed the request in term 2, and
node 1 leads in term 3 without it. -/
theorem committed_lost : ¬ LeaderCompleteness lostRequest := by
  intro h
  have he := h 17 22 0 1 2 ⟨2, .str "x", .int 7⟩ (by decide +kernel) (by decide +kernel)
    (by decide +kernel) (by decide) (by decide +kernel) (by decide +kernel) (by decide +kernel)
  exact absurd he (by decide +kernel)

end EdgeConsensus.Raft
