import EdgeConsensus.Raft.Tracking

/-!
# One vote per term

A candidate that takes a heartbeat of its own term goes through
`_increment_term` with the term it is in, which clears its vote; as a follower it
votes again, in the term in which it has voted for itself: `votes_twice`. In the
runs where no candidate takes a heartbeat of its own term, all granted votes that
a node sends in a term name one candidate: `one_vote_per_term`.
-/

namespace EdgeConsensus.Raft

variable {n : ℕ}

/-- **One vote per term** of a run: granted votes of one node and one term name the
same candidate. -/
def OneVotePerTerm (es : List (Event n)) : Prop :=
  ∀ (k : ℕ) (v c d : Fin n) (m m' : RequestVotesMessage n),
    .requestVotes m ∈ (wAt es k).chan v c → .requestVotes m' ∈ (wAt es k).chan v d →
    m.direction = .response → m'.direction = .response → m.results.voteGranted = some true →
    m'.results.voteGranted = some true → m.term = m'.term → m.candidateId = m'.candidateId

namespace RaftNode

variable {s s' : RaftNode n} {timers : Timers n} {incoming : Option (Message n)}

/-- A candidate that takes this message takes a heartbeat of its own term. -/
def overtaken (s : RaftNode n) (m : Message n) : Bool :=
  s.campaigns && m.direction = .request && m.type = .heartbeat && m.term = s.currentTerm

/-- A candidate keeps its vote in its term, whatever else it takes. -/
theorem voted_candidateLoop {v t : ℕ} (hf : s.frame = .candidate v t)
    (hm : ∀ m, incoming = some m → s.overtaken m = false)
    (ht : (s.candidateLoop v t timers incoming).currentTerm = s.currentTerm)
    (hv : s.votedFor ≠ none) : (s.candidateLoop v t timers incoming).votedFor ≠ none := by
  have hloop : (s.candidateLoop v t timers incoming).currentTerm =
        (incoming.elim s (s.candidateHandle v t)).currentTerm ∧
      (s.candidateLoop v t timers incoming).votedFor =
        (incoming.elim s (s.candidateHandle v t)).votedFor := by
    obtain ⟨u, rfl, hlast | ⟨-, -, hlast⟩⟩ := candidateLoop_cases (s := s) v t timers incoming
    · rw [hlast]
      exact ⟨rfl, rfl⟩
    · rw [hlast]
      exact ⟨rfl, rfl⟩
  rw [hloop.1] at ht
  rw [hloop.2]
  cases incoming with
  | none => exact hv
  | some m =>
    have hnot := hm m rfl
    replace ht : (s.candidateHandle v t m).currentTerm = s.currentTerm := ht
    show (s.candidateHandle v t m).votedFor ≠ none
    have hcases := candidateHandle_cases (s := s) v t m
    generalize s.candidateHandle v t m = u at hcases ht ⊢
    cases hcases with
    | ignore => exact hv
    | @vote r direction =>
      rcases candidateVote_cases (s := s) v t r with hvote | ⟨votes, hvote⟩
      · rw [hvote]
        exact hv
      · rw [hvote]
        exact hv
    | yield direction term =>
      -- a vote for another candidate is cast in a later term
      exact absurd ht (ne_of_gt term)
    | @heartbeat r direction type term =>
      have hterm : r.term = s.currentTerm := ht
      have hover : s.overtaken (.appendEntries r) = true := by
        simp only [overtaken, campaigns, hf, Bool.and_eq_true, decide_eq_true_eq]
        exact ⟨⟨⟨trivial, direction⟩, type⟩, hterm⟩
      rw [hnot] at hover
      cases hover

/-- **A node keeps its vote for the rest of its term**, unless it is overtaken. -/
theorem loop_voted (h : s.loop timers incoming = some s')
    (hm : ∀ m, incoming = some m → s.overtaken m = false) (ht : s'.currentTerm = s.currentTerm)
    (hv : s.votedFor ≠ none) : s'.votedFor ≠ none := by
  obtain ⟨-, g, hstep, -⟩ := loop_ballot h
  cases hstep with
  | keep term voted => rw [voted]; exact hv
  | count term voted => rw [voted]; exact hv
  | win term voted => rw [voted]; exact hv
  | campaign term voted => rw [voted]; simp
  | down g ended term leader grant voted =>
    -- a node that leaves the race in its term was a candidate, as a leader yields to later terms only
    by_cases hc : s.contends
    · rcases hc with hlead | hrace
      · exact absurd ht (ne_of_gt (leader hlead))
      · cases loop_cases h with
        | run frame => simp [campaigns, frame] at hrace
        | leave frame => exact hv
        | follower frame role run => simp [campaigns, frame] at hrace
        | candidate frame role => exact voted_candidateLoop frame hm ht hv
        | leader frame role run => simp [campaigns, frame] at hrace
    · exact voted hc ht hv

/-- A granted vote is sent to the candidate that it names. -/
theorem Sends.candidateId {m : RequestVotesMessage n} (h : s.Sends (.requestVotes m))
    (hd : m.direction = .response) {c : Fin n} (hc : (Message.requestVotes m).reaches c = true) :
    m.candidateId = c := by
  generalize ho : Message.requestVotes m = o at h hc
  cases h with
  | requestVote =>
    obtain rfl := Message.requestVotes.inj ho
    cases hd
  | vote candidate voteGranted =>
    obtain rfl := Message.requestVotes.inj ho
    rw [voteMessage_reaches] at hc
    simpa using hc
  | heartbeat => cases ho
  | appendEntries => cases ho
  | committal => cases ho
  | acknowledge => cases ho
  | clientRequest => cases ho

end RaftNode

namespace World

/-- No candidate takes a heartbeat of its own term in the step. -/
def HeartbeatOfOtherTerm (w : World n) (ev : Event n) : Prop :=
  ∀ d ∈ w.delivered ev, (w.node d.1).overtaken d.2 = false

instance (w : World n) (ev : Event n) : Decidable (w.HeartbeatOfOtherTerm ev) := by
  unfold HeartbeatOfOtherTerm; infer_instance

/-- The votes of a world in which no candidate was overtaken. -/
structure Votes (w : World n) : Prop where
  wired : w.Wired
  /-- a vote is not ahead of its voter -/
  term_le : ∀ v c t, 0 < w.grants v c t → t ≤ (w.node v).currentTerm
  /-- who has voted in its term has spent its vote -/
  spent : ∀ v c, 0 < w.grants v c (w.node v).currentTerm → (w.node v).votedFor ≠ none
  unique : ∀ v a b t, 0 < w.grants v a t → 0 < w.grants v b t → a = b

variable {w : World n} {ev : Event n}

theorem votes_init : (World.init : World n).Votes := by
  have h0 : ∀ v c t, (World.init : World n).grants v c t = 0 := fun _ _ _ => rfl
  refine ⟨fun a => ⟨rfl, rfl⟩, ?_, ?_, ?_⟩
  · intro v c t h; simp [h0] at h
  · intro v c h; simp [h0] at h
  · intro v a b t h; simp [h0] at h

theorem step_voted (hb : w.HeartbeatOfOtherTerm ev) (v : Fin n)
    (ht : ((w.step ev).node v).currentTerm = (w.node v).currentTerm) (hv : (w.node v).votedFor ≠ none) :
    ((w.step ev).node v).votedFor ≠ none := by
  rcases w.step_cases ev with heq | ⟨b, m, s, w₁, hacts, heq⟩
  · rw [heq]; exact hv
  by_cases hvb : v = b
  · subst hvb
    rw [heq, put_node_self] at ht ⊢
    cases hacts with
    | clientRequest _ value idNum => exact hv
    | call _ frame run =>
      obtain ⟨-, g, hstep, -⟩ := RaftNode.call_ballot frame run
      -- a node in `run` does not campaign, so it ends no race
      have hrace : (w.node v).campaigns = false := by simp [RaftNode.campaigns, frame]
      cases hstep with
      | keep term voted => rw [voted]; exact hv
      | count term voted => rw [voted]; exact hv
      | win term voted => rw [voted]; exact hv
      | campaign term voted => rw [voted]; simp
      | down g ended term leader grant voted =>
        refine voted ?_ ht hv
        rintro (hlead | hc)
        · exact absurd ht (ne_of_gt (leader hlead))
        · rw [hrace] at hc; cases hc
    | loop _ r frame recv run =>
      have hkept := RaftNode.loop_voted run (fun m' hm' => by
        rw [hm'] at recv
        exact hb (v, m') (by simp [delivered, round, frame, recv])) ht hv
      exact hkept
  · rw [heq, put_node_ne hvb, hacts.node]
    exact hv

/-- **A step that overtakes no candidate keeps votes apart.** -/
theorem Votes.step (h : w.Votes) (hb : w.HeartbeatOfOtherTerm ev) : (w.step ev).Votes := by
  refine ⟨h.wired.step ev, grants_term_le h.wired h.term_le ev, fun v c hpos => ?_,
    fun v a b t ha hb' => ?_⟩
  · obtain ⟨-, -, m, g, hstep, hgr, -⟩ := step_ballot h.wired ev v
    rw [hgr] at hpos
    by_cases hg : g = some c
    · -- the vote is a new one
      cases hstep with
      | keep => cases hg
      | count => cases hg
      | win => cases hg
      | campaign term voted => rw [voted]; simp
      | down g ended term leader grant voted => exact (grant (by simp [hg])).1
    · -- the vote is an old one, so the term is not new
      have hpos' : 0 < w.grants v c ((w.step ev).node v).currentTerm := by simpa [hg] using hpos
      have hsame := le_antisymm (h.term_le v c _ hpos') hstep.term_le
      rw [hsame] at hpos'
      exact step_voted hb v hsame (h.spent v c hpos')
  · obtain ⟨-, -, m, g, hstep, hgr, -⟩ := step_ballot h.wired ev v
    -- with a new vote, there is no older one in the same term
    have key : ∀ x y, g = some x ∧ t = ((w.step ev).node v).currentTerm → 0 < w.grants v y t → False := by
      rintro x y ⟨rfl, rfl⟩ hy
      have hle := h.term_le v y _ hy
      obtain ⟨hvoted, -, -⟩ := hstep.again (by simp) hle
      have hsame := le_antisymm hle hstep.term_le
      rw [hsame] at hy
      exact h.spent v y hy hvoted
    rw [hgr] at ha hb'
    by_cases hga : g = some a ∧ t = ((w.step ev).node v).currentTerm
    · by_cases hgb : g = some b ∧ t = ((w.step ev).node v).currentTerm
      · exact Option.some.inj (hga.1.symm.trans hgb.1)
      · rw [if_neg hgb] at hb'
        exact absurd hb' fun hb' => key a b hga (by omega)
    · rw [if_neg hga] at ha
      by_cases hgb : g = some b ∧ t = ((w.step ev).node v).currentTerm
      · exact absurd ha fun ha => key b a hgb (by omega)
      · rw [if_neg hgb] at hb'
        exact h.unique v a b t (by omega) (by omega)

/-- A granted vote in a stream is one for the candidate that it names. -/
theorem Tracked.candidateId (h : w.Tracked) {v c : Fin n} {m : RequestVotesMessage n}
    (hm : .requestVotes m ∈ w.chan v c) (hd : m.direction = .response)
    (hg : m.results.voteGranted = some true) : m.candidateId = c ∧ 0 < w.grants v c m.term := by
  obtain ⟨s, -, hs⟩ := h.emits v c _ hm
  refine ⟨hs.candidateId hd (h.reaches v c _ hm), ?_⟩
  refine List.countP_pos_iff.2 ⟨_, hm, ?_⟩
  simp [Message.grants, Message.granted, hd, hg, Message.term, Message.base]

end World

variable {es : List (Event n)}

/-- **One vote per term where no candidate is overtaken.** -/
theorem one_vote_per_term (hb : ∀ k (hk : k < es.length), (wAt es k).HeartbeatOfOtherTerm es[k]) :
    OneVotePerTerm es := by
  intro k v c d m m' hm hm' hd hd' hg hg' ht
  have hvotes : (wAt es k).Votes :=
    Lib.stateAt_invariant World.votes_init (fun k hk h => h.step (hb k hk)) k
  obtain ⟨hc, hpos⟩ := (tracked_wAt es k).candidateId hm hd hg
  obtain ⟨hc', hpos'⟩ := (tracked_wAt es k).candidateId hm' hd' hg'
  rw [hc, hc']
  rw [ht] at hpos
  exact hvotes.unique v c d _ hpos hpos'

/-- Node 0 of three campaigns and node 1 votes for it. -/
def votedOnce : List (Event 3) := [.call 0, .timeout 0, .call 0, .call 1, .take 1 0 0]

theorem one_vote_per_term_votedOnce :
    ((wAt votedOnce 5).node 1).votedFor = some 0 ∧ OneVotePerTerm votedOnce :=
  ⟨by decide, one_vote_per_term (by decide)⟩

/-- Node 2 campaigns in term 2, nodes 0 and 1 in term 3. Node 0 is elected by itself
and node 2; node 1 takes its heartbeat, and then the delayed request of node 2. -/
def clearedVote : List (Event 3) :=
  [.call 0, .timeout 0, .call 0, .timeout 0, .call 0,
    .call 1, .timeout 1, .call 1, .timeout 1, .call 1, .call 2, .timeout 2, .call 2,
    .take 2 0 1, .take 0 0 3, .take 0 2 1, .call 0, .take 1 0 2, .call 1, .take 1 2 0]

set_option maxRecDepth 10000 in
/-- **Two votes in one term**: node 1 has granted votes of term 3 to itself and to
node 2. -/
theorem votes_twice : ¬ OneVotePerTerm clearedVote := by
  intro h
  have hself : .requestVotes
      { term := 3, sender := 1, receiver := some 1, direction := .response, candidateId := 1,
        lastLogIndex := 0, lastLogTerm := 1, results := ⟨some 3, some true⟩ } ∈
      (wAt clearedVote 20).chan 1 1 := by decide
  have hother : .requestVotes
      { term := 3, sender := 1, receiver := some 2, direction := .response, candidateId := 2,
        lastLogIndex := 0, lastLogTerm := 1, results := ⟨some 3, some true⟩ } ∈
      (wAt clearedVote 20).chan 1 2 := by decide
  have hsame := h 20 1 1 2 _ _ hself hother rfl rfl rfl rfl rfl
  exact absurd hsame (by decide)

end EdgeConsensus.Raft
