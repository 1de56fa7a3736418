import EdgeConsensus.Raft.Spec

/-!
# What a step does to terms and votes

`BallotStep` lists everything a step can do to a node's term, its vote, its
candidacy and its tally, and `call_ballot`, `loop_ballot` say that each step does
one of these and which granted vote, if any, it sends. The invariants of elections
are proved from this list and look at no handler.
-/

namespace EdgeConsensus.Raft

variable {n : ℕ}

/-- The message is a granted vote. -/
def Message.granted : Message n → Bool
  | .requestVotes m => m.direction = .response && m.results.voteGranted = some true
  | .appendEntries _ => false

/-- The message is a granted vote, cast in term `t`. -/
def Message.grants (m : Message n) (t : ℕ) : Bool := m.granted && m.term = t

@[simp] theorem Message.grants_appendEntries (m : AppendEntriesMessage n) (t : ℕ) :
    (Message.appendEntries m).grants t = false := rfl

/-- How many of the messages are granted votes for `c`, cast in term `t`. -/
def grantsTo (out : List (Message n)) (c : Fin n) (t : ℕ) : ℕ :=
  (out.filter (·.reaches c)).countP (·.grants t)

theorem grantsTo_append (l l' : List (Message n)) (c : Fin n) (t : ℕ) :
    grantsTo (l ++ l') c t = grantsTo l c t + grantsTo l' c t := by
  simp [grantsTo]

theorem grantsTo_eq_zero {out : List (Message n)} (h : ∀ o ∈ out, ∀ t, o.grants t = false)
    (c : Fin n) (t : ℕ) : grantsTo out c t = 0 := by
  unfold grantsTo
  rw [List.countP_eq_zero]
  intro o ho
  simp [h o (List.mem_of_mem_filter ho) t]

namespace RaftNode

variable {s s' : RaftNode n}

/-- In the loop of `_candidate`. -/
def campaigns (s : RaftNode n) : Bool :=
  match s.frame with
  | .candidate _ _ => true
  | _ => false

/-- The votes the candidate has counted for itself. -/
def tally (s : RaftNode n) : ℕ :=
  match s.frame with
  | .candidate votesForMe _ => votesForMe
  | _ => 0

/-- In the race for its term, or past it. -/
def contends (s : RaftNode n) : Prop := s.currentRole = .leader ∨ s.campaigns = true

/-- A granted vote for itself comes out of a message. -/
def counts (incoming : Option (Message n)) : Prop := ∃ m, incoming = some m ∧ m.granted = true

/-- The steps of an election at a node that gets `incoming`; the index is the node
that is sent a granted vote, cast in the node's new term. -/
inductive BallotStep (incoming : Option (Message n)) (s s' : RaftNode n) : Option (Fin n) → Prop
  | keep (term : s'.currentTerm = s.currentTerm) (voted : s'.votedFor = s.votedFor)
      (leader : s'.currentRole = .leader ↔ s.currentRole = .leader)
      (race : s'.campaigns = true → s.campaigns = true ∧ s'.tally = s.tally) :
      BallotStep incoming s s' none
  | count (term : s'.currentTerm = s.currentTerm) (voted : s'.votedFor = s.votedFor)
      (follower : s.currentRole ≠ .leader) (role : s'.currentRole = s.currentRole)
      (race : s.campaigns = true) (tally : s'.tally = s.tally + 1) (vote : counts incoming) :
      BallotStep incoming s s' none
  | win (term : s'.currentTerm = s.currentTerm) (voted : s'.votedFor = s.votedFor)
      (race : s.campaigns = true) (ended : s'.campaigns = false) (leader : s'.currentRole = .leader)
      (majority : n = 1 ∨ n / 2 < s.tally ∨ (n / 2 < s.tally + 1 ∧ counts incoming)) :
      BallotStep incoming s s' none
  | campaign (term : s'.currentTerm = s.currentTerm + 1) (voted : s'.votedFor = some s.myId)
      (follower : s.currentRole ≠ .leader) (role : s'.currentRole = s.currentRole)
      (race : s'.campaigns = true) (tally : s'.tally = 0) :
      BallotStep incoming s s' (some s.myId)
  | down (g : Option (Fin n)) (ended : ¬ s'.contends) (term : s.currentTerm ≤ s'.currentTerm)
      (leader : s.currentRole = .leader → s.currentTerm < s'.currentTerm)
      (grant : g ≠ none → s'.votedFor ≠ none ∧
        (s'.currentTerm = s.currentTerm → s.votedFor = none ∧ ¬ s.contends))
      (voted : ¬ s.contends → s'.currentTerm = s.currentTerm → s.votedFor ≠ none →
        s'.votedFor ≠ none) :
      BallotStep incoming s s' g

/-- The step from `s` to `s'` is a ballot step, and the granted vote of that step is
the only one sent; a node keeps its address. -/
def Ballot (incoming : Option (Message n)) (s s' : RaftNode n) : Prop :=
  s'.myId = s.myId ∧ ∃ g, BallotStep incoming s s' g ∧ ∃ out, s'.talker = s.talker ++ out ∧
    ∀ c t, grantsTo out c t = if g = some c ∧ t = s'.currentTerm then 1 else 0

theorem BallotStep.term_le {incoming : Option (Message n)} {g : Option (Fin n)}
    (h : BallotStep incoming s s' g) : s.currentTerm ≤ s'.currentTerm := by
  cases h <;> omega

/-- A node that votes in a term it has voted in before was free to. -/
theorem BallotStep.again {incoming : Option (Message n)} {g : Option (Fin n)}
    (h : BallotStep incoming s s' g) (hg : g ≠ none) (ht : s'.currentTerm ≤ s.currentTerm) :
    s.votedFor = none ∧ ¬ s.contends ∧ ¬ s'.contends := by
  cases h with
  | keep => exact absurd rfl hg
  | count => exact absurd rfl hg
  | win => exact absurd rfl hg
  | campaign term => omega
  | down g ended term leader grant voted =>
    obtain ⟨h1, h2⟩ := (grant hg).2 (by omega)
    exact ⟨h1, h2, ended⟩

/-- A node in the race was in it before, in the same term and without a new vote,
unless it has just entered. -/
theorem BallotStep.entered {incoming : Option (Message n)} {g : Option (Fin n)}
    (h : BallotStep incoming s s' g) (hc : s'.contends) :
    (s.contends ∧ s'.currentTerm = s.currentTerm ∧ g = none) ∨
      (s'.currentTerm = s.currentTerm + 1 ∧ g = some s.myId) := by
  cases h with
  | keep term voted leader race =>
    refine Or.inl ⟨?_, term, rfl⟩
    rcases hc with h | h
    · exact Or.inl (leader.1 h)
    · exact Or.inr (race h).1
  | count term voted follower role race tally vote => exact Or.inl ⟨Or.inr race, term, rfl⟩
  | win term voted race ended leader majority => exact Or.inl ⟨Or.inr race, term, rfl⟩
  | campaign term voted follower role race tally => exact Or.inr ⟨term, rfl⟩
  | down g ended term leader grant voted => exact absurd hc ended

/-- Nothing of the election changes, and no vote is sent. -/
structure Quiet (s s' : RaftNode n) : Prop where
  term : s'.currentTerm = s.currentTerm
  voted : s'.votedFor = s.votedFor
  role : s'.currentRole = s.currentRole
  frame : s'.frame = s.frame
  myId : s'.myId = s.myId
  talker : ∃ out, s'.talker = s.talker ++ out ∧ ∀ o ∈ out, ∀ t, o.grants t = false

theorem Quiet.refl (s : RaftNode n) : Quiet s s := ⟨rfl, rfl, rfl, rfl, rfl, [], by simp, by simp⟩

theorem Quiet.trans {u : RaftNode n} (h : Quiet s u) (h' : Quiet u s') : Quiet s s' := by
  obtain ⟨out, ho, hg⟩ := h.talker
  obtain ⟨out', ho', hg'⟩ := h'.talker
  refine ⟨h'.term.trans h.term, h'.voted.trans h.voted, h'.role.trans h.role,
    h'.frame.trans h.frame, h'.myId.trans h.myId, out ++ out', by rw [ho', ho, List.append_assoc], ?_⟩
  intro o hmem
  rcases List.mem_append.1 hmem with h1 | h1
  · exact hg o h1
  · exact hg' o h1

theorem Quiet.campaigns (h : Quiet s s') : s'.campaigns = s.campaigns := by
  unfold RaftNode.campaigns; rw [h.frame]

theorem Quiet.tally (h : Quiet s s') : s'.tally = s.tally := by
  unfold RaftNode.tally; rw [h.frame]

theorem Quiet.contends (h : Quiet s s') : s'.contends ↔ s.contends := by
  unfold RaftNode.contends; rw [h.role, h.campaigns]

/-- A ballot step may follow what is quiet. -/
theorem Quiet.then {incoming : Option (Message n)} {u : RaftNode n} (h : Quiet s u)
    (h' : Ballot incoming u s') : Ballot incoming s s' := by
  obtain ⟨out, ho, hg⟩ := h.talker
  obtain ⟨hid, g, hstep, out', ho', hg'⟩ := h'
  refine ⟨hid.trans h.myId, g, ?_, out ++ out', by rw [ho', ho, List.append_assoc], fun c t => ?_⟩
  · cases hstep with
    | keep term voted leader race =>
      rw [h.role] at leader; rw [h.campaigns, h.tally] at race
      exact .keep (term.trans h.term) (voted.trans h.voted) leader race
    | count term voted follower role race tally vote =>
      rw [h.role] at follower role; rw [h.campaigns] at race; rw [h.tally] at tally
      exact .count (term.trans h.term) (voted.trans h.voted) follower role race tally vote
    | win term voted race ended leader majority =>
      rw [h.campaigns] at race; rw [h.tally] at majority
      exact .win (term.trans h.term) (voted.trans h.voted) race ended leader majority
    | campaign term voted follower role race tally =>
      rw [h.role] at follower role; rw [h.term] at term; rw [h.myId] at voted ⊢
      exact .campaign term voted follower role race tally
    | down g ended term leader grant voted =>
      rw [h.term] at term leader grant voted
      rw [h.role] at leader
      rw [h.voted, h.contends] at grant voted
      exact .down g ended term leader grant voted
  · rw [grantsTo_append, grantsTo_eq_zero hg, Nat.zero_add, hg']

theorem Quiet.ballot {incoming : Option (Message n)} (h : Quiet s s') : Ballot incoming s s' := by
  obtain ⟨out, ho, hg⟩ := h.talker
  refine ⟨h.myId, none, .keep h.term h.voted (by rw [h.role]) ?_, out, ho, fun c t => ?_⟩
  · exact fun hr => ⟨by rw [← h.campaigns]; exact hr, h.tally⟩
  · rw [grantsTo_eq_zero hg]; simp

/-! ## Votes and heartbeats -/

@[simp] theorem voteMessage_granted (s : RaftNode n) (x : Fin n) (granted : Bool) :
    (s.voteMessage x granted).granted = granted := by
  cases granted <;> rfl

@[simp] theorem voteMessage_term (s : RaftNode n) (x : Fin n) (granted : Bool) :
    (s.voteMessage x granted).term = s.currentTerm := rfl

theorem voteMessage_reaches (s : RaftNode n) (x : Fin n) (granted : Bool) (c : Fin n) :
    (s.voteMessage x granted).reaches c = decide (x = c) := by
  simp [voteMessage, Message.reaches, Message.base]

theorem grantsTo_vote (s : RaftNode n) (x : Fin n) (granted : Bool) (c : Fin n) (t : ℕ) :
    grantsTo [s.voteMessage x granted] c t =
      if granted = true ∧ x = c ∧ t = s.currentTerm then 1 else 0 := by
  unfold grantsTo
  by_cases hx : x = c
  · by_cases ht : t = s.currentTerm
    · cases granted <;> simp [voteMessage_reaches, Message.grants, hx, ht]
    · cases granted <;> simp [voteMessage_reaches, Message.grants, ht, Ne.symm ht]
  · simp [voteMessage_reaches, hx]

theorem quiet_sendMessage {m : AppendEntriesMessage n} : Quiet s (s.sendMessage (.appendEntries m)) :=
  ⟨rfl, rfl, rfl, rfl, rfl, [.appendEntries m], rfl, by simp⟩

/-! ## The phases of a leader are quiet -/

theorem quiet_broadcastAppendEntries {e : Entry} (h : s.broadcastAppendEntries e = some s') :
    Quiet s s' := by
  obtain ⟨last, -, rfl⟩ := broadcastAppendEntries_eq h
  refine ⟨rfl, rfl, rfl, rfl, rfl, _, rfl, ?_⟩
  intro o ho
  obtain ⟨i, -, rfl⟩ := List.mem_map.1 ho
  exact fun _ => rfl

theorem quiet_broadcastCommmitEntries {i : ℕ} (h : s.broadcastCommmitEntries i = some s') :
    Quiet s s' := by
  obtain ⟨e, -, rfl⟩ := broadcastCommmitEntries_eq h
  refine ⟨rfl, rfl, rfl, rfl, rfl, _, rfl, ?_⟩
  intro o ho
  obtain ⟨j, -, rfl⟩ := List.mem_map.1 ho
  exact fun _ => rfl

theorem Replicates.grants {o : Message n} (h : s.Replicates o) (t : ℕ) : o.grants t = false := by
  obtain ⟨_, _, _, _, -, -, rfl⟩ := h
  rfl

theorem quiet_leaderAcknowledge {m : AppendEntriesMessage n} (h : s.leaderAcknowledge m = some s') :
    Quiet s s' := by
  rcases leaderAcknowledge_cases h with ⟨-, rfl⟩ | ⟨k, next, out, -, -, hout, hc⟩
  · exact Quiet.refl s'
  · set u : RaftNode n := { s with
      matchIndex := if m.results.success == some true then
        Function.update s.matchIndex m.sender k else s.matchIndex
      nextIndex := Function.update s.nextIndex m.sender
        (if next > s.logMaxIndex then none else some next)
      talker := s.talker ++ out }
    have hu : Quiet s u := ⟨rfl, rfl, rfl, rfl, rfl, out, rfl, fun o ho => (hout o ho).grants⟩
    rcases commitMatched_cases hc with ⟨-, rfl⟩ | ⟨-, hc⟩
    · exact hu
    · exact hu.trans (quiet_broadcastCommmitEntries hc)

theorem quiet_leaderClientRequest (h : s.leaderClientRequest = some s') : Quiet s s' := by
  rcases leaderClientRequest_cases h with ⟨-, rfl⟩ | ⟨request, queue, -, h⟩
  · exact Quiet.refl s'
  · have hu : Quiet s { s with clientQueue := queue } := ⟨rfl, rfl, rfl, rfl, rfl, [], by simp, by simp⟩
    exact hu.trans (quiet_broadcastAppendEntries h)

/-! ## Handlers -/

theorem ballot_yieldTo {incoming : Option (Message n)} {m : RequestVotesMessage n}
    (h : m.term > s.currentTerm) : Ballot incoming s (s.yieldTo m) := by
  refine ⟨rfl, some m.sender, .down _ ?_ ?_ ?_ ?_ ?_, [_], rfl, fun c t => ?_⟩
  · simp [contends, yieldTo, leave, setCurrentRole, campaigns]
  · exact Nat.le_of_lt h
  · exact fun _ => h
  · exact fun _ => ⟨by simp [yieldTo, leave, setCurrentRole, sendVote], fun ht => absurd ht (ne_of_gt h)⟩
  · exact fun _ ht => absurd ht (ne_of_gt h)
  · rw [grantsTo_vote]
    simp [yieldTo, leave, setCurrentRole, sendVote, sendMessage]

theorem ballot_followerRequestVotes {incoming : Option (Message n)} {m : RequestVotesMessage n}
    (hs : ¬ s.contends) : Ballot incoming s (s.followerRequestVotes m) := by
  have hlead : s.currentRole ≠ .leader := fun h => hs (Or.inl h)
  have hterm : s.currentTerm ≤ max s.currentTerm m.term := le_max_left _ _
  -- in a term that is not new, the vote was free or is refused
  have hold : max s.currentTerm m.term = s.currentTerm → ¬ m.term > s.currentTerm := by omega
  rw [followerRequestVotes_eq, raiseTerm_eq]
  by_cases hgrant : (m.term > s.currentTerm ∨ s.votedFor = none) ∧ m.lastLogIndex ≥ s.lastAppliedIndex ∧
      m.lastLogTerm ≥ s.lastAppliedTerm
  · have hfree : max s.currentTerm m.term = s.currentTerm → s.votedFor = none := by
      intro ht
      exact hgrant.1.resolve_left (hold ht)
    rw [decide_eq_true hgrant]
    refine ⟨rfl, some m.sender, .down _ hs hterm (fun h => absurd h hlead) ?_ ?_, [_], rfl, fun c t => ?_⟩
    · exact fun _ => ⟨by simp [sendVote], fun ht => ⟨hfree ht, hs⟩⟩
    · exact fun _ ht h0 => absurd (hfree ht) h0
    · rw [grantsTo_vote]; simp [sendVote, sendMessage]
  · rw [decide_eq_false hgrant]
    refine ⟨rfl, none, .down _ hs hterm (fun h => absurd h hlead) (by simp) ?_, [_], rfl, fun c t => ?_⟩
    · exact fun _ _ _ => by simp [sendVote]
    · rw [grantsTo_vote]; simp

/-- Once it has the term, a heartbeat is quiet. -/
theorem quiet_followerHeartbeat (m : AppendEntriesMessage n) :
    Quiet (s.raiseTerm m.term) (s.followerHeartbeat m) := by
  rcases s.followerHeartbeat_cases m with heq | ⟨request, queue, -, -, heq⟩
  · rw [heq]
    exact ⟨rfl, rfl, rfl, rfl, rfl, [], by simp, by simp⟩
  · rw [heq]
    exact ⟨rfl, rfl, rfl, rfl, rfl, [_], rfl, by simp [clientRequestMessage]⟩

theorem ballot_followerHeartbeat {incoming : Option (Message n)} {m : AppendEntriesMessage n}
    (hs : ¬ s.contends) : Ballot incoming s (s.followerHeartbeat m) := by
  have hlead : s.currentRole ≠ .leader := fun h => hs (Or.inl h)
  -- the term may rise; what follows is quiet
  have hquiet := quiet_followerHeartbeat (s := s) m
  rw [raiseTerm_eq] at hquiet
  obtain ⟨out, hout, hgrants⟩ := hquiet.talker
  have hcontends : ¬ (s.followerHeartbeat m).contends := by
    unfold contends campaigns at hs ⊢
    rw [hquiet.role, hquiet.frame]
    exact hs
  refine ⟨hquiet.myId, none, .down _ hcontends ?_ (fun h => absurd h hlead) (by simp) ?_, out, hout,
    fun c t => ?_⟩
  · rw [hquiet.term]
    exact le_max_left _ _
  · rw [hquiet.term, hquiet.voted]
    intro _ ht h
    have hold : m.term ≤ s.currentTerm := (le_max_right s.currentTerm m.term).trans (le_of_eq ht)
    exact (if_neg (Nat.not_lt.2 hold)).trans_ne h
  · rw [grantsTo_eq_zero hgrants]; simp

theorem quiet_followerAppendEntries {m : AppendEntriesMessage n}
    (h : s.followerAppendEntries m = some s') : Quiet s s' := by
  rcases followerAppendEntries_cases h with ⟨rfl, -⟩ | ⟨p, t, e, -, -, -, -, -, rfl⟩
  · exact quiet_sendMessage
  · split <;> exact ⟨rfl, rfl, rfl, rfl, rfl, [_], rfl, by simp [acknowledgeMessage]⟩

theorem quiet_commitEntry (i t : ℕ) : Quiet s (s.commitEntry i t) :=
  ⟨rfl, rfl, rfl, rfl, rfl, [], by simp [commitEntry], by simp⟩

theorem ballot_followerHandle {m : Message n} (hs : ¬ s.contends)
    (h : s.followerHandle m = some s') : Ballot (some m) s s' := by
  cases followerHandle_cases h with
  | ignore => exact (Quiet.refl s).ballot
  | requestVotes direction => exact ballot_followerRequestVotes hs
  | heartbeat direction type => exact ballot_followerHeartbeat hs
  | appendEntries direction type run => exact (quiet_followerAppendEntries run).ballot
  | committal direction type index prevTerm => exact (quiet_commitEntry _ _).ballot

/-- When the election timer has run out as well, the node is out of the race. -/
theorem Ballot.timeout {incoming : Option (Message n)} (h : Ballot incoming s s')
    (hs : s.currentRole ≠ .leader) : Ballot incoming s (s'.setCurrentRole .candidate).leave := by
  have hnot : ¬ (s'.setCurrentRole .candidate).leave.contends := by
    simp [contends, leave, setCurrentRole, campaigns]
  have hkeep : ((s'.setCurrentRole .candidate).leave.currentRole = .leader ↔ s.currentRole = .leader) :=
    ⟨by simp [leave, setCurrentRole], fun h => absurd h hs⟩
  obtain ⟨hid, g, hstep, out, hout, hgrants⟩ := h
  cases hstep with
  | keep term voted leader race =>
    exact ⟨hid, none, .keep term voted hkeep (by simp [leave, setCurrentRole, campaigns]), out, hout, hgrants⟩
  | count term voted follower role race tally vote =>
    exact ⟨hid, none, .keep term voted hkeep (by simp [leave, setCurrentRole, campaigns]), out, hout, hgrants⟩
  | win term voted race ended leader majority =>
    exact ⟨hid, none, .keep term voted hkeep (by simp [leave, setCurrentRole, campaigns]), out, hout, hgrants⟩
  | campaign term voted follower role race tally =>
    have hne : (s'.setCurrentRole .candidate).leave.currentTerm ≠ s.currentTerm := by
      show s'.currentTerm ≠ _; omega
    refine ⟨hid, _, .down _ hnot ?_ (fun h => absurd h hs) ?_ (fun _ ht => absurd ht hne), out, hout, hgrants⟩
    · show s.currentTerm ≤ s'.currentTerm; omega
    · exact fun _ => ⟨by simp [leave, setCurrentRole, voted], fun ht => absurd ht hne⟩
  | down g ended term leader grant voted =>
    exact ⟨hid, _, .down g hnot term leader grant voted, out, hout, hgrants⟩

theorem ballot_followerLoop {timers : Timers n} {incoming : Option (Message n)}
    (hs : ¬ s.contends) (h : s.followerLoop timers incoming = some s') : Ballot incoming s s' := by
  obtain ⟨u, hu, rfl⟩ := followerLoop_cases h
  have hball : Ballot incoming s u := by
    cases incoming with
    | none =>
      obtain rfl : s = u := by simpa using hu
      exact (Quiet.refl s).ballot
    | some m => exact ballot_followerHandle hs hu
  split
  · exact hball.timeout fun h => hs (Or.inl h)
  · exact hball

/-! ## Candidates -/

/-- A candidate votes for itself in its new term, and for nobody else. -/
theorem candidateCall_grants (s : RaftNode n) :
    ∃ out, s.candidateCall.talker = s.talker ++ out ∧ ∀ c t, grantsTo out c t =
      if some s.myId = some c ∧ t = s.candidateCall.currentTerm then 1 else 0 := by
  set u := s.incrementTerm none
  refine ⟨[u.requestVoteMessage] ++ [u.sendRequestVote.voteMessage s.myId true], ?_, fun c t => ?_⟩
  · show s.talker ++ _ ++ _ = _
    rw [List.append_assoc]
  · have hrequest : grantsTo [u.requestVoteMessage] c t = 0 :=
      grantsTo_eq_zero (by simp [requestVoteMessage, Message.grants, Message.granted]) c t
    rw [grantsTo_append, hrequest, grantsTo_vote]
    simp [candidateCall, sendVote, sendRequestVote, sendMessage, u]

theorem ballot_candidateCall (hs : s.currentRole = .candidate) : Ballot none s s.candidateCall :=
  ⟨rfl, some s.myId, .campaign rfl rfl (by simp [hs]) rfl rfl rfl, s.candidateCall_grants⟩

theorem ballot_candidateVote {v t : ℕ} {m : RequestVotesMessage n}
    (hs : s.currentRole = .candidate) (hf : s.frame = .candidate v t) (hm : m.direction = .response) :
    Ballot (some (.requestVotes m)) s (s.candidateVote v t m) := by
  have hrace : s.campaigns = true := by simp [campaigns, hf]
  have htally : s.tally = v := by simp [tally, hf]
  have hlead : s.currentRole ≠ .leader := by simp [hs]
  unfold candidateVote
  by_cases hg : m.results.voteGranted = some true
  · have hcounts : counts (some (Message.requestVotes m)) := ⟨_, rfl, by simp [Message.granted, hm, hg]⟩
    simp only [hg, if_true]
    split
    · rename_i hmaj
      refine ⟨rfl, none, .win rfl rfl hrace rfl rfl ?_, [], by simp [leave, setCurrentRole], by simp [grantsTo]⟩
      rw [htally]
      rcases hmaj with h | h
      · exact Or.inr (Or.inr ⟨h, hcounts⟩)
      · exact Or.inl h
    · exact ⟨rfl, none, .count rfl rfl hlead rfl hrace (by rw [htally]; rfl) hcounts, [], by simp,
        by simp [grantsTo]⟩
  · simp only [hg, if_false]
    split
    · rename_i hmaj
      refine ⟨rfl, none, .win rfl rfl hrace rfl rfl ?_, [], by simp [leave, setCurrentRole], by simp [grantsTo]⟩
      rw [htally]
      rcases hmaj with h | h
      · exact Or.inr (Or.inl h)
      · exact Or.inl h
    · exact ⟨rfl, none, .keep rfl rfl Iff.rfl fun _ => ⟨hrace, by rw [htally]; rfl⟩, [], by simp,
        by simp [grantsTo]⟩

theorem ballot_candidateHeartbeat {incoming : Option (Message n)} {m : AppendEntriesMessage n}
    (hs : s.currentRole = .candidate) (hr : s.campaigns = true) (hm : s.currentTerm ≤ m.term) :
    Ballot incoming s (s.candidateHeartbeat m) := by
  refine ⟨rfl, none, .down _ ?_ hm (by simp [hs]) (by simp) (fun h => absurd (Or.inr hr) h), [], ?_,
    by simp [grantsTo]⟩
  · simp [contends, candidateHeartbeat, leave, setCurrentRole, campaigns]
  · simp [candidateHeartbeat, leave, setCurrentRole, incrementTerm]

theorem ballot_candidateHandle {v t : ℕ} {m : Message n} (hs : s.currentRole = .candidate)
    (hf : s.frame = .candidate v t) : Ballot (some m) s (s.candidateHandle v t m) := by
  have hrace : s.campaigns = true := by simp [campaigns, hf]
  have hcases := candidateHandle_cases (s := s) v t m
  generalize s.candidateHandle v t m = s' at hcases
  cases hcases with
  | ignore => exact (Quiet.refl s).ballot
  | vote direction => exact ballot_candidateVote hs hf direction
  | yield direction term => exact ballot_yieldTo term
  | heartbeat direction type term => exact ballot_candidateHeartbeat hs hrace term

theorem ballot_candidateLoop {v t : ℕ} {timers : Timers n} {incoming : Option (Message n)}
    (hs : s.currentRole = .candidate) (hf : s.frame = .candidate v t) :
    Ballot incoming s (s.candidateLoop v t timers incoming) := by
  have hball : Ballot incoming s (incoming.elim s (s.candidateHandle v t)) := by
    cases incoming with
    | none => exact (Quiet.refl s).ballot
    | some m => exact ballot_candidateHandle hs hf
  obtain ⟨u, rfl, hlast | ⟨-, -, hlast⟩⟩ := candidateLoop_cases (s := s) v t timers incoming
  · rw [hlast]
    exact hball
  · rw [hlast]
    exact hball.timeout (by simp [hs])

/-! ## Leaders -/

theorem quiet_leaderHandle {m : Message n} (h : s.leaderHandle m = some s') :
    Quiet s s' ∨ ∃ r, m = .requestVotes r ∧ r.term > s.currentTerm ∧ s' = s.yieldTo r := by
  cases leaderHandle_cases h with
  | ignoreVotes other => exact Or.inl (Quiet.refl s)
  | ignoreEntries other => exact Or.inl (Quiet.refl s)
  | acknowledge direction type run => exact Or.inl (quiet_leaderAcknowledge run)
  | clientRequest direction type entries run => exact Or.inl (quiet_broadcastAppendEntries run)
  | @yield r direction term => exact Or.inr ⟨r, rfl, term, rfl⟩

theorem ballot_leaderLoop {timers : Timers n} {incoming : Option (Message n)}
    (h : s.leaderLoop timers incoming = some s') : Ballot incoming s s' := by
  obtain ⟨out, v, u, hout, hv, hu, hlast⟩ := leaderLoop_cases h
  have hgrants : ∀ o ∈ out, ∀ t, o.grants t = false := by
    intro o ho
    rcases hout o ho with rfl | h
    · exact fun _ => rfl
    · exact h.grants
  have hsv : Quiet s v := by subst hv; exact ⟨rfl, rfl, rfl, rfl, rfl, out, rfl, hgrants⟩
  have hvu : Quiet v u ∨ ∃ r : RequestVotesMessage n, r.term > v.currentTerm ∧ u = v.yieldTo r := by
    cases incoming with
    | none =>
      obtain rfl : v = u := by simpa using hu
      exact Or.inl (Quiet.refl v)
    | some m =>
      rcases quiet_leaderHandle hu with h | ⟨r, -, h, h'⟩
      · exact Or.inl h
      · exact Or.inr ⟨r, h, h'⟩
  rcases hvu with hq | ⟨r, hr, rfl⟩
  · have hsu := hsv.trans hq
    rcases hlast with ⟨-, rfl⟩ | ⟨-, hlast⟩
    · exact hsu.ballot
    · exact (hsu.trans (quiet_leaderClientRequest hlast)).ballot
  · -- the leader steps down, after what it has sent
    rcases hlast with ⟨-, rfl⟩ | ⟨hrun, -⟩
    · exact hsv.then (ballot_yieldTo hr)
    · exact absurd rfl hrun

theorem quiet_leaderCall (h : s.leaderCall = some s') :
    Quiet s { s' with frame := s.frame } ∧ s'.frame = .leader := by
  obtain ⟨u, hu, rfl⟩ := leaderCall_cases h
  have h1 : Quiet s s.takeOver := ⟨rfl, rfl, rfl, rfl, rfl, [s.heartbeatMessage], rfl, by
    simp [heartbeatMessage]⟩
  have h2 := h1.trans (quiet_broadcastAppendEntries hu)
  exact ⟨⟨h2.term, h2.voted, h2.role, rfl, h2.myId, h2.talker⟩, rfl⟩

/-! ## The steps of a node -/

/-- **A call of a role function is a ballot step.** -/
theorem call_ballot (hf : s.frame = .run) (h : s.call = some s') : Ballot none s s' := by
  have hrun : s.campaigns = false := by simp [campaigns, hf]
  cases call_cases h with
  | leader role run =>
    obtain ⟨hq, hframe⟩ := quiet_leaderCall run
    obtain ⟨out, ho, hg⟩ := hq.talker
    refine ⟨hq.myId, none, .keep hq.term hq.voted ?_ (by simp [campaigns, hframe]), out, ho, fun c t => ?_⟩
    · have := hq.role
      simp only at this
      rw [this]
    · rw [grantsTo_eq_zero hg]; simp
  | follower role =>
    exact ⟨rfl, none, .keep rfl rfl Iff.rfl (by simp [campaigns]), [], by simp, by simp [grantsTo]⟩
  | candidate role => exact ballot_candidateCall role
  | none role => exact (Quiet.refl s).ballot

/-- **A round of a loop is a ballot step.** -/
theorem loop_ballot {timers : Timers n} {incoming : Option (Message n)}
    (h : s.loop timers incoming = some s') : Ballot incoming s s' := by
  have hleave : Ballot incoming s s.leave :=
    ⟨rfl, none, .keep rfl rfl Iff.rfl (by simp [leave, campaigns]), [], by simp [leave], by simp [grantsTo]⟩
  cases loop_cases h with
  | run frame => exact (Quiet.refl s).ballot
  | leave frame => exact hleave
  | follower frame role run => exact ballot_followerLoop (by simp [contends, campaigns, role, frame]) run
  | candidate frame role => exact ballot_candidateLoop role frame
  | leader frame role run => exact ballot_leaderLoop run

/-- A client's request is no concern of the election. -/
theorem clientRequest_ballot (value : Value) (idNum : Key) : Ballot none s (s.clientRequest value idNum) :=
  ⟨rfl, none, .keep rfl rfl Iff.rfl fun h => ⟨h, rfl⟩, [], by simp [clientRequest], by simp [grantsTo]⟩

end RaftNode

end EdgeConsensus.Raft
