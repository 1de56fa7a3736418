import EdgeConsensus.Raft.CommitIndex
import EdgeConsensus.Raft.Election

/-!
# What a refusal does to the vote

`_send_vote` sets `voted_for` to the candidate, whether it grants or refuses. So a
follower that has refused has `voted_for` set and refuses whoever comes after, in this
term: `refusal_uses_vote`. `voted_for` names a candidate that the node has granted its
vote to, in its term, in exactly the runs whose followers refuse nobody but those:
`voted_for_granted`.
-/

namespace EdgeConsensus.Raft

variable {n : ℕ}

/-- **`voted_for` names a vote granted**: the node has sent the candidate in it a granted vote in
its current term. -/
def VotedForGranted (es : List (Event n)) : Prop :=
  ∀ (k : ℕ) (v c : Fin n), ((wAt es k).node v).votedFor = some c →
    ∃ m : RequestVotesMessage n, .requestVotes m ∈ (wAt es k).chan v c ∧ m.direction = .response ∧
      m.results.voteGranted = some true ∧ m.term = ((wAt es k).node v).currentTerm

namespace RaftNode

variable {s s' u : RaftNode n} {timers : Timers n} {incoming : Option (Message n)}

/-- A follower that takes this message refuses its vote: it has voted in the term it is then in, or
the candidate is not up to date. -/
def refuses (s : RaftNode n) : Message n → Bool
  | .requestVotes m =>
    s.frame = .follower && s.currentRole = .follower && m.direction = .request &&
      !((m.term > s.currentTerm || s.votedFor = none) && m.lastLogIndex ≥ s.lastAppliedIndex &&
        m.lastLogTerm ≥ s.lastAppliedTerm)
  | .appendEntries _ => false

/-! ## The steps of a vote -/

/-- The steps of `voted_for`; the index is the node that is granted a vote, in the new term. -/
inductive VoteStep (incoming : Option (Message n)) (s s' : RaftNode n) : Option (Fin n) → Prop
  | keep (term : s'.currentTerm = s.currentTerm) (voted : s'.votedFor = s.votedFor) :
    VoteStep incoming s s' none
  | clear (voted : s'.votedFor = none) : VoteStep incoming s s' none
  | grant {c : Fin n} (voted : s'.votedFor = some c) : VoteStep incoming s s' (some c)
  | refuse {m : RequestVotesMessage n} (recv : incoming = some (.requestVotes m))
      (refuses : s.refuses (.requestVotes m) = true)
      (term : s'.currentTerm = max s.currentTerm m.term) (voted : s'.votedFor = some m.sender) :
    VoteStep incoming s s' none

/-- The step from `s` to `s'` is one of the list, and sends that granted vote only. -/
def Votes (incoming : Option (Message n)) (s s' : RaftNode n) : Prop :=
  ∃ g, VoteStep incoming s s' g ∧ ∃ out, s'.talker = s.talker ++ out ∧
    ∀ c t, grantsTo out c t = if g = some c ∧ t = s'.currentTerm then 1 else 0

theorem Quiet.votes (h : Quiet s s') : Votes incoming s s' := by
  obtain ⟨out, hout, hgrants⟩ := h.talker
  refine ⟨none, .keep h.term h.voted, out, hout, fun c t => ?_⟩
  rw [grantsTo_eq_zero hgrants]
  simp

/-- A vote may follow what is quiet, where nothing is refused. -/
theorem Quiet.then_grant (out : List (Message n)) {c : Fin n} (h : Quiet s u)
    (htalker : s'.talker = u.talker ++ out) (hvoted : s'.votedFor = some c)
    (hgrants : ∀ d t, grantsTo out d t = if c = d ∧ t = s'.currentTerm then 1 else 0) :
    Votes incoming s s' := by
  obtain ⟨out', hout', hnone⟩ := h.talker
  refine ⟨some c, .grant hvoted, out' ++ out, by rw [htalker, hout', List.append_assoc], fun d t => ?_⟩
  rw [grantsTo_append, grantsTo_eq_zero hnone, Nat.zero_add, hgrants]
  simp

/-- What comes after the vote of a round leaves it alone. -/
theorem Votes.then (h : Votes incoming s u) (hterm : s'.currentTerm = u.currentTerm)
    (hvoted : s'.votedFor = u.votedFor) (htalker : s'.talker = u.talker) : Votes incoming s s' := by
  obtain ⟨g, hstep, out, hout, hgrants⟩ := h
  refine ⟨g, ?_, out, htalker.trans hout, fun c t => by rw [hgrants, hterm]⟩
  cases hstep with
  | keep term voted => exact .keep (hterm.trans term) (hvoted.trans voted)
  | clear voted => exact .clear (hvoted.trans voted)
  | grant voted => exact .grant (hvoted.trans voted)
  | refuse recv refuses term voted => exact .refuse recv refuses (hterm.trans term) (hvoted.trans voted)

theorem Quiet.yieldTo_votes (h : Quiet s u) (m : RequestVotesMessage n) :
    Votes incoming s (u.yieldTo m) := by
  refine Quiet.then_grant [(u.incrementTerm (some m.term)).voteMessage m.sender true] h rfl rfl
    fun d t => ?_
  rw [grantsTo_vote]
  exact if_congr (by simp [yieldTo, leave, setCurrentRole, sendVote, sendMessage]) rfl rfl

/-! ## Followers -/

/-- **A follower's answer to a vote request**: either way `voted_for` is the candidate then, in the
higher of the two terms. -/
theorem followerRequestVotes_cases {m : RequestVotesMessage n} (hf : s.frame = .follower)
    (hr : s.currentRole = .follower) (hd : m.direction = .request) :
    (s.followerRequestVotes m).votedFor = some m.sender ∧
      (s.followerRequestVotes m).currentTerm = max s.currentTerm m.term ∧
      ∃ granted, s.refuses (.requestVotes m) = !granted ∧ ∃ x : RaftNode n,
        x.currentTerm = (s.followerRequestVotes m).currentTerm ∧
        (s.followerRequestVotes m).talker = s.talker ++ [x.voteMessage m.sender granted] := by
  have hrefuses : s.refuses (.requestVotes m) = !decide ((m.term > s.currentTerm ∨ s.votedFor = none) ∧
      m.lastLogIndex ≥ s.lastAppliedIndex ∧ m.lastLogTerm ≥ s.lastAppliedTerm) := by
    simp [refuses, hf, hr, hd, Bool.decide_and, Bool.decide_or, Bool.and_assoc]
  rw [followerRequestVotes_eq, raiseTerm_eq]
  exact ⟨rfl, rfl, _, hrefuses, _, rfl, rfl⟩

theorem votes_followerRequestVotes {m : RequestVotesMessage n} (hf : s.frame = .follower)
    (hr : s.currentRole = .follower) (hd : m.direction = .request) :
    Votes (some (.requestVotes m)) s (s.followerRequestVotes m) := by
  obtain ⟨hvoted, hterm, granted, hrefuses, x, hx, htalker⟩ := followerRequestVotes_cases hf hr hd
  cases granted with
  | true =>
    refine ⟨some m.sender, .grant hvoted, _, htalker, fun c t => ?_⟩
    rw [grantsTo_vote, hx]
    simp
  | false =>
    refine ⟨none, .refuse rfl hrefuses hterm hvoted, _, htalker, fun c t => ?_⟩
    rw [grantsTo_vote]
    simp

/-- **What a refusal leaves**: `voted_for` is the candidate, which has been sent no granted vote. -/
theorem refuses_loop {m : Message n} (href : s.refuses m = true)
    (h : s.loop timers (some m) = some s') :
    s'.votedFor = some m.sender ∧ s'.currentTerm = max s.currentTerm m.term ∧
      ∃ out, s'.talker = s.talker ++ out ∧ ∀ c t, grantsTo out c t = 0 := by
  cases m with
  | appendEntries m => cases href
  | requestVotes m =>
    have href' := href
    simp only [refuses, Bool.and_eq_true, decide_eq_true_eq] at href'
    obtain ⟨⟨⟨hf, hr⟩, hd⟩, -⟩ := href'
    rw [loop_follower hf hr] at h
    obtain ⟨u, hu, rfl⟩ := followerLoop_cases h
    have hreq : s.followerRequestVotes m = u := by
      rw [Option.elim_some] at hu
      unfold followerHandle at hu
      simpa [Message.direction, Message.base, hd] using hu
    subst hreq
    obtain ⟨hvoted, hterm, granted, hrefuses, x, -, htalker⟩ := followerRequestVotes_cases hf hr hd
    obtain rfl : granted = false := by simpa [href] using hrefuses
    have hnone : ∀ c t, grantsTo [x.voteMessage m.sender false] c t = 0 := by
      intro c t
      rw [grantsTo_vote]
      simp
    split
    · exact ⟨hvoted, hterm, _, htalker, hnone⟩
    · exact ⟨hvoted, hterm, _, htalker, hnone⟩

theorem votes_followerHeartbeat (m : AppendEntriesMessage n) :
    Votes incoming s (s.followerHeartbeat m) := by
  have hquiet := quiet_followerHeartbeat (s := s) m
  rw [raiseTerm_eq] at hquiet
  obtain ⟨out, hout, hgrants⟩ := hquiet.talker
  refine ⟨none, ?_, out, hout, fun c t => ?_⟩
  · by_cases hgt : m.term > s.currentTerm
    · -- a new term clears the vote
      exact .clear (hquiet.voted.trans (if_pos hgt))
    · exact .keep (hquiet.term.trans (max_eq_left (Nat.le_of_not_lt hgt))) (hquiet.voted.trans (if_neg hgt))
  · rw [grantsTo_eq_zero hgrants]
    simp

theorem votes_followerHandle {m : Message n} (hf : s.frame = .follower) (hr : s.currentRole = .follower)
    (h : s.followerHandle m = some s') : Votes (some m) s s' := by
  cases followerHandle_cases h with
  | ignore => exact (Quiet.refl s).votes
  | requestVotes direction => exact votes_followerRequestVotes hf hr direction
  | heartbeat direction type => exact votes_followerHeartbeat _
  | appendEntries direction type run => exact (quiet_followerAppendEntries run).votes
  | committal direction type index prevTerm => exact (quiet_commitEntry _ _).votes

theorem votes_followerLoop (hf : s.frame = .follower) (hr : s.currentRole = .follower)
    (h : s.followerLoop timers incoming = some s') : Votes incoming s s' := by
  obtain ⟨u, hu, rfl⟩ := followerLoop_cases h
  have hvotes : Votes incoming s u := by
    cases incoming with
    | none =>
      obtain rfl : s = u := by simpa using hu
      exact (Quiet.refl s).votes
    | some m => exact votes_followerHandle hf hr hu
  split
  · exact hvotes.then rfl rfl rfl
  · exact hvotes

/-! ## Candidates and leaders -/

theorem votes_candidateCall : Votes incoming s s.candidateCall :=
  ⟨some s.myId, .grant rfl, s.candidateCall_grants⟩

theorem votes_candidateHandle {m : Message n} (votesForMe totalVotes : ℕ) :
    Votes (some m) s (s.candidateHandle votesForMe totalVotes m) := by
  have hcases := candidateHandle_cases (s := s) votesForMe totalVotes m
  generalize s.candidateHandle votesForMe totalVotes m = s' at hcases
  cases hcases with
  | ignore => exact (Quiet.refl s).votes
  | @vote r direction =>
    have hkeep : Votes (some (.requestVotes r)) s s := (Quiet.refl s).votes
    rcases candidateVote_cases (s := s) votesForMe totalVotes r with h | ⟨votes, h⟩
    · rw [h]
      exact hkeep.then rfl rfl rfl
    · rw [h]
      exact hkeep.then rfl rfl rfl
  | yield direction term => exact (Quiet.refl s).yieldTo_votes _
  | heartbeat direction type term =>
    exact ⟨none, .clear rfl, [], by simp [candidateHeartbeat, leave, setCurrentRole, incrementTerm],
      by simp [grantsTo]⟩

theorem votes_candidateLoop (votesForMe totalVotes : ℕ) :
    Votes incoming s (s.candidateLoop votesForMe totalVotes timers incoming) := by
  have hvotes : Votes incoming s (incoming.elim s (s.candidateHandle votesForMe totalVotes)) := by
    cases incoming with
    | none => exact (Quiet.refl s).votes
    | some m => exact votes_candidateHandle votesForMe totalVotes
  obtain ⟨u, rfl, hlast | ⟨-, -, hlast⟩⟩ :=
    candidateLoop_cases (s := s) votesForMe totalVotes timers incoming
  · rw [hlast]
    exact hvotes
  · rw [hlast]
    exact hvotes.then rfl rfl rfl

theorem votes_leaderLoop (h : s.leaderLoop timers incoming = some s') : Votes incoming s s' := by
  obtain ⟨out, v, u, hout, hv, hu, hlast⟩ := leaderLoop_cases h
  have hgrants : ∀ o ∈ out, ∀ t, o.grants t = false := by
    intro o ho
    rcases hout o ho with rfl | hrep
    · exact fun _ => rfl
    · exact hrep.grants
  have hsv : Quiet s v := by
    subst hv
    exact ⟨rfl, rfl, rfl, rfl, rfl, out, rfl, hgrants⟩
  have hvu : Quiet v u ∨ ∃ r : RequestVotesMessage n, u = v.yieldTo r := by
    cases incoming with
    | none =>
      obtain rfl : v = u := by simpa using hu
      exact Or.inl (Quiet.refl v)
    | some m =>
      rcases quiet_leaderHandle hu with hquiet | ⟨r, -, -, hr⟩
      · exact Or.inl hquiet
      · exact Or.inr ⟨r, hr⟩
  rcases hvu with hquiet | ⟨r, rfl⟩
  · rcases hlast with ⟨-, rfl⟩ | ⟨-, hlast⟩
    · exact (hsv.trans hquiet).votes
    · exact ((hsv.trans hquiet).trans (quiet_leaderClientRequest hlast)).votes
  · rcases hlast with ⟨-, rfl⟩ | ⟨hrun, -⟩
    · exact hsv.yieldTo_votes r
    · exact absurd rfl hrun

/-- **A round of a loop is a vote step.** -/
theorem loop_votes (h : s.loop timers incoming = some s') : Votes incoming s s' := by
  cases loop_cases h with
  | run frame => exact (Quiet.refl s).votes
  | leave frame =>
    have hkeep : Votes incoming s s := (Quiet.refl s).votes
    exact hkeep.then rfl rfl rfl
  | follower frame role run => exact votes_followerLoop frame role run
  | candidate frame role => exact votes_candidateLoop _ _
  | leader frame role run => exact votes_leaderLoop run

/-- **A call of a role function is a vote step.** -/
theorem call_votes (h : s.call = some s') : Votes incoming s s' := by
  have hkeep : Votes incoming s s := (Quiet.refl s).votes
  cases call_cases h with
  | leader role run =>
    obtain ⟨hquiet, -⟩ := quiet_leaderCall run
    exact hquiet.votes.then rfl rfl rfl
  | follower role => exact hkeep.then rfl rfl rfl
  | candidate role => exact votes_candidateCall
  | none role => exact hkeep

end RaftNode

namespace World

/-- A follower of the step refuses its vote to those only to whom it has granted it in the term it is
then in. -/
def RefusesGranted (w : World n) (ev : Event n) : Prop :=
  ∀ d ∈ w.delivered ev, (w.node d.1).refuses d.2 = true →
    0 < w.grants d.1 d.2.sender (max (w.node d.1).currentTerm d.2.term)

instance (w : World n) (ev : Event n) : Decidable (w.RefusesGranted ev) := by
  unfold RefusesGranted; infer_instance

/-- Whom `voted_for` names has been granted the vote of the term. -/
def Granted (w : World n) : Prop :=
  ∀ v c, (w.node v).votedFor = some c → 0 < w.grants v c (w.node v).currentTerm

variable {w : World n} {ev : Event n}

/-- **Every step is a vote step at every node**, and its streams show the vote. -/
theorem step_votes (hw : w.Wired) (ev : Event n) (a : Fin n) :
    ∃ m g, RaftNode.VoteStep m (w.node a) ((w.step ev).node a) g ∧
      (∀ c t, (w.step ev).grants a c t =
        w.grants a c t + if g = some c ∧ t = ((w.step ev).node a).currentTerm then 1 else 0) ∧
      ∀ o, m = some o → w.delivered ev = some (a, o) := by
  rcases w.step_cases ev with heq | ⟨b, m, s, w₁, hacts, heq⟩
  · rw [heq]
    exact ⟨none, none, .keep rfl rfl, by simp, by simp⟩
  by_cases hab : a = b
  · subst hab
    -- the node that acts: what its method grants is what its streams get
    have hvotes : RaftNode.Votes m (w.node a) s := by
      cases hacts with
      | clientRequest _ value idNum =>
        have hkeep : RaftNode.Votes none (w.node a) (w.node a) := (RaftNode.Quiet.refl _).votes
        exact hkeep.then rfl rfl rfl
      | call _ frame run => exact RaftNode.call_votes run
      | loop _ r frame recv run => exact RaftNode.loop_votes run
    obtain ⟨g, hstep, out, hout, hgrants⟩ := hvotes
    rw [(hw a).2, List.nil_append] at hout
    refine ⟨m, g, ?_, fun c t => ?_, ?_⟩
    · rw [heq, put_node_self]
      cases hstep with
      | keep term voted => exact .keep term voted
      | clear voted => exact .clear voted
      | grant voted => exact .grant voted
      | refuse recv refuses term voted => exact .refuse recv refuses term voted
    · have hc := hgrants c t
      unfold grantsTo at hc
      unfold grants
      rw [heq, put_chan, hacts.chan, if_pos rfl, List.countP_append, hout, hc, put_node_self]
    · rintro o rfl
      obtain ⟨x, i, hdel⟩ := hacts.delivers heq
      exact hdel.delivered
  · have hnode : (w.step ev).node a = w.node a := by rw [heq, put_node_ne hab, hacts.node]
    rw [hnode]
    refine ⟨none, none, .keep rfl rfl, fun c t => ?_, by simp⟩
    unfold grants
    rw [heq, put_chan, hacts.chan, if_neg hab]
    simp

/-- **A step whose follower refuses nobody new keeps `voted_for` to votes granted.** -/
theorem Granted.step (h : w.Granted) (hw : w.Wired) (href : w.RefusesGranted ev) : (w.step ev).Granted := by
  intro v c hc
  obtain ⟨m, g, hstep, hgrants, hdel⟩ := step_votes hw ev v
  rw [hgrants]
  cases hstep with
  | keep term voted =>
    rw [voted] at hc
    have hold := h v c hc
    rw [term]
    omega
  | clear voted =>
    rw [voted] at hc
    cases hc
  | grant voted =>
    rw [hc] at voted
    rw [if_pos ⟨voted.symm, rfl⟩]
    omega
  | @refuse r recv refuses term voted =>
    obtain rfl : r.sender = c := Option.some.inj (voted.symm.trans hc)
    have hold := href _ (hdel _ recv) refuses
    rw [term]
    exact Nat.lt_of_lt_of_le hold (Nat.le_add_right _ _)

/-- A step between worlds whose `voted_for` names votes granted refuses nobody new. -/
theorem Granted.refusesGranted (htracked : w.Tracked) (h : (w.step ev).Granted) : w.RefusesGranted ev := by
  rintro ⟨v, m⟩ hdel href
  have hround : w.round ev = some (v, some m) := round_of_delivered hdel
  obtain ⟨s, w₁, hacts, heq⟩ := htracked.round_acts hround
  cases hacts with
  | loop _ r frame recv run =>
    obtain ⟨hvoted, hterm, out, hout, hnone⟩ := RaftNode.refuses_loop href run
    have hnode : ((w.step (.loop v r)).node v).votedFor = some m.sender ∧
        ((w.step (.loop v r)).node v).currentTerm = max (w.node v).currentTerm m.term := by
      rw [heq, put_node_self]
      exact ⟨hvoted, hterm⟩
    have hpos := h v m.sender hnode.1
    rw [hnode.2] at hpos
    -- the streams of the node have got no granted vote
    have hsame : (w.step (.loop v r)).grants v m.sender (max (w.node v).currentTerm m.term) =
        w.grants v m.sender (max (w.node v).currentTerm m.term) := by
      have hzero := hnone m.sender (max (w.node v).currentTerm m.term)
      rw [(htracked.wired v).2, List.nil_append] at hout
      unfold grantsTo at hzero
      unfold grants
      rw [heq, put_chan, taken_chan, if_pos rfl, List.countP_append, hout, hzero, Nat.add_zero]
    rw [hsame] at hpos
    exact hpos

theorem granted_init : (World.init : World n).Granted := by
  intro v c h
  cases h

theorem granted_iff : (∀ v c, (w.node v).votedFor = some c → ∃ m : RequestVotesMessage n,
    .requestVotes m ∈ w.chan v c ∧ m.direction = .response ∧ m.results.voteGranted = some true ∧
      m.term = (w.node v).currentTerm) ↔ w.Granted := by
  have hone : ∀ v c t, (∃ m : RequestVotesMessage n, .requestVotes m ∈ w.chan v c ∧
      m.direction = .response ∧ m.results.voteGranted = some true ∧ m.term = t) ↔ 0 < w.grants v c t := by
    intro v c t
    unfold grants
    rw [List.countP_pos_iff]
    constructor
    · rintro ⟨m, hm, hd, hg, ht⟩
      exact ⟨_, hm, by simp [Message.grants, Message.granted, hd, hg, Message.term, Message.base, ht]⟩
    · rintro ⟨o, ho, hgrants⟩
      cases o with
      | appendEntries m => cases hgrants
      | requestVotes m =>
        simp only [Message.grants, Message.granted, Bool.and_eq_true, decide_eq_true_eq] at hgrants
        exact ⟨m, ho, hgrants.1.1, hgrants.1.2, hgrants.2⟩
  unfold Granted
  simp only [hone]

end World

/-- **`voted_for` names votes granted in exactly the runs whose followers refuse nobody but those to
whom they have granted their vote in the term.** -/
theorem voted_for_granted (es : List (Event n)) :
    VotedForGranted es ↔ ∀ k (hk : k < es.length), (wAt es k).RefusesGranted es[k] := by
  have hworlds : VotedForGranted es ↔ ∀ k, (wAt es k).Granted :=
    forall_congr' fun k => World.granted_iff (w := wAt es k)
  rw [hworlds]
  constructor
  · intro h k hk
    have hnext := h (k + 1)
    rw [wAt_succ es hk] at hnext
    exact hnext.refusesGranted (tracked_wAt es k)
  · intro href
    exact Lib.stateAt_invariant (P := fun w : World n => w.Granted) World.granted_init
      fun k hk h => h.step (wired_wAt k) (href k hk)

/-- Node 0 of two has committed its leader entry, of which node 1 has not been told. It yields to
node 1 in term 3; in term 4, as a follower, it refuses it. -/
def refusedOnly : List (Event 2) :=
  elect ++ [.take 1 0 1, .take 1 0 2, .take 0 1 1, .timeout 1, .call 1, .take 0 1 2, .call 0,
    .timeout 1, .call 1, .take 0 1 3]

set_option maxRecDepth 10000 in
/-- **A refusal uses the vote up**: node 0 has granted nobody its vote of term 4. -/
theorem refusal_uses_vote :
    ((wAt refusedOnly 19).node 0).votedFor = some 1 ∧ ((wAt refusedOnly 19).node 0).currentTerm = 4 ∧
      (∀ c, (wAt refusedOnly 19).grants 0 c 4 = 0) ∧ ¬ VotedForGranted refusedOnly := by
  refine ⟨by decide, by decide, by decide, fun h => ?_⟩
  have hgranted : (wAt refusedOnly 19).Granted := World.granted_iff.1 (h 19)
  exact absurd (hgranted 0 1 (by decide)) (by decide)

end EdgeConsensus.Raft
