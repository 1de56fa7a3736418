import EdgeConsensus.Raft.LogMatching

/-!
# Who is taken for a leader

A node sets `leader_id` when it begins to lead and when it gets a heartbeat. It sends acknowledgements
and its clients' requests to the leader that the message in hand names. None of this goes astray: the
commands of the class `AppendEntriesMessage` come from leaders, in their terms, so whoever is taken for a
leader has led, and each answer is for one such node.

* `Utters`: what a message says about leaders, where it is sent.
* `Informs`: what one step makes of `leader_id`; `call_informs` and `loop_informs` say that each step is one.
* `leaders_known`: over runs.
-/

namespace EdgeConsensus.Raft

variable {n : ℕ}

namespace RaftNode

variable {s s' u : RaftNode n} {incoming : Option (Message n)} {m : AppendEntriesMessage n}

/-! ## One step -/

/-- A command of a leader, in its term. -/
structure Commands (s : RaftNode n) (m : AppendEntriesMessage n) : Prop where
  direction : m.direction = .request
  term : m.term = s.currentTerm
  leaderId : m.leaderId = some s.myId

/-- The message answers the command that the step gets: it is for the leader named there. -/
structure Answers (incoming : Option (Message n)) (m : AppendEntriesMessage n) : Prop where
  direction : m.direction = .response
  command : ∃ q, incoming = some (.appendEntries q) ∧ q.direction = .request ∧ m.receiver = q.leaderId

/-- What `s` sends of the class `AppendEntriesMessage` when it gets `incoming`. -/
def Utters (incoming : Option (Message n)) (s : RaftNode n) (m : AppendEntriesMessage n) : Prop :=
  (s.currentRole = .leader ∧ s.Commands m) ∨ Answers incoming m

/-- The leader that the node knows after the step: the same as before, itself, or the one that the message
names; its own term is then no lower than that leader's. -/
inductive Learns (incoming : Option (Message n)) (s s' : RaftNode n) : Prop
  | keep (leaderId : s'.leaderId = s.leaderId)
  | lead (role : s.currentRole = .leader) (leaderId : s'.leaderId = some s.myId)
  | told {q : AppendEntriesMessage n} (recv : incoming = some (.appendEntries q))
      (direction : q.direction = .request) (leaderId : s'.leaderId = q.leaderId) (term : q.term ≤ s'.currentTerm)

/-- A step of a node that gets `incoming`. -/
structure Informs (incoming : Option (Message n)) (s s' : RaftNode n) : Prop where
  myId : s'.myId = s.myId
  term : s.currentTerm ≤ s'.currentTerm
  learns : Learns incoming s s'
  sent : ∃ out, s'.talker = s.talker ++ out ∧ ∀ m, .appendEntries m ∈ out → Utters incoming s m

/-- A step that sends nothing of this class, and leaves `leader_id` alone. -/
theorem informs_other (out : List (Message n)) (myId : s'.myId = s.myId) (term : s.currentTerm ≤ s'.currentTerm)
    (leaderId : s'.leaderId = s.leaderId) (talker : s'.talker = s.talker ++ out)
    (hout : ∀ m, .appendEntries m ∉ out) : Informs incoming s s' :=
  ⟨myId, term, .keep leaderId, out, talker, fun m hm => absurd hm (hout m)⟩

theorem Informs.refl (s : RaftNode n) : Informs incoming s s :=
  informs_other [] rfl le_rfl rfl (by simp) (by simp)

theorem informs_yieldTo {m : RequestVotesMessage n} (h : m.term > s.currentTerm) :
    Informs incoming s (s.yieldTo m) := by
  refine informs_other [(s.incrementTerm (some m.term)).voteMessage m.sender true] rfl ?_ rfl rfl ?_
  · exact Nat.le_of_lt h
  · simp [voteMessage]

/-! ## Followers -/

theorem informs_followerRequestVotes (m : RequestVotesMessage n) :
    Informs incoming s (s.followerRequestVotes m) := by
  rw [followerRequestVotes_eq, raiseTerm_eq]
  exact informs_other [_] rfl (le_max_left _ _) rfl rfl (by simp [voteMessage])

theorem informs_followerHeartbeat (hd : m.direction = .request) :
    Informs (some (.appendEntries m)) s (s.followerHeartbeat m) := by
  rcases s.followerHeartbeat_cases m with heq | ⟨request, queue, -, -, heq⟩
  · rw [heq, raiseTerm_eq]
    exact ⟨rfl, le_max_left _ _, .told rfl hd rfl (le_max_right _ _), [], by simp, by simp⟩
  · rw [heq, raiseTerm_eq]
    refine ⟨rfl, le_max_left _ _, .told rfl hd rfl (le_max_right _ _), [_], rfl, fun o ho => Or.inr ?_⟩
    -- the request is forwarded to the leader that the heartbeat names
    simp only [List.mem_singleton, clientRequestMessage, Message.appendEntries.injEq] at ho
    subst ho
    exact ⟨rfl, m, rfl, hd, rfl⟩

/-- An acknowledgement is for the leader that the message names. -/
theorem utters_acknowledge (hd : m.direction = .request) {success : Bool} {o : AppendEntriesMessage n}
    (ho : Message.appendEntries o ∈ [u.acknowledgeMessage m.leaderId success]) :
    Utters (some (.appendEntries m)) s o := by
  simp only [List.mem_singleton, acknowledgeMessage, Message.appendEntries.injEq] at ho
  subst ho
  exact Or.inr ⟨rfl, m, rfl, hd, rfl⟩

theorem informs_followerAppendEntries (hd : m.direction = .request) (h : s.followerAppendEntries m = some s') :
    Informs (some (.appendEntries m)) s s' := by
  rcases followerAppendEntries_cases h with ⟨rfl, -⟩ | ⟨p, t, e, -, -, -, -, -, rfl⟩
  · exact ⟨rfl, le_rfl, .keep rfl, [_], rfl, fun o ho => utters_acknowledge hd ho⟩
  · split
    · exact ⟨rfl, le_rfl, .keep rfl, [_], rfl, fun o ho => utters_acknowledge hd ho⟩
    · exact ⟨rfl, le_rfl, .keep rfl, [_], rfl, fun o ho => utters_acknowledge hd ho⟩

theorem informs_followerHandle {m : Message n} (h : s.followerHandle m = some s') : Informs (some m) s s' := by
  cases followerHandle_cases h with
  | ignore => exact Informs.refl s
  | requestVotes direction => exact informs_followerRequestVotes _
  | heartbeat direction type => exact informs_followerHeartbeat direction
  | appendEntries direction type run => exact informs_followerAppendEntries direction run
  | committal direction type index prevTerm =>
    exact informs_other [] rfl le_rfl rfl (by simp [commitEntry]) (by simp)

/-- Leaving the loop for another role tells nothing. -/
theorem Informs.leave (h : Informs incoming s s') (role : Role) :
    Informs incoming s (s'.setCurrentRole role).leave := by
  refine ⟨h.myId, h.term, ?_, h.sent⟩
  cases h.learns with
  | keep leaderId => exact .keep leaderId
  | lead role leaderId => exact .lead role leaderId
  | told recv direction leaderId term => exact .told recv direction leaderId term

theorem informs_followerLoop {timers : Timers n} (h : s.followerLoop timers incoming = some s') :
    Informs incoming s s' := by
  obtain ⟨u, hu, rfl⟩ := followerLoop_cases h
  have hinf : Informs incoming s u := by
    cases incoming with
    | none =>
      obtain rfl := Option.some.inj hu
      exact Informs.refl s
    | some m => exact informs_followerHandle hu
  split
  · exact hinf.leave .candidate
  · exact hinf

/-! ## Candidates -/

theorem informs_candidateCall : Informs incoming s s.candidateCall := by
  let u := s.incrementTerm none
  refine informs_other [u.requestVoteMessage, u.voteMessage s.myId true] rfl (Nat.le_succ _) rfl ?_ ?_
  · simp only [candidateCall, sendVote, sendRequestVote, sendMessage, List.append_assoc]
    rfl
  · simp [u, requestVoteMessage, voteMessage]

theorem informs_candidateHandle (votesForMe totalVotes : ℕ) (m : Message n) :
    Informs (some m) s (s.candidateHandle votesForMe totalVotes m) := by
  generalize hu : s.candidateHandle votesForMe totalVotes m = u
  have hcases := s.candidateHandle_cases votesForMe totalVotes m
  rw [hu] at hcases
  cases hcases with
  | ignore => exact Informs.refl s
  | @vote m direction =>
    rcases s.candidateVote_cases votesForMe totalVotes m with heq | ⟨votes, heq⟩
    · rw [heq]
      exact (Informs.refl s).leave .leader
    · rw [heq]
      exact informs_other [] rfl le_rfl rfl (by simp) (by simp)
  | yield direction term => exact informs_yieldTo term
  | heartbeat direction type term =>
    exact ⟨rfl, term, .told rfl direction rfl le_rfl, [],
      by simp [candidateHeartbeat, leave, setCurrentRole, incrementTerm], by simp⟩

theorem informs_candidateLoop (votesForMe totalVotes : ℕ) (timers : Timers n) :
    Informs incoming s (s.candidateLoop votesForMe totalVotes timers incoming) := by
  obtain ⟨u, hu, hcase⟩ := s.candidateLoop_cases votesForMe totalVotes timers incoming
  have hinf : Informs incoming s u := by
    rw [hu]
    cases incoming with
    | none => exact Informs.refl s
    | some m => exact informs_candidateHandle votesForMe totalVotes m
  rcases hcase with heq | ⟨-, -, heq⟩
  · rw [heq]
    exact hinf
  · rw [heq]
    exact hinf.leave .candidate

/-! ## Leaders -/

/-- From `s` to `s'` the node leads on in its term, and all it sends of this class are commands. -/
structure Rules (s s' : RaftNode n) : Prop where
  term : s'.currentTerm = s.currentTerm
  myId : s'.myId = s.myId
  leaderId : s'.leaderId = s.leaderId
  frame : s'.frame = s.frame
  sent : ∃ out, s'.talker = s.talker ++ out ∧ ∀ m, .appendEntries m ∈ out → s.Commands m

theorem Rules.refl (s : RaftNode n) : Rules s s := ⟨rfl, rfl, rfl, rfl, [], by simp, by simp⟩

theorem Rules.trans (h : Rules s u) (h' : Rules u s') : Rules s s' := by
  obtain ⟨out, htalker, hout⟩ := h.sent
  obtain ⟨out', htalker', hout'⟩ := h'.sent
  refine ⟨h'.term.trans h.term, h'.myId.trans h.myId, h'.leaderId.trans h.leaderId, h'.frame.trans h.frame,
    out ++ out', by rw [htalker', htalker, List.append_assoc], fun m hm => ?_⟩
  rcases List.mem_append.1 hm with hm | hm
  · exact hout m hm
  · obtain ⟨direction, term, leaderId⟩ := hout' m hm
    exact ⟨direction, term.trans h.term, leaderId.trans (congrArg some h.myId)⟩

theorem Rules.informs (h : Rules s s') (hr : s.currentRole = .leader) : Informs incoming s s' := by
  obtain ⟨out, htalker, hout⟩ := h.sent
  exact ⟨h.myId, le_of_eq h.term.symm, .keep h.leaderId, out, htalker, fun m hm => Or.inl ⟨hr, hout m hm⟩⟩

theorem commands_appendEntries {p t : ℕ} {e : Entry} {c : Fin n}
    (h : Message.appendEntries m = s.appendEntriesMessage p t e c) : s.Commands m := by
  simp only [appendEntriesMessage, Message.appendEntries.injEq] at h
  subst h
  exact ⟨rfl, rfl, rfl⟩

theorem commands_heartbeat (h : Message.appendEntries m = s.heartbeatMessage) : s.Commands m := by
  simp only [heartbeatMessage, Message.appendEntries.injEq] at h
  subst h
  exact ⟨rfl, rfl, rfl⟩

theorem Replicates.commands (h : s.Replicates (.appendEntries m)) : s.Commands m := by
  obtain ⟨k, prev, e, c, -, -, heq⟩ := h
  exact commands_appendEntries heq

theorem rules_broadcast {e : Entry} (h : s.broadcastAppendEntries e = some s') : Rules s s' := by
  obtain ⟨last, -, rfl⟩ := broadcastAppendEntries_eq h
  refine ⟨rfl, rfl, rfl, rfl, _, rfl, fun m hm => ?_⟩
  obtain ⟨c, -, heq⟩ := List.mem_map.1 hm
  exact commands_appendEntries heq.symm

theorem rules_commitMatched (h : s.commitMatched = some s') : Rules s s' := by
  rcases commitMatched_cases h with ⟨-, rfl⟩ | ⟨-, h⟩
  · exact Rules.refl _
  · obtain ⟨e, -, rfl⟩ := broadcastCommmitEntries_eq h
    refine ⟨rfl, rfl, rfl, rfl, _, rfl, fun m hm => ?_⟩
    obtain ⟨c, -, heq⟩ := List.mem_map.1 hm
    simp only [committalMessage, Message.appendEntries.injEq] at heq
    subst heq
    exact ⟨rfl, rfl, rfl⟩

theorem rules_leaderAcknowledge (h : s.leaderAcknowledge m = some s') : Rules s s' := by
  rcases leaderAcknowledge_cases h with ⟨-, rfl⟩ | ⟨k, next, out, -, -, hout, h⟩
  · exact Rules.refl _
  · refine Rules.trans ?_ (rules_commitMatched h)
    exact ⟨rfl, rfl, rfl, rfl, out, rfl, fun o ho => (hout _ ho).commands⟩

theorem rules_leaderClientRequest (h : s.leaderClientRequest = some s') : Rules s s' := by
  rcases leaderClientRequest_cases h with ⟨-, rfl⟩ | ⟨request, queue, -, h⟩
  · exact Rules.refl _
  · refine Rules.trans ?_ (rules_broadcast h)
    exact ⟨rfl, rfl, rfl, rfl, [], by simp, by simp⟩

/-- A leader leads on, or gives way to a higher term. -/
theorem leaderHandle_rules {m : Message n} (h : s.leaderHandle m = some s') :
    Rules s s' ∨ ∃ v, m = .requestVotes v ∧ v.term > s.currentTerm ∧ s' = s.yieldTo v := by
  cases leaderHandle_cases h with
  | ignoreVotes => exact Or.inl (Rules.refl _)
  | ignoreEntries => exact Or.inl (Rules.refl _)
  | acknowledge direction type run => exact Or.inl (rules_leaderAcknowledge run)
  | clientRequest direction type entries run => exact Or.inl (rules_broadcast run)
  | yield direction term => exact Or.inr ⟨_, rfl, term, rfl⟩

theorem informs_leaderLoop {timers : Timers n} (hf : s.frame = .leader) (hr : s.currentRole = .leader)
    (h : s.leaderLoop timers incoming = some s') : Informs incoming s s' := by
  obtain ⟨out, v, u, hout, rfl, hu, hlast⟩ := leaderLoop_cases h
  have hsent : Rules s { s with talker := s.talker ++ out } := by
    refine ⟨rfl, rfl, rfl, rfl, out, rfl, fun m hm => ?_⟩
    rcases hout _ hm with heq | hrep
    · exact commands_heartbeat heq
    · exact hrep.commands
  have hhandled : Rules s u ∨ ∃ m, m.term > s.currentTerm ∧
      u = { s with talker := s.talker ++ out }.yieldTo m := by
    cases incoming with
    | none =>
      obtain rfl := Option.some.inj hu
      exact Or.inl hsent
    | some m =>
      rcases leaderHandle_rules hu with hrules | ⟨v, -, hterm, rfl⟩
      · exact Or.inl (hsent.trans hrules)
      · exact Or.inr ⟨v, hterm, rfl⟩
  rcases hhandled with hrules | ⟨m, hterm, rfl⟩
  · rcases hlast with ⟨hrun, -⟩ | ⟨-, hclient⟩
    · rw [hrules.frame, hf] at hrun
      cases hrun
    · exact (hrules.trans (rules_leaderClientRequest hclient)).informs hr
  · rcases hlast with ⟨-, rfl⟩ | ⟨hrun, -⟩
    · -- after its commands, the vote for the candidate
      refine ⟨rfl, Nat.le_of_lt hterm, .keep rfl,
        out ++ [(s.incrementTerm (some m.term)).voteMessage m.sender true], ?_, fun o ho => Or.inl ⟨hr, ?_⟩⟩
      · rw [← List.append_assoc]
        rfl
      · rcases List.mem_append.1 ho with ho | ho
        · rcases hout _ ho with heq | hrep
          · exact commands_heartbeat heq
          · exact hrep.commands
        · simp [voteMessage] at ho
    · exact absurd rfl hrun

theorem informs_leaderCall (hr : s.currentRole = .leader) (h : s.leaderCall = some s') :
    Informs incoming s s' := by
  obtain ⟨u, hu, rfl⟩ := leaderCall_cases h
  obtain ⟨hterm, hid, hleader, -, out, htalker, hout⟩ := rules_broadcast hu
  refine ⟨hid, le_of_eq hterm.symm, .lead hr hleader, s.heartbeatMessage :: out, ?_, fun m hm => Or.inl ⟨hr, ?_⟩⟩
  · simp [htalker, takeOver, sendHeartbeat, sendMessage]
  · rcases List.mem_cons.1 hm with heq | hm
    · exact commands_heartbeat heq
    · obtain ⟨direction, term, leaderId⟩ := hout m hm
      exact ⟨direction, term, leaderId⟩

theorem call_informs (h : s.call = some s') : Informs incoming s s' := by
  cases call_cases h with
  | leader role run => exact informs_leaderCall role run
  | follower role => exact informs_other [] rfl le_rfl rfl (by simp) (by simp)
  | candidate role => exact informs_candidateCall
  | none role => exact Informs.refl s

theorem loop_informs {timers : Timers n} (h : s.loop timers incoming = some s') : Informs incoming s s' := by
  cases loop_cases h with
  | run frame => exact Informs.refl s
  | leave frame => exact informs_other [] rfl le_rfl rfl (by simp [RaftNode.leave]) (by simp)
  | follower frame role run => exact informs_followerLoop run
  | candidate frame role => exact informs_candidateLoop _ _ timers
  | leader frame role run => exact informs_leaderLoop frame role run

end RaftNode

/-! ## Runs -/

variable {es : List (Event n)} {k : ℕ} {a b c : Fin n}

theorem World.Acts.informs {w w₁ : World n} {ev : Event n} {m : Option (Message n)} {s : RaftNode n}
    (h : w.Acts ev b m s w₁) : RaftNode.Informs m (w.node b) s := by
  cases h with
  | clientRequest _ value idNum =>
    exact RaftNode.informs_other [] rfl le_rfl rfl (by simp [RaftNode.clientRequest]) (by simp)
  | call _ frame run => exact RaftNode.call_informs run
  | loop _ r frame recv run => exact RaftNode.loop_informs run

/-- By then node `c` has led, in term `t`. -/
def Led (es : List (Event n)) (k : ℕ) (c : Fin n) (t : ℕ) : Prop :=
  ∃ j ≤ k, ((wAt es j).node c).currentRole = .leader ∧ ((wAt es j).node c).currentTerm = t

theorem Led.mono {j t : ℕ} (h : Led es j c t) (hjk : j ≤ k) : Led es k c t := by
  obtain ⟨i, hi, hlead⟩ := h
  exact ⟨i, le_trans hi hjk, hlead⟩

/-- Whoever commands leads, whoever is taken for a leader has led, and so has the only receiver of an answer. -/
structure LeadersKnown (es : List (Event n)) (k : ℕ) : Prop where
  known : ∀ a c, ((wAt es k).node a).leaderId = some c → ∃ t ≤ ((wAt es k).node a).currentTerm, Led es k c t
  commands : ∀ a c m, .appendEntries m ∈ (wAt es k).chan a c → m.direction = .request →
    m.leaderId = some a ∧ Led es k a m.term
  answers : ∀ a c m, .appendEntries m ∈ (wAt es k).chan a c → m.direction = .response →
    m.receiver = some c ∧ ∃ t, Led es k c t

theorem leadersKnown_zero (es : List (Event n)) : LeadersKnown es 0 where
  known a c h := by cases h
  commands a c m hm := by cases hm
  answers a c m hm := by cases hm

/-- What a step sends of this class is a command of a leader, or answers one. -/
theorem LeadersKnown.utters {m : AppendEntriesMessage n} {incoming : Option (Message n)} (h : LeadersKnown es k)
    (hid : ((wAt es k).node b).myId = b) (hu : ((wAt es k).node b).Utters incoming m)
    (hrecv : ∀ q, incoming = some q → ∃ x, q ∈ (wAt es k).chan x b)
    (hreach : (Message.appendEntries m).reaches c) :
    (m.direction = .request → m.leaderId = some b ∧ Led es k b m.term) ∧
      (m.direction = .response → m.receiver = some c ∧ ∃ t, Led es k c t) := by
  rcases hu with ⟨hr, hcommand⟩ | ⟨hd, q, hq, hqd, hreceiver⟩
  · refine ⟨fun _ => ⟨hcommand.leaderId.trans (congrArg some hid), k, le_rfl, hr, hcommand.term.symm⟩,
      fun hd => ?_⟩
    rw [hcommand.direction] at hd
    cases hd
  · refine ⟨fun hd' => (by rw [hd] at hd'; cases hd'), fun _ => ?_⟩
    obtain ⟨x, hx⟩ := hrecv _ hq
    obtain ⟨hleader, hled⟩ := h.commands x b q hx hqd
    rw [hleader] at hreceiver
    -- the answer names its receiver, so it reaches no other node
    have hxc : x = c := by simpa [Message.reaches, Message.base, hreceiver] using hreach
    rw [← hxc]
    exact ⟨hreceiver, q.term, hled⟩

theorem LeadersKnown.succ (h : LeadersKnown es k) : LeadersKnown es (k + 1) := by
  have hkeep : wAt es (k + 1) = wAt es k → LeadersKnown es (k + 1) := by
    intro heq
    refine ⟨fun a c hc => ?_, fun a c m hm hd => ?_, fun a c m hm hd => ?_⟩
    · rw [heq] at hc ⊢
      obtain ⟨t, ht, hled⟩ := h.known a c hc
      exact ⟨t, ht, hled.mono (Nat.le_succ k)⟩
    · rw [heq] at hm
      obtain ⟨hleader, hled⟩ := h.commands a c m hm hd
      exact ⟨hleader, hled.mono (Nat.le_succ k)⟩
    · rw [heq] at hm
      obtain ⟨hreceiver, t, hled⟩ := h.answers a c m hm hd
      exact ⟨hreceiver, t, hled.mono (Nat.le_succ k)⟩
  rcases wAt_succ_cases es k with ⟨hk, hsucc⟩ | heq
  swap
  · exact hkeep heq
  rcases (wAt es k).step_cases es[k] with heq | ⟨b, incoming, s, w₁, hacts, heq⟩
  · exact hkeep (hsucc.trans heq)
  have hid : ((wAt es k).node b).myId = b := (wired_wAt k b).1
  have hinf := hacts.informs
  have hrecv : ∀ q, incoming = some q → ∃ x, q ∈ (wAt es k).chan x b := by
    intro q hq
    subst hq
    obtain ⟨x, i, hdelivers⟩ := hacts.delivers heq
    exact ⟨x, List.mem_of_getElem? hdelivers.sent⟩
  have hnode : (wAt es (k + 1)).node b = { s with talker := [] } := by rw [hsucc, heq, World.put_node_self]
  have hother : ∀ a ≠ b, (wAt es (k + 1)).node a = (wAt es k).node a := fun a ha => by
    rw [hsucc, heq, World.put_node_ne ha, hacts.node]
  -- a message is old, or it is sent by `b` in this step
  have hsent : ∀ a c m, .appendEntries m ∈ (wAt es (k + 1)).chan a c → .appendEntries m ∈ (wAt es k).chan a c ∨
      (a = b ∧ ((wAt es k).node b).Utters incoming m ∧ (Message.appendEntries m).reaches c) := by
    intro a c m hm
    rw [hsucc, heq, World.put_chan, hacts.chan, List.mem_append] at hm
    rcases hm with hm | hm
    · exact Or.inl hm
    split at hm
    · rename_i hab
      obtain ⟨hm, hreach⟩ := List.mem_filter.1 hm
      obtain ⟨out, htalker, hout⟩ := hinf.sent
      rw [htalker, (wired_wAt k b).2, List.nil_append] at hm
      exact Or.inr ⟨hab, hout m hm, hreach⟩
    · cases hm
  refine ⟨fun a c hc => ?_, fun a c m hm hd => ?_, fun a c m hm hd => ?_⟩
  · by_cases hab : a = b
    · subst hab
      rw [hnode] at hc ⊢
      cases hinf.learns with
      | keep leaderId =>
        obtain ⟨t, ht, hled⟩ := h.known a c (leaderId.symm.trans hc)
        exact ⟨t, le_trans ht hinf.term, hled.mono (Nat.le_succ k)⟩
      | lead role leaderId =>
        have hca : c = a := Option.some.inj (hc.symm.trans (leaderId.trans (congrArg some hid)))
        subst hca
        exact ⟨_, hinf.term, k, Nat.le_succ k, role, rfl⟩
      | told recv direction leaderId term =>
        obtain ⟨x, hx⟩ := hrecv _ recv
        obtain ⟨hleader, hled⟩ := h.commands x a _ hx direction
        have hcx : c = x := Option.some.inj (hc.symm.trans (leaderId.trans hleader))
        subst hcx
        exact ⟨_, term, hled.mono (Nat.le_succ k)⟩
    · rw [hother a hab] at hc ⊢
      obtain ⟨t, ht, hled⟩ := h.known a c hc
      exact ⟨t, ht, hled.mono (Nat.le_succ k)⟩
  · rcases hsent a c m hm with hm | ⟨rfl, hu, hreach⟩
    · obtain ⟨hleader, hled⟩ := h.commands a c m hm hd
      exact ⟨hleader, hled.mono (Nat.le_succ k)⟩
    · obtain ⟨hleader, hled⟩ := (h.utters hid hu hrecv hreach).1 hd
      exact ⟨hleader, hled.mono (Nat.le_succ k)⟩
  · rcases hsent a c m hm with hm | ⟨rfl, hu, hreach⟩
    · obtain ⟨hreceiver, t, hled⟩ := h.answers a c m hm hd
      exact ⟨hreceiver, t, hled.mono (Nat.le_succ k)⟩
    · obtain ⟨hreceiver, t, hled⟩ := (h.utters hid hu hrecv hreach).2 hd
      exact ⟨hreceiver, t, hled.mono (Nat.le_succ k)⟩

/-- **Leaders are known by what they have done**, in every run and whatever messages are lost or late:
heartbeats, entries and Committal messages come from a node that led in their term and names itself; whoever
a node takes for the leader has led, in a term not above the node's own; and every acknowledgement and every
forwarded request is for a single node, which has led. -/
theorem leaders_known (es : List (Event n)) (k : ℕ) : LeadersKnown es k := by
  induction k with
  | zero => exact leadersKnown_zero es
  | succ k ih => exact ih.succ

end EdgeConsensus.Raft
