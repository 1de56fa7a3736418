import EdgeConsensus.Raft.Hosts

/-!
# Terms only grow

`_increment_term` sets any term it is given; that a term never falls rests on the tests before its
calls. `Advances` says of each method what it does to the term, together with what it sends and with
the first entry of the log, which no method touches.

* `advances_round`, `advances_enter`: the methods that the thread of a node runs.
* `terms_only_grow`: over runs, the terms of the nodes and of the messages.
-/

namespace EdgeConsensus.Raft

variable {n : ℕ}

/-- The terms that a message carries: its own, and that of its results. -/
def Message.terms : Message n → List ℕ
  | .requestVotes m => m.term :: m.results.term.toList
  | .appendEntries m => m.term :: m.results.term.toList

theorem Message.term_mem_terms (m : Message n) : m.term ∈ m.terms := by
  cases m with
  | requestVotes m => exact List.mem_cons_self
  | appendEntries m => exact List.mem_cons_self

namespace RaftNode

variable {s s' u : RaftNode n} {t : ℕ} {incoming : Option (Message n)}

theorem Sends.terms {o : Message n} (h : s.Sends o) : ∀ x ∈ o.terms, x = s.currentTerm := by
  intro x hx
  cases h with
  | requestVote => simpa [Message.terms, requestVoteMessage] using hx
  | vote candidate voteGranted => simpa [Message.terms, voteMessage] using hx
  | heartbeat => simpa [Message.terms, heartbeatMessage] using hx
  | appendEntries index term entries receiver => simpa [Message.terms, appendEntriesMessage] using hx
  | committal receiver => simpa [Message.terms, committalMessage] using hx
  | acknowledge receiver success => simpa [Message.terms, acknowledgeMessage] using hx
  | clientRequest receiver entry => simpa [Message.terms, clientRequestMessage] using hx

theorem Sends.sender {o : Message n} (h : s.Sends o) : o.sender = s.myId := by
  cases h <;> rfl

/-- The message is one of the node's, of its term or an earlier one. -/
def Posts (s : RaftNode n) (o : Message n) : Prop :=
  ∃ u : RaftNode n, u.myId = s.myId ∧ u.currentTerm ≤ s.currentTerm ∧ u.Sends o

/-- **What a method may do to the term**: it does not fall, and it rises to `t` at most. -/
structure Advances (t : ℕ) (s s' : RaftNode n) : Prop where
  myId : s'.myId = s.myId
  le : s.currentTerm ≤ s'.currentTerm
  bound : s'.currentTerm ≤ max s.currentTerm t
  first : ∀ e, s.log[0]? = some e → s'.log[0]? = some e
  talker : ∃ out, s'.talker = s.talker ++ out ∧ ∀ o ∈ out, s'.Posts o

theorem Posts.mono {o : Message n} (h : s.Posts o) (hid : s'.myId = s.myId)
    (hle : s.currentTerm ≤ s'.currentTerm) : s'.Posts o := by
  obtain ⟨u, hu, hterm, hsends⟩ := h
  exact ⟨u, hu.trans hid.symm, le_trans hterm hle, hsends⟩

theorem Advances.refl (t : ℕ) (s : RaftNode n) : Advances t s s :=
  ⟨rfl, le_rfl, le_max_left _ _, fun _ h => h, [], by simp, by simp⟩

theorem Advances.trans (h : Advances t s u) (h' : Advances t u s') : Advances t s s' := by
  obtain ⟨out, hout, hposts⟩ := h.talker
  obtain ⟨out', hout', hposts'⟩ := h'.talker
  have hbound := h.bound
  have hbound' := h'.bound
  refine ⟨h'.myId.trans h.myId, le_trans h.le h'.le, by omega, fun e he => h'.first e (h.first e he),
    out ++ out', by rw [hout', hout, List.append_assoc], ?_⟩
  intro o ho
  rcases List.mem_append.1 ho with ho | ho
  · exact (hposts o ho).mono h'.myId h'.le
  · exact hposts' o ho

theorem Advances.mono {t' : ℕ} (h : Advances t s s') (hle : t ≤ t') : Advances t' s s' :=
  ⟨h.myId, h.le, le_trans h.bound (max_le_max le_rfl hle), h.first, h.talker⟩

/-- A method that leaves the term alone. -/
theorem advances_same {out : List (Message n)} (hid : s'.myId = s.myId)
    (hterm : s'.currentTerm = s.currentTerm) (hfirst : ∀ e, s.log[0]? = some e → s'.log[0]? = some e)
    (htalker : s'.talker = s.talker ++ out)
    (hsends : ∀ o ∈ out, ∃ u : RaftNode n, u.myId = s.myId ∧ u.currentTerm = s.currentTerm ∧ u.Sends o) :
    Advances t s s' := by
  refine ⟨hid, hterm.ge, by omega, hfirst, out, htalker, ?_⟩
  intro o ho
  obtain ⟨u, hu, huterm, hsends⟩ := hsends o ho
  exact ⟨u, hu.trans hid.symm, (huterm.trans hterm.symm).le, hsends⟩

/-- A method that touches neither the term nor the log, and sends nothing. -/
theorem advances_silent (hid : s'.myId = s.myId) (hterm : s'.currentTerm = s.currentTerm)
    (hlog : s'.log = s.log) (htalker : s'.talker = s.talker) : Advances t s s' :=
  advances_same hid hterm (by rw [hlog]; exact fun _ h => h) (by rw [htalker, List.append_nil]) (by simp)

/-- A method that sends one message. -/
theorem advances_send {o : Message n} (hid : s'.myId = s.myId) (hterm : s'.currentTerm = s.currentTerm)
    (hlog : s'.log = s.log) (htalker : s'.talker = s.talker ++ [o]) (ho : s.Sends o) : Advances t s s' := by
  refine advances_same hid hterm (by rw [hlog]; exact fun _ h => h) htalker ?_
  intro o' ho'
  rw [List.mem_singleton.1 ho']
  exact ⟨s, rfl, rfl, ho⟩

/-- A term that is set to one at least as great. -/
theorem advances_incrementTerm (h : s.currentTerm ≤ t) : Advances t s (s.incrementTerm (some t)) :=
  ⟨rfl, h, le_max_right _ _, fun _ h => h, [], (List.append_nil _).symm, by simp⟩

theorem advances_raiseTerm (t : ℕ) : Advances t s (s.raiseTerm t) := by
  unfold raiseTerm
  split
  · rename_i hgt
    exact advances_incrementTerm (Nat.le_of_lt hgt)
  · exact Advances.refl t s

/-- What is appended comes behind the first entry. -/
theorem first_append {l : List Entry} {e e' : Entry} (h : l[0]? = some e) : (l ++ [e'])[0]? = some e := by
  cases l with
  | nil => cases h
  | cons x l => exact h

/-- So does what is appended behind a verified entry. -/
theorem first_take_append {l : List Entry} {e e' : Entry} (p : ℕ) (h : l[0]? = some e) :
    (l.take (p + 1) ++ [e'])[0]? = some e := by
  cases l with
  | nil => cases h
  | cons x l => exact h

/-! ## Followers -/

theorem advances_sendVote (c : Fin n) (granted : Bool) : Advances t s (s.sendVote c granted) :=
  advances_send rfl rfl rfl rfl (.vote c granted)

theorem advances_followerHandle {m : Message n} (h : s.followerHandle m = some s') : Advances m.term s s' := by
  cases followerHandle_cases h with
  | ignore => exact Advances.refl _ s
  | @requestVotes r direction =>
    rw [followerRequestVotes_eq]
    exact (advances_raiseTerm r.term).trans (advances_sendVote _ _)
  | @heartbeat r direction type =>
    have hraise : Advances r.term s (s.raiseTerm r.term) := advances_raiseTerm r.term
    rcases s.followerHeartbeat_cases r with heq | ⟨request, queue, -, -, heq⟩
    · rw [heq]
      exact hraise.trans (advances_silent rfl rfl rfl rfl)
    · rw [heq]
      have hset : Advances r.term s
          { s.raiseTerm r.term with leaderId := r.leaderId, clientQueue := queue } :=
        hraise.trans (advances_silent rfl rfl rfl rfl)
      exact hset.trans (advances_send rfl rfl rfl rfl (.clientRequest r.leaderId request))
  | @appendEntries r s' direction type run =>
    rcases followerAppendEntries_cases run with ⟨rfl, -⟩ | ⟨p, pt, e, -, -, -, -, -, rfl⟩
    · exact advances_send rfl rfl rfl rfl (.acknowledge r.leaderId false)
    · set v : RaftNode n := { s with
        log := s.log.take (p + 1) ++ [e]
        logHash := Function.update s.logHash e.id (some e) }
      have hv : Advances (Message.appendEntries r).term s v :=
        advances_same rfl rfl (fun _ => first_take_append p) (List.append_nil _).symm (by simp)
      split
      · have hcommit : Advances (Message.appendEntries r).term s (v.commitEntry p e.term) :=
          hv.trans (advances_silent rfl rfl rfl rfl)
        exact hcommit.trans (advances_send rfl rfl rfl rfl (.acknowledge r.leaderId true))
      · exact hv.trans (advances_send rfl rfl rfl rfl (.acknowledge r.leaderId true))
  | committal direction type index prevTerm => exact advances_silent rfl rfl rfl rfl

theorem advances_leave (role : Role) : Advances t s (s.setCurrentRole role).leave :=
  advances_silent rfl rfl rfl rfl

/-- The term of the message that a round gets. -/
def heardTerm (incoming : Option (Message n)) : ℕ := incoming.elim 0 Message.term

theorem advances_followerLoop {timers : Timers n} (h : s.followerLoop timers incoming = some s') :
    Advances (heardTerm incoming) s s' := by
  obtain ⟨u, hu, rfl⟩ := followerLoop_cases h
  have hhandle : Advances (heardTerm incoming) s u := by
    cases incoming with
    | none =>
      obtain rfl := Option.some.inj hu
      exact Advances.refl _ s
    | some m => exact advances_followerHandle hu
  split
  · exact hhandle.trans (advances_leave .candidate)
  · exact hhandle

/-! ## Candidates -/

/-- A candidate goes on to the next term. -/
theorem advances_candidateCall : Advances (s.currentTerm + 1) s s.candidateCall := by
  set u := s.incrementTerm none
  have hterm : Advances (s.currentTerm + 1) s u := advances_incrementTerm (Nat.le_succ _)
  have hrequest : Advances (s.currentTerm + 1) u u.sendRequestVote := advances_send rfl rfl rfl rfl .requestVote
  have hvote : Advances (s.currentTerm + 1) u.sendRequestVote s.candidateCall :=
    advances_send rfl rfl rfl rfl (.vote s.myId true)
  exact hterm.trans (hrequest.trans hvote)

theorem advances_yieldTo {m : RequestVotesMessage n} (h : m.term > s.currentTerm) :
    Advances m.term s (s.yieldTo m) := by
  have hterm : Advances m.term s (s.incrementTerm (some m.term)) := advances_incrementTerm (Nat.le_of_lt h)
  exact hterm.trans ((advances_sendVote m.sender true).trans (advances_leave .follower))

theorem advances_candidateHandle {votesForMe totalVotes : ℕ} {m : Message n} :
    Advances m.term s (s.candidateHandle votesForMe totalVotes m) := by
  have hcases := candidateHandle_cases (s := s) votesForMe totalVotes m
  generalize s.candidateHandle votesForMe totalVotes m = s' at hcases
  cases hcases with
  | ignore => exact Advances.refl _ s
  | @vote r direction =>
    rcases candidateVote_cases (s := s) votesForMe totalVotes r with h | ⟨votes, h⟩
    · rw [h]
      exact advances_leave .leader
    · rw [h]
      exact advances_silent rfl rfl rfl rfl
  | yield direction term => exact advances_yieldTo term
  | @heartbeat r direction type term =>
    have hterm : Advances r.term s (s.incrementTerm (some r.term)) := advances_incrementTerm term
    exact hterm.trans (advances_silent rfl rfl rfl rfl)

theorem advances_candidateLoop {votesForMe totalVotes : ℕ} {timers : Timers n} :
    Advances (heardTerm incoming) s (s.candidateLoop votesForMe totalVotes timers incoming) := by
  have hhandle : Advances (heardTerm incoming) s (incoming.elim s (s.candidateHandle votesForMe totalVotes)) := by
    cases incoming with
    | none => exact Advances.refl _ s
    | some m => exact advances_candidateHandle
  obtain ⟨u, rfl, hlast | ⟨-, -, hlast⟩⟩ := candidateLoop_cases (s := s) votesForMe totalVotes timers incoming
  · rw [hlast]
    exact hhandle
  · rw [hlast]
    exact hhandle.trans (advances_leave .candidate)

/-! ## Leaders -/

theorem advances_broadcast {e : Entry} (h : s.broadcastAppendEntries e = some s') : Advances t s s' := by
  obtain ⟨last, -, rfl⟩ := broadcastAppendEntries_eq h
  refine advances_same rfl rfl (fun _ => first_append) rfl ?_
  intro o ho
  obtain ⟨i, -, rfl⟩ := List.mem_map.1 ho
  exact ⟨s, rfl, rfl, .appendEntries _ _ _ _⟩

theorem advances_leaderAcknowledge {m : AppendEntriesMessage n} (h : s.leaderAcknowledge m = some s') :
    Advances t s s' := by
  rcases leaderAcknowledge_cases h with ⟨-, rfl⟩ | ⟨k, next, out, -, -, hout, hc⟩
  · exact Advances.refl t s'
  set v : RaftNode n := { s with
    matchIndex := if m.results.success == some true then
      Function.update s.matchIndex m.sender k else s.matchIndex
    nextIndex := Function.update s.nextIndex m.sender (if next > s.logMaxIndex then none else some next)
    talker := s.talker ++ out }
  have hv : Advances t s v :=
    advances_same rfl rfl (fun _ h => h) rfl fun o ho => ⟨s, rfl, rfl, (hout o ho).sends⟩
  rcases commitMatched_cases hc with ⟨-, rfl⟩ | ⟨-, hc⟩
  · exact hv
  · obtain ⟨e, -, rfl⟩ := broadcastCommmitEntries_eq hc
    refine hv.trans (advances_same rfl rfl (fun _ h => h) rfl ?_)
    intro o ho
    obtain ⟨i, -, rfl⟩ := List.mem_map.1 ho
    exact ⟨v.commitEntry (maxCommittableIndex v.matchIndex) e.term, rfl, rfl, .committal i⟩

theorem advances_leaderHandle {m : Message n} (h : s.leaderHandle m = some s') : Advances m.term s s' := by
  cases leaderHandle_cases h with
  | ignoreVotes other => exact Advances.refl _ s
  | ignoreEntries other => exact Advances.refl _ s
  | acknowledge direction type run => exact advances_leaderAcknowledge run
  | clientRequest direction type entries run => exact advances_broadcast run
  | yield direction term => exact advances_yieldTo term

theorem advances_leaderCall (h : s.leaderCall = some s') : Advances t s s' := by
  obtain ⟨u, hu, rfl⟩ := leaderCall_cases h
  have hbeat : Advances t s s.takeOver := advances_send rfl rfl rfl rfl .heartbeat
  exact hbeat.trans ((advances_broadcast hu).trans (advances_silent rfl rfl rfl rfl))

theorem advances_leaderLoop {timers : Timers n} (h : s.leaderLoop timers incoming = some s') :
    Advances (heardTerm incoming) s s' := by
  obtain ⟨out, v, u, hout, rfl, hu, hlast⟩ := leaderLoop_cases h
  set v : RaftNode n := { s with talker := s.talker ++ out }
  have hv : Advances (heardTerm incoming) s v := by
    refine advances_same rfl rfl (fun _ h => h) rfl ?_
    intro o ho
    rcases hout o ho with rfl | hrep
    · exact ⟨s, rfl, rfl, .heartbeat⟩
    · exact ⟨s, rfl, rfl, hrep.sends⟩
  have hhandle : Advances (heardTerm incoming) v u := by
    cases incoming with
    | none =>
      obtain rfl := Option.some.inj hu
      exact Advances.refl _ v
    | some m => exact advances_leaderHandle hu
  rcases hlast with ⟨-, rfl⟩ | ⟨-, hlast⟩
  · exact hv.trans hhandle
  rcases leaderClientRequest_cases hlast with ⟨-, rfl⟩ | ⟨request, queue, -, hlast⟩
  · exact hv.trans hhandle
  · have hpop : Advances (heardTerm incoming) u { u with clientQueue := queue } := advances_silent rfl rfl rfl rfl
    exact hv.trans (hhandle.trans (hpop.trans (advances_broadcast hlast)))

/-! ## What the thread runs -/

/-- **A round raises the term to that of its message at most.** -/
theorem advances_round {timers : Timers n} (h : s.round timers incoming = some s') :
    Advances (heardTerm incoming) s s' := by
  unfold round at h
  split at h
  · obtain rfl := Option.some.inj h
    exact Advances.refl _ s
  · exact advances_followerLoop h
  · obtain rfl := Option.some.inj h
    exact advances_candidateLoop
  · exact advances_leaderLoop h

/-- **A role function begins in the same term**, except `_candidate`, which begins in the next. -/
theorem advances_enter {role : Role} (h : s.enter role = some s') :
    Advances (if role = .candidate then s.currentTerm + 1 else 0) s s' := by
  cases role with
  | leader => exact advances_leaderCall h
  | follower =>
    obtain rfl := Option.some.inj h
    exact advances_silent rfl rfl rfl rfl
  | candidate =>
    obtain rfl := Option.some.inj h
    exact advances_candidateCall
  | none =>
    obtain rfl := Option.some.inj h
    exact Advances.refl _ s

end RaftNode

/-! ## Turns -/

namespace Threads

/-- What a step of the thread can raise the term to. -/
def ceiling (w : Threads n) (incoming : Option (Message n)) : ℕ :=
  if w.thread = .call .candidate then w.node.currentTerm + 1 else RaftNode.heardTerm incoming

/-- **A step of the thread raises the term to that of its message**, or starts an election in the next. -/
theorem advances_threadStep (w : Threads n) (timers : Timers n) (incoming : Option (Message n)) :
    RaftNode.Advances (w.ceiling incoming) w.node (w.threadStep timers incoming).node := by
  unfold threadStep
  cases hthread : w.thread with
  | testLeader => exact RaftNode.Advances.refl _ _
  | testFollower => exact RaftNode.Advances.refl _ _
  | testCandidate => exact RaftNode.Advances.refl _ _
  | call role =>
    simp only
    cases henter : w.node.enter role with
    | none => exact RaftNode.Advances.refl _ _
    | some s =>
      refine (RaftNode.advances_enter henter).mono ?_
      unfold ceiling
      by_cases hrole : role = .candidate
      · rw [hthread, hrole, if_pos rfl, if_pos rfl]
      · rw [if_neg hrole]
        exact Nat.zero_le _
  | check =>
    simp only
    split
    · exact RaftNode.Advances.refl _ _
    · exact RaftNode.advances_silent rfl rfl rfl rfl
  | round =>
    have hceiling : w.ceiling incoming = RaftNode.heardTerm incoming := by
      unfold ceiling
      rw [hthread, if_neg (by decide)]
    rw [hceiling]
    simp only
    cases hround : w.node.round timers incoming with
    | none => exact RaftNode.Advances.refl _ _
    | some s =>
      have hadvances := RaftNode.advances_round hround
      simp only
      split
      · -- the role that the round is about to set is not set yet
        exact hadvances.trans (RaftNode.advances_silent rfl rfl rfl rfl)
      · exact hadvances
  | set role => exact RaftNode.advances_leave role
  | dead => exact RaftNode.Advances.refl _ _

end Threads

namespace Hosts

variable {w : Hosts n} {w₁ : World n} {turn : Turn n} {b : Fin n} {m : Option (Message n)} {t : Threads n}

/-- The term in which a candidate starts an election in the turn. -/
def election (w : Hosts n) : Turn n → Option ℕ
  | .thread b _ => if w.thread b = .call .candidate then some (w.node b).candidateCall.currentTerm else none
  | _ => none

/-- **A turn raises the term of its node to that of its message**, or to one in which an election starts. -/
theorem Acts.advances (h : w.Acts turn b m t w₁) :
    RaftNode.Advances (max (RaftNode.heardTerm m) ((w.election turn).getD 0)) (w.node b) t.node := by
  -- a step of the thread, which may be the start of an election
  have hthread : ∀ (r : Round n) (incoming : Option (Message n)),
      RaftNode.Advances (max (RaftNode.heardTerm incoming) ((w.election (.thread b r)).getD 0)) (w.node b)
        ((w.threads b).threadStep r.toTimers incoming).node := by
    intro r incoming
    refine ((w.threads b).advances_threadStep r.toTimers incoming).mono ?_
    unfold Threads.ceiling
    split
    · rename_i hcall
      have hstart : w.election (.thread b r) = some (w.node b).candidateCall.currentTerm := if_pos hcall
      rw [hstart]
      exact le_max_right _ _
    · exact le_max_left _ _
  cases h with
  | clientRequest => exact RaftNode.advances_silent rfl rfl rfl rfl
  | pause => exact RaftNode.advances_silent rfl rfl rfl rfl
  | unPause => exact RaftNode.advances_silent rfl rfl rfl rfl
  | thread b r point => exact hthread r none
  | round b r point recv => exact hthread r _

/-- The messages of a cluster are those of their senders, of their terms or earlier ones. -/
structure Posted (w : Hosts n) : Prop where
  wired : w.toWorld.Wired
  posts : ∀ a c, ∀ o ∈ w.chan a c, (w.node a).Posts o

theorem posted_init (roles : Fin n → Role) : (init roles).Posted := by
  refine ⟨fun a => ⟨rfl, rfl⟩, ?_⟩
  intro a c o ho
  cases ho

/-- No term falls in a turn. -/
theorem step_term_le (w : Hosts n) (turn : Turn n) (a : Fin n) :
    (w.node a).currentTerm ≤ ((w.step turn).node a).currentTerm := by
  rcases w.step_cases turn with heq | ⟨b, m, t, w₁, hacts, heq⟩
  · rw [heq]
  rw [heq, hacts.put_node]
  split
  · rename_i hab
    subst hab
    exact hacts.advances.le
  · exact le_rfl

theorem Posted.step (h : w.Posted) (turn : Turn n) : (w.step turn).Posted := by
  have hle := w.step_term_le turn
  rcases w.step_cases turn with heq | ⟨b, m, t, w₁, hacts, heq⟩
  · rw [heq]
    exact h
  rw [heq] at hle ⊢
  have hid : ∀ a, ((put ⟨w₁, w.thread⟩ b t).node a).myId = a ∧ ((put ⟨w₁, w.thread⟩ b t).node a).talker = [] := by
    intro a
    rw [hacts.put_node]
    split
    · rename_i hab
      exact ⟨hacts.advances.myId.trans ((h.wired b).1.trans hab.symm), rfl⟩
    · exact h.wired a
  refine ⟨hid, ?_⟩
  intro a c o ho
  rcases hacts.put_chan ho with hold | ⟨rfl, hnew⟩
  · -- an old message, of a node whose term has not fallen
    exact (h.posts a c o hold).mono ((hid a).1.trans (h.wired a).1.symm) (hle a)
  · obtain ⟨out, hout, hposts⟩ := hacts.advances.talker
    rw [hout, (h.wired a).2, List.nil_append] at hnew
    refine (hposts o hnew).mono ?_ ?_
    · rw [hacts.put_node, if_pos rfl]
    · rw [hacts.put_node, if_pos rfl]

/-- If no term was greater than `g`, the greatest is now `g` or that of an election that has started. -/
theorem Posted.bound {g : ℕ} (h : w.Posted) (hg : ∀ a, (w.node a).currentTerm ≤ g) (turn : Turn n) (a : Fin n) :
    ((w.step turn).node a).currentTerm ≤ max g ((w.election turn).getD 0) := by
  have hold : (w.node a).currentTerm ≤ max g ((w.election turn).getD 0) := le_trans (hg a) (le_max_left _ _)
  rcases w.step_cases turn with heq | ⟨b, m, t, w₁, hacts, heq⟩
  · rw [heq]
    exact hold
  rw [heq, hacts.put_node]
  split
  · rename_i hab
    subst hab
    -- the message it gets is of a term that some node has
    have hheard : RaftNode.heardTerm m ≤ g := by
      cases m with
      | none => exact Nat.zero_le g
      | some o =>
        obtain ⟨c, hc⟩ := hacts.sent
        obtain ⟨u, -, hterm, hsends⟩ := h.posts c a o hc
        have hown : o.term = u.currentTerm := hsends.terms o.term o.term_mem_terms
        have hc' := hg c
        show o.term ≤ g
        omega
    have hbound := hacts.advances.bound
    show t.node.currentTerm ≤ _
    omega
  · exact hold

end Hosts

/-! ## Runs -/

section Runs

variable (roles : Fin n → Role) (turns : List (Turn n))

/-- The terms in which elections have started within the first `k` turns. -/
def elections (k : ℕ) : List ℕ :=
  (List.range k).filterMap fun j => turns[j]?.bind (hostsAt roles turns j).election

/-- The greatest term in which an election has started, 1 at first. -/
def greatestTerm (k : ℕ) : ℕ := (elections roles turns k).foldl max 1

theorem greatestTerm_succ (k : ℕ) :
    greatestTerm roles turns (k + 1) =
      max (greatestTerm roles turns k) ((turns[k]?.bind (hostsAt roles turns k).election).getD 0) := by
  unfold greatestTerm elections
  rw [List.range_succ, List.filterMap_append, List.foldl_append]
  cases h : turns[k]?.bind (hostsAt roles turns k).election with
  | none => simp [h]
  | some x => simp [h]

theorem posted_hostsAt (k : ℕ) : (hostsAt roles turns k).Posted :=
  Lib.stateAt_invariant (Hosts.posted_init roles) (fun _ _ h => h.step _) k

theorem currentTerm_le (k : ℕ) :
    ∀ a, ((hostsAt roles turns k).node a).currentTerm ≤ greatestTerm roles turns k := by
  induction k with
  | zero =>
    intro a
    exact le_rfl
  | succ k ih =>
    intro a
    rw [greatestTerm_succ]
    rcases Lib.stateAt_succ_cases Hosts.step (Hosts.init roles) turns k with ⟨hk, heq⟩ | heq
    · rw [List.getElem?_eq_getElem hk, Option.bind_some]
      show ((Lib.stateAt Hosts.step (Hosts.init roles) turns (k + 1)).node a).currentTerm ≤ _
      rw [heq]
      exact (posted_hostsAt roles turns k).bound ih turns[k] a
    · show ((Lib.stateAt Hosts.step (Hosts.init roles) turns (k + 1)).node a).currentTerm ≤ _
      rw [heq]
      exact le_trans (ih a) (le_max_left _ _)

/-- **Terms only grow**: no node's term ever falls; no message is of a greater term than its sender's; and no
term is greater than those in which elections have started. -/
theorem terms_only_grow :
    (∀ (a : Fin n) (j k : ℕ), j ≤ k →
        ((hostsAt roles turns j).node a).currentTerm ≤ ((hostsAt roles turns k).node a).currentTerm) ∧
      (∀ (k : ℕ) (a c : Fin n), ∀ o ∈ (hostsAt roles turns k).chan a c, o.sender = a ∧
        ∀ x ∈ o.terms, x ≤ ((hostsAt roles turns k).node a).currentTerm) ∧
      ∀ (k : ℕ) (a : Fin n), ((hostsAt roles turns k).node a).currentTerm ≤ greatestTerm roles turns k := by
  refine ⟨?_, ?_, currentTerm_le roles turns⟩
  · intro a j k hjk
    refine Lib.stateAt_mono (R := fun w w' : Hosts n => (w.node a).currentTerm ≤ (w'.node a).currentTerm)
      (fun _ => le_rfl) (fun _ _ _ => le_trans) ?_ hjk
    intro i hi
    exact (hostsAt roles turns i).step_term_le turns[i] a
  · intro k a c o ho
    have hposted := posted_hostsAt roles turns k
    obtain ⟨u, hid, hterm, hsends⟩ := hposted.posts a c o ho
    refine ⟨hsends.sender.trans (hid.trans (hposted.wired a).1), ?_⟩
    intro x hx
    rw [hsends.terms x hx]
    exact hterm

end Runs

end EdgeConsensus.Raft
