import EdgeConsensus.Raft.LogMatching

/-!
# What a step does to client requests

A client's request waits in the queue of the node that got it, may travel in one
ClientRequest message, and is appended by the leader that takes it up.
`RequestStep` lists everything a step can do to a node's queue and log, with the
requests that it hands to the talker; `Sends` lists all messages there are.

* `call_requests`, `loop_requests`: each step of a node's thread is one of the list.
* `wAt_requests`: every time of a run follows by one of these at every node, or by a
  client's request there.
-/

namespace EdgeConsensus.Raft

variable {n : ℕ}

/-- The request that a ClientRequest message carries. -/
def Message.request? : Message n → Option Entry
  | .requestVotes _ => none
  | .appendEntries m => if m.direction = .response ∧ m.type = .clientRequest then m.entries else none

namespace RaftNode

/-- The messages that the `_send_…` methods of a node build. -/
inductive Sends (s : RaftNode n) : Message n → Prop
  | requestVote : Sends s s.requestVoteMessage
  | vote (candidate : Fin n) (voteGranted : Bool) : Sends s (s.voteMessage candidate voteGranted)
  | heartbeat : Sends s s.heartbeatMessage
  | appendEntries (index term : ℕ) (entries : Entry) (receiver : Fin n) :
    Sends s (s.appendEntriesMessage index term entries receiver)
  | committal (receiver : Fin n) : Sends s (s.committalMessage receiver)
  | acknowledge (receiver : Option (Fin n)) (success : Bool) :
    Sends s (s.acknowledgeMessage receiver success)
  | clientRequest (receiver : Option (Fin n)) (entry : Entry) :
    Sends s (s.clientRequestMessage receiver entry)

/-- The message is one of a node with address `me`. -/
def Emits (me : Fin n) (o : Message n) : Prop := ∃ s : RaftNode n, s.myId = me ∧ s.Sends o

variable {s s' u : RaftNode n} {incoming : Option (Message n)} {out : List (Message n)}

/-- The node hands `out` to its talker; it keeps its address, and its two commit
indices together. -/
structure Hands (s s' : RaftNode n) (out : List (Message n)) : Prop where
  myId : s'.myId = s.myId
  applied : s.lastAppliedIndex = s.commitIndex → s'.lastAppliedIndex = s'.commitIndex
  talker : s'.talker = s.talker ++ out
  emits : ∀ o ∈ out, Emits s.myId o

/-- The steps of the requests at a node that gets `incoming`, and hands `out` to its talker. -/
inductive RequestStep (incoming : Option (Message n)) (s s' : RaftNode n) (out : List (Message n)) : Prop
  | keep (queue : s'.clientQueue = s.clientQueue) (log : s'.log = s.log)
      (none : ∀ o ∈ out, o.request? = none)
  | forward {r : Entry} {c : Fin n} {o : Message n} (role : s.currentRole = .follower)
      (queue : s.clientQueue = r :: s'.clientQueue) (log : s'.log = s.log) (out : out = [o])
      (request : o.request? = some r)
      (receiver : o.base.receiver = some c)
  | call (frame : s.frame = .run) (role : s.currentRole = .leader)
      (queue : s'.clientQueue = s.clientQueue) (log : s'.log = s.log ++ [leaderEntry s.currentTerm])
      (none : ∀ o ∈ out, o.request? = none)
  | lead (presides : s.presides = true) (term : s'.currentTerm = s.currentTerm)
      (role : s'.currentRole = .leader)
      (taking : s.taking incoming = (incoming.bind Message.request?).toList ++ s.clientQueue.head?.toList)
      (queue : s'.clientQueue = s.clientQueue.tail) (log : s'.log = s.log ++ s.taking incoming)
      (none : ∀ o ∈ out, o.request? = none)
  | accept {m : AppendEntriesMessage n} {p t : ℕ} {e : Entry}
      (recv : incoming = some (.appendEntries m)) (accepts : s.accepts m = true)
      (index : m.prevLogIndex = some p) (prevTerm : m.prevLogTerm = some t)
      (entries : m.entries = some e) (verified : s.verifyEntry p t = true)
      (queue : s'.clientQueue = s.clientQueue) (log : s'.log = s.log.take (p + 1) ++ [e])
      (none : ∀ o ∈ out, o.request? = none)

/-- Publishing what was handed to the talker is no part of the step. -/
theorem RequestStep.put (h : RequestStep incoming s s' out) :
    RequestStep incoming s { s' with talker := [] } out := by
  cases h with
  | keep queue log none => exact .keep queue log none
  | forward role queue log out request receiver => exact .forward role queue log out request receiver
  | call frame role queue log none => exact .call frame role queue log none
  | lead presides term role taking queue log none =>
    exact .lead presides term role taking queue log none
  | accept recv accepts index prevTerm entries verified queue log none =>
    exact .accept recv accepts index prevTerm entries verified queue log none

/-- The step from `s` to `s'` is a step of the requests. -/
def Handles (incoming : Option (Message n)) (s s' : RaftNode n) : Prop :=
  ∃ out, Hands s s' out ∧ RequestStep incoming s s' out

theorem taking_appendEntries (m : AppendEntriesMessage n) :
    s.taking (some (.appendEntries m)) =
      (Message.appendEntries m).request?.toList ++ s.clientQueue.head?.toList := by
  simp only [taking, Message.request?]
  split <;> rfl

/-! ## What is handed to the talker -/

theorem Hands.refl (s : RaftNode n) : Hands s s [] := ⟨rfl, id, by simp, by simp⟩

theorem Hands.trans {out' : List (Message n)} (h : Hands s u out) (h' : Hands u s' out') :
    Hands s s' (out ++ out') := by
  refine ⟨h'.myId.trans h.myId, fun happlied => h'.applied (h.applied happlied),
    by rw [h'.talker, h.talker, List.append_assoc], fun o ho => ?_⟩
  rcases List.mem_append.1 ho with ho | ho
  · exact h.emits o ho
  · rw [← h.myId]; exact h'.emits o ho

theorem hands_one {o : Message n} (hid : s'.myId = s.myId)
    (happlied : s.lastAppliedIndex = s.commitIndex → s'.lastAppliedIndex = s'.commitIndex)
    (htalker : s'.talker = s.talker ++ [o]) (hu : u.myId = s.myId) (ho : u.Sends o) :
    Hands s s' [o] := by
  refine ⟨hid, happlied, htalker, fun o' ho' => ?_⟩
  rw [List.mem_singleton.1 ho']
  exact ⟨u, hu, ho⟩

theorem hands_silent (hid : s'.myId = s.myId)
    (happlied : s.lastAppliedIndex = s.commitIndex → s'.lastAppliedIndex = s'.commitIndex)
    (htalker : s'.talker = s.talker) : Hands s s' [] :=
  ⟨hid, happlied, by rw [htalker, List.append_nil], by simp⟩

theorem Replicates.sends {o : Message n} (h : s.Replicates o) : s.Sends o := by
  obtain ⟨k, prev, e, dst, -, -, rfl⟩ := h
  exact .appendEntries k prev.term e dst

/-- No request comes out of what a leader sends. -/
theorem Replicates.request? {o : Message n} (h : s.Replicates o) : o.request? = none := by
  obtain ⟨k, prev, e, dst, -, -, rfl⟩ := h
  simp [Message.request?, appendEntriesMessage]

theorem handles_idle (hid : s'.myId = s.myId)
    (happlied : s.lastAppliedIndex = s.commitIndex → s'.lastAppliedIndex = s'.commitIndex)
    (htalker : s'.talker = s.talker) (hqueue : s'.clientQueue = s.clientQueue)
    (hlog : s'.log = s.log) : Handles incoming s s' :=
  ⟨[], hands_silent hid happlied htalker, .keep hqueue hlog (by simp)⟩

theorem Handles.refl (s : RaftNode n) : Handles incoming s s := handles_idle rfl id rfl rfl rfl

/-! ## Followers -/

/-- `u` is `s`, in a new term perhaps. -/
structure Renews (s u : RaftNode n) : Prop where
  myId : u.myId = s.myId
  applied : s.lastAppliedIndex = s.commitIndex → u.lastAppliedIndex = u.commitIndex
  talker : u.talker = s.talker
  queue : u.clientQueue = s.clientQueue
  log : u.log = s.log

theorem renews_term (s : RaftNode n) (t : ℕ) :
    Renews s (s.raiseTerm t) := by
  rw [raiseTerm_eq]
  exact ⟨rfl, id, rfl, rfl, rfl⟩

theorem handles_vote (h : Renews s u) (candidate : Fin n) (granted : Bool) :
    Handles incoming s (u.sendVote candidate granted) := by
  refine ⟨[u.voteMessage candidate granted],
    hands_one h.myId h.applied ?_ h.myId (.vote candidate granted), .keep h.queue h.log ?_⟩
  · rw [← h.talker]; rfl
  · simp [voteMessage, Message.request?]

theorem handles_followerRequestVotes (m : RequestVotesMessage n) :
    Handles incoming s (s.followerRequestVotes m) := by
  rw [followerRequestVotes_eq]
  exact handles_vote (renews_term s m.term) m.sender _

/-- **A heartbeat forwards the first request of the queue**, if there is one. -/
theorem handles_followerHeartbeat (hr : s.currentRole = .follower) (m : AppendEntriesMessage n) :
    Handles incoming s (s.followerHeartbeat m) := by
  obtain ⟨h1, happlied, h2, h3, h4⟩ := renews_term s m.term
  rcases s.followerHeartbeat_cases m with heq | ⟨request, queue, hleader, hqueue, heq⟩
  · rw [heq]
    exact handles_idle h1 happlied h2 h3 h4
  · obtain ⟨c, hc⟩ := Option.ne_none_iff_exists'.1 hleader
    rw [heq]
    set v : RaftNode n := { s.raiseTerm m.term with leaderId := m.leaderId, clientQueue := queue } with hv
    refine ⟨[v.clientRequestMessage m.leaderId request],
      hands_one h1 happlied (by rw [← h2]; rfl) (u := v) h1 (.clientRequest m.leaderId request),
      .forward (r := request) (c := c) hr hqueue h4 rfl ?_ hc⟩
    simp [Message.request?, clientRequestMessage]

theorem handles_followerAppendEntries {m : AppendEntriesMessage n} (hf : s.frame = .follower)
    (hr : s.currentRole = .follower) (hd : m.direction = .request) (ht : m.type = .appendEntries)
    (h : s.followerAppendEntries m = some s') : Handles (some (.appendEntries m)) s s' := by
  have hack : ∀ (x : RaftNode n) success, ∀ o ∈ [x.acknowledgeMessage m.leaderId success],
      o.request? = none := by
    intro x success o ho
    rw [List.mem_singleton.1 ho]
    simp [Message.request?, acknowledgeMessage]
  rcases followerAppendEntries_cases h with ⟨rfl, -⟩ | ⟨p, t, e, hp, hpt, he, hterm, hver, rfl⟩
  · exact ⟨_, hands_one rfl id rfl rfl (.acknowledge m.leaderId false), .keep rfl rfl (hack s false)⟩
  · have hacc : s.accepts m = true := by
      simp [accepts, hf, hr, hd, ht, hterm, hp, hpt, hver]
    set v : RaftNode n := { s with
      log := s.log.take (p + 1) ++ [e]
      logHash := Function.update s.logHash e.id (some e) } with hv
    by_cases hc : m.leaderCommit > s.commitIndex
    · rw [if_pos hc]
      exact ⟨_, hands_one rfl (fun _ => rfl) rfl (u := v.commitEntry p e.term) rfl (.acknowledge m.leaderId true),
        .accept rfl hacc hp hpt he hver rfl rfl (hack _ true)⟩
    · rw [if_neg hc]
      exact ⟨_, hands_one rfl id rfl (u := v) rfl (.acknowledge m.leaderId true),
        .accept rfl hacc hp hpt he hver rfl rfl (hack _ true)⟩

theorem handles_followerHandle {m : Message n} (hf : s.frame = .follower)
    (hr : s.currentRole = .follower) (h : s.followerHandle m = some s') : Handles (some m) s s' := by
  cases followerHandle_cases h with
  | ignore => exact Handles.refl s
  | requestVotes direction => exact handles_followerRequestVotes _
  | heartbeat direction type => exact handles_followerHeartbeat hr _
  | appendEntries direction type run => exact handles_followerAppendEntries hf hr direction type run
  | committal direction type index prevTerm => exact handles_idle rfl (fun _ => rfl) rfl rfl rfl

/-- The election timer touches neither the queue nor the log. -/
theorem Handles.timeout (h : Handles incoming s s') (hs : s.currentRole ≠ .leader) :
    Handles incoming s (s'.setCurrentRole .candidate).leave := by
  obtain ⟨out, ⟨hid, happlied, htalker, hemits⟩, hstep⟩ := h
  refine ⟨out, ⟨hid, happlied, htalker, hemits⟩, ?_⟩
  cases hstep with
  | keep queue log none => exact .keep queue log none
  | forward role queue log out request receiver => exact .forward role queue log out request receiver
  | call frame role => exact absurd role hs
  | lead presides => exact absurd (presides_role presides) hs
  | accept recv accepts index prevTerm entries verified queue log none =>
    exact .accept recv accepts index prevTerm entries verified queue log none

theorem handles_followerLoop {timers : Timers n} (hf : s.frame = .follower)
    (hr : s.currentRole = .follower) (h : s.followerLoop timers incoming = some s') :
    Handles incoming s s' := by
  obtain ⟨u, hu, rfl⟩ := followerLoop_cases h
  have hhandles : Handles incoming s u := by
    cases incoming with
    | none =>
      obtain rfl : s = u := by simpa using hu
      exact Handles.refl s
    | some m => exact handles_followerHandle hf hr hu
  split
  · exact hhandles.timeout (by simp [hr])
  · exact hhandles

/-! ## Candidates -/

theorem hands_yieldTo (m : RequestVotesMessage n) :
    Hands s (s.yieldTo m) [(s.incrementTerm (some m.term)).voteMessage m.sender true] :=
  hands_one rfl id rfl (u := s.incrementTerm (some m.term)) rfl (.vote m.sender true)

theorem voteMessage_request? (s : RaftNode n) (c : Fin n) (granted : Bool) :
    (s.voteMessage c granted).request? = none := rfl

theorem handles_yieldTo (m : RequestVotesMessage n) : Handles incoming s (s.yieldTo m) :=
  ⟨_, hands_yieldTo m, .keep rfl rfl fun o ho => by
    rw [List.mem_singleton.1 ho, voteMessage_request?]⟩

theorem handles_candidateCall : Handles incoming s s.candidateCall := by
  set u := s.incrementTerm none with hu
  have h1 : Hands s u.sendRequestVote [u.requestVoteMessage] := hands_one rfl id rfl (u := u) rfl .requestVote
  have h2 : Hands u.sendRequestVote s.candidateCall [u.sendRequestVote.voteMessage s.myId true] :=
    hands_one rfl id rfl (u := u.sendRequestVote) rfl (.vote s.myId true)
  refine ⟨_, h1.trans h2, .keep rfl rfl ?_⟩
  simp [requestVoteMessage, voteMessage, Message.request?]

theorem handles_candidateHandle {v t : ℕ} {m : Message n} :
    Handles (some m) s (s.candidateHandle v t m) := by
  have hcases := candidateHandle_cases (s := s) v t m
  generalize s.candidateHandle v t m = s' at hcases
  cases hcases with
  | ignore => exact Handles.refl s
  | @vote r direction =>
    rcases candidateVote_cases (s := s) v t r with h | ⟨votes, h⟩
    · rw [h]
      exact handles_idle rfl id rfl rfl rfl
    · rw [h]
      exact handles_idle rfl id rfl rfl rfl
  | yield direction term => exact handles_yieldTo _
  | heartbeat direction type term => exact handles_idle rfl id rfl rfl rfl

theorem handles_candidateLoop {v t : ℕ} {timers : Timers n} (hr : s.currentRole = .candidate) :
    Handles incoming s (s.candidateLoop v t timers incoming) := by
  have hhandles : Handles incoming s (incoming.elim s (s.candidateHandle v t)) := by
    cases incoming with
    | none => exact Handles.refl s
    | some m => exact handles_candidateHandle
  obtain ⟨u, rfl, hlast | ⟨-, -, hlast⟩⟩ := candidateLoop_cases (s := s) v t timers incoming
  · rw [hlast]
    exact hhandles
  · rw [hlast]
    exact hhandles.timeout (by simp [hr])

/-! ## Leaders -/

/-- A leader has appended the entries `es` and told the others. -/
theorem hands_broadcast {e : Entry} (h : s.broadcastAppendEntries e = some s') :
    ∃ out, Hands s s' out ∧ (∀ o ∈ out, o.request? = none) ∧ s'.log = s.log ++ [e] ∧
      s'.clientQueue = s.clientQueue ∧ s'.currentTerm = s.currentTerm ∧
      s'.currentRole = s.currentRole ∧ s'.frame = s.frame := by
  obtain ⟨last, -, rfl⟩ := broadcastAppendEntries_eq h
  refine ⟨_, ⟨rfl, id, rfl, fun o ho => ?_⟩, fun o ho => ?_, rfl, rfl, rfl, rfl, rfl⟩
  · obtain ⟨i, -, rfl⟩ := List.mem_map.1 ho
    exact ⟨s, rfl, .appendEntries _ _ _ _⟩
  · obtain ⟨i, -, rfl⟩ := List.mem_map.1 ho
    simp [Message.request?, appendEntriesMessage]

theorem hands_leaderAcknowledge {m : AppendEntriesMessage n} (h : s.leaderAcknowledge m = some s') :
    ∃ out, Hands s s' out ∧ (∀ o ∈ out, o.request? = none) ∧ s'.log = s.log ∧
      s'.clientQueue = s.clientQueue ∧ s'.currentTerm = s.currentTerm ∧
      s'.currentRole = s.currentRole ∧ s'.frame = s.frame := by
  rcases leaderAcknowledge_cases h with ⟨-, rfl⟩ | ⟨k, next, out, -, -, hout, hc⟩
  · exact ⟨[], Hands.refl _, by simp, rfl, rfl, rfl, rfl, rfl⟩
  set v : RaftNode n := { s with
    matchIndex := if m.results.success == some true then
      Function.update s.matchIndex m.sender k else s.matchIndex
    nextIndex := Function.update s.nextIndex m.sender (if next > s.logMaxIndex then none else some next)
    talker := s.talker ++ out } with hv
  have hsv : Hands s v out := ⟨rfl, id, rfl, fun o ho => ⟨s, rfl, (hout o ho).sends⟩⟩
  rcases commitMatched_cases hc with ⟨-, rfl⟩ | ⟨-, hc⟩
  · exact ⟨out, hsv, fun o ho => (hout o ho).request?, rfl, rfl, rfl, rfl, rfl⟩
  · obtain ⟨e, -, rfl⟩ := broadcastCommmitEntries_eq hc
    set x := v.commitEntry (maxCommittableIndex v.matchIndex) e.term with hx
    refine ⟨out ++ (List.finRange n).map x.committalMessage,
      hsv.trans ⟨rfl, fun _ => rfl, rfl, fun o ho => ?_⟩, fun o ho => ?_, rfl, rfl, rfl, rfl, rfl⟩
    · obtain ⟨i, -, rfl⟩ := List.mem_map.1 ho
      exact ⟨x, rfl, .committal i⟩
    · rcases List.mem_append.1 ho with ho | ho
      · exact (hout o ho).request?
      · obtain ⟨i, -, rfl⟩ := List.mem_map.1 ho
        simp [Message.request?, committalMessage]

/-- A leader that goes on leading after a message has appended the request in it. -/
structure LeadsOn (s s' : RaftNode n) (es : List Entry) (out : List (Message n)) : Prop where
  hands : Hands s s' out
  none : ∀ o ∈ out, o.request? = none
  log : s'.log = s.log ++ es
  queue : s'.clientQueue = s.clientQueue
  term : s'.currentTerm = s.currentTerm
  role : s'.currentRole = s.currentRole
  frame : s'.frame = s.frame

theorem LeadsOn.refl (s : RaftNode n) : LeadsOn s s [] [] :=
  ⟨Hands.refl s, by simp, by simp, rfl, rfl, rfl, rfl⟩

theorem LeadsOn.trans {es es' : List Entry} {out' : List (Message n)} (h : LeadsOn s u es out)
    (h' : LeadsOn u s' es' out') : LeadsOn s s' (es ++ es') (out ++ out') := by
  refine ⟨h.hands.trans h'.hands, fun o ho => ?_, by rw [h'.log, h.log, List.append_assoc],
    h'.queue.trans h.queue, h'.term.trans h.term, h'.role.trans h.role, h'.frame.trans h.frame⟩
  rcases List.mem_append.1 ho with ho | ho
  · exact h.none o ho
  · exact h'.none o ho

theorem leadsOn_leaderHandle {m : Message n} (h : s.leaderHandle m = some s') :
    (∃ out, LeadsOn s s' m.request?.toList out ∧
        s.taking (some m) = m.request?.toList ++ s.clientQueue.head?.toList) ∨
      ∃ r, m = .requestVotes r ∧ r.direction = .request ∧ r.term > s.currentTerm ∧ s' = s.yieldTo r := by
  cases leaderHandle_cases h with
  | ignoreVotes other => exact Or.inl ⟨[], LeadsOn.refl s, taking_requestVotes other⟩
  | @ignoreEntries m other =>
    have hnone : (Message.appendEntries m).request? = none := by
      simp only [Message.request?, ite_eq_right_iff]
      exact fun h => absurd h.2 (other h.1).2
    exact Or.inl ⟨[], by simpa [hnone] using LeadsOn.refl s, taking_appendEntries m⟩
  | @acknowledge m s' direction type run =>
    obtain ⟨out, h1, h2, h3, h4, h5, h6, h7⟩ := hands_leaderAcknowledge run
    exact Or.inl ⟨out, ⟨h1, h2, by simp [h3, Message.request?, type], h4, h5, h6, h7⟩, taking_appendEntries m⟩
  | @clientRequest m e s' direction type entries run =>
    obtain ⟨out, h1, h2, h3, h4, h5, h6, h7⟩ := hands_broadcast run
    exact Or.inl ⟨out, ⟨h1, h2, by simp [h3, Message.request?, direction, type, entries], h4, h5, h6, h7⟩,
      taking_appendEntries m⟩
  | @yield r direction term => exact Or.inr ⟨r, rfl, direction, term, rfl⟩

/-- Heartbeats and resends ask for nothing and append nothing. -/
theorem leadsOn_resends {out : List (Message n)} (hout : ∀ o ∈ out, o = s.heartbeatMessage ∨ s.Replicates o) :
    LeadsOn s { s with talker := s.talker ++ out } [] out := by
  refine ⟨⟨rfl, id, rfl, fun o ho => ⟨s, rfl, ?_⟩⟩, fun o ho => ?_, by simp, rfl, rfl, rfl, rfl⟩
  · rcases hout o ho with rfl | hrep
    · exact .heartbeat
    · exact hrep.sends
  · rcases hout o ho with rfl | hrep
    · simp [Message.request?, heartbeatMessage]
    · exact hrep.request?

/-- **A leader's round appends what it takes up**: the request of its message and the
first of its queue, or nothing when it steps down. -/
theorem leaderLoop_requests {timers : Timers n} (hp : s.presides = true)
    (h : s.leaderLoop timers incoming = some s') :
    s'.log = s.log ++ s.taking incoming ∧ Handles incoming s s' := by
  have hr := presides_role hp
  have hframe : s.frame ≠ .run := by
    simp only [presides, Bool.and_eq_true, decide_eq_true_eq] at hp
    simp [hp.1]
  obtain ⟨out, v, u, hout, hv, hu, hlast⟩ := leaderLoop_cases h
  have hsv : LeadsOn s v [] out := by
    rw [hv]
    exact leadsOn_resends hout
  have hvs : ∀ m, v.taking m = s.taking m := by
    intro m; subst hv; rfl
  have hvu : (∃ out, LeadsOn v u (incoming.bind Message.request?).toList out ∧
      s.taking incoming = (incoming.bind Message.request?).toList ++ s.clientQueue.head?.toList) ∨
      ∃ r, u = v.yieldTo r ∧ s.taking incoming = [] := by
    cases incoming with
    | none =>
      obtain rfl : v = u := by simpa using hu
      exact Or.inl ⟨[], LeadsOn.refl v, by simp [taking]⟩
    | some m =>
      rcases leadsOn_leaderHandle hu with ⟨out', hon, htaking⟩ | ⟨r, rfl, hd, hgt, hy⟩
      · refine Or.inl ⟨out', hon, ?_⟩
        rw [hvs, hsv.queue] at htaking
        exact htaking
      · have hgt' : r.term > s.currentTerm := by rw [← hsv.term]; exact hgt
        exact Or.inr ⟨r, hy, by simp [taking, hd, hgt']⟩
  rcases hvu with ⟨out', hon, htaking⟩ | ⟨r, rfl, htaking⟩
  · have hsu := hsv.trans hon
    rw [List.nil_append] at hsu
    rcases hlast with ⟨hrun, -⟩ | ⟨-, hlast⟩
    · exact absurd (hsu.frame.symm.trans hrun) hframe
    -- the first request of the queue, if there is one, is appended last
    rcases leaderClientRequest_cases hlast with ⟨hqueue, rfl⟩ | ⟨request, queue, hqueue, hlast⟩
    · rw [hsu.queue] at hqueue
      have hlog : s'.log = s.log ++ s.taking incoming := by
        rw [hsu.log, htaking, hqueue]; simp
      refine ⟨hlog, _, hsu.hands, .lead hp hsu.term (hsu.role.trans hr) htaking ?_ hlog hsu.none⟩
      rw [hsu.queue, hqueue]; rfl
    · rw [hsu.queue] at hqueue
      obtain ⟨out'', h1, h2, h3, h4, h5, h6, -⟩ := hands_broadcast hlast
      have hu' : Hands u { u with clientQueue := queue } [] := hands_silent rfl id rfl
      have hlog : s'.log = s.log ++ s.taking incoming := by
        rw [h3, htaking, hqueue]
        show u.log ++ [request] = _
        rw [hsu.log, List.append_assoc]; rfl
      refine ⟨hlog, _, hsu.hands.trans (hu'.trans h1),
        .lead hp (h5.trans hsu.term) (h6.trans (hsu.role.trans hr)) htaking ?_ hlog ?_⟩
      · rw [h4, hqueue]; rfl
      · intro o ho
        rw [List.nil_append] at ho
        rcases List.mem_append.1 ho with ho | ho
        · exact hsu.none o ho
        · exact h2 o ho
  · -- the leader steps down, after what it has sent
    rcases hlast with ⟨-, rfl⟩ | ⟨hrun, -⟩
    · have hlog : (v.yieldTo r).log = s.log := by
        rw [← List.append_nil s.log, ← hsv.log]; rfl
      refine ⟨by rw [htaking, List.append_nil, hlog], _, hsv.hands.trans (hands_yieldTo r),
        .keep hsv.queue hlog fun o ho => ?_⟩
      · rcases List.mem_append.1 ho with ho | ho
        · exact hsv.none o ho
        · rw [List.mem_singleton.1 ho, voteMessage_request?]
    · exact absurd rfl hrun

/-! ## The steps of a node -/

theorem handles_leaderCall (hf : s.frame = .run) (hr : s.currentRole = .leader)
    (h : s.leaderCall = some s') :
    Handles incoming s s' := by
  obtain ⟨u, hu, rfl⟩ := leaderCall_cases h
  have h0 : Hands s s.takeOver [s.heartbeatMessage] := hands_one rfl id rfl (u := s) rfl .heartbeat
  obtain ⟨out, h1, h2, h3, h4, -, -, -⟩ := hands_broadcast hu
  have h5 : Hands s { u with frame := .leader } ([s.heartbeatMessage] ++ out) := by
    obtain ⟨hid, happlied, htalker, hemits⟩ := h0.trans h1
    exact ⟨hid, happlied, htalker, hemits⟩
  refine ⟨_, h5, .call hf hr h4 h3 fun o ho => ?_⟩
  rcases List.mem_append.1 ho with ho | ho
  · rw [List.mem_singleton.1 ho]
    simp [Message.request?, heartbeatMessage]
  · exact h2 o ho

theorem call_requests (hf : s.frame = .run) (h : s.call = some s') : Handles incoming s s' := by
  cases call_cases h with
  | leader role run => exact handles_leaderCall hf role run
  | follower role => exact handles_idle rfl id rfl rfl rfl
  | candidate role => exact handles_candidateCall
  | none role => exact Handles.refl s

theorem loop_requests {timers : Timers n} (h : s.loop timers incoming = some s') :
    Handles incoming s s' := by
  cases loop_cases h with
  | run frame => exact Handles.refl s
  | leave frame => exact handles_idle rfl id rfl rfl rfl
  | follower frame role run => exact handles_followerLoop frame role run
  | candidate frame role => exact handles_candidateLoop role
  | leader frame role run => exact (leaderLoop_requests (by simp [presides, frame, role]) run).2

/-- **A node that leads appends exactly what it takes up in its round.** -/
theorem presides_log {timers : Timers n} (hp : s.presides = true)
    (h : s.loop timers incoming = some s') : s'.log = s.log ++ s.taking incoming := by
  have hp' := hp
  simp only [presides, Bool.and_eq_true, decide_eq_true_eq] at hp'
  rw [loop_leader hp'.1 hp'.2] at h
  exact (leaderLoop_requests hp h).1

end RaftNode

namespace World

variable {w w₁ : World n} {ev : Event n} {b : Fin n} {m : Option (Message n)} {s : RaftNode n}

/-- **An event that happens at a node is a client's request, or a step of the requests.** -/
theorem Acts.requests (h : w.Acts ev b m s w₁) :
    (∃ value idNum, ev = .clientRequest b value idNum ∧ s = (w.node b).clientRequest value idNum ∧
      m = none ∧ w₁ = w) ∨
      ((∀ c value idNum, ev ≠ .clientRequest c value idNum) ∧ RaftNode.Handles m (w.node b) s) := by
  cases h with
  | clientRequest _ value idNum => exact Or.inl ⟨value, idNum, rfl, rfl, rfl, rfl⟩
  | call _ frame run => exact Or.inr ⟨by simp, RaftNode.call_requests frame run⟩
  | loop _ r frame recv run => exact Or.inr ⟨by simp, RaftNode.loop_requests run⟩

end World

/-- **Every time of a run is a step of the requests from the one before**, at every
node, or the request of a client there. -/
theorem wAt_requests (es : List (Event n)) (k : ℕ) (a : Fin n) :
    (∃ (hk : k < es.length) (value : Value) (idNum : Key), es[k] = .clientRequest a value idNum ∧
      (wAt es (k + 1)).node a = ((wAt es k).node a).clientRequest value idNum ∧
      ∀ c, (wAt es (k + 1)).chan a c = (wAt es k).chan a c) ∨
    ∃ incoming out, RaftNode.RequestStep incoming ((wAt es k).node a) ((wAt es (k + 1)).node a) out ∧
      (∀ c, (wAt es (k + 1)).chan a c = (wAt es k).chan a c ++ out.filter (·.reaches c)) ∧
      (((wAt es (k + 1)).node a = (wAt es k).node a ∧ out = []) ∨
        ∃ hk : k < es.length, (es[k] = .call a ∧ ((wAt es k).node a).frame = .run) ∨
          ((wAt es k).round es[k] = some (a, incoming) ∧ ((wAt es k).node a).frame ≠ .run)) := by
  have hidle : ∀ s : RaftNode n, RaftNode.RequestStep none s s [] :=
    fun s => .keep rfl rfl (by simp)
  rcases wAt_succ_cases es k with ⟨hk, hsucc⟩ | hsucc
  · have hw : (wAt es k).Wired := wired_wAt k
    rcases (wAt es k).step_cases es[k] with heq | ⟨b, m, s, w₁, hacts, heq⟩
    · rw [hsucc, heq]
      exact Or.inr ⟨none, [], hidle _, by simp, Or.inl ⟨rfl, rfl⟩⟩
    by_cases hab : a = b
    · subst hab
      have hnode : (wAt es (k + 1)).node a = { s with talker := [] } := by
        rw [hsucc, heq, World.put_node_self]
      have hchan : ∀ c, (wAt es (k + 1)).chan a c =
          (wAt es k).chan a c ++ s.talker.filter (·.reaches c) := fun c => by
        rw [hsucc, heq, World.put_chan, hacts.chan, if_pos rfl]
      -- its streams get what it has sent, and the talker is empty again
      rcases hacts.requests with ⟨value, idNum, hev, rfl, -, -⟩ | ⟨hother, out, hhands, hstep⟩
      · have htalker : (((wAt es k).node a).clientRequest value idNum).talker = [] := (hw a).2
        refine Or.inl ⟨hk, value, idNum, hev, ?_, fun c => ?_⟩
        · rw [hnode, ← htalker]
        · rw [hchan, htalker]; simp
      · have htalker := hhands.talker
        rw [(hw a).2, List.nil_append] at htalker
        refine Or.inr ⟨m, out, ?_, fun c => by rw [hchan, htalker], Or.inr ⟨hk, ?_⟩⟩
        · rw [hnode]
          exact hstep.put
        · generalize hev : es[k] = ev at hacts hother
          cases hacts with
          | clientRequest _ value idNum => exact absurd rfl (hother a value idNum)
          | call _ frame run => exact Or.inl ⟨rfl, frame⟩
          | loop _ r frame recv run => exact Or.inr ⟨by simp [World.round, frame, recv], frame⟩
    · have hnode : (wAt es (k + 1)).node a = (wAt es k).node a := by
        rw [hsucc, heq, World.put_node_ne hab, hacts.node]
      rw [hnode]
      refine Or.inr ⟨none, [], hidle _, fun c => ?_, Or.inl ⟨rfl, rfl⟩⟩
      rw [hsucc, heq, World.put_chan, if_neg hab, hacts.chan]
      rfl
  · rw [hsucc]
    exact Or.inr ⟨none, [], hidle _, by simp, Or.inl ⟨rfl, rfl⟩⟩

end EdgeConsensus.Raft
