import EdgeConsensus.Raft.CatchUp
import EdgeConsensus.Raft.Lookup

/-!
# A cluster at work, node by node

What the loops do where nothing goes wrong: a follower that has the leader's log takes the next entry, obeys
a Committal message and forwards a request (`Replica`); a leader takes up a request, and counts the
acknowledgements until all nodes have the entry (`Leading`).
-/

namespace EdgeConsensus.Raft

variable {n : ℕ}

namespace RaftNode

variable {s u : RaftNode n} {t k : ℕ} {L Q : List Entry} {e : Entry} {m : AppendEntriesMessage n} {c : Fin n}
  {M : Fin n → ℕ} {N : Fin n → Option ℕ}

/-- What is filed where a log has only grown. -/
abbrev filed (L : List Entry) : Key → Option Entry := Lib.fileAll Entry.id (fun _ => none) L.tail

theorem filed_concat (h : L ≠ []) (e : Entry) : filed (L ++ [e]) = Function.update (filed L) e.id (some e) := by
  unfold filed
  rw [List.tail_append_of_ne_nil h, Lib.fileAll_append, Lib.fileAll_singleton]

theorem ne_nil_of_length (h : L.length = k + 1) : L ≠ [] := by
  intro hnil
  rw [hnil] at h
  cases h

/-! ## Followers -/

/-- A follower of term `t` with log `L`, committed up to `k`, and the requests `Q` in its queue. -/
structure Replica (t : ℕ) (L : List Entry) (k : ℕ) (Q : List Entry) (s : RaftNode n) : Prop where
  frame : s.frame = .follower
  role : s.currentRole = .follower
  term : s.currentTerm = t
  log : s.log = L
  commit : s.commitIndex = k
  queue : s.clientQueue = Q
  hash : s.logHash = filed L

theorem Replica.flush (h : Replica t L k Q s) : Replica t L k Q s.flush := ⟨h.1, h.2, h.3, h.4, h.5, h.6, h.7⟩

/-- **It takes the next entry** of a leader that has the same log, and acknowledges it. -/
theorem Replica.accept {last : Entry} (h : Replica t L k Q s) (hlen : L.length = k + 1)
    (hlast : L[k]? = some last)
    (hd : m.direction = .request) (ht : m.type = .appendEntries) (hterm : m.term = t)
    (hp : m.prevLogIndex = some k) (hpt : m.prevLogTerm = some last.term) (he : m.entries = some e)
    (hcommit : m.leaderCommit = k) :
    ∃ u, s.loop {} (some (.appendEntries m)) = some u ∧ Replica t (L ++ [e]) k Q u ∧
      u.talker = s.talker ++ [u.acknowledgeMessage m.leaderId true] := by
  rw [loop_appendEntries h.frame h.role hd ht]
  obtain ⟨u, hu⟩ : ∃ u, s.followerAppendEntries m = some u := followerAppendEntries_returns hp hpt he
  have hverify : s.verifyEntry k last.term = true := by
    rw [verifyEntry_iff, h.log, hlast]
    rfl
  rcases followerAppendEntries_cases hu with ⟨-, hlt | ⟨p, pt, hp', hpt', hno⟩⟩ |
    ⟨p, pt, e', hp', -, he', -, -, rfl⟩
  · have hsame := h.term
    omega
  · obtain rfl := Option.some.inj (hp.symm.trans hp')
    obtain rfl := Option.some.inj (hpt.symm.trans hpt')
    rw [hverify] at hno
    cases hno
  · obtain rfl := Option.some.inj (hp.symm.trans hp')
    obtain rfl := Option.some.inj (he.symm.trans he')
    -- all the leader had committed is committed here
    have hle : ¬ m.leaderCommit > s.commitIndex := by
      rw [hcommit, h.commit]
      exact Nat.lt_irrefl k
    rw [if_neg hle] at hu
    have htake : s.log.take (k + 1) = L := by rw [h.log, ← hlen, List.take_length]
    refine ⟨_, hu, ⟨h.frame, h.role, h.term, ?_, h.commit, h.queue, ?_⟩, rfl⟩
    · show s.log.take (k + 1) ++ [e] = L ++ [e]
      rw [htake]
    · show Function.update s.logHash e.id (some e) = _
      rw [h.hash, filed_concat (ne_nil_of_length hlen)]

theorem loop_follower_handles {m : Message n} (hf : s.frame = .follower) (hr : s.currentRole = .follower)
    (hu : s.followerHandle m = some u) : s.loop {} (some m) = some u := by
  rw [loop_follower hf hr]
  unfold followerLoop
  rw [Option.elim_some, hu]
  rfl

/-- It commits what a Committal message names. -/
theorem Replica.obey {i pt : ℕ} (h : Replica t L k Q s) (hd : m.direction = .request) (ht : m.type = .committal)
    (hp : m.prevLogIndex = some i) (hpt : m.prevLogTerm = some pt) :
    ∃ u, s.loop {} (some (.appendEntries m)) = some u ∧ Replica t L i Q u ∧ u.talker = s.talker := by
  refine ⟨s.commitEntry i pt, loop_follower_handles h.frame h.role ?_,
    ⟨h.frame, h.role, h.term, h.log, rfl, h.queue, h.hash⟩, rfl⟩
  unfold followerHandle followerCommittal
  simp [Message.direction, Message.base, hd, ht, hp, hpt]

/-- **It forwards a request** on a heartbeat. -/
theorem Replica.forward (h : Replica t L k (e :: Q) s) (hd : m.direction = .request) (ht : m.type = .heartbeat)
    (hterm : m.term = t) (hleader : m.leaderId = some c) :
    ∃ u x : RaftNode n, s.loop {} (some (.appendEntries m)) = some u ∧ Replica t L k Q u ∧
      u.talker = s.talker ++ [x.clientRequestMessage (some c) e] := by
  have hhandle : s.followerHandle (.appendEntries m) = some (s.followerHeartbeat m) := by
    unfold followerHandle
    simp [Message.direction, Message.base, hd, ht]
  have hraise : s.raiseTerm m.term = s := by
    unfold raiseTerm
    rw [hterm, h.term, if_neg (Nat.lt_irrefl t)]
  rcases s.followerHeartbeat_cases m with heq | ⟨request, queue, -, hqueue, heq⟩
  · -- the queue is not empty, so there is a request to forward
    exfalso
    have hkept : (s.followerHeartbeat m).clientQueue = e :: Q := by rw [heq, hraise]; exact h.queue
    unfold followerHeartbeat at hkept
    rw [hterm, h.term, if_neg (Nat.lt_irrefl t)] at hkept
    simp [hleader, h.queue, sendClientRequest, sendMessage] at hkept
  · rw [h.queue] at hqueue
    obtain ⟨rfl, rfl⟩ := List.cons.inj hqueue
    refine ⟨_, { s with leaderId := m.leaderId, clientQueue := Q },
      loop_follower_handles h.frame h.role hhandle, ?_, ?_⟩
    · rw [heq, hraise]
      exact ⟨h.frame, h.role, h.term, h.log, h.commit, rfl, h.hash⟩
    · rw [heq, hraise, hleader]
      rfl

/-! ## Candidates -/

/-- It counts a vote. -/
theorem loop_vote {v r : ℕ} {m : RequestVotesMessage n} (hf : s.frame = .candidate v r)
    (hr : s.currentRole = .candidate) (hd : m.direction = .response) :
    s.loop {} (some (.requestVotes m)) = some (s.candidateVote v r m) := by
  have hhandle : s.candidateHandle v r (.requestVotes m) = s.candidateVote v r m := by
    unfold candidateHandle
    simp [Message.direction, Message.base, hd]
  unfold loop
  simp only [hf, hr, if_true, candidateLoop, Option.elim_some, hhandle, Bool.false_eq_true, if_false, ite_self]

/-- **A new follower votes** for the first candidate of term 2. -/
theorem loop_init_vote {b : Fin n} {m : RequestVotesMessage n} (hd : m.direction = .request) (hterm : m.term = 2)
    (hindex : m.lastLogIndex = 0) (hlast : m.lastLogTerm = 1) :
    ∃ u x : RaftNode n, { init b with frame := .follower }.loop {} (some (.requestVotes m)) = some u ∧
      Replica 2 [initEntry] 0 [] u ∧ x.currentTerm = 2 ∧ u.talker = [x.voteMessage m.sender true] := by
  have hhandle : { init b with frame := .follower }.followerHandle (.requestVotes m) =
      some ({ init b with frame := .follower }.followerRequestVotes m) := by
    unfold followerHandle
    simp [Message.direction, Message.base, hd]
  have hgrant : decide ((m.term > ({ init b with frame := .follower } : RaftNode n).currentTerm ∨
      ({ init b with frame := .follower } : RaftNode n).votedFor = none) ∧
      m.lastLogIndex ≥ ({ init b with frame := .follower } : RaftNode n).lastAppliedIndex ∧
      m.lastLogTerm ≥ ({ init b with frame := .follower } : RaftNode n).lastAppliedTerm) = true := by
    simp [init, hindex, hlast]
  refine ⟨_, { init b with frame := .follower, currentTerm := 2 },
    loop_follower_handles rfl rfl hhandle, ?_, rfl, ?_⟩
  · rw [followerRequestVotes_eq, raiseTerm_eq]
    refine ⟨rfl, rfl, ?_, rfl, rfl, rfl, rfl⟩
    show max 1 m.term = 2
    rw [hterm]
    rfl
  · rw [followerRequestVotes_eq, raiseTerm_eq, hgrant, hterm]
    rfl

/-! ## Leaders -/

/-- A leader of term `t` in its loop, with log `L`, committed up to `k`, the requests `Q` in its queue, and its
match and next indices. -/
structure Leading (t : ℕ) (L : List Entry) (k : ℕ) (Q : List Entry) (M : Fin n → ℕ) (N : Fin n → Option ℕ)
    (s : RaftNode n) : Prop where
  frame : s.frame = .leader
  role : s.currentRole = .leader
  term : s.currentTerm = t
  log : s.log = L
  commit : s.commitIndex = k
  queue : s.clientQueue = Q
  hash : s.logHash = filed L
  matched : s.matchIndex = M
  next : s.nextIndex = N

theorem Leading.presides (h : Leading t L k Q M N s) : s.presides = true := by
  simp [RaftNode.presides, h.frame, h.role]

theorem Leading.flush (h : Leading t L k Q M N s) : Leading t L k Q M N s.flush :=
  ⟨h.1, h.2, h.3, h.4, h.5, h.6, h.7, h.8, h.9⟩

/-- The match indices of a leader that has just appended the entry at `k + 1`, where the nodes in `C` have
acknowledged it. -/
def matchFor (me : Fin n) (k : ℕ) (C : Finset (Fin n)) (i : Fin n) : ℕ := if i = me ∨ i ∈ C then k + 1 else k

/-- The next indices then. -/
def nextFor (me : Fin n) (k : ℕ) (C : Finset (Fin n)) (i : Fin n) : Option ℕ :=
  if i = me ∨ i ∈ C then none else some (k + 1)

/-- **A broadcast** of a leader whose nodes are all up to date: all nodes are sent the entry. -/
theorem broadcast_current {last : Entry} (hnext : s.nextIndex = fun _ => none) (hlen : s.log.length = k + 1)
    (hlast : s.log[k]? = some last) (e : Entry) :
    s.broadcastAppendEntries e = some { s with
      log := s.log ++ [e]
      logHash := Function.update s.logHash e.id (some e)
      nextIndex := nextFor s.myId k ∅
      matchIndex := Function.update s.matchIndex s.myId (k + 1)
      talker := s.talker ++ (List.finRange n).map (s.appendEntriesMessage k last.term e) } := by
  have hne : s.log ≠ [] := by
    intro hnil
    rw [hnil] at hlen
    cases hlen
  obtain ⟨u, hu⟩ := broadcastAppendEntries_returns hne e
  obtain ⟨l, hl, rfl⟩ := broadcastAppendEntries_eq hu
  rw [List.getLast?_eq_getElem?, hlen, Nat.add_sub_cancel, hlast] at hl
  obtain rfl := Option.some.inj hl
  have hnext' : (fun i => if i = s.myId then none else if s.nextIndex i = none then some s.log.length
      else s.nextIndex i) = nextFor s.myId k ∅ := by
    funext i
    simp [nextFor, hnext, hlen]
  have hall : (List.finRange n).filter (fun i => (s.nextIndex i).isNone) = List.finRange n := by simp [hnext]
  rw [hu, hnext', hall, hlen, Nat.add_sub_cancel]

theorem update_matchFor (me : Fin n) (k : ℕ) : Function.update (fun _ => k) me (k + 1) = matchFor me k ∅ := by
  funext i
  by_cases hi : i = me
  · simp [matchFor, hi]
  · simp [matchFor, hi]

theorem Leading.broadcast {last : Entry} (h : Leading t L k Q (fun _ => k) (fun _ => none) s)
    (hlen : L.length = k + 1)
    (hlast : L[k]? = some last) (e : Entry) :
    ∃ u, s.broadcastAppendEntries e = some u ∧
      Leading t (L ++ [e]) k Q (matchFor s.myId k ∅) (nextFor s.myId k ∅) u ∧
      u.talker = s.talker ++ (List.finRange n).map (s.appendEntriesMessage k last.term e) := by
  have hlog := h.log
  refine ⟨_, broadcast_current h.next (hlog.symm ▸ hlen) (hlog.symm ▸ hlast) e,
    ⟨h.frame, h.role, h.term, by rw [hlog], h.commit, h.queue, ?_, ?_, rfl⟩, rfl⟩
  · show Function.update s.logHash e.id (some e) = _
    rw [h.hash, filed_concat (ne_nil_of_length hlen)]
  · show Function.update s.matchIndex s.myId (k + 1) = _
    rw [h.matched, update_matchFor]

/-- **A new leader** sends a heartbeat and its first entry to all nodes. -/
theorem call_leader {last : Entry} (hr : s.currentRole = .leader) (hlen : s.log.length = k + 1)
    (hlast : s.log[k]? = some last)
    (hcommit : s.commitIndex = k) (hqueue : s.clientQueue = Q) (hhash : s.logHash = filed s.log) :
    ∃ u, s.call = some u ∧
      Leading s.currentTerm (s.log ++ [leaderEntry s.currentTerm]) k Q
        (matchFor s.myId k ∅) (nextFor s.myId k ∅) u ∧
      u.talker = (s.talker ++ [s.heartbeatMessage]) ++
        (List.finRange n).map (s.appendEntriesMessage k last.term (leaderEntry s.currentTerm)) := by
  have hbroadcast := broadcast_current (s := s.takeOver) rfl hlen hlast (leaderEntry s.currentTerm)
  have hcall : s.call = (s.takeOver.broadcastAppendEntries (leaderEntry s.currentTerm)).bind
      fun u => some { u with frame := Frame.leader } := by
    unfold call
    rw [hr]
    rfl
  rw [hcall, hbroadcast, Option.bind_some]
  refine ⟨_, rfl, ⟨rfl, hr, rfl, rfl, hcommit, hqueue, ?_, ?_, rfl⟩, rfl⟩
  · show Function.update s.logHash _ _ = _
    rw [hhash]
    exact (filed_concat (ne_nil_of_length hlen) _).symm
  · show Function.update (fun _ => s.commitIndex) s.myId (k + 1) = _
    rw [hcommit, update_matchFor]

theorem loop_quiet {timers : Timers n} {incoming : Option (Message n)} (hp : s.presides = true)
    (hbeat : timers.heartbeat = false) (hresend : timers.resend = fun _ => false) :
    s.loop timers incoming = (incoming.elim (some s) s.leaderHandle).bind fun u =>
      if u.frame = .run then some u else u.leaderClientRequest := by
  simp only [presides, Bool.and_eq_true, decide_eq_true_eq] at hp
  have hnone : (List.finRange n).foldlM (resend timers) s = some s := by
    have htimers : resend timers = resend (n := n) {} := by
      funext x i
      unfold resend
      rw [hresend]
    rw [htimers]
    exact foldlM_resend_none _
  rw [loop_leader hp.1 hp.2]
  unfold leaderLoop
  simp only [hbeat, Bool.false_eq_true, if_false, hnone, Option.bind_eq_bind, Option.bind_some]
  rfl

/-- A leader sends a heartbeat and does nothing else. -/
theorem Leading.beat (h : Leading t L k [] M (fun _ => none) s) :
    s.loop { heartbeat := true } none = some s.sendHeartbeat := by
  have hnone : (List.finRange n).foldlM (resend { heartbeat := true }) s.sendHeartbeat =
    some s.sendHeartbeat := by
    generalize List.finRange n = l
    induction l with
    | nil => rfl
    | cons i l ih =>
      have hone : resend { heartbeat := true } s.sendHeartbeat i = some s.sendHeartbeat := by
        unfold resend
        have hnext : s.sendHeartbeat.nextIndex i = none := congrFun h.next i
        rw [hnext]
      rw [List.foldlM_cons, hone]
      exact ih
  have hrun : s.sendHeartbeat.frame ≠ .run := by
    show s.frame ≠ .run
    rw [h.frame]
    decide
  have hqueue : s.sendHeartbeat.clientQueue = [] := h.queue
  rw [loop_leader h.frame h.role]
  unfold leaderLoop
  simp only [if_true, hnone, Option.bind_eq_bind, Option.bind_some, Option.elim_none, hrun, if_false]
  unfold leaderClientRequest
  rw [hqueue]

/-- **A leader takes up a request** of its own client. -/
theorem Leading.own (h : Leading t L k [e] M N s) :
    s.loop {} none = { s with clientQueue := [] }.broadcastAppendEntries e := by
  have hrun : s.frame ≠ .run := by
    rw [h.frame]
    decide
  rw [loop_quiet h.presides rfl rfl, Option.elim_none, Option.bind_some, if_neg hrun]
  unfold leaderClientRequest
  rw [h.queue]

/-- **A leader takes up a request** that is forwarded to it. -/
theorem Leading.request (h : Leading t L k [] M N s) (hd : m.direction = .response) (ht : m.type = .clientRequest)
    (he : m.entries = some e) (hu : s.broadcastAppendEntries e = some u) (huq : u.clientQueue = [])
    (huf : u.frame = .leader) : s.loop {} (some (.appendEntries m)) = some u := by
  have hhandle : s.leaderHandle (.appendEntries m) = some u := by
    unfold leaderHandle
    simp [Message.direction, Message.base, hd, ht, he, hu]
  rw [loop_quiet h.presides rfl rfl, Option.elim_some, hhandle, Option.bind_some, huf, if_neg (by decide)]
  unfold leaderClientRequest
  rw [huq]

/-- The least of the match indices, where one node is still behind. -/
theorem maxCommittable_behind {me i : Fin n} {C : Finset (Fin n)} (hi : i ≠ me) (hiC : i ∉ C) :
    maxCommittableIndex (matchFor me k C) ≤ k := by
  have hle := maxCommittableIndex_le (matchFor me k C) i
  have hbehind : matchFor me k C i = k := by simp [matchFor, hi, hiC]
  omega

theorem maxCommittable_all {me : Fin n} {C : Finset (Fin n)} (hall : ∀ i, i = me ∨ i ∈ C) :
    maxCommittableIndex (matchFor me k C) = k + 1 := by
  obtain ⟨l, hl, -⟩ := exists_maxCommittableIndex (matchFor me k C) me
  rw [hl, matchFor, if_pos (hall l)]

/-- An acknowledgement of the last entry: its node is up to date. -/
theorem leaderAcknowledge_last {j : ℕ} (hnext : s.nextIndex m.sender = some j)
    (hsuccess : m.results.success = some true) (hmax : s.logMaxIndex = j) : s.leaderAcknowledge m = { s with
      matchIndex := Function.update s.matchIndex m.sender j
      nextIndex := Function.update s.nextIndex m.sender none }.commitMatched := by
  have hmax' : ∀ M N, logMaxIndex { s with matchIndex := M, nextIndex := N } = j := fun _ _ => hmax
  unfold leaderAcknowledge ackIndex sendNext
  simp [hnext, hsuccess, hmax']

/-- **A leader counts an acknowledgement** of the entry that it has appended last: it commits the entry with
the last of them. -/
theorem Leading.count {b me : Fin n} {C : Finset (Fin n)}
    (h : Leading t L k [] (matchFor me k C) (nextFor me k C) s) (hid : s.myId = me)
    (hlen : L.length = k + 2) (hb : b ≠ me) (hbC : b ∉ C) (hd : m.direction = .response)
    (ht : m.type = .acknowledge)
    (hs : m.sender = b) (hsuccess : m.results.success = some true) :
    ∃ u, s.loop {} (some (.appendEntries m)) = some u ∧
      ((¬ (∀ i, i = me ∨ i ∈ insert b C) ∧ u.talker = s.talker ∧
          Leading t L k [] (matchFor me k (insert b C)) (nextFor me k (insert b C)) u) ∨
        ((∀ i, i = me ∨ i ∈ insert b C) ∧
          Leading t L (k + 1) [] (matchFor me k (insert b C)) (nextFor me k (insert b C)) u ∧
          ∃ x : RaftNode n, x.myId = me ∧ x.lastAppliedIndex = k + 1 ∧
            u.talker = s.talker ++ (List.finRange n).map x.committalMessage)) := by
  subst hid
  have hnext : s.nextIndex m.sender = some (k + 1) := by simp [h.next, nextFor, hs, hb, hbC]
  have hmatches : Function.update (matchFor s.myId k C) b (k + 1) = matchFor s.myId k (insert b C) := by
    funext i
    by_cases hi : i = b
    · simp [matchFor, hi]
    · simp [matchFor, hi]
  have hnexts : Function.update (nextFor s.myId k C) b none = nextFor s.myId k (insert b C) := by
    funext i
    by_cases hi : i = b
    · simp [nextFor, hi]
    · simp [nextFor, hi]
  -- there is no entry behind the acknowledged one
  have hmax : s.logMaxIndex = k + 1 := by
    unfold logMaxIndex
    rw [h.log, hlen]
    rfl
  rw [loop_acknowledge h.presides h.queue hd ht, leaderAcknowledge_last hnext hsuccess hmax, hs, h.matched,
    h.next, hmatches, hnexts]
  unfold commitMatched
  by_cases hall : ∀ i, i = s.myId ∨ i ∈ insert b C
  · have hgt : k + 1 > s.commitIndex := by
      rw [h.commit]
      exact Nat.lt_succ_self k
    have hlast : k + 1 < s.log.length := by
      rw [h.log, hlen]
      exact Nat.lt_succ_self _
    simp only [maxCommittable_all hall, if_pos hgt, broadcastCommmitEntries, List.getElem?_eq_getElem hlast,
      Option.pure_def, Option.bind_eq_bind, Option.bind_some, foldl_sendToMatching]
    refine ⟨_, rfl,
      Or.inr ⟨hall, ⟨h.frame, h.role, h.term, h.log, rfl, h.queue, h.hash, rfl, rfl⟩, _, ?_, ?_, rfl⟩⟩
    · rfl
    · rfl
  · obtain ⟨i, hi⟩ := not_forall.1 hall
    have hle : ¬ maxCommittableIndex (matchFor s.myId k (insert b C)) > s.commitIndex := by
      rw [h.commit]
      have hbehind := maxCommittable_behind (k := k) (fun heq => hi (Or.inl heq)) fun hmem => hi (Or.inr hmem)
      omega
    simp only [if_neg hle]
    exact ⟨_, rfl, Or.inl ⟨hall, rfl, h.frame, h.role, h.term, h.log, h.commit, h.queue, h.hash, rfl, rfl⟩⟩

end RaftNode

end EdgeConsensus.Raft
