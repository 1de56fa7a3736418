import EdgeConsensus.Raft.Cluster
import Mathlib.Data.List.Nodup

/-!
# What each method does

One lemma for each method that loops or can raise: the state it ends in, as a
record update of the state it starts in, or the messages it sends. Later proofs
cite these and do not unfold the methods.

* `broadcastAppendEntries_eq`, `broadcastCommmitEntries_eq`: the two broadcasts.
* `followerRequestVotes_eq`, `followerHeartbeat_cases`: a follower's answers, after the term.
* `followerHandle_cases`, `candidateHandle_cases`: what they make of a message.
* `followerAppendEntries_cases`: refused, or accepted behind a verified entry.
* `leaderAcknowledge_cases`, `leaderHandle_cases`, `leaderLoop_cases`: a leader's round, by phases.
* `call_cases`, `loop_cases`: a call of a role function, and a round of the loop that the thread is in.
-/

namespace EdgeConsensus.Raft

namespace RaftNode

variable {n : ℕ} {s s' : RaftNode n}

theorem verifyEntry_iff {p t : ℕ} :
    s.verifyEntry p t = true ↔ (s.log[p]?).map Entry.term = some t := by
  unfold verifyEntry
  rcases Nat.lt_or_ge p s.log.length with h | h
  · simp [h]
  · simp [h]

theorem before_eq_some {i j : ℕ} : before i = some j ↔ i = j + 1 := by
  cases i with
  | zero => simp [before]
  | succ k => simp [before]

/-! ## The broadcasts -/

theorem foldl_sendToCurrent (p t : ℕ) (e : Entry) :
    ∀ (l : List (Fin n)) (s : RaftNode n), l.Nodup →
      l.foldl (sendToCurrent p t e) s =
        { s with
          nextIndex := fun i => if i ∈ l ∧ s.nextIndex i = none then some s.logMaxIndex else s.nextIndex i
          talker := s.talker ++
            (l.filter fun i => (s.nextIndex i).isNone).map (s.appendEntriesMessage p t e) } := by
  intro l
  induction l with
  | nil => intro s _; simp
  | cons x l ih =>
    intro s hnd
    rw [List.nodup_cons] at hnd
    have hl : ∀ i ∈ l, i ≠ x := fun i hi h => hnd.1 (h ▸ hi)
    rw [List.foldl_cons]
    cases hx : s.nextIndex x with
    | some v =>
      -- a node that lags is not sent the entry now
      have hstep : sendToCurrent p t e s x = s := by simp [sendToCurrent, hx]
      rw [hstep, ih s hnd.2]
      simp only [List.filter_cons, hx, Option.isNone_some, Bool.false_eq_true, if_false, mk.injEq,
        true_and, and_true]
      funext i
      by_cases hi : i = x
      · subst hi; simp [hx]
      · simp [hi]
    | none =>
      set u : RaftNode n := { s with
        nextIndex := Function.update s.nextIndex x (some s.logMaxIndex)
        talker := s.talker ++ [s.appendEntriesMessage p t e x] } with hu
      have hstep : sendToCurrent p t e s x = u := by
        simp [sendToCurrent, hx, sendAppendEntries, sendMessage, logMaxIndex, hu]
      -- the others are judged as before, since `x` is not among them
      have hfilter : (l.filter fun i => (u.nextIndex i).isNone) =
          l.filter fun i => (s.nextIndex i).isNone :=
        List.filter_congr fun i hi => by simp only [hu, Function.update_of_ne (hl i hi)]
      rw [hstep, ih u hnd.2, hfilter]
      simp only [List.filter_cons, hx, Option.isNone_none, if_true, List.map_cons, hu, mk.injEq,
        true_and, and_true, List.append_assoc, List.singleton_append]
      refine ⟨?_, rfl⟩
      funext i
      by_cases hi : i = x
      · subst hi; simp [hx, logMaxIndex]
      · simp [hi, logMaxIndex]

/-- **`_broadcast_append_entries`**: the leader's log grows by the entry; the nodes
that are up to date are sent it, with the entry before it. -/
theorem broadcastAppendEntries_eq {e : Entry} (h : s.broadcastAppendEntries e = some s') :
    ∃ last, s.log.getLast? = some last ∧
      s' = { s with
        log := s.log ++ [e]
        logHash := Function.update s.logHash e.id (some e)
        nextIndex := fun i => if i = s.myId then none
          else if s.nextIndex i = none then some s.log.length else s.nextIndex i
        matchIndex := Function.update s.matchIndex s.myId s.log.length
        talker := s.talker ++ ((List.finRange n).filter fun i => (s.nextIndex i).isNone).map
          (s.appendEntriesMessage (s.log.length - 1) last.term e) } := by
  unfold broadcastAppendEntries appendEntry at h
  cases hlast : s.log.getLast? with
  | none => simp [hlast] at h
  | some last =>
    simp only [Option.getD_none, hlast, Option.pure_def, Bool.false_eq_true,
      if_false, foldl_sendToCurrent _ _ _ _ _ (List.nodup_finRange n), List.mem_finRange, true_and,
      Option.bind_eq_bind, Option.bind_some, Option.some.injEq] at h
    refine ⟨last, rfl, h.symm.trans ?_⟩
    simp only [logMaxIndex, List.length_append, List.length_singleton, Nat.add_sub_cancel, mk.injEq,
      true_and, and_true]
    refine ⟨?_, rfl⟩
    funext i
    by_cases hi : i = s.myId
    · subst hi; simp
    · simp [hi]

theorem foldl_sendToMatching :
    ∀ (l : List (Fin n)) (s : RaftNode n),
      l.foldl sendToMatching s = { s with talker := s.talker ++ l.map s.committalMessage } := by
  intro l
  induction l with
  | nil => intro s; simp
  | cons x l ih =>
    intro s
    rw [List.foldl_cons, ih]
    simp [sendToMatching, sendCommittal, sendMessage, committalMessage]

/-- **`_broadcast_commmit_entries`**: the leader commits, and tells every node. -/
theorem broadcastCommmitEntries_eq {i : ℕ} (h : s.broadcastCommmitEntries i = some s') :
    ∃ e, s.log[i]? = some e ∧
      s' = { s.commitEntry i e.term with
        talker := s.talker ++ (List.finRange n).map (s.commitEntry i e.term).committalMessage } := by
  unfold broadcastCommmitEntries at h
  cases he : s.log[i]? with
  | none => simp [he] at h
  | some e =>
    simp only [he, Option.pure_def, Option.bind_eq_bind, Option.bind_some, foldl_sendToMatching,
      Option.some.injEq] at h
    exact ⟨e, rfl, h.symm⟩

/-! ## Followers -/

/-- The node with the term of a message, if that is higher: a new term has no vote. -/
def raiseTerm (s : RaftNode n) (t : ℕ) : RaftNode n :=
  if t > s.currentTerm then s.incrementTerm (some t) else s

theorem raiseTerm_eq (s : RaftNode n) (t : ℕ) :
    s.raiseTerm t = { s with
      votedFor := if t > s.currentTerm then none else s.votedFor
      currentTerm := max s.currentTerm t } := by
  unfold raiseTerm
  by_cases hgt : t > s.currentTerm
  · rw [if_pos hgt, if_pos hgt, max_eq_right (Nat.le_of_lt hgt)]
    rfl
  · rw [if_neg hgt, if_neg hgt, max_eq_left (Nat.le_of_not_lt hgt)]

/-- A follower answers every vote request, in the higher of the two terms. -/
theorem followerRequestVotes_eq (s : RaftNode n) (m : RequestVotesMessage n) :
    s.followerRequestVotes m = (s.raiseTerm m.term).sendVote m.sender
      (decide ((m.term > s.currentTerm ∨ s.votedFor = none) ∧ m.lastLogIndex ≥ s.lastAppliedIndex ∧
        m.lastLogTerm ≥ s.lastAppliedTerm)) := by
  have hvoted : (s.raiseTerm m.term).votedFor = none ↔ m.term > s.currentTerm ∨ s.votedFor = none := by
    rw [raiseTerm_eq]
    by_cases hgt : m.term > s.currentTerm
    · simp [hgt]
    · simp [hgt]
  have hiff : ((s.raiseTerm m.term).votedFor = none ∧ m.lastLogIndex ≥ (s.raiseTerm m.term).lastAppliedIndex ∧
      m.lastLogTerm ≥ (s.raiseTerm m.term).lastAppliedTerm) ↔
      (m.term > s.currentTerm ∨ s.votedFor = none) ∧ m.lastLogIndex ≥ s.lastAppliedIndex ∧
        m.lastLogTerm ≥ s.lastAppliedTerm := by
    rw [hvoted, raiseTerm_eq]
  by_cases hgrant : (m.term > s.currentTerm ∨ s.votedFor = none) ∧ m.lastLogIndex ≥ s.lastAppliedIndex ∧
      m.lastLogTerm ≥ s.lastAppliedTerm
  · rw [decide_eq_true hgrant]
    exact if_pos (hiff.2 hgrant)
  · rw [decide_eq_false hgrant]
    exact if_neg (mt hiff.1 hgrant)

/-- A heartbeat brings its term and its leader, and takes one request off the queue. -/
theorem followerHeartbeat_cases (s : RaftNode n) (m : AppendEntriesMessage n) :
    s.followerHeartbeat m = { s.raiseTerm m.term with leaderId := m.leaderId } ∨
      ∃ request queue, m.leaderId ≠ none ∧ s.clientQueue = request :: queue ∧
        s.followerHeartbeat m =
          { s.raiseTerm m.term with leaderId := m.leaderId, clientQueue := queue }.sendClientRequest
            m.leaderId request := by
  have hqueue : (s.raiseTerm m.term).clientQueue = s.clientQueue := by rw [raiseTerm_eq]
  have hraise : (if m.term > s.currentTerm then s.incrementTerm (some m.term) else s) = s.raiseTerm m.term := rfl
  generalize heq : s.followerHeartbeat m = u
  unfold followerHeartbeat at heq
  rw [hraise] at heq
  simp only at heq
  split at heq
  · rename_i hleader
    split at heq
    · exact Or.inl heq.symm
    · rename_i request queue hcase
      exact Or.inr ⟨request, queue, hleader, hqueue.symm.trans hcase, heq.symm⟩
  · exact Or.inl heq.symm

/-- A follower's handling of AppendEntries: refused, or accepted behind an entry
that its log has. -/
theorem followerAppendEntries_cases {m : AppendEntriesMessage n}
    (h : s.followerAppendEntries m = some s') :
    (s' = s.sendAcknowledge m.leaderId false ∧ (m.term < s.currentTerm ∨
        ∃ p t, m.prevLogIndex = some p ∧ m.prevLogTerm = some t ∧ s.verifyEntry p t = false)) ∨
      ∃ p t e, m.prevLogIndex = some p ∧ m.prevLogTerm = some t ∧ m.entries = some e ∧
        s.currentTerm ≤ m.term ∧ s.verifyEntry p t = true ∧
        s' = (if m.leaderCommit > s.commitIndex then
            { s with
              log := s.log.take (p + 1) ++ [e]
              logHash := Function.update s.logHash e.id (some e) }.commitEntry p e.term
          else { s with
            log := s.log.take (p + 1) ++ [e]
            logHash := Function.update s.logHash e.id (some e) }).sendAcknowledge m.leaderId true := by
  unfold followerAppendEntries at h
  by_cases hterm : m.term < s.currentTerm
  · simp only [hterm, if_true, Option.pure_def, Option.some.injEq] at h
    exact Or.inl ⟨h.symm, Or.inl hterm⟩
  simp only [hterm, if_false, Option.bind_eq_bind, Option.pure_def, Option.bind_eq_some_iff] at h
  obtain ⟨p, hp, t, ht, h⟩ := h
  cases hv : s.verifyEntry p t with
  | false =>
    simp only [hv, Bool.not_false, if_true, Option.some.injEq] at h
    exact Or.inl ⟨h.symm, Or.inr ⟨p, t, hp, ht, hv⟩⟩
  | true =>
    simp only [hv, Bool.not_true, Bool.false_eq_true, if_false, Option.bind_eq_some_iff] at h
    obtain ⟨e, he, r, hr, h⟩ := h
    refine Or.inr ⟨p, t, e, hp, ht, he, by omega, hv, ?_⟩
    unfold appendEntry at hr
    simp only [Option.bind_eq_bind, Option.pure_def, Option.bind_eq_some_iff, Option.some.injEq,
      decide_eq_true_eq, Option.getD_some] at hr
    obtain ⟨last, -, rfl⟩ := hr
    simp only [Option.some.injEq] at h
    exact h.symm

/-- What a follower makes of a message. -/
inductive FollowerHandles (s : RaftNode n) : Message n → RaftNode n → Prop
  | ignore (m : Message n) : FollowerHandles s m s
  | requestVotes {m : RequestVotesMessage n} (direction : m.direction = .request) :
    FollowerHandles s (.requestVotes m) (s.followerRequestVotes m)
  | heartbeat {m : AppendEntriesMessage n} (direction : m.direction = .request)
      (type : m.type = .heartbeat) : FollowerHandles s (.appendEntries m) (s.followerHeartbeat m)
  | appendEntries {m : AppendEntriesMessage n} {s' : RaftNode n} (direction : m.direction = .request)
      (type : m.type = .appendEntries) (run : s.followerAppendEntries m = some s') :
    FollowerHandles s (.appendEntries m) s'
  | committal {m : AppendEntriesMessage n} {i t : ℕ} (direction : m.direction = .request)
      (type : m.type = .committal) (index : m.prevLogIndex = some i) (prevTerm : m.prevLogTerm = some t) :
    FollowerHandles s (.appendEntries m) (s.commitEntry i t)

theorem followerHandle_cases {m : Message n} (h : s.followerHandle m = some s') : FollowerHandles s m s' := by
  unfold followerHandle at h
  split at h
  · obtain rfl : s = s' := by simpa using h
    exact .ignore m
  rename_i hdir
  split at h
  · rename_i m
    obtain rfl : s.followerRequestVotes m = s' := by simpa using h
    exact .requestVotes hdir
  rename_i m
  split at h
  · rename_i ht
    obtain rfl : s.followerHeartbeat m = s' := by simpa using h
    exact .heartbeat hdir ht
  · rename_i ht
    exact .appendEntries hdir ht h
  · rename_i ht
    unfold followerCommittal at h
    simp only [Option.bind_eq_bind, Option.pure_def, Option.bind_eq_some_iff, Option.some.injEq] at h
    obtain ⟨i, hi, t, hit, rfl⟩ := h
    exact .committal hdir ht hi hit
  · obtain rfl : s = s' := by simpa using h
    exact .ignore _

theorem followerLoop_cases {timers : Timers n} {incoming : Option (Message n)}
    (h : s.followerLoop timers incoming = some s') :
    ∃ u, incoming.elim (some s) s.followerHandle = some u ∧
      s' = if timers.election then (u.setCurrentRole .candidate).leave else u := by
  unfold followerLoop at h
  simp only [Option.bind_eq_bind, Option.pure_def, Option.bind_eq_some_iff, Option.some.injEq] at h
  obtain ⟨u, hu, heq⟩ := h
  exact ⟨u, hu, heq.symm⟩

/-! ## Candidates -/

/-- What a candidate makes of a message. -/
inductive CandidateHandles (s : RaftNode n) (votesForMe totalVotes : ℕ) : Message n → RaftNode n → Prop
  | ignore (m : Message n) : CandidateHandles s votesForMe totalVotes m s
  | vote {m : RequestVotesMessage n} (direction : m.direction = .response) :
    CandidateHandles s votesForMe totalVotes (.requestVotes m) (s.candidateVote votesForMe totalVotes m)
  | yield {m : RequestVotesMessage n} (direction : m.direction = .request) (term : m.term > s.currentTerm) :
    CandidateHandles s votesForMe totalVotes (.requestVotes m) (s.yieldTo m)
  | heartbeat {m : AppendEntriesMessage n} (direction : m.direction = .request) (type : m.type = .heartbeat)
      (term : m.term ≥ s.currentTerm) :
    CandidateHandles s votesForMe totalVotes (.appendEntries m) (s.candidateHeartbeat m)

theorem candidateHandle_cases (votesForMe totalVotes : ℕ) (m : Message n) :
    CandidateHandles s votesForMe totalVotes m (s.candidateHandle votesForMe totalVotes m) := by
  unfold candidateHandle
  split
  · rename_i m hd
    exact .vote hd
  · rename_i m hd
    split
    · rename_i hgt
      exact .yield hd hgt
    · exact .ignore _
  · rename_i m hd
    split
    · rename_i hbeat
      exact .heartbeat hd hbeat.1 hbeat.2
    · exact .ignore _
  · exact .ignore _

theorem candidateVote_cases (votesForMe totalVotes : ℕ) (m : RequestVotesMessage n) :
    s.candidateVote votesForMe totalVotes m = (s.setCurrentRole .leader).leave ∨
      ∃ votes, s.candidateVote votesForMe totalVotes m =
        { s with frame := .candidate votes (totalVotes + 1) } := by
  unfold candidateVote
  generalize (if m.results.voteGranted = some true then votesForMe + 1 else votesForMe) = votes
  simp only
  split
  · exact Or.inl rfl
  · exact Or.inr ⟨votes, rfl⟩

/-- A candidate's round: the message; then, if it still is in its loop, the timer. -/
theorem candidateLoop_cases (votesForMe totalVotes : ℕ) (timers : Timers n) (incoming : Option (Message n)) :
    ∃ u, u = incoming.elim s (s.candidateHandle votesForMe totalVotes) ∧
      (s.candidateLoop votesForMe totalVotes timers incoming = u ∨
        (u.frame ≠ .run ∧ timers.election = true ∧
          s.candidateLoop votesForMe totalVotes timers incoming = (u.setCurrentRole .candidate).leave)) := by
  refine ⟨_, rfl, ?_⟩
  unfold candidateLoop
  simp only
  split
  · exact Or.inl rfl
  rename_i hrun
  split
  · rename_i htimer
    exact Or.inr ⟨hrun, htimer, rfl⟩
  · exact Or.inl rfl

/-! ## Leaders -/

/-- `o` is an AppendEntries message for an entry of the log of `s`, other than the first. -/
def Replicates (s : RaftNode n) (o : Message n) : Prop :=
  ∃ k prev e dst, s.log[k]? = some prev ∧ s.log[k + 1]? = some e ∧
    o = s.appendEntriesMessage k prev.term e dst

theorem resend_foldlM {timers : Timers n} :
    ∀ (l : List (Fin n)) (s s' : RaftNode n), l.foldlM (resend timers) s = some s' →
      ∃ out, s' = { s with talker := s.talker ++ out } ∧ ∀ o ∈ out, s.Replicates o := by
  intro l
  induction l with
  | nil =>
    intro s s' h
    simp only [List.foldlM_nil, Option.pure_def, Option.some.injEq] at h
    subst h
    exact ⟨[], by simp, by simp⟩
  | cons x l ih =>
    intro s s' h
    simp only [List.foldlM_cons, Option.bind_eq_bind, Option.bind_eq_some_iff] at h
    obtain ⟨u, hu, h⟩ := h
    obtain ⟨out, rfl, hout⟩ := ih u s' h
    -- one node: its timer has run out and it lags, or nothing is sent
    have hcase : u = s ∨ ∃ o, s.Replicates o ∧ u = { s with talker := s.talker ++ [o] } := by
      unfold resend at hu
      split at hu
      · left; simpa using hu.symm
      split at hu
      · right
        simp only [Option.bind_eq_bind, Option.pure_def, Option.bind_eq_some_iff, Option.some.injEq,
          before_eq_some] at hu
        obtain ⟨k, rfl, prev, hprev, e, he, rfl⟩ := hu
        exact ⟨_, ⟨k, prev, e, x, hprev, he, rfl⟩, rfl⟩
      · left; simpa using hu.symm
    rcases hcase with rfl | ⟨o, ho, rfl⟩
    · exact ⟨out, rfl, hout⟩
    · refine ⟨o :: out, by simp, ?_⟩
      intro o' ho'
      rcases List.mem_cons.1 ho' with rfl | ho'
      · exact ho
      · exact hout o' ho'

theorem commitMatched_cases (h : s.commitMatched = some s') :
    (maxCommittableIndex s.matchIndex ≤ s.commitIndex ∧ s' = s) ∨
      (s.commitIndex < maxCommittableIndex s.matchIndex ∧
        s.broadcastCommmitEntries (maxCommittableIndex s.matchIndex) = some s') := by
  unfold commitMatched at h
  split at h
  · rename_i hgt
    exact Or.inr ⟨hgt, h⟩
  · rename_i hle
    exact Or.inl ⟨by omega, by simpa using h.symm⟩

theorem ackIndex_eq {i : Fin n} {k next : ℕ} {success : Bool} (hk : s.nextIndex i = some k)
    (h : s.ackIndex i k success = some (s', next)) :
    next = (if success then k + 1 else if k ≠ 1 then k - 1 else k) ∧
      s' = { s with
        matchIndex := if success then Function.update s.matchIndex i k else s.matchIndex
        nextIndex := Function.update s.nextIndex i (some next) } := by
  unfold ackIndex at h
  cases success with
  | true =>
    simp only [if_true, Option.some.injEq, Prod.mk.injEq] at h
    obtain ⟨rfl, rfl⟩ := h
    exact ⟨rfl, rfl⟩
  | false =>
    simp only [Bool.false_eq_true, if_false] at h ⊢
    by_cases h1 : k = 1
    · subst h1
      simp only [ne_eq, not_true_eq_false, if_false, Option.some.injEq, Prod.mk.injEq] at h
      obtain ⟨rfl, rfl⟩ := h
      rw [← hk, Function.update_eq_self]
      exact ⟨rfl, rfl⟩
    · simp only [ne_eq, h1, not_false_eq_true, if_true, Option.bind_eq_bind, Option.pure_def,
        Option.bind_eq_some_iff, before_eq_some, Option.some.injEq, Prod.mk.injEq] at h
      obtain ⟨j, rfl, rfl, rfl⟩ := h
      rw [if_pos h1]
      exact ⟨rfl, rfl⟩

theorem sendNext_cases {i : Fin n} {next : ℕ} (h : s.sendNext i next = some s') :
    ∃ out, (∀ o ∈ out, s.Replicates o) ∧ s' = { s with
      nextIndex := if next > s.logMaxIndex then Function.update s.nextIndex i none else s.nextIndex
      talker := s.talker ++ out } := by
  unfold sendNext at h
  by_cases hgt : next > s.logMaxIndex
  · rw [if_pos hgt, Option.some.injEq] at h
    subst h
    exact ⟨[], by simp, by simp [hgt]⟩
  · rw [if_neg hgt] at h
    simp only [Option.bind_eq_bind, Option.pure_def, Option.bind_eq_some_iff, Option.some.injEq,
      before_eq_some] at h
    obtain ⟨j, rfl, prev, hprev, e, he, rfl⟩ := h
    refine ⟨[s.appendEntriesMessage j prev.term e i], ?_, ?_⟩
    · intro o ho
      rw [List.mem_singleton] at ho
      exact ⟨j, prev, e, i, hprev, he, ho⟩
    · rw [if_neg hgt]; rfl

/-- A leader's handling of an acknowledgement, up to the commit. -/
theorem leaderAcknowledge_cases {m : AppendEntriesMessage n} (h : s.leaderAcknowledge m = some s') :
    (s.nextIndex m.sender = none ∧ s' = s) ∨
      ∃ k next out, s.nextIndex m.sender = some k ∧
        next = (if m.results.success == some true then k + 1 else if k ≠ 1 then k - 1 else k) ∧
        (∀ o ∈ out, s.Replicates o) ∧
        { s with
          matchIndex := if m.results.success == some true then
            Function.update s.matchIndex m.sender k else s.matchIndex
          nextIndex := Function.update s.nextIndex m.sender
            (if next > s.logMaxIndex then none else some next)
          talker := s.talker ++ out }.commitMatched = some s' := by
  unfold leaderAcknowledge at h
  cases hk : s.nextIndex m.sender with
  | none =>
    simp only [hk, Option.some.injEq] at h
    exact Or.inl ⟨rfl, h.symm⟩
  | some k =>
    simp only [hk, Option.bind_eq_bind, Option.bind_eq_some_iff] at h
    obtain ⟨⟨u, next⟩, hu, v, hv, h⟩ := h
    obtain ⟨hnext, rfl⟩ := ackIndex_eq hk hu
    obtain ⟨out, hout, rfl⟩ := sendNext_cases hv
    refine Or.inr ⟨k, next, out, rfl, hnext, hout, ?_⟩
    rw [← h]
    -- the log is the same, so is its greatest index
    have hmax : ∀ M N, logMaxIndex { s with matchIndex := M, nextIndex := N } = s.logMaxIndex :=
      fun _ _ => rfl
    simp only [hmax]
    split
    · rw [Function.update_idem]
    · rfl

/-- What a leader makes of a message. -/
inductive LeaderHandles (s : RaftNode n) : Message n → RaftNode n → Prop
  | ignoreVotes {m : RequestVotesMessage n} (other : m.direction = .request → m.term ≤ s.currentTerm) :
    LeaderHandles s (.requestVotes m) s
  | ignoreEntries {m : AppendEntriesMessage n}
      (other : m.direction = .response → m.type ≠ .acknowledge ∧ m.type ≠ .clientRequest) :
    LeaderHandles s (.appendEntries m) s
  | acknowledge {m : AppendEntriesMessage n} {s' : RaftNode n} (direction : m.direction = .response)
      (type : m.type = .acknowledge) (run : s.leaderAcknowledge m = some s') :
    LeaderHandles s (.appendEntries m) s'
  | clientRequest {m : AppendEntriesMessage n} {e : Entry} {s' : RaftNode n} (direction : m.direction = .response)
      (type : m.type = .clientRequest) (entries : m.entries = some e)
      (run : s.broadcastAppendEntries e = some s') :
    LeaderHandles s (.appendEntries m) s'
  | yield {m : RequestVotesMessage n} (direction : m.direction = .request) (term : m.term > s.currentTerm) :
    LeaderHandles s (.requestVotes m) (s.yieldTo m)

theorem leaderHandle_cases {m : Message n} (h : s.leaderHandle m = some s') : LeaderHandles s m s' := by
  unfold leaderHandle at h
  split at h
  · rename_i m hd
    split at h
    · rename_i ht
      exact .acknowledge hd ht h
    · rename_i ht
      simp only [Option.bind_eq_bind, Option.bind_eq_some_iff] at h
      obtain ⟨e, he, h⟩ := h
      exact .clientRequest hd ht he h
    · rename_i hack hrequest
      obtain rfl := Option.some.inj h
      exact .ignoreEntries fun _ => ⟨hack, hrequest⟩
  · rename_i m hd
    split at h
    · rename_i hgt
      obtain rfl := Option.some.inj h
      exact .yield hd hgt
    · rename_i hle
      obtain rfl := Option.some.inj h
      exact .ignoreVotes fun _ => Nat.le_of_not_lt hle
  · rename_i other _ _ hresponse hrequest
    obtain rfl := Option.some.inj h
    cases other with
    | requestVotes m => exact .ignoreVotes fun hd => (hrequest m hd rfl).elim
    | appendEntries m => exact .ignoreEntries fun hd => (hresponse m hd rfl).elim

theorem leaderClientRequest_cases (h : s.leaderClientRequest = some s') :
    (s.clientQueue = [] ∧ s' = s) ∨ ∃ request queue, s.clientQueue = request :: queue ∧
      { s with clientQueue := queue }.broadcastAppendEntries request = some s' := by
  unfold leaderClientRequest at h
  split at h
  · rename_i hnil
    exact Or.inl ⟨hnil, (Option.some.inj h).symm⟩
  · rename_i request queue hcons
    exact Or.inr ⟨request, queue, hcons, h⟩

/-- A node that begins to lead, before its first broadcast. -/
def takeOver (s : RaftNode n) : RaftNode n :=
  { s.sendHeartbeat with
    leaderId := some s.myId
    matchIndex := fun _ => s.commitIndex
    nextIndex := fun _ => none }

theorem leaderCall_cases (h : s.leaderCall = some s') :
    ∃ u, s.takeOver.broadcastAppendEntries (leaderEntry s.currentTerm) = some u ∧
      s' = { u with frame := .leader } := by
  unfold leaderCall at h
  simp only [Option.bind_eq_bind, Option.pure_def, Option.bind_eq_some_iff, Option.some.injEq] at h
  obtain ⟨u, hu, rfl⟩ := h
  exact ⟨u, hu, rfl⟩

/-- **A leader's round, by phases**: heartbeat and resends; the message; then, if it
still is in its loop, a client request of its own. -/
theorem leaderLoop_cases {timers : Timers n} {incoming : Option (Message n)}
    (h : s.leaderLoop timers incoming = some s') :
    ∃ out v u, (∀ o ∈ out, o = s.heartbeatMessage ∨ s.Replicates o) ∧
      v = { s with talker := s.talker ++ out } ∧ incoming.elim (some v) v.leaderHandle = some u ∧
      ((u.frame = .run ∧ s' = u) ∨ (u.frame ≠ .run ∧ u.leaderClientRequest = some s')) := by
  unfold leaderLoop at h
  simp only [Option.bind_eq_bind, Option.pure_def, Option.bind_eq_some_iff] at h
  obtain ⟨v, hv, u, hu, h⟩ := h
  obtain ⟨out, rfl, hout⟩ := resend_foldlM _ _ _ hv
  have hlast : (u.frame = .run ∧ s' = u) ∨ (u.frame ≠ .run ∧ u.leaderClientRequest = some s') := by
    split at h
    · rename_i hrun
      exact Or.inl ⟨hrun, by simpa using h.symm⟩
    · rename_i hrun
      exact Or.inr ⟨hrun, h⟩
  cases hb : timers.heartbeat with
  | true =>
    rw [hb] at hu hout
    refine ⟨s.heartbeatMessage :: out, _, u, ?_, ?_, hu, hlast⟩
    · intro o ho
      rcases List.mem_cons.1 ho with rfl | ho
      · exact Or.inl rfl
      · exact Or.inr (hout o ho)
    · simp [sendHeartbeat, sendMessage]
  | false =>
    rw [hb] at hu hout
    exact ⟨out, _, u, fun o ho => Or.inr (hout o ho), rfl, hu, hlast⟩

/-! ## The calls -/

/-- A call of the function of the node's role. -/
inductive Call (s : RaftNode n) : RaftNode n → Prop
  | leader {s' : RaftNode n} (role : s.currentRole = .leader) (run : s.leaderCall = some s') : Call s s'
  | follower (role : s.currentRole = .follower) : Call s { s with frame := .follower }
  | candidate (role : s.currentRole = .candidate) : Call s s.candidateCall
  | none (role : s.currentRole = .none) : Call s s

theorem call_cases (h : s.call = some s') : Call s s' := by
  unfold call at h
  split at h
  · rename_i hr
    exact .leader hr h
  · rename_i hr
    obtain rfl := Option.some.inj h
    exact .follower hr
  · rename_i hr
    obtain rfl := Option.some.inj h
    exact .candidate hr
  · rename_i hr
    obtain rfl := Option.some.inj h
    exact .none hr

/-! ## The loops -/

/-- A round of the loop that the thread is in: it is left when the role is another one. -/
inductive LoopRound (s : RaftNode n) (timers : Timers n) (incoming : Option (Message n)) : RaftNode n → Prop
  | run (frame : s.frame = .run) : LoopRound s timers incoming s
  | leave (frame : s.frame ≠ .run) : LoopRound s timers incoming s.leave
  | follower {s' : RaftNode n} (frame : s.frame = .follower) (role : s.currentRole = .follower)
      (run : s.followerLoop timers incoming = some s') : LoopRound s timers incoming s'
  | candidate {v t : ℕ} (frame : s.frame = .candidate v t) (role : s.currentRole = .candidate) :
    LoopRound s timers incoming (s.candidateLoop v t timers incoming)
  | leader {s' : RaftNode n} (frame : s.frame = .leader) (role : s.currentRole = .leader)
      (run : s.leaderLoop timers incoming = some s') : LoopRound s timers incoming s'

theorem loop_cases {timers : Timers n} {incoming : Option (Message n)}
    (h : s.loop timers incoming = some s') : LoopRound s timers incoming s' := by
  have hleave : s.frame ≠ .run → some s.leave = some s' → LoopRound s timers incoming s' := by
    intro hf heq
    obtain rfl := Option.some.inj heq
    exact .leave hf
  unfold loop at h
  split at h
  · rename_i hf
    obtain rfl : s = s' := by simpa using h
    exact .run hf
  · rename_i hf
    split at h
    · rename_i hr
      exact .follower hf hr h
    · exact hleave (by simp [hf]) h
  · rename_i hf
    split at h
    · rename_i hr
      obtain rfl := Option.some.inj h
      exact .candidate hf hr
    · exact hleave (by simp [hf]) h
  · rename_i hf
    split at h
    · rename_i hr
      exact .leader hf hr h
    · exact hleave (by simp [hf]) h

theorem loop_follower (hf : s.frame = .follower) (hr : s.currentRole = .follower) (timers : Timers n)
    (incoming : Option (Message n)) : s.loop timers incoming = s.followerLoop timers incoming := by
  unfold loop
  simp only [hf, hr, if_true]

theorem loop_leader (hf : s.frame = .leader) (hr : s.currentRole = .leader) (timers : Timers n)
    (incoming : Option (Message n)) : s.loop timers incoming = s.leaderLoop timers incoming := by
  unfold loop
  simp only [hf, hr, if_true]

end RaftNode

end EdgeConsensus.Raft
