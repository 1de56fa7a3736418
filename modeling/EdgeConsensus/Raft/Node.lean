import EdgeConsensus.Raft.Protocol
import Mathlib.Data.List.FinRange
import Mathlib.Data.List.Sort
import Mathlib.Logic.Function.Basic

/-!
# One `RaftNode`

`raft.py`, method by method. A method is a function of the node's state; what it
sends is appended to `talker`, the queue of the node's `Talker`.

The thread of a node is in `run` or in the loop of one of the three role
functions (`Frame`). `call` is the part of a role function before its `while`,
`loop` one round of the loop. Real time only decides which timers have run out,
so a round takes that as an input (`Timers`), together with the message that
`_get_message` returned.

`none` as a result stands for a Python exception: a list access out of range, or
an access at a negative index, which the code never means.
-/

namespace EdgeConsensus.Raft

/-- The values of `current_role`. -/
inductive Role
  | follower
  | candidate
  | leader
  | none
  deriving DecidableEq, Repr

/-- Where the thread of the node is; the locals of `_candidate` are its tally. -/
inductive Frame
  | run
  | follower
  | candidate (votesForMe totalVotes : ℕ)
  | leader
  deriving DecidableEq, Repr

/-- Which timers of the node have run out when a loop looks at them. -/
structure Timers (n : ℕ) where
  election : Bool := false
  heartbeat : Bool := false
  resend : Fin n → Bool := fun _ => false

structure RaftNode (n : ℕ) where
  clientQueue : List Entry
  myId : Fin n
  currentRole : Role
  leaderId : Option (Fin n)
  currentTerm : ℕ
  votedFor : Option (Fin n)
  log : List Entry
  logHash : Key → Option Entry
  commitIndex : ℕ
  lastAppliedIndex : ℕ
  lastAppliedTerm : ℕ
  nextIndex : Fin n → Option ℕ
  matchIndex : Fin n → ℕ
  talker : List (Message n)
  frame : Frame

/-- The first entry of every log. -/
def initEntry : Entry := ⟨1, .str "Init Entry", .int (-1)⟩

/-- The entry a new leader of term `t` broadcasts. -/
def leaderEntry (t : ℕ) : Entry := ⟨t, .str "Leader Entry", .int (-1)⟩

namespace RaftNode

variable {n : ℕ}

/-- `__init__`, with the default role. -/
def init (me : Fin n) : RaftNode n where
  clientQueue := []
  myId := me
  currentRole := .follower
  leaderId := none
  currentTerm := 1
  votedFor := none
  log := [initEntry]
  logHash := fun _ => none
  commitIndex := 0
  lastAppliedIndex := 0
  lastAppliedTerm := 1
  nextIndex := fun _ => none
  matchIndex := fun _ => 0
  talker := []
  frame := .run

/-- `client_request`. -/
def clientRequest (s : RaftNode n) (value : Value) (idNum : Key) : RaftNode n :=
  { s with clientQueue := s.clientQueue ++ [⟨s.currentTerm, value, idNum⟩] }

/-- `check_committed_entry`, without an id: the payload at the commit index. -/
def checkCommittedEntry (s : RaftNode n) : Option Value :=
  (s.log[s.commitIndex]?).map Entry.entry

/-- `check_committed_entry` with an id: what `log_hash` holds for it. -/
def checkCommittedEntryId (s : RaftNode n) (idNum : Key) : Option Entry :=
  s.logHash idNum

/-! ## Sending

Each `_send_…` method builds its message from the node's state and hands it to the
talker. -/

def sendMessage (s : RaftNode n) (m : Message n) : RaftNode n :=
  { s with talker := s.talker ++ [m] }

def requestVoteMessage (s : RaftNode n) : Message n :=
  .requestVotes
    { term := s.currentTerm
      sender := s.myId
      receiver := none
      direction := .request
      candidateId := s.myId
      lastLogIndex := s.lastAppliedIndex
      lastLogTerm := s.lastAppliedTerm }

def sendRequestVote (s : RaftNode n) : RaftNode n :=
  s.sendMessage s.requestVoteMessage

def voteMessage (s : RaftNode n) (candidate : Fin n) (voteGranted : Bool) : Message n :=
  .requestVotes
    { term := s.currentTerm
      sender := s.myId
      receiver := some candidate
      direction := .response
      candidateId := candidate
      lastLogIndex := s.lastAppliedIndex
      lastLogTerm := s.lastAppliedTerm
      results := { term := some s.currentTerm, voteGranted := some voteGranted } }

/-- `_send_vote`: whether it grants or refuses, the node has now voted. -/
def sendVote (s : RaftNode n) (candidate : Fin n) (voteGranted : Bool) : RaftNode n :=
  { s.sendMessage (s.voteMessage candidate voteGranted) with votedFor := some candidate }

def heartbeatMessage (s : RaftNode n) : Message n :=
  .appendEntries
    { type := .heartbeat
      term := s.currentTerm
      sender := s.myId
      receiver := none
      direction := .request
      leaderId := some s.myId
      prevLogIndex := none
      prevLogTerm := none
      entries := none
      leaderCommit := s.commitIndex }

def sendHeartbeat (s : RaftNode n) : RaftNode n :=
  s.sendMessage s.heartbeatMessage

def appendEntriesMessage (s : RaftNode n) (index term : ℕ) (entries : Entry) (receiver : Fin n) :
    Message n :=
  .appendEntries
    { type := .appendEntries
      term := s.currentTerm
      sender := s.myId
      receiver := some receiver
      direction := .request
      leaderId := some s.myId
      prevLogIndex := some index
      prevLogTerm := some term
      entries := some entries
      leaderCommit := s.commitIndex }

def sendAppendEntries (s : RaftNode n) (index term : ℕ) (entries : Entry) (receiver : Fin n) :
    RaftNode n :=
  s.sendMessage (s.appendEntriesMessage index term entries receiver)

def committalMessage (s : RaftNode n) (receiver : Fin n) : Message n :=
  .appendEntries
    { type := .committal
      term := s.currentTerm
      sender := s.myId
      receiver := some receiver
      direction := .request
      leaderId := some s.myId
      prevLogIndex := some s.lastAppliedIndex
      prevLogTerm := some s.lastAppliedTerm
      entries := none
      leaderCommit := s.commitIndex }

/-- `_send_committal`; its argument `index` is not used. -/
def sendCommittal (s : RaftNode n) (_index : ℕ) (receiver : Fin n) : RaftNode n :=
  s.sendMessage (s.committalMessage receiver)

def acknowledgeMessage (s : RaftNode n) (receiver : Option (Fin n)) (success : Bool) : Message n :=
  .appendEntries
    { type := .acknowledge
      term := s.currentTerm
      sender := s.myId
      receiver := receiver
      direction := .response
      leaderId := s.leaderId
      prevLogIndex := some s.lastAppliedIndex
      prevLogTerm := some s.lastAppliedTerm
      entries := none
      leaderCommit := s.commitIndex
      results := { term := some s.currentTerm, success := some success } }

def sendAcknowledge (s : RaftNode n) (receiver : Option (Fin n)) (success : Bool) : RaftNode n :=
  s.sendMessage (s.acknowledgeMessage receiver success)

def clientRequestMessage (s : RaftNode n) (receiver : Option (Fin n)) (entry : Entry) : Message n :=
  .appendEntries
    { type := .clientRequest
      term := s.currentTerm
      sender := s.myId
      receiver := receiver
      direction := .response
      leaderId := s.leaderId
      prevLogIndex := some s.lastAppliedIndex
      prevLogTerm := some s.lastAppliedTerm
      entries := some entry
      leaderCommit := s.commitIndex }

def sendClientRequest (s : RaftNode n) (receiver : Option (Fin n)) (entry : Entry) : RaftNode n :=
  s.sendMessage (s.clientRequestMessage receiver entry)

/-! ## Terms and the log -/

/-- `_increment_term`: the given term, or the next one. -/
def incrementTerm (s : RaftNode n) (term : Option ℕ) : RaftNode n :=
  { s with votedFor := none, currentTerm := term.getD (s.currentTerm + 1) }

def setCurrentRole (s : RaftNode n) (role : Role) : RaftNode n :=
  { s with currentRole := role }

/-- `return` from a role function: the thread is back in `run`. -/
def leave (s : RaftNode n) : RaftNode n :=
  { s with frame := .run }

def logMaxIndex (s : RaftNode n) : ℕ := s.log.length - 1

/-- `index - 1`, used as a list index. -/
def before : ℕ → Option ℕ
  | 0 => none
  | k + 1 => some k

def verifyEntry (s : RaftNode n) (prevIndex prevTerm : ℕ) : Bool :=
  if h : s.log.length ≤ prevIndex then false
  else if s.log[prevIndex].term = prevTerm then true
  else false

def commitEntry (s : RaftNode n) (index term : ℕ) : RaftNode n :=
  { s with lastAppliedIndex := index, lastAppliedTerm := term, commitIndex := index }

/-- `_append_entry`: cut after `prevIndex` when it is given, append, maybe commit;
returns the index and the term of the entry before the new one. -/
def appendEntry (s : RaftNode n) (entry : Entry) (commit : Bool) (prevIndex : Option ℕ) :
    Option (RaftNode n × ℕ × ℕ) := do
  let index := prevIndex.getD (s.log.length - 1)
  let log := match prevIndex with
    | none => s.log
    | some p => s.log.take (p + 1)
  let last ← log.getLast?
  let s := { s with log := log ++ [entry], logHash := Function.update s.logHash entry.id (some entry) }
  let s := if commit then s.commitEntry index entry.term else s
  return (s, index, last.term)

/-- The loop body of `_broadcast_append_entries`: only nodes that are up to date
are sent the entry, and they are out of date then. -/
def sendToCurrent (prevIndex prevTerm : ℕ) (entry : Entry) (s : RaftNode n) (node : Fin n) :
    RaftNode n :=
  if s.nextIndex node = none then
    let s := s.sendAppendEntries prevIndex prevTerm entry node
    { s with nextIndex := Function.update s.nextIndex node (some s.logMaxIndex) }
  else s

def broadcastAppendEntries (s : RaftNode n) (entry : Entry) : Option (RaftNode n) := do
  let (s, prevIndex, prevTerm) ← s.appendEntry entry false none
  let s := (List.finRange n).foldl (sendToCurrent prevIndex prevTerm entry) s
  return { s with
    nextIndex := Function.update s.nextIndex s.myId none
    matchIndex := Function.update s.matchIndex s.myId s.logMaxIndex }

/-- The loop body of `_broadcast_commmit_entries`: the loop variable hides the
argument `index`, so the test compares a number with itself. -/
def sendToMatching (s : RaftNode n) (node : Fin n) : RaftNode n :=
  let index := s.matchIndex node
  if index ≥ index then s.sendCommittal index node else s

def broadcastCommmitEntries (s : RaftNode n) (index : ℕ) : Option (RaftNode n) := do
  let e ← s.log[index]?
  return (List.finRange n).foldl sendToMatching (s.commitEntry index e.term)

/-! ## `_follower` -/

/-- A follower's answer to a vote request. -/
def followerRequestVotes (s : RaftNode n) (m : RequestVotesMessage n) : RaftNode n :=
  let s := if m.term > s.currentTerm then s.incrementTerm (some m.term) else s
  -- index and term are compared one by one, not as a pair
  if s.votedFor = none ∧ m.lastLogIndex ≥ s.lastAppliedIndex ∧ m.lastLogTerm ≥ s.lastAppliedTerm then
    s.sendVote m.sender true
  else s.sendVote m.sender false

def followerHeartbeat (s : RaftNode n) (m : AppendEntriesMessage n) : RaftNode n :=
  let s := if m.term > s.currentTerm then s.incrementTerm (some m.term) else s
  let s := { s with leaderId := m.leaderId }
  if s.leaderId ≠ none then
    -- one request is forwarded for each heartbeat
    match s.clientQueue with
    | [] => s
    | request :: queue => { s with clientQueue := queue }.sendClientRequest m.leaderId request
  else s

def followerAppendEntries (s : RaftNode n) (m : AppendEntriesMessage n) : Option (RaftNode n) := do
  if m.term < s.currentTerm then
    return s.sendAcknowledge m.leaderId false
  -- from here on the term is at least the node's, and is not adopted
  let prevIndex ← m.prevLogIndex
  let prevTerm ← m.prevLogTerm
  if !s.verifyEntry prevIndex prevTerm then
    return s.sendAcknowledge m.leaderId false
  let entry ← m.entries
  let (s, _) ← s.appendEntry entry (decide (m.leaderCommit > s.commitIndex)) (some prevIndex)
  return s.sendAcknowledge m.leaderId true

def followerCommittal (s : RaftNode n) (m : AppendEntriesMessage n) : Option (RaftNode n) := do
  return s.commitEntry (← m.prevLogIndex) (← m.prevLogTerm)

/-- Followers only handle requests. -/
def followerHandle (s : RaftNode n) (m : Message n) : Option (RaftNode n) :=
  match m.direction with
  | .response => some s
  | .request =>
    match m with
    | .requestVotes m => some (s.followerRequestVotes m)
    | .appendEntries m =>
      match m.type with
      | .heartbeat => some (s.followerHeartbeat m)
      | .appendEntries => s.followerAppendEntries m
      | .committal => s.followerCommittal m
      | _ => some s

/-- One round of `_follower`. -/
def followerLoop (s : RaftNode n) (timers : Timers n) (incoming : Option (Message n)) :
    Option (RaftNode n) := do
  let s ← incoming.elim (some s) s.followerHandle
  return if timers.election then (s.setCurrentRole .candidate).leave else s

/-! ## `_candidate` -/

/-- `_candidate` before its loop: a new term, a request for votes, a vote for itself. -/
def candidateCall (s : RaftNode n) : RaftNode n :=
  { (s.incrementTerm none).sendRequestVote.sendVote s.myId true with frame := .candidate 0 0 }

/-- The tally looks at `vote_granted` only. -/
def candidateVote (s : RaftNode n) (votesForMe totalVotes : ℕ) (m : RequestVotesMessage n) :
    RaftNode n :=
  let votes := if m.results.voteGranted = some true then votesForMe + 1 else votesForMe
  if votes > n / 2 ∨ n = 1 then (s.setCurrentRole .leader).leave
  else { s with frame := .candidate votes (totalVotes + 1) }

/-- Candidates and leaders vote for whoever asks with a higher term. -/
def yieldTo (s : RaftNode n) (m : RequestVotesMessage n) : RaftNode n :=
  (((s.incrementTerm (some m.term)).sendVote m.sender true).setCurrentRole .follower).leave

def candidateHeartbeat (s : RaftNode n) (m : AppendEntriesMessage n) : RaftNode n :=
  ({ s.incrementTerm (some m.term) with leaderId := m.leaderId }.setCurrentRole .follower).leave

def candidateHandle (s : RaftNode n) (votesForMe totalVotes : ℕ) (m : Message n) : RaftNode n :=
  match m.direction, m with
  | .response, .requestVotes m => s.candidateVote votesForMe totalVotes m
  | .request, .requestVotes m => if m.term > s.currentTerm then s.yieldTo m else s
  | .request, .appendEntries m =>
    if m.type = .heartbeat ∧ m.term ≥ s.currentTerm then s.candidateHeartbeat m else s
  | .response, .appendEntries _ => s

/-- One round of `_candidate`; a handler that left the function skips the timer. -/
def candidateLoop (s : RaftNode n) (votesForMe totalVotes : ℕ) (timers : Timers n)
    (incoming : Option (Message n)) : RaftNode n :=
  let s := incoming.elim s (s.candidateHandle votesForMe totalVotes)
  if s.frame = .run then s
  else if timers.election then (s.setCurrentRole .candidate).leave
  else s

/-! ## `_leader` -/

/-- `_leader` before its loop. -/
def leaderCall (s : RaftNode n) : Option (RaftNode n) := do
  let s := s.sendHeartbeat
  -- the match indices start at the commit index, not at 0
  let s := { s with
    leaderId := some s.myId
    matchIndex := fun _ => s.commitIndex
    nextIndex := fun _ => none }
  let s ← s.broadcastAppendEntries (leaderEntry s.currentTerm)
  return { s with frame := .leader }

/-- The resend of the most recent append entries to a node that is behind. -/
def resend (timers : Timers n) (s : RaftNode n) (node : Fin n) : Option (RaftNode n) :=
  match s.nextIndex node with
  | none => some s
  | some index =>
    if timers.resend node then do
      let prev ← before index
      return s.sendAppendEntries prev (← s.log[prev]?).term (← s.log[index]?) node
    else some s

/-- The 'committable' index: the last of the sorted match indices that enough
match indices reach. -/
def maxCommittableIndex (matchIndex : Fin n → ℕ) : ℕ :=
  let logLengths := ((List.finRange n).map matchIndex).insertionSort (· ≥ ·)
  logLengths.foldl (fun maxCommittable index =>
    if logLengths.countP (fun i => index ≤ i) ≥ n / 2 + 1 then index else maxCommittable) 0

/-- The step of `next_index` on an acknowledgement: up on success, down (but not
below 1) on refusal. -/
def ackIndex (s : RaftNode n) (node : Fin n) (next : ℕ) (success : Bool) :
    Option (RaftNode n × ℕ) :=
  if success then
    some ({ s with
      matchIndex := Function.update s.matchIndex node next
      nextIndex := Function.update s.nextIndex node (some (next + 1)) }, next + 1)
  else if next ≠ 1 then do
    let prev ← before next
    return ({ s with nextIndex := Function.update s.nextIndex node (some prev) }, prev)
  else some (s, next)

/-- Are there more entries to send to bring this node up to date? -/
def sendNext (s : RaftNode n) (node : Fin n) (next : ℕ) : Option (RaftNode n) :=
  if next > s.logMaxIndex then
    some { s with nextIndex := Function.update s.nextIndex node none }
  else do
    let prev ← before next
    return s.sendAppendEntries prev (← s.log[prev]?).term (← s.log[next]?) node

/-- Commit the committable index if it is new. -/
def commitMatched (s : RaftNode n) : Option (RaftNode n) :=
  if maxCommittableIndex s.matchIndex > s.commitIndex then
    s.broadcastCommmitEntries (maxCommittableIndex s.matchIndex)
  else some s

def leaderAcknowledge (s : RaftNode n) (m : AppendEntriesMessage n) : Option (RaftNode n) :=
  match s.nextIndex m.sender with
  | none => some s
  | some next => do
    -- the acknowledgement names no index: `next` stands for it
    let (s, next) ← s.ackIndex m.sender next (m.results.success == some true)
    let s ← s.sendNext m.sender next
    s.commitMatched

def leaderHandle (s : RaftNode n) (m : Message n) : Option (RaftNode n) :=
  match m.direction, m with
  | .response, .appendEntries m =>
    match m.type with
    | .acknowledge => s.leaderAcknowledge m
    -- the entry keeps the term of the node that forwards it
    | .clientRequest => do s.broadcastAppendEntries (← m.entries)
    | _ => some s
  | .request, .requestVotes m => some (if m.term > s.currentTerm then s.yieldTo m else s)
  | _, _ => some s

/-- Get any pending client request. -/
def leaderClientRequest (s : RaftNode n) : Option (RaftNode n) :=
  match s.clientQueue with
  | [] => some s
  | request :: queue => { s with clientQueue := queue }.broadcastAppendEntries request

/-- One round of `_leader`. -/
def leaderLoop (s : RaftNode n) (timers : Timers n) (incoming : Option (Message n)) :
    Option (RaftNode n) := do
  let s := if timers.heartbeat then s.sendHeartbeat else s
  let s ← (List.finRange n).foldlM (resend timers) s
  let s ← incoming.elim (some s) s.leaderHandle
  -- a leader that has yielded is out of the loop
  if s.frame = .run then return s
  s.leaderClientRequest

/-! ## `run` -/

/-- `run` calls the function of the node's role. -/
def call (s : RaftNode n) : Option (RaftNode n) :=
  match s.currentRole with
  | .leader => s.leaderCall
  | .follower => some { s with frame := .follower }
  | .candidate => some s.candidateCall
  | .none => some s

/-- One round of the loop the thread is in, left when the role is another one. -/
def loop (s : RaftNode n) (timers : Timers n) (incoming : Option (Message n)) :
    Option (RaftNode n) :=
  match s.frame with
  | .run => some s
  | .follower => if s.currentRole = .follower then s.followerLoop timers incoming else some s.leave
  | .candidate votesForMe totalVotes =>
    if s.currentRole = .candidate then some (s.candidateLoop votesForMe totalVotes timers incoming)
    else some s.leave
  | .leader => if s.currentRole = .leader then s.leaderLoop timers incoming else some s.leave

end RaftNode

end EdgeConsensus.Raft
