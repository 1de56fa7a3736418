import EdgeConsensus.Lib.Replication
import EdgeConsensus.Raft.Spec

/-!
# What a step does to logs and commits

`LogStep` lists everything a step can do to a node's log, its commit index and
the match indices it leads by; `Vouches` says what the sender of an AppendEntries
or Committal message shows for it. `call_records`, `loop_records` and
`clientRequest_records` say that each step is one of the list and sends only what
its node vouches for.
-/

namespace EdgeConsensus.Raft

variable {n : ℕ}

namespace RaftNode

variable {s s' u : RaftNode n}

/-! ## What a sender vouches for -/

/-- A leader offers its entry `e` at `p + 1`, behind `prev`. -/
structure Offers (s : RaftNode n) (m : AppendEntriesMessage n) (p : ℕ) (prev e : Entry) : Prop where
  role : s.currentRole = .leader
  term : m.term = s.currentTerm
  commit : m.leaderCommit ≤ s.commitIndex
  index : m.prevLogIndex = some p
  prevTerm : m.prevLogTerm = some prev.term
  entries : m.entries = some e
  behind : s.log[p]? = some prev
  entry : s.log[p + 1]? = some e

/-- A leader tells that it has committed up to its entry `e` at `i`. -/
structure Tells (s : RaftNode n) (m : AppendEntriesMessage n) (i : ℕ) (e : Entry) : Prop where
  role : s.currentRole = .leader
  term : m.term = s.currentTerm
  index : m.prevLogIndex = some i
  prevTerm : m.prevLogTerm = some e.term
  commit : i ≤ s.commitIndex
  entry : s.log[i]? = some e

/-- What the requests of a leader say is so in state `s` of their sender. -/
def Vouches (s : RaftNode n) : Message n → Prop
  | .requestVotes _ => True
  | .appendEntries m => m.direction = .request →
    (m.type = .appendEntries → ∃ p prev e, s.Offers m p prev e) ∧
      (m.type = .committal → ∃ i e, s.Tells m i e)

/-- In the same leadership, with no less in the log and no less committed. -/
structure Grows (s s' : RaftNode n) : Prop where
  role : s'.currentRole = s.currentRole
  term : s'.currentTerm = s.currentTerm
  myId : s'.myId = s.myId
  commit : s.commitIndex ≤ s'.commitIndex
  log : s.log <+: s'.log

theorem Grows.trans (h : Grows s u) (h' : Grows u s') : Grows s s' :=
  ⟨h'.role.trans h.role, h'.term.trans h.term, h'.myId.trans h.myId,
    le_trans h.commit h'.commit, h.log.trans h'.log⟩

theorem Vouches.grows {m : Message n} (h : s.Vouches m) (hg : Grows s s') : s'.Vouches m := by
  cases m with
  | requestVotes m => trivial
  | appendEntries m =>
    intro hreq
    obtain ⟨hae, hcom⟩ := h hreq
    refine ⟨fun ht => ?_, fun ht => ?_⟩
    · obtain ⟨p, prev, e, ho⟩ := hae ht
      exact ⟨p, prev, e, hg.role.trans ho.role, ho.term.trans hg.term.symm,
        le_trans ho.commit hg.commit, ho.index, ho.prevTerm, ho.entries,
        Lib.getElem?_of_prefix hg.log ho.behind, Lib.getElem?_of_prefix hg.log ho.entry⟩
    · obtain ⟨i, e, ho⟩ := hcom ht
      exact ⟨i, e, hg.role.trans ho.role, ho.term.trans hg.term.symm, ho.index, ho.prevTerm,
        le_trans ho.commit hg.commit, Lib.getElem?_of_prefix hg.log ho.entry⟩

/-! ## The steps -/

/-- The client entries that a leader takes up in a round: that of a ClientRequest,
and the first of its own queue unless the message makes it step down. -/
def taking (s : RaftNode n) (incoming : Option (Message n)) : List Entry :=
  match incoming with
  | none => s.clientQueue.head?.toList
  | some (.requestVotes m) =>
    if m.direction = .request ∧ m.term > s.currentTerm then [] else s.clientQueue.head?.toList
  | some (.appendEntries m) =>
    (if m.direction = .response ∧ m.type = .clientRequest then m.entries.toList else []) ++
      s.clientQueue.head?.toList

/-- In the loop of `_leader`. -/
def presides (s : RaftNode n) : Bool := s.frame = .leader && s.currentRole = .leader

/-- A follower that takes this message appends its entry. -/
def accepts (s : RaftNode n) (m : AppendEntriesMessage n) : Bool :=
  s.frame = .follower && s.currentRole = .follower && m.direction = .request &&
    m.type = .appendEntries && s.currentTerm ≤ m.term &&
    match m.prevLogIndex, m.prevLogTerm with
    | some p, some t => s.verifyEntry p t
    | _, _ => false

/-- A follower that takes this message commits what it says. -/
def obeys (s : RaftNode n) (m : AppendEntriesMessage n) : Bool :=
  s.frame = .follower && s.currentRole = .follower && m.direction = .request &&
    m.type = .committal

/-- The index that a leader taking this message credits to its sender. -/
def credits (s : RaftNode n) (m : AppendEntriesMessage n) : Option ℕ :=
  if s.presides && m.direction = .response && m.type = .acknowledge &&
      m.results.success = some true then
    s.nextIndex m.sender
  else none

/-- The match indices of a leader after the message it takes. -/
inductive Credited (s : RaftNode n) (incoming : Option (Message n)) : (Fin n → ℕ) → Prop
  | same : Credited s incoming s.matchIndex
  | credit {m : AppendEntriesMessage n} {k : ℕ} (recv : incoming = some (.appendEntries m))
      (next : s.credits m = some k) :
      Credited s incoming (Function.update s.matchIndex m.sender k)

/-- The steps of a log; `input` is what the node gets when the step is a round of
its loop. -/
inductive LogStep (input : Option (Option (Message n))) (s s' : RaftNode n) : Prop
  | keep (log : s'.log = s.log) (commit : s'.commitIndex = s.commitIndex)
      (presides : s'.presides = true → s.presides = true ∧ s'.currentTerm = s.currentTerm ∧
        s'.matchIndex = s.matchIndex)
  | call (role : s.currentRole = .leader) (role' : s'.currentRole = .leader)
      (term : s'.currentTerm = s.currentTerm) (log : s'.log = s.log ++ [leaderEntry s.currentTerm])
      (commit : s'.commitIndex = s.commitIndex)
      (matched : ∀ i, s'.matchIndex i = s.commitIndex ∨
        (i = s.myId ∧ s'.matchIndex i + 1 = s'.log.length))
  | lead {incoming : Option (Message n)} {es : List Entry} {M : Fin n → ℕ}
      (round : input = some incoming) (presides : s.presides = true) (grows : Grows s s')
      (log : s'.log = s.log ++ es) (taken : es ⊆ s.taking incoming)
      (credited : Credited s incoming M)
      (matched : ∀ i, s'.matchIndex i = M i ∨ (i = s.myId ∧ s'.matchIndex i + 1 = s'.log.length))
      (commit : s'.commitIndex = s.commitIndex ∨
        (s.commitIndex < s'.commitIndex ∧ s'.commitIndex = maxCommittableIndex M))
  | accept {m : AppendEntriesMessage n} {p t : ℕ} {e : Entry}
      (round : input = some (some (.appendEntries m))) (accepts : s.accepts m = true)
      (index : m.prevLogIndex = some p) (prevTerm : m.prevLogTerm = some t)
      (entries : m.entries = some e) (verified : s.verifyEntry p t = true)
      (log : s'.log = s.log.take (p + 1) ++ [e])
      (commit : s'.commitIndex = if m.leaderCommit > s.commitIndex then p else s.commitIndex)
      (follows : s'.presides = false)
  | committal {m : AppendEntriesMessage n} {i t : ℕ}
      (round : input = some (some (.appendEntries m))) (obeys : s.obeys m = true)
      (index : m.prevLogIndex = some i) (prevTerm : m.prevLogTerm = some t)
      (log : s'.log = s.log) (commit : s'.commitIndex = i) (follows : s'.presides = false)

/-- The step from `s` to `s'` is a log step, and the node vouches for what it sends. -/
def Records (input : Option (Option (Message n))) (s s' : RaftNode n) : Prop :=
  LogStep input s s' ∧ ∃ out, s'.talker = s.talker ++ out ∧ ∀ o ∈ out, s.Vouches o ∨ s'.Vouches o

/-- Publishing what was handed to the talker is no part of the step. -/
theorem LogStep.put {input : Option (Option (Message n))} (h : LogStep input s s') :
    LogStep input s { s' with talker := [] } := by
  cases h with
  | keep log commit presides => exact .keep log commit presides
  | call role role' term log commit matched => exact .call role role' term log commit matched
  | lead round presides grows log taken credited matched commit =>
    exact .lead round presides (grows.trans ⟨rfl, rfl, rfl, le_rfl, List.prefix_rfl⟩) log taken
      credited matched commit
  | accept round accepts index prevTerm entries verified log commit follows =>
    exact .accept round accepts index prevTerm entries verified log commit follows
  | committal round obeys index prevTerm log commit follows =>
    exact .committal round obeys index prevTerm log commit follows

/-! ## Followers and candidates -/

theorem vouches_response {m : AppendEntriesMessage n} (h : m.direction = .response) :
    s.Vouches (.appendEntries m) := fun hreq => by rw [h] at hreq; cases hreq

/-- A node that does not lead leaves log and commit index alone, and what it sends
needs no voucher. -/
structure Idle (s s' : RaftNode n) : Prop where
  log : s'.log = s.log
  commit : s'.commitIndex = s.commitIndex
  frame : s'.frame ≠ .leader
  talker : ∃ out, s'.talker = s.talker ++ out ∧ ∀ o ∈ out, ∀ x : RaftNode n, x.Vouches o

theorem Idle.refl (hf : s.frame ≠ .leader) : Idle s s := ⟨rfl, rfl, hf, [], by simp, by simp⟩

theorem presides_frame (hf : s.frame ≠ .leader) : s.presides = false := by simp [presides, hf]

theorem idle_yieldTo (m : RequestVotesMessage n) : Idle s (s.yieldTo m) :=
  ⟨rfl, rfl, by simp [yieldTo, leave], [_], rfl, by simp [voteMessage, Vouches]⟩

theorem idle_followerRequestVotes (hf : s.frame ≠ .leader) (m : RequestVotesMessage n) :
    Idle s (s.followerRequestVotes m) := by
  rw [followerRequestVotes_eq, raiseTerm_eq]
  exact ⟨rfl, rfl, hf, [_], rfl, by simp [voteMessage, Vouches]⟩

theorem idle_followerHeartbeat (hf : s.frame ≠ .leader) (m : AppendEntriesMessage n) :
    Idle s (s.followerHeartbeat m) := by
  rcases s.followerHeartbeat_cases m with heq | ⟨request, queue, -, -, heq⟩
  · rw [heq, raiseTerm_eq]
    exact ⟨rfl, rfl, hf, [], by simp, by simp⟩
  · rw [heq, raiseTerm_eq]
    refine ⟨rfl, rfl, hf, [_], rfl, ?_⟩
    intro o ho y
    rw [List.mem_singleton.1 ho]
    exact vouches_response rfl

/-- A log step of a node that does not lead. -/
structure Follows (input : Option (Option (Message n))) (s s' : RaftNode n) : Prop where
  step : LogStep input s s'
  frame : s'.frame ≠ .leader
  talker : ∃ out, s'.talker = s.talker ++ out ∧ ∀ o ∈ out, ∀ x : RaftNode n, x.Vouches o

theorem Idle.follows {input : Option (Option (Message n))} (h : Idle s s') : Follows input s s' :=
  ⟨.keep h.log h.commit fun hp => absurd (presides_frame h.frame) (by simp [hp]), h.frame, h.talker⟩

theorem Follows.records {input : Option (Option (Message n))} (h : Follows input s s') :
    Records input s s' := by
  obtain ⟨out, ho, hv⟩ := h.talker
  exact ⟨h.step, out, ho, fun o hmem => Or.inl (hv o hmem s)⟩

/-- The election timer touches neither log nor commit index. -/
theorem Follows.timeout {input : Option (Option (Message n))} (h : Follows input s s')
    (hr : s.currentRole ≠ .leader) : Follows input s (s'.setCurrentRole .candidate).leave := by
  have hf : (s'.setCurrentRole .candidate).leave.presides = false := by simp [presides, leave]
  refine ⟨?_, by simp [leave], h.talker⟩
  cases h.step with
  | keep log commit presides => exact .keep log commit fun hp => by rw [hf] at hp; cases hp
  | call role => exact absurd role hr
  | lead round presides =>
    simp only [RaftNode.presides, Bool.and_eq_true, decide_eq_true_eq] at presides
    exact absurd presides.2 hr
  | accept round accepts index prevTerm entries verified log commit =>
    exact .accept round accepts index prevTerm entries verified log commit hf
  | committal round obeys index prevTerm log commit =>
    exact .committal round obeys index prevTerm log commit hf

theorem follows_followerHandle {m : Message n} (hf : s.frame = .follower)
    (hr : s.currentRole = .follower) (h : s.followerHandle m = some s') :
    Follows (some (some m)) s s' := by
  have hfl : s.frame ≠ .leader := by simp [hf]
  cases followerHandle_cases h with
  | ignore => exact (Idle.refl hfl).follows
  | @requestVotes r direction => exact (idle_followerRequestVotes hfl r).follows
  | @heartbeat r direction type => exact (idle_followerHeartbeat hfl r).follows
  | @appendEntries r _ direction type run =>
    have hack : ∀ (x : RaftNode n) success, ∀ o ∈ [x.acknowledgeMessage r.leaderId success],
        ∀ y : RaftNode n, y.Vouches o := by
      intro x success o ho y
      rw [List.mem_singleton.1 ho]
      exact vouches_response rfl
    rcases followerAppendEntries_cases run with ⟨rfl, -⟩ | ⟨p, t, e, hp, ht, he, hterm, hver, rfl⟩
    · exact Idle.follows ⟨rfl, rfl, hfl, [_], rfl, hack s false⟩
    · have hacc : s.accepts r = true := by
        simp [accepts, hf, hr, direction, type, hterm, hp, ht, hver]
      by_cases hc : r.leaderCommit > s.commitIndex
      · rw [if_pos hc]
        exact ⟨.accept rfl hacc hp ht he hver rfl (if_pos hc).symm (presides_frame hfl), hfl,
          [_], rfl, hack _ true⟩
      · rw [if_neg hc]
        exact ⟨.accept rfl hacc hp ht he hver rfl (if_neg hc).symm (presides_frame hfl), hfl,
          [_], rfl, hack _ true⟩
  | committal direction type index prevTerm =>
    exact ⟨.committal rfl (by simp [obeys, hf, hr, direction, type]) index prevTerm rfl rfl
      (presides_frame hfl), hfl, [], by simp [commitEntry], by simp⟩

theorem follows_followerLoop {timers : Timers n} {incoming : Option (Message n)}
    (hf : s.frame = .follower) (hr : s.currentRole = .follower)
    (h : s.followerLoop timers incoming = some s') : Follows (some incoming) s s' := by
  obtain ⟨u, hu, rfl⟩ := followerLoop_cases h
  have hfollows : Follows (some incoming) s u := by
    cases incoming with
    | none =>
      obtain rfl : s = u := by simpa using hu
      exact (Idle.refl (by simp [hf])).follows
    | some m => exact follows_followerHandle hf hr hu
  split
  · exact hfollows.timeout (by simp [hr])
  · exact hfollows

theorem idle_candidateCall : Idle s s.candidateCall := by
  refine ⟨rfl, rfl, by simp [candidateCall],
    [(s.incrementTerm none).requestVoteMessage,
      (s.incrementTerm none).sendRequestVote.voteMessage s.myId true], ?_, ?_⟩
  · show s.talker ++ _ ++ _ = _
    rw [List.append_assoc]; rfl
  · intro o ho x
    rcases List.mem_cons.1 ho with rfl | ho
    · trivial
    · rw [List.mem_singleton.1 ho]; trivial

theorem idle_candidateVote {v t : ℕ} (m : RequestVotesMessage n) : Idle s (s.candidateVote v t m) := by
  rcases candidateVote_cases (s := s) v t m with h | ⟨votes, h⟩
  · rw [h]
    exact ⟨rfl, rfl, by simp [leave], [], by simp [leave, setCurrentRole], by simp⟩
  · rw [h]
    exact ⟨rfl, rfl, by simp, [], by simp, by simp⟩

theorem idle_candidateHandle {v t : ℕ} {m : Message n} (hf : s.frame ≠ .leader) :
    Idle s (s.candidateHandle v t m) := by
  have hcases := candidateHandle_cases (s := s) v t m
  generalize s.candidateHandle v t m = s' at hcases
  cases hcases with
  | ignore => exact Idle.refl hf
  | vote direction => exact idle_candidateVote _
  | yield direction term => exact idle_yieldTo _
  | heartbeat direction type term =>
    exact ⟨rfl, rfl, by simp [candidateHeartbeat, leave], [],
      by simp [candidateHeartbeat, leave, setCurrentRole, incrementTerm], by simp⟩

theorem idle_candidateLoop {v t : ℕ} {timers : Timers n} {incoming : Option (Message n)}
    (hf : s.frame ≠ .leader) : Idle s (s.candidateLoop v t timers incoming) := by
  have hidle : Idle s (incoming.elim s (s.candidateHandle v t)) := by
    cases incoming with
    | none => exact Idle.refl hf
    | some m => exact idle_candidateHandle hf
  obtain ⟨u, rfl, hlast | ⟨-, -, hlast⟩⟩ := candidateLoop_cases (s := s) v t timers incoming
  · rw [hlast]
    exact hidle
  · rw [hlast]
    exact ⟨hidle.log, hidle.commit, by simp [leave], hidle.talker⟩

/-! ## Leaders -/

theorem vouches_heartbeat : s.Vouches u.heartbeatMessage := by
  refine fun _ => ⟨fun ht => ?_, fun ht => ?_⟩
  · cases ht
  · cases ht

theorem Replicates.vouches {o : Message n} (h : s.Replicates o) (hr : s.currentRole = .leader) :
    s.Vouches o := by
  obtain ⟨k, prev, e, dst, hprev, he, rfl⟩ := h
  refine fun _ => ⟨fun _ => ⟨k, prev, e, hr, rfl, le_rfl, rfl, rfl, rfl, hprev, he⟩, fun ht => ?_⟩
  cases ht

theorem presides_role (hp : s.presides = true) : s.currentRole = .leader := by
  simp only [presides, Bool.and_eq_true, decide_eq_true_eq] at hp
  exact hp.2

/-- A vote request that the node does not yield to brings nothing. -/
theorem taking_requestVotes {m : RequestVotesMessage n} (h : m.direction = .request → m.term ≤ s.currentTerm) :
    s.taking (some (.requestVotes m)) = s.clientQueue.head?.toList := by
  refine if_neg ?_
  rintro ⟨hd, hgt⟩
  exact absurd (h hd) (Nat.not_le.2 hgt)

/-- A leader has appended the entries `es`, and told the others. -/
structure Appends (s s' : RaftNode n) (es : List Entry) : Prop where
  grows : Grows s s'
  log : s'.log = s.log ++ es
  matched : (es = [] ∧ s'.matchIndex = s.matchIndex) ∨
    ∃ j, s'.log.length = j + 1 ∧ s'.matchIndex = Function.update s.matchIndex s.myId j
  commit : s'.commitIndex = s.commitIndex
  talker : ∃ out, s'.talker = s.talker ++ out ∧ ∀ o ∈ out, s'.Vouches o

theorem appends_broadcast {e : Entry} (hr : s.currentRole = .leader)
    (h : s.broadcastAppendEntries e = some s') : Appends s s' [e] := by
  obtain ⟨last, hlast, rfl⟩ := broadcastAppendEntries_eq h
  have hpos : 0 < s.log.length := by
    rw [List.length_pos_iff]
    rintro h0
    rw [h0] at hlast; cases hlast
  rw [List.getLast?_eq_getElem?] at hlast
  refine ⟨⟨rfl, rfl, rfl, le_rfl, List.prefix_append _ _⟩, rfl,
    Or.inr ⟨s.log.length, by simp, rfl⟩, rfl, _, rfl, ?_⟩
  intro o ho
  obtain ⟨i, -, rfl⟩ := List.mem_map.1 ho
  refine fun _ => ⟨fun _ => ⟨s.log.length - 1, last, e, hr, rfl, le_rfl, rfl, rfl, rfl, ?_, ?_⟩, fun ht => ?_⟩
  · exact Lib.getElem?_of_prefix (List.prefix_append _ _) hlast
  · rw [Nat.sub_add_cancel hpos]
    exact List.getElem?_concat_length
  · cases ht

/-- A leader has gone through a round, or a part of it. -/
structure Leads (incoming : Option (Message n)) (s s' : RaftNode n) (es : List Entry)
    (M : Fin n → ℕ) : Prop where
  grows : Grows s s'
  log : s'.log = s.log ++ es
  credited : Credited s incoming M
  matched : (es = [] ∧ s'.matchIndex = M) ∨
    ∃ j, s'.log.length = j + 1 ∧ s'.matchIndex = Function.update M s.myId j
  commit : s'.commitIndex = s.commitIndex ∨
    (s.commitIndex < s'.commitIndex ∧ s'.commitIndex = maxCommittableIndex M)
  talker : ∃ out, s'.talker = s.talker ++ out ∧ ∀ o ∈ out, s'.Vouches o

theorem Leads.refl (incoming : Option (Message n)) (s : RaftNode n) :
    Leads incoming s s [] s.matchIndex :=
  ⟨⟨rfl, rfl, rfl, le_rfl, List.prefix_rfl⟩, by simp, .same, Or.inl ⟨rfl, rfl⟩, Or.inl rfl,
    [], by simp, by simp⟩

theorem Leads.append {incoming : Option (Message n)} {es es' : List Entry} {M : Fin n → ℕ}
    (h : Leads incoming s u es M) (h' : Appends u s' es') : Leads incoming s s' (es ++ es') M := by
  refine ⟨h.grows.trans h'.grows, by rw [h'.log, h.log, List.append_assoc], h.credited, ?_,
    by rw [h'.commit]; exact h.commit, ?_⟩
  · rcases h'.matched with ⟨rfl, hM'⟩ | ⟨j, hj, hM'⟩
    · have hlog : s'.log = u.log := by rw [h'.log, List.append_nil]
      rw [List.append_nil, hM', hlog]
      exact h.matched
    · refine Or.inr ⟨j, hj, ?_⟩
      rw [hM', h.grows.myId]
      rcases h.matched with ⟨-, hM⟩ | ⟨i, -, hM⟩
      · rw [hM]
      · rw [hM, Function.update_idem]
  · obtain ⟨out, ho, hv⟩ := h.talker
    obtain ⟨out', ho', hv'⟩ := h'.talker
    refine ⟨out ++ out', by rw [ho', ho, List.append_assoc], fun o hmem => ?_⟩
    rcases List.mem_append.1 hmem with hm | hm
    · exact (hv o hm).grows h'.grows
    · exact hv' o hm

/-- A round starts with messages that change nothing else. -/
theorem Leads.after {incoming : Option (Message n)} {es : List Entry} {M : Fin n → ℕ}
    {out : List (Message n)} (h : Leads incoming { s with talker := s.talker ++ out } s' es M)
    (hout : ∀ o ∈ out, s.Vouches o) : Leads incoming s s' es M := by
  obtain ⟨hg, hlog, hcredit, hmatch, hcommit, out', ho', hv'⟩ := h
  have hgrows : Grows s s' := ⟨hg.role, hg.term, hg.myId, hg.commit, hg.log⟩
  refine ⟨hgrows, hlog, ?_, hmatch, hcommit, out ++ out', by rw [ho', List.append_assoc], ?_⟩
  · cases hcredit with
    | same => exact .same
    | credit recv next => exact .credit recv next
  · intro o hmem
    rcases List.mem_append.1 hmem with hm | hm
    · exact (hout o hm).grows hgrows
    · exact hv' o hm

theorem leads_acknowledge {m : AppendEntriesMessage n} (hp : s.presides = true)
    (hd : m.direction = .response) (ht : m.type = .acknowledge)
    (h : s.leaderAcknowledge m = some s') :
    ∃ M, Leads (some (.appendEntries m)) s s' [] M ∧ s'.clientQueue = s.clientQueue := by
  have hr := presides_role hp
  rcases leaderAcknowledge_cases h with ⟨-, rfl⟩ | ⟨k, next, out, hk, -, hout, hc⟩
  · exact ⟨_, .refl _ _, rfl⟩
  set M := if m.results.success == some true then Function.update s.matchIndex m.sender k
    else s.matchIndex with hM
  -- match indices change by what the message credits only
  have hcredited : Credited s (some (.appendEntries m)) M := by
    rw [hM]
    split
    · rename_i hs
      refine .credit rfl ?_
      simp only [beq_iff_eq] at hs
      simp [credits, hp, hd, ht, hs, hk]
    · exact .same
  set v : RaftNode n := { s with
    matchIndex := M
    nextIndex := Function.update s.nextIndex m.sender (if next > s.logMaxIndex then none else some next)
    talker := s.talker ++ out } with hv
  have hsv : Grows s v := ⟨rfl, rfl, rfl, le_rfl, List.prefix_rfl⟩
  -- a Committal message names the entry committed, which is in the log
  rcases commitMatched_cases hc with ⟨-, rfl⟩ | ⟨hlt, hc⟩
  · exact ⟨M, ⟨hsv, by simp [hv], hcredited, Or.inl ⟨rfl, rfl⟩, Or.inl rfl, out, rfl,
      fun o ho => ((hout o ho).vouches hr).grows hsv⟩, rfl⟩
  · obtain ⟨e, he, rfl⟩ := broadcastCommmitEntries_eq hc
    have hgrows : Grows s { v.commitEntry (maxCommittableIndex M) e.term with
        talker := v.talker ++ (List.finRange n).map
          (v.commitEntry (maxCommittableIndex M) e.term).committalMessage } :=
      ⟨rfl, rfl, rfl, Nat.le_of_lt hlt, List.prefix_rfl⟩
    refine ⟨M, ⟨hgrows, by simp [commitEntry, hv], hcredited, Or.inl ⟨rfl, rfl⟩, Or.inr ⟨hlt, rfl⟩,
      out ++ _, List.append_assoc _ _ _, ?_⟩, rfl⟩
    intro o hmem
    rcases List.mem_append.1 hmem with ho | ho
    · exact ((hout o ho).vouches hr).grows hgrows
    · obtain ⟨i, -, rfl⟩ := List.mem_map.1 ho
      refine fun _ => ⟨fun hae => ?_, fun _ => ?_⟩
      · cases hae
      · exact ⟨maxCommittableIndex M, e, hr, rfl, rfl, rfl, le_rfl, he⟩

/-- A leader's handling of a message: it stays the leader, or it yields. -/
theorem leads_leaderHandle {m : Message n} (hp : s.presides = true) (h : s.leaderHandle m = some s') :
    (∃ es M, Leads (some m) s s' es M ∧ es ++ s.clientQueue.head?.toList ⊆ s.taking (some m) ∧
        s'.clientQueue = s.clientQueue) ∨
      ∃ r, m = .requestVotes r ∧ s' = s.yieldTo r := by
  have hr := presides_role hp
  cases leaderHandle_cases h with
  | ignoreVotes other => exact Or.inl ⟨[], _, .refl _ _, by simp [taking_requestVotes other], rfl⟩
  | ignoreEntries other => exact Or.inl ⟨[], _, .refl _ _, by simp [taking], rfl⟩
  | acknowledge direction type run =>
    obtain ⟨M, hM, hq⟩ := leads_acknowledge hp direction type run
    exact Or.inl ⟨[], M, hM, by simp [taking], hq⟩
  | @clientRequest m e s' direction type entries run =>
    have happ := (Leads.refl (some (.appendEntries m)) s).append (appends_broadcast hr run)
    obtain ⟨last, -, rfl⟩ := broadcastAppendEntries_eq run
    exact Or.inl ⟨_, _, happ, by simp [taking, direction, type, entries], rfl⟩
  | @yield r direction term => exact Or.inr ⟨r, rfl, rfl⟩

theorem Leads.logStep {incoming : Option (Message n)} {es : List Entry} {M : Fin n → ℕ}
    (h : Leads incoming s s' es M) (hp : s.presides = true) (hes : es ⊆ s.taking incoming) :
    Records (some incoming) s s' := by
  obtain ⟨out, ho, hv⟩ := h.talker
  refine ⟨.lead rfl hp h.grows h.log hes h.credited ?_ h.commit, out, ho, fun o hm => Or.inr (hv o hm)⟩
  intro i
  rcases h.matched with ⟨-, hM⟩ | ⟨j, hj, hM⟩
  · exact Or.inl (by rw [hM])
  · by_cases hi : i = s.myId
    · subst hi
      exact Or.inr ⟨rfl, by rw [hM, Function.update_self, hj]⟩
    · exact Or.inl (by rw [hM, Function.update_of_ne hi])

/-- **A round of a leader is a log step.** -/
theorem records_leaderLoop {timers : Timers n} {incoming : Option (Message n)}
    (hp : s.presides = true) (h : s.leaderLoop timers incoming = some s') :
    Records (some incoming) s s' := by
  have hr := presides_role hp
  obtain ⟨out, v, u, hout, hv, hu, hlast⟩ := leaderLoop_cases h
  have hvouch : ∀ o ∈ out, s.Vouches o := by
    intro o ho
    rcases hout o ho with rfl | hrep
    · exact vouches_heartbeat
    · exact hrep.vouches hr
  have hhandle : (∃ es M, Leads incoming s u es M ∧
      es ++ s.clientQueue.head?.toList ⊆ s.taking incoming ∧ u.clientQueue = s.clientQueue) ∨
      ∃ r, u = v.yieldTo r := by
    subst hv
    cases incoming with
    | none =>
      obtain rfl : { s with talker := s.talker ++ out } = u := by simpa using hu
      exact Or.inl ⟨[], _, (Leads.refl none _).after hvouch, by simp [taking], rfl⟩
    | some m =>
      rcases leads_leaderHandle (by exact hp) hu with ⟨es, M, hL, hsub, hq⟩ | ⟨r, -, hy⟩
      · exact Or.inl ⟨es, M, hL.after hvouch, hsub, hq⟩
      · exact Or.inr ⟨r, hy⟩
  -- a request of its own queue comes behind what the message brought
  rcases hhandle with ⟨es, M, hL, hsub, hq⟩ | ⟨r, rfl⟩
  · rcases hlast with ⟨-, rfl⟩ | ⟨-, hlast⟩
    · exact hL.logStep hp fun e he => hsub (List.mem_append_left _ he)
    · rcases leaderClientRequest_cases hlast with ⟨-, rfl⟩ | ⟨request, queue, hqueue, hlast⟩
      · exact hL.logStep hp fun e he => hsub (List.mem_append_left _ he)
      · rw [← hq, hqueue] at hsub
        have hru : u.currentRole = .leader := hL.grows.role.trans hr
        obtain ⟨hg, hlog, hmatch, hcommit, htalker⟩ :=
          appends_broadcast (s := { u with clientQueue := queue }) hru hlast
        have happ : Appends u s' [request] :=
          ⟨⟨hg.role, hg.term, hg.myId, hg.commit, hg.log⟩, hlog, hmatch, hcommit, htalker⟩
        exact (hL.append happ).logStep hp hsub
  · -- the leader steps down, after what it has sent
    rcases hlast with ⟨-, rfl⟩ | ⟨hrun, -⟩
    · subst hv
      have hp' : (RaftNode.yieldTo { s with talker := s.talker ++ out } r).presides = false :=
        presides_frame (by simp [yieldTo, leave])
      refine ⟨.keep rfl rfl fun hpres => absurd hp' (by simp [hpres]),
        out ++ [_], by rw [← List.append_assoc]; rfl, fun o hmem => Or.inl ?_⟩
      rcases List.mem_append.1 hmem with hm | hm
      · exact hvouch o hm
      · rw [List.mem_singleton.1 hm]; trivial
    · exact absurd rfl hrun

/-! ## The steps of a node -/

theorem records_leaderCall (hr : s.currentRole = .leader) (h : s.leaderCall = some s') :
    Records none s s' := by
  obtain ⟨u, hu, rfl⟩ := leaderCall_cases h
  obtain ⟨hg, hlog, hmatch, hcommit, out, ho, hv⟩ := appends_broadcast (by exact hr) hu
  refine ⟨.call hr (hg.role.trans hr) hg.term hlog hcommit ?_, s.heartbeatMessage :: out, ?_, ?_⟩
  · -- match indices are the commit index at first
    intro i
    rcases hmatch with ⟨-, hM⟩ | ⟨j, hj, hM⟩
    · exact Or.inl (by rw [hM]; rfl)
    · by_cases hi : i = s.myId
      · refine Or.inr ⟨hi, ?_⟩
        rw [hM, hi]
        show Function.update (fun _ => s.commitIndex) s.myId j s.myId + 1 = _
        rw [Function.update_self, hj]
      · refine Or.inl ?_
        rw [hM]
        show Function.update (fun _ => s.commitIndex) s.myId j i = _
        rw [Function.update_of_ne hi]
  · rw [ho]
    simp [takeOver, sendHeartbeat, sendMessage]
  · intro o hmem
    rcases List.mem_cons.1 hmem with rfl | hmem
    · exact Or.inl vouches_heartbeat
    · exact Or.inr ((hv o hmem).grows ⟨rfl, rfl, rfl, le_rfl, List.prefix_rfl⟩)

theorem call_records (hf : s.frame = .run) (h : s.call = some s') : Records none s s' := by
  cases call_cases h with
  | leader role run => exact records_leaderCall role run
  | follower role =>
    have hidle : Idle s { s with frame := .follower } := ⟨rfl, rfl, by simp, [], by simp, by simp⟩
    exact hidle.follows.records
  | candidate role => exact idle_candidateCall.follows.records
  | none role => exact (Idle.refl (by simp [hf])).follows.records

/-- **A round of a loop is a log step.** -/
theorem loop_records {timers : Timers n} {incoming : Option (Message n)}
    (h : s.loop timers incoming = some s') : Records (some incoming) s s' := by
  have hidle : Idle s s.leave := ⟨rfl, rfl, by simp [leave], [], by simp [leave], by simp⟩
  cases loop_cases h with
  | run frame => exact (Idle.refl (by simp [frame])).follows.records
  | leave frame => exact hidle.follows.records
  | follower frame role run => exact (follows_followerLoop frame role run).records
  | candidate frame role => exact (idle_candidateLoop (by simp [frame])).follows.records
  | leader frame role run => exact records_leaderLoop (by simp [presides, frame, role]) run

theorem clientRequest_records (value : Value) (idNum : Key) : Records none s (s.clientRequest value idNum) :=
  ⟨.keep rfl rfl fun hp => ⟨hp, rfl, rfl⟩, [], by simp [clientRequest], by simp⟩

end RaftNode

end EdgeConsensus.Raft
