import EdgeConsensus.Raft.Pause
import EdgeConsensus.Raft.Refusal

/-!
# Requests of a higher term

A vote request of a higher term is heeded in every role. A heartbeat of one is not heeded
by a leader, and AppendEntries and Committal messages by nobody: `higher_term_adopted`
goes through the roles and messages. So a leader that hears of a newer one goes on
leading: `leader_hears_leader`.
-/

namespace EdgeConsensus.Raft

variable {n : ℕ}

/-- The requests of the source: that of a candidate for votes, and the three of a leader. -/
def Message.isRequest : Message n → Bool
  | .requestVotes m => m.direction = .request
  | .appendEntries m =>
    m.direction = .request && (m.type = .heartbeat || m.type = .appendEntries || m.type = .committal)

/-- **The node that is in `s'` has heeded the term of the message**: it is in that term or a later one,
and neither campaigns nor leads, unless its own election timer has run out. -/
structure HigherTermAdopted (m : Message n) (timers : Timers n) (s' : RaftNode n) : Prop where
  term : m.term ≤ s'.currentTerm
  role : timers.election = false → s'.currentRole ≠ .candidate ∧ s'.currentRole ≠ .leader

/-- The requests that are heeded in a role. -/
def heeded (role : Role) (m : Message n) : Prop :=
  m.type = .requestVotes ∨ (m.type = .heartbeat ∧ role ≠ .leader)

namespace RaftNode

variable {s s' : RaftNode n} {timers : Timers n} {m : Message n}

/-- A round that leaves the term as it was has not heeded the message. -/
theorem not_adopted (hterm : m.term > s.currentTerm) (h : s'.currentTerm = s.currentTerm) :
    ¬ HigherTermAdopted m timers s' := by
  intro hadopted
  have hle := hadopted.term
  omega

theorem adopted_of_follower (hterm : m.term ≤ s'.currentTerm) (hrole : s'.currentRole = .follower) :
    HigherTermAdopted m timers s' := by
  refine ⟨hterm, fun _ => ?_⟩
  rw [hrole]
  exact ⟨by decide, by decide⟩

/-- What comes after a follower's handling of a message: nothing, or its election timer. -/
theorem adopted_followerLoop {incoming : Option (Message n)} {u : RaftNode n}
    (hu : incoming.elim (some s) s.followerHandle = some u)
    (h : s.followerLoop timers incoming = some s') (hrole : u.currentRole = .follower) :
    HigherTermAdopted m timers s' ↔ m.term ≤ u.currentTerm := by
  obtain ⟨u', hu', rfl⟩ := followerLoop_cases h
  obtain rfl : u = u' := Option.some.inj (hu.symm.trans hu')
  constructor
  · intro hadopted
    have hle := hadopted.term
    split at hle
    · exact hle
    · exact hle
  · intro hle
    split
    · rename_i helection
      exact ⟨hle, fun hnot => absurd helection (by simp [hnot])⟩
    · exact adopted_of_follower hle hrole

theorem followerRequestVotes_role (r : RequestVotesMessage n) :
    (s.followerRequestVotes r).currentRole = s.currentRole := by
  rw [followerRequestVotes_eq, raiseTerm_eq]
  rfl

/-- A follower adopts the higher term of a heartbeat. -/
theorem followerHeartbeat_term (r : AppendEntriesMessage n) (hterm : r.term > s.currentTerm) :
    (s.followerHeartbeat r).currentTerm = r.term ∧ (s.followerHeartbeat r).currentRole = s.currentRole := by
  have hquiet := quiet_followerHeartbeat (s := s) r
  rw [raiseTerm_eq] at hquiet
  exact ⟨hquiet.term.trans (max_eq_right (Nat.le_of_lt hterm)), hquiet.role⟩

/-! ## The three loops -/

theorem adopted_follower (hf : s.frame = .follower) (hr : s.currentRole = .follower)
    (hrequest : m.isRequest = true) (hterm : m.term > s.currentTerm)
    (h : s.loop timers (some m) = some s') :
    HigherTermAdopted m timers s' ↔ heeded .follower m := by
  rw [loop_follower hf hr] at h
  obtain ⟨u, hu, -⟩ := followerLoop_cases h
  have hhandle : s.followerHandle m = some u := hu
  cases m with
  | requestVotes r =>
    have hd : r.direction = .request := by simpa [Message.isRequest] using hrequest
    obtain rfl : s.followerRequestVotes r = u := by
      unfold followerHandle at hhandle
      simpa [Message.direction, Message.base, hd] using hhandle
    obtain ⟨-, hmax, -⟩ := followerRequestVotes_cases hf hr hd
    rw [adopted_followerLoop hu h ((followerRequestVotes_role r).trans hr)]
    have hle : (Message.requestVotes r).term ≤ (s.followerRequestVotes r).currentTerm := by
      rw [hmax]
      exact le_max_right _ _
    exact iff_of_true hle (Or.inl rfl)
  | appendEntries r =>
    simp only [Message.isRequest, Bool.and_eq_true, Bool.or_eq_true, decide_eq_true_eq] at hrequest
    obtain ⟨hd, (ht | ht) | ht⟩ := hrequest
    · -- a heartbeat: its term is adopted
      obtain rfl : s.followerHeartbeat r = u := by
        unfold followerHandle at hhandle
        simpa [Message.direction, Message.base, hd, ht] using hhandle
      obtain ⟨hnew, hrole⟩ := followerHeartbeat_term r hterm
      rw [adopted_followerLoop hu h (hrole.trans hr), hnew]
      exact iff_of_true le_rfl (Or.inr ⟨ht, by decide⟩)
    · -- an entry: the term is only compared
      have hquiet : Quiet s u := by
        unfold followerHandle at hhandle
        simp only [Message.direction, Message.base, hd, ht] at hhandle
        exact quiet_followerAppendEntries hhandle
      rw [adopted_followerLoop hu h (hquiet.role.trans hr), hquiet.term]
      refine iff_of_false (by omega) ?_
      simp [heeded, Message.type, ht]
    · -- a commit: the term is not looked at
      have hquiet : Quiet s u := by
        cases followerHandle_cases hhandle with
        | ignore => exact Quiet.refl s
        | heartbeat direction type => rw [type] at ht; cases ht
        | appendEntries direction type run => rw [type] at ht; cases ht
        | committal direction type index prevTerm => exact quiet_commitEntry _ _
      rw [adopted_followerLoop hu h (hquiet.role.trans hr), hquiet.term]
      refine iff_of_false (by omega) ?_
      simp [heeded, Message.type, ht]

theorem adopted_candidate {votesForMe totalVotes : ℕ} (hrequest : m.isRequest = true)
    (hterm : m.term > s.currentTerm) :
    HigherTermAdopted m timers (s.candidateLoop votesForMe totalVotes timers (some m)) ↔
      heeded .candidate m := by
  obtain ⟨u, hu, hlast⟩ := candidateLoop_cases (s := s) votesForMe totalVotes timers (some m)
  have hu' : u = s.candidateHandle votesForMe totalVotes m := hu
  cases m with
  | requestVotes r =>
    have hd : r.direction = .request := by simpa [Message.isRequest] using hrequest
    have hgt : r.term > s.currentTerm := hterm
    have hyield : u = s.yieldTo r := by
      rw [hu']
      unfold candidateHandle
      simp [Message.direction, Message.base, hd, hgt]
    -- a candidate that yields is out of its loop, so no timer is looked at
    rcases hlast with hlast | ⟨hrun, -, -⟩
    · rw [hlast, hyield]
      exact iff_of_true (adopted_of_follower le_rfl rfl) (Or.inl rfl)
    · exact absurd (by rw [hyield]; rfl) hrun
  | appendEntries r =>
    simp only [Message.isRequest, Bool.and_eq_true, Bool.or_eq_true, decide_eq_true_eq] at hrequest
    obtain ⟨hd, htype⟩ := hrequest
    have hge : r.term ≥ s.currentTerm := Nat.le_of_lt hterm
    by_cases ht : r.type = .heartbeat
    · have hdown : u = s.candidateHeartbeat r := by
        rw [hu']
        unfold candidateHandle
        simp [Message.direction, Message.base, hd, ht, hge]
      rcases hlast with hlast | ⟨hrun, -, -⟩
      · rw [hlast, hdown]
        exact iff_of_true (adopted_of_follower le_rfl rfl) (Or.inr ⟨ht, by decide⟩)
      · exact absurd (by rw [hdown]; rfl) hrun
    · -- there is no branch for the other two
      have hsame : u = s := by
        rw [hu']
        unfold candidateHandle
        simp [Message.direction, Message.base, hd, ht]
      have hkept : (s.candidateLoop votesForMe totalVotes timers (some (.appendEntries r))).currentTerm =
          s.currentTerm := by
        rcases hlast with hlast | ⟨-, -, hlast⟩
        · rw [hlast, hsame]
        · rw [hlast, hsame]
          rfl
      refine iff_of_false (not_adopted hterm hkept) ?_
      rcases htype with (h | h) | h
      · exact absurd h ht
      · simp [heeded, Message.type, h]
      · simp [heeded, Message.type, h]

theorem adopted_leader (hrequest : m.isRequest = true) (hterm : m.term > s.currentTerm)
    (h : s.leaderLoop timers (some m) = some s') :
    HigherTermAdopted m timers s' ↔ heeded .leader m := by
  obtain ⟨out, v, u, -, hv, hu, hlast⟩ := leaderLoop_cases h
  have hhandle : v.leaderHandle m = some u := hu
  have hvterm : v.currentTerm = s.currentTerm := by rw [hv]
  cases m with
  | requestVotes r =>
    have hd : r.direction = .request := by simpa [Message.isRequest] using hrequest
    have hgt : r.term > v.currentTerm := by rw [hvterm]; exact hterm
    obtain rfl : v.yieldTo r = u := by
      unfold leaderHandle at hhandle
      simpa [Message.direction, Message.base, hd, hgt] using hhandle
    rcases hlast with ⟨-, rfl⟩ | ⟨hrun, -⟩
    · exact iff_of_true (adopted_of_follower le_rfl rfl) (Or.inl rfl)
    · exact absurd rfl hrun
  | appendEntries r =>
    simp only [Message.isRequest, Bool.and_eq_true, Bool.or_eq_true, decide_eq_true_eq] at hrequest
    obtain ⟨hd, htype⟩ := hrequest
    -- there is no branch for any of the three
    obtain rfl : v = u := by
      unfold leaderHandle at hhandle
      simpa [Message.direction, Message.base, hd] using hhandle
    have hkept : s'.currentTerm = s.currentTerm := by
      rcases hlast with ⟨-, rfl⟩ | ⟨-, hlast⟩
      · exact hvterm
      · exact (quiet_leaderClientRequest hlast).term.trans hvterm
    refine iff_of_false (not_adopted hterm hkept) ?_
    rcases htype with (h | h) | h
    · simp [heeded, Message.type, h]
    · simp [heeded, Message.type, h]
    · simp [heeded, Message.type, h]

end RaftNode

/-- **A higher term is heeded in exactly two cases**: the request is one for votes, or a heartbeat that
comes to a follower or a candidate. A node handles what the others send without an exception. -/
theorem higher_term_adopted (s : RaftNode n) (timers : Timers n) (m : Message n)
    (hrole : s.frame.role = some s.currentRole) (hrequest : m.isRequest = true) (hterm : m.term > s.currentTerm) :
    ((s.currentRole = .leader → s.Tracks) → m.Complete →
        ∃ s', s.loop timers (some m) = some s') ∧
      ∀ s', s.loop timers (some m) = some s' →
        (HigherTermAdopted m timers s' ↔ heeded s.currentRole m) := by
  cases hf : s.frame with
  | run =>
    rw [hf] at hrole
    cases hrole
  | follower =>
    rw [hf] at hrole
    have hr : s.currentRole = .follower := (Option.some.inj hrole).symm
    refine ⟨fun _ hcomplete => ?_, fun s' h => ?_⟩
    · rw [RaftNode.loop_follower hf hr]
      exact RaftNode.followerLoop_returns fun m' hm' => Option.some.inj hm' ▸ hcomplete
    · rw [hr]
      exact RaftNode.adopted_follower hf hr hrequest hterm h
  | candidate votesForMe totalVotes =>
    rw [hf] at hrole
    have hr : s.currentRole = .candidate := (Option.some.inj hrole).symm
    have hloop : s.loop timers (some m) = some (s.candidateLoop votesForMe totalVotes timers (some m)) := by
      unfold RaftNode.loop
      simp only [hf, hr, if_true]
    refine ⟨fun _ _ => ⟨_, hloop⟩, fun s' h => ?_⟩
    obtain rfl := Option.some.inj (hloop.symm.trans h)
    rw [hr]
    exact RaftNode.adopted_candidate hrequest hterm
  | leader =>
    rw [hf] at hrole
    have hr : s.currentRole = .leader := (Option.some.inj hrole).symm
    refine ⟨fun htracks hcomplete => ?_, fun s' h => ?_⟩
    · rw [RaftNode.loop_leader hf hr]
      have hcomplete' : ∀ m', some m = some m' → m'.Complete := fun m' hm' => Option.some.inj hm' ▸ hcomplete
      obtain ⟨s', hs', -⟩ : ∃ s', s.leaderLoop timers (some m) = some s' ∧ _ := (htracks hr).loop hcomplete'
      exact ⟨s', hs'⟩
    · rw [RaftNode.loop_leader hf hr] at h
      rw [hr]
      exact RaftNode.adopted_leader hrequest hterm h

/-- Node 0 of three is elected in term 2 by node 1, and node 1 in term 3 by node 2; its vote request to
node 0 has been delayed. -/
def twoTerms : List (Event 3) :=
  [.call 0, .timeout 0, .call 0, .call 1, .take 1 0 0, .take 0 0 1, .take 0 1 0, .call 0,
    .timeout 1, .call 1, .call 2, .take 2 1 0, .take 1 1 1, .take 1 2 0, .call 1]

/-- The request of node 1 for votes, and its first heartbeat. -/
def newRequest : RequestVotesMessage 3 where
  term := 3
  sender := 1
  receiver := none
  direction := .request
  candidateId := 1
  lastLogIndex := 0
  lastLogTerm := 1

def newHeartbeat : AppendEntriesMessage 3 where
  type := .heartbeat
  term := 3
  sender := 1
  receiver := none
  direction := .request
  leaderId := some 1
  prevLogIndex := none
  prevLogTerm := none
  entries := none
  leaderCommit := 0

set_option maxRecDepth 10000 in
theorem higher_term_adopted_newRequest :
    .requestVotes newRequest ∈ (wAt twoTerms 15).chan 1 0 ∧
      ∃ s', ((wAt twoTerms 15).node 0).loop {} (some (.requestVotes newRequest)) = some s' ∧
        HigherTermAdopted (.requestVotes newRequest) {} s' := by
  refine ⟨by decide, ?_⟩
  have hrole : ((wAt twoTerms 15).node 0).frame.role = some ((wAt twoTerms 15).node 0).currentRole := by
    decide
  have hleads : ((wAt twoTerms 15).node 0).presides = true := by decide
  obtain ⟨hreturns, hiff⟩ := higher_term_adopted ((wAt twoTerms 15).node 0) {} (.requestVotes newRequest)
    hrole (by decide) (by decide)
  obtain ⟨s', hs'⟩ := hreturns (fun _ => (tracked_wAt twoTerms 15).tracks 0 hleads) trivial
  exact ⟨s', hs', (hiff s' hs').2 (Or.inl rfl)⟩

set_option maxRecDepth 10000 in
/-- **A leader that hears of a newer leader goes on leading**, in its old term. -/
theorem leader_hears_leader :
    .appendEntries newHeartbeat ∈ (wAt twoTerms 15).chan 1 0 ∧
      ((wAt twoTerms 15).node 0).presides = true ∧ ((wAt twoTerms 15).node 0).currentTerm = 2 ∧
      ((wAt twoTerms 15).node 1).presides = true ∧ ((wAt twoTerms 15).node 1).currentTerm = 3 ∧
      ∃ s', ((wAt twoTerms 15).node 0).loop {} (some (.appendEntries newHeartbeat)) = some s' ∧
        ¬ HigherTermAdopted (.appendEntries newHeartbeat) {} s' := by
  refine ⟨by decide, by decide, by decide, by decide, by decide, ?_⟩
  have hterm : ∀ u ∈ ((wAt twoTerms 15).node 0).loop {} (some (.appendEntries newHeartbeat)),
      u.currentTerm = 2 := by decide
  have hsome : (((wAt twoTerms 15).node 0).loop {} (some (.appendEntries newHeartbeat))).isSome = true := by
    decide
  obtain ⟨s', hs'⟩ := Option.isSome_iff_exists.1 hsome
  refine ⟨s', hs', fun hadopted => ?_⟩
  have hle : 3 ≤ s'.currentTerm := hadopted.term
  rw [hterm s' hs'] at hle
  omega

end EdgeConsensus.Raft
