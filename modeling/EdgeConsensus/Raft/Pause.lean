import EdgeConsensus.Raft.Ballot
import EdgeConsensus.Raft.Requests

/-!
# `pause` against the node's thread

One node, and the two threads that write its `current_role`: its own, in `run` and the
loops of the three role functions, and a client's, in `pause` and `un_pause`. A step is
one critical section of `client_lock`, or the code up to the next one. What comes from
the listener is any message at any time.

* `round_eq_loop`, `run_eq_call`: without a client, the steps are the events of the cluster.
* `pause_holds`: a node stays paused, and then a follower, as long as no pause lands
  between the check of a round of a loop and what that round writes.
* `candidate_while_paused`: a run where one does.
-/

namespace EdgeConsensus.Raft

variable {n : ℕ}

/-- Where the client's thread is: not in a call, or in `un_pause`, which has seen that the
role is 'none'. -/
inductive ClientPoint
  | idle
  | unPausing
  deriving DecidableEq, Repr

/-- Where the node's thread is: at a test of `run`, at the call of a role function, at the
check of a loop, in a round behind that check, or at the `_set_current_role` of a round. -/
inductive ThreadPoint
  | testLeader
  | testFollower
  | testCandidate
  | call (role : Role)
  | check
  | round
  | set (role : Role)
  | dead
  deriving DecidableEq, Repr

/-- Behind the check of a loop: in a round, or at what it writes. -/
def ThreadPoint.inRound : ThreadPoint → Bool
  | .round => true
  | .set _ => true
  | _ => false

structure Threads (n : ℕ) where
  node : RaftNode n
  thread : ThreadPoint
  client : ClientPoint

inductive Action (n : ℕ)
  | pause
  | unPause
  | resume
  | clientRequest (value : Value) (idNum : Key)
  | thread (timers : Timers n) (incoming : Option (Message n))

/-- The role whose loop this is. -/
def Frame.role : Frame → Option Role
  | .run => none
  | .follower => some .follower
  | .candidate _ _ => some .candidate
  | .leader => some .leader

namespace RaftNode

/-- The code of a role function before its loop. -/
def enter (s : RaftNode n) : Role → Option (RaftNode n)
  | .leader => s.leaderCall
  | .follower => some { s with frame := .follower }
  | .candidate => some s.candidateCall
  | .none => some s

/-- A round of the loop the thread is in, behind its check. -/
def round (s : RaftNode n) (timers : Timers n) (incoming : Option (Message n)) :
    Option (RaftNode n) :=
  match s.frame with
  | .run => some s
  | .follower => s.followerLoop timers incoming
  | .candidate votesForMe totalVotes => some (s.candidateLoop votesForMe totalVotes timers incoming)
  | .leader => s.leaderLoop timers incoming

end RaftNode

namespace Threads

/-- After `__init__` and the backoff of `run`. -/
def init (me : Fin n) : Threads n := ⟨RaftNode.init me, .testLeader, .idle⟩

/-- The tests of `run` in their order, the next one if this one fails. -/
def test (w : Threads n) (role : Role) (next : ThreadPoint) : Threads n :=
  { w with thread := if w.node.currentRole = role then .call role else next }

def threadStep (w : Threads n) (timers : Timers n) (incoming : Option (Message n)) : Threads n :=
  match w.thread with
  | .testLeader => w.test .leader .testFollower
  | .testFollower => w.test .follower .testCandidate
  | .testCandidate => w.test .candidate .testLeader
  | .call role =>
    match w.node.enter role with
    | none => { w with thread := .dead }
    | some s => { w with node := s, thread := .check }
  | .check =>
    if w.node.frame.role = some w.node.currentRole then { w with thread := .round }
    else { w with node := w.node.leave, thread := .testLeader }
  | .round =>
    match w.node.round timers incoming with
    | none => { w with thread := .dead }
    | some s =>
      if s.frame = .run then
        -- the round is at its `_set_current_role`, and has done all the rest
        { w with
          node := { s with currentRole := w.node.currentRole, frame := w.node.frame }
          thread := .set s.currentRole }
      else { w with node := s, thread := .check }
  | .set role => { w with node := (w.node.setCurrentRole role).leave, thread := .testLeader }
  | .dead => w

def step (w : Threads n) : Action n → Threads n
  | .pause => if w.client = .idle then { w with node := w.node.setCurrentRole .none } else w
  | .unPause =>
    if w.client = .idle ∧ w.node.currentRole = .none then { w with client := .unPausing } else w
  | .resume =>
    if w.client = .unPausing then { w with node := w.node.setCurrentRole .follower, client := .idle }
    else w
  | .clientRequest value idNum =>
    if w.client = .idle then { w with node := w.node.clientRequest value idNum } else w
  | .thread timers incoming => w.threadStep timers incoming

/-! ## What an action is -/

/-- `pause` sets the role, and returns. -/
def pauses (w : Threads n) : Action n → Bool
  | .pause => w.client = .idle
  | _ => false

/-- `un_pause` is called, and checks the role. -/
def callsUnPause (w : Threads n) : Action n → Bool
  | .unPause => w.client = .idle
  | _ => false

/-- `un_pause` has found the node paused; it sets the role, and returns. -/
def unPauses (w : Threads n) : Action n → Bool
  | .resume => w.client = .unPausing
  | _ => false

/-- The node's thread is at the check of a loop, and stays in the loop. -/
def checks (w : Threads n) : Action n → Bool
  | .thread _ _ => w.thread = .check && w.node.frame.role = some w.node.currentRole
  | _ => false

/-- The node's thread sets the role. -/
def sets (w : Threads n) : Action n → Bool
  | .thread _ _ => match w.thread with
    | .set _ => true
    | _ => false
  | _ => false

end Threads

/-! ## What a round does to the role -/

namespace RaftNode

variable {s s' : RaftNode n} {timers : Timers n} {incoming : Option (Message n)}

/-- A round stays in its loop, with its role, or it leaves the loop with a role that takes
part in the protocol. -/
def KeepsOrLeaves (s s' : RaftNode n) : Prop :=
  (s'.frame ≠ .run ∧ s'.currentRole = s.currentRole) ∨ (s'.frame = .run ∧ s'.currentRole ≠ .none)

theorem keeps (hf : s.frame ≠ .run) (hframe : s'.frame = s.frame) (hrole : s'.currentRole = s.currentRole) :
    KeepsOrLeaves s s' := by
  left
  rw [hframe]
  exact ⟨hf, hrole⟩

theorem KeepsOrLeaves.timeout (h : KeepsOrLeaves s s') (b : Bool) :
    KeepsOrLeaves s (if b then (s'.setCurrentRole .candidate).leave else s') := by
  cases b with
  | false => exact h
  | true => exact Or.inr ⟨rfl, by simp [leave, setCurrentRole]⟩

theorem followerHandle_role {m : Message n} (h : s.followerHandle m = some s') :
    s'.frame = s.frame ∧ s'.currentRole = s.currentRole := by
  cases followerHandle_cases h with
  | ignore => exact ⟨rfl, rfl⟩
  | @requestVotes r direction =>
    rw [followerRequestVotes_eq, raiseTerm_eq]
    exact ⟨rfl, rfl⟩
  | @heartbeat r direction type =>
    have hquiet := quiet_followerHeartbeat (s := s) r
    rw [raiseTerm_eq] at hquiet
    exact ⟨hquiet.frame, hquiet.role⟩
  | appendEntries direction type run =>
    have hquiet := quiet_followerAppendEntries run
    exact ⟨hquiet.frame, hquiet.role⟩
  | committal direction type index prevTerm => exact ⟨rfl, rfl⟩

theorem followerLoop_role (hf : s.frame ≠ .run) (h : s.followerLoop timers incoming = some s') :
    KeepsOrLeaves s s' := by
  obtain ⟨u, hu, rfl⟩ := followerLoop_cases h
  have hkeeps : KeepsOrLeaves s u := by
    cases incoming with
    | none =>
      obtain rfl : s = u := by simpa using hu
      exact keeps hf rfl rfl
    | some m =>
      obtain ⟨hframe, hrole⟩ := followerHandle_role hu
      exact keeps hf hframe hrole
  exact hkeeps.timeout timers.election

theorem candidateHandle_role {v t : ℕ} {m : Message n} (hf : s.frame ≠ .run) :
    KeepsOrLeaves s (s.candidateHandle v t m) := by
  have hcases := candidateHandle_cases (s := s) v t m
  generalize s.candidateHandle v t m = s' at hcases
  cases hcases with
  | ignore => exact keeps hf rfl rfl
  | @vote r direction =>
    rcases candidateVote_cases (s := s) v t r with h | ⟨votes, h⟩
    · rw [h]
      exact Or.inr ⟨rfl, by simp [leave, setCurrentRole]⟩
    · rw [h]
      exact Or.inl ⟨by simp, rfl⟩
  | yield direction term => exact Or.inr ⟨rfl, by simp [yieldTo, leave, setCurrentRole]⟩
  | heartbeat direction type term => exact Or.inr ⟨rfl, by simp [candidateHeartbeat, leave, setCurrentRole]⟩

theorem candidateLoop_role {v t : ℕ} (hf : s.frame ≠ .run) :
    KeepsOrLeaves s (s.candidateLoop v t timers incoming) := by
  have hkeeps : KeepsOrLeaves s (incoming.elim s (s.candidateHandle v t)) := by
    cases incoming with
    | none => exact keeps hf rfl rfl
    | some m => exact candidateHandle_role hf
  obtain ⟨u, rfl, hlast | ⟨-, -, hlast⟩⟩ := candidateLoop_cases (s := s) v t timers incoming
  · rw [hlast]
    exact hkeeps
  · rw [hlast]
    exact hkeeps.timeout true

theorem leaderLoop_role (hf : s.frame ≠ .run) (h : s.leaderLoop timers incoming = some s') :
    KeepsOrLeaves s s' := by
  obtain ⟨out, v, u, -, hv, hu, hlast⟩ := leaderLoop_cases h
  have hvu : (u.frame = s.frame ∧ u.currentRole = s.currentRole) ∨ ∃ r, u = v.yieldTo r := by
    subst hv
    cases incoming with
    | none =>
      obtain rfl : _ = u := by simpa using hu
      exact Or.inl ⟨rfl, rfl⟩
    | some m =>
      rcases leadsOn_leaderHandle hu with ⟨out', hon, -⟩ | ⟨r, -, -, -, hy⟩
      · exact Or.inl ⟨hon.frame, hon.role⟩
      · exact Or.inr ⟨r, hy⟩
  rcases hvu with ⟨hframe, hrole⟩ | ⟨r, rfl⟩
  · rcases hlast with ⟨hrun, -⟩ | ⟨-, hlast⟩
    · exact absurd (hframe.symm.trans hrun) hf
    have hquiet := quiet_leaderClientRequest hlast
    exact keeps hf (hquiet.frame.trans hframe) (hquiet.role.trans hrole)
  · rcases hlast with ⟨hrun, rfl⟩ | ⟨hrun, -⟩
    · exact Or.inr ⟨hrun, by simp [yieldTo, leave, setCurrentRole]⟩
    · exact absurd rfl hrun

theorem round_role (hf : s.frame ≠ .run) (h : s.round timers incoming = some s') :
    KeepsOrLeaves s s' := by
  unfold round at h
  split at h
  · rename_i hrun
    exact absurd hrun hf
  · exact followerLoop_role hf h
  · obtain rfl := Option.some.inj h
    exact candidateLoop_role hf
  · exact leaderLoop_role hf h

theorem enter_role {role : Role} (h : s.enter role = some s') : s'.currentRole = s.currentRole := by
  cases role with
  | leader => exact (quiet_leaderCall h).1.role
  | follower =>
    obtain rfl := Option.some.inj h
    rfl
  | candidate =>
    obtain rfl := Option.some.inj h
    rfl
  | none =>
    obtain rfl := Option.some.inj h
    rfl

end RaftNode

namespace Threads

variable {w : Threads n}

/-! ## What a step can do -/

/-- Rounds are rounds of a loop, and what they write is a role of the protocol. -/
structure Placed (w : Threads n) : Prop where
  frame : w.thread = .round → w.node.frame ≠ .run
  role : ∀ role, w.thread = .set role → role ≠ .none

/-- The steps of the node's thread: past a check, a round up to its write, the write, or
anything else, which leaves the role alone. -/
inductive ThreadStep (w : Threads n) : Threads n → Prop
  | check (point : w.thread = .check) (loop : w.node.frame.role = some w.node.currentRole) :
    ThreadStep w { w with thread := .round }
  | round {s : RaftNode n} {role : Role} (point : w.thread = .round) (writes : role ≠ .none)
      (same : s.currentRole = w.node.currentRole) :
    ThreadStep w { w with node := s, thread := .set role }
  | set {role : Role} (point : w.thread = .set role) :
    ThreadStep w { w with node := (w.node.setCurrentRole role).leave, thread := .testLeader }
  | other {s : RaftNode n} {p : ThreadPoint} (same : s.currentRole = w.node.currentRole)
      (out : p.inRound = false) (sets : ∀ role, w.thread ≠ .set role)
      (checks : w.thread = .check → w.node.frame.role ≠ some w.node.currentRole) :
    ThreadStep w { w with node := s, thread := p }

theorem threadStep_test (role : Role) {next : ThreadPoint} (hnext : next.inRound = false)
    (hset : ∀ role, w.thread ≠ .set role) (hcheck : w.thread ≠ .check) :
    ThreadStep w (w.test role next) := by
  have hcheck' : w.thread = .check → w.node.frame.role ≠ some w.node.currentRole :=
    fun h => absurd h hcheck
  unfold test
  by_cases h : w.node.currentRole = role
  · rw [if_pos h]
    exact .other rfl rfl hset hcheck'
  · rw [if_neg h]
    exact .other rfl hnext hset hcheck'

theorem threadStep_step (hw : w.Placed) (timers : Timers n) (incoming : Option (Message n)) :
    ThreadStep w (w.threadStep timers incoming) := by
  unfold threadStep
  cases hthread : w.thread with
  | testLeader => exact threadStep_test .leader rfl (by simp [hthread]) (by simp [hthread])
  | testFollower => exact threadStep_test .follower rfl (by simp [hthread]) (by simp [hthread])
  | testCandidate => exact threadStep_test .candidate rfl (by simp [hthread]) (by simp [hthread])
  | call role =>
    simp only
    cases henter : w.node.enter role with
    | none => exact .other rfl rfl (by simp [hthread]) (by simp [hthread])
    | some s =>
      have hrole := RaftNode.enter_role henter
      exact .other hrole rfl (by simp [hthread]) (by simp [hthread])
  | check =>
    by_cases h : w.node.frame.role = some w.node.currentRole
    · simp only [h, if_true]
      exact .check hthread h
    · simp only [h, if_false]
      exact .other rfl rfl (by simp [hthread]) fun _ => h
  | round =>
    simp only
    cases hround : w.node.round timers incoming with
    | none => exact .other rfl rfl (by simp [hthread]) (by simp [hthread])
    | some s =>
      rcases RaftNode.round_role (hw.frame hthread) hround with ⟨hframe, hrole⟩ | ⟨hframe, hrole⟩
      · simp only [hframe, if_false]
        exact .other hrole rfl (by simp [hthread]) (by simp [hthread])
      · simp only [hframe, if_true]
        exact .round hthread hrole rfl
  | set role => exact .set hthread
  | dead =>
    have hout : w.thread.inRound = false := by rw [hthread]; rfl
    exact .other rfl hout (by simp [hthread]) (by simp [hthread])

/-- The steps of both threads. -/
inductive Steps (w : Threads n) : Action n → Threads n → Prop
  | pause (idle : w.client = .idle) :
    Steps w .pause { w with node := w.node.setCurrentRole .none }
  | unPause (idle : w.client = .idle) (paused : w.node.currentRole = .none) :
    Steps w .unPause { w with client := .unPausing }
  | resume (unPausing : w.client = .unPausing) :
    Steps w .resume { w with node := w.node.setCurrentRole .follower, client := .idle }
  | clientRequest (value : Value) (idNum : Key) :
    Steps w (.clientRequest value idNum) { w with node := w.node.clientRequest value idNum }
  | thread (timers : Timers n) (incoming : Option (Message n)) {u : Threads n} (step : ThreadStep w u) :
    Steps w (.thread timers incoming) u
  | still {ev : Action n} (pauses : w.pauses ev = false) (unPauses : w.unPauses ev = false)
      (sets : w.sets ev = false) (checks : w.checks ev = false) : Steps w ev w

theorem step_steps (hw : w.Placed) (ev : Action n) : Steps w ev (w.step ev) := by
  cases ev with
  | pause =>
    by_cases h : w.client = .idle
    · simp only [step, if_pos h]
      exact .pause h
    · simp only [step, if_neg h]
      exact .still (by simp [pauses, h]) rfl rfl rfl
  | unPause =>
    by_cases h : w.client = .idle ∧ w.node.currentRole = .none
    · simp only [step, if_pos h]
      exact .unPause h.1 h.2
    · simp only [step, if_neg h]
      exact .still rfl rfl rfl rfl
  | resume =>
    by_cases h : w.client = .unPausing
    · simp only [step, if_pos h]
      exact .resume h
    · simp only [step, if_neg h]
      exact .still rfl (by simp [unPauses, h]) rfl rfl
  | clientRequest value idNum =>
    by_cases h : w.client = .idle
    · simp only [step, if_pos h]
      exact .clientRequest value idNum
    · simp only [step, if_neg h]
      exact .still rfl rfl rfl rfl
  | thread timers incoming => exact .thread timers incoming (threadStep_step hw timers incoming)

theorem placed_init (me : Fin n) : (init me).Placed := by
  constructor
  · intro h
    cases h
  · intro role h
    cases h

theorem Placed.of_out (h : w.thread.inRound = false) : w.Placed := by
  constructor
  · intro hround
    rw [hround] at h
    cases h
  · intro role hset
    rw [hset] at h
    cases h

theorem Placed.step (hw : w.Placed) (ev : Action n) : (w.step ev).Placed := by
  have hstep := step_steps hw ev
  generalize w.step ev = u at hstep ⊢
  cases hstep with
  | pause idle => exact ⟨hw.frame, hw.role⟩
  | unPause idle paused => exact ⟨hw.frame, hw.role⟩
  | resume unPausing => exact ⟨hw.frame, hw.role⟩
  | clientRequest value idNum => exact ⟨hw.frame, hw.role⟩
  | still pauses unPauses sets checks => exact hw
  | thread timers incoming hthread =>
    cases hthread with
    | check point loop =>
      refine ⟨?_, by simp⟩
      intro _ hrun
      simp only at hrun
      rw [hrun] at loop
      cases loop
    | round point writes same =>
      refine ⟨by simp, ?_⟩
      intro role h
      obtain rfl := ThreadPoint.set.inj h
      exact writes
    | set point => exact Placed.of_out rfl
    | other same out sets checks => exact Placed.of_out out

/-- **Who writes the role**: `pause`, `un_pause`, and the node's thread where it sets it. -/
theorem step_role (hw : w.Placed) (ev : Action n) :
    (w.step ev).node.currentRole = w.node.currentRole ∨
      (w.pauses ev = true ∧ (w.step ev).node.currentRole = .none) ∨
      (w.unPauses ev = true ∧ (w.step ev).node.currentRole = .follower) ∨
      (w.sets ev = true ∧ (w.step ev).node.currentRole ≠ .none) := by
  have hstep := step_steps hw ev
  generalize w.step ev = u at hstep ⊢
  cases hstep with
  | pause idle => exact Or.inr (Or.inl ⟨by simp [pauses, idle], rfl⟩)
  | unPause idle paused => exact Or.inl rfl
  | resume unPausing => exact Or.inr (Or.inr (Or.inl ⟨by simp [unPauses, unPausing], rfl⟩))
  | clientRequest value idNum => exact Or.inl rfl
  | still pauses unPauses sets checks => exact Or.inl rfl
  | thread timers incoming hthread =>
    cases hthread with
    | check point loop => exact Or.inl rfl
    | round point writes same => exact Or.inl same
    | @set role point =>
      have hrole := hw.role role point
      exact Or.inr (Or.inr (Or.inr ⟨by simp [sets, point], hrole⟩))
    | other same out sets checks => exact Or.inl same

/-- Whoever comes into `un_pause` has seen the role 'none'. -/
theorem step_client (hw : w.Placed) {ev : Action n} (h : (w.step ev).client = .unPausing) :
    (w.callsUnPause ev = true ∧ (w.step ev).node.currentRole = .none) ∨
      (w.client = .unPausing ∧ w.unPauses ev = false) := by
  have hstep := step_steps hw ev
  generalize w.step ev = u at hstep h ⊢
  cases hstep with
  | pause idle => exact absurd (idle.symm.trans h) (by simp)
  | unPause idle paused => exact Or.inl ⟨by simp [callsUnPause, idle], paused⟩
  | resume unPausing => cases h
  | clientRequest value idNum => exact Or.inr ⟨h, rfl⟩
  | still pauses unPauses sets checks => exact Or.inr ⟨h, unPauses⟩
  | thread timers incoming hthread =>
    have hclient : w.client = .unPausing := by
      cases hthread <;> exact h
    exact Or.inr ⟨hclient, rfl⟩

/-- The client's thread comes into `un_pause` by a call of it. -/
theorem step_idle (hw : w.Placed) {ev : Action n} (hidle : w.client = .idle)
    (hcall : w.callsUnPause ev = false) : (w.step ev).client = .idle := by
  cases hclient : (w.step ev).client with
  | idle => rfl
  | unPausing =>
    rcases step_client hw hclient with ⟨h, -⟩ | ⟨h, -⟩
    · rw [hcall] at h
      cases h
    · rw [hidle] at h
      cases h

/-- A round begins with a check. -/
theorem step_inRound (hw : w.Placed) {ev : Action n} (h : (w.step ev).thread.inRound = true) :
    w.checks ev = true ∨ (w.checks ev = false ∧ w.thread.inRound = true) := by
  have hkeeps : w.thread.inRound = true → w.checks ev = true ∨
      (w.checks ev = false ∧ w.thread.inRound = true) := by
    intro hround
    cases hchecks : w.checks ev with
    | false => exact Or.inr ⟨rfl, hround⟩
    | true => exact Or.inl rfl
  have hstep := step_steps hw ev
  generalize w.step ev = u at hstep h
  cases hstep with
  | pause idle => exact hkeeps h
  | unPause idle paused => exact hkeeps h
  | resume unPausing => exact hkeeps h
  | clientRequest value idNum => exact hkeeps h
  | still pauses unPauses sets checks => exact hkeeps h
  | thread timers incoming hthread =>
    cases hthread with
    | check point loop => exact Or.inl (by simp [checks, point, loop])
    | round point writes same =>
      have hround : w.thread.inRound = true := by rw [point]; rfl
      exact hkeeps hround
    | set point => cases h
    | other same out sets checks =>
      simp only at h
      rw [out] at h
      cases h

end Threads

namespace RaftNode

theorem loop_eq_round {s : RaftNode n} (hf : s.frame.role = some s.currentRole) (timers : Timers n)
    (incoming : Option (Message n)) : s.loop timers incoming = s.round timers incoming := by
  unfold loop round
  cases hframe : s.frame with
  | run => rfl
  | follower =>
    have hrole : s.currentRole = .follower := by simpa [hframe, Frame.role, eq_comm] using hf
    simp only [hrole, if_true]
  | candidate votesForMe totalVotes =>
    have hrole : s.currentRole = .candidate := by simpa [hframe, Frame.role, eq_comm] using hf
    simp only [hrole, if_true]
  | leader =>
    have hrole : s.currentRole = .leader := by simpa [hframe, Frame.role, eq_comm] using hf
    simp only [hrole, if_true]

theorem loop_eq_leave {s : RaftNode n} (hrun : s.frame ≠ .run) (hf : s.frame.role ≠ some s.currentRole)
    (timers : Timers n) (incoming : Option (Message n)) : s.loop timers incoming = some s.leave := by
  unfold loop
  cases hframe : s.frame with
  | run => exact absurd hframe hrun
  | follower =>
    have hrole : s.currentRole ≠ .follower := by simpa [hframe, Frame.role, eq_comm] using hf
    simp only [hrole, if_false]
  | candidate votesForMe totalVotes =>
    have hrole : s.currentRole ≠ .candidate := by simpa [hframe, Frame.role, eq_comm] using hf
    simp only [hrole, if_false]
  | leader =>
    have hrole : s.currentRole ≠ .leader := by simpa [hframe, Frame.role, eq_comm] using hf
    simp only [hrole, if_false]

end RaftNode

namespace Threads

variable {w : Threads n}

/-- The thread is in `run` or in a loop, as the node's frame says. -/
def between (w : Threads n) (s : RaftNode n) : Threads n :=
  { w with node := s, thread := if s.frame = .run then .testLeader else .check }

/-- **A round of a loop, without a client, is that of the node.** -/
theorem round_eq_loop {timers : Timers n} {incoming : Option (Message n)} {s : RaftNode n}
    (hthread : w.thread = .check) (hframe : w.node.frame ≠ .run)
    (h : w.node.loop timers incoming = some s) :
    ∃ k, 0 < k ∧ (fun u => u.threadStep timers incoming)^[k] w = w.between s := by
  by_cases hloop : w.node.frame.role = some w.node.currentRole
  · have hround := RaftNode.loop_eq_round hloop timers incoming ▸ h
    by_cases hrun : s.frame = .run
    · have hback : ({ s with currentRole := w.node.currentRole, frame := w.node.frame }.setCurrentRole
          s.currentRole).leave = s := by
        cases s
        subst hrun
        rfl
      refine ⟨3, by omega, ?_⟩
      simp [threadStep, hthread, hloop, hround, hrun, between, hback]
    · refine ⟨2, by omega, ?_⟩
      simp [threadStep, hthread, hloop, hround, hrun, between]
  · rw [RaftNode.loop_eq_leave hframe hloop] at h
    obtain rfl := Option.some.inj h
    refine ⟨1, by omega, ?_⟩
    simp [threadStep, hthread, hloop, between, RaftNode.leave]

/-- **The tests of `run` and the call, without a client, are the call of the node.** -/
theorem run_eq_call {timers : Timers n} {incoming : Option (Message n)} {s : RaftNode n}
    (hthread : w.thread = .testLeader) (hframe : w.node.frame = .run) (h : w.node.call = some s) :
    ∃ k, 0 < k ∧ (fun u => u.threadStep timers incoming)^[k] w = w.between s := by
  -- the three tests of `run` are made in turn, until one holds
  unfold RaftNode.call at h
  cases hrole : w.node.currentRole with
  | leader =>
    simp only [hrole] at h
    have hs : s.frame = .leader := (RaftNode.quiet_leaderCall h).2
    refine ⟨2, by omega, ?_⟩
    simp [threadStep, test, hthread, hrole, RaftNode.enter, h, between, hs]
  | follower =>
    simp only [hrole] at h
    obtain rfl := Option.some.inj h
    refine ⟨3, by omega, ?_⟩
    simp [threadStep, test, hthread, hrole, RaftNode.enter, between]
  | candidate =>
    simp only [hrole] at h
    obtain rfl := Option.some.inj h
    have hs : w.node.candidateCall.frame ≠ .run := by simp [RaftNode.candidateCall]
    refine ⟨4, by omega, ?_⟩
    simp [threadStep, test, hthread, hrole, RaftNode.enter, between, hs]
  | none =>
    simp only [hrole] at h
    obtain rfl := Option.some.inj h
    refine ⟨3, by omega, ?_⟩
    simp [threadStep, test, hthread, hrole, between, hframe]

end Threads

/-! ## Runs -/

/-- The threads after the first `k` actions of a run of node `me`. -/
abbrev tAt (me : Fin n) (es : List (Action n)) (k : ℕ) : Threads n :=
  Lib.stateAt Threads.step (Threads.init me) es k

/-- Action `k` of a run of node `me` is one of these. -/
abbrev happens (me : Fin n) (es : List (Action n)) (p : Threads n → Action n → Bool) (k : ℕ) : Bool :=
  Lib.happens Threads.step (Threads.init me) es p k

variable {me : Fin n} {es : List (Action n)}

theorem placed_tAt (me : Fin n) (es : List (Action n)) (k : ℕ) : (tAt me es k).Placed := by
  apply Lib.stateAt_invariant
  · exact Threads.placed_init me
  · intro j hj hw
    exact hw.step es[j]

theorem happens_eq {p : Threads n → Action n → Bool} {k : ℕ} (hk : k < es.length) :
    happens me es p k = p (tAt me es k) es[k] := Lib.happens_eq hk

/-- What happens is done by an action of the run. -/
theorem happens_action {p : Threads n → Action n → Bool} {k : ℕ} (h : happens me es p k = true) :
    ∃ hk : k < es.length, p (tAt me es k) es[k] = true := by
  rcases Nat.lt_or_ge k es.length with hk | hk
  · exact ⟨hk, (happens_eq hk).symm.trans h⟩
  · have hend : happens me es p k = false := Lib.happens_end hk
    rw [hend] at h
    cases h

/-- `Threads.step_role`, for the times of a run. -/
theorem role_succ (me : Fin n) (es : List (Action n)) (k : ℕ) :
    (tAt me es (k + 1)).node.currentRole = (tAt me es k).node.currentRole ∨
      (happens me es Threads.pauses k = true ∧ (tAt me es (k + 1)).node.currentRole = .none) ∨
      (happens me es Threads.unPauses k = true ∧ (tAt me es (k + 1)).node.currentRole = .follower) ∨
      (happens me es Threads.sets k = true ∧ (tAt me es (k + 1)).node.currentRole ≠ .none) := by
  rcases Nat.lt_or_ge k es.length with hk | hk
  · rw [happens_eq hk, happens_eq hk, happens_eq hk]
    have hsucc : tAt me es (k + 1) = (tAt me es k).step es[k] := Lib.stateAt_succ hk
    rw [hsucc]
    exact Threads.step_role (placed_tAt me es k) es[k]
  · left
    have hsame : tAt me es (k + 1) = tAt me es k := Lib.stateAt_end hk
    rw [hsame]

/-- The write of a round has a check before it. -/
theorem exists_check {k : ℕ} (h : (tAt me es k).thread.inRound = true) :
    ∃ l, Lib.Latest (happens me es Threads.checks) l k := by
  induction k with
  | zero =>
    have hinit : tAt me es 0 = Threads.init me := Lib.stateAt_zero _ _ _
    rw [hinit] at h
    cases h
  | succ k ih =>
    rcases Nat.lt_or_ge k es.length with hk | hk
    · have hsucc : tAt me es (k + 1) = (tAt me es k).step es[k] := Lib.stateAt_succ hk
      rw [hsucc] at h
      rcases Threads.step_inRound (placed_tAt me es k) h with hchecks | ⟨hchecks, hround⟩
      · exact ⟨k, Lib.latest_succ_self ((happens_eq hk).trans hchecks)⟩
      · obtain ⟨l, hl⟩ := ih hround
        exact ⟨l, hl.succ ((happens_eq hk).trans hchecks)⟩
    · have hsame : tAt me es (k + 1) = tAt me es k := Lib.stateAt_end hk
      rw [hsame] at h
      obtain ⟨l, hl⟩ := ih h
      exact ⟨l, hl.succ (Lib.happens_end hk)⟩

/-- A pause lands behind the check that let this round begin. -/
def Overtaken (me : Fin n) (es : List (Action n)) (i : ℕ) : Prop :=
  ∃ l < i, Lib.Latest (happens me es Threads.checks) l i ∧
    ∃ j < i, l < j ∧ happens me es Threads.pauses j = true

instance decidableOvertaken (me : Fin n) (es : List (Action n)) (i : ℕ) :
    Decidable (Overtaken me es i) :=
  inferInstanceAs (Decidable (∃ l < i, Lib.Latest (happens me es Threads.checks) l i ∧
    ∃ j < i, l < j ∧ happens me es Threads.pauses j = true))

/-- No round that a pause has overtaken sets the role. -/
def KeepsPause (me : Fin n) (es : List (Action n)) : Prop :=
  ∀ i < es.length, happens me es Threads.sets i = true → ¬ Overtaken me es i

instance decidableKeepsPause (me : Fin n) (es : List (Action n)) : Decidable (KeepsPause me es) :=
  inferInstanceAs (Decidable (∀ i < es.length, happens me es Threads.sets i = true →
    ¬ Overtaken me es i))

/-- Between `t` and `k` a round of `_follower`, begun after `t`, has set the role. -/
def Promoted (me : Fin n) (es : List (Action n)) (t k : ℕ) : Prop :=
  ∃ i < k, happens me es Threads.sets i = true ∧ ∃ l, t < l ∧
    Lib.Latest (happens me es Threads.checks) l i ∧ (tAt me es l).node.currentRole = .follower

/-- What a client may expect of `pause` and `un_pause`. -/
structure PauseHolds (me : Fin n) (es : List (Action n)) : Prop where
  paused : ∀ j k, happens me es Threads.pauses j = true → j < k →
    (∀ i, j < i → i < k → happens me es Threads.callsUnPause i = false) →
    (tAt me es k).node.currentRole = .none
  unPaused : ∀ t k, happens me es Threads.unPauses t = true → t < k →
    (∀ i, t < i → i < k → happens me es Threads.pauses i = false) →
    (tAt me es k).node.currentRole = .follower ∨ Promoted me es t k

/-- Since a pause before `k`, no round of a loop has begun. -/
def SincePause (me : Fin n) (es : List (Action n)) (k : ℕ) : Prop :=
  ∃ p < k, happens me es Threads.pauses p = true ∧
    ∀ x < k, p < x → happens me es Threads.checks x = false

theorem pauses_ne_checks {k : ℕ} (h : happens me es Threads.pauses k = true) :
    happens me es Threads.checks k = false := by
  obtain ⟨hk, hp⟩ := happens_action h
  rw [happens_eq hk]
  generalize es[k] = ev at hp
  cases ev with
  | pause => rfl
  | _ => cases hp

theorem inRound_of_sets {k : ℕ} (h : happens me es Threads.sets k = true) :
    (tAt me es k).thread.inRound = true := by
  obtain ⟨hk, hsets⟩ := happens_action h
  generalize es[k] = ev at hsets
  cases ev with
  | thread timers incoming =>
    unfold Threads.sets at hsets
    simp only at hsets
    split at hsets
    · rename_i role hthread
      rw [hthread]
      rfl
    · cases hsets
  | _ => cases hsets

/-- **A round that has not begun since a pause does not set the role.** -/
theorem KeepsPause.not_sets (h : KeepsPause me es) {k : ℕ} (hp : SincePause me es k) :
    happens me es Threads.sets k = false := by
  obtain ⟨p, hpk, hpauses, hnone⟩ := hp
  by_contra hsets
  rw [Bool.not_eq_false] at hsets
  obtain ⟨l, hlatest⟩ := exists_check (inRound_of_sets hsets)
  have hlk : l < k := hlatest.1
  have hchecks : happens me es Threads.checks l = true := hlatest.2.1
  have hlp : l < p := by
    rcases Nat.lt_trichotomy l p with hlt | rfl | hgt
    · exact hlt
    · rw [pauses_ne_checks hpauses] at hchecks
      cases hchecks
    · rw [hnone l hlk hgt] at hchecks
      cases hchecks
  obtain ⟨hk, -⟩ := happens_action hsets
  exact h k hk hsets ⟨l, hlk, hlatest, p, hpk, hlp, hpauses⟩

theorem SincePause.succ {k : ℕ} (h : SincePause me es k)
    (hchecks : happens me es Threads.checks k = false) : SincePause me es (k + 1) := by
  obtain ⟨p, hpk, hpauses, hnone⟩ := h
  refine ⟨p, by omega, hpauses, ?_⟩
  intro x hx hpx
  rcases Nat.lt_succ_iff_lt_or_eq.1 hx with hx | rfl
  · exact hnone x hx hpx
  · exact hchecks

/-- No round begins while the role is 'none'. -/
theorem not_checks {k : ℕ} (h : (tAt me es k).node.currentRole = .none) :
    happens me es Threads.checks k = false := by
  by_contra hchecks
  rw [Bool.not_eq_false] at hchecks
  obtain ⟨hk, hev⟩ := happens_action hchecks
  generalize es[k] = ev at hev
  cases ev with
  | thread timers incoming =>
    simp only [Threads.checks, Bool.and_eq_true, decide_eq_true_eq] at hev
    have hframe := hev.2
    rw [h] at hframe
    cases hf : (tAt me es k).node.frame <;> simp [hf, Frame.role] at hframe
  | _ => cases hev

/-- **A paused node has seen no round begin since**, and so none that writes. -/
theorem KeepsPause.since (h : KeepsPause me es) (k : ℕ) :
    ((tAt me es k).node.currentRole = .none → SincePause me es k) ∧
      ((tAt me es k).client = .unPausing → (tAt me es k).node.currentRole = .none) := by
  induction k with
  | zero =>
    have hinit : tAt me es 0 = Threads.init me := Lib.stateAt_zero _ _ _
    rw [hinit]
    constructor
    · intro hrole
      cases hrole
    · intro hclient
      cases hclient
  | succ k ih =>
    obtain ⟨hsince, hbusy⟩ := ih
    constructor
    · intro hrole
      -- who could have made the role 'none' in this step: nobody, or a pause
      rcases role_succ me es k with hsame | ⟨hpauses, -⟩ | ⟨-, hset⟩ | ⟨-, hset⟩
      · have hnone := hsame.symm.trans hrole
        exact (hsince hnone).succ (not_checks hnone)
      · exact ⟨k, Nat.lt_succ_self k, hpauses, fun x hx hkx => absurd hx (by omega)⟩
      · rw [hset] at hrole
        cases hrole
      · exact absurd hrole hset
    · intro hclient
      rcases Nat.lt_or_ge k es.length with hk | hk
      · have hsucc : tAt me es (k + 1) = (tAt me es k).step es[k] := Lib.stateAt_succ hk
        rw [hsucc] at hclient
        rcases Threads.step_client (placed_tAt me es k) hclient with
          ⟨-, hrole⟩ | ⟨hbefore, hunPauses⟩
        · rw [hsucc]
          exact hrole
        · -- nothing writes the role while the client is in `un_pause`
          have hnone := hbusy hbefore
          rcases role_succ me es k with hsame | ⟨-, hset⟩ | ⟨hset, -⟩ | ⟨hset, -⟩
          · exact hsame.trans hnone
          · exact hset
          · rw [happens_eq hk, hunPauses] at hset
            cases hset
          · rw [h.not_sets (hsince hnone)] at hset
            cases hset
      · have hsame : tAt me es (k + 1) = tAt me es k := Lib.stateAt_end hk
        rw [hsame] at hclient ⊢
        exact hbusy hclient

/-- The client's thread comes into `un_pause` by a call of it. -/
theorem idle_succ {k : ℕ} (hidle : (tAt me es k).client = .idle)
    (hcall : happens me es Threads.callsUnPause k = false) : (tAt me es (k + 1)).client = .idle := by
  rcases Nat.lt_or_ge k es.length with hk | hk
  · have hsucc : tAt me es (k + 1) = (tAt me es k).step es[k] := Lib.stateAt_succ hk
    rw [happens_eq hk] at hcall
    rw [hsucc]
    exact Threads.step_idle (placed_tAt me es k) hidle hcall
  · have hsame : tAt me es (k + 1) = tAt me es k := Lib.stateAt_end hk
    rw [hsame]
    exact hidle

theorem pauses_step {k : ℕ} (h : happens me es Threads.pauses k = true) :
    (tAt me es (k + 1)).node.currentRole = .none ∧ (tAt me es (k + 1)).client = .idle := by
  obtain ⟨hk, hp⟩ := happens_action h
  have hsucc : tAt me es (k + 1) = (tAt me es k).step es[k] := Lib.stateAt_succ hk
  rw [hsucc]
  generalize es[k] = ev at hp
  cases ev with
  | pause =>
    have hidle : (tAt me es k).client = .idle := by simpa [Threads.pauses] using hp
    simp only [Threads.step, if_pos hidle]
    exact ⟨rfl, hidle⟩
  | _ => cases hp

theorem unPauses_step {k : ℕ} (h : happens me es Threads.unPauses k = true) :
    (tAt me es k).client = .unPausing ∧ (tAt me es (k + 1)).node.currentRole = .follower ∧
      happens me es Threads.checks k = false := by
  obtain ⟨hk, hp⟩ := happens_action h
  have hsucc : tAt me es (k + 1) = (tAt me es k).step es[k] := Lib.stateAt_succ hk
  rw [hsucc, happens_eq hk]
  generalize es[k] = ev at hp
  cases ev with
  | resume =>
    have hclient : (tAt me es k).client = .unPausing := by simpa [Threads.unPauses] using hp
    simp only [Threads.step, if_pos hclient]
    exact ⟨hclient, rfl, rfl⟩
  | _ => cases hp

theorem KeepsPause.paused (h : KeepsPause me es) {j k : ℕ}
    (hpause : happens me es Threads.pauses j = true) (hjk : j < k)
    (hcalls : ∀ i, j < i → i < k → happens me es Threads.callsUnPause i = false) :
    (tAt me es k).node.currentRole = .none ∧ (tAt me es k).client = .idle := by
  induction k, hjk using Nat.le_induction with
  | base => exact pauses_step hpause
  | succ k hjk ih =>
    have hj : j < k := hjk
    obtain ⟨hnone, hidle⟩ := ih fun i hji hik => hcalls i hji (by omega)
    have hclient : (tAt me es (k + 1)).client = .idle := idle_succ hidle (hcalls k hj (by omega))
    refine ⟨?_, hclient⟩
    rcases role_succ me es k with hsame | ⟨-, hset⟩ | ⟨hset, -⟩ | ⟨hset, -⟩
    · exact hsame.trans hnone
    · exact hset
    · have hbusy := (unPauses_step hset).1
      rw [hidle] at hbusy
      cases hbusy
    · rw [h.not_sets ((h.since k).1 hnone)] at hset
      cases hset

theorem Promoted.succ {t k : ℕ} (h : Promoted me es t k) : Promoted me es t (k + 1) := by
  obtain ⟨i, hik, hsets⟩ := h
  exact ⟨i, by omega, hsets⟩

/-- A round that sets the role behind `un_pause` has begun behind it. -/
theorem KeepsPause.begun (h : KeepsPause me es) {t i : ℕ} (hun : happens me es Threads.unPauses t = true)
    (hti : t < i) (hsets : happens me es Threads.sets i = true) :
    ∃ l, t < l ∧ Lib.Latest (happens me es Threads.checks) l i := by
  obtain ⟨hclient, -, hun'⟩ := unPauses_step hun
  have hnone := (h.since t).2 hclient
  obtain ⟨p, hpt, hpauses, hfree⟩ := (h.since t).1 hnone
  obtain ⟨l, hlatest⟩ := exists_check (inRound_of_sets hsets)
  have hli : l < i := hlatest.1
  have hchecks : happens me es Threads.checks l = true := hlatest.2.1
  refine ⟨l, ?_, hlatest⟩
  -- otherwise the check is before the pause, which then has overtaken the round,
  -- or between the pause and `un_pause`, where every check fails
  by_contra hle
  have hlp : ¬ l < p := by
    intro hlp
    obtain ⟨hi, -⟩ := happens_action hsets
    exact h i hi hsets ⟨l, hli, hlatest, p, by omega, hlp, hpauses⟩
  rcases Nat.lt_or_ge p l with hpl | hpl
  · rcases Nat.lt_or_ge l t with hlt | hlt
    · rw [hfree l hlt hpl] at hchecks
      cases hchecks
    · obtain rfl : l = t := by omega
      rw [hun'] at hchecks
      cases hchecks
  · obtain rfl : l = p := by omega
    rw [pauses_ne_checks hpauses] at hchecks
    cases hchecks

theorem KeepsPause.unPaused (h : KeepsPause me es) {t k : ℕ}
    (hun : happens me es Threads.unPauses t = true) (htk : t < k)
    (hpauses : ∀ i, t < i → i < k → happens me es Threads.pauses i = false) :
    (∀ x, t < x → x ≤ k → (tAt me es x).node.currentRole = .follower) ∨ Promoted me es t k := by
  induction k, htk using Nat.le_induction with
  | base =>
    left
    intro x htx hx
    obtain rfl : x = t + 1 := by omega
    exact (unPauses_step hun).2.1
  | succ k htk ih =>
    have ht : t < k := htk
    rcases ih fun i hti hik => hpauses i hti (by omega) with hfollower | hpromoted
    · have hrole : (tAt me es k).node.currentRole = .follower := hfollower k ht le_rfl
      have hstays : (tAt me es (k + 1)).node.currentRole = .follower →
          ∀ x, t < x → x ≤ k + 1 → (tAt me es x).node.currentRole = .follower := by
        intro hnext x htx hx
        rcases Nat.lt_or_ge k x with hkx | hkx
        · obtain rfl : x = k + 1 := by omega
          exact hnext
        · exact hfollower x htx hkx
      -- the role changes only if the node's thread sets it, in a round begun as a follower
      rcases role_succ me es k with hsame | ⟨hset, -⟩ | ⟨-, hset⟩ | ⟨hset, -⟩
      · exact Or.inl (hstays (hsame.trans hrole))
      · rw [hpauses k ht (by omega)] at hset
        cases hset
      · exact Or.inl (hstays hset)
      · right
        obtain ⟨l, htl, hlatest⟩ := h.begun hun ht hset
        have hl : (tAt me es l).node.currentRole = .follower := hfollower l htl (by have := hlatest.1; omega)
        exact ⟨k, Nat.lt_succ_self k, hset, l, htl, hlatest, hl⟩
    · exact Or.inr hpromoted.succ

/-- **Pause holds**, in every run in which no round that a pause has overtaken sets the role. -/
theorem pause_holds (me : Fin n) (es : List (Action n)) (h : KeepsPause me es) : PauseHolds me es where
  paused := by
    intro j k hpause hjk hcalls
    exact (h.paused hpause hjk hcalls).1
  unPaused := by
    intro t k hun htk hpauses
    rcases h.unPaused hun htk hpauses with hfollower | hpromoted
    · exact Or.inl (hfollower k htk le_rfl)
    · exact Or.inr hpromoted

/-- Some steps of the node's thread, in which no message comes and no timer runs out. -/
def threadRuns (k : ℕ) : List (Action 3) := List.replicate k (.thread {} none)

/-- Node 0 is paused between two rounds of `_follower`, and un-paused later. -/
def pausedBetweenRounds : List (Action 3) :=
  threadRuns 5 ++ [.pause] ++ threadRuns 4 ++ [.unPause, .resume] ++ threadRuns 3

theorem pause_holds_pausedBetweenRounds :
    (tAt 0 pausedBetweenRounds 10).node.currentRole = .none ∧
      (tAt 0 pausedBetweenRounds 15).node.currentRole = .follower ∧ PauseHolds 0 pausedBetweenRounds :=
  ⟨by decide, by decide, pause_holds 0 pausedBetweenRounds (by decide)⟩

/-- The election timer of node 0 has run out; it is paused before it can become a candidate. -/
def pausedInRound : List (Action 3) :=
  threadRuns 4 ++ [.thread { election := true } none, .pause] ++ threadRuns 1

theorem candidate_while_paused : ¬ PauseHolds 0 pausedInRound := by
  intro h
  have hpaused := h.paused 5 7 (by decide) (by decide) fun i hi hik => by
    obtain rfl : i = 6 := by omega
    decide
  revert hpaused
  decide

end EdgeConsensus.Raft
