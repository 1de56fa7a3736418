import EdgeConsensus.Raft.Pause

/-!
# A cluster of threads

The cluster once more, with the thread of each node at the points of `Pause` and with clients that
may call `client_request`, `pause` and `un_pause` on any node at any time, any number of them. A
node may be made with any role. The messages travel as before.

* `step_cases`, `Acts.put_node`, `Acts.put_chan`: a turn moves one node, which publishes what it has
  handed to its talker.
* `hosts_of_events`: the runs of events are runs of turns.
-/

namespace EdgeConsensus.Raft

variable {n : ℕ}

structure Hosts (n : ℕ) extends World n where
  thread : Fin n → ThreadPoint

/-- What happens next: a call by a client, or a step of the thread of a node. Of `un_pause` it is the
assignment, which comes some time after the role was looked at. -/
inductive Turn (n : ℕ)
  | clientRequest (b : Fin n) (value : Value) (idNum : Key)
  | pause (b : Fin n)
  | unPause (b : Fin n)
  | thread (b : Fin n) (r : Round n)

namespace Hosts

/-- The nodes are made with these roles; each thread is at the first test of `run`. -/
def init (roles : Fin n → Role) : Hosts n where
  node := fun b => (RaftNode.init b).setCurrentRole (roles b)
  chan := fun _ _ => []
  pos := fun _ _ => 0
  thread := fun _ => .testLeader

/-- Node `b` with its thread. -/
def threads (w : Hosts n) (b : Fin n) : Threads n := ⟨w.node b, w.thread b, .idle⟩

/-- Node `b` and its thread have come to `t`. -/
def put (w : Hosts n) (b : Fin n) (t : Threads n) : Hosts n where
  toWorld := w.toWorld.put b t.node
  thread := Function.update w.thread b t.thread

/-- A client has done this to node `b`. -/
def putNode (w : Hosts n) (b : Fin n) (s : RaftNode n) : Hosts n := w.put b { w.threads b with node := s }

def step (w : Hosts n) : Turn n → Hosts n
  | .clientRequest b value idNum => w.putNode b ((w.node b).clientRequest value idNum)
  | .pause b => w.putNode b ((w.node b).setCurrentRole .none)
  | .unPause b => w.putNode b ((w.node b).setCurrentRole .follower)
  | .thread b r =>
    -- only a round looks for a message
    if w.thread b = .round then
      match w.incoming b r with
      | none => w
      | some m => { w with toWorld := w.taken b r }.put b ((w.threads b).threadStep r.toTimers m)
    else w.put b ((w.threads b).threadStep r.toTimers none)

/-! ## What a turn is -/

/-- A turn that happens: node `b` gets `incoming`, which the world `w₁` has recorded, and comes to `t`. -/
inductive Acts (w : Hosts n) : Turn n → Fin n → Option (Message n) → Threads n → World n → Prop
  | clientRequest (b : Fin n) (value : Value) (idNum : Key) :
    Acts w (.clientRequest b value idNum) b none
      { w.threads b with node := (w.node b).clientRequest value idNum } w.toWorld
  | pause (b : Fin n) :
    Acts w (.pause b) b none { w.threads b with node := (w.node b).setCurrentRole .none } w.toWorld
  | unPause (b : Fin n) :
    Acts w (.unPause b) b none { w.threads b with node := (w.node b).setCurrentRole .follower } w.toWorld
  | thread (b : Fin n) (r : Round n) (point : w.thread b ≠ .round) :
    Acts w (.thread b r) b none ((w.threads b).threadStep r.toTimers none) w.toWorld
  | round (b : Fin n) (r : Round n) {m : Option (Message n)} (point : w.thread b = .round)
      (recv : w.incoming b r = some m) :
    Acts w (.thread b r) b m ((w.threads b).threadStep r.toTimers m) (w.taken b r)

theorem step_cases (w : Hosts n) (turn : Turn n) :
    w.step turn = w ∨ ∃ b m t w₁, w.Acts turn b m t w₁ ∧ w.step turn = put ⟨w₁, w.thread⟩ b t := by
  cases turn with
  | clientRequest b value idNum => exact Or.inr ⟨b, none, _, _, .clientRequest b value idNum, rfl⟩
  | pause b => exact Or.inr ⟨b, none, _, _, .pause b, rfl⟩
  | unPause b => exact Or.inr ⟨b, none, _, _, .unPause b, rfl⟩
  | thread b r =>
    by_cases hround : w.thread b = .round
    · cases hm : w.incoming b r with
      | none =>
        left
        simp [step, hround, hm]
      | some m => exact Or.inr ⟨b, m, _, _, .round b r hround hm, by simp [step, hround, hm]⟩
    · exact Or.inr ⟨b, none, _, _, .thread b r hround, by simp [step, hround]⟩

variable {w : Hosts n} {w₁ : World n} {turn : Turn n} {b : Fin n} {m : Option (Message n)} {t : Threads n}

theorem Acts.node (h : w.Acts turn b m t w₁) : w₁.node = w.node := by
  cases h with
  | clientRequest => rfl
  | pause => rfl
  | unPause => rfl
  | thread => rfl
  | round b r point recv => exact World.taken_node r

theorem Acts.chan (h : w.Acts turn b m t w₁) : w₁.chan = w.chan := by
  cases h with
  | clientRequest => rfl
  | pause => rfl
  | unPause => rfl
  | thread => rfl
  | round b r point recv => exact World.taken_chan r

/-- What a node gets was sent to it. -/
theorem Acts.sent {m : Message n} (h : w.Acts turn b (some m) t w₁) : ∃ a, m ∈ w.chan a b := by
  cases h with
  | round b r point recv =>
    obtain ⟨a, i, -, -, hi⟩ := World.incoming_eq recv
    exact ⟨a, List.mem_of_getElem? hi⟩

/-- **One node moves**: the others stay as they are, and the streams get what it has handed to its talker. -/
theorem Acts.put_node (h : w.Acts turn b m t w₁) (a : Fin n) :
    (put ⟨w₁, w.thread⟩ b t).node a = if a = b then { t.node with talker := [] } else w.node a := by
  by_cases hab : a = b
  · subst hab
    rw [if_pos rfl]
    exact World.put_node_self
  · rw [if_neg hab, ← h.node]
    exact World.put_node_ne hab

theorem Acts.put_thread (_ : w.Acts turn b m t w₁) (a : Fin n) :
    (put ⟨w₁, w.thread⟩ b t).thread a = if a = b then t.thread else w.thread a :=
  Function.update_apply _ _ _ _

theorem Acts.put_chan (h : w.Acts turn b m t w₁) {a c : Fin n} {o : Message n}
    (ho : o ∈ (put ⟨w₁, w.thread⟩ b t).chan a c) : o ∈ w.chan a c ∨ a = b ∧ o ∈ t.node.talker := by
  have hchan : (put ⟨w₁, w.thread⟩ b t).chan a c =
      w.chan a c ++ if a = b then t.node.talker.filter (·.reaches c) else [] := by
    rw [← h.chan]
    exact World.put_chan a c
  rw [hchan, List.mem_append] at ho
  rcases ho with ho | ho
  · exact Or.inl ho
  · split at ho
    · rename_i hab
      exact Or.inr ⟨hab, List.mem_of_mem_filter ho⟩
    · cases ho

end Hosts

/-- The cluster after the first `k` turns of a run. -/
abbrev hostsAt (roles : Fin n → Role) (turns : List (Turn n)) (k : ℕ) : Hosts n :=
  Lib.stateAt Hosts.step (Hosts.init roles) turns k

/-! ## Events are turns -/

namespace RaftNode

variable {s s' : RaftNode n} {timers : Timers n} {incoming : Option (Message n)}

theorem candidateLoop_frame {votesForMe totalVotes : ℕ} (hf : s.frame = .candidate votesForMe totalVotes) :
    (s.candidateLoop votesForMe totalVotes timers incoming).frame = .run ∨
      (s.candidateLoop votesForMe totalVotes timers incoming).frame.role = some .candidate := by
  have hsame : s.frame.role = some .candidate := by rw [hf]; rfl
  have hhandle : (incoming.elim s (s.candidateHandle votesForMe totalVotes)).frame = .run ∨
      (incoming.elim s (s.candidateHandle votesForMe totalVotes)).frame.role = some .candidate := by
    cases incoming with
    | none => exact Or.inr hsame
    | some m =>
      have hcases := candidateHandle_cases (s := s) votesForMe totalVotes m
      show (s.candidateHandle votesForMe totalVotes m).frame = .run ∨
        (s.candidateHandle votesForMe totalVotes m).frame.role = some .candidate
      generalize s.candidateHandle votesForMe totalVotes m = u at hcases
      cases hcases with
      | ignore => exact Or.inr hsame
      | @vote r direction =>
        rcases candidateVote_cases (s := s) votesForMe totalVotes r with h | ⟨votes, h⟩
        · exact Or.inl (by rw [h]; rfl)
        · exact Or.inr (by rw [h]; rfl)
      | yield direction term => exact Or.inl rfl
      | heartbeat direction type term => exact Or.inl rfl
  obtain ⟨u, rfl, hlast | ⟨-, -, hlast⟩⟩ := candidateLoop_cases (s := s) votesForMe totalVotes timers incoming
  · rw [hlast]
    exact hhandle
  · rw [hlast]
    exact Or.inl rfl

theorem leaderLoop_frame (h : s.leaderLoop timers incoming = some s') : s'.frame = .run ∨ s'.frame = s.frame := by
  obtain ⟨out, v, u, -, rfl, hu, hlast⟩ := leaderLoop_cases h
  have hhandle : u.frame = .run ∨ u.frame = s.frame := by
    cases incoming with
    | none =>
      obtain rfl := Option.some.inj hu
      exact Or.inr rfl
    | some m =>
      rcases quiet_leaderHandle hu with hquiet | ⟨r, -, -, rfl⟩
      · exact Or.inr hquiet.frame
      · exact Or.inl rfl
  rcases hlast with ⟨hrun, rfl⟩ | ⟨-, hlast⟩
  · exact Or.inl hrun
  · rw [(quiet_leaderClientRequest hlast).frame]
    exact hhandle

/-- **A round stays in its loop or leaves it.** -/
theorem round_frame (h : s.round timers incoming = some s') : s'.frame = .run ∨ s'.frame.role = s.frame.role := by
  unfold round at h
  split at h
  · obtain rfl := Option.some.inj h
    exact Or.inr rfl
  · obtain ⟨u, hu, rfl⟩ := followerLoop_cases h
    have hkept : u.frame = s.frame := by
      cases incoming with
      | none =>
        obtain rfl := Option.some.inj hu
        rfl
      | some m => exact (followerHandle_role hu).1
    split
    · exact Or.inl rfl
    · exact Or.inr (congrArg Frame.role hkept)
  · rename_i votesForMe totalVotes hf
    obtain rfl := Option.some.inj h
    have hrole : s.frame.role = some .candidate := by rw [hf]; rfl
    rw [hrole]
    exact candidateLoop_frame hf
  · exact (leaderLoop_frame h).imp id (congrArg Frame.role)

end RaftNode

namespace World

variable {w : World n} {b : Fin n}

theorem put_self (h : (w.node b).talker = []) : w.put b (w.node b) = w := by
  have hnode : { w.node b with talker := [] } = w.node b := by rw [← h]
  cases w
  simp only [put] at hnode h ⊢
  simp [hnode, h]

/-- What is published in two parts is published. -/
theorem put_put (s : RaftNode n) {s' : RaftNode n} (h : s'.talker = []) :
    (w.put b s).put b s' = w.put b { s' with talker := s.talker } := by
  simp only [put, h, Function.update_idem, mk.injEq, true_and, and_true]
  funext a c
  split
  · simp
  · rfl

end World

namespace Hosts

variable {w : Hosts n} {b : Fin n} {s : RaftNode n} {p : ThreadPoint}

/-- The same cluster, with the thread of `b` at `p`. -/
def move (w : Hosts n) (b : Fin n) (p : ThreadPoint) : Hosts n :=
  { w with thread := Function.update w.thread b p }

@[simp] theorem move_toWorld : (w.move b p).toWorld = w.toWorld := rfl

@[simp] theorem move_thread : (w.move b p).thread b = p := Function.update_self _ _ _

@[simp] theorem move_put {t : Threads n} : (w.move b p).put b t = w.put b t := by
  unfold move put
  rw [Function.update_idem]

theorem move_self (h : w.thread b = p) : w.move b p = w := by
  unfold move
  rw [← h, Function.update_eq_self]

/-- What comes after an event: node `b` is in state `s`, and its thread in `run` or at the check of a loop. -/
def after (w : Hosts n) (w₁ : World n) (b : Fin n) (s : RaftNode n) : Hosts n :=
  put ⟨w₁, w.thread⟩ b ⟨s, if s.frame = .run then .testLeader else .check, .idle⟩

/-- A step that only moves the thread. -/
theorem step_move {q : ThreadPoint} (htalker : (w.node b).talker = []) (hp : p ≠ .round)
    (hstep : Threads.threadStep ⟨w.node b, p, .idle⟩ {} none = ⟨w.node b, q, .idle⟩) :
    (w.move b p).step (.thread b {}) = w.move b q := by
  have hthreads : (w.move b p).threads b = ⟨w.node b, p, .idle⟩ := by
    unfold threads
    rw [move_thread]
    rfl
  have hput : (w.move b p).step (.thread b {}) = w.put b ⟨w.node b, q, .idle⟩ := by
    simp only [step, move_thread, hp, if_false, hthreads, hstep, move_put]
  have hself : w.put b ⟨w.node b, q, .idle⟩ = w.move b q := by
    unfold put move
    rw [World.put_self htalker]
  rw [hput, hself]

/-- **The tests of `run` find the role.** -/
theorem exists_turns_call (htalker : (w.node b).talker = []) (hrole : (w.node b).currentRole ≠ .none) :
    ∃ turns : List (Turn n), turns.foldl step (w.move b .testLeader) =
      w.move b (.call (w.node b).currentRole) := by
  -- one test after the other fails, until the role is found
  have hstep : ∀ {p q : ThreadPoint}, p ≠ .round →
      Threads.threadStep ⟨w.node b, p, .idle⟩ {} none = ⟨w.node b, q, .idle⟩ →
      (w.move b p).step (.thread b {}) = w.move b q := fun hp h => step_move htalker hp h
  cases hr : (w.node b).currentRole with
  | leader =>
    have h1 :=
      hstep (p := .testLeader) (q := .call .leader) (by simp) (by simp [Threads.threadStep, Threads.test, hr])
    exact ⟨[.thread b {}], h1⟩
  | follower =>
    have h1 :=
      hstep (p := .testLeader) (q := .testFollower) (by simp) (by simp [Threads.threadStep, Threads.test, hr])
    have h2 := hstep (p := .testFollower) (q := .call .follower) (by simp)
      (by simp [Threads.threadStep, Threads.test, hr])
    refine ⟨[.thread b {}, .thread b {}], ?_⟩
    rw [List.foldl_cons, h1]
    exact h2
  | candidate =>
    have h1 :=
      hstep (p := .testLeader) (q := .testFollower) (by simp) (by simp [Threads.threadStep, Threads.test, hr])
    have h2 := hstep (p := .testFollower) (q := .testCandidate) (by simp)
      (by simp [Threads.threadStep, Threads.test, hr])
    have h3 := hstep (p := .testCandidate) (q := .call .candidate) (by simp)
      (by simp [Threads.threadStep, Threads.test, hr])
    refine ⟨[.thread b {}, .thread b {}, .thread b {}], ?_⟩
    rw [List.foldl_cons, h1, List.foldl_cons, h2]
    exact h3
  | none => exact absurd hr hrole

/-- Between two events: the talkers are empty, the threads are in `run` or at the check of the loop of their
node's role. -/
structure Between (w : Hosts n) : Prop where
  wired : w.toWorld.Wired
  role : ∀ a, (w.node a).currentRole ≠ .none
  frame : ∀ a, (w.node a).frame ≠ .run → (w.node a).frame.role = some (w.node a).currentRole
  thread : ∀ a, w.thread a = if (w.node a).frame = .run then .testLeader else .check

theorem Between.move (h : w.Between) (b : Fin n) :
    w.move b (if (w.node b).frame = .run then .testLeader else .check) = w :=
  move_self (h.thread b)

/-- A call by `run`: the tests, and the code before the loop. -/
theorem Between.turns_call (h : w.Between) (hframe : (w.node b).frame = .run) (hcall : (w.node b).call = some s) :
    ∃ turns : List (Turn n), turns.foldl step w = w.after w.toWorld b s := by
  obtain ⟨turns, hturns⟩ := exists_turns_call (h.wired b).2 (h.role b)
  have hstart := h.move b
  rw [if_pos hframe] at hstart
  rw [hstart] at hturns
  have henter : (w.node b).enter (w.node b).currentRole = some s := by
    unfold RaftNode.call at hcall
    unfold RaftNode.enter
    cases hr : (w.node b).currentRole with
    | none => exact absurd hr (h.role b)
    | _ => simpa only [hr] using hcall
  have hloop : s.frame ≠ .run := by
    cases RaftNode.call_cases hcall with
    | leader role run =>
      rw [(RaftNode.quiet_leaderCall run).2]
      simp
    | follower role => simp
    | candidate role => simp [RaftNode.candidateCall]
    | none role => exact absurd role (h.role b)
  have hthread : ((w.move b (.call (w.node b).currentRole)).threads b).threadStep {} none =
      ⟨s, .check, .idle⟩ := by
    simp only [Threads.threadStep, threads, move_thread, move_toWorld, henter]
  refine ⟨turns ++ [.thread b {}], ?_⟩
  rw [List.foldl_append, hturns]
  show (w.move b (.call (w.node b).currentRole)).step (.thread b {}) = _
  simp only [step, move_thread, reduceCtorEq, if_false, hthread, move_put, after, hloop]

/-- A thread whose round ends with `_set_current_role` has published the messages of the round when it comes
to it. -/
theorem step_set (w₁ : World n) (hrun : s.frame = .run) (role : Role) (frame : Frame) :
    (put ⟨w₁, w.thread⟩ b ⟨{ s with currentRole := role, frame := frame }, .set s.currentRole, .idle⟩).step
      (.thread b {}) = w.after w₁ b s := by
  set held : RaftNode n := { s with currentRole := role, frame := frame }
  set back : RaftNode n := (({ held with talker := [] } : RaftNode n).setCurrentRole s.currentRole).leave
  have hback : { back with talker := held.talker } = s := by
    cases s
    subst hrun
    rfl
  have hempty : back.talker = [] := rfl
  have hworld := World.put_put (w := w₁) (b := b) held hempty
  rw [hback] at hworld
  simp [step, put, threads, Threads.threadStep, after, hrun, back, hworld]

/-- A round of a loop: the check, the round up to its `_set_current_role`, and this if there is one. -/
theorem Between.turns_loop (h : w.Between) {r : Round n} {m : Option (Message n)}
    (hframe : (w.node b).frame ≠ .run) (hrecv : w.incoming b r = some m)
    (hloop : (w.node b).loop r.toTimers m = some s) :
    ∃ turns : List (Turn n), turns.foldl step w = w.after (w.taken b r) b s := by
  have hrole := h.frame b hframe
  have hround := RaftNode.loop_eq_round hrole _ _ ▸ hloop
  have hstart := h.move b
  rw [if_neg hframe] at hstart
  have hcheck : w.step (.thread b {}) = w.move b .round := by
    have hmove := step_move (w := w) (b := b) (p := .check) (q := .round) (h.wired b).2 (by simp)
      (by simp [Threads.threadStep, hrole])
    rwa [hstart] at hmove
  have hthreads : (w.move b .round).threads b = ⟨w.node b, .round, .idle⟩ := by
    unfold threads
    rw [move_thread]
    rfl
  have hstep : (w.move b .round).step (.thread b r) =
      put ⟨w.taken b r, w.thread⟩ b (Threads.threadStep ⟨w.node b, .round, .idle⟩ r.toTimers m) := by
    simp only [step, move_thread, if_true, move_toWorld, hrecv, hthreads]
    exact move_put (w := ⟨w.taken b r, w.thread⟩)
  by_cases hrun : s.frame = .run
  · refine ⟨[.thread b {}, .thread b r, .thread b {}], ?_⟩
    rw [List.foldl_cons, hcheck, List.foldl_cons, hstep]
    simp only [Threads.threadStep, hround, hrun, if_true]
    exact step_set (w.taken b r) hrun _ _
  · refine ⟨[.thread b {}, .thread b r], ?_⟩
    rw [List.foldl_cons, hcheck, List.foldl_cons, hstep]
    simp [Threads.threadStep, hround, hrun, after]

/-- **Each event is some turns.** -/
theorem Between.turns {ev : Event n} {m : Option (Message n)} {w₁ : World n} (h : w.Between)
    (hacts : w.toWorld.Acts ev b m s w₁) : ∃ turns : List (Turn n), turns.foldl step w = w.after w₁ b s := by
  cases hacts with
  | clientRequest b value idNum =>
    refine ⟨[.clientRequest b value idNum], ?_⟩
    show put w b ⟨_, w.thread b, .idle⟩ = put w b _
    rw [h.thread b]
    rfl
  | call b frame run => exact h.turns_call frame run
  | loop b r frame recv run => exact h.turns_loop frame recv run

/-- What an event does to the role and the frame of its node. -/
theorem Between.acts {ev : Event n} {m : Option (Message n)} {w₁ : World n} (h : w.Between)
    (hacts : w.toWorld.Acts ev b m s w₁) :
    s.currentRole ≠ .none ∧ (s.frame ≠ .run → s.frame.role = some s.currentRole) := by
  have hrole := h.role b
  have hframe := h.frame b
  cases hacts with
  | clientRequest b value idNum => exact ⟨hrole, hframe⟩
  | call b frame run =>
    cases RaftNode.call_cases run with
    | leader role run =>
      obtain ⟨hquiet, hloop⟩ := RaftNode.quiet_leaderCall run
      have hsame : s.currentRole = .leader := hquiet.role.trans role
      refine ⟨by rw [hsame]; simp, ?_⟩
      rw [hsame, hloop]
      exact fun _ => rfl
    | follower role => exact ⟨hrole, fun _ => congrArg some role.symm⟩
    | candidate role => exact ⟨hrole, fun _ => congrArg some role.symm⟩
    | none role => exact absurd role hrole
  | loop b r frame recv run =>
    have hround := RaftNode.loop_eq_round (hframe frame) _ _ ▸ run
    rcases RaftNode.round_role frame hround with ⟨hloop, hsame⟩ | ⟨hrun, hset⟩
    · refine ⟨by rw [hsame]; exact hrole, fun _ => ?_⟩
      rw [hsame, (RaftNode.round_frame hround).resolve_left hloop]
      exact hframe frame
    · exact ⟨hset, fun hne => absurd hrun hne⟩

theorem Between.step (h : w.Between) (ev : Event n) :
    ∃ turns : List (Turn n), (turns.foldl Hosts.step w).Between ∧
      (turns.foldl Hosts.step w).toWorld = w.toWorld.step ev := by
  have hwired := h.wired.step ev
  rcases w.toWorld.step_cases ev with heq | ⟨b, m, s, w₁, hacts, heq⟩
  · exact ⟨[], h, heq.symm⟩
  obtain ⟨turns, hturns⟩ := h.turns hacts
  obtain ⟨hrole, hframe⟩ := h.acts hacts
  refine ⟨turns, ?_, by rw [hturns, heq]; rfl⟩
  rw [hturns]
  rw [heq] at hwired
  have hnode : ∀ a, (w.after w₁ b s).node a = if a = b then { s with talker := [] } else w.node a := by
    intro a
    show (w₁.put b s).node a = _
    by_cases hab : a = b
    · rw [hab, if_pos rfl]
      exact World.put_node_self
    · rw [if_neg hab, ← hacts.node]
      exact World.put_node_ne hab
  refine ⟨hwired, fun a => ?_, fun a => ?_, fun a => ?_⟩
  · rw [hnode]
    split
    · exact hrole
    · exact h.role a
  · rw [hnode]
    split
    · exact hframe
    · exact h.frame a
  · rw [hnode]
    show Function.update w.thread b _ a = _
    by_cases hab : a = b
    · rw [hab, Function.update_self, if_pos rfl]
    · rw [Function.update_of_ne hab, if_neg hab]
      exact h.thread a

theorem between_init : (init fun _ => .follower : Hosts n).Between where
  wired _ := ⟨rfl, rfl⟩
  role _ := by simp [init, RaftNode.setCurrentRole]
  frame _ h := absurd rfl h
  thread _ := rfl

end Hosts

/-- **The runs of events are runs of turns.** -/
theorem hosts_of_events (es : List (Event n)) (k : ℕ) :
    ∃ turns : List (Turn n), (hostsAt (fun _ => .follower) turns turns.length).toWorld = wAt es k := by
  have hreached : ∃ turns : List (Turn n), (turns.foldl Hosts.step (Hosts.init fun _ => .follower)).Between ∧
      (turns.foldl Hosts.step (Hosts.init fun _ => .follower)).toWorld = wAt es k := by
    apply Lib.stateAt_invariant (P := fun w : World n => ∃ turns : List (Turn n),
      (turns.foldl Hosts.step (Hosts.init fun _ => .follower)).Between ∧
        (turns.foldl Hosts.step (Hosts.init fun _ => .follower)).toWorld = w)
    · exact ⟨[], Hosts.between_init, rfl⟩
    · rintro j hj ⟨turns, hbetween, hworld⟩
      obtain ⟨more, hmore, hstep⟩ := hbetween.step es[j]
      refine ⟨turns ++ more, ?_, ?_⟩
      · rw [List.foldl_append]
        exact hmore
      · rw [List.foldl_append, hstep, hworld]
  obtain ⟨turns, -, hworld⟩ := hreached
  refine ⟨turns, ?_⟩
  unfold hostsAt Lib.stateAt
  rw [List.take_length]
  exact hworld

end EdgeConsensus.Raft
