import EdgeConsensus.Raft.Terms
import EdgeConsensus.Raft.Tracking

/-!
# Indices into the logs

The lists of the source are read at indices that are computed, and a negative index would not even
raise. `Tracks` bounds what a leader keeps in `next_index` and `match_index`; here is what it keeps
there for itself, and that no thread of a cluster ever dies of an access.

* `Indexed.loop`: a round of a leader.
* `Disciplined.threadStep`: any step of a thread.
* `index_discipline`: over runs.
-/

namespace EdgeConsensus.Raft

variable {n : ℕ}

namespace RaftNode

variable {s s' u : RaftNode n} {timers : Timers n} {incoming : Option (Message n)}

/-- What a leader keeps about indices, its own among them. -/
structure Indexed (s : RaftNode n) : Prop where
  tracks : s.Tracks
  next : s.nextIndex s.myId = none
  matched : s.matchIndex s.myId + 1 = s.log.length

/-- Only these four fields matter. -/
theorem Indexed.same (h : s.Indexed) (hid : s'.myId = s.myId) (hlog : s'.log = s.log)
    (hnext : s'.nextIndex = s.nextIndex) (hmatch : s'.matchIndex = s.matchIndex)
    (hcommit : s.commitIndex ≤ s'.commitIndex) : s'.Indexed := by
  obtain ⟨⟨hne, hbound, hmatched⟩, hown, hself⟩ := h
  refine ⟨⟨by rw [hlog]; exact hne, by rw [hnext, hlog]; exact hbound, ?_⟩, by rw [hnext, hid]; exact hown,
    by rw [hmatch, hid, hlog]; exact hself⟩
  intro i
  rw [hmatch, hlog]
  rcases hmatched i with hm | hm
  · exact Or.inl (le_trans hm hcommit)
  · exact Or.inr hm

/-- **A broadcast sets what the leader keeps for itself.** -/
theorem indexed_broadcast {e : Entry} (h : s.Tracks) (hb : s.broadcastAppendEntries e = some s') :
    s'.Indexed := by
  refine ⟨h.broadcast hb, ?_, ?_⟩
  · obtain ⟨last, -, rfl⟩ := broadcastAppendEntries_eq hb
    exact if_pos rfl
  · obtain ⟨last, -, rfl⟩ := broadcastAppendEntries_eq hb
    simp

/-- The leader's own acknowledgement is ignored, and another one changes what it keeps for another node. -/
theorem Indexed.acknowledge {m : AppendEntriesMessage n} (h : s.Indexed)
    (hrun : s.leaderAcknowledge m = some s') : s'.Indexed := by
  obtain ⟨v, hv, htracks⟩ := h.tracks.acknowledge m
  obtain rfl := Option.some.inj (hrun.symm.trans hv)
  rcases leaderAcknowledge_cases hrun with ⟨-, rfl⟩ | ⟨k, next, out, hk, -, -, hc⟩
  · exact h
  have hne : s.myId ≠ m.sender := by
    intro heq
    rw [← heq, h.next] at hk
    cases hk
  -- the commit leaves both lists alone
  have hkept : s'.myId = s.myId ∧ s'.log = s.log ∧ s'.nextIndex s.myId = s.nextIndex s.myId ∧
      s'.matchIndex s.myId = s.matchIndex s.myId := by
    have hnext := Function.update_of_ne hne (if next > s.logMaxIndex then none else some next) s.nextIndex
    have hmatch : (if m.results.success == some true then Function.update s.matchIndex m.sender k
        else s.matchIndex) s.myId = s.matchIndex s.myId := by
      split
      · exact Function.update_of_ne hne _ _
      · rfl
    rcases commitMatched_cases hc with ⟨-, rfl⟩ | ⟨-, hc⟩
    · exact ⟨rfl, rfl, hnext, hmatch⟩
    · obtain ⟨e, -, rfl⟩ := broadcastCommmitEntries_eq hc
      exact ⟨rfl, rfl, hnext, hmatch⟩
  obtain ⟨hid, hlog, hnext, hmatch⟩ := hkept
  refine ⟨htracks, ?_, ?_⟩
  · rw [hid, hnext]
    exact h.next
  · rw [hid, hmatch, hlog]
    exact h.matched

theorem Indexed.handle {m : Message n} (h : s.Indexed) (hrun : s.leaderHandle m = some s') : s'.Indexed := by
  cases leaderHandle_cases hrun with
  | ignoreVotes other => exact h
  | ignoreEntries other => exact h
  | acknowledge direction type run => exact h.acknowledge run
  | clientRequest direction type entries run => exact indexed_broadcast h.tracks run
  | yield direction term => exact h.same rfl rfl rfl rfl le_rfl

/-- **A round of a leader keeps the indices in order**, also when the leader yields. -/
theorem Indexed.loop (h : s.Indexed) (hrun : s.leaderLoop timers incoming = some s') : s'.Indexed := by
  obtain ⟨out, v, u, -, rfl, hu, hlast⟩ := leaderLoop_cases hrun
  have hv : Indexed { s with talker := s.talker ++ out } := h.same rfl rfl rfl rfl le_rfl
  have hhandle : u.Indexed := by
    cases incoming with
    | none =>
      obtain rfl := Option.some.inj hu
      exact hv
    | some m => exact hv.handle hu
  rcases hlast with ⟨-, rfl⟩ | ⟨-, hlast⟩
  · exact hhandle
  rcases leaderClientRequest_cases hlast with ⟨-, rfl⟩ | ⟨request, queue, -, hlast⟩
  · exact hhandle
  · have hpop : Indexed { u with clientQueue := queue } := hhandle.same rfl rfl rfl rfl le_rfl
    exact indexed_broadcast hpop.tracks hlast

theorem indexed_leaderCall (hlog : s.log ≠ []) (hrun : s.leaderCall = some s') : s'.Indexed := by
  obtain ⟨u, hu, rfl⟩ := leaderCall_cases hrun
  exact (indexed_broadcast (tracks_takeOver hlog) hu).same rfl rfl rfl rfl le_rfl

/-- Only a leader's round ends in the loop of `_leader`. -/
theorem round_leader (h : s.round timers incoming = some s') (hframe : s'.frame = .leader) :
    s.frame = .leader := by
  have hrole : s.frame.role = some .leader := by
    rcases round_frame h with hrun | hsame
    · rw [hframe] at hrun
      cases hrun
    · rw [← hsame, hframe]
      rfl
  cases hf : s.frame with
  | leader => rfl
  | _ =>
    rw [hf] at hrole
    cases hrole

end RaftNode

/-! ## Threads -/

namespace Threads

variable {w : Threads n} {timers : Timers n} {incoming : Option (Message n)}

/-- The node's log begins with the first entry, its indices are in order while it is in the loop of `_leader`,
and no exception has ended its thread. -/
structure Disciplined (w : Threads n) : Prop where
  first : w.node.log[0]? = some initEntry
  leads : w.node.frame = .leader → w.node.Indexed
  alive : w.thread ≠ .dead

theorem Disciplined.log (h : w.Disciplined) : w.node.log ≠ [] := by
  intro hnil
  have hfirst := h.first
  rw [hnil] at hfirst
  cases hfirst

/-- **No role function raises an exception before its loop.** -/
theorem Disciplined.enter (h : w.Disciplined) (role : Role) :
    ∃ s, w.node.enter role = some s ∧ (s.frame = .leader → s.Indexed) := by
  cases role with
  | leader =>
    obtain ⟨s, hs, -⟩ := RaftNode.leaderCall_returns h.log
    exact ⟨s, hs, fun _ => RaftNode.indexed_leaderCall h.log hs⟩
  | follower => exact ⟨_, rfl, nofun⟩
  | candidate => exact ⟨_, rfl, nofun⟩
  | none => exact ⟨_, rfl, h.leads⟩

/-- **No round of a loop raises an exception.** -/
theorem Disciplined.round (h : w.Disciplined) (timers : Timers n) (hm : ∀ m, incoming = some m → m.Complete) :
    ∃ s, w.node.round timers incoming = some s ∧ (w.node.frame = .leader → s.Indexed) := by
  have hreturns : ∃ s, w.node.round timers incoming = some s := by
    unfold RaftNode.round
    split
    · exact ⟨_, rfl⟩
    · exact RaftNode.followerLoop_returns hm
    · exact ⟨_, rfl⟩
    · rename_i hf
      obtain ⟨s, hs, -⟩ := (h.leads hf).tracks.loop hm
      exact ⟨s, hs⟩
  obtain ⟨s, hs⟩ := hreturns
  refine ⟨s, hs, fun hf => ?_⟩
  have hloop : w.node.leaderLoop timers incoming = some s := by
    unfold RaftNode.round at hs
    rw [hf] at hs
    exact hs
  exact (h.leads hf).loop hloop

/-- **Every step of a thread keeps the discipline.** -/
theorem Disciplined.threadStep (h : w.Disciplined) (hm : ∀ m, incoming = some m → m.Complete) :
    (w.threadStep timers incoming).Disciplined := by
  have hfirst := (w.advances_threadStep timers incoming).first _ h.first
  suffices hrest : ((w.threadStep timers incoming).node.frame = .leader →
      (w.threadStep timers incoming).node.Indexed) ∧ (w.threadStep timers incoming).thread ≠ .dead from
    ⟨hfirst, hrest.1, hrest.2⟩
  have htest : ∀ role next, next ≠ .dead → ((w.test role next).node.frame = .leader →
      (w.test role next).node.Indexed) ∧ (w.test role next).thread ≠ .dead := by
    intro role next hnext
    refine ⟨h.leads, ?_⟩
    unfold test
    dsimp only
    split
    · simp
    · exact hnext
  unfold Threads.threadStep
  cases hthread : w.thread with
  | testLeader => exact htest .leader .testFollower (by simp)
  | testFollower => exact htest .follower .testCandidate (by simp)
  | testCandidate => exact htest .candidate .testLeader (by simp)
  | call role =>
    obtain ⟨s, hs, hleads⟩ := h.enter role
    simp only [hs]
    exact ⟨hleads, by simp⟩
  | check =>
    simp only
    split
    · exact ⟨h.leads, by simp⟩
    · -- the thread is back in `run`
      exact ⟨nofun, by simp⟩
  | round =>
    obtain ⟨s, hs, hleads⟩ := h.round timers hm
    simp only [hs]
    split
    · -- the node is in its loop until the role is set
      exact ⟨fun hf => (hleads hf).same rfl rfl rfl rfl le_rfl, by simp⟩
    · exact ⟨fun hf => hleads (RaftNode.round_leader hs hf), by simp⟩
  | set role => exact ⟨nofun, by simp⟩
  | dead => exact absurd hthread h.alive

end Threads

/-! ## Clusters -/

namespace Hosts

variable {w : Hosts n} {w₁ : World n} {turn : Turn n} {b : Fin n} {m : Option (Message n)} {t : Threads n}

/-- Every node of the cluster is disciplined. -/
structure Disciplined (w : Hosts n) : Prop where
  posted : w.Posted
  nodes : ∀ a, (w.threads a).Disciplined

theorem disciplined_init (roles : Fin n → Role) : (init roles).Disciplined := by
  refine ⟨posted_init roles, ?_⟩
  intro a
  refine ⟨rfl, ?_, ?_⟩
  · intro hf
    cases hf
  · intro hdead
    cases hdead

/-- What is in flight has the fields that its handlers read. -/
theorem Posted.complete (h : w.Posted) {a c : Fin n} {o : Message n} (ho : o ∈ w.chan a c) : o.Complete := by
  obtain ⟨u, -, -, hsends⟩ := h.posts a c o ho
  exact hsends.complete

theorem Disciplined.acts (h : w.Disciplined) (hacts : w.Acts turn b m t w₁) : t.Disciplined := by
  obtain ⟨hfirst, hleads, halive⟩ := h.nodes b
  have hcomplete : ∀ o, m = some o → o.Complete := by
    rintro o rfl
    obtain ⟨a, ha⟩ := hacts.sent
    exact h.posted.complete ha
  cases hacts with
  | clientRequest => exact ⟨hfirst, fun hf => (hleads hf).same rfl rfl rfl rfl le_rfl, halive⟩
  | pause => exact ⟨hfirst, fun hf => (hleads hf).same rfl rfl rfl rfl le_rfl, halive⟩
  | unPause => exact ⟨hfirst, fun hf => (hleads hf).same rfl rfl rfl rfl le_rfl, halive⟩
  | thread b r point => exact (h.nodes b).threadStep hcomplete
  | round b r point recv => exact (h.nodes b).threadStep hcomplete

theorem Disciplined.step (h : w.Disciplined) (turn : Turn n) : (w.step turn).Disciplined := by
  have hposted := h.posted.step turn
  rcases w.step_cases turn with heq | ⟨b, m, t, w₁, hacts, heq⟩
  · rw [heq]
    exact h
  refine ⟨hposted, ?_⟩
  intro a
  rw [heq]
  obtain ⟨hfirst, hleads, halive⟩ := h.acts hacts
  by_cases hab : a = b
  · have hnode := (hacts.put_node a).trans (if_pos hab)
    have hthread := (hacts.put_thread a).trans (if_pos hab)
    refine ⟨?_, ?_, ?_⟩
    · show ((put ⟨w₁, w.thread⟩ b t).node a).log[0]? = _
      rw [hnode]
      exact hfirst
    · show ((put ⟨w₁, w.thread⟩ b t).node a).frame = .leader → ((put ⟨w₁, w.thread⟩ b t).node a).Indexed
      rw [hnode]
      exact fun hf => (hleads hf).same rfl rfl rfl rfl le_rfl
    · show (put ⟨w₁, w.thread⟩ b t).thread a ≠ _
      rw [hthread]
      exact halive
  · have hsame : (put ⟨w₁, w.thread⟩ b t).threads a = w.threads a := by
      unfold threads
      rw [hacts.put_node, hacts.put_thread, if_neg hab, if_neg hab]
    rw [hsame]
    exact h.nodes a

/-- **The indices of a cluster are in order.** That no access of a thread was out of range, or at a negative
index, is that the thread has not died. -/
structure IndexDiscipline (w : Hosts n) : Prop where
  first : ∀ a, (w.node a).log[0]? = some initEntry
  sent : ∀ a c m, .appendEntries m ∈ w.chan a c → m.type = .appendEntries → ∃ p : ℕ, m.prevLogIndex = some p
  next : ∀ a, (w.node a).frame = .leader → ∀ i k, (w.node a).nextIndex i = some k →
    1 ≤ k ∧ k ≤ (w.node a).log.length - 1
  own : ∀ a, (w.node a).frame = .leader →
    (w.node a).nextIndex a = none ∧ (w.node a).matchIndex a = (w.node a).log.length - 1
  alive : ∀ a, w.thread a ≠ .dead

theorem Disciplined.indexDiscipline (h : w.Disciplined) : w.IndexDiscipline where
  first a := (h.nodes a).first
  sent a c m hm htype := by
    obtain ⟨-, p, -, -, hp, -, -⟩ := (h.posted.complete hm).1 htype
    exact ⟨p, hp⟩
  next a hf i k hk := by
    obtain ⟨h0, hlt⟩ := ((h.nodes a).leads hf).tracks.next i k hk
    have hlt' : k < (w.node a).log.length := hlt
    omega
  own a hf := by
    have hindexed := (h.nodes a).leads hf
    have hid : (w.node a).myId = a := (h.posted.wired a).1
    have hnext : (w.node a).nextIndex (w.node a).myId = none := hindexed.next
    have hmatch : (w.node a).matchIndex (w.node a).myId + 1 = (w.node a).log.length := hindexed.matched
    rw [hid] at hnext hmatch
    exact ⟨hnext, by omega⟩
  alive a := (h.nodes a).alive

end Hosts

/-- **Index discipline**: in every run, whatever roles the nodes begin with. -/
theorem index_discipline (roles : Fin n → Role) (turns : List (Turn n)) (k : ℕ) :
    (hostsAt roles turns k).IndexDiscipline := by
  have hdisciplined : (hostsAt roles turns k).Disciplined := by
    apply Lib.stateAt_invariant
    · exact Hosts.disciplined_init roles
    · intro j hj h
      exact h.step turns[j]
  exact hdisciplined.indexDiscipline

end EdgeConsensus.Raft
