import EdgeConsensus.Raft.Commit
import EdgeConsensus.Raft.Requests

/-!
# What a leader keeps track of

While a node is in the loop of `_leader`, `next_index` names entries of its log
other than the first, and a match index above the commit index names one too
(`Tracks`). No list access of the source is out of range then:

* `tracked_wAt`: the leaders of a run keep track, all its messages are built by
  the `_send_…` methods, and no log is empty.
* `call_returns`, `loop_returns`: so no method raises an exception.
-/

namespace EdgeConsensus.Raft

variable {n : ℕ}

/-- The fields that the handlers of a message read are there. -/
def Message.Complete : Message n → Prop
  | .requestVotes _ => True
  | .appendEntries m =>
    (m.type = .appendEntries → m.direction = .request ∧
      ∃ p t e, m.prevLogIndex = some p ∧ m.prevLogTerm = some t ∧ m.entries = some e) ∧
    (m.type = .committal → ∃ i t, m.prevLogIndex = some i ∧ m.prevLogTerm = some t) ∧
    (m.type = .clientRequest → ∃ e, m.entries = some e)

namespace RaftNode

variable {s s' u : RaftNode n} {timers : Timers n}

theorem Sends.complete {o : Message n} (h : s.Sends o) : o.Complete := by
  cases h with
  | requestVote => trivial
  | vote candidate voteGranted => trivial
  | heartbeat => exact ⟨by simp, by simp, by simp⟩
  | appendEntries index term entries receiver =>
    exact ⟨fun _ => ⟨rfl, index, term, entries, rfl, rfl, rfl⟩, by simp, by simp⟩
  | committal receiver =>
    exact ⟨by simp, fun _ => ⟨s.lastAppliedIndex, s.lastAppliedTerm, rfl, rfl⟩, by simp⟩
  | acknowledge receiver success => exact ⟨by simp, by simp, by simp⟩
  | clientRequest receiver entry => exact ⟨by simp, by simp, fun _ => ⟨entry, rfl⟩⟩

theorem Emits.complete {me : Fin n} {o : Message n} (h : Emits me o) : o.Complete := by
  obtain ⟨s, -, hs⟩ := h
  exact hs.complete

/-- The bookkeeping of a leader. -/
structure Tracks (s : RaftNode n) : Prop where
  log : s.log ≠ []
  next : ∀ i k, s.nextIndex i = some k → 0 < k ∧ k < s.log.length
  matched : ∀ i, s.matchIndex i ≤ s.commitIndex ∨ s.matchIndex i < s.log.length

/-- Of an entry that is not the first, the one before is there as well. -/
theorem exists_entries {k : ℕ} (h0 : 0 < k) (hk : k < s.log.length) :
    ∃ j prev e, k = j + 1 ∧ s.log[j]? = some prev ∧ s.log[k]? = some e := by
  have hj : k - 1 < s.log.length := by omega
  exact ⟨k - 1, s.log[k - 1], s.log[k], by omega, List.getElem?_eq_getElem hj,
    List.getElem?_eq_getElem hk⟩

/-! ## The methods of a leader return -/

theorem broadcastAppendEntries_returns (h : s.log ≠ []) (e : Entry) :
    ∃ s', s.broadcastAppendEntries e = some s' := by
  unfold broadcastAppendEntries appendEntry
  have hlast := List.getLast?_eq_some_getLast h
  simp [hlast]

theorem Tracks.broadcast {e : Entry} (h : s.Tracks) (hb : s.broadcastAppendEntries e = some s') :
    s'.Tracks := by
  obtain ⟨last, -, rfl⟩ := broadcastAppendEntries_eq hb
  have hlen : (s.log ++ [e]).length = s.log.length + 1 := by simp
  have hpos : 0 < s.log.length := List.length_pos_iff.2 h.log
  refine ⟨by simp, fun i k hk => ?_, fun i => ?_⟩
  · simp only at hk ⊢
    rw [hlen]
    split at hk
    · cases hk
    split at hk
    -- a node that was up to date is to get the new entry next
    · obtain rfl := Option.some.inj hk
      omega
    · have := h.next i k hk
      omega
  · simp only
    rw [hlen]
    by_cases hi : i = s.myId
    · subst hi
      rw [Function.update_self]
      omega
    · rw [Function.update_of_ne hi]
      rcases h.matched i with hm | hm
      · exact Or.inl hm
      · exact Or.inr (by omega)

theorem Tracks.resend (timers : Timers n) :
    ∀ (l : List (Fin n)) (s : RaftNode n), s.Tracks →
      ∃ s', l.foldlM (RaftNode.resend timers) s = some s' ∧ s'.Tracks := by
  intro l
  induction l with
  | nil =>
    intro s h
    exact ⟨s, rfl, h⟩
  | cons x l ih =>
    intro s h
    have hone : ∃ u, RaftNode.resend timers s x = some u ∧ u.Tracks := by
      unfold RaftNode.resend
      cases hx : s.nextIndex x with
      | none => exact ⟨s, rfl, h⟩
      | some k =>
        obtain ⟨h0, hk⟩ := h.next x k hx
        obtain ⟨j, prev, e, rfl, hprev, he⟩ := exists_entries h0 hk
        simp only
        split
        · refine ⟨s.sendAppendEntries j prev.term e x, ?_, ⟨h.log, h.next, h.matched⟩⟩
          simp [before, hprev, he]
        · exact ⟨s, rfl, h⟩
    obtain ⟨u, hu, htracks⟩ := hone
    obtain ⟨s', hs', h'⟩ := ih u htracks
    exact ⟨s', by simp [hu, hs'], h'⟩

/-- The next index after an acknowledgement. -/
theorem ackIndex_returns {i : Fin n} {k : ℕ} (hk : s.nextIndex i = some k) (h0 : 0 < k) (success : Bool) :
    ∃ u next, s.ackIndex i k success = some (u, next) ∧ 0 < next := by
  unfold ackIndex
  cases success with
  | true => exact ⟨_, k + 1, rfl, by omega⟩
  | false =>
    by_cases h1 : k = 1
    · exact ⟨s, k, by simp [h1], h0⟩
    · obtain ⟨j, rfl⟩ : ∃ j, k = j + 1 := ⟨k - 1, by omega⟩
      have hj : 0 < j := by omega
      refine ⟨{ s with nextIndex := Function.update s.nextIndex i (some j) }, j, ?_, hj⟩
      simp [before, hj.ne']

/-- A leader that has moved the next index of node `i` brings it into its log or drops it. -/
theorem sendNext_returns {i : Fin n} {next : ℕ} (hlog : s.log ≠ []) (h0 : 0 < next)
    (hi : s.nextIndex i = some next)
    (hothers : ∀ j k, j ≠ i → s.nextIndex j = some k → 0 < k ∧ k < s.log.length)
    (hmatch : ∀ j, s.matchIndex j ≤ s.commitIndex ∨ s.matchIndex j < s.log.length) :
    ∃ s', s.sendNext i next = some s' ∧ s'.Tracks := by
  have hpos : 0 < s.log.length := List.length_pos_iff.2 hlog
  unfold sendNext
  by_cases hgt : next > s.logMaxIndex
  · refine ⟨_, if_pos hgt, ⟨hlog, fun j k hk => ?_, hmatch⟩⟩
    by_cases hj : j = i
    · subst hj
      simp at hk
    · simp only [Function.update_of_ne hj] at hk
      exact hothers j k hj hk
  · have hlt : next < s.log.length := by
      unfold logMaxIndex at hgt
      omega
    obtain ⟨j, prev, e, rfl, hprev, he⟩ := exists_entries h0 hlt
    refine ⟨s.sendAppendEntries j prev.term e i, ?_, ⟨hlog, fun x k hk => ?_, hmatch⟩⟩
    · rw [if_neg hgt]
      simp [before, hprev, he]
    · have hk' : s.nextIndex x = some k := hk
      by_cases hx : x = i
      · subst hx
        obtain rfl : j + 1 = k := Option.some.inj (hi.symm.trans hk')
        exact ⟨h0, hlt⟩
      · exact hothers x k hx hk'

/-- What a leader commits is in its log, as it is no more than any match index. -/
theorem Tracks.commit (h : s.Tracks) (i : Fin n) : ∃ s', s.commitMatched = some s' ∧ s'.Tracks := by
  unfold commitMatched
  split
  · rename_i hgt
    have hle := maxCommittableIndex_le s.matchIndex i
    have hlt : maxCommittableIndex s.matchIndex < s.log.length := by
      rcases h.matched i with hm | hm <;> omega
    have hreturns : ∃ s', s.broadcastCommmitEntries (maxCommittableIndex s.matchIndex) = some s' := by
      simp [broadcastCommmitEntries, hlt]
    obtain ⟨s', hs'⟩ := hreturns
    obtain ⟨e, -, rfl⟩ := broadcastCommmitEntries_eq hs'
    refine ⟨_, hs', ⟨h.log, h.next, fun j => ?_⟩⟩
    rcases h.matched j with hm | hm
    · exact Or.inl (le_trans hm (Nat.le_of_lt hgt))
    · exact Or.inr hm
  · exact ⟨s, rfl, h⟩

/-- **A leader that keeps track handles every acknowledgement**, and keeps track. -/
theorem Tracks.acknowledge (h : s.Tracks) (m : AppendEntriesMessage n) :
    ∃ s', s.leaderAcknowledge m = some s' ∧ s'.Tracks := by
  unfold leaderAcknowledge
  cases hk : s.nextIndex m.sender with
  | none => exact ⟨s, rfl, h⟩
  | some k =>
    obtain ⟨h0, hklen⟩ := h.next m.sender k hk
    obtain ⟨u, next, hu, hnext0⟩ := ackIndex_returns hk h0 (m.results.success == some true)
    obtain ⟨-, rfl⟩ := ackIndex_eq hk hu
    obtain ⟨v, hv, htracks⟩ := sendNext_returns (i := m.sender) (s := { s with
        matchIndex := if m.results.success == some true then
          Function.update s.matchIndex m.sender k else s.matchIndex
        nextIndex := Function.update s.nextIndex m.sender (some next) }) h.log hnext0 (by simp)
      (fun j k' hj hk' => by
        simp only [Function.update_of_ne hj] at hk'
        exact h.next j k' hk')
      (fun j => by
        simp only
        split
        · by_cases hj : j = m.sender
          · subst hj
            rw [Function.update_self]
            exact Or.inr hklen
          · rw [Function.update_of_ne hj]
            exact h.matched j
        · exact h.matched j)
    obtain ⟨s', hs', h'⟩ := htracks.commit m.sender
    refine ⟨s', ?_, h'⟩
    simp only [hu, Option.bind_eq_bind, Option.bind_some]
    exact (congrArg (Option.bind · commitMatched) hv).trans hs'

theorem Tracks.handle (h : s.Tracks) {m : Message n} (hm : m.Complete) :
    ∃ s', s.leaderHandle m = some s' ∧ (s'.frame = .run ∨ s'.Tracks) := by
  unfold leaderHandle
  split
  · rename_i m _
    split
    · obtain ⟨s', hs', h'⟩ := h.acknowledge m
      exact ⟨s', hs', Or.inr h'⟩
    · rename_i ht
      obtain ⟨e, he⟩ := hm.2.2 ht
      obtain ⟨s', hs'⟩ := broadcastAppendEntries_returns h.log e
      exact ⟨s', by simp [he, hs'], Or.inr (h.broadcast hs')⟩
    · exact ⟨s, rfl, Or.inr h⟩
  · split
    · exact ⟨_, rfl, Or.inl rfl⟩
    · exact ⟨s, rfl, Or.inr h⟩
  · exact ⟨s, rfl, Or.inr h⟩

theorem Tracks.clientRequest (h : s.Tracks) : ∃ s', s.leaderClientRequest = some s' ∧ s'.Tracks := by
  unfold leaderClientRequest
  split
  · exact ⟨s, rfl, h⟩
  · rename_i request queue _
    have h' : Tracks { s with clientQueue := queue } := ⟨h.log, h.next, h.matched⟩
    obtain ⟨s', hs'⟩ := broadcastAppendEntries_returns h'.log request
    exact ⟨s', hs', h'.broadcast hs'⟩

/-- **A round of a leader that keeps track returns**, and it keeps track or is out of the loop. -/
theorem Tracks.loop (h : s.Tracks) {incoming : Option (Message n)}
    (hm : ∀ m, incoming = some m → m.Complete) :
    ∃ s', s.leaderLoop timers incoming = some s' ∧ (s'.frame = .run ∨ s'.Tracks) := by
  unfold leaderLoop
  have hbeat : Tracks (if timers.heartbeat then s.sendHeartbeat else s) := by
    split
    · exact ⟨h.log, h.next, h.matched⟩
    · exact h
  obtain ⟨v, hv, hvt⟩ := Tracks.resend timers (List.finRange n) _ hbeat
  have hhandle : ∃ u, incoming.elim (some v) v.leaderHandle = some u ∧ (u.frame = .run ∨ u.Tracks) := by
    cases incoming with
    | none => exact ⟨v, rfl, Or.inr hvt⟩
    | some m => exact hvt.handle (hm m rfl)
  obtain ⟨u, hu, hut⟩ := hhandle
  simp only [hv, hu, Option.bind_eq_bind, Option.bind_some, Option.pure_def]
  split
  · rename_i hrun
    exact ⟨u, rfl, Or.inl hrun⟩
  · rename_i hrun
    obtain ⟨s', hs', h'⟩ := (hut.resolve_left hrun).clientRequest
    exact ⟨s', hs', Or.inr h'⟩

/-- A node that begins to lead has all the others up to date. -/
theorem tracks_takeOver (hlog : s.log ≠ []) : s.takeOver.Tracks := by
  refine ⟨hlog, ?_, fun i => Or.inl le_rfl⟩
  intro i k hk
  cases hk

theorem leaderCall_returns (hlog : s.log ≠ []) : ∃ s', s.leaderCall = some s' ∧ s'.Tracks := by
  have h0 := tracks_takeOver hlog
  obtain ⟨u, hu⟩ := broadcastAppendEntries_returns h0.log (leaderEntry s.currentTerm)
  obtain ⟨hlog', hnext, hmatch⟩ := h0.broadcast hu
  refine ⟨{ u with frame := .leader }, ?_, ⟨hlog', hnext, hmatch⟩⟩
  unfold leaderCall
  simp only [Option.bind_eq_bind, Option.pure_def, Option.bind_eq_some_iff]
  exact ⟨u, hu, rfl⟩

/-! ## The methods of a follower return -/

theorem followerAppendEntries_returns {m : AppendEntriesMessage n} {p t : ℕ} {e : Entry}
    (hp : m.prevLogIndex = some p) (ht : m.prevLogTerm = some t) (he : m.entries = some e) :
    ∃ s', s.followerAppendEntries m = some s' := by
  unfold followerAppendEntries
  by_cases hterm : m.term < s.currentTerm
  · exact ⟨_, if_pos hterm⟩
  cases hver : s.verifyEntry p t with
  | false => exact ⟨_, by simp [hterm, hp, ht, hver]; rfl⟩
  | true =>
    -- there is an entry before the new one
    have hne : s.log.take (p + 1) ≠ [] := by
      rw [verifyEntry_iff] at hver
      intro h0
      have hlen := congrArg List.length h0
      cases hl : s.log with
      | nil => simp [hl] at hver
      | cons x l => simp [hl] at hlen
    have hlast := List.getLast?_eq_some_getLast hne
    simp [hterm, hp, ht, hver, he, appendEntry, hlast]

theorem followerLoop_returns {incoming : Option (Message n)} (hm : ∀ m, incoming = some m → m.Complete) :
    ∃ s', s.followerLoop timers incoming = some s' := by
  have hhandle : ∃ u, incoming.elim (some s) s.followerHandle = some u := by
    cases incoming with
    | none => exact ⟨s, rfl⟩
    | some m =>
      have hcomplete := hm m rfl
      show ∃ u, s.followerHandle m = some u
      unfold followerHandle
      split
      · exact ⟨s, rfl⟩
      split
      · exact ⟨_, rfl⟩
      rename_i r
      split
      · exact ⟨_, rfl⟩
      · rename_i htype
        obtain ⟨-, p, t, e, hp, ht, he⟩ := hcomplete.1 htype
        exact followerAppendEntries_returns hp ht he
      · rename_i htype
        obtain ⟨i, t, hi, ht⟩ := hcomplete.2.1 htype
        exact ⟨s.commitEntry i t, by simp [followerCommittal, hi, ht]⟩
      · exact ⟨s, rfl⟩
  obtain ⟨u, hu⟩ := hhandle
  unfold followerLoop
  simp [hu]

end RaftNode

/-! ## The cluster -/

namespace World

/-- The logs, the leaders' bookkeeping and the messages of a cluster are in order. -/
structure Tracked (w : World n) : Prop where
  wired : w.Wired
  log : ∀ a, (w.node a).log ≠ []
  applied : ∀ a, (w.node a).lastAppliedIndex = (w.node a).commitIndex
  tracks : ∀ a, (w.node a).presides = true → (w.node a).Tracks
  emits : ∀ a c, ∀ m ∈ w.chan a c, RaftNode.Emits a m
  reaches : ∀ a c, ∀ m ∈ w.chan a c, m.reaches c = true

variable {w w₁ : World n} {ev : Event n} {b : Fin n} {s : RaftNode n}

theorem tracked_init : (World.init : World n).Tracked := by
  refine ⟨fun a => ⟨rfl, rfl⟩, ?_, fun a => rfl, ?_, ?_, ?_⟩
  · intro a; simp [World.init, RaftNode.init]
  · intro a h; simp [World.init, RaftNode.init, RaftNode.presides] at h
  · intro a c m hm; simp [World.init] at hm
  · intro a c m hm; simp [World.init] at hm

theorem Tracked.incoming (h : w.Tracked) {r : Round n} {m : Option (Message n)}
    (hm : w.incoming b r = some m) : ∀ x, m = some x → x.Complete := by
  rintro x rfl
  obtain ⟨a, i, -, -, hi⟩ := incoming_eq hm
  exact (h.emits a b x (List.mem_of_getElem? hi)).complete

theorem Delivers.complete {m : Message n} {a : Fin n} {i : ℕ} (h : w.Tracked)
    (hd : w.Delivers ev b m a i) : m.Complete :=
  (h.emits a b m (List.mem_of_getElem? hd.sent)).complete

/-- **`run` calls no role function that raises an exception.** -/
theorem Tracked.call_returns (h : w.Tracked) (b : Fin n) : ∃ s, (w.node b).call = some s := by
  unfold RaftNode.call
  split
  · obtain ⟨s, hs, -⟩ := RaftNode.leaderCall_returns (h.log b)
    exact ⟨s, hs⟩
  · exact ⟨_, rfl⟩
  · exact ⟨_, rfl⟩
  · exact ⟨_, rfl⟩

/-- **No round of a loop raises an exception.** -/
theorem Tracked.loop_returns (h : w.Tracked) {r : Round n} {m : Option (Message n)}
    (hm : w.incoming b r = some m) : ∃ s, (w.node b).loop r.toTimers m = some s := by
  unfold RaftNode.loop
  split
  · exact ⟨_, rfl⟩
  · split
    · exact RaftNode.followerLoop_returns (h.incoming hm)
    · exact ⟨_, rfl⟩
  · split
    · exact ⟨_, rfl⟩
    · exact ⟨_, rfl⟩
  · rename_i hf
    split
    · rename_i hr
      obtain ⟨s, hs, -⟩ := (h.tracks b (by simp [RaftNode.presides, hf, hr])).loop (h.incoming hm)
      exact ⟨s, hs⟩
    · exact ⟨_, rfl⟩

/-- A round of a loop that can happen happens. -/
theorem Tracked.round_acts {m : Option (Message n)} (h : w.Tracked) (hr : w.round ev = some (b, m)) :
    ∃ s w₁, w.Acts ev b m s w₁ ∧ w.step ev = w₁.put b s := by
  cases ev with
  | clientRequest => cases hr
  | call => cases hr
  | loop c r =>
    simp only [round] at hr
    split at hr
    · cases hr
    rename_i hf
    rw [Option.map_eq_some_iff] at hr
    obtain ⟨m', hm', heq⟩ := hr
    obtain ⟨rfl, rfl⟩ := Prod.mk.inj heq
    obtain ⟨s, hs⟩ := h.loop_returns hm'
    exact ⟨s, _, .loop c r hf hm' hs, by simp [World.step, hf, hm', hs]⟩

/-- The node that acts keeps a log, and keeps track if it leads. -/
theorem Tracked.acts {m : Option (Message n)} (h : w.Tracked) (hacts : w.Acts ev b m s w₁) :
    s.log ≠ [] ∧ (s.presides = true → s.Tracks) := by
  have hlog := h.log b
  rcases hacts.requests with ⟨value, idNum, -, rfl, -, -⟩ | ⟨-, out, hhands, hstep⟩
  · exact ⟨hlog, fun hp => ⟨hlog, (h.tracks b hp).next, (h.tracks b hp).matched⟩⟩
  refine ⟨?_, fun hp => ?_⟩
  · cases hstep with
    | keep queue log => rw [log]; exact hlog
    | forward role queue log => rw [log]; exact hlog
    | call frame role queue log => rw [log]; simp
    | lead presides term role taking queue log => rw [log]; simp [hlog]
    | accept recv accepts index prevTerm entries verified queue log => rw [log]; simp
  · cases hacts with
    | clientRequest _ value idNum => exact ⟨hlog, (h.tracks b hp).next, (h.tracks b hp).matched⟩
    | call _ frame run =>
      cases RaftNode.call_cases run with
      | leader role run =>
        obtain ⟨s', hs', h'⟩ := RaftNode.leaderCall_returns (s := w.node b) hlog
        obtain rfl := Option.some.inj (run.symm.trans hs')
        exact h'
      | follower role => simp [RaftNode.presides] at hp
      | candidate role => simp [RaftNode.presides, RaftNode.candidateCall] at hp
      | none role => simp [RaftNode.presides, frame] at hp
    | loop _ r frame recv run =>
      -- a node that presides after a round is still in the loop of `_leader`
      have hnot : s.frame = .leader := by
        simp only [RaftNode.presides, Bool.and_eq_true, decide_eq_true_eq] at hp
        exact hp.1
      cases RaftNode.loop_cases run with
      | run hf => exact absurd hf frame
      | leave => cases hnot
      | follower hf hr hrun => exact absurd hnot (RaftNode.follows_followerLoop hf hr hrun).frame
      | candidate hf => exact absurd hnot (RaftNode.idle_candidateLoop (by simp [hf])).frame
      | leader hf hr hrun =>
        have htracks := h.tracks b (by simp [RaftNode.presides, hf, hr])
        have hloop : ∃ s', (w.node b).leaderLoop r.toTimers m = some s' ∧
            (s'.frame = .run ∨ s'.Tracks) := htracks.loop (h.incoming recv)
        obtain ⟨s', hs', h'⟩ := hloop
        obtain rfl := Option.some.inj (hrun.symm.trans hs')
        rcases h' with hout | h'
        · rw [hout] at hnot
          cases hnot
        · exact h'

/-- **Every step keeps a cluster in order.** -/
theorem Tracked.step (h : w.Tracked) (ev : Event n) : (w.step ev).Tracked := by
  have hwired := h.wired.step ev
  rcases w.step_cases ev with heq | ⟨b, m, s, w₁, hacts, heq⟩
  · rw [heq]; exact h
  obtain ⟨hlog, htracks⟩ := h.acts hacts
  refine ⟨hwired, fun a => ?_, fun a => ?_, fun a hp => ?_, fun a c o ho => ?_, fun a c o ho => ?_⟩
  · rw [heq]
    by_cases hab : a = b
    · subst hab
      rw [put_node_self]; exact hlog
    · rw [put_node_ne hab, hacts.node]; exact h.log a
  · rw [heq]
    by_cases hab : a = b
    · subst hab
      rw [put_node_self]
      rcases hacts.requests with ⟨value, idNum, -, rfl, -, -⟩ | ⟨-, out, hhands, -⟩
      · exact h.applied a
      · exact hhands.applied (h.applied a)
    · rw [put_node_ne hab, hacts.node]; exact h.applied a
  · rw [heq] at hp ⊢
    by_cases hab : a = b
    · subst hab
      rw [put_node_self] at hp ⊢
      obtain ⟨h1, h2, h3⟩ := htracks hp
      exact ⟨h1, h2, h3⟩
    · rw [put_node_ne hab, hacts.node] at hp ⊢
      exact h.tracks a hp
  · rw [heq, put_chan, hacts.chan, List.mem_append] at ho
    -- what is new in a stream is what the node that acts has sent
    rcases ho with ho | ho
    · exact h.emits a c o ho
    · split at ho
      · rename_i hab
        subst hab
        have hmem := List.mem_of_mem_filter ho
        rcases hacts.requests with ⟨value, idNum, -, rfl, -, -⟩ | ⟨-, out, hhands, -⟩
        · have htalker : ((w.node a).clientRequest value idNum).talker = [] := (h.wired a).2
          rw [htalker] at hmem; cases hmem
        · rw [hhands.talker, (h.wired a).2, List.nil_append] at hmem
          rw [← (h.wired a).1]
          exact hhands.emits o hmem
      · cases ho
  · rw [heq, put_chan, hacts.chan, List.mem_append] at ho
    rcases ho with ho | ho
    · exact h.reaches a c o ho
    · split at ho
      · exact (List.mem_filter.1 ho).2
      · cases ho

end World

/-- **The leaders of a run keep track**, and its messages and logs are in order. -/
theorem tracked_wAt (es : List (Event n)) (k : ℕ) : (wAt es k).Tracked :=
  Lib.stateAt_invariant World.tracked_init (fun _ _ h => h.step _) k

end EdgeConsensus.Raft
