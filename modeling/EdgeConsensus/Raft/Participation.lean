import EdgeConsensus.Raft.Indices
import EdgeConsensus.Raft.Leadership

/-!
# A commit needs every node

`_leader` means to commit what a majority holds, but its scan over the sorted match indices ends at the
least of them, and a leader commits only while it handles an acknowledgement of another node. So before
anything is committed anywhere, some leader has had a positive acknowledgement of every other node, and
there is another one: a single node that never answers stops the whole cluster, and a cluster of one
never commits.

* `leaderLoop_commit`: a leader commits on an acknowledgement that it waits for.
* `Uncommitted.step`: what one step does to a cluster in which nothing is committed.
* `commit_needs_everyone`: over runs.
-/

namespace EdgeConsensus.Raft

variable {n : ℕ} {es : List (Event n)} {a c d : Fin n} {k : ℕ}

namespace RaftNode

variable {s s' : RaftNode n} {timers : Timers n} {incoming : Option (Message n)}

/-- **A leader commits only on a message of a node that it has sent entries to.** -/
theorem leaderLoop_commit (h : s.leaderLoop timers incoming = some s') :
    s'.commitIndex = s.commitIndex ∨
      ∃ m k, incoming = some (.appendEntries m) ∧ s.nextIndex m.sender = some k := by
  obtain ⟨out, v, u, -, rfl, hu, hlast⟩ := leaderLoop_cases h
  have hbroadcast : ∀ {t t' : RaftNode n} {e : Entry}, t.broadcastAppendEntries e = some t' →
      t'.commitIndex = t.commitIndex := by
    intro t t' e hb
    obtain ⟨last, -, rfl⟩ := broadcastAppendEntries_eq hb
    rfl
  have hhandle : u.commitIndex = s.commitIndex ∨
      ∃ m k, incoming = some (.appendEntries m) ∧ s.nextIndex m.sender = some k := by
    cases incoming with
    | none =>
      obtain rfl := Option.some.inj hu
      exact Or.inl rfl
    | some m =>
      cases leaderHandle_cases hu with
      | ignoreVotes other => exact Or.inl rfl
      | ignoreEntries other => exact Or.inl rfl
      | @acknowledge m u direction type run =>
        rcases leaderAcknowledge_cases run with ⟨-, rfl⟩ | ⟨k, next, sent, hk, -, -, -⟩
        · exact Or.inl rfl
        · exact Or.inr ⟨m, k, rfl, hk⟩
      | clientRequest direction type entries run =>
        have hsame := hbroadcast run
        exact Or.inl hsame
      | yield direction term => exact Or.inl rfl
  refine hhandle.imp (fun heq => ?_) id
  rcases hlast with ⟨-, rfl⟩ | ⟨-, hlast⟩
  · exact heq
  rcases leaderClientRequest_cases hlast with ⟨-, rfl⟩ | ⟨request, queue, -, hlast⟩
  · exact heq
  · exact (hbroadcast hlast).trans heq

end RaftNode

/-- A leader never waits for itself. -/
theorem own_next (hframe : ((wAt es k).node a).frame = .leader) : ((wAt es k).node a).nextIndex a = none := by
  obtain ⟨turns, hworld⟩ := hosts_of_events es k
  have hdisciplined : (hostsAt (fun _ => .follower) turns turns.length).Disciplined := by
    apply Lib.stateAt_invariant
    · exact Hosts.disciplined_init _
    · intro j hj h
      exact h.step turns[j]
  rw [← hworld] at hframe ⊢
  exact hdisciplined.indexDiscipline.own a hframe |>.1

/-! ## Who has acknowledged -/

/-- Node `c` has by then led and taken a positive acknowledgement that `d` has sent to it. -/
def Acknowledged (es : List (Event n)) (k : ℕ) (d c : Fin n) : Prop :=
  ∃ j < k, ∃ (hj : j < es.length) (m : AppendEntriesMessage n), ((wAt es j).node c).currentRole = .leader ∧
    (wAt es j).round es[j] = some (c, some (.appendEntries m)) ∧ .appendEntries m ∈ (wAt es j).chan d c ∧
    m.type = .acknowledge ∧ m.results.success = some true

theorem Acknowledged.succ (h : Acknowledged es k d c) : Acknowledged es (k + 1) d c := by
  obtain ⟨j, hj, hrest⟩ := h
  exact ⟨j, Nat.lt_succ_of_lt hj, hrest⟩

/-- What a leader credits is acknowledged by its sender. -/
theorem acknowledged_of_credits {hk : k < es.length} {m : AppendEntriesMessage n} {j : ℕ}
    (hround : (wAt es k).round es[k] = some (c, some (.appendEntries m)))
    (hcredits : ((wAt es k).node c).credits m = some j) : Acknowledged es (k + 1) m.sender c := by
  obtain ⟨x, hx⟩ := World.round_some hround
  obtain ⟨s, hid, hsends⟩ := (tracked_wAt es k).emits x c _ hx
  have hsender : m.sender = x := hsends.sender.trans hid
  unfold RaftNode.credits at hcredits
  split at hcredits
  · rename_i hcond
    simp only [Bool.and_eq_true, decide_eq_true_eq] at hcond
    rw [hsender]
    exact ⟨k, Nat.lt_succ_self k, hk, m, RaftNode.presides_role hcond.1.1.1, hround, hx, hcond.1.2, hcond.2⟩
  · cases hcredits

/-- Some leader has had a positive acknowledgement of every other node, and there is one. -/
def EveryoneAnswered (es : List (Event n)) (k : ℕ) : Prop :=
  ∃ c, (∃ j ≤ k, ((wAt es j).node c).currentRole = .leader) ∧ (∃ d, d ≠ c) ∧ ∀ d ≠ c, Acknowledged es k d c

theorem EveryoneAnswered.succ (h : EveryoneAnswered es k) : EveryoneAnswered es (k + 1) := by
  obtain ⟨c, ⟨j, hj, hlead⟩, hother, hall⟩ := h
  exact ⟨c, ⟨j, by omega, hlead⟩, hother, fun d hd => (hall d hd).succ⟩

/-! ## Nothing is committed -/

/-- Nothing has been committed anywhere, and leaders count only on nodes that have acknowledged. -/
structure Uncommitted (es : List (Event n)) (k : ℕ) : Prop where
  commit : ∀ j ≤ k, ∀ a, ((wAt es j).node a).commitIndex = 0
  matched : ∀ c, ((wAt es k).node c).presides = true → ∀ d, 0 < ((wAt es k).node c).matchIndex d →
    d = c ∨ Acknowledged es k d c

theorem uncommitted_zero (es : List (Event n)) : Uncommitted es 0 := by
  refine ⟨fun j hj a => ?_, fun c hp => ?_⟩
  · rw [Nat.le_zero.1 hj]
    rfl
  · simp [World.init, RaftNode.init, RaftNode.presides] at hp

/-- So it is with the match indices after the message that a leader takes. -/
theorem Uncommitted.credited {hk : k < es.length} (h : Uncommitted es k) {incoming : Option (Message n)}
    {M : Fin n → ℕ} (hround : (wAt es k).round es[k] = some (c, incoming))
    (hp : ((wAt es k).node c).presides = true) (hM : RaftNode.Credited ((wAt es k).node c) incoming M)
    (hd : 0 < M d) : d = c ∨ Acknowledged es (k + 1) d c := by
  cases hM with
  | same => exact (h.matched c hp d hd).imp id Acknowledged.succ
  | @credit m j recv next =>
    subst recv
    by_cases heq : d = m.sender
    · rw [heq]
      exact Or.inr (acknowledged_of_credits hround next)
    · rw [Function.update_of_ne heq] at hd
      exact (h.matched c hp d hd).imp id Acknowledged.succ

/-- **The first commit**: a leader that commits has had the acknowledgements of all others. -/
theorem Uncommitted.first {hk : k < es.length} (h : Uncommitted es k) {incoming : Option (Message n)}
    {M : Fin n → ℕ} (hround : (wAt es k).round es[k] = some (c, incoming))
    (hp : ((wAt es k).node c).presides = true) (hM : RaftNode.Credited ((wAt es k).node c) incoming M)
    (hcommit : ((wAt es (k + 1)).node c).commitIndex = RaftNode.maxCommittableIndex M)
    (hpos : 0 < ((wAt es (k + 1)).node c).commitIndex) : EveryoneAnswered es (k + 1) := by
  refine ⟨c, ⟨k, Nat.le_succ k, RaftNode.presides_role hp⟩, ?_, ?_⟩
  · -- the message it commits on comes from a node that it waits for, so not from itself
    obtain ⟨timers, s, hloop, hnode⟩ := (tracked_wAt es k).round_loop hround
    have hframe : ((wAt es k).node c).frame = .leader ∧ ((wAt es k).node c).currentRole = .leader := by
      simpa [RaftNode.presides] using hp
    rw [RaftNode.loop_leader hframe.1 hframe.2] at hloop
    rcases RaftNode.leaderLoop_commit hloop with hsame | ⟨m, j, -, hnext⟩
    · rw [wAt_succ es hk, hnode] at hpos
      have hzero := h.commit k le_rfl c
      have hpos' : 0 < s.commitIndex := hpos
      omega
    · refine ⟨m.sender, fun heq => ?_⟩
      rw [heq, own_next hframe.1] at hnext
      cases hnext
  · intro d hd
    have hle := maxCommittableIndex_le M d
    exact (h.credited hround hp hM (by omega)).resolve_left hd

/-- **One step** of a cluster in which nothing has been committed, at one node. -/
theorem Uncommitted.step (h : Uncommitted es k) (a : Fin n) :
    EveryoneAnswered es (k + 1) ∨ (((wAt es (k + 1)).node a).commitIndex = 0 ∧
      (((wAt es (k + 1)).node a).presides = true → ∀ d, 0 < ((wAt es (k + 1)).node a).matchIndex d →
        d = a ∨ Acknowledged es (k + 1) d a)) := by
  have hzero := h.commit k le_rfl a
  have hid : ((wAt es k).node a).myId = a := (wired_wAt k a).1
  obtain ⟨⟨input, hstep, hround⟩, -⟩ := wAt_log es k a
  cases hstep with
  | keep log commit presides =>
    refine Or.inr ⟨commit.trans hzero, fun hp d hd => ?_⟩
    obtain ⟨hp', -, hmatch⟩ := presides hp
    rw [hmatch] at hd
    exact (h.matched a hp' d hd).imp id Acknowledged.succ
  | call role role' term log commit matched =>
    refine Or.inr ⟨commit.trans hzero, fun _ d hd => ?_⟩
    rcases matched d with heq | ⟨heq, -⟩
    · omega
    · exact Or.inl (heq.trans hid)
  | lead round presides grows log taken credited matched commit =>
    obtain ⟨hk, hr⟩ := hround _ round
    rcases Nat.eq_zero_or_pos ((wAt es (k + 1)).node a).commitIndex with hnone | hpos
    · refine Or.inr ⟨hnone, fun _ d hd => ?_⟩
      rcases matched d with heq | ⟨heq, -⟩
      · rw [heq] at hd
        exact h.credited hr presides credited hd
      · exact Or.inl (heq.trans hid)
    · rcases commit with heq | ⟨-, heq⟩
      · omega
      · exact Or.inl (h.first hr presides credited heq hpos)
  | @accept m p t e round accepts index prevTerm entries verified log commit follows =>
    -- the leader of the message had committed nothing
    obtain ⟨hk, hr⟩ := hround _ round
    obtain ⟨c, q, hq, prev, ho, -⟩ := accepted_offer hk hr accepts index prevTerm entries
    have hleader := ho.commit
    have hnone := h.commit q hq c
    refine Or.inr ⟨?_, fun hp => by rw [follows] at hp; cases hp⟩
    rw [commit, if_neg (by omega)]
    exact hzero
  | @committal m i t round obeys index prevTerm log commit follows =>
    obtain ⟨hk, hr⟩ := hround _ round
    obtain ⟨c, q, hq, e, htells, -⟩ := obeyed_told hk hr obeys index prevTerm
    have hleader := htells.commit
    have hnone := h.commit q hq c
    exact Or.inr ⟨by omega, fun hp => by rw [follows] at hp; cases hp⟩

theorem uncommitted_or_answered (es : List (Event n)) (k : ℕ) : EveryoneAnswered es k ∨ Uncommitted es k := by
  induction k with
  | zero => exact Or.inr (uncommitted_zero es)
  | succ k ih =>
    rcases ih with hall | hnone
    · exact Or.inl hall.succ
    by_cases hall : EveryoneAnswered es (k + 1)
    · exact Or.inl hall
    have hstep := fun a => (hnone.step a).resolve_left hall
    refine Or.inr ⟨fun j hj a => ?_, fun c hp d hd => ?_⟩
    · rcases Nat.le_or_eq_of_le_succ hj with hj | rfl
      · exact hnone.commit j hj a
      · exact (hstep a).1
    · exact (hstep c).2 hp d hd

/-- **A commit needs every node**: when anything has been committed at any node, some leader has had a
positive acknowledgement of every other node, and there is another one. So while one node has never
answered, or where there is only one, every commit index is 0. -/
theorem commit_needs_everyone (es : List (Event n)) (k : ℕ) (a : Fin n)
    (hcommit : 0 < ((wAt es k).node a).commitIndex) : EveryoneAnswered es k := by
  rcases uncommitted_or_answered es k with hall | hnone
  · exact hall
  · rw [hnone.commit k le_rfl a] at hcommit
    exact absurd hcommit (Nat.lt_irrefl 0)

theorem commit_needs_everyone_commitOnce : EveryoneAnswered commitOnce 12 :=
  commit_needs_everyone commitOnce 12 0 (by decide)

end EdgeConsensus.Raft
