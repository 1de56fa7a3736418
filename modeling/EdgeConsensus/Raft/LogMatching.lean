import EdgeConsensus.Raft.Election
import EdgeConsensus.Raft.LogStep

/-!
# Log matching

A client's entry is stamped with the term of the node that enqueues it, and
appended, maybe much later, by some leader of another term, so one term can stand
at one index of two logs with different entries: `stale_stamps`. In the runs where
a leader only appends entries of its own term (`EntryInTerm`), and votes are
counted in their term, the cluster's logs are a replicated log (`replicated`), and
any two of them match: `log_matching`.
-/

namespace EdgeConsensus.Raft

variable {n : ℕ}

/-- **Log matching** of a run: two logs with entries of one term at an index are
the same up to it. -/
def LogMatching (es : List (Event n)) : Prop :=
  ∀ (k : ℕ) (a b : Fin n) (i : ℕ) (e f : Entry), ((wAt es k).node a).log[i]? = some e →
    ((wAt es k).node b).log[i]? = some f → e.term = f.term →
    ∀ j ≤ i, ((wAt es k).node a).log[j]? = ((wAt es k).node b).log[j]?

namespace World

/-- The client entries a leader takes up in its round are of its term. -/
def EntryInTerm (w : World n) (ev : Event n) : Prop :=
  ∀ d ∈ w.round ev, (w.node d.1).presides = true →
    ∀ e ∈ (w.node d.1).taking d.2, e.term = (w.node d.1).currentTerm

instance (w : World n) (ev : Event n) : Decidable (w.EntryInTerm ev) := by
  unfold EntryInTerm; infer_instance

variable {w : World n} {ev : Event n}

theorem round_some {a : Fin n} {m : Message n} (h : w.round ev = some (a, some m)) :
    ∃ x, m ∈ w.chan x a := by
  cases ev with
  | clientRequest => cases h
  | call => cases h
  | loop b r =>
    simp only [round] at h
    split at h
    · cases h
    rw [Option.map_eq_some_iff] at h
    obtain ⟨m', hm', heq⟩ := h
    obtain ⟨rfl, rfl⟩ := Prod.mk.inj heq
    obtain ⟨x, i, -, -, hi⟩ := incoming_eq hm'
    exact ⟨x, List.mem_of_getElem? hi⟩

/-- **Every step is a log step at every node**, which vouches for what it sends. -/
theorem step_log (hw : w.Wired) (ev : Event n) (a : Fin n) :
    (∃ input, RaftNode.LogStep input (w.node a) ((w.step ev).node a) ∧
      ∀ m, input = some m → w.round ev = some (a, m)) ∧
    ∀ c, ∀ m ∈ (w.step ev).chan a c,
      m ∈ w.chan a c ∨ (w.node a).Vouches m ∨ ((w.step ev).node a).Vouches m := by
  have hidle : RaftNode.LogStep none (w.node a) (w.node a) := .keep rfl rfl fun h => ⟨h, rfl, rfl⟩
  rcases w.step_cases ev with h | ⟨b, m, s, w₁, hacts, h⟩
  · rw [h]
    exact ⟨⟨none, hidle, by simp⟩, fun c m hm => Or.inl hm⟩
  by_cases hab : a = b
  · subst hab
    -- the node that acts; its input is a message only in a round of a loop
    have hrec : ∃ input, RaftNode.Records input (w.node a) s ∧
        ∀ m, input = some m → w.round ev = some (a, m) := by
      cases hacts with
      | clientRequest _ value idNum => exact ⟨none, RaftNode.clientRequest_records value idNum, by simp⟩
      | call _ frame run => exact ⟨none, RaftNode.call_records frame run, by simp⟩
      | loop _ r frame recv run =>
        refine ⟨_, RaftNode.loop_records run, fun m' hm' => ?_⟩
        rw [Option.some.inj hm'] at recv
        simp [round, frame, recv]
    obtain ⟨input, ⟨hstep, out, hout, hvouch⟩, hround⟩ := hrec
    rw [(hw a).2, List.nil_append] at hout
    refine ⟨⟨input, ?_, hround⟩, fun c m hm => ?_⟩
    · rw [h, put_node_self]
      exact hstep.put
    · rw [h, put_chan, if_pos rfl, hacts.chan, List.mem_append] at hm
      rcases hm with hm | hm
      · exact Or.inl hm
      rw [hout] at hm
      rw [h, put_node_self]
      rcases hvouch m (List.mem_of_mem_filter hm) with hv | hv
      · exact Or.inr (Or.inl hv)
      · exact Or.inr (Or.inr (hv.grows ⟨rfl, rfl, rfl, le_rfl, List.prefix_rfl⟩))
  · have hnode : (w.step ev).node a = w.node a := by rw [h, put_node_ne hab, hacts.node]
    rw [hnode]
    refine ⟨⟨none, hidle, by simp⟩, fun c m hm => Or.inl ?_⟩
    rw [h, put_chan, if_neg hab, hacts.chan, List.append_nil] at hm
    exact hm

end World

/-! ## Runs -/

variable (es : List (Event n))

/-- Every time of a run is a log step from the one before, at every node. -/
theorem wAt_log (k : ℕ) (a : Fin n) :
    ((∃ input, RaftNode.LogStep input ((wAt es k).node a) ((wAt es (k + 1)).node a) ∧
      ∀ m, input = some m → ∃ hk : k < es.length, (wAt es k).round es[k] = some (a, m)) ∧
    ∀ c, ∀ m ∈ (wAt es (k + 1)).chan a c, m ∈ (wAt es k).chan a c ∨
      ((wAt es k).node a).Vouches m ∨ ((wAt es (k + 1)).node a).Vouches m) := by
  rcases wAt_succ_cases es k with ⟨hk, h⟩ | h
  · rw [h]
    obtain ⟨⟨input, hstep, hround⟩, hsent⟩ := World.step_log (wired_wAt k) es[k] a
    exact ⟨⟨input, hstep, fun m hm => ⟨hk, hround m hm⟩⟩, hsent⟩
  · rw [h]
    exact ⟨⟨none, .keep rfl rfl fun h => ⟨h, rfl, rfl⟩, by simp⟩, fun c m hm => Or.inl hm⟩

/-- **Messages are backed**: the sender vouched for it at some time. -/
theorem backed (k : ℕ) (a c : Fin n) :
    ∀ m ∈ (wAt es k).chan a c, ∃ q ≤ k, ((wAt es q).node a).Vouches m := by
  induction k with
  | zero => intro m hm; simp [World.init] at hm
  | succ k ih =>
    intro m hm
    rcases (wAt_log es k a).2 c m hm with h | h | h
    · obtain ⟨q, hq, hv⟩ := ih m h
      exact ⟨q, by omega, hv⟩
    · exact ⟨k, by omega, h⟩
    · exact ⟨k + 1, le_rfl, h⟩

/-- The history that a run shows. -/
def history : Lib.History (Fin n) Entry where
  term k a := ((wAt es k).node a).currentTerm
  leads k a := ((wAt es k).node a).currentRole = .leader
  log k a := ((wAt es k).node a).log

variable {es}

/-- **What a follower appends was offered by the leader of the message's term.** -/
theorem accepted_offer {k : ℕ} {a : Fin n} {m : AppendEntriesMessage n} {p t : ℕ} {e : Entry}
    (hk : k < es.length) (hround : (wAt es k).round es[k] = some (a, some (.appendEntries m)))
    (hacc : ((wAt es k).node a).accepts m = true) (hp : m.prevLogIndex = some p)
    (ht : m.prevLogTerm = some t) (he : m.entries = some e) :
    ∃ c, ∃ q ≤ k, ∃ prev, ((wAt es q).node c).Offers m p prev e ∧ t = prev.term := by
  obtain ⟨c, hmem⟩ := World.round_some hround
  obtain ⟨q, hq, hv⟩ := backed es k c a _ hmem
  simp only [RaftNode.accepts, Bool.and_eq_true, decide_eq_true_eq] at hacc
  obtain ⟨p', prev, e', ho⟩ := (hv hacc.1.1.1.2).1 hacc.1.1.2
  obtain rfl : p' = p := Option.some.inj (ho.index.symm.trans hp)
  obtain rfl : e' = e := Option.some.inj (ho.entries.symm.trans he)
  exact ⟨c, q, hq, prev, ho, Option.some.inj (ht.symm.trans ho.prevTerm)⟩

/-- **A log stays, or grows at a leader, or takes a leader's entry over.** -/
theorem log_cases (he : ∀ k (hk : k < es.length), (wAt es k).EntryInTerm es[k]) (k : ℕ) (a : Fin n) :
    (history es).log (k + 1) a = (history es).log k a ∨ (history es).Led Entry.term k a ∨
      ∃ (hk : k < es.length) (m : AppendEntriesMessage n) (q : ℕ) (c : Fin n) (p : ℕ) (prev e : Entry),
        (wAt es k).round es[k] = some (a, some (.appendEntries m)) ∧
        ((wAt es k).node a).accepts m = true ∧ ((wAt es q).node c).Offers m p prev e ∧
        (history es).Accepted Entry.term k a q c p e := by
  obtain ⟨⟨input, hstep, hround⟩, -⟩ := wAt_log es k a
  cases hstep with
  | keep log => exact Or.inl log
  | call role role' term log =>
    refine Or.inr (Or.inl ⟨role', term, _, log, fun x hx => ?_⟩)
    rw [List.mem_singleton.1 hx]; rfl
  | lead round presides grows log taken =>
    obtain ⟨hk, hr⟩ := hround _ round
    have hrole := RaftNode.presides_role presides
    refine Or.inr (Or.inl ⟨grows.role.trans hrole, grows.term, _, log, fun x hx => ?_⟩)
    exact he k hk _ hr presides x (taken hx)
  | @accept m p t e round accepts index prevTerm entries verified log =>
    obtain ⟨hk, hr⟩ := hround _ round
    -- the message was offered by a leader at an earlier time, behind an entry of its log then
    obtain ⟨c, q, hq, prev, ho, rfl⟩ := accepted_offer hk hr accepts index prevTerm entries
    refine Or.inr (Or.inr ⟨hk, m, q, c, p, prev, e, hr, accepts, ho, hq, ho.role, ?_, ho.entry, ?_, log⟩)
    · -- followers do not lead
      intro hlead
      have hlead' : ((wAt es k).node a).currentRole = .leader := hlead
      simp [RaftNode.accepts, hlead'] at accepts
    · rw [RaftNode.verifyEntry_iff] at verified
      have hb : ((history es).log q c)[p]? = some prev := ho.behind
      rw [hb]
      exact verified
  | committal round obeys index prevTerm log => exact Or.inl log

/-- **The logs of a cluster are a replicated log**, if votes are counted and entries
appended in their terms. -/
theorem replicated (hv : ∀ k (hk : k < es.length), (wAt es k).VoteInTerm es[k])
    (he : ∀ k (hk : k < es.length), (wAt es k).EntryInTerm es[k]) :
    (history es).Replicated Entry.term where
  term_mono := term_succ es
  leader_unique := fun k l a b ha hb ht => leader_unique hv ha hb ht
  leader_stays := fun k a h ht => leader_succ h ht
  init := ⟨initEntry, fun a => rfl⟩
  step := fun k a => by
    rcases log_cases he k a with h | h | ⟨-, -, q, c, p, -, e, -, -, -, h⟩
    · exact Or.inl h
    · exact Or.inr (Or.inl h)
    · exact Or.inr (Or.inr ⟨q, c, p, e, h⟩)

/-- **Log matching where votes are counted and entries appended in their terms.** -/
theorem log_matching (hv : ∀ k (hk : k < es.length), (wAt es k).VoteInTerm es[k])
    (he : ∀ k (hk : k < es.length), (wAt es k).EntryInTerm es[k]) : LogMatching es := by
  intro k a b i e f ha hb ht j hj
  have htake := (replicated hv he).matching (k := k) (l := k) (i := a) (j := b) ha hb ht
  exact Lib.getElem?_of_take htake (by omega)

/-- Node 0 of two leads in term 2 and appends its client's request, which node 1
gets. -/
def replicatedOnce : List (Event 2) :=
  [.call 0, .timeout 0, .call 0, .call 1, .take 1 0 0, .take 0 0 0, .take 0 0 1, .take 0 1 0,
    .clientRequest 0 (.str "x") (.int 7), .call 0, .take 1 0 1, .take 1 0 2, .loop 0 {},
    .take 0 1 1, .take 1 0 3]

set_option maxRecDepth 10000 in
theorem log_matching_replicatedOnce :
    ((wAt replicatedOnce 15).node 1).log = [initEntry, leaderEntry 2, ⟨2, .str "x", .int 7⟩] ∧
      LogMatching replicatedOnce :=
  ⟨by decide, log_matching (by decide) (by decide)⟩

/-! ## Entries of an earlier term -/

/-- Both nodes are sent a request in term 1; node 0 leads in term 2, node 1 in term
3, and each appends the request of its queue behind its own leader entry. -/
def staleStamps : List (Event 2) :=
  [.clientRequest 0 (.str "y") (.int 1), .clientRequest 1 (.str "z") (.int 2),
    .call 0, .timeout 0, .call 0, .call 1, .take 1 0 0, .take 0 0 0, .take 0 0 1, .take 0 1 0,
    .call 0, .loop 0 {},
    .timeout 1, .call 1, .take 0 1 1, .take 1 1 0, .take 1 1 1, .take 1 0 3, .call 1, .loop 1 {}]

set_option maxRecDepth 10000 in
/-- **Log matching fails**: entries of term 1 at index 2 of both logs, behind the
leader entries of terms 2 and 3. -/
theorem stale_stamps : ¬ LogMatching staleStamps := by
  intro h
  have h1 := h 20 0 1 2 ⟨1, .str "y", .int 1⟩ ⟨1, .str "z", .int 2⟩ (by decide) (by decide) rfl 1
    (by decide)
  exact absurd h1 (by decide)

end EdgeConsensus.Raft
