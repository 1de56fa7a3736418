import EdgeConsensus.Raft.CommitIndex

/-!
# The terms along a log

An entry carries the term of the node that enqueued it, whichever leader appends
it, and a node may lead in a lower term than its log's last entry has, as accepting
entries does not raise its term. So terms may go down along a log: `old_stamp`.
`terms_ordered` says exactly when they do not, and leaders stamp what they add: in
the runs where leaders take up entries of their own term (`EntryInTerm`) and no
node enters `_leader` with an entry of a later term at the end of its log
(`LeadsInOrder`).
-/

namespace EdgeConsensus.Raft

variable {n : ℕ}

/-- **The terms of a run**: they never decrease along a log, and what a leader adds
to its log carries its term. -/
structure TermsOrdered (es : List (Event n)) : Prop where
  ordered : ∀ k a, ((wAt es k).node a).log.Pairwise fun e f => e.term ≤ f.term
  current : ∀ k a, ((wAt es k).node a).currentRole = .leader →
    ∀ e ∈ ((wAt es (k + 1)).node a).log.drop ((wAt es k).node a).log.length,
      e.term = ((wAt es k).node a).currentTerm

/-- In an ordered log, the last entry has the greatest term. -/
theorem term_le_last {L : List Entry} (h : L.Pairwise fun e f => e.term ≤ f.term) {e last : Entry}
    (he : e ∈ L) (hlast : L.getLast? = some last) : e.term ≤ last.term := by
  obtain ⟨init, rfl⟩ := List.getLast?_eq_some_iff.1 hlast
  rcases List.mem_append.1 he with he | he
  · exact (List.pairwise_append.1 h).2.2 e he last (by simp)
  · rw [List.mem_singleton.1 he]

/-- Entries of a term that an ordered log does not pass may follow it. -/
theorem pairwise_grow {L M : List Entry} {t : ℕ} (h : L.Pairwise fun e f => e.term ≤ f.term)
    (hL : ∀ x ∈ L, x.term ≤ t) (hM : ∀ y ∈ M, y.term = t) :
    (L ++ M).Pairwise fun e f => e.term ≤ f.term := by
  refine List.pairwise_append.2 ⟨h, ?_, fun x hx y hy => ?_⟩
  · refine List.pairwise_iff_forall_sublist.2 fun {x y} hsub => ?_
    have hx := hM x (hsub.subset (by simp))
    have hy := hM y (hsub.subset (by simp))
    omega
  · rw [hM y hy]
    exact hL x hx

/-- Up to an entry of an ordered log, no term is greater than this entry's. -/
theorem term_le_of_take {L : List Entry} (h : L.Pairwise fun e f => e.term ≤ f.term) {p : ℕ} {f x : Entry}
    (hf : L[p]? = some f) (hx : x ∈ L.take (p + 1)) : x.term ≤ f.term := by
  have hlast : (L.take (p + 1)).getLast? = some f := by
    obtain ⟨hlt, -⟩ := List.getElem?_eq_some_iff.1 hf
    rw [List.getLast?_eq_getElem?, List.length_take, min_eq_left hlt, Nat.add_sub_cancel,
      List.getElem?_take_of_lt (by omega), hf]
  exact term_le_last (h.sublist (List.take_sublist _ _)) hx hlast

namespace RaftNode

/-- The log is ordered, and a leader in its loop is past all terms of its log. -/
structure Ordered (s : RaftNode n) : Prop where
  log : s.log.Pairwise fun e f => e.term ≤ f.term
  term : s.presides = true → ∀ e ∈ s.log, e.term ≤ s.currentTerm

variable {s s' : RaftNode n}

/-- A log stays in order when entries of one term are added that it does not pass. -/
theorem Ordered.grown {M : List Entry} {t : ℕ} (h : s.Ordered) (hle : ∀ x ∈ s.log, x.term ≤ t)
    (hM : ∀ y ∈ M, y.term = t) (hlog : s'.log = s.log ++ M)
    (ht : s'.presides = true → s'.currentTerm = t) : s'.Ordered := by
  refine ⟨by rw [hlog]; exact pairwise_grow h.log hle hM, fun hp e hmem => ?_⟩
  rw [hlog] at hmem
  rw [ht hp]
  rcases List.mem_append.1 hmem with hmem | hmem
  · exact hle e hmem
  · exact le_of_eq (hM e hmem)

/-- A node that is in the loop of `_leader` after a step led before it, in the same term. -/
theorem LogStep.presided {input : Option (Option (Message n))} (h : LogStep input s s')
    (hp : s'.presides = true) :
    s'.currentTerm = s.currentTerm ∧ (s.presides = true ∨
      (s.currentRole = .leader ∧ s'.log = s.log ++ [leaderEntry s.currentTerm])) := by
  cases h with
  | keep log commit presides =>
    obtain ⟨h1, h2, -⟩ := presides hp
    exact ⟨h2, Or.inl h1⟩
  | call role role' term log => exact ⟨term, Or.inr ⟨role, log⟩⟩
  | lead round presides grows => exact ⟨grows.term, Or.inl presides⟩
  | accept round accepts index prevTerm entries verified log commit follows =>
    rw [follows] at hp; cases hp
  | committal round obeys index prevTerm log commit follows =>
    rw [follows] at hp; cases hp

end RaftNode

namespace World

/-- A node that enters `_leader` has no entry of a later term at the end of its log. -/
def LeadsInOrder (w : World n) : Event n → Prop
  | .call b => (w.node b).frame = .run → (w.node b).currentRole = .leader →
    ∀ e ∈ (w.node b).log.getLast?, e.term ≤ (w.node b).currentTerm
  | _ => True

instance (w : World n) (ev : Event n) : Decidable (w.LeadsInOrder ev) := by
  unfold LeadsInOrder; split <;> infer_instance

end World

variable {es : List (Event n)}

/-- What a leader takes up in its round is what it adds to its log. -/
theorem taking_added {k : ℕ} (hk : k < es.length) {a : Fin n} {m : Option (Message n)}
    (hr : (wAt es k).round es[k] = some (a, m)) (hp : ((wAt es k).node a).presides = true) :
    ((wAt es (k + 1)).node a).log = ((wAt es k).node a).log ++ ((wAt es k).node a).taking m := by
  obtain ⟨timers, s, hs, hnode⟩ := (tracked_wAt es k).round_loop hr
  have hlog := RaftNode.presides_log hp hs
  rw [wAt_succ es hk, hnode]
  exact hlog

/-- **A leader in order adds entries in order.** -/
theorem ordered_succ (he : ∀ k (hk : k < es.length), (wAt es k).EntryInTerm es[k])
    (hl : ∀ k (hk : k < es.length), (wAt es k).LeadsInOrder es[k]) {k : ℕ}
    (ih : ∀ q ≤ k, ∀ a, ((wAt es q).node a).Ordered) (a : Fin n) :
    ((wAt es (k + 1)).node a).Ordered := by
  obtain ⟨hlog, hterm⟩ := ih k le_rfl a
  obtain ⟨⟨input, hstep, -⟩, -⟩ := wAt_log es k a
  -- while the log stays, so does the leadership
  have hkeep : ((wAt es (k + 1)).node a).log = ((wAt es k).node a).log →
      ((wAt es (k + 1)).node a).Ordered := by
    intro hsame
    refine ⟨by rw [hsame]; exact hlog, fun hp => ?_⟩
    obtain ⟨ht, hp' | ⟨-, hgrown⟩⟩ := hstep.presided hp
    · rw [hsame, ht]; exact hterm hp'
    · rw [hsame] at hgrown
      have hlen := congrArg List.length hgrown
      simp at hlen
  rcases wAt_requests es k a with ⟨hk, value, idNum, -, hnode, -⟩ | ⟨incoming, out, hreq, -, hcause⟩
  · exact hkeep (by rw [hnode]; rfl)
  cases hreq with
  | keep queue log => exact hkeep log
  | forward role queue log => exact hkeep log
  | call frame role queue log =>
    rcases hcause with ⟨hsame, -⟩ | ⟨hk, ⟨hev, -⟩ | ⟨-, hf⟩⟩
    · exact hkeep (by rw [hsame])
    · -- the leader entry is the last one, and of the leader's term
      have hin := hl k hk
      rw [hev] at hin
      have hall : ∀ x ∈ ((wAt es k).node a).log, x.term ≤ ((wAt es k).node a).currentTerm := by
        intro x hx
        cases hlast : ((wAt es k).node a).log.getLast? with
        | none => rw [List.getLast?_eq_none_iff] at hlast; rw [hlast] at hx; cases hx
        | some last => exact le_trans (term_le_last hlog hx hlast) (hin frame role last hlast)
      refine (ih k le_rfl a).grown hall (fun y hy => ?_) log fun hp => (hstep.presided hp).1
      rw [List.mem_singleton.1 hy]
      rfl
    · exact absurd frame hf
  | lead presides term role taking queue log =>
    rcases hcause with ⟨hsame, -⟩ | ⟨hk, ⟨-, hf⟩ | ⟨hr, -⟩⟩
    · exact hkeep (by rw [hsame])
    · simp [RaftNode.presides, hf] at presides
    · have htaken : ∀ x ∈ ((wAt es k).node a).taking incoming,
          x.term = ((wAt es k).node a).currentTerm := he k hk _ hr presides
      exact (ih k le_rfl a).grown (hterm presides) htaken log fun _ => term
  | @accept m p t e recv accepts index prevTerm entries verified queue log =>
    rcases hcause with ⟨hsame, -⟩ | ⟨hk, ⟨-, hf⟩ | ⟨hr, -⟩⟩
    · exact hkeep (by rw [hsame])
    · simp [RaftNode.accepts, hf] at accepts
    · rw [recv] at hr
      obtain ⟨c, q, hq, prev, ho, rfl⟩ := accepted_offer hk hr accepts index prevTerm entries
      rw [RaftNode.verifyEntry_iff, Option.map_eq_some_iff] at verified
      obtain ⟨f, hf, hft⟩ := verified
      -- the entry follows one of the same term in the leader's log
      have hle : prev.term ≤ e.term := by
        obtain ⟨h1, h1'⟩ := List.getElem?_eq_some_iff.1 ho.behind
        obtain ⟨h2, h2'⟩ := List.getElem?_eq_some_iff.1 ho.entry
        rw [← h1', ← h2']
        exact List.pairwise_iff_getElem.1 (ih q hq c).log p (p + 1) h1 h2 (by omega)
      have htake : ∀ x ∈ ((wAt es k).node a).log.take (p + 1), x.term ≤ e.term := by
        intro x hx
        have := term_le_of_take hlog hf hx
        omega
      have hgrow := pairwise_grow (hlog.sublist (List.take_sublist _ _)) htake (M := [e]) (by simp)
      refine ⟨by rw [log]; exact hgrow, fun hp => ?_⟩
      have hrole : ((wAt es k).node a).currentRole = .follower := by
        simp only [RaftNode.accepts, Bool.and_eq_true, decide_eq_true_eq] at accepts
        exact accepts.1.1.1.1.2
      obtain ⟨-, hp' | ⟨hlead, -⟩⟩ := hstep.presided hp
      · rw [RaftNode.presides_role hp'] at hrole; cases hrole
      · rw [hlead] at hrole; cases hrole

theorem ordered_wAt (he : ∀ k (hk : k < es.length), (wAt es k).EntryInTerm es[k])
    (hl : ∀ k (hk : k < es.length), (wAt es k).LeadsInOrder es[k]) (k : ℕ) :
    ∀ q ≤ k, ∀ a, ((wAt es q).node a).Ordered := by
  induction k with
  | zero =>
    intro q hq a
    obtain rfl : q = 0 := by omega
    refine ⟨by simp [World.init, RaftNode.init], fun hp => ?_⟩
    simp [World.init, RaftNode.init, RaftNode.presides] at hp
  | succ k ih =>
    intro q hq a
    rcases Nat.lt_or_ge k q with hlt | hle
    · obtain rfl : q = k + 1 := by omega
      exact ordered_succ he hl ih a
    · exact ih q hle a

/-- What a leader adds is its leader entry, or what it takes up in a round. -/
theorem leader_adds (k : ℕ) (a : Fin n) (hr : ((wAt es k).node a).currentRole = .leader) :
    ((wAt es (k + 1)).node a).log = ((wAt es k).node a).log ∨
      ((wAt es (k + 1)).node a).log =
        ((wAt es k).node a).log ++ [leaderEntry ((wAt es k).node a).currentTerm] ∨
      ∃ (hk : k < es.length) (m : Option (Message n)), (wAt es k).round es[k] = some (a, m) ∧
        ((wAt es k).node a).presides = true ∧
        ((wAt es (k + 1)).node a).log = ((wAt es k).node a).log ++ ((wAt es k).node a).taking m := by
  rcases wAt_requests es k a with ⟨hk, value, idNum, -, hnode, -⟩ | ⟨incoming, out, hreq, -, hcause⟩
  · exact Or.inl (by rw [hnode]; rfl)
  cases hreq with
  | keep queue log => exact Or.inl log
  | forward role queue log => exact Or.inl log
  | call frame role queue log => exact Or.inr (Or.inl log)
  | lead presides term role taking queue log =>
    rcases hcause with ⟨hsame, -⟩ | ⟨hk, ⟨-, hf⟩ | ⟨hround, -⟩⟩
    · exact Or.inl (by rw [hsame])
    · simp [RaftNode.presides, hf] at presides
    · exact Or.inr (Or.inr ⟨hk, incoming, hround, presides, log⟩)
  | accept recv accepts => simp [RaftNode.accepts, hr] at accepts

/-- **Terms are in order exactly in the runs whose leaders take up entries of their
term, and begin behind entries of no later term.** -/
theorem terms_ordered :
    (∀ k (hk : k < es.length), (wAt es k).EntryInTerm es[k] ∧ (wAt es k).LeadsInOrder es[k]) ↔
      TermsOrdered es := by
  constructor
  · intro h
    have he : ∀ k (hk : k < es.length), (wAt es k).EntryInTerm es[k] := fun k hk => (h k hk).1
    have hl : ∀ k (hk : k < es.length), (wAt es k).LeadsInOrder es[k] := fun k hk => (h k hk).2
    refine ⟨fun k a => (ordered_wAt he hl k k le_rfl a).log, fun k a hr e hmem => ?_⟩
    rcases leader_adds k a hr with hsame | hcall | ⟨hk, m, hround, hp, htaken⟩
    · rw [hsame, List.drop_length] at hmem; cases hmem
    · rw [hcall, List.drop_left, List.mem_singleton] at hmem
      rw [hmem]; rfl
    · rw [htaken, List.drop_left] at hmem
      exact he k hk _ hround hp e hmem
  · intro h k hk
    refine ⟨fun d hd hp e hmem => ?_, ?_⟩
    · have hadd := h.current k d.1 (RaftNode.presides_role hp)
      rw [taking_added hk hd hp, List.drop_left] at hadd
      exact hadd e hmem
    · cases hev : es[k] with
      | clientRequest b value idNum => trivial
      | loop b r => trivial
      | call b =>
        intro hf hr e hlast
        -- the leader entry follows this one
        obtain ⟨s, hs⟩ := (tracked_wAt es k).call_returns b
        have hlog : ((wAt es (k + 1)).node b).log =
            ((wAt es k).node b).log ++ [leaderEntry ((wAt es k).node b).currentTerm] := by
          have hcall : ((wAt es k).node b).leaderCall = some s := by
            unfold RaftNode.call at hs
            simpa only [hr] using hs
          rw [wAt_succ es hk, hev]
          simp only [World.step, hf, if_true, hs, World.put_node_self]
          obtain ⟨u, hu, rfl⟩ := RaftNode.leaderCall_cases hcall
          obtain ⟨-, -, -, hlogu, -⟩ := RaftNode.hands_broadcast hu
          exact hlogu
        have hord := h.ordered (k + 1) b
        rw [hlog] at hord
        exact (List.pairwise_append.1 hord).2.2 e (List.mem_of_getLast? hlast) _
          (List.mem_singleton_self _)

set_option maxRecDepth 10000 in
/-- **Terms go down along a log**: node 0 leads in term 2 and appends the request that
it got in term 1 behind its leader entry. -/
theorem old_stamp : ¬ TermsOrdered staleStamps := by
  intro h
  exact absurd (h.ordered 20 0) (by decide)

end EdgeConsensus.Raft
