import EdgeConsensus.Raft.CommitIndex

/-!
# Leaders and their logs

Whatever becomes of elections and votes, a node that leads only appends to its log, and it never
takes back an entry that it has sent to itself.

* `leader_append_only`: from one time of a leadership to any later one.
* `offered_by_other`: a former leader refuses the entries that it has sent to itself.
* `one_leader`: where one node is the only one that ever leads, the logs are prefixes of its log, and
  all logs at all times agree.
-/

namespace EdgeConsensus.Raft

variable {n : ℕ} {es : List (Event n)} {a c : Fin n}

/-! ## One leadership -/

/-- From `s` to `s'` the node has led on: it has only appended, and what it has committed is in its log. -/
structure LedOn (s s' : RaftNode n) : Prop extends RaftNode.Grows s s' where
  inside : s'.commitIndex = s.commitIndex ∨ s'.commitIndex < s'.log.length

theorem LedOn.trans {s u s' : RaftNode n} (h : LedOn s u) (h' : LedOn u s') : LedOn s s' := by
  refine ⟨h.toGrows.trans h'.toGrows, ?_⟩
  rcases h'.inside with heq | hlt
  · rcases h.inside with heq' | hlt'
    · exact Or.inl (heq.trans heq')
    · have hlen := h'.log.length_le
      exact Or.inr (by omega)
  · exact Or.inr hlt

theorem ledOn_succ {k : ℕ} (hlead : ((wAt es k).node a).currentRole = .leader)
    (hterm : ((wAt es (k + 1)).node a).currentTerm = ((wAt es k).node a).currentTerm) :
    LedOn ((wAt es k).node a) ((wAt es (k + 1)).node a) := by
  have hrole : ((wAt es (k + 1)).node a).currentRole = ((wAt es k).node a).currentRole :=
    (leader_succ hlead hterm).trans hlead.symm
  have hid : ((wAt es (k + 1)).node a).myId = ((wAt es k).node a).myId :=
    (wired_wAt (k + 1) a).1.trans (wired_wAt k a).1.symm
  obtain ⟨⟨input, hstep, -⟩, -⟩ := wAt_log es k a
  cases hstep with
  | keep log commit => exact ⟨⟨hrole, hterm, hid, commit.ge, log ▸ List.prefix_rfl⟩, Or.inl commit⟩
  | call role role' term log commit =>
    exact ⟨⟨hrole, hterm, hid, commit.ge, log ▸ List.prefix_append _ _⟩, Or.inl commit⟩
  | lead round presides grows log taken credited matched commit =>
    refine ⟨grows, ?_⟩
    rcases commit with heq | ⟨hlt, heq⟩
    · exact Or.inl heq
    · have hinside := ((tracked_wAt es k).tracks a presides).commit_lt credited a (by omega)
      have hlen := grows.log.length_le
      exact Or.inr (by omega)
  -- the other two are steps of a follower
  | accept round accepts => simp [RaftNode.accepts, hlead] at accepts
  | committal round obeys => simp [RaftNode.obeys, hlead] at obeys

/-- Terms do not fall. -/
theorem term_le {j k : ℕ} (hjk : j ≤ k) : ((wAt es j).node a).currentTerm ≤ ((wAt es k).node a).currentTerm := by
  induction k, hjk using Nat.le_induction with
  | base => exact le_rfl
  | succ k _ ih => exact le_trans ih (term_succ es k a)

theorem ledOn_of_term {j k : ℕ} (hjk : j ≤ k) (hlead : ((wAt es j).node a).currentRole = .leader)
    (hterm : ((wAt es k).node a).currentTerm = ((wAt es j).node a).currentTerm) :
    LedOn ((wAt es j).node a) ((wAt es k).node a) := by
  induction k, hjk using Nat.le_induction with
  | base => exact ⟨⟨rfl, rfl, rfl, le_rfl, List.prefix_rfl⟩, Or.inl rfl⟩
  | succ k hjk ih =>
    -- the term stays between the two times
    have hle : ((wAt es j).node a).currentTerm ≤ ((wAt es k).node a).currentTerm := term_le hjk
    have hstep := term_succ es k a
    have hmid := ih (by omega)
    exact hmid.trans (ledOn_succ (hmid.role.trans hlead) (by omega))

/-- **Leaders only append**: a node that leads at one time and has the same term later has led all along, in
this term; from any time to any later one between the two its log has only grown, its commit index has not
fallen, and what it has committed is in its log. -/
theorem leader_append_only (es : List (Event n)) (a : Fin n) {j k : ℕ}
    (hlead : ((wAt es j).node a).currentRole = .leader)
    (hterm : ((wAt es k).node a).currentTerm = ((wAt es j).node a).currentTerm) :
    ∀ i l, j ≤ i → i ≤ l → l ≤ k →
      ((wAt es i).node a).currentRole = .leader ∧
        ((wAt es i).node a).currentTerm = ((wAt es j).node a).currentTerm ∧
        LedOn ((wAt es i).node a) ((wAt es l).node a) := by
  intro i l hji hil hlk
  -- terms never fall, so they are all the same
  have hbefore : ((wAt es j).node a).currentTerm ≤ ((wAt es i).node a).currentTerm := term_le hji
  have hbetween : ((wAt es i).node a).currentTerm ≤ ((wAt es l).node a).currentTerm := term_le hil
  have hbehind : ((wAt es l).node a).currentTerm ≤ ((wAt es k).node a).currentTerm := term_le hlk
  have hled : ((wAt es i).node a).currentRole = .leader :=
    (ledOn_of_term hji hlead (by omega)).role.trans hlead
  exact ⟨hled, by omega, ledOn_of_term hil hled (by omega)⟩

set_option maxRecDepth 10000 in
theorem leader_append_only_replicatedOnce :
    ((wAt replicatedOnce 10).node 0).currentRole = .leader ∧
      ((wAt replicatedOnce 10).node 0).currentTerm = ((wAt replicatedOnce 8).node 0).currentTerm ∧
      LedOn ((wAt replicatedOnce 10).node 0) ((wAt replicatedOnce 13).node 0) :=
  leader_append_only replicatedOnce 0 (j := 8) (k := 15) (by decide) (by decide) 10 13
    (by decide) (by decide) (by decide)

/-! ## One leader -/

/-- **A former leader refuses its own entries**: what it accepts was offered by another node. -/
theorem offered_by_other {k q p : ℕ} {m : AppendEntriesMessage n} {prev e : Entry} (hq : q ≤ k)
    (hacc : ((wAt es k).node a).accepts m = true) (ho : ((wAt es q).node c).Offers m p prev e) : c ≠ a := by
  rintro rfl
  simp only [RaftNode.accepts, Bool.and_eq_true, decide_eq_true_eq] at hacc
  have hrole := hacc.1.1.1.1.2
  have hle := hacc.1.2
  -- its term is still that of the message, so it still leads
  have hterm : ((wAt es k).node c).currentTerm = ((wAt es q).node c).currentTerm := by
    have hmono : ((wAt es q).node c).currentTerm ≤ ((wAt es k).node c).currentTerm := term_le hq
    have hoffer := ho.term
    omega
  have hlead := (ledOn_of_term hq ho.role hterm).role.trans ho.role
  rw [hlead] at hrole
  cases hrole

/-- Of the nodes only `c` leads, at any time. -/
def SoleLeader (es : List (Event n)) (c : Fin n) : Prop :=
  ∀ k ≤ es.length, ∀ a, ((wAt es k).node a).currentRole = .leader → a = c

instance (es : List (Event n)) (c : Fin n) : Decidable (SoleLeader es c) := by
  unfold SoleLeader; infer_instance

theorem SoleLeader.leads (h : SoleLeader es c) {k : ℕ} (hlead : ((wAt es k).node a).currentRole = .leader) :
    a = c := by
  induction k with
  | zero => exact h 0 (Nat.zero_le _) a hlead
  | succ k ih =>
    rcases Nat.lt_or_ge k es.length with hk | hk
    · exact h (k + 1) hk a hlead
    · -- nothing happens behind the end of the run
      have hend : wAt es (k + 1) = wAt es k := Lib.stateAt_end hk
      rw [hend] at hlead
      exact ih hlead

/-- All logs come from that of `c`, which only grows. -/
structure OneLog (es : List (Event n)) (c : Fin n) : Prop where
  grows : ∀ j k, j ≤ k → ((wAt es j).node c).log <+: ((wAt es k).node c).log
  prefixes : ∀ k a, ((wAt es k).node a).log <+: ((wAt es k).node c).log
  agree : ∀ (j k : ℕ) (a b : Fin n) (i : ℕ) (e f : Entry), ((wAt es j).node a).log[i]? = some e →
    ((wAt es k).node b).log[i]? = some f → e = f

theorem sole_leader_grows (hone : SoleLeader es c) (k : ℕ) :
    ((wAt es k).node c).log <+: ((wAt es (k + 1)).node c).log := by
  obtain ⟨⟨input, hstep, hround⟩, -⟩ := wAt_log es k c
  cases hstep with
  | keep log => exact log ▸ List.prefix_rfl
  | call role role' term log => exact log ▸ List.prefix_append _ _
  | lead round presides grows => exact grows.log
  | accept round accepts index prevTerm entries =>
    obtain ⟨hk, hr⟩ := hround _ round
    obtain ⟨d, q, hq, prev, ho, -⟩ := accepted_offer hk hr accepts index prevTerm entries
    exact absurd (hone.leads ho.role) (offered_by_other hq accepts ho)
  | committal round obeys index prevTerm log => exact log ▸ List.prefix_rfl

theorem sole_leader_mono (hone : SoleLeader es c) {j k : ℕ}
    (hjk : j ≤ k) : ((wAt es j).node c).log <+: ((wAt es k).node c).log := by
  induction k, hjk using Nat.le_induction with
  | base => exact List.prefix_rfl
  | succ k _ ih => exact ih.trans (sole_leader_grows hone k)

/-- What is appended behind an entry that two prefixes of a list share makes a prefix again. -/
theorem overwritten_below {L M N : List Entry} {p : ℕ} {e : Entry} (hL : L <+: N) (hM : M <+: N)
    (hp : p < L.length) (he : M[p + 1]? = some e) : L.take (p + 1) ++ [e] <+: N := by
  have hlt : p + 1 < N.length := (List.getElem?_eq_some_iff.1 (Lib.getElem?_of_prefix hM he)).1
  have hget : N[p + 1]? = some e := Lib.getElem?_of_prefix hM he
  have htake : L.take (p + 1) = N.take (p + 1) := Lib.take_of_prefix (Or.inl hL) hp (by omega)
  have hsucc : N.take (p + 1 + 1) = N.take (p + 1) ++ [e] := by
    rw [List.take_add_one, hget, Option.toList_some]
  rw [htake, ← hsucc]
  exact List.take_prefix _ _

theorem sole_leader_above (hone : SoleLeader es c) (k : ℕ) :
    ∀ a, ((wAt es k).node a).log <+: ((wAt es k).node c).log := by
  induction k with
  | zero => intro a; exact List.prefix_rfl
  | succ k ih =>
    intro a
    have hgrows := sole_leader_grows hone k
    by_cases hac : a = c
    · rw [hac]
    obtain ⟨⟨input, hstep, hround⟩, -⟩ := wAt_log es k a
    cases hstep with
    | keep log => rw [log]; exact (ih a).trans hgrows
    | call role => exact absurd (hone.leads role) hac
    | lead round presides => exact absurd (hone.leads (RaftNode.presides_role presides)) hac
    | accept round accepts index prevTerm entries verified log =>
      obtain ⟨hk, hr⟩ := hround _ round
      obtain ⟨d, q, hq, prev, ho, -⟩ := accepted_offer hk hr accepts index prevTerm entries
      obtain rfl := hone.leads ho.role
      rw [RaftNode.verifyEntry_iff, Option.map_eq_some_iff] at verified
      obtain ⟨f, hf, -⟩ := verified
      rw [log]
      exact (overwritten_below (ih a) (sole_leader_mono hone hq) (List.getElem?_eq_some_iff.1 hf).1
        ho.entry).trans hgrows
    | committal round obeys index prevTerm log => rw [log]; exact (ih a).trans hgrows

/-- **One leader, one log**: where `c` is the only node that ever leads, in whatever terms, all logs are
prefixes of its log, which is never cut, and no two entries at one index ever differ. Messages may be
late or repeated, and elections may fail. -/
theorem one_leader (es : List (Event n)) (c : Fin n) (hone : SoleLeader es c) : OneLog es c where
  grows _ _ hjk := sole_leader_mono hone hjk
  prefixes k a := sole_leader_above hone k a
  agree := by
    intro j k a b i e f he hf
    -- both are in the log of `c` at the later of the two times
    have he' := Lib.getElem?_of_prefix ((sole_leader_above hone j a).trans
      (sole_leader_mono hone (le_max_left j k))) he
    have hf' := Lib.getElem?_of_prefix ((sole_leader_above hone k b).trans
      (sole_leader_mono hone (le_max_right j k))) hf
    exact Option.some.inj (he'.symm.trans hf')

set_option maxRecDepth 10000 in
theorem one_leader_replicatedOnce :
    ((wAt replicatedOnce 15).node 1).log.length = 3 ∧ OneLog replicatedOnce 0 :=
  ⟨by decide, one_leader replicatedOnce 0 (by decide)⟩

end EdgeConsensus.Raft
