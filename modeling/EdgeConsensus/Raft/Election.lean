import EdgeConsensus.Raft.Ballot
import Mathlib.Algebra.Order.BigOperators.Group.Finset
import Mathlib.Data.Finset.Card
import Mathlib.Data.Fintype.BigOperators

/-!
# Elections

The candidate's tally looks neither at the term nor at the sender of a vote, so a
vote of an earlier election can make a leader: `two_leaders`. In the runs where
every granted vote is counted in the term it was cast in (`VoteInTerm`), the
invariant `Ballots` ties the tally to distinct voters, and a term has at most one
leader over the whole run: `election_safety`.
-/

namespace EdgeConsensus.Raft

open Finset

variable {n : ℕ}

/-- **Election safety** of a run: no two nodes ever lead in the same term. -/
def ElectionSafety (es : List (Event n)) : Prop :=
  ∀ k l a b, ((wAt es k).node a).currentRole = .leader → ((wAt es l).node b).currentRole = .leader →
    ((wAt es k).node a).currentTerm = ((wAt es l).node b).currentTerm → a = b

namespace World

/-- A candidate that takes a granted vote from its queue is in the term in which
the vote was cast. -/
def VoteInTerm (w : World n) (ev : Event n) : Prop :=
  ∀ d ∈ w.delivered ev, (w.node d.1).campaigns = true → d.2.granted = true →
    d.2.term = (w.node d.1).currentTerm

instance (w : World n) (ev : Event n) : Decidable (w.VoteInTerm ev) := by
  unfold VoteInTerm; infer_instance

/-- How many granted votes `v` has sent to `c` in term `t`. -/
def grants (w : World n) (v c : Fin n) (t : ℕ) : ℕ := (w.chan v c).countP (·.grants t)

/-- How many of them `c` is done with. -/
def heard (w : World n) (v c : Fin n) (t : ℕ) : ℕ :=
  ((w.chan v c).take (w.pos v c)).countP (·.grants t)

/-- Node `c` has been granted the votes of a majority in term `t`. -/
def Elected (w : World n) (c : Fin n) (t : ℕ) : Prop :=
  n = 1 ∨ n / 2 < #{v | 0 < w.grants v c t}

/-- Between steps, the nodes know their addresses and their talkers are empty. -/
def Wired (w : World n) : Prop := ∀ a, (w.node a).myId = a ∧ (w.node a).talker = []

variable {w : World n} {ev : Event n}

theorem heard_le_grants (v c : Fin n) (t : ℕ) : w.heard v c t ≤ w.grants v c t :=
  (List.take_sublist _ _).countP_le

theorem heard_step (v c : Fin n) (t : ℕ) : w.heard v c t ≤ (w.step ev).heard v c t := by
  unfold heard
  have h1 := (w.step_chan_prefix ev v c).take (w.pos v c)
  have h2 : ((w.step ev).chan v c).take (w.pos v c) <+: ((w.step ev).chan v c).take ((w.step ev).pos v c) :=
    List.take_prefix_take_left (w.step_pos_le ev v c)
  exact (h1.trans h2).sublist.countP_le

theorem grants_step (v c : Fin n) (t : ℕ) : w.grants v c t ≤ (w.step ev).grants v c t :=
  (w.step_chan_prefix ev v c).sublist.countP_le

/-- A granted vote that is delivered is heard. -/
theorem Delivers.heard {b a : Fin n} {m : Message n} {i t : ℕ} (h : w.Delivers ev b m a i)
    (hm : m.grants t = true) : w.heard a b t + 1 ≤ (w.step ev).heard a b t := by
  unfold World.heard
  rw [h.done]
  have hpre : (w.chan a b).take (i + 1) <+: ((w.step ev).chan a b).take (i + 1) :=
    (w.step_chan_prefix ev a b).take (i + 1)
  have hi : (w.chan a b).take (i + 1) = (w.chan a b).take i ++ [m] := by
    rw [List.take_add_one, h.sent, Option.toList_some]
  have hpos : (w.chan a b).take (w.pos a b) <+: (w.chan a b).take i :=
    List.take_prefix_take_left h.fresh
  have h1 := hpre.sublist.countP_le (p := (·.grants t))
  rw [hi, List.countP_append, List.countP_singleton, if_pos hm] at h1
  have h2 := hpos.sublist.countP_le (p := (·.grants t))
  omega

/-- **Every step is a ballot step at every node.** -/
theorem step_ballot (hw : w.Wired) (ev : Event n) (a : Fin n) :
    ((w.step ev).node a).myId = a ∧ ((w.step ev).node a).talker = [] ∧
    ∃ incoming g, RaftNode.BallotStep incoming (w.node a) ((w.step ev).node a) g ∧
      (∀ c t, (w.step ev).grants a c t =
        w.grants a c t + if g = some c ∧ t = ((w.step ev).node a).currentTerm then 1 else 0) ∧
      ∀ m, incoming = some m → ∃ x i, w.Delivers ev a m x i := by
  have hidle : RaftNode.BallotStep none (w.node a) (w.node a) none :=
    .keep rfl rfl Iff.rfl fun h => ⟨h, rfl⟩
  rcases w.step_cases ev with h | ⟨b, m, s, w₁, hacts, h⟩
  · rw [h]
    exact ⟨(hw a).1, (hw a).2, none, none, hidle, by simp, by simp⟩
  by_cases hab : a = b
  · subst hab
    -- the node that acts: what its method casts is what its streams get
    have hball : RaftNode.Ballot m (w.node a) s := by
      cases hacts with
      | clientRequest _ value idNum => exact RaftNode.clientRequest_ballot value idNum
      | call _ frame run => exact RaftNode.call_ballot frame run
      | loop _ r frame recv run => exact RaftNode.loop_ballot run
    obtain ⟨hid, g, hstep, out, hout, hgrants⟩ := hball
    rw [(hw a).2, List.nil_append] at hout
    rw [(hw a).1] at hid
    refine ⟨by rw [h]; simpa using hid, by rw [h]; simp, m, g, ?_, fun c t => ?_, ?_⟩
    · rw [h, put_node_self]
      cases hstep with
      | keep h1 h2 h3 h4 => exact .keep h1 h2 h3 h4
      | count h1 h2 h3 h4 h5 h6 h7 => exact .count h1 h2 h3 h4 h5 h6 h7
      | win h1 h2 h3 h4 h5 h6 => exact .win h1 h2 h3 h4 h5 h6
      | campaign h1 h2 h3 h4 h5 h6 => exact .campaign h1 h2 h3 h4 h5 h6
      | down g h1 h2 h3 h4 h5 => exact .down g h1 h2 h3 h4 h5
    · have hc := hgrants c t
      unfold grantsTo at hc
      unfold grants
      rw [h, put_chan, hacts.chan, if_pos rfl, List.countP_append, hout, hc, put_node_self]
    · rintro m rfl
      exact hacts.delivers h
  · have hnode : (w.step ev).node a = w.node a := by rw [h, put_node_ne hab, hacts.node]
    rw [hnode]
    refine ⟨(hw a).1, (hw a).2, none, none, hidle, fun c t => ?_, by simp⟩
    unfold grants
    rw [h, put_chan, hacts.chan, if_neg hab]
    simp

theorem Wired.step (hw : w.Wired) (ev : Event n) : (w.step ev).Wired := by
  intro a
  obtain ⟨hid, htalker, -⟩ := step_ballot hw ev a
  exact ⟨hid, htalker⟩

/-- No step casts a vote ahead of its voter. -/
theorem grants_term_le (hw : w.Wired) (hle : ∀ v c t, 0 < w.grants v c t → t ≤ (w.node v).currentTerm)
    (ev : Event n) (v c : Fin n) (t : ℕ) (hpos : 0 < (w.step ev).grants v c t) :
    t ≤ ((w.step ev).node v).currentTerm := by
  obtain ⟨-, -, m, g, hstep, hgr, -⟩ := step_ballot hw ev v
  rw [hgr] at hpos
  split at hpos
  · rename_i hnew
    exact le_of_eq hnew.2
  · exact le_trans (hle v c t hpos) hstep.term_le

/-! ## The invariant -/

/-- Votes and tallies of a world in which votes are counted in their term. -/
structure Ballots (w : World n) : Prop where
  wired : w.Wired
  /-- a vote is not ahead of its voter -/
  term_le : ∀ v c t, 0 < w.grants v c t → t ≤ (w.node v).currentTerm
  /-- who is in the race has voted for itself only -/
  own : ∀ v c, (w.node v).contends → 0 < w.grants v c (w.node v).currentTerm → c = v
  /-- who has voted for another node has spent its vote -/
  spent : ∀ v c, ¬ (w.node v).contends → c ≠ v → 0 < w.grants v c (w.node v).currentTerm →
    (w.node v).votedFor ≠ none
  once : ∀ v c t, c ≠ v ∨ ((w.node v).contends ∧ t = (w.node v).currentTerm) → w.grants v c t ≤ 1
  unique : ∀ v a b t, 0 < w.grants v a t → 0 < w.grants v b t → a ≠ b → a = v ∨ b = v
  tally : ∀ c, (w.node c).campaigns = true →
    (w.node c).tally ≤ ∑ v, w.heard v c (w.node c).currentTerm
  elected : ∀ c, (w.node c).currentRole = .leader → w.Elected c (w.node c).currentTerm

theorem Elected.step {c : Fin n} {t : ℕ} (h : w.Elected c t) : (w.step ev).Elected c t := by
  rcases h with h | h
  · exact Or.inl h
  · refine Or.inr (lt_of_lt_of_le h (card_le_card fun v hv => ?_))
    simp only [mem_filter, mem_univ, true_and] at hv ⊢
    exact lt_of_lt_of_le hv (grants_step v c t)

/-- Votes of which each node has cast one at most come from distinct nodes. -/
theorem sum_grants {c : Fin n} {t : ℕ} (h : ∀ v, w.grants v c t ≤ 1) :
    ∑ v, w.grants v c t = #{v | 0 < w.grants v c t} := by
  rw [card_filter]
  refine sum_congr rfl fun v _ => ?_
  have := h v
  split <;> omega

theorem ballots_init : (World.init : World n).Ballots := by
  have h0 : ∀ v c t, (World.init : World n).grants v c t = 0 := fun _ _ _ => rfl
  refine ⟨fun a => ⟨rfl, rfl⟩, ?_, ?_, ?_, ?_, ?_, ?_, ?_⟩
  · intro v c t h; simp [h0] at h
  · intro v c _ h; simp [h0] at h
  · intro v c _ _ h; simp [h0] at h
  · intro v c t _; simp [h0]
  · intro v a b t h; simp [h0] at h
  · intro c h; simp [World.init, RaftNode.init, RaftNode.campaigns] at h
  · intro c h; simp [World.init, RaftNode.init] at h

/-! ## The steps keep it -/

theorem Ballots.step_once (h : w.Ballots) {v c : Fin n} {t : ℕ}
    (hc : c ≠ v ∨ (((w.step ev).node v).contends ∧ t = ((w.step ev).node v).currentTerm)) :
    (w.step ev).grants v c t ≤ 1 := by
  obtain ⟨-, -, m, g, hstep, hgr, -⟩ := step_ballot h.wired ev v
  rw [hgr]
  split
  · -- a new vote is the first one
    rename_i hnew
    obtain ⟨rfl, rfl⟩ := hnew
    -- a vote in this term before would be in `votedFor`, or be the node's own
    have h0 : w.grants v c ((w.step ev).node v).currentTerm = 0 := by
      by_contra hne
      have hle := h.term_le v c _ (Nat.pos_of_ne_zero hne)
      obtain ⟨hvoted, hrace, hrace'⟩ := hstep.again (by simp) hle
      have hcv : c ≠ v := hc.resolve_right fun h => hrace' h.1
      have hterm : ((w.step ev).node v).currentTerm = (w.node v).currentTerm :=
        le_antisymm hle (hstep.term_le)
      rw [hterm] at hne
      exact h.spent v c hrace hcv (Nat.pos_of_ne_zero hne) hvoted
    omega
  · rename_i hold
    refine h.once v c t ?_
    rcases hc with hcv | ⟨hrace, rfl⟩
    · exact Or.inl hcv
    · rcases hstep.entered hrace with ⟨h1, h2, -⟩ | ⟨-, hg⟩
      · exact Or.inr ⟨h1, h2⟩
      · rw [(h.wired v).1] at hg
        exact Or.inl fun hcv => hold ⟨by rw [hg, hcv], rfl⟩

theorem Ballots.step_unique (h : w.Ballots) {v a b : Fin n} {t : ℕ} (ha : 0 < (w.step ev).grants v a t)
    (hb : 0 < (w.step ev).grants v b t) (hab : a ≠ b) : a = v ∨ b = v := by
  obtain ⟨-, -, m, g, hstep, hgr, -⟩ := step_ballot h.wired ev v
  rw [hgr] at ha hb
  -- with a new vote for `x`, an older one in the same term is for `v` itself
  have key : ∀ x y, g = some x ∧ t = ((w.step ev).node v).currentTerm → 0 < w.grants v y t → y = v := by
    rintro x y ⟨rfl, rfl⟩ hy
    have hle := h.term_le v y _ hy
    obtain ⟨hvoted, hrace, -⟩ := hstep.again (by simp) hle
    have hterm := le_antisymm hle (hstep.term_le)
    rw [hterm] at hy
    by_contra hyv
    exact h.spent v y hrace hyv hy hvoted
  by_cases hga : g = some a ∧ t = ((w.step ev).node v).currentTerm
  · have hgb : ¬ (g = some b ∧ t = ((w.step ev).node v).currentTerm) := by
      rintro ⟨h', -⟩
      exact hab (Option.some.inj (hga.1.symm.trans h'))
    rw [if_neg hgb] at hb
    exact Or.inr (key a b hga (by omega))
  rw [if_neg hga] at ha
  by_cases hgb : g = some b ∧ t = ((w.step ev).node v).currentTerm
  · exact Or.inl (key b a hgb (by omega))
  · rw [if_neg hgb] at hb
    exact h.unique v a b t (by omega) (by omega) hab

/-- A vote that is counted is one more vote heard in the candidate's term. -/
theorem heard_counts (hv : w.VoteInTerm ev) {c : Fin n} {m : Option (Message n)}
    (hm : RaftNode.counts m) (hdel : ∀ x, m = some x → ∃ a i, w.Delivers ev c x a i)
    (hrace : (w.node c).campaigns = true) :
    ∑ v, w.heard v c (w.node c).currentTerm + 1 ≤ ∑ v, (w.step ev).heard v c (w.node c).currentTerm := by
  obtain ⟨x, rfl, hgranted⟩ := hm
  obtain ⟨a, i, hd⟩ := hdel x rfl
  have hgrants : x.grants (w.node c).currentTerm = true := by
    rw [Message.grants, hgranted, hv _ hd.delivered hrace hgranted]
    simp
  refine Nat.succ_le_of_lt (sum_lt_sum (fun v _ => heard_step v c _) ⟨a, mem_univ a, ?_⟩)
  have := hd.heard hgrants
  omega

theorem Ballots.step_tally (h : w.Ballots) (hv : w.VoteInTerm ev) {c : Fin n}
    (hc : ((w.step ev).node c).campaigns = true) :
    ((w.step ev).node c).tally ≤ ∑ v, (w.step ev).heard v c ((w.step ev).node c).currentTerm := by
  obtain ⟨-, -, m, g, hstep, -, hdel⟩ := step_ballot h.wired ev c
  cases hstep with
  | keep term voted leader race =>
    obtain ⟨hrace, htally⟩ := race hc
    rw [htally, term]
    exact le_trans (h.tally c hrace) (sum_le_sum fun v _ => heard_step v c _)
  | count term voted follower role race tally vote =>
    have h1 := h.tally c race
    have h2 := heard_counts hv vote hdel race
    rw [tally, term]
    omega
  | win term voted race ended leader majority => rw [ended] at hc; cases hc
  | campaign term voted follower role race tally => rw [tally]; exact Nat.zero_le _
  | down g ended term leader grant voted => exact absurd (Or.inr hc) ended

theorem Ballots.step_elected (h : w.Ballots) (hv : w.VoteInTerm ev) {c : Fin n}
    (hc : ((w.step ev).node c).currentRole = .leader) :
    (w.step ev).Elected c ((w.step ev).node c).currentTerm := by
  obtain ⟨-, -, m, g, hstep, hgr, hdel⟩ := step_ballot h.wired ev c
  cases hstep with
  | keep term voted leader race =>
    rw [term]
    exact (h.elected c (leader.1 hc)).step
  | count term voted follower role race tally vote => exact absurd (role ▸ hc) follower
  | win term voted race ended leader majority =>
    -- the tally is at most the votes heard, so at most the votes granted
    have hheard : n = 1 ∨ n / 2 < ∑ v, (w.step ev).heard v c (w.node c).currentTerm := by
      have hmono : ∑ v, w.heard v c (w.node c).currentTerm ≤
          ∑ v, (w.step ev).heard v c (w.node c).currentTerm :=
        sum_le_sum fun v _ => heard_step v c _
      have htally := h.tally c race
      rcases majority with hn | hmaj | ⟨hmaj, hvote⟩
      · exact Or.inl hn
      · exact Or.inr (by omega)
      · have := heard_counts hv hvote hdel race
        exact Or.inr (by omega)
    rw [term]
    rcases hheard with hn | hmaj
    · exact Or.inl hn
    have honce : ∀ v, (w.step ev).grants v c (w.node c).currentTerm ≤ 1 := by
      intro v
      by_cases hcv : c = v
      · subst hcv; exact h.step_once (Or.inr ⟨Or.inl hc, term.symm⟩)
      · exact h.step_once (Or.inl hcv)
    refine Or.inr (lt_of_lt_of_le hmaj ?_)
    rw [← sum_grants honce]
    exact sum_le_sum fun v _ => heard_le_grants v c _
  | campaign term voted follower role race tally => exact absurd (role ▸ hc) follower
  | down g ended term leader grant voted => exact absurd (Or.inl hc) ended

/-- **A step that counts votes in their term keeps the invariant.** -/
theorem Ballots.step (h : w.Ballots) (hv : w.VoteInTerm ev) : (w.step ev).Ballots where
  wired := h.wired.step ev
  term_le := grants_term_le h.wired h.term_le ev
  own := fun v c hrace hpos => by
    obtain ⟨-, -, m, g, hstep, hgr, -⟩ := step_ballot h.wired ev v
    rw [hgr] at hpos
    rcases hstep.entered hrace with ⟨hrace', hterm, rfl⟩ | ⟨hterm, rfl⟩
    · rw [hterm] at hpos
      exact h.own v c hrace' (by simpa using hpos)
    · -- in the new term it has cast no vote but the one for itself
      by_contra hcv
      have hne : (w.node v).myId ≠ c := by rw [(h.wired v).1]; exact fun h => hcv h.symm
      have hle := h.term_le v c _ (by simpa [hne] using hpos)
      omega
  spent := fun v c hrace hcv hpos => by
    obtain ⟨-, -, m, g, hstep, hgr, -⟩ := step_ballot h.wired ev v
    rw [hgr] at hpos
    have hold : ((w.step ev).node v).currentTerm = (w.node v).currentTerm →
        0 < w.grants v c (w.node v).currentTerm → ¬ (w.node v).contends ∧ (w.node v).votedFor ≠ none := by
      intro hterm hpos
      have hrace' : ¬ (w.node v).contends := fun hc => hcv (h.own v c hc hpos)
      exact ⟨hrace', h.spent v c hrace' hcv hpos⟩
    cases hstep with
    | keep term voted leader race =>
      rw [voted]
      rw [term] at hpos
      exact (hold term (by simpa using hpos)).2
    | count term voted follower role race tally vote =>
      rw [term] at hpos
      exact absurd (Or.inr race) (hold term (by simpa using hpos)).1
    | win term voted race ended leader majority => exact absurd (Or.inl leader) hrace
    | campaign term voted follower role race tally => exact absurd (Or.inr race) hrace
    | down g ended term leader grant voted =>
      by_cases hg : g = some c
      · exact (grant (by simp [hg])).1
      · -- the vote for `c` is an old one, so the term is not new
        have hpos' : 0 < w.grants v c ((w.step ev).node v).currentTerm := by simpa [hg] using hpos
        have hterm := le_antisymm (h.term_le v c _ hpos') term
        rw [hterm] at hpos'
        obtain ⟨h1, h2⟩ := hold hterm hpos'
        exact voted h1 hterm h2
  once := fun v c t hc => h.step_once hc
  unique := fun v a b t ha hb hab => h.step_unique ha hb hab
  tally := fun c hc => h.step_tally hv hc
  elected := fun c hc => h.step_elected hv hc

end World

/-! ## Runs -/

variable {es : List (Event n)}

theorem ballots_wAt (hv : ∀ k (hk : k < es.length), (wAt es k).VoteInTerm es[k]) (k : ℕ) :
    (wAt es k).Ballots :=
  Lib.stateAt_invariant World.ballots_init (fun k hk h => h.step (hv k hk)) k

theorem wired_wAt (k : ℕ) : (wAt es k).Wired :=
  Lib.stateAt_invariant (fun a => ⟨rfl, rfl⟩) (fun k hk h => h.step es[k]) k

variable (es) in
/-- Every time of a run is a ballot step from the one before, at every node. -/
theorem wAt_ballot (k : ℕ) (a : Fin n) :
    ∃ incoming g, RaftNode.BallotStep incoming ((wAt es k).node a) ((wAt es (k + 1)).node a) g ∧
      ∀ c t, (wAt es (k + 1)).grants a c t = (wAt es k).grants a c t +
        if g = some c ∧ t = ((wAt es (k + 1)).node a).currentTerm then 1 else 0 := by
  rcases wAt_succ_cases es k with ⟨hk, h⟩ | h
  · rw [h]
    obtain ⟨-, -, m, g, hstep, hgr, -⟩ := World.step_ballot (wired_wAt k) es[k] a
    exact ⟨m, g, hstep, hgr⟩
  · rw [h]
    exact ⟨none, none, .keep rfl rfl Iff.rfl fun h => ⟨h, rfl⟩, by simp⟩

variable (es) in
theorem term_succ (k : ℕ) (a : Fin n) :
    ((wAt es k).node a).currentTerm ≤ ((wAt es (k + 1)).node a).currentTerm := by
  obtain ⟨_, _, hstep, -⟩ := wAt_ballot es k a
  exact hstep.term_le

/-- **A leader leads for the rest of its term.** -/
theorem leader_succ {k : ℕ} {a : Fin n} (h : ((wAt es k).node a).currentRole = .leader)
    (ht : ((wAt es (k + 1)).node a).currentTerm = ((wAt es k).node a).currentTerm) :
    ((wAt es (k + 1)).node a).currentRole = .leader := by
  obtain ⟨_, _, hstep, -⟩ := wAt_ballot es k a
  cases hstep with
  | keep term voted leader race => exact leader.2 h
  | count term voted follower role race tally vote => exact absurd h follower
  | win term voted race ended leader majority => exact leader
  | campaign term voted follower role race tally => exact absurd h follower
  | down g ended term leader grant voted => exact absurd ht (ne_of_gt (leader h))

/-- Who leads in a term has voted for no other node in it, and never will. -/
theorem leader_no_vote (hv : ∀ k (hk : k < es.length), (wAt es k).VoteInTerm es[k]) {k l : ℕ}
    {a b : Fin n} (h : ((wAt es k).node a).currentRole = .leader) (hba : b ≠ a) (hkl : k ≤ l) :
    (wAt es l).grants a b ((wAt es k).node a).currentTerm = 0 := by
  have key : ((wAt es k).node a).currentTerm ≤ ((wAt es l).node a).currentTerm ∧
      (((wAt es l).node a).currentTerm = ((wAt es k).node a).currentTerm →
        ((wAt es l).node a).currentRole = .leader) ∧
      (wAt es l).grants a b ((wAt es k).node a).currentTerm = 0 := by
    induction l, hkl using Nat.le_induction with
    | base =>
      refine ⟨le_rfl, fun _ => h, ?_⟩
      by_contra hne
      exact hba ((ballots_wAt hv k).own a b (Or.inl h) (Nat.pos_of_ne_zero hne))
    | succ l _ ih =>
      obtain ⟨hle, hlead, hzero⟩ := ih
      have hmono := term_succ es l a
      refine ⟨by omega, fun ht => leader_succ (hlead (by omega)) (by omega), ?_⟩
      obtain ⟨m, g, hstep, hgr⟩ := wAt_ballot es l a
      rw [hgr, hzero, Nat.zero_add, if_neg]
      rintro ⟨rfl, ht⟩
      -- a vote in the leader's term would be cast while it leads
      obtain ⟨-, hrace, -⟩ := hstep.again (by simp) (by omega)
      exact hrace (Or.inl (hlead (by omega)))
  exact key.2.2

theorem elected_wAt {k l : ℕ} {a : Fin n} {t : ℕ} (h : (wAt es k).Elected a t) (hkl : k ≤ l) :
    (wAt es l).Elected a t := by
  induction l, hkl using Nat.le_induction with
  | base => exact h
  | succ l _ ih =>
    rcases wAt_succ_cases es l with ⟨hl, heq⟩ | heq
    · rw [heq]; exact ih.step
    · rw [heq]; exact ih

/-- Leaders of one term, at any two times, are one node. -/
theorem leader_unique (hv : ∀ k (hk : k < es.length), (wAt es k).VoteInTerm es[k]) {k l : ℕ}
    {a b : Fin n} (ha : ((wAt es k).node a).currentRole = .leader)
    (hb : ((wAt es l).node b).currentRole = .leader)
    (ht : ((wAt es k).node a).currentTerm = ((wAt es l).node b).currentTerm) : a = b := by
  by_contra hab
  set t := ((wAt es k).node a).currentTerm with hta
  have hea := elected_wAt ((ballots_wAt hv k).elected a ha) (le_max_left k l)
  have heb := elected_wAt ((ballots_wAt hv l).elected b hb) (le_max_right k l)
  rw [← ht] at heb
  rw [← hta] at hea
  -- some node has voted for both
  have hvoter : ∃ v, 0 < (wAt es (max k l)).grants v a t ∧ 0 < (wAt es (max k l)).grants v b t := by
    rcases hea with hn | hea
    · subst hn; exact absurd (Subsingleton.elim a b) hab
    rcases heb with hn | heb
    · subst hn; exact absurd (Subsingleton.elim a b) hab
    have hinter := inter_nonempty_of_card_lt_card_add_card (subset_univ _) (subset_univ _)
      (show #(univ) < #{v | 0 < (wAt es (max k l)).grants v a t} +
        #{v | 0 < (wAt es (max k l)).grants v b t} by rw [card_univ, Fintype.card_fin]; omega)
    obtain ⟨v, hmem⟩ := hinter
    rw [mem_inter, mem_filter, mem_filter] at hmem
    exact ⟨v, hmem.1.2, hmem.2.2⟩
  obtain ⟨v, hva, hvb⟩ := hvoter
  -- so one of the two is the voter, and has voted for the other
  rcases (ballots_wAt hv _).unique v a b t hva hvb hab with rfl | rfl
  · have : (wAt es (max k l)).grants a b t = 0 := leader_no_vote hv ha (Ne.symm hab) (le_max_left k l)
    omega
  · have : (wAt es (max k l)).grants b a t = 0 := by
      rw [ht]; exact leader_no_vote hv hb hab (le_max_right k l)
    omega

/-- **Election safety where votes are counted in their term.** -/
theorem election_safety (hv : ∀ k (hk : k < es.length), (wAt es k).VoteInTerm es[k]) :
    ElectionSafety es := by
  intro k l a b ha hb ht
  exact leader_unique hv ha hb ht

/-- Node 0 of three is elected by itself and node 1. -/
def elected : List (Event 3) :=
  [.call 0, .timeout 0, .call 0, .call 1, .take 1 0 0, .take 0 0 0, .take 0 0 1, .take 0 1 0]

theorem election_safety_elected :
    ((wAt elected 8).node 0).currentRole = .leader ∧ ElectionSafety elected :=
  ⟨by decide, election_safety (by decide)⟩

/-! ## Votes of an earlier election -/

/-- Nodes 0 and 1 each campaign twice, and count the votes for themselves of both
terms. -/
def doubleCount : List (Event 3) :=
  [0, 1].flatMap fun b =>
    [.call b, .timeout b, .call b, .timeout b, .call b,
      .take b b 0, .take b b 1, .take b b 2, .take b b 3]

set_option maxRecDepth 10000 in
/-- **Two leaders of one term**: at the end, nodes 0 and 1 of three both lead in
term 3, with no vote from any other node. -/
theorem two_leaders : ¬ ElectionSafety doubleCount := by
  intro h
  have hab := h 18 18 0 1 (by decide) (by decide) (by decide)
  exact absurd hab (by decide)

end EdgeConsensus.Raft
