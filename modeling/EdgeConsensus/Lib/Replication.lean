import Mathlib.Data.List.Infix
import Mathlib.Data.Nat.Init
import Mathlib.Data.Nat.Notation
import Mathlib.Tactic.Common

/-!
# Replicated logs, as histories

A history shows, at every time, each node's term, whether it leads, and its log.
Logs are lists of entries with a term `τ`; only leaders add entries, and the
others copy one entry at a time behind an entry of the same term.

* `matching` (`Replicated`): two logs of any two times that hold entries of
  one term at an index agree up to it.
* `Acked.keeps` (`Careful`): once every node has, in the leader's term, held the
  leader's entry at an index, all nodes keep the leader's log up to that index
  for ever. No comparison of logs in votes is needed, since every node took part.
* `committed_agree`: commits that leaders make from such unanimous
  acknowledgements, and others copy from leaders, agree everywhere and always.
-/

namespace EdgeConsensus.Lib

variable {ι α : Type*}

/-! ## Prefixes of lists -/

theorem take_of_prefix {L M : List α} {p : ℕ} (h : L <+: M ∨ M <+: L) (hL : p < L.length)
    (hM : p < M.length) : L.take (p + 1) = M.take (p + 1) := by
  rcases h with h | h
  · obtain ⟨R, rfl⟩ := h
    rw [List.take_append_of_le_length (by omega)]
  · obtain ⟨R, rfl⟩ := h
    rw [List.take_append_of_le_length (by omega)]

theorem getElem?_of_prefix {L M : List α} (h : L <+: M) {x : ℕ} {e : α} (he : L[x]? = some e) :
    M[x]? = some e := by
  obtain ⟨R, rfl⟩ := h
  obtain ⟨hlt, -⟩ := List.getElem?_eq_some_iff.1 he
  rw [List.getElem?_append_left hlt, he]

theorem getElem?_of_take {L M : List α} {m x : ℕ} (h : L.take m = M.take m) (hx : x < m) :
    L[x]? = M[x]? := by
  rw [← List.getElem?_take_of_lt hx, h, List.getElem?_take_of_lt hx]

theorem take_of_take {L M : List α} {m x : ℕ} (h : L.take m = M.take m) (hx : x ≤ m) :
    L.take x = M.take x := by
  have := congrArg (List.take x) h
  rwa [List.take_take, List.take_take, min_eq_left hx] at this

/-! ## Histories -/

/-- What a history shows of the nodes `ι` at each time. -/
structure History (ι α : Type*) where
  term : ℕ → ι → ℕ
  leads : ℕ → ι → Prop
  log : ℕ → ι → List α

namespace History

variable (H : History ι α) (τ : α → ℕ)

/-- Node `i` leads and adds entries of its term. -/
def Led (k : ℕ) (i : ι) : Prop :=
  H.leads (k + 1) i ∧ H.term (k + 1) i = H.term k i ∧
    ∃ es, H.log (k + 1) i = H.log k i ++ es ∧ ∀ e ∈ es, τ e = H.term k i

/-- Node `i` copies the entry `e` at `p + 1` of the log that `c` had when it led
at time `q`, behind an entry of the term that `c` had there. -/
structure Accepted (k : ℕ) (i : ι) (q : ℕ) (c : ι) (p : ℕ) (e : α) : Prop where
  past : q ≤ k
  source : H.leads q c
  other : ¬ H.leads k i
  entry : (H.log q c)[p + 1]? = some e
  behind : (H.log k i)[p]?.map τ = (H.log q c)[p]?.map τ
  log_eq : H.log (k + 1) i = (H.log k i).take (p + 1) ++ [e]

/-- The laws of a replicated log. -/
structure Replicated : Prop where
  term_mono : ∀ k i, H.term k i ≤ H.term (k + 1) i
  leader_unique : ∀ k l i j, H.leads k i → H.leads l j → H.term k i = H.term l j → i = j
  leader_stays : ∀ k i, H.leads k i → H.term (k + 1) i = H.term k i → H.leads (k + 1) i
  init : ∃ e, ∀ i, H.log 0 i = [e]
  step : ∀ k i, H.log (k + 1) i = H.log k i ∨ H.Led τ k i ∨ ∃ q c p e, H.Accepted τ k i q c p e

variable {H τ}

theorem Replicated.term_le (hR : H.Replicated τ) (i : ι) {j k : ℕ} (hjk : j ≤ k) :
    H.term j i ≤ H.term k i := by
  induction k, hjk using Nat.le_induction with
  | base => exact le_rfl
  | succ k _ ih => exact le_trans ih (hR.term_mono k i)

/-- **A leader leads for the rest of its term**, and its log only grows. -/
theorem Replicated.leader_grows (hR : H.Replicated τ) {q k : ℕ} {c : ι} (hq : H.leads q c)
    (hqk : q ≤ k) (ht : H.term k c = H.term q c) : H.leads k c ∧ H.log q c <+: H.log k c := by
  induction k, hqk using Nat.le_induction with
  | base => exact ⟨hq, List.prefix_rfl⟩
  | succ k hqk ih =>
    have h1 := hR.term_le c hqk
    have h2 := hR.term_mono k c
    obtain ⟨hk, hpre⟩ := ih (by omega)
    refine ⟨hR.leader_stays k c hk (by omega), hpre.trans ?_⟩
    rcases hR.step k c with h | ⟨-, -, es, h, -⟩ | ⟨_, _, _, _, hacc⟩
    · rw [h]
    · rw [h]; exact List.prefix_append _ _
    · exact absurd hk hacc.other

/-- The logs that the leader of a term has while it leads are prefixes of each other. -/
theorem Replicated.leader_logs (hR : H.Replicated τ) {q k : ℕ} {c d : ι} (hq : H.leads q c)
    (hk : H.leads k d) (ht : H.term q c = H.term k d) :
    H.log q c <+: H.log k d ∨ H.log k d <+: H.log q c := by
  obtain rfl := hR.leader_unique q k c d hq hk ht
  rcases le_total q k with h | h
  · exact Or.inl (hR.leader_grows hq h ht.symm).2
  · exact Or.inr (hR.leader_grows hk h ht).2

/-- Every entry of `L` but the first stands in the log of a leader of its term, of
a time up to `k`, with the same entries before it. -/
def Sourced (H : History ι α) (τ : α → ℕ) (k : ℕ) (L : List α) : Prop :=
  ∀ p e, L[p + 1]? = some e → ∃ q ≤ k, ∃ c, H.leads q c ∧ H.term q c = τ e ∧
    p + 1 < (H.log q c).length ∧ L.take (p + 2) = (H.log q c).take (p + 2)

theorem Sourced.mono {j k : ℕ} {L : List α} (h : H.Sourced τ j L) (hjk : j ≤ k) : H.Sourced τ k L := by
  intro p e hp
  obtain ⟨q, hq, c, hc⟩ := h p e hp
  exact ⟨q, by omega, c, hc⟩

/-- A prefix of a sourced log is sourced. -/
theorem Sourced.take {k m : ℕ} {L : List α} (h : H.Sourced τ k L) : H.Sourced τ k (L.take m) := by
  intro p e hp
  rw [List.getElem?_take] at hp
  split at hp
  · rename_i hpm
    obtain ⟨q, hq, c, h1, h2, h3, h4⟩ := h p e hp
    refine ⟨q, hq, c, h1, h2, h3, ?_⟩
    rw [List.take_take, min_eq_left (by omega), h4]
  · cases hp

/-- Sourced logs with the same first entry match. -/
theorem Sourced.matching (hR : H.Replicated τ) {j k : ℕ} {L M : List α} (hL : H.Sourced τ j L)
    (hM : H.Sourced τ k M) (h0 : L[0]? = M[0]?) {p : ℕ} {e f : α} (he : L[p]? = some e)
    (hf : M[p]? = some f) (ht : τ e = τ f) : L.take (p + 1) = M.take (p + 1) := by
  cases p with
  | zero => rw [List.take_one, List.take_one, List.head?_eq_getElem?, List.head?_eq_getElem?, h0]
  | succ p =>
    obtain ⟨q, -, c, h1, h2, h3, h4⟩ := hL p e he
    obtain ⟨q', -, c', h1', h2', h3', h4'⟩ := hM p f hf
    have hlogs := hR.leader_logs h1 h1' (by omega)
    rw [h4, h4', take_of_prefix hlogs h3 h3']

/-- Every log starts with the first entry of the history. -/
theorem Replicated.log_zero (hR : H.Replicated τ) :
    ∃ e, ∀ k i, (H.log k i)[0]? = some e := by
  obtain ⟨e, he⟩ := hR.init
  refine ⟨e, fun k => ?_⟩
  induction k with
  | zero => intro i; simp [he i]
  | succ k ih =>
    intro i
    have hi := ih i
    have hne : H.log k i ≠ [] := by intro h; simp [h] at hi
    rcases hR.step k i with h | ⟨-, -, es, h, -⟩ | ⟨_, _, p, _, hacc⟩
    · rw [h]; exact hi
    · rw [h, List.getElem?_append_left (List.length_pos_iff.2 hne)]; exact hi
    · rw [hacc.log_eq, List.getElem?_append_left, List.getElem?_take_of_lt (by omega)]
      · exact hi
      · have := List.length_pos_iff.2 hne
        rw [List.length_take]; omega

theorem Replicated.log_pos (hR : H.Replicated τ) (k : ℕ) (i : ι) : 0 < (H.log k i).length := by
  obtain ⟨e, he⟩ := hR.log_zero
  obtain ⟨h, -⟩ := List.getElem?_eq_some_iff.1 (he k i)
  exact h

/-- **An accepted entry makes the log a prefix of the source's.** -/
theorem Accepted.eq_take (hR : H.Replicated τ) {k q p : ℕ} {i c : ι} {e : α}
    (hacc : H.Accepted τ k i q c p e) (hk : H.Sourced τ k (H.log k i))
    (hq : H.Sourced τ k (H.log q c)) :
    (H.log k i).take (p + 1) = (H.log q c).take (p + 1) ∧
      H.log (k + 1) i = (H.log q c).take (p + 2) := by
  obtain ⟨e0, he0⟩ := hR.log_zero
  obtain ⟨hlen, -⟩ := List.getElem?_eq_some_iff.1 hacc.entry
  obtain ⟨x, hqp⟩ : ∃ x, (H.log q c)[p]? = some x := ⟨_, List.getElem?_eq_getElem (by omega)⟩
  have hb := hacc.behind
  rw [hqp, Option.map_some, Option.map_eq_some_iff] at hb
  obtain ⟨f, hf, htf⟩ := hb
  have htake := hk.matching hR hq (by rw [he0, he0]) hf hqp htf
  refine ⟨htake, ?_⟩
  rw [hacc.log_eq, htake, List.take_add_one (i := p + 1), hacc.entry, Option.toList_some]

theorem Replicated.sourced (hR : H.Replicated τ) : ∀ k i, H.Sourced τ k (H.log k i) := by
  -- over all logs up to a time, since an accepted entry comes from a past log
  have key : ∀ k, ∀ j ≤ k, ∀ i, H.Sourced τ k (H.log j i) := by
    intro k
    induction k with
    | zero =>
      intro j hj i p e hp
      obtain rfl : j = 0 := by omega
      obtain ⟨e0, he0⟩ := hR.init
      rw [he0 i] at hp; simp at hp
    | succ k ih =>
      intro j hj i
      rcases Nat.lt_or_ge j (k + 1) with hjk | hjk
      · exact (ih j (by omega) i).mono (by omega)
      obtain rfl : j = k + 1 := by omega
      have hi := ih k le_rfl i
      rcases hR.step k i with h | ⟨hl, ht, es, h, hes⟩ | ⟨q, c, p, e, hacc⟩
      · rw [h]; exact hi.mono (by omega)
      · -- the new entries of a leader are sourced in its own log
        intro p e hp
        rw [h] at hp
        rcases Nat.lt_or_ge (p + 1) (H.log k i).length with hlt | hge
        · rw [List.getElem?_append_left hlt] at hp
          obtain ⟨q, hq, c, h1, h2, h3, h4⟩ := hi p e hp
          refine ⟨q, by omega, c, h1, h2, h3, ?_⟩
          rw [h, List.take_append_of_le_length (by omega), h4]
        · rw [List.getElem?_append_right hge] at hp
          obtain ⟨hlt, -⟩ := List.getElem?_eq_some_iff.1 hp
          refine ⟨k + 1, le_rfl, i, hl, ?_, ?_, rfl⟩
          · rw [ht, hes e (List.mem_of_getElem? hp)]
          · rw [h, List.length_append]; omega
      · -- a follower's log is a prefix of a past log of the source
        obtain ⟨-, hlog⟩ := hacc.eq_take hR hi (ih q hacc.past c)
        rw [hlog]
        exact (ih q hacc.past c).take.mono (by omega)
  exact fun k i => key k k le_rfl i

/-- **Log matching**, between any two nodes at any two times. -/
theorem Replicated.matching (hR : H.Replicated τ) {k l p : ℕ} {i j : ι} {e f : α}
    (he : (H.log k i)[p]? = some e) (hf : (H.log l j)[p]? = some f) (ht : τ e = τ f) :
    (H.log k i).take (p + 1) = (H.log l j).take (p + 1) := by
  obtain ⟨e0, he0⟩ := hR.log_zero
  exact (hR.sourced k i).matching hR (hR.sourced l j) (by rw [he0, he0]) he hf ht

/-! ## Unanimous acknowledgement -/

/-- A replicated log whose followers copy only from the leader of the term they are
in, and cut nothing off behind an entry they already have. -/
structure Careful (H : History ι α) (τ : α → ℕ) : Prop extends H.Replicated τ where
  careful : ∀ k i, H.log (k + 1) i = H.log k i ∨ H.Led τ k i ∨
    ∃ q c p e, H.Accepted τ k i q c p e ∧ H.term q c = H.term k i ∧
      ((H.log k i)[p + 1]? = some e → (H.log k i).length = p + 2)

/-- By time `k`, node `i` has held, while in the term that `c` is in at `k`, the
entry that `c` has at `m`. -/
def Held (H : History ι α) (k : ℕ) (c i : ι) (m : ℕ) : Prop :=
  ∃ q ≤ k, H.term q i = H.term k c ∧ ∃ e ∈ (H.log q i)[m]?, (H.log k c)[m]? = some e

instance [DecidableEq α] (H : History ι α) (k : ℕ) (c i : ι) (m : ℕ) : Decidable (H.Held k c i m) := by
  unfold Held; infer_instance

/-- Every node has held the entry that the leader `c` has at `m`. -/
def Acked (H : History ι α) (k : ℕ) (c : ι) (m : ℕ) : Prop := H.leads k c ∧ ∀ i, H.Held k c i m

/-- Who holds an entry holds those before it. -/
theorem Held.below (hR : H.Replicated τ) {k m x : ℕ} {c i : ι} (h : H.Held k c i m) (hx : x ≤ m) :
    H.Held k c i x := by
  obtain ⟨q, hq, ht, e, he, he'⟩ := h
  have htake := hR.matching he he' rfl
  obtain ⟨hlen, -⟩ := List.getElem?_eq_some_iff.1 he'
  obtain ⟨f, hc⟩ : ∃ f, (H.log k c)[x]? = some f := ⟨_, List.getElem?_eq_getElem (by omega)⟩
  exact ⟨q, hq, ht, f, (getElem?_of_take htake (by omega)).trans hc, hc⟩

theorem Held.succ {k m : ℕ} {c i : ι} (h : H.Held k c i m) (ht : H.term (k + 1) c = H.term k c)
    (hlog : H.log k c <+: H.log (k + 1) c) : H.Held (k + 1) c i m := by
  obtain ⟨q, hq, hterm, e, he, he'⟩ := h
  exact ⟨q, by omega, by rw [hterm, ht], e, he, getElem?_of_prefix hlog he'⟩

theorem Held.self {k m : ℕ} {c : ι} (hm : m < (H.log k c).length) : H.Held k c c m :=
  ⟨k, le_rfl, rfl, _, List.getElem?_eq_getElem hm, List.getElem?_eq_getElem hm⟩

theorem Acked.below (hR : H.Replicated τ) {k m x : ℕ} {c : ι} (h : H.Acked k c m) (hx : x ≤ m) :
    H.Acked k c x :=
  ⟨h.1, fun i => (h.2 i).below hR hx⟩

/-- **What is acknowledged unanimously stays.** From the time a node acknowledged
it, the node keeps the leader's log up to the index. -/
theorem Acked.keeps_from (hC : H.Careful τ) {k m : ℕ} {c : ι} (h : H.Acked k c m) :
    ∃ Q : ι → ℕ, (∀ i, Q i ≤ k) ∧
      ∀ l i, Q i ≤ l → (H.log l i).take (m + 1) = (H.log k c).take (m + 1) := by
  have hR := hC.toReplicated
  obtain ⟨hlead, hall⟩ := h
  choose Q hQ hterm hheld using hall
  refine ⟨Q, hQ, fun l => ?_⟩
  have hm : m < (H.log k c).length := by
    obtain ⟨e, -, he⟩ := hheld c
    exact (List.getElem?_eq_some_iff.1 he).1
  -- strong induction: a follower copies from what another node had at some time before
  induction l using Nat.strongRecOn with
  | ind l ih =>
    intro i hi
    rcases Nat.eq_or_lt_of_le hi with rfl | hlt
    · obtain ⟨e, he, he'⟩ := hheld i
      exact hR.matching he he' rfl
    obtain ⟨l, rfl⟩ : ∃ l', l = l' + 1 := ⟨l - 1, by omega⟩
    have hF := ih l (by omega) i (by omega)
    have hFlen : m < (H.log l i).length := by
      have := congrArg List.length hF
      rw [List.length_take, List.length_take] at this; omega
    rcases hC.careful l i with h | ⟨-, -, es, h, -⟩ | ⟨q, d, p, e, hacc, hqt, hcut⟩
    · rw [h]; exact hF
    · rw [h, List.take_append_of_le_length (by omega)]; exact hF
    · obtain ⟨-, hlog⟩ := hacc.eq_take hR (hR.sourced l i) ((hR.sourced q d).mono hacc.past)
      obtain ⟨hp, -⟩ := List.getElem?_eq_some_iff.1 hacc.entry
      have hti := hR.term_le i (show Q i ≤ l by omega)
      -- the source agrees with the leader up to `m`, as far as it reaches
      have hagree : ∀ x ≤ m, x < (H.log q d).length →
          (H.log q d).take (x + 1) = (H.log k c).take (x + 1) := by
        intro x hx hxq
        rcases Nat.eq_or_lt_of_le hti with heq | hgt
        · have ht : H.term q d = H.term k c := by rw [hqt, ← heq, hterm i]
          exact take_of_prefix (hR.leader_logs hacc.source hlead ht) hxq (by omega)
        · -- a later leader acknowledged before it was elected
          have hQd : Q d ≤ q := by
            by_contra hlt
            have := hR.term_le d (show q ≤ Q d by omega)
            rw [hterm d] at this; rw [hterm i] at hgt; omega
          exact take_of_take (ih q (by have := hacc.past; omega) d hQd) (by omega)
      rw [hlog, List.take_take]
      rcases Nat.lt_or_ge (p + 1) m with hlt | hge
      · -- cutting below `m` would cut behind an entry the node already has
        have h1 := getElem?_of_take (hagree (p + 1) (by omega) hp) (show p + 1 < p + 1 + 1 by omega)
        have h2 := getElem?_of_take hF (show p + 1 < m + 1 by omega)
        have := hcut (by rw [h2, ← h1, hacc.entry])
        omega
      · rw [min_eq_left (by omega)]
        exact hagree m le_rfl (by omega)

theorem Acked.keeps (hC : H.Careful τ) {k m : ℕ} {c : ι} (h : H.Acked k c m) {l : ℕ} (hkl : k ≤ l)
    (i : ι) : (H.log l i).take (m + 1) = (H.log k c).take (m + 1) := by
  obtain ⟨Q, hQ, hkeep⟩ := h.keeps_from hC
  exact hkeep l i (le_trans (hQ i) hkl)

/-! ## Commits -/

/-- Commit indices that only move when a leader finds an index acknowledged, or a
node copies (at most) the commit index of another node, with an entry of the same
term there. -/
structure Commits (H : History ι α) (τ : α → ℕ) (commit : ℕ → ι → ℕ) : Prop where
  init : ∀ i, commit 0 i = 0
  step : ∀ k i, commit (k + 1) i = commit k i ∨ H.Acked k i (commit (k + 1) i) ∨
    ∃ q ≤ k, ∃ c, commit (k + 1) i ≤ commit q c ∧ ∃ e f,
      (H.log q c)[commit (k + 1) i]? = some e ∧ (H.log (k + 1) i)[commit (k + 1) i]? = some f ∧ τ f = τ e

/-- Node `i` has, at time `k`, the log up to `m` that is fixed for all nodes. -/
def Settled (H : History ι α) (k : ℕ) (i : ι) (m : ℕ) : Prop :=
  m < (H.log k i).length ∧ (m = 0 ∨ ∃ j ≤ k, ∃ c, H.Acked j c m ∧
    (H.log k i).take (m + 1) = (H.log j c).take (m + 1))

theorem Settled.agree (hC : H.Careful τ) {k l m : ℕ} {i j : ι} (h : H.Settled k i m)
    (h' : H.Settled l j m) : (H.log k i).take (m + 1) = (H.log l j).take (m + 1) := by
  rcases h.2 with rfl | ⟨a, ha, c, hc, h1⟩
  · obtain ⟨e0, he0⟩ := hC.toReplicated.log_zero
    exact hC.toReplicated.matching (he0 k i) (he0 l j) rfl
  rcases h'.2 with rfl | ⟨b, hb, d, hd, h2⟩
  · obtain ⟨e0, he0⟩ := hC.toReplicated.log_zero
    exact hC.toReplicated.matching (he0 k i) (he0 l j) rfl
  · rw [h1, h2, ← hc.keeps hC (le_max_left a b) i, ← hd.keeps hC (le_max_right a b) i]

/-- What is settled at one node is settled at every node from then on. -/
theorem Settled.spread (hC : H.Careful τ) {k l m : ℕ} {i : ι} (h : H.Settled k i m) (hkl : k ≤ l)
    (j : ι) : H.Settled l j m := by
  obtain ⟨hm, rfl | ⟨a, ha, c, hc, h1⟩⟩ := h
  · exact ⟨hC.toReplicated.log_pos l j, Or.inl rfl⟩
  · have hkeep := hc.keeps hC (show a ≤ l by omega) j
    refine ⟨?_, Or.inr ⟨a, by omega, c, hc, hkeep⟩⟩
    have := congrArg List.length (h1.trans hkeep.symm)
    rw [List.length_take, List.length_take] at this; omega

/-- **Committed entries are settled.** -/
theorem Commits.settled (hC : H.Careful τ) {commit : ℕ → ι → ℕ} (hc : H.Commits τ commit) :
    ∀ k i, ∀ m ≤ commit k i, H.Settled k i m := by
  have hR := hC.toReplicated
  have key : ∀ k, ∀ j ≤ k, ∀ i, ∀ m ≤ commit j i, H.Settled j i m := by
    intro k
    induction k with
    | zero =>
      intro j hj i m hm
      obtain rfl : j = 0 := by omega
      rw [hc.init i] at hm
      exact ⟨by have := hR.log_pos 0 i; omega, Or.inl (by omega)⟩
    | succ k ih =>
      intro j hj i m hm
      rcases Nat.lt_or_ge j (k + 1) with hjk | hjk
      · exact ih j (by omega) i m hm
      obtain rfl : j = k + 1 := by omega
      rcases hc.step k i with h | hack | ⟨q, hq, c, hle, e, f, he, hf, ht⟩
      · -- the commit index stays, and so does what is settled
        exact (ih k le_rfl i m (by omega)).spread hC (by omega) i
      · -- a leader commits what is acknowledged
        have hack' := hack.below hR hm
        have hkeep := hack'.keeps hC (show k ≤ k + 1 by omega) i
        obtain ⟨_, _, _, e, -, he⟩ := hack'.2 i
        obtain ⟨hlen, -⟩ := List.getElem?_eq_some_iff.1 he
        refine ⟨?_, Or.inr ⟨k, by omega, i, hack', hkeep⟩⟩
        have := congrArg List.length hkeep
        rw [List.length_take, List.length_take] at this; omega
      · -- the copied prefix is the source's, which is settled there
        have htake := take_of_take (hR.matching hf he ht) (show m + 1 ≤ _ by omega)
        obtain ⟨hlen, -⟩ := List.getElem?_eq_some_iff.1 hf
        obtain ⟨-, h0 | ⟨a, ha, d, hd, h1⟩⟩ := ih q hq c m (by omega)
        · exact ⟨by omega, Or.inl h0⟩
        · exact ⟨by omega, Or.inr ⟨a, by omega, d, hd, htake.trans h1⟩⟩
  exact fun k i m hm => key k k le_rfl i m hm

/-- **Committed entries agree**, between any two nodes at any two times. -/
theorem Commits.committed_agree (hC : H.Careful τ) {commit : ℕ → ι → ℕ} (hc : H.Commits τ commit)
    {k l m : ℕ} {i j : ι} (hi : m ≤ commit k i) (hj : m ≤ commit l j) :
    ∃ e, (H.log k i)[m]? = some e ∧ (H.log l j)[m]? = some e := by
  have h1 := hc.settled hC k i m hi
  have h2 := hc.settled hC l j m hj
  have hget := getElem?_of_take (h1.agree hC h2) (show m < m + 1 by omega)
  exact ⟨_, List.getElem?_eq_getElem h1.1, by rw [← hget, List.getElem?_eq_getElem h1.1]⟩

/-- **A committed entry is in every log from then on.** -/
theorem Commits.complete (hC : H.Careful τ) {commit : ℕ → ι → ℕ} (hc : H.Commits τ commit)
    {k l m : ℕ} {i : ι} (hi : m ≤ commit k i) (hkl : k ≤ l) (j : ι) :
    (H.log l j)[m]? = (H.log k i)[m]? := by
  have h1 := hc.settled hC k i m hi
  exact getElem?_of_take ((h1.spread hC hkl j).agree hC h1) (by omega)

end History

end EdgeConsensus.Lib
