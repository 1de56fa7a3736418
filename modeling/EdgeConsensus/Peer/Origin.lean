import EdgeConsensus.Peer.Rounds

/-!
# Where a copy comes from

* `round_invariant`: in a network of at most 128 nodes the round of a copy is the
  number of its agreeing nodes plus the id of the node that started it.
* `stamps_collide`: so two copies from different nodes may have the same pair
  (version, round) at different locations.
* `same_origin`: copies with the same pair and as many agreeing nodes come from the
  same node, and are at the same location.
-/

namespace EdgeConsensus.Peer

open Finset

variable {n : ℕ} {net : Net n} {es : List (Event n)}

theorem started_mono (hcount : Counts net es) {a : Fin n} {i : Element} {k l : ℕ} (hkl : k ≤ l)
    (h : (wAt net es k).Started a i) : (wAt net es l).Started a i := by
  induction l, hkl using Nat.le_induction with
  | base => exact h
  | succ l _ ih =>
    rcases wAt_succ_cases net es l with ⟨hl, heq⟩ | heq
    · have hstep := (rounds_wAt net es hcount l).step (wired_wAt net es l) es[l] (hcount l hl)
      rw [heq]
      exact hstep.2 a i ih
    · rw [heq]
      exact ih

/-- What holds of the copy of an element at node `a` after the first `k` events. -/
structure RoundInvariant (net : Net n) (es : List (Event n)) (k : ℕ) (a : Fin n) (i : Element) :
    Prop where
  own : nodeId a ∈ (copyAt net es k a i).agreeingNodes
  nodes : AreNodes n (copyAt net es k a i).agreeingNodes
  version : (copyAt net es k a i).versionNumber = 0
  round : ((copyAt net es k a i).roundNumber = 0 ∧ (copyAt net es k a i).agreeingNodes = {nodeId a}) ∨
    ∃ o < n, (copyAt net es k a i).roundNumber.toNat = #(copyAt net es k a i).agreeingNodes + o
  stays : (copyAt net es k a i).roundNumber ≠ 0 → ∀ l ≥ k, (copyAt net es l a i).roundNumber ≠ 0
  bound : (copyAt net es k a i).roundNumber.toNat ≤ 2 * n - 1
  /-- the step that follows stores what it counts -/
  no_wrap : ∀ hk : k < es.length,
    (copyAt net es (k + 1) a i).roundNumber.toNat = (wAt net es k).countedRound net es[k] a i

/-- **The round is the number of agreeing nodes plus the origin's id.** -/
theorem round_invariant (net : Net n) (es : List (Event n)) (hn : 2 * n - 1 ≤ 255) (k : ℕ)
    (a : Fin n) (i : Element) : RoundInvariant net es k a i := by
  have hcount := counts_of_small net es hn
  have hcopy : CopyOK net a i (copyAt net es k a i) := (rounds_wAt net es hcount k).copies a i
  refine ⟨hcopy.own, hcopy.nodes, hcopy.version, ?_, ?_, hcopy.round_le, fun hk => ?_⟩
  · rcases hcopy with hmake | ⟨hshared, -⟩
    · exact Or.inl ⟨by rw [hmake]; rfl, by rw [hmake]; rfl⟩
    · obtain ⟨o, hround, -⟩ := hshared.origin
      exact Or.inr ⟨o, o.isLt, hround⟩
  · intro hround l hl
    exact started_mono hcount hl hround
  · have hstored := (wired_wAt net es k).countedRound es[k] a i
    rw [Nat.mod_eq_of_lt (hcount k hk a i)] at hstored
    rw [copyAt, wAt_succ net es hk]
    exact hstored

/-- Nodes 0 and 1 start a copy each, and node 2 takes over that of node 0. -/
def collision : List (Event 3) :=
  [.getNearbyElements 0 lastNear, .sendAdvertisement 0, .receiveData 2 0,
    .getNearbyElements 2 lastNear, .getNearbyElements 1 lastNear, .sendAdvertisement 2,
    .receiveData 0 2, .receiveData 0 1, .receiveData 2 3, .receiveData 0 4]

theorem round_invariant_collision : 2 * 3 - 1 ≤ 255 ∧ RoundInvariant trio collision 10 2 4 :=
  ⟨by decide, round_invariant trio collision (by decide) 10 2 4⟩

/-! ## Equal pairs -/

/-- Copies past round 0 with the same pair (version, round) are at the same location. -/
def StampLaw (net : Net n) (es : List (Event n)) : Prop :=
  ∀ k a b i, (copyAt net es k a i).stamp = (copyAt net es k b i).stamp →
    (copyAt net es k a i).roundNumber ≠ 0 →
    (copyAt net es k a i).fineLocation = (copyAt net es k b i).fineLocation

/-- **Equal pairs and as many agreeing nodes: the same origin**, hence the same location. -/
theorem same_origin (net : Net n) (es : List (Event n)) (hcount : Counts net es) (k : ℕ) (a b : Fin n)
    (i : Element) (hstamp : (copyAt net es k a i).stamp = (copyAt net es k b i).stamp)
    (hround : (copyAt net es k a i).roundNumber ≠ 0)
    (hcard : #(copyAt net es k a i).agreeingNodes = #(copyAt net es k b i).agreeingNodes) :
    (copyAt net es k a i).fineLocation = (copyAt net es k b i).fineLocation := by
  have hrounds := rounds_wAt net es hcount k
  have hsame : (copyAt net es k a i).roundNumber = (copyAt net es k b i).roundNumber :=
    congrArg Prod.snd hstamp
  obtain ⟨o, ho, hloc⟩ := ((hrounds.copies a i).shared hround).origin
  obtain ⟨o', ho', hloc'⟩ := ((hrounds.copies b i).shared (hsame ▸ hround)).origin
  -- round and number of agreeing nodes give the origin
  have horigin : o = o' := by
    have hnat := congrArg UInt8.toNat hsame
    refine Fin.ext ?_
    unfold copyAt at hnat hcard
    omega
  rw [copyAt, copyAt, hloc, hloc', horigin]

set_option maxRecDepth 10000 in
/-- Nodes 0 and 2 share the copy of node 0. -/
theorem same_origin_collision : (copyAt trio collision 10 0 4).fineLocation =
    (copyAt trio collision 10 2 4).fineLocation :=
  same_origin trio collision (counts_of_small _ _ (by decide)) 10 0 2 4 (by decide)
    (by decide) (by decide)

def crowd : Net 257 := lan 257 (by decide)

/-- Nodes 0 and 256 start a copy each. -/
def wrapped : List (Event 257) := [.getNearbyElements 0 lastNear, .getNearbyElements 256 lastNear]

set_option maxRecDepth 10000 in
/-- **Two origins, one pair**: node 1 holds its own copy at (0, 2), and node 2 that of
node 0. Where a counter wraps, the number of agreeing nodes does not tell the origins
apart either. -/
theorem stamps_collide : ¬ StampLaw trio collision ∧
    ∃ k a b i, (copyAt crowd wrapped k a i).stamp =
        (copyAt crowd wrapped k b i).stamp ∧
      (copyAt crowd wrapped k a i).roundNumber ≠ 0 ∧
      #(copyAt crowd wrapped k a i).agreeingNodes = #(copyAt crowd wrapped k b i).agreeingNodes ∧
      (copyAt crowd wrapped k a i).fineLocation ≠ (copyAt crowd wrapped k b i).fineLocation :=
  ⟨fun h => absurd (h 10 1 2 4 (by decide) (by decide)) (by decide),
    2, 0, 256, 4, by decide, by decide, by decide, by decide⟩

end EdgeConsensus.Peer
