import EdgeConsensus.Peer.Rounds

/-!
# Pairs that go back

A SEND_DATA message is applied whatever the node holds by then. `stamps_advance`: the
pairs (version, round) of a run never go back, and no counter wraps, if and only if
every SEND_DATA is up to date when it is handled and the counters stay in 8 bits.
`stamp_goes_back`: a reply that was overtaken is not up to date.
-/

namespace EdgeConsensus.Peer

open EdgeAwareClientApplication

variable {n : ℕ} {net : Net n}

/-- The pair of a SEND_DATA message, with the round of the node that takes it over. -/
def SendDataMessage.taken (info : SendDataMessage) (me : NodeId) : ℕ ×ₗ ℕ :=
  toLex (info.version.toNat, info.round.toNat + if me ∈ info.syncGroup then 0 else 1)

/-- A node that takes over a copy is at the pair that the message gives it. -/
theorem reading_adopted {s : EdgeAwareClientApplication} {i : Element} {info : SendDataMessage}
    (helem : element? info.elementId = some i)
    (hcount : s.countedRound i (.receiveData (.sendData info)) < 256) :
    reading (s.nextCopy i (.receiveData (.sendData info))).stamp = info.taken s.nodeId := by
  have hround := nextCopy_round s i (.receiveData (.sendData info))
  have hnext : s.nextCopy i (.receiveData (.sendData info)) = adopt s.nodeId info := if_pos helem
  rw [Nat.mod_eq_of_lt hcount] at hround
  simp only [EdgeAwareClientApplication.countedRound, if_pos helem] at hround
  rw [SendDataMessage.taken, ← hround, hnext]
  rfl

/-- No other input takes a pair back. -/
theorem stamp_le_other {s : EdgeAwareClientApplication} {i : Element} {input : Input}
    (hcount : s.countedRound i input < 256)
    (hother : ∀ info, input = .receiveData (.sendData info) → element? info.elementId ≠ some i) :
    reading (s.agreementInformation i).stamp ≤ reading (s.nextCopy i input).stamp := by
  have hround := nextCopy_round s i input
  rw [Nat.mod_eq_of_lt hcount] at hround
  have hchange := nextCopy_changes s i input
  generalize s.nextCopy i input = c at hround hchange ⊢
  cases hchange with
  | keep => exact le_rfl
  | start hinit =>
    refine reading_le.2 (Or.inr ⟨rfl, ?_⟩)
    rw [AgreementInformation.stamp, hinit.1]
    exact Nat.zero_le _
  | adopt elem => exact absurd elem (hother _ rfl)
  | credit elem new =>
    simp only [EdgeAwareClientApplication.countedRound] at hround
    rw [if_pos ⟨elem, new⟩] at hround
    rw [credit, if_neg new] at hround ⊢
    refine reading_le.2 (Or.inr ⟨rfl, ?_⟩)
    exact le_of_lt (hround ▸ Nat.lt_succ_self _)

/-- **An input takes no pair back** exactly when the copy it brings, if any, is up to date. -/
theorem stamp_le_nextCopy (s : EdgeAwareClientApplication) (i : Element) (input : Input)
    (hcount : s.countedRound i input < 256) :
    reading (s.agreementInformation i).stamp ≤ reading (s.nextCopy i input).stamp ↔
      ∀ info, input = .receiveData (.sendData info) → element? info.elementId = some i →
        reading (s.agreementInformation i).stamp ≤ info.taken s.nodeId := by
  constructor
  · rintro hle info rfl helem
    rw [← reading_adopted helem hcount]
    exact hle
  · intro hall
    by_cases hadopt : ∃ info, input = .receiveData (.sendData info) ∧ element? info.elementId = some i
    · obtain ⟨info, rfl, helem⟩ := hadopt
      rw [reading_adopted helem hcount]
      exact hall info rfl helem
    · exact stamp_le_other hcount fun info hinfo helem => hadopt ⟨info, hinfo, helem⟩

/-- A SEND_DATA that the event hands to a node does not fall behind the node's pair. -/
def World.UpToDate (net : Net n) (w : World n) (ev : Event n) : Prop :=
  ∀ b i info, w.input net ev = some (b, .receiveData (.sendData info)) →
    element? info.elementId = some i →
    reading ((w.node b).agreementInformation i).stamp ≤ info.taken (w.node b).nodeId

/-- Pairs never go back, and what is stored of a round is what was counted. -/
def StampsAdvance (net : Net n) (es : List (Event n)) : Prop :=
  (∀ a i j k, j ≤ k → reading (copyAt net es j a i).stamp ≤ reading (copyAt net es k a i).stamp) ∧
  ∀ k (hk : k < es.length) a i,
    (copyAt net es (k + 1) a i).roundNumber.toNat = (wAt net es k).countedRound net es[k] a i

/-- A step takes no pair back exactly when what it hands over is up to date. -/
theorem World.Wired.stamp_le {w : World n} (h : w.Wired net) (ev : Event n)
    (hcount : ∀ a i, w.countedRound net ev a i < 256) :
    (∀ a i, reading ((w.node a).agreementInformation i).stamp ≤
      reading (((w.step net ev).node a).agreementInformation i).stamp) ↔ w.UpToDate net ev := by
  cases hinput : w.input net ev with
  | none =>
    refine ⟨fun _ b i info hb => ?_, fun _ a i => ?_⟩
    · rw [hinput] at hb
      cases hb
    · rw [h.nextCopy, World.nextCopy, hinput]
  | some bi =>
    obtain ⟨b, input⟩ := bi
    -- the counts of the node that acts fit
    have hb : ∀ i, (w.node b).countedRound i input < 256 := by
      intro i
      have hlt := hcount b i
      simpa only [World.countedRound, hinput, if_pos] using hlt
    constructor
    · intro hle c i info hc helem
      rw [hinput] at hc
      obtain ⟨rfl, rfl⟩ := Prod.mk.inj (Option.some.inj hc)
      have hstep := hle b i
      rw [h.nextCopy] at hstep
      simp only [World.nextCopy, hinput, if_pos] at hstep
      exact (stamp_le_nextCopy _ i _ (hb i)).1 hstep info rfl helem
    · intro hup a i
      rw [h.nextCopy]
      simp only [World.nextCopy, hinput]
      by_cases hab : a = b
      · subst hab
        rw [if_pos rfl]
        refine (stamp_le_nextCopy _ i _ (hb i)).2 fun info hinfo helem => ?_
        exact hup a i info (by rw [hinput, hinfo]) helem
      · rw [if_neg hab]

/-- **Pairs never go back and no counter wraps** if and only if every SEND_DATA is up to
date when it is handled and every count fits in 8 bits. -/
theorem stamps_advance (net : Net n) (es : List (Event n)) :
    StampsAdvance net es ↔ ∀ k (hk : k < es.length),
      (wAt net es k).UpToDate net es[k] ∧ ∀ a i, (wAt net es k).countedRound net es[k] a i < 256 := by
  constructor
  · rintro ⟨hle, hexact⟩ k hk
    -- what is stored is below 256, and is what was counted
    have hcount : ∀ a i, (wAt net es k).countedRound net es[k] a i < 256 := by
      intro a i
      rw [← hexact k hk a i]
      exact (copyAt net es (k + 1) a i).roundNumber.toNat_lt
    refine ⟨((wired_wAt net es k).stamp_le es[k] hcount).1 fun a i => ?_, hcount⟩
    have hstep := hle a i k (k + 1) (Nat.le_succ k)
    rw [copyAt, copyAt, wAt_succ net es hk] at hstep
    exact hstep
  · intro h
    refine ⟨fun a i j k hjk => ?_, fun k hk a i => ?_⟩
    · induction k, hjk using Nat.le_induction with
      | base => exact le_rfl
      | succ k _ ih =>
        refine ih.trans ?_
        rcases wAt_succ_cases net es k with ⟨hk, heq⟩ | heq
        · rw [copyAt, copyAt, heq]
          exact ((wired_wAt net es k).stamp_le es[k] (h k hk).2).2 (h k hk).1 a i
        · rw [copyAt, copyAt, heq]
    · have hstored := (wired_wAt net es k).countedRound es[k] a i
      rw [Nat.mod_eq_of_lt ((h k hk).2 a i)] at hstored
      rw [copyAt, wAt_succ net es hk]
      exact hstored

/-- Node 1 asks node 0, then node 2, which has a later pair; the reply of node 0 comes
last. -/
def overtaken : List (Event 3) :=
  [.getNearbyElements 0 lastNear, .sendAdvertisement 0, .receiveData 1 0,
    .getNearbyElements 1 lastNear, .sendAdvertisement 1, .receiveData 0 2, .receiveData 2 2,
    .receiveData 0 1, .getNearbyElements 2 lastNear, .sendAdvertisement 2, .receiveData 1 4,
    .receiveData 2 5, .receiveData 1 6, .receiveData 1 3]

set_option maxRecDepth 10000 in
/-- **A pair goes back**: node 1 falls from (0, 4) to (0, 2). -/
theorem stamp_goes_back : ¬ StampsAdvance trio overtaken :=
  fun h => absurd (h.1 1 4 13 14 (by decide)) (by decide +kernel)

end EdgeConsensus.Peer
