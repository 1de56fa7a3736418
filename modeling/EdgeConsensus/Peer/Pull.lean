import EdgeConsensus.Lib.FirstGreatest
import EdgeConsensus.Peer.Spec
import Mathlib.Data.Fintype.Basic

/-!
# The pull decision

`BeginAgreement` scans the local group for the greatest pair of an element and asks the
first node that has it, if that pair is later than the node's own. The scan, the decision
and the handler of advertisements each compare pairs by hand; they agree:

* `beginAgreement_pulls`, `beginAgreement_keeps`: one request to the greatest entry of the
  group, or none and an initialisation.
* `pull_decision`: so an advertisement makes a node send one request for each nearby
  element for which it shows a later pair.
-/

namespace EdgeConsensus.Peer

namespace EdgeAwareClientApplication

variable {s u : EdgeAwareClientApplication} {i : Element}

/-- The entry of the local group with the greatest pair for the element, and the lowest node id
among those that have it. -/
structure Greatest (s : EdgeAwareClientApplication) (i : Element) (x : NodeId × NodeEntry) : Prop where
  mem : x ∈ s.localGroup.entries
  le : ∀ y ∈ s.localGroup.entries,
    reading (y.2.versionRoundNumbers i) ≤ reading (x.2.versionRoundNumbers i)
  least : ∀ y ∈ s.localGroup.entries,
    reading (y.2.versionRoundNumbers i) = reading (x.2.versionRoundNumbers i) → x.1 ≤ y.1

/-- Some entry of the local group has a later pair than the node itself. -/
def Outdated (s : EdgeAwareClientApplication) (i : Element) : Prop :=
  ∃ y ∈ s.localGroup.entries,
    reading (s.agreementInformation i).stamp < reading (y.2.versionRoundNumbers i)

/-- The scan of `BeginAgreement` replaces its best pair only by a later one. -/
theorem scanNode_scans (i : Element) :
    Lib.Scans (scanNode i) (fun best => reading best.1) (fun x => reading (x.2.versionRoundNumbers i))
      (fun x => (x.2.versionRoundNumbers i, x.1)) where
  take := fun _ _ hlt => if_pos (later_iff.2 hlt)
  keep := fun _ _ hle => if_neg (by rw [later_eq_false.2 hle]; exact Bool.false_ne_true)
  value := fun _ => rfl

theorem bestNode_cases (s : EdgeAwareClientApplication) (i : Element) :
    (s.bestNode i = ((0, 0), 0xFFFFFFFF) ∧ ∀ y ∈ s.localGroup.entries,
        reading (y.2.versionRoundNumbers i) ≤ reading (0, 0)) ∨
      ∃ x, s.Greatest i x ∧ s.bestNode i = (x.2.versionRoundNumbers i, x.1) := by
  rcases (scanNode_scans i).foldl s.localGroup.entries ((0, 0), 0xFFFFFFFF) with
    ⟨hfold, hall⟩ | ⟨x, hfirst, -, hfold⟩
  · exact Or.inl ⟨hfold, hall⟩
  · refine Or.inr ⟨x, ⟨hfirst.mem, fun y hy => hfirst.le hy, fun y hy heq => ?_⟩, hfold⟩
    rcases hfirst.least s.localGroup.sorted hy heq with rfl | hlt
    · exact le_rfl
    · exact le_of_lt hlt

theorem reading_zero_le (pair : CausalNum × CausalNum) : reading (0, 0) ≤ reading pair := by
  rw [reading_le]
  show 0 < _ ∨ (0 = _ ∧ 0 ≤ _)
  omega

/-- **An outdated node asks the greatest entry of its group**, and changes nothing. -/
theorem beginAgreement_pulls {e : ElementId} (hi : element? e = some i) (h : s.Outdated i) :
    ∃ x, s.Greatest i x ∧ s.beginAgreement e = .ok (s.sendDataRequest x.2.address e) := by
  obtain ⟨y, hy, hlt⟩ := h
  have hne : s.localGroup.entries ≠ [] := List.ne_nil_of_mem hy
  rcases bestNode_cases s i with ⟨-, hall⟩ | ⟨x, hx, hbest⟩
  · -- no pair is before (0, 0)
    have hle := hall y hy
    exact absurd hlt (not_lt.2 (hle.trans (reading_zero_le _)))
  · refine ⟨x, hx, ?_⟩
    have hlater : later (s.bestNode i).1 (s.agreementInformation i).stamp = true := by
      rw [hbest, later_iff]
      exact lt_of_lt_of_le hlt (hx.le y hy)
    unfold beginAgreement
    rw [hi]
    simp only
    rw [if_neg hne, if_pos hlater, hbest, Lib.SortedMap.find?_eq_some.2 hx.mem]

/-- **A node that is not outdated asks nobody**, and initialises a round that is 0. -/
theorem beginAgreement_keeps {e : ElementId} (hi : element? e = some i) (h : ¬ s.Outdated i) :
    s.beginAgreement e = .ok (s.initRound i) := by
  rcases beginAgreement_cases (s := s) hi with ⟨x, node, hmem, hlater, -⟩ | ⟨-, hres⟩
  · exact absurd ⟨(x, node), hmem, later_iff.1 hlater⟩ h
  · exact hres

/-- The round of the element, with `(node_id + 1) mod 256` in the place of 0. -/
def startRound (s : EdgeAwareClientApplication) (i : Element) : CausalNum :=
  if (s.agreementInformation i).roundNumber = 0 then UInt8.ofNat ((s.nodeId.toNat + 1) % 256)
  else (s.agreementInformation i).roundNumber

theorem initRound_eq (s : EdgeAwareClientApplication) (i : Element) :
    s.initRound i = { s with
      agreementInformation := Function.update s.agreementInformation i
        { s.agreementInformation i with roundNumber := s.startRound i } } := by
  have hround : (s.nodeId + 1).toUInt8 = UInt8.ofNat ((s.nodeId.toNat + 1) % 256) := by
    rw [← UInt8.toNat_inj]
    simp
  unfold initRound startRound
  split
  · rw [hround]
    rfl
  · simp

/-! ## Advertisements -/

/-- The advertisement shows a later pair for a nearby element. -/
def wants (s : EdgeAwareClientApplication) (x : ElementId × CausalNum × CausalNum) : Bool :=
  (element? x.1).any fun i =>
    decide (i ∈ s.nearbyElements) && later x.2 (s.agreementInformation i).stamp

theorem wants_elementId {i : Element} {pair : CausalNum × CausalNum} :
    s.wants (elementId i, pair) = true ↔
      i ∈ s.nearbyElements ∧ reading (s.agreementInformation i).stamp < reading pair := by
  simp only [wants, element?_elementId, Option.any_some, Bool.and_eq_true, decide_eq_true_eq, later_iff]

/-- **Reading an advertisement** of known elements queues those that are wanted, in order. -/
theorem readAdvert_foldlM_queue (l : List (ElementId × CausalNum × CausalNum))
    (hl : ∀ x ∈ l, ∃ i, element? x.1 = some i)
    (acc : (Element → CausalNum × CausalNum) × List ElementId) :
    ∃ pairs, l.foldlM s.readAdvert acc = some (pairs, acc.2 ++ (l.filter s.wants).map Prod.fst) := by
  induction l generalizing acc with
  | nil => exact ⟨acc.1, by simp⟩
  | cons x l ih =>
    obtain ⟨i, hi⟩ := hl x List.mem_cons_self
    have hstep : s.readAdvert acc x = some (Function.update acc.1 i x.2,
        acc.2 ++ ([x].filter s.wants).map Prod.fst) := by
      unfold readAdvert
      simp only [hi, Option.bind_eq_bind, Option.bind_some, Option.pure_def, Option.some.injEq,
        Prod.mk.injEq, true_and]
      by_cases hw : i ∈ s.nearbyElements ∧ later x.2 (s.agreementInformation i).stamp = true
      · have hwants : s.wants x = true := by simp [wants, hi, hw.1, hw.2]
        rw [if_pos hw, List.filter_cons_of_pos hwants]
        rfl
      · have hwants : s.wants x = false := by
          simp only [wants, hi, Option.any_some, Bool.and_eq_false_iff, decide_eq_false_iff_not]
          rw [not_and_or, Bool.not_eq_true] at hw
          exact hw
        rw [if_neg hw, List.filter_cons_of_neg (by rw [hwants]; exact Bool.false_ne_true)]
        simp
    obtain ⟨pairs, hpairs⟩ := ih (fun y hy => hl y (List.mem_cons_of_mem _ hy))
      (Function.update acc.1 i x.2, acc.2 ++ ([x].filter s.wants).map Prod.fst)
    refine ⟨pairs, ?_⟩
    rw [List.foldlM_cons, hstep]
    refine hpairs.trans ?_
    have hfilter : (x :: l).filter s.wants = [x].filter s.wants ++ l.filter s.wants :=
      List.filter_append [x] l
    rw [hfilter, List.map_append, List.append_assoc]

/-- The pair of an element is that of its only entry, or (0, 0). -/
theorem readAdvert_pairs {l : List (ElementId × CausalNum × CausalNum)}
    {pairs : Element → CausalNum × CausalNum} {agree : List ElementId}
    (h : l.foldlM s.readAdvert (fun _ => (0, 0), []) = some (pairs, agree)) (hdistinct : (l.map Prod.fst).Nodup) :
    (∀ i pair, (elementId i, pair) ∈ l → pairs i = pair) ∧
      ∀ i, elementId i ∉ l.map Prod.fst → pairs i = (0, 0) := by
  obtain ⟨hpairs, -⟩ := readAdvert_foldlM h
  constructor
  · intro i pair hmem
    rcases hpairs i with ⟨-, hnone⟩ | ⟨e, hmem', he⟩
    · exact absurd (element?_elementId i) (hnone _ hmem)
    · obtain rfl := element?_inj he (element?_elementId i)
      exact congrArg Prod.snd (List.inj_on_of_nodup_map hdistinct hmem' hmem rfl)
  · intro i hnot
    rcases hpairs i with ⟨hi, -⟩ | ⟨e, hmem, he⟩
    · exact hi
    · obtain rfl := element?_inj he (element?_elementId i)
      exact absurd (List.mem_map_of_mem hmem) hnot

/-- An element is queued exactly when it is near and its pair is later. -/
theorem mem_wanted {l : List (ElementId × CausalNum × CausalNum)} {pairs : Element → CausalNum × CausalNum}
    (hlisted : ∀ i pair, (elementId i, pair) ∈ l → pairs i = pair)
    (hunlisted : ∀ i, elementId i ∉ l.map Prod.fst → pairs i = (0, 0)) (i : Element) :
    elementId i ∈ (l.filter s.wants).map Prod.fst ↔
      i ∈ s.nearbyElements ∧ reading (s.agreementInformation i).stamp < reading (pairs i) := by
  rw [List.mem_map]
  constructor
  · rintro ⟨⟨e, pair⟩, hx, rfl⟩
    obtain ⟨hmem, hw⟩ := List.mem_filter.1 hx
    rw [hlisted i pair hmem]
    exact wants_elementId.1 hw
  · intro h
    have hmem : elementId i ∈ l.map Prod.fst := by
      by_contra hnot
      rw [hunlisted i hnot] at h
      exact absurd h.2 (not_lt.2 (reading_zero_le _))
    obtain ⟨⟨e, pair⟩, hx, he⟩ := List.mem_map.1 hmem
    obtain rfl : e = elementId i := he
    rw [hlisted i pair hx] at h
    exact ⟨_, List.mem_filter.2 ⟨hx, wants_elementId.2 h⟩, rfl⟩

/-- **Agreements on elements for which the node is outdated** send one request each, to the greatest
entry, and change nothing. -/
theorem foldlM_beginAgreement (l : List ElementId)
    (hl : ∀ e ∈ l, ∃ i, element? e = some i ∧ s.Outdated i) :
    ∃ requests, l.foldlM beginAgreement s = .ok { s with outbox := s.outbox ++ requests } ∧
      requests.map Prod.snd = l.map (fun e => Packet.requestData ⟨s.nodeId, e⟩) ∧
      ∀ o ∈ requests, ∃ e i x, element? e = some i ∧ s.Greatest i x ∧
        o = (some x.2.address, .requestData ⟨s.nodeId, e⟩) := by
  induction l generalizing s with
  | nil => exact ⟨[], by rw [List.append_nil]; rfl, rfl, by simp⟩
  | cons e l ih =>
    obtain ⟨i, hi, hout⟩ := hl e List.mem_cons_self
    obtain ⟨x, hx, hres⟩ := beginAgreement_pulls hi hout
    -- a request changes nothing that the other agreements look at
    obtain ⟨requests, hfold, hpackets, hall⟩ := ih (s := s.sendDataRequest x.2.address e)
      fun e' he' => hl e' (List.mem_cons_of_mem _ he')
    refine ⟨(some x.2.address, .requestData ⟨s.nodeId, e⟩) :: requests, ?_, ?_, ?_⟩
    · rw [List.foldlM_cons, hres]
      refine hfold.trans ?_
      simp [sendDataRequest, send]
    · rw [List.map_cons, List.map_cons, hpackets]
      rfl
    · intro o ho
      rcases List.mem_cons.1 ho with rfl | ho
      · exact ⟨e, i, x, hi, hx, rfl⟩
      · obtain ⟨e', i', y, hi', ⟨hmem, hle, hleast⟩, rfl⟩ := hall o ho
        exact ⟨e', i', y, hi', ⟨hmem, hle, hleast⟩, rfl⟩

end EdgeAwareClientApplication

open EdgeAwareClientApplication in
/-- **The pull decision on one element**: a request to the greatest entry of the local group and nothing
else, where some entry is later; otherwise no request, and a round other than 0. -/
structure PullsElement (s : EdgeAwareClientApplication) (i : Element) : Prop where
  request : s.Outdated i →
    ∃ x, s.Greatest i x ∧
      s.beginAgreement (elementId i) = .ok { s with
        outbox := s.outbox ++ [(some x.2.address, .requestData ⟨s.nodeId, elementId i⟩)] }
  initialise : ¬ s.Outdated i →
    s.beginAgreement (elementId i) = .ok { s with
      agreementInformation := Function.update s.agreementInformation i
        { s.agreementInformation i with roundNumber := s.startRound i } }

open EdgeAwareClientApplication in
/-- **The pull decision on an advertisement**: the pairs are stored under the sender, with (0, 0) for
what is not listed, and each nearby element with a later pair is asked for once. -/
def PullsAdvert (s : EdgeAwareClientApplication) (now : ℕ) (info : AdvertMessage) : Prop :=
  ∃ pairs requests,
    s.receiveData now (.advert info) = .ok { s with
      localGroup := s.localGroup.assign info.senderId ⟨info.ipv4Address, now, pairs⟩
      outbox := s.outbox ++ requests } ∧
    (∀ i pair, (elementId i, pair) ∈ info.elements → pairs i = pair) ∧
    (∀ i, elementId i ∉ info.elements.map Prod.fst → pairs i = (0, 0)) ∧
    (∀ i, requests.countP (fun o => o.2 = .requestData ⟨s.nodeId, elementId i⟩) =
      if i ∈ s.nearbyElements ∧ reading (s.agreementInformation i).stamp < reading (pairs i) then 1
      else 0) ∧
    ∀ o ∈ requests, ∃ i x,
      Greatest { s with
        localGroup := s.localGroup.assign info.senderId ⟨info.ipv4Address, now, pairs⟩ } i x ∧
      o = (some x.2.address, .requestData ⟨s.nodeId, elementId i⟩)

namespace EdgeAwareClientApplication

variable {s : EdgeAwareClientApplication}

theorem exists_elementId {e : ElementId} (h : e.toNat < numElements) : ∃ i, e = elementId i := by
  refine ⟨⟨e.toNat, h⟩, ?_⟩
  have hi : element? e = some ⟨e.toNat, h⟩ := dif_pos h
  exact element?_inj hi (element?_elementId _)

theorem pullsElement (s : EdgeAwareClientApplication) (i : Element) : PullsElement s i where
  request := fun h => beginAgreement_pulls (element?_elementId i) h
  initialise := fun h => by
    rw [beginAgreement_keeps (element?_elementId i) h, initRound_eq]

theorem pullsAdvert (s : EdgeAwareClientApplication) (now : ℕ) (info : AdvertMessage)
    (hdistinct : (info.elements.map Prod.fst).Nodup)
    (hknown : ∀ e ∈ info.elements.map Prod.fst, e.toNat < numElements) : PullsAdvert s now info := by
  have helement : ∀ x ∈ info.elements, ∃ i, x.1 = elementId i := fun x hx =>
    exists_elementId (hknown x.1 (List.mem_map_of_mem hx))
  obtain ⟨pairs, hread⟩ := readAdvert_foldlM_queue (s := s) info.elements
    (fun x hx => by
      obtain ⟨i, hi⟩ := helement x hx
      exact ⟨i, by rw [hi, element?_elementId]⟩) (fun _ => (0, 0), [])
  obtain ⟨hlisted, hunlisted⟩ := readAdvert_pairs hread hdistinct
  set u : EdgeAwareClientApplication := { s with
    localGroup := s.localGroup.assign info.senderId ⟨info.ipv4Address, now, pairs⟩ } with hu
  set agree := (info.elements.filter s.wants).map Prod.fst with hagree
  have hqueued := mem_wanted (s := s) hlisted hunlisted
  -- each agreement finds the sender's later pair in the group
  have houtdated : ∀ e ∈ agree, ∃ i, element? e = some i ∧ u.Outdated i := by
    intro e he
    obtain ⟨x, hx, rfl⟩ := List.mem_map.1 he
    obtain ⟨i, hi⟩ := helement x (List.mem_filter.1 hx).1
    rw [hi] at he ⊢
    exact ⟨i, element?_elementId i, _, Lib.SortedMap.mem_assign.2 (Or.inl rfl), ((hqueued i).1 he).2⟩
  obtain ⟨requests, hfold, hpackets, hall⟩ := foldlM_beginAgreement (s := u) agree houtdated
  refine ⟨pairs, requests, ?_, hlisted, hunlisted, fun i => ?_, fun o ho => ?_⟩
  · show s.receiveAdvert now info = _
    unfold receiveAdvert
    rw [hread]
    exact hfold
  · have hcount : requests.countP (fun o => o.2 = .requestData ⟨s.nodeId, elementId i⟩) =
        agree.count (elementId i) := by
      have hmap :=
        congrArg (List.countP (fun q => decide (q = Packet.requestData ⟨s.nodeId, elementId i⟩))) hpackets
      rw [List.countP_map, List.countP_map] at hmap
      refine hmap.trans ?_
      rw [List.count_eq_countP]
      refine List.countP_congr fun e _ => ?_
      simp [hu]
    have hnodup : agree.Nodup := hdistinct.sublist (List.filter_sublist.map Prod.fst)
    rw [hcount, hnodup.count]
    exact if_congr (hqueued i) rfl rfl
  · obtain ⟨e, i, x, hi, hx, rfl⟩ := hall o ho
    obtain rfl := element?_inj hi (element?_elementId i)
    exact ⟨i, x, hx, rfl⟩

end EdgeAwareClientApplication

/-- **The pull decision**, on each element and on each advertisement of distinct known elements. -/
theorem pull_decision (s : EdgeAwareClientApplication) :
    (∀ i, PullsElement s i) ∧
      ∀ now (info : AdvertMessage), (info.elements.map Prod.fst).Nodup →
        (∀ e ∈ info.elements.map Prod.fst, e.toNat < numElements) → PullsAdvert s now info :=
  ⟨s.pullsElement, fun now info hdistinct hknown => s.pullsAdvert now info hdistinct hknown⟩

/-- Node 7 is near all elements, and node 3 advertises later pairs for two of them. -/
def nearby : EdgeAwareClientApplication :=
  { EdgeAwareClientApplication.startApplication 7 70 baseElementLocations with nearbyElements := Finset.univ }

def offer : AdvertMessage := ⟨3, 30, [(2, 1, 1), (0, 2, 1)]⟩

theorem pull_decision_nearby : (∀ i, PullsElement nearby i) ∧ PullsAdvert nearby 5 offer :=
  ⟨(pull_decision nearby).1, (pull_decision nearby).2 5 offer (by decide)
    (List.forall_mem_cons.2 ⟨by decide, List.forall_mem_singleton.2 (by decide)⟩)⟩

end EdgeConsensus.Peer
