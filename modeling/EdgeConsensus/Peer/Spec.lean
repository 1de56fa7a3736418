import EdgeConsensus.Peer.Network

/-!
# What each handler does

`Reacts` lists everything a handler can do to the node it runs on and what it
sends, whether it ends or throws; `handle_reacts` and `step_reacts` say that nothing
else happens.

* `beginAgreement_cases`: `beginAgreement` never throws on an element it knows, as
  the node it found in the scan is in the local group.
* `getNearbyElements_ok`: an element that comes near is initialised exactly when its
  round is 0 and no node of the group has a later pair (`Initialises`).
* `Reacts.nextCopy`: the copy of an element after a handler.
* `receiveAdvert_cases`: an advertisement that lists no element twice initialises
  nothing, since an element is queued only where the sender has a later pair.
-/

namespace EdgeConsensus.Peer

namespace EdgeAwareClientApplication

variable {s s' u : EdgeAwareClientApplication}

/-! ## `BeginAgreement` -/

/-- An agreement on the element would initialise its round. -/
def Initialises (s : EdgeAwareClientApplication) (i : Element) : Prop :=
  (s.agreementInformation i).roundNumber = 0 ∧ ∀ x ∈ s.localGroup.entries,
    later (x.2.versionRoundNumbers i) (s.agreementInformation i).stamp = false

instance (s : EdgeAwareClientApplication) (i : Element) : Decidable (s.Initialises i) :=
  inferInstanceAs (Decidable (_ ∧ _))

theorem Initialises.congr {i : Element} (hgroup : u.localGroup = s.localGroup)
    (hinfo : u.agreementInformation i = s.agreementInformation i) :
    u.Initialises i ↔ s.Initialises i := by
  unfold Initialises
  rw [hgroup, hinfo]

/-- The copy after `set_round(node_id+1)`. -/
def initialised (s : EdgeAwareClientApplication) (i : Element) : AgreementInformation :=
  { s.agreementInformation i with roundNumber := (s.nodeId + 1).toUInt8 }

/-- The scan ends with a pair that no other is later than: the first one, or that of
a node it has met. -/
theorem foldl_scanNode (i : Element) (l : List (NodeId × NodeEntry))
    (best : (CausalNum × CausalNum) × NodeId) :
    reading best.1 ≤ reading (l.foldl (scanNode i) best).1 ∧
    (∀ x ∈ l, reading (x.2.versionRoundNumbers i) ≤ reading (l.foldl (scanNode i) best).1) ∧
    (l.foldl (scanNode i) best = best ∨
      ∃ x ∈ l, l.foldl (scanNode i) best = (x.2.versionRoundNumbers i, x.1)) := by
  induction l generalizing best with
  | nil => exact ⟨le_rfl, by simp, Or.inl rfl⟩
  | cons x l ih =>
    obtain ⟨hbest, hall, hfound⟩ := ih (scanNode i best x)
    rw [List.foldl_cons]
    by_cases hlater : later (x.2.versionRoundNumbers i) best.1 = true
    · have hscan : scanNode i best x = (x.2.versionRoundNumbers i, x.1) := if_pos hlater
      rw [hscan] at hbest hall hfound ⊢
      refine ⟨(later_iff.1 hlater).le.trans hbest, List.forall_mem_cons.2 ⟨hbest, hall⟩, Or.inr ?_⟩
      rcases hfound with heq | ⟨y, hy, heq⟩
      · exact ⟨x, List.mem_cons_self, heq⟩
      · exact ⟨y, List.mem_cons_of_mem _ hy, heq⟩
    · have hscan : scanNode i best x = best := if_neg hlater
      rw [hscan] at hbest hall hfound ⊢
      have hle := later_eq_false.1 (Bool.eq_false_of_not_eq_true hlater)
      refine ⟨hbest, List.forall_mem_cons.2 ⟨hle.trans hbest, hall⟩, ?_⟩
      exact hfound.imp_right fun ⟨y, hy, heq⟩ => ⟨y, List.mem_cons_of_mem _ hy, heq⟩

/-- **`BeginAgreement`** asks a node of the group with a later pair, or there is none
and it initialises the round if that is 0. -/
theorem beginAgreement_cases {e : ElementId} {i : Element} (h : element? e = some i) :
    (∃ x node, (x, node) ∈ s.localGroup.entries ∧
      later (node.versionRoundNumbers i) (s.agreementInformation i).stamp = true ∧
      s.beginAgreement e = .ok (s.sendDataRequest node.address e)) ∨
    ((∀ x ∈ s.localGroup.entries,
        later (x.2.versionRoundNumbers i) (s.agreementInformation i).stamp = false) ∧
      s.beginAgreement e = .ok (s.initRound i)) := by
  unfold beginAgreement
  rw [h]
  simp only
  by_cases hempty : s.localGroup.entries = []
  · rw [if_pos hempty, hempty]
    exact Or.inr ⟨by simp, rfl⟩
  rw [if_neg hempty]
  obtain ⟨-, hall, hfound⟩ := foldl_scanNode i s.localGroup.entries ((0, 0), 0xFFFFFFFF)
  by_cases hlater : later (s.bestNode i).1 (s.agreementInformation i).stamp = true
  · rw [if_pos hlater]
    rcases hfound with heq | ⟨x, hmem, heq⟩
    · -- the sentinel's pair is not later than any
      have hzero : (s.bestNode i).1 = (0, 0) := congrArg Prod.fst heq
      rw [hzero] at hlater
      simp [later] at hlater
    · have hx : s.bestNode i = (x.2.versionRoundNumbers i, x.1) := heq
      rw [hx] at hlater ⊢
      rw [Lib.SortedMap.find?_eq_some.2 hmem]
      exact Or.inl ⟨x.1, x.2, hmem, hlater, rfl⟩
  · rw [if_neg hlater]
    have hbest := later_eq_false.1 (Bool.eq_false_of_not_eq_true hlater)
    exact Or.inr ⟨fun x hx => later_eq_false.2 ((hall x hx).trans hbest), rfl⟩

/-- What agreements send: requests to nodes of the local group with later pairs. -/
structure Requests (s s' : EdgeAwareClientApplication) : Prop where
  nodeId : s'.nodeId = s.nodeId
  address : s'.address = s.address
  localGroup : s'.localGroup = s.localGroup
  outbox : ∃ out, s'.outbox = s.outbox ++ out ∧ ∀ o ∈ out, ∃ e i x node t, element? e = some i ∧
    (x, node) ∈ s.localGroup.entries ∧ later (node.versionRoundNumbers i) t = true ∧
    o = (some node.address, .requestData ⟨s.nodeId, e⟩)

theorem Requests.refl (s : EdgeAwareClientApplication) : Requests s s :=
  ⟨rfl, rfl, rfl, [], by simp, by simp⟩

theorem Requests.trans (h : Requests s u) (h' : Requests u s') : Requests s s' := by
  refine ⟨h'.nodeId.trans h.nodeId, h'.address.trans h.address, h'.localGroup.trans h.localGroup, ?_⟩
  obtain ⟨out, ho, hv⟩ := h.outbox
  obtain ⟨out', ho', hv'⟩ := h'.outbox
  refine ⟨out ++ out', by rw [ho', ho, List.append_assoc], fun o hmem => ?_⟩
  rcases List.mem_append.1 hmem with hm | hm
  · exact hv o hm
  · rw [← h.nodeId, ← h.localGroup]
    exact hv' o hm

/-- The elements that have come near (`I`) have begun their agreements. -/
structure Begins (I : Element → Prop) (s s' : EdgeAwareClientApplication) : Prop where
  requests : Requests s s'
  started : ∀ i, I i → s.Initialises i → s'.agreementInformation i = s.initialised i
  kept : ∀ i, ¬ (I i ∧ s.Initialises i) → s'.agreementInformation i = s.agreementInformation i

theorem Begins.refl (s : EdgeAwareClientApplication) : Begins (fun _ => False) s s :=
  ⟨Requests.refl s, fun _ h => h.elim, fun _ _ => rfl⟩

theorem Begins.congr {I J : Element → Prop} (hIJ : ∀ i, I i ↔ J i) (h : Begins I s s') :
    Begins J s s' :=
  ⟨h.requests, fun i hi => h.started i ((hIJ i).2 hi), fun i hi => h.kept i (by rwa [hIJ])⟩

/-- Agreements on different elements do not touch each other. -/
theorem Begins.trans {I J : Element → Prop} (hIJ : ∀ i, I i → ¬ J i) (h : Begins I s u)
    (h' : Begins J u s') : Begins (fun i => I i ∨ J i) s s' where
  requests := h.requests.trans h'.requests
  started := by
    rintro i (hi | hj) hinit
    · rw [h'.kept i fun hJ => hIJ i hi hJ.1]
      exact h.started i hi hinit
    · have hkept := h.kept i fun hI => hIJ i hI.1 hj
      rw [h'.started i hj ((Initialises.congr h.requests.localGroup hkept).2 hinit), initialised,
        initialised, hkept, h.requests.nodeId]
  kept := by
    intro i hi
    have hkept := h.kept i fun hI => hi ⟨Or.inl hI.1, hI.2⟩
    rw [h'.kept i fun hJ => hi ⟨Or.inr hJ.1, (Initialises.congr h.requests.localGroup hkept).1 hJ.2⟩,
      hkept]

theorem begins_initRound {i : Element} (h : ∀ x ∈ s.localGroup.entries,
    later (x.2.versionRoundNumbers i) (s.agreementInformation i).stamp = false) :
    Begins (fun j => j = i) s (s.initRound i) ∧ (s.initRound i).nearbyElements = s.nearbyElements := by
  unfold initRound
  split
  · rename_i hzero
    refine ⟨⟨⟨rfl, rfl, rfl, [], by simp [setElement], by simp⟩, ?_, fun j hj => ?_⟩, rfl⟩
    · rintro j rfl -
      simp [setElement, initialised]
    · have hji : j ≠ i := by
        rintro rfl
        exact hj ⟨rfl, hzero, h⟩
      simp [setElement, hji]
  · rename_i hzero
    refine ⟨⟨Requests.refl s, ?_, fun _ _ => rfl⟩, rfl⟩
    rintro j rfl hinit
    exact absurd hinit.1 hzero

theorem begins_beginAgreement {e : ElementId} {i : Element} (h : element? e = some i) :
    ∃ s', s.beginAgreement e = .ok s' ∧ Begins (fun j => j = i) s s' ∧
      s'.nearbyElements = s.nearbyElements := by
  rcases beginAgreement_cases (s := s) h with ⟨x, node, hmem, hlater, hres⟩ | ⟨hnone, hres⟩
  · refine ⟨_, hres, ⟨⟨rfl, rfl, rfl, [_], rfl, fun o ho => ?_⟩, ?_, fun _ _ => rfl⟩, rfl⟩
    · rw [List.mem_singleton.1 ho]
      exact ⟨e, i, x, node, _, h, hmem, hlater, rfl⟩
    · rintro j rfl hinit
      rw [hinit.2 _ hmem] at hlater
      cases hlater
  · exact ⟨_, hres, begins_initRound hnone⟩

/-- Agreements on elements for which the group has a later pair initialise nothing. -/
theorem requests_foldlM {l : List ElementId} (h : ∀ e ∈ l, (element? e).isSome) :
    ∀ s : EdgeAwareClientApplication, ∃ s', l.foldlM beginAgreement s = .ok s' ∧ Requests s s' ∧
      ((∀ e ∈ l, ∀ i, element? e = some i → ¬ s.Initialises i) →
        s'.agreementInformation = s.agreementInformation) := by
  induction l with
  | nil => exact fun s => ⟨s, rfl, Requests.refl s, fun _ => rfl⟩
  | cons e l ih =>
    intro s
    obtain ⟨i, hi⟩ := Option.isSome_iff_exists.1 (h e List.mem_cons_self)
    obtain ⟨u, hu, hsu, -⟩ := begins_beginAgreement (s := s) hi
    obtain ⟨s', hs', hus', hsame⟩ := ih (fun x hx => h x (List.mem_cons_of_mem _ hx)) u
    refine ⟨s', by rw [List.foldlM_cons, hu]; exact hs', hsu.requests.trans hus', fun hno => ?_⟩
    have hkept : u.agreementInformation = s.agreementInformation := by
      funext j
      refine hsu.kept j ?_
      rintro ⟨rfl, hinit⟩
      exact hno e List.mem_cons_self j hi hinit
    rw [hsame, hkept]
    intro x hx j hj hinit
    exact hno x (List.mem_cons_of_mem _ hx) j hj
      ((Initialises.congr hsu.requests.localGroup (congrFun hkept j)).1 hinit)

/-! ## `GetNearbyElements` -/

theorem begins_updateNearby (near : Element → Bool) (s : EdgeAwareClientApplication) (i : Element) :
    ∃ s', updateNearby near s i = .ok s' ∧
      Begins (fun j => j = i ∧ near j = true ∧ j ∉ s.nearbyElements) s s' ∧
      ∀ j ≠ i, (j ∈ s'.nearbyElements ↔ j ∈ s.nearbyElements) := by
  have hnear : ∀ {I : Element → Prop} {u : EdgeAwareClientApplication} (S : Finset Element),
      Begins I s u → Begins I s { u with nearbyElements := S } := fun S h =>
    ⟨⟨h.requests.nodeId, h.requests.address, h.requests.localGroup, h.requests.outbox⟩, h.started, h.kept⟩
  -- only a near element that was not in the set begins an agreement
  unfold updateNearby
  split
  · rename_i hi
    by_cases hmem : i ∈ s.nearbyElements
    · rw [if_pos hmem]
      refine ⟨_, rfl, hnear _ ((Begins.refl s).congr ?_), fun j hj => by simp [hj]⟩
      rintro j
      constructor
      · exact False.elim
      · rintro ⟨rfl, -, hj⟩
        exact hj hmem
    · rw [if_neg hmem]
      obtain ⟨u, hu, hsu, hsame⟩ := begins_beginAgreement (s := s) (element?_elementId i)
      rw [hu]
      refine ⟨_, rfl, hnear _ (hsu.congr fun j => ?_), fun j hj => ?_⟩
      · constructor
        · rintro rfl
          exact ⟨rfl, hi, hmem⟩
        · exact And.left
      · simp [hj, hsame]
  · rename_i hi
    refine ⟨_, rfl, hnear _ ((Begins.refl s).congr ?_), fun j hj => by simp [hj]⟩
    rintro j
    constructor
    · exact False.elim
    · rintro ⟨rfl, hj, -⟩
      exact hi hj

/-- **`GetNearbyElements`** never throws; the elements that have come near begin their
agreements. -/
theorem getNearbyElements_ok (near : Element → Bool) (s : EdgeAwareClientApplication) :
    ∃ s', s.getNearbyElements near = .ok s' ∧
      Begins (fun i => near i = true ∧ i ∉ s.nearbyElements) s s' := by
  have key : ∀ (l : List Element) (s : EdgeAwareClientApplication), l.Nodup →
      ∃ s', l.foldlM (updateNearby near) s = .ok s' ∧
        Begins (fun i => i ∈ l ∧ near i = true ∧ i ∉ s.nearbyElements) s s' := by
    intro l
    induction l with
    | nil => exact fun s _ => ⟨s, rfl, (Begins.refl s).congr (by simp)⟩
    | cons i l ih =>
      intro s hl
      obtain ⟨hil, hl⟩ := List.nodup_cons.1 hl
      obtain ⟨u, hu, hsu, hmem⟩ := begins_updateNearby near s i
      obtain ⟨s', hs', hus'⟩ := ih u hl
      refine ⟨s', by rw [List.foldlM_cons, hu]; exact hs', (hsu.trans ?_ hus').congr fun j => ?_⟩
      · rintro j ⟨rfl, -⟩ ⟨hjl, -⟩
        exact hil hjl
      · by_cases hji : j = i
        · subst hji
          simp [hil]
        · simp [hji, hmem j hji]
  obtain ⟨s', hs', hbegins⟩ := key (List.finRange numElements) s (List.nodup_finRange _)
  exact ⟨s', hs', hbegins.congr (by simp)⟩

/-! ## `ReceiveData` -/

/-- What reading the elements of an advertisement gives: the entry has only pairs that
are in it, or (0, 0), and an element is queued only for a later pair in it. -/
theorem readAdvert_foldlM {l : List (ElementId × CausalNum × CausalNum)} :
    ∀ {acc acc' : (Element → CausalNum × CausalNum) × List ElementId},
      l.foldlM s.readAdvert acc = some acc' →
      (∀ i, (acc'.1 i = acc.1 i ∧ ∀ x ∈ l, element? x.1 ≠ some i) ∨
        ∃ e, (e, acc'.1 i) ∈ l ∧ element? e = some i) ∧
      ∀ e ∈ acc'.2, e ∈ acc.2 ∨ ∃ pair i, (e, pair) ∈ l ∧ element? e = some i ∧
        later pair (s.agreementInformation i).stamp = true := by
  induction l with
  | nil =>
    intro acc acc' h
    obtain rfl : acc = acc' := by simpa using h
    exact ⟨fun _ => Or.inl ⟨rfl, by simp⟩, fun _ h => Or.inl h⟩
  | cons x l ih =>
    intro acc acc' h
    rw [List.foldlM_cons, Option.bind_eq_bind, Option.bind_eq_some_iff] at h
    obtain ⟨u, hu, h⟩ := h
    simp only [readAdvert, Option.bind_eq_bind, Option.pure_def, Option.bind_eq_some_iff,
      Option.some.injEq] at hu
    obtain ⟨i, hi, rfl⟩ := hu
    obtain ⟨hpairs, hqueue⟩ := ih h
    refine ⟨fun j => ?_, fun e he => ?_⟩
    -- the last pair for an element counts
    · rcases hpairs j with ⟨hj, hnone⟩ | ⟨e, hmem, he⟩
      · change acc'.1 j = Function.update acc.1 i x.2 j at hj
        by_cases hji : j = i
        · subst hji
          rw [Function.update_self] at hj
          exact Or.inr ⟨x.1, by rw [hj]; exact List.mem_cons_self, hi⟩
        · rw [Function.update_of_ne hji] at hj
          refine Or.inl ⟨hj, List.forall_mem_cons.2 ⟨?_, hnone⟩⟩
          rw [hi]
          exact fun heq => hji (Option.some.inj heq).symm
      · exact Or.inr ⟨e, List.mem_cons_of_mem _ hmem, he⟩
    · rcases hqueue e he with he | ⟨pair, j, hmem, hrest⟩
      · simp only at he
        split at he
        · rename_i hlater
          rcases List.mem_append.1 he with he | he
          · exact Or.inl he
          · rw [List.mem_singleton.1 he]
            exact Or.inr ⟨x.2, i, List.mem_cons_self, hi, hlater.2⟩
        · exact Or.inl he
      · exact Or.inr ⟨pair, j, List.mem_cons_of_mem _ hmem, hrest⟩

theorem readAdvert_foldlM_none {l : List (ElementId × CausalNum × CausalNum)}
    {acc : (Element → CausalNum × CausalNum) × List ElementId} (h : l.foldlM s.readAdvert acc = none) :
    ∃ x ∈ l, element? x.1 = none := by
  induction l generalizing acc with
  | nil => cases h
  | cons x l ih =>
    cases hi : element? x.1 with
    | none => exact ⟨x, List.mem_cons_self, hi⟩
    | some i =>
      rw [List.foldlM_cons] at h
      simp only [readAdvert, hi, Option.bind_eq_bind, Option.bind_some, Option.pure_def] at h
      obtain ⟨y, hy, hnone⟩ := ih h
      exact ⟨y, List.mem_cons_of_mem _ hy, hnone⟩

/-- The state a handler ends in, or had reached when it threw. -/
def Result.state : Result → EdgeAwareClientApplication
  | .ok s => s
  | .error s => s

/-- What handlers do to the state, and what they send. -/
inductive Reacts (now : ℕ) : Input → EdgeAwareClientApplication → EdgeAwareClientApplication → Prop
  | reject {s : EdgeAwareClientApplication} {p : Packet}
      (outside : ∃ e ∈ p.elementIds, element? e = none) : Reacts now (.receiveData p) s s
  | refuse {s : EdgeAwareClientApplication} {info : RequestDataMessage}
      (unknown : s.localGroup.find? info.senderId = none) :
      Reacts now (.receiveData (.requestData info)) s s
  | advertise (s : EdgeAwareClientApplication) : Reacts now .sendAdvertisement s s.sendAdvertisement
  | agree {s s' : EdgeAwareClientApplication} {near : Element → Bool}
      (begins : Begins (fun i => near i = true ∧ i ∉ s.nearbyElements) s s') :
      Reacts now (.getNearbyElements near) s s'
  | prune (s : EdgeAwareClientApplication) : Reacts now .checkHeartbeats s (s.checkHeartbeats now)
  | learn {s s' : EdgeAwareClientApplication} {info : AdvertMessage}
      {pairs : Element → CausalNum × CausalNum}
      (advertised : ∀ i, pairs i = (0, 0) ∨ ∃ e, (e, pairs i) ∈ info.elements ∧ element? e = some i)
      (requests : Requests { s with
        localGroup := s.localGroup.assign info.senderId ⟨info.ipv4Address, now, pairs⟩ } s')
      (kept : (info.elements.map Prod.fst).Nodup → s'.agreementInformation = s.agreementInformation) :
      Reacts now (.receiveData (.advert info)) s s'
  | reply {s : EdgeAwareClientApplication} {info : RequestDataMessage} {node : NodeEntry}
      {i : Element} (found : s.localGroup.find? info.senderId = some node)
      (elem : element? info.elementId = some i) :
      Reacts now (.receiveData (.requestData info)) s (s.send (some node.address)
        (.sendData (s.sendDataMessage info.elementId (s.agreementInformation i))))
  | adopt {s : EdgeAwareClientApplication} {info : SendDataMessage} {i : Element}
      {out : List (Option UInt32 × Packet)} (elem : element? info.elementId = some i)
      (acks : ∀ o ∈ out, ∃ node, s.localGroup.find? info.senderId = some node ∧
        o = (some node.address, .ack ⟨s.nodeId, info.elementId⟩)) :
      Reacts now (.receiveData (.sendData info)) s
        { s.setElement i (adopt s.nodeId info) with outbox := s.outbox ++ out }
  | credit {s : EdgeAwareClientApplication} {info : AckMessage} {i : Element}
      (elem : element? info.elementId = some i) :
      Reacts now (.receiveData (.ack info)) s
        (s.setElement i (credit (s.agreementInformation i) info.senderId))

/-- An advertisement is read to its end, unless it names an element that there is not. -/
theorem receiveAdvert_cases (now : ℕ) (info : AdvertMessage) :
    ((∃ e ∈ (Packet.advert info).elementIds, element? e = none) ∧ s.receiveAdvert now info = .error s) ∨
    ∃ s', s.receiveAdvert now info = .ok s' ∧ Reacts now (.receiveData (.advert info)) s s' := by
  unfold receiveAdvert
  cases h : info.elements.foldlM s.readAdvert (fun _ => (0, 0), []) with
  | none =>
    obtain ⟨x, hx, hnone⟩ := readAdvert_foldlM_none h
    exact Or.inl ⟨⟨x.1, List.mem_map_of_mem hx, hnone⟩, rfl⟩
  | some acc =>
    obtain ⟨pairs, agree⟩ := acc
    obtain ⟨hpairs, hqueue⟩ := readAdvert_foldlM h
    have hqueued : ∀ e ∈ agree, ∃ pair i, (e, pair) ∈ info.elements ∧ element? e = some i ∧
        later pair (s.agreementInformation i).stamp = true := fun e he =>
      (hqueue e he).resolve_left (by simp)
    obtain ⟨s', hs', hrequests, hsame⟩ := requests_foldlM (l := agree) (fun e he => by
      obtain ⟨-, i, -, hi, -⟩ := hqueued e he
      rw [hi]; rfl) { s with
      localGroup := s.localGroup.assign info.senderId ⟨info.ipv4Address, now, pairs⟩ }
    refine Or.inr ⟨s', hs', .learn (fun i => ?_) hrequests fun hnodup => hsame fun e he i hi hinit => ?_⟩
    · rcases hpairs i with ⟨hi, -⟩ | hi
      · exact Or.inl hi
      · exact Or.inr hi
    · -- the new entry has the later pair for which the element was queued
      obtain ⟨pair, j, hmem, hj, hlater⟩ := hqueued e he
      obtain rfl : j = i := Option.some.inj (hj.symm.trans hi)
      have hpair : pairs j = pair := by
        rcases hpairs j with ⟨-, hnone⟩ | ⟨e', hmem', he'⟩
        · exact absurd hj (hnone _ hmem)
        · obtain rfl := element?_inj he' hj
          exact congrArg Prod.snd (List.inj_on_of_nodup_map hnodup hmem' hmem rfl)
      have hno := hinit.2 _ (Lib.SortedMap.mem_assign.2 (Or.inl rfl))
      rw [← hpair] at hlater
      exact absurd hlater (by rw [hno]; exact Bool.false_ne_true)

/-- **What a node does with a packet.** -/
theorem receiveData_reacts (now : ℕ) (p : Packet) :
    Reacts now (.receiveData p) s (s.receiveData now p).state := by
  cases p with
  | advert info =>
    simp only [receiveData]
    rcases receiveAdvert_cases now info with ⟨houtside, hres⟩ | ⟨s', hres, hreacts⟩
    · rw [hres]
      exact .reject houtside
    · rw [hres]
      exact hreacts
  | requestData info =>
    simp only [receiveData, receiveRequestData]
    -- `at` throws for a sender that is not in the local group
    cases hf : s.localGroup.find? info.senderId with
    | none => exact .refuse hf
    | some node =>
      simp only [sendData]
      cases he : element? info.elementId with
      | none => exact .reject ⟨_, List.mem_singleton_self _, he⟩
      | some i => exact .reply hf he
  | sendData info =>
    simp only [receiveData, receiveSendData]
    cases he : element? info.elementId with
    | none => exact .reject ⟨_, List.mem_singleton_self _, he⟩
    | some i =>
      have hgroup : (s.setElement i (adopt s.nodeId info)).localGroup = s.localGroup := rfl
      simp only [hgroup]
      cases hf : s.localGroup.find? info.senderId with
      | none =>
        have hreacts := @Reacts.adopt now s info i [] he (by simp)
        rw [List.append_nil] at hreacts
        exact hreacts
      | some node =>
        exact @Reacts.adopt now s info i [_] he fun o ho => ⟨node, hf, List.mem_singleton.1 ho⟩
  | ack info =>
    simp only [receiveData, receiveACK]
    cases he : element? info.elementId with
    | none => exact .reject ⟨_, List.mem_singleton_self _, he⟩
    | some i => exact .credit he

/-- **What a node does is in the list.** -/
theorem handle_reacts (now : ℕ) (input : Input) : Reacts now input s (s.handle now input).state := by
  cases input with
  | sendAdvertisement => exact .advertise s
  | getNearbyElements near =>
    obtain ⟨s', hs', hbegins⟩ := getNearbyElements_ok near s
    simp only [handle]
    rw [hs']
    exact .agree hbegins
  | checkHeartbeats => exact .prune s
  | receiveData p => exact receiveData_reacts now p

/-! ## The copies -/

/-- The copy of an element after the input. -/
def nextCopy (s : EdgeAwareClientApplication) (i : Element) : Input → AgreementInformation
  | .getNearbyElements near =>
    if near i = true ∧ i ∉ s.nearbyElements ∧ s.Initialises i then s.initialised i
    else s.agreementInformation i
  | .receiveData (.sendData info) =>
    if element? info.elementId = some i then adopt s.nodeId info else s.agreementInformation i
  | .receiveData (.ack info) =>
    if element? info.elementId = some i then credit (s.agreementInformation i) info.senderId
    else s.agreementInformation i
  | _ => s.agreementInformation i

/-- The ways in which an input changes the copy of an element, or keeps it. -/
inductive Changes (s : EdgeAwareClientApplication) (i : Element) : Input → AgreementInformation → Prop
  | keep (input : Input) : Changes s i input (s.agreementInformation i)
  | start {near : Element → Bool} (initialises : s.Initialises i) :
      Changes s i (.getNearbyElements near) (s.initialised i)
  | adopt {info : SendDataMessage} (elem : element? info.elementId = some i) :
      Changes s i (.receiveData (.sendData info)) (adopt s.nodeId info)
  | credit {info : AckMessage} (elem : element? info.elementId = some i)
      (new : info.senderId ∉ (s.agreementInformation i).agreeingNodes) :
      Changes s i (.receiveData (.ack info)) (credit (s.agreementInformation i) info.senderId)

theorem nextCopy_changes (s : EdgeAwareClientApplication) (i : Element) (input : Input) :
    Changes s i input (s.nextCopy i input) := by
  cases input with
  | sendAdvertisement => exact .keep _
  | checkHeartbeats => exact .keep _
  | getNearbyElements near =>
    simp only [nextCopy]
    split
    · rename_i h
      exact .start h.2.2
    · exact .keep _
  | receiveData x =>
    cases x with
    | advert info => exact .keep _
    | requestData info => exact .keep _
    | sendData info =>
      simp only [nextCopy]
      split
      · rename_i h
        exact .adopt h
      · exact .keep _
    | ack info =>
      simp only [nextCopy]
      split
      · rename_i h
        by_cases hnew : info.senderId ∈ (s.agreementInformation i).agreeingNodes
        · -- nothing to credit
          rw [EdgeAwareClientApplication.credit, if_pos hnew]
          exact .keep _
        · exact .credit h hnew
      · exact .keep _

/-- The copies after a packet about element `j` has changed this one's. -/
theorem setElement_packet {e : ElementId} {j : Element} (elem : element? e = some j)
    (f : Element → AgreementInformation) (i : Element) :
    (s.setElement j (f j)).agreementInformation i =
      if element? e = some i then f i else s.agreementInformation i := by
  by_cases hij : i = j
  · subst hij
    rw [if_pos elem]
    simp only [setElement, Function.update_self]
  · rw [if_neg fun h => hij (Option.some.inj (h.symm.trans elem))]
    simp only [setElement, Function.update_of_ne hij]

/-- **The copies after a handler**, where the packet it reads is well formed. -/
theorem Reacts.nextCopy {now : ℕ} {input : Input} (h : Reacts now input s s')
    (hformed : ∀ x, input = .receiveData x → x.elementIds.Nodup ∧ ∀ e ∈ x.elementIds, (element? e).isSome)
    (i : Element) : s'.agreementInformation i = s.nextCopy i input := by
  cases h with
  | reject outside =>
    obtain ⟨e, he, hnone⟩ := outside
    have hsome := (hformed _ rfl).2 e he
    rw [hnone] at hsome
    cases hsome
  | refuse => rfl
  | advertise => rfl
  | @agree s s' near begins =>
    simp only [EdgeAwareClientApplication.nextCopy]
    split
    · rename_i hi
      exact begins.started i ⟨hi.1, hi.2.1⟩ hi.2.2
    · rename_i hi
      exact begins.kept i fun h => hi ⟨h.1.1, h.1.2, h.2⟩
  | prune => rfl
  | learn advertised requests kept =>
    rw [kept (hformed _ rfl).1]
    rfl
  | reply => rfl
  | @adopt s info j out elem acks =>
    exact setElement_packet elem (fun _ => EdgeAwareClientApplication.adopt s.nodeId info) i
  | @credit s info j elem =>
    exact setElement_packet elem
      (fun i => EdgeAwareClientApplication.credit (s.agreementInformation i) info.senderId) i

end EdgeAwareClientApplication

open EdgeAwareClientApplication

variable {n : ℕ} {net : Net n}

namespace World

variable {w : World n} {ev : Event n}

@[simp] theorem put_node_self (b : Fin n) (s : EdgeAwareClientApplication) :
    (w.put b s).node b = { s with outbox := [] } := by
  simp [put]

theorem put_node_ne {a b : Fin n} (h : a ≠ b) (s : EdgeAwareClientApplication) :
    (w.put b s).node a = w.node a := by
  simp [put, h]

theorem mem_put_sent {b : Fin n} {s : EdgeAwareClientApplication} {p : Sent n} :
    p ∈ (w.put b s).sent ↔ p ∈ w.sent ∨ ∃ o ∈ s.outbox, p = ⟨b, o.1, o.2⟩ := by
  simp only [put, List.mem_append, List.mem_map, eq_comm]

theorem received_eq_some {b : Fin n} {k : ℕ} {p : Sent n} (h : w.received net b k = some p) :
    w.sent[k]? = some p ∧ net.reaches p b = true := by
  unfold received at h
  rwa [Option.filter_eq_some_iff] at h

/-- The event that hands a packet to a node. -/
theorem input_received {b : Fin n} {x : Packet} (h : w.input net ev = some (b, .receiveData x)) :
    ∃ k p, ev = .receiveData b k ∧ w.received net b k = some p ∧ p.packet = x := by
  unfold input at h
  split at h
  · cases h
  cases ev with
  | receiveData c k =>
    simp only [Option.map_eq_some_iff] at h
    obtain ⟨p, hp, heq⟩ := h
    injection heq with hc hx
    injection hx with hx
    subst hc
    exact ⟨k, p, rfl, hp, hx⟩
  | advance => cases h
  | sendAdvertisement => cases h
  | getNearbyElements => cases h
  | checkHeartbeats => cases h

/-- A packet that a node receives was sent, and reaches it. -/
theorem input_packet {b : Fin n} {x : Packet} (h : w.input net ev = some (b, .receiveData x)) :
    ∃ p ∈ w.sent, p.packet = x ∧ net.reaches p b = true := by
  obtain ⟨k, p, -, hp, hx⟩ := input_received h
  obtain ⟨hk, hreach⟩ := received_eq_some hp
  exact ⟨p, List.mem_of_getElem? hk, hx, hreach⟩

/-- **A step**: nothing that nodes have or send changes, or one node reacts. -/
theorem step_reacts (net : Net n) (w : World n) (ev : Event n) :
    (w.input net ev = none ∧ (w.step net ev).node = w.node ∧ (w.step net ev).sent = w.sent) ∨
    ∃ b input s, w.input net ev = some (b, input) ∧ Reacts w.now input (w.node b) s ∧
      (w.step net ev).node = (w.put b s).node ∧ (w.step net ev).sent = (w.put b s).sent := by
  unfold step
  split
  · rename_i habort
    exact Or.inl ⟨if_pos habort, rfl, rfl⟩
  cases h : w.input net ev with
  | none =>
    left
    simp only
    unfold elapse
    split <;> exact ⟨trivial, rfl, rfl⟩
  | some bi =>
    obtain ⟨b, input⟩ := bi
    have hreacts := handle_reacts (s := w.node b) w.now input
    simp only
    cases hr : (w.node b).handle w.now input with
    | ok s =>
      rw [hr] at hreacts
      exact Or.inr ⟨b, input, s, rfl, hreacts, rfl, rfl⟩
    | error s =>
      rw [hr] at hreacts
      exact Or.inr ⟨b, input, s, rfl, hreacts, rfl, rfl⟩

end World

end EdgeConsensus.Peer
