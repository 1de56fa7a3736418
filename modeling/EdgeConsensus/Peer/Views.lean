import EdgeConsensus.Peer.Pull
import EdgeConsensus.Peer.Synchronised

/-!
# What nodes know of each other

A node's local group and the packets of a run may be old, but they are never wrong about the past: an
advertisement and a SEND_DATA message show their source as it was at one earlier time, an entry of a local
group shows another node as it was when it advertised, under its own address, and a node is asked for an
element only by one that has its advertisement of it.

* `step_advert`: what hearing an advertisement does to a node.
* `snapshots`: over runs.
-/

namespace EdgeConsensus.Peer

open EdgeAwareClientApplication

variable {n : ℕ} {net : Net n}

namespace EdgeAwareClientApplication

variable {s : EdgeAwareClientApplication}

/-- The pair that the node advertises for an element, or (0, 0) for one that it does not list. -/
def shows (s : EdgeAwareClientApplication) (i : Element) : CausalNum × CausalNum :=
  if i ∈ s.nearbyElements then (s.agreementInformation i).stamp else (0, 0)

theorem mem_advertisement {i : Element} {pair : CausalNum × CausalNum} :
    (elementId i, pair) ∈ s.advertisement.elements ↔
      i ∈ s.nearbyElements ∧ pair = (s.agreementInformation i).stamp := by
  simp only [advertisement, List.mem_map, List.mem_filter, List.mem_finRange, true_and,
    decide_eq_true_eq, Prod.mk.injEq]
  constructor
  · rintro ⟨j, hj, hid, rfl⟩
    obtain rfl := elementId_injective hid
    exact ⟨hj, rfl⟩
  · rintro ⟨hi, rfl⟩
    exact ⟨i, hi, rfl, rfl⟩

/-- What is read from an advertisement is what its sender shows. -/
theorem pairs_eq_shows {pairs : Element → CausalNum × CausalNum}
    (hlisted : ∀ i pair, (elementId i, pair) ∈ s.advertisement.elements → pairs i = pair)
    (hunlisted : ∀ i, elementId i ∉ s.advertisement.elements.map Prod.fst → pairs i = (0, 0)) :
    pairs = s.shows := by
  funext i
  unfold shows
  by_cases hi : i ∈ s.nearbyElements
  · rw [if_pos hi]
    exact hlisted i _ (mem_advertisement.2 ⟨hi, rfl⟩)
  · rw [if_neg hi]
    refine hunlisted i fun hmem => ?_
    obtain ⟨⟨e, pair⟩, hx, he⟩ := List.mem_map.1 hmem
    obtain rfl : e = elementId i := he
    exact hi (mem_advertisement.1 hx).1

theorem advertisement_distinct (s : EdgeAwareClientApplication) :
    (s.advertisement.elements.map Prod.fst).Nodup := by
  have hids := advertisement_elementIds s
  simp only [Packet.elementIds] at hids
  rw [hids]
  exact ((List.nodup_finRange _).filter _).map elementId_injective

theorem advertisement_known (s : EdgeAwareClientApplication) :
    ∀ e ∈ s.advertisement.elements.map Prod.fst, e.toNat < numElements := by
  intro e he
  have hids := advertisement_elementIds s
  simp only [Packet.elementIds] at hids
  rw [hids] at he
  obtain ⟨i, -, rfl⟩ := List.mem_map.1 he
  have hall : ∀ i : Element, (elementId i).toNat < numElements := by decide
  exact hall i

end EdgeAwareClientApplication

namespace World

variable {w : World n} {ev : Event n} {b : Fin n} {input : Input} {s : EdgeAwareClientApplication}

theorem not_aborted_of_input (h : w.input net ev = some (b, input)) : w.aborted = false := by
  unfold World.input at h
  split at h
  · cases h
  · rename_i habort
    exact Bool.eq_false_of_not_eq_true habort

/-- A handler that ends. -/
theorem step_ok (h : w.input net ev = some (b, input)) (hs : (w.node b).handle w.now input = .ok s) :
    w.step net ev = w.put b s := by
  unfold step
  rw [not_aborted_of_input h, h]
  simp only [Bool.false_eq_true, if_false, hs]

/-- **Hearing a node's advertisement**: the listener files what the node showed, and asks for what it wants. -/
theorem step_advert {x : EdgeAwareClientApplication}
    (h : w.input net ev = some (b, .receiveData (.advert x.advertisement))) :
    ∃ requests, w.step net ev = w.put b { w.node b with
        localGroup := (w.node b).localGroup.assign x.nodeId ⟨x.address, w.now, x.shows⟩
        outbox := (w.node b).outbox ++ requests } ∧
      (∀ i, i ∈ (w.node b).nearbyElements →
        reading ((w.node b).agreementInformation i).stamp < reading (x.shows i) →
        ∃ o ∈ requests, o.2 = .requestData ⟨(w.node b).nodeId, elementId i⟩) ∧
      ∀ o ∈ requests, ∃ i y, Greatest { w.node b with
          localGroup := (w.node b).localGroup.assign x.nodeId ⟨x.address, w.now, x.shows⟩ } i y ∧
        reading (0, 0) < reading (y.2.versionRoundNumbers i) ∧
        o = (some y.2.address, .requestData ⟨(w.node b).nodeId, elementId i⟩) := by
  obtain ⟨pairs, requests, hres, hlisted, hunlisted, hcount, hgreatest⟩ :=
    (w.node b).pullsAdvert w.now x.advertisement x.advertisement_distinct x.advertisement_known
  obtain rfl := pairs_eq_shows hlisted hunlisted
  refine ⟨requests, step_ok h hres, fun i hnear hlater => ?_, fun o ho => ?_⟩
  · have hone := hcount i
    rw [if_pos ⟨hnear, hlater⟩] at hone
    have hpos : 0 < requests.countP fun o => o.2 = .requestData ⟨(w.node b).nodeId, elementId i⟩ := by omega
    obtain ⟨o, ho, heq⟩ := List.countP_pos_iff.1 hpos
    exact ⟨o, ho, of_decide_eq_true heq⟩
  · obtain ⟨i, y, hy, rfl⟩ := hgreatest o ho
    refine ⟨i, y, hy, ?_, rfl⟩
    -- it is asked for, so the sender shows a later pair, and the greatest is no lower
    have hpos : 0 < requests.countP fun o => o.2 = .requestData ⟨(w.node b).nodeId, elementId i⟩ :=
      List.countP_pos_iff.2 ⟨_, ho, decide_eq_true rfl⟩
    have hwanted : reading ((w.node b).agreementInformation i).stamp < reading (x.shows i) := by
      by_contra hnot
      rw [hcount i, if_neg fun h => hnot h.2] at hpos
      exact absurd hpos (lt_irrefl 0)
    have hle := hy.le _ (Lib.SortedMap.mem_assign.2 (Or.inl rfl))
    exact lt_of_le_of_lt (reading_zero_le _) (lt_of_lt_of_le hwanted hle)

end World

/-! ## Runs -/

variable {es : List (Event n)} {k : ℕ} {a : Fin n}

/-- An entry of the local group of `a`: another node, under its own address, as it was when it advertised at
time `j`; `a` received that advertisement at time `h`, when the clock showed the time in the entry. -/
def ViewOf (net : Net n) (es : List (Event n)) (k : ℕ) (a : Fin n) (x : NodeId × NodeEntry) : Prop :=
  ∃ b j h, b ≠ a ∧ j < h ∧ h < k ∧ es[j]? = some (.sendAdvertisement b) ∧
    (∃ i, es[h]? = some (.receiveData a i) ∧
      (wAt net es h).received net a i = some ⟨b, none, .advert ((wAt net es j).node b).advertisement⟩) ∧
    x.1 = nodeId b ∧ x.2.address = net.address b ∧ x.2.recentTime = (wAt net es h).now ∧
    x.2.versionRoundNumbers = ((wAt net es j).node b).shows

theorem ViewOf.mono {l : ℕ} {x : NodeId × NodeEntry} (h : ViewOf net es k a x) (hkl : k ≤ l) :
    ViewOf net es l a x := by
  obtain ⟨b, j, h, hb, hj, hh, hrest⟩ := h
  exact ⟨b, j, h, hb, hj, lt_of_lt_of_le hh hkl, hrest⟩

/-- The advertisement is that of its source at time `j`, when it was sent to everybody. -/
def AdvertOf (net : Net n) (es : List (Event n)) (k : ℕ) (p : Sent n) (info : AdvertMessage) : Prop :=
  p.dest = none ∧ ∃ j < k, es[j]? = some (.sendAdvertisement p.source) ∧
    info = ((wAt net es j).node p.source).advertisement

/-- The message carries the copy that its source held at an earlier time. -/
def DataOf (net : Net n) (es : List (Event n)) (k : ℕ) (p : Sent n) (info : SendDataMessage) : Prop :=
  ∃ j < k, ∃ i, element? info.elementId = some i ∧
    info = ((wAt net es j).node p.source).sendDataMessage info.elementId (copyAt net es j p.source i)

/-- The node that is asked is another one, and it has advertised the element, with a pair other than (0, 0). -/
def RequestOf (net : Net n) (es : List (Event n)) (k : ℕ) (p : Sent n) (info : RequestDataMessage) : Prop :=
  ∃ b j i, b ≠ p.source ∧ j < k ∧ es[j]? = some (.sendAdvertisement b) ∧ p.dest = some (net.address b) ∧
    element? info.elementId = some i ∧ i ∈ ((wAt net es j).node b).nearbyElements ∧
    reading (0, 0) < reading (copyAt net es j b i).stamp

/-- All that nodes know of each other, and all that is on its way, was so at an earlier time. -/
structure Snapshots (net : Net n) (es : List (Event n)) (k : ℕ) : Prop where
  groups : ∀ a, ∀ x ∈ ((wAt net es k).node a).localGroup.entries, ViewOf net es k a x
  adverts : ∀ p ∈ (wAt net es k).sent, ∀ info, p.packet = .advert info → AdvertOf net es k p info
  data : ∀ p ∈ (wAt net es k).sent, ∀ info, p.packet = .sendData info → DataOf net es k p info
  requests : ∀ p ∈ (wAt net es k).sent, ∀ info, p.packet = .requestData info → RequestOf net es k p info

theorem Snapshots.mono {l : ℕ} (h : Snapshots net es k) (hkl : k ≤ l) :
    (∀ a, ∀ x ∈ ((wAt net es k).node a).localGroup.entries, ViewOf net es l a x) ∧
      (∀ p ∈ (wAt net es k).sent, (∀ info, p.packet = .advert info → AdvertOf net es l p info) ∧
        (∀ info, p.packet = .sendData info → DataOf net es l p info) ∧
        ∀ info, p.packet = .requestData info → RequestOf net es l p info) := by
  refine ⟨fun a x hx => (h.groups a x hx).mono hkl,
    fun p hp => ⟨fun info hinfo => ?_, fun info hinfo => ?_, fun info hinfo => ?_⟩⟩
  · obtain ⟨hdest, j, hj, hrest⟩ := h.adverts p hp info hinfo
    exact ⟨hdest, j, lt_of_lt_of_le hj hkl, hrest⟩
  · obtain ⟨j, hj, hrest⟩ := h.data p hp info hinfo
    exact ⟨j, lt_of_lt_of_le hj hkl, hrest⟩
  · obtain ⟨b, j, i, hb, hj, hrest⟩ := h.requests p hp info hinfo
    exact ⟨b, j, i, hb, lt_of_lt_of_le hj hkl, hrest⟩

theorem snapshots_zero (net : Net n) (es : List (Event n)) : Snapshots net es 0 where
  groups a x hx := by cases hx
  adverts p hp := by cases hp
  data p hp := by cases hp
  requests p hp := by cases hp

/-- A request to a node of the group that has a later pair than some other is a request to a node that
has advertised the element. -/
theorem request_of_view {e : ElementId} {i : Element} {x : NodeId × NodeEntry} {t : CausalNum × CausalNum}
    (hview : ViewOf net es k a x) (he : element? e = some i)
    (hlater : reading t < reading (x.2.versionRoundNumbers i)) :
    RequestOf net es k ⟨a, some x.2.address, .requestData ⟨nodeId a, e⟩⟩ ⟨nodeId a, e⟩ := by
  obtain ⟨b, j, h, hb, hj, hh, hev, -, -, haddress, -, hshows⟩ := hview
  have hpos : reading (0, 0) < reading (((wAt net es j).node b).shows i) := by
    rw [← hshows]
    exact lt_of_le_of_lt (reading_zero_le t) hlater
  unfold shows at hpos
  split at hpos
  · rename_i hnear
    exact ⟨b, j, i, hb, by omega, hev, congrArg some haddress, he, hnear, hpos⟩
  · exact absurd hpos (lt_irrefl _)

/-- The event that makes a node advertise. -/
theorem input_advertise {w : World n} {ev : Event n} {b : Fin n}
    (h : w.input net ev = some (b, .sendAdvertisement)) : ev = .sendAdvertisement b := by
  unfold World.input at h
  split at h
  · cases h
  cases ev with
  | sendAdvertisement c =>
    obtain ⟨rfl, -⟩ := Prod.mk.inj (Option.some.inj h)
    rfl
  | advance => cases h
  | getNearbyElements => cases h
  | checkHeartbeats => cases h
  | receiveData c j =>
    simp only [Option.map_eq_some_iff] at h
    obtain ⟨p, -, heq⟩ := h
    cases (Prod.mk.inj heq).2

/-! ## A step -/

/-- What node `b` leaves behind in state `s`: its local group, and the advertisements and
requests that it sends. -/
structure Honest (net : Net n) (es : List (Event n)) (k : ℕ) (b : Fin n)
    (s : EdgeAwareClientApplication) : Prop where
  group : ∀ x ∈ s.localGroup.entries, ViewOf net es k b x
  adverts : ∀ o ∈ s.outbox, ∀ info, o.2 = .advert info → AdvertOf net es k ⟨b, o.1, o.2⟩ info
  requests : ∀ o ∈ s.outbox, ∀ info, o.2 = .requestData info → RequestOf net es k ⟨b, o.1, o.2⟩ info

section Honest

variable {b : Fin n} {s u : EdgeAwareClientApplication} {hk : k < es.length}

/-- Where no advertisement and no request is sent. -/
theorem honest_quiet (hgroup : ∀ x ∈ s.localGroup.entries, ViewOf net es k b x)
    (hquiet : ∀ o ∈ s.outbox, ∀ info info', o.2 ≠ .advert info ∧ o.2 ≠ .requestData info') :
    Honest net es k b s :=
  ⟨hgroup, fun o ho info hinfo => absurd hinfo (hquiet o ho info ⟨0, 0⟩).1,
    fun o ho info hinfo => absurd hinfo (hquiet o ho ⟨0, 0, []⟩ info).2⟩

/-- A node asks those of its local group that have a later pair. -/
theorem honest_requests (h : Requests u s) (hout : u.outbox = []) (hid : u.nodeId = nodeId b)
    (hgroup : ∀ x ∈ u.localGroup.entries, ViewOf net es k b x) : Honest net es k b s := by
  obtain ⟨out, hs, hreq⟩ := h.outbox
  rw [hout, List.nil_append] at hs
  refine ⟨by rw [h.localGroup]; exact hgroup, fun o ho info hinfo => ?_, fun o ho info hinfo => ?_⟩
  all_goals
    rw [hs] at ho
    obtain ⟨e, i, x, node, t, he, hmem, hlater, rfl⟩ := hreq o ho
  · cases hinfo
  · obtain rfl := (Packet.requestData.inj hinfo).symm
    rw [hid]
    exact request_of_view (hgroup _ hmem) he (later_iff.1 hlater)

/-- The node advertises what it shows now. -/
theorem Snapshots.advertise (h : Snapshots net es k)
    (hinput : (wAt net es k).input net es[k] = some (b, .sendAdvertisement)) :
    Honest net es (k + 1) b ((wAt net es k).node b).sendAdvertisement := by
  have hout := (wired_wAt net es k).outbox b
  refine ⟨fun x hx => (h.groups b x hx).mono (Nat.le_succ k), fun o ho info hinfo => ?_,
    fun o ho info hinfo => ?_⟩
  all_goals
    simp only [sendAdvertisement, send, hout, List.nil_append, List.mem_singleton] at ho
    subst ho
  · obtain rfl := Packet.advert.inj hinfo
    refine ⟨rfl, k, Nat.lt_succ_self k, ?_, rfl⟩
    rw [List.getElem?_eq_getElem hk, input_advertise hinput]
  · cases hinfo

/-- The packet that a node learns from is an advertisement of its source, as it was then. -/
theorem Snapshots.heard (h : Snapshots net es k) {info : AdvertMessage}
    (hinput : (wAt net es k).input net es[k] = some (b, .receiveData (.advert info))) :
    ∃ c j i, c ≠ b ∧ j < k ∧ es[j]? = some (.sendAdvertisement c) ∧ es[k]? = some (.receiveData b i) ∧
      info = ((wAt net es j).node c).advertisement ∧
        (wAt net es k).received net b i = some ⟨c, none, .advert info⟩ := by
  obtain ⟨i, p, hevent, hp, hpacket⟩ := World.input_received hinput
  obtain ⟨hsent, hreach⟩ := World.received_eq_some hp
  obtain ⟨hdest, j, hj, hev, hinfo⟩ := h.adverts p (List.mem_of_getElem? hsent) info hpacket
  have hsource : p.source ≠ b := by
    unfold Net.reaches at hreach
    rw [hdest] at hreach
    exact of_decide_eq_true hreach
  have hsame : p = ⟨p.source, none, .advert info⟩ := by rw [← hdest, ← hpacket]
  exact ⟨p.source, j, i, hsource, hj, hev, by rw [List.getElem?_eq_getElem hk, hevent],
    hinfo, by rw [hp, ← hsame]⟩

/-- A node hears an advertisement: the new entry shows the source as it was. -/
theorem Snapshots.learn (h : Snapshots net es k) {info : AdvertMessage}
    (hinput : (wAt net es k).input net es[k] = some (b, .receiveData (.advert info)))
    (hnode : (wAt net es (k + 1)).node b = { s with outbox := [] }) :
    ∀ x ∈ s.localGroup.entries, ViewOf net es (k + 1) b x := by
  obtain ⟨c, j, i, hcb, hj, hev, hevent, rfl, hreceived⟩ := h.heard hinput
  have hwired := (wired_wAt net es j).node c
  obtain ⟨requests, hstep, -, -⟩ := World.step_advert hinput
  have hgroup : s.localGroup = ((wAt net es k).node b).localGroup.assign (nodeId c)
      ⟨net.address c, (wAt net es k).now, ((wAt net es j).node c).shows⟩ := by
    rw [wAt_succ net es hk, hstep, World.put_node_self] at hnode
    rw [← hwired.nodeId, ← hwired.address]
    exact (congrArg EdgeAwareClientApplication.localGroup hnode).symm
  intro x hx
  rw [hgroup] at hx
  rcases Lib.SortedMap.mem_assign.1 hx with rfl | ⟨hx, -⟩
  · exact ⟨c, j, k, hcb, hj, Nat.lt_succ_self k, hev, ⟨i, hevent, hreceived⟩, rfl, rfl, rfl, rfl⟩
  · exact (h.groups b x hx).mono (Nat.le_succ k)

/-- **What a reaction leaves behind.** -/
theorem Snapshots.reacts (h : Snapshots net es k) {input : Input}
    (hinput : (wAt net es k).input net es[k] = some (b, input))
    (hreacts : Reacts (wAt net es k).now input ((wAt net es k).node b) s)
    (hnode : (wAt net es (k + 1)).node b = { s with outbox := [] }) : Honest net es (k + 1) b s := by
  have hgroup : ∀ x ∈ ((wAt net es k).node b).localGroup.entries, ViewOf net es (k + 1) b x :=
    fun x hx => (h.groups b x hx).mono (Nat.le_succ k)
  have hw := wired_wAt net es k
  have hid := (hw.node b).nodeId
  have hout := hw.outbox b
  have hnone : ∀ o ∈ ((wAt net es k).node b).outbox, ∀ info info', o.2 ≠ .advert info ∧
      o.2 ≠ .requestData info' := by
    rw [hout]
    exact fun o ho => absurd ho List.not_mem_nil
  cases hreacts with
  | reject => exact honest_quiet hgroup hnone
  | refuse => exact honest_quiet hgroup hnone
  | advertise => exact h.advertise hinput
  | agree begins => exact honest_requests begins.requests hout hid hgroup
  | prune => exact honest_quiet (fun x hx => hgroup x (List.mem_of_mem_filter hx)) hnone
  | learn advertised requests kept =>
    have hlearned := h.learn hinput hnode
    rw [requests.localGroup] at hlearned
    exact honest_requests requests hout hid hlearned
  | reply found elem =>
    refine honest_quiet hgroup fun o ho info info' => ?_
    simp only [send, hout, List.nil_append, List.mem_singleton] at ho
    subst ho
    exact ⟨Packet.noConfusion, Packet.noConfusion⟩
  | adopt elem acks =>
    refine honest_quiet hgroup fun o ho info info' => ?_
    simp only [hout, List.nil_append] at ho
    obtain ⟨node, -, rfl⟩ := acks o ho
    exact ⟨Packet.noConfusion, Packet.noConfusion⟩
  | credit elem => exact honest_quiet hgroup hnone

end Honest

/-- Where neither groups nor packets change. -/
theorem Snapshots.keep (h : Snapshots net es k) (hnode : (wAt net es (k + 1)).node = (wAt net es k).node)
    (hsent : (wAt net es (k + 1)).sent = (wAt net es k).sent) : Snapshots net es (k + 1) := by
  obtain ⟨hgroups, hpackets⟩ := h.mono (Nat.le_succ k)
  refine ⟨?_, fun p hp => ?_, fun p hp => ?_, fun p hp => ?_⟩
  · rw [hnode]
    exact hgroups
  all_goals rw [hsent] at hp
  · exact (hpackets p hp).1
  · exact (hpackets p hp).2.1
  · exact (hpackets p hp).2.2

theorem Snapshots.succ (h : Snapshots net es k) : Snapshots net es (k + 1) := by
  rcases wAt_succ_cases net es k with ⟨hk, hsucc⟩ | heq
  swap
  · exact h.keep (by rw [heq]) (by rw [heq])
  rcases World.step_reacts net (wAt net es k) es[k] with ⟨-, hnode, heq⟩ |
    ⟨b, input, s, hinput, hreacts, hnode, heq⟩
  · exact h.keep (by rw [hsucc, hnode]) (by rw [hsucc, heq])
  rw [← hsucc] at hnode heq
  have hnodeb : (wAt net es (k + 1)).node b = { s with outbox := [] } := by rw [hnode, World.put_node_self]
  have hhonest := h.reacts hinput hreacts hnodeb
  obtain ⟨hgroups, hpackets⟩ := h.mono (Nat.le_succ k)
  refine ⟨fun a x hx => ?_, fun p hp => ?_, fun p hp => ?_, fun p hp => ?_⟩
  · by_cases hab : a = b
    · subst hab
      rw [hnodeb] at hx
      exact hhonest.group x hx
    · rw [hnode, World.put_node_ne hab] at hx
      exact hgroups a x hx
  all_goals
    rw [heq] at hp
    rcases World.mem_put_sent.1 hp with hp | ⟨o, ho, rfl⟩
  · exact (hpackets p hp).1
  · exact hhonest.adverts o ho
  · exact (hpackets p hp).2.1
  · intro info hinfo
    obtain ⟨e, i, he, rfl⟩ := hreacts.sendData ((wired_wAt net es k).outbox b) ho hinfo
    exact ⟨k, Nat.lt_succ_self k, i, he, rfl⟩
  · exact (hpackets p hp).2.2
  · exact hhonest.requests o ho

/-- What is known at any time of a run was so before. -/
theorem snapshots_wAt (net : Net n) (es : List (Event n)) (k : ℕ) : Snapshots net es k := by
  induction k with
  | zero => exact snapshots_zero net es
  | succ k ih => exact ih.succ

/-- **What nodes know was so**: in every run, whatever is lost, late, repeated or out of order, every entry of a
local group shows another node as it was at one earlier time, when it advertised, under its own address and with
the time at which that advertisement was received; every SEND_DATA message carries the copy that its source held
at one earlier time; and a node is asked for an element only where it has advertised that element before. -/
theorem snapshots (net : Net n) (es : List (Event n)) (k : ℕ) :
    (∀ a, ∀ x ∈ ((wAt net es k).node a).localGroup.entries, ViewOf net es k a x) ∧
      (∀ p ∈ (wAt net es k).sent, ∀ info, p.packet = .sendData info → DataOf net es k p info) ∧
      ∀ p ∈ (wAt net es k).sent, ∀ info, p.packet = .requestData info → RequestOf net es k p info := by
  have hall := snapshots_wAt net es k
  exact ⟨hall.groups, hall.data, hall.requests⟩

end EdgeConsensus.Peer
