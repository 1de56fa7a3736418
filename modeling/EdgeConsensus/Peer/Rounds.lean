import EdgeConsensus.Peer.Wiring
import Mathlib.Data.Finset.Card
import Mathlib.Data.Fintype.Card

/-!
# Rounds and participants

A copy of an element starts at some node `o`, which sets its round to `o + 1`, and
gains one round for each further node that takes part: the round is the number of
agreeing nodes plus `o`, and the location is the one `o` started with. The invariant
`Rounds` carries this for the copies of all nodes together with what the packets in
flight say: a request or an acknowledgement goes to a node that is past round 0, and
a copy on its way obeys the equation itself.

* `rounds_wAt`: the invariant, in runs whose counters stay in 8 bits.
* `counts_of_small`: with `2 n - 1` below 256 they do.
-/

namespace EdgeConsensus.Peer

open Finset EdgeAwareClientApplication

variable {n : ℕ}

/-! ## The counter -/

/-- The round of an element after the input, counted in ℕ. -/
def EdgeAwareClientApplication.countedRound (s : EdgeAwareClientApplication) (i : Element) : Input → ℕ
  | .getNearbyElements near =>
    if near i = true ∧ i ∉ s.nearbyElements ∧ s.Initialises i then s.nodeId.toNat + 1
    else (s.agreementInformation i).roundNumber.toNat
  | .receiveData (.sendData info) =>
    if element? info.elementId = some i then
      info.round.toNat + if s.nodeId ∈ info.syncGroup then 0 else 1
    else (s.agreementInformation i).roundNumber.toNat
  | .receiveData (.ack info) =>
    if element? info.elementId = some i ∧ info.senderId ∉ (s.agreementInformation i).agreeingNodes then
      (s.agreementInformation i).roundNumber.toNat + 1
    else (s.agreementInformation i).roundNumber.toNat
  | _ => (s.agreementInformation i).roundNumber.toNat

/-- The round of an element at a node after the event, counted in ℕ. -/
def World.countedRound (net : Net n) (w : World n) (ev : Event n) (a : Fin n) (i : Element) : ℕ :=
  match w.input net ev with
  | some (b, input) =>
    if a = b then (w.node a).countedRound i input
    else ((w.node a).agreementInformation i).roundNumber.toNat
  | none => ((w.node a).agreementInformation i).roundNumber.toNat

theorem toNat_mod (x : UInt8) : x.toNat % 256 = x.toNat := Nat.mod_eq_of_lt x.toNat_lt

theorem toNat_succ (x : UInt8) : (x + 1).toNat = (x.toNat + 1) % 256 := UInt8.toNat_add x 1

theorem initRound_toNat (x : NodeId) : ((x + 1).toUInt8).toNat = (x.toNat + 1) % 256 := by
  rw [UInt32.toNat_toUInt8, UInt32.toNat_add]
  exact Nat.mod_mod_of_dvd _ (by decide)

/-- **What is stored is the count, cut to 8 bits.** -/
theorem nextCopy_round (s : EdgeAwareClientApplication) (i : Element) (input : Input) :
    (s.nextCopy i input).roundNumber.toNat = s.countedRound i input % 256 := by
  have hsame : (s.agreementInformation i).roundNumber.toNat =
      (s.agreementInformation i).roundNumber.toNat % 256 := (toNat_mod _).symm
  cases input with
  | sendAdvertisement => exact hsame
  | checkHeartbeats => exact hsame
  | getNearbyElements near =>
    simp only [nextCopy, EdgeAwareClientApplication.countedRound]
    split
    · exact initRound_toNat _
    · exact hsame
  | receiveData x =>
    cases x with
    | advert info => exact hsame
    | requestData info => exact hsame
    | sendData info =>
      simp only [nextCopy, EdgeAwareClientApplication.countedRound]
      split
      · simp only [adopt]
        split
        · exact (toNat_mod _).symm
        · exact toNat_succ _
      · exact hsame
    | ack info =>
      simp only [nextCopy, EdgeAwareClientApplication.countedRound]
      by_cases helem : element? info.elementId = some i
      -- a credit counts a sender once
      · by_cases hmem : info.senderId ∈ (s.agreementInformation i).agreeingNodes
        · rw [if_pos helem, if_neg fun h => h.2 hmem, credit, if_pos hmem]
          exact hsame
        · rw [if_pos helem, if_pos ⟨helem, hmem⟩, credit, if_neg hmem]
          exact toNat_succ _
      · rw [if_neg helem, if_neg fun h => helem h.1]
        exact hsame

theorem World.Wired.countedRound {net : Net n} {w : World n} (h : w.Wired net) (ev : Event n)
    (a : Fin n) (i : Element) : (((w.step net ev).node a).agreementInformation i).roundNumber.toNat =
      w.countedRound net ev a i % 256 := by
  rw [h.nextCopy]
  unfold World.nextCopy World.countedRound
  cases w.input net ev with
  | none => exact (toNat_mod _).symm
  | some bi =>
    obtain ⟨b, input⟩ := bi
    by_cases hab : a = b
    · simp only [if_pos hab]
      exact nextCopy_round _ _ _
    · simp only [if_neg hab]
      exact (toNat_mod _).symm

/-- No counter of the run goes past 255. -/
def Counts (net : Net n) (es : List (Event n)) : Prop :=
  ∀ k (hk : k < es.length) a i, (wAt net es k).countedRound net es[k] a i < 256

/-! ## Copies -/

/-- The ids of the nodes of the network. -/
def AreNodes (n : ℕ) (S : Finset NodeId) : Prop := ∀ x ∈ S, ∃ b : Fin n, x = nodeId b

theorem AreNodes.card_le {S : Finset NodeId} (h : AreNodes n S) : #S ≤ n := by
  have hsub : S ⊆ univ.image (nodeId : Fin n → NodeId) := by
    intro x hx
    obtain ⟨b, rfl⟩ := h x hx
    exact mem_image_of_mem _ (mem_univ b)
  calc #S ≤ #(univ.image (nodeId : Fin n → NodeId)) := card_le_card hsub
    _ ≤ #(univ : Finset (Fin n)) := card_image_le
    _ = n := by rw [card_univ, Fintype.card_fin]

theorem AreNodes.insert {S : Finset NodeId} (h : AreNodes n S) (a : Fin n) :
    AreNodes n (insert (nodeId a) S) := by
  intro x hx
  rcases mem_insert.1 hx with rfl | hx
  · exact ⟨a, rfl⟩
  · exact h x hx

/-- A copy that some node has started. -/
structure Shared (net : Net n) (i : Element) (c : AgreementInformation) : Prop where
  version : c.versionNumber = 0
  nodes : AreNodes n c.agreeingNodes
  origin : ∃ o : Fin n, c.roundNumber.toNat = #c.agreeingNodes + o ∧ c.fineLocation = net.location o i

/-- The copy of a node: as constructed, or one that it shares. -/
def CopyOK (net : Net n) (a : Fin n) (i : Element) (c : AgreementInformation) : Prop :=
  c = .make (net.location a i) (nodeId a) ∨ (Shared net i c ∧ nodeId a ∈ c.agreeingNodes)

/-- The copy in a SEND_DATA message. -/
def SendDataMessage.copy (info : SendDataMessage) : AgreementInformation :=
  ⟨info.version, info.round, info.location, info.syncGroup⟩

variable {net : Net n} {a b : Fin n} {i : Element} {c : AgreementInformation}

theorem Shared.ne_zero (h : Shared net i c) {x : NodeId} (hx : x ∈ c.agreeingNodes) :
    c.roundNumber ≠ 0 := by
  intro hzero
  obtain ⟨o, hround, -⟩ := h.origin
  have hcard := card_pos.2 ⟨x, hx⟩
  have h0 : c.roundNumber.toNat = 0 := by rw [hzero]; rfl
  omega

theorem CopyOK.own (h : CopyOK net a i c) : nodeId a ∈ c.agreeingNodes := by
  rcases h with rfl | h
  · exact mem_singleton_self _
  · exact h.2

theorem CopyOK.version (h : CopyOK net a i c) : c.versionNumber = 0 := by
  rcases h with rfl | h
  · rfl
  · exact h.1.version

theorem CopyOK.nodes (h : CopyOK net a i c) : AreNodes n c.agreeingNodes := by
  rcases h with rfl | h
  · intro x hx
    exact ⟨a, mem_singleton.1 hx⟩
  · exact h.1.nodes

theorem CopyOK.shared (h : CopyOK net a i c) (hround : c.roundNumber ≠ 0) : Shared net i c := by
  rcases h with rfl | h
  · exact absurd rfl hround
  · exact h.1

/-- While a node is missing from a copy, the count of the participants has room for it. -/
theorem Shared.room (h : Shared net i c) (hb : nodeId b ∉ c.agreeingNodes) :
    c.roundNumber.toNat + 1 ≤ 2 * n - 1 := by
  obtain ⟨o, hround, -⟩ := h.origin
  have hcard := (h.nodes.insert b).card_le
  rw [card_insert_of_notMem hb] at hcard
  have ho := o.isLt
  omega

theorem CopyOK.round_le (h : CopyOK net a i c) : c.roundNumber.toNat ≤ 2 * n - 1 := by
  rcases h with rfl | ⟨h, -⟩
  · exact Nat.zero_le _
  · obtain ⟨o, hround, -⟩ := h.origin
    have hcard := h.nodes.card_le
    have ho := o.isLt
    omega

/-- One more node on a copy, and one more round. -/
theorem Shared.insert (h : Shared net i c) (hb : nodeId b ∉ c.agreeingNodes)
    (hcount : c.roundNumber.toNat + 1 < 256) :
    Shared net i { c with
      roundNumber := c.roundNumber + 1, agreeingNodes := insert (nodeId b) c.agreeingNodes } := by
  obtain ⟨o, hround, hloc⟩ := h.origin
  refine ⟨h.version, h.nodes.insert b, o, ?_, hloc⟩
  rw [card_insert_of_notMem hb, toNat_succ, Nat.mod_eq_of_lt hcount]
  omega

theorem copyOK_make (net : Net n) (a : Fin n) (i : Element) :
    CopyOK net a i (.make (net.location a i) (nodeId a)) := Or.inl rfl

/-- A copy started by its own node. -/
theorem CopyOK.init (h : CopyOK net a i c) (hzero : c.roundNumber = 0) (hcount : (a : ℕ) + 1 < 256) :
    CopyOK net a i { c with roundNumber := (nodeId a + 1).toUInt8 } := by
  rcases h with rfl | h
  · refine Or.inr ⟨⟨rfl, fun x hx => ⟨a, mem_singleton.1 hx⟩, a, ?_, rfl⟩, mem_singleton_self _⟩
    have hround := initRound_toNat (nodeId a)
    rw [nodeId_toNat net.size, Nat.mod_eq_of_lt hcount] at hround
    show ((nodeId a + 1).toUInt8).toNat = #({nodeId a} : Finset NodeId) + a
    rw [hround, card_singleton, Nat.add_comm]
  · exact absurd hzero (h.1.ne_zero h.2)

/-- A copy taken over from another node. -/
theorem shared_adopt {info : SendDataMessage} (h : Shared net i info.copy) (a : Fin n)
    (hcount : info.round.toNat + (if nodeId a ∈ info.syncGroup then 0 else 1) < 256) :
    Shared net i (adopt (nodeId a) info) := by
  by_cases hmem : nodeId a ∈ info.syncGroup
  · have hsame : adopt (nodeId a) info = info.copy := by
      simp only [adopt, SendDataMessage.copy, if_pos hmem, insert_eq_of_mem hmem]
    rw [hsame]
    exact h
  · rw [if_neg hmem] at hcount
    have hnew := h.insert hmem hcount
    simpa only [adopt, SendDataMessage.copy, if_neg hmem] using hnew

/-- A copy that one more node has acknowledged. -/
theorem Shared.credit (h : Shared net i c) (b : Fin n)
    (hcount : nodeId b ∉ c.agreeingNodes → c.roundNumber.toNat + 1 < 256) :
    Shared net i (credit c (nodeId b)) := by
  unfold EdgeAwareClientApplication.credit
  split
  · exact h
  · rename_i hmem
    exact h.insert hmem (hcount hmem)

theorem mem_credit {x y : NodeId} (hx : x ∈ c.agreeingNodes) : x ∈ (credit c y).agreeingNodes := by
  unfold EdgeAwareClientApplication.credit
  split
  · exact hx
  · exact mem_insert_of_mem hx

/-! ## The network -/

theorem later_pos {p t : CausalNum × CausalNum} (h : later p t = true) (hp : p.1 = 0) : p.2 ≠ 0 := by
  intro h2
  obtain rfl : p = (0, 0) := Prod.ext hp h2
  have hlt := later_iff.1 h
  exact absurd hlt (not_lt.2 (reading_le.2 (by
    rcases Nat.eq_zero_or_pos t.1.toNat with h0 | h0
    · exact Or.inr ⟨h0.symm, Nat.zero_le _⟩
    · exact Or.inl h0)))

namespace World

variable {w w' : World n}

/-- Node `a` is past round 0 for the element. -/
def Started (w : World n) (a : Fin n) (i : Element) : Prop :=
  ((w.node a).agreementInformation i).roundNumber ≠ 0

/-- What may be said of the copy of `a`: version 0, and a round only if it has started. -/
def Says (w : World n) (a : Fin n) (i : Element) (pair : CausalNum × CausalNum) : Prop :=
  pair.1 = 0 ∧ (pair.2 ≠ 0 → w.Started a i)

def EntryOK (w : World n) (x : NodeId × NodeEntry) : Prop :=
  ∀ c : Fin n, x.1 = nodeId c → ∀ i, w.Says c i (x.2.versionRoundNumbers i)

def PacketOK (net : Net n) (w : World n) (p : Sent n) : Prop :=
  match p.packet with
  | .advert info => ∀ e pair i, (e, pair) ∈ info.elements → element? e = some i → w.Says p.source i pair
  | .requestData info => ∀ c i, net.reaches p c = true → element? info.elementId = some i → w.Started c i
  | .sendData info => ∀ i, element? info.elementId = some i →
      Shared net i info.copy ∧ w.Started p.source i
  | .ack info => ∀ c i, net.reaches p c = true → element? info.elementId = some i → w.Started c i

/-- The invariant: copies, local groups and packets in flight. -/
structure Rounds (net : Net n) (w : World n) : Prop where
  copies : ∀ a i, CopyOK net a i ((w.node a).agreementInformation i)
  group : ∀ a, ∀ x ∈ (w.node a).localGroup.entries, w.EntryOK x
  packets : ∀ p ∈ w.sent, w.PacketOK net p

theorem Says.mono (h : ∀ a i, w.Started a i → w'.Started a i) {pair : CausalNum × CausalNum}
    (hs : w.Says a i pair) : w'.Says a i pair :=
  ⟨hs.1, fun hp => h a i (hs.2 hp)⟩

theorem EntryOK.mono (h : ∀ a i, w.Started a i → w'.Started a i) {x : NodeId × NodeEntry}
    (hx : w.EntryOK x) : w'.EntryOK x :=
  fun c hc i => (hx c hc i).mono h

theorem PacketOK.mono (h : ∀ a i, w.Started a i → w'.Started a i) {p : Sent n}
    (hp : w.PacketOK net p) : w'.PacketOK net p := by
  obtain ⟨a, dest, packet⟩ := p
  cases packet with
  | advert info =>
    intro e pair i hmem he
    exact Says.mono h (hp e pair i hmem he)
  | requestData info =>
    intro c i hc he
    exact h c i (hp c i hc he)
  | sendData info =>
    intro i he
    exact ⟨(hp i he).1, h a i (hp i he).2⟩
  | ack info =>
    intro c i hc he
    exact h c i (hp c i hc he)

/-- The state `s` that node `b` has reached, with what it is about to send. -/
structure NodeOK (net : Net n) (w : World n) (b : Fin n) (s : EdgeAwareClientApplication) : Prop where
  copies : ∀ i, CopyOK net b i (s.agreementInformation i)
  started : ∀ i, w.Started b i → (s.agreementInformation i).roundNumber ≠ 0
  group : ∀ x ∈ s.localGroup.entries, w.EntryOK x
  packets : ∀ o ∈ s.outbox, (w.put b s).PacketOK net ⟨b, o.1, o.2⟩

theorem started_put {s : EdgeAwareClientApplication}
    (h : ∀ i, w.Started b i → (s.agreementInformation i).roundNumber ≠ 0) (a : Fin n) (i : Element)
    (ha : w.Started a i) : (w.put b s).Started a i := by
  unfold Started
  by_cases hab : a = b
  · subst hab
    rw [put_node_self]
    exact h i ha
  · rw [put_node_ne hab]
    exact ha

theorem started_put_self {s : EdgeAwareClientApplication} :
    (w.put b s).Started b i ↔ (s.agreementInformation i).roundNumber ≠ 0 := by
  unfold Started
  rw [put_node_self]

/-- Putting a node that is all right back into the world keeps the invariant. -/
theorem Rounds.put {s : EdgeAwareClientApplication} (h : w.Rounds net) (hs : NodeOK net w b s) :
    (w.put b s).Rounds net where
  copies := by
    intro a i
    by_cases hab : a = b
    · subst hab
      rw [put_node_self]
      exact hs.copies i
    · rw [put_node_ne hab]
      exact h.copies a i
  group := by
    intro a x hx
    refine EntryOK.mono (started_put hs.started) ?_
    by_cases hab : a = b
    · subst hab
      rw [put_node_self] at hx
      exact hs.group x hx
    · rw [put_node_ne hab] at hx
      exact h.group a x hx
  packets := by
    intro p hp
    rcases mem_put_sent.1 hp with hp | ⟨o, ho, rfl⟩
    · exact (h.packets p hp).mono (started_put hs.started)
    · exact hs.packets o ho

/-- A node that an address belongs to is the only one its packets reach. -/
theorem reaches_address {c c' : Fin n} {x : Packet} (h : net.reaches ⟨b, some (net.address c), x⟩ c' = true) :
    c' = c :=
  (net.distinct (of_decide_eq_true h)).symm

/-- Requests go to nodes that have started. -/
theorem requests_packetOK {s s' : EdgeAwareClientApplication} (hwired : NodeWired net b s')
    (hgroup : ∀ x ∈ s'.localGroup.entries, w.EntryOK x) (hs : Requests s s') (hout : s.outbox = []) :
    ∀ o ∈ s'.outbox, w.PacketOK net ⟨b, o.1, o.2⟩ := by
  intro o ho
  obtain ⟨out, heq, hall⟩ := hs.outbox
  rw [heq, hout, List.nil_append] at ho
  obtain ⟨e, i, x, node, t, he, hmem, hlater, rfl⟩ := hall o ho
  rw [← hs.localGroup] at hmem
  obtain ⟨c, hc, haddress⟩ := hwired.group _ hmem
  intro c' j hreach hj
  rw [haddress] at hreach
  obtain rfl := reaches_address hreach
  obtain rfl : i = j := Option.some.inj (he.symm.trans hj)
  -- a pair later than another is past round 0
  have hsays := hgroup _ hmem _ hc i
  exact hsays.2 (later_pos hlater hsays.1)

/-- The packet that a node receives, with what the invariants say of it. -/
theorem Rounds.packet (h : w.Rounds net) (hw : w.Wired net) {ev : Event n} {x : Packet}
    (hinput : w.input net ev = some (b, .receiveData x)) :
    ∃ p : Sent n, p.packet = x ∧ w.PacketOK net p ∧ x.senderId = nodeId p.source ∧
      net.reaches p b = true := by
  obtain ⟨p, hp, rfl, hreach⟩ := input_packet hinput
  exact ⟨p, rfl, h.packets p hp, (hw.packets p hp).senderId, hreach⟩

/-- A copy that the node shares, in place of the one it has. -/
theorem Rounds.setElement (h : w.Rounds net) (hnew : Shared net i c) (hown : nodeId b ∈ c.agreeingNodes) :
    (∀ j, CopyOK net b j (((w.node b).setElement i c).agreementInformation j)) ∧
      ∀ j, w.Started b j → (((w.node b).setElement i c).agreementInformation j).roundNumber ≠ 0 := by
  constructor
  · intro j
    by_cases hji : j = i
    · subst hji
      simp only [EdgeAwareClientApplication.setElement, Function.update_self]
      exact Or.inr ⟨hnew, hown⟩
    · simp only [EdgeAwareClientApplication.setElement, Function.update_of_ne hji]
      exact h.copies b j
  · intro j hj
    by_cases hji : j = i
    · subst hji
      simp only [EdgeAwareClientApplication.setElement, Function.update_self]
      exact hnew.ne_zero hown
    · simp only [EdgeAwareClientApplication.setElement, Function.update_of_ne hji]
      exact hj

theorem Rounds.advertise (h : w.Rounds net) (hw : w.Wired net) :
    NodeOK net w b (w.node b).sendAdvertisement := by
  refine ⟨h.copies b, fun _ hj => hj, h.group b, fun o ho => ?_⟩
  rw [sendAdvertisement, send, hw.outbox b, List.nil_append, List.mem_singleton] at ho
  rw [ho]
  intro e pair i hmem he
  obtain ⟨j, -, heq⟩ := List.mem_map.1 hmem
  obtain ⟨rfl, rfl⟩ := Prod.mk.inj heq
  obtain rfl : j = i := Option.some.inj ((element?_elementId j).symm.trans he)
  exact ⟨(h.copies b j).version, fun hround => started_put_self.2 hround⟩

/-- What agreements leave: the copies, or those of elements they have initialised. -/
theorem Rounds.agree (h : w.Rounds net) (hw : w.Wired net) {near : Element → Bool}
    {s : EdgeAwareClientApplication} (hwired : NodeWired net b s)
    (hs : Begins (fun i => near i = true ∧ i ∉ (w.node b).nearbyElements) (w.node b) s)
    (hcount : ∀ i, (w.node b).countedRound i (.getNearbyElements near) < 256) : NodeOK net w b s := by
  have hstarted : ∀ i, w.Started b i → (s.agreementInformation i).roundNumber ≠ 0 := by
    intro i hi
    rw [hs.kept i fun hI => hi hI.2.1]
    exact hi
  have hgroup : ∀ x ∈ s.localGroup.entries, w.EntryOK x := by
    rw [hs.requests.localGroup]
    exact h.group b
  refine ⟨fun i => ?_, hstarted, hgroup, fun o ho => ?_⟩
  · by_cases hI : (near i = true ∧ i ∉ (w.node b).nearbyElements) ∧ (w.node b).Initialises i
    · -- a copy at round 0 is as constructed, and the node is its origin now
      have hlt := hcount i
      simp only [EdgeAwareClientApplication.countedRound] at hlt
      rw [if_pos ⟨hI.1.1, hI.1.2, hI.2⟩, (hw.node b).nodeId, nodeId_toNat net.size] at hlt
      rw [hs.started i hI.1 hI.2, initialised, (hw.node b).nodeId]
      exact (h.copies b i).init hI.2.1 hlt
    · rw [hs.kept i hI]
      exact h.copies b i
  · have hpacket := requests_packetOK hwired hgroup hs.requests (hw.outbox b) o ho
    exact hpacket.mono (started_put hstarted)

theorem Rounds.learn (h : w.Rounds net) (hw : w.Wired net) {ev : Event n} {info : AdvertMessage}
    (hinput : w.input net ev = some (b, .receiveData (.advert info)))
    {pairs : Element → CausalNum × CausalNum}
    (advertised : ∀ i, pairs i = (0, 0) ∨ ∃ e, (e, pairs i) ∈ info.elements ∧ element? e = some i)
    {s : EdgeAwareClientApplication} (hwired : NodeWired net b s)
    (requests : Requests { w.node b with
      localGroup := (w.node b).localGroup.assign info.senderId ⟨info.ipv4Address, w.now, pairs⟩ } s)
    (hkept : s.agreementInformation = (w.node b).agreementInformation) : NodeOK net w b s := by
  obtain ⟨p, hpx, hp, hsender, -⟩ := h.packet hw hinput
  have hgroup : ∀ x ∈ s.localGroup.entries, w.EntryOK x := by
    rw [requests.localGroup]
    intro x hx c hc i
    rcases Lib.SortedMap.mem_assign.1 hx with rfl | ⟨hx, -⟩
    · -- the new entry is what the advertisement says
      obtain rfl := nodeId_inj net.size (hsender.symm.trans hc)
      change w.Says p.source i (pairs i)
      rcases advertised i with hzero | ⟨e, hmem, he⟩
      · rw [hzero]
        exact ⟨rfl, fun h => absurd rfl h⟩
      · rw [PacketOK, hpx] at hp
        exact hp e _ i hmem he
    · exact h.group b x hx c hc i
  have hstarted : ∀ i, w.Started b i → (s.agreementInformation i).roundNumber ≠ 0 := by
    intro i hi
    rw [hkept]
    exact hi
  refine ⟨by rw [hkept]; exact h.copies b, hstarted, hgroup, fun o ho => ?_⟩
  have hpacket := requests_packetOK hwired hgroup requests (hw.outbox b) o ho
  exact hpacket.mono (started_put hstarted)

/-- A node that is asked for its copy has started it. -/
theorem Rounds.reply (h : w.Rounds net) (hw : w.Wired net) {ev : Event n} {info : RequestDataMessage}
    (hinput : w.input net ev = some (b, .receiveData (.requestData info))) {address : UInt32}
    (elem : element? info.elementId = some i) :
    NodeOK net w b ((w.node b).send (some address)
      (.sendData ((w.node b).sendDataMessage info.elementId ((w.node b).agreementInformation i)))) := by
  obtain ⟨p, hpx, hp, -, hreach⟩ := h.packet hw hinput
  rw [PacketOK, hpx] at hp
  have hstarted := hp b i hreach elem
  refine ⟨h.copies b, fun _ hj => hj, h.group b, fun o ho => ?_⟩
  rw [send, hw.outbox b, List.nil_append, List.mem_singleton] at ho
  rw [ho]
  intro j hj
  obtain rfl : i = j := Option.some.inj (elem.symm.trans hj)
  exact ⟨(h.copies b i).shared hstarted, started_put_self.2 hstarted⟩

/-- The copy that arrives obeys the equation, and so does the one that is made of it. -/
theorem Rounds.adopt (h : w.Rounds net) (hw : w.Wired net) {ev : Event n} {info : SendDataMessage}
    (hinput : w.input net ev = some (b, .receiveData (.sendData info)))
    (elem : element? info.elementId = some i) {out : List (Option UInt32 × Packet)}
    (acks : ∀ o ∈ out, ∃ node, (w.node b).localGroup.find? info.senderId = some node ∧
      o = (some node.address, .ack ⟨(w.node b).nodeId, info.elementId⟩))
    (hcount : (w.node b).countedRound i (.receiveData (.sendData info)) < 256) :
    NodeOK net w b { (w.node b).setElement i (adopt (w.node b).nodeId info) with
      outbox := (w.node b).outbox ++ out } := by
  obtain ⟨p, hpx, hp, hsender, -⟩ := h.packet hw hinput
  rw [PacketOK, hpx] at hp
  obtain ⟨hshared, hsource⟩ := hp i elem
  simp only [EdgeAwareClientApplication.countedRound] at hcount
  rw [if_pos elem, (hw.node b).nodeId] at hcount
  have hnew := shared_adopt hshared b hcount
  rw [← (hw.node b).nodeId] at hnew
  have hown : nodeId b ∈ (EdgeAwareClientApplication.adopt (w.node b).nodeId info).agreeingNodes := by
    rw [(hw.node b).nodeId]
    exact mem_insert_self _ _
  obtain ⟨hcopies, hstarted⟩ := h.setElement hnew hown
  refine ⟨hcopies, hstarted, h.group b, fun o ho => ?_⟩
  -- the acknowledgement goes to the sender, which has started
  simp only [hw.outbox b, List.nil_append] at ho
  obtain ⟨node, hfound, rfl⟩ := acks o ho
  obtain ⟨c, hc, haddress⟩ := (hw.node b).group _ (Lib.SortedMap.find?_eq_some.1 hfound)
  obtain rfl := nodeId_inj net.size (hsender.symm.trans hc)
  intro c' j hreach hj
  rw [haddress] at hreach
  obtain rfl := reaches_address hreach
  obtain rfl : i = j := Option.some.inj (elem.symm.trans hj)
  exact started_put hstarted _ i hsource

theorem Rounds.credit (h : w.Rounds net) (hw : w.Wired net) {ev : Event n} {info : AckMessage}
    (hinput : w.input net ev = some (b, .receiveData (.ack info)))
    (elem : element? info.elementId = some i)
    (hcount : (w.node b).countedRound i (.receiveData (.ack info)) < 256) :
    NodeOK net w b ((w.node b).setElement i
      (credit ((w.node b).agreementInformation i) info.senderId)) := by
  obtain ⟨p, hpx, hp, hsender, hreach⟩ := h.packet hw hinput
  rw [PacketOK, hpx] at hp
  have hround := hp b i hreach elem
  have hsenderId : info.senderId = nodeId p.source := hsender
  have hnew : Shared net i
      (EdgeAwareClientApplication.credit ((w.node b).agreementInformation i) info.senderId) := by
    rw [hsenderId]
    refine ((h.copies b i).shared hround).credit p.source fun hmem => ?_
    simp only [EdgeAwareClientApplication.countedRound] at hcount
    rwa [if_pos ⟨elem, by rwa [hsenderId]⟩] at hcount
  obtain ⟨hcopies, hstarted⟩ := h.setElement hnew (mem_credit (h.copies b i).own)
  exact ⟨hcopies, hstarted, h.group b, by simp [EdgeAwareClientApplication.setElement, hw.outbox b]⟩

/-- **Handlers keep the invariant** while they count within 8 bits. -/
theorem Rounds.reacts (h : w.Rounds net) (hw : w.Wired net) {ev : Event n} {input : Input}
    {s : EdgeAwareClientApplication} (hinput : w.input net ev = some (b, input))
    (hs : Reacts w.now input (w.node b) s)
    (hcount : ∀ i, (w.node b).countedRound i input < 256) : NodeOK net w b s := by
  have hwired : NodeWired net b s := (hw.node b).reacts (hw.input hinput) hs
  have hsame : NodeOK net w b (w.node b) :=
    ⟨h.copies b, fun _ hj => hj, h.group b, by rw [hw.outbox b]; simp⟩
  cases hs with
  | reject => exact hsame
  | refuse => exact hsame
  | advertise => exact h.advertise hw
  | agree begins => exact h.agree hw hwired begins hcount
  | prune =>
    exact ⟨h.copies b, fun _ hj => hj, fun x hx => h.group b x (List.mem_of_mem_filter hx),
      by simp [checkHeartbeats, hw.outbox b]⟩
  | learn advertised requests kept =>
    exact h.learn hw hinput advertised hwired requests (kept (hw.formed hinput _ rfl).1)
  | reply found elem => exact h.reply hw hinput elem
  | adopt elem acks => exact h.adopt hw hinput elem acks (hcount _)
  | credit elem => exact h.credit hw hinput elem (hcount _)

theorem started_congr (hnode : w'.node = w.node) (a : Fin n) (i : Element) (ha : w.Started a i) :
    w'.Started a i := by
  unfold Started
  rw [hnode]
  exact ha

theorem Rounds.congr (h : w.Rounds net) (hnode : w'.node = w.node) (hsent : w'.sent = w.sent) :
    w'.Rounds net where
  copies := by rw [hnode]; exact h.copies
  group := by rw [hnode]; exact fun a x hx => EntryOK.mono (started_congr hnode) (h.group a x hx)
  packets := by rw [hsent]; exact fun p hp => PacketOK.mono (started_congr hnode) (h.packets p hp)

/-- **A step keeps the invariant**, and a node that has started stays past round 0. -/
theorem Rounds.step (h : w.Rounds net) (hw : w.Wired net) (ev : Event n)
    (hcount : ∀ a i, w.countedRound net ev a i < 256) :
    (w.step net ev).Rounds net ∧ ∀ a i, w.Started a i → (w.step net ev).Started a i := by
  rcases step_reacts net w ev with ⟨-, hnode, hsent⟩ | ⟨b, input, s, hinput, hreacts, hnode, hsent⟩
  · exact ⟨h.congr hnode hsent, started_congr hnode⟩
  · have hs : NodeOK net w b s := by
      refine h.reacts hw hinput hreacts fun i => ?_
      have hlt := hcount b i
      simpa only [World.countedRound, hinput, if_pos] using hlt
    refine ⟨(h.put hs).congr hnode hsent, fun a i ha => ?_⟩
    exact started_congr hnode a i (started_put hs.started a i ha)

theorem rounds_init (net : Net n) : (World.init net).Rounds net where
  copies := copyOK_make net
  group := by rintro a x ⟨⟩
  packets := by rintro p ⟨⟩

/-- **With `2 n - 1` below 256 no count goes past 255.** -/
theorem Rounds.countedRound_lt (h : w.Rounds net) (hw : w.Wired net) (hn : 2 * n - 1 ≤ 255)
    (ev : Event n) (a : Fin n) (i : Element) : w.countedRound net ev a i < 256 := by
  have hown := (((w.node a).agreementInformation i).roundNumber).toNat_lt
  unfold World.countedRound
  cases hinput : w.input net ev with
  | none => exact hown
  | some bi =>
    obtain ⟨b, input⟩ := bi
    simp only
    split
    swap
    · exact hown
    rename_i hab
    subst hab
    cases input with
    | sendAdvertisement => exact hown
    | checkHeartbeats => exact hown
    | getNearbyElements near =>
      simp only [EdgeAwareClientApplication.countedRound]
      split
      -- the first round is one past the node's id, which is less than n
      · have ha := a.isLt
        rw [(hw.node a).nodeId, nodeId_toNat net.size]
        omega
      · exact hown
    | receiveData x =>
      obtain ⟨p, hpx, hp, hsender, hreach⟩ := h.packet hw hinput
      rw [PacketOK, hpx] at hp
      cases x with
      | advert info => exact hown
      | requestData info => exact hown
      | sendData info =>
        simp only [EdgeAwareClientApplication.countedRound]
        split
        · rename_i elem
          rw [(hw.node a).nodeId]
          split
          · exact info.round.toNat_lt
          · rename_i hmem
            -- a sync group without this node has room for one more count
            have hroom := (hp i elem).1.room hmem
            change info.round.toNat + 1 ≤ 2 * n - 1 at hroom
            omega
        · exact hown
      | ack info =>
        have hsenderId : info.senderId = nodeId p.source := hsender
        simp only [EdgeAwareClientApplication.countedRound]
        split
        · rename_i hack
          have hmem := hack.2
          rw [hsenderId] at hmem
          have hroom := ((h.copies a i).shared (hp a i hreach hack.1)).room hmem
          omega
        · exact hown

end World

/-- **The invariant holds** in every run whose counters stay in 8 bits. -/
theorem rounds_wAt (net : Net n) (es : List (Event n)) (hcount : Counts net es) (k : ℕ) :
    (wAt net es k).Rounds net :=
  Lib.stateAt_invariant (World.rounds_init net)
    (fun k hk h => (h.step (wired_wAt net es k) _ (hcount k hk)).1) k

theorem counts_of_small (net : Net n) (es : List (Event n)) (hn : 2 * n - 1 ≤ 255) : Counts net es := by
  have hrounds : ∀ k, (wAt net es k).Rounds net :=
    Lib.stateAt_invariant (World.rounds_init net) fun k _ h =>
      (h.step (wired_wAt net es k) _ fun a i => h.countedRound_lt (wired_wAt net es k) hn _ a i).1
  intro k hk a i
  exact (hrounds k).countedRound_lt (wired_wAt net es k) hn _ a i

end EdgeConsensus.Peer
