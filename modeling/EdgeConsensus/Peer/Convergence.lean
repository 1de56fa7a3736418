import EdgeConsensus.Lib.Schedule
import EdgeConsensus.Peer.Origin
import EdgeConsensus.Peer.Views
import Mathlib.Data.Finset.Max
import Mathlib.Data.Fintype.Prod

/-!
# Nodes can agree

Nodes that stay near an element are meant to end up with one copy of it. From every reachable state in which
nothing has been aborted and the nodes with the newest pair hold the same copy, they can: nobody has to move,
advertisements and the exchanges that they start are enough.

* `adopt_eq_credit`: where nothing comes between, an exchange leaves both nodes with the same copy.
* `hear`, `exchange`: an advertisement that is heard, and an exchange with the node ahead.
* `learn`, `spread`, `can_agree`: every node is told of all others, and then each exchanges
  with the node ahead, twice.
-/

namespace EdgeConsensus.Peer

open EdgeAwareClientApplication

variable {n : ℕ} {net : Net n} {w w' : World n} {a b c m : Fin n} {i : Element}

/-- What is no advertisement and no packet: movement, the timer that prunes, and time. -/
def Event.other : Event n → Option (Event n)
  | .sendAdvertisement _ => none
  | .receiveData _ _ => none
  | ev => some ev

/-- Advertisements and packets can lead on to a world with property `P`. -/
abbrev Converges (net : Net n) (P : World n → Prop) (w : World n) : Prop :=
  Lib.Leads (World.step net) Event.other P w

/-- A world that some run reaches. -/
def Reachable (net : Net n) (w : World n) : Prop := ∃ es : List (Event n), wAt net es es.length = w

theorem Reachable.step (h : Reachable net w) (ev : Event n) : Reachable net (w.step net ev) := by
  obtain ⟨es, rfl⟩ := h
  refine ⟨es ++ [ev], ?_⟩
  unfold wAt Lib.stateAt
  rw [List.take_length, List.take_length, List.foldl_append]
  rfl

theorem Reachable.wired (h : Reachable net w) : w.Wired net := by
  obtain ⟨es, rfl⟩ := h
  exact wired_wAt net es _

theorem Reachable.rounds (h : Reachable net w) (hn : 2 * n - 1 ≤ 255) : w.Rounds net := by
  obtain ⟨es, rfl⟩ := h
  exact rounds_wAt net es (counts_of_small net es hn) _

/-- An entry of a local group is one for another node, under its own address. -/
theorem Reachable.entry (h : Reachable net w) {x : NodeId × NodeEntry} (hx : x ∈ (w.node a).localGroup.entries) :
    ∃ b ≠ a, x.1 = nodeId b ∧ x.2.address = net.address b := by
  obtain ⟨es, rfl⟩ := h
  obtain ⟨b, j, h, hb, -, -, -, -, hid, haddress, -⟩ := (snapshots_wAt net es _).groups a x hx
  exact ⟨b, hb, hid, haddress⟩

/-- All nodes are near the element, and no handler has thrown. -/
structure Gathered (net : Net n) (i : Element) (w : World n) : Prop where
  reachable : Reachable net w
  alive : w.aborted = false
  near : ∀ a, i ∈ (w.node a).nearbyElements

/-- The copy of the element that the node holds. -/
abbrev World.copy (w : World n) (i : Element) (a : Fin n) : AgreementInformation :=
  (w.node a).agreementInformation i

/-- How new the node's copy is. -/
abbrev World.pair (w : World n) (i : Element) (a : Fin n) : ℕ ×ₗ ℕ := reading (w.copy i a).stamp

/-! ## One event -/

/-- A packet that reaches a node can be received. -/
theorem input_of_sent {p : Sent n} (halive : w.aborted = false) (hp : p ∈ w.sent)
    (hreach : net.reaches p b = true) :
    ∃ k, w.input net (.receiveData b k) = some (b, .receiveData p.packet) := by
  obtain ⟨k, hk⟩ := List.mem_iff_getElem?.1 hp
  refine ⟨k, ?_⟩
  simp [World.input, halive, World.received, hk, hreach]

/-- A packet is received, and its handler ends. -/
theorem Gathered.receive {P : World n → Prop} {p : Sent n} {s : EdgeAwareClientApplication} (h : Gathered net i w)
    (hp : p ∈ w.sent) (hreach : net.reaches p b = true)
    (hs : (w.node b).handle w.now (.receiveData p.packet) = .ok s)
    (hnear : s.nearbyElements = (w.node b).nearbyElements) (hP : Gathered net i (w.put b s) → P (w.put b s)) :
    Converges net P w := by
  obtain ⟨k, hk⟩ := input_of_sent h.alive hp hreach
  have hstep := World.step_ok hk hs
  refine Lib.leads_event (e := .receiveData b k) rfl ?_
  rw [hstep]
  refine hP ⟨?_, h.alive, fun a => ?_⟩
  · rw [← hstep]
    exact h.reachable.step _
  · by_cases hab : a = b
    · subst hab
      rw [World.put_node_self]
      show i ∈ s.nearbyElements
      rw [hnear]
      exact h.near a
    · rw [World.put_node_ne hab]
      exact h.near a

/-- A node that only sends something stays as it is. -/
theorem Reachable.put_send (h : Reachable net w) (a : Fin n) (dest : Option UInt32) (packet : Packet) :
    (w.put a ((w.node a).send dest packet)).node = w.node := by
  funext x
  by_cases hx : x = a
  · subst hx
    rw [World.put_node_self]
    show { w.node x with outbox := [] } = w.node x
    rw [← h.wired.outbox x]
  · rw [World.put_node_ne hx]

theorem mem_put_send (w : World n) (s : EdgeAwareClientApplication) (a : Fin n) (dest : Option UInt32)
    (packet : Packet) : (⟨a, dest, packet⟩ : Sent n) ∈ (w.put a (s.send dest packet)).sent :=
  World.mem_put_sent.2 (Or.inr ⟨(dest, packet), List.mem_append_right _ (List.mem_singleton_self _), rfl⟩)

/-- Node `a` has heard an advertisement of node `c`. -/
structure Hears (net : Net n) (i : Element) (c a : Fin n) (w w' : World n) : Prop where
  gathered : Gathered net i w'
  copies : ∀ x, (w'.node x).agreementInformation = (w.node x).agreementInformation
  group : (w'.node a).localGroup =
    (w.node a).localGroup.assign (nodeId c) ⟨net.address c, w.now, (w.node c).shows⟩
  others : ∀ x ≠ a, (w'.node x).localGroup = (w.node x).localGroup
  asks : w.pair i a < w.pair i c → ∃ y, (w'.node a).Greatest i y ∧
    ⟨a, some y.2.address, .requestData ⟨nodeId a, elementId i⟩⟩ ∈ w'.sent

/-- Node `c` has advertised itself, and nothing else has changed. -/
structure Advertised (net : Net n) (i : Element) (c : Fin n) (w w' : World n) : Prop where
  gathered : Gathered net i w'
  node : w'.node = w.node
  now : w'.now = w.now
  sent : ⟨c, none, .advert (w.node c).advertisement⟩ ∈ w'.sent

theorem Gathered.advertise (h : Gathered net i w) (c : Fin n) : Converges net (Advertised net i c w) w := by
  have hinput : w.input net (.sendAdvertisement c) = some (c, .sendAdvertisement) := by
    unfold World.input
    rw [h.alive]
    rfl
  have hstep := World.step_ok hinput (s := (w.node c).sendAdvertisement) rfl
  have hreachable := h.reachable.step (.sendAdvertisement c)
  refine Lib.leads_event (e := .sendAdvertisement c) rfl ?_
  rw [hstep] at hreachable ⊢
  have hnode : (w.put c (w.node c).sendAdvertisement).node = w.node := h.reachable.put_send c none _
  refine ⟨⟨hreachable, h.alive, fun x => ?_⟩, hnode, rfl, mem_put_send w (w.node c) c none _⟩
  rw [hnode]
  exact h.near x

theorem Gathered.listen (h : Gathered net i w) (hca : c ≠ a)
    (hsent : ⟨c, none, .advert (w.node c).advertisement⟩ ∈ w.sent) : Converges net (Hears net i c a w) w := by
  have hw := h.reachable.wired
  obtain ⟨k, hk⟩ := input_of_sent h.alive hsent (b := a) (by simp [Net.reaches, hca])
  obtain ⟨requests, hstep, hwanted, hasked⟩ := World.step_advert hk
  have hreachable := h.reachable.step (.receiveData a k)
  refine Lib.leads_event (e := .receiveData a k) rfl ?_
  rw [hstep] at hreachable ⊢
  set s : EdgeAwareClientApplication := { w.node a with
    localGroup := (w.node a).localGroup.assign (w.node c).nodeId ⟨(w.node c).address, w.now, (w.node c).shows⟩
    outbox := (w.node a).outbox ++ requests } with hs
  have hself : (w.put a s).node a = { s with outbox := [] } := World.put_node_self _ _
  have hother : ∀ x ≠ a, (w.put a s).node x = w.node x := fun x hx => World.put_node_ne hx s
  refine ⟨⟨hreachable, h.alive, fun x => ?_⟩, fun x => ?_, ?_, fun x hx => by rw [hother x hx], fun hlt => ?_⟩
  · by_cases hx : x = a
    · subst hx
      rw [hself]
      exact h.near x
    · rw [hother x hx]
      exact h.near x
  · by_cases hx : x = a
    · subst hx
      rw [hself]
    · rw [hother x hx]
  · rw [hself]
    show (w.node a).localGroup.assign (w.node c).nodeId ⟨(w.node c).address, w.now, (w.node c).shows⟩ = _
    rw [(hw.node c).nodeId, (hw.node c).address]
  · have hshows : (w.node c).shows i = (w.copy i c).stamp := if_pos (h.near c)
    obtain ⟨o, ho, hpacket⟩ := hwanted i (h.near a) (by rw [hshows]; exact hlt)
    obtain ⟨j, y, hy, -, rfl⟩ := hasked o ho
    obtain rfl : j = i := by
      simp only [Packet.requestData.injEq, RequestDataMessage.mk.injEq, true_and] at hpacket
      exact elementId_injective hpacket
    refine ⟨y, ?_, World.mem_put_sent.2 (Or.inr ⟨_, List.mem_append_right _ ho, ?_⟩)⟩
    · rw [hself]
      exact ⟨hy.mem, hy.le, hy.least⟩
    · rw [(hw.node a).nodeId]

/-- **A node can hear another one.** -/
theorem Gathered.hear (h : Gathered net i w) (hca : c ≠ a) : Converges net (Hears net i c a w) w := by
  refine (h.advertise c).bind fun w₁ h₁ => ?_
  have hsent : ⟨c, none, .advert (w₁.node c).advertisement⟩ ∈ w₁.sent := by
    rw [h₁.node]
    exact h₁.sent
  refine (h₁.gathered.listen hca hsent).bind fun w₂ h₂ => Lib.leads_here ?_
  have hpair : ∀ x, w₁.pair i x = w.pair i x := fun x => by unfold World.pair World.copy; rw [h₁.node]
  refine ⟨h₂.gathered, ?_, ?_, ?_, fun hlt => h₂.asks (by rw [hpair, hpair]; exact hlt)⟩
  · rw [← h₁.node]
    exact h₂.copies
  · rw [← h₁.node, ← h₁.now]
    exact h₂.group
  · rw [← h₁.node]
    exact h₂.others

/-! ## Everybody hears everybody -/

/-- The copies are those of `w₀`, and for the pairs in `T` the second node has heard the first. -/
structure Informed (net : Net n) (i : Element) (w₀ : World n) (T : Finset (Fin n × Fin n))
    (w : World n) : Prop where
  gathered : Gathered net i w
  copies : ∀ x, (w.node x).agreementInformation = (w₀.node x).agreementInformation
  heard : ∀ x ∈ T, x.1 ≠ x.2 → ∃ node, (nodeId x.1, node) ∈ (w.node x.2).localGroup.entries ∧
    node.versionRoundNumbers i = (w₀.copy i x.1).stamp

theorem Informed.hear {w₀ : World n} {T : Finset (Fin n × Fin n)} {x : Fin n × Fin n}
    (h : Informed net i w₀ T w) : Converges net (Informed net i w₀ (insert x T)) w := by
  by_cases hx : x.1 = x.2
  · refine Lib.leads_here ⟨h.gathered, h.copies, fun y hy hne => ?_⟩
    rcases Finset.mem_insert.1 hy with rfl | hy
    · exact absurd hx hne
    · exact h.heard y hy hne
  refine (h.gathered.hear (c := x.1) (a := x.2) hx).bind fun w' hw' =>
    Lib.leads_here ⟨hw'.gathered, fun y => ?_, fun y hy hne => ?_⟩
  · rw [hw'.copies y, h.copies y]
  · have hnew : ∃ node, (nodeId x.1, node) ∈ (w'.node x.2).localGroup.entries ∧
        node.versionRoundNumbers i = (w₀.copy i x.1).stamp := by
      refine ⟨_, by rw [hw'.group]; exact Lib.SortedMap.mem_assign.2 (Or.inl rfl), ?_⟩
      show (w.node x.1).shows i = _
      unfold shows World.copy
      rw [if_pos (h.gathered.near x.1), h.copies]
    rcases Finset.mem_insert.1 hy with rfl | hy
    · exact hnew
    obtain ⟨node, hnode, hpair⟩ := h.heard y hy hne
    by_cases hyx : y.2 = x.2
    · by_cases hid : y.1 = x.1
      · rw [hyx, hid]
        exact hnew
      · refine ⟨node, ?_, hpair⟩
        rw [hyx] at hnode ⊢
        rw [hw'.group]
        exact Lib.SortedMap.mem_assign.2 (Or.inr ⟨hnode, fun heq => hid (nodeId_inj net.size heq)⟩)
    · exact ⟨node, by rw [hw'.others y.2 hyx]; exact hnode, hpair⟩

/-! ## Exchanges -/

/-- **An exchange in which nothing comes between** leaves both nodes with the same copy. -/
theorem adopt_eq_credit (s : EdgeAwareClientApplication) (e : ElementId) (copy : AgreementInformation)
    (me : NodeId) : adopt me (s.sendDataMessage e copy) = credit copy me := by
  unfold adopt credit sendDataMessage
  by_cases hme : me ∈ copy.agreeingNodes
  · simp only [if_pos hme, Finset.insert_eq_of_mem hme]
  · simp only [if_neg hme]

/-- Node `m` is ahead: nobody has or records a newer pair, or the same pair for a node before `m`, and who has
the same pair has the same copy. All nodes know each other. -/
structure Ahead (net : Net n) (i : Element) (m : Fin n) (w : World n) : Prop where
  gathered : Gathered net i w
  known : ∀ a b, b ≠ a → ∃ node, (w.node a).localGroup.find? (nodeId b) = some node
  records : ∀ a, ∀ x ∈ (w.node a).localGroup.entries, reading (x.2.versionRoundNumbers i) ≤ w.pair i m ∧
    (reading (x.2.versionRoundNumbers i) = w.pair i m → nodeId m ≤ x.1)
  newest : ∀ b, w.pair i b ≤ w.pair i m
  same : ∀ b, w.pair i b = w.pair i m → w.copy i b = w.copy i m

/-- The address that a local group has for a node is that node's. -/
theorem Reachable.found (h : Reachable net w) {node : NodeEntry}
    (hfind : (w.node a).localGroup.find? (nodeId b) = some node) : node.address = net.address b := by
  obtain ⟨c, -, hid, haddress⟩ := h.entry (Lib.SortedMap.find?_eq_some.1 hfind)
  obtain rfl := nodeId_inj net.size hid
  exact haddress

/-- A node that is newer than another has started. -/
theorem started_of_lt (hw : w.Rounds net) (h : w.pair i b < w.pair i m) : (w.copy i m).roundNumber ≠ 0 := by
  intro hzero
  have hm : (w.copy i m).stamp = (0, 0) := Prod.ext (hw.copies m i).version hzero
  unfold World.pair at h
  rw [hm] at h
  exact absurd h (not_lt.2 (reading_zero_le _))

/-- **A credit does not go back**: it is nothing, or a newer pair. -/
theorem credit_cases (hw : w.Rounds net) (hn : 2 * n - 1 ≤ 255) (hstarted : (w.copy i m).roundNumber ≠ 0)
    (b : Fin n) : (nodeId b ∈ (w.copy i m).agreeingNodes ∧ credit (w.copy i m) (nodeId b) = w.copy i m) ∨
      w.pair i m < reading (credit (w.copy i m) (nodeId b)).stamp := by
  by_cases hb : nodeId b ∈ (w.copy i m).agreeingNodes
  · exact Or.inl ⟨hb, if_pos hb⟩
  · refine Or.inr ?_
    have hroom : (w.copy i m).roundNumber.toNat + 1 ≤ 2 * n - 1 := ((hw.copies m i).shared hstarted).room hb
    unfold credit
    rw [if_neg hb, World.pair, ← not_le, reading_le]
    simp only [AgreementInformation.stamp, toNat_succ]
    omega

/-- Hearing the node ahead changes nothing about who is ahead. -/
theorem Ahead.hears (h : Ahead net i m w) (hw : Hears net i m b w w') : Ahead net i m w' := by
  have hcopy : ∀ x, w'.copy i x = w.copy i x := fun x => congrFun (hw.copies x) i
  have hpair : ∀ x, w'.pair i x = w.pair i x := fun x => by unfold World.pair; rw [hcopy]
  refine ⟨hw.gathered, fun a c hc => ?_, fun a x hx => ?_, fun x => ?_, fun x hx => ?_⟩
  · by_cases hab : a = b
    · subst hab
      rw [hw.group, Lib.SortedMap.find?_assign]
      split
      · exact ⟨_, rfl⟩
      · exact h.known a c hc
    · rw [hw.others a hab]
      exact h.known a c hc
  · rw [hpair]
    by_cases hab : a = b
    · subst hab
      rw [hw.group] at hx
      rcases Lib.SortedMap.mem_assign.1 hx with rfl | ⟨hx, -⟩
      · have hshows : (w.node m).shows i = (w.copy i m).stamp := if_pos (h.gathered.near m)
        exact ⟨le_of_eq (congrArg reading hshows), fun _ => le_rfl⟩
      · exact h.records a x hx
    · rw [hw.others a hab] at hx
      exact h.records a x hx
  · rw [hpair, hpair]
    exact h.newest x
  · rw [hpair, hpair] at hx
    rw [hcopy, hcopy]
    exact h.same x hx

/-- Node `b` has exchanged with the node ahead. -/
structure Exchanged (net : Net n) (i : Element) (m b : Fin n) (w w' : World n) : Prop where
  ahead : Ahead net i m w'
  leader : w'.copy i m = credit (w.copy i m) (nodeId b)
  partner : w'.copy i b = w'.copy i m
  others : ∀ x, x ≠ m → x ≠ b → w'.copy i x = w.copy i x

/-- The node ahead stays ahead when another one takes over its copy. -/
theorem Ahead.exchanged (h : Ahead net i m w) (hn : 2 * n - 1 ≤ 255) (hlt : w.pair i b < w.pair i m)
    (hw' : Gathered net i w')
    (hgroup : ∀ x, (w'.node x).localGroup = (w.node x).localGroup)
    (hleader : w'.copy i m = credit (w.copy i m) (nodeId b)) (hpartner : w'.copy i b = w'.copy i m)
    (hothers : ∀ x, x ≠ m → x ≠ b → w'.copy i x = w.copy i x) : Exchanged net i m b w w' := by
  have hrounds := h.gathered.reachable.rounds hn
  have hcases := credit_cases hrounds hn (started_of_lt hrounds hlt) b
  have hpair : w'.pair i m = reading (credit (w.copy i m) (nodeId b)).stamp := by unfold World.pair; rw [hleader]
  have hpartner' : w'.pair i b = w'.pair i m := by unfold World.pair; rw [hpartner]
  have hothers' : ∀ x, x ≠ m → x ≠ b → w'.pair i x = w.pair i x := fun x hx hxb => by
    unfold World.pair
    rw [hothers x hx hxb]
  -- the pair of the node ahead is the same, with the same copy, or newer
  have hgrows : (w'.pair i m = w.pair i m ∧ w'.copy i m = w.copy i m) ∨ w.pair i m < w'.pair i m := by
    rcases hcases with ⟨-, hsame⟩ | hnewer
    · exact Or.inl ⟨by rw [hpair, hsame], by rw [hleader, hsame]⟩
    · exact Or.inr (by rw [hpair]; exact hnewer)
  have hle : w.pair i m ≤ w'.pair i m := by
    rcases hgrows with ⟨heq, -⟩ | hnewer
    · exact le_of_eq heq.symm
    · exact le_of_lt hnewer
  refine ⟨⟨hw', fun a c hc => ?_, fun a x hx => ?_, fun x => ?_, fun x hx => ?_⟩, hleader, hpartner, hothers⟩
  · rw [hgroup]
    exact h.known a c hc
  · rw [hgroup] at hx
    obtain ⟨hrecord, hfirst⟩ := h.records a x hx
    refine ⟨le_trans hrecord hle, fun heq => hfirst ?_⟩
    exact le_antisymm hrecord (heq ▸ hle)
  · by_cases hxm : x = m
    · rw [hxm]
    by_cases hxb : x = b
    · rw [hxb]
      exact le_of_eq hpartner'
    · rw [hothers' x hxm hxb]
      exact le_trans (h.newest x) hle
  · by_cases hxm : x = m
    · rw [hxm]
    by_cases hxb : x = b
    · rw [hxb]
      exact hpartner
    · rw [hothers' x hxm hxb] at hx
      rcases hgrows with ⟨heq, hcopy⟩ | hnewer
      · rw [hothers x hxm hxb, hcopy]
        exact h.same x (hx.trans heq)
      · exact absurd hx (ne_of_lt (lt_of_le_of_lt (h.newest x) hnewer))

/-- The greatest entry of a node that has just heard the node ahead is that one. -/
theorem Ahead.greatest (h : Ahead net i m w) {y x : NodeId × NodeEntry} (hy : (w.node b).Greatest i y)
    (hx : x ∈ (w.node b).localGroup.entries) (hid : x.1 = nodeId m)
    (hpair : reading (x.2.versionRoundNumbers i) = w.pair i m) : y.2.address = net.address m := by
  have htop : reading (y.2.versionRoundNumbers i) = w.pair i m := by
    apply le_antisymm (h.records b y hy.mem).1
    rw [← hpair]
    exact hy.le x hx
  have hle : y.1 ≤ nodeId m := by
    rw [← hid]
    exact hy.least x hx (hpair.trans htop.symm)
  have hge : nodeId m ≤ y.1 := (h.records b y hy.mem).2 htop
  obtain ⟨c, -, hc, haddress⟩ := h.gathered.reachable.entry hy.mem
  obtain rfl : c = m := by
    apply nodeId_inj net.size
    rw [← hc]
    exact le_antisymm hle hge
  exact haddress

/-- Node `b` has asked the node ahead for its copy. -/
structure Asked (net : Net n) (i : Element) (m b : Fin n) (w w' : World n) : Prop where
  ahead : Ahead net i m w'
  copies : ∀ x, w'.copy i x = w.copy i x
  sent : ⟨b, some (net.address m), .requestData ⟨nodeId b, elementId i⟩⟩ ∈ w'.sent

/-- A node that is behind asks the node ahead when it hears it. -/
theorem Ahead.ask (h : Ahead net i m w) (hb : b ≠ m) (hlt : w.pair i b < w.pair i m) :
    Converges net (Asked net i m b w) w := by
  refine (h.gathered.hear (Ne.symm hb)).bind fun w' hw' => Lib.leads_here ?_
  have hcopies : ∀ x, w'.copy i x = w.copy i x := fun x => congrFun (hw'.copies x) i
  have hahead := h.hears hw'
  obtain ⟨y, hy, hasked⟩ := hw'.asks hlt
  have haddress : y.2.address = net.address m := by
    refine hahead.greatest hy (x := (nodeId m, ⟨net.address m, w.now, (w.node m).shows⟩)) ?_ rfl ?_
    · rw [hw'.group]
      exact Lib.SortedMap.mem_assign.2 (Or.inl rfl)
    · have hshows : (w.node m).shows i = (w.copy i m).stamp := if_pos (h.gathered.near m)
      unfold World.pair
      rw [hcopies]
      exact congrArg reading hshows
  rw [haddress] at hasked
  exact ⟨hahead, hcopies, hasked⟩

/-- The node ahead has answered node `b` with its copy. -/
structure Answered (net : Net n) (i : Element) (m b : Fin n) (w w' : World n) : Prop where
  gathered : Gathered net i w'
  node : w'.node = w.node
  sent : ⟨m, some (net.address b), .sendData ((w.node m).sendDataMessage (elementId i) (w.copy i m))⟩ ∈ w'.sent

theorem Ahead.answer (h : Ahead net i m w) (hb : b ≠ m)
    (hasked : ⟨b, some (net.address m), .requestData ⟨nodeId b, elementId i⟩⟩ ∈ w.sent) :
    Converges net (Answered net i m b w) w := by
  obtain ⟨node, hfind⟩ := h.known m b hb
  have hsend : (w.node m).handle w.now (.receiveData (.requestData ⟨nodeId b, elementId i⟩)) =
      .ok ((w.node m).send (some (net.address b))
        (.sendData ((w.node m).sendDataMessage (elementId i) (w.copy i m)))) := by
    simp only [handle, receiveData, receiveRequestData, hfind, sendData, element?_elementId,
      h.gathered.reachable.found hfind]
  refine h.gathered.receive hasked (by simp [Net.reaches]) hsend rfl fun hgathered => ⟨hgathered, ?_, ?_⟩
  · exact h.gathered.reachable.put_send _ _ _
  · exact mem_put_send _ _ _ _ _

/-- Node `b` has taken over the copy that the node ahead had, and has acknowledged it. -/
structure Adopted (net : Net n) (i : Element) (m b : Fin n) (w w' : World n) : Prop where
  gathered : Gathered net i w'
  partner : w'.node b = (w.node b).setElement i (credit (w.copy i m) (nodeId b))
  others : ∀ x ≠ b, w'.node x = w.node x
  sent : ⟨b, some (net.address m), .ack ⟨nodeId b, elementId i⟩⟩ ∈ w'.sent

theorem Ahead.takes_over (h : Ahead net i m w) (hb : b ≠ m) (hw' : Answered net i m b w w') :
    Converges net (Adopted net i m b w) w' := by
  have hwired := h.gathered.reachable.wired
  obtain ⟨node, hfind⟩ := h.known b m (Ne.symm hb)
  have hadopt : (w'.node b).handle w'.now
      (.receiveData (.sendData ((w.node m).sendDataMessage (elementId i) (w.copy i m)))) =
        .ok (((w.node b).setElement i (credit (w.copy i m) (nodeId b))).sendACK
          (net.address m) (elementId i)) := by
    have hgroup : ((w.node b).setElement i (adopt (w.node b).nodeId
        ((w.node m).sendDataMessage (elementId i) (w.copy i m)))).localGroup.find? (w.node m).nodeId =
          some node := by
      rw [(hwired.node m).nodeId]
      exact hfind
    rw [hw'.node]
    simp only [handle, receiveData, receiveSendData, sendDataMessage, element?_elementId]
    simp only [sendDataMessage] at hgroup
    rw [hgroup]
    simp only [h.gathered.reachable.found hfind]
    rw [← adopt_eq_credit (w.node m) (elementId i), (hwired.node b).nodeId]
    rfl
  have hnear : (((w.node b).setElement i (credit (w.copy i m) (nodeId b))).sendACK (net.address m)
      (elementId i)).nearbyElements = (w'.node b).nearbyElements := by
    rw [hw'.node]
    rfl
  refine hw'.gathered.receive hw'.sent (by simp [Net.reaches]) hadopt hnear fun hgathered =>
    ⟨hgathered, ?_, fun x hx => ?_, ?_⟩
  · rw [World.put_node_self, ← hwired.outbox b]
    rfl
  · rw [World.put_node_ne hx, hw'.node]
  · rw [← (hwired.node b).nodeId]
    exact mem_put_send _ _ _ _ _

/-- The node ahead has counted node `b`, which has its copy. -/
structure Credited (net : Net n) (i : Element) (m b : Fin n) (w w' : World n) : Prop where
  gathered : Gathered net i w'
  leader : w'.node m = (w.node m).setElement i (credit (w.copy i m) (nodeId b))
  partner : w'.node b = (w.node b).setElement i (credit (w.copy i m) (nodeId b))
  others : ∀ x, x ≠ m → x ≠ b → w'.node x = w.node x

theorem Ahead.counts (h : Ahead net i m w) (hb : b ≠ m) (hw' : Adopted net i m b w w') :
    Converges net (Credited net i m b w) w' := by
  have hm : w'.node m = w.node m := hw'.others m (Ne.symm hb)
  have hcredit : (w'.node m).handle w'.now (.receiveData (.ack ⟨nodeId b, elementId i⟩)) =
      .ok ((w.node m).setElement i (credit (w.copy i m) (nodeId b))) := by
    rw [hm]
    simp only [handle, receiveData, receiveACK, element?_elementId]
  refine hw'.gathered.receive hw'.sent (by simp [Net.reaches]) hcredit (by rw [hm]; rfl) fun hgathered =>
    ⟨hgathered, ?_, ?_, fun x hxm hxb => ?_⟩
  · rw [World.put_node_self, ← h.gathered.reachable.wired.outbox m]
    rfl
  · rw [World.put_node_ne hb]
    exact hw'.partner
  · rw [World.put_node_ne hxm]
    exact hw'.others x hxb

/-- What the two nodes hold after an exchange is what the others see of it. -/
theorem Credited.exchanged (hw' : Credited net i m b w w') (h : Ahead net i m w) (hn : 2 * n - 1 ≤ 255)
    (hlt : w.pair i b < w.pair i m) : Exchanged net i m b w w' := by
  have hleader : w'.copy i m = credit (w.copy i m) (nodeId b) := by
    unfold World.copy
    rw [hw'.leader]
    exact Function.update_self _ _ _
  have hpartner : w'.copy i b = w'.copy i m := by
    rw [hleader]
    unfold World.copy
    rw [hw'.partner]
    exact Function.update_self _ _ _
  refine h.exchanged hn hlt hw'.gathered (fun x => ?_) hleader hpartner fun x hxm hxb => ?_
  · by_cases hxm : x = m
    · rw [hxm, hw'.leader]
      rfl
    by_cases hxb : x = b
    · rw [hxb, hw'.partner]
      rfl
    · rw [hw'.others x hxm hxb]
  · unfold World.copy
    rw [hw'.others x hxm hxb]

/-- **Every node can exchange with the node ahead.** -/
theorem Ahead.exchange (h : Ahead net i m w) (hn : 2 * n - 1 ≤ 255) (hb : b ≠ m) :
    Converges net (Exchanged net i m b w) w := by
  rcases lt_or_eq_of_le (h.newest b) with hlt | heq
  · refine (h.ask hb hlt).bind fun w₁ h₁ => ?_
    refine (h₁.ahead.answer hb h₁.sent).bind fun w₂ h₂ => ?_
    refine (h₁.ahead.takes_over hb h₂).bind fun w₃ h₃ => ?_
    refine (h₁.ahead.counts hb h₃).bind fun w₄ h₄ => Lib.leads_here ?_
    have hpair : ∀ x, w₁.pair i x = w.pair i x := fun x => congrArg (fun copy => reading copy.stamp) (h₁.copies x)
    have hexchanged := h₄.exchanged h₁.ahead hn (by rw [hpair, hpair]; exact hlt)
    refine ⟨hexchanged.ahead, ?_, hexchanged.partner, fun x hxm hxb => ?_⟩
    · rw [hexchanged.leader, h₁.copies]
    · rw [hexchanged.others x hxm hxb, h₁.copies]
  · -- it has the same copy already
    have hcopy := h.same b heq
    have hown := ((h.gathered.reachable.rounds hn).copies b i).own
    have hmem : nodeId b ∈ (w.copy i m).agreeingNodes := hcopy ▸ hown
    exact Lib.leads_here ⟨h, (if_pos hmem).symm, hcopy, fun x _ _ => rfl⟩

/-! ## Agreement -/

/-- The nodes with the newest pair hold the same copy. -/
def NewestAgree (w : World n) (i : Element) : Prop :=
  ∀ a b, (∀ c, w.pair i c ≤ w.pair i a) → (∀ c, w.pair i c ≤ w.pair i b) → w.copy i a = w.copy i b

instance (w : World n) (i : Element) : Decidable (NewestAgree w i) := by
  unfold NewestAgree; infer_instance

theorem nodeId_le (net : Net n) (h : a ≤ b) : nodeId a ≤ nodeId b := by
  rw [UInt32.le_iff_toNat_le, nodeId_toNat net.size, nodeId_toNat net.size]
  exact h

/-- Once everybody has heard everybody, the first of the newest nodes is ahead. -/
theorem Informed.ahead {w₀ : World n} (h : Informed net i w₀ Finset.univ w) (hsame : NewestAgree w₀ i)
    (hnewest : ∀ b, w₀.pair i b ≤ w₀.pair i m) (hfirst : ∀ b, w₀.pair i b = w₀.pair i m → m ≤ b) :
    Ahead net i m w := by
  have hcopy : ∀ x, w.copy i x = w₀.copy i x := fun x => congrFun (h.copies x) i
  have hpair : ∀ x, w.pair i x = w₀.pair i x := fun x => by unfold World.pair; rw [hcopy]
  refine ⟨h.gathered, fun a b hb => ?_, fun a x hx => ?_, fun b => ?_, fun b hb => ?_⟩
  · obtain ⟨node, hnode, -⟩ := h.heard (b, a) (Finset.mem_univ _) hb
    exact ⟨node, Lib.SortedMap.find?_eq_some.2 hnode⟩
  · obtain ⟨b, hb, hid, -⟩ := h.gathered.reachable.entry hx
    obtain ⟨node, hnode, hrecord⟩ := h.heard (b, a) (Finset.mem_univ _) hb
    obtain rfl : x = (nodeId b, node) := Lib.SortedMap.key_unique hx hnode hid
    have heq : reading (node.versionRoundNumbers i) = w₀.pair i b := congrArg reading hrecord
    rw [hpair]
    refine ⟨?_, fun htop => nodeId_le net (hfirst b (heq.symm.trans htop))⟩
    rw [heq]
    exact hnewest b
  · rw [hpair, hpair]
    exact hnewest b
  · rw [hpair, hpair] at hb
    rw [hcopy, hcopy]
    exact hsame b m (fun c => hb ▸ hnewest c) hnewest

/-- Of the nodes with the newest pair, there is a first one. -/
theorem exists_newest (w : World n) (i : Element) (a : Fin n) :
    ∃ m, (∀ b, w.pair i b ≤ w.pair i m) ∧ ∀ b, w.pair i b = w.pair i m → m ≤ b := by
  obtain ⟨x, -, hx⟩ := Finset.exists_max_image Finset.univ (w.pair i) ⟨a, Finset.mem_univ a⟩
  have hmem : x ∈ Finset.univ.filter fun b => w.pair i b = w.pair i x := by simp
  obtain ⟨m, hm, hleast⟩ :=
    Finset.exists_min_image (Finset.univ.filter fun b => w.pair i b = w.pair i x) id ⟨x, hmem⟩
  have hpair : w.pair i m = w.pair i x := (Finset.mem_filter.1 hm).2
  refine ⟨m, fun b => ?_, fun b hb => ?_⟩
  · rw [hpair]
    exact hx b (Finset.mem_univ b)
  · exact hleast b (Finset.mem_filter.2 ⟨Finset.mem_univ b, hb.trans hpair⟩)

/-- All nodes hold the same copy of the element, with all of them as its agreeing nodes. -/
structure Agreed (i : Element) (w : World n) : Prop where
  copies : ∀ a b, w.copy i a = w.copy i b
  nodes : ∀ a, (w.copy i a).agreeingNodes = Finset.univ.image (nodeId : Fin n → NodeId)

theorem credit_fineLocation (copy : AgreementInformation) (x : NodeId) :
    (credit copy x).fineLocation = copy.fineLocation := by
  unfold credit
  split
  · rfl
  · rfl

theorem mem_credit_self (copy : AgreementInformation) (x : NodeId) : x ∈ (credit copy x).agreeingNodes := by
  unfold credit
  split
  · assumption
  · exact Finset.mem_insert_self _ _

/-- In a first sweep the node ahead gets to know all others. -/
theorem Ahead.learn (h : Ahead net i m w) (hn : 2 * n - 1 ≤ 255) :
    Converges net (fun w' => Ahead net i m w' ∧ (w'.copy i m).fineLocation = (w.copy i m).fineLocation ∧
      ∀ b : Fin n, nodeId b ∈ (w'.copy i m).agreeingNodes) w := by
  let T : Finset (Fin n) := Finset.univ.erase m
  have hsweep : Converges net (fun w' => Ahead net i m w' ∧
      (w'.copy i m).fineLocation = (w.copy i m).fineLocation ∧
      ∀ b ∈ T, nodeId b ∈ (w'.copy i m).agreeingNodes) w := by
    refine Lib.leads_sweep (P := fun S w' => Ahead net i m w' ∧
      (w'.copy i m).fineLocation = (w.copy i m).fineLocation ∧
        ∀ b ∈ S, nodeId b ∈ (w'.copy i m).agreeingNodes) T ?_ ⟨h, rfl, by simp⟩
    rintro S b w' hb - ⟨h', hlocation, hS⟩
    refine (h'.exchange hn (Finset.ne_of_mem_erase hb)).bind fun w'' hw'' =>
      Lib.leads_here ⟨hw''.ahead, ?_, fun c hc => ?_⟩
    · rw [hw''.leader, credit_fineLocation, hlocation]
    · rw [hw''.leader]
      rcases Finset.mem_insert.1 hc with rfl | hc
      · exact mem_credit_self _ _
      · exact mem_credit (hS c hc)
  refine hsweep.bind fun w' hw' => Lib.leads_here ?_
  obtain ⟨hahead, hlocation, hT⟩ := hw'
  refine ⟨hahead, hlocation, fun b => ?_⟩
  by_cases hb : b = m
  · rw [hb]
    exact ((hahead.gathered.reachable.rounds hn).copies m i).own
  · exact hT b (Finset.mem_erase.2 ⟨hb, Finset.mem_univ b⟩)

/-- Once it knows them all its copy does not change any more, and in a second sweep they all take it over. -/
theorem Ahead.spread (h : Ahead net i m w) (hn : 2 * n - 1 ≤ 255)
    (hall : ∀ b : Fin n, nodeId b ∈ (w.copy i m).agreeingNodes) :
    Converges net (fun w' => Ahead net i m w' ∧ ∀ b, w'.copy i b = w.copy i m) w := by
  let T : Finset (Fin n) := Finset.univ.erase m
  have hsweep : Converges net (fun w' => Ahead net i m w' ∧ w'.copy i m = w.copy i m ∧
      ∀ b ∈ T, w'.copy i b = w.copy i m) w := by
    refine Lib.leads_sweep (P := fun S w' => Ahead net i m w' ∧ w'.copy i m = w.copy i m ∧
      ∀ b ∈ S, w'.copy i b = w.copy i m) T ?_ ⟨h, rfl, by simp⟩
    rintro S b w' hb - ⟨h', hcopy, hS⟩
    have hbm := Finset.ne_of_mem_erase hb
    refine (h'.exchange hn hbm).bind fun w'' hw'' => Lib.leads_here ?_
    have hkept : w''.copy i m = w.copy i m := by
      rw [hw''.leader, hcopy]
      exact if_pos (hall b)
    refine ⟨hw''.ahead, hkept, fun c hc => ?_⟩
    by_cases hcb : c = b
    · rw [hcb, hw''.partner, hkept]
    by_cases hcm : c = m
    · rw [hcm, hkept]
    · rw [hw''.others c hcm hcb]
      exact hS c ((Finset.mem_insert.1 hc).resolve_left hcb)
  refine hsweep.bind fun w' hw' => Lib.leads_here ?_
  obtain ⟨hahead, hcopy, hT⟩ := hw'
  refine ⟨hahead, fun b => ?_⟩
  by_cases hb : b = m
  · rw [hb, hcopy]
  · exact hT b (Finset.mem_erase.2 ⟨hb, Finset.mem_univ b⟩)

/-- **The node ahead brings all others to its copy.** -/
theorem Ahead.agree (h : Ahead net i m w) (hn : 2 * n - 1 ≤ 255) :
    Converges net (fun w' => w'.aborted = false ∧ Agreed i w' ∧
      ∀ a, (w'.copy i a).fineLocation = (w.copy i m).fineLocation) w := by
  refine (h.learn hn).bind fun w₁ h₁ => ?_
  obtain ⟨hahead, hlocation, hall⟩ := h₁
  refine (hahead.spread hn hall).bind fun w₂ h₂ => Lib.leads_here ?_
  obtain ⟨hahead₂, hcopies⟩ := h₂
  refine ⟨hahead₂.gathered.alive, ⟨fun a b => by rw [hcopies a, hcopies b], fun a => ?_⟩,
    fun a => by rw [hcopies a, hlocation]⟩
  rw [hcopies a]
  apply Finset.Subset.antisymm
  · intro x hx
    obtain ⟨b, rfl⟩ := ((hahead.gathered.reachable.rounds hn).copies m i).nodes x hx
    exact Finset.mem_image_of_mem _ (Finset.mem_univ b)
  · intro x hx
    obtain ⟨b, -, rfl⟩ := Finset.mem_image.1 hx
    exact hall b

/-- **Nodes can agree.** In every network small enough for its counters, take any run after which nothing has
been aborted, all nodes are near the element, and those with the newest pair hold the same copy of it. It can be
continued, by advertisements and receptions only, so that all nodes hold the same copy, with the newest location
and with all nodes as agreeing nodes, and nothing is aborted. -/
theorem can_agree (net : Net n) (hn : 2 * n - 1 ≤ 255) (es : List (Event n)) (i : Element)
    (halive : (wAt net es es.length).aborted = false)
    (hnear : ∀ a, i ∈ ((wAt net es es.length).node a).nearbyElements)
    (hsame : NewestAgree (wAt net es es.length) i) :
    ∃ es' : List (Event n), es'.filterMap Event.other = [] ∧
      let w := wAt net es es.length
      let w' := wAt net (es ++ es') (es ++ es').length
      w'.aborted = false ∧ Agreed i w' ∧
        ∀ a b, (∀ c, w.pair i c ≤ w.pair i a) → (w'.copy i b).fineLocation = (w.copy i a).fineLocation := by
  rcases n with - | n
  · exact ⟨[], rfl, by rwa [List.append_nil], ⟨fun a => a.elim0, fun a => a.elim0⟩, fun a => a.elim0⟩
  set w := wAt net es es.length with hw
  obtain ⟨m, hnewest, hfirst⟩ := exists_newest w i 0
  have hgathered : Gathered net i w := ⟨⟨es, rfl⟩, halive, hnear⟩
  have hinformed : Converges net (Informed net i w Finset.univ) w :=
    Lib.leads_sweep (P := fun T => Informed net i w T) Finset.univ (fun T x w' _ _ h => h.hear)
      ⟨hgathered, fun _ => rfl, by simp⟩
  have hagreed : Converges net (fun w' => w'.aborted = false ∧ Agreed i w' ∧
      ∀ a, (w'.copy i a).fineLocation = (w.copy i m).fineLocation) w := by
    refine hinformed.bind fun w₁ h₁ =>
      ((h₁.ahead hsame hnewest hfirst).agree hn).bind fun w₂ h₂ => Lib.leads_here ?_
    obtain ⟨halive₂, hagreed₂, hlocation⟩ := h₂
    refine ⟨halive₂, hagreed₂, fun a => ?_⟩
    rw [hlocation]
    unfold World.copy
    rw [h₁.copies]
  obtain ⟨w', ⟨es', hsilent, hrun⟩, halive', hagreed', hlocation⟩ := hagreed
  have hend : wAt net (es ++ es') (es ++ es').length = w' := by
    rw [← hrun, hw]
    unfold wAt Lib.stateAt
    rw [List.take_length, List.take_length, List.foldl_append]
  refine ⟨es', hsilent, ?_⟩
  simp only [hend]
  refine ⟨halive', hagreed', fun a b ha => ?_⟩
  rw [hlocation, hsame a m ha hnewest]

/-- Three nodes have each started a copy of their own. -/
def apart : List (Event 3) :=
  [.getNearbyElements 0 lastNear, .getNearbyElements 1 lastNear, .getNearbyElements 2 lastNear]

theorem can_agree_apart : ∃ es' : List (Event 3), es'.filterMap Event.other = [] ∧
    let w := wAt trio apart 3
    let w' := wAt trio (apart ++ es') (apart ++ es').length
    w'.aborted = false ∧ Agreed 4 w' ∧
      ∀ a b, (∀ c, w.pair 4 c ≤ w.pair 4 a) → (w'.copy 4 b).fineLocation = (w.copy 4 a).fineLocation :=
  can_agree trio (by decide) apart 4 (by decide) (by decide) (by decide)

end EdgeConsensus.Peer
