import EdgeConsensus.Peer.Spec

/-!
# Ids, addresses and element ids

What holds in every run, whatever is lost, delayed or repeated: a packet carries the
id of its source and element ids that all vectors have, an advertisement lists no
element twice, and the local groups hold nodes of the network under their own
addresses (`wired_wAt`). So a step is known by what it makes of the copies
(`World.Wired.nextCopy`).
-/

namespace EdgeConsensus.Peer

open EdgeAwareClientApplication

variable {n : ℕ}

theorem nodeId_toNat {a : Fin n} (h : n ≤ 2 ^ 32) : (nodeId a).toNat = a := by
  unfold nodeId
  rw [UInt32.toNat_ofNat', Nat.mod_eq_of_lt]
  exact lt_of_lt_of_le a.isLt h

theorem nodeId_inj (h : n ≤ 2 ^ 32) {a b : Fin n} (hab : nodeId a = nodeId b) : a = b := by
  have hnat := congrArg UInt32.toNat hab
  rw [nodeId_toNat h, nodeId_toNat h] at hnat
  exact Fin.ext hnat

structure PacketWired (net : Net n) (p : Sent n) : Prop where
  senderId : p.packet.senderId = nodeId p.source
  elements : ∀ e ∈ p.packet.elementIds, (element? e).isSome
  distinct : p.packet.elementIds.Nodup
  address : ∀ info, p.packet = .advert info → info.ipv4Address = net.address p.source

/-- A packet that is not an advertisement. -/
theorem packetWired_unicast {net : Net n} {b : Fin n} {dest : Option UInt32} {x : Packet}
    {e : ElementId} {i : Element} (hid : x.senderId = nodeId b) (hx : x.elementIds = [e])
    (he : element? e = some i) (hadvert : ∀ info, x ≠ .advert info) : PacketWired net ⟨b, dest, x⟩ where
  senderId := hid
  elements := by
    intro e' he'
    rw [show x.elementIds = [e] from hx, List.mem_singleton] at he'
    rw [he', he]
    rfl
  distinct := by
    rw [show x.elementIds = [e] from hx]
    exact List.nodup_singleton e
  address := fun info hinfo => absurd hinfo (hadvert info)

/-- An entry of a local group: a node under its own address. -/
def EntryWired (net : Net n) (x : NodeId × NodeEntry) : Prop :=
  ∃ c, x.1 = nodeId c ∧ x.2.address = net.address c

/-- The state `s` that node `b` has reached, with what it is about to send. -/
structure NodeWired (net : Net n) (b : Fin n) (s : EdgeAwareClientApplication) : Prop where
  nodeId : s.nodeId = Peer.nodeId b
  address : s.address = net.address b
  group : ∀ x ∈ s.localGroup.entries, EntryWired net x
  packets : ∀ o ∈ s.outbox, PacketWired net ⟨b, o.1, o.2⟩

variable {net : Net n} {b : Fin n} {s s' : EdgeAwareClientApplication}

theorem NodeWired.requests (h : NodeWired net b s) (hs : Requests s s') : NodeWired net b s' where
  nodeId := hs.nodeId.trans h.nodeId
  address := hs.address.trans h.address
  group := by rw [hs.localGroup]; exact h.group
  packets := by
    intro o ho
    obtain ⟨out, hout, hall⟩ := hs.outbox
    rw [hout] at ho
    rcases List.mem_append.1 ho with ho | ho
    · exact h.packets o ho
    · obtain ⟨e, i, x, node, t, he, -, -, rfl⟩ := hall o ho
      exact packetWired_unicast h.nodeId rfl he (by simp)

theorem advertisement_elementIds (s : EdgeAwareClientApplication) :
    (Packet.advert s.advertisement).elementIds =
      ((List.finRange numElements).filter (· ∈ s.nearbyElements)).map elementId := by
  simp [Packet.elementIds, advertisement]

/-- **Handlers keep the wiring**, on a packet that has it. -/
theorem NodeWired.reacts {now : ℕ} {input : Input} (h : NodeWired net b s)
    (hinput : ∀ x, input = .receiveData x → ∃ p : Sent n, p.packet = x ∧ PacketWired net p)
    (hs : Reacts now input s s') : NodeWired net b s' := by
  -- one packet more in the outbox
  have hsend : ∀ {x : Packet} {dest : Option UInt32}, PacketWired net ⟨b, dest, x⟩ →
      ∀ o ∈ s.outbox ++ [(dest, x)], PacketWired net ⟨b, o.1, o.2⟩ := by
    intro x dest hx o ho
    rcases List.mem_append.1 ho with ho | ho
    · exact h.packets o ho
    · rw [List.mem_singleton.1 ho]
      exact hx
  cases hs with
  | reject => exact h
  | refuse => exact h
  | advertise =>
    refine ⟨h.nodeId, h.address, h.group, hsend ⟨h.nodeId, ?_, ?_, ?_⟩⟩
    · rw [advertisement_elementIds]
      intro e he
      obtain ⟨i, -, rfl⟩ := List.mem_map.1 he
      rw [element?_elementId]
      rfl
    · rw [advertisement_elementIds]
      exact ((List.nodup_finRange _).filter _).map elementId_injective
    · rintro info hinfo
      injection hinfo with hinfo
      rw [← hinfo]
      exact h.address
  | agree begins => exact h.requests begins.requests
  | prune =>
    exact ⟨h.nodeId, h.address, fun x hx => h.group x (List.mem_of_mem_filter hx), h.packets⟩
  | @learn s s' info pairs _ requests _ =>
    -- the new entry has the id and the address of the packet's source
    have hlearned : NodeWired net b { s with
        localGroup := s.localGroup.assign info.senderId ⟨info.ipv4Address, now, pairs⟩ } := by
      refine ⟨h.nodeId, h.address, fun x hx => ?_, h.packets⟩
      rcases Lib.SortedMap.mem_assign.1 hx with rfl | ⟨hx, -⟩
      · obtain ⟨p, hp, hwired⟩ := hinput _ rfl
        have hid := hwired.senderId
        rw [hp] at hid
        exact ⟨p.source, hid, hwired.address info hp⟩
      · exact h.group x hx
    exact hlearned.requests requests
  | reply found elem =>
    exact ⟨h.nodeId, h.address, h.group, hsend (packetWired_unicast h.nodeId rfl elem (by simp))⟩
  | adopt elem acks =>
    refine ⟨h.nodeId, h.address, h.group, fun o ho => ?_⟩
    rcases List.mem_append.1 ho with ho | ho
    · exact h.packets o ho
    · obtain ⟨node, -, rfl⟩ := acks o ho
      exact packetWired_unicast h.nodeId rfl elem (by simp)
  | credit elem => exact ⟨h.nodeId, h.address, h.group, h.packets⟩

namespace World

variable {w w' : World n}

structure Wired (net : Net n) (w : World n) : Prop where
  node : ∀ a, NodeWired net a (w.node a)
  outbox : ∀ a, (w.node a).outbox = []
  packets : ∀ p ∈ w.sent, PacketWired net p

theorem Wired.input (h : w.Wired net) {ev : Event n} {input : Input}
    (hinput : w.input net ev = some (b, input)) (x : Packet) (hx : input = .receiveData x) :
    ∃ p : Sent n, p.packet = x ∧ PacketWired net p := by
  rw [hx] at hinput
  obtain ⟨p, hp, hpx, -⟩ := input_packet hinput
  exact ⟨p, hpx, h.packets p hp⟩

theorem Wired.put (h : w.Wired net) (hs : NodeWired net b s) : (w.put b s).Wired net where
  node := by
    intro a
    by_cases hab : a = b
    · subst hab
      rw [put_node_self]
      exact ⟨hs.nodeId, hs.address, hs.group, by simp⟩
    · rw [put_node_ne hab]
      exact h.node a
  outbox := by
    intro a
    by_cases hab : a = b
    · subst hab
      rw [put_node_self]
    · rw [put_node_ne hab]
      exact h.outbox a
  packets := by
    intro p hp
    rcases mem_put_sent.1 hp with hp | ⟨o, ho, rfl⟩
    · exact h.packets p hp
    · exact hs.packets o ho

theorem Wired.congr (h : w.Wired net) (hnode : w'.node = w.node) (hsent : w'.sent = w.sent) :
    w'.Wired net :=
  ⟨by rw [hnode]; exact h.node, by rw [hnode]; exact h.outbox, by rw [hsent]; exact h.packets⟩

theorem Wired.step (h : w.Wired net) (ev : Event n) : (w.step net ev).Wired net := by
  rcases step_reacts net w ev with ⟨-, hnode, hsent⟩ | ⟨b, input, s, hinput, hreacts, hnode, hsent⟩
  · exact h.congr hnode hsent
  · have hs := (h.node b).reacts (h.input hinput) hreacts
    exact (h.put hs).congr hnode hsent

theorem Wired.formed (h : w.Wired net) {ev : Event n} {input : Input}
    (hinput : w.input net ev = some (b, input)) (x : Packet) (hx : input = .receiveData x) :
    x.elementIds.Nodup ∧ ∀ e ∈ x.elementIds, (element? e).isSome := by
  obtain ⟨p, rfl, hp⟩ := h.input hinput x hx
  exact ⟨hp.distinct, hp.elements⟩

/-- The copy of an element at a node after the event. -/
def nextCopy (net : Net n) (w : World n) (ev : Event n) (a : Fin n) (i : Element) :
    AgreementInformation :=
  match w.input net ev with
  | some (b, input) =>
    if a = b then (w.node a).nextCopy i input else (w.node a).agreementInformation i
  | none => (w.node a).agreementInformation i

/-- **The copies after a step.** -/
theorem Wired.nextCopy (h : w.Wired net) (ev : Event n) (a : Fin n) (i : Element) :
    ((w.step net ev).node a).agreementInformation i = w.nextCopy net ev a i := by
  unfold World.nextCopy
  rcases step_reacts net w ev with ⟨hinput, hnode, -⟩ | ⟨b, input, s, hinput, hreacts, hnode, -⟩
  · rw [hinput, hnode]
  · rw [hinput, hnode]
    by_cases hab : a = b
    · subst hab
      simp only [put_node_self, if_pos]
      exact hreacts.nextCopy (h.formed hinput) i
    · simp only [put_node_ne hab, if_neg hab]

theorem nextCopy_changes (net : Net n) (w : World n) (ev : Event n) (a : Fin n) (i : Element) :
    w.nextCopy net ev a i = (w.node a).agreementInformation i ∨
    ∃ input, w.input net ev = some (a, input) ∧
      Changes (w.node a) i input (w.nextCopy net ev a i) := by
  unfold World.nextCopy
  cases hinput : w.input net ev with
  | none => exact Or.inl rfl
  | some bi =>
    obtain ⟨b, input⟩ := bi
    by_cases hab : a = b
    · subst hab
      simp only [if_true]
      exact Or.inr ⟨input, rfl, EdgeAwareClientApplication.nextCopy_changes _ i input⟩
    · simp only [if_neg hab]
      exact Or.inl trivial

theorem wired_init (net : Net n) : (World.init net).Wired net where
  node := fun _ => ⟨rfl, rfl, (by rintro x ⟨⟩), (by rintro o ⟨⟩)⟩
  outbox := fun _ => rfl
  packets := fun _ hp => by cases hp

end World

/-- **Every run is wired.** -/
theorem wired_wAt (net : Net n) (es : List (Event n)) (k : ℕ) : (wAt net es k).Wired net :=
  Lib.stateAt_invariant (World.wired_init net) (fun _ _ h => h.step _) k

end EdgeConsensus.Peer
