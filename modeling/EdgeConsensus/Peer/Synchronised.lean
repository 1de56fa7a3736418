import EdgeConsensus.Peer.Wiring

/-!
# The synchronized sets

The agreeing nodes of a copy are meant to have the copy. An ACK names the element
only, so it may be credited to another copy than the one it acknowledges.

* `synchronised`: in a run where each new node is credited to the location it
  acknowledged, all agreeing nodes have been at the location of the copy.
* `credited_to_another`: an ACK that comes after its receiver has moved on.
-/

namespace EdgeConsensus.Peer

open Finset EdgeAwareClientApplication

variable {n : ℕ} {net : Net n} {es : List (Event n)}

/-- Event `m` sends the packet with index `j`. -/
def Sends (net : Net n) (es : List (Event n)) (m j : ℕ) : Prop :=
  (wAt net es m).sent.length ≤ j ∧ j < (wAt net es (m + 1)).sent.length

instance (net : Net n) (es : List (Event n)) (m j : ℕ) : Decidable (Sends net es m j) :=
  inferInstanceAs (Decidable (_ ∧ _))

/-- An ACK that adds its sender to the agreeing nodes of its receiver. -/
structure NewAck (n : ℕ) where
  receiver : Fin n
  sender : Fin n
  elem : Element
  index : ℕ

/-- The ACK that the event hands to a node, if its sender is new there. -/
def World.newAck (net : Net n) (w : World n) (ev : Event n) : Option (NewAck n) :=
  match ev with
  | .receiveData a j =>
    if w.aborted then none
    else
      match w.received net a j with
      | some ⟨b, _, .ack info⟩ => do
        let i ← element? info.elementId
        if info.senderId ∈ ((w.node a).agreementInformation i).agreeingNodes then none
        else some ⟨a, b, i, j⟩
      | _ => none
  | _ => none

/-- Event `k` credits a new node only to the location that it held when it had sent the
acknowledgement. -/
def CreditsCurrent (net : Net n) (es : List (Event n)) (k : ℕ) (hk : k < es.length) : Prop :=
  ∀ c ∈ (wAt net es k).newAck net es[k], ∃ m < k, Sends net es m c.index ∧
    (copyAt net es (m + 1) c.sender c.elem).fineLocation =
      (copyAt net es k c.receiver c.elem).fineLocation

instance (net : Net n) (es : List (Event n)) (k : ℕ) (hk : k < es.length) :
    Decidable (CreditsCurrent net es k hk) :=
  inferInstanceAs (Decidable (∀ _ ∈ _, _))

/-- Node `x` has been at the location by the time `k`. -/
def HasHeld (net : Net n) (es : List (Event n)) (k : ℕ) (i : Element) (x : NodeId)
    (location : Location) : Prop :=
  ∃ b : Fin n, x = nodeId b ∧ ∃ q ≤ k, (copyAt net es q b i).fineLocation = location

instance (net : Net n) (es : List (Event n)) (k : ℕ) (i : Element) (x : NodeId) (location : Location) :
    Decidable (HasHeld net es k i x location) :=
  inferInstanceAs (Decidable (∃ _, _ ∧ ∃ _ ≤ _, _))

/-- All agreeing nodes have been at the location of the copy. -/
def Synchronised (net : Net n) (es : List (Event n)) (k : ℕ) : Prop :=
  ∀ a i, ∀ x ∈ (copyAt net es k a i).agreeingNodes,
    HasHeld net es k i x (copyAt net es k a i).fineLocation

theorem HasHeld.mono {k l : ℕ} (hkl : k ≤ l) {i : Element} {x : NodeId} {location : Location}
    (h : HasHeld net es k i x location) : HasHeld net es l i x location := by
  obtain ⟨b, hb, q, hq, hloc⟩ := h
  exact ⟨b, hb, q, hq.trans hkl, hloc⟩

/-- A SEND_DATA message carries the copy of the node that sends it. -/
theorem EdgeAwareClientApplication.Reacts.sendData {now : ℕ} {input : Input}
    {s s' : EdgeAwareClientApplication} (h : Reacts now input s s') (hout : s.outbox = [])
    {o : Option UInt32 × Packet} (ho : o ∈ s'.outbox) {info : SendDataMessage}
    (hinfo : o.2 = .sendData info) :
    ∃ e i, element? e = some i ∧ info = s.sendDataMessage e (s.agreementInformation i) := by
  -- requests for data are no data
  have hrequests : ∀ {u v : EdgeAwareClientApplication}, Requests u v → u.outbox = [] →
      o ∈ v.outbox → False := by
    intro u v huv hu ho
    obtain ⟨out, hv, hall⟩ := huv.outbox
    rw [hv, hu, List.nil_append] at ho
    obtain ⟨e, i, x, node, t, -, -, -, rfl⟩ := hall o ho
    cases hinfo
  cases h with
  | reject => rw [hout] at ho; cases ho
  | refuse => rw [hout] at ho; cases ho
  | advertise =>
    rw [sendAdvertisement, send, hout, List.nil_append, List.mem_singleton] at ho
    rw [ho] at hinfo
    cases hinfo
  | agree begins => exact (hrequests begins.requests hout ho).elim
  | prune =>
    rw [checkHeartbeats, hout] at ho
    cases ho
  | learn advertised requests kept => exact (hrequests requests hout ho).elim
  | @reply s info' node i found elem =>
    rw [send, hout, List.nil_append, List.mem_singleton] at ho
    rw [ho] at hinfo
    injection hinfo with hinfo
    exact ⟨info'.elementId, i, elem, hinfo.symm⟩
  | adopt elem acks =>
    simp only [hout, List.nil_append] at ho
    obtain ⟨node, -, rfl⟩ := acks o ho
    cases hinfo
  | credit elem =>
    simp only [setElement, hout] at ho
    cases ho

/-- The invariant: copies, and copies in flight. -/
structure Sound (net : Net n) (es : List (Event n)) (k : ℕ) : Prop where
  copies : Synchronised net es k
  packets : ∀ p ∈ (wAt net es k).sent, ∀ info i, p.packet = .sendData info →
    element? info.elementId = some i → ∀ x ∈ info.syncGroup, HasHeld net es k i x info.location

theorem sound_zero (net : Net n) (es : List (Event n)) : Sound net es 0 where
  copies := by
    intro a i x hx
    rw [copyAt, wAt, Lib.stateAt_zero] at hx
    obtain rfl := mem_singleton.1 hx
    exact ⟨a, rfl, 0, le_rfl, rfl⟩
  packets := by
    intro p hp
    rw [wAt, Lib.stateAt_zero] at hp
    cases hp

/-- The new ACK of an event, from what the event makes a node do. -/
theorem newAck_of_input {w : World n} (hw : w.Wired net) {ev : Event n} {a : Fin n} {info : AckMessage}
    {i : Element} (hinput : w.input net ev = some (a, .receiveData (.ack info)))
    (helem : element? info.elementId = some i)
    (hnew : info.senderId ∉ ((w.node a).agreementInformation i).agreeingNodes) :
    ∃ c ∈ w.newAck net ev, c.receiver = a ∧ c.elem = i ∧ info.senderId = nodeId c.sender := by
  unfold World.input at hinput
  split at hinput
  · cases hinput
  rename_i habort
  cases ev with
  | receiveData b j =>
    simp only [Option.map_eq_some_iff] at hinput
    obtain ⟨p, hp, heq⟩ := hinput
    obtain ⟨rfl, hpacket⟩ := Prod.mk.inj heq
    injection hpacket with hpacket
    have hsource := (hw.packets p (List.mem_of_getElem? (World.received_eq_some hp).1)).senderId
    obtain ⟨source, dest, packet⟩ := p
    simp only at hpacket
    subst hpacket
    refine ⟨⟨b, source, i, j⟩, ?_, rfl, rfl, hsource⟩
    simp [World.newAck, habort, hp, helem, hnew]
  | advance => cases hinput
  | sendAdvertisement => cases hinput
  | getNearbyElements => cases hinput
  | checkHeartbeats => cases hinput

/-- What a step makes of the copies. -/
theorem Sound.copies_succ {k : ℕ} (h : Sound net es k) (hk : k < es.length)
    (hcredit : CreditsCurrent net es k hk) : Synchronised net es (k + 1) := by
  intro a i x hx
  have hw := wired_wAt net es k
  have hnext : copyAt net es (k + 1) a i = (wAt net es k).nextCopy net es[k] a i := by
    rw [copyAt, wAt_succ net es hk, hw.nextCopy]
  have hold : x ∈ (copyAt net es k a i).agreeingNodes →
      HasHeld net es (k + 1) i x (copyAt net es k a i).fineLocation := fun hx =>
    (h.copies a i x hx).mono (Nat.le_succ k)
  have hself : HasHeld net es (k + 1) i (nodeId a) (copyAt net es (k + 1) a i).fineLocation :=
    ⟨a, rfl, k + 1, le_rfl, rfl⟩
  rw [hnext] at hx hself ⊢
  rcases World.nextCopy_changes net (wAt net es k) es[k] a i with hsame | ⟨input, hinput, hchange⟩
  · rw [hsame] at hx ⊢
    exact hold hx
  generalize (wAt net es k).nextCopy net es[k] a i = c at hx hself hchange ⊢
  cases hchange with
  | keep => exact hold hx
  | start => exact hold hx
  | @adopt info elem =>
    -- the node is at the location now; the others have been before the copy was sent
    rcases mem_insert.1 hx with rfl | hx
    · rw [(hw.node a).nodeId]
      rwa [(hw.node a).nodeId] at hself
    · obtain ⟨p, hp, hpacket, -⟩ := World.input_packet hinput
      exact (h.packets p hp info i hpacket elem x hx).mono (Nat.le_succ k)
  | @credit info elem new =>
    rw [credit, if_neg new] at hx ⊢
    rcases mem_insert.1 hx with rfl | hx
    · obtain ⟨c, hc, rfl, rfl, hsender⟩ := newAck_of_input hw hinput elem new
      obtain ⟨m, hm, -, hheld⟩ := hcredit c hc
      exact ⟨c.sender, hsender, m + 1, by omega, hheld⟩
    · exact hold hx

/-- What a step makes of the copies in flight. -/
theorem Sound.packets_succ {k : ℕ} (h : Sound net es k) (hk : k < es.length) :
    ∀ p ∈ (wAt net es (k + 1)).sent, ∀ info i, p.packet = .sendData info →
      element? info.elementId = some i → ∀ x ∈ info.syncGroup,
        HasHeld net es (k + 1) i x info.location := by
  intro p hp info i hpacket helem x hx
  have hold : p ∈ (wAt net es k).sent → HasHeld net es (k + 1) i x info.location := fun hp =>
    (h.packets p hp info i hpacket helem x hx).mono (Nat.le_succ k)
  rw [wAt_succ net es hk] at hp
  rcases World.step_reacts net (wAt net es k) es[k] with
    ⟨-, -, hsent⟩ | ⟨b, input, s, -, hreacts, -, hsent⟩
  · rw [hsent] at hp
    exact hold hp
  · rw [hsent] at hp
    rcases World.mem_put_sent.1 hp with hp | ⟨o, ho, rfl⟩
    · exact hold hp
    · obtain ⟨e, j, he, rfl⟩ := hreacts.sendData ((wired_wAt net es k).outbox b) ho hpacket
      obtain rfl : j = i := Option.some.inj (he.symm.trans helem)
      exact (h.copies b j x hx).mono (Nat.le_succ k)

/-- **Agreeing nodes have been at the location of the copy** in a run where each new node
is credited to the location that it acknowledged. -/
theorem synchronised (net : Net n) (es : List (Event n))
    (hcredit : ∀ k (hk : k < es.length), CreditsCurrent net es k hk) (k : ℕ) :
    Synchronised net es k := by
  have hsound : ∀ k, Sound net es k := by
    intro k
    induction k with
    | zero => exact sound_zero net es
    | succ k ih =>
      by_cases hk : k < es.length
      · exact ⟨ih.copies_succ hk (hcredit k hk), ih.packets_succ hk⟩
      · have hend : wAt net es (k + 1) = wAt net es k := Lib.stateAt_end (not_lt.1 hk)
        constructor
        · intro a i x hx
          rw [copyAt, hend] at hx ⊢
          exact (ih.copies a i x hx).mono (Nat.le_succ k)
        · rw [hend]
          intro p hp info i hpacket helem x hx
          exact (ih.packets p hp info i hpacket helem x hx).mono (Nat.le_succ k)
  exact (hsound k).copies

/-- Node 1 takes over the copy of node 0, which credits it. -/
def acknowledged : List (Event 2) :=
  [.getNearbyElements 0 lastNear, .sendAdvertisement 0, .receiveData 1 0,
    .getNearbyElements 1 lastNear, .sendAdvertisement 1, .receiveData 0 2, .receiveData 0 1,
    .receiveData 1 3, .receiveData 0 4]

set_option maxRecDepth 10000 in
theorem synchronised_acknowledged : Synchronised duo acknowledged 9 :=
  synchronised duo acknowledged (by decide) 9

/-- Node 2 takes over the copy of node 0; node 0 takes over that of node 1, and then
receives the acknowledgement of node 2. -/
def movedOn : List (Event 3) :=
  [.getNearbyElements 0 lastNear, .sendAdvertisement 0, .receiveData 2 0,
    .getNearbyElements 2 lastNear, .sendAdvertisement 2, .receiveData 0 2, .receiveData 0 1,
    .receiveData 2 3, .getNearbyElements 1 lastNear, .sendAdvertisement 1, .receiveData 0 5,
    .receiveData 1 0, .receiveData 1 6, .receiveData 0 7, .receiveData 0 4]

set_option maxRecDepth 10000 in
/-- **Credited to another copy**: node 0 has the location of node 1, which node 2 has
never had. -/
theorem credited_to_another : ¬ ∀ k, Synchronised trio movedOn k :=
  fun h => absurd (h 15 0 4 2 (by decide)) (by decide)

end EdgeConsensus.Peer
