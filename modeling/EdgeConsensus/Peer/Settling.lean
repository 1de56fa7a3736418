import EdgeConsensus.Lib.Counting
import EdgeConsensus.Peer.Stamps
import EdgeConsensus.Peer.Views
import Mathlib.Algebra.Order.BigOperators.Group.Finset

/-!
# Gossip settles

The pair of a copy cannot grow for ever: versions stay 0, and a round stays below twice the number of
nodes. So where pairs do not go back, a node's copy comes to a new pair a bounded number of times, however
long the run. An exchange is complete if everybody hears everybody, and what is asked for then is sent and
received. It leaves nobody behind what anybody had at its beginning, so one in which nothing changes finds
all nodes with the same pair.

* `rounds_settle`: the changes of a round over a whole run; `pairs_settle`: those of a pair.
* `Exchange.catches_up`: what a complete exchange does.
* `exchanges_settle`: all but so many complete exchanges find all nodes with the same pair.
-/

namespace EdgeConsensus.Peer

open EdgeAwareClientApplication
open scoped Finset

variable {n : ℕ} {net : Net n} {es : List (Event n)} {i : Element}

/-! ## Up-to-date messages -/

/-- The test whether the event hands over nothing that falls behind. -/
def World.isUpToDate (net : Net n) (w : World n) (ev : Event n) : Bool :=
  match w.input net ev with
  | some (b, .receiveData (.sendData info)) => decide (∀ i, element? info.elementId = some i →
    reading ((w.node b).agreementInformation i).stamp ≤ info.taken (w.node b).nodeId)
  | _ => true

/-- Only a SEND_DATA message can fall behind. -/
theorem World.isUpToDate_iff {w : World n} {ev : Event n} : w.isUpToDate net ev = true ↔ w.UpToDate net ev := by
  unfold World.isUpToDate
  constructor
  · intro h b i info hinput hi
    rw [hinput] at h
    exact of_decide_eq_true h i hi
  · intro h
    split
    · rename_i b info hinput
      exact decide_eq_true fun i hi => h b i info hinput hi
    · rfl

instance (w : World n) (ev : Event n) : Decidable (w.UpToDate net ev) := decidable_of_iff _ World.isUpToDate_iff

/-! ## Pairs -/

/-- Where messages are up to date, pairs do not go back. -/
theorem pair_mono (hn : 2 * n - 1 ≤ 255) (hup : ∀ k (hk : k < es.length), (wAt net es k).UpToDate net es[k])
    (a : Fin n) (i : Element) {j k : ℕ} (hjk : j ≤ k) :
    reading (copyAt net es j a i).stamp ≤ reading (copyAt net es k a i).stamp := by
  have hcounts := counts_of_small net es hn
  induction k, hjk using Nat.le_induction with
  | base => exact le_rfl
  | succ k _ ih =>
    refine ih.trans ?_
    rcases wAt_succ_cases net es k with ⟨hk, heq⟩ | heq
    · rw [copyAt, copyAt, heq]
      exact ((wired_wAt net es k).stamp_le es[k] (hcounts k hk)).2 (hup k hk) a i
    · rw [copyAt, copyAt, heq]

/-- Versions stay 0, so a pair is as new as its round. -/
theorem reading_le_iff (hn : 2 * n - 1 ≤ 255) {j k : ℕ} {a b : Fin n} :
    reading (copyAt net es j a i).stamp ≤ reading (copyAt net es k b i).stamp ↔
      (copyAt net es j a i).roundNumber.toNat ≤ (copyAt net es k b i).roundNumber.toNat := by
  have hcounts := counts_of_small net es hn
  have hversion := ((rounds_wAt net es hcounts j).copies a i).version
  have hversion' := ((rounds_wAt net es hcounts k).copies b i).version
  rw [reading_le]
  simp only [AgreementInformation.stamp, hversion, hversion', lt_irrefl, true_and, false_or]

theorem stamp_eq_iff (hn : 2 * n - 1 ≤ 255) {j k : ℕ} {a b : Fin n} :
    (copyAt net es j a i).stamp = (copyAt net es k b i).stamp ↔
      (copyAt net es j a i).roundNumber.toNat = (copyAt net es k b i).roundNumber.toNat := by
  have hcounts := counts_of_small net es hn
  have hversion := ((rounds_wAt net es hcounts j).copies a i).version
  have hversion' := ((rounds_wAt net es hcounts k).copies b i).version
  rw [AgreementInformation.stamp, AgreementInformation.stamp, hversion, hversion', Prod.mk.injEq, UInt8.toNat_inj]
  simp only [true_and]

/-- A round changes at most twice as often as there are nodes, less one. -/
theorem rounds_settle (hn : 2 * n - 1 ≤ 255) (hup : ∀ k (hk : k < es.length), (wAt net es k).UpToDate net es[k])
    (a : Fin n) (i : Element) (m : ℕ) :
    #{k ∈ Finset.range m | (copyAt net es k a i).roundNumber.toNat ≠
      (copyAt net es (k + 1) a i).roundNumber.toNat} ≤ 2 * n - 1 := by
  have hcounts := counts_of_small net es hn
  have hround : (copyAt net es m a i).roundNumber.toNat ≤ 2 * n - 1 :=
    ((rounds_wAt net es hcounts m).copies a i).round_le
  have hchanges := Lib.card_changes_le (f := fun k => (copyAt net es k a i).roundNumber.toNat)
    (fun k => (reading_le_iff hn).1 (pair_mono hn hup a i (Nat.le_succ k))) m
  omega

/-- **Gossip settles**: in every run of a network small enough for its counters, in which every SEND_DATA message
is up to date when it is handled, the pair that a node has for an element changes at most twice as often as there
are nodes, less one, however long the run and whatever is lost or repeated. -/
theorem pairs_settle (net : Net n) (es : List (Event n)) (hn : 2 * n - 1 ≤ 255)
    (hup : ∀ k (hk : k < es.length), (wAt net es k).UpToDate net es[k]) (a : Fin n) (i : Element) :
    #{k ∈ Finset.range es.length | (copyAt net es k a i).stamp ≠ (copyAt net es (k + 1) a i).stamp} ≤
      2 * n - 1 := by
  rw [Finset.filter_congr fun k _ => not_congr (stamp_eq_iff hn)]
  exact rounds_settle hn hup a i es.length

/-- Node 1 asks node 0 for the element and takes over its copy at once. -/
def overtakes : List (Event 3) := overtaken.take 8 ++ [.receiveData 1 3]

set_option maxRecDepth 10000 in
theorem pairs_settle_overtakes :
    #{k ∈ Finset.range 9 | (copyAt trio overtakes k 1 4).stamp ≠ (copyAt trio overtakes (k + 1) 1 4).stamp} ≤ 5 :=
  pairs_settle trio overtakes (by decide) (by decide +kernel) 1 4

/-! ## Steps of an exchange -/

namespace World

variable {w : World n} {ev : Event n} {b c : Fin n} {input : Input}

theorem sent_grows_step (net : Net n) (w : World n) (ev : Event n) : w.sent <+: (w.step net ev).sent := by
  rcases step_reacts net w ev with ⟨-, -, hsent⟩ | ⟨b, input, s, -, -, -, hsent⟩
  · rw [hsent]
  · rw [hsent]
    exact List.prefix_append _ _

theorem alive_of_step (h : (w.step net ev).aborted = false) : w.aborted = false := by
  by_contra habort
  have habort' := Bool.eq_true_of_not_eq_false habort
  unfold step at h
  rw [if_pos habort', habort'] at h
  cases h

/-- Where nothing is aborted, the handler has ended. -/
theorem step_alive (hinput : w.input net ev = some (b, input)) (halive : (w.step net ev).aborted = false) :
    ∃ s, (w.node b).handle w.now input = .ok s ∧ w.step net ev = w.put b s := by
  cases hs : (w.node b).handle w.now input with
  | ok s => exact ⟨s, rfl, step_ok hinput hs⟩
  | error s =>
    unfold step at halive
    rw [if_neg (by rw [not_aborted_of_input hinput]; exact Bool.false_ne_true), hinput] at halive
    simp only [hs] at halive
    cases halive

/-- **A node that is asked** sends its copy to the node that asks. -/
theorem step_request (hw : w.Wired net) (halive : (w.step net ev).aborted = false)
    (hinput : w.input net ev = some (c, .receiveData (.requestData ⟨nodeId b, elementId i⟩))) :
    (w.step net ev).sent = w.sent ++ [⟨c, some (net.address b),
      .sendData ((w.node c).sendDataMessage (elementId i) ((w.node c).agreementInformation i))⟩] := by
  obtain ⟨s, hs, hstep⟩ := step_alive hinput halive
  have hreply : (w.node c).receiveRequestData ⟨nodeId b, elementId i⟩ = .ok s := hs
  unfold receiveRequestData at hreply
  cases hfind : (w.node c).localGroup.find? (nodeId b) with
  | none =>
    simp only [hfind] at hreply
    cases hreply
  | some node =>
    simp only [hfind, sendData, element?_elementId] at hreply
    obtain rfl := Except.ok.inj hreply
    -- the entry that is found is that of the node that asks
    obtain ⟨d, hid, haddress⟩ := (hw.node c).group _ (Lib.SortedMap.find?_eq_some.1 hfind)
    obtain rfl := nodeId_inj net.size hid
    have haddress' : node.address = net.address b := haddress
    rw [hstep, put]
    simp only [send, hw.outbox c, List.nil_append, List.map_cons, List.map_nil, haddress']

/-- **A node that takes over a copy** is not behind it. -/
theorem step_sendData {info : SendDataMessage} (hw : w.Wired net) (hcount : w.countedRound net ev b i < 256)
    (hinput : w.input net ev = some (b, .receiveData (.sendData info))) (hi : element? info.elementId = some i) :
    reading (info.version, info.round) ≤ reading (((w.step net ev).node b).agreementInformation i).stamp := by
  rw [hw.nextCopy]
  simp only [World.countedRound, hinput, if_pos] at hcount
  simp only [World.nextCopy, hinput, if_pos]
  rw [reading_adopted hi hcount]
  refine Prod.Lex.le_iff.2 (Or.inr ⟨rfl, ?_⟩)
  exact Nat.le_add_right _ _

end World

/-! ## Complete exchanges -/

theorem sent_grows {j k : ℕ} (hjk : j ≤ k) : (wAt net es j).sent <+: (wAt net es k).sent :=
  Lib.stateAt_mono (R := fun v w : World n => v.sent <+: w.sent) (fun _ => List.prefix_rfl)
    (fun _ _ _ => List.IsPrefix.trans) (fun _ _ => World.sent_grows_step net _ _) hjk

theorem sent_same {j k q : ℕ} (hjk : j ≤ k) (hq : q < (wAt net es j).sent.length) :
    (wAt net es k).sent[q]? = (wAt net es j).sent[q]? := by
  obtain ⟨new, hnew⟩ : (wAt net es j).sent <+: (wAt net es k).sent := sent_grows hjk
  rw [← hnew, List.getElem?_append_left hq]

theorem alive_before {j k : ℕ} (hjk : j ≤ k) (halive : (wAt net es k).aborted = false) :
    (wAt net es j).aborted = false :=
  Lib.stateAt_mono (R := fun v w : World n => w.aborted = false → v.aborted = false) (fun _ h => h)
    (fun _ _ _ h h' hu => h (h' hu)) (fun _ _ => World.alive_of_step) hjk halive

/-- Packet `q` comes to node `b` in step `h`, after it was sent. -/
def Arrives (net : Net n) (es : List (Event n)) (q : ℕ) (b : Fin n) (h : ℕ) : Prop :=
  es[h]? = some (.receiveData b q) ∧ q < (wAt net es h).sent.length

/-- The packet asks for the element, or sends it. -/
def Packet.exchanges (i : Element) : Packet → Bool
  | .requestData info => element? info.elementId = some i
  | .sendData info => element? info.elementId = some i
  | _ => false

/-- The steps from `k` on and before `m` are a complete exchange about the element: every node hears an
advertisement of every other one which is sent in them, with both near the element; what is sent in them to ask
for it, or to send it, arrives in them; and nothing is aborted. -/
structure Exchange (net : Net n) (es : List (Event n)) (i : Element) (k m : ℕ) : Prop where
  alive : (wAt net es m).aborted = false
  adverts : ∀ a b, a ≠ b → ∃ j < m, k ≤ j ∧ es[j]? = some (.sendAdvertisement a) ∧
    i ∈ ((wAt net es j).node a).nearbyElements ∧
    ∃ h < m, Arrives net es (wAt net es j).sent.length b h ∧ i ∈ ((wAt net es h).node b).nearbyElements
  answers : ∀ q < (wAt net es m).sent.length, (wAt net es k).sent.length ≤ q →
    ∀ p ∈ (wAt net es m).sent[q]?, p.packet.exchanges i = true →
      ∀ b, net.reaches p b = true → ∃ h < m, Arrives net es q b h

deriving instance DecidableEq for Event

instance (q : ℕ) (b : Fin n) (h : ℕ) : Decidable (Arrives net es q b h) :=
  inferInstanceAs (Decidable (es[h]? = some (.receiveData b q) ∧ q < (wAt net es h).sent.length))

instance (k m : ℕ) : Decidable (Exchange net es i k m) :=
  decidable_of_iff ((wAt net es m).aborted = false ∧
      (∀ a b, a ≠ b → ∃ j < m, k ≤ j ∧ es[j]? = some (.sendAdvertisement a) ∧
        i ∈ ((wAt net es j).node a).nearbyElements ∧
        ∃ h < m, Arrives net es (wAt net es j).sent.length b h ∧ i ∈ ((wAt net es h).node b).nearbyElements) ∧
      ∀ q < (wAt net es m).sent.length, (wAt net es k).sent.length ≤ q →
        ∀ p ∈ (wAt net es m).sent[q]?, p.packet.exchanges i = true →
          ∀ b, net.reaches p b = true → ∃ h < m, Arrives net es q b h)
    ⟨fun h => ⟨h.1, h.2.1, h.2.2⟩, fun h => ⟨h.alive, h.adverts, h.answers⟩⟩

/-- A packet that arrives is handled. -/
theorem Arrives.input {q h : ℕ} {b : Fin n} {p : Sent n} (harrives : Arrives net es q b h)
    (halive : (wAt net es h).aborted = false) {m : ℕ} (hhm : h ≤ m) (hp : (wAt net es m).sent[q]? = some p)
    (hreach : net.reaches p b = true) :
    ∃ hh : h < es.length, (wAt net es h).input net es[h] = some (b, .receiveData p.packet) := by
  obtain ⟨hev, hq⟩ := harrives
  obtain ⟨hh, hev⟩ := List.getElem?_eq_some_iff.1 hev
  rw [sent_same hhm hq] at hp
  refine ⟨hh, ?_⟩
  simp [World.input, halive, hev, World.received, hp, hreach]

/-- A packet arrives after it is sent. -/
theorem Arrives.after {q j h : ℕ} {b : Fin n} (harrives : Arrives net es q b h)
    (hq : (wAt net es j).sent.length ≤ q) : j < h := by
  by_contra hnot
  have hle : (wAt net es h).sent.length ≤ (wAt net es j).sent.length := (sent_grows (not_lt.1 hnot)).length_le
  have hlt := harrives.2
  omega

/-- What a node advertises is the next packet. -/
theorem sent_advertisement {j : ℕ} {a : Fin n} (halive : (wAt net es j).aborted = false)
    (hev : es[j]? = some (.sendAdvertisement a)) :
    (wAt net es (j + 1)).sent = (wAt net es j).sent ++
      [⟨a, none, .advert ((wAt net es j).node a).advertisement⟩] := by
  obtain ⟨hj, hev⟩ := List.getElem?_eq_some_iff.1 hev
  have hinput : (wAt net es j).input net es[j] = some (a, .sendAdvertisement) := by
    rw [hev]
    simp [World.input, halive]
  rw [wAt_succ net es hj, World.step_ok hinput (s := ((wAt net es j).node a).sendAdvertisement) rfl]
  simp [World.put, sendAdvertisement, send, (wired_wAt net es j).outbox a]

/-- **A node that is behind what it hears** asks a node that has had a pair as new as that. -/
theorem asks_ahead {j h : ℕ} {a b : Fin n} (hh : h < es.length)
    (hneara : i ∈ ((wAt net es j).node a).nearbyElements)
    (hnearb : i ∈ ((wAt net es h).node b).nearbyElements)
    (hinput : (wAt net es h).input net es[h] =
      some (b, .receiveData (.advert ((wAt net es j).node a).advertisement)))
    (hbehind : reading (copyAt net es h b i).stamp < reading (copyAt net es j a i).stamp) :
    ∃ q c l, (wAt net es h).sent.length ≤ q ∧ l ≤ h ∧
      (wAt net es (h + 1)).sent[q]? = some ⟨b, some (net.address c), .requestData ⟨nodeId b, elementId i⟩⟩ ∧
      reading (copyAt net es j a i).stamp ≤ reading (copyAt net es l c i).stamp := by
  have hw := wired_wAt net es h
  obtain ⟨requests, hstep, hwanted, hasked⟩ := World.step_advert hinput
  rw [← wAt_succ net es hh] at hstep
  have hshows : ((wAt net es j).node a).shows i = (copyAt net es j a i).stamp := if_pos hneara
  obtain ⟨o, ho, hpacket⟩ := hwanted i hnearb (by rw [hshows]; exact hbehind)
  obtain ⟨i', y, hy, -, rfl⟩ := hasked o ho
  obtain rfl : i' = i := by
    simp only [Packet.requestData.injEq, RequestDataMessage.mk.injEq, true_and] at hpacket
    exact elementId_injective hpacket
  -- the entry that it asks shows a node as it was when it advertised
  have hmem : y ∈ ((wAt net es (h + 1)).node b).localGroup.entries := by
    rw [hstep, World.put_node_self]
    exact hy.mem
  obtain ⟨c, l, h', -, hlh, hhh, -, -, -, haddress, -, hview⟩ := (snapshots_wAt net es (h + 1)).groups b y hmem
  have hle := hy.le _ (Lib.SortedMap.mem_assign.2 (Or.inl rfl))
  rw [hview] at hle
  have hahead : reading (copyAt net es j a i').stamp ≤ reading (((wAt net es l).node c).shows i') := hshows ▸ hle
  have hlisted : ((wAt net es l).node c).shows i' = (copyAt net es l c i').stamp := by
    unfold shows at hahead ⊢
    split
    · rfl
    · rename_i hnear
      rw [if_neg hnear] at hahead
      exact absurd (lt_of_lt_of_le hbehind hahead) (not_lt.2 (reading_zero_le _))
  rw [hlisted] at hahead
  -- the request is among what it sends in this step
  have hsent : (wAt net es (h + 1)).sent = (wAt net es h).sent ++ requests.map fun x => ⟨b, x.1, x.2⟩ := by
    rw [hstep, World.put]
    simp only [hw.outbox b, List.nil_append]
  obtain ⟨k, hk⟩ := List.mem_iff_getElem?.1 ho
  refine ⟨(wAt net es h).sent.length + k, c, l, Nat.le_add_right _ _, by omega, ?_, hahead⟩
  rw [hsent, List.getElem?_append_right (Nat.le_add_right _ _), Nat.add_sub_cancel_left, List.getElem?_map, hk,
    haddress, (hw.node b).nodeId]
  rfl

/-- **A complete exchange** leaves nobody behind what anybody had at its beginning. -/
theorem Exchange.catches_up {k m : ℕ} (hex : Exchange net es i k m) (hkm : k ≤ m) (hn : 2 * n - 1 ≤ 255)
    (hup : ∀ k (hk : k < es.length), (wAt net es k).UpToDate net es[k]) (a b : Fin n) :
    reading (copyAt net es k a i).stamp ≤ reading (copyAt net es m b i).stamp := by
  by_cases hab : a = b
  · rw [hab]
    exact pair_mono hn hup b i hkm
  -- `b` hears `a`
  obtain ⟨j, hjm, hkj, hadvert, hneara, h, hhm, harrives, hnearb⟩ := hex.adverts a b hab
  have hsent := sent_advertisement (alive_before hjm.le hex.alive) hadvert
  have hjh := harrives.after le_rfl
  have hp : (wAt net es m).sent[(wAt net es j).sent.length]? =
      some ⟨a, none, .advert ((wAt net es j).node a).advertisement⟩ := by
    rw [sent_same (Nat.succ_le_of_lt hjm) (by rw [hsent]; simp), hsent]
    simp
  obtain ⟨hh, hinput⟩ := harrives.input (alive_before hhm.le hex.alive) hhm.le hp (by simp [Net.reaches, hab])
  have hstart := pair_mono hn hup a i hkj
  by_cases hbehind : reading (copyAt net es h b i).stamp < reading (copyAt net es j a i).stamp
  swap
  · exact (hstart.trans (not_lt.1 hbehind)).trans (pair_mono hn hup b i hhm.le)
  -- `b` asks `c`
  obtain ⟨q, c, l, hq, hlh, hrequest, hahead⟩ := asks_ahead hh hneara hnearb hinput hbehind
  have hq' := (List.getElem?_eq_some_iff.1 hrequest).1
  have hrequest' : (wAt net es m).sent[q]? =
      some ⟨b, some (net.address c), .requestData ⟨nodeId b, elementId i⟩⟩ := by
    rw [sent_same (Nat.succ_le_of_lt hhm) hq', hrequest]
  have hold : (wAt net es k).sent.length ≤ (wAt net es h).sent.length := (sent_grows (by omega)).length_le
  obtain ⟨h₂, hh₂m, harrives₂⟩ :=
    hex.answers q (lt_of_lt_of_le hq' (sent_grows hhm).length_le) (by omega) _ hrequest'
      (by simp [Packet.exchanges, element?_elementId]) c (by simp [Net.reaches])
  obtain ⟨hh₂, hinput₂⟩ :=
    harrives₂.input (alive_before hh₂m.le hex.alive) hh₂m.le hrequest' (by simp [Net.reaches])
  have hlater := harrives₂.after hq
  -- `c` replies
  have hreply := World.step_request (wired_wAt net es h₂)
    (by rw [← wAt_succ net es hh₂]; exact alive_before hh₂m hex.alive) hinput₂
  rw [← wAt_succ net es hh₂] at hreply
  have hreply' : (wAt net es m).sent[(wAt net es h₂).sent.length]? = some ⟨c, some (net.address b),
      .sendData (((wAt net es h₂).node c).sendDataMessage (elementId i) (copyAt net es h₂ c i))⟩ := by
    rw [sent_same (Nat.succ_le_of_lt hh₂m) (by rw [hreply]; simp), hreply]
    simp
  obtain ⟨h₃, hh₃m, harrives₃⟩ := hex.answers _ (List.getElem?_eq_some_iff.1 hreply').1
    (hold.trans (sent_grows hlater.le).length_le) _ hreply'
    (by simp [Packet.exchanges, sendDataMessage, element?_elementId]) b (by simp [Net.reaches])
  -- `b` takes over the copy
  obtain ⟨hh₃, hinput₃⟩ :=
    harrives₃.input (alive_before hh₃m.le hex.alive) hh₃m.le hreply' (by simp [Net.reaches])
  have htaken := World.step_sendData (wired_wAt net es h₃) (counts_of_small net es hn h₃ hh₃ b i) hinput₃
    (by simp [sendDataMessage, element?_elementId])
  rw [← wAt_succ net es hh₃] at htaken
  calc reading (copyAt net es k a i).stamp
      ≤ reading (copyAt net es j a i).stamp := hstart
    _ ≤ reading (copyAt net es l c i).stamp := hahead
    _ ≤ reading (copyAt net es h₂ c i).stamp := pair_mono hn hup c i (by omega)
    _ ≤ reading (copyAt net es (h₃ + 1) b i).stamp := htaken
    _ ≤ reading (copyAt net es m b i).stamp := pair_mono hn hup b i hh₃m

/-! ## Many exchanges -/

/-- All along the steps from `k` to `m`, all nodes have the same pair for the element. -/
def SamePairs (net : Net n) (es : List (Event n)) (i : Element) (k m : ℕ) : Prop :=
  ∀ l ≤ m, k ≤ l → ∀ a b, (copyAt net es l a i).stamp = (copyAt net es l b i).stamp

instance (k m : ℕ) : Decidable (SamePairs net es i k m) :=
  inferInstanceAs (Decidable (∀ l ≤ m, k ≤ l → ∀ a b, (copyAt net es l a i).stamp = (copyAt net es l b i).stamp))

/-- The node's round for the element changes in step `l`. -/
def RoundChanges (net : Net n) (es : List (Event n)) (i : Element) (a : Fin n) (l : ℕ) : Prop :=
  (copyAt net es l a i).roundNumber.toNat ≠ (copyAt net es (l + 1) a i).roundNumber.toNat

instance (a : Fin n) : DecidablePred (RoundChanges net es i a) := fun l =>
  inferInstanceAs (Decidable ((copyAt net es l a i).roundNumber.toNat ≠
    (copyAt net es (l + 1) a i).roundNumber.toNat))

/-- A node has one round all along the steps in which it does not change. -/
theorem steady {k m : ℕ} {a : Fin n} (hquiet : ∀ l < m, k ≤ l → ¬ RoundChanges net es i a l) {l : ℕ} (hkl : k ≤ l)
    (hlm : l ≤ m) : (copyAt net es l a i).roundNumber.toNat = (copyAt net es k a i).roundNumber.toNat := by
  induction l, hkl using Nat.le_induction with
  | base => rfl
  | succ l hkl ih =>
    have hsame := not_not.1 (hquiet l (by omega) hkl)
    rw [← hsame]
    exact ih (by omega)

/-- **A complete exchange in which nothing changes** finds all nodes with the same pair. -/
theorem Exchange.same {k m : ℕ} (hex : Exchange net es i k m) (hkm : k ≤ m) (hn : 2 * n - 1 ≤ 255)
    (hup : ∀ k (hk : k < es.length), (wAt net es k).UpToDate net es[k])
    (hquiet : ∀ l < m, k ≤ l → ∀ a, ¬ RoundChanges net es i a l) : SamePairs net es i k m := by
  have hle : ∀ l ≤ m, k ≤ l → ∀ a b,
      (copyAt net es l a i).roundNumber.toNat ≤ (copyAt net es l b i).roundNumber.toNat := by
    intro l hlm hkl a b
    have hcaught := (reading_le_iff hn).1 (hex.catches_up hkm hn hup a b)
    have ha := steady (fun l hl hkl => hquiet l hl hkl a) hkl hlm
    have hb := steady (fun l hl hkl => hquiet l hl hkl b) hkl hlm
    have hb' := steady (fun l hl hkl => hquiet l hl hkl b) hkm le_rfl
    omega
  intro l hlm hkl a b
  exact (stamp_eq_iff hn).2 (le_antisymm (hle l hlm hkl a b) (hle l hlm hkl b a))

/-- Over a whole run, the rounds of all nodes change so many times at most. -/
theorem all_rounds_settle (hn : 2 * n - 1 ≤ 255)
    (hup : ∀ k (hk : k < es.length), (wAt net es k).UpToDate net es[k]) (i : Element) (m : ℕ) :
    #{l ∈ Finset.range m | ∃ a, RoundChanges net es i a l} ≤ n * (2 * n - 1) := by
  have hsub : {l ∈ Finset.range m | ∃ a, RoundChanges net es i a l} ⊆
      (Finset.univ : Finset (Fin n)).biUnion fun a => {l ∈ Finset.range m | RoundChanges net es i a l} := by
    intro l hl
    obtain ⟨hlm, a, ha⟩ := Finset.mem_filter.1 hl
    exact Finset.mem_biUnion.2 ⟨a, Finset.mem_univ a, Finset.mem_filter.2 ⟨hlm, ha⟩⟩
  have hmul := Finset.card_biUnion_le_card_mul (Finset.univ : Finset (Fin n))
    (fun a => {l ∈ Finset.range m | RoundChanges net es i a l}) (2 * n - 1) fun a _ => rounds_settle hn hup a i m
  rw [Finset.card_univ, Fintype.card_fin] at hmul
  exact (Finset.card_le_card hsub).trans hmul

/-- **Nodes that keep exchanging settle on one pair.** Take any number of complete exchanges about an element,
one after the other, in a run of a network small enough for its counters, in which every SEND_DATA message is up
to date when it is handled. Each of them leaves nobody behind what anybody had at its beginning, and all but
`n * (2 * n - 1)` of them find all nodes with the same pair all along. -/
theorem exchanges_settle (net : Net n) (es : List (Event n)) (i : Element) (hn : 2 * n - 1 ≤ 255)
    (hup : ∀ k (hk : k < es.length), (wAt net es k).UpToDate net es[k]) {t : ℕ → ℕ} (ht : Monotone t) (r : ℕ)
    (hex : ∀ j < r, Exchange net es i (t j) (t (j + 1))) :
    (∀ j < r, ∀ a b, reading (copyAt net es (t j) a i).stamp ≤ reading (copyAt net es (t (j + 1)) b i).stamp) ∧
      #{j ∈ Finset.range r | ¬ SamePairs net es i (t j) (t (j + 1))} ≤ n * (2 * n - 1) := by
  refine ⟨fun j hj a b => (hex j hj).catches_up (ht (Nat.le_succ j)) hn hup a b, ?_⟩
  -- an exchange that does not find the same pairs has a change in it
  have hsub : {j ∈ Finset.range r | ¬ SamePairs net es i (t j) (t (j + 1))} ⊆
      {j ∈ Finset.range r | ∃ l < t (j + 1), t j ≤ l ∧ ∃ a, RoundChanges net es i a l} := by
    intro j hj
    obtain ⟨hjr, hdiffer⟩ := Finset.mem_filter.1 hj
    refine Finset.mem_filter.2 ⟨hjr, ?_⟩
    by_contra hnone
    apply hdiffer
    apply (hex j (Finset.mem_range.1 hjr)).same (ht (Nat.le_succ j)) hn hup
    intro l hl htl a ha
    exact hnone ⟨l, hl, htl, a, ha⟩
  exact ((Finset.card_le_card hsub).trans (Lib.card_windows_le ht _ r)).trans (all_rounds_settle hn hup i (t r))

/-- Two nodes near the last element come to one copy, and go on to tell each other. -/
def chatter : List (Event 2) :=
  [.getNearbyElements 0 lastNear, .getNearbyElements 1 lastNear, .sendAdvertisement 0, .receiveData 1 0,
    .sendAdvertisement 1, .receiveData 0 1, .receiveData 1 2, .receiveData 0 3, .receiveData 1 4] ++
  (List.range 7).flatMap fun j =>
    [.sendAdvertisement 0, .receiveData 1 (2 * j + 5), .sendAdvertisement 1, .receiveData 0 (2 * j + 6)]

/-- Where the exchanges of `chatter` begin. -/
def chatterTimes (j : ℕ) : ℕ := if j = 0 then 2 else 4 * j + 5

theorem chatterTimes_mono : Monotone chatterTimes := by
  intro j k hjk
  unfold chatterTimes
  split
  · split
    · exact le_rfl
    · omega
  · rw [if_neg (by omega)]
    omega

set_option maxRecDepth 10000 in
theorem exchanges_settle_chatter :
    (∀ j < 8, ∀ a b, reading (copyAt duo chatter (chatterTimes j) a 4).stamp ≤
        reading (copyAt duo chatter (chatterTimes (j + 1)) b 4).stamp) ∧
      #{j ∈ Finset.range 8 | ¬ SamePairs duo chatter 4 (chatterTimes j) (chatterTimes (j + 1))} ≤ 6 :=
  exchanges_settle duo chatter 4 (by decide) (by decide +kernel) chatterTimes_mono 8 (by decide +kernel)

end EdgeConsensus.Peer
