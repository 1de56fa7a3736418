import EdgeConsensus.Lib.SortedMap
import EdgeConsensus.Peer.Message
import Mathlib.Data.Fin.VecNotation
import Mathlib.Data.List.FinRange
import Mathlib.Logic.Function.Basic

/-!
# One `EdgeAwareClientApplication`

The handlers of `peer_node.cpp`: the two timers that look at the node itself, the
advertisement, and `ReceiveData` for each type of message. A handler ends in a
state, or throws `std::out_of_range` (from `at`) and leaves the state it had
reached, which is the error. What it sends is appended to `outbox`: an address for
`dataSendSocket`, none for the broadcast socket.
-/

namespace EdgeConsensus.Peer

structure EdgeAwareClientApplication where
  agreementInformation : Element → AgreementInformation
  nearbyElements : Finset Element
  localGroup : Lib.SortedMap NodeId NodeEntry
  nodeId : NodeId
  /-- the node's own `Ipv4Address` -/
  address : UInt32
  outbox : List (Option UInt32 × Packet)

def heartbeatTimeout : ℤ := 10000

/-- (2.5, 5.5), (1, 4), (3, 6.5), (5, 9) and (6, 2.5). -/
def baseElementLocations : Element → Location :=
  ![⟨0x40200000, 0x40B00000⟩, ⟨0x3F800000, 0x40800000⟩, ⟨0x40400000, 0x40D00000⟩,
    ⟨0x40A00000, 0x41100000⟩, ⟨0x40C00000, 0x40200000⟩]

namespace EdgeAwareClientApplication

/-- `StartApplication`, at the locations it draws around the base ones. -/
def startApplication (id : NodeId) (address : UInt32) (elementLocations : Element → Location) :
    EdgeAwareClientApplication where
  agreementInformation := fun i => .make (elementLocations i) id
  nearbyElements := ∅
  localGroup := .empty
  nodeId := id
  address := address
  outbox := []

/-- A handler's result: its end state, or the state at which it threw. -/
abbrev Result := Except EdgeAwareClientApplication EdgeAwareClientApplication

variable (s : EdgeAwareClientApplication)

def send (dest : Option UInt32) (packet : Packet) : EdgeAwareClientApplication :=
  { s with outbox := s.outbox ++ [(dest, packet)] }

def setElement (i : Element) (info : AgreementInformation) : EdgeAwareClientApplication :=
  { s with agreementInformation := Function.update s.agreementInformation i info }

/-! ## Sending -/

def advertisement : AdvertMessage where
  senderId := s.nodeId
  ipv4Address := s.address
  elements := ((List.finRange numElements).filter (· ∈ s.nearbyElements)).map fun i =>
    (elementId i, (s.agreementInformation i).stamp)

def sendAdvertisement : EdgeAwareClientApplication := s.send none (.advert s.advertisement)

def sendDataRequest (address : UInt32) (e : ElementId) : EdgeAwareClientApplication :=
  s.send (some address) (.requestData ⟨s.nodeId, e⟩)

def sendDataMessage (e : ElementId) (elem : AgreementInformation) : SendDataMessage where
  senderId := s.nodeId
  elementId := e
  location := elem.fineLocation
  version := elem.versionNumber
  round := elem.roundNumber
  syncGroup := elem.agreeingNodes

def sendData (address : UInt32) (e : ElementId) : Result :=
  match element? e with
  | none => .error s
  | some i => .ok (s.send (some address) (.sendData (s.sendDataMessage e (s.agreementInformation i))))

def sendACK (address : UInt32) (e : ElementId) : EdgeAwareClientApplication :=
  s.send (some address) (.ack ⟨s.nodeId, e⟩)

/-! ## Agreement -/

/-- One turn of the scan of the local group: a later pair takes the place of the best. -/
def scanNode (i : Element) (best : (CausalNum × CausalNum) × NodeId) (node : NodeId × NodeEntry) :
    (CausalNum × CausalNum) × NodeId :=
  if later (node.2.versionRoundNumbers i) best.1 then (node.2.versionRoundNumbers i, node.1) else best

/-- The greatest pair in the local group (`maxVersion`, `maxRound`), and the first node with it. -/
def bestNode (i : Element) : (CausalNum × CausalNum) × NodeId :=
  s.localGroup.entries.foldl (scanNode i) ((0, 0), 0xFFFFFFFF)

/-- `set_round(node_id+1)` on the element, if its round is 0. -/
def initRound (i : Element) : EdgeAwareClientApplication :=
  if (s.agreementInformation i).roundNumber = 0 then
    s.setElement i { s.agreementInformation i with roundNumber := (s.nodeId + 1).toUInt8 }
  else s

def beginAgreement (e : ElementId) : Result :=
  match element? e with
  | none => .error s
  | some i =>
    -- without a group there is nobody to ask
    if s.localGroup.entries = [] then .ok (s.initRound i)
    else if later (s.bestNode i).1 (s.agreementInformation i).stamp then
      match s.localGroup.find? (s.bestNode i).2 with
      | none => .error s
      | some node => .ok (s.sendDataRequest node.address e)
    else .ok (s.initRound i)

/-- One element of the loop of `GetNearbyElements`; `near` is its distance test. -/
def updateNearby (near : Element → Bool) (s : EdgeAwareClientApplication) (i : Element) : Result :=
  if near i then do
    -- an element that stays near does not begin again
    let s ← if i ∈ s.nearbyElements then .ok s else s.beginAgreement (elementId i)
    return { s with nearbyElements := insert i s.nearbyElements }
  else return { s with nearbyElements := s.nearbyElements.erase i }

def getNearbyElements (near : Element → Bool) : Result :=
  (List.finRange numElements).foldlM (updateNearby near) s

/-- `CheckHeartbeats`: the current time is cut to 32 bits, the recent one is not. -/
def checkHeartbeats (now : ℕ) : EdgeAwareClientApplication :=
  { s with localGroup := s.localGroup.filter fun _ node =>
      ¬ ((now % 2 ^ 32 : ℕ) - (node.recentTime : ℤ) ≥ heartbeatTimeout) }

/-! ## `ReceiveData` -/

/-- One element of an advertisement: the pair goes into the new entry, and a nearby
element with a later pair is queued for agreement. -/
def readAdvert (acc : (Element → CausalNum × CausalNum) × List ElementId)
    (x : ElementId × CausalNum × CausalNum) :
    Option ((Element → CausalNum × CausalNum) × List ElementId) := do
  let i ← element? x.1
  let agree := if i ∈ s.nearbyElements ∧ later x.2 (s.agreementInformation i).stamp then
    acc.2 ++ [x.1] else acc.2
  return (Function.update acc.1 i x.2, agree)

def receiveAdvert (now : ℕ) (info : AdvertMessage) : Result :=
  match info.elements.foldlM s.readAdvert (fun _ => (0, 0), []) with
  | none => .error s
  | some (versionRoundNumbers, agree) =>
    let s := { s with
      localGroup := s.localGroup.assign info.senderId ⟨info.ipv4Address, now, versionRoundNumbers⟩ }
    -- the agreements see the new entry
    agree.foldlM beginAgreement s

def receiveRequestData (info : RequestDataMessage) : Result :=
  match s.localGroup.find? info.senderId with
  | none => .error s
  | some node => s.sendData node.address info.elementId

/-- The copy that a node takes over from a SEND_DATA message. -/
def adopt (me : NodeId) (info : SendDataMessage) : AgreementInformation where
  versionNumber := info.version
  roundNumber := if me ∈ info.syncGroup then info.round else info.round + 1
  fineLocation := info.location
  agreeingNodes := insert me info.syncGroup

def receiveSendData (info : SendDataMessage) : Result :=
  match element? info.elementId with
  | none => .error s
  | some i =>
    -- the copy is taken over before the sender is looked up
    let s := s.setElement i (adopt s.nodeId info)
    match s.localGroup.find? info.senderId with
    | none => .error s
    | some node => .ok (s.sendACK node.address info.elementId)

/-- The copy after an ACK of the node `x`. -/
def credit (elem : AgreementInformation) (x : NodeId) : AgreementInformation :=
  if x ∈ elem.agreeingNodes then elem
  else { elem with
    roundNumber := elem.roundNumber + 1
    agreeingNodes := insert x elem.agreeingNodes }

def receiveACK (info : AckMessage) : Result :=
  match element? info.elementId with
  | none => .error s
  | some i => .ok (s.setElement i (credit (s.agreementInformation i) info.senderId))

def receiveData (now : ℕ) : Packet → Result
  | .advert info => s.receiveAdvert now info
  | .requestData info => s.receiveRequestData info
  | .sendData info => s.receiveSendData info
  | .ack info => s.receiveACK info

/-- What makes a node act: one of its timers, or a packet. -/
inductive Input
  | sendAdvertisement
  | getNearbyElements (near : Element → Bool)
  | checkHeartbeats
  | receiveData (packet : Packet)

def handle (now : ℕ) : Input → Result
  | .sendAdvertisement => .ok s.sendAdvertisement
  | .getNearbyElements near => s.getNearbyElements near
  | .checkHeartbeats => .ok (s.checkHeartbeats now)
  | .receiveData packet => s.receiveData now packet

end EdgeAwareClientApplication

end EdgeConsensus.Peer
