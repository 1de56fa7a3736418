import EdgeConsensus.Lib.Framing
import EdgeConsensus.Lib.Merge
import EdgeConsensus.Raft.Cluster
import EdgeConsensus.Raft.Jsonify

/-!
# The two transports

`Talker` and `Listener` of `interface.py`, over ZMQ, and of `berkeley_socket_interface.py`,
over one TCP connection from every publisher to every listener. A listener's queue is filled
by the publishers' messages in any interleaving: by the one loop of the first listener, by
the threads of the second one.

* `interface_queue`, `berkeley_queue`: what each listener has in its queue, per publisher.
* `interchangeable_transports`: they agree if and only if all that they have taken is for this
  node; the second listener has no filter.
-/

namespace EdgeConsensus.Raft

open Lib

/-- `msg['receiver'] == my_id or msg['receiver'] is None`. -/
def isFor (myId : String) : Json → Bool
  | .null => true
  | .str receiver => receiver = myId
  | _ => false

/-- What the code relies on from ZMQ: `send_json` and `recv_json` carry a message of JSON
values as one part. -/
structure JsonSocket where
  sendJson : Json → List UInt8
  recvJson : List UInt8 → Option Json
  recv_send : ∀ x, Json.valid x = true → recvJson (sendJson x) = some x

namespace Interface

/-- `Talker.run`: what the publisher socket sends for the messages of the queue. -/
def talk (zmq : JsonSocket) (messages : List Json) : List (List UInt8) := messages.map zmq.sendJson

/-- A round of `Listener.run` in which the next message of a publisher arrives. -/
def listen (zmq : JsonSocket) (myId : String) :
    List (List UInt8) → Option (Option Json × List (List UInt8))
  | [] => none
  | part :: parts => do
    let msg ← zmq.recvJson part
    let receiver ← item msg "receiver"
    return (if isFor myId receiver then some msg else none, parts)

/-- The messages of publisher `i` in the queue, after the arrivals `es`. -/
def queue {ι : Type*} [DecidableEq ι] (zmq : JsonSocket) (myId : String) (messages : ι → List Json)
    (es : List ι) (i : ι) : List Json :=
  (es.foldl (Merged.step (listen zmq myId)) ⟨fun i => talk zmq (messages i), []⟩).fromSource i

end Interface

namespace BerkeleySocketInterface

/-- The length of the text and the text; `to_bytes` raises if the length needs three bytes. -/
def finalMessage (msg : Json) : Option (List UInt8) := do
  let message := encode (Json.dumps msg)
  return (← toBytes 2 message.length) ++ message

/-- `Talker.run`: what it writes on a connection, up to a message that ends the process. -/
def talk : List Json → List UInt8
  | [] => []
  | msg :: messages =>
    match finalMessage msg with
    | none => []
    | some bytes => bytes ++ talk messages

/-- A round of `Listener.handle_socket` in which the two `recv` get so many bytes. A text that
is no JSON is printed; bytes that are no text end the thread. -/
def handleSocket (stream : List UInt8) (cut cut' : ℕ) : Option (Option Json × List UInt8) := do
  let (header, stream) ← recv stream 2 cut
  let (body, stream) ← recv stream (fromBytes header) cut'
  let text ← decode body
  return (Json.loads text, stream)

/-- A round in which they get all that they ask for. -/
def listen (stream : List UInt8) : Option (Option Json × List UInt8) :=
  handleSocket stream 2 (fromBytes (stream.take 2))

/-- The messages of publisher `i` in the queue, after the rounds `es` of the threads. -/
def queue {ι : Type*} [DecidableEq ι] (messages : ι → List Json) (es : List ι) (i : ι) : List Json :=
  (es.foldl (Merged.step listen) ⟨fun i => talk (messages i), []⟩).fromSource i

end BerkeleySocketInterface

/-! ## What is in the queues -/

/-- The filter of `Listener.run`. -/
def addressed (myId : String) (msg : Json) : Bool := (item msg "receiver").any (isFor myId)

/-- The message is one that JSON carries, and says whom it is for. -/
structure Sendable (msg : Json) : Prop where
  valid : Json.valid msg = true
  receiver : ∃ receiver, item msg "receiver" = some receiver

theorem interface_drain (zmq : JsonSocket) (myId : String) (messages : List Json) :
    ∀ k, (∀ msg ∈ messages, Sendable msg) →
      (drain (Interface.listen zmq myId) k (Interface.talk zmq messages)).1 =
        (messages.take k).filter (addressed myId) := by
  induction messages with
  | nil =>
    intro k _
    cases k with
    | zero => rfl
    | succ k => rfl
  | cons msg messages ih =>
    intro k hsend
    cases k with
    | zero => rfl
    | succ k =>
      obtain ⟨hvalid, receiver, hreceiver⟩ := hsend msg List.mem_cons_self
      have hrest := ih k fun x hx => hsend x (List.mem_cons_of_mem msg hx)
      have hrecv := zmq.recv_send msg hvalid
      have haddressed : addressed myId msg = isFor myId receiver := by
        unfold addressed
        rw [hreceiver]
        rfl
      -- one round takes one message and puts it into the queue if it passes the filter
      have hlisten : Interface.listen zmq myId (Interface.talk zmq (msg :: messages)) =
          some (if addressed myId msg then some msg else none, Interface.talk zmq messages) := by
        rw [haddressed]
        simp only [Interface.talk, List.map_cons, Interface.listen, hrecv, hreceiver,
          Option.bind_eq_bind, Option.bind_some, Option.pure_def]
      rw [List.take_succ_cons, drain, hlisten]
      simp only [hrest]
      cases haddr : addressed myId msg with
      | false => simp [haddr]
      | true => simp [haddr]

/-- The text of the message is shorter than two bytes can say. -/
def Short (msg : Json) : Prop := (encode (Json.dumps msg)).length < 65536

theorem finalMessage_eq {msg : Json} (h : Short msg) :
    BerkeleySocketInterface.finalMessage msg =
      some (bigEndian 2 (encode (Json.dumps msg)).length ++ encode (Json.dumps msg)) := by
  have hfits : (encode (Json.dumps msg)).length < 256 ^ 2 := h
  simp only [BerkeleySocketInterface.finalMessage, toBytes_eq hfits, Option.bind_eq_bind,
    Option.bind_some, Option.pure_def]

/-- **One round takes one message off the stream.** -/
theorem listen_frame {msg : Json} (hvalid : Json.valid msg = true) (hshort : Short msg)
    (rest : List UInt8) :
    BerkeleySocketInterface.listen
        (bigEndian 2 (encode (Json.dumps msg)).length ++ encode (Json.dumps msg) ++ rest) =
      some (some msg, rest) := by
  set message := encode (Json.dumps msg) with hmessage
  have hfits : message.length < 256 ^ 2 := hshort
  have hlen : (bigEndian 2 message.length).length = 2 := length_bigEndian 2 _
  have hheader : fromBytes (bigEndian 2 message.length) = message.length := fromBytes_bigEndian 2 hfits
  have htake : (bigEndian 2 message.length ++ message ++ rest).take 2 = bigEndian 2 message.length := by
    rw [List.append_assoc]
    exact List.take_left' hlen
  -- the header is taken first, and says how much to take next
  have hrecv := recv_append hlen (message ++ rest)
  have hbody := recv_append (rfl : message.length = message.length) rest
  have hdecode : decode message = some (Json.dumps msg) := decode_encode (Json.dumps msg)
  have hloads := Json.loads_dumps hvalid
  unfold BerkeleySocketInterface.listen BerkeleySocketInterface.handleSocket
  rw [htake, hheader, List.append_assoc, hrecv]
  simp only [Option.bind_eq_bind, Option.bind_some, hheader, hbody, hdecode, hloads, Option.pure_def]

theorem berkeley_drain (messages : List Json) :
    ∀ k, (∀ msg ∈ messages, Json.valid msg = true ∧ Short msg) →
      (drain BerkeleySocketInterface.listen k (BerkeleySocketInterface.talk messages)).1 =
        messages.take k := by
  induction messages with
  | nil =>
    intro k _
    cases k with
    | zero => rfl
    | succ k => rfl
  | cons msg messages ih =>
    intro k hsend
    cases k with
    | zero => rfl
    | succ k =>
      obtain ⟨hvalid, hshort⟩ := hsend msg List.mem_cons_self
      have hrest := ih k fun x hx => hsend x (List.mem_cons_of_mem msg hx)
      have htalk : BerkeleySocketInterface.talk (msg :: messages) =
          bigEndian 2 (encode (Json.dumps msg)).length ++ encode (Json.dumps msg) ++
            BerkeleySocketInterface.talk messages := by
        rw [BerkeleySocketInterface.talk, finalMessage_eq hshort]
      rw [htalk, drain, listen_frame hvalid hshort]
      simp only [hrest, Option.toList_some, List.singleton_append, List.take_succ_cons]

variable {ι : Type*} [DecidableEq ι] {messages : ι → List Json}

/-- **The first listener has the messages that are for its node**, per publisher. -/
theorem interface_queue (zmq : JsonSocket) (myId : String) (h : ∀ i, ∀ msg ∈ messages i, Sendable msg)
    (es : List ι) (i : ι) : Interface.queue zmq myId messages es i =
      ((messages i).take (es.count i)).filter (addressed myId) := by
  unfold Interface.queue
  rw [Merged.fromSource_run]
  exact interface_drain zmq myId (messages i) (es.count i) (h i)

/-- **The second listener has all messages**, per publisher. -/
theorem berkeley_queue (h : ∀ i, ∀ msg ∈ messages i, Json.valid msg = true ∧ Short msg) (es : List ι)
    (i : ι) : BerkeleySocketInterface.queue messages es i = (messages i).take (es.count i) := by
  unfold BerkeleySocketInterface.queue
  rw [Merged.fromSource_run]
  exact berkeley_drain (messages i) (es.count i) (h i)

/-! ## Groups of nodes -/

variable {n : ℕ}

/-- A message that a node has handed to its talker, with the time that it bears. -/
structure Published (n : ℕ) where
  message : Message n
  timestamp : ℤ
  carried : message.carried = true

namespace Published

def json (address : Fin n → String) (p : Published n) : Json := p.message.jsonify address p.timestamp

/-- The message is for node `me` or for every node. -/
def reaches (address : Fin n → String) (me : Fin n) (p : Published n) : Bool :=
  p.message.base.receiver.all fun b => address b = address me

theorem sendable (address : Fin n → String) (p : Published n) : Sendable (p.json address) :=
  ⟨valid_jsonify address p.timestamp p.carried, _, receiver_jsonify address p.timestamp p.message⟩

theorem addressed_json (address : Fin n → String) (me : Fin n) (p : Published n) :
    addressed (address me) (p.json address) = p.reaches address me := by
  unfold addressed json reaches
  rw [receiver_jsonify]
  cases p.message.base.receiver with
  | none => rfl
  | some b => rfl

end Published

/-- The queues of node `me` for what the nodes have `published`, of which the listeners have
taken as much as the schedules `es` and `es'` say: both have, per publisher and in order, the
messages that are for `me`. -/
def SameQueues (zmq : JsonSocket) (address : Fin n → String) (me : Fin n)
    (published : Fin n → List (Published n)) (es es' : List (Fin n)) : Prop :=
  ∀ a, BerkeleySocketInterface.queue (fun b => (published b).map (Published.json address)) es' a =
      Interface.queue zmq (address me) (fun b => (published b).map (Published.json address)) es a ∧
    Interface.queue zmq (address me) (fun b => (published b).map (Published.json address)) es a =
      (((published a).take (es.count a)).filter (Published.reaches address me)).map
        (Published.json address)

theorem queues_eq (zmq : JsonSocket) (address : Fin n → String) (me : Fin n)
    {published : Fin n → List (Published n)} (hshort : ∀ a, ∀ p ∈ published a, Short (p.json address))
    (es es' : List (Fin n)) (a : Fin n) :
    BerkeleySocketInterface.queue (fun b => (published b).map (Published.json address)) es' a =
        ((published a).take (es'.count a)).map (Published.json address) ∧
      Interface.queue zmq (address me) (fun b => (published b).map (Published.json address)) es a =
        (((published a).take (es.count a)).filter (Published.reaches address me)).map
          (Published.json address) := by
  constructor
  · rw [berkeley_queue, List.map_take]
    intro b msg hmsg
    obtain ⟨p, hp, rfl⟩ := List.mem_map.1 hmsg
    exact ⟨(p.sendable address).valid, hshort b p hp⟩
  · have hfilter : addressed (address me) ∘ Published.json address = Published.reaches address me := by
      funext p
      exact p.addressed_json address me
    rw [interface_queue, ← List.map_take, List.filter_map, hfilter]
    intro b msg hmsg
    obtain ⟨p, -, rfl⟩ := List.mem_map.1 hmsg
    exact p.sendable address

/-- **The transports are interchangeable exactly when there is nothing to filter**: when all
that was taken is for this node. -/
theorem interchangeable_transports (zmq : JsonSocket) (address : Fin n → String) (me : Fin n)
    (published : Fin n → List (Published n)) (hshort : ∀ a, ∀ p ∈ published a, Short (p.json address))
    (es es' : List (Fin n)) (hcount : ∀ a, es.count a = es'.count a) :
    SameQueues zmq address me published es es' ↔
      ∀ a, ∀ p ∈ (published a).take (es.count a), p.reaches address me = true := by
  constructor
  · intro h a
    obtain ⟨hberkeley, hinterface⟩ := queues_eq zmq address me hshort es es' a
    have hsame := (h a).1
    rw [hberkeley, hinterface, ← hcount a] at hsame
    have hlen := congrArg List.length hsame
    rw [List.length_map, List.length_map] at hlen
    exact List.length_filter_eq_length_iff.1 hlen.symm
  · intro h a
    obtain ⟨hberkeley, hinterface⟩ := queues_eq zmq address me hshort es es' a
    have hall := List.filter_eq_self.2 (h a)
    refine ⟨?_, hinterface⟩
    rw [hberkeley, hinterface, hall, hcount a]

/-! ## Votes -/

/-- A socket that carries the text of Python's `json` module. -/
def textSocket : JsonSocket where
  sendJson msg := encode (Json.dumps msg)
  recvJson part := (decode part).bind Json.loads
  recv_send := by
    intro msg hvalid
    rw [decode_encode, Option.bind_some, Json.loads_dumps hvalid]

def addressBook : Fin 3 → String
  | 0 => "10.0.0.1:5557"
  | 1 => "10.0.0.2:5557"
  | 2 => "10.0.0.3:5557"

/-- Node 0 asks everybody for a vote. -/
def voteRequest : Published 3 := ⟨(RaftNode.init 0).requestVoteMessage, 1700000000, rfl⟩

/-- Node 0 votes for node 1. -/
def vote : Published 3 := ⟨(RaftNode.init 0).voteMessage 1 true, 1700000000, rfl⟩

theorem short_vote : Short (vote.json addressBook) := by
  unfold Short
  decide +kernel

/-- Node 0 asks everybody for a vote and leads, and node 1 votes for node 2. -/
def interleaved : Fin 3 → List (Published 3)
  | 0 => [voteRequest, ⟨(RaftNode.init 0).heartbeatMessage, 1700000001, rfl⟩]
  | 1 => [⟨(RaftNode.init 1).voteMessage 2 true, 1700000000, rfl⟩]
  | 2 => []

theorem short_interleaved : ∀ a, ∀ p ∈ interleaved a, Short (p.json addressBook) := by
  unfold Short
  decide +kernel

theorem interchangeable_transports_interleaved :
    SameQueues textSocket addressBook 2 interleaved [0, 1, 0] [1, 0, 0] :=
  (interchangeable_transports textSocket addressBook 2 interleaved short_interleaved [0, 1, 0] [1, 0, 0]
    (by decide)).2 (by decide)

/-- Node 0 has published one message, and the others nothing. -/
def onlyFrom0 (p : Published 3) (a : Fin 3) : List (Published 3) := if a = 0 then [p] else []

theorem mem_onlyFrom0 {p q : Published 3} {a : Fin 3} (h : q ∈ onlyFrom0 p a) : q = p := by
  unfold onlyFrom0 at h
  split at h
  · exact List.mem_singleton.1 h
  · cases h

/-- Node 2 gets the vote that is for node 1. -/
theorem vote_for_another : ¬ SameQueues textSocket addressBook 2 (onlyFrom0 vote) [0] [0] := by
  have hshort : ∀ a, ∀ p ∈ onlyFrom0 vote a, Short (p.json addressBook) := by
    intro a p hp
    rw [mem_onlyFrom0 hp]
    exact short_vote
  intro h
  obtain ⟨hberkeley, hinterface⟩ := queues_eq textSocket addressBook 2 hshort [0] [0] 0
  have hsame := (h 0).1
  rw [hberkeley, hinterface] at hsame
  have hlen := congrArg List.length hsame
  have hfilter : ((onlyFrom0 vote 0).take ([0].count (0 : Fin 3))).filter
      (Published.reaches addressBook 2) = [] := by decide
  rw [hfilter] at hlen
  cases hlen

end EdgeConsensus.Raft
