import EdgeConsensus.Lib.Filtered
import EdgeConsensus.Lib.Simulation
import EdgeConsensus.Raft.Parsed
import EdgeConsensus.Raft.Provenance

/-!
# A cluster over its sockets

The `RaftNode`s of a cluster with the `Talker` and `Listener` processes of `interface.py`, which `raft.py`
starts: what a node sends goes out as JSON on its publisher socket, to everybody; a listener takes the parts of
each publisher in order, or misses them, keeps the dicts that are for its node, and puts them into one queue,
from which the node takes them.

* `Conveys`: what is underway over the sockets, and in the cluster's channels; `put`, `listened`, `gets` keep it.
* `sockets_refine`: every run over sockets is a run of the cluster.
-/

namespace EdgeConsensus.Raft

open Lib

variable {n : ℕ}

structure Sockets (n : ℕ) where
  node : Fin n → RaftNode n
  -- what the publisher socket of each node has sent
  parts : Fin n → List (List UInt8)
  -- `heard a b`: with how many parts of `a` the listener of `b` is done
  heard : Fin n → Fin n → ℕ
  -- the queue of the listener of each node
  messages : Fin n → List Json

/-- The messages that a node has made, with their times. -/
def stamped (talker : List (Message n)) (timestamp : ℕ → ℤ) : List (Message n × ℤ) :=
  talker.zipIdx.map fun x => (x.1, timestamp x.2)

theorem stamped_fst (talker : List (Message n)) (timestamp : ℕ → ℤ) :
    (stamped talker timestamp).map Prod.fst = talker := by
  unfold stamped
  rw [List.map_map]
  exact List.zipIdx_map_fst 0 talker

/-- Where a node makes messages, `timestamp j` is the time in the `j`th of them. -/
inductive SocketEvent (n : ℕ)
  | clientRequest (b : Fin n) (value : Value) (idNum : Key)
  | call (b : Fin n) (timestamp : ℕ → ℤ)
  -- a round, in which `_get_message` may find the queue empty before the listener has handed a dict over
  | loop (b : Fin n) (timers : Timers n) (get : Bool) (timestamp : ℕ → ℤ)
  -- part `i` of `a` comes to the listener of `b`, which misses those before it
  | listen (b a : Fin n) (i : ℕ)

namespace Sockets

variable (zmq : JsonSocket) (address : Fin n → String)

def init : Sockets n where
  node := RaftNode.init
  parts := fun _ => []
  heard := fun _ _ => 0
  messages := fun _ => []

/-- Node `b` has run up to state `s`: its talker sends what it was handed. -/
def put (w : Sockets n) (b : Fin n) (s : RaftNode n) (timestamp : ℕ → ℤ) : Sockets n :=
  { w with
    node := Function.update w.node b { s with talker := [] }
    parts := Function.update w.parts b
      (w.parts b ++ Interface.talk zmq ((stamped s.talker timestamp).map fun x => x.1.jsonify address x.2)) }

/-- `_get_message`: what node `b` gets, and what is left in the queue; `none` if it raises. -/
def getMessage (w : Sockets n) (b : Fin n) (get : Bool) : Option (Option (Message n) × List Json) :=
  match w.messages b, get with
  | msg :: rest, true => (Raft.getMessage address msg).map fun m => (some m, rest)
  | messages, _ => some (none, messages)

def step (w : Sockets n) : SocketEvent n → Sockets n
  | .clientRequest b value idNum => w.put zmq address b ((w.node b).clientRequest value idNum) fun _ => 0
  | .call b timestamp =>
    if (w.node b).frame = .run then
      match (w.node b).call with
      | some s => w.put zmq address b s timestamp
      | none => w
    else w
  | .loop b timers get timestamp =>
    if (w.node b).frame = .run then w
    else
      match w.getMessage address b get with
      | none => w
      | some (m, rest) =>
        match (w.node b).loop timers m with
        | some s => { w with messages := Function.update w.messages b rest }.put zmq address b s timestamp
        | none => w
  | .listen b a i =>
    if w.heard a b ≤ i then
      match Interface.listen zmq (address b) ((w.parts a).drop i) with
      | none => w
      | some (msg, _) =>
        { w with
          heard := fun x y => if x = a ∧ y = b then i + 1 else w.heard x y
          messages := Function.update w.messages b (w.messages b ++ msg.toList) }
    else w

end Sockets

/-- The sockets after the first `k` events of a run. -/
abbrev socketsAt (zmq : JsonSocket) (address : Fin n → String) (es : List (SocketEvent n)) (k : ℕ) : Sockets n :=
  stateAt (Sockets.step zmq address) Sockets.init es k

/-! ## What is underway -/

/-- The messages that a node has sent, with their times. -/
abbrev Sendings (n : ℕ) : Type := Fin n → List (Message n × ℤ)

/-- The dict in the queue of `b` is that of a message for `b`, with the number `x.2` of those of `x.1`. -/
def Queued (address : Fin n → String) (sendings : Sendings n) (b : Fin n) (msg : Json) (x : Fin n × ℕ) : Prop :=
  ∃ m timestamp, (sendings x.1)[x.2]? = some (m, timestamp) ∧ m.reaches b = true ∧
    msg = m.jsonify address timestamp

/-- Where message `i` of `a` is in the channel of the cluster from `a` to `b`. -/
abbrev Sendings.place (sendings : Sendings n) (a b : Fin n) (i : ℕ) : ℕ :=
  Lib.place (fun x => x.1.reaches b) (sendings a) i

/-- The sockets carry what is in the channels of the cluster: `numbers b` says which
messages are in the queue of `b`. -/
structure Conveys (zmq : JsonSocket) (address : Fin n → String) (sendings : Sendings n)
    (numbers : Fin n → List (Fin n × ℕ)) (w : Sockets n) (v : World n) : Prop where
  node : w.node = v.node
  parts : ∀ a, w.parts a = (sendings a).map fun x => zmq.sendJson (x.1.jsonify address x.2)
  chan : ∀ a b, v.chan a b = ((sendings a).map Prod.fst).filter fun m => m.reaches b
  queued : ∀ b, List.Forall₂ (Queued address sendings b) (w.messages b) (numbers b)
  order : ∀ b, (numbers b).Pairwise fun x y => x.1 = y.1 → x.2 < y.2
  heard : ∀ b, ∀ x ∈ numbers b, x.2 < w.heard x.1 b
  fresh : ∀ b, ∀ x ∈ numbers b, v.pos x.1 b ≤ sendings.place x.1 b x.2
  ahead : ∀ a b, v.pos a b ≤ sendings.place a b (w.heard a b)

variable {zmq : JsonSocket} {address : Fin n → String} {sendings : Sendings n}
  {numbers : Fin n → List (Fin n × ℕ)} {w : Sockets n} {v : World n} {a b : Fin n} {s : RaftNode n}

/-- What a node sends, with the times of the messages. -/
def Sendings.extend (sendings : Sendings n) (b : Fin n) (s : RaftNode n) (timestamp : ℕ → ℤ) : Sendings n :=
  Function.update sendings b (sendings b ++ stamped s.talker timestamp)

theorem Sendings.extend_eq (sendings : Sendings n) (b : Fin n) (s : RaftNode n) (timestamp : ℕ → ℤ) (a : Fin n) :
    ∃ new, sendings.extend b s timestamp a = sendings a ++ new := by
  unfold Sendings.extend
  by_cases hab : a = b
  · rw [hab, Function.update_self]
    exact ⟨_, rfl⟩
  · rw [Function.update_of_ne hab]
    exact ⟨[], (List.append_nil _).symm⟩

theorem Queued.extend {msg : Json} {x : Fin n × ℕ} (h : Queued address sendings b msg x) (c : Fin n)
    (s : RaftNode n) (timestamp : ℕ → ℤ) : Queued address (sendings.extend c s timestamp) b msg x := by
  obtain ⟨m, t, hx, hreach, hmsg⟩ := h
  obtain ⟨new, hnew⟩ := sendings.extend_eq c s timestamp x.1
  refine ⟨m, t, ?_, hreach, hmsg⟩
  rw [hnew, List.getElem?_append_left (List.getElem?_eq_some_iff.1 hx).1, hx]

/-- **What a node sends** is published, and is in the channels of the cluster. -/
theorem Conveys.put (h : Conveys zmq address sendings numbers w v) (b : Fin n) (s : RaftNode n)
    (timestamp : ℕ → ℤ) :
    Conveys zmq address (sendings.extend b s timestamp) numbers (w.put zmq address b s timestamp)
      (v.put b s) := by
  have hgrows : ∀ a c i, sendings.place a c i ≤ (sendings.extend b s timestamp).place a c i := by
    intro a c i
    obtain ⟨new, hnew⟩ := sendings.extend_eq b s timestamp a
    unfold Sendings.place
    rw [hnew]
    exact place_le_append i new
  refine ⟨?_, fun a => ?_, fun a c => ?_, fun c => (h.queued c).imp fun _ _ hq => hq.extend b s timestamp,
    h.order, h.heard, fun c x hx => (h.fresh c x hx).trans (hgrows x.1 c x.2),
    fun a c => (h.ahead a c).trans (hgrows a c _)⟩
  · show Function.update w.node b _ = Function.update v.node b _
    rw [h.node]
  · show Function.update w.parts b _ a = (Function.update sendings b _ a).map _
    by_cases hab : a = b
    · subst hab
      rw [Function.update_self, Function.update_self, List.map_append, h.parts, Interface.talk, List.map_map]
      rfl
    · rw [Function.update_of_ne hab, Function.update_of_ne hab, h.parts]
  · rw [World.put_chan, h.chan]
    unfold Sendings.extend
    by_cases hab : a = b
    · subst hab
      rw [if_pos rfl, Function.update_self, List.map_append, List.filter_append, stamped_fst]
    · rw [if_neg hab, Function.update_of_ne hab, List.append_nil]

/-- The messages in the channels are such that JSON carries them, and of the class that their type says. -/
def World.Sendable (v : World n) : Prop := ∀ a b, ∀ m ∈ v.chan a b, m.carried = true ∧ m.Typed

/-- A message that was sent is in some channel. -/
theorem Conveys.sendable (h : Conveys zmq address sendings numbers w v) (hv : v.Sendable) {i : ℕ} {m : Message n}
    {timestamp : ℤ} (hx : (sendings a)[i]? = some (m, timestamp)) : m.carried = true ∧ m.Typed := by
  have hmem : m ∈ (sendings a).map Prod.fst := List.mem_map.2 ⟨_, List.mem_of_getElem? hx, rfl⟩
  obtain ⟨c, hc⟩ : ∃ c, m.reaches c = true := by
    cases hreceiver : m.base.receiver with
    | none => exact ⟨a, by simp [Message.reaches, hreceiver]⟩
    | some c => exact ⟨c, by simp [Message.reaches, hreceiver]⟩
  refine hv a c m ?_
  rw [h.chan]
  exact List.mem_filter.2 ⟨hmem, hc⟩

/-- Where a message is in the channel of the cluster. -/
theorem Conveys.sent (h : Conveys zmq address sendings numbers w v) {i : ℕ} {m : Message n} {timestamp : ℤ}
    (hx : (sendings a)[i]? = some (m, timestamp)) (hreach : m.reaches b = true) :
    (v.chan a b)[sendings.place a b i]? = some m := by
  have hplace := getElem?_place (p := fun x : Message n × ℤ => x.1.reaches b) hx hreach
  rw [h.chan, List.filter_map, List.getElem?_map]
  exact congrArg (Option.map Prod.fst) hplace

/-- A part that comes to a listener: the dict is kept if it is for the node. -/
theorem listen_part (hinj : Function.Injective address) {m : Message n} (hm : m.carried = true)
    (timestamp : ℤ) (b : Fin n)
    (parts : List (List UInt8)) :
    Interface.listen zmq (address b) (zmq.sendJson (m.jsonify address timestamp) :: parts) =
      some (if m.reaches b then some (m.jsonify address timestamp) else none, parts) := by
  have hrecv := zmq.recv_send _ (valid_jsonify address timestamp hm)
  have hfor : isFor (address b) (optional (fun c => .str (address c)) m.base.receiver) = m.reaches b := by
    unfold Message.reaches
    cases m.base.receiver with
    | none => simp [isFor, optional]
    | some c => simp [isFor, optional, hinj.eq_iff]
  simp only [Interface.listen, hrecv, receiver_jsonify, hfor, Option.bind_eq_bind,
    Option.bind_some, Option.pure_def]

/-- Only the queue of `b` changes. -/
theorem Conveys.queued_update (h : Conveys zmq address sendings numbers w v) {messages : List Json}
    {ns : List (Fin n × ℕ)} (hb : List.Forall₂ (Queued address sendings b) messages ns) (c : Fin n) :
    List.Forall₂ (Queued address sendings c) (Function.update w.messages b messages c)
      (Function.update numbers b ns c) := by
  by_cases hcb : c = b
  · subst hcb
    rw [Function.update_self, Function.update_self]
    exact hb
  · rw [Function.update_of_ne hcb, Function.update_of_ne hcb]
    exact h.queued c

/-- A listener is done with part `i` and those before it. -/
theorem Conveys.skipped (h : Conveys zmq address sendings numbers w v) {i : ℕ} (hi : w.heard a b ≤ i) :
    Conveys zmq address sendings numbers
      { w with heard := fun x y => if x = a ∧ y = b then i + 1 else w.heard x y } v := by
  have hheard : ∀ x y, w.heard x y ≤ if x = a ∧ y = b then i + 1 else w.heard x y := by
    intro x y
    split
    · rename_i hxy
      rw [hxy.1, hxy.2]
      omega
    · exact le_rfl
  exact ⟨h.node, h.parts, h.chan, h.queued, h.order, fun c x hx => lt_of_lt_of_le (h.heard c x hx) (hheard x.1 c),
    h.fresh, fun x y => (h.ahead x y).trans (place_mono (hheard x y))⟩

/-- A listener hands a dict over: it is the last one in the queue. -/
theorem Conveys.kept (h : Conveys zmq address sendings numbers w v) {i : ℕ} (hi : w.heard a b ≤ i) {m : Message n}
    {timestamp : ℤ} (hx : (sendings a)[i]? = some (m, timestamp)) (hreach : m.reaches b = true) :
    Conveys zmq address sendings (Function.update numbers b (numbers b ++ [(a, i)]))
      { w with
        heard := fun x y => if x = a ∧ y = b then i + 1 else w.heard x y
        messages := Function.update w.messages b (w.messages b ++ [m.jsonify address timestamp]) } v := by
  have hskipped := h.skipped hi
  have horder : (numbers b ++ [(a, i)]).Pairwise fun x y => x.1 = y.1 → x.2 < y.2 := by
    rw [List.pairwise_append]
    refine ⟨h.order b, List.pairwise_singleton _ _, fun x hx' y hy hxy => ?_⟩
    rw [List.mem_singleton.1 hy] at hxy ⊢
    have hlt := h.heard b x hx'
    rw [hxy] at hlt
    exact lt_of_lt_of_le hlt hi
  have hlast : i < if a = a ∧ b = b then i + 1 else w.heard a b := by
    rw [if_pos ⟨rfl, rfl⟩]
    exact Nat.lt_succ_self i
  have hfresh : v.pos a b ≤ sendings.place a b i := (h.ahead a b).trans (place_mono hi)
  refine ⟨h.node, h.parts, h.chan,
    h.queued_update (List.rel_append (h.queued b) (.cons ⟨m, timestamp, hx, hreach, rfl⟩ .nil)), ?_, ?_, ?_,
    hskipped.ahead⟩
  · exact (Function.forall_update_iff numbers fun _ ns => ns.Pairwise fun x y => x.1 = y.1 → x.2 < y.2).2
      ⟨horder, fun c _ => h.order c⟩
  · exact (Function.forall_update_iff numbers fun c ns =>
      ∀ x ∈ ns, x.2 < if x.1 = a ∧ c = b then i + 1 else w.heard x.1 c).2
      ⟨List.forall_mem_append.2 ⟨hskipped.heard b, List.forall_mem_singleton.2 hlast⟩,
        fun c _ => hskipped.heard c⟩
  · exact (Function.forall_update_iff numbers fun c ns => ∀ x ∈ ns, v.pos x.1 c ≤ sendings.place x.1 c x.2).2
      ⟨List.forall_mem_append.2 ⟨h.fresh b, List.forall_mem_singleton.2 hfresh⟩, fun c _ => h.fresh c⟩

/-- **A part comes to a listener.** -/
theorem Conveys.listened (h : Conveys zmq address sendings numbers w v)
    (hinj : Function.Injective address) (hv : v.Sendable)
    {i : ℕ} (hi : w.heard a b ≤ i) {msg : Option Json} {rest : List (List UInt8)}
    (hlisten : Interface.listen zmq (address b) ((w.parts a).drop i) = some (msg, rest)) :
    ∃ numbers', Conveys zmq address sendings numbers'
      { w with
        heard := fun x y => if x = a ∧ y = b then i + 1 else w.heard x y
        messages := Function.update w.messages b (w.messages b ++ msg.toList) } v := by
  -- the part is that of a message
  cases hdrop : (w.parts a).drop i with
  | nil =>
    rw [hdrop] at hlisten
    cases hlisten
  | cons part parts =>
    have hpart : (w.parts a)[i]? = some part := by rw [← List.head?_drop, hdrop, List.head?_cons]
    rw [h.parts, List.getElem?_map, Option.map_eq_some_iff] at hpart
    obtain ⟨⟨m, timestamp⟩, hx, rfl⟩ := hpart
    rw [hdrop, listen_part hinj (h.sendable hv hx).1] at hlisten
    obtain ⟨rfl, -⟩ := Prod.mk.inj (Option.some.inj hlisten)
    by_cases hreach : m.reaches b = true
    · rw [if_pos hreach]
      exact ⟨_, h.kept hi hx hreach⟩
    · rw [if_neg hreach, Option.toList_none, List.append_nil, Function.update_eq_self]
      exact ⟨numbers, h.skipped hi⟩

/-- **A node takes a dict out of its queue**: in the cluster it takes the message from its
place in the channel. -/
theorem Conveys.taken (h : Conveys zmq address sendings numbers w v)
    (hinj : Function.Injective address) (hv : v.Sendable)
    {msg : Json} {rest : List Json} (hmsg : w.messages b = msg :: rest) (timers : Timers n) :
    ∃ numbers' a i m, v.incoming b { timers with recv := some (a, i) } = some (some m) ∧
      getMessage address msg = some m ∧
      Conveys zmq address sendings numbers' { w with messages := Function.update w.messages b rest }
        (v.taken b { timers with recv := some (a, i) }) := by
  have hqueued := h.queued b
  rw [hmsg] at hqueued
  obtain ⟨⟨a, i⟩, ns, hmessage, hrest, hns⟩ := List.forall₂_cons_left_iff.1 hqueued
  obtain ⟨m, timestamp, hx, hreach, rfl⟩ := hmessage
  have hmem : (a, i) ∈ numbers b := hns ▸ List.mem_cons_self
  have horder := h.order b
  rw [hns, List.pairwise_cons] at horder
  have hsucc : sendings.place a b (i + 1) = sendings.place a b i + 1 := place_succ hx hreach
  have hchan := h.sent hx hreach
  refine ⟨Function.update numbers b ns, a, sendings.place a b i, m, ?_, getMessage_jsonify hinj timestamp
    (h.sendable hv hx).2, h.node, h.parts, h.chan, h.queued_update hrest, ?_, ?_, ?_, fun x y => ?_⟩
  · simp only [World.incoming, if_pos (h.fresh b (a, i) hmem), hchan, Option.map_some]
  · exact (Function.forall_update_iff numbers fun _ ns => ns.Pairwise fun x y => x.1 = y.1 → x.2 < y.2).2
      ⟨horder.2, fun c _ => h.order c⟩
  · exact (Function.forall_update_iff numbers fun c ns => ∀ x ∈ ns, x.2 < w.heard x.1 c).2
      ⟨fun x hx' => h.heard b x (hns ▸ List.mem_cons_of_mem _ hx'), fun c _ => h.heard c⟩
  · refine (Function.forall_update_iff numbers fun c ns => ∀ x ∈ ns,
      (if x.1 = a ∧ c = b then sendings.place a b i + 1 else v.pos x.1 c) ≤ sendings.place x.1 c x.2).2
      ⟨fun x hx' => ?_, fun c hcb x hx' => ?_⟩
    · split
      · -- what is left in the queue has been sent later
        rename_i hsame
        rw [hsame.1, ← hsucc]
        exact place_mono (horder.1 x hx' hsame.1.symm)
      · exact h.fresh b x (hns ▸ List.mem_cons_of_mem _ hx')
    · rw [if_neg fun hsame => hcb hsame.2]
      exact h.fresh c x hx'
  · show (if x = a ∧ y = b then sendings.place a b i + 1 else v.pos x y) ≤ sendings.place x y (w.heard x y)
    split
    · rename_i hsame
      rw [hsame.1, hsame.2, ← hsucc]
      exact place_mono (h.heard b (a, i) hmem)
    · exact h.ahead x y

/-- **`_get_message`** is that of a round of the cluster. -/
theorem Conveys.gets (h : Conveys zmq address sendings numbers w v)
    (hinj : Function.Injective address) (hv : v.Sendable)
    (timers : Timers n) {get : Bool} {m : Option (Message n)} {rest : List Json}
    (hget : w.getMessage address b get = some (m, rest)) :
    ∃ numbers', ∃ r : Round n, r.toTimers = timers ∧ v.incoming b r = some m ∧
      Conveys zmq address sendings numbers'
        { w with messages := Function.update w.messages b rest } (v.taken b r) := by
  unfold Sockets.getMessage at hget
  split at hget
  · rename_i msg rest' hmsg
    obtain ⟨numbers', a, i, m', hincoming, hmessage, hconveys⟩ := h.taken hinj hv hmsg timers
    rw [hmessage] at hget
    obtain ⟨rfl, rfl⟩ := Prod.mk.inj (Option.some.inj hget)
    exact ⟨numbers', _, rfl, hincoming, hconveys⟩
  · obtain ⟨rfl, rfl⟩ := Prod.mk.inj (Option.some.inj hget)
    refine ⟨numbers, { timers with recv := none }, rfl, rfl, ?_⟩
    rw [Function.update_eq_self]
    exact h

/-! ## Runs -/

/-- What a client asks for by the event. -/
def SocketEvent.request? : SocketEvent n → Option (Fin n × Value × Key)
  | .clientRequest b value idNum => some (b, value, idNum)
  | _ => none

/-- What a client asks for is a Python value: no dict in it has a key twice. -/
def Askable (r : Fin n × Value × Key) : Prop := Json.valid r.2.1.toJson = true

/-- **The messages of a cluster can be sent**, if what its clients ask for can. -/
theorem sendable_wAt {es : List (Event n)} (h : ∀ r ∈ es.filterMap Event.request?, Askable r) (k : ℕ) :
    (wAt es k).Sendable := by
  intro a c m hm
  refine ⟨?_, ?_⟩
  · unfold Message.carried
    cases he : m.entries with
    | none => rfl
    | some e =>
      cases made_of_carried hm he with
      | init => rfl
      | leader before lead => rfl
      | request before event => exact h _ (List.mem_filterMap.2 ⟨_, List.mem_of_getElem? event, rfl⟩)
  · obtain ⟨s, -, hsends⟩ := (tracked_wAt es k).emits a c m hm
    cases hsends with
    | requestVote => trivial
    | vote candidate voteGranted => trivial
    | heartbeat => exact MessageType.noConfusion
    | appendEntries index term entries receiver => exact MessageType.noConfusion
    | committal receiver => exact MessageType.noConfusion
    | acknowledge receiver success => exact MessageType.noConfusion
    | clientRequest receiver entry => exact MessageType.noConfusion

/-- **An event over the sockets** is one of the cluster, or none. -/
theorem Conveys.step (h : Conveys zmq address sendings numbers w v)
    (hinj : Function.Injective address) (hv : v.Sendable)
    (ev : SocketEvent n) : ∃ sendings' numbers', ∃ l : List (Event n),
      Conveys zmq address sendings' numbers' (w.step zmq address ev) (l.foldl World.step v) ∧
        l.filterMap Event.request? = ev.request?.toList := by
  have hnode := h.node
  cases ev with
  | clientRequest b value idNum =>
    refine ⟨sendings.extend b ((w.node b).clientRequest value idNum) fun _ => 0, numbers,
      [.clientRequest b value idNum], ?_, rfl⟩
    have hstep : [Event.clientRequest b value idNum].foldl World.step v =
        v.put b ((w.node b).clientRequest value idNum) := by
      rw [hnode]
      rfl
    rw [hstep]
    exact h.put b _ _
  | call b timestamp =>
    by_cases hframe : (w.node b).frame = .run
    swap
    · exact ⟨sendings, numbers, [], by simpa only [Sockets.step, if_neg hframe, List.foldl_nil] using h, rfl⟩
    cases hcall : (w.node b).call with
    | none =>
      exact ⟨sendings, numbers, [],
        by simpa only [Sockets.step, if_pos hframe, hcall, List.foldl_nil] using h, rfl⟩
    | some s =>
      refine ⟨sendings.extend b s timestamp, numbers, [.call b], ?_, rfl⟩
      have hstep : [Event.call b].foldl World.step v = v.put b s := by
        rw [hnode] at hframe hcall
        simp only [List.foldl_cons, List.foldl_nil, World.step, if_pos hframe, hcall]
      rw [hstep]
      simp only [Sockets.step, if_pos hframe, hcall]
      exact h.put b s timestamp
  | loop b timers get timestamp =>
    by_cases hframe : (w.node b).frame = .run
    · exact ⟨sendings, numbers, [], by simpa only [Sockets.step, if_pos hframe, List.foldl_nil] using h, rfl⟩
    cases hget : w.getMessage address b get with
    | none =>
      exact ⟨sendings, numbers, [],
        by simpa only [Sockets.step, if_neg hframe, hget, List.foldl_nil] using h, rfl⟩
    | some got =>
      obtain ⟨m, rest⟩ := got
      cases hloop : (w.node b).loop timers m with
      | none =>
        exact ⟨sendings, numbers, [],
          by simpa only [Sockets.step, if_neg hframe, hget, hloop, List.foldl_nil] using h, rfl⟩
      | some s =>
        obtain ⟨numbers', r, rfl, hincoming, hconveys⟩ := h.gets hinj hv timers hget
        refine ⟨sendings.extend b s timestamp, numbers', [.loop b r], ?_, rfl⟩
        have hstep : [Event.loop b r].foldl World.step v = (v.taken b r).put b s := by
          rw [hnode] at hframe hloop
          simp only [List.foldl_cons, List.foldl_nil, World.step, if_neg hframe, hincoming, hloop]
        rw [hstep]
        simp only [Sockets.step, if_neg hframe, hget, hloop]
        exact hconveys.put b s timestamp
  | listen b a i =>
    refine ⟨sendings, ?_⟩
    simp only [Sockets.step]
    split
    · rename_i hi
      split
      · exact ⟨numbers, [], h, rfl⟩
      · rename_i msg rest hlisten
        obtain ⟨numbers', hconveys⟩ := h.listened hinj hv hi hlisten
        exact ⟨numbers', [], hconveys, rfl⟩
    · exact ⟨numbers, [], h, rfl⟩

/-- The events `l` of the cluster lead where the first `k` over the sockets do, and its
clients ask for the same. -/
def Follows (zmq : JsonSocket) (address : Fin n → String) (es : List (SocketEvent n)) (k : ℕ)
    (l : List (Event n)) : Prop :=
  (∃ sendings numbers, Conveys zmq address sendings numbers (socketsAt zmq address es k) (wAt l l.length)) ∧
    l.filterMap Event.request? = (es.take k).filterMap SocketEvent.request?

section

variable {es : List (SocketEvent n)} {k : ℕ} {l : List (Event n)}

theorem Follows.sendable (h : Follows zmq address es k l)
    (hask : ∀ r ∈ es.filterMap SocketEvent.request?, Askable r) : (wAt l l.length).Sendable := by
  refine sendable_wAt (fun r hr => hask r ?_) l.length
  rw [h.2] at hr
  exact ((List.take_sublist k es).filterMap _).subset hr

theorem Follows.succ (h : Follows zmq address es k l) (hinj : Function.Injective address)
    (hask : ∀ r ∈ es.filterMap SocketEvent.request?, Askable r) (hk : k < es.length) :
    ∃ l', Follows zmq address es (k + 1) (l ++ l') := by
  have hsendable := h.sendable hask
  obtain ⟨⟨sendings, numbers, hconveys⟩, hrequests⟩ := h
  obtain ⟨sendings', numbers', l', hconveys', hl'⟩ := hconveys.step hinj hsendable es[k]
  refine ⟨l', ⟨sendings', numbers', ?_⟩, ?_⟩
  · have hrun : wAt (l ++ l') (l ++ l').length = l'.foldl World.step (wAt l l.length) := by
      unfold wAt stateAt
      rw [List.take_length, List.take_length, List.foldl_append]
    rw [hrun, socketsAt, stateAt_succ hk]
    exact hconveys'
  · rw [List.filterMap_append, hrequests, hl', List.take_add_one, List.getElem?_eq_getElem hk, Option.toList_some,
      List.filterMap_append]
    cases hrequest : es[k].request? with
    | none => simp [hrequest]
    | some r => simp [hrequest]

end

end EdgeConsensus.Raft
