import EdgeConsensus.Edge.Responses
import EdgeConsensus.Lib.Leases

/-!
# A node among its neighbours

The process of `node.py`: a main thread, which advertises the node, starts a consensus when it knows three other
nodes, and forgets those that it has not heard for some time; a listener for the advertisements of other nodes;
and one for those of an edge server. Each thread makes its lock for itself, so the threads interleave freely: a
step of this model is one access to what they share.

* `mainStep`: the next step of `main`, with `local_consensus`; `raiseCommitted` if its `RaftNode` lets it down.
* `bluetoothListener`, `bluetoothAssign`: the listener for other nodes, with the worker that it waits for.
-/

namespace EdgeConsensus.Local

open Lib

/-- `BLUETOOTH_ADVERTISEMENT_INTERVAL`, in nanoseconds as all times. -/
def bluetoothAdvertisementInterval : ℕ := 500000000

/-- `BLUETOOTH_HEARTBEAT_TIMER`. -/
def bluetoothHeartbeatTimer : ℕ := 10 * bluetoothAdvertisementInterval

/-- `EDGE_HEARTBEAT_TIMER`. -/
def edgeHeartbeatTimer : ℕ := 10 * 1000000000

/-- `str(HIGH_POWER_TX_PORT)`. -/
def highPowerTxPort : List Char := ['6', '0', '0', '2', '1']

/-! ## Advertisements -/

/-- What `recvfrom(1024)` returns of a datagram. -/
def recvfrom (data : List UInt8) : List UInt8 := data.take 1024

/-- `bluetooth_process_advertisement`, up to the assignment: the id and the address in it; `none` if it raises. -/
def bluetoothAdvertisement (data : List UInt8) : Option (List Char × List Char) :=
  match decode (recvfrom data) with
  | none => none
  | some message =>
    match message.splitOn ',' with
    | [unicastAddress, nodeId] => some (nodeId, unicastAddress)
    | _ => none

/-- `bluetooth_process_advertisement` of the broadcast node: what it sends, and to which address. -/
def broadcast (recipients : List (List Char)) (data : List UInt8) (address : List Char) :
    Option (List (List Char × List UInt8)) :=
  (decode (recvfrom data)).map fun message => (recipients.filter (· ≠ address)).map fun listener =>
    (listener, encode message)

/-! ## Consensus -/

/-- `{'ip': ..., 'port': ...}`. -/
structure Contact where
  ip : List Char
  port : List Char
  deriving DecidableEq

/-- `a['ip'] + ':' + a['port']`. -/
def Contact.address (c : Contact) : List Char := c.ip ++ ':' :: c.port

abbrev CommDict : Type := Dict (List Char) Contact

/-- What `RaftNode.__init__` makes of its config and name. -/
structure Members where
  allIds : List (List Char)
  myId : List Char
  deriving DecidableEq

/-- `RaftNode.__init__`, its addresses; `none` if it raises. -/
def Members.init (addressBook : CommDict) (name : List Char) : Option Members :=
  (addressBook.find? name).map fun me =>
    { allIds :=
        (addressBook.entries.filter fun a => a.1 ≠ ['l', 'e', 'a', 'd', 'e', 'r']).map fun a => a.2.address
      myId := me.address }

theorem Members.init_assign (d : CommDict) (name : List Char) (c : Contact) :
    ∃ raft, Members.init (d.assign name c) name = some raft := by
  unfold Members.init
  rw [Dict.find?_assign_self]
  exact ⟨_, rfl⟩

/-- `_get_node_index`; `none` if it raises. -/
def Members.getNodeIndex (m : Members) (nodeAddress : List Char) : Option ℕ := m.allIds.idxOf? nodeAddress

/-! ## The process -/

/-- `local_group`: an address and a time for each id. -/
abbrev LocalGroup : Type := Dict (List Char) (List Char × ℕ)

/-- An iterator over the keys of a dict: the size of the dict when it was made, and how many keys it has given. -/
structure KeyIterator where
  size : ℕ
  index : ℕ
  deriving DecidableEq

/-- What raises an exception before the loop over `keylist`. -/
inductive Failure
  -- `for key in local_group.keys()`: the dictionary has changed its size
  | iteration
  -- `local_group[key]`
  | lookup
  -- `RaftNode(comm_dict, str(NODE_INDEX))`
  | raftNode
  -- `self.check_committed_entry()`
  | committedEntry
  -- `systime - edge_server_address_time[1]`
  | edgeTime
  deriving DecidableEq

/-- Where `main` is. Behind `list` it has its `keylist`. -/
inductive MainPoint
  -- the test of the interval
  | test
  -- `systime = get_system_time()`
  | renew
  | bluetoothSender
  -- `keylist = list(local_group.keys())[:]`
  | list
  -- `if len(keylist) == 3`
  | trigger (keylist : List (List Char))
  -- `for key in local_group.keys()` of `local_consensus`
  | iterate (keylist : List (List Char)) (it : KeyIterator) (commDict : CommDict)
  -- its body
  | copy (keylist : List (List Char)) (it : KeyIterator) (commDict : CommDict) (key : List Char)
  -- behind the loop, before the `RaftNode` is made
  | make (keylist : List (List Char)) (commDict : CommDict)
  -- the `RaftNode` runs
  | consensus (keylist : List (List Char)) (raft : Members)
  -- the three accesses to `edge_server_address_time`
  | edgeKnown (keylist : List (List Char))
  | edgeTimer (keylist : List (List Char))
  | edgeReset (keylist : List (List Char))
  -- `for key in keylist`
  | sweep (sweep : Sweep (List Char))
  -- an exception has ended `main` before that loop
  | raised (keylist : List (List Char)) (failure : Failure)
  deriving DecidableEq

structure Process where
  localGroup : LocalGroup
  -- `none` for `(None, None)`
  edgeServerAddressTime : Option (List Char × ℕ)
  systime : ℕ
  main : MainPoint
  -- what the worker of the bluetooth listener is about to assign: a key, an address and a time
  heard : Option (List Char × List Char × ℕ)
  -- the same for the worker of the edge listener
  heardEdge : Option (List Char × ℕ)
  -- what `get_system_time` returns
  clock : ℕ
  -- what has been sent to the broadcast node
  outbox : List (List UInt8)

namespace Process

/-- `main` has read the time and comes to its loop; nothing was heard yet. -/
def init : Process where
  localGroup := Dict.empty
  edgeServerAddressTime := none
  systime := 0
  main := .test
  heard := none
  heardEdge := none
  clock := 0
  outbox := []

/-- The next step of `main`, on the node `me`. Of a step of the last loop the times are compared as
`systime - local_group[key][1] >= BLUETOOTH_HEARTBEAT_TIMER`. -/
def mainStep (me : Edge.Node) (s : Process) : Process :=
  match s.main with
  | .test => if s.systime + bluetoothAdvertisementInterval ≤ s.clock then { s with main := .renew } else s
  | .renew => { s with systime := s.clock, main := .bluetoothSender }
  | .bluetoothSender => { s with outbox := s.outbox ++ [encode me.message], main := .list }
  | .list => { s with main := .trigger s.localGroup.keys }
  | .trigger keylist =>
    if keylist.length = 3 then { s with main := .iterate keylist ⟨s.localGroup.entries.length, 0⟩ Dict.empty }
    else { s with main := .edgeKnown keylist }
  | .iterate keylist it commDict =>
    if s.localGroup.entries.length ≠ it.size then { s with main := .raised keylist .iteration }
    else
      match s.localGroup.keys[it.index]? with
      | none => { s with main := .make keylist commDict }
      | some key => { s with main := .copy keylist ⟨it.size, it.index + 1⟩ commDict key }
  | .copy keylist it commDict key =>
    match s.localGroup.find? key with
    | none => { s with main := .raised keylist .lookup }
    | some x => { s with main := .iterate keylist it (commDict.assign key ⟨x.1, highPowerTxPort⟩) }
  | .make keylist commDict =>
    match Members.init (commDict.assign me.id ⟨me.address.text, highPowerTxPort⟩) me.id with
    | none => { s with main := .raised keylist .raftNode }
    | some raft => { s with main := .consensus keylist raft }
  -- the request, the two `sleep`s, and `check_committed_entry`, which returns
  | .consensus keylist _ => { s with main := .edgeKnown keylist }
  | .edgeKnown keylist =>
    if s.edgeServerAddressTime = none then { s with main := .sweep (.checking s.systime keylist) }
    else { s with main := .edgeTimer keylist }
  | .edgeTimer keylist =>
    match s.edgeServerAddressTime with
    -- `None` cannot be subtracted
    | none => { s with main := .raised keylist .edgeTime }
    | some x =>
      if x.2 + edgeHeartbeatTimer ≤ s.systime then { s with main := .edgeReset keylist }
      else { s with main := .sweep (.checking s.systime keylist) }
  | .edgeReset keylist => { s with edgeServerAddressTime := none, main := .sweep (.checking s.systime keylist) }
  | .sweep sweep =>
    let t := Leases.advance bluetoothHeartbeatTimer ⟨s.localGroup, sweep⟩
    { s with
      localGroup := t.table
      main := match t.sweep with
        | .resting => .test
        | sweep => .sweep sweep }
  | .raised _ _ => s

/-- `check_committed_entry` raises: the commit index of the `RaftNode` is not in its log. -/
def raiseCommitted (s : Process) : Process :=
  match s.main with
  | .consensus keylist _ => { s with main := .raised keylist .committedEntry }
  | _ => s

/-- A datagram comes to the bluetooth listener, whose worker reads the time for it. The listener waits for the
worker; if the worker raises, nobody asks. -/
def bluetoothListener (s : Process) (data : List UInt8) : Process :=
  if s.heard = none then { s with heard := (bluetoothAdvertisement data).map fun x => (x.1, x.2, s.clock) } else s

/-- `local_group[node_id] = ...`. -/
def bluetoothAssign (s : Process) : Process :=
  match s.heard with
  | none => s
  | some x => { s with localGroup := s.localGroup.assign x.1 x.2, heard := none }

/-- A datagram comes to the listener for edge servers. If it raises, nothing more may come. -/
def edgeBroadcastListener (s : Process) (data : List UInt8) : Process :=
  if s.heardEdge = none then
    { s with heardEdge := (decode (recvfrom data)).map fun message => (message, s.clock) }
  else s

/-- `edge_server_address_time = ...`. -/
def edgeAssign (s : Process) : Process :=
  match s.heardEdge with
  | none => s
  | some x => { s with edgeServerAddressTime := some x, heardEdge := none }

theorem raiseCommitted_eq (s : Process) :
    s.raiseCommitted = s ∨ ∃ keylist raft, s.main = .consensus keylist raft ∧
      s.raiseCommitted = { s with main := .raised keylist .committedEntry } := by
  unfold raiseCommitted
  split
  · rename_i keylist raft hmain
    exact Or.inr ⟨keylist, raft, hmain, rfl⟩
  · exact Or.inl rfl

theorem bluetoothListener_eq (s : Process) (data : List UInt8) :
    ∃ heard, s.bluetoothListener data = { s with heard := heard } ∧ ∀ x, heard = some x → s.heard = some x ∨
      (bluetoothAdvertisement data = some (x.1, x.2.1) ∧ x.2.2 = s.clock) := by
  unfold bluetoothListener
  split
  · refine ⟨_, rfl, fun x hx => Or.inr ?_⟩
    obtain ⟨y, hy, rfl⟩ := Option.map_eq_some_iff.1 hx
    exact ⟨hy, rfl⟩
  · exact ⟨s.heard, rfl, fun x hx => Or.inl hx⟩

theorem bluetoothAssign_eq (s : Process) : (s.heard = none ∧ s.bluetoothAssign = s) ∨
    ∃ x, s.heard = some x ∧
      s.bluetoothAssign = { s with localGroup := s.localGroup.assign x.1 x.2, heard := none } := by
  unfold bluetoothAssign
  split
  · rename_i hnone
    exact Or.inl ⟨hnone, rfl⟩
  · rename_i x hx
    exact Or.inr ⟨x, hx, rfl⟩

theorem edgeBroadcastListener_eq (s : Process) (data : List UInt8) :
    ∃ heardEdge, s.edgeBroadcastListener data = { s with heardEdge := heardEdge } := by
  unfold edgeBroadcastListener
  split
  · exact ⟨_, rfl⟩
  · exact ⟨s.heardEdge, rfl⟩

/-- An edge server that is known stays so. -/
theorem edgeAssign_eq (s : Process) : ∃ edge heardEdge,
    s.edgeAssign = { s with edgeServerAddressTime := edge, heardEdge := heardEdge } ∧
      (s.edgeServerAddressTime ≠ none → edge ≠ none) := by
  unfold edgeAssign
  split
  · exact ⟨s.edgeServerAddressTime, s.heardEdge, rfl, fun h => h⟩
  · exact ⟨_, none, rfl, fun _ => by simp⟩

end Process

end EdgeConsensus.Local
