import EdgeConsensus.Raft.Cluster
import EdgeConsensus.Raft.PyValue

/-!
# Messages as they are received

`un_jsonify` of the message classes and `parse_json_message`, on what the wire leaves of a
message: all fields are Python values, and the type field picks the classes.

* `jsonify_toPy`: for the entries of the other modules this is their `jsonify`.
* `parse_jsonify`: every sender's type picks the class of the sender.
* `messages_survive`: a message is received as it was sent, and its entry is filed under its
  id, exactly if the entry has no tuple and no object that JSON refuses.
* `tuple_raises`, `tuple_id`: a tuple comes back as a list, which can be no key.
-/

namespace EdgeConsensus.Raft

open Lib

/-- `message[key]`, which raises if there is no such key. -/
def PyValue.item (message : PyValue) (key : String) : Option PyValue :=
  match message with
  | .dict items => (items.find? fun pair => pair.1 = key).map Prod.snd
  | _ => Option.none

/-! ## The classes -/

namespace Py

/-- `RequestVotesResults` or `AppendEntriesResults`. -/
inductive Results
  | requestVotes (term voteGranted : PyValue)
  | appendEntries (term success : PyValue)

structure BaseMessage where
  type : PyValue
  term : PyValue
  timestamp : PyValue
  sender : PyValue
  receiver : PyValue
  direction : PyValue
  results : Results

structure RequestVotesMessage extends BaseMessage where
  candidateId : PyValue
  lastLogIndex : PyValue
  lastLogTerm : PyValue

structure AppendEntriesMessage extends BaseMessage where
  leaderId : PyValue
  prevLogIndex : PyValue
  prevLogTerm : PyValue
  entries : PyValue
  leaderCommit : PyValue

/-- Equal messages are of one class and equal in all their getters. -/
inductive Message
  | requestVotes (m : RequestVotesMessage)
  | appendEntries (m : AppendEntriesMessage)

def Results.jsonify : Results → PyValue
  | .requestVotes term voteGranted => .dict [("term", term), ("vote_granted", voteGranted)]
  | .appendEntries term success => .dict [("term", term), ("success", success)]

/-- The items of `BaseMessage.jsonify`. -/
def BaseMessage.items (m : BaseMessage) : List (String × PyValue) :=
  [("type", m.type), ("term", m.term), ("timestamp", m.timestamp), ("sender", m.sender),
    ("receiver", m.receiver), ("direction", m.direction), ("results", m.results.jsonify)]

def Message.jsonify : Message → PyValue
  | .requestVotes m => .dict (m.items ++
      [("candidate_id", m.candidateId), ("last_log_index", m.lastLogIndex), ("last_log_term", m.lastLogTerm)])
  | .appendEntries m => .dict (m.items ++
      [("leader_id", m.leaderId), ("prev_log_index", m.prevLogIndex), ("prev_log_term", m.prevLogTerm),
        ("entries", m.entries), ("leader_commit", m.leaderCommit)])

/-- `type == MessageType.RequestVotes`; False is equal to 0 as well. -/
def isRequestVotes : PyValue → Bool
  | .int z => z = 0
  | .bool b => !b
  | _ => false

def Results.unJsonify (type message : PyValue) : Option Results :=
  if isRequestVotes type then do
    return .requestVotes (← message.item "term") (← message.item "vote_granted")
  else do
    return .appendEntries (← message.item "term") (← message.item "success")

def BaseMessage.unJsonify (message : PyValue) : Option BaseMessage := do
  let type ← message.item "type"
  let term ← message.item "term"
  let timestamp ← message.item "timestamp"
  let sender ← message.item "sender"
  let receiver ← message.item "receiver"
  let direction ← message.item "direction"
  let results ← Results.unJsonify type (← message.item "results")
  return { type, term, timestamp, sender, receiver, direction, results }

def RequestVotesMessage.unJsonify (message : PyValue) : Option RequestVotesMessage := do
  let base ← BaseMessage.unJsonify message
  let candidateId ← message.item "candidate_id"
  let lastLogIndex ← message.item "last_log_index"
  let lastLogTerm ← message.item "last_log_term"
  return { base with candidateId, lastLogIndex, lastLogTerm }

def AppendEntriesMessage.unJsonify (message : PyValue) : Option AppendEntriesMessage := do
  let base ← BaseMessage.unJsonify message
  let leaderId ← message.item "leader_id"
  let prevLogIndex ← message.item "prev_log_index"
  let prevLogTerm ← message.item "prev_log_term"
  let entries ← message.item "entries"
  let leaderCommit ← message.item "leader_commit"
  return { base with leaderId, prevLogIndex, prevLogTerm, entries, leaderCommit }

/-- `parse_json_message`, which may raise, and gives no message for None. -/
def parseJsonMessage : PyValue → Option (Option Message)
  | .none => some none
  | message => do
    if isRequestVotes (← message.item "type") then
      return some (.requestVotes (← RequestVotesMessage.unJsonify message))
    else
      return some (.appendEntries (← AppendEntriesMessage.unJsonify message))

/-- What `_get_message` makes of a message that was sent. -/
def receive (message : Message) : Option Message := do
  ← parseJsonMessage (← message.jsonify.carry)

/-- `self.log_hash[entry['id']] = entry` of `_append_entry`: the key, if the id can be one. -/
def logHashKey (entry : PyValue) : Option PyValue := do
  let id ← entry.item "id"
  if id.hashable then some id else none

end Py

/-! ## What a node sends -/

/-- A log entry with whatever a client may have asked for. -/
structure PyEntry where
  term : ℕ
  entry : PyValue
  id : PyValue

def PyEntry.dict (e : PyEntry) : PyValue := .dict [("term", .int e.term), ("entry", e.entry), ("id", e.id)]

/-- `None`, or a value. -/
def optionalPy {α : Type*} (f : α → PyValue) : Option α → PyValue
  | none => .none
  | some a => f a

variable {n : ℕ}

def BaseMessage.toPy (address : Fin n → String) (timestamp : ℤ) (type : MessageType) (results : Py.Results)
    (m : BaseMessage n) : Py.BaseMessage where
  type := .int type.number
  term := .int m.term
  timestamp := .int timestamp
  sender := .str (address m.sender)
  receiver := optionalPy (fun b => .str (address b)) m.receiver
  direction := .int m.direction.number
  results := results

/-- The message with these entries in the place of its own. -/
def Message.toPy (address : Fin n → String) (timestamp : ℤ) (entries : PyValue) : Message n → Py.Message
  | .requestVotes m => .requestVotes
      { m.toBaseMessage.toPy address timestamp .requestVotes
          (.requestVotes (optionalPy (fun t : ℕ => .int t) m.results.term)
            (optionalPy .bool m.results.voteGranted)) with
        candidateId := .str (address m.candidateId)
        lastLogIndex := .int m.lastLogIndex
        lastLogTerm := .int m.lastLogTerm }
  | .appendEntries m => .appendEntries
      { m.toBaseMessage.toPy address timestamp m.type
          (.appendEntries (optionalPy (fun t : ℕ => .int t) m.results.term)
            (optionalPy .bool m.results.success)) with
        leaderId := optionalPy (fun b => .str (address b)) m.leaderId
        prevLogIndex := optionalPy (fun i : ℕ => .int i) m.prevLogIndex
        prevLogTerm := optionalPy (fun t : ℕ => .int t) m.prevLogTerm
        entries := entries
        leaderCommit := .int m.leaderCommit }

/-- The messages of a node, and the entry that each one is sent with. -/
inductive SentWith (s : RaftNode n) : Message n → Option PyEntry → Prop
  | requestVote : SentWith s s.requestVoteMessage none
  | vote (candidate : Fin n) (voteGranted : Bool) : SentWith s (s.voteMessage candidate voteGranted) none
  | heartbeat : SentWith s s.heartbeatMessage none
  | appendEntries (index term : ℕ) (own : Entry) (receiver : Fin n) (e : PyEntry) :
      SentWith s (s.appendEntriesMessage index term own receiver) (some e)
  | committal (receiver : Fin n) : SentWith s (s.committalMessage receiver) none
  | acknowledge (receiver : Option (Fin n)) (success : Bool) :
      SentWith s (s.acknowledgeMessage receiver success) none
  | clientRequest (receiver : Option (Fin n)) (own : Entry) (e : PyEntry) :
      SentWith s (s.clientRequestMessage receiver own) (some e)

/-- **The message survives the wire**: it is received, in the class and with the getters that it was sent
with, and the receiver files its entry under the entry's id. -/
def Survives (message : Py.Message) (e : Option PyEntry) : Prop :=
  ∃ received, Py.receive message = some received ∧ received = message ∧
    ∀ x ∈ e, ∃ m, received = .appendEntries m ∧ Py.logHashKey m.entries = some x.id

/-! ## The same dicts -/

def Entry.toPy (e : Entry) : PyEntry := ⟨e.term, e.entry.toPy, e.id.toPy⟩

theorem toJson_optionalPy {α : Type*} {f : α → PyValue} {g : α → Json} {o : Option α}
    (h : ∀ a ∈ o, (f a).toJson = some (g a)) : (optionalPy f o).toJson = some (optional g o) := by
  cases o with
  | none => rfl
  | some a => exact h a rfl

theorem toJson_entry (e : Entry) : e.toPy.dict.toJson = some e.toJson := by
  simp only [PyEntry.dict, Entry.toPy, PyValue.toJson, PyValue.toJsonItems, Value.toJson_toPy, Key.toJson_toPy,
    Option.bind_eq_bind, Option.bind_some, Option.pure_def, Entry.toJson]

/-- **The dicts are those that the talkers of this model carry**, for the entries of this model. -/
theorem jsonify_toPy (address : Fin n → String) (timestamp : ℤ) (m : Message n) :
    (m.toPy address timestamp (optionalPy (fun e => e.toPy.dict) m.entries)).jsonify.toJson =
      some (m.jsonify address timestamp) := by
  have hnat : ∀ o : Option ℕ, (optionalPy (fun t : ℕ => PyValue.int t) o).toJson =
      some (optional (fun t : ℕ => .int t) o) := fun o => toJson_optionalPy fun _ _ => rfl
  have hstr : ∀ o : Option (Fin n), (optionalPy (fun b => PyValue.str (address b)) o).toJson =
      some (optional (fun b => .str (address b)) o) := fun o => toJson_optionalPy fun _ _ => rfl
  have hbool : ∀ o : Option Bool, (optionalPy PyValue.bool o).toJson = some (optional .bool o) :=
    fun o => toJson_optionalPy fun _ _ => rfl
  have hentry : ∀ o : Option Entry, (optionalPy (fun e : Entry => e.toPy.dict) o).toJson =
      some (optional Entry.toJson o) := fun o => toJson_optionalPy fun e _ => toJson_entry e
  cases m with
  | requestVotes m =>
    simp only [Message.toPy, BaseMessage.toPy, Py.Message.jsonify, Py.BaseMessage.items, Py.Results.jsonify,
      List.cons_append, List.nil_append, PyValue.toJson, PyValue.toJsonItems, hnat, hstr, hbool,
      Option.bind_eq_bind, Option.bind_some, Option.pure_def, Message.jsonify, RequestVotesMessage.jsonify,
      BaseMessage.items, RequestVotesResults.jsonify]
  | appendEntries m =>
    simp only [Message.toPy, BaseMessage.toPy, Py.Message.jsonify, Py.BaseMessage.items, Py.Results.jsonify,
      List.cons_append, List.nil_append, PyValue.toJson, PyValue.toJsonItems, hnat, hstr, hbool, hentry,
      Message.entries, Option.bind_eq_bind, Option.bind_some, Option.pure_def, Message.jsonify,
      AppendEntriesMessage.jsonify, BaseMessage.items, AppendEntriesResults.jsonify]

/-! ## Parsing -/

/-- The type field says which class the message has. -/
def Message.Typed : Message n → Prop
  | .requestVotes _ => True
  | .appendEntries m => m.type ≠ .requestVotes

theorem SentWith.typed {s : RaftNode n} {m : Message n} {e : Option PyEntry} (h : SentWith s m e) : m.Typed := by
  cases h with
  | requestVote => trivial
  | vote candidate voteGranted => trivial
  | heartbeat => exact MessageType.noConfusion
  | appendEntries index term own receiver e => exact MessageType.noConfusion
  | committal receiver => exact MessageType.noConfusion
  | acknowledge receiver success => exact MessageType.noConfusion
  | clientRequest receiver own e => exact MessageType.noConfusion

/-- **The class of the sender is picked**, and all fields are read back. -/
theorem parse_jsonify (address : Fin n → String) (timestamp : ℤ) (entries : PyValue) {m : Message n}
    (h : m.Typed) : Py.parseJsonMessage (m.toPy address timestamp entries).jsonify =
      some (some (m.toPy address timestamp entries)) := by
  cases m with
  | requestVotes m => rfl
  | appendEntries m =>
    obtain ⟨base, type, results, leaderId, prevLogIndex, prevLogTerm, own, leaderCommit⟩ := m
    cases type with
    | requestVotes => exact absurd rfl h
    | requestVoteResponse => rfl
    | heartbeat => rfl
    | acknowledge => rfl
    | appendEntries => rfl
    | committal => rfl
    | clientRequest => rfl

/-! ## What the wire changes -/

theorem carried_optionalPy {α : Type*} {f : α → PyValue} {o : Option α} (h : ∀ a ∈ o, (f a).carried = true) :
    (optionalPy f o).carried = true := by
  cases o with
  | none => rfl
  | some a => exact h a rfl

theorem wellFormed_optionalPy {α : Type*} {f : α → PyValue} {o : Option α}
    (h : ∀ a ∈ o, (f a).wellFormed = true) : (optionalPy f o).wellFormed = true := by
  cases o with
  | none => rfl
  | some a => exact h a rfl

/-- Beside its entries a message has numbers, addresses and booleans. -/
theorem carried_jsonify (address : Fin n → String) (timestamp : ℤ) {entries : PyValue} (m : Message n)
    (h : entries.carried = true) : (m.toPy address timestamp entries).jsonify.carried = true := by
  have hnat : ∀ o : Option ℕ, (optionalPy (fun t : ℕ => PyValue.int t) o).carried = true :=
    fun o => carried_optionalPy fun _ _ => rfl
  have hstr : ∀ o : Option (Fin n), (optionalPy (fun b => PyValue.str (address b)) o).carried = true :=
    fun o => carried_optionalPy fun _ _ => rfl
  have hbool : ∀ o : Option Bool, (optionalPy PyValue.bool o).carried = true :=
    fun o => carried_optionalPy fun _ _ => rfl
  cases m with
  | requestVotes m =>
    simp only [Message.toPy, BaseMessage.toPy, Py.Message.jsonify, Py.BaseMessage.items, Py.Results.jsonify,
      List.cons_append, List.nil_append, PyValue.carried, PyValue.carriedItems, hnat, hstr, hbool, Bool.and_true]
  | appendEntries m =>
    simp only [Message.toPy, BaseMessage.toPy, Py.Message.jsonify, Py.BaseMessage.items, Py.Results.jsonify,
      List.cons_append, List.nil_append, PyValue.carried, PyValue.carriedItems, hnat,
        hstr, hbool, h, Bool.and_true]

theorem wellFormed_jsonify (address : Fin n → String) (timestamp : ℤ) {entries : PyValue} (m : Message n)
    (h : entries.wellFormed = true) : (m.toPy address timestamp entries).jsonify.wellFormed = true := by
  have hnat : ∀ o : Option ℕ, (optionalPy (fun t : ℕ => PyValue.int t) o).wellFormed = true :=
    fun o => wellFormed_optionalPy fun _ _ => rfl
  have hstr : ∀ o : Option (Fin n), (optionalPy (fun b => PyValue.str (address b)) o).wellFormed = true :=
    fun o => wellFormed_optionalPy fun _ _ => rfl
  have hbool : ∀ o : Option Bool, (optionalPy PyValue.bool o).wellFormed = true :=
    fun o => wellFormed_optionalPy fun _ _ => rfl
  cases m with
  | requestVotes m =>
    obtain ⟨hkeys, hresults⟩ := requestVotes_keys
    simp only [Message.toPy, BaseMessage.toPy, Py.Message.jsonify, Py.BaseMessage.items, Py.Results.jsonify,
      List.cons_append, List.nil_append, PyValue.wellFormed, PyValue.wellFormedItems, List.map_cons, List.map_nil,
      hkeys, hresults, hnat, hstr, hbool, decide_true, Bool.and_true]
  | appendEntries m =>
    obtain ⟨hkeys, hresults⟩ := appendEntries_keys
    simp only [Message.toPy, BaseMessage.toPy, Py.Message.jsonify, Py.BaseMessage.items, Py.Results.jsonify,
      List.cons_append, List.nil_append, PyValue.wellFormed, PyValue.wellFormedItems, List.map_cons, List.map_nil,
      hkeys, hresults, hnat, hstr, hbool, h, decide_true, Bool.and_true]

/-- What is in a dict that has come over the wire has come over the wire. -/
theorem carried_item {v w : PyValue} {key : String} (hv : v.carried = true) (h : v.item key = some w) :
    w.carried = true := by
  have hall : ∀ items : List (String × PyValue), PyValue.carriedItems items = true →
      ∀ pair ∈ items, pair.2.carried = true := by
    intro items
    induction items with
    | nil => exact fun _ pair hpair => absurd hpair List.not_mem_nil
    | cons item items ih =>
      intro hitems pair hpair
      rw [PyValue.carriedItems, Bool.and_eq_true] at hitems
      rcases List.mem_cons.1 hpair with rfl | hpair
      · exact hitems.1
      · exact ih hitems.2 pair hpair
  cases v with
  | dict items =>
    obtain ⟨pair, hpair, rfl⟩ := Option.map_eq_some_iff.1 h
    exact hall items hv pair (List.mem_of_find?_eq_some hpair)
  | _ => cases h

theorem entries_of_unJsonify {v : PyValue} {m : Py.AppendEntriesMessage}
    (h : Py.AppendEntriesMessage.unJsonify v = some m) : v.item "entries" = some m.entries := by
  obtain ⟨base, -, h⟩ := Option.bind_eq_some_iff.1 h
  obtain ⟨leaderId, -, h⟩ := Option.bind_eq_some_iff.1 h
  obtain ⟨prevLogIndex, -, h⟩ := Option.bind_eq_some_iff.1 h
  obtain ⟨prevLogTerm, -, h⟩ := Option.bind_eq_some_iff.1 h
  obtain ⟨entries, hentries, h⟩ := Option.bind_eq_some_iff.1 h
  obtain ⟨leaderCommit, -, h⟩ := Option.bind_eq_some_iff.1 h
  cases h
  exact hentries

/-- So the entries of a received message have neither tuples nor objects that JSON refuses. -/
theorem carried_entries {v : PyValue} {m : Py.AppendEntriesMessage} (hv : v.carried = true)
    (h : Py.parseJsonMessage v = some (some (.appendEntries m))) : m.entries.carried = true := by
  unfold Py.parseJsonMessage at h
  split at h
  · cases h
  obtain ⟨type, -, h⟩ := Option.bind_eq_some_iff.1 h
  split at h
  · obtain ⟨m', -, h⟩ := Option.bind_eq_some_iff.1 h
    cases h
  · obtain ⟨m', hm', h⟩ := Option.bind_eq_some_iff.1 h
    cases h
    exact carried_item hv (entries_of_unJsonify hm')

theorem carried_dict (e : PyEntry) : e.dict.carried = true ↔ e.entry.carried = true ∧ e.id.carried = true := by
  simp only [PyEntry.dict, PyValue.carried, PyValue.carriedItems, Bool.true_and, Bool.and_true,
    Bool.and_eq_true]

theorem wellFormed_dict {e : PyEntry} (hentry : e.entry.wellFormed = true) (hid : e.id.hashable = true) :
    e.dict.wellFormed = true := by
  have hkeys := entry_keys
  simp only [PyEntry.dict, PyValue.wellFormed, PyValue.wellFormedItems, List.map_cons, List.map_nil, hkeys,
    hentry, PyValue.wellFormed_of_hashable hid, decide_true, Bool.and_true]

theorem logHashKey_dict {e : PyEntry} (hid : e.id.hashable = true) : Py.logHashKey e.dict = some e.id := by
  have hitem : e.dict.item "id" = some e.id := rfl
  unfold Py.logHashKey
  rw [hitem, Option.bind_eq_bind, Option.bind_some, if_pos hid]

/-- The class of a message with an entry. -/
theorem SentWith.appends {s : RaftNode n} {m : Message n} {x : PyEntry} (h : SentWith s m (some x))
    (address : Fin n → String) (timestamp : ℤ) (entries : PyValue) :
    ∃ m', m.toPy address timestamp entries = .appendEntries m' ∧ m'.entries = entries := by
  cases h with
  | appendEntries index term own receiver => exact ⟨_, rfl, rfl⟩
  | clientRequest receiver own => exact ⟨_, rfl, rfl⟩

theorem carried_of_survives {s : RaftNode n} {address : Fin n → String} {timestamp : ℤ} {m : Message n}
    {x : PyEntry} (hsent : SentWith s m (some x))
    (h : Survives (m.toPy address timestamp x.dict) (some x)) :
    x.entry.carried = true ∧ x.id.carried = true := by
  obtain ⟨received, hreceive, rfl, -⟩ := h
  obtain ⟨m', hm', hown⟩ := hsent.appends address timestamp x.dict
  obtain ⟨v, hcarry, hparse⟩ := Option.bind_eq_some_iff.1 hreceive
  obtain ⟨received', hparse, rfl⟩ := Option.bind_eq_some_iff.1 hparse
  -- what was parsed had come over the wire
  rw [hm'] at hparse
  have hcarried := carried_entries (PyValue.carried_of_carry hcarry) hparse
  rw [hown] at hcarried
  exact (carried_dict x).1 hcarried

/-- **A message survives the wire exactly if** its entry has no tuple and no object that JSON refuses. -/
theorem messages_survive (s : RaftNode n) (address : Fin n → String) (timestamp : ℤ) (m : Message n)
    (e : Option PyEntry) (hsent : SentWith s m e) (hentry : ∀ x ∈ e, x.entry.wellFormed = true)
    (hid : ∀ x ∈ e, x.id.hashable = true) :
    Survives (m.toPy address timestamp (optionalPy PyEntry.dict e)) e ↔
      ∀ x ∈ e, x.entry.carried = true ∧ x.id.carried = true := by
  set entries := optionalPy PyEntry.dict e with hentries
  have hwf : entries.wellFormed = true :=
    wellFormed_optionalPy fun x hx => wellFormed_dict (hentry x hx) (hid x hx)
  constructor
  · intro hsurvives x hx
    obtain rfl : e = some x := hx
    exact carried_of_survives hsent hsurvives
  · intro hcarried
    have hall : entries.carried = true := carried_optionalPy fun x hx => (carried_dict x).2 (hcarried x hx)
    have hcarry := (PyValue.carry_eq_self (wellFormed_jsonify address timestamp m hwf)).2
      (carried_jsonify address timestamp m hall)
    refine ⟨_, ?_, rfl, fun x hx => ?_⟩
    · unfold Py.receive
      rw [hcarry, Option.bind_eq_bind, Option.bind_some, parse_jsonify address timestamp entries hsent.typed]
      rfl
    · obtain rfl : e = some x := hx
      obtain ⟨m', hm', hown⟩ := hsent.appends address timestamp entries
      refine ⟨m', hm', ?_⟩
      rw [hown]
      exact logHashKey_dict (hid x rfl)

/-! ## A tuple as an id -/

/-- A client's request by way of node 0, with the id that it has drawn. -/
def taggedRequest : PyEntry := ⟨1, .dict [("val", .str "node1")], .str "request 7"⟩

theorem messages_survive_taggedRequest :
    Survives (((RaftNode.init 0 : RaftNode 3).clientRequestMessage (some 1) initEntry).toPy
        (fun a => toString a.val) 1700000000
          (optionalPy PyEntry.dict (some taggedRequest))) (some taggedRequest) ↔
      ∀ x ∈ some taggedRequest, x.entry.carried = true ∧ x.id.carried = true :=
  messages_survive (RaftNode.init 0) (fun a => toString a.val) 1700000000 _ (some taggedRequest)
    (.clientRequest (some 1) initEntry taggedRequest) (fun _ hx => Option.some.inj hx ▸ rfl)
    (fun _ hx => Option.some.inj hx ▸ rfl)

theorem carry_congr {v w : PyValue} (h : v.toJson = w.toJson) : v.carry = w.carry := by
  unfold PyValue.carry
  rw [h]

theorem toJson_congr (address : Fin n → String) (timestamp : ℤ) (m : Message n) {entries entries' : PyValue}
    (h : entries.toJson = entries'.toJson) : (m.toPy address timestamp entries).jsonify.toJson =
      (m.toPy address timestamp entries').jsonify.toJson := by
  cases m with
  | requestVotes m => rfl
  | appendEntries m =>
    simp only [Message.toPy, Py.Message.jsonify, Py.BaseMessage.items, List.cons_append, List.nil_append,
      PyValue.toJson, PyValue.toJsonItems, h]

/-- **A tuple comes back as a list, which can be no key**: the receiver raises when it files the entry. -/
theorem tuple_raises (address : Fin n → String) (timestamp : ℤ) {m : Message n} (hm : m.Typed) (term : ℕ)
    {value : PyValue} {xs : List PyValue} (hwf : value.wellFormed = true) (hcarried : value.carried = true)
    (hxs : PyValue.wellFormedList xs = true) (hxscarried : PyValue.carriedList xs = true) :
    Py.receive (m.toPy address timestamp (PyEntry.dict ⟨term, value, .tuple xs⟩)) =
        some (m.toPy address timestamp (PyEntry.dict ⟨term, value, .list xs⟩)) ∧
      Py.logHashKey (PyEntry.dict ⟨term, value, .list xs⟩) = none := by
  have hkeys := entry_keys
  have hsame : (PyEntry.dict ⟨term, value, .tuple xs⟩).toJson =
      (PyEntry.dict ⟨term, value, .list xs⟩).toJson := by
    simp only [PyEntry.dict, PyValue.toJson, PyValue.toJsonItems]
  have hwf' : (PyEntry.dict ⟨term, value, .list xs⟩).wellFormed = true := by
    simp only [PyEntry.dict, PyValue.wellFormed, PyValue.wellFormedItems, List.map_cons, List.map_nil, hkeys,
      hwf, hxs, decide_true, Bool.and_true]
  have hcarried' := (carried_dict ⟨term, value, .list xs⟩).2 ⟨hcarried, hxscarried⟩
  have hcarry := (PyValue.carry_eq_self (wellFormed_jsonify address timestamp m hwf')).2
    (carried_jsonify address timestamp m hcarried')
  refine ⟨?_, rfl⟩
  unfold Py.receive
  rw [carry_congr (toJson_congr address timestamp m hsame), hcarry, Option.bind_eq_bind, Option.bind_some,
    parse_jsonify address timestamp _ hm]
  rfl

/-- A request with a pair of numbers as its id. -/
def pairRequest : PyEntry := ⟨1, .str "x", .tuple [.int 0, .int 7]⟩

theorem tuple_id :
    ¬ ∀ (s : RaftNode 3) (address : Fin 3 → String) (timestamp : ℤ) (m : Message 3) (e : Option PyEntry),
      SentWith s m e → (∀ x ∈ e, x.entry.wellFormed = true) → (∀ x ∈ e, x.id.hashable = true) →
        Survives (m.toPy address timestamp (optionalPy PyEntry.dict e)) e := by
  intro h
  have hsent : SentWith (RaftNode.init 0 : RaftNode 3) _ (some pairRequest) :=
    .clientRequest (some 1) initEntry pairRequest
  have hsurvives := h (RaftNode.init 0) (fun a => toString a.val) 0 _ (some pairRequest) hsent
    (fun _ hx => Option.some.inj hx ▸ rfl) (fun _ hx => Option.some.inj hx ▸ rfl)
  have hcarried := (carried_of_survives hsent hsurvives).2
  cases hcarried

end EdgeConsensus.Raft
