import EdgeConsensus.Lib.Json
import EdgeConsensus.Raft.Protocol

/-!
# Messages as JSON

The `jsonify` methods of `protocol.py`: the dicts that a node hands to its `Talker`. A
node's address is a string here, as `address` gives it for the nodes of the address book,
and `timestamp` is the field that no handler reads.

* `receiver_jsonify`: the key that a `Listener` looks at.
* `valid_jsonify`: the dicts are such that JSON carries them unchanged.
-/

namespace EdgeConsensus.Raft

open Lib

namespace Value

mutual

def toJson : Value → Json
  | .none => .null
  | .bool b => .bool b
  | .int z => .int z
  | .str s => .str s
  | .list xs => .list (toJsonList xs)
  | .dict items => .dict (toJsonItems items)

def toJsonList : List Value → List Json
  | [] => []
  | x :: xs => toJson x :: toJsonList xs

def toJsonItems : List (String × Value) → List (String × Json)
  | [] => []
  | (k, x) :: items => (k, toJson x) :: toJsonItems items

end

end Value

def Key.toJson : Key → Json
  | .none => .null
  | .int z => .int z
  | .str s => .str s

def Entry.toJson (e : Entry) : Json :=
  .dict [("term", .int e.term), ("entry", e.entry.toJson), ("id", e.id.toJson)]

/-- The numbers of `MessageType`. -/
def MessageType.number : MessageType → ℕ
  | .requestVotes => 0
  | .requestVoteResponse => 1
  | .heartbeat => 2
  | .acknowledge => 3
  | .appendEntries => 4
  | .committal => 5
  | .clientRequest => 6

/-- The numbers of `MessageDirection`. -/
def MessageDirection.number : MessageDirection → ℕ
  | .request => 0
  | .response => 1

/-- `None`, or a value. -/
def optional {α : Type*} (f : α → Json) : Option α → Json
  | none => .null
  | some a => f a

def RequestVotesResults.jsonify (r : RequestVotesResults) : Json :=
  .dict [("term", optional (fun t : ℕ => .int t) r.term), ("vote_granted", optional .bool r.voteGranted)]

def AppendEntriesResults.jsonify (r : AppendEntriesResults) : Json :=
  .dict [("term", optional (fun t : ℕ => .int t) r.term), ("success", optional .bool r.success)]

variable {n : ℕ}

/-- The items of `BaseMessage.jsonify`, with the type and the results of the class. -/
def BaseMessage.items (address : Fin n → String) (timestamp : ℤ) (type : MessageType) (results : Json)
    (m : BaseMessage n) : List (String × Json) :=
  [("type", .int type.number), ("term", .int m.term), ("timestamp", .int timestamp),
    ("sender", .str (address m.sender)), ("receiver", optional (fun b => .str (address b)) m.receiver),
    ("direction", .int m.direction.number), ("results", results)]

def RequestVotesMessage.jsonify (address : Fin n → String) (timestamp : ℤ) (m : RequestVotesMessage n) :
    Json :=
  .dict (m.items address timestamp .requestVotes m.results.jsonify ++
    [("candidate_id", .str (address m.candidateId)), ("last_log_index", .int m.lastLogIndex),
      ("last_log_term", .int m.lastLogTerm)])

def AppendEntriesMessage.jsonify (address : Fin n → String) (timestamp : ℤ)
    (m : AppendEntriesMessage n) : Json :=
  .dict (m.items address timestamp m.type m.results.jsonify ++
    [("leader_id", optional (fun b => .str (address b)) m.leaderId),
      ("prev_log_index", optional (fun i : ℕ => .int i) m.prevLogIndex),
      ("prev_log_term", optional (fun t : ℕ => .int t) m.prevLogTerm),
      ("entries", optional Entry.toJson m.entries), ("leader_commit", .int m.leaderCommit)])

namespace Message

def jsonify (address : Fin n → String) (timestamp : ℤ) : Message n → Json
  | .requestVotes m => m.jsonify address timestamp
  | .appendEntries m => m.jsonify address timestamp

/-- The entry that the message carries, if it does. -/
def entries : Message n → Option Entry
  | .requestVotes _ => none
  | .appendEntries m => m.entries

end Message

/-! ## What a listener and the decoder see -/

/-- `message[key]`, which raises if there is no such key. -/
def item (message : Json) (key : String) : Option Json :=
  match message with
  | .dict items => (items.find? fun pair => pair.1 = key).map Prod.snd
  | _ => none

theorem receiver_jsonify (address : Fin n → String) (timestamp : ℤ) (m : Message n) :
    item (m.jsonify address timestamp) "receiver" =
      some (optional (fun b => .str (address b)) m.base.receiver) := by
  cases m with
  | requestVotes m => rfl
  | appendEntries m => rfl

/-! ## Dicts -/

theorem valid_optional {α : Type*} {f : α → Json} {o : Option α}
    (h : ∀ a ∈ o, Json.valid (f a) = true) : Json.valid (optional f o) = true := by
  cases o with
  | none => rfl
  | some a => exact h a rfl

/-! No dict that is written has a key twice. -/

theorem entry_keys : ["term", "entry", "id"].Nodup := by decide

theorem requestVotes_keys :
    ["type", "term", "timestamp", "sender", "receiver", "direction", "results",
      "candidate_id", "last_log_index", "last_log_term"].Nodup ∧ ["term", "vote_granted"].Nodup := by decide

theorem appendEntries_keys :
    ["type", "term", "timestamp", "sender", "receiver", "direction", "results",
      "leader_id", "prev_log_index", "prev_log_term", "entries", "leader_commit"].Nodup ∧
      ["term", "success"].Nodup := by decide

theorem valid_entry {e : Entry} (h : Json.valid e.entry.toJson = true) : Json.valid e.toJson = true := by
  have hid : Json.valid e.id.toJson = true := by cases e.id <;> rfl
  have hkeys := entry_keys
  simp only [Entry.toJson, Json.valid, Json.validItems, List.map_cons, List.map_nil, hkeys, h, hid,
    decide_true, Bool.and_true]

/-- The client's value is a Python value: no dict in it has a key twice. -/
def Message.carried (m : Message n) : Bool := m.entries.all fun e => Json.valid e.entry.toJson

/-- **What `jsonify` builds is a dict**, if the value in it is one that Python has. -/
theorem valid_jsonify (address : Fin n → String) (timestamp : ℤ) {m : Message n}
    (h : m.carried = true) : Json.valid (m.jsonify address timestamp) = true := by
  have hstr : ∀ o : Option (Fin n), Json.valid (optional (fun b => .str (address b)) o) = true :=
    fun o => valid_optional fun _ _ => rfl
  have hnat : ∀ o : Option ℕ, Json.valid (optional (fun t : ℕ => .int t) o) = true :=
    fun o => valid_optional fun _ _ => rfl
  have hbool : ∀ o : Option Bool, Json.valid (optional .bool o) = true :=
    fun o => valid_optional fun _ _ => rfl
  cases m with
  | requestVotes m =>
    obtain ⟨hkeys, hresults⟩ := requestVotes_keys
    simp only [Message.jsonify, RequestVotesMessage.jsonify, RequestVotesResults.jsonify,
      BaseMessage.items, List.cons_append, List.nil_append, Json.valid, Json.validItems, List.map_cons,
      List.map_nil, hkeys, hresults, hstr, hnat, hbool, decide_true, Bool.and_true]
  | appendEntries m =>
    obtain ⟨hkeys, hresults⟩ := appendEntries_keys
    have hentries : Json.valid (optional Entry.toJson m.entries) = true := by
      apply valid_optional
      intro e he
      have hcarried : m.entries.all (fun e => Json.valid e.entry.toJson) = true := h
      rw [he] at hcarried
      exact valid_entry hcarried
    simp only [Message.jsonify, AppendEntriesMessage.jsonify, AppendEntriesResults.jsonify,
      BaseMessage.items, List.cons_append, List.nil_append, Json.valid, Json.validItems, List.map_cons,
      List.map_nil, hkeys, hresults, hstr, hnat, hbool, hentries, decide_true, Bool.and_true]

end EdgeConsensus.Raft
