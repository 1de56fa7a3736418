import Mathlib.Data.Int.Notation
import Mathlib.Data.Nat.Notation
import Mathlib.Tactic.Common

/-!
# The Raft messages

The values a client may log, the log entries, and the two message classes of
`protocol.py`, with the field names of the source. A node is known to the others
by its address; in a cluster with one address book of `n` nodes the address is
the position in `all_ids`, so it is an element of `Fin n`.
-/

namespace EdgeConsensus.Raft

/-- What a client may log: the values that JSON carries unchanged. -/
inductive Value
  | none
  | bool (b : Bool)
  | int (z : ℤ)
  | str (s : String)
  | list (xs : List Value)
  | dict (items : List (String × Value))
  deriving Repr

namespace Value

mutual

/-- Equality of values is decided constructor by constructor. -/
def decEq : (a b : Value) → Decidable (a = b)
  | .none, .none => isTrue rfl
  | .bool a, .bool b => decidable_of_iff (a = b) (by simp)
  | .int a, .int b => decidable_of_iff (a = b) (by simp)
  | .str a, .str b => decidable_of_iff (a = b) (by simp)
  | .list a, .list b => @decidable_of_iff _ (a = b) (by simp) (decEqList a b)
  | .dict a, .dict b => @decidable_of_iff _ (a = b) (by simp) (decEqItems a b)
  | .none, .bool _ | .none, .int _ | .none, .str _ | .none, .list _ | .none, .dict _
  | .bool _, .none | .bool _, .int _ | .bool _, .str _ | .bool _, .list _ | .bool _, .dict _
  | .int _, .none | .int _, .bool _ | .int _, .str _ | .int _, .list _ | .int _, .dict _
  | .str _, .none | .str _, .bool _ | .str _, .int _ | .str _, .list _ | .str _, .dict _
  | .list _, .none | .list _, .bool _ | .list _, .int _ | .list _, .str _ | .list _, .dict _
  | .dict _, .none | .dict _, .bool _ | .dict _, .int _ | .dict _, .str _ | .dict _, .list _ =>
    isFalse (by simp)

def decEqList : (a b : List Value) → Decidable (a = b)
  | [], [] => isTrue rfl
  | x :: xs, y :: ys =>
    match decEq x y with
    | isTrue h => @decidable_of_iff _ (xs = ys) (by simp [h]) (decEqList xs ys)
    | isFalse h => isFalse (by simp [h])
  | [], _ :: _ | _ :: _, [] => isFalse (by simp)

def decEqItems : (a b : List (String × Value)) → Decidable (a = b)
  | [], [] => isTrue rfl
  | (k, x) :: xs, (l, y) :: ys =>
    match decEq x y with
    | isTrue h =>
      @decidable_of_iff _ (k = l ∧ xs = ys) (by simp [h]) (@instDecidableAnd _ _ _ (decEqItems xs ys))
    | isFalse h => isFalse (by simp [h])
  | [], _ :: _ | _ :: _, [] => isFalse (by simp)

end

instance : DecidableEq Value := decEq

end Value

/-- The id of a request: what JSON carries unchanged and can be the key of a dict
(a bool is the int it equals). -/
inductive Key
  | none
  | int (z : ℤ)
  | str (s : String)
  deriving DecidableEq, Repr

/-- A log entry: the dict with the fields `term`, `entry`, `id`. -/
structure Entry where
  term : ℕ
  entry : Value
  id : Key
  deriving DecidableEq, Repr

inductive MessageType
  | requestVotes
  | requestVoteResponse
  | heartbeat
  | acknowledge
  | appendEntries
  | committal
  | clientRequest
  deriving DecidableEq, Repr

inductive MessageDirection
  | request
  | response
  deriving DecidableEq, Repr

structure RequestVotesResults where
  term : Option ℕ := none
  voteGranted : Option Bool := none
  deriving DecidableEq, Repr

structure AppendEntriesResults where
  term : Option ℕ := none
  success : Option Bool := none
  deriving DecidableEq, Repr

/-- The fields both message classes have, apart from `results` (whose class
differs) and `timestamp` (which no handler reads). -/
structure BaseMessage (n : ℕ) where
  term : ℕ
  sender : Fin n
  receiver : Option (Fin n)
  direction : MessageDirection
  deriving DecidableEq, Repr

/-- `RequestVotesMessage`; its `type` is always `RequestVotes`, which is how
`parse_json_message` picks the class. -/
structure RequestVotesMessage (n : ℕ) extends BaseMessage n where
  results : RequestVotesResults := {}
  candidateId : Fin n
  lastLogIndex : ℕ
  lastLogTerm : ℕ
  deriving DecidableEq, Repr

structure AppendEntriesMessage (n : ℕ) extends BaseMessage n where
  type : MessageType
  results : AppendEntriesResults := {}
  leaderId : Option (Fin n)
  prevLogIndex : Option ℕ
  prevLogTerm : Option ℕ
  entries : Option Entry
  leaderCommit : ℕ
  deriving DecidableEq, Repr

inductive Message (n : ℕ)
  | requestVotes (m : RequestVotesMessage n)
  | appendEntries (m : AppendEntriesMessage n)
  deriving DecidableEq, Repr

namespace Message

variable {n : ℕ}

def base : Message n → BaseMessage n
  | .requestVotes m => m.toBaseMessage
  | .appendEntries m => m.toBaseMessage

def type : Message n → MessageType
  | .requestVotes _ => .requestVotes
  | .appendEntries m => m.type

def term (m : Message n) : ℕ := m.base.term

def sender (m : Message n) : Fin n := m.base.sender

def direction (m : Message n) : MessageDirection := m.base.direction

/-- The test of `Listener.run`: a message reaches the node it names, or every
node when it names none. -/
def reaches (m : Message n) (b : Fin n) : Bool :=
  m.base.receiver = some b || m.base.receiver = none

end Message

end EdgeConsensus.Raft
