import EdgeConsensus.Raft.Received
import EdgeConsensus.Raft.Transport

/-!
# Messages as a node takes them

The fields of a message that `_get_message` returns are Python values. A node names the others by their
addresses, and looks up their places in the address book; in this model the places are their names, and the other
fields are of the types that the handlers expect. `Message.ofPy` reads a message in this way.

* `ofPy_toPy`: what is read is what was sent.
* `getMessage_jsonify`: so a node gets back what another one has handed to its talker.
-/

namespace EdgeConsensus.Raft

open Lib

/-! ## Fields -/

namespace Value

mutual

/-- The value, if it is one that JSON carries unchanged. -/
def ofPy : PyValue → Option Value
  | .none => some .none
  | .bool b => some (.bool b)
  | .int z => some (.int z)
  | .str s => some (.str s)
  | .list xs => do return .list (← ofPyList xs)
  | .dict items => do return .dict (← ofPyItems items)
  | _ => Option.none

def ofPyList : List PyValue → Option (List Value)
  | [] => some []
  | x :: xs => do return (← ofPy x) :: (← ofPyList xs)

def ofPyItems : List (String × PyValue) → Option (List (String × Value))
  | [] => some []
  | (k, x) :: items => do return (k, ← ofPy x) :: (← ofPyItems items)

end

mutual

theorem ofPy_toPy : ∀ v : Value, ofPy v.toPy = some v
  | .none => rfl
  | .bool _ => rfl
  | .int _ => rfl
  | .str _ => rfl
  | .list xs => by
    rw [toPy, ofPy, ofPyList_toPyList xs]
    rfl
  | .dict items => by
    rw [toPy, ofPy, ofPyItems_toPyItems items]
    rfl

theorem ofPyList_toPyList : ∀ xs : List Value, ofPyList (toPyList xs) = some xs
  | [] => rfl
  | x :: xs => by
    rw [toPyList, ofPyList, ofPy_toPy x, ofPyList_toPyList xs]
    rfl

theorem ofPyItems_toPyItems : ∀ items : List (String × Value), ofPyItems (toPyItems items) = some items
  | [] => rfl
  | (k, x) :: items => by
    rw [toPyItems, ofPyItems, ofPy_toPy x, ofPyItems_toPyItems items]
    rfl

end

mutual

/-- There is no tuple in the values of a node. -/
theorem carried_toPy : ∀ v : Value, v.toPy.carried = true
  | .none => rfl
  | .bool _ => rfl
  | .int _ => rfl
  | .str _ => rfl
  | .list xs => by
    rw [toPy, PyValue.carried]
    exact carriedList_toPyList xs
  | .dict items => by
    rw [toPy, PyValue.carried]
    exact carriedItems_toPyItems items

theorem carriedList_toPyList : ∀ xs : List Value, PyValue.carriedList (toPyList xs) = true
  | [] => rfl
  | x :: xs => by
    rw [toPyList, PyValue.carriedList, carried_toPy x, carriedList_toPyList xs]
    rfl

theorem carriedItems_toPyItems : ∀ items : List (String × Value), PyValue.carriedItems (toPyItems items) = true
  | [] => rfl
  | (k, x) :: items => by
    rw [toPyItems, PyValue.carriedItems, carried_toPy x, carriedItems_toPyItems items]
    rfl

end

end Value

def Key.ofPy : PyValue → Option Key
  | .none => some .none
  | .int z => some (.int z)
  | .str s => some (.str s)
  | _ => Option.none

theorem Key.ofPy_toPy (x : Key) : Key.ofPy x.toPy = some x := by
  cases x with
  | none => rfl
  | int => rfl
  | str => rfl

theorem Key.carried_toPy (x : Key) : x.toPy.carried = true := by
  cases x with
  | none => rfl
  | int => rfl
  | str => rfl

namespace PyValue

def toNat? : PyValue → Option ℕ
  | .int z => if 0 ≤ z then some z.toNat else Option.none
  | _ => Option.none

def toBool? : PyValue → Option Bool
  | .bool b => some b
  | _ => Option.none

/-- `None`, or a value that `f` reads. -/
def optionOf {α : Type*} (f : PyValue → Option α) (v : PyValue) : Option (Option α) :=
  match v with
  | .none => some Option.none
  | v => (f v).map some

theorem toNat?_int (k : ℕ) : toNat? (.int k) = some k := by
  simp only [toNat?, Int.natCast_nonneg, if_pos, Int.toNat_natCast]

theorem optionOf_optionalPy {α : Type*} {f : PyValue → Option α} {g : α → PyValue} (hf : ∀ a, f (g a) = some a)
    (hg : ∀ a, g a ≠ .none) (o : Option α) : optionOf f (optionalPy g o) = some o := by
  cases o with
  | none => rfl
  | some a =>
    unfold optionOf optionalPy
    split
    · rename_i heq
      exact absurd heq (hg a)
    · rw [hf a]
      rfl

end PyValue

def MessageType.ofPy : PyValue → Option MessageType
  | .int z => [.requestVotes, .requestVoteResponse, .heartbeat, .acknowledge, .appendEntries, .committal,
      .clientRequest].find? fun type => (type.number : ℤ) = z
  | _ => none

theorem MessageType.ofPy_number (type : MessageType) : MessageType.ofPy (.int type.number) = some type := by
  cases type <;> rfl

def MessageDirection.ofPy : PyValue → Option MessageDirection
  | .int z => [.request, .response].find? fun direction => (direction.number : ℤ) = z
  | _ => none

theorem MessageDirection.ofPy_number (direction : MessageDirection) :
    MessageDirection.ofPy (.int direction.number) = some direction := by
  cases direction <;> rfl

def Entry.ofPy (v : PyValue) : Option Entry := do
  let term ← (← v.item "term").toNat?
  let entry ← Value.ofPy (← v.item "entry")
  let id ← Key.ofPy (← v.item "id")
  return { term, entry, id }

theorem Entry.ofPy_dict (e : Entry) : Entry.ofPy e.toPy.dict = some e := by
  have hterm : e.toPy.dict.item "term" = some (.int e.term) := rfl
  have hentry : e.toPy.dict.item "entry" = some e.entry.toPy := rfl
  have hid : e.toPy.dict.item "id" = some e.id.toPy := rfl
  unfold Entry.ofPy
  rw [hterm, hentry, hid]
  simp only [Option.bind_eq_bind, Option.bind_some, PyValue.toNat?_int, Value.ofPy_toPy,
    Key.ofPy_toPy, Option.pure_def]

variable {n : ℕ}

/-- `_get_node_index`: the place of an address in the address book. -/
def nodeIndex (address : Fin n → String) : PyValue → Option (Fin n)
  | .str s => (List.finRange n).find? fun a => address a = s
  | _ => none

theorem nodeIndex_address {address : Fin n → String} (h : Function.Injective address) (a : Fin n) :
    nodeIndex address (.str (address a)) = some a := by
  have hfind : ∀ l : List (Fin n), a ∈ l → l.find? (fun b => address b = address a) = some a := by
    intro l
    induction l with
    | nil => exact fun hmem => absurd hmem List.not_mem_nil
    | cons b l ih =>
      intro hmem
      by_cases hba : address b = address a
      · rw [List.find?_cons_of_pos (by simpa using hba), h hba]
      · rw [List.find?_cons_of_neg (by simpa using hba)]
        refine ih ((List.mem_cons.1 hmem).resolve_left fun hab => hba (congrArg address hab.symm))
  exact hfind _ (List.mem_finRange a)

/-! ## Messages -/

def BaseMessage.ofPy (address : Fin n → String) (m : Py.BaseMessage) : Option (BaseMessage n) := do
  let term ← m.term.toNat?
  let sender ← nodeIndex address m.sender
  let receiver ← m.receiver.optionOf (nodeIndex address)
  let direction ← MessageDirection.ofPy m.direction
  return { term, sender, receiver, direction }

def RequestVotesResults.ofPy : Py.Results → Option RequestVotesResults
  | .requestVotes term voteGranted => do
    return { term := ← term.optionOf PyValue.toNat?, voteGranted := ← voteGranted.optionOf PyValue.toBool? }
  | _ => none

def AppendEntriesResults.ofPy : Py.Results → Option AppendEntriesResults
  | .appendEntries term success => do
    return { term := ← term.optionOf PyValue.toNat?, success := ← success.optionOf PyValue.toBool? }
  | _ => none

/-- The message, with nodes named by their places. -/
def Message.ofPy (address : Fin n → String) : Py.Message → Option (Message n)
  | .requestVotes m => do
    let base ← BaseMessage.ofPy address m.toBaseMessage
    let results ← RequestVotesResults.ofPy m.results
    let candidateId ← nodeIndex address m.candidateId
    let lastLogIndex ← m.lastLogIndex.toNat?
    let lastLogTerm ← m.lastLogTerm.toNat?
    return .requestVotes { base with results, candidateId, lastLogIndex, lastLogTerm }
  | .appendEntries m => do
    let base ← BaseMessage.ofPy address m.toBaseMessage
    let type ← MessageType.ofPy m.type
    let results ← AppendEntriesResults.ofPy m.results
    let leaderId ← m.leaderId.optionOf (nodeIndex address)
    let prevLogIndex ← m.prevLogIndex.optionOf PyValue.toNat?
    let prevLogTerm ← m.prevLogTerm.optionOf PyValue.toNat?
    let entries ← m.entries.optionOf Entry.ofPy
    let leaderCommit ← m.leaderCommit.toNat?
    return .appendEntries
      { base with type, results, leaderId, prevLogIndex, prevLogTerm, entries, leaderCommit }

/-- **What is read is what was sent.** -/
theorem Message.ofPy_toPy {address : Fin n → String} (h : Function.Injective address) (timestamp : ℤ)
    (m : Message n) :
    Message.ofPy address (m.toPy address timestamp (optionalPy (fun e => e.toPy.dict) m.entries)) = some m := by
  have hnode := nodeIndex_address h
  have hnodes := PyValue.optionOf_optionalPy (f := nodeIndex address) hnode (fun _ => PyValue.noConfusion)
  have hnats := PyValue.optionOf_optionalPy (f := PyValue.toNat?) (g := fun t : ℕ => PyValue.int t)
    PyValue.toNat?_int (fun _ => PyValue.noConfusion)
  have hbools := PyValue.optionOf_optionalPy (f := PyValue.toBool?) (g := PyValue.bool) (fun _ => rfl)
    (fun _ => PyValue.noConfusion)
  have hentries := PyValue.optionOf_optionalPy (f := Entry.ofPy) Entry.ofPy_dict (fun _ => PyValue.noConfusion)
  cases m with
  | requestVotes m =>
    simp only [Message.toPy, BaseMessage.toPy, Message.ofPy, BaseMessage.ofPy, RequestVotesResults.ofPy, hnode,
      hnodes, hnats, hbools, PyValue.toNat?_int, MessageDirection.ofPy_number, Option.bind_eq_bind,
      Option.bind_some, Option.pure_def]
  | appendEntries m =>
    simp only [Message.toPy, BaseMessage.toPy, Message.ofPy, BaseMessage.ofPy, AppendEntriesResults.ofPy,
      Message.entries, hnode, hnodes, hnats, hbools, hentries, PyValue.toNat?_int, MessageDirection.ofPy_number,
      MessageType.ofPy_number, Option.bind_eq_bind, Option.bind_some, Option.pure_def]

/-- `_get_message`, on the dict that the listener has put into its queue; `none` if it raises. -/
def getMessage (address : Fin n → String) (msg : Json) : Option (Message n) := do
  Message.ofPy address (← (← Py.parseJsonMessage (PyValue.ofJson msg)))

/-- **A node gets back** what another one has handed to its talker. -/
theorem getMessage_jsonify {address : Fin n → String} (h : Function.Injective address) (timestamp : ℤ)
    {m : Message n} (hm : m.Typed) : getMessage address (m.jsonify address timestamp) = some m := by
  set entries := optionalPy (fun e : Entry => e.toPy.dict) m.entries with hentries
  have hcarried : entries.carried = true := carried_optionalPy fun e _ =>
    (carried_dict e.toPy).2 ⟨Value.carried_toPy e.entry, Key.carried_toPy e.id⟩
  -- the dict that comes out of the queue is the one that was handed in
  obtain ⟨msg, hmsg, hback⟩ := PyValue.ofJson_toJson _ (carried_jsonify address timestamp m hcarried)
  rw [hentries, jsonify_toPy] at hmsg
  obtain rfl := Option.some.inj hmsg
  unfold getMessage
  rw [hback, parse_jsonify address timestamp entries hm]
  simp only [Option.bind_eq_bind, Option.bind_some]
  exact Message.ofPy_toPy h timestamp m

end EdgeConsensus.Raft
