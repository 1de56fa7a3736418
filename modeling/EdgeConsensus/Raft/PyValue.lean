import EdgeConsensus.Raft.Jsonify

/-!
# Python values on the wire

The values that a client may hand to `client_request`, tuples and other immutable objects
included, and what is left of them behind `json.dumps` and `json.loads`: a tuple comes back
as a list, and an object of another class makes `dumps` raise.

* `carry_eq_self`: exactly the values without either come back as they were.
* `Value.toJson_toPy`: the values of a node in this model are among them.
-/

namespace EdgeConsensus.Raft

open Lib

/-- A Python value. Two objects of another class, such as bytes or a frozenset, are the same if they are
`other` with the same number. -/
inductive PyValue
  | none
  | bool (b : Bool)
  | int (z : ℤ)
  | str (s : String)
  | tuple (xs : List PyValue)
  | list (xs : List PyValue)
  | dict (items : List (String × PyValue))
  | other (k : ℕ)

namespace PyValue

mutual

/-- The value can be the key of a dict. -/
def hashable : PyValue → Bool
  | .tuple xs => hashableList xs
  | .list _ => false
  | .dict _ => false
  | _ => true

def hashableList : List PyValue → Bool
  | [] => true
  | x :: xs => hashable x && hashableList xs

end

mutual

/-- No dict has a key twice, as no Python dict has. -/
def wellFormed : PyValue → Bool
  | .tuple xs => wellFormedList xs
  | .list xs => wellFormedList xs
  | .dict items => decide (items.map Prod.fst).Nodup && wellFormedItems items
  | _ => true

def wellFormedList : List PyValue → Bool
  | [] => true
  | x :: xs => wellFormed x && wellFormedList xs

def wellFormedItems : List (String × PyValue) → Bool
  | [] => true
  | (_, x) :: items => wellFormed x && wellFormedItems items

end

mutual

/-- What `json.dumps` writes the text of, which raises on an object of another class. -/
def toJson : PyValue → Option Json
  | .none => some .null
  | .bool b => some (.bool b)
  | .int z => some (.int z)
  | .str s => some (.str s)
  | .tuple xs => do return .list (← toJsonList xs)
  | .list xs => do return .list (← toJsonList xs)
  | .dict items => do return .dict (← toJsonItems items)
  | .other _ => Option.none

def toJsonList : List PyValue → Option (List Json)
  | [] => some []
  | x :: xs => do return (← toJson x) :: (← toJsonList xs)

def toJsonItems : List (String × PyValue) → Option (List (String × Json))
  | [] => some []
  | (k, x) :: items => do return (k, ← toJson x) :: (← toJsonItems items)

end

mutual

/-- What `json.loads` builds. -/
def ofJson : Json → PyValue
  | .null => .none
  | .bool b => .bool b
  | .int z => .int z
  | .str s => .str s
  | .list xs => .list (ofJsonList xs)
  | .dict items => .dict (ofJsonItems items)

def ofJsonList : List Json → List PyValue
  | [] => []
  | x :: xs => ofJson x :: ofJsonList xs

def ofJsonItems : List (String × Json) → List (String × PyValue)
  | [] => []
  | (k, x) :: items => (k, ofJson x) :: ofJsonItems items

end

mutual

/-- There is no tuple in the value, and no object of another class. -/
def carried : PyValue → Bool
  | .tuple _ => false
  | .list xs => carriedList xs
  | .dict items => carriedItems items
  | .other _ => false
  | _ => true

def carriedList : List PyValue → Bool
  | [] => true
  | x :: xs => carried x && carriedList xs

def carriedItems : List (String × PyValue) → Bool
  | [] => true
  | (_, x) :: items => carried x && carriedItems items

end

/-- From `send_json` to `recv_json`: the text is written, and read again. -/
def carry (v : PyValue) : Option PyValue := do
  return ofJson (← Json.loads (Json.dumps (← v.toJson)))

/-! ## What comes back -/

mutual

theorem carried_ofJson : ∀ x : Json, carried (ofJson x) = true
  | .null => rfl
  | .bool _ => rfl
  | .int _ => rfl
  | .str _ => rfl
  | .list xs => by
    rw [ofJson, carried]
    exact carried_ofJsonList xs
  | .dict items => by
    rw [ofJson, carried]
    exact carried_ofJsonItems items

theorem carried_ofJsonList : ∀ xs : List Json, carriedList (ofJsonList xs) = true
  | [] => rfl
  | x :: xs => by
    rw [ofJsonList, carriedList, carried_ofJson x, carried_ofJsonList xs]
    rfl

theorem carried_ofJsonItems : ∀ items : List (String × Json), carriedItems (ofJsonItems items) = true
  | [] => rfl
  | (k, x) :: items => by
    rw [ofJsonItems, carriedItems, carried_ofJson x, carried_ofJsonItems items]
    rfl

end

mutual

theorem ofJson_toJson : ∀ v : PyValue, carried v = true → ∃ x, toJson v = some x ∧ ofJson x = v
  | .none, _ => ⟨_, rfl, rfl⟩
  | .bool _, _ => ⟨_, rfl, rfl⟩
  | .int _, _ => ⟨_, rfl, rfl⟩
  | .str _, _ => ⟨_, rfl, rfl⟩
  | .list xs, h => by
    rw [carried] at h
    obtain ⟨ys, hys, hback⟩ := ofJsonList_toJsonList xs h
    refine ⟨.list ys, ?_, ?_⟩
    · rw [toJson, hys]
      rfl
    · rw [ofJson, hback]
  | .dict items, h => by
    rw [carried] at h
    obtain ⟨pairs, hpairs, hback⟩ := ofJsonItems_toJsonItems items h
    refine ⟨.dict pairs, ?_, ?_⟩
    · rw [toJson, hpairs]
      rfl
    · rw [ofJson, hback]

theorem ofJsonList_toJsonList : ∀ xs : List PyValue, carriedList xs = true →
    ∃ ys, toJsonList xs = some ys ∧ ofJsonList ys = xs
  | [], _ => ⟨[], rfl, rfl⟩
  | x :: xs, h => by
    rw [carriedList, Bool.and_eq_true] at h
    obtain ⟨y, hy, hback⟩ := ofJson_toJson x h.1
    obtain ⟨ys, hys, hbacks⟩ := ofJsonList_toJsonList xs h.2
    refine ⟨y :: ys, ?_, ?_⟩
    · rw [toJsonList, hy, hys]
      rfl
    · rw [ofJsonList, hback, hbacks]

theorem ofJsonItems_toJsonItems : ∀ items : List (String × PyValue), carriedItems items = true →
    ∃ pairs, toJsonItems items = some pairs ∧ ofJsonItems pairs = items
  | [], _ => ⟨[], rfl, rfl⟩
  | (k, x) :: items, h => by
    rw [carriedItems, Bool.and_eq_true] at h
    obtain ⟨y, hy, hback⟩ := ofJson_toJson x h.1
    obtain ⟨pairs, hpairs, hbacks⟩ := ofJsonItems_toJsonItems items h.2
    refine ⟨(k, y) :: pairs, ?_, ?_⟩
    · rw [toJsonItems, hy, hpairs]
      rfl
    · rw [ofJsonItems, hback, hbacks]

end

mutual

theorem valid_toJson : ∀ {v : PyValue} {x : Json}, wellFormed v = true → toJson v = some x → Json.valid x = true
  | .none, _, _, h => by cases h; rfl
  | .bool _, _, _, h => by cases h; rfl
  | .int _, _, _, h => by cases h; rfl
  | .str _, _, _, h => by cases h; rfl
  | .tuple xs, _, hwf, h => by
    rw [wellFormed] at hwf
    obtain ⟨ys, hys, h⟩ := Option.bind_eq_some_iff.1 h
    cases h
    rw [Json.valid]
    exact valid_toJsonList hwf hys
  | .list xs, _, hwf, h => by
    rw [wellFormed] at hwf
    obtain ⟨ys, hys, h⟩ := Option.bind_eq_some_iff.1 h
    cases h
    rw [Json.valid]
    exact valid_toJsonList hwf hys
  | .dict items, _, hwf, h => by
    rw [wellFormed, Bool.and_eq_true] at hwf
    obtain ⟨pairs, hpairs, h⟩ := Option.bind_eq_some_iff.1 h
    cases h
    obtain ⟨hvalid, hkeys⟩ := valid_toJsonItems hwf.2 hpairs
    rw [Json.valid, hkeys, hvalid, Bool.and_true]
    exact hwf.1
  | .other _, _, _, h => by cases h

theorem valid_toJsonList : ∀ {xs : List PyValue} {ys : List Json}, wellFormedList xs = true →
    toJsonList xs = some ys → Json.validList ys = true
  | [], _, _, h => by cases h; rfl
  | x :: xs, _, hwf, h => by
    rw [wellFormedList, Bool.and_eq_true] at hwf
    obtain ⟨y, hy, h⟩ := Option.bind_eq_some_iff.1 h
    obtain ⟨ys, hys, h⟩ := Option.bind_eq_some_iff.1 h
    cases h
    rw [Json.validList, valid_toJson hwf.1 hy, valid_toJsonList hwf.2 hys]
    rfl

/-- The keys of a dict stay the same. -/
theorem valid_toJsonItems : ∀ {items : List (String × PyValue)} {pairs : List (String × Json)},
    wellFormedItems items = true → toJsonItems items = some pairs →
    Json.validItems pairs = true ∧ pairs.map Prod.fst = items.map Prod.fst
  | [], _, _, h => by cases h; exact ⟨rfl, rfl⟩
  | (k, x) :: items, _, hwf, h => by
    rw [wellFormedItems, Bool.and_eq_true] at hwf
    obtain ⟨y, hy, h⟩ := Option.bind_eq_some_iff.1 h
    obtain ⟨pairs, hpairs, h⟩ := Option.bind_eq_some_iff.1 h
    cases h
    obtain ⟨hvalid, hkeys⟩ := valid_toJsonItems hwf.2 hpairs
    refine ⟨?_, ?_⟩
    · rw [Json.validItems, valid_toJson hwf.1 hy, hvalid]
      rfl
    · rw [List.map_cons, List.map_cons, hkeys]

end

/-- What comes back is what the text says. -/
theorem carry_eq {v : PyValue} (hwf : v.wellFormed = true) : v.carry = v.toJson.map ofJson := by
  unfold carry
  cases hx : v.toJson with
  | none => rfl
  | some x =>
    have hloads := Json.loads_dumps (valid_toJson hwf hx)
    simp only [hloads, Option.bind_eq_bind, Option.bind_some, Option.pure_def, Option.map_some]

/-- What comes back has neither tuples nor objects of other classes. -/
theorem carried_of_carry {v w : PyValue} (h : v.carry = some w) : w.carried = true := by
  obtain ⟨x, -, h⟩ := Option.bind_eq_some_iff.1 h
  obtain ⟨y, -, h⟩ := Option.bind_eq_some_iff.1 h
  cases h
  exact carried_ofJson y

/-- **A value comes back as it was exactly if** it has no tuple and no object of another class. -/
theorem carry_eq_self {v : PyValue} (hwf : v.wellFormed = true) : v.carry = some v ↔ v.carried = true := by
  constructor
  · intro h
    exact carried_of_carry h
  · intro h
    obtain ⟨x, hx, hback⟩ := ofJson_toJson v h
    rw [carry_eq hwf, hx, Option.map_some, hback]

mutual

/-- Only an id without dicts can be a key. -/
theorem wellFormed_of_hashable : ∀ {v : PyValue}, v.hashable = true → v.wellFormed = true
  | .none, _ => rfl
  | .bool _, _ => rfl
  | .int _, _ => rfl
  | .str _, _ => rfl
  | .tuple xs, h => by
    rw [hashable] at h
    rw [wellFormed]
    exact wellFormedList_of_hashable h
  | .list _, h => by cases h
  | .dict _, h => by cases h
  | .other _, _ => rfl

theorem wellFormedList_of_hashable : ∀ {xs : List PyValue}, hashableList xs = true → wellFormedList xs = true
  | [], _ => rfl
  | x :: xs, h => by
    rw [hashableList, Bool.and_eq_true] at h
    rw [wellFormedList, wellFormed_of_hashable h.1, wellFormedList_of_hashable h.2]
    rfl

end

end PyValue

/-! ## The values of a node -/

namespace Value

mutual

def toPy : Value → PyValue
  | .none => .none
  | .bool b => .bool b
  | .int z => .int z
  | .str s => .str s
  | .list xs => .list (toPyList xs)
  | .dict items => .dict (toPyItems items)

def toPyList : List Value → List PyValue
  | [] => []
  | x :: xs => toPy x :: toPyList xs

def toPyItems : List (String × Value) → List (String × PyValue)
  | [] => []
  | (k, x) :: items => (k, toPy x) :: toPyItems items

end

mutual

/-- They are values that the JSON model writes. -/
theorem toJson_toPy : ∀ v : Value, v.toPy.toJson = some v.toJson
  | .none => rfl
  | .bool _ => rfl
  | .int _ => rfl
  | .str _ => rfl
  | .list xs => by
    rw [toPy, PyValue.toJson, toJsonList_toPyList xs]
    rfl
  | .dict items => by
    rw [toPy, PyValue.toJson, toJsonItems_toPyItems items]
    rfl

theorem toJsonList_toPyList : ∀ xs : List Value, PyValue.toJsonList (toPyList xs) = some (toJsonList xs)
  | [] => rfl
  | x :: xs => by
    rw [toPyList, PyValue.toJsonList, toJson_toPy x, toJsonList_toPyList xs]
    rfl

theorem toJsonItems_toPyItems : ∀ items : List (String × Value),
    PyValue.toJsonItems (toPyItems items) = some (toJsonItems items)
  | [] => rfl
  | (k, x) :: items => by
    rw [toPyItems, PyValue.toJsonItems, toJson_toPy x, toJsonItems_toPyItems items]
    rfl

end

end Value

def Key.toPy : Key → PyValue
  | .none => .none
  | .int z => .int z
  | .str s => .str s

theorem Key.toJson_toPy (x : Key) : x.toPy.toJson = some x.toJson := by
  cases x <;> rfl

end EdgeConsensus.Raft
