import EdgeConsensus.Lib.JsonText
import EdgeConsensus.Lib.ShortReads
import EdgeConsensus.Raft.Transport

/-!
# Frames between a talker and a listener

`Talker.run` of `berkeley_socket_interface.py` writes two bytes of length and a JSON object,
and `Listener.handle_socket` goes on with whatever its two `recv` give it.

* `objects`: the messages and their texts, as frames.
* `length_prefixed_framing`: the queue is what was written exactly if every text is shorter
  than 65536 bytes and every read gets all it asks for, a length below 256 byte by byte apart.
* `cut_text`: a text that comes in two reads.
-/

namespace EdgeConsensus.Raft

open Lib

/-- A message that JSON carries, and that is an object. -/
def IsObject (msg : Json) : Prop := Json.valid msg = true ∧ ∃ items, msg = .dict items

/-- What a round of `handle_socket` makes of the bytes it has: the `decode` may raise, a text that is
no JSON is dropped. -/
def readText (bytes : List UInt8) : Option (Option Json) := (decode bytes).map Json.loads

/-! ## Texts of objects -/

theorem ascii_dumps (msg : Json) : ∀ c ∈ Json.dumps msg, c.toNat ≤ 127 := fun c hc =>
  (Json.printable_dumps msg c hc).2.trans (by omega)

theorem readText_eq_some {bytes : List UInt8} {msg : Json} (h : readText bytes = some (some msg)) :
    ∃ text, encode text = bytes ∧ Json.loads text = some msg := by
  obtain ⟨text, hdecode, hloads⟩ := Option.map_eq_some_iff.1 h
  exact ⟨text, encode_of_decode hdecode, hloads⟩

theorem readText_part {msg : Json} (hmsg : IsObject msg) {a p b : List UInt8}
    (h : a ++ p ++ b = encode (Json.dumps msg)) (hpart : a ≠ [] ∨ b ≠ []) :
    readText p ≠ some (some msg) := by
  intro hread
  obtain ⟨-, items, rfl⟩ := hmsg
  obtain ⟨text, rfl, hloads⟩ := readText_eq_some hread
  obtain ⟨st, u, htext, hst, rfl⟩ := encode_split (ascii_dumps _) h.symm
  have hascii : ∀ c ∈ st, c.toNat ≤ 127 := fun c hc => ascii_dumps _ c (by rw [htext]; simp [hc])
  obtain ⟨s, t, rfl, rfl, ht⟩ := encode_split hascii hst.symm
  obtain rfl := encode_injective ht
  refine Json.loads_part htext.symm ?_ hloads
  rcases hpart with hpart | hpart
  · exact Or.inl fun hnil => hpart (by rw [hnil]; rfl)
  · exact Or.inr fun hnil => hpart (by rw [hnil]; rfl)

theorem readText_byte_part {msg : Json} (hmsg : IsObject msg) {l : UInt8} {p b : List UInt8}
    (h : p ++ b = encode (Json.dumps msg)) (hb : b ≠ []) : readText (l :: p) ≠ some (some msg) := by
  intro hread
  obtain ⟨-, items, rfl⟩ := hmsg
  obtain ⟨text, hencode, hloads⟩ := readText_eq_some hread
  obtain ⟨s, t, htext, rfl, rfl⟩ := encode_split (ascii_dumps _) h.symm
  -- the byte is a character of its own, as the text begins with a blank or a brace
  obtain ⟨c, cs, rfl, hhead⟩ := Json.head_of_loads hloads
  have hc : c.toNat ≤ 127 := by
    rcases hhead with hspace | ⟨rfl, -⟩
    · simp only [Json.isSpace, Bool.or_eq_true, decide_eq_true_eq] at hspace
      rcases hspace with ((rfl | rfl) | rfl) | rfl <;> decide
    · decide
  rw [encode_cons_ascii hc] at hencode
  obtain rfl := encode_injective (List.cons.inj hencode).2
  refine Json.loads_cons_part htext.symm ?_ hloads
  rintro rfl
  exact hb rfl

/-- The objects as frames on a connection. -/
def objects : Framing Json where
  write msg := encode (Json.dumps msg)
  read := readText
  sent := IsObject
  read_nil := rfl
  read_write := by
    intro msg hmsg
    unfold readText
    rw [decode_encode, Option.map_some, Json.loads_dumps hmsg.1]
  read_part := fun hmsg h hpart => readText_part hmsg h hpart
  read_byte_part := fun hmsg h hb => readText_byte_part hmsg h hb
  read_zero := by
    intro msg p _ hzero hread
    obtain ⟨text, rfl, hloads⟩ := readText_eq_some hread
    exact Json.nul_of_loads hloads (nul_of_encode hzero)

/-! ## The connection -/

theorem objects_frame (msg : Json) : objects.frame msg = BerkeleySocketInterface.finalMessage msg := rfl

theorem objects_talk (messages : List Json) : objects.talk messages = BerkeleySocketInterface.talk messages := by
  induction messages with
  | nil => rfl
  | cons msg messages ih =>
    cases hmsg : BerkeleySocketInterface.finalMessage msg with
    | none => simp only [Framing.talk, BerkeleySocketInterface.talk, objects_frame, hmsg]
    | some bytes => simp only [Framing.talk, BerkeleySocketInterface.talk, objects_frame, hmsg, ih]

/-- The rounds of the run are those of `handle_socket`. -/
theorem objects_round (stream : List UInt8) (cut cut' : ℕ) :
    objects.round stream cut cut' = BerkeleySocketInterface.handleSocket stream cut cut' := by
  unfold Framing.round BerkeleySocketInterface.handleSocket
  refine congrArg (Option.bind _) (funext fun header => ?_)
  refine congrArg (Option.bind _) (funext fun body => ?_)
  show Option.bind ((decode body.1).map Json.loads) _ = Option.bind (decode body.1) _
  cases decode body.1 <;> rfl

/-- The thread of `handle_socket` on what the talker has written: what the two `recv` of each round
get, and what is in the queue when it waits for more or has ended. -/
def Handles (stream : List UInt8) (rounds : List (ℕ × ℕ)) (queue : List Json) : Prop :=
  objects.Handled stream rounds queue

/-- Each length comes at once, or byte by byte if it is below 256, and each text comes at once. -/
def ReadWhole (messages : List Json) (rounds : List (ℕ × ℕ)) : Prop := objects.Whole messages rounds

/-- **The queue is what was written exactly if** every length fits and every text is read whole. -/
theorem length_prefixed_framing (messages : List Json) (hobjects : ∀ msg ∈ messages, IsObject msg)
    (rounds : List (ℕ × ℕ)) (queue : List Json)
    (h : Handles (BerkeleySocketInterface.talk messages) rounds queue) :
    queue = messages ↔ (∀ msg ∈ messages, Short msg) ∧ ReadWhole messages rounds := by
  rw [← objects_talk] at h
  exact Framing.handled_iff hobjects h

/-! ## An object in two reads -/

theorem round_of_text {stream header stream' rest : List UInt8} {cut cut' : ℕ} (text : List Char)
    (h : recv stream 2 cut = some (header, stream'))
    (h' : recv stream' (fromBytes header) cut' = some (encode text, rest)) :
    objects.round stream cut cut' = some (Json.loads text, rest) := by
  have hread : objects.read (encode text) = some (Json.loads text) := by
    show readText (encode text) = _
    unfold readText
    rw [decode_encode]
    rfl
  unfold Framing.round
  simp only [h, h', hread, Option.bind_eq_bind, Option.bind_some, Option.pure_def]

theorem recv_one (b : UInt8) : recv [b] 2 1 = some ([b], []) := rfl

/-- Two objects, one after the other. -/
def twoObjects : List Json := [.dict [], .dict [("term", .int 1)]]

theorem isObject_twoObjects : ∀ msg ∈ twoObjects, IsObject msg := by
  intro msg hmsg
  rcases List.mem_cons.1 hmsg with rfl | hmsg
  · exact ⟨rfl, [], rfl⟩
  · obtain rfl := List.mem_singleton.1 hmsg
    exact ⟨by decide, _, rfl⟩

/-- The length of the first comes byte by byte, and that of the second at once. -/
theorem handles_bytes :
    Handles (BerkeleySocketInterface.talk twoObjects) [(1, 0), (1, 2), (2, 11)] twoObjects := by
  set second : List UInt8 := 0 :: 11 :: encode (Json.dumps (.dict [("term", .int 1)])) with hsecond
  have htalk : BerkeleySocketInterface.talk twoObjects = [0, 2, 123, 125] ++ second := by decide +kernel
  have hloads : Json.loads (Json.dumps (.dict [("term", .int 1)])) = some (.dict [("term", .int 1)]) :=
    Json.loads_dumps (by decide)
  have hfirst : objects.round ([0, 2, 123, 125] ++ second) 1 0 = some (none, [2, 123, 125] ++ second) :=
    round_of_text [] rfl rfl
  have hbytes : objects.round ([2, 123, 125] ++ second) 1 2 = some (some (.dict []), second) :=
    round_of_text ['{', '}'] rfl rfl
  have hwhole : objects.round second 2 11 = some (some (.dict [("term", .int 1)]), []) := by
    rw [← hloads]
    exact round_of_text _ rfl (by decide +kernel)
  rw [htalk]
  exact .round hfirst (.round hbytes (.round hwhole .waits))

theorem length_prefixed_framing_byteByByte :
    twoObjects = twoObjects ↔
      (∀ msg ∈ twoObjects, Short msg) ∧ ReadWhole twoObjects [(1, 0), (1, 2), (2, 11)] :=
  length_prefixed_framing twoObjects isObject_twoObjects [(1, 0), (1, 2), (2, 11)] twoObjects handles_bytes

/-- The first read of the text gets its opening brace, and the closing one is taken for a length. -/
theorem cut_text :
    ¬ ∀ messages : List Json, (∀ msg ∈ messages, IsObject msg) → ∀ rounds queue,
      Handles (BerkeleySocketInterface.talk messages) rounds queue → queue = messages := by
  intro h
  have hround : objects.round [0, 2, 123, 125] 2 1 = some (none, [125]) := round_of_text ['{'] rfl rfl
  have hwaits : objects.Handled [125] [] [] := .waitsForText (recv_one 125) (by decide)
  have hrun : Handles (BerkeleySocketInterface.talk [.dict []]) [(2, 1)] [] := .round hround hwaits
  have hobject : ∀ msg ∈ [Json.dict []], IsObject msg := by
    intro msg hmsg
    obtain rfl := List.mem_singleton.1 hmsg
    exact ⟨rfl, [], rfl⟩
  have hlost := h [.dict []] hobject [(2, 1)] [] hrun
  cases hlost

end EdgeConsensus.Raft
