import EdgeConsensus.Peer.Spec
import EdgeConsensus.Peer.Wire

/-!
# Malformed packets

`ReceiveData` on the bytes of a packet. `at` throws where there is no such index; the first
byte and the ranges of iterators are read without a look at the size, and reading them
outside of the buffer has no meaning in C++.

* `parse_toOption`: where a message is read to its end, it is the one of the wire format.
* `clean_rejection`: a packet is processed or leaves the node as it was, exactly where no
  range is outside of the buffer and no copy is taken over from a node that is not in the
  local group.
* `half_adopted`: a data packet of a stranger.
-/

namespace EdgeConsensus.Peer

/-- How a read can fail: `at` throws, other reads are undefined. -/
inductive Fault
  | thrown
  | undefined
  deriving DecidableEq, Repr

/-! ## Reading -/

/-- `buf->at(i)`. -/
def at? (buf : List UInt8) (i : ℕ) : Except Fault UInt8 :=
  match buf[i]? with
  | some byte => .ok byte
  | none => .error .thrown

/-- The vector of the bytes from `buf->begin() + i` to `buf->begin() + j`. -/
def range (buf : List UInt8) (i j : ℕ) : Except Fault (List UInt8) :=
  match slice buf i j with
  | some bytes => .ok bytes
  | none => .error .undefined

/-- Four bytes from index `i` on, joined by `oneByteToFour`. -/
def word (buf : List UInt8) (i : ℕ) : Except Fault UInt32 := do
  match oneByteToFour (← range buf i (i + 4)) with
  | some r => return r
  | none => throw .thrown

namespace AdvertMessage

/-- The loop of `deserialize`: a triple that is cut off makes `at` throw. -/
def parseElements : List UInt8 → Except Fault (List (ElementId × CausalNum × CausalNum))
  | [] => .ok []
  | element :: version :: round :: rest => do
    return (element, version, round) :: (← parseElements rest)
  | _ => .error .thrown

def parse (buf : List UInt8) : Except Fault AdvertMessage := do
  let otherId ← word buf 1
  let otherIP ← word buf 5
  let elements ← parseElements (buf.drop 9)
  return ⟨otherId, otherIP, elements⟩

end AdvertMessage

namespace RequestDataMessage

def parse (buf : List UInt8) : Except Fault RequestDataMessage := do
  let otherId ← word buf 1
  return ⟨otherId, ← at? buf 5⟩

end RequestDataMessage

namespace SendDataMessage

/-- The loop of `deserialize`: an id that is cut off is a range outside of the buffer. -/
def parseNodeIds : List UInt8 → Except Fault (List NodeId)
  | [] => .ok []
  | a :: b :: c :: d :: rest => do
    let id ← word [a, b, c, d] 0
    return id :: (← parseNodeIds rest)
  | _ => .error .undefined

def parse (buf : List UInt8) : Except Fault SendDataMessage := do
  let otherId ← word buf 1
  let elid ← at? buf 5
  let xpos ← word buf 6
  let ypos ← word buf 10
  let vers ← at? buf 14
  let rnd ← at? buf 15
  let ids ← parseNodeIds (buf.drop 16)
  return ⟨otherId, elid, ⟨xpos, ypos⟩, vers, rnd, ids.foldl (fun group id => insert id group) ∅⟩

end SendDataMessage

namespace AckMessage

def parse (buf : List UInt8) : Except Fault AckMessage := do
  let otherId ← word buf 1
  return ⟨otherId, ← at? buf 5⟩

end AckMessage

/-- How `ReceiveData` ends on the bytes of a packet. -/
inductive Outcome
  | done (s : EdgeAwareClientApplication)
  | thrown (s : EdgeAwareClientApplication)
  | undefined

namespace EdgeAwareClientApplication

/-- What `ReceiveData` does once a packet is read, or a read has failed. -/
def actOn (s : EdgeAwareClientApplication) (now : ℕ) : Except Fault Packet → Outcome
  | .error .thrown => .thrown s
  | .error .undefined => .undefined
  | .ok packet =>
    match s.receiveData now packet with
    | .ok s' => .done s'
    | .error s' => .thrown s'

/-- `ReceiveData`: the first byte selects the branch, and there may be none. -/
def receiveBytes (s : EdgeAwareClientApplication) (now : ℕ) (buffer : List UInt8) : Outcome :=
  match buffer[0]? with
  | none => .undefined
  | some _ =>
    match branch buffer with
    | none => .done s
    | some .advert => s.actOn now ((AdvertMessage.parse buffer).map .advert)
    | some .requestData => s.actOn now ((RequestDataMessage.parse buffer).map .requestData)
    | some .sendData => s.actOn now ((SendDataMessage.parse buffer).map .sendData)
    | some .ack => s.actOn now ((AckMessage.parse buffer).map .ack)

end EdgeAwareClientApplication

/-! ## What is read to its end -/

theorem toOption_bind {ε α β : Type} (x : Except ε α) (f : α → Except ε β) :
    (x >>= f).toOption = x.toOption.bind fun a => (f a).toOption := by
  cases x <;> rfl

theorem at?_toOption (buf : List UInt8) (i : ℕ) : (at? buf i).toOption = buf[i]? := by
  unfold at?
  split
  · rename_i h
    rw [h]
    rfl
  · rename_i h
    rw [h]
    rfl

theorem word_toOption (buf : List UInt8) (i : ℕ) :
    (word buf i).toOption = (slice buf i (i + 4)).bind oneByteToFour := by
  unfold word range
  cases slice buf i (i + 4) with
  | none => rfl
  | some bytes =>
    show Except.toOption (match oneByteToFour bytes with
      | some r => (pure r : Except Fault UInt32)
      | none => throw .thrown) = oneByteToFour bytes
    cases oneByteToFour bytes <;> rfl

theorem word_of_bytes (a b c d : UInt8) : (word [a, b, c, d] 0).toOption = oneByteToFour [a, b, c, d] := by
  rw [word_toOption]
  rfl

theorem parseElements_toOption (b : List UInt8) :
    (AdvertMessage.parseElements b).toOption = AdvertMessage.readElements b := by
  fun_induction AdvertMessage.readElements b with
  | case1 => rfl
  | case2 element version round rest ih =>
    rw [AdvertMessage.parseElements, toOption_bind, ih]
    rfl
  | case3 b h1 h2 =>
    match b, h1, h2 with
    | [], h1, _ => exact absurd rfl h1
    | [_], _, _ => rfl
    | [_, _], _, _ => rfl
    | element :: version :: round :: rest, _, h2 => exact absurd rfl (h2 element version round rest)

theorem parseNodeIds_toOption (b : List UInt8) :
    (SendDataMessage.parseNodeIds b).toOption = SendDataMessage.readNodeIds b := by
  fun_induction SendDataMessage.readNodeIds b with
  | case1 => rfl
  | case2 w x y z rest ih =>
    rw [SendDataMessage.parseNodeIds, toOption_bind, word_of_bytes]
    refine congrArg (Option.bind _) (funext fun id => ?_)
    rw [toOption_bind, ih]
    rfl
  | case3 b h1 h2 =>
    match b, h1, h2 with
    | [], h1, _ => exact absurd rfl h1
    | [_], _, _ => rfl
    | [_, _], _, _ => rfl
    | [_, _, _], _, _ => rfl
    | w :: x :: y :: z :: rest, _, h2 => exact absurd rfl (h2 w x y z rest)

/-- The messages that start with an id and an element. -/
theorem parse_head {μ : Type} (buf : List UInt8) (make : NodeId → ElementId → μ) :
    (do return make (← word buf 1) (← at? buf 5) : Except Fault μ).toOption =
      (do return make (← oneByteToFour (← slice buf 1 5)) (← buf[5]?) : Option μ) := by
  rw [toOption_bind, word_toOption]
  simp only [toOption_bind, at?_toOption, Option.bind_eq_bind, Option.bind_assoc]
  rfl

/-- **A message that is read to its end is that of the wire format.** -/
theorem parse_toOption (buf : List UInt8) :
    (AdvertMessage.parse buf).toOption = AdvertMessage.deserialize buf ∧
      (RequestDataMessage.parse buf).toOption = RequestDataMessage.deserialize buf ∧
      (SendDataMessage.parse buf).toOption = SendDataMessage.deserialize buf ∧
      (AckMessage.parse buf).toOption = AckMessage.deserialize buf := by
  refine ⟨?_, parse_head buf RequestDataMessage.mk, ?_, parse_head buf AckMessage.mk⟩
  · unfold AdvertMessage.parse AdvertMessage.deserialize
    simp only [toOption_bind, word_toOption, parseElements_toOption, Option.bind_eq_bind, Option.bind_assoc]
    rfl
  · unfold SendDataMessage.parse SendDataMessage.deserialize
    simp only [toOption_bind, word_toOption, at?_toOption, parseNodeIds_toOption, Option.bind_eq_bind,
      Option.bind_assoc]
    rfl

/-! ## What is outside of the buffer -/

theorem at?_of_lt {buf : List UInt8} {i : ℕ} (h : i < buf.length) : at? buf i = .ok buf[i] := by
  unfold at?
  rw [List.getElem?_eq_getElem h]

theorem at?_of_le {buf : List UInt8} {i : ℕ} (h : buf.length ≤ i) : at? buf i = .error .thrown := by
  unfold at?
  rw [List.getElem?_eq_none h]

theorem word_of_le (buf : List UInt8) (i : ℕ) (h : i + 4 ≤ buf.length) : ∃ c, word buf i = .ok c := by
  have hslice : slice buf i (i + 4) = some ((buf.take (i + 4)).drop i) := if_pos h
  have hlen : ((buf.take (i + 4)).drop i).length = 4 := by
    rw [List.length_drop, List.length_take]
    omega
  unfold word range
  rw [hslice]
  generalize (buf.take (i + 4)).drop i = bytes at hlen
  match bytes, hlen with
  | [a, b, c, d], _ => exact ⟨_, rfl⟩

theorem word_of_lt {buf : List UInt8} {i : ℕ} (h : buf.length < i + 4) : word buf i = .error .undefined := by
  have hslice : slice buf i (i + 4) = none := if_neg (by omega)
  unfold word range
  rw [hslice]
  rfl

/-- The triples of an advertisement are read with `at`. -/
theorem parseElements_defined (b : List UInt8) : AdvertMessage.parseElements b ≠ .error .undefined := by
  fun_induction AdvertMessage.parseElements b with
  | case1 => simp
  | case2 element version round rest ih =>
    cases h : AdvertMessage.parseElements rest with
    | ok l => simp
    | error fault =>
      rw [h] at ih
      exact ih
  | case3 => simp

/-- The ids of a sync group are read as ranges. -/
theorem parseNodeIds_cases (b : List UInt8) :
    (b.length % 4 = 0 ∧ ∃ ids, SendDataMessage.parseNodeIds b = .ok ids) ∨
      (b.length % 4 ≠ 0 ∧ SendDataMessage.parseNodeIds b = .error .undefined) := by
  fun_induction SendDataMessage.parseNodeIds b with
  | case1 => exact Or.inl ⟨rfl, [], rfl⟩
  | case2 w x y z rest ih =>
    obtain ⟨id, hid⟩ := word_of_le [w, x, y, z] 0 le_rfl
    have hlen : (w :: x :: y :: z :: rest).length % 4 = rest.length % 4 := by
      simp only [List.length_cons]
      omega
    rw [hid, hlen]
    rcases ih with ⟨hmod, ids, hids⟩ | ⟨hmod, hids⟩
    · exact Or.inl ⟨hmod, id :: ids, by rw [hids]; rfl⟩
    · exact Or.inr ⟨hmod, by rw [hids]; rfl⟩
  | case3 b h1 h2 =>
    match b, h1, h2 with
    | [], h1, _ => exact absurd rfl h1
    | [_], _, _ => exact Or.inr ⟨by simp, rfl⟩
    | [_, _], _, _ => exact Or.inr ⟨by simp, rfl⟩
    | [_, _, _], _, _ => exact Or.inr ⟨by simp, rfl⟩
    | w :: x :: y :: z :: rest, _, h2 => exact absurd rfl (h2 w x y z rest)

theorem advert_parse_undefined (buf : List UInt8) :
    AdvertMessage.parse buf = .error .undefined ↔ buf.length < 9 := by
  unfold AdvertMessage.parse
  rcases Nat.lt_or_ge buf.length 5 with h5 | h5
  · rw [word_of_lt (by omega)]
    exact iff_of_true rfl (by omega)
  obtain ⟨id, hid⟩ := word_of_le buf 1 h5
  rcases Nat.lt_or_ge buf.length 9 with h9 | h9
  · rw [hid, word_of_lt (by omega)]
    exact iff_of_true rfl h9
  obtain ⟨ip, hip⟩ := word_of_le buf 5 h9
  rw [hid, hip]
  refine iff_of_false ?_ (by omega)
  have hdefined := parseElements_defined (buf.drop 9)
  intro heq
  cases h : AdvertMessage.parseElements (buf.drop 9) with
  | ok elements =>
    rw [h] at heq
    cases heq
  | error fault =>
    rw [h] at heq hdefined
    have hfault : fault = .undefined := by
      cases heq
      rfl
    exact hdefined (by rw [hfault])

theorem head_parse_undefined {μ : Type} (buf : List UInt8) (make : NodeId → ElementId → μ) :
    (do return make (← word buf 1) (← at? buf 5) : Except Fault μ) = .error .undefined ↔
      buf.length < 5 := by
  rcases Nat.lt_or_ge buf.length 5 with h5 | h5
  · rw [word_of_lt (by omega)]
    exact iff_of_true rfl h5
  obtain ⟨id, hid⟩ := word_of_le buf 1 h5
  rw [hid]
  refine iff_of_false ?_ (by omega)
  rcases Nat.lt_or_ge 5 buf.length with h6 | h6
  · rw [at?_of_lt h6]
    exact fun heq => by cases heq
  · rw [at?_of_le h6]
    exact fun heq => by cases heq

/-- A data message is read with `at` and with ranges in turn, so the size decides which fails first. -/
theorem sendData_parse_undefined (buf : List UInt8) :
    SendDataMessage.parse buf = .error .undefined ↔
      ¬ (buf.length = 5 ∨ buf.length = 14 ∨ buf.length = 15 ∨ (16 ≤ buf.length ∧ buf.length % 4 = 0)) := by
  unfold SendDataMessage.parse
  rcases Nat.lt_or_ge buf.length 5 with h5 | h5
  · rw [word_of_lt (by omega)]
    exact iff_of_true rfl (by omega)
  obtain ⟨id, hid⟩ := word_of_le buf 1 h5
  rw [hid]
  rcases Nat.lt_or_ge 5 buf.length with h6 | h6
  swap
  · rw [at?_of_le h6]
    exact iff_of_false (fun heq => by cases heq) (by omega)
  rw [at?_of_lt h6]
  rcases Nat.lt_or_ge buf.length 10 with h10 | h10
  · rw [word_of_lt (i := 6) h10]
    exact iff_of_true rfl (by omega)
  obtain ⟨x, hx⟩ := word_of_le buf 6 h10
  rw [hx]
  rcases Nat.lt_or_ge buf.length 14 with h14 | h14
  · rw [word_of_lt (i := 10) h14]
    exact iff_of_true rfl (by omega)
  obtain ⟨y, hy⟩ := word_of_le buf 10 h14
  rw [hy]
  rcases Nat.lt_or_ge 14 buf.length with h15 | h15
  swap
  · rw [at?_of_le h15]
    exact iff_of_false (fun heq => by cases heq) (by omega)
  rw [at?_of_lt h15]
  rcases Nat.lt_or_ge 15 buf.length with h16 | h16
  swap
  · rw [at?_of_le h16]
    exact iff_of_false (fun heq => by cases heq) (by omega)
  rw [at?_of_lt h16]
  have hlen : (buf.drop 16).length = buf.length - 16 := List.length_drop
  rcases parseNodeIds_cases (buf.drop 16) with ⟨hmod, ids, hids⟩ | ⟨hmod, hids⟩
  · rw [hids]
    exact iff_of_false (fun heq => by cases heq) (by omega)
  · rw [hids]
    exact iff_of_true rfl (by omega)

/-! ## Clean rejection -/

/-- **The packet is processed, or it is rejected** with the node as it was. -/
def Clean (s : EdgeAwareClientApplication) (outcome : Outcome) : Prop :=
  (∃ s', outcome = .done s') ∨ outcome = .thrown s

/-- There is a first byte, and no range of iterators is outside of the buffer before `at` throws. -/
def Readable (buffer : List UInt8) : Prop :=
  match branch buffer with
  | none => buffer ≠ []
  | some .advert => 9 ≤ buffer.length
  | some .requestData => 5 ≤ buffer.length
  | some .sendData => buffer.length = 5 ∨ buffer.length = 14 ∨ buffer.length = 15 ∨
      (16 ≤ buffer.length ∧ buffer.length % 4 = 0)
  | some .ack => 5 ≤ buffer.length

namespace EdgeAwareClientApplication

variable {s : EdgeAwareClientApplication}

/-- The copy of a data message is one to take over from a node of the local group, or the one that
the node has, unless there is no such element. -/
def Acceptable (s : EdgeAwareClientApplication) (info : SendDataMessage) : Prop :=
  ∀ i, element? info.elementId = some i → s.localGroup.find? info.senderId = none →
    adopt s.nodeId info = s.agreementInformation i

theorem setElement_eq_self {i : Element} {c : AgreementInformation} :
    s.setElement i c = s ↔ c = s.agreementInformation i := by
  constructor
  · intro h
    have hi : (s.setElement i c).agreementInformation i = s.agreementInformation i := by rw [h]
    have hself : (s.setElement i c).agreementInformation i = c := by simp [setElement]
    rw [← hself, hi]
  · rintro rfl
    unfold setElement
    rw [Function.update_eq_self]

/-- **A packet ends in a new state or throws in the old one**, unless its copy is not acceptable. -/
theorem receiveData_clean (now : ℕ) (packet : Packet) :
    ((∃ s', s.receiveData now packet = .ok s') ∨ s.receiveData now packet = .error s) ↔
      ∀ info, packet = .sendData info → s.Acceptable info := by
  cases packet with
  | advert info =>
    refine iff_of_true ?_ (fun _ h => by cases h)
    rcases receiveAdvert_cases (s := s) now info with ⟨-, hres⟩ | ⟨s', hres, -⟩
    · exact Or.inr hres
    · exact Or.inl ⟨s', hres⟩
  | requestData info =>
    refine iff_of_true ?_ (fun _ h => by cases h)
    show (∃ s', s.receiveRequestData info = .ok s') ∨ s.receiveRequestData info = .error s
    unfold receiveRequestData
    cases s.localGroup.find? info.senderId with
    | none => exact Or.inr rfl
    | some node =>
      unfold sendData
      cases element? info.elementId with
      | none => exact Or.inr rfl
      | some i => exact Or.inl ⟨_, rfl⟩
  | ack info =>
    refine iff_of_true ?_ (fun _ h => by cases h)
    show (∃ s', s.receiveACK info = .ok s') ∨ s.receiveACK info = .error s
    unfold receiveACK
    cases element? info.elementId with
    | none => exact Or.inr rfl
    | some i => exact Or.inl ⟨_, rfl⟩
  | sendData info =>
    show ((∃ s', s.receiveSendData info = .ok s') ∨ s.receiveSendData info = .error s) ↔ _
    have hone : (∀ x, Packet.sendData info = .sendData x → s.Acceptable x) ↔ s.Acceptable info :=
      ⟨fun h => h info rfl, fun h x hx => Packet.sendData.inj hx ▸ h⟩
    rw [hone]
    unfold receiveSendData Acceptable
    cases hi : element? info.elementId with
    | none => exact iff_of_true (Or.inr rfl) (fun i h => by cases h)
    | some i =>
      have hgroup : (s.setElement i (adopt s.nodeId info)).localGroup = s.localGroup := rfl
      simp only [hgroup]
      cases hfind : s.localGroup.find? info.senderId with
      | some node => exact iff_of_true (Or.inl ⟨_, rfl⟩) (fun _ _ h => by cases h)
      | none =>
        -- the copy is taken over, and then the sender is not found
        constructor
        · rintro (⟨s', h⟩ | h) j hj -
          · cases h
          · obtain rfl := Option.some.inj hj
            exact setElement_eq_self.1 (Except.error.inj h)
        · intro h
          exact Or.inr (congrArg Except.error (setElement_eq_self.2 (h i rfl rfl)))

theorem actOn_clean (now : ℕ) (packet : Except Fault Packet) :
    Clean s (s.actOn now packet) ↔
      packet ≠ .error .undefined ∧ ∀ info, packet.toOption = some (.sendData info) → s.Acceptable info := by
  match packet with
  | .error .thrown => exact iff_of_true (Or.inr rfl) ⟨by simp, fun info h => by cases h⟩
  | .error .undefined =>
    refine iff_of_false ?_ (fun h => h.1 rfl)
    rintro (⟨s', h⟩ | h)
    · cases h
    · cases h
  | .ok packet =>
    have hclean : Clean s (s.actOn now (.ok packet)) ↔
        ((∃ s', s.receiveData now packet = .ok s') ∨ s.receiveData now packet = .error s) := by
      unfold Clean actOn
      cases h : s.receiveData now packet with
      | ok s' => simp [h]
      | error s' => simp [h]
    rw [hclean, receiveData_clean]
    constructor
    · intro h
      exact ⟨by simp, fun info hinfo => h info (Option.some.inj hinfo)⟩
    · rintro ⟨-, h⟩ info rfl
      exact h info rfl

end EdgeAwareClientApplication

theorem map_undefined {μ : Type} {x : Except Fault μ} {f : μ → Packet} :
    x.map f = .error .undefined ↔ x = .error .undefined := by
  cases x with
  | ok m => exact iff_of_false (fun h => by cases h) (fun h => by cases h)
  | error fault => exact ⟨fun h => congrArg Except.error (Except.error.inj h),
      fun h => congrArg Except.error (Except.error.inj h)⟩

theorem map_toOption {μ : Type} (x : Except Fault μ) (f : μ → Packet) :
    (x.map f).toOption = x.toOption.map f := by
  cases x <;> rfl

/-- **A packet is rejected cleanly or processed exactly where** it is read inside of the buffer or an `at`
throws first, and its copy is acceptable if it is a data message. -/
theorem clean_rejection (s : EdgeAwareClientApplication) (now : ℕ) (buffer : List UInt8) :
    Clean s (s.receiveBytes now buffer) ↔
      Readable buffer ∧ ∀ info, readPacket buffer = some (.sendData info) → s.Acceptable info := by
  obtain ⟨hadvert, hrequest, hsend, hack⟩ := parse_toOption buffer
  cases hfirst : buffer[0]? with
  | none =>
    have hempty : buffer = [] := by simpa using hfirst
    subst hempty
    refine iff_of_false ?_ (fun h => h.1 rfl)
    rintro (⟨s', h⟩ | h)
    · cases h
    · cases h
  | some first =>
    unfold EdgeAwareClientApplication.receiveBytes Readable readPacket
    rw [hfirst]
    cases hbranch : branch buffer with
    | none =>
      have hne : buffer ≠ [] := by
        rintro rfl
        cases hfirst
      exact iff_of_true (Or.inl ⟨s, rfl⟩) ⟨hne, fun info h => by cases h⟩
    | some type =>
      cases type with
      | advert =>
        have hdef : (AdvertMessage.parse buffer).map Packet.advert ≠ .error .undefined ↔ 9 ≤ buffer.length := by
          rw [Ne, map_undefined, advert_parse_undefined, Nat.not_lt]
        show Clean s (s.actOn now _) ↔ _
        rw [EdgeAwareClientApplication.actOn_clean, hdef, map_toOption, hadvert]
        simp [Option.bind_eq_some_iff]
      | requestData =>
        have hdef : (RequestDataMessage.parse buffer).map Packet.requestData ≠ .error .undefined ↔
            5 ≤ buffer.length := by
          rw [Ne, map_undefined, ← Nat.not_lt]
          exact not_congr (head_parse_undefined buffer RequestDataMessage.mk)
        show Clean s (s.actOn now _) ↔ _
        rw [EdgeAwareClientApplication.actOn_clean, hdef, map_toOption, hrequest]
        simp [Option.bind_eq_some_iff]
      | sendData =>
        have hdef : (SendDataMessage.parse buffer).map Packet.sendData ≠ .error .undefined ↔
            (buffer.length = 5 ∨ buffer.length = 14 ∨ buffer.length = 15 ∨
              (16 ≤ buffer.length ∧ buffer.length % 4 = 0)) := by
          rw [Ne, map_undefined, sendData_parse_undefined, not_not]
        show Clean s (s.actOn now _) ↔ _
        rw [EdgeAwareClientApplication.actOn_clean, hdef, map_toOption, hsend]
        simp [Option.bind_eq_some_iff]
      | ack =>
        have hdef : (AckMessage.parse buffer).map Packet.ack ≠ .error .undefined ↔ 5 ≤ buffer.length := by
          rw [Ne, map_undefined, ← Nat.not_lt]
          exact not_congr (head_parse_undefined buffer AckMessage.mk)
        show Clean s (s.actOn now _) ↔ _
        rw [EdgeAwareClientApplication.actOn_clean, hdef, map_toOption, hack]
        simp [Option.bind_eq_some_iff]

/-! ## A stranger's copy -/

/-- A node that has just started. -/
def started : EdgeAwareClientApplication := .startApplication 1 10 baseElementLocations

/-- Node 7, which the node has not heard of, sends a later copy of element 0. -/
def strangersCopy : List UInt8 := [2, 7, 0, 0, 0, 0, 0, 0, 0, 0, 0, 0, 0, 0, 5, 0]

/-- The copy is taken over, and then `localGroup.at` throws. -/
theorem half_adopted :
    ¬ ∀ (s : EdgeAwareClientApplication) (now : ℕ)
    (buffer : List UInt8), Clean s (s.receiveBytes now buffer) := by
  intro h
  have hres : started.receiveBytes 0 strangersCopy =
      .thrown (started.setElement 0 (EdgeAwareClientApplication.adopt 1 ⟨7, 0, ⟨0, 0⟩, 5, 0, ∅⟩)) := rfl
  rcases h started 0 strangersCopy with ⟨s', hdone⟩ | hthrown
  · rw [hres] at hdone
    cases hdone
  · rw [hres] at hthrown
    have hcopy := EdgeAwareClientApplication.setElement_eq_self.1 (Outcome.thrown.inj hthrown)
    have hversion : (5 : UInt8) = 0 := congrArg AgreementInformation.versionNumber hcopy
    exact absurd hversion (by decide)

end EdgeConsensus.Peer
