import EdgeConsensus.Log.ReadLog

/-!
# The nodes that an edge server knows

A node answers every advertisement of an edge server with `address,id`, always on the same TCP
connection and with nothing between two answers (`edge_responder` in `node.py`). The server takes
each result of `recv` for one answer (`maintain_existing_connection` in `edge.py`).

* `messages_of_filed`: results that each name the node are one answer each.
* `joined_iff`: when the server has the node right.
* `two_joined`: two answers in one result are taken for another node.
-/

namespace EdgeConsensus.Edge

open Lib Log

/-! ## Nodes -/

/-- What `get_address_on_interface` gives. -/
structure Address where
  text : List Char
  ne_nil : text ≠ []
  no_comma : ',' ∉ text

/-- A node, with its `NODE_INDEX`. -/
structure Node where
  address : Address
  index : ℤ

namespace Node

/-- The key under which the server is to have the node. -/
def id (node : Node) : List Char := str node.index

/-- `f"{address},{NODE_INDEX}"`. -/
def message (node : Node) : List Char := node.address.text ++ ',' :: node.id

/-- `edge_responder`, `k` times: the bytes on the connection. -/
def sent (node : Node) (k : ℕ) : List UInt8 := (List.replicate k (encode node.message)).flatten

end Node

/-! ## The server -/

/-- `known_nodes`: an address and a time for each id. -/
abbrev KnownNodes : Type := List Char → Option (List Char × ℕ)

/-- What `recv(1024)` returns, and the time at which it is filed. -/
structure Read where
  bytes : List UInt8
  time : ℕ

/-- One round of the loop; `none` if it raises. -/
def fileMessage (known : KnownNodes) (r : Read) : Option KnownNodes := do
  let text ← decode r.bytes
  let message := text.splitOn ','
  let address ← message[0]?
  let id ← message[1]?
  return Function.update known id (some (address, r.time))

/-- The loop, up to the last of these results. -/
def maintainExistingConnection (known : KnownNodes) (reads : List Read) : Option KnownNodes :=
  reads.foldlM fileMessage known

/-! ## Connections -/

/-- The results on a connection: the chunks, and the empty one that comes at the time when it is closed. -/
def results (chunks : List Read) (closed : Option ℕ) : List Read := chunks ++ (closed.map (Read.mk [])).toList

/-- The chunks are what `recv(1024)` may have made of the stream; it is read to its end before the empty
result. -/
structure Cut (stream : List UInt8) (chunks : List Read) (closed : Option ℕ) : Prop where
  read : chunks.flatMap Read.bytes <+: stream
  sized : ∀ r ∈ chunks, 0 < r.bytes.length ∧ r.bytes.length ≤ 1024
  ended : closed ≠ none → chunks.flatMap Read.bytes = stream

/-- The node has its address under its id, and everything else is as it was. -/
def Files (node : Node) (known known' : KnownNodes) : Prop :=
  ∃ time, known' = Function.update known node.id (some (node.address.text, time))

/-- **The server has the node right** at every moment: it has not raised, it has the node once a whole answer
has come, and nothing else. -/
def Joined (node : Node) (reads : List Read) : Prop :=
  ∀ (known : KnownNodes) (k : ℕ), ∃ known', maintainExistingConnection known (reads.take k) = some known' ∧
    if (encode node.message).length ≤ ((reads.take k).flatMap Read.bytes).length then Files node known known'
    else known' = known

/-! ## One result -/

theorem Node.id_no_comma (node : Node) : ',' ∉ node.id := fun h => (mem_str h).2.1 rfl

theorem Node.splitOn_message (node : Node) : node.message.splitOn ',' = [node.address.text, node.id] := by
  unfold message
  rw [List.splitOn_append_cons_self_of_not_mem node.address.no_comma, List.splitOn_eq_singleton node.id_no_comma]

/-- One answer files the node. -/
theorem fileMessage_message (node : Node) (known : KnownNodes) {r : Read} (h : r.bytes = encode node.message) :
    fileMessage known r = some (Function.update known node.id (some (node.address.text, r.time))) := by
  unfold fileMessage
  rw [h, decode_encode]
  simp [node.splitOn_message]

/-- The empty result raises. -/
theorem fileMessage_nil (known : KnownNodes) (time : ℕ) : fileMessage known ⟨[], time⟩ = none := rfl

/-- A result that does not raise files what is before the first comma under what comes then, up to the next
comma or the end. -/
theorem fileMessage_cases {known known' : KnownNodes} {r : Read} (h : fileMessage known r = some known') :
    ∃ address id rest, r.bytes = encode (address ++ ',' :: (id ++ rest)) ∧
      (rest = [] ∨ ∃ more, rest = ',' :: more) ∧
      known' = Function.update known id (some (address, r.time)) := by
  unfold fileMessage at h
  simp only [Option.bind_eq_bind, Option.bind_eq_some_iff, Option.pure_def, Option.some.injEq] at h
  obtain ⟨text, htext, address, haddress, id, hid, rfl⟩ := h
  have hjoin : List.intercalate [','] (text.splitOn ',') = text := List.intercalate_splitOn ','
  have hbytes := encode_of_decode htext
  cases hsplit : text.splitOn ',' with
  | nil =>
    rw [hsplit] at haddress
    cases haddress
  | cons x parts =>
    rw [hsplit] at haddress hid hjoin
    obtain rfl : x = address := by simpa using haddress
    cases parts with
    | nil => cases hid
    | cons y more =>
      obtain rfl : y = id := by simpa using hid
      cases more with
      | nil =>
        refine ⟨x, y, [], ?_, Or.inl rfl, rfl⟩
        rw [← hbytes, ← hjoin]
        simp [List.intercalate]
      | cons z more =>
        refine ⟨x, y, ',' :: List.intercalate [','] (z :: more), ?_, Or.inr ⟨_, rfl⟩, rfl⟩
        rw [← hbytes, ← hjoin]
        simp [List.intercalate]

/-! ## All results -/

theorem Node.encode_message_ne_nil (node : Node) : encode node.message ≠ [] := by
  intro h
  have hnil : node.message = [] := encode_injective h
  exact node.address.ne_nil (List.append_eq_nil_iff.1 hnil).1

/-- No answer begins with a comma. -/
theorem Node.sent_no_comma (node : Node) (k : ℕ) (more : List Char) (bytes : List UInt8) :
    ¬ encode (',' :: more) ++ bytes <+: node.sent k := by
  intro h
  rw [encode_cons_ascii (by decide)] at h
  cases k with
  | zero => exact absurd (List.prefix_nil.1 h) (List.cons_ne_nil _ _)
  | succ k =>
    obtain ⟨c, cs, htext⟩ := List.exists_cons_of_ne_nil node.address.ne_nil
    obtain ⟨b, bs, hchar⟩ : ∃ b bs, String.utf8EncodeChar c = b :: bs := by
      refine List.exists_cons_of_ne_nil (List.ne_nil_of_length_pos ?_)
      rw [String.length_utf8EncodeChar]
      exact c.utf8Size_pos
    have hsent : node.sent (k + 1) = b :: (bs ++ encode (cs ++ ',' :: node.id) ++ node.sent k) := by
      show encode node.message ++ node.sent k = _
      have hencode : encode node.message = b :: (bs ++ encode (cs ++ ',' :: node.id)) := by
        unfold Node.message encode
        rw [htext, List.cons_append, List.flatMap_cons, hchar]
        rfl
      rw [hencode]
      rfl
    rw [hsent] at h
    have hfirst : (',' : Char).val.toUInt8 = b := (List.cons_prefix_cons.1 h).1
    have hmem : (',' : Char).val.toUInt8 ∈ encode [c] := by
      rw [hfirst]
      simp [encode, hchar]
    obtain ⟨d, hd, hcomma⟩ := ascii_of_encode (by decide) hmem
    obtain rfl : d = ',' := Char.toNat_inj.1 hcomma
    refine node.address.no_comma ?_
    rw [htext, ← List.mem_singleton.1 hd]
    exact List.mem_cons_self

/-- **Results that each name the node are one answer each**: what is behind the first answer in a result would
begin with a comma. -/
theorem Node.messages_of_filed (node : Node) {chunks : List Read} : ∀ {k : ℕ},
    chunks.flatMap Read.bytes <+: node.sent k →
      (∀ r ∈ chunks, ∃ rest, r.bytes = encode (node.message ++ rest) ∧ (rest = [] ∨ ∃ more, rest = ',' :: more)) →
      ∀ r ∈ chunks, r.bytes = encode node.message := by
  induction chunks with
  | nil =>
    intro k _ _ r hr
    cases hr
  | cons r chunks ih =>
    intro k hread hfiled
    obtain ⟨hone, hmore⟩ := List.forall_mem_cons.1 hfiled
    obtain ⟨rest, hbytes, hrest⟩ := hone
    rw [List.flatMap_cons, hbytes, encode_append, List.append_assoc] at hread
    cases k with
    | zero =>
      have hnil := (List.append_eq_nil_iff.1 (List.prefix_nil.1 hread)).1
      exact absurd hnil node.encode_message_ne_nil
    | succ k =>
      have hsent : node.sent (k + 1) = encode node.message ++ node.sent k := rfl
      rw [hsent, List.prefix_append_right_inj] at hread
      rcases hrest with rfl | ⟨more, rfl⟩
      · rw [List.append_nil] at hbytes
        exact List.forall_mem_cons.2 ⟨hbytes, ih hread hmore⟩
      · exact absurd hread (node.sent_no_comma k more _)

/-- Answers that come one by one file the node. -/
theorem maintain_messages (node : Node) (known : KnownNodes) {reads : List Read}
    (h : ∀ r ∈ reads, r.bytes = encode node.message) :
    ∃ known', maintainExistingConnection known reads = some known' ∧
      (reads = [] ∧ known' = known ∨ reads ≠ [] ∧ Files node known known') := by
  induction reads using List.reverseRecOn with
  | nil => exact ⟨known, rfl, Or.inl ⟨rfl, rfl⟩⟩
  | append_singleton reads r ih =>
    obtain ⟨u, hu, hcases⟩ := ih fun x hx => h x (List.mem_append_left _ hx)
    have hone := fileMessage_message node u (h r (List.mem_append_right _ List.mem_cons_self))
    have hrun : maintainExistingConnection known (reads ++ [r]) =
        some (Function.update u node.id (some (node.address.text, r.time))) := by
      unfold maintainExistingConnection at hu ⊢
      rw [List.foldlM_append, hu]
      simp [hone]
    have hne : reads ++ [r] ≠ [] := List.append_ne_nil_of_right_ne_nil _ (List.cons_ne_nil _ _)
    refine ⟨_, hrun, Or.inr ⟨hne, r.time, ?_⟩⟩
    rcases hcases with ⟨-, rfl⟩ | ⟨-, time, rfl⟩
    · rfl
    · exact Function.update_idem _ _ _

/-- What the server makes of one result, after others. -/
theorem Joined.filed {node : Node} {reads : List Read} (h : Joined node reads) (before : List Read) (r : Read)
    (after : List Read) (hsplit : reads = before ++ r :: after) :
    ∃ rest, r.bytes = encode (node.message ++ rest) ∧ (rest = [] ∨ ∃ more, rest = ',' :: more) := by
  obtain ⟨u, hu, -⟩ := h (fun _ => none) before.length
  obtain ⟨v, hv, hfiles⟩ := h (fun _ => none) (before.length + 1)
  have hbefore : reads.take before.length = before := by rw [hsplit, List.take_left]
  have hwith : reads.take (before.length + 1) = before ++ [r] := by
    rw [hsplit, List.take_append]
    simp
  rw [hbefore] at hu
  have hround : fileMessage u r = some v := by
    rw [hwith] at hv
    unfold maintainExistingConnection at hu hv
    rw [List.foldlM_append, hu] at hv
    simpa using hv
  obtain ⟨address, id, rest, hbytes, hrest, rfl⟩ := fileMessage_cases hround
  -- what it files is there afterwards, so it is the node
  split at hfiles
  · obtain ⟨time, hv⟩ := hfiles
    have hat := congrFun hv id
    rw [Function.update_self] at hat
    by_cases hid : id = node.id
    · subst hid
      rw [Function.update_self] at hat
      obtain ⟨rfl, -⟩ := Prod.mk.inj (Option.some.inj hat)
      refine ⟨rest, ?_, hrest⟩
      rw [hbytes]
      simp [Node.message]
    · rw [Function.update_of_ne hid] at hat
      cases hat
  · have hat := congrFun hfiles id
    rw [Function.update_self] at hat
    cases hat

/-- **The server has the node right exactly if** the connection is not closed and every result is one whole
answer. -/
theorem joined_iff (node : Node) (k : ℕ) (chunks : List Read) (closed : Option ℕ)
    (hcut : Cut (node.sent k) chunks closed) :
    Joined node (results chunks closed) ↔ closed = none ∧ ∀ r ∈ chunks, r.bytes = encode node.message := by
  constructor
  · intro h
    refine ⟨?_, node.messages_of_filed hcut.read ?_⟩
    · by_contra hclosed
      obtain ⟨time, rfl⟩ := Option.ne_none_iff_exists'.1 hclosed
      -- the empty result is the last one, and raises
      obtain ⟨known, hrun, -⟩ := h (fun _ => none) (results chunks (some time)).length
      have hlast : results chunks (some time) = chunks ++ [⟨[], time⟩] := rfl
      unfold maintainExistingConnection at hrun
      rw [List.take_length, hlast, List.foldlM_append] at hrun
      obtain ⟨u, -, hempty⟩ := Option.bind_eq_some_iff.1 hrun
      rw [List.foldlM_cons, fileMessage_nil] at hempty
      cases hempty
    · intro r hr
      obtain ⟨before, after, rfl⟩ := List.append_of_mem hr
      refine h.filed before r (after ++ (closed.map (Read.mk [])).toList) ?_
      simp [results]
  · rintro ⟨rfl, hmessages⟩ known j
    have hresults : results chunks none = chunks := List.append_nil chunks
    rw [hresults]
    have htaken : ∀ r ∈ chunks.take j, r.bytes = encode node.message := fun r hr =>
      hmessages r (List.mem_of_mem_take hr)
    obtain ⟨known', hrun, hcases⟩ := maintain_messages node known htaken
    refine ⟨known', hrun, ?_⟩
    rcases hcases with ⟨hnil, rfl⟩ | ⟨hne, hfiles⟩
    · have hpos := List.length_pos_iff.2 node.encode_message_ne_nil
      rw [hnil, List.flatMap_nil, List.length_nil, if_neg (Nat.not_le.2 hpos)]
    · obtain ⟨r, rest, hcons⟩ := List.exists_cons_of_ne_nil hne
      have hr := htaken r (by rw [hcons]; exact List.mem_cons_self)
      rw [hcons, List.flatMap_cons, List.length_append, hr, if_pos (Nat.le_add_right _ _)]
      exact hfiles

/-! ## Two answers in one result -/

/-- A node, as the server should have it. -/
def exampleNode : Node := ⟨⟨['1', '0', '.', '0', '.', '0', '.', '7'], by decide, by decide⟩, 2⟩

/-- Two answers, each in a result of its own. -/
def answers : List Read := [⟨encode exampleNode.message, 5⟩, ⟨encode exampleNode.message, 6⟩]

theorem cut_answers : Cut (exampleNode.sent 2) answers none where
  read := by decide
  sized := by decide
  ended := fun h => absurd rfl h

theorem joined_answers :
    Joined exampleNode (results answers none) ↔
      (none : Option ℕ) = none ∧ ∀ r ∈ answers, r.bytes = encode exampleNode.message :=
  joined_iff exampleNode 2 answers none cut_answers

theorem cut_two : Cut (exampleNode.sent 2) [⟨exampleNode.sent 2, 5⟩] none where
  read := by decide
  sized := by decide
  ended := fun h => absurd rfl h

/-- Two answers in one result: the key is the id with the address behind it. -/
theorem two_joined :
    ¬ ∀ (node : Node) (k : ℕ) (chunks : List Read) (closed : Option ℕ), Cut (node.sent k) chunks closed →
      Joined node (results chunks closed) := by
  intro h
  obtain ⟨rest, hbytes, hrest⟩ := (h exampleNode 2 _ none cut_two).filed [] _ [] rfl
  have hsent : exampleNode.sent 2 = encode (exampleNode.message ++ exampleNode.message) := by decide
  have hmessage : exampleNode.message ++ exampleNode.message = exampleNode.message ++ rest :=
    encode_injective (hsent.symm.trans hbytes)
  have hsecond := List.append_cancel_left hmessage
  rcases hrest with rfl | ⟨more, rfl⟩
  · cases hsecond
  · cases hsecond

end EdgeConsensus.Edge
