import EdgeConsensus.Lib.Framing
import Mathlib.Data.List.Infix
import Mathlib.Order.Lattice.Nat

/-!
# Short reads

Frames of two bytes of length and a text, on a stream whose reader goes on with whatever
`recv` has given it: of the length, and of the text. Which reads leave the reader with what
was written?

* `Framing`: what the texts have to do with each other, for the answer to be exact.
* `Handled`: a run of the reader, up to where it waits or ends.
* `behind`: a reader that is not at the beginning of a frame does not catch up.
* `handled_iff`: the reader has what was written exactly if every text is read in one piece,
  behind a length that is read in one piece or, if it is below 256, byte by byte.
-/

namespace EdgeConsensus.Lib

variable {α : Type}

/-- How a value is written on the stream, and what a reader makes of bytes: `none` if they end
it, `some none` if it drops them. -/
structure Framing (α : Type) where
  write : α → List UInt8
  read : List UInt8 → Option (Option α)
  /-- the values that are sent -/
  sent : α → Prop
  read_nil : read [] = some none
  read_write : ∀ {x}, sent x → read (write x) = some (some x)
  read_part : ∀ {x a p b}, sent x → a ++ p ++ b = write x → a ≠ [] ∨ b ≠ [] → read p ≠ some (some x)
  /-- nor with a byte of the length before it -/
  read_byte_part : ∀ {x l p b}, sent x → p ++ b = write x → b ≠ [] → read (l :: p) ≠ some (some x)
  read_zero : ∀ {x p}, sent x → 0 ∈ p → read p ≠ some (some x)

namespace Framing

variable (c : Framing α)

/-- The length and the text; a length of three bytes raises. -/
def frame (x : α) : Option (List UInt8) := do
  return (← toBytes 2 (c.write x).length) ++ c.write x

/-- What is written, up to a value that raises. -/
def talk : List α → List UInt8
  | [] => []
  | x :: xs =>
    match c.frame x with
    | none => []
    | some bytes => bytes ++ talk xs

/-- A round of the reader, whose two `recv` get so many bytes. -/
def round (stream : List UInt8) (cut cut' : ℕ) : Option (Option α × List UInt8) := do
  let (header, stream) ← recv stream 2 cut
  let (body, stream) ← recv stream (fromBytes header) cut'
  return (← c.read body, stream)

/-- A run of the reader: what it was given in each round, and what it has got from the stream. -/
inductive Handled : List UInt8 → List (ℕ × ℕ) → List α → Prop
  /-- It waits for the next length. -/
  | waits : Handled [] [] []
  /-- It waits for a text of which nothing comes. -/
  | waitsForText {stream header : List UInt8} {cut : ℕ} (h : recv stream 2 cut = some (header, []))
      (hne : fromBytes header ≠ 0) : Handled stream [] []
  /-- Bytes end it. -/
  | raises {stream header stream' body rest : List UInt8} {cut cut' : ℕ}
      (h : recv stream 2 cut = some (header, stream'))
      (h' : recv stream' (fromBytes header) cut' = some (body, rest)) (hread : c.read body = none) :
      Handled stream [(cut, cut')] []
  | round {stream rest : List UInt8} {cut cut' : ℕ} {rounds : List (ℕ × ℕ)} {x : Option α} {queue : List α}
      (h : c.round stream cut cut' = some (x, rest)) (hrest : Handled rest rounds queue) :
      Handled stream ((cut, cut') :: rounds) (x.toList ++ queue)

/-- Every text is read in one piece, behind its length in one piece or, if it is below 256, in two. -/
inductive Whole : List α → List (ℕ × ℕ) → Prop
  | nil : Whole [] []
  | length {x : α} {xs : List α} {rounds : List (ℕ × ℕ)} (h : Whole xs rounds) :
      Whole (x :: xs) ((2, (c.write x).length) :: rounds)
  | bytes {x : α} {xs : List α} {rounds : List (ℕ × ℕ)} {cut : ℕ} (hsmall : (c.write x).length < 256)
      (h : Whole xs rounds) : Whole (x :: xs) ((1, cut) :: (1, (c.write x).length) :: rounds)

end Framing

/-! ## Reads -/

theorem recv_cases {stream bytes rest : List UInt8} {k cut : ℕ} (h : recv stream k cut = some (bytes, rest)) :
    stream = bytes ++ rest ∧ bytes.length ≤ k ∧ (k = 0 ∨ bytes.length = cut ∧ bytes ≠ []) := by
  unfold recv at h
  split at h
  · obtain ⟨rfl, rfl⟩ := Prod.mk.inj (Option.some.inj h)
    exact ⟨rfl, Nat.zero_le _, Or.inl ‹_›⟩
  split at h
  · rename_i hcut
    obtain ⟨rfl, rfl⟩ := Prod.mk.inj (Option.some.inj h)
    have hlen : (stream.take cut).length = cut := by
      rw [List.length_take]
      omega
    refine ⟨(List.take_append_drop cut stream).symm, by omega, Or.inr ⟨hlen, ?_⟩⟩
    intro hnil
    rw [hnil, List.length_nil] at hlen
    omega
  · cases h

/-- A length has one byte or two. -/
theorem header_cases {stream header rest : List UInt8} {cut : ℕ} (h : recv stream 2 cut = some (header, rest)) :
    (∃ b, header = [b] ∧ cut = 1 ∧ stream = b :: rest) ∨
      ∃ b b', header = [b, b'] ∧ cut = 2 ∧ stream = b :: b' :: rest := by
  obtain ⟨hstream, hle, hcut⟩ := recv_cases h
  obtain ⟨hlen, hne⟩ := hcut.resolve_left (by omega)
  match header, hle, hlen, hne with
  | [b], _, hlen, _ => exact Or.inl ⟨b, rfl, hlen.symm, hstream⟩
  | [b, b'], _, hlen, _ => exact Or.inr ⟨b, b', rfl, hlen.symm, hstream⟩

theorem fromBytes_one (b : UInt8) : fromBytes [b] = b.toNat := by
  simp [fromBytes]

theorem fromBytes_two (b b' : UInt8) : fromBytes [b, b'] = 256 * b.toNat + b'.toNat := by
  simp [fromBytes]

namespace Framing

variable {c : Framing α}

theorem round_cases {stream rest : List UInt8} {cut cut' : ℕ} {x : Option α}
    (h : c.round stream cut cut' = some (x, rest)) :
    ∃ header stream' body, recv stream 2 cut = some (header, stream') ∧
      recv stream' (fromBytes header) cut' = some (body, rest) ∧ c.read body = some x := by
  obtain ⟨⟨header, stream'⟩, hheader, h⟩ := Option.bind_eq_some_iff.1 h
  obtain ⟨⟨body, rest'⟩, hbody, h⟩ := Option.bind_eq_some_iff.1 h
  obtain ⟨y, hread, h⟩ := Option.bind_eq_some_iff.1 h
  obtain ⟨rfl, rfl⟩ := Prod.mk.inj (Option.some.inj h)
  exact ⟨header, stream', body, hheader, hbody, hread⟩

/-- What is written of a value that fits. -/
theorem talk_cons (x : α) (xs : List α) :
    ((c.write x).length < 65536 ∧ ∃ h l : UInt8, (c.write x).length = 256 * h.toNat + l.toNat ∧
      c.talk (x :: xs) = h :: l :: (c.write x ++ c.talk xs)) ∨
      65536 ≤ (c.write x).length ∧ c.talk (x :: xs) = [] := by
  rcases Nat.lt_or_ge (c.write x).length 65536 with hlt | hge
  · refine Or.inl ⟨hlt, ?_⟩
    have hfits : (c.write x).length < 256 ^ 2 := hlt
    have hlen := length_bigEndian 2 (c.write x).length
    have hvalue := fromBytes_bigEndian 2 hfits
    have htalk : c.talk (x :: xs) = bigEndian 2 (c.write x).length ++ c.write x ++ c.talk xs := by
      simp only [talk, frame, toBytes_eq hfits, Option.bind_eq_bind, Option.bind_some, Option.pure_def]
    match hbytes : bigEndian 2 (c.write x).length, hlen with
    | [h, l], _ =>
      rw [hbytes] at hvalue htalk
      exact ⟨h, l, by rw [← hvalue, fromBytes_two], htalk⟩
  · refine Or.inr ⟨hge, ?_⟩
    have hraise : toBytes 2 (c.write x).length = none := if_neg (Nat.not_lt.2 hge)
    simp only [talk, frame, hraise, Option.bind_eq_bind, Option.bind_none]

/-! ## A reader that is behind -/

/-- In the stream of `x` and `xs` the reader stands behind the first byte of the length of `x`, or
further on; the bytes there are not the ones that a small length has. -/
def Behind (c : Framing α) (x : α) (xs : List α) (stream : List UInt8) : Prop :=
  stream <:+ c.write x ++ c.talk xs ∨
    256 ≤ (c.write x).length ∧ ∃ l, stream = l :: (c.write x ++ c.talk xs)

theorem write_ne_nil {x : α} (hx : c.sent x) : c.write x ≠ [] := by
  intro hnil
  have hread := c.read_write hx
  rw [hnil, c.read_nil] at hread
  cases hread

/-- What is read of a text whose first byte is gone has bytes from behind the text. -/
theorem beyond_text {x : α} {xs : List α} (hx : c.sent x) {body rest : List UInt8}
    (hsuffix : body ++ rest <:+ (c.write x).tail ++ c.talk xs) (hread : c.read body = some (some x)) :
    ∃ before q, before ++ body = (c.write x).tail ++ q ∧ q ++ rest = c.talk xs ∧ q ≠ [] := by
  obtain ⟨first, text, htext⟩ := List.exists_cons_of_ne_nil (write_ne_nil hx)
  obtain ⟨before, hbefore⟩ := hsuffix
  rw [htext, List.tail_cons] at hbefore ⊢
  have hrest : rest <:+ text ++ c.talk xs := ⟨before ++ body, by rw [← hbefore, List.append_assoc]⟩
  -- otherwise it is within the text
  have hlt : ¬ c.talk xs <:+ rest := by
    rintro ⟨after, rfl⟩
    have hjoin : before ++ body ++ after ++ c.talk xs = text ++ c.talk xs := by simpa using hbefore
    have hwrite : first :: before ++ body ++ after = c.write x := by
      rw [htext, ← List.append_cancel_right hjoin]
      rfl
    exact c.read_part hx hwrite (Or.inl (List.cons_ne_nil _ _)) hread
  obtain ⟨q, hq⟩ := (List.suffix_or_suffix_of_suffix hrest (List.suffix_append _ _)).resolve_right hlt
  refine ⟨before, q, ?_, hq, ?_⟩
  · have hcancel : before ++ body ++ rest = text ++ q ++ rest := by
      rw [List.append_assoc, hbefore, List.append_assoc, hq]
    exact List.append_cancel_right hcancel
  · rintro rfl
    rw [← hq] at hlt
    exact absurd List.suffix_rfl hlt

theorem last_ne_zero {x : α} (hx : c.sent x) {body : List UInt8} {d : UInt8}
    (hread : c.read (body ++ [d]) = some (some x)) : 0 < d.toNat := by
  refine Nat.pos_of_ne_zero fun hzero => ?_
  obtain rfl : d = 0 := UInt8.toNat_inj.1 hzero
  exact c.read_zero hx (List.mem_append_right body List.mem_cons_self) hread

/-- So the reader is behind in the next frame then. -/
theorem next_of_behind {x : α} {xs : List α} (hx : c.sent x) {body rest : List UInt8}
    (hsuffix : body ++ rest <:+ (c.write x).tail ++ c.talk xs) (hread : c.read body = some (some x)) :
    ∃ y ys, xs = y :: ys ∧ Behind c y ys rest := by
  obtain ⟨before, q, hjoin, hq, hqne⟩ := beyond_text hx hsuffix hread
  cases xs with
  | nil => exact absurd (List.append_eq_nil_iff.1 hq).1 hqne
  | cons y ys =>
    refine ⟨y, ys, rfl, ?_⟩
    rcases talk_cons (c := c) y ys with ⟨-, h, l, hlen, htalk⟩ | ⟨-, htalk⟩
    swap
    · rw [htalk] at hq
      exact absurd (List.append_eq_nil_iff.1 hq).1 hqne
    rw [htalk] at hq
    match q, hqne, hq with
    | [b], _, hq =>
      obtain ⟨rfl, hl⟩ := List.cons.inj hq
      -- the text ends with the first byte of a length, which is no zero
      have hne : body ≠ [] := by
        rintro rfl
        rw [c.read_nil] at hread
        cases hread
      obtain ⟨body', d, rfl⟩ := (List.eq_nil_or_concat body).resolve_left hne
      rw [List.concat_eq_append] at hjoin hread
      have hlast : before ++ body' ++ [d] = (c.write x).tail ++ [b] := by rw [← hjoin, List.append_assoc]
      obtain rfl : d = b := List.singleton_inj.1 (List.append_inj_right' hlast rfl)
      have hpos := last_ne_zero hx hread
      exact Or.inr ⟨by omega, l, hl⟩
    | b :: b' :: q, _, hq =>
      have hq' := (List.cons.inj hq).2
      exact Or.inl ⟨q, (List.cons.inj hq').2⟩

theorem queue_ne {x : α} {xs queue : List α} {o : Option α} (ho : o ≠ some x) (hqueue : queue ≠ x :: xs) :
    o.toList ++ queue ≠ x :: xs := by
  cases o with
  | none => exact hqueue
  | some y =>
    intro heq
    exact ho (congrArg some (List.cons.inj heq).1)

/-- A round that begins in the text. -/
theorem late_round {x : α} {xs queue : List α} {o : Option α} {body rest : List UInt8}
    (hsent : ∀ y ∈ x :: xs, c.sent y) (hsuffix : body ++ rest <:+ (c.write x).tail ++ c.talk xs)
    (hread : c.read body = some o)
    (ih : ∀ {y ys}, (∀ z ∈ y :: ys, c.sent z) → Behind c y ys rest → queue ≠ y :: ys) :
    o.toList ++ queue ≠ x :: xs := by
  by_cases ho : o = some x
  · subst ho
    obtain ⟨y, ys, rfl, hbehind⟩ := next_of_behind (hsent x List.mem_cons_self) hsuffix hread
    intro heq
    exact ih (fun z hz => hsent z (List.mem_cons_of_mem x hz)) hbehind (List.cons.inj heq).2
  · refine queue_ne ho (ih hsent (Or.inl ?_))
    have hrest : rest <:+ body ++ rest := List.suffix_append body rest
    have htail : (c.write x).tail ++ c.talk xs <:+ c.write x ++ c.talk xs := by
      refine ⟨(c.write x).take 1, ?_⟩
      rw [← List.append_assoc, ← List.drop_one, List.take_append_drop]
    exact (hrest.trans hsuffix).trans htail

theorem part_of_text {text more part rest : List UInt8} (h : part ++ rest = text ++ more)
    (hlt : part.length < text.length) : ∃ after, part ++ after = text ∧ after ≠ [] := by
  obtain ⟨after, hafter⟩ := List.prefix_of_prefix_length_le ⟨rest, h⟩ (List.prefix_append text more) hlt.le
  refine ⟨after, hafter, ?_⟩
  rintro rfl
  rw [← hafter, List.append_nil] at hlt
  exact absurd hlt (lt_irrefl _)

/-- A round that takes a part of the text, from its beginning on. -/
theorem cut_round {x : α} {xs queue : List α} {o : Option α} {body rest : List UInt8}
    (hsent : ∀ y ∈ x :: xs, c.sent y) (hbody : body ++ rest = c.write x ++ c.talk xs)
    (hlt : body.length < (c.write x).length) (hread : c.read body = some o)
    (ih : ∀ {y ys}, (∀ z ∈ y :: ys, c.sent z) → Behind c y ys rest → queue ≠ y :: ys) :
    o.toList ++ queue ≠ x :: xs := by
  obtain ⟨after, hafter, hne⟩ := part_of_text hbody hlt
  refine queue_ne ?_ (ih hsent (Or.inl ⟨body, hbody⟩))
  rintro rfl
  exact c.read_part (a := []) (hsent x List.mem_cons_self) hafter (Or.inr hne) hread

theorem tail_suffix_tail {s t : List UInt8} {b : UInt8} (h : b :: s <:+ t) : s <:+ t.tail := by
  obtain ⟨before, rfl⟩ := h
  cases before with
  | nil => exact List.suffix_rfl
  | cons d before => exact ⟨before ++ [b], by simp⟩

/-- **A reader that is behind does not catch up.** -/
theorem behind {stream : List UInt8} {rounds : List (ℕ × ℕ)} {queue : List α}
    (h : Handled c stream rounds queue) :
    ∀ {x xs}, (∀ y ∈ x :: xs, c.sent y) → Behind c x xs stream → queue ≠ x :: xs := by
  induction h with
  | waits => exact fun _ _ => List.cons_ne_nil _ _ |>.symm
  | waitsForText h hne => exact fun _ _ => (List.cons_ne_nil _ _).symm
  | raises h h' hread => exact fun _ _ => (List.cons_ne_nil _ _).symm
  | round h hrest ih =>
    intro x xs hsent hbehind
    obtain ⟨header, stream', body, hheader, hbody, hread⟩ := round_cases h
    obtain ⟨hstream', hle, -⟩ := recv_cases hbody
    obtain ⟨first, text, htext⟩ := List.exists_cons_of_ne_nil (write_ne_nil (hsent x List.mem_cons_self))
    have htail : (c.write x ++ c.talk xs).tail = (c.write x).tail ++ c.talk xs := by rw [htext]; rfl
    rcases hbehind with hsuffix | ⟨hlarge, l, rfl⟩
    · refine late_round hsent ?_ hread ih
      rw [← hstream', ← htail]
      rcases header_cases hheader with ⟨b, -, -, rfl⟩ | ⟨b, b', -, -, rfl⟩
      · exact tail_suffix_tail hsuffix
      · exact (List.suffix_cons b' stream').trans (tail_suffix_tail hsuffix)
    · rcases header_cases hheader with ⟨b, rfl, -, heq⟩ | ⟨b, b', rfl, -, heq⟩
      · -- one byte more of the length says less than the text has
        obtain ⟨rfl, hrest'⟩ := List.cons.inj heq
        rw [fromBytes_one] at hle
        have hbyte := l.toNat_lt
        exact cut_round hsent (by rw [← hstream', hrest']) (by omega) hread ih
      · obtain ⟨rfl, hrest'⟩ := List.cons.inj heq
        refine late_round hsent ?_ hread ih
        rw [← hstream', ← htail, hrest']
        exact List.suffix_rfl

/-! ## A reader at a frame -/

theorem handled_nil {rounds : List (ℕ × ℕ)} {queue : List α} (h : Handled c [] rounds queue) :
    rounds = [] ∧ queue = [] := by
  have hwaits : ∀ {header rest : List UInt8} {cut : ℕ}, recv [] 2 cut ≠ some (header, rest) := by
    intro header rest cut hrecv
    rcases header_cases hrecv with ⟨b, -, -, heq⟩ | ⟨b, b', -, -, heq⟩
    · cases heq
    · cases heq
  cases h with
  | waits => exact ⟨rfl, rfl⟩
  | waitsForText h hne => exact absurd h hwaits
  | raises h h' hread => exact absurd h hwaits
  | round h hrest =>
    obtain ⟨header, stream', body, hheader, -, -⟩ := round_cases h
    exact absurd hheader hwaits

/-- The text is taken whole, or in part. -/
theorem text_cases {x : α} {xs : List α} (hx : c.sent x) {n cut : ℕ} {body rest : List UInt8}
    (hn : n = (c.write x).length) (h : recv (c.write x ++ c.talk xs) n cut = some (body, rest)) :
    cut = (c.write x).length ∧ body = c.write x ∧ rest = c.talk xs ∨
      cut ≠ (c.write x).length ∧ body ++ rest = c.write x ++ c.talk xs ∧ body.length < (c.write x).length := by
  obtain ⟨hjoin, hle, hcut⟩ := recv_cases h
  have hpos := List.length_pos_iff.2 (write_ne_nil hx)
  obtain ⟨hlen, -⟩ := hcut.resolve_left (by omega)
  by_cases hwhole : cut = (c.write x).length
  · obtain ⟨htext, hrest⟩ := List.append_inj hjoin.symm (by omega)
    exact Or.inl ⟨hwhole, htext, hrest⟩
  · exact Or.inr ⟨hwhole, hjoin.symm, by omega⟩

section

variable {x : α} {xs queue : List α} {rounds : List (ℕ × ℕ)} {cut : ℕ} {body rest : List UInt8}

/-- Bytes that end the reader are not the whole text. -/
theorem raises_at_text (hx : c.sent x) {n : ℕ} (hn : n = (c.write x).length)
    (h : recv (c.write x ++ c.talk xs) n cut = some (body, rest)) (hread : c.read body = none) :
    cut ≠ (c.write x).length := by
  rcases text_cases hx hn h with ⟨-, rfl, -⟩ | ⟨hne, -, -⟩
  · rw [c.read_write hx] at hread
    cases hread
  · exact hne

/-- A round behind the length is right if it takes the whole text, and the rest of the run is. -/
theorem round_at_text {o : Option α} (hsent : ∀ y ∈ x :: xs, c.sent y) {n : ℕ} (hn : n = (c.write x).length)
    (h : recv (c.write x ++ c.talk xs) n cut = some (body, rest)) (hread : c.read body = some o)
    (hrest : Handled c rest rounds queue) {P : Prop}
    (hnext : Handled c (c.talk xs) rounds queue → (queue = xs ↔ P)) :
    o.toList ++ queue = x :: xs ↔ cut = (c.write x).length ∧ P := by
  rcases text_cases (hsent x List.mem_cons_self) hn h with ⟨hcut, rfl, rfl⟩ | ⟨hcut, hjoin, hlt⟩
  · rw [c.read_write (hsent x List.mem_cons_self)] at hread
    obtain rfl := Option.some.inj hread
    show x :: queue = x :: xs ↔ _
    rw [List.cons_inj_right, hnext hrest]
    exact ⟨fun hp => ⟨hcut, hp⟩, fun hp => hp.2⟩
  · exact iff_of_false (cut_round hsent hjoin hlt hread (behind hrest)) fun hp => hcut hp.1

/-- A reader that has taken the first byte of a small length. -/
theorem second_byte (hsent : ∀ y ∈ x :: xs, c.sent y) {b : UInt8} (hb : (c.write x).length = b.toNat)
    (h : Handled c (b :: (c.write x ++ c.talk xs)) rounds queue) {P : List (ℕ × ℕ) → Prop}
    (hnext : ∀ {rounds' queue'}, Handled c (c.talk xs) rounds' queue' → (queue' = xs ↔ P rounds')) :
    queue = x :: xs ↔ ∃ rounds', rounds = (1, (c.write x).length) :: rounds' ∧ P rounds' := by
  obtain ⟨first, text, htext⟩ := List.exists_cons_of_ne_nil (write_ne_nil (hsent x List.mem_cons_self))
  generalize hstream : b :: (c.write x ++ c.talk xs) = stream at h
  cases h with
  | waits => cases hstream
  | waitsForText h hne =>
    refine iff_of_false (List.cons_ne_nil _ _).symm ?_
    rintro ⟨rounds', heq, -⟩
    cases heq
  | raises h h' hread =>
    refine iff_of_false (List.cons_ne_nil _ _).symm ?_
    rintro ⟨rounds', heq, -⟩
    obtain ⟨hcut, -⟩ := List.cons.inj heq
    obtain ⟨rfl, hcut'⟩ := Prod.mk.inj hcut
    rcases header_cases h with ⟨d, rfl, -, rfl⟩ | ⟨d, d', -, hone, -⟩
    · obtain ⟨rfl, rfl⟩ := List.cons.inj hstream
      rw [fromBytes_one] at h'
      exact raises_at_text (hsent x List.mem_cons_self) hb.symm h' hread hcut'
    · cases hone
  | round h hrest =>
    obtain ⟨header, stream', body, hheader, hbody, hread⟩ := round_cases h
    rcases header_cases hheader with ⟨d, rfl, rfl, rfl⟩ | ⟨d, d', rfl, rfl, rfl⟩
    · obtain ⟨rfl, rfl⟩ := List.cons.inj hstream
      rw [fromBytes_one] at hbody
      rw [round_at_text hsent hb.symm hbody hread hrest hnext]
      constructor
      · rintro ⟨rfl, hp⟩
        exact ⟨_, rfl, hp⟩
      · rintro ⟨rounds', heq, hp⟩
        obtain ⟨hcut, rfl⟩ := List.cons.inj heq
        exact ⟨(Prod.mk.inj hcut).2, hp⟩
    · -- the second read goes on into the text
      obtain ⟨rfl, hstream'⟩ := List.cons.inj hstream
      have hsuffix : stream' <:+ (c.write x).tail ++ c.talk xs := by
        rw [htext] at hstream' ⊢
        rw [← (List.cons.inj hstream').2]
        exact List.suffix_rfl
      rw [(recv_cases hbody).1] at hsuffix
      refine iff_of_false (late_round hsent hsuffix hread (behind hrest)) ?_
      rintro ⟨rounds', heq, -⟩
      have htwo : 2 = 1 := (Prod.mk.inj (List.cons.inj heq).1).1
      omega

/-- A round that takes one byte of the length is right if that is 0, and the second byte is taken alone. -/
theorem first_byte {o : Option α} (hsent : ∀ y ∈ x :: xs, c.sent y) {b b' : UInt8}
    (hlen : (c.write x).length = 256 * b.toNat + b'.toNat)
    (h : recv (b' :: (c.write x ++ c.talk xs)) b.toNat cut = some (body, rest)) (hread : c.read body = some o)
    (hrest : Handled c rest rounds queue) {P : List (ℕ × ℕ) → Prop}
    (hnext : ∀ {rounds' queue'}, Handled c (c.talk xs) rounds' queue' → (queue' = xs ↔ P rounds')) :
    o.toList ++ queue = x :: xs ↔
      (c.write x).length < 256 ∧ ∃ rounds', rounds = (1, (c.write x).length) :: rounds' ∧ P rounds' := by
  obtain ⟨hjoin, hle, hcut⟩ := recv_cases h
  have hsecond := b'.toNat_lt
  by_cases hb : b.toNat = 0
  · -- a read of nothing, and then the second byte
    rw [hb] at hle
    obtain rfl := List.length_eq_zero_iff.1 (Nat.le_zero.1 hle)
    rw [c.read_nil] at hread
    obtain rfl := Option.some.inj hread
    rw [List.nil_append] at hjoin
    rw [← hjoin] at hrest
    have hsmall : (c.write x).length < 256 := by omega
    rw [Option.toList_none, List.nil_append, second_byte hsent (by omega) hrest hnext]
    exact (and_iff_right hsmall).symm
  · -- what is read is the second byte and some of the text
    obtain ⟨-, hne⟩ := hcut.resolve_left hb
    obtain ⟨l, part, rfl⟩ := List.exists_cons_of_ne_nil hne
    obtain ⟨rfl, hpart⟩ := List.cons.inj hjoin
    have hfirst := b.toNat_lt
    rw [List.length_cons] at hle
    obtain ⟨after, hafter, hne'⟩ := part_of_text hpart.symm (by omega)
    refine iff_of_false (queue_ne ?_ (behind hrest hsent (Or.inl ⟨part, hpart.symm⟩))) (by omega)
    rintro rfl
    exact c.read_byte_part (hsent x List.mem_cons_self) hafter hne' hread

theorem whole_length_iff : Whole c (x :: xs) ((2, cut) :: rounds) ↔
    cut = (c.write x).length ∧ Whole c xs rounds := by
  constructor
  · intro h
    cases h with
    | length h => exact ⟨rfl, h⟩
  · rintro ⟨rfl, h⟩
    exact .length h

theorem whole_byte_iff : Whole c (x :: xs) ((1, cut) :: rounds) ↔
    (c.write x).length < 256 ∧ ∃ rounds', rounds = (1, (c.write x).length) :: rounds' ∧ Whole c xs rounds' := by
  constructor
  · intro h
    cases h with
    | bytes hsmall h => exact ⟨hsmall, _, rfl, h⟩
  · rintro ⟨hsmall, rounds', rfl, h⟩
    exact .bytes hsmall h

end

/-- **The queue is what was written exactly if** every value fits and is read whole. -/
theorem handled_iff {xs : List α} : ∀ {rounds : List (ℕ × ℕ)} {queue : List α},
    (∀ x ∈ xs, c.sent x) → Handled c (c.talk xs) rounds queue →
    (queue = xs ↔ (∀ x ∈ xs, (c.write x).length < 65536) ∧ Whole c xs rounds) := by
  induction xs with
  | nil =>
    intro rounds queue _ h
    obtain ⟨rfl, rfl⟩ := handled_nil h
    exact iff_of_true rfl ⟨fun _ hx => absurd hx List.not_mem_nil, .nil⟩
  | cons x xs ih =>
    intro rounds queue hsent h
    have hx := hsent x List.mem_cons_self
    rcases talk_cons (c := c) x xs with ⟨hshort, b, b', hlen, htalk⟩ | ⟨hlong, htalk⟩
    swap
    · -- nothing is written of a value that does not fit
      rw [htalk] at h
      obtain ⟨rfl, rfl⟩ := handled_nil h
      exact iff_of_false (List.cons_ne_nil _ _).symm
        fun hall => absurd (hall.1 x List.mem_cons_self) (Nat.not_lt.2 hlong)
    have hnext : ∀ {rounds' queue'}, Handled c (c.talk xs) rounds' queue' →
        (queue' = xs ↔ (∀ y ∈ xs, (c.write y).length < 65536) ∧ Whole c xs rounds') :=
      fun hrest => ih (fun y hy => hsent y (List.mem_cons_of_mem x hy)) hrest
    have hfits : (∀ y ∈ x :: xs, (c.write y).length < 65536) ↔ ∀ y ∈ xs, (c.write y).length < 65536 :=
      List.forall_mem_cons.trans (and_iff_right hshort)
    rw [htalk] at h
    rw [hfits]
    generalize hstream : b :: b' :: (c.write x ++ c.talk xs) = stream at h
    cases h with
    | waits => cases hstream
    | waitsForText h hne =>
      refine iff_of_false (List.cons_ne_nil _ _).symm ?_
      rintro ⟨-, hwhole⟩
      cases hwhole
    | raises h h' hread =>
      refine iff_of_false (List.cons_ne_nil _ _).symm ?_
      rintro ⟨-, hwhole⟩
      cases hwhole with
      | length hwhole =>
        rcases header_cases h with ⟨d, -, hone, -⟩ | ⟨d, d', rfl, -, rfl⟩
        · cases hone
        · obtain ⟨rfl, hstream'⟩ := List.cons.inj hstream
          obtain ⟨rfl, rfl⟩ := List.cons.inj hstream'
          rw [fromBytes_two] at h'
          exact raises_at_text hx hlen.symm h' hread rfl
    | round h hrest =>
      obtain ⟨header, stream', body, hheader, hbody, hread⟩ := round_cases h
      rcases header_cases hheader with ⟨d, rfl, rfl, rfl⟩ | ⟨d, d', rfl, rfl, rfl⟩
      · obtain ⟨rfl, rfl⟩ := List.cons.inj hstream
        rw [fromBytes_one] at hbody
        rw [first_byte hsent hlen hbody hread hrest hnext, whole_byte_iff]
        constructor
        · rintro ⟨hsmall, rounds', hrounds, hall, hwhole⟩
          exact ⟨hall, hsmall, rounds', hrounds, hwhole⟩
        · rintro ⟨hall, hsmall, rounds', hrounds, hwhole⟩
          exact ⟨hsmall, rounds', hrounds, hall, hwhole⟩
      · obtain ⟨rfl, hstream'⟩ := List.cons.inj hstream
        obtain ⟨rfl, rfl⟩ := List.cons.inj hstream'
        rw [fromBytes_two] at hbody
        rw [round_at_text hsent hlen.symm hbody hread hrest hnext, whole_length_iff]
        exact and_left_comm

end Framing

end EdgeConsensus.Lib
