import EdgeConsensus.Raft.Tracking
import Mathlib.Algebra.BigOperators.Group.Finset.Basic
import Mathlib.Algebra.GroupWithZero.Nat
import Mathlib.Algebra.Order.BigOperators.Group.Finset
import Mathlib.Data.Fintype.BigOperators

/-!
# No duplicated request

Where the requests of the clients have ids of their own, a request is in one place
until a leader takes it up: in the queue of its node, or in one ClientRequest
message. From then on it has one index, in every log and in every AppendEntries
message: an AppendEntries message names the index before that of its entry in the
leader's log, and a follower appends it right behind.

* `placed_step`: one step keeps the count of places, and the index.
* `logged_once`: so each id has one index, in every log and every message.
-/

namespace EdgeConsensus.Raft

variable {n : ℕ}

/-- The id of the request that a client makes. -/
def Event.requestId? : Event n → Option Key
  | .clientRequest _ _ idNum => some idNum
  | .call _ => none
  | .loop _ _ => none

/-- The clients use every id once, and never the default id. -/
structure DistinctIds (es : List (Event n)) : Prop where
  nodup : (es.filterMap Event.requestId?).Nodup
  noDefault : Key.int (-1) ∉ es.filterMap Event.requestId?

/-- The AppendEntries message of a leader that carries `e` for index `i`. -/
def Message.Carries (m : Message n) (i : ℕ) (e : Entry) : Prop :=
  ∃ r p, m = .appendEntries r ∧ r.type = .appendEntries ∧ r.prevLogIndex = some p ∧
    r.entries = some e ∧ i = p + 1

namespace World

/-- An entry with id `x` is at index `i` of a log, or of the log that a message is about. -/
def Stands (w : World n) (x : Key) (i : ℕ) : Prop :=
  ∃ e : Entry, e.id = x ∧ ((∃ a, (w.node a).log[i]? = some e) ∨ ∃ a c, ∃ m ∈ w.chan a c, m.Carries i e)

end World

/-- **No duplicated request** in a run: an id is at most once in a log, and at one index in
all logs and in all messages of leaders. -/
structure LoggedOnce (es : List (Event n)) : Prop where
  once : ∀ k a x, x ≠ Key.int (-1) → (((wAt es k).node a).log.countP (·.id = x)) ≤ 1
  same : ∀ k x i j, x ≠ Key.int (-1) → (wAt es k).Stands x i → (wAt es k).Stands x j → i = j

/-! ## Counting -/

/-- Two places of one list that hold what occurs once are the same. -/
theorem getElem?_unique {α : Type*} {p : α → Bool} :
    ∀ {L : List α} {i j : ℕ} {e f : α}, L.countP p ≤ 1 → L[i]? = some e → L[j]? = some f → p e = true →
      p f = true → i = j := by
  intro L
  induction L with
  | nil => intro i j e f _ hi; simp at hi
  | cons x L ih =>
    intro i j e f hcount hi hj he hf
    -- what stands in the tail as well is counted twice
    have htail : ∀ (k : ℕ) (g : α), L[k]? = some g → p g = true → 0 < L.countP p := fun k g hk hg =>
      List.countP_pos_iff.2 ⟨g, List.mem_of_getElem? hk, hg⟩
    rw [List.countP_cons] at hcount
    cases i with
    | zero =>
      cases j with
      | zero => rfl
      | succ j =>
        rw [List.getElem?_cons_zero, Option.some.injEq] at hi
        rw [List.getElem?_cons_succ] at hj
        have := htail j f hj hf
        rw [hi, if_pos he] at hcount
        omega
    | succ i =>
      rw [List.getElem?_cons_succ] at hi
      cases j with
      | zero =>
        rw [List.getElem?_cons_zero, Option.some.injEq] at hj
        have := htail i e hi he
        rw [hj, if_pos hf] at hcount
        omega
      | succ j =>
        rw [List.getElem?_cons_succ] at hj
        have hij := ih (by omega) hi hj he hf
        omega

/-- What stands in one place of a list only occurs at most once. -/
theorem countP_le_one {α : Type*} {p : α → Bool} {L : List α}
    (h : ∀ (i j : ℕ) (e f : α), L[i]? = some e → L[j]? = some f → p e = true → p f = true → i = j) :
    L.countP p ≤ 1 := by
  induction L with
  | nil => simp
  | cons x L ih =>
    have htail : L.countP p ≤ 1 := ih fun i j e f hi hj he hf => by
      have hij := h (i + 1) (j + 1) e f (by simpa using hi) (by simpa using hj) he hf
      omega
    rw [List.countP_cons]
    split
    · rename_i hx
      have hnone : L.countP p = 0 := by
        refine List.countP_eq_zero.2 fun e he hpe => ?_
        obtain ⟨i, hi⟩ := List.getElem?_of_mem he
        have hi0 := h 0 (i + 1) x e rfl (by simpa using hi) hx hpe
        omega
      omega
    · omega

/-- A sum whose terms stay, but for one. -/
theorem sum_replace {ι : Type*} [Fintype ι] [DecidableEq ι] (f g : ι → ℕ) (b : ι)
    (h : ∀ a, a ≠ b → g a = f a) : ∑ a, g a + f b = ∑ a, f a + g b := by
  have hf := Finset.add_sum_erase Finset.univ f (Finset.mem_univ b)
  have hg := Finset.add_sum_erase Finset.univ g (Finset.mem_univ b)
  have hrest : ∑ a ∈ Finset.univ.erase b, g a = ∑ a ∈ Finset.univ.erase b, f a :=
    Finset.sum_congr rfl fun a ha => h a (Finset.ne_of_mem_erase ha)
  omega

namespace RaftNode

/-- How often id `x` waits in the queue. -/
def queued (s : RaftNode n) (x : Key) : ℕ := s.clientQueue.countP (·.id = x)

end RaftNode

/-- How often a message asks for id `x`. -/
def Message.asks (x : Key) (m : Message n) : ℕ := m.request?.toList.countP (·.id = x)

/-- How often messages ask for id `x`. -/
def asked (x : Key) (ms : List (Message n)) : ℕ := (ms.map (Message.asks x)).sum

theorem asked_append (x : Key) (ms ms' : List (Message n)) :
    asked x (ms ++ ms') = asked x ms + asked x ms' := by
  simp [asked]

theorem asked_cons (x : Key) (m : Message n) (ms : List (Message n)) :
    asked x (m :: ms) = m.asks x + asked x ms := by
  simp [asked]

theorem asked_none {x : Key} {ms : List (Message n)} (h : ∀ o ∈ ms, o.request? = none) : asked x ms = 0 := by
  induction ms with
  | nil => rfl
  | cons m ms ih =>
    have hm := h m (by simp)
    rw [asked_cons, ih fun o ho => h o (by simp [ho])]
    simp [Message.asks, hm]

theorem asked_drop_le (x : Key) (ms : List (Message n)) {j k : ℕ} (h : j ≤ k) :
    asked x (ms.drop k) ≤ asked x (ms.drop j) := by
  have hsplit := congrArg (asked x) (List.take_append_drop (k - j) (ms.drop j))
  rw [asked_append, List.drop_drop] at hsplit
  have hk : j + (k - j) = k := by omega
  rw [hk] at hsplit
  omega

/-- Going past a message, its request is gone. -/
theorem asked_drop_succ {x : Key} {ms : List (Message n)} {m : Message n} {i j : ℕ} (hj : j ≤ i)
    (hi : ms[i]? = some m) : asked x (ms.drop (i + 1)) + m.asks x ≤ asked x (ms.drop j) := by
  obtain ⟨hlt, hm⟩ := List.getElem?_eq_some_iff.1 hi
  have hcons : ms.drop i = m :: ms.drop (i + 1) := by rw [List.drop_eq_getElem_cons hlt, hm]
  have hle := asked_drop_le x ms hj
  rw [hcons, asked_cons] at hle
  omega

/-- A message to one node asks there, and nowhere else. -/
theorem sum_asked_singleton {m : Message n} {c : Fin n} (hm : m.base.receiver = some c) (x : Key) :
    ∑ c', asked x ([m].filter (·.reaches c')) = m.asks x := by
  have hone : ∀ c', asked x ([m].filter (·.reaches c')) = if c' = c then m.asks x else 0 := by
    intro c'
    have hreach : m.reaches c' = decide (c' = c) := by
      simp only [Message.reaches, hm, reduceCtorEq, decide_false, Bool.or_false, Option.some.injEq]
      exact decide_eq_decide.2 eq_comm
    rw [List.filter_singleton, hreach]
    by_cases hc : c' = c
    · simp [hc, asked]
    · simp [hc, asked]
  rw [Finset.sum_congr rfl fun c' _ => hone c', Finset.sum_ite_eq' Finset.univ c, if_pos (Finset.mem_univ c)]

/-- What stands in a log that is cut behind index `p` and goes on with one entry. -/
theorem getElem?_overwrite {L : List Entry} {p i : ℕ} {e f : Entry} (hp : p < L.length)
    (h : (L.take (p + 1) ++ [f])[i]? = some e) : L[i]? = some e ∨ (i = p + 1 ∧ f = e) := by
  have hlen : (L.take (p + 1)).length = p + 1 := by
    rw [List.length_take]
    omega
  rw [List.getElem?_append, hlen] at h
  split at h
  · rename_i hi
    rw [List.getElem?_take_of_lt hi] at h
    exact Or.inl h
  · rename_i hi
    obtain ⟨hlt, heq⟩ := List.getElem?_eq_some_iff.1 h
    rw [List.length_singleton] at hlt
    exact Or.inr ⟨by omega, by simpa using heq⟩

/-! ## One step -/

namespace RaftNode

variable {s u : RaftNode n} {incoming : Option (Message n)} {out : List (Message n)} {x : Key}

theorem queued_head (u : RaftNode n) (x : Key) :
    u.queued x = u.clientQueue.head?.toList.countP (·.id = x) + u.clientQueue.tail.countP (·.id = x) := by
  unfold queued
  cases u.clientQueue with
  | nil => rfl
  | cons r queue => simp [List.countP_cons, add_comm]

/-- **A request moves on**: what a node takes up (`L`), hands on and keeps in its queue
was in its queue or in its message; and an entry of its log was there, or comes from a
leader's message, or has been taken up. -/
theorem RequestStep.moves (h : RequestStep incoming u s out) (hx : x ≠ .int (-1)) :
    ∃ L : List Entry,
      s.queued x + ∑ c, asked x (out.filter (·.reaches c)) + L.countP (·.id = x) ≤
        u.queued x + incoming.elim 0 (Message.asks x) ∧
      ∀ i e, s.log[i]? = some e → e.id = x → u.log[i]? = some e ∨
        (∃ m, incoming = some m ∧ m.Carries i e) ∨ ∃ j, L[j]? = some e ∧ i = u.log.length + j := by
  -- no request is handed on, but in one case
  have hnone : (∀ o ∈ out, o.request? = none) → ∑ c, asked x (out.filter (·.reaches c)) = 0 := by
    intro hout
    exact Finset.sum_eq_zero fun c _ => asked_none fun o ho => hout o (List.mem_of_mem_filter ho)
  cases h with
  | keep queue log none =>
    refine ⟨[], ?_, fun i e he _ => Or.inl (by rw [← log]; exact he)⟩
    rw [hnone none]
    simp [queued, queue]
  | @forward r c o role queue log hout request receiver =>
    refine ⟨[], ?_, fun i e he _ => Or.inl (by rw [← log]; exact he)⟩
    have hasks : o.asks x = if r.id = x then 1 else 0 := by
      simp [Message.asks, request, List.countP_cons]
    rw [hout, sum_asked_singleton receiver, hasks]
    simp only [queued, queue, List.countP_cons, decide_eq_true_eq, List.countP_nil]
    omega
  | call frame role queue log none =>
    refine ⟨[], ?_, fun i e he hid => Or.inl ?_⟩
    · rw [hnone none]
      simp [queued, queue]
    · -- the leader entry has the default id
      rw [log, List.getElem?_append] at he
      split at he
      · exact he
      · have hmem := List.mem_singleton.1 (List.mem_of_getElem? he)
        rw [hmem] at hid
        exact absurd hid.symm hx
  | lead presides term role taking queue log none =>
    refine ⟨u.taking incoming, ?_, fun i e he _ => ?_⟩
    · have hasks : (incoming.bind Message.request?).toList.countP (·.id = x) =
          incoming.elim 0 (Message.asks x) := by
        cases incoming with
        | none => rfl
        | some m => rfl
      rw [hnone none, taking, List.countP_append, queued_head u, hasks]
      simp only [queued, queue]
      omega
    · rw [log, List.getElem?_append] at he
      split at he
      · exact Or.inl he
      · exact Or.inr (Or.inr ⟨i - u.log.length, he, by omega⟩)
  | @accept m p t e' recv accepts index prevTerm entries verified queue log none =>
    refine ⟨[], ?_, fun i e he _ => ?_⟩
    · rw [hnone none]
      simp [queued, queue]
    · rw [verifyEntry_iff, Option.map_eq_some_iff] at verified
      obtain ⟨f, hf, -⟩ := verified
      rw [log] at he
      rcases getElem?_overwrite (List.getElem?_eq_some_iff.1 hf).1 he with hold | ⟨hi, rfl⟩
      · exact Or.inl hold
      · simp only [RaftNode.accepts, Bool.and_eq_true, decide_eq_true_eq] at accepts
        exact Or.inr (Or.inl ⟨_, recv, m, p, rfl, accepts.1.1.2, index, entries, hi⟩)

end RaftNode

namespace World

variable {w w₁ : World n} {ev : Event n} {b : Fin n} {s : RaftNode n} {m : Option (Message n)} {x : Key}

/-- How often id `x` travels: the ClientRequest messages that are still to be taken. -/
def travels (w : World n) (x : Key) : ℕ := ∑ c, ∑ a, asked x ((w.chan a c).drop (w.pos a c))

/-- How often id `x` is on its way to a log. -/
def pending (w : World n) (x : Key) : ℕ := ∑ b, (w.node b).queued x + w.travels x

/-- What a node sends is added to its own streams. -/
theorem Acts.asked_sent (h : w.Acts ev b m s w₁) (hw : w.step ev = w₁.put b s) (x : Key) (a c : Fin n) :
    asked x (((w.step ev).chan a c).drop ((w.step ev).pos a c)) ≤
      asked x ((w.chan a c).drop ((w.step ev).pos a c)) +
        if a = b then asked x (s.talker.filter (·.reaches c)) else 0 := by
  rw [hw, put_chan, h.chan, List.drop_append, asked_append]
  have hle := asked_drop_le x (if a = b then s.talker.filter (·.reaches c) else [])
    (Nat.zero_le ((w₁.put b s).pos a c - (w.chan a c).length))
  rw [List.drop_zero] at hle
  split
  · rename_i hab
    rw [if_pos hab] at hle
    omega
  · rename_i hab
    rw [if_neg hab] at hle
    have hnil : asked x ([] : List (Message n)) = 0 := rfl
    omega

/-- What a node takes (`d`, by streams) is gone. -/
theorem Acts.asked_taken (h : w.Acts ev b m s w₁) (hw : w.step ev = w₁.put b s) (x : Key) :
    ∃ d : Fin n → Fin n → ℕ, ∑ c, ∑ a, d c a = m.elim 0 (Message.asks x) ∧
      ∀ c a, asked x ((w.chan a c).drop ((w.step ev).pos a c)) + d c a ≤
        asked x ((w.chan a c).drop (w.pos a c)) := by
  cases m with
  | none =>
    refine ⟨fun _ _ => 0, by simp, fun c a => ?_⟩
    exact asked_drop_le x _ (w.step_pos_le ev a c)
  | some m =>
    obtain ⟨a₀, i, hdel⟩ := h.delivers hw
    -- one message, in the stream from its sender to this node
    refine ⟨fun c a => if c = b then if a = a₀ then m.asks x else 0 else 0, ?_, fun c a => ?_⟩
    · have hin : ∀ c, ∑ a, (if c = b then if a = a₀ then m.asks x else 0 else 0) =
          if c = b then m.asks x else 0 := by
        intro c
        split
        · rw [Finset.sum_ite_eq' Finset.univ a₀, if_pos (Finset.mem_univ a₀)]
        · exact Finset.sum_const_zero
      rw [Finset.sum_congr rfl fun c _ => hin c, Finset.sum_ite_eq' Finset.univ b,
        if_pos (Finset.mem_univ b)]
      rfl
    · by_cases hca : c = b ∧ a = a₀
      · obtain ⟨rfl, rfl⟩ := hca
        beta_reduce
        rw [if_pos rfl, if_pos rfl, hdel.done]
        exact asked_drop_succ hdel.fresh hdel.sent
      · have hzero : (if c = b then if a = a₀ then m.asks x else 0 else 0) = 0 := by
          split
          · rename_i hc
            exact if_neg fun ha => hca ⟨hc, ha⟩
          · rfl
        beta_reduce
        rw [hzero]
        exact asked_drop_le x _ (w.step_pos_le ev a c)

/-- **What a node takes is gone, and what it sends is added.** -/
theorem Acts.travels (h : w.Acts ev b m s w₁) (hw : w.step ev = w₁.put b s) (x : Key) :
    (w.step ev).travels x + m.elim 0 (Message.asks x) ≤
      w.travels x + ∑ c, asked x (s.talker.filter (·.reaches c)) := by
  have hsent : ∑ c, ∑ a, (if a = b then asked x (s.talker.filter (·.reaches c)) else 0) =
      ∑ c, asked x (s.talker.filter (·.reaches c)) :=
    Finset.sum_congr rfl fun c _ => by
      rw [Finset.sum_ite_eq' Finset.univ b, if_pos (Finset.mem_univ b)]
  obtain ⟨d, hd, hle⟩ := h.asked_taken hw x
  rw [← hd, ← hsent]
  unfold World.travels
  rw [← Finset.sum_add_distrib, ← Finset.sum_add_distrib]
  refine Finset.sum_le_sum fun c _ => ?_
  rw [← Finset.sum_add_distrib, ← Finset.sum_add_distrib]
  refine Finset.sum_le_sum fun a _ => ?_
  have h1 := h.asked_sent hw x a c
  have h2 := hle c a
  omega

/-- Id `x`, which clients have used `r` times, has its place: an index, or none yet. -/
structure Placed (w : World n) (x : Key) (r : ℕ) (place : Option ℕ) : Prop where
  stands : ∀ i, w.Stands x i → place = some i
  count : w.pending x + place.toList.length ≤ r

/-- How often an event is the request of a client with id `x`. -/
def given (ev : Event n) (x : Key) : ℕ := if ev.requestId? = some x then 1 else 0

/-- **Requests move on in a cluster**: what is taken up (`L`) was pending, and an entry of
a log was there, or in a message, or has been taken up. -/
theorem Acts.moves (ht : w.Tracked) (h : w.Acts ev b m s w₁) (hw : w.step ev = w₁.put b s)
    (hx : x ≠ .int (-1)) :
    ∃ L : List Entry, (w.step ev).pending x + L.countP (·.id = x) ≤ w.pending x + given ev x ∧
      ∀ i e, s.log[i]? = some e → e.id = x → (w.node b).log[i]? = some e ∨
        (∃ m', m = some m' ∧ m'.Carries i e) ∨ ∃ j, L[j]? = some e ∧ i = (w.node b).log.length + j := by
  have htravels := h.travels hw x
  -- only the queue of the node that acts changes
  have hqueues : ∑ a, ((w.step ev).node a).queued x + (w.node b).queued x =
      ∑ a, (w.node a).queued x + s.queued x := by
    have hself : s.queued x = ((w.step ev).node b).queued x := by rw [hw, put_node_self]; rfl
    have hrest : ∀ a, a ≠ b → ((w.step ev).node a).queued x = (w.node a).queued x := by
      intro a ha
      rw [hw, put_node_ne ha, h.node]
    rw [hself]
    exact sum_replace (fun a => (w.node a).queued x) (fun a => ((w.step ev).node a).queued x) b hrest
  unfold pending
  rcases h.requests with ⟨value, idNum, rfl, rfl, rfl, -⟩ | ⟨hother, out, hhands, hstep⟩
  · refine ⟨[], ?_, fun i e he _ => Or.inl he⟩
    have htalker : ((w.node b).clientRequest value idNum).talker = [] := (ht.wired b).2
    have hnil : ∑ c : Fin n, asked x (([] : List (Message n)).filter (·.reaches c)) = 0 :=
      Finset.sum_eq_zero fun c _ => rfl
    rw [htalker, hnil] at htravels
    have hqueued : ((w.node b).clientRequest value idNum).queued x =
        (w.node b).queued x + given (.clientRequest b value idNum) x := by
      simp [RaftNode.queued, RaftNode.clientRequest, given, Event.requestId?, List.countP_append,
        List.countP_cons]
    rw [hqueued] at hqueues
    simp only [Option.elim_none, List.countP_nil] at htravels ⊢
    omega
  · obtain ⟨L, hcount, hlog⟩ := hstep.moves hx
    refine ⟨L, ?_, hlog⟩
    have htalker := hhands.talker
    rw [(ht.wired b).2, List.nil_append] at htalker
    rw [htalker] at htravels
    omega

/-- A message of a leader that carries an entry for index `i` is vouched for by a log with it. -/
theorem log_of_vouches {m : Message n} {u : RaftNode n} {i : ℕ} {e : Entry} (hcarry : m.Carries i e)
    (hcomplete : m.Complete) (hu : u.Vouches m) : u.log[i]? = some e := by
  obtain ⟨r, p, rfl, htype, hp, he, rfl⟩ := hcarry
  obtain ⟨p', prev, e', ho⟩ := (hu (hcomplete.1 htype).1).1 htype
  obtain rfl : p' = p := Option.some.inj (ho.index.symm.trans hp)
  obtain rfl : e' = e := Option.some.inj (ho.entries.symm.trans he)
  exact ho.entry

/-- **What stands somewhere after a step** stood before, or has been taken up. -/
theorem Acts.stands (ht : w.Tracked) (h : w.Acts ev b m s w₁) (hw : w.step ev = w₁.put b s)
    {L : List Entry} (hmoves : ∀ i e, s.log[i]? = some e → e.id = x → (w.node b).log[i]? = some e ∨
      (∃ m', m = some m' ∧ m'.Carries i e) ∨ ∃ j, L[j]? = some e ∧ i = (w.node b).log.length + j)
    {i : ℕ} (hi : (w.step ev).Stands x i) :
    w.Stands x i ∨ ∃ j e, L[j]? = some e ∧ e.id = x ∧ i = (w.node b).log.length + j := by
  have hlog : ∀ a e, ((w.step ev).node a).log[i]? = some e → e.id = x →
      w.Stands x i ∨ ∃ j e, L[j]? = some e ∧ e.id = x ∧ i = (w.node b).log.length + j := by
    intro a e he hid
    by_cases hab : a = b
    · subst hab
      rw [hw, put_node_self] at he
      rcases hmoves i e he hid with hold | ⟨m', rfl, hm'⟩ | ⟨j, hj, hij⟩
      · exact Or.inl ⟨e, hid, Or.inl ⟨a, hold⟩⟩
      · obtain ⟨c, k, hdel⟩ := h.delivers hw
        exact Or.inl ⟨e, hid, Or.inr ⟨c, a, m', List.mem_of_getElem? hdel.sent, hm'⟩⟩
      · exact Or.inr ⟨j, e, hj, hid, hij⟩
    · rw [hw, put_node_ne hab, h.node] at he
      exact Or.inl ⟨e, hid, Or.inl ⟨a, he⟩⟩
  rcases hi with ⟨e, hid, ⟨a, he⟩ | ⟨a, c, m', hm', hcarry⟩⟩
  · exact hlog a e he hid
  · -- the sender of a new message has the entry in its log
    have hcomplete := ((ht.step ev).emits a c m' hm').complete
    obtain ⟨-, hsent⟩ := step_log ht.wired ev a
    rcases hsent c m' hm' with hold | hv | hv
    · exact Or.inl ⟨e, hid, Or.inr ⟨a, c, m', hold, hcarry⟩⟩
    · exact Or.inl ⟨e, hid, Or.inl ⟨a, log_of_vouches hcarry hcomplete hv⟩⟩
    · exact hlog a e (log_of_vouches hcarry hcomplete hv) hid

/-- **The index of an id stays its only one**, while the id is used once. -/
theorem placed_step {r : ℕ} {place : Option ℕ} (ht : w.Tracked) (hx : x ≠ .int (-1))
    (hr : r + given ev x ≤ 1) (h : w.Placed x r place) :
    ∃ place', (w.step ev).Placed x (r + given ev x) place' ∧ ∀ i, place = some i → place' = some i := by
  rcases w.step_cases ev with heq | ⟨b, m, s, w₁, hacts, heq⟩
  · refine ⟨place, ⟨?_, ?_⟩, fun i hi => hi⟩
    · rw [heq]; exact h.stands
    · rw [heq]; exact le_trans h.count (Nat.le_add_right _ _)
  obtain ⟨L, hcount, hmoves⟩ := hacts.moves ht heq hx
  have hle := h.count
  rcases Nat.eq_zero_or_pos (L.countP (·.id = x)) with hzero | hpos
  · -- nothing is taken up
    refine ⟨place, ⟨fun i hi => ?_, by omega⟩, fun i hi => hi⟩
    rcases hacts.stands ht heq hmoves hi with hold | ⟨j, e, hj, hid, -⟩
    · exact h.stands i hold
    · have hnone := List.countP_eq_zero.1 hzero e (List.mem_of_getElem? hj)
      simp [hid] at hnone
  · -- it was pending until now
    have hplace : place = none := by
      cases place with
      | none => rfl
      | some i =>
        simp only [Option.toList_some, List.length_singleton] at hle
        omega
    subst hplace
    simp only [Option.toList_none, List.length_nil] at hle
    have hone : L.countP (·.id = x) ≤ 1 := by omega
    -- it is taken up once, so its place is where it lands
    obtain ⟨e₀, hmem, hid₀⟩ := List.countP_pos_iff.1 hpos
    obtain ⟨j₀, hj₀⟩ := List.getElem?_of_mem hmem
    refine ⟨some ((w.node b).log.length + j₀), ⟨fun i hi => ?_, ?_⟩, by simp⟩
    · rcases hacts.stands ht heq hmoves hi with hold | ⟨j, e, hj, hid, rfl⟩
      · have hcontra := h.stands i hold
        cases hcontra
      · have hj' : j = j₀ := getElem?_unique hone hj hj₀ (by simpa using hid) hid₀
        rw [hj']
    · simp only [Option.toList_some, List.length_singleton]
      omega

end World

/-! ## Runs -/

variable {es : List (Event n)}

/-- How often the clients have used id `x` in the first `k` events. -/
def requested (es : List (Event n)) (x : Key) (k : ℕ) : ℕ :=
  (es.take k).countP fun ev => ev.requestId? = some x

theorem requested_succ (x : Key) {k : ℕ} (hk : k < es.length) :
    requested es x (k + 1) = requested es x k + World.given es[k] x := by
  unfold requested World.given
  rw [List.take_add_one, List.getElem?_eq_getElem hk, Option.toList_some, List.countP_append]
  simp [List.countP_cons]

theorem DistinctIds.requested_le (h : DistinctIds es) (x : Key) (k : ℕ) : requested es x k ≤ 1 := by
  have hcount : (es.filterMap Event.requestId?).count x ≤ 1 := List.nodup_iff_count_le_one.1 h.nodup x
  have hall : es.countP (fun ev => ev.requestId? = some x) ≤ 1 := by
    rw [List.count, List.countP_filterMap] at hcount
    refine le_trans (le_of_eq (List.countP_congr fun ev _ => ?_)) hcount
    cases ev.requestId? with
    | none => simp
    | some y => simp
  exact le_trans ((List.take_sublist k es).countP_le) hall

/-- **From the time at which it has one, an id keeps its index.** -/
theorem placed_wAt (hd : DistinctIds es) {x : Key} (hx : x ≠ .int (-1)) {k : ℕ} {place : Option ℕ}
    (h : (wAt es k).Placed x (requested es x k) place) {l : ℕ} (hkl : k ≤ l) :
    ∃ place', (wAt es l).Placed x (requested es x l) place' ∧ ∀ i, place = some i → place' = some i := by
  induction l, hkl using Nat.le_induction with
  | base => exact ⟨place, h, fun i hi => hi⟩
  | succ l hkl ih =>
    obtain ⟨place', h', hkeeps⟩ := ih
    rcases Nat.lt_or_ge l es.length with hl | hl
    · have hsucc := requested_succ x hl
      have hle := hd.requested_le x (l + 1)
      rw [hsucc] at hle
      obtain ⟨place'', h'', hkeeps'⟩ := World.placed_step (tracked_wAt es l) hx hle h'
      rw [hsucc, wAt_succ es hl]
      exact ⟨place'', h'', fun i hi => hkeeps' i (hkeeps i hi)⟩
    · have hsame : requested es x (l + 1) = requested es x l := by
        unfold requested
        rw [List.take_of_length_le hl, List.take_of_length_le (by omega)]
      rw [hsame, wAt, Lib.stateAt_end hl]
      exact ⟨place', h', hkeeps⟩

theorem placed_zero {x : Key} (hx : x ≠ .int (-1)) : (wAt es 0).Placed x (requested es x 0) none := by
  refine ⟨fun i hi => ?_, ?_⟩
  · obtain ⟨e, hid, ⟨a, he⟩ | ⟨a, c, m, hm, -⟩⟩ := hi
    · have hmem : e ∈ [initEntry] := List.mem_of_getElem? he
      rw [List.mem_singleton.1 hmem] at hid
      exact absurd hid.symm hx
    · cases hm
  · simp [requested, World.pending, World.travels, World.init, RaftNode.queued, RaftNode.init, asked]

/-- **A request stands at one index**, at all times. -/
theorem stands_once (hd : DistinctIds es) {x : Key} (hx : x ≠ .int (-1)) {k l i j : ℕ}
    (hi : (wAt es k).Stands x i) (hj : (wAt es l).Stands x j) : i = j := by
  obtain ⟨place, hplace, -⟩ := placed_wAt hd hx (placed_zero hx) (Nat.zero_le k)
  obtain ⟨place', hplace', -⟩ := placed_wAt hd hx (placed_zero hx) (Nat.zero_le l)
  have hi' := hplace.stands i hi
  have hj' := hplace'.stands j hj
  rcases le_total k l with hkl | hlk
  · obtain ⟨later, hlater, hkeeps⟩ := placed_wAt hd hx hplace hkl
    exact Option.some.inj ((hkeeps i hi').symm.trans (hlater.stands j hj))
  · obtain ⟨later, hlater, hkeeps⟩ := placed_wAt hd hx hplace' hlk
    exact Option.some.inj ((hlater.stands i hi).symm.trans (hkeeps j hj'))

/-- **No request is duplicated**, where clients use ids of their own. -/
theorem logged_once (hd : DistinctIds es) : LoggedOnce es := by
  refine ⟨fun k a x hx => countP_le_one fun i j e f hi hj he hf => ?_,
    fun k x i j hx hi hj => stands_once hd hx hi hj⟩
  have hid : e.id = x := by simpa using he
  have hid' : f.id = x := by simpa using hf
  exact stands_once hd hx ⟨e, hid, Or.inl ⟨a, hi⟩⟩ ⟨f, hid', Or.inl ⟨a, hj⟩⟩

set_option maxRecDepth 10000 in
theorem logged_once_replicatedOnce :
    ((wAt replicatedOnce 15).node 1).log.countP (·.id = .int 7) = 1 ∧ LoggedOnce replicatedOnce :=
  ⟨by decide, logged_once ⟨by decide, by decide⟩⟩

end EdgeConsensus.Raft
