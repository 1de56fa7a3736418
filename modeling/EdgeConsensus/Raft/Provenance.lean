import EdgeConsensus.Raft.Jsonify
import EdgeConsensus.Raft.Lookup
import EdgeConsensus.Raft.Tracking

/-!
# Where entries come from

Entries travel through client queues, forwarded requests, leaders' logs, AppendEntries messages, logs
that are cut and written again, and `log_hash`. On the way none is invented or changed: each is the first
entry of every log, the entry that a new leader writes, or what a client has asked some node for, with
the term of that node then.

* `Genuine.asked`, `handled`: what one step adds.
* `nothing_invented`: over runs, wherever an entry can be.
-/

namespace EdgeConsensus.Raft

variable {n : ℕ} {es : List (Event n)} {k : ℕ} {a : Fin n}

/-- The entry has been made by then: at the start, by a leader, or by a client's request. -/
inductive Made (es : List (Event n)) (k : ℕ) : Entry → Prop
  | init : Made es k initEntry
  | leader {j : ℕ} {c : Fin n} (before : j ≤ k) (lead : ((wAt es j).node c).currentRole = .leader) :
    Made es k (leaderEntry ((wAt es j).node c).currentTerm)
  | request {j : ℕ} {b : Fin n} {value : Value} {idNum : Key} (before : j < k)
      (event : es[j]? = some (.clientRequest b value idNum)) :
    Made es k ⟨((wAt es j).node b).currentTerm, value, idNum⟩

theorem Made.mono {l : ℕ} {e : Entry} (h : Made es k e) (hkl : k ≤ l) : Made es l e := by
  cases h with
  | init => exact .init
  | leader before lead => exact .leader (le_trans before hkl) lead
  | request before event => exact .request (lt_of_lt_of_le before hkl) event

/-- Every entry that the cluster holds has been made, and what is filed under an id has this id. -/
structure Genuine (es : List (Event n)) (k : ℕ) : Prop where
  log : ∀ a, ∀ e ∈ ((wAt es k).node a).log, Made es k e
  queue : ∀ a, ∀ e ∈ ((wAt es k).node a).clientQueue, Made es k e
  request : ∀ a c, ∀ m ∈ (wAt es k).chan a c, ∀ e, m.request? = some e → Made es k e
  filed : ∀ a idNum e, ((wAt es k).node a).logHash idNum = some e → e.id = idNum ∧ Made es k e

theorem genuine_zero (es : List (Event n)) : Genuine es 0 where
  log a e he := by
    rw [List.mem_singleton.1 he]
    exact .init
  queue a e he := by cases he
  request a c m hm := by cases hm
  filed a idNum e he := by cases he

/-- What a leader takes up in a round comes from a request that it gets, or from its own queue. -/
theorem Genuine.taking {hk : k < es.length} (h : Genuine es k) {incoming : Option (Message n)}
    (hround : (wAt es k).round es[k] = some (a, incoming))
    (htaking : ((wAt es k).node a).taking incoming =
      (incoming.bind Message.request?).toList ++ ((wAt es k).node a).clientQueue.head?.toList) :
    ∀ e ∈ ((wAt es k).node a).taking incoming, Made es k e := by
  intro e he
  rw [htaking, List.mem_append] at he
  rcases he with he | he
  · cases incoming with
    | none => cases he
    | some m =>
      obtain ⟨x, hx⟩ := World.round_some hround
      exact h.request x a m hx e (Option.mem_toList.1 he)
  · exact h.queue a e (List.mem_of_mem_head? (Option.mem_toList.1 he))

/-- What a follower accepts is in the log of a leader at an earlier time. -/
theorem accepted_made {hk : k < es.length} (h : ∀ j ≤ k, Genuine es j) {m : AppendEntriesMessage n} {p t : ℕ}
    {e : Entry} (hround : (wAt es k).round es[k] = some (a, some (.appendEntries m)))
    (hacc : ((wAt es k).node a).accepts m = true) (hp : m.prevLogIndex = some p) (ht : m.prevLogTerm = some t)
    (he : m.entries = some e) : Made es k e := by
  obtain ⟨c, q, hq, prev, ho, -⟩ := accepted_offer hk hround hacc hp ht he
  exact ((h q hq).log c e (List.mem_of_getElem? ho.entry)).mono hq

/-- What a step leaves in the queue and the log of a node, and what it sends. -/
structure Adds (es : List (Event n)) (k : ℕ) (a : Fin n) : Prop where
  log : ∀ e ∈ ((wAt es (k + 1)).node a).log, Made es (k + 1) e
  queue : ∀ e ∈ ((wAt es (k + 1)).node a).clientQueue, Made es (k + 1) e
  request : ∀ c, ∀ m ∈ (wAt es (k + 1)).chan a c, ∀ e, m.request? = some e → Made es (k + 1) e

/-- A client asks: its request is made here. -/
theorem Genuine.asked (h : Genuine es k) (hk : k < es.length) {value : Value} {idNum : Key}
    (hev : es[k] = .clientRequest a value idNum)
    (hnode : (wAt es (k + 1)).node a = ((wAt es k).node a).clientRequest value idNum)
    (hchan : ∀ c, (wAt es (k + 1)).chan a c = (wAt es k).chan a c) : Adds es k a := by
  refine ⟨fun e he => ?_, fun e he => ?_, fun c m hm e he => ?_⟩
  · rw [hnode] at he
    exact (h.log a e he).mono (Nat.le_succ k)
  · rw [hnode] at he
    rcases List.mem_append.1 he with he | he
    · exact (h.queue a e he).mono (Nat.le_succ k)
    · rw [List.mem_singleton.1 he]
      exact .request (Nat.lt_succ_self k) (by rw [List.getElem?_eq_getElem hk, hev])
  · rw [hchan] at hm
    exact (h.request a c m hm e he).mono (Nat.le_succ k)

/-- **A step of the requests** moves entries, and only a new leader makes one. -/
theorem handled {incoming : Option (Message n)} {out : List (Message n)} (h : ∀ j ≤ k, Genuine es j)
    (hstep : RaftNode.RequestStep incoming ((wAt es k).node a) ((wAt es (k + 1)).node a) out)
    (hchan : ∀ c, (wAt es (k + 1)).chan a c = (wAt es k).chan a c ++ out.filter (·.reaches c))
    (hround : ((wAt es k).node a).frame ≠ .run →
      ∃ hk : k < es.length, (wAt es k).round es[k] = some (a, incoming)) : Adds es k a := by
  have hnow := h k le_rfl
  have hlog : ∀ e ∈ ((wAt es k).node a).log, Made es (k + 1) e :=
    fun e he => (hnow.log a e he).mono (Nat.le_succ k)
  have hqueue : ∀ e ∈ ((wAt es k).node a).clientQueue, Made es (k + 1) e :=
    fun e he => (hnow.queue a e he).mono (Nat.le_succ k)
  have hsent : (∀ o ∈ out, ∀ e, o.request? = some e → Made es (k + 1) e) →
      ∀ c, ∀ m ∈ (wAt es (k + 1)).chan a c, ∀ e, m.request? = some e → Made es (k + 1) e := by
    intro hout c m hm e he
    rw [hchan, List.mem_append] at hm
    rcases hm with hm | hm
    · exact (hnow.request a c m hm e he).mono (Nat.le_succ k)
    · exact hout m (List.mem_of_mem_filter hm) e he
  have hnone : (∀ o ∈ out, o.request? = none) → ∀ o ∈ out, ∀ e, o.request? = some e → Made es (k + 1) e := by
    intro hno o ho e he
    rw [hno o ho] at he
    cases he
  cases hstep with
  | keep queue log none => exact ⟨by rw [log]; exact hlog, by rw [queue]; exact hqueue, hsent (hnone none)⟩
  | forward role queue log out request receiver =>
    rw [queue] at hqueue
    refine ⟨by rw [log]; exact hlog, fun e he => hqueue e (List.mem_cons_of_mem _ he), hsent ?_⟩
    intro o ho e he
    rw [out, List.mem_singleton] at ho
    rw [ho, request] at he
    obtain rfl := Option.some.inj he
    exact hqueue _ List.mem_cons_self
  | call frame role queue log none =>
    refine ⟨fun e he => ?_, by rw [queue]; exact hqueue, hsent (hnone none)⟩
    rw [log, List.mem_append, List.mem_singleton] at he
    rcases he with he | rfl
    · exact hlog e he
    · exact .leader (Nat.le_succ k) role
  | lead presides term role taking queue log none =>
    have hframe : ((wAt es k).node a).frame ≠ .run := by
      simp only [RaftNode.presides, Bool.and_eq_true, decide_eq_true_eq] at presides
      simp [presides.1]
    obtain ⟨hk, hr⟩ := hround hframe
    refine ⟨fun e he => ?_, fun e he => ?_, hsent (hnone none)⟩
    · rw [log, List.mem_append] at he
      rcases he with he | he
      · exact hlog e he
      · exact (hnow.taking hr taking e he).mono (Nat.le_succ k)
    · rw [queue] at he
      exact hqueue e (List.mem_of_mem_tail he)
  | @accept m p t e recv accepts index prevTerm entries verified queue log none =>
    have hframe : ((wAt es k).node a).frame ≠ .run := by
      simp only [RaftNode.accepts, Bool.and_eq_true, decide_eq_true_eq] at accepts
      simp [accepts.1.1.1.1.1]
    obtain ⟨hk, hr⟩ := hround hframe
    rw [recv] at hr
    refine ⟨fun e' he' => ?_, by rw [queue]; exact hqueue, hsent (hnone none)⟩
    rw [log, List.mem_append, List.mem_singleton] at he'
    rcases he' with he' | rfl
    · exact hlog e' (List.mem_of_mem_take he')
    · exact (accepted_made h hr accepts index prevTerm entries).mono (Nat.le_succ k)

theorem adds (h : ∀ j ≤ k, Genuine es j) (a : Fin n) : Adds es k a := by
  have hnow := h k le_rfl
  rcases wAt_requests es k a with ⟨hk, value, idNum, hev, hnode, hchan⟩ |
    ⟨incoming, out, hstep, hchan, ⟨hnode, rfl⟩ | ⟨hk, ⟨-, hframe⟩ | ⟨hround, -⟩⟩⟩
  · exact hnow.asked hk hev hnode hchan
  · -- nothing happens at this node
    refine ⟨fun e he => ?_, fun e he => ?_, fun c m hm e he => ?_⟩
    · rw [hnode] at he
      exact (hnow.log a e he).mono (Nat.le_succ k)
    · rw [hnode] at he
      exact (hnow.queue a e he).mono (Nat.le_succ k)
    · rw [hchan, List.filter_nil, List.append_nil] at hm
      exact (hnow.request a c m hm e he).mono (Nat.le_succ k)
  · exact handled h hstep hchan fun hrun => absurd hframe hrun
  · exact handled h hstep hchan fun _ => ⟨hk, hround⟩

/-- What is filed last is in the log. -/
theorem filed_succ (h : Genuine es k) (hadds : Adds es k a) {idNum : Key} {e : Entry}
    (he : ((wAt es (k + 1)).node a).logHash idNum = some e) : e.id = idNum ∧ Made es (k + 1) e := by
  rcases wAt_succ_cases es k with ⟨hk, heq⟩ | heq
  · obtain ⟨d, hedited, -⟩ := (wAt es k).step_edit es[k] a
    rw [← heq] at hedited
    rw [hedited.hash, Lib.fileAll_apply, Option.or_eq_some_iff] at he
    rcases he with he | ⟨-, he⟩
    · obtain ⟨hmem, hid⟩ := List.mem_filter.1 (List.mem_of_mem_getLast? he)
      refine ⟨of_decide_eq_true hid, hadds.log e ?_⟩
      rw [hedited.log]
      exact List.mem_append_right _ hmem
    · obtain ⟨hid, hmade⟩ := h.filed a idNum e he
      exact ⟨hid, hmade.mono (Nat.le_succ k)⟩
  · rw [heq] at he
    obtain ⟨hid, hmade⟩ := h.filed a idNum e he
    exact ⟨hid, hmade.mono (Nat.le_succ k)⟩

theorem genuine (es : List (Event n)) (k : ℕ) : ∀ j ≤ k, Genuine es j := by
  induction k with
  | zero =>
    intro j hj
    rw [Nat.le_zero.1 hj]
    exact genuine_zero es
  | succ k ih =>
    intro j hj
    rcases Nat.le_or_eq_of_le_succ hj with hj | rfl
    · exact ih j hj
    exact ⟨fun a => (adds ih a).log, fun a => (adds ih a).queue, fun a => (adds ih a).request,
      fun a _ _ he => filed_succ (ih k le_rfl) (adds ih a) he⟩

/-- What a message carries has been made. -/
theorem made_of_carried {c : Fin n} {m : Message n} (hm : m ∈ (wAt es k).chan a c) {e : Entry}
    (he : m.entries = some e) : Made es k e := by
  have hgenuine := genuine es k
  obtain ⟨s, -, hsends⟩ := (tracked_wAt es k).emits a c m hm
  cases hsends with
  | requestVote => cases he
  | vote candidate voteGranted => cases he
  | heartbeat => cases he
  | committal receiver => cases he
  | acknowledge receiver success => cases he
  | clientRequest receiver entry =>
    exact (hgenuine k le_rfl).request a c _ hm e he
  | appendEntries index term entries receiver =>
    -- a leader has offered it from its log
    obtain ⟨q, hq, hvouches⟩ := backed es k a c _ hm
    obtain ⟨p, prev, e', ho⟩ := (hvouches rfl).1 rfl
    obtain rfl := Option.some.inj (ho.entries.symm.trans he)
    exact ((hgenuine q hq).log a e' (List.mem_of_getElem? ho.entry)).mono hq

/-- Wherever there is an entry, it has been made. -/
structure NothingInvented (es : List (Event n)) (k : ℕ) : Prop extends Genuine es k where
  carried : ∀ a c, ∀ m ∈ (wAt es k).chan a c, ∀ e, m.entries = some e → Made es k e

/-- **No entry is invented**: whatever a client queue, a log, `log_hash` or a message holds is the first
entry of all logs, an entry that some leader wrote in its term, or a request that a client has made at
some node, with that node's term then. -/
theorem nothing_invented (es : List (Event n)) (k : ℕ) : NothingInvented es k :=
  ⟨genuine es k k le_rfl, fun _ _ _ hm _ he => made_of_carried hm he⟩

end EdgeConsensus.Raft
