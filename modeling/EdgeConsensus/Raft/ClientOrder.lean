import EdgeConsensus.Raft.LogTerms
import EdgeConsensus.Raft.LoggedOnce

/-!
# The order of a client's requests

The requests of a node leave its queue in the order in which they were made, and the
ClientRequest messages to one receiver are taken in the order in which they were sent
(`fifo`). But each goes to whoever leads when it is forwarded: a request in flight to
a former leader is appended, if that one leads again, behind later ones that went
elsewhere: `overtaken_request`. What one node takes up as leader of one term keeps its
order: `client_order`. The one exception is a leader that takes the first from a
message that it had sent itself, and the second from its own queue.
-/

namespace EdgeConsensus.Raft

variable {n : ℕ}

/-- The event is the request of a client at node `b`. -/
def Event.asksAt (b : Fin n) : Event n → Bool
  | .clientRequest a _ _ => a = b
  | .call _ => false
  | .loop _ _ => false

/-- The ids that the clients of node `b` use, in their order. -/
def requestsAt (b : Fin n) (es : List (Event n)) : List Key :=
  (es.filter (·.asksAt b)).filterMap Event.requestId?

/-- At one node, a request with id `x` is made before one with id `y`. -/
def RequestedInOrder (es : List (Event n)) (b : Fin n) (x y : Key) : Prop :=
  ∃ q r : ℕ, q < r ∧ (∃ value, es[q]? = some (.clientRequest b value x)) ∧
    ∃ value, es[r]? = some (.clientRequest b value y)

/-- A log that holds both has `x` at a smaller index than `y`, at any time. -/
def LoggedInOrder (es : List (Event n)) (x y : Key) : Prop :=
  ∀ (k : ℕ) (a : Fin n) (i j : ℕ) (e f : Entry), ((wAt es k).node a).log[i]? = some e →
    ((wAt es k).node a).log[j]? = some f → e.id = x → f.id = y → i < j

/-- **Client order** of a run: requests made in order at one node are logged in order. -/
def ClientOrder (es : List (Event n)) : Prop :=
  ∀ b x y, x ≠ y → RequestedInOrder es b x y → LoggedInOrder es x y

/-- The id that a ClientRequest message asks for. -/
def Message.requestId? (m : Message n) : Option Key := m.request?.map Entry.id

/-- Node `c`, leader of term `t`, takes up a request with id `x` in event `k`. -/
def TakesUp (es : List (Event n)) (k : ℕ) (c : Fin n) (t : ℕ) (x : Key) : Prop :=
  ∃ hk : k < es.length, ∃ d ∈ (wAt es k).round es[k], d.1 = c ∧
    ((wAt es k).node c).presides = true ∧ ((wAt es k).node c).currentTerm = t ∧
    x ∈ (((wAt es k).node c).taking d.2).map Entry.id

instance (es : List (Event n)) (k : ℕ) (c : Fin n) (t : ℕ) (x : Key) : Decidable (TakesUp es k c t x) := by
  unfold TakesUp; infer_instance

/-! ## Order in a list -/

/-- What is listed once is not before and behind another. -/
theorem not_before_and_behind {α : Type*} {x y : α} :
    ∀ {L : List α}, L.Nodup → [x, y].Sublist L → ¬ [y, x].Sublist L := by
  intro L
  induction L with
  | nil => intro _ h; simp at h
  | cons z L ih =>
    intro hnd hxy hyx
    rw [List.nodup_cons] at hnd
    have hmem : ∀ {u v : α}, [u, v].Sublist (z :: L) → v ∈ L ∧ (u = z ∨ [u, v].Sublist L) := by
      intro u v h
      rcases List.cons_sublist_cons'.1 h with hsub | ⟨rfl, hv⟩
      · exact ⟨hsub.subset (by simp), Or.inr hsub⟩
      · exact ⟨hv.subset (by simp), Or.inl rfl⟩
    obtain ⟨hy, hx'⟩ := hmem hxy
    obtain ⟨hx, hy'⟩ := hmem hyx
    rcases hx' with rfl | hxy
    · exact hnd.1 hx
    · rcases hy' with rfl | hyx
      · exact hnd.1 hy
      · exact ih hnd.2 hxy hyx

/-- The elements of two places in order are in order. -/
theorem sublist_of_lt {α : Type*} {L : List α} {i j : ℕ} {x y : α} (hij : i < j) (hi : L[i]? = some x)
    (hj : L[j]? = some y) : [x, y].Sublist L := by
  obtain ⟨hil, rfl⟩ := List.getElem?_eq_some_iff.1 hi
  have hy : y ∈ L.drop (i + 1) := by
    refine List.mem_of_getElem? (i := j - (i + 1)) ?_
    rw [List.getElem?_drop, ← hj]
    congr 1
    omega
  have hcons : (L[i] :: L.drop (i + 1)).Sublist L := by
    rw [← List.drop_eq_getElem_cons hil]
    exact List.drop_sublist i L
  exact (List.Sublist.cons_cons L[i] (List.singleton_sublist.2 hy)).trans hcons

variable {es : List (Event n)}

/-! ## Requests -/

theorem requestsAt_append (b : Fin n) (es es' : List (Event n)) :
    requestsAt b (es ++ es') = requestsAt b es ++ requestsAt b es' := by
  simp [requestsAt]

theorem requestsAt_succ (b : Fin n) {k : ℕ} (hk : k < es.length) :
    requestsAt b (es.take (k + 1)) = requestsAt b (es.take k) ++ requestsAt b [es[k]] := by
  rw [List.take_add_one, List.getElem?_eq_getElem hk, Option.toList_some, requestsAt_append]

/-- The requests at a node stay, if no client asks at it now. -/
theorem requestsAt_same {b : Fin n} {k : ℕ}
    (h : ∀ (hk : k < es.length) (value : Value) (idNum : Key), es[k] ≠ .clientRequest b value idNum) :
    requestsAt b (es.take (k + 1)) = requestsAt b (es.take k) := by
  rcases Nat.lt_or_ge k es.length with hk | hk
  · have hnone : requestsAt b [es[k]] = [] := by
      cases hev : es[k] with
      | call a => rfl
      | loop a r => rfl
      | clientRequest a value idNum =>
        have hab : a ≠ b := by
          rintro rfl
          exact h hk value idNum hev
        simp [requestsAt, Event.asksAt, hab]
    rw [requestsAt_succ b hk, hnone, List.append_nil]
  · rw [List.take_of_length_le hk, List.take_of_length_le (by omega)]

theorem DistinctIds.nodup_requestsAt (h : DistinctIds es) (b : Fin n) : (requestsAt b es).Nodup :=
  h.nodup.sublist (List.filter_sublist.filterMap _)

/-- Requests of one id are one request. -/
theorem DistinctIds.event (h : DistinctIds es) {q r : ℕ} {b c : Fin n} {value value' : Value} {x : Key}
    (hq : es[q]? = some (.clientRequest b value x)) (hr : es[r]? = some (.clientRequest c value' x)) :
    b = c := by
  have hcount := h.requested_le x es.length
  unfold requested at hcount
  rw [List.take_length] at hcount
  obtain rfl := getElem?_unique hcount hq hr (by simp [Event.requestId?]) (by simp [Event.requestId?])
  rw [hq, Option.some.injEq, Event.clientRequest.injEq] at hr
  exact hr.1

/-- A listed id is that of a request. -/
theorem mem_requestsAt {b : Fin n} {x : Key} (h : x ∈ requestsAt b es) :
    ∃ (q : ℕ) (value : Value), es[q]? = some (.clientRequest b value x) := by
  obtain ⟨ev, hev, hid⟩ := List.mem_filterMap.1 h
  obtain ⟨hmem, hat⟩ := List.mem_filter.1 hev
  obtain ⟨q, hq⟩ := List.getElem?_of_mem hmem
  cases ev with
  | clientRequest a value idNum =>
    obtain rfl : a = b := by simpa [Event.asksAt] using hat
    obtain rfl : idNum = x := by simpa [Event.requestId?] using hid
    exact ⟨q, value, hq⟩
  | call a => cases hat
  | loop a r => cases hat

/-- **First in, first out**, in one step: what leaves the queue of a node was at its head,
and what it sends to another node is some of that, in order. -/
theorem fifo_succ (es : List (Event n)) (k : ℕ) (b : Fin n) :
    ∃ new left, requestsAt b (es.take (k + 1)) = requestsAt b (es.take k) ++ new ∧
      ((wAt es k).node b).clientQueue.map Entry.id ++ new =
        left ++ ((wAt es (k + 1)).node b).clientQueue.map Entry.id ∧
      ∀ c, ∃ sent, ((wAt es (k + 1)).chan b c).filterMap Message.requestId? =
        ((wAt es k).chan b c).filterMap Message.requestId? ++ sent ∧ sent.Sublist left := by
  rcases wAt_requests es k b with ⟨hk, value, idNum, hev, hnode, hchan⟩ | ⟨m, out, hstep, hchan, hcause⟩
  · have hone : requestsAt b [es[k]] = [idNum] := by
      simp [requestsAt, hev, Event.asksAt, Event.requestId?]
    refine ⟨[idNum], [], by rw [requestsAt_succ b hk, hone], ?_, fun c => ⟨[], ?_, List.Sublist.refl _⟩⟩
    · rw [hnode]
      simp [RaftNode.clientRequest]
    · rw [hchan, List.append_nil]
  -- no client asks at this node now
  have hsame : requestsAt b (es.take (k + 1)) = requestsAt b (es.take k) := by
    refine requestsAt_same fun hk value idNum hev => ?_
    rcases hcause with ⟨hsame, -⟩ | ⟨_, ⟨hcall, -⟩ | ⟨hround, -⟩⟩
    · have hqueue := congrArg (fun s => s.clientQueue.length) hsame
      rw [wAt_succ es hk, hev] at hqueue
      simp [World.step, RaftNode.clientRequest] at hqueue
    · rw [hev] at hcall; cases hcall
    · rw [hev] at hround; cases hround
  have hsent : ∀ c, ((wAt es (k + 1)).chan b c).filterMap Message.requestId? =
      ((wAt es k).chan b c).filterMap Message.requestId? ++
        (out.filter (·.reaches c)).filterMap Message.requestId? := fun c => by
    rw [hchan, List.filterMap_append]
  -- a step that sends no request, and takes `left` from the queue
  have hquiet : ∀ left : List Key, (∀ o ∈ out, o.request? = none) →
      ∀ c, ∃ sent, ((wAt es (k + 1)).chan b c).filterMap Message.requestId? =
        ((wAt es k).chan b c).filterMap Message.requestId? ++ sent ∧ sent.Sublist left := by
    intro left hnone c
    refine ⟨_, hsent c, ?_⟩
    have hnil : (out.filter (·.reaches c)).filterMap Message.requestId? = [] := by
      refine List.filterMap_eq_nil_iff.2 fun o ho => ?_
      rw [Message.requestId?, hnone o (List.mem_of_mem_filter ho), Option.map_none]
    rw [hnil]
    exact List.nil_sublist left
  cases hstep with
  | keep queue log none => exact ⟨[], [], by rw [hsame, List.append_nil], by simp [queue], hquiet [] none⟩
  | @forward r c o role queue log hout request receiver =>
    refine ⟨[], [r.id], by rw [hsame, List.append_nil], by simp [queue], fun c' => ⟨_, hsent c', ?_⟩⟩
    have hall : out.filterMap Message.requestId? = [r.id] := by
      simp [hout, Message.requestId?, request]
    rw [← hall]
    exact List.filter_sublist.filterMap _
  | call frame role queue log none =>
    exact ⟨[], [], by rw [hsame, List.append_nil], by simp [queue], hquiet [] none⟩
  | lead presides term role taking queue log none =>
    refine ⟨[], ((wAt es k).node b).clientQueue.head?.toList.map Entry.id,
      by rw [hsame, List.append_nil], ?_, hquiet _ none⟩
    rw [queue]
    cases ((wAt es k).node b).clientQueue with
    | nil => rfl
    | cons r queue => simp
  | accept recv accepts index prevTerm entries verified queue log none =>
    exact ⟨[], [], by rw [hsame, List.append_nil], by simp [queue], hquiet [] none⟩

/-- **First in, first out**, in a run. -/
theorem fifo (es : List (Event n)) (b : Fin n) {k l : ℕ} (hkl : k ≤ l) :
    ∃ new left, requestsAt b (es.take l) = requestsAt b (es.take k) ++ new ∧
      ((wAt es k).node b).clientQueue.map Entry.id ++ new =
        left ++ ((wAt es l).node b).clientQueue.map Entry.id ∧
      ∀ c, ∃ sent, ((wAt es l).chan b c).filterMap Message.requestId? =
        ((wAt es k).chan b c).filterMap Message.requestId? ++ sent ∧ sent.Sublist left := by
  induction l, hkl using Nat.le_induction with
  | base => exact ⟨[], [], by simp, by simp, fun c => ⟨[], by simp, List.Sublist.refl _⟩⟩
  | succ l _ ih =>
    obtain ⟨new, left, hreqs, hqueue, hsent⟩ := ih
    obtain ⟨new', left', hreqs', hqueue', hsent'⟩ := fifo_succ es l b
    refine ⟨new ++ new', left ++ left', ?_, ?_, fun c => ?_⟩
    · rw [hreqs', hreqs, List.append_assoc]
    · rw [← List.append_assoc, hqueue, List.append_assoc, hqueue', List.append_assoc]
    · obtain ⟨sent, hs, hsub⟩ := hsent c
      obtain ⟨sent', hs', hsub'⟩ := hsent' c
      exact ⟨sent ++ sent', by rw [hs', hs, List.append_assoc], hsub.append hsub'⟩

/-- What is in a queue or has been sent was asked for before, first what has been sent. -/
theorem sent_then_queued (es : List (Event n)) (k : ℕ) (b : Fin n) :
    ∃ gone, requestsAt b (es.take k) = gone ++ ((wAt es k).node b).clientQueue.map Entry.id ∧
      ∀ c, (((wAt es k).chan b c).filterMap Message.requestId?).Sublist gone := by
  obtain ⟨new, left, hreqs, hqueue, hsent⟩ := fifo es b (Nat.zero_le k)
  have hnone : requestsAt b (es.take 0) = [] := by simp [requestsAt]
  have hempty : ((wAt es 0).node b).clientQueue = [] := by simp [World.init, RaftNode.init]
  rw [hnone, List.nil_append] at hreqs
  rw [hempty, List.map_nil, List.nil_append] at hqueue
  refine ⟨left, by rw [hreqs, hqueue], fun c => ?_⟩
  obtain ⟨sent, hs, hsub⟩ := hsent c
  have hstream : (wAt es 0).chan b c = [] := by simp [World.init]
  rw [hs, hstream]
  exact hsub

/-! ## Two requests of one node -/

section

variable {b c : Fin n} {x y : Key} {k l : ℕ}

theorem requestsAt_take (b : Fin n) (k : ℕ) : (requestsAt b (es.take k)).Sublist (requestsAt b es) :=
  ((List.take_sublist k es).filter _).filterMap _

theorem RequestedInOrder.sublist (h : RequestedInOrder es b x y) : [x, y].Sublist (requestsAt b es) := by
  obtain ⟨q, r, hqr, ⟨value, hq⟩, value', hr⟩ := h
  have hsub := ((sublist_of_lt hqr hq hr).filter (·.asksAt b)).filterMap Event.requestId?
  have hpair : ([Event.clientRequest b value x, .clientRequest b value' y].filter (·.asksAt b)).filterMap
      Event.requestId? = [x, y] := by
    simp [Event.asksAt, Event.requestId?]
  rw [hpair] at hsub
  exact hsub

theorem RequestedInOrder.ne (hd : DistinctIds es) (h : RequestedInOrder es b x y) : x ≠ y := by
  rintro rfl
  have hnd := h.sublist.nodup (hd.nodup_requestsAt b)
  simp at hnd

/-- Ids that clients use are not the default one. -/
theorem DistinctIds.ne_default (hd : DistinctIds es) (h : x ∈ requestsAt b es) : x ≠ .int (-1) := by
  rintro rfl
  exact hd.noDefault ((List.filter_sublist.filterMap _).subset h)

/-- What a node has in its queue, or has sent, its own client asked for. -/
theorem DistinctIds.client (hd : DistinctIds es) (hx : x ∈ requestsAt b es) {a : Fin n}
    (h : x ∈ requestsAt a (es.take k)) : a = b := by
  obtain ⟨q, value, hq⟩ := mem_requestsAt ((requestsAt_take a k).subset h)
  obtain ⟨r, value', hr⟩ := mem_requestsAt hx
  exact hd.event hq hr

theorem queued_requested (h : x ∈ ((wAt es k).node b).clientQueue.map Entry.id) :
    x ∈ requestsAt b (es.take k) := by
  obtain ⟨gone, hreqs, -⟩ := sent_then_queued es k b
  rw [hreqs]
  exact List.mem_append_right _ h

theorem sent_requested (h : x ∈ ((wAt es k).chan b c).filterMap Message.requestId?) :
    x ∈ requestsAt b (es.take k) := by
  obtain ⟨gone, hreqs, hsent⟩ := sent_then_queued es k b
  rw [hreqs]
  exact List.mem_append_left _ ((hsent c).subset h)

/-- Once the second request has been sent, the first is not in the queue. -/
theorem RequestedInOrder.not_queued (hd : DistinctIds es) (h : RequestedInOrder es b x y)
    (hy : y ∈ ((wAt es k).chan b c).filterMap Message.requestId?) :
    x ∉ ((wAt es k).node b).clientQueue.map Entry.id := by
  intro hx
  obtain ⟨gone, hreqs, hsent⟩ := sent_then_queued es k b
  have hyx : [y, x].Sublist (requestsAt b (es.take k)) := by
    rw [hreqs]
    exact (List.singleton_sublist.2 ((hsent c).subset hy)).append (List.singleton_sublist.2 hx)
  exact not_before_and_behind (hd.nodup_requestsAt b) h.sublist (hyx.trans (requestsAt_take b k))

/-- The first request is sent before the second. -/
theorem RequestedInOrder.sent (hd : DistinctIds es) (h : RequestedInOrder es b x y) {i j : ℕ}
    {o o' : Message n} (hi : ((wAt es k).chan b c)[i]? = some o) (hx : o.requestId? = some x)
    (hj : ((wAt es k).chan b c)[j]? = some o') (hy : o'.requestId? = some y) : i < j := by
  by_contra hle
  have hij : i ≠ j := by
    rintro rfl
    rw [hi, Option.some.injEq] at hj
    subst hj
    rw [hx, Option.some.injEq] at hy
    exact h.ne hd hy
  have hsub := (sublist_of_lt (by omega : j < i) hj hi).filterMap Message.requestId?
  have hpair : [o', o].filterMap Message.requestId? = [y, x] := by simp [hx, hy]
  rw [hpair] at hsub
  obtain ⟨gone, hreqs, hsent⟩ := sent_then_queued es k b
  have hyx : [y, x].Sublist (requestsAt b (es.take k)) := by
    rw [hreqs]
    exact (hsub.trans (hsent c)).trans (List.sublist_append_left _ _)
  exact not_before_and_behind (hd.nodup_requestsAt b) h.sublist (hyx.trans (requestsAt_take b k))

/-- Once the second request is at the head of the queue, the first never is in it. -/
theorem RequestedInOrder.left (hd : DistinctIds es) (h : RequestedInOrder es b x y) (hlk : l ≤ k)
    (hy : (((wAt es l).node b).clientQueue.map Entry.id).head? = some y) :
    x ∉ ((wAt es k).node b).clientQueue.map Entry.id := by
  intro hx
  have hnd := hd.nodup_requestsAt b
  obtain ⟨rest, hqueue⟩ : ∃ rest, ((wAt es l).node b).clientQueue.map Entry.id = y :: rest :=
    List.head?_eq_some_iff.1 hy
  obtain ⟨new, left, hreqs, hfifo, -⟩ := fifo es b hlk
  obtain ⟨gone, hreqs', -⟩ := sent_then_queued es l b
  have hmem : x ∈ y :: rest ++ new := by
    rw [← hqueue, hfifo]
    exact List.mem_append_right _ hx
  have hrest : x ∈ rest ++ new := by
    rcases List.mem_cons.1 hmem with hxy | hmem
    · exact absurd hxy (h.ne hd)
    · exact hmem
  have hyx : [y, x].Sublist (requestsAt b (es.take k)) := by
    rw [hreqs, hreqs', hqueue, List.append_assoc]
    exact (List.Sublist.cons_cons y (List.singleton_sublist.2 hrest)).trans (List.sublist_append_right _ _)
  exact not_before_and_behind hnd h.sublist (hyx.trans (requestsAt_take b k))

end

/-! ## Taking up -/

/-- What a leader takes up is the request of its message, which comes first, or the head of
its queue. -/
theorem RaftNode.mem_taking {s : RaftNode n} {m : Option (Message n)} {e : Entry} (h : e ∈ s.taking m) :
    (∃ o rest, m = some o ∧ o.request? = some e ∧ s.taking m = e :: rest) ∨
      ∃ queue, s.clientQueue = e :: queue := by
  have hhead : e ∈ s.clientQueue.head?.toList → ∃ queue, s.clientQueue = e :: queue := fun he =>
    List.head?_eq_some_iff.1 (Option.mem_toList.1 he)
  cases m with
  | none => exact Or.inr (hhead h)
  | some o =>
    cases o with
    | requestVotes r =>
      unfold RaftNode.taking at h
      simp only at h
      split at h
      · cases h
      · exact Or.inr (hhead h)
    | appendEntries r =>
      rw [RaftNode.taking_appendEntries] at h ⊢
      rcases List.mem_append.1 h with h | h
      · have hreq : (Message.appendEntries r).request? = some e := Option.mem_toList.1 h
        exact Or.inl ⟨_, s.clientQueue.head?.toList, rfl, hreq, by rw [hreq]; rfl⟩
      · exact Or.inr (hhead h)

/-- **A request that is taken up is logged** behind what was there: it comes from a message,
and stands next, or from the head of the queue. -/
theorem TakesUp.lands {k t : ℕ} {c : Fin n} {x : Key} (h : TakesUp es k c t x) :
    ∃ i e, ((wAt es (k + 1)).node c).log[i]? = some e ∧ e.id = x ∧
      ((wAt es k).node c).log.length ≤ i ∧
      ((∃ a p o, (wAt es k).pos a c ≤ p ∧ ((wAt es k).chan a c)[p]? = some o ∧
          o.requestId? = some x ∧ (wAt es (k + 1)).pos a c = p + 1 ∧
          i = ((wAt es k).node c).log.length) ∨
        (((wAt es k).node c).clientQueue.map Entry.id).head? = some x) := by
  obtain ⟨hk, ⟨c', m⟩, hround, hc, hp, -, hx⟩ := h
  obtain rfl : c = c' := hc.symm
  have hlog := taking_added hk hround hp
  obtain ⟨s, w₁, hacts, hstep⟩ := (tracked_wAt es k).round_acts hround
  obtain ⟨e, he, rfl⟩ := List.mem_map.1 hx
  -- a request of the message comes first, then that of the queue
  rcases RaftNode.mem_taking he with ⟨o, rest, rfl, ho, hrest⟩ | ⟨queue, hqueue⟩
  · obtain ⟨a, p, hdel⟩ := hacts.delivers hstep
    refine ⟨((wAt es k).node c).log.length, e, ?_, rfl, le_rfl,
      Or.inl ⟨a, p, o, hdel.fresh, hdel.sent, ?_, ?_, rfl⟩⟩
    · rw [hlog, hrest, List.getElem?_append_right le_rfl, Nat.sub_self]
      rfl
    · rw [Message.requestId?, ho, Option.map_some]
    · rw [wAt_succ es hk]
      exact hdel.done
  · obtain ⟨j, hj⟩ := List.getElem?_of_mem he
    refine ⟨((wAt es k).node c).log.length + j, e, ?_, rfl, Nat.le_add_right _ _, Or.inr ?_⟩
    · rw [hlog, List.getElem?_append_right (Nat.le_add_right _ _), Nat.add_sub_cancel_left]
      exact hj
    · rw [hqueue]
      rfl

theorem term_mono (es : List (Event n)) {k l : ℕ} (c : Fin n) (hkl : k ≤ l) :
    ((wAt es k).node c).currentTerm ≤ ((wAt es l).node c).currentTerm := by
  induction l, hkl using Nat.le_induction with
  | base => exact le_rfl
  | succ l _ ih => exact le_trans ih (term_succ es l c)

/-- **A leader only adds to its log** in its term. -/
theorem leader_keeps {k l : ℕ} {c : Fin n} (hkl : k ≤ l)
    (hr : ((wAt es k).node c).currentRole = .leader)
    (ht : ((wAt es l).node c).currentTerm = ((wAt es k).node c).currentTerm) :
    ((wAt es l).node c).currentRole = .leader ∧
      ((wAt es k).node c).log <+: ((wAt es l).node c).log := by
  induction l, hkl using Nat.le_induction with
  | base => exact ⟨hr, List.prefix_rfl⟩
  | succ l hkl ih =>
    have h1 := term_mono es c hkl
    have h2 := term_succ es l c
    obtain ⟨hrole, hprefix⟩ := ih (by omega)
    refine ⟨leader_succ hrole (by omega), hprefix.trans ?_⟩
    rcases leader_adds l c hrole with hsame | hcall | ⟨-, m, -, -, htaken⟩
    · rw [hsame]
    · rw [hcall]; exact List.prefix_append _ _
    · rw [htaken]; exact List.prefix_append _ _

theorem pos_mono (es : List (Event n)) {k l : ℕ} (hkl : k ≤ l) (a c : Fin n) :
    (wAt es k).pos a c ≤ (wAt es l).pos a c :=
  Lib.stateAt_mono (R := fun v w : World n => v.pos a c ≤ w.pos a c) (fun _ => le_rfl)
    (fun _ _ _ => le_trans) (fun k hk => World.step_pos_le _ es[k] a c) hkl

theorem chan_mono (es : List (Event n)) {k l : ℕ} (hkl : k ≤ l) (a c : Fin n) :
    (wAt es k).chan a c <+: (wAt es l).chan a c :=
  Lib.stateAt_mono (R := fun v w : World n => v.chan a c <+: w.chan a c) (fun _ => List.prefix_rfl)
    (fun _ _ _ => List.IsPrefix.trans) (fun k hk => World.step_chan_prefix _ es[k] a c) hkl

/-- What asks a node for a request comes from the client's node. -/
theorem DistinctIds.sent_from (hd : DistinctIds es) {b a c : Fin n} {z : Key} (hz : z ∈ requestsAt b es)
    {q p : ℕ} {o : Message n} (hp : ((wAt es q).chan a c)[p]? = some o) (ho : o.requestId? = some z) :
    a = b ∧ z ∈ ((wAt es q).chan a c).filterMap Message.requestId? := by
  have hmem := List.mem_filterMap.2 ⟨o, List.mem_of_getElem? hp, ho⟩
  exact ⟨hd.client hz (sent_requested hmem), hmem⟩

/-- A request at the head of a queue is in the queue of the client's node. -/
theorem DistinctIds.queued_at (hd : DistinctIds es) {b c : Fin n} {z : Key} (hz : z ∈ requestsAt b es)
    {q : ℕ} (hhead : (((wAt es q).node c).clientQueue.map Entry.id).head? = some z) :
    c = b ∧ z ∈ ((wAt es q).node c).clientQueue.map Entry.id := by
  have hmem := List.mem_of_head? hhead
  exact ⟨hd.client hz (queued_requested hmem), hmem⟩

/-- **What one leader takes up in one term keeps the order of its client**, unless it has
sent the first to itself and takes the second from its own queue. -/
theorem client_order (hd : DistinctIds es) {b c : Fin n} {x y : Key} {k l t : ℕ}
    (hreq : RequestedInOrder es b x y) (hx : TakesUp es k c t x) (hy : TakesUp es l c t y)
    (hself : (∀ o ∈ (wAt es k).chan c c, o.requestId? ≠ some x) ∨
      y ∉ ((wAt es l).node c).clientQueue.map Entry.id) : LoggedInOrder es x y := by
  have hxr : x ∈ requestsAt b es := hreq.sublist.subset (by simp)
  have hyr : y ∈ requestsAt b es := hreq.sublist.subset (by simp)
  have hne := hreq.ne hd
  obtain ⟨i, e, hi, hei, hile, hxfrom⟩ := hx.lands
  obtain ⟨j, f, hj, hfj, hjle, hyfrom⟩ := hy.lands
  obtain ⟨hk, -, -, -, hpk, htk, -⟩ := hx
  obtain ⟨hl, -, -, -, hpl, htl, -⟩ := hy
  have hij : i < j := by
    rcases lt_trichotomy k l with hkl | rfl | hlk
    · -- the leader's log has only grown in between
      have hkl' : k + 1 ≤ l := hkl
      have h1 := term_succ es k c
      have h2 := term_mono es c hkl'
      have hrole := RaftNode.presides_role hpk
      have hlead := (leader_keeps (Nat.le_add_right k 1) hrole (by omega)).1
      have hprefix := (leader_keeps hkl' hlead (by omega)).2
      have hlen := hprefix.length_le
      have hlt := (List.getElem?_eq_some_iff.1 hi).1
      omega
    · rcases hxfrom with ⟨-, -, -, -, -, -, -, rfl⟩ | hxq
      · -- the request of the message comes first
        have hij : ((wAt es k).node c).log.length ≠ j := by
          rintro rfl
          rw [hi, Option.some.injEq] at hj
          exact hne (by rw [← hei, hj, hfj])
        omega
      · obtain ⟨rfl, hxmem⟩ := hd.queued_at hxr hxq
        rcases hyfrom with ⟨a, p, o, -, hp, ho, -, -⟩ | hyq
        · obtain ⟨rfl, hymem⟩ := hd.sent_from hyr hp ho
          exact absurd hxmem (hreq.not_queued hd hymem)
        · rw [hxq, Option.some.injEq] at hyq
          exact absurd hyq hne
    · -- the second one would have been taken up first
      exfalso
      rcases hxfrom with ⟨a, p, o, hpos, hp, ho, -, -⟩ | hxq
      · obtain ⟨rfl, -⟩ := hd.sent_from hxr hp ho
        rcases hyfrom with ⟨a', p', o', -, hp', ho', hdone, -⟩ | hyq
        · obtain ⟨rfl, -⟩ := hd.sent_from hyr hp' ho'
          have hlater := Lib.getElem?_of_prefix (chan_mono es (le_of_lt hlk) a' c) hp'
          have hlt := hreq.sent hd hp ho hlater ho'
          have hlk' : l + 1 ≤ k := hlk
          have hle := pos_mono es hlk' a' c
          omega
        · obtain ⟨rfl, hymem⟩ := hd.queued_at hyr hyq
          rcases hself with hnot | hnot
          · exact hnot o (List.mem_of_getElem? hp) ho
          · exact hnot hymem
      · obtain ⟨rfl, hxmem⟩ := hd.queued_at hxr hxq
        rcases hyfrom with ⟨a', p', o', -, hp', ho', -, -⟩ | hyq
        · have hlater := Lib.getElem?_of_prefix (chan_mono es (le_of_lt hlk) a' c) hp'
          obtain ⟨rfl, hymem⟩ := hd.sent_from hyr hlater ho'
          exact hreq.not_queued hd hymem hxmem
        · exact hreq.left hd (le_of_lt hlk) hyq hxmem
  -- ids keep their places, so the order at the leader is the order everywhere
  intro q a i' j' e' f' hi' hj' he' hf'
  have hi'' : i' = i := stands_once hd (hd.ne_default hxr) (k := q) (l := k + 1)
    ⟨e', he', Or.inl ⟨a, hi'⟩⟩ ⟨e, hei, Or.inl ⟨c, hi⟩⟩
  have hj'' : j' = j := stands_once hd (hd.ne_default hyr) (k := q) (l := l + 1)
    ⟨f', hf', Or.inl ⟨a, hj'⟩⟩ ⟨f, hfj, Or.inl ⟨c, hj⟩⟩
  omega

/-- Node 1 forwards two requests to node 0, one at each heartbeat. -/
def forwarded : List (Event 2) :=
  elect ++ [.clientRequest 1 (.str "x") (.int 1), .clientRequest 1 (.str "y") (.int 2), .take 1 0 1,
    .loop 0 { heartbeat := true }, .take 1 0 2, .take 1 0 3, .take 0 1 1, .take 0 1 2, .take 0 1 3]

set_option maxRecDepth 10000 in
theorem client_order_forwarded :
    ((wAt forwarded 18).node 0).log.map Entry.id = [.int (-1), .int (-1), .int 1, .int 2] ∧
      LoggedInOrder forwarded (.int 1) (.int 2) :=
  ⟨by decide, client_order (b := 1) (c := 0) (k := 15) (l := 17) (t := 2) ⟨by decide, by decide⟩
    ⟨9, 10, by decide, ⟨_, rfl⟩, _, rfl⟩ (by decide) (by decide) (Or.inl (by decide))⟩

/-! ## Out of order -/

/-- Node 2 of three forwards its first request to node 0, leader of term 2, where it is
delayed, and the second to node 1, leader of term 3, which replicates it to node 0. Then
node 0 leads again, in term 4, and takes the delayed request. -/
def formerLeader : List (Event 3) :=
  [.call 0, .timeout 0, .call 0, .call 1, .call 2, .take 1 0 0, .take 0 0 0, .take 0 0 1, .take 0 1 0,
    .call 0, .clientRequest 2 (.str "x") (.int 1), .take 2 0 0, .take 2 0 1,
    .timeout 1, .call 1, .take 2 1 0, .take 1 1 0, .take 1 1 1, .take 1 2 0, .call 1,
    .clientRequest 2 (.str "y") (.int 2), .take 2 1 1, .take 1 2 1,
    .take 0 1 1, .call 0, .take 0 1 2, .take 0 1 3, .take 1 0 1, .take 1 0 2, .take 1 0 3, .take 1 0 4,
    .take 0 1 4, .timeout 0, .call 0, .take 1 0 5, .take 1 0 6, .take 0 0 2, .take 0 0 3, .take 0 0 4,
    .take 0 0 5, .take 0 1 5, .call 0, .take 0 2 0, .take 0 2 1]

/-- Node 0 of three leads in term 2 and is deposed by node 1. It takes its own old
heartbeat, and sends its client's first request to itself; leading again in term 4, it
takes the second from its queue before that message. -/
def toItself : List (Event 3) :=
  [.call 0, .timeout 0, .call 0, .call 1, .call 2, .take 1 0 0, .take 2 0 0, .take 0 1 0, .take 0 2 0,
    .call 0, .take 0 0 0, .take 0 0 1, .timeout 1, .call 1, .take 0 1 1, .call 0,
    .clientRequest 0 (.str "x") (.int 1), .take 0 0 2, .timeout 0, .call 0,
    .take 1 0 1, .take 1 0 2, .take 1 0 3, .take 1 0 4, .take 2 0 1, .take 2 0 2, .take 2 0 3,
    .take 0 1 2, .take 0 2 1, .take 0 2 2, .call 0,
    .clientRequest 0 (.str "y") (.int 2), .loop 0 {}, .take 0 0 3, .take 0 0 4]

set_option maxRecDepth 10000 in
/-- **A later request overtakes an earlier one** of the same client: by another leader, or
in the leader's own queue. -/
theorem overtaken_request :
    (DistinctIds formerLeader ∧ ¬ ClientOrder formerLeader) ∧
      DistinctIds toItself ∧ TakesUp toItself 32 0 4 (.int 2) ∧ TakesUp toItself 34 0 4 (.int 1) ∧
        ¬ ClientOrder toItself := by
  refine ⟨⟨⟨by decide, by decide⟩, fun h => ?_⟩, ⟨by decide, by decide⟩, by decide +kernel,
    by decide +kernel, fun h => ?_⟩
  · have hreq : RequestedInOrder formerLeader 2 (.int 1) (.int 2) :=
      ⟨10, 20, by decide, ⟨_, rfl⟩, _, rfl⟩
    have hlt := h 2 _ _ (by decide) hreq 44 0 4 2 ⟨1, .str "x", .int 1⟩ ⟨3, .str "y", .int 2⟩
      (by decide +kernel) (by decide +kernel) rfl rfl
    exact absurd hlt (by decide)
  · have hreq : RequestedInOrder toItself 0 (.int 1) (.int 2) := ⟨16, 31, by decide, ⟨_, rfl⟩, _, rfl⟩
    have hlt := h 0 _ _ (by decide) hreq 35 0 4 3 ⟨3, .str "x", .int 1⟩ ⟨4, .str "y", .int 2⟩
      (by decide +kernel) (by decide +kernel) rfl rfl
    exact absurd hlt (by decide)

end EdgeConsensus.Raft
