import EdgeConsensus.Lib.Schedule
import EdgeConsensus.Raft.Replicas

/-!
# What a cluster can do

The safety results say what no run does. Here is what some run does: from the start a cluster of two or more
nodes can elect any of them and commit every list of requests, made at any nodes, one after the other.

* `Progress`: the replication of one entry, with the nodes that have accepted it, that are counted, and that
  have been told of the commit; each of the three sets can be swept over all nodes.
* `settled_request`: a settled cluster serves a request and is settled again.
* `settled_init`: from the start a cluster can settle.
* `cluster_serves`: the two together, for any list of requests.
-/

namespace EdgeConsensus.Raft

open RaftNode

variable {n : ℕ}

namespace World

variable {w w' : World n} {a b c x y : Fin n} {s : RaftNode n} {P : Message n → Prop}

/-- Nodes have their addresses and nothing left to send, and nobody is done with more than was sent. -/
structure Ready (w : World n) : Prop where
  wired : w.Wired
  pos : ∀ a b, w.pos a b ≤ (w.chan a b).length

/-- A message with property `P` is on its way from `a` to `b`. -/
def Pending (w : World n) (a b : Fin n) (P : Message n → Prop) : Prop :=
  ∃ i m, w.pos a b ≤ i ∧ (w.chan a b)[i]? = some m ∧ P m

/-- In one step node `b` runs up to state `s`, and takes a message from `src` if that is a node. -/
structure Moves (w w' : World n) (b : Fin n) (src : Option (Fin n)) (s : RaftNode n) : Prop where
  ready : w'.Ready
  node : w'.node b = s.flush
  others : ∀ x ≠ b, w'.node x = w.node x
  chan : ∀ x y, w'.chan x y = w.chan x y ++ if x = b then s.talker.filter (·.reaches y) else []
  pos : ∀ x y, (y = b → src ≠ some x) → w'.pos x y = w.pos x y
  old : ∀ x y, w'.pos x y ≤ (w.chan x y).length

/-! ## One step -/

theorem Ready.put (h : w.Ready) {ev : Event n} {w₁ : World n} {src : Option (Fin n)}
    (heq : w.step ev = w₁.put b s) (hnode : w₁.node = w.node) (hchan : w₁.chan = w.chan)
    (hpos : ∀ x y, (y = b → src ≠ some x) → w₁.pos x y = w.pos x y)
    (hold : ∀ x y, w₁.pos x y ≤ (w.chan x y).length) : w.Moves (w.step ev) b src s := by
  have hchan' : ∀ x y, (w.step ev).chan x y =
      w.chan x y ++ if x = b then s.talker.filter (·.reaches y) else [] := by
    intro x y
    rw [heq, put_chan, hchan]
  have hpos' : (w.step ev).pos = w₁.pos := by rw [heq]; rfl
  refine ⟨⟨h.wired.step ev, fun x y => ?_⟩, ?_, fun x hx => ?_, hchan', fun x y hxy => ?_, fun x y => ?_⟩
  · have hle := hold x y
    rw [hpos', hchan', List.length_append]
    omega
  · rw [heq, put_node_self]
    rfl
  · rw [heq, put_node_ne hx, hnode]
  · rw [hpos']
    exact hpos x y hxy
  · rw [hpos']
    exact hold x y

theorem Ready.clientRequest (h : w.Ready) (b : Fin n) (value : Value) (idNum : Key) :
    w.Moves (w.step (.clientRequest b value idNum)) b none ((w.node b).clientRequest value idNum) :=
  h.put rfl rfl rfl (fun _ _ _ => rfl) h.pos

theorem Ready.call (h : w.Ready) (hf : (w.node b).frame = .run) (hs : (w.node b).call = some s) :
    w.Moves (w.step (.call b)) b none s := by
  have heq : w.step (.call b) = w.put b s := by
    show (if (w.node b).frame = .run then _ else _) = _
    rw [if_pos hf, hs]
  exact h.put heq rfl rfl (fun _ _ _ => rfl) h.pos

/-- A round of a loop in which nothing comes. -/
theorem Ready.loop (h : w.Ready) {timers : Timers n} (hf : (w.node b).frame ≠ .run)
    (hs : (w.node b).loop timers none = some s) :
    w.Moves (w.step (.loop b { timers with recv := none })) b none s := by
  have heq : w.step (.loop b { timers with recv := none }) = w.put b s := by
    have hincoming : w.incoming b { timers with recv := none } = some none := rfl
    have hloop : (w.node b).loop (Round.toTimers { timers with recv := none }) none = some s := hs
    simp only [step, if_neg hf, hincoming, hloop]
    rfl
  exact h.put heq rfl rfl (fun _ _ _ => rfl) h.pos

/-- **A message on its way can be taken**, and nothing else happens. -/
theorem Ready.take (h : w.Ready) (hp : w.Pending a b P) (hf : (w.node b).frame ≠ .run)
    (hs : ∀ m, P m → ∃ s, (w.node b).loop {} (some m) = some s) :
    ∃ i m s, P m ∧ (w.node b).loop {} (some m) = some s ∧ w.Moves (w.step (.take b a i)) b (some a) s := by
  obtain ⟨i, m, hi, hm, hP⟩ := hp
  obtain ⟨s, hs⟩ := hs m hP
  refine ⟨i, m, s, hP, hs, ?_⟩
  have hincoming : w.incoming b { recv := some (a, i) } = some (some m) := by
    unfold incoming
    simp [hi, hm]
  have heq : w.step (.take b a i) = (w.taken b { recv := some (a, i) }).put b s := by
    have hloop : (w.node b).loop (Round.toTimers { recv := some (a, i) }) (some m) = some s := hs
    show w.step (.loop b { recv := some (a, i) }) = _
    simp only [step, if_neg hf, hincoming, hloop]
  refine h.put heq (taken_node _) (taken_chan _) (fun x y hxy => ?_) fun x y => ?_
  · show (if x = a ∧ y = b then i + 1 else w.pos x y) = w.pos x y
    rw [if_neg]
    rintro ⟨rfl, rfl⟩
    exact hxy rfl rfl
  · show (if x = a ∧ y = b then i + 1 else w.pos x y) ≤ (w.chan x y).length
    split
    · rename_i hxy
      obtain ⟨rfl, rfl⟩ := hxy
      exact (List.getElem?_eq_some_iff.1 hm).1
    · exact h.pos x y

/-- What is on its way stays so, unless it is taken. -/
theorem Moves.pending {src : Option (Fin n)} (h : w.Moves w' b src s) (hp : w.Pending x y P)
    (hxy : y = b → src ≠ some x) : w'.Pending x y P := by
  obtain ⟨i, m, hi, hm, hP⟩ := hp
  refine ⟨i, m, ?_, ?_, hP⟩
  · rw [h.pos x y hxy]
    exact hi
  · rw [h.chan]
    exact Lib.getElem?_of_prefix (List.prefix_append _ _) hm

/-- What the node has handed to its talker is on its way. -/
theorem Moves.sent {src : Option (Fin n)} {m : Message n} (h : w.Moves w' b src s) (hm : m ∈ s.talker)
    (hy : m.reaches y) (hP : P m) : w'.Pending b y P := by
  have hmem : m ∈ s.talker.filter (·.reaches y) := List.mem_filter.2 ⟨hm, hy⟩
  obtain ⟨j, hj⟩ := List.mem_iff_getElem?.1 hmem
  refine ⟨(w.chan b y).length + j, m, ?_, ?_, hP⟩
  · have hle := h.old b y
    omega
  · rw [h.chan, if_pos rfl, List.getElem?_append_right (Nat.le_add_right _ _), Nat.add_sub_cancel_left]
    exact hj

/-- After the step the node is at its address. -/
theorem Moves.myId {src : Option (Fin n)} (h : w.Moves w' b src s) : s.myId = b := by
  have hid := (h.ready.wired b).1
  rwa [h.node] at hid

end World

/-! ## The replication of one entry -/

/-- The message offers `e` behind the entry `last` at `k`, for leader `c` in term `t`. -/
structure IsOffer (c : Fin n) (t k : ℕ) (last e : Entry) (m : AppendEntriesMessage n) : Prop where
  direction : m.direction = .request
  type : m.type = .appendEntries
  term : m.term = t
  leaderId : m.leaderId = some c
  index : m.prevLogIndex = some k
  prevTerm : m.prevLogTerm = some last.term
  entries : m.entries = some e
  commit : m.leaderCommit = k

/-- The message is a positive acknowledgement of node `b`. -/
structure IsAck (b : Fin n) (m : AppendEntriesMessage n) : Prop where
  direction : m.direction = .response
  type : m.type = .acknowledge
  sender : m.sender = b
  success : m.results.success = some true

/-- The message says that the entries up to `k` are committed. -/
structure IsTold (k : ℕ) (m : AppendEntriesMessage n) : Prop where
  direction : m.direction = .request
  type : m.type = .committal
  index : m.prevLogIndex = some k
  prevTerm : ∃ pt, m.prevLogTerm = some pt

/-- A message of the class `AppendEntriesMessage` with property `P`. -/
def Carries (P : AppendEntriesMessage n → Prop) (m : Message n) : Prop := ∃ q, m = .appendEntries q ∧ P q

/-- All nodes are counted, where `C` are those whose acknowledgements leader `c` has counted. -/
def Complete (c : Fin n) (C : Finset (Fin n)) : Prop := ∀ i, i = c ∨ i ∈ C

instance (c : Fin n) (C : Finset (Fin n)) : Decidable (Complete c C) := by
  unfold Complete; infer_instance

/-- Leader `c` replicates `e` behind the log `L`, which ends at `k`: the nodes in `A` have accepted the entry,
those in `C` are counted, and those in `D` have been told that it is committed. -/
structure Progress (c : Fin n) (t k : ℕ) (L : List Entry) (e : Entry) (A C D : Finset (Fin n)) (w : World n) :
    Prop where
  ready : w.Ready
  leader : Leading t (L ++ [e]) (if Complete c C then k + 1 else k) [] (matchFor c k C) (nextFor c k C) (w.node c)
  follower : ∀ b ≠ c, Replica t (if b ∈ A then L ++ [e] else L) (if b ∈ D then k + 1 else k) [] (w.node b)
  offered : ∀ b ≠ c, b ∉ A → ∃ last, L[k]? = some last ∧ w.Pending c b (Carries (IsOffer c t k last e))
  acked : ∀ b ≠ c, b ∈ A → b ∉ C → w.Pending b c (Carries (IsAck b))
  told : Complete c C → ∀ b ≠ c, b ∉ D → w.Pending c b (Carries (IsTold (k + 1)))

section Progress

variable {c b : Fin n} {t k : ℕ} {L : List Entry} {e : Entry} {A C D : Finset (Fin n)} {w w' : World n}

/-- The nodes other than the leader. -/
abbrev others (c : Fin n) : Finset (Fin n) := Finset.univ.erase c

theorem mem_others : b ∈ others c ↔ b ≠ c := by simp

theorem complete_others (c : Fin n) : Complete c (others c) := by
  intro i
  by_cases hi : i = c
  · exact Or.inl hi
  · exact Or.inr (mem_others.2 hi)

/-- Another follower accepts the entry. -/
theorem Progress.accept (h : Progress c t k L e A ∅ ∅ w) (hlen : L.length = k + 1) (hb : b ≠ c) (hbA : b ∉ A) :
    Lib.Leads World.step Event.request? (Progress c t k L e (insert b A) ∅ ∅) w := by
  obtain ⟨last, hlast, hoffer⟩ := h.offered b hb hbA
  have hreplica := h.follower b hb
  rw [if_neg hbA, if_neg (Finset.notMem_empty b)] at hreplica
  have haccept : ∀ m, Carries (IsOffer c t k last e) m → ∃ u, (w.node b).loop {} (some m) = some u ∧
      Replica t (L ++ [e]) k [] u ∧ u.talker = (w.node b).talker ++ [u.acknowledgeMessage (some c) true] := by
    rintro m ⟨q, rfl, hq⟩
    have haccepted :=
      hreplica.accept hlen hlast hq.direction hq.type hq.term hq.index hq.prevTerm hq.entries hq.commit
    rwa [hq.leaderId] at haccepted
  obtain ⟨i, m, u, hP, hu, hmoves⟩ := h.ready.take hoffer (by rw [hreplica.frame]; decide) fun m hm => by
    obtain ⟨u, hu, -⟩ := haccept m hm
    exact ⟨u, hu⟩
  obtain ⟨u', hu', hreplica', htalker⟩ := haccept m hP
  obtain rfl := Option.some.inj (hu.symm.trans hu')
  refine Lib.leads_event rfl ⟨hmoves.ready, ?_, fun x hx => ?_, fun x hx hxA => ?_,
    fun x hx hxA hxC => ?_, fun hC => ?_⟩
  · rw [hmoves.others c (Ne.symm hb)]
    exact h.leader
  · by_cases hxb : x = b
    · subst hxb
      rw [hmoves.node, if_pos (Finset.mem_insert_self x A), if_neg (Finset.notMem_empty x)]
      exact hreplica'.flush
    · rw [hmoves.others x hxb]
      simpa [Finset.mem_insert, hxb] using h.follower x hx
  · rw [Finset.mem_insert, not_or] at hxA
    obtain ⟨last', hlast', hpending⟩ := h.offered x hx hxA.2
    exact ⟨last', hlast', hmoves.pending hpending fun hxb => absurd hxb hxA.1⟩
  · by_cases hxb : x = b
    · subst hxb
      refine hmoves.sent (m := u.acknowledgeMessage (some c) true) ?_ ?_ ⟨_, rfl, rfl, rfl, hmoves.myId, rfl⟩
      · rw [htalker]
        exact List.mem_append_right _ (List.mem_singleton_self _)
      · simp [Message.reaches, acknowledgeMessage, Message.base]
    · refine hmoves.pending (h.acked x hx ((Finset.mem_insert.1 hxA).resolve_left hxb) hxC) fun hcb => ?_
      exact absurd hcb.symm hb
  · -- nobody is counted yet
    exact absurd ((hC b).resolve_left hb) (Finset.notMem_empty b)

/-- The leader counts another acknowledgement; with the last one it commits the entry. -/
theorem Progress.count (h : Progress c t k L e (others c) C ∅ w) (hlen : L.length = k + 1) (hb : b ≠ c)
    (hbC : b ∉ C) : Lib.Leads World.step Event.request? (Progress c t k L e (others c) (insert b C) ∅) w := by
  have hnot : ¬ Complete c C := fun hC => hbC ((hC b).resolve_left hb)
  have hleader := h.leader
  rw [if_neg hnot] at hleader
  have hid : (w.node c).myId = c := (h.ready.wired c).1
  have hlen' : (L ++ [e]).length = k + 2 := by
    rw [List.length_append, hlen]
    rfl
  have hcount : ∀ m, Carries (IsAck b) m → ∃ u, (w.node c).loop {} (some m) = some u ∧
      ((¬ Complete c (insert b C) ∧ u.talker = (w.node c).talker ∧
          Leading t (L ++ [e]) k [] (matchFor c k (insert b C)) (nextFor c k (insert b C)) u) ∨
        (Complete c (insert b C) ∧
          Leading t (L ++ [e]) (k + 1) [] (matchFor c k (insert b C)) (nextFor c k (insert b C)) u ∧
          ∃ x : RaftNode n, x.myId = c ∧ x.lastAppliedIndex = k + 1 ∧
            u.talker = (w.node c).talker ++ (List.finRange n).map x.committalMessage)) := by
    rintro m ⟨q, rfl, hq⟩
    exact hleader.count hid hlen' hb hbC hq.direction hq.type hq.sender hq.success
  obtain ⟨i, m, u, hP, hu, hmoves⟩ := h.ready.take (h.acked b hb (mem_others.2 hb) hbC)
    (by rw [hleader.frame]; decide) fun m hm => by
      obtain ⟨u, hu, -⟩ := hcount m hm
      exact ⟨u, hu⟩
  obtain ⟨u', hu', hcase⟩ := hcount m hP
  obtain rfl := Option.some.inj (hu.symm.trans hu')
  refine Lib.leads_event rfl ⟨hmoves.ready, ?_, fun x hx => ?_, fun x hx hxA => absurd (mem_others.2 hx) hxA,
    fun x hx hxA hxC => ?_, fun hC x hx hxD => ?_⟩
  · rw [hmoves.node]
    rcases hcase with ⟨hC, -, hleading⟩ | ⟨hC, hleading, -⟩
    · rw [if_neg hC]
      exact hleading.flush
    · rw [if_pos hC]
      exact hleading.flush
  · rw [hmoves.others x hx]
    exact h.follower x hx
  · rw [Finset.mem_insert, not_or] at hxC
    exact hmoves.pending (h.acked x hx hxA hxC.2) fun _ hxb => hxC.1 (Option.some.inj hxb).symm
  · rcases hcase with ⟨hC', -⟩ | ⟨-, -, y, hy, happlied, htalker⟩
    · exact absurd hC hC'
    · refine hmoves.sent (m := y.committalMessage x) ?_ ?_ ⟨_, rfl, rfl, rfl, congrArg some happlied, _, rfl⟩
      · rw [htalker]
        exact List.mem_append_right _ (List.mem_map.2 ⟨x, List.mem_finRange x, rfl⟩)
      · simp [Message.reaches, committalMessage, Message.base]

/-- Another follower is told that the entry is committed. -/
theorem Progress.tell (h : Progress c t k L e (others c) (others c) D w) (hb : b ≠ c) (hbD : b ∉ D) :
    Lib.Leads World.step Event.request? (Progress c t k L e (others c) (others c) (insert b D)) w := by
  have hreplica := h.follower b hb
  rw [if_pos (mem_others.2 hb), if_neg hbD] at hreplica
  have hobey : ∀ m, Carries (IsTold (k + 1)) m → ∃ u, (w.node b).loop {} (some m) = some u ∧
      Replica t (L ++ [e]) (k + 1) [] u ∧ u.talker = (w.node b).talker := by
    rintro m ⟨q, rfl, hq⟩
    obtain ⟨pt, hpt⟩ := hq.prevTerm
    exact hreplica.obey hq.direction hq.type hq.index hpt
  obtain ⟨i, m, u, hP, hu, hmoves⟩ := h.ready.take (h.told (complete_others c) b hb hbD)
    (by rw [hreplica.frame]; decide) fun m hm => by
      obtain ⟨u, hu, -⟩ := hobey m hm
      exact ⟨u, hu⟩
  obtain ⟨u', hu', hreplica', htalker⟩ := hobey m hP
  obtain rfl := Option.some.inj (hu.symm.trans hu')
  refine Lib.leads_event rfl ⟨hmoves.ready, ?_, fun x hx => ?_, fun x hx hxA => absurd (mem_others.2 hx) hxA,
    fun x hx _ hxC => absurd (mem_others.2 hx) hxC, fun hC x hx hxD => ?_⟩
  · rw [hmoves.others c (Ne.symm hb)]
    exact h.leader
  · by_cases hxb : x = b
    · subst hxb
      rw [hmoves.node, if_pos (mem_others.2 hx), if_pos (Finset.mem_insert_self x D)]
      exact hreplica'.flush
    · rw [hmoves.others x hxb]
      simpa [Finset.mem_insert, hxb] using h.follower x hx
  · rw [Finset.mem_insert, not_or] at hxD
    exact hmoves.pending (h.told hC x hx hxD.2) fun hxb => absurd hxb hxD.1

/-- The leader has committed its log, and all other nodes have the same log and have committed it too; `Q` are
the requests in the queues. -/
structure Settled (c : Fin n) (t : ℕ) (L : List Entry) (Q : Fin n → List Entry) (w : World n) : Prop where
  ready : w.Ready
  nonempty : L ≠ []
  leader : Leading t L (L.length - 1) (Q c) (fun _ => L.length - 1) (fun _ => none) (w.node c)
  follower : ∀ b ≠ c, Replica t L (L.length - 1) (Q b) (w.node b)

/-- **Replication goes through**: a leader with an entry under way can settle. -/
theorem Progress.settles (h : Progress c t k L e ∅ ∅ ∅ w) (hlen : L.length = k + 1) :
    Lib.Leads World.step Event.request? (Settled c t (L ++ [e]) fun _ => []) w := by
  have haccepted : Lib.Leads World.step Event.request? (Progress c t k L e (others c) ∅ ∅) w :=
    Lib.leads_sweep (P := fun A => Progress c t k L e A ∅ ∅) (others c)
      (fun A b w hb hbA h => h.accept hlen (mem_others.1 hb) hbA) h
  have hcounted : Lib.Leads World.step Event.request? (Progress c t k L e (others c) (others c) ∅) w :=
    haccepted.bind fun w h => Lib.leads_sweep (P := fun C => Progress c t k L e (others c) C ∅) (others c)
      (fun C b w hb hbC h => h.count hlen (mem_others.1 hb) hbC) h
  have htold : Lib.Leads World.step Event.request? (Progress c t k L e (others c) (others c) (others c)) w :=
    hcounted.bind fun w h => Lib.leads_sweep (P := fun D => Progress c t k L e (others c) (others c) D) (others c)
      (fun D b w hb hbD h => h.tell (mem_others.1 hb) hbD) h
  have hlen' : (L ++ [e]).length - 1 = k + 1 := by
    rw [List.length_append, hlen]
    rfl
  have hmatch : matchFor c k (others c) = fun _ => k + 1 := by
    funext i
    exact if_pos (complete_others c i)
  have hnext : nextFor c k (others c) = fun _ => none := by
    funext i
    exact if_pos (complete_others c i)
  obtain ⟨w', hrun, h'⟩ := htold
  have hleader := h'.leader
  rw [if_pos (complete_others c), hmatch, hnext] at hleader
  refine ⟨w', hrun, h'.ready, by simp, by rw [hlen']; exact hleader, fun b hb => ?_⟩
  have hreplica := h'.follower b hb
  rw [if_pos (mem_others.2 hb), if_pos (mem_others.2 hb)] at hreplica
  rwa [hlen']

/-! ## Requests -/

/-- A broadcast begins: the leader has appended the entry and sent it to all nodes. -/
theorem progress_start (hn : 2 ≤ n) {src : Option (Fin n)} {u x : RaftNode n} {last : Entry}
    (hmoves : w.Moves w' c src u)
    (hlast : L[k]? = some last) (hfollower : ∀ b ≠ c, Replica t L k [] (w.node b))
    (hu : Leading t (L ++ [e]) k [] (matchFor c k ∅) (nextFor c k ∅) u) (hid : x.myId = c)
    (hterm : x.currentTerm = t) (hcommit : x.commitIndex = k)
    (hsent : ∀ b, x.appendEntriesMessage k last.term e b ∈ u.talker) : Progress c t k L e ∅ ∅ ∅ w' := by
  have : Nontrivial (Fin n) := Fin.nontrivial_iff_two_le.2 hn
  have hnot : ¬ Complete c ∅ := by
    intro hall
    obtain ⟨b, hb⟩ := exists_ne c
    exact Finset.notMem_empty b ((hall b).resolve_left hb)
  refine ⟨hmoves.ready, ?_, fun b hb => ?_, fun b hb _ => ⟨last, hlast, ?_⟩,
    fun b _ hbA => absurd hbA (Finset.notMem_empty b), fun hC => absurd hC hnot⟩
  · rw [hmoves.node, if_neg hnot]
    exact hu.flush
  · rw [hmoves.others b hb, if_neg (Finset.notMem_empty b), if_neg (Finset.notMem_empty b)]
    exact hfollower b hb
  · refine hmoves.sent (hsent b) ?_ ⟨_, rfl, rfl, rfl, hterm, congrArg some hid, rfl, rfl, rfl, hcommit⟩
    simp [Message.reaches, appendEntriesMessage, Message.base]

variable {Q : Fin n → List Entry} {d : Fin n}

theorem Settled.last (h : Settled c t L Q w) : ∃ last, L[L.length - 1]? = some last := by
  have hpos := List.length_pos_iff.2 h.nonempty
  exact ⟨L[L.length - 1], List.getElem?_eq_getElem (by omega)⟩

theorem Settled.length (h : Settled c t L Q w) : L.length = (L.length - 1) + 1 := by
  have hpos := List.length_pos_iff.2 h.nonempty
  omega

/-- A client asks node `d`, which stamps the request with the term that all nodes have. -/
theorem Settled.ask (h : Settled c t L Q w) (d : Fin n) (value : Value) (idNum : Key) :
    Settled c t L (Function.update Q d (Q d ++ [⟨t, value, idNum⟩])) (w.step (.clientRequest d value idNum)) := by
  have hmoves := h.ready.clientRequest d value idNum
  refine ⟨hmoves.ready, h.nonempty, ?_, fun b hb => ?_⟩
  · by_cases hcd : c = d
    · subst hcd
      rw [hmoves.node, Function.update_self]
      have hl := h.leader
      exact ⟨hl.frame, hl.role, hl.term, hl.log, hl.commit, by rw [← hl.term, ← hl.queue]; rfl,
        hl.hash, hl.matched, hl.next⟩
    · rw [hmoves.others c hcd, Function.update_of_ne hcd]
      exact h.leader
  · by_cases hbd : b = d
    · subst hbd
      rw [hmoves.node, Function.update_self]
      have hf := h.follower b hb
      exact ⟨hf.frame, hf.role, hf.term, hf.log, hf.commit, by rw [← hf.term, ← hf.queue]; rfl, hf.hash⟩
    · rw [hmoves.others b hbd, Function.update_of_ne hbd]
      exact h.follower b hb

/-- The leader takes up a request of its own queue. -/
theorem Settled.own (hn : 2 ≤ n) (h : Settled c t L Q w) (hQ : Q c = [e]) (hQ' : ∀ b ≠ c, Q b = []) :
    Lib.Leads World.step Event.request? (Progress c t (L.length - 1) L e ∅ ∅ ∅) w := by
  obtain ⟨last, hlast⟩ := h.last
  have hleader := h.leader
  rw [hQ] at hleader
  have hid : (w.node c).myId = c := (h.ready.wired c).1
  have hemptied : Leading t L (L.length - 1) [] (fun _ => L.length - 1) (fun _ => none)
      { w.node c with clientQueue := [] } :=
    ⟨hleader.frame, hleader.role, hleader.term, hleader.log, hleader.commit, rfl, hleader.hash,
      hleader.matched, hleader.next⟩
  obtain ⟨u, hu, hleading, htalker⟩ := hemptied.broadcast h.length hlast e
  have hmoves := h.ready.loop (by rw [hleader.frame]; decide) (hleader.own.trans hu)
  refine Lib.leads_event rfl (progress_start hn hmoves hlast (fun b hb => ?_) (hid ▸ hleading) hid hleader.term
    hleader.commit fun b => ?_)
  · have hf := h.follower b hb
    rwa [hQ' b hb] at hf
  · rw [htalker]
    exact List.mem_append_right _ (List.mem_map.2 ⟨b, List.mem_finRange b, rfl⟩)

/-- The message forwards the request `e`. -/
structure IsRequest (e : Entry) (m : AppendEntriesMessage n) : Prop where
  direction : m.direction = .response
  type : m.type = .clientRequest
  entries : m.entries = some e

/-- The message is a heartbeat of leader `c` in term `t`. -/
structure IsHeartbeat (c : Fin n) (t : ℕ) (m : AppendEntriesMessage n) : Prop where
  direction : m.direction = .request
  type : m.type = .heartbeat
  term : m.term = t
  leaderId : m.leaderId = some c

/-- A follower's request goes to the leader, which takes it up. -/
theorem Settled.forwarded (hn : 2 ≤ n) (h : Settled c t L Q w) (hd : d ≠ c) (hQ : Q d = [e])
    (hQ' : ∀ b ≠ d, Q b = []) :
    Lib.Leads World.step Event.request? (Progress c t (L.length - 1) L e ∅ ∅ ∅) w := by
  obtain ⟨last, hlast⟩ := h.last
  have hid : (w.node c).myId = c := (h.ready.wired c).1
  have hleader := h.leader
  rw [hQ' c (Ne.symm hd)] at hleader
  -- the leader sends a heartbeat
  have hbeat := h.ready.loop (by rw [hleader.frame]; decide) hleader.beat
  set beat : Event n := .loop c { heartbeat := true, recv := none }
  refine (Lib.leads_event (e := beat) (P := fun w' => w' = w.step beat) rfl rfl).bind ?_
  rintro w₁ rfl
  generalize w.step beat = w₁ at hbeat ⊢
  have hpending : w₁.Pending c d (Carries (IsHeartbeat c t)) :=
    hbeat.sent (m := (w.node c).heartbeatMessage) (List.mem_append_right _ (List.mem_singleton_self _))
      (by simp [Message.reaches, heartbeatMessage, Message.base])
      ⟨_, rfl, rfl, rfl, hleader.term, congrArg some hid⟩
  have hreplica : Replica t L (L.length - 1) [e] (w₁.node d) := by
    rw [hbeat.others d hd, ← hQ]
    exact h.follower d hd
  -- the follower takes it, and forwards its request
  have hforward : ∀ m, Carries (IsHeartbeat c t) m → ∃ u x : RaftNode n, (w₁.node d).loop {} (some m) = some u ∧
      Replica t L (L.length - 1) [] u ∧ u.talker = (w₁.node d).talker ++ [x.clientRequestMessage (some c) e] := by
    rintro m ⟨q, rfl, hq⟩
    exact hreplica.forward hq.direction hq.type hq.term hq.leaderId
  obtain ⟨i, m, u, hP, hu, hmoves⟩ := hbeat.ready.take hpending (by rw [hreplica.frame]; decide) fun m hm => by
    obtain ⟨u, x, hu, -⟩ := hforward m hm
    exact ⟨u, hu⟩
  obtain ⟨u', x, hu', hreplica', htalker⟩ := hforward m hP
  obtain rfl := Option.some.inj (hu.symm.trans hu')
  refine (Lib.leads_event (e := .take d c i) (P := fun w' => w' = w₁.step (.take d c i)) rfl rfl).bind ?_
  rintro w₂ rfl
  generalize w₁.step (.take d c i) = w₂ at hmoves ⊢
  have hpending' : w₂.Pending d c (Carries (IsRequest e)) :=
    hmoves.sent (m := x.clientRequestMessage (some c) e)
      (by rw [htalker]; exact List.mem_append_right _ (List.mem_singleton_self _))
      (by simp [Message.reaches, clientRequestMessage, Message.base]) ⟨_, rfl, rfl, rfl, rfl⟩
  -- the leader takes it up
  have hleading : Leading t L (L.length - 1) [] (fun _ => L.length - 1) (fun _ => none) (w₂.node c) := by
    rw [hmoves.others c (Ne.symm hd), hbeat.node]
    exact ⟨hleader.frame, hleader.role, hleader.term, hleader.log, hleader.commit, hleader.queue, hleader.hash,
      hleader.matched, hleader.next⟩
  have hid₂ : (w₂.node c).myId = c := (hmoves.ready.wired c).1
  obtain ⟨v, hv, hleading', htalker'⟩ := hleading.broadcast h.length hlast e
  obtain ⟨i', m', v', hP', hv', hmoves'⟩ :=
    hmoves.ready.take hpending' (by rw [hleading.frame]; decide) fun m hm => by
    obtain ⟨q, rfl, hq⟩ := hm
    exact ⟨v, hleading.request hq.direction hq.type hq.entries hv hleading'.queue hleading'.frame⟩
  obtain ⟨q, rfl, hq⟩ := hP'
  obtain rfl := Option.some.inj (hv'.symm.trans
    (hleading.request hq.direction hq.type hq.entries hv hleading'.queue hleading'.frame))
  refine Lib.leads_event rfl (progress_start hn hmoves' hlast (fun b hb => ?_) (hid₂ ▸ hleading') hid₂
    hleading.term hleading.commit fun b => ?_)
  · by_cases hbd : b = d
    · subst hbd
      rw [hmoves.node]
      exact hreplica'.flush
    · rw [hmoves.others b hbd, hbeat.others b hb, ← hQ' b hbd]
      exact h.follower b hb
  · rw [htalker']
    exact List.mem_append_right _ (List.mem_map.2 ⟨b, List.mem_finRange b, rfl⟩)

/-- **A settled cluster serves a request** made at any node, and is settled again. -/
theorem settled_request (hn : 2 ≤ n) (h : Settled c t L (fun _ => []) w) (r : Fin n × Value × Key) :
    ∃ w', Lib.Performs World.step Event.request? w [r] w' ∧
      Settled c t (L ++ [⟨t, r.2.1, r.2.2⟩]) (fun _ => []) w' := by
  obtain ⟨d, value, idNum⟩ := r
  have hask := h.ask d value idNum
  have hasked :
    Lib.Performs World.step Event.request? w [(d, value, idNum)] (w.step (.clientRequest d value idNum)) :=
    Lib.performs_event (by rfl) w
  have hQ : Function.update (fun _ => []) d ([] ++ [⟨t, value, idNum⟩]) d = [(⟨t, value, idNum⟩ : Entry)] :=
    Function.update_self _ _ _
  have hQ' : ∀ b ≠ d, Function.update (fun _ => []) d ([] ++ [⟨t, value, idNum⟩]) b = ([] : List Entry) :=
    fun b hb => Function.update_of_ne hb _ _
  have hstart : Lib.Leads World.step Event.request? (Progress c t (L.length - 1) L ⟨t, value, idNum⟩ ∅ ∅ ∅)
      (w.step (.clientRequest d value idNum)) := by
    by_cases hd : d = c
    · subst hd
      exact hask.own hn hQ hQ'
    · exact hask.forwarded hn hd hQ hQ'
  obtain ⟨w', hrun, hsettled⟩ := hstart.bind fun w h' => h'.settles h.length
  exact ⟨w', hasked.trans hrun, hsettled⟩

end Progress

/-! ## The election -/

section Election

variable {b c : Fin n} {R V : Finset (Fin n)} {w : World n}

/-- A node of the first election, in term 2. -/
structure Contender (frame : Frame) (role : Role) (s : RaftNode n) : Prop where
  frame : s.frame = frame
  role : s.currentRole = role
  term : s.currentTerm = 2
  log : s.log = [initEntry]
  commit : s.commitIndex = 0
  queue : s.clientQueue = []
  hash : s.logHash = filed [initEntry]

/-- The message asks for votes of term 2, for `c`. -/
def IsPlea (c : Fin n) (m : Message n) : Prop :=
  ∃ q, m = .requestVotes q ∧ q.direction = .request ∧ q.term = 2 ∧ q.lastLogIndex = 0 ∧
    q.lastLogTerm = 1 ∧ q.sender = c

/-- The message grants a vote. -/
def IsVote (m : Message n) : Prop :=
  ∃ q, m = .requestVotes q ∧ q.direction = .response ∧ q.results.voteGranted = some true

/-- Candidate `c` has asked for votes, and the nodes in `V` have sent theirs. -/
structure Campaign (c : Fin n) (V : Finset (Fin n)) (w : World n) : Prop where
  ready : w.Ready
  candidate : Contender (.candidate 0 0) .candidate (w.node c)
  waiting : ∀ b ≠ c, b ∉ V → w.node b = RaftNode.init b ∧ w.Pending c b (IsPlea c)
  voted : ∀ b ≠ c, b ∈ V → Replica 2 [initEntry] 0 [] (w.node b)
  votes : ∀ b, b = c ∨ b ∈ V → w.Pending b c IsVote

/-- Candidate `c` counts, and has counted the votes of the nodes in `R`, or enough of them. -/
structure Counting (c : Fin n) (R : Finset (Fin n)) (w : World n) : Prop where
  ready : w.Ready
  follower : ∀ b ≠ c, Replica 2 [initEntry] 0 [] (w.node b)
  votes : ∀ b, b ∉ R → w.Pending b c IsVote
  candidate : if R.card ≤ n / 2 then Contender (.candidate R.card R.card) .candidate (w.node c)
    else Contender .run .leader (w.node c)

/-- A candidate counts a vote: it goes on, or leads. -/
theorem Contender.count {v r : ℕ} {s : RaftNode n} {m : Message n} (h : Contender (.candidate v r) .candidate s)
    (hn : 2 ≤ n) (hm : IsVote m) : ∃ u, s.loop {} (some m) = some u ∧
      if v + 1 ≤ n / 2 then Contender (.candidate (v + 1) (r + 1)) .candidate u
      else Contender .run .leader u := by
  obtain ⟨q, rfl, hd, hgranted⟩ := hm
  refine ⟨_, loop_vote h.frame h.role hd, ?_⟩
  unfold candidateVote
  simp only [hgranted, if_true]
  by_cases hle : v + 1 ≤ n / 2
  · have hnot : ¬ (v + 1 > n / 2 ∨ n = 1) := by omega
    rw [if_pos hle, if_neg hnot]
    exact ⟨rfl, h.role, h.term, h.log, h.commit, h.queue, h.hash⟩
  · have hmajority : v + 1 > n / 2 ∨ n = 1 := by omega
    rw [if_neg hle, if_pos hmajority]
    exact ⟨rfl, rfl, h.term, h.log, h.commit, h.queue, h.hash⟩

/-- Another node votes. -/
theorem Campaign.vote (h : Campaign c V w) (hb : b ≠ c) (hbV : b ∉ V) :
    Lib.Leads World.step Event.request? (Campaign c (insert b V)) w := by
  obtain ⟨hinit, hplea⟩ := h.waiting b hb hbV
  -- its thread enters the loop of `_follower`
  have hcall : (w.node b).call = some { RaftNode.init b with frame := .follower } := by
    rw [hinit]
    rfl
  have hcalled := h.ready.call (by rw [hinit]; rfl) hcall
  refine (Lib.leads_event (e := .call b) (P := fun w' => w' = w.step (.call b)) rfl rfl).bind ?_
  rintro w₁ rfl
  generalize w.step (.call b) = w₁ at hcalled ⊢
  have hnode : w₁.node b = { RaftNode.init b with frame := .follower } := hcalled.node
  have hvote : ∀ m, IsPlea c m → ∃ u x : RaftNode n, (w₁.node b).loop {} (some m) = some u ∧
      Replica 2 [initEntry] 0 [] u ∧ u.talker = [x.voteMessage c true] := by
    rintro m ⟨q, rfl, hd, hterm, hindex, hlast, hsender⟩
    obtain ⟨u, x, hu, hreplica, -, htalker⟩ := loop_init_vote (b := b) hd hterm hindex hlast
    rw [hnode]
    exact ⟨u, x, hu, hreplica, by rw [htalker, hsender]⟩
  obtain ⟨i, m, u, hP, hu, hmoves⟩ := hcalled.ready.take (hcalled.pending hplea fun _ => by simp)
    (by rw [hnode]; simp) fun m hm => by
      obtain ⟨u, x, hu, -⟩ := hvote m hm
      exact ⟨u, hu⟩
  obtain ⟨u', x, hu', hreplica, htalker⟩ := hvote m hP
  obtain rfl := Option.some.inj (hu.symm.trans hu')
  refine Lib.leads_event rfl ⟨hmoves.ready, ?_, fun y hy hyV => ?_, fun y hy hyV => ?_, fun y hyV => ?_⟩
  · rw [hmoves.others c (Ne.symm hb), hcalled.others c (Ne.symm hb)]
    exact h.candidate
  · rw [Finset.mem_insert, not_or] at hyV
    obtain ⟨hinit', hplea'⟩ := h.waiting y hy hyV.2
    refine ⟨?_, hmoves.pending (hcalled.pending hplea' fun _ => by simp) fun hyb => absurd hyb hyV.1⟩
    rw [hmoves.others y hyV.1, hcalled.others y hyV.1]
    exact hinit'
  · by_cases hyb : y = b
    · subst hyb
      rw [hmoves.node]
      exact hreplica.flush
    · rw [hmoves.others y hyb, hcalled.others y hyb]
      exact h.voted y hy ((Finset.mem_insert.1 hyV).resolve_left hyb)
  · by_cases hyb : y = b
    · subst hyb
      refine hmoves.sent (m := x.voteMessage c true) (by rw [htalker]; exact List.mem_singleton_self _) ?_ ⟨_,
        rfl, rfl, rfl⟩
      simp [Message.reaches, voteMessage, Message.base]
    · refine hmoves.pending (hcalled.pending (h.votes y ?_) fun _ => by simp) fun hcb => absurd hcb.symm hb
      exact hyV.imp_right fun hmem => (Finset.mem_insert.1 hmem).resolve_left hyb

/-- Another vote is counted. -/
theorem Counting.count (hn : 2 ≤ n) (h : Counting c R w) (hbR : b ∉ R) :
    Lib.Leads World.step Event.request? (Counting c (insert b R)) w := by
  have hcandidate := h.candidate
  have hcard : (insert b R).card = R.card + 1 := Finset.card_insert_of_notMem hbR
  by_cases hle : R.card ≤ n / 2
  swap
  · -- enough votes are counted
    rw [if_neg hle] at hcandidate
    refine Lib.leads_here ⟨h.ready, h.follower,
      fun y hy => h.votes y fun hyR => hy (Finset.mem_insert_of_mem hyR), ?_⟩
    rw [hcard, if_neg (by omega)]
    exact hcandidate
  rw [if_pos hle] at hcandidate
  obtain ⟨i, m, u, hP, hu, hmoves⟩ := h.ready.take (h.votes b hbR) (by rw [hcandidate.frame]; simp) fun m hm => by
    obtain ⟨u, hu, -⟩ := hcandidate.count hn hm
    exact ⟨u, hu⟩
  obtain ⟨u', hu', hcase⟩ := hcandidate.count hn hP
  obtain rfl := Option.some.inj (hu.symm.trans hu')
  refine Lib.leads_event rfl ⟨hmoves.ready, fun y hy => ?_, fun y hy => ?_, ?_⟩
  · rw [hmoves.others y hy]
    exact h.follower y hy
  · rw [Finset.mem_insert, not_or] at hy
    exact hmoves.pending (h.votes y hy.2) fun _ hyb => hy.1 (Option.some.inj hyb).symm
  · rw [hmoves.node, hcard]
    split at hcase
    · rename_i hcount
      rw [if_pos hcount]
      exact ⟨hcase.frame, hcase.role, hcase.term, hcase.log, hcase.commit, hcase.queue, hcase.hash⟩
    · rename_i hcount
      rw [if_neg hcount]
      exact ⟨hcase.frame, hcase.role, hcase.term, hcase.log, hcase.commit, hcase.queue, hcase.hash⟩

theorem ready_init : (World.init : World n).Ready := ⟨fun _ => ⟨rfl, rfl⟩, fun _ _ => le_rfl⟩

/-- Node `c` times out at first, and campaigns. -/
theorem campaign_init (c : Fin n) : Lib.Leads World.step Event.request? (Campaign c ∅) World.init := by
  have hcalled := ready_init.call (b := c) (s := { RaftNode.init c with frame := .follower }) rfl rfl
  refine (Lib.leads_event (e := .call c) (P := fun w' => w' = World.init.step (.call c)) rfl rfl).bind ?_
  rintro w₁ rfl
  generalize World.init.step (.call c) = w₁ at hcalled ⊢
  have hnode : w₁.node c = { RaftNode.init c with frame := .follower } := hcalled.node
  have htimed : w₁.Moves (w₁.step (.timeout c)) c none { RaftNode.init c with currentRole := .candidate } :=
    hcalled.ready.loop (by rw [hnode]; simp) (by rw [hnode]; rfl)
  refine (Lib.leads_event (e := .timeout c) (P := fun w' => w' = w₁.step (.timeout c)) rfl rfl).bind ?_
  rintro w₂ rfl
  generalize w₁.step (.timeout c) = w₂ at htimed ⊢
  have hnode₂ : w₂.node c = { RaftNode.init c with currentRole := .candidate } := htimed.node
  have hmoves :=
    htimed.ready.call (b := c) (s := (w₂.node c).candidateCall) (by rw [hnode₂]; rfl) (by rw [hnode₂]; rfl)
  have htalker : (w₂.node c).candidateCall.talker = [((w₂.node c).incrementTerm none).requestVoteMessage,
      ((w₂.node c).incrementTerm none).voteMessage c true] := by
    rw [hnode₂]
    rfl
  refine Lib.leads_event rfl ⟨hmoves.ready, ?_, fun b hb _ => ⟨?_, ?_⟩,
    fun b _ hb => absurd hb (Finset.notMem_empty b), fun b hb => ?_⟩
  · rw [hmoves.node, hnode₂]
    exact ⟨rfl, rfl, rfl, rfl, rfl, rfl, rfl⟩
  · rw [hmoves.others b hb, htimed.others b hb, hcalled.others b hb]
    rfl
  · refine hmoves.sent (m := ((w₂.node c).incrementTerm none).requestVoteMessage) ?_ rfl ?_
    · rw [htalker]
      exact List.mem_cons_self
    · rw [hnode₂]
      exact ⟨_, rfl, rfl, rfl, rfl, rfl, rfl⟩
  · obtain rfl := hb.resolve_right (Finset.notMem_empty b)
    refine hmoves.sent (m := ((w₂.node b).incrementTerm none).voteMessage b true) ?_ ?_ ⟨_, rfl, rfl, rfl⟩
    · rw [htalker]
      exact List.mem_cons_of_mem _ (List.mem_singleton_self _)
    · simp [Message.reaches, voteMessage, Message.base]

/-- **A cluster can elect any of its nodes**, and settle. -/
theorem settled_init (hn : 2 ≤ n) (c : Fin n) :
    Lib.Leads World.step Event.request? (Settled c 2 [initEntry, leaderEntry 2] fun _ => []) World.init := by
  have hvoted : Lib.Leads World.step Event.request? (Campaign c (others c)) World.init :=
    (campaign_init c).bind fun w h => Lib.leads_sweep (P := fun V => Campaign c V) (others c)
      (fun V b w hb hbV h => h.vote (mem_others.1 hb) hbV) h
  have hcounted : Lib.Leads World.step Event.request? (Counting c Finset.univ) World.init := by
    refine hvoted.bind fun w h => Lib.leads_sweep (P := fun R => Counting c R) Finset.univ
      (fun R b w _ hbR h => h.count hn hbR) ⟨h.ready, fun b hb => h.voted b hb (mem_others.2 hb),
        fun b _ => h.votes b ?_, ?_⟩
    · by_cases hb : b = c
      · exact Or.inl hb
      · exact Or.inr (mem_others.2 hb)
    · rw [Finset.card_empty, if_pos (Nat.zero_le _)]
      exact h.candidate
  -- the winner begins to lead, with an entry for its term
  have hleads :
      Lib.Leads World.step Event.request? (Progress c 2 0 [initEntry] (leaderEntry 2) ∅ ∅ ∅) World.init := by
    refine hcounted.bind fun w h => ?_
    have hwinner := h.candidate
    have hcard : ¬ (Finset.univ : Finset (Fin n)).card ≤ n / 2 := by
      rw [Finset.card_univ, Fintype.card_fin]
      omega
    rw [if_neg hcard] at hwinner
    have hid : (w.node c).myId = c := (h.ready.wired c).1
    have hlast : (w.node c).log[0]? = some initEntry := by
      rw [hwinner.log]
      rfl
    obtain ⟨u, hu, hleading, htalker⟩ := call_leader (k := 0) hwinner.role (by rw [hwinner.log]; rfl) hlast
      hwinner.commit hwinner.queue (by rw [hwinner.hash, hwinner.log])
    rw [hwinner.term, hwinner.log, hid] at hleading
    refine Lib.leads_event rfl (progress_start hn (h.ready.call hwinner.frame hu)
      (show [initEntry][0]? = some initEntry from rfl)
      (fun b hb => h.follower b hb) hleading hid hwinner.term hwinner.commit fun b => ?_)
    rw [htalker, hwinner.term]
    exact List.mem_append_right _ (List.mem_map.2 ⟨b, List.mem_finRange b, rfl⟩)
  exact hleads.bind fun w h => h.settles rfl

end Election

/-- All nodes hold the log and have committed it, and answer by it. -/
structure Serves (L : List Entry) (w : World n) : Prop where
  log : ∀ a, (w.node a).log = L
  commit : ∀ a, (w.node a).commitIndex + 1 = L.length
  last : ∀ a, (w.node a).checkCommittedEntry = L.getLast?.map Entry.entry
  byId : ∀ a idNum, (w.node a).checkCommittedEntryId idNum = Lib.lastWith Entry.id idNum L.tail

theorem Settled.serves {c : Fin n} {t : ℕ} {L : List Entry} {Q : Fin n → List Entry} {w : World n}
    (h : Settled c t L Q w) : Serves L w := by
  have hall : ∀ a, (w.node a).log = L ∧ (w.node a).commitIndex = L.length - 1 ∧ (w.node a).logHash = filed L := by
    intro a
    by_cases ha : a = c
    · subst ha
      exact ⟨h.leader.log, h.leader.commit, h.leader.hash⟩
    · exact ⟨(h.follower a ha).log, (h.follower a ha).commit, (h.follower a ha).hash⟩
  have hlen := h.length
  refine ⟨fun a => (hall a).1, fun a => ?_, fun a => ?_, fun a idNum => ?_⟩
  · rw [(hall a).2.1]
    exact hlen.symm
  · unfold checkCommittedEntry
    rw [(hall a).1, (hall a).2.1, List.getLast?_eq_getElem?]
  · unfold checkCommittedEntryId
    rw [(hall a).2.2, filed, Lib.fileAll_apply, Option.or_none]

/-- **A cluster can serve all requests**: for two or more nodes, any node to lead and any requests at any nodes,
there is a run that makes just these requests, in this order, and ends with the same log everywhere: the two
entries of the election and then the requests. All of it is committed at every node, so `check_committed_entry`
answers the last request, or the last one with the id that it is given. -/
theorem cluster_serves (hn : 2 ≤ n) (c : Fin n) (requests : List (Fin n × Value × Key)) :
    ∃ es : List (Event n), es.filterMap Event.request? = requests ∧
      ((wAt es es.length).node c).currentRole = .leader ∧
      Serves ([initEntry, leaderEntry 2] ++ requests.map fun r => ⟨2, r.2.1, r.2.2⟩) (wAt es es.length) := by
  obtain ⟨w, hstart, hsettled⟩ := settled_init hn c
  obtain ⟨w', hserve, hsettled'⟩ := Lib.performs_all
    (P := fun l w => Settled c 2 ([initEntry, leaderEntry 2] ++ l.map fun r => ⟨2, r.2.1, r.2.2⟩) (fun _ => []) w)
    (fun l r w h => by
      obtain ⟨w', hserve, hsettled⟩ := settled_request hn h r
      rw [List.append_assoc] at hsettled
      exact ⟨w', hserve, by rwa [List.map_append]⟩)
    requests [] w hsettled
  obtain ⟨es, hes, hrun⟩ := hstart.trans hserve
  have hend : wAt es es.length = w' := by
    unfold wAt Lib.stateAt
    rw [List.take_length]
    exact hrun
  refine ⟨es, hes, ?_⟩
  rw [hend]
  exact ⟨hsettled'.leader.role, hsettled'.serves⟩

/-- Four nodes, and five requests at the first, as the test script makes them. -/
theorem cluster_serves_four :
    ∃ es : List (Event 4),
      es.filterMap Event.request? = (List.range 5).map (fun v => (0, .dict [("val", .int v)], .int (-1))) ∧
        ((wAt es es.length).node 1).currentRole = .leader ∧
        Serves ([initEntry, leaderEntry 2] ++
          ((List.range 5).map fun v => ((0 : Fin 4), Value.dict [("val", .int v)], Key.int (-1))).map
            fun r => ⟨2, r.2.1, r.2.2⟩) (wAt es es.length) :=
  cluster_serves (by decide) 1 _

end EdgeConsensus.Raft
