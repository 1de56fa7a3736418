import EdgeConsensus.Local.Membership
import Mathlib.Data.Finset.Card
import Mathlib.Data.Fintype.Card
import Mathlib.Data.List.Nodup

/-!
# Who takes part in a consensus

`local_consensus` copies the local group while the listener may assign to it, adds the node itself, and makes a
`RaftNode` of the result.

* `copied`: what `main` has copied describes other nodes, in the order in which they came.
* `consensus_members`: every consensus has four nodes or more, and its own node among them, each listed once with
  its address.
-/

namespace EdgeConsensus.Local

open Lib Log

variable {n : ℕ} {net : Net n} {es : List (Event n)} {a b : Fin n} {g h i j k : ℕ}

/-! ## Names -/

theorem Net.id_injective (net : Net n) : Function.Injective net.id := by
  intro a b hab
  exact net.index_injective (str_injective hab)

/-- No node has the id that `RaftNode.__init__` leaves out. -/
theorem Net.id_ne_leader (net : Net n) (a : Fin n) : net.id a ≠ ['l', 'e', 'a', 'd', 'e', 'r'] := by
  intro h
  obtain ⟨c, cs, hcs, hc⟩ := Json.dumpsInt_cons (net.host a).index
  have htext : c :: cs = ['l', 'e', 'a', 'd', 'e', 'r'] := hcs.symm.trans h
  obtain ⟨rfl, -⟩ := List.cons.inj htext
  rcases hc with hc | hc
  · cases hc
  · cases hc

/-- The contact of a node, as `local_consensus` has it. -/
def Net.contact (net : Net n) (a : Fin n) : Contact := ⟨net.address a, highPowerTxPort⟩

/-- The address of a node for `raft.py`. -/
def Net.raftAddress (net : Net n) (a : Fin n) : List Char := (net.contact a).address

theorem Net.raftAddress_injective (net : Net n) : Function.Injective net.raftAddress := by
  intro a b hab
  have happend : net.address a ++ ':' :: highPowerTxPort = net.address b ++ ':' :: highPowerTxPort := hab
  exact net.address_injective (List.append_cancel_right happend)

/-- The entry of a node in a `comm_dict`. -/
def Net.entry (net : Net n) (b : Fin n) : List Char × Contact := (net.id b, net.contact b)

/-! ## What `main` has copied -/

/-- The `RaftNode` that node `a` makes when it has copied the nodes `bs`. -/
def Net.members (net : Net n) (bs : List (Fin n)) (a : Fin n) : Members :=
  ⟨(bs ++ [a]).map net.raftAddress, net.raftAddress a⟩

/-- What node `a` has copied of a group with these keys describes other nodes, and so does
the `RaftNode` made of it. -/
def MainPoint.Copied (net : Net n) (a : Fin n) (keys : List (List Char)) : MainPoint → Prop
  | .iterate _ _ commDict => ∃ bs : List (Fin n), a ∉ bs ∧ commDict.entries = bs.map net.entry
  | .copy _ _ commDict _ => ∃ bs : List (Fin n), a ∉ bs ∧ commDict.entries = bs.map net.entry
  | .make _ commDict => ∃ bs : List (Fin n), a ∉ bs ∧ commDict.entries = bs.map net.entry
  | .consensus _ raft => ∃ bs, a ∉ bs ∧ bs.Nodup ∧ 3 ≤ bs.length ∧
    bs.map net.id <+: keys ∧ raft = net.members bs a
  | _ => True

theorem MainPoint.Copied.mono {keys keys' : List (List Char)} {main : MainPoint} (h : main.Copied net a keys)
    (hkeys : keys <+: keys') : main.Copied net a keys' := by
  cases main with
  | consensus =>
    obtain ⟨bs, ha, hnodup, hthree, hprefix, hraft⟩ := h
    exact ⟨bs, ha, hnodup, hthree, hprefix.trans hkeys, hraft⟩
  | _ => exact h

theorem entries_keys {d : CommDict} {bs : List (Fin n)} (h : d.entries = bs.map net.entry) :
    d.keys = bs.map net.id := by
  unfold Dict.keys
  rw [h, List.map_map]
  rfl

/-- The `RaftNode` of a dict that describes other nodes. -/
theorem init_members {commDict : CommDict} {bs : List (Fin n)} {raft : Members} (ha : a ∉ bs)
    (hcopied : commDict.entries = bs.map net.entry)
    (hraft : Members.init (commDict.assign (net.id a) (net.contact a)) (net.id a) = some raft) :
    raft = net.members bs a := by
  have hnew : net.id a ∉ commDict.keys := by
    rw [entries_keys hcopied]
    intro hmem
    obtain ⟨b, hb, hid⟩ := List.mem_map.1 hmem
    rw [net.id_injective hid] at hb
    exact ha hb
  have hentries : (commDict.assign (net.id a) (net.contact a)).entries = (bs ++ [a]).map net.entry := by
    rw [Dict.entries_assign_of_notMem hnew, hcopied, List.map_append]
    rfl
  unfold Members.init at hraft
  obtain ⟨me, hme, rfl⟩ := Option.map_eq_some_iff.1 hraft
  have hown : me = net.contact a := by
    rw [Dict.find?_assign_self] at hme
    exact (Option.some.inj hme).symm
  have hall : (commDict.assign (net.id a) (net.contact a)).entries.filter
      (fun x => x.1 ≠ ['l', 'e', 'a', 'd', 'e', 'r']) = (bs ++ [a]).map net.entry := by
    rw [hentries, List.filter_eq_self]
    intro x hx
    obtain ⟨b, -, rfl⟩ := List.mem_map.1 hx
    exact decide_eq_true (net.id_ne_leader b)
  rw [hall, hown, List.map_map]
  rfl

/-- **One step of `main`** keeps what it has copied a description of other nodes. -/
theorem acts_copied {s s' : Process} (hacts : s.Acts (net.host a) s') (hsound : s.Sound)
    (hgroup : ∀ x ∈ s.localGroup.entries, ∃ b ≠ a, x.1 = net.id b ∧ x.2.1 = net.address b)
    (hcopied : s.main.Copied net a s.localGroup.keys) : s'.main.Copied net a s'.localGroup.keys := by
  unfold Process.Sound at hsound
  cases hacts with
  | wait => exact hcopied
  | raised => exact hcopied
  | trigger => exact ⟨[], List.not_mem_nil, rfl⟩
  | iterated hmain =>
    rw [hmain] at hcopied
    exact hcopied
  | next hmain =>
    rw [hmain] at hcopied
    exact hcopied
  | @copy keylist it commDict key x hmain hx =>
    rw [hmain] at hcopied hsound
    obtain ⟨bs, ha, hentries⟩ := hcopied
    obtain ⟨-, -, hprefix, -⟩ := hsound
    obtain ⟨b, hb, hid, haddress⟩ := hgroup _ hx
    have hid' : key = net.id b := hid
    have haddress' : x.1 = net.address b := haddress
    have hnew : key ∉ commDict.keys := by
      have hnodup := s.localGroup.nodup_keys.sublist hprefix.sublist
      intro hkey
      exact (List.nodup_append.1 hnodup).2.2 key hkey key List.mem_cons_self rfl
    refine ⟨bs ++ [b], ?_, ?_⟩
    · rw [List.mem_append, List.mem_singleton, not_or]
      exact ⟨ha, Ne.symm hb⟩
    · rw [Dict.entries_assign_of_notMem hnew, hentries, hid', haddress', List.map_append]
      rfl
  | @make keylist commDict raft hmain hraft =>
    rw [hmain] at hcopied hsound
    obtain ⟨bs, ha, hentries⟩ := hcopied
    obtain ⟨hthree, hprefix⟩ := hsound
    rw [entries_keys hentries] at hthree hprefix
    refine ⟨bs, ha, ?_, by rwa [List.length_map] at hthree, hprefix, init_members ha hentries hraft⟩
    exact (s.localGroup.nodup_keys.sublist hprefix.sublist).of_map _
  | due | renew | send | list | skip | changed | gone | unmade | stop | noEdge | edge
  | edgeGone | edgeOver | edgeKept
  | edgeReset | rest | sweep => exact trivial

theorem copied (net : Net n) (es : List (Event n)) (k : ℕ) (a : Fin n) :
    ((wAt net es k).node a).main.Copied net a ((wAt net es k).node a).localGroup.keys := by
  induction k with
  | zero =>
    have hzero : wAt net es 0 = World.init := stateAt_zero _ _ _
    rw [hzero]
    exact trivial
  | succ k ih =>
    rcases node_succ net es k a with ⟨-, s, hacts, hnode⟩ | ⟨-, hlistens⟩
    · rw [hnode]
      show s.main.Copied net a s.localGroup.keys
      refine acts_copied hacts (sound net es k a) (fun x hx => ?_) ih
      obtain ⟨f, -, hfiled, -⟩ := (history net es a).entry_filed hx
      obtain ⟨b, hb, hid, haddress, -⟩ := filed_heardFrom hfiled
      exact ⟨b, hb, hid, haddress⟩
    · rcases hlistens.main with hmain | ⟨keylist, raft, -, hmain⟩
      · rw [hmain]
        exact ih.mono hlistens.keys
      · rw [hmain]
        exact trivial

/-! ## Members -/

theorem getNodeIndex_members {bs : List (Fin n)} (hnodup : (bs ++ [a]).Nodup) {address : List Char}
    (hi : (net.members bs a).allIds[i]? = some address) : (net.members bs a).getNodeIndex address = some i := by
  have hall : (net.members bs a).allIds.Nodup := hnodup.map net.raftAddress_injective
  obtain ⟨hlt, hget⟩ := List.getElem?_eq_some_iff.1 hi
  refine List.idxOf?_eq_some_iff.2 ⟨hlt, hget, fun j hji hj => ?_⟩
  have hsame := (List.Nodup.getElem_inj_iff hall).1 (hj.trans hget.symm)
  omega

/-- **Who takes part**: in every run, whenever a node runs a consensus, its `RaftNode` lists four different nodes
or more, each with its address, and its own node as the last of them; `_get_node_index` finds each of them at its
place; and in a network of four nodes these are all nodes. -/
theorem consensus_members (net : Net n) (es : List (Event n)) (k : ℕ) (a : Fin n)
    (keylist : List (List Char)) (raft : Members)
    (hmain : ((wAt net es k).node a).main = .consensus keylist raft) :
    ∃ bs : List (Fin n), (bs ++ [a]).Nodup ∧ 3 ≤ bs.length ∧ raft = net.members bs a ∧
      (∀ i address, raft.allIds[i]? = some address → raft.getNodeIndex address = some i) ∧
      (n = 4 → ∀ b, b ∈ bs ++ [a]) := by
  have hcopied := copied net es k a
  rw [hmain] at hcopied
  obtain ⟨bs, ha, hnodup, hthree, -, rfl⟩ := hcopied
  have hall : (bs ++ [a]).Nodup := by
    refine List.Nodup.append hnodup (List.nodup_singleton a) fun x hx hxa => ha ?_
    rwa [← List.mem_singleton.1 hxa]
  refine ⟨bs, hall, hthree, rfl, fun i address hi => getNodeIndex_members hall hi, fun hn b => ?_⟩
  -- four different nodes of four
  have hcard : (bs ++ [a]).toFinset.card = bs.length + 1 := by
    rw [List.toFinset_card_of_nodup hall, List.length_append, List.length_singleton]
  have hle : (bs ++ [a]).toFinset.card ≤ Fintype.card (Fin n) := Finset.card_le_univ _
  rw [Fintype.card_fin] at hle
  have huniv : (bs ++ [a]).toFinset = Finset.univ := by
    rw [← Finset.card_eq_iff_eq_univ, Fintype.card_fin]
    omega
  rw [← List.mem_toFinset, huniv]
  exact Finset.mem_univ b

theorem consensus_members_agrees :
    ∃ bs : List (Fin 4), (bs ++ [0]).Nodup ∧ 3 ≤ bs.length ∧ quartet.members [1, 2, 3] 0 = quartet.members bs 0 ∧
      (∀ i address, (quartet.members [1, 2, 3] 0).allIds[i]? = some address →
        (quartet.members [1, 2, 3] 0).getNodeIndex address = some i) ∧
      (4 = 4 → ∀ b, b ∈ bs ++ [0]) :=
  consensus_members quartet agrees 35 0 [['1'], ['2'], ['3']] (quartet.members [1, 2, 3] 0) (by decide +kernel)

end EdgeConsensus.Local
