import EdgeConsensus.Lib.Schedule
import EdgeConsensus.Local.Consensus
import Mathlib.Data.Finset.Prod
import Mathlib.Logic.Relation

/-!
# What a local network can do

* `advertise`, `hear`: a node can advertise itself to all that are served, and can hear what was handed on to it.
* `runs_consensus`: `main` comes to a consensus with three other nodes, if nothing comes between.
* `can_start`: any four nodes that are served can all start a consensus of just these four, at the same time.
-/

namespace EdgeConsensus.Local

open Lib Log

variable {n : ℕ} {net : Net n} {w w' : World n} {a b c : Fin n} {s t : Process}

/-- The node whose `RaftNode` raises by the event. -/
def Event.raises? : Event n → Option (Fin n)
  | .raiseCommitted a => some a
  | _ => none

/-- Some events lead from `w` to a world with property `P`, and no `RaftNode` raises. -/
abbrev Goes (net : Net n) (P : World n → Prop) (w : World n) : Prop :=
  Lib.Leads (World.step net) Event.raises? P w

/-! ## Steps of one node -/

/-- From `w` to `w'` only node `a` has moved, to the state `s`, and has sent `out`. -/
structure Moved (net : Net n) (w w' : World n) (a : Fin n) (s : Process) (out : List (List UInt8)) : Prop where
  node : w'.node = Function.update w.node a s
  air : w'.air = w.air ++ out.map fun data => (net.address a, data)
  relayed : w'.relayed = w.relayed

namespace Moved

variable {out out' : List (List UInt8)}

theorem self (h : Moved net w w' a s out) : w'.node a = s := by
  rw [h.node]
  exact Function.update_self _ _ _

theorem other (h : Moved net w w' a s out) (hb : b ≠ a) : w'.node b = w.node b := by
  rw [h.node]
  exact Function.update_of_ne hb _ _

theorem trans {w'' : World n} (h : Moved net w w' a s out) (h' : Moved net w' w'' a t out') :
    Moved net w w'' a t (out ++ out') := by
  refine ⟨?_, ?_, h'.relayed.trans h.relayed⟩
  · rw [h'.node, h.node, Function.update_idem]
  · rw [h'.air, h.air, List.map_append, List.append_assoc]

end Moved

theorem moved_refl (net : Net n) (w : World n) (a : Fin n) : Moved net w w a (w.node a) [] := by
  refine ⟨?_, ?_, rfl⟩
  · rw [Function.update_eq_self]
  · rw [List.map_nil, List.append_nil]

theorem moved_put (net : Net n) (w : World n) (a : Fin n) (s : Process) :
    Moved net w (w.put net a s) a { s with outbox := [] } s.outbox := ⟨rfl, rfl, rfl⟩

theorem moved_quiet (net : Net n) (w : World n) (a : Fin n) (hout : s.outbox = []) :
    Moved net w (w.put net a s) a s [] := by
  have hput := moved_put net w a s
  have hsame : ({ s with outbox := [] } : Process) = s := by rw [← hout]
  rwa [hsame, hout] at hput

/-- **Another step of `main`.** -/
theorem Moved.main {out : List (List UInt8)} (h : Moved net w w' a s out) :
    Moved net w (w'.step net (.main a)) a { s.mainStep (net.host a) with outbox := [] }
      (out ++ (s.mainStep (net.host a)).outbox) := by
  have hput := moved_put net w' a ((w'.node a).mainStep (net.host a))
  rw [h.self] at hput
  have hstep : w'.step net (.main a) = w'.put net a (s.mainStep (net.host a)) := by
    show w'.put net a ((w'.node a).mainStep (net.host a)) = _
    rw [h.self]
  rw [hstep]
  exact h.trans hput

/-! ## Advertising -/

/-- A node that has just advertised itself for the first time. -/
def advertised : Process :=
  { Process.init with
    systime := bluetoothAdvertisementInterval
    main := .list
    clock := bluetoothAdvertisementInterval }

/-- The nodes in `V` have advertised themselves to all that are served, and the others have done nothing. -/
structure Advertised (net : Net n) (V : Finset (Fin n)) (w : World n) : Prop where
  node : ∀ a, w.node a = if a ∈ V then advertised else .init
  relayed : ∀ b ∈ V, ∀ a, a ≠ b → net.address a ∈ net.recipients →
    (net.address a, encode (net.host b).message) ∈ w.relayed

theorem broadcast_message (net : Net n) (b : Fin n) (address : List Char) :
    broadcast net.recipients (encode (net.host b).message) address =
      some ((net.recipients.filter (· ≠ address)).map fun listener =>
        (listener, encode (net.host b).message)) := by
  unfold broadcast
  rw [recvfrom_message, decode_encode]
  rfl

/-- **A node can advertise itself.** -/
theorem Advertised.advertise {V : Finset (Fin n)} (h : Advertised net V w) (hb : b ∉ V) :
    Goes net (Advertised net (insert b V)) w := by
  have hinit : w.node b = .init := by rw [h.node, if_neg hb]
  -- the first interval passes
  have htick : Moved net w (w.step net (.tick b bluetoothAdvertisementInterval)) b
      { Process.init with clock := bluetoothAdvertisementInterval } [] := by
    have hput := moved_put net w b { w.node b with clock := (w.node b).clock + bluetoothAdvertisementInterval }
    rw [hinit] at hput
    have hstep : w.step net (.tick b bluetoothAdvertisementInterval) =
        w.put net b { Process.init with clock := Process.init.clock + bluetoothAdvertisementInterval } := by
      show w.put net b { w.node b with clock := (w.node b).clock + bluetoothAdvertisementInterval } = _
      rw [hinit]
    rw [hstep]
    exact hput
  apply Lib.leads_step (e := Event.tick b bluetoothAdvertisementInterval) rfl
  apply Lib.leads_step (e := Event.main b) rfl
  apply Lib.leads_step (e := Event.main b) rfl
  apply Lib.leads_step (e := Event.main b) rfl
  have hmoved := htick.main.main.main
  set w₄ := (((w.step net (.tick b bluetoothAdvertisementInterval)).step net
    (.main b)).step net (.main b)).step net (.main b) with hw₄
  have hself : w₄.node b = advertised := hmoved.self
  have hair : w₄.air[w.air.length]? = some (net.address b, encode (net.host b).message) := by
    rw [hmoved.air, List.getElem?_append_right (Nat.le_refl _), Nat.sub_self]
    rfl
  set out := (net.recipients.filter (· ≠ net.address b)).map fun listener =>
    (listener, encode (net.host b).message) with hout
  have hrelay : w₄.step net (.relay w.air.length) = { w₄ with relayed := w₄.relayed ++ out } := by
    simp only [World.step, hair, broadcast_message]
    rfl
  apply Lib.leads_event (e := Event.relay w.air.length) rfl
  rw [hrelay]
  refine ⟨fun a => ?_, fun c hc a hac hserved => ?_⟩
  · by_cases hab : a = b
    · rw [hab, if_pos (Finset.mem_insert_self b V)]
      exact hself
    · have hmem : a ∈ insert b V ↔ a ∈ V := by simp [hab]
      rw [hmoved.other hab, h.node]
      simp only [hmem]
  · rw [hmoved.relayed]
    rcases Finset.mem_insert.1 hc with rfl | hc
    · refine List.mem_append_right _ (List.mem_map.2 ⟨net.address a, List.mem_filter.2 ⟨hserved, ?_⟩, rfl⟩)
      exact decide_eq_true fun h => hac (net.address_injective h)
    · exact List.mem_append_left _ (h.relayed c hc a hac hserved)

/-! ## Hearing -/

/-- **A node can hear what was handed on to it**, and does nothing else then. -/
theorem hear (hmem : (net.address a, encode (net.host b).message) ∈ w.relayed) (hnode : w.node a = s)
    (hheard : s.heard = none) (hout : s.outbox = []) :
    Goes net (fun w' => Moved net w w' a
      { s with localGroup := s.localGroup.assign (net.id b) (net.address b, s.clock) } []) w := by
  obtain ⟨i, hi⟩ := List.mem_iff_getElem?.1 hmem
  have hreceived : w.received net a i = some (encode (net.host b).message) := by
    unfold World.received
    rw [hi, Option.filter_some, if_pos (decide_eq_true rfl)]
    rfl
  set s₁ : Process := { s with heard := some (net.id b, net.address b, s.clock) } with hs₁
  have hlistener : s.bluetoothListener (encode (net.host b).message) = s₁ := by
    unfold Process.bluetoothListener
    rw [if_pos hheard, bluetoothAdvertisement_message]
    rfl
  have hstep : w.step net (.hear a i) = w.put net a s₁ := by simp only [World.step, hreceived, hnode, hlistener]
  apply Lib.leads_step (e := Event.hear a i) rfl
  rw [hstep]
  have hfirst : Moved net w (w.put net a s₁) a s₁ [] := moved_quiet net w a hout
  set w₁ := w.put net a s₁
  -- the worker assigns what it has read
  have hassign :
      s₁.bluetoothAssign = { s with localGroup := s.localGroup.assign (net.id b) (net.address b, s.clock) } := by
    have hnone : ({ s with localGroup := s.localGroup.assign (net.id b) (net.address b, s.clock) } : Process) =
        { s with localGroup := s.localGroup.assign (net.id b) (net.address b, s.clock), heard := none } := by
      rw [← hheard]
    rw [hnone]
    rfl
  have hstep' : w₁.step net (.assign a) =
      w₁.put net a { s with localGroup := s.localGroup.assign (net.id b) (net.address b, s.clock) } := by
    show w₁.put net a (w₁.node a).bluetoothAssign = _
    rw [hfirst.self, hassign]
  apply Lib.leads_event (e := Event.assign a) rfl
  rw [hstep']
  exact hfirst.trans (moved_quiet net w₁ a hout)

/-! ## To a consensus -/

/-- Steps of `main`, none of which sends. -/
abbrev Runs (me : Edge.Node) : Process → Process → Prop :=
  Relation.ReflTransGen fun s t => s.main ≠ .bluetoothSender ∧ t = s.mainStep me

theorem Runs.goes {out : List (List UInt8)} (h : Runs (net.host a) s t) :
    ∀ {w' : World n}, Moved net w w' a s out → s.outbox = [] →
      Goes net (fun w'' => Moved net w w'' a t out) w' := by
  induction h using Relation.ReflTransGen.head_induction_on with
  | refl =>
    intro w' hmoved _
    exact Lib.leads_here hmoved
  | @head s u hstep _ ih =>
    intro w' hmoved hout
    obtain ⟨hmain, rfl⟩ := hstep
    have hout' : (s.mainStep (net.host a)).outbox = [] := by
      rcases (Process.mainStep_cases (net.host a) s).outbox with heq | ⟨hsender, -⟩
      · exact heq.trans hout
      · exact absurd hsender hmain
    have hnext := hmoved.main
    rw [hout', List.append_nil] at hnext
    apply Lib.leads_step (e := Event.main a) rfl
    refine ih ?_ hout'
    have hsame : ({ s.mainStep (net.host a) with outbox := [] } : Process) = s.mainStep (net.host a) := by
      rw [← hout']
    rwa [hsame] at hnext

theorem runs_copy (me : Edge.Node) (s : Process) (keylist : List (List Char)) (d : ℕ) :
    ∀ (i : ℕ) (commDict : CommDict), i + d = s.localGroup.entries.length →
      ∃ commDict', Runs me { s with main := .iterate keylist ⟨s.localGroup.entries.length, i⟩ commDict }
        { s with main := .make keylist commDict' } := by
  have hlength : s.localGroup.keys.length = s.localGroup.entries.length := List.length_map _
  induction d with
  | zero =>
    intro i commDict hi
    refine ⟨commDict, .single ⟨by simp, ?_⟩⟩
    have hend : s.localGroup.keys[i]? = none := List.getElem?_eq_none (by omega)
    simp [Process.mainStep, hend]
  | succ d ih =>
    intro i commDict hi
    have hlt : i < s.localGroup.keys.length := by omega
    have hkey : s.localGroup.keys[i]? = some s.localGroup.keys[i] := List.getElem?_eq_getElem hlt
    obtain ⟨x, hx⟩ := Dict.find?_of_mem_keys (List.getElem_mem hlt)
    set copied := commDict.assign s.localGroup.keys[i] ⟨x.1, highPowerTxPort⟩ with hcopied
    obtain ⟨commDict', hruns⟩ := ih (i + 1) copied (by omega)
    have hnext : ({ s with
          main := .iterate keylist ⟨s.localGroup.entries.length, i⟩ commDict } : Process).mainStep me =
        { s with main := .copy keylist ⟨s.localGroup.entries.length, i + 1⟩ commDict s.localGroup.keys[i] } := by
      simp [Process.mainStep, hkey]
    have hcopy : ({ s with
          main := .copy keylist ⟨s.localGroup.entries.length, i + 1⟩ commDict s.localGroup.keys[i]
        } : Process).mainStep me =
        { s with main := .iterate keylist ⟨s.localGroup.entries.length, i + 1⟩ copied } := by
      simp [Process.mainStep, hx, hcopied]
    exact ⟨commDict', .head ⟨by simp, hnext.symm⟩ (.head ⟨by simp, hcopy.symm⟩ hruns)⟩

theorem runs_trigger (me : Edge.Node) (s : Process) (hmain : s.main = .list)
    (hthree : s.localGroup.keys.length = 3) :
    Runs me s { s with main := .iterate s.localGroup.keys ⟨s.localGroup.entries.length, 0⟩ Dict.empty } := by
  have hlist : s.mainStep me = { s with main := .trigger s.localGroup.keys } := by
    unfold Process.mainStep
    rw [hmain]
  have htrigger : ({ s with main := .trigger s.localGroup.keys } : Process).mainStep me =
      { s with main := .iterate s.localGroup.keys ⟨s.localGroup.entries.length, 0⟩ Dict.empty } := if_pos hthree
  exact .head ⟨by simp [hmain], hlist.symm⟩ (.single ⟨by simp, htrigger.symm⟩)

/-- **`main` comes to a consensus** with three other nodes. -/
theorem runs_consensus (me : Edge.Node) (s : Process) (hmain : s.main = .list)
    (hthree : s.localGroup.keys.length = 3) :
    ∃ raft, Runs me s { s with main := .consensus s.localGroup.keys raft } := by
  obtain ⟨commDict, hcopy⟩ :=
    runs_copy me s s.localGroup.keys s.localGroup.entries.length 0 Dict.empty (Nat.zero_add _)
  obtain ⟨raft, hraft⟩ := Members.init_assign commDict me.id ⟨me.address.text, highPowerTxPort⟩
  refine ⟨raft, ((runs_trigger me s hmain hthree).trans hcopy).tail ⟨by simp, ?_⟩⟩
  simp [Process.mainStep, hraft]

/-! ## Phases -/

/-- The nodes in `T` have advertised themselves, and of them each pair in `S` has a node
that has heard the other. -/
structure Hearing (net : Net n) (T : Finset (Fin n)) (S : Finset (Fin n × Fin n)) (w : World n) : Prop where
  node : ∀ a ∈ T, ∃ g : LocalGroup, w.node a = { advertised with localGroup := g } ∧
    ∀ key, key ∈ g.keys ↔ ∃ b, (a, b) ∈ S ∧ key = net.id b
  relayed : ∀ b ∈ T, ∀ a, a ≠ b → net.address a ∈ net.recipients →
    (net.address a, encode (net.host b).message) ∈ w.relayed

variable {T : Finset (Fin n)} {S : Finset (Fin n × Fin n)}

theorem Advertised.hearing (h : Advertised net T w) : Hearing net T ∅ w := by
  refine ⟨fun a ha => ⟨Dict.empty, ?_, fun key => ?_⟩, h.relayed⟩
  · rw [h.node, if_pos ha]
    rfl
  · simp [Dict.empty, Dict.keys]

/-- One more node hears another. -/
theorem Hearing.hear (h : Hearing net T S w) (ha : a ∈ T) (hb : b ∈ T) (hab : a ≠ b)
    (hserved : net.address a ∈ net.recipients) : Goes net (Hearing net T (insert (a, b) S)) w := by
  obtain ⟨g, hg, hkeys⟩ := h.node a ha
  refine (Local.hear (h.relayed b hb a hab hserved) hg rfl rfl).bind fun w' hmoved => Lib.leads_here ?_
  refine ⟨fun c hc => ?_, fun c hc x hx hserved => ?_⟩
  · by_cases hca : c = a
    · subst hca
      refine ⟨_, hmoved.self, fun key => ?_⟩
      rw [Dict.mem_keys_assign, hkeys]
      constructor
      · rintro (rfl | ⟨d, hd, rfl⟩)
        · exact ⟨b, Finset.mem_insert_self _ _, rfl⟩
        · exact ⟨d, Finset.mem_insert_of_mem hd, rfl⟩
      · rintro ⟨d, hd, rfl⟩
        rcases Finset.mem_insert.1 hd with heq | hd
        · exact Or.inl (congrArg net.id (Prod.mk.inj heq).2)
        · exact Or.inr ⟨d, hd, rfl⟩
    · obtain ⟨g', hg', hkeys'⟩ := h.node c hc
      refine ⟨g', (hmoved.other hca).trans hg', fun key => ?_⟩
      rw [hkeys']
      simp [hca]
  · rw [hmoved.relayed]
    exact h.relayed c hc x hx hserved

/-- From the start, any pairs of nodes can come to know each other. -/
theorem goes_hearing (net : Net n) (T : Finset (Fin n)) (S : Finset (Fin n × Fin n))
    (hS : ∀ p ∈ S, p.1 ∈ T ∧ p.2 ∈ T ∧ p.1 ≠ p.2 ∧ net.address p.1 ∈ net.recipients) :
    Goes net (Hearing net T S) World.init := by
  have hadvertised : Goes net (Advertised net T) World.init :=
    Lib.leads_sweep (P := fun V => Advertised net V) T (fun V b w _ hb h => h.advertise hb)
      ⟨fun a => by simp [World.init], fun b hb => absurd hb (Finset.notMem_empty b)⟩
  refine hadvertised.bind fun w h => ?_
  refine Lib.leads_sweep (P := fun V => Hearing net T V) S (fun V p w hp _ h => ?_) h.hearing
  obtain ⟨ha, hb, hab, hserved⟩ := hS p hp
  exact h.hear ha hb hab hserved

theorem length_of_keys {d : LocalGroup} {U : Finset (Fin n)} (h : ∀ key, key ∈ d.keys ↔ ∃ b ∈ U, key = net.id b) :
    d.keys.length = U.card := by
  have himage : d.keys.toFinset = U.image net.id := by
    ext key
    rw [List.mem_toFinset, h, Finset.mem_image]
    constructor
    · rintro ⟨b, hb, rfl⟩
      exact ⟨b, hb, rfl⟩
    · rintro ⟨b, hb, rfl⟩
      exact ⟨b, hb, rfl⟩
  rw [← List.toFinset_card_of_nodup d.nodup_keys, himage, Finset.card_image_of_injective _ net.id_injective]

/-- All nodes in `T` know each other and nobody else; those in `V` have started a consensus, and the others are
about to take their keys. -/
structure Starting (net : Net n) (T V : Finset (Fin n)) (w : World n) : Prop where
  started : ∀ a ∈ V, ∃ keylist raft, (w.node a).main = .consensus keylist raft
  waiting : ∀ a ∈ T, a ∉ V → (w.node a).main = .list ∧ (w.node a).outbox = []
  group : ∀ a ∈ T, ∀ key, key ∈ (w.node a).localGroup.keys ↔ ∃ b ∈ T.erase a, key = net.id b

theorem Starting.start {V : Finset (Fin n)} (h : Starting net T V w) (hT : T.card = 4) (ha : a ∈ T) (hV : a ∉ V) :
    Goes net (Starting net T (insert a V)) w := by
  obtain ⟨hmain, hout⟩ := h.waiting a ha hV
  have hthree : (w.node a).localGroup.keys.length = 3 := by
    rw [length_of_keys (h.group a ha), Finset.card_erase_of_mem ha, hT]
  obtain ⟨raft, hruns⟩ := runs_consensus (net.host a) (w.node a) hmain hthree
  refine (hruns.goes (moved_refl net w a) hout).bind fun w' hmoved => Lib.leads_here ?_
  refine ⟨fun c hc => ?_, fun c hc hcV => ?_, fun c hc => ?_⟩
  · by_cases hca : c = a
    · rw [hca, hmoved.self]
      exact ⟨_, raft, rfl⟩
    · rw [hmoved.other hca]
      exact h.started c ((Finset.mem_insert.1 hc).resolve_left hca)
  · rw [Finset.mem_insert, not_or] at hcV
    rw [hmoved.other hcV.1]
    exact h.waiting c hc hcV.2
  · by_cases hca : c = a
    · rw [hca, hmoved.self]
      exact h.group a ha
    · rw [hmoved.other hca]
      exact h.group c hc

/-- The world that events lead to from the start is that of a run. -/
theorem run_of_goes {P : World n → Prop} (h : Goes net P World.init) :
    ∃ es : List (Event n), es.filterMap Event.raises? = [] ∧ P (wAt net es es.length) := by
  obtain ⟨w, ⟨es, hsilent, hrun⟩, hw⟩ := h
  refine ⟨es, hsilent, ?_⟩
  have hend : wAt net es es.length = w := by
    unfold wAt stateAt
    rw [List.take_length]
    exact hrun
  rwa [hend]

/-- Four nodes that are served can come to the point where all of them are in a consensus. -/
theorem goes_starting (net : Net n) (hT : T.card = 4) (hserved : ∀ a ∈ T, net.address a ∈ net.recipients) :
    Goes net (Starting net T T) World.init := by
  have hhearing : Goes net (Hearing net T T.offDiag) World.init := by
    refine goes_hearing net T T.offDiag fun p hp => ?_
    obtain ⟨ha, hb, hab⟩ := Finset.mem_offDiag.1 hp
    exact ⟨ha, hb, hab, hserved p.1 ha⟩
  refine hhearing.bind fun w h => Lib.leads_sweep (P := fun V => Starting net T V) T
    (fun V a w ha hV h => h.start hT ha hV)
    ⟨fun a ha => absurd ha (Finset.notMem_empty a), fun a ha _ => ?_, fun a ha key => ?_⟩
  · obtain ⟨g, hg, -⟩ := h.node a ha
    rw [hg]
    exact ⟨rfl, rfl⟩
  · obtain ⟨g, hg, hkeys⟩ := h.node a ha
    rw [hg]
    show key ∈ g.keys ↔ _
    rw [hkeys]
    simp only [Finset.mem_offDiag, Finset.mem_erase, ha, true_and]
    constructor
    · rintro ⟨b, ⟨hb, hab⟩, hkey⟩
      exact ⟨b, ⟨Ne.symm hab, hb⟩, hkey⟩
    · rintro ⟨b, ⟨hab, hb⟩, hkey⟩
      exact ⟨b, ⟨hb, Ne.symm hab⟩, hkey⟩

/-- The `RaftNode` of each of them lists just these four, each once. -/
theorem Starting.members {es : List (Event n)} (h : Starting net T T (wAt net es es.length)) (hT : T.card = 4)
    (ha : a ∈ T) : ∃ keylist bs, ((wAt net es es.length).node a).main = .consensus keylist (net.members bs a) ∧
      (bs ++ [a]).Nodup ∧ (bs ++ [a]).toFinset = T := by
  obtain ⟨keylist, raft, hmain⟩ := h.started a ha
  have hcopied := copied net es es.length a
  rw [hmain] at hcopied
  obtain ⟨bs, habs, hnodup, hthree, hprefix, rfl⟩ := hcopied
  refine ⟨keylist, bs, hmain, ?_, ?_⟩
  · refine List.Nodup.append hnodup (List.nodup_singleton a) fun x hx hxa => habs ?_
    rwa [← List.mem_singleton.1 hxa]
  -- three different nodes of the three others
  have hsub : bs.toFinset ⊆ T.erase a := by
    intro b hb
    have hkey := hprefix.subset (List.mem_map_of_mem (f := net.id) (List.mem_toFinset.1 hb))
    obtain ⟨c, hc, hid⟩ := (h.group a ha _).1 hkey
    rwa [net.id_injective hid]
  have hbs : bs.toFinset = T.erase a := by
    apply Finset.eq_of_subset_of_card_le hsub
    rw [Finset.card_erase_of_mem ha, hT, List.toFinset_card_of_nodup hnodup]
    exact hthree
  rw [List.toFinset_append, hbs]
  ext x
  by_cases hxa : x = a
  · simp [hxa, ha]
  · simp [hxa]

/-- **Four nodes can start a consensus together**: for any four nodes of a network that the broadcast
node serves, there is a run after which all four are in a consensus, and the `RaftNode` of each lists
just these four, each once. -/
theorem can_start (net : Net n) (T : Finset (Fin n)) (hT : T.card = 4)
    (hserved : ∀ a ∈ T, net.address a ∈ net.recipients) :
    ∃ es : List (Event n), ∀ a ∈ T, ∃ keylist bs,
      ((wAt net es es.length).node a).main = .consensus keylist (net.members bs a) ∧
        (bs ++ [a]).Nodup ∧ (bs ++ [a]).toFinset = T := by
  obtain ⟨es, -, h⟩ := run_of_goes (goes_starting net hT hserved)
  exact ⟨es, fun a ha => h.members hT ha⟩

theorem can_start_quartet : ∃ es : List (Event 4), ∀ a ∈ (Finset.univ : Finset (Fin 4)), ∃ keylist bs,
    ((wAt quartet es es.length).node a).main = .consensus keylist (quartet.members bs a) ∧
      (bs ++ [a]).Nodup ∧ (bs ++ [a]).toFinset = Finset.univ :=
  can_start quartet Finset.univ (by decide) (by decide)

end EdgeConsensus.Local
