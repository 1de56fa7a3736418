import EdgeConsensus.Lib.Run
import EdgeConsensus.Local.Main

/-!
# A local network

Nodes of `node.py`, and the broadcast node of `bluetooth_broadcast_node.py` that hands their advertisements on.
What a node sends is kept, and so is what the broadcast node hands on: a datagram may arrive at any later time,
in any order, any number of times or never. All threads run at any speed, each node has a clock of its own, and
anything may come from edge servers.

* `step_cases`: what a step does.
* `history`: the local group of each node is a table of leases over the whole run.
-/

namespace EdgeConsensus.Local

open Lib Log

/-- `n` hosts with addresses and indices of their own, and whom the broadcast node serves. -/
structure Net (n : ℕ) where
  host : Fin n → Edge.Node
  address_injective : Function.Injective fun a => (host a).address.text
  index_injective : Function.Injective fun a => (host a).index
  short : ∀ a, (encode (host a).message).length ≤ 1024
  recipients : List (List Char)

variable {n : ℕ}

namespace Net

variable (net : Net n)

def address (a : Fin n) : List Char := (net.host a).address.text

def id (a : Fin n) : List Char := (net.host a).id

end Net

/-- The nodes; the datagrams that have come to the broadcast node, with the addresses they come from; and those
that it has handed on, with the addresses they go to. -/
structure World (n : ℕ) where
  node : Fin n → Process
  air : List (List Char × List UInt8)
  relayed : List (List Char × List UInt8)

inductive Event (n : ℕ)
  -- the clock of the node goes on
  | tick (a : Fin n) (d : ℕ)
  -- a step of its main thread
  | main (a : Fin n)
  -- the broadcast node takes up a datagram
  | relay (i : ℕ)
  -- a datagram that it has handed on comes to the bluetooth listener
  | hear (a : Fin n) (i : ℕ)
  | assign (a : Fin n)
  -- a datagram comes to the listener for edge servers
  | hearEdge (a : Fin n) (data : List UInt8)
  | assignEdge (a : Fin n)
  -- the `RaftNode` of its main thread raises
  | raiseCommitted (a : Fin n)
  deriving DecidableEq

variable (net : Net n)

namespace World

def init : World n where
  node := fun _ => .init
  air := []
  relayed := []

/-- Node `a` is in state `s`, and what it has sent comes to the broadcast node. -/
def put (w : World n) (a : Fin n) (s : Process) : World n where
  node := Function.update w.node a { s with outbox := [] }
  air := w.air ++ s.outbox.map fun data => (net.address a, data)
  relayed := w.relayed

/-- A datagram that has been handed on to node `a`. -/
def received (w : World n) (a : Fin n) (i : ℕ) : Option (List UInt8) :=
  (w.relayed[i]?.filter fun p => p.1 = net.address a).map Prod.snd

def step (w : World n) : Event n → World n
  | .tick a d => w.put net a { w.node a with clock := (w.node a).clock + d }
  | .main a => w.put net a ((w.node a).mainStep (net.host a))
  | .relay i =>
    match w.air[i]? with
    | none => w
    | some p =>
      match broadcast net.recipients p.2 p.1 with
      | none => w
      | some out => { w with relayed := w.relayed ++ out }
  | .hear a i =>
    match w.received net a i with
    | none => w
    | some data => w.put net a ((w.node a).bluetoothListener data)
  | .assign a => w.put net a (w.node a).bluetoothAssign
  | .hearEdge a data => w.put net a ((w.node a).edgeBroadcastListener data)
  | .assignEdge a => w.put net a (w.node a).edgeAssign
  | .raiseCommitted a => w.put net a (w.node a).raiseCommitted

end World

/-- The world after the first `k` events of a run. -/
abbrev wAt (es : List (Event n)) (k : ℕ) : World n := stateAt (World.step net) World.init es k

/-! ## What a step does -/

namespace World

variable {net} {w : World n} {ev : Event n} {a b : Fin n} {s : Process}

theorem put_node_self : (w.put net a s).node a = { s with outbox := [] } := Function.update_self _ _ _

theorem put_node_ne (h : b ≠ a) : (w.put net a s).node b = w.node b := Function.update_of_ne h _ _

theorem received_eq {i : ℕ} {data : List UInt8} (h : w.received net a i = some data) :
    (net.address a, data) ∈ w.relayed := by
  unfold received at h
  obtain ⟨p, hp, rfl⟩ := Option.map_eq_some_iff.1 h
  obtain ⟨hi, hto⟩ := Option.filter_eq_some_iff.1 hp
  have haddress : p.1 = net.address a := by simpa using hto
  rw [← haddress]
  exact List.mem_of_getElem? hi

variable (net) in
/-- What an event makes of the node on which it is. -/
inductive Acts (w : World n) : Event n → Fin n → Process → Prop
  | tick (a : Fin n) (d : ℕ) : Acts w (.tick a d) a { w.node a with clock := (w.node a).clock + d }
  | main (a : Fin n) : Acts w (.main a) a ((w.node a).mainStep (net.host a))
  | hear (a : Fin n) (i : ℕ) {data : List UInt8} : w.received net a i = some data →
    Acts w (.hear a i) a ((w.node a).bluetoothListener data)
  | assign (a : Fin n) : Acts w (.assign a) a (w.node a).bluetoothAssign
  | hearEdge (a : Fin n) (data : List UInt8) : Acts w (.hearEdge a data) a ((w.node a).edgeBroadcastListener data)
  | assignEdge (a : Fin n) : Acts w (.assignEdge a) a (w.node a).edgeAssign
  | raiseCommitted (a : Fin n) : Acts w (.raiseCommitted a) a (w.node a).raiseCommitted

variable (net) in
/-- A step finds no datagram, moves one node, or is one of the broadcast node. -/
theorem step_cases (w : World n) (ev : Event n) :
    ((∃ i, ev = .relay i ∨ ∃ a, ev = .hear a i) ∧ w.step net ev = w) ∨
      (∃ a s, w.Acts net ev a s ∧ w.step net ev = w.put net a s) ∨ ∃ i p out, ev = .relay i ∧ p ∈ w.air ∧
      broadcast net.recipients p.2 p.1 = some out ∧ w.step net ev = { w with relayed := w.relayed ++ out } := by
  cases ev with
  | tick a d => exact Or.inr (Or.inl ⟨a, _, .tick a d, rfl⟩)
  | main a => exact Or.inr (Or.inl ⟨a, _, .main a, rfl⟩)
  | relay i =>
    unfold step
    dsimp only
    split
    · exact Or.inl ⟨⟨i, Or.inl rfl⟩, rfl⟩
    · rename_i p hp
      split
      · exact Or.inl ⟨⟨i, Or.inl rfl⟩, rfl⟩
      · rename_i out hout
        exact Or.inr (Or.inr ⟨i, p, out, rfl, List.mem_of_getElem? hp, hout, rfl⟩)
  | hear a i =>
    unfold step
    dsimp only
    split
    · exact Or.inl ⟨⟨i, Or.inr ⟨a, rfl⟩⟩, rfl⟩
    · rename_i data hdata
      exact Or.inr (Or.inl ⟨a, _, .hear a i hdata, rfl⟩)
  | assign a => exact Or.inr (Or.inl ⟨a, _, .assign a, rfl⟩)
  | hearEdge a data => exact Or.inr (Or.inl ⟨a, _, .hearEdge a data, rfl⟩)
  | assignEdge a => exact Or.inr (Or.inl ⟨a, _, .assignEdge a, rfl⟩)
  | raiseCommitted a => exact Or.inr (Or.inl ⟨a, _, .raiseCommitted a, rfl⟩)

variable (net) in
/-- **A step leaves a node alone** unless it is one on the node. -/
theorem node_cases (w : World n) (ev : Event n) (a : Fin n) : (w.step net ev).node a = w.node a ∨
    ∃ s, w.Acts net ev a s ∧ (w.step net ev).node a = { s with outbox := [] } := by
  rcases step_cases net w ev with ⟨-, hstep⟩ | ⟨b, s, hacts, hstep⟩ | ⟨i, p, out, -, -, -, hstep⟩
  · exact Or.inl (by rw [hstep])
  · by_cases hab : a = b
    · subst hab
      exact Or.inr ⟨s, hacts, by rw [hstep, put_node_self]⟩
    · exact Or.inl (by rw [hstep, put_node_ne hab])
  · exact Or.inl (by rw [hstep])

/-- What an event does to its node is a step of `main`, or what `main` hardly notices. -/
theorem Acts.main_or_listens (h : w.Acts net ev a s) :
    (ev = .main a ∧ (w.node a).Acts (net.host a) s) ∨ (ev ≠ .main a ∧ (w.node a).Listens s) := by
  cases h with
  | tick a d => exact Or.inr ⟨by simp, { Process.Listens.refl _ with clock := Nat.le_add_right _ _ }⟩
  | main => exact Or.inl ⟨rfl, Process.mainStep_cases (net.host a) (w.node a)⟩
  | @hear _ i data =>
    obtain ⟨heard, heq, -⟩ := (w.node a).bluetoothListener_eq data
    rw [heq]
    exact Or.inr ⟨by simp, { Process.Listens.refl _ with }⟩
  | assign =>
    rcases (w.node a).bluetoothAssign_eq with ⟨-, heq⟩ | ⟨x, -, heq⟩
    · rw [heq]
      exact Or.inr ⟨by simp, Process.Listens.refl _⟩
    · rw [heq]
      exact Or.inr ⟨by simp, { Process.Listens.refl _ with keys := Dict.keys_prefix_assign _ _ _ }⟩
  | hearEdge _ data =>
    obtain ⟨heardEdge, heq⟩ := (w.node a).edgeBroadcastListener_eq data
    rw [heq]
    exact Or.inr ⟨by simp, { Process.Listens.refl _ with }⟩
  | assignEdge =>
    obtain ⟨edge, heardEdge, heq, hedge⟩ := (w.node a).edgeAssign_eq
    rw [heq]
    exact Or.inr ⟨by simp, { Process.Listens.refl _ with edge := hedge }⟩
  | raiseCommitted =>
    rcases (w.node a).raiseCommitted_eq with heq | ⟨keylist, raft, hmain, heq⟩
    · rw [heq]
      exact Or.inr ⟨by simp, Process.Listens.refl _⟩
    · rw [heq]
      exact Or.inr ⟨by simp, { Process.Listens.refl _ with main := Or.inr ⟨keylist, raft, hmain, rfl⟩ }⟩

/-- What a node sends: its advertisement, if anything. -/
theorem Acts.outbox (h : w.Acts net ev a s) (hw : (w.node a).outbox = []) : s.outbox = [] ∨
    (ev = .main a ∧ (w.node a).main = .bluetoothSender ∧ s.outbox = [encode (net.host a).message]) := by
  rcases h.main_or_listens with ⟨hev, hacts⟩ | ⟨-, hlistens⟩
  · rcases hacts.outbox with heq | ⟨hmain, heq⟩
    · rw [hw] at heq
      exact Or.inl heq
    · rw [hw] at heq
      exact Or.inr ⟨hev, hmain, heq⟩
  · exact Or.inl (hlistens.outbox.trans hw)

/-- What a node is about to assign: what it was, or what it hears in this step. -/
theorem Acts.heard {x : List Char × List Char × ℕ} (h : w.Acts net ev a s) (hx : s.heard = some x) :
    (w.node a).heard = some x ∨ ∃ i data, ev = .hear a i ∧ w.received net a i = some data ∧
      bluetoothAdvertisement data = some (x.1, x.2.1) ∧ x.2.2 = (w.node a).clock := by
  cases h with
  | tick => exact Or.inl hx
  | main =>
    rw [(Process.mainStep_cases (net.host a) (w.node a)).heard] at hx
    exact Or.inl hx
  | @hear _ i data hdata =>
    obtain ⟨heard, heq, hcases⟩ := (w.node a).bluetoothListener_eq data
    rw [heq] at hx
    rcases hcases x hx with hold | ⟨hadvert, hclock⟩
    · exact Or.inl hold
    · exact Or.inr ⟨i, data, rfl, hdata, hadvert, hclock⟩
  | assign =>
    rcases (w.node a).bluetoothAssign_eq with ⟨-, heq⟩ | ⟨y, -, heq⟩
    · rw [heq] at hx
      exact Or.inl hx
    · rw [heq] at hx
      cases hx
  | hearEdge _ data =>
    obtain ⟨heardEdge, heq⟩ := (w.node a).edgeBroadcastListener_eq data
    rw [heq] at hx
    exact Or.inl hx
  | assignEdge =>
    obtain ⟨edge, heardEdge, heq, -⟩ := (w.node a).edgeAssign_eq
    rw [heq] at hx
    exact Or.inl hx
  | raiseCommitted =>
    rcases (w.node a).raiseCommitted_eq with heq | ⟨keylist, raft, -, heq⟩
    · rw [heq] at hx
      exact Or.inl hx
    · rw [heq] at hx
      exact Or.inl hx

/-- What an event makes of its node keeps true what is true where `main` is. -/
theorem Acts.sound (h : w.Acts net ev a s) (hsound : (w.node a).Sound) : s.Sound := by
  rcases h.main_or_listens with ⟨-, hacts⟩ | ⟨-, hlistens⟩
  · exact hacts.sound hsound
  · exact hlistens.sound hsound

theorem Acts.timed (h : w.Acts net ev a s) (ht : (w.node a).Timed) : s.Timed := by
  rcases h.main_or_listens with ⟨-, hacts⟩ | ⟨-, hlistens⟩
  · exact hacts.timed ht
  · exact hlistens.timed ht

variable (net) in
/-- **A step moves the local group of a node** as a step of leases does, where an
assignment files what was heard. -/
theorem step_leases (w : World n) (ev : Event n) (a : Fin n) :
    (w.node a).leases.Step bluetoothHeartbeatTimer (if ev = .assign a then (w.node a).heard else none)
      ((w.step net ev).node a).leases := by
  have hidle : ∀ w' : World n, (w'.node a).leases = (w.node a).leases → ev ≠ .assign a →
      (w.node a).leases.Step bluetoothHeartbeatTimer (if ev = .assign a then (w.node a).heard else none)
        (w'.node a).leases := by
    intro w' hw' hev
    rw [hw', if_neg hev]
    exact .idle
  rcases step_cases net w ev with ⟨hev, hstep⟩ | ⟨b, s, hacts, hstep⟩ | ⟨i, p, out, rfl, -, -, hstep⟩
  · rw [hstep]
    apply hidle w rfl
    rintro rfl
    obtain ⟨i, hev | ⟨b, hev⟩⟩ := hev
    · cases hev
    · cases hev
  · rw [hstep]
    by_cases hab : a = b
    · subst hab
      have hput : ((w.put net a s).node a).leases = s.leases := by
        rw [put_node_self]
        rfl
      cases hacts with
      | main =>
        rw [hput, if_neg (by simp)]
        exact (Process.mainStep_cases (net.host a) (w.node a)).leases
      | assign =>
        rw [hput, if_pos rfl]
        rcases (w.node a).bluetoothAssign_eq with ⟨hnone, heq⟩ | ⟨x, hx, heq⟩
        · rw [heq, hnone]
          exact .idle
        · rw [heq, hx]
          exact .file x.1 x.2
      | tick => exact hidle _ hput (by simp)
      | @hear _ i data =>
        obtain ⟨heard, heq, -⟩ := (w.node a).bluetoothListener_eq data
        refine hidle _ (hput.trans ?_) (by simp)
        rw [heq]
        rfl
      | hearEdge _ data =>
        obtain ⟨heardEdge, heq⟩ := (w.node a).edgeBroadcastListener_eq data
        refine hidle _ (hput.trans ?_) (by simp)
        rw [heq]
        rfl
      | assignEdge =>
        obtain ⟨edge, heardEdge, heq, -⟩ := (w.node a).edgeAssign_eq
        refine hidle _ (hput.trans ?_) (by simp)
        rw [heq]
        rfl
      | raiseCommitted =>
        refine hidle _ (hput.trans ?_) (by simp)
        rcases (w.node a).raiseCommitted_eq with heq | ⟨keylist, raft, hmain, heq⟩
        · rw [heq]
        · rw [heq, Process.leases, Process.leases, hmain]
          rfl
    · refine hidle _ (by rw [put_node_ne hab]) ?_
      rintro rfl
      cases hacts
      exact hab rfl
  · rw [hstep]
    exact hidle _ rfl (by simp)

end World

/-- What a node assigns to its local group at a time of a run: the key, the address and the time. -/
def filed (es : List (Event n)) (a : Fin n) (j : ℕ) : Option (List Char × List Char × ℕ) :=
  if es[j]? = some (.assign a) then ((wAt net es j).node a).heard else none

/-- **The local group over a run** is a table of leases, that `main` sweeps. -/
theorem history (es : List (Event n)) (a : Fin n) :
    Leases.History bluetoothHeartbeatTimer (fun j => ((wAt net es j).node a).leases) (filed net es a) where
  start := by
    have hzero : wAt net es 0 = World.init := stateAt_zero _ _ _
    rw [hzero]
    rfl
  step j := by
    unfold filed
    rcases Nat.lt_or_ge j es.length with hj | hj
    · have hsucc : wAt net es (j + 1) = (wAt net es j).step net es[j] := stateAt_succ hj
      rw [hsucc, List.getElem?_eq_getElem hj]
      simp only [Option.some.injEq]
      exact World.step_leases net (wAt net es j) es[j] a
    · have hsucc : wAt net es (j + 1) = wAt net es j := stateAt_end hj
      rw [hsucc, List.getElem?_eq_none hj, if_neg (by simp)]
      exact .idle

/-- **Invariant rule for one node.** -/
theorem node_invariant {P : Process → Prop} {a : Fin n} (h0 : P .init)
    (hacts : ∀ w ev s, World.Acts net w ev a s → P (w.node a) → P { s with outbox := [] }) (es : List (Event n))
    (k : ℕ) : P ((wAt net es k).node a) := by
  refine stateAt_invariant (P := fun w : World n => P (w.node a)) h0 (fun j hj h => ?_) k
  rcases World.node_cases net (stateAt (World.step net) World.init es j) es[j] a with hnode | ⟨s, hs, hnode⟩
  · rw [hnode]
    exact h
  · rw [hnode]
    exact hacts _ _ s hs h

/-- What is true where `main` is, at all times. -/
theorem sound (es : List (Event n)) (k : ℕ) (a : Fin n) : ((wAt net es k).node a).Sound :=
  node_invariant net trivial (fun _ _ _ hs h => hs.sound h) es k

/-- Between two steps everything that a node has sent has come to the broadcast node. -/
theorem outbox (es : List (Event n)) (k : ℕ) (a : Fin n) : ((wAt net es k).node a).outbox = [] :=
  node_invariant net (P := fun s => s.outbox = []) rfl (fun _ _ _ _ _ => rfl) es k

theorem timed (es : List (Event n)) (k : ℕ) (a : Fin n) : ((wAt net es k).node a).Timed := by
  refine node_invariant net ⟨le_refl _, fun start hstart => by cases hstart⟩ (fun _ _ s hs h => ?_) es k
  exact ⟨(hs.timed h).le, (hs.timed h).start⟩

/-- **A step of a run**, on one node: it is one of its main thread, or the main thread hardly notices. -/
theorem node_succ (es : List (Event n)) (k : ℕ) (a : Fin n) :
    (es[k]? = some (.main a) ∧ ∃ s, ((wAt net es k).node a).Acts (net.host a) s ∧
      (wAt net es (k + 1)).node a = { s with outbox := [] }) ∨
    (es[k]? ≠ some (.main a) ∧ ((wAt net es k).node a).Listens ((wAt net es (k + 1)).node a)) := by
  rcases Nat.lt_or_ge k es.length with hk | hk
  · have hsucc : wAt net es (k + 1) = (wAt net es k).step net es[k] := stateAt_succ hk
    rw [hsucc, List.getElem?_eq_getElem hk]
    rcases World.node_cases net (wAt net es k) es[k] a with hnode | ⟨s, hacts, hnode⟩
    · by_cases hev : es[k] = .main a
      · -- a step of a main thread that does nothing
        have hstep : ((wAt net es k).step net (.main a)).node a =
            { ((wAt net es k).node a).mainStep (net.host a) with outbox := [] } := World.put_node_self
        rw [hev, hstep]
        exact Or.inl ⟨rfl, _, Process.mainStep_cases _ _, rfl⟩
      · rw [hnode]
        exact Or.inr ⟨fun h => hev (Option.some.inj h), Process.Listens.refl _⟩
    · rcases hacts.main_or_listens with ⟨hev, hmain⟩ | ⟨hev, hlistens⟩
      · exact Or.inl ⟨congrArg some hev, s, hmain, hnode⟩
      · refine Or.inr ⟨fun h => hev (Option.some.inj h), ?_⟩
        rw [hnode]
        exact { hlistens with outbox := (outbox net es k a).symm }
  · have hsucc : wAt net es (k + 1) = wAt net es k := stateAt_end hk
    rw [hsucc, List.getElem?_eq_none hk]
    exact Or.inr ⟨by simp, Process.Listens.refl _⟩

/-! ## Small networks -/

theorem str_injective : Function.Injective str := by
  intro x y hxy
  have hx := Json.scanNumber_dumpsInt x Json.ends_nil
  have hy := Json.scanNumber_dumpsInt y Json.ends_nil
  have hsame : Json.dumpsInt x = Json.dumpsInt y := hxy
  rw [hsame, hy] at hx
  exact (Json.int.inj (Prod.mk.inj (Option.some.inj hx)).1).symm

/-- The host 10.0.0.k, with index k. -/
def host (k : ℕ) : Edge.Node where
  address :=
    { text := ['1', '0', '.', '0', '.', '0', '.'] ++ str k
      ne_nil := by simp
      no_comma := by
        have hcomma : ',' ∉ str k := fun h => (mem_str h).2.1 rfl
        simpa using hcomma }
  index := k

/-- The first hosts, all of which are served. -/
def lan (n : ℕ) (short : ∀ a : Fin n, (encode (host a).message).length ≤ 1024) : Net n where
  host := fun a => host a
  address_injective := by
    intro a b hab
    have hstr := str_injective (List.append_cancel_left hab)
    exact Fin.ext (by omega)
  index_injective := by
    intro a b hab
    have hint : ((a : ℕ) : ℤ) = ((b : ℕ) : ℤ) := hab
    exact Fin.ext (by omega)
  short := short
  recipients := (List.finRange n).map fun a => (host a).address.text

def quartet : Net 4 := lan 4 (by decide)

/-- Node `b` advertises itself, and the broadcast node hands on the `i`th datagram that has come to it. -/
def greets (b : Fin 4) (i : ℕ) : List (Event 4) :=
  [.tick b bluetoothAdvertisementInterval, .main b, .main b, .main b, .relay i]

/-- Node 0 hears node 1, goes through one pass, and hears nothing more until the heartbeat timer is over. -/
def loses : List (Event 4) :=
  greets 1 0 ++ [.hear 0 0, .assign 0] ++ .tick 0 bluetoothAdvertisementInterval :: List.replicate 9 (.main 0) ++
    .tick 0 bluetoothHeartbeatTimer :: List.replicate 9 (.main 0)

/-- Node 0 hears all others, and starts a consensus. -/
def agrees : List (Event 4) :=
  greets 1 0 ++ greets 2 1 ++ greets 3 2 ++ [.hear 0 0, .assign 0, .hear 0 3, .assign 0, .hear 0 6, .assign 0] ++
    .tick 0 bluetoothAdvertisementInterval :: List.replicate 13 (.main 0)

end EdgeConsensus.Local
