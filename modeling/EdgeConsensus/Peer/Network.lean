import EdgeConsensus.Lib.Run
import EdgeConsensus.Peer.Node

/-!
# A network of peers

The world keeps every packet that was sent, in order. A packet may be received at
any later time, in any order, any number of times or never: a broadcast by every
node but its source, another packet by the node that has its address. Movement is
in the distance tests of `GetNearbyElements`, which are inputs. A handler that
throws ends the run: nothing happens afterwards.
-/

namespace EdgeConsensus.Peer

/-- `n` nodes with distinct addresses, and the locations they start with. Node ids
have 32 bits. -/
structure Net (n : ℕ) where
  address : Fin n → UInt32
  distinct : Function.Injective address
  size : n ≤ 2 ^ 32
  location : Fin n → Element → Location

def nodeId {n : ℕ} (a : Fin n) : NodeId := UInt32.ofNat a

structure Sent (n : ℕ) where
  source : Fin n
  dest : Option UInt32
  packet : Packet
  deriving DecidableEq

structure World (n : ℕ) where
  node : Fin n → EdgeAwareClientApplication
  now : ℕ
  sent : List (Sent n)
  aborted : Bool

inductive Event (n : ℕ)
  | advance (d : ℕ)
  | sendAdvertisement (b : Fin n)
  | getNearbyElements (b : Fin n) (near : Element → Bool)
  | checkHeartbeats (b : Fin n)
  | receiveData (b : Fin n) (k : ℕ)

variable {n : ℕ} (net : Net n)

def Net.reaches (p : Sent n) (b : Fin n) : Bool :=
  match p.dest with
  | none => p.source ≠ b
  | some address => address = net.address b

namespace World

def init : World n where
  node := fun a => .startApplication (nodeId a) (net.address a) (net.location a)
  now := 0
  sent := []
  aborted := false

/-- The `k`th packet sent, if it can reach node `b`. -/
def received (w : World n) (b : Fin n) (k : ℕ) : Option (Sent n) :=
  w.sent[k]?.filter fun p => net.reaches p b

/-- The node that the event makes act, and what it acts on. -/
def input (w : World n) (ev : Event n) : Option (Fin n × EdgeAwareClientApplication.Input) :=
  if w.aborted then none
  else
    match ev with
    | .advance _ => none
    | .sendAdvertisement b => some (b, .sendAdvertisement)
    | .getNearbyElements b near => some (b, .getNearbyElements near)
    | .checkHeartbeats b => some (b, .checkHeartbeats)
    | .receiveData b k => (w.received net b k).map fun p => (b, .receiveData p.packet)

/-- Node `b` is in state `s`, and what it has handed to its sockets is sent. -/
def put (w : World n) (b : Fin n) (s : EdgeAwareClientApplication) : World n :=
  { w with
    node := Function.update w.node b { s with outbox := [] }
    sent := w.sent ++ s.outbox.map fun x => ⟨b, x.1, x.2⟩ }

def elapse (w : World n) : Event n → World n
  | .advance d => { w with now := w.now + d }
  | _ => w

def step (w : World n) (ev : Event n) : World n :=
  if w.aborted then w
  else
    match w.input net ev with
    | none => w.elapse ev
    | some (b, input) =>
      match (w.node b).handle w.now input with
      | .ok s => w.put b s
      -- what the handler did before it threw is done
      | .error s => { w.put b s with aborted := true }

end World

/-- The world after the first `k` events of a run. -/
abbrev wAt (es : List (Event n)) (k : ℕ) : World n :=
  Lib.stateAt (World.step net) (World.init net) es k

theorem wAt_succ (es : List (Event n)) {k : ℕ} (hk : k < es.length) :
    wAt net es (k + 1) = (wAt net es k).step net es[k] :=
  Lib.stateAt_succ hk

theorem wAt_succ_cases (es : List (Event n)) (k : ℕ) :
    (∃ hk : k < es.length, wAt net es (k + 1) = (wAt net es k).step net es[k]) ∨
      wAt net es (k + 1) = wAt net es k :=
  Lib.stateAt_succ_cases (World.step net) (World.init net) es k

/-- The copy of an element that a node holds after the first `k` events. -/
abbrev copyAt (es : List (Event n)) (k : ℕ) (a : Fin n) (i : Element) : AgreementInformation :=
  ((wAt net es k).node a).agreementInformation i

/-- The network of `main`: addresses from 10.1.1.1 on. Of the random offsets only one
is not 0: node `a` draws an x that is `a` steps of a float greater for the last element. -/
def lan (n : ℕ) (h : n ≤ 2 ^ 16) : Net n where
  address := fun a => UInt32.ofNat (0x0A010101 + a)
  distinct := by
    intro a b hab
    have hnat := congrArg UInt32.toNat hab
    have ha := a.isLt
    have hb := b.isLt
    rw [UInt32.toNat_ofNat', UInt32.toNat_ofNat', Nat.mod_eq_of_lt (by omega),
      Nat.mod_eq_of_lt (by omega)] at hnat
    exact Fin.ext (by omega)
  size := by omega
  location := fun a i =>
    if i = 4 then ⟨0x40C00000 + UInt32.ofNat a, 0x40200000⟩ else baseElementLocations i

/-! ## Small networks -/

def duo : Net 2 := lan 2 (by decide)

def trio : Net 3 := lan 3 (by decide)

/-- A place from which only the last element is near. -/
def lastNear : Element → Bool := fun i => i = 4

end EdgeConsensus.Peer
