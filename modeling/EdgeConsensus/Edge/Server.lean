import EdgeConsensus.Edge.Responses
import EdgeConsensus.Lib.Leases
import EdgeConsensus.Lib.Run

/-!
# The edge server

`main` of `edge.py`, which advertises the server and forgets the nodes that have not answered for some time,
beside the threads of any number of connections, which file the answers. Each thread makes its lock for itself,
so a step is one access to `known_nodes`; a connection reads the clock before it files.

* `response`, `fileMessage_eq`: what a connection files, here and in the loop of one connection alone.
* `history`: `known_nodes` is a table of leases, and `main` the thread that sweeps it.
* `server_known`: what the server knows of a node is what a connection has filed last under its id.
* `server_swept`: when `main` is through with its keys, all entries are in time or have come in the meantime.
-/

namespace EdgeConsensus.Edge

open Lib

/-- `EDGE_ADVERTISEMENT_INTERVAL`, in nanoseconds. -/
def edgeAdvertisementInterval : ℕ := 1000000000

/-- `EDGE_HEARTBEAT_TIMER`. -/
def edgeHeartbeatTimer : ℕ := 10 * edgeAdvertisementInterval

/-- `message[1]` and `message[0]` of what `recv` returns; `none` if it raises. -/
def response (bytes : List UInt8) : Option (List Char × List Char) := do
  let text ← decode bytes
  let message := text.splitOn ','
  let address ← message[0]?
  let id ← message[1]?
  return (id, address)

/-- A round of a connection files the response. -/
theorem fileMessage_eq (known : KnownNodes) (r : Read) :
    fileMessage known r = (response r.bytes).map fun x => Function.update known x.1 (some (x.2, r.time)) := by
  unfold fileMessage response
  cases decode r.bytes with
  | none => rfl
  | some text =>
    simp only [Option.bind_eq_bind, Option.bind_some]
    cases (text.splitOn ',')[0]? with
    | none => rfl
    | some address =>
      simp only [Option.bind_some]
      cases (text.splitOn ',')[1]? with
      | none => rfl
      | some id => rfl

/-! ## The server -/

/-- Where `main` is. -/
inductive ServerPoint
  -- the test of the interval
  | test
  -- `systime = get_system_time()`
  | renew
  | broadcastAdvertisement
  -- `keylist = list(known_nodes)[:]`
  | list
  -- `for key in keylist`
  | sweep (step : Sweep (List Char))
  deriving DecidableEq

structure Server where
  address : Address
  knownNodes : Dict (List Char) (List Char × ℕ)
  systime : ℕ
  main : ServerPoint
  -- what each connection is about to file
  pending : ℕ → Option (List Char × List Char × ℕ)
  -- the connections whose thread has raised
  raised : ℕ → Bool
  clock : ℕ
  -- what has been sent to the broadcast node
  broadcasts : List (List UInt8)

inductive Event
  | tick (d : ℕ)
  -- a step of `main`
  | main
  -- `recv` returns on a connection
  | recv (c : ℕ) (bytes : List UInt8)
  -- the connection files what it has received
  | file (c : ℕ)
  deriving DecidableEq

namespace Server

def init (address : Address) : Server where
  address := address
  knownNodes := Dict.empty
  systime := 0
  main := .test
  pending := fun _ => none
  raised := fun _ => false
  clock := 0
  broadcasts := []

/-- The next step of `main`. -/
def mainStep (s : Server) : Server :=
  match s.main with
  | .test => if s.systime + edgeAdvertisementInterval ≤ s.clock then { s with main := .renew } else s
  | .renew => { s with systime := s.clock, main := .broadcastAdvertisement }
  | .broadcastAdvertisement => { s with broadcasts := s.broadcasts ++ [encode s.address.text], main := .list }
  | .list => { s with main := .sweep (.checking s.systime s.knownNodes.keys) }
  | .sweep step =>
    let t := Leases.advance edgeHeartbeatTimer ⟨s.knownNodes, step⟩
    { s with
      knownNodes := t.table
      main := match t.sweep with
        | .resting => .test
        | step => .sweep step }

/-- A round of `maintain_existing_connection`, up to the assignment. -/
def recv (s : Server) (c : ℕ) (bytes : List UInt8) : Server :=
  if s.raised c = true ∨ s.pending c ≠ none then s
  else
    match response bytes with
    | none => { s with raised := Function.update s.raised c true }
    | some x => { s with pending := Function.update s.pending c (some (x.1, x.2, s.clock)) }

/-- `known_nodes[message[1]] = ...`. -/
def file (s : Server) (c : ℕ) : Server :=
  match s.pending c with
  | none => s
  | some x => { s with knownNodes := s.knownNodes.assign x.1 x.2, pending := Function.update s.pending c none }

def step (s : Server) : Event → Server
  | .tick d => { s with clock := s.clock + d }
  | .main => s.mainStep
  | .recv c bytes => s.recv c bytes
  | .file c => s.file c

end Server

/-- The server after the first `k` events of a run. -/
abbrev serverAt (address : Address) (es : List Event) (k : ℕ) : Server := stateAt Server.step (.init address) es k

/-! ## Leases -/

namespace ServerPoint

/-- The sweep of `known_nodes`. -/
def toSweep : ServerPoint → Sweep (List Char)
  | .sweep step => step
  | _ => .resting

end ServerPoint

namespace Server

variable {s : Server} {ev : Event}

def leases (s : Server) : Leases (List Char) (List Char) := ⟨s.knownNodes, s.main.toSweep⟩

/-- What a step of `main` does to `known_nodes`. -/
theorem mainStep_leases (s : Server) : s.leases.Step edgeHeartbeatTimer none s.mainStep.leases := by
  have hidle : ∀ t : Server, t.leases = s.leases → s.leases.Step edgeHeartbeatTimer none t.leases := by
    intro t ht
    rw [ht]
    exact .idle
  unfold mainStep
  split
  · rename_i hmain
    apply hidle
    split
    · simp [leases, ServerPoint.toSweep, hmain]
    · rfl
  · rename_i hmain
    exact hidle _ (by simp [leases, ServerPoint.toSweep, hmain])
  · rename_i hmain
    exact hidle _ (by simp [leases, ServerPoint.toSweep, hmain])
  · rename_i hmain
    exact .begin s.systime (by simp [leases, ServerPoint.toSweep, hmain])
  · rename_i step hmain
    have hleases : s.leases = ⟨s.knownNodes, step⟩ := by simp only [leases, ServerPoint.toSweep, hmain]
    have hadvance : s.leases.Step edgeHeartbeatTimer none (s.leases.advance edgeHeartbeatTimer) := .advance
    rw [hleases] at hadvance ⊢
    generalize Leases.advance edgeHeartbeatTimer ⟨s.knownNodes, step⟩ = t at hadvance ⊢
    dsimp only
    split
    · rename_i hrest
      simp only [leases, ServerPoint.toSweep]
      rwa [← hrest]
    · exact hadvance

/-- What an event files. -/
def filedBy (s : Server) : Event → Option (List Char × List Char × ℕ)
  | .file c => s.pending c
  | _ => none

/-- `main` begins to sweep when it takes its `keylist`. -/
theorem mainStep_begins {start : ℕ} (hrest : s.leases.sweep = .resting)
    (hstart : s.mainStep.leases.sweep.start? = some start) : s.main = .list ∧ start = s.systime := by
  unfold mainStep at hstart
  split at hstart
  · rename_i hmain
    split at hstart
    · cases hstart
    · rw [hrest] at hstart
      cases hstart
  · cases hstart
  · cases hstart
  · rename_i hmain
    exact ⟨hmain, (Option.some.inj hstart).symm⟩
  · rename_i step hmain
    have hstep : step = .resting := by simpa [leases, ServerPoint.toSweep, hmain] using hrest
    subst hstep
    cases hstart

/-- `main` comes back to its test when it has looked at all keys. -/
theorem mainStep_ends (hmain : s.main ≠ .test) (hend : s.mainStep.main = .test) (hs : s.main ≠ .sweep .resting) :
    ∃ start, s.leases.sweep = .checking start [] := by
  unfold mainStep at hend
  split at hend
  · rename_i htest
    exact absurd htest hmain
  · cases hend
  · cases hend
  · cases hend
  · rename_i step hsweep
    have hcases := Leases.advance_cases edgeHeartbeatTimer ⟨s.knownNodes, step⟩
    have hrest : (Leases.advance edgeHeartbeatTimer ⟨s.knownNodes, step⟩).sweep = .resting := by
      dsimp only at hend
      split at hend
      · assumption
      · cases hend
    have hne : step ≠ .resting := by
      rintro rfl
      exact hs hsweep
    simpa [leases, ServerPoint.toSweep, hsweep] using hcases.ends hrest hne

/-- `main` does not stay in its loop with nothing to do. -/
theorem mainStep_sweeps (h : s.main ≠ .sweep .resting) : s.mainStep.main ≠ .sweep .resting := by
  unfold mainStep
  split
  · split
    · simp
    · exact h
  · simp
  · simp
  · simp
  · dsimp only
    split
    · simp
    · rename_i hgoes
      intro h'
      exact hgoes (ServerPoint.sweep.inj h')

/-- What a connection is about to file: what it was, or what it receives in this step. -/
theorem step_pending {c : ℕ} {x : List Char × List Char × ℕ} (hx : (s.step ev).pending c = some x) :
    s.pending c = some x ∨ ∃ bytes, ev = .recv c bytes ∧
      response bytes = some (x.1, x.2.1) ∧ x.2.2 = s.clock := by
  cases ev with
  | tick d => exact Or.inl hx
  | main =>
    have hsame : s.mainStep.pending = s.pending := by
      unfold mainStep
      split
      · split
        · rfl
        · rfl
      · rfl
      · rfl
      · rfl
      · rfl
    left
    rw [← hsame]
    exact hx
  | recv d bytes =>
    have hrecv : (s.recv d bytes).pending c = some x := hx
    unfold recv at hrecv
    split at hrecv
    · exact Or.inl hrecv
    · split at hrecv
      · exact Or.inl hrecv
      · rename_i y hy
        dsimp only at hrecv
        by_cases hcd : c = d
        · subst hcd
          rw [Function.update_self] at hrecv
          obtain rfl := Option.some.inj hrecv
          exact Or.inr ⟨bytes, rfl, hy, rfl⟩
        · rw [Function.update_of_ne hcd] at hrecv
          exact Or.inl hrecv
  | file d =>
    have hfile : (s.file d).pending c = some x := hx
    unfold file at hfile
    split at hfile
    · exact Or.inl hfile
    · dsimp only at hfile
      by_cases hcd : c = d
      · subst hcd
        rw [Function.update_self] at hfile
        cases hfile
      · rw [Function.update_of_ne hcd] at hfile
        exact Or.inl hfile

@[simp] theorem recv_main (s : Server) (c : ℕ) (bytes : List UInt8) : (s.recv c bytes).main = s.main := by
  unfold recv
  split
  · rfl
  · split
    · rfl
    · rfl

@[simp] theorem recv_knownNodes (s : Server) (c : ℕ) (bytes : List UInt8) :
    (s.recv c bytes).knownNodes = s.knownNodes := by
  unfold recv
  split
  · rfl
  · split
    · rfl
    · rfl

@[simp] theorem file_main (s : Server) (c : ℕ) : (s.file c).main = s.main := by
  unfold file
  split
  · rfl
  · rfl

theorem step_leases (s : Server) (ev : Event) :
    s.leases.Step edgeHeartbeatTimer (s.filedBy ev) (s.step ev).leases := by
  cases ev with
  | tick d => exact .idle
  | main => exact s.mainStep_leases
  | recv c bytes =>
    have hsame : (s.recv c bytes).leases = s.leases := by simp [leases]
    show s.leases.Step edgeHeartbeatTimer none (s.recv c bytes).leases
    rw [hsame]
    exact .idle
  | file c =>
    show s.leases.Step edgeHeartbeatTimer (s.pending c) (s.file c).leases
    unfold file
    cases hc : s.pending c with
    | none => exact .idle
    | some x => exact .file x.1 x.2

end Server

variable {address : Address} {es : List Event} {i j k : ℕ}

/-- What is filed at a time of a run: the id, the address and the time. -/
def filed (address : Address) (es : List Event) (j : ℕ) : Option (List Char × List Char × ℕ) :=
  es[j]?.bind (serverAt address es j).filedBy

/-- **`known_nodes` over a run** is a table of leases, that `main` sweeps. -/
theorem history (address : Address) (es : List Event) :
    Leases.History edgeHeartbeatTimer (fun j => (serverAt address es j).leases) (filed address es) where
  start := by
    have hzero : serverAt address es 0 = .init address := stateAt_zero _ _ _
    rw [hzero]
    rfl
  step j := by
    unfold filed
    rcases Nat.lt_or_ge j es.length with hj | hj
    · have hsucc : serverAt address es (j + 1) = (serverAt address es j).step es[j] := stateAt_succ hj
      rw [hsucc, List.getElem?_eq_getElem hj]
      exact Server.step_leases _ _
    · have hsucc : serverAt address es (j + 1) = serverAt address es j := stateAt_end hj
      rw [hsucc, List.getElem?_eq_none hj]
      exact .idle

/-! ## Steps of a run -/

/-- A step of a run is one of `main`, or leaves `main` where it is. -/
theorem main_succ (address : Address) (es : List Event) (k : ℕ) :
    (es[k]? = some .main ∧ serverAt address es (k + 1) = (serverAt address es k).mainStep) ∨
      ((serverAt address es (k + 1)).main = (serverAt address es k).main) := by
  rcases Nat.lt_or_ge k es.length with hk | hk
  · have hsucc : serverAt address es (k + 1) = (serverAt address es k).step es[k] := stateAt_succ hk
    rw [hsucc, List.getElem?_eq_getElem hk]
    cases es[k] with
    | tick d => exact Or.inr rfl
    | main => exact Or.inl ⟨rfl, rfl⟩
    | recv c bytes => exact Or.inr (Server.recv_main _ c bytes)
    | file c => exact Or.inr (Server.file_main _ c)
  · have hsucc : serverAt address es (k + 1) = serverAt address es k := stateAt_end hk
    exact Or.inr (by rw [hsucc])

/-- `main` is in its loop only while there is something to do. -/
theorem sweeps (address : Address) (es : List Event) (k : ℕ) :
    (serverAt address es k).main ≠ .sweep .resting := by
  induction k with
  | zero =>
    have hzero : serverAt address es 0 = .init address := stateAt_zero _ _ _
    rw [hzero]
    intro h
    cases h
  | succ k ih =>
    rcases main_succ address es k with ⟨-, hstep⟩ | hsame
    · rw [hstep]
      exact Server.mainStep_sweeps ih
    · rwa [hsame]

/-! ## What the server knows -/

/-- Before `k` the connection `c` has received this response, when the clock showed this time. -/
def Received (address : Address) (es : List Event) (k c : ℕ) (x : List Char × List Char × ℕ) : Prop :=
  ∃ h < k, ∃ bytes, es[h]? = some (.recv c bytes) ∧ response bytes = some (x.1, x.2.1) ∧
    x.2.2 = (serverAt address es h).clock

theorem received (address : Address) (es : List Event) (k c : ℕ) (x : List Char × List Char × ℕ)
    (hx : (serverAt address es k).pending c = some x) : Received address es k c x := by
  induction k with
  | zero =>
    have hzero : serverAt address es 0 = .init address := stateAt_zero _ _ _
    rw [hzero] at hx
    cases hx
  | succ k ih =>
    have hold : (serverAt address es k).pending c = some x → Received address es (k + 1) c x := by
      intro h
      obtain ⟨h, hh, hrest⟩ := ih h
      exact ⟨h, by omega, hrest⟩
    rcases Nat.lt_or_ge k es.length with hk | hk
    · have hsucc : serverAt address es (k + 1) = (serverAt address es k).step es[k] := stateAt_succ hk
      rw [hsucc] at hx
      rcases Server.step_pending hx with hsame | ⟨bytes, hev, hresponse, hclock⟩
      · exact hold hsame
      · exact ⟨k, Nat.lt_succ_self k, bytes, by rw [List.getElem?_eq_getElem hk, hev], hresponse, hclock⟩
    · have hsucc : serverAt address es (k + 1) = serverAt address es k := stateAt_end hk
      rw [hsucc] at hx
      exact hold hx

/-- **What the server knows**: in every run with any connections, every entry of `known_nodes` is what some
connection has filed last under that id, and had received before when the clock showed the time in the entry. -/
theorem server_known (address : Address) (es : List Event) (k : ℕ) (x : List Char × List Char × ℕ)
    (hx : x ∈ (serverAt address es k).knownNodes.entries) :
    ∃ f < k, ∃ c, es[f]? = some (.file c) ∧ (serverAt address es f).pending c = some x ∧
      Received address es f c x ∧ ∀ l, f < l → l < k → ∀ y, filed address es l ≠ some (x.1, y) := by
  obtain ⟨f, hf, hfiled, hsince⟩ := (history address es).entry_filed hx
  obtain ⟨ev, hev, hpending⟩ := Option.bind_eq_some_iff.1 hfiled
  cases ev with
  | tick d => cases hpending
  | main => cases hpending
  | recv c bytes => cases hpending
  | file c => exact ⟨f, hf, c, hev, hpending, received address es f c x hpending, hsince⟩

def exampleServer : Address := ⟨['1', '0', '.', '0', '.', '0', '.', '1'], by decide, by decide⟩

/-- A node answers on a connection, and `main` goes through one pass. -/
def answered : List Event :=
  [.recv 0 (encode exampleNode.message), .file 0, .tick edgeAdvertisementInterval] ++ List.replicate 6 .main

theorem server_known_answered :
    ∃ f < 9, ∃ c, answered[f]? = some (.file c) ∧
      (serverAt exampleServer answered f).pending c = some (exampleNode.id, exampleNode.address.text, 0) ∧
      Received exampleServer answered f c (exampleNode.id, exampleNode.address.text, 0) ∧
      ∀ l, f < l → l < 9 → ∀ y, filed exampleServer answered l ≠ some (exampleNode.id, y) :=
  server_known exampleServer answered 9 (exampleNode.id, exampleNode.address.text, 0) (by decide +kernel)

/-- `main` goes through its keys once in each pass: a pass begins where it takes its `keylist`, from the
time that it has read last. -/
theorem loop (address : Address) (es : List Event) :
    Leases.History.Loop (fun j => (serverAt address es j).leases) (fun j => (serverAt address es j).main = .test)
      (fun j => es[j]? = some .main ∧ (serverAt address es j).main = .list)
      (fun j => (serverAt address es j).systime) where
  rests j htest := by simp [Server.leases, ServerPoint.toSweep, htest, Sweep.start?]
  starts j start hrest hstart := by
    rcases main_succ address es j with ⟨hev, hstep⟩ | hsame
    · rw [hstep] at hstart
      obtain ⟨hlist, htime⟩ := Server.mainStep_begins hrest hstart
      exact ⟨⟨hev, hlist⟩, htime⟩
    · have hsweep : (serverAt address es (j + 1)).leases.sweep = (serverAt address es j).leases.sweep :=
        congrArg ServerPoint.toSweep hsame
      rw [hsweep, hrest] at hstart
      cases hstart
  ends j hmain hend := by
    rcases main_succ address es j with ⟨-, hstep⟩ | hsame
    · rw [hstep] at hend
      exact Server.mainStep_ends hmain hend (sweeps address es j)
    · exact absurd (hsame.symm.trans hend) hmain

end EdgeConsensus.Edge
