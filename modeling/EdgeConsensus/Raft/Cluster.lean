import EdgeConsensus.Lib.Run
import EdgeConsensus.Raft.Node

/-!
# A cluster of `RaftNode`s

The nodes share one address book, so they are indexed by `Fin n`. `chan a b` is
everything the `Talker` of `a` has published for `b` so far, in order, and
`pos a b` how much of it `b` is done with: a delivery takes any message from
`pos a b` on and skips those before it. So a message is delivered at most once,
in the order of sending for each pair, after any delay, or never. A node hears
itself too, since `all_ids` contains its own address.

An event is a `client_request`, a call of a role function by `run`, or one round
of the loop the thread is in. An event that cannot happen leaves the world as it
is.
-/

namespace EdgeConsensus.Raft

variable {n : ℕ}

structure World (n : ℕ) where
  node : Fin n → RaftNode n
  chan : Fin n → Fin n → List (Message n)
  pos : Fin n → Fin n → ℕ

/-- The inputs of one round: the timers that have run out, and the message that
`_get_message` returns, by its sender and its place in the sender's stream. -/
structure Round (n : ℕ) extends Timers n where
  recv : Option (Fin n × ℕ) := none

inductive Event (n : ℕ)
  | clientRequest (b : Fin n) (value : Value) (idNum : Key)
  | call (b : Fin n)
  | loop (b : Fin n) (r : Round n)

/-- A round of `b` in which nothing comes and the election timer runs out. -/
def Event.timeout (b : Fin n) : Event n := .loop b { election := true }

/-- A round of `b` that takes message `i` of the stream of `a`. -/
def Event.take (b a : Fin n) (i : ℕ) : Event n := .loop b { recv := some (a, i) }

/-- What a client asks for by the event: the node, the value and the id. -/
def Event.request? : Event n → Option (Fin n × Value × Key)
  | .clientRequest b value idNum => some (b, value, idNum)
  | _ => none

namespace World

def init : World n where
  node := RaftNode.init
  chan := fun _ _ => []
  pos := fun _ _ => 0

/-- Node `b` has run up to state `s`: its talker publishes what it was handed. -/
def put (w : World n) (b : Fin n) (s : RaftNode n) : World n where
  node := Function.update w.node b { s with talker := [] }
  chan := fun a c => if a = b then w.chan a c ++ s.talker.filter (·.reaches c) else w.chan a c
  pos := w.pos

/-- The message a round of `b` gets, if its input is possible. -/
def incoming (w : World n) (b : Fin n) (r : Round n) : Option (Option (Message n)) :=
  match r.recv with
  | none => some none
  | some (a, i) => if w.pos a b ≤ i then (w.chan a b)[i]?.map some else none

/-- Taking that message, `b` is done with it and with those before it. -/
def taken (w : World n) (b : Fin n) (r : Round n) : World n :=
  match r.recv with
  | none => w
  | some (a, i) =>
    { w with pos := fun x y => if x = a ∧ y = b then i + 1 else w.pos x y }

def step (w : World n) : Event n → World n
  | .clientRequest b value idNum => w.put b ((w.node b).clientRequest value idNum)
  | .call b =>
    if (w.node b).frame = .run then
      match (w.node b).call with
      | some s => w.put b s
      | none => w
    else w
  | .loop b r =>
    if (w.node b).frame = .run then w
    else
      match w.incoming b r with
      | none => w
      | some m =>
        match (w.node b).loop r.toTimers m with
        | some s => (w.taken b r).put b s
        | none => w

/-- The node that goes through a round of a loop, and what it gets from its queue. -/
def round (w : World n) : Event n → Option (Fin n × Option (Message n))
  | .loop b r => if (w.node b).frame = .run then none else (w.incoming b r).map fun m => (b, m)
  | _ => none

/-- The message that the event hands to a node, with that node. -/
def delivered (w : World n) (ev : Event n) : Option (Fin n × Message n) :=
  (w.round ev).bind fun d => d.2.map fun m => (d.1, m)

/-! ## What a step is -/

/-- An event that happens: node `b` gets `incoming`, which the world `w₁` has
recorded, and runs up to state `s`. -/
inductive Acts (w : World n) : Event n → Fin n → Option (Message n) → RaftNode n → World n → Prop
  | clientRequest (b : Fin n) (value : Value) (idNum : Key) :
    Acts w (.clientRequest b value idNum) b none ((w.node b).clientRequest value idNum) w
  | call (b : Fin n) {s : RaftNode n} (frame : (w.node b).frame = .run)
      (run : (w.node b).call = some s) : Acts w (.call b) b none s w
  | loop (b : Fin n) (r : Round n) {m : Option (Message n)} {s : RaftNode n}
      (frame : (w.node b).frame ≠ .run) (recv : w.incoming b r = some m)
      (run : (w.node b).loop r.toTimers m = some s) : Acts w (.loop b r) b m s (w.taken b r)

theorem step_cases (w : World n) (ev : Event n) :
    w.step ev = w ∨ ∃ b m s w₁, w.Acts ev b m s w₁ ∧ w.step ev = w₁.put b s := by
  cases ev with
  | clientRequest b value idNum => exact Or.inr ⟨b, _, _, _, .clientRequest b value idNum, rfl⟩
  | call b =>
    by_cases hf : (w.node b).frame = .run
    · cases hc : (w.node b).call with
      | none => left; simp [step, hf, hc]
      | some s => exact Or.inr ⟨b, _, s, w, .call b hf hc, by simp [step, hf, hc]⟩
    · left; simp [step, hf]
  | loop b r =>
    by_cases hf : (w.node b).frame = .run
    · left; simp [step, hf]
    cases hm : w.incoming b r with
    | none => left; simp [step, hf, hm]
    | some m =>
      cases hl : (w.node b).loop r.toTimers m with
      | none => left; simp [step, hf, hm, hl]
      | some s => exact Or.inr ⟨b, m, s, _, .loop b r hf hm hl, by simp [step, hf, hm, hl]⟩

variable {w w₁ : World n} {b : Fin n} {s : RaftNode n} {m : Option (Message n)} {ev : Event n}

@[simp] theorem put_node_self : (w.put b s).node b = { s with talker := [] } := by simp [put]

theorem put_node_ne {a : Fin n} (h : a ≠ b) : (w.put b s).node a = w.node a := by simp [put, h]

theorem put_chan (a c : Fin n) :
    (w.put b s).chan a c = w.chan a c ++ if a = b then s.talker.filter (·.reaches c) else [] := by
  by_cases h : a = b <;> simp [put, h]

@[simp] theorem taken_node (r : Round n) : (w.taken b r).node = w.node := by
  unfold taken; split <;> rfl

@[simp] theorem taken_chan (r : Round n) : (w.taken b r).chan = w.chan := by
  unfold taken; split <;> rfl

theorem incoming_eq {r : Round n} {m : Message n} (h : w.incoming b r = some (some m)) :
    ∃ a i, r.recv = some (a, i) ∧ w.pos a b ≤ i ∧ (w.chan a b)[i]? = some m := by
  unfold incoming at h
  split at h
  · simp at h
  · rename_i a i hr
    split at h
    · rename_i hi
      exact ⟨a, i, hr, hi, by simpa using h⟩
    · cases h

theorem Acts.node (h : w.Acts ev b m s w₁) : w₁.node = w.node := by
  cases h <;> simp

theorem Acts.chan (h : w.Acts ev b m s w₁) : w₁.chan = w.chan := by
  cases h <;> simp

/-- Node `b` gets `m` from the stream of `a`, where it is at `i`. -/
structure Delivers (w : World n) (ev : Event n) (b : Fin n) (m : Message n) (a : Fin n) (i : ℕ) :
    Prop where
  event : ∃ r, ev = .loop b r ∧ w.incoming b r = some (some m)
  frame : (w.node b).frame ≠ .run
  fresh : w.pos a b ≤ i
  sent : (w.chan a b)[i]? = some m
  done : (w.step ev).pos a b = i + 1

theorem Acts.delivers {m : Message n} (h : w.Acts ev b (some m) s w₁) (hw : w.step ev = w₁.put b s) :
    ∃ a i, w.Delivers ev b m a i := by
  cases h with
  | loop b r frame recv run =>
    obtain ⟨a, i, hr, hi, hm⟩ := incoming_eq recv
    exact ⟨a, i, ⟨r, rfl, recv⟩, frame, hi, hm, by rw [hw]; simp [put, taken, hr]⟩

theorem Delivers.delivered {m : Message n} {a : Fin n} {i : ℕ} (h : w.Delivers ev b m a i) :
    w.delivered ev = some (b, m) := by
  obtain ⟨r, rfl, hr⟩ := h.event
  simp [World.delivered, round, h.frame, hr]

theorem Acts.pos_le (h : w.Acts ev b m s w₁) (x y : Fin n) : w.pos x y ≤ w₁.pos x y := by
  cases h with
  | clientRequest => exact le_rfl
  | call => exact le_rfl
  | loop b r frame recv run =>
    cases hr : r.recv with
    | none => simp [taken, hr]
    | some ai =>
      obtain ⟨a, i⟩ := ai
      have hle : w.pos a b ≤ i := by
        by_contra hlt
        simp [incoming, hr, hlt] at recv
      simp only [taken, hr]
      split
      · rename_i hxy
        obtain ⟨rfl, rfl⟩ := hxy; omega
      · exact le_rfl

/-- Streams only grow. -/
theorem step_chan_prefix (w : World n) (ev : Event n) (x y : Fin n) :
    w.chan x y <+: (w.step ev).chan x y := by
  rcases w.step_cases ev with h | ⟨b, m, s, w₁, hacts, h⟩
  · have hsame : (w.step ev).chan x y = w.chan x y := by rw [h]
    exact hsame ▸ List.prefix_rfl
  · rw [h, put_chan, hacts.chan]; exact List.prefix_append _ _

theorem step_pos_le (w : World n) (ev : Event n) (x y : Fin n) : w.pos x y ≤ (w.step ev).pos x y := by
  rcases w.step_cases ev with h | ⟨b, m, s, w₁, hacts, h⟩
  · rw [h]
  · rw [h]; exact hacts.pos_le x y

end World

/-- The world after the first `k` events of a run. -/
abbrev wAt (es : List (Event n)) (k : ℕ) : World n := Lib.stateAt World.step World.init es k

theorem wAt_succ (es : List (Event n)) {k : ℕ} (hk : k < es.length) :
    wAt es (k + 1) = (wAt es k).step es[k] :=
  Lib.stateAt_succ hk

theorem wAt_succ_cases (es : List (Event n)) (k : ℕ) :
    (∃ hk : k < es.length, wAt es (k + 1) = (wAt es k).step es[k]) ∨ wAt es (k + 1) = wAt es k :=
  Lib.stateAt_succ_cases World.step World.init es k

end EdgeConsensus.Raft
