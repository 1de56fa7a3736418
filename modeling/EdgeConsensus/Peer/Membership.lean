import EdgeConsensus.Peer.Wiring

/-!
# Local groups and lookups

A REQUEST_DATA or SEND_DATA is answered to the address that the local group has for
its sender, and `at` throws where there is none. `Heard` says from the events of a
run when there is one: the sender's advertisement has come, and no pruning since has
found it too old.

* `lastHeard_iff`: the local groups hold exactly the nodes that have been heard.
* `never_aborts`: a run never throws if and only if every node that sends a
  REQUEST_DATA or SEND_DATA has been heard where it is handled.
* `request_of_a_stranger`: a node may have been asked by one it never heard.
-/

namespace EdgeConsensus.Peer

open EdgeAwareClientApplication

variable {n : ℕ} {net : Net n}

/-- The packets whose sender is looked up. -/
def Packet.answered : Packet → Bool
  | .requestData _ => true
  | .sendData _ => true
  | _ => false

/-! ## When a node was last heard -/

namespace EdgeAwareClientApplication

variable {s s' : EdgeAwareClientApplication}

/-- The time of the last advertisement of `x`, if it is in the local group. -/
def lastHeard (s : EdgeAwareClientApplication) (x : NodeId) : Option ℕ :=
  (s.localGroup.find? x).map NodeEntry.recentTime

/-- What `CheckHeartbeats` at `now` prunes. -/
def stale (now t : ℕ) : Prop := ((now % 2 ^ 32 : ℕ) : ℤ) - (t : ℤ) ≥ heartbeatTimeout

instance (now t : ℕ) : Decidable (stale now t) := inferInstanceAs (Decidable (_ ≥ _))

def nextHeard (s : EdgeAwareClientApplication) (now : ℕ) (x : NodeId) : Input → Option ℕ
  | .receiveData (.advert info) => if x = info.senderId then some now else s.lastHeard x
  | .checkHeartbeats => (s.lastHeard x).filter fun t => ¬ stale now t
  | _ => s.lastHeard x

/-- **The local group after a handler.** -/
theorem Reacts.nextHeard {now : ℕ} {input : Input} (h : Reacts now input s s')
    (hformed : ∀ x, input = .receiveData x → x.elementIds.Nodup ∧ ∀ e ∈ x.elementIds, (element? e).isSome)
    (x : NodeId) : s'.lastHeard x = s.nextHeard now x input := by
  cases h with
  | reject outside =>
    obtain ⟨e, he, hnone⟩ := outside
    have hsome := (hformed _ rfl).2 e he
    rw [hnone] at hsome
    cases hsome
  | refuse => rfl
  | advertise => rfl
  | agree begins =>
    unfold lastHeard
    rw [begins.requests.localGroup]
    rfl
  | prune =>
    simp only [EdgeAwareClientApplication.nextHeard, lastHeard, checkHeartbeats,
      Lib.SortedMap.find?_filter]
    cases s.localGroup.find? x with
    | none => rfl
    | some node =>
      by_cases hstale : stale now node.recentTime
      · simp only [Option.map_some, Option.filter_some, hstale, not_true_eq_false, decide_false]
        rw [if_neg (by simpa [stale] using hstale)]
        rfl
      · simp only [Option.map_some, Option.filter_some, hstale, not_false_eq_true, decide_true, if_true]
        rw [if_pos (by simpa [stale] using hstale)]
        rfl
  | @learn _ _ info pairs advertised requests kept =>
    simp only [EdgeAwareClientApplication.nextHeard, lastHeard, requests.localGroup,
      Lib.SortedMap.find?_assign]
    split
    · rfl
    · rfl
  | reply => rfl
  | adopt => rfl
  | credit => rfl

/-- **A handler throws** when it looks up a sender that is not in the local group, and
only then. -/
theorem handle_cases (now : ℕ) (input : Input) (hformed : ∀ x, input = .receiveData x →
    x.elementIds.Nodup ∧ ∀ e ∈ x.elementIds, (element? e).isSome) :
    (∃ s', s.handle now input = .ok s' ∧
      ∀ x, input = .receiveData x → x.answered = true → ∃ t, s.lastHeard x.senderId = some t) ∨
    ∃ s' x, s.handle now input = .error s' ∧ input = .receiveData x ∧ x.answered = true ∧
      s.lastHeard x.senderId = none := by
  have hquiet : ∀ {s' : EdgeAwareClientApplication}, s.handle now input = .ok s' →
      (∀ x, input = .receiveData x → x.answered = false) →
      ∃ s', s.handle now input = .ok s' ∧
        ∀ x, input = .receiveData x → x.answered = true → ∃ t, s.lastHeard x.senderId = some t := by
    intro s' hs' hno
    refine ⟨s', hs', fun x hx hanswered => ?_⟩
    rw [hno x hx] at hanswered
    cases hanswered
  cases input with
  | sendAdvertisement => exact Or.inl (hquiet rfl (by simp))
  | checkHeartbeats => exact Or.inl (hquiet rfl (by simp))
  | getNearbyElements near =>
    obtain ⟨s', hs', -⟩ := getNearbyElements_ok near s
    exact Or.inl (hquiet hs' (by simp))
  | receiveData x =>
    have hsome := (hformed x rfl).2
    cases x with
    | advert info =>
      rcases receiveAdvert_cases (s := s) now info with ⟨⟨e, he, hnone⟩, -⟩ | ⟨s', hs', -⟩
      · have he' := hsome e he
        rw [hnone] at he'
        cases he'
      · refine Or.inl (hquiet hs' ?_)
        rintro x hx
        injection hx with hx
        rw [← hx]
        rfl
    | requestData info =>
      obtain ⟨i, hi⟩ := Option.isSome_iff_exists.1 (hsome info.elementId (List.mem_singleton_self _))
      simp only [handle, receiveData, receiveRequestData]
      cases hf : s.localGroup.find? info.senderId with
      | none => exact Or.inr ⟨s, _, rfl, rfl, rfl, by simp [lastHeard, Packet.senderId, hf]⟩
      | some node =>
        simp only [sendData, hi]
        refine Or.inl ⟨_, rfl, ?_⟩
        rintro x hx -
        injection hx with hx
        exact ⟨node.recentTime, by simp [lastHeard, ← hx, Packet.senderId, hf]⟩
    | sendData info =>
      obtain ⟨i, hi⟩ := Option.isSome_iff_exists.1 (hsome info.elementId (List.mem_singleton_self _))
      have hgroup : (s.setElement i (adopt s.nodeId info)).localGroup = s.localGroup := rfl
      simp only [handle, receiveData, receiveSendData, hi, hgroup]
      cases hf : s.localGroup.find? info.senderId with
      | none =>
        -- it throws after it has taken over the copy
        exact Or.inr ⟨_, _, rfl, rfl, rfl, by simp [lastHeard, Packet.senderId, hf]⟩
      | some node =>
        refine Or.inl ⟨_, rfl, ?_⟩
        rintro x hx -
        injection hx with hx
        exact ⟨node.recentTime, by simp [lastHeard, ← hx, Packet.senderId, hf]⟩
    | ack info =>
      obtain ⟨i, hi⟩ := Option.isSome_iff_exists.1 (hsome info.elementId (List.mem_singleton_self _))
      have hok : s.handle now (.receiveData (.ack info)) =
          .ok (s.setElement i (credit (s.agreementInformation i) info.senderId)) := by
        simp only [handle, receiveData, receiveACK, hi]
      refine Or.inl (hquiet hok ?_)
      rintro x hx
      injection hx with hx
      rw [← hx]
      rfl

end EdgeAwareClientApplication

namespace World

variable {w : World n}

/-- When node `a` last heard node `c`, after the event. -/
def nextHeard (net : Net n) (w : World n) (ev : Event n) (a : Fin n) (x : NodeId) : Option ℕ :=
  match w.input net ev with
  | some (b, input) =>
    if a = b then (w.node a).nextHeard w.now x input else (w.node a).lastHeard x
  | none => (w.node a).lastHeard x

theorem Wired.nextHeard (h : w.Wired net) (ev : Event n) (a : Fin n) (x : NodeId) :
    ((w.step net ev).node a).lastHeard x = w.nextHeard net ev a x := by
  unfold World.nextHeard
  rcases step_reacts net w ev with ⟨hinput, hnode, -⟩ | ⟨b, input, s, hinput, hreacts, hnode, -⟩
  · rw [hinput, hnode]
  · rw [hinput, hnode]
    by_cases hab : a = b
    · subst hab
      have hnext := hreacts.nextHeard (h.formed hinput) x
      simp only [put_node_self, if_pos]
      exact hnext
    · simp only [put_node_ne hab, if_neg hab]

theorem nextHeard_same {ev : Event n} {b : Fin n} {x : NodeId}
    (hadvert : ∀ info : AdvertMessage, info.senderId = x →
      w.input net ev ≠ some (b, .receiveData (.advert info)))
    (hprune : w.input net ev ≠ some (b, .checkHeartbeats)) :
    w.nextHeard net ev b x = (w.node b).lastHeard x := by
  unfold nextHeard
  cases hinput : w.input net ev with
  | none => rfl
  | some ci =>
    obtain ⟨c, input⟩ := ci
    simp only
    split
    swap
    · rfl
    rename_i hbc
    subst hbc
    cases input with
    | sendAdvertisement => rfl
    | getNearbyElements near => rfl
    | checkHeartbeats => exact absurd hinput hprune
    | receiveData p =>
      cases p with
      | advert info =>
        have hne : x ≠ info.senderId := fun heq => hadvert info heq.symm hinput
        simp only [EdgeAwareClientApplication.nextHeard, if_neg hne]
      | requestData info => rfl
      | sendData info => rfl
      | ack info => rfl

theorem step_now (net : Net n) (w : World n) (ev : Event n) : w.now ≤ (w.step net ev).now := by
  unfold step
  split
  · exact le_rfl
  split
  · unfold elapse
    split
    · exact Nat.le_add_right _ _
    · exact le_rfl
  · split
    · exact le_rfl
    · exact le_rfl

/-- **A step throws** when it hands over a packet whose sender is looked up in vain. -/
theorem Wired.step_aborted (h : w.Wired net) (habort : w.aborted = false) (ev : Event n) :
    (w.step net ev).aborted = false ↔ ∀ b x, w.input net ev = some (b, .receiveData x) →
      x.answered = true → ∃ t, (w.node b).lastHeard x.senderId = some t := by
  unfold World.step
  rw [if_neg (by rw [habort]; exact Bool.false_ne_true)]
  cases hinput : w.input net ev with
  | none =>
    refine ⟨fun _ b x hb => (by cases hb), fun _ => ?_⟩
    simp only
    unfold elapse
    split
    · exact habort
    · exact habort
  | some bi =>
    obtain ⟨b, input⟩ := bi
    -- an answer to a sender that is not in the local group is what throws
    rcases handle_cases (s := w.node b) w.now input (h.formed hinput) with
      ⟨s', hs', hall⟩ | ⟨s', x, hs', hx, hanswered, hnone⟩
    · simp only [hs']
      refine ⟨fun _ c x hc => ?_, fun _ => habort⟩
      obtain ⟨rfl, rfl⟩ := Prod.mk.inj (Option.some.inj hc)
      exact hall x rfl
    · simp only [hs']
      refine ⟨fun hfalse => absurd hfalse (by simp), fun hall => ?_⟩
      obtain ⟨t, ht⟩ := hall b x (by rw [hx]) hanswered
      rw [hnone] at ht
      cases ht

end World

/-! ## Runs -/

variable {es : List (Event n)}

/-- Node `b` has been handed an advertisement of `x` by event `j`, and has pruned nothing
that old in the events up to `k`. -/
structure HeardSince (net : Net n) (es : List (Event n)) (k : ℕ) (b : Fin n) (x : NodeId) (j : ℕ) :
    Prop where
  before : j < k
  advert : ∃ (hj : j < es.length) (info : AdvertMessage),
    (wAt net es j).input net es[j] = some (b, .receiveData (.advert info)) ∧ info.senderId = x
  fresh : ∀ m (hm : m < es.length), j < m → m < k →
    (wAt net es m).input net es[m] = some (b, .checkHeartbeats) →
    ¬ stale (wAt net es m).now (wAt net es j).now

def Heard (net : Net n) (es : List (Event n)) (k : ℕ) (b : Fin n) (x : NodeId) : Prop :=
  ∃ j, HeardSince net es k b x j

theorem now_mono {j k : ℕ} (hjk : j ≤ k) : (wAt net es j).now ≤ (wAt net es k).now :=
  Lib.stateAt_mono (R := fun v w : World n => v.now ≤ w.now) (fun _ => le_rfl)
    (fun _ _ _ => le_trans) (fun _ _ => World.step_now net _ _) hjk

/-- What the next event leaves of an advertisement that came before it. -/
theorem heardSince_succ {k j : ℕ} {b : Fin n} {x : NodeId} (hj : j < k) :
    HeardSince net es (k + 1) b x j ↔ HeardSince net es k b x j ∧
      ∀ hk : k < es.length, (wAt net es k).input net es[k] = some (b, .checkHeartbeats) →
        ¬ stale (wAt net es k).now (wAt net es j).now := by
  constructor
  · intro h
    exact ⟨⟨hj, h.advert, fun m hm hjm hmk => h.fresh m hm hjm (by omega)⟩,
      fun hk => h.fresh k hk hj (by omega)⟩
  · rintro ⟨h, hlast⟩
    refine ⟨by omega, h.advert, fun m hm hjm hmk => ?_⟩
    rcases Nat.lt_or_ge m k with hlt | hge
    · exact h.fresh m hm hjm hlt
    · obtain rfl : m = k := by omega
      exact hlast hm

/-- The entry of a local group and the advertisements it comes from. -/
structure Remembers (net : Net n) (es : List (Event n)) (k : ℕ) (b : Fin n) (x : NodeId) : Prop where
  sound : ∀ t, ((wAt net es k).node b).lastHeard x = some t →
    ∃ j, HeardSince net es k b x j ∧ (wAt net es j).now = t
  complete : ∀ j, HeardSince net es k b x j →
    ∃ t, ((wAt net es k).node b).lastHeard x = some t ∧ (wAt net es j).now ≤ t

theorem stale_mono {now t t' : ℕ} (h : t ≤ t') (hstale : stale now t') : stale now t := by
  unfold stale at *
  omega

/-- An event that neither hands an advertisement of `x` to `b` nor prunes there. -/
theorem Remembers.keep {k : ℕ} {b : Fin n} {x : NodeId} (h : Remembers net es k b x)
    (hsame : ((wAt net es (k + 1)).node b).lastHeard x = ((wAt net es k).node b).lastHeard x)
    (hadvert : ∀ (hk : k < es.length) (info : AdvertMessage), info.senderId = x →
      (wAt net es k).input net es[k] ≠ some (b, .receiveData (.advert info)))
    (hprune : ∀ hk : k < es.length, (wAt net es k).input net es[k] ≠ some (b, .checkHeartbeats)) :
    Remembers net es (k + 1) b x where
  sound := by
    intro t ht
    rw [hsame] at ht
    obtain ⟨j, hj, hnow⟩ := h.sound t ht
    exact ⟨j, (heardSince_succ hj.before).2 ⟨hj, fun hk hcheck => absurd hcheck (hprune hk)⟩, hnow⟩
  complete := by
    intro j hj
    rw [hsame]
    have hlt : j < k := by
      rcases Nat.lt_succ_iff_lt_or_eq.1 hj.before with hlt | rfl
      · exact hlt
      · obtain ⟨hk, info, hinput, hid⟩ := hj.advert
        exact absurd hinput (hadvert hk info hid)
    exact h.complete j ((heardSince_succ hlt).1 hj).1

/-- An advertisement of `x` that is handed to `b`. -/
theorem remembers_advert {k : ℕ} (hk : k < es.length) {b : Fin n} {info : AdvertMessage}
    (hinput : (wAt net es k).input net es[k] = some (b, .receiveData (.advert info))) :
    Remembers net es (k + 1) b info.senderId := by
  have hnext : ((wAt net es (k + 1)).node b).lastHeard info.senderId = some (wAt net es k).now := by
    rw [wAt_succ net es hk, (wired_wAt net es k).nextHeard]
    simp only [World.nextHeard, hinput, if_pos, EdgeAwareClientApplication.nextHeard]
  constructor
  · intro t ht
    rw [hnext] at ht
    refine ⟨k, ⟨Nat.lt_succ_self k, ⟨hk, info, hinput, rfl⟩, fun m _ hkm hmk => ?_⟩, Option.some.inj ht⟩
    omega
  · intro j hj
    exact ⟨_, hnext, now_mono (Nat.le_of_lt_succ hj.before)⟩

/-- A pruning at `b`. -/
theorem Remembers.prune {k : ℕ} (hk : k < es.length) {b : Fin n} {x : NodeId}
    (h : Remembers net es k b x)
    (hinput : (wAt net es k).input net es[k] = some (b, .checkHeartbeats)) :
    Remembers net es (k + 1) b x := by
  have hnext : ((wAt net es (k + 1)).node b).lastHeard x =
      (((wAt net es k).node b).lastHeard x).filter fun t => ¬ stale (wAt net es k).now t := by
    rw [wAt_succ net es hk, (wired_wAt net es k).nextHeard]
    simp only [World.nextHeard, hinput, if_pos, EdgeAwareClientApplication.nextHeard]
  constructor
  · intro t ht
    rw [hnext, Option.filter_eq_some_iff] at ht
    obtain ⟨j, hj, rfl⟩ := h.sound t ht.1
    exact ⟨j, (heardSince_succ hj.before).2 ⟨hj, fun _ _ => by simpa using ht.2⟩, rfl⟩
  · intro j hj
    have hlt : j < k := by
      rcases Nat.lt_succ_iff_lt_or_eq.1 hj.before with hlt | rfl
      · exact hlt
      · obtain ⟨_, info, hadvert, -⟩ := hj.advert
        rw [hinput] at hadvert
        cases hadvert
    obtain ⟨hbefore, hfresh⟩ := (heardSince_succ hlt).1 hj
    -- the entry is at least as young as the advertisement, so it is kept
    obtain ⟨t, ht, hle⟩ := h.complete j hbefore
    refine ⟨t, ?_, hle⟩
    rw [hnext, Option.filter_eq_some_iff]
    have hnot : ¬ stale (wAt net es k).now t := fun hstale => hfresh hk hinput (stale_mono hle hstale)
    exact ⟨ht, by simpa using hnot⟩

/-- **The local groups hold what has been heard**, with the time of the last time. -/
theorem remembers (net : Net n) (es : List (Event n)) (k : ℕ) (b : Fin n) (x : NodeId) :
    Remembers net es k b x := by
  induction k with
  | zero =>
    refine ⟨fun t ht => ?_, fun j hj => absurd hj.before (Nat.not_lt_zero j)⟩
    rw [wAt, Lib.stateAt_zero] at ht
    cases ht
  | succ k ih =>
    by_cases hk : k < es.length
    · by_cases hadvert : ∃ info, info.senderId = x ∧
          (wAt net es k).input net es[k] = some (b, .receiveData (.advert info))
      · obtain ⟨info, rfl, hinput⟩ := hadvert
        exact remembers_advert hk hinput
      · by_cases hprune : (wAt net es k).input net es[k] = some (b, .checkHeartbeats)
        · exact ih.prune hk hprune
        · refine ih.keep ?_ (fun _ info hid hinput => hadvert ⟨info, hid, hinput⟩) fun _ => hprune
          rw [wAt_succ net es hk, (wired_wAt net es k).nextHeard]
          exact World.nextHeard_same (fun info hid hinput => hadvert ⟨info, hid, hinput⟩) hprune
    · have hend : wAt net es (k + 1) = wAt net es k := Lib.stateAt_end (not_lt.1 hk)
      exact ih.keep (by rw [hend]) (fun h => absurd h hk) fun h => absurd h hk

theorem lastHeard_iff (net : Net n) (es : List (Event n)) (k : ℕ) (b : Fin n) (x : NodeId) :
    (∃ t, ((wAt net es k).node b).lastHeard x = some t) ↔ Heard net es k b x := by
  constructor
  · rintro ⟨t, ht⟩
    obtain ⟨j, hj, -⟩ := (remembers net es k b x).sound t ht
    exact ⟨j, hj⟩
  · rintro ⟨j, hj⟩
    obtain ⟨t, ht, -⟩ := (remembers net es k b x).complete j hj
    exact ⟨t, ht⟩

/-- **A run never throws** if and only if the sender of every REQUEST_DATA and SEND_DATA
that is handled has been heard by its receiver, and not been pruned since. -/
theorem never_aborts (net : Net n) (es : List (Event n)) :
    (∀ k, (wAt net es k).aborted = false) ↔ ∀ k (hk : k < es.length) b x,
      (wAt net es k).input net es[k] = some (b, .receiveData x) → x.answered = true →
      Heard net es k b x.senderId := by
  constructor
  · intro h k hk b x hinput hanswered
    have hstep := h (k + 1)
    rw [wAt_succ net es hk] at hstep
    rw [← lastHeard_iff]
    exact ((wired_wAt net es k).step_aborted (h k) es[k]).1 hstep b x hinput hanswered
  · intro h k
    induction k with
    | zero => rw [wAt, Lib.stateAt_zero]; rfl
    | succ k ih =>
      rcases wAt_succ_cases net es k with ⟨hk, heq⟩ | heq
      · rw [heq, (wired_wAt net es k).step_aborted ih]
        intro b x hinput hanswered
        rw [lastHeard_iff]
        exact h k hk b x hinput hanswered
      · rw [heq]
        exact ih

/-- Node 0 starts a copy and advertises it; node 1, which it has not heard, asks for it. -/
def stranger : List (Event 2) :=
  [.getNearbyElements 0 lastNear, .sendAdvertisement 0, .receiveData 1 0,
    .getNearbyElements 1 lastNear, .receiveData 0 1]

set_option maxRecDepth 10000 in
/-- **A request of a stranger throws.** -/
theorem request_of_a_stranger : ¬ ∀ k, (wAt duo stranger k).aborted = false :=
  fun h => absurd (h 5) (by decide)

end EdgeConsensus.Peer
