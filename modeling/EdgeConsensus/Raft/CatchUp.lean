import EdgeConsensus.Lib.Probing
import EdgeConsensus.Raft.CommitRule

/-!
# Catching up a follower

A leader brings a follower up to date entry by entry: on a refusal `next_index` goes
one back, on a success one on. `exchange` is one such round between the two loops, with
the messages that they hand to their talkers and no others. Each exchange is a probe of
the abstract algorithm (`exchange_probes`), so catching up ends with the leader's log
at the follower: `catch_up`.
-/

namespace EdgeConsensus.Raft

variable {n : ℕ}

namespace RaftNode

/-- The AppendEntries message for node `f` among those that a node has handed to its talker. -/
def offered (s : RaftNode n) (f : Fin n) : Option (Message n) :=
  s.talker.find? fun m => m.type = .appendEntries && m.base.receiver = some f

/-- What has been handed to the talker is sent. -/
def flush (s : RaftNode n) : RaftNode n := { s with talker := [] }

/-- Only node `f` has not been heard from for a while. -/
def resendTo (f : Fin n) : Timers n := { resend := fun i => i = f }

/-- **One exchange**: the follower handles the AppendEntries message that the leader has sent
it, and the leader the answer. Without such a message there is none. -/
def exchange (f : Fin n) (p : RaftNode n × RaftNode n) : Option (RaftNode n × RaftNode n) := do
  let m ← p.1.offered f
  let follower ← p.2.flush.loop {} (some m)
  let answer ← follower.talker.head?
  let leader ← p.1.flush.loop {} (some answer)
  return (leader, follower)

/-- `r` exchanges in a row. -/
def exchanges (f : Fin n) : ℕ → RaftNode n × RaftNode n → Option (RaftNode n × RaftNode n)
  | 0, p => some p
  | r + 1, p => do exchanges f r (← exchange f p)

variable {s s' : RaftNode n} {m : AppendEntriesMessage n} {f : Fin n} {k : ℕ}

/-! ## The two loops -/

/-- A follower's round that takes an AppendEntries message and nothing else. -/
theorem loop_appendEntries (hf : s.frame = .follower) (hr : s.currentRole = .follower)
    (hd : m.direction = .request) (ht : m.type = .appendEntries) :
    s.loop {} (some (.appendEntries m)) = s.followerAppendEntries m := by
  have hhandle : s.followerHandle (.appendEntries m) = s.followerAppendEntries m := by
    unfold followerHandle
    simp [Message.direction, Message.base, hd, ht]
  rw [loop_follower hf hr]
  unfold followerLoop
  rw [Option.elim_some, hhandle]
  cases s.followerAppendEntries m with
  | none => rfl
  | some u => rfl

theorem foldlM_resend_none (l : List (Fin n)) : l.foldlM (resend {}) s = some s := by
  induction l with
  | nil => rfl
  | cons i l ih =>
    have hone : resend {} s i = some s := by
      unfold resend
      cases s.nextIndex i with
      | none => rfl
      | some k => rfl
    rw [List.foldlM_cons, hone]
    exact ih

/-- A leader's round that takes an Acknowledge and nothing else. -/
theorem loop_acknowledge (hp : s.presides = true) (hq : s.clientQueue = []) (hd : m.direction = .response)
    (ht : m.type = .acknowledge) :
    s.loop {} (some (.appendEntries m)) = s.leaderAcknowledge m := by
  simp only [presides, Bool.and_eq_true, decide_eq_true_eq] at hp
  rw [loop_leader hp.1 hp.2]
  unfold leaderLoop
  simp only [Bool.false_eq_true, if_false, Option.elim_some, leaderHandle_acknowledge hd ht,
    foldlM_resend_none, Option.bind_eq_bind, Option.bind_some]
  cases h : s.leaderAcknowledge m with
  | none => rfl
  | some u =>
    obtain ⟨out, -, -, -, hqueue, -, -, hframe⟩ := hands_leaderAcknowledge h
    rw [hp.1] at hframe
    rw [hq] at hqueue
    simp [hframe, leaderClientRequest, hqueue]

/-! ## The acknowledgement -/

/-- The next index after an acknowledgement. -/
def nextAfter (k : ℕ) (success : Bool) : ℕ :=
  if success then k + 1 else if k ≠ 1 then k - 1 else k

/-- Only a success leads past the end. -/
theorem nextAfter_past {len : ℕ} {success : Bool} (hk : k < len) (h : len ≤ nextAfter k success) :
    success = true ∧ k + 1 = len := by
  cases success with
  | true =>
    have hle : len ≤ k + 1 := h
    exact ⟨rfl, by omega⟩
  | false =>
    simp only [nextAfter, Bool.false_eq_true, if_false] at h
    split at h
    · omega
    · omega

/-- **What a leader sends on an acknowledgement**: the entry at the next index, if there is one,
and Committal messages. -/
theorem acknowledge_sends (hk : s.nextIndex m.sender = some k) (h : s.leaderAcknowledge m = some s')
    {next : ℕ} (hnext : next = nextAfter k (m.results.success == some true)) :
    s'.myId = s.myId ∧
      s'.nextIndex = Function.update s.nextIndex m.sender (if next > s.logMaxIndex then none else some next) ∧
      ∃ sent told, s'.talker = s.talker ++ sent ++ told ∧ (∀ o ∈ told, o.type = .committal) ∧
        ((next > s.logMaxIndex ∧ sent = []) ∨ (next ≤ s.logMaxIndex ∧
          ∃ j prev e, next = j + 1 ∧ s.log[j]? = some prev ∧ s.log[next]? = some e ∧
            sent = [s.appendEntriesMessage j prev.term e m.sender])) := by
  unfold leaderAcknowledge at h
  simp only [hk, Option.bind_eq_bind, Option.bind_eq_some_iff] at h
  obtain ⟨⟨u, next'⟩, hu, v, hv, h⟩ := h
  obtain ⟨hnext', rfl⟩ := ackIndex_eq hk hu
  obtain rfl : next' = next := hnext'.trans hnext.symm
  -- the step of `sendNext`
  have hsend : v.myId = s.myId ∧
      v.nextIndex = Function.update s.nextIndex m.sender (if next' > s.logMaxIndex then none else some next') ∧
      ∃ sent, v.talker = s.talker ++ sent ∧ ((next' > s.logMaxIndex ∧ sent = []) ∨
        (next' ≤ s.logMaxIndex ∧ ∃ j prev e, next' = j + 1 ∧ s.log[j]? = some prev ∧
          s.log[next']? = some e ∧ sent = [s.appendEntriesMessage j prev.term e m.sender])) := by
    have hmax : ∀ M N, logMaxIndex { s with matchIndex := M, nextIndex := N } = s.logMaxIndex :=
      fun _ _ => rfl
    unfold sendNext at hv
    simp only [hmax] at hv
    split at hv
    · rename_i hgt
      obtain rfl := Option.some.inj hv
      rw [if_pos hgt]
      exact ⟨rfl, Function.update_idem _ _ _, [], by simp, Or.inl ⟨hgt, rfl⟩⟩
    · rename_i hgt
      simp only [Option.bind_eq_bind, Option.bind_eq_some_iff, before_eq_some, Option.some.injEq,
        Option.pure_def] at hv
      obtain ⟨j, hj, prev, hprev, e, he, rfl⟩ := hv
      rw [if_neg hgt]
      exact ⟨rfl, rfl, _, rfl, Or.inr ⟨by omega, j, prev, e, hj, hprev, he, rfl⟩⟩
  obtain ⟨hid, hindex, sent, htalker, hsent⟩ := hsend
  rcases commitMatched_cases h with ⟨-, rfl⟩ | ⟨-, hc⟩
  · exact ⟨hid, hindex, sent, [], by rw [htalker, List.append_nil], by simp, hsent⟩
  · obtain ⟨e, -, rfl⟩ := broadcastCommmitEntries_eq hc
    refine ⟨hid, hindex, sent, _, by rw [← htalker], fun o ho => ?_, hsent⟩
    obtain ⟨i, -, rfl⟩ := List.mem_map.1 ho
    rfl

/-! ## One exchange is one probe -/

/-- A leader has sent node `f` its entry at `k`, behind the entry before. -/
structure Offering (s : RaftNode n) (f : Fin n) (k : ℕ) : Prop where
  next : s.nextIndex f = some k
  offers : ∃ m j prev e, s.offered f = some (.appendEntries m) ∧ m.type = .appendEntries ∧
    m.direction = .request ∧ m.term = s.currentTerm ∧ k = j + 1 ∧ s.log[j]? = some prev ∧
    s.log[k]? = some e ∧ m.prevLogIndex = some j ∧ m.prevLogTerm = some prev.term ∧ m.entries = some e

/-- A leader with log `L` and no request to take up, and its follower `f` with copy `F`. -/
structure Paired (L : List Entry) (f : Fin n) (F : List Entry) (leader follower : RaftNode n) : Prop where
  log : leader.log = L
  presides : leader.presides = true
  queue : leader.clientQueue = []
  tracks : leader.Tracks
  frame : follower.frame = .follower
  role : follower.currentRole = .follower
  myId : follower.myId = f
  copy : follower.log = F
  term : follower.currentTerm ≤ leader.currentTerm

/-- **A follower's answer** to an entry behind index `j`: whether it has accepted it. -/
theorem answers {j t : ℕ} {e : Entry} (hf : s.frame = .follower) (hr : s.currentRole = .follower)
    (hd : m.direction = .request) (ht : m.type = .appendEntries) (hterm : s.currentTerm ≤ m.term)
    (hj : m.prevLogIndex = some j) (hjt : m.prevLogTerm = some t) (he : m.entries = some e) :
    ∃ u a, s.flush.loop {} (some (.appendEntries m)) = some u ∧ u.talker = [.appendEntries a] ∧
      a.type = .acknowledge ∧ a.direction = .response ∧ a.sender = s.myId ∧
      (a.results.success == some true) = s.verifyEntry j t ∧
      u.log = (if s.verifyEntry j t then s.log.take (j + 1) ++ [e] else s.log) ∧
      u.frame = .follower ∧ u.currentRole = .follower ∧ u.myId = s.myId ∧
      u.currentTerm = s.currentTerm := by
  have hloop : s.flush.loop {} (some (.appendEntries m)) = s.flush.followerAppendEntries m :=
    loop_appendEntries hf hr hd ht
  have hverify : s.flush.verifyEntry j t = s.verifyEntry j t := rfl
  obtain ⟨u, hu⟩ := followerAppendEntries_returns (s := s.flush) hj hjt he
  rw [hloop, hu]
  -- it refuses a stale term, which this is not, or an entry behind one that it does not have
  rcases followerAppendEntries_cases hu with ⟨rfl, hlt | ⟨j', t', hj', ht', hno⟩⟩ |
    ⟨j', t', e', hj', ht', he', -, hyes, rfl⟩
  · have hge : s.flush.currentTerm ≤ m.term := hterm
    omega
  · obtain rfl : j' = j := Option.some.inj (hj'.symm.trans hj)
    obtain rfl : t' = t := Option.some.inj (ht'.symm.trans hjt)
    rw [hverify] at hno
    rw [hno]
    exact ⟨_, _, rfl, rfl, rfl, rfl, rfl, rfl, rfl, hf, hr, rfl, rfl⟩
  · obtain rfl : j' = j := Option.some.inj (hj'.symm.trans hj)
    obtain rfl : t' = t := Option.some.inj (ht'.symm.trans hjt)
    obtain rfl : e' = e := Option.some.inj (he'.symm.trans he)
    rw [hverify] at hyes
    rw [hyes, if_pos rfl]
    by_cases hc : m.leaderCommit > s.flush.commitIndex
    · rw [if_pos hc]
      exact ⟨_, _, rfl, rfl, rfl, rfl, rfl, rfl, rfl, hf, hr, rfl, rfl⟩
    · rw [if_neg hc]
      exact ⟨_, _, rfl, rfl, rfl, rfl, rfl, rfl, rfl, hf, hr, rfl, rfl⟩

/-- Committal messages are no offers. -/
theorem find?_told {told : List (Message n)} (h : ∀ o ∈ told, o.type = .committal) :
    (told.find? fun m => m.type = .appendEntries && m.base.receiver = some f) = none := by
  refine List.find?_eq_none.2 fun o ho => ?_
  rw [h o ho]
  simp

/-- **An exchange is a probe** at the leader's next index: it goes on in the same way, or the
leader has no more to send. -/
theorem exchange_probes {L F : List Entry} {leader follower : RaftNode n}
    (hp : Paired L f F leader follower) (ho : Offering leader f k) :
    ∃ leader' follower', exchange f (leader, follower) = some (leader', follower') ∧
      Paired L f (Lib.probe Entry.term L (F, k)).1 leader' follower' ∧
      ((Lib.probe Entry.term L (F, k)).2 < L.length →
        Offering leader' f (Lib.probe Entry.term L (F, k)).2) ∧
      (L.length ≤ (Lib.probe Entry.term L (F, k)).2 → leader'.nextIndex f = none ∧
        leader'.offered f = none ∧ leader'.matchIndex f + 1 = L.length) := by
  obtain ⟨hk, m, j, prev, e, hm, ht, hd, hterm, rfl, hprev, he, hmj, hmt, hme⟩ := ho
  obtain ⟨u, a, hu, htalker, hat, had, has, hsuccess, hulog, huf, hur, huid, huterm⟩ :=
    answers hp.frame hp.role hd ht (by rw [hterm]; exact hp.term) hmj hmt hme
  -- the leader handles the answer
  have hsender : a.sender = f := has.trans hp.myId
  have hflush : leader.flush.Tracks := ⟨hp.tracks.log, hp.tracks.next, hp.tracks.matched⟩
  obtain ⟨leader', hl', htracks'⟩ := hflush.acknowledge a
  have hloop : leader.flush.loop {} (some (.appendEntries a)) = some leader' :=
    (loop_acknowledge (s := leader.flush) hp.presides hp.queue had hat).trans hl'
  have hka : leader.flush.nextIndex a.sender = some (j + 1) := by rw [hsender]; exact hk
  obtain ⟨out, -, -, hlog, hqueue, hlterm, hlrole, hlframe⟩ := hands_leaderAcknowledge hl'
  obtain ⟨hid, hindex, sent, told, hsent, htold, hnext⟩ := acknowledge_sends hka hl' rfl
  obtain ⟨hmatch, -⟩ := leaderAcknowledge_commit hl' (by rw [hka]; simp)
  have hllog : leader'.log = L := hlog.trans hp.log
  have hlen : leader.flush.logMaxIndex + 1 = L.length := by
    have hpos : 0 < leader.log.length := List.length_pos_iff.2 hp.tracks.log
    show leader.log.length - 1 + 1 = L.length
    rw [← hp.log]
    omega
  rw [hp.log] at hprev he
  have hjlt := (List.getElem?_eq_some_iff.1 he).1
  -- what the follower verifies is what the probe compares
  have hverify : follower.verifyEntry j prev.term = true ↔ (F[j]?).map Entry.term = (L[j]?).map Entry.term := by
    rw [verifyEntry_iff, hp.copy, hprev]
    rfl
  have hprobe : Lib.probe Entry.term L (F, j + 1) =
      (u.log, nextAfter (j + 1) (a.results.success == some true)) := by
    rw [hulog, hsuccess, hp.copy]
    unfold Lib.probe nextAfter
    simp only [Nat.add_sub_cancel, ← hverify, he, Option.toList_some]
    split
    · rfl
    · rfl
  have hexchange : exchange f (leader, follower) = some (leader', u) := by
    unfold exchange
    simp [hm, hu, htalker, hloop]
  have htalk : leader'.talker = sent ++ told := by rw [hsent]; rfl
  have hnone : told.find? (fun m => m.type = .appendEntries && m.base.receiver = some f) = none :=
    find?_told htold
  rw [hprobe]
  refine ⟨leader', u, hexchange, ?_, fun hlt => ?_, fun hge => ?_⟩
  · refine ⟨hllog, ?_, hqueue.trans hp.queue, htracks', huf, hur, huid.trans hp.myId, rfl, ?_⟩
    · have hpres := hp.presides
      simp only [presides, Bool.and_eq_true, decide_eq_true_eq] at hpres ⊢
      exact ⟨hlframe.trans hpres.1, hlrole.trans hpres.2⟩
    · rw [huterm, hlterm]
      exact hp.term
  · rcases hnext with ⟨hgt, -⟩ | ⟨hle, i, prev', e', hi, hprev', he', rfl⟩
    · have hgt' : nextAfter (j + 1) (a.results.success == some true) > leader.flush.logMaxIndex := hgt
      simp only at hlt
      omega
    · have hnext' : nextAfter (j + 1) (a.results.success == some true) ≤ leader.flush.logMaxIndex := hle
      have hoffer : leader'.offered f = some (leader.flush.appendEntriesMessage i prev'.term e' f) := by
        unfold offered
        rw [htalk, hsender, List.singleton_append,
          List.find?_cons_of_pos (by simp [appendEntriesMessage, Message.type, Message.base])]
      refine ⟨?_, _, i, prev', e', hoffer, rfl, rfl, hlterm.symm, hi, ?_, ?_, rfl, rfl, rfl⟩
      · rw [hindex, hsender, Function.update_self, if_neg (by omega)]
      · rw [hlog]; exact hprev'
      · rw [hlog]; exact he'
  · rcases hnext with ⟨hgt, rfl⟩ | ⟨hle, -⟩
    · refine ⟨?_, ?_, ?_⟩
      · rw [hindex, hsender, Function.update_self, if_pos hgt]
      · unfold offered
        rw [htalk, List.nil_append]
        exact hnone
      · obtain ⟨hyes, hend⟩ := nextAfter_past hjlt hge
        rw [hmatch]
        unfold acknowledged
        rw [hka]
        simp only [hyes, if_true]
        rw [hsender, Function.update_self]
        exact hend
    · have hnext' : nextAfter (j + 1) (a.results.success == some true) ≤ leader.flush.logMaxIndex := hle
      simp only at hge
      omega

/-! ## Catching up -/

/-- Exchanges are probes, as long as the probes are inside the log. -/
theorem exchanges_probe (L : List Entry) :
    ∀ (r : ℕ) (F : List Entry) (k : ℕ) (leader follower : RaftNode n),
      Paired L f F leader follower → Offering leader f k →
      (∀ j ≤ r, ((Lib.probe Entry.term L)^[j] (F, k)).2 < L.length) →
      L.length ≤ ((Lib.probe Entry.term L)^[r + 1] (F, k)).2 →
      ∃ leader' follower', exchanges f (r + 1) (leader, follower) = some (leader', follower') ∧
        Paired L f ((Lib.probe Entry.term L)^[r + 1] (F, k)).1 leader' follower' ∧
        leader'.nextIndex f = none ∧ leader'.offered f = none ∧ leader'.matchIndex f + 1 = L.length := by
  intro r
  induction r with
  | zero =>
    intro F k leader follower hp ho _ hend
    obtain ⟨leader', follower', hex, hp', -, hdone⟩ := exchange_probes hp ho
    refine ⟨leader', follower', ?_, hp', hdone hend⟩
    simp [exchanges, hex]
  | succ r ih =>
    intro F k leader follower hp ho hin hend
    obtain ⟨leader', follower', hex, hp', hnext, -⟩ := exchange_probes hp ho
    have hlt : (Lib.probe Entry.term L (F, k)).2 < L.length := hin 1 (by omega)
    -- the rest of the probes begin where this exchange has ended
    have hin' : ∀ j ≤ r, ((Lib.probe Entry.term L)^[j] (Lib.probe Entry.term L (F, k))).2 < L.length := by
      intro j hj
      rw [← Function.iterate_succ_apply]
      exact hin (j + 1) (by omega)
    rw [Function.iterate_succ_apply] at hend ⊢
    obtain ⟨leader'', follower'', hexs, hrest⟩ := ih _ _ _ _ hp' (hnext hlt) hin' hend
    refine ⟨leader'', follower'', ?_, hrest⟩
    rw [exchanges, hex]
    exact hexs

theorem foldlM_resendTo {l : List (Fin n)} (hf : f ∉ l) : l.foldlM (resend (resendTo f)) s = some s := by
  induction l with
  | nil => rfl
  | cons i l ih =>
    rw [List.mem_cons, not_or] at hf
    have hone : resend (resendTo f) s i = some s := by
      have hi : (resendTo f).resend i = false := by simpa [resendTo] using Ne.symm hf.1
      unfold resend
      cases s.nextIndex i with
      | none => rfl
      | some k => simp [hi]
    rw [List.foldlM_cons, hone]
    exact ih hf.2

/-- **The first entry is sent again** by a leader that has not heard from node `f` for a while. -/
theorem loop_resends {F : List Entry} {follower : RaftNode n} (hp : Paired s.log f F s follower)
    (htalker : s.talker = []) (hk : s.nextIndex f = some k) :
    ∃ u, s.loop (resendTo f) none = some u ∧ Paired s.log f F u follower ∧ Offering u f k := by
  obtain ⟨h0, hlt⟩ := hp.tracks.next f k hk
  obtain ⟨j, prev, e, rfl, hprev, he⟩ := exists_entries h0 hlt
  have hone : resend (resendTo f) s f = some (s.sendAppendEntries j prev.term e f) := by
    unfold resend
    simp [hk, resendTo, before, hprev, he]
  -- only the timer of node `f` has run out, so the others are left alone
  have hall : (List.finRange n).foldlM (resend (resendTo f)) s = some (s.sendAppendEntries j prev.term e f) := by
    obtain ⟨before, after, hsplit⟩ := List.append_of_mem (List.mem_finRange f)
    have hnd := List.nodup_finRange n
    rw [hsplit, List.nodup_append] at hnd
    have hbefore : f ∉ before := fun hmem => hnd.2.2 f hmem f (by simp) rfl
    have hafter : f ∉ after := (List.nodup_cons.1 hnd.2.1).1
    rw [hsplit, List.foldlM_append, foldlM_resendTo hbefore]
    simp only [Option.bind_eq_bind, Option.bind_some, List.foldlM_cons, hone]
    exact foldlM_resendTo hafter
  have hoffer : (s.sendAppendEntries j prev.term e f).offered f =
      some (s.appendEntriesMessage j prev.term e f) := by
    have htalk : (s.sendAppendEntries j prev.term e f).talker = [s.appendEntriesMessage j prev.term e f] := by
      show s.talker ++ _ = _
      rw [htalker, List.nil_append]
    unfold offered
    rw [htalk, List.find?_cons_of_pos (by simp [appendEntriesMessage, Message.type, Message.base])]
  have hpres := hp.presides
  simp only [presides, Bool.and_eq_true, decide_eq_true_eq] at hpres
  refine ⟨s.sendAppendEntries j prev.term e f, ?_,
    ⟨rfl, hp.presides, hp.queue, ⟨hp.tracks.log, hp.tracks.next, hp.tracks.matched⟩, hp.frame, hp.role,
      hp.myId, hp.copy, hp.term⟩,
    hk, _, j, prev, e, hoffer, rfl, rfl, rfl, rfl, hprev, he, rfl, rfl, rfl⟩
  rw [loop_leader hpres.1 hpres.2]
  unfold leaderLoop
  have hbeat : (resendTo f).heartbeat = false := rfl
  simp only [hbeat, Bool.false_eq_true, if_false, hall, Option.bind_eq_bind, Option.bind_some,
    Option.elim_none]
  have hframe : (s.sendAppendEntries j prev.term e f).frame = .leader := hpres.1
  have hqueue : (s.sendAppendEntries j prev.term e f).clientQueue = [] := hp.queue
  simp [hframe, leaderClientRequest, hqueue]

end RaftNode

open RaftNode in
/-- **Catching up ends, with the leader's log at the follower.** -/
theorem catch_up {leader follower : RaftNode n} {f : Fin n} {k : ℕ}
    (hpresides : leader.presides = true) (htracks : leader.Tracks) (hqueue : leader.clientQueue = [])
    (htalker : leader.talker = []) (hk : leader.nextIndex f = some k)
    (hframe : follower.frame = .follower) (hrole : follower.currentRole = .follower)
    (hid : follower.myId = f) (hterm : follower.currentTerm ≤ leader.currentTerm)
    (hfirst : follower.log[0]? = leader.log[0]?)
    (hagree : Lib.Agree Entry.term leader.log follower.log) :
    ∃ leader₀ r leader' follower', leader.loop (resendTo f) none = some leader₀ ∧
      r ≤ k + leader.log.length ∧ exchanges f r (leader₀, follower) = some (leader', follower') ∧
      leader'.nextIndex f = none ∧ leader'.offered f = none ∧ leader'.matchIndex f = leader.logMaxIndex ∧
      leader'.log = leader.log ∧ follower'.log = leader.log := by
  obtain ⟨h0, hlt⟩ := htracks.next f k hk
  have hp : Paired leader.log f follower.log leader follower :=
    ⟨rfl, hpresides, hqueue, htracks, hframe, hrole, hid, rfl, hterm⟩
  obtain ⟨leader₀, hloop, hp₀, ho₀⟩ := loop_resends hp htalker hk
  obtain ⟨r, hr, hend, hin⟩ := Lib.probes_converge hagree hfirst h0 hlt
  -- it begins inside the log, so there is at least one exchange
  cases r with
  | zero =>
    have hkl : k = leader.log.length := congrArg Prod.snd hend
    omega
  | succ r =>
    obtain ⟨leader', follower', hex, hp', hnext, hoffered, hmatch⟩ :=
      exchanges_probe leader.log r follower.log k leader₀ follower hp₀ ho₀
        (fun j hj => (hin j (by omega)).2) (by rw [hend])
    rw [hend] at hp'
    refine ⟨leader₀, r + 1, leader', follower', hloop, hr, hex, hnext, hoffered, ?_, hp'.log, hp'.copy⟩
    unfold logMaxIndex
    omega

/-- Node 0 of two leads in term 2 with a request that node 1 has not got, yields in term 3,
and leads again in term 4: node 1 is three entries behind. -/
def threeBehind : List (Event 2) :=
  elect ++ [.clientRequest 0 (.str "x") (.int 7), .loop 0 {}, .timeout 1, .call 1, .take 0 1 1, .call 0,
    .timeout 0, .call 0, .take 1 0 4, .call 1, .take 0 0 5, .take 0 0 6, .take 0 1 2, .call 0]

set_option maxRecDepth 10000 in
theorem catch_up_threeBehind :
    ∃ leader₀ r leader' follower',
      ((wAt threeBehind 23).node 0).loop (RaftNode.resendTo 1) none = some leader₀ ∧
      r ≤ 3 + ((wAt threeBehind 23).node 0).log.length ∧
      RaftNode.exchanges 1 r (leader₀, (wAt threeBehind 23).node 1) = some (leader', follower') ∧
      leader'.nextIndex 1 = none ∧ leader'.offered 1 = none ∧
      leader'.matchIndex 1 = ((wAt threeBehind 23).node 0).logMaxIndex ∧
      leader'.log = ((wAt threeBehind 23).node 0).log ∧
      follower'.log = ((wAt threeBehind 23).node 0).log := by
  have hagree : Lib.Agree Entry.term ((wAt threeBehind 23).node 0).log ((wAt threeBehind 23).node 1).log := by
    intro i x y _ hy _ j hj
    have hlen : ((wAt threeBehind 23).node 1).log.length = 1 := by decide
    have hi := (List.getElem?_eq_some_iff.1 hy).1
    obtain rfl : j = 0 := by omega
    decide
  exact catch_up (by decide) ((tracked_wAt threeBehind 23).tracks 0 (by decide)) (by decide) (by decide)
    (by decide) (by decide) (by decide) (by decide) (by decide) (by decide) hagree

end EdgeConsensus.Raft
