import EdgeConsensus.Lib.Filing
import EdgeConsensus.Raft.CommitIndex
import EdgeConsensus.Raft.CommitRule

/-!
# Looking up an entry by its id

`check_committed_entry` with an id reads `log_hash`, in which `_append_entry` files every
entry under its id, committed or not; nothing takes an entry out again. So it returns the
entry that the node has appended last, and that is a committed one only where the node
commits it in the same go.

* `loop_edit`: what a round does to the log, the commit index and `log_hash`.
* `lookup_committed`: a lookup by id is right in exactly the runs in which the entry a node
  has committed last with this id is at every step the one it appends, or the one it was.
-/

namespace EdgeConsensus.Raft

variable {n : ℕ}

namespace RaftNode

/-- The entry with this id at the highest committed index of the log. -/
def committedEntry (s : RaftNode n) (idNum : Key) : Option Entry :=
  Lib.lastWith Entry.id idNum (s.log.take (s.commitIndex + 1))

/-! ## What a round does to the log -/

/-- A change of the log: how much of it is kept, what comes behind, and what is committed then. -/
structure Edit where
  kept : ℕ
  entries : List Entry
  commit : ℕ

def noEdit (s : RaftNode n) : Edit := ⟨s.log.length, [], s.commitIndex⟩

/-- The index up to which a leader has committed once it has taken a message. -/
def committing (s : RaftNode n) : Option (Message n) → ℕ
  | some (.appendEntries m) =>
    if m.direction = .response ∧ m.type = .acknowledge ∧ s.nextIndex m.sender ≠ none then
      max s.commitIndex (maxCommittableIndex (s.acknowledged m))
    else s.commitIndex
  | _ => s.commitIndex

/-- The change that a round makes: a leader appends what it takes up, a follower what it accepts. -/
def edit (s : RaftNode n) (incoming : Option (Message n)) : Edit :=
  if s.presides then ⟨s.log.length, s.taking incoming, s.committing incoming⟩
  else match incoming with
    | some (.appendEntries m) =>
      if s.accepts m then
        let p := m.prevLogIndex.getD 0
        ⟨p + 1, m.entries.toList, if m.leaderCommit > s.commitIndex then p else s.commitIndex⟩
      else if s.obeys m then ⟨s.log.length, [], m.prevLogIndex.getD s.commitIndex⟩
      else s.noEdit
    | _ => s.noEdit

/-- The change has been made: `log_hash` files what was appended. -/
structure Edited (s : RaftNode n) (d : Edit) (s' : RaftNode n) : Prop where
  log : s'.log = s.log.take d.kept ++ d.entries
  commit : s'.commitIndex = d.commit
  hash : s'.logHash = Lib.fileAll Entry.id s.logHash d.entries

variable {s s' u v : RaftNode n} {d : Edit} {timers : Timers n} {incoming : Option (Message n)}

theorem edited_same (hlog : s'.log = s.log) (hcommit : s'.commitIndex = s.commitIndex)
    (hhash : s'.logHash = s.logHash) : Edited s s.noEdit s' :=
  ⟨by simp [noEdit, hlog], hcommit, hhash⟩

/-- What the election timer and the way out of a loop change is none of the three. -/
theorem Edited.of_same (h : Edited s d u) (hlog : s'.log = u.log) (hcommit : s'.commitIndex = u.commitIndex)
    (hhash : s'.logHash = u.logHash) : Edited s d s' :=
  ⟨hlog.trans h.log, hcommit.trans h.commit, hhash.trans h.hash⟩

theorem presides_of_frame (hf : s.frame ≠ .leader) : s.presides = false := by
  unfold presides
  simp [hf]

/-! ## Followers and candidates -/

theorem edited_followerRequestVotes (m : RequestVotesMessage n) :
    Edited s s.noEdit (s.followerRequestVotes m) := by
  rw [followerRequestVotes_eq, raiseTerm_eq]
  exact edited_same rfl rfl rfl

theorem edited_followerHeartbeat (m : AppendEntriesMessage n) :
    Edited s s.noEdit (s.followerHeartbeat m) := by
  rcases s.followerHeartbeat_cases m with heq | ⟨request, queue, -, -, heq⟩
  · rw [heq, raiseTerm_eq]
    exact edited_same rfl rfl rfl
  · rw [heq, raiseTerm_eq]
    exact edited_same rfl rfl rfl

theorem edited_followerHandle {m : Message n} (hf : s.frame = .follower) (hr : s.currentRole = .follower)
    (h : s.followerHandle m = some s') : Edited s (s.edit (some m)) s' := by
  have hpres : s.presides = false := presides_of_frame (by simp [hf])
  cases m with
  | requestVotes m =>
    have hedit : s.edit (some (.requestVotes m)) = s.noEdit := by simp [edit, hpres]
    rw [hedit]
    cases followerHandle_cases h with
    | ignore => exact edited_same rfl rfl rfl
    | requestVotes direction => exact edited_followerRequestVotes m
  | appendEntries m =>
    cases hacc : s.accepts m with
    | true =>
      -- accepted: the entry comes behind the one that it names
      have hacc' := hacc
      simp only [accepts, Bool.and_eq_true, decide_eq_true_eq] at hacc'
      obtain ⟨⟨⟨⟨⟨-, -⟩, hdir⟩, htype⟩, hterm⟩, hver⟩ := hacc'
      have hhandle : s.followerAppendEntries m = some s' := by
        unfold followerHandle at h
        simpa [Message.direction, Message.base, hdir, htype] using h
      rcases followerAppendEntries_cases hhandle with ⟨-, hlt | ⟨p, t, hp, hpt, hno⟩⟩ |
        ⟨p, t, e, hp, hpt, he, -, hyes, rfl⟩
      · omega
      · simp [hp, hpt, hno] at hver
      · have hedit : s.edit (some (.appendEntries m)) =
            ⟨p + 1, [e], if m.leaderCommit > s.commitIndex then p else s.commitIndex⟩ := by
          simp [edit, hpres, hacc, hp, he]
        rw [hedit]
        split
        · exact ⟨rfl, rfl, rfl⟩
        · exact ⟨rfl, rfl, rfl⟩
    | false =>
      cases hob : s.obeys m with
      | true =>
        -- obeyed: the index that the message names is committed
        have hob' := hob
        simp only [obeys, Bool.and_eq_true, decide_eq_true_eq] at hob'
        obtain ⟨⟨⟨-, -⟩, hdir⟩, htype⟩ := hob'
        have hhandle : s.followerCommittal m = some s' := by
          unfold followerHandle at h
          simpa [Message.direction, Message.base, hdir, htype] using h
        unfold followerCommittal at hhandle
        simp only [Option.bind_eq_bind, Option.pure_def, Option.bind_eq_some_iff, Option.some.injEq] at hhandle
        obtain ⟨i, hi, t, -, rfl⟩ := hhandle
        have hedit : s.edit (some (.appendEntries m)) = ⟨s.log.length, [], i⟩ := by
          simp [edit, hpres, hacc, hob, hi]
        rw [hedit]
        exact ⟨by simp [commitEntry], rfl, rfl⟩
      | false =>
        have hedit : s.edit (some (.appendEntries m)) = s.noEdit := by simp [edit, hpres, hacc, hob]
        rw [hedit]
        cases followerHandle_cases h with
        | ignore => exact edited_same rfl rfl rfl
        | heartbeat direction type => exact edited_followerHeartbeat m
        | appendEntries direction type run =>
          rcases followerAppendEntries_cases run with ⟨rfl, -⟩ | ⟨p, t, e, hp, hpt, -, hterm, hyes, -⟩
          · exact edited_same rfl rfl rfl
          · simp [accepts, hf, hr, direction, type, hterm, hp, hpt, hyes] at hacc
        | committal direction type index prevTerm =>
          simp [obeys, hf, hr, direction, type] at hob

theorem edited_followerLoop (hf : s.frame = .follower) (hr : s.currentRole = .follower)
    (h : s.followerLoop timers incoming = some s') : Edited s (s.edit incoming) s' := by
  obtain ⟨u, hu, rfl⟩ := followerLoop_cases h
  have hedited : Edited s (s.edit incoming) u := by
    cases incoming with
    | none =>
      obtain rfl : s = u := by simpa using hu
      have hedit : s.edit none = s.noEdit := by simp [edit, presides_of_frame, hf]
      rw [hedit]
      exact edited_same rfl rfl rfl
    | some m => exact edited_followerHandle hf hr hu
  split
  · exact hedited.of_same rfl rfl rfl
  · exact hedited

theorem edited_candidateLoop (votesForMe totalVotes : ℕ) :
    Edited s s.noEdit (s.candidateLoop votesForMe totalVotes timers incoming) := by
  have hedited : Edited s s.noEdit (incoming.elim s (s.candidateHandle votesForMe totalVotes)) := by
    cases incoming with
    | none => exact edited_same rfl rfl rfl
    | some m =>
      rw [Option.elim_some]
      have hcases := candidateHandle_cases (s := s) votesForMe totalVotes m
      generalize s.candidateHandle votesForMe totalVotes m = u at hcases
      cases hcases with
      | ignore => exact edited_same rfl rfl rfl
      | @vote r direction =>
        rcases candidateVote_cases (s := s) votesForMe totalVotes r with hvote | ⟨votes, hvote⟩
        · rw [hvote]
          exact edited_same rfl rfl rfl
        · rw [hvote]
          exact edited_same rfl rfl rfl
      | yield direction term => exact edited_same rfl rfl rfl
      | heartbeat direction type term => exact edited_same rfl rfl rfl
  obtain ⟨u, rfl, hlast | ⟨-, -, hlast⟩⟩ :=
    candidateLoop_cases (s := s) votesForMe totalVotes timers incoming
  · rw [hlast]
    exact hedited
  · rw [hlast]
    exact hedited.of_same rfl rfl rfl

/-- A node that is neither in the loop of a follower nor in that of a leader appends and commits nothing. -/
theorem edit_eq_noEdit (hf : s.frame ≠ .follower ∨ s.currentRole ≠ .follower)
    (hl : s.presides = false) (incoming : Option (Message n)) : s.edit incoming = s.noEdit := by
  have hacc : ∀ m, s.accepts m = false := by
    intro m
    rcases hf with hf | hf
    · simp [accepts, hf]
    · simp [accepts, hf]
  have hob : ∀ m, s.obeys m = false := by
    intro m
    rcases hf with hf | hf
    · simp [obeys, hf]
    · simp [obeys, hf]
  unfold edit
  rw [hl]
  cases incoming with
  | none => rfl
  | some m =>
    cases m with
    | requestVotes m => rfl
    | appendEntries m => simp [hacc, hob]

/-! ## Leaders -/

/-- A leader that goes on leading has appended `es`, and committed up to `c`. -/
structure LeadEdit (s u : RaftNode n) (es : List Entry) (c : ℕ) : Prop where
  edited : Edited s ⟨s.log.length, es, c⟩ u
  queue : u.clientQueue = s.clientQueue
  frame : u.frame = s.frame

theorem leadEdit_same (s : RaftNode n) : LeadEdit s s [] s.commitIndex :=
  ⟨edited_same rfl rfl rfl, rfl, rfl⟩

theorem Edited.broadcast {e : Entry} {es : List Entry} {c : ℕ} (h : Edited s ⟨s.log.length, es, c⟩ u)
    (hb : u.broadcastAppendEntries e = some s') : Edited s ⟨s.log.length, es ++ [e], c⟩ s' := by
  obtain ⟨last, -, rfl⟩ := broadcastAppendEntries_eq hb
  refine ⟨?_, h.commit, ?_⟩
  · show u.log ++ [e] = _
    rw [h.log, List.append_assoc]
  · show Function.update u.logHash e.id (some e) = _
    rw [h.hash, Lib.fileAll_append, Lib.fileAll_singleton]

theorem leadEdit_acknowledge {m : AppendEntriesMessage n} (hd : m.direction = .response)
    (ht : m.type = .acknowledge) (h : s.leaderAcknowledge m = some u) :
    LeadEdit s u [] (s.committing (some (.appendEntries m))) := by
  rcases leaderAcknowledge_cases h with ⟨hnone, rfl⟩ | ⟨k, next, out, hk, -, -, hc⟩
  · have hsame : u.committing (some (.appendEntries m)) = u.commitIndex := by simp [committing, hnone]
    rw [hsame]
    exact leadEdit_same u
  have hcommit : u.commitIndex = s.committing (some (.appendEntries m)) := by
    simp only [committing, hd, ht, hk]
    simpa using (leaderAcknowledge_commit h (by simp [hk])).2
  rcases commitMatched_cases hc with ⟨-, rfl⟩ | ⟨-, hc⟩
  · exact ⟨⟨by simp, hcommit, rfl⟩, rfl, rfl⟩
  · obtain ⟨e, -, rfl⟩ := broadcastCommmitEntries_eq hc
    exact ⟨⟨by simp [commitEntry], hcommit, rfl⟩, rfl, rfl⟩

/-- A leader's handling of a message: it appends the request in it, or it yields. -/
theorem leadEdit_leaderHandle {m : Message n} (h : s.leaderHandle m = some u) :
    (LeadEdit s u m.request?.toList (s.committing (some m)) ∧
        s.taking (some m) = m.request?.toList ++ s.clientQueue.head?.toList) ∨
      ∃ r, u = s.yieldTo r ∧ s.taking (some m) = [] ∧ s.committing (some m) = s.commitIndex := by
  rcases leadsOn_leaderHandle h with ⟨out, hon, htaking⟩ | ⟨r, rfl, hd, hgt, rfl⟩
  · refine Or.inl ⟨?_, htaking⟩
    cases leaderHandle_cases h with
    | ignoreVotes other => exact leadEdit_same s
    | @ignoreEntries m other =>
      have hnone : (Message.appendEntries m).request? = none := by
        simp only [Message.request?, ite_eq_right_iff]
        exact fun h => absurd h.2 (other h.1).2
      have hcommit : s.committing (some (.appendEntries m)) = s.commitIndex := by
        simp only [committing, ite_eq_right_iff]
        exact fun h => absurd h.2.1 (other h.1).1
      rw [hnone, hcommit]
      exact leadEdit_same s
    | @acknowledge m u direction type run =>
      have hnone : (Message.appendEntries m).request? = none := by simp [Message.request?, type]
      rw [hnone]
      exact leadEdit_acknowledge direction type run
    | @clientRequest m e u direction type entries run =>
      have hsome : (Message.appendEntries m).request? = some e := by
        simp [Message.request?, direction, type, entries]
      have hcommit : s.committing (some (.appendEntries m)) = s.commitIndex := by simp [committing, type]
      rw [hsome, hcommit]
      exact ⟨(leadEdit_same s).edited.broadcast run, hon.queue, hon.frame⟩
    | yield direction term =>
      -- a leader that yields is not in its loop any more
      exact ⟨⟨by simp [yieldTo, leave, setCurrentRole, sendVote, sendMessage, incrementTerm, Message.request?],
        rfl, rfl⟩, hon.queue, hon.frame⟩
  · exact Or.inr ⟨r, rfl, by simp [taking, hd, hgt], rfl⟩

theorem edited_leaderLoop (hp : s.presides = true) (h : s.leaderLoop timers incoming = some s') :
    Edited s (s.edit incoming) s' := by
  have hedit : s.edit incoming = ⟨s.log.length, s.taking incoming, s.committing incoming⟩ := by
    simp [edit, hp]
  have hframe : s.frame ≠ .run := by
    simp only [presides, Bool.and_eq_true, decide_eq_true_eq] at hp
    simp [hp.1]
  rw [hedit]
  obtain ⟨out, v, u, -, hv, hu, hlast⟩ := leaderLoop_cases h
  -- heartbeats and resends touch none of the three
  have hhandle : (LeadEdit s u (incoming.bind Message.request?).toList (s.committing incoming) ∧
      s.taking incoming = (incoming.bind Message.request?).toList ++ s.clientQueue.head?.toList) ∨
      ∃ r, u = v.yieldTo r ∧ s.taking incoming = [] ∧ s.committing incoming = s.commitIndex := by
    subst hv
    cases incoming with
    | none =>
      obtain rfl : { s with talker := s.talker ++ out } = u := by simpa using hu
      exact Or.inl ⟨⟨edited_same rfl rfl rfl, rfl, rfl⟩, by simp [taking]⟩
    | some m =>
      rcases leadEdit_leaderHandle hu with ⟨⟨⟨hlog, hcommit, hhash⟩, hqueue, hfr⟩, htaking⟩ |
        ⟨r, hy, htaking, hcommit⟩
      · exact Or.inl ⟨⟨⟨hlog, hcommit, hhash⟩, hqueue, hfr⟩, htaking⟩
      · exact Or.inr ⟨r, hy, htaking, hcommit⟩
  rcases hhandle with ⟨⟨hedited, hqueue, hfr⟩, htaking⟩ | ⟨r, rfl, htaking, hcommit⟩
  · rcases hlast with ⟨hrun, -⟩ | ⟨-, hlast⟩
    · exact absurd (hfr.symm.trans hrun) hframe
    rw [htaking]
    -- a request of its own comes last
    rcases leaderClientRequest_cases hlast with ⟨hq, rfl⟩ | ⟨request, queue, hq, hlast⟩
    · rw [hqueue] at hq
      simpa [hq] using hedited
    · rw [hqueue] at hq
      have hpop : Edited s ⟨s.log.length, (incoming.bind Message.request?).toList, s.committing incoming⟩
          { u with clientQueue := queue } := hedited.of_same rfl rfl rfl
      rw [hq]
      exact hpop.broadcast hlast
  · rcases hlast with ⟨-, rfl⟩ | ⟨hrun, -⟩
    · rw [htaking, hcommit]
      subst hv
      exact edited_same rfl rfl rfl
    · exact absurd rfl hrun

/-- **What a round does to the log, the commit index and `log_hash`.** -/
theorem loop_edit (h : s.loop timers incoming = some s') : Edited s (s.edit incoming) s' := by
  by_cases hfollower : s.frame = .follower ∧ s.currentRole = .follower
  · obtain ⟨hf, hr⟩ := hfollower
    rw [loop_follower hf hr] at h
    exact edited_followerLoop hf hr h
  cases hp : s.presides with
  | true =>
    have hp' := hp
    simp only [presides, Bool.and_eq_true, decide_eq_true_eq] at hp'
    rw [loop_leader hp'.1 hp'.2] at h
    exact edited_leaderLoop hp h
  | false =>
    -- no other round appends or commits anything
    rw [edit_eq_noEdit (not_and_or.1 hfollower) hp]
    cases loop_cases h with
    | run frame => exact edited_same rfl rfl rfl
    | leave frame => exact edited_same rfl rfl rfl
    | follower frame role run => exact absurd ⟨frame, role⟩ hfollower
    | candidate frame role => exact edited_candidateLoop _ _
    | leader frame role run => simp [presides, frame, role] at hp

/-- **What a call of a role function does to them**: a new leader appends its entry. -/
theorem call_edit (h : s.call = some s') :
    Edited s s.noEdit s' ∨
      Edited s ⟨s.log.length, [leaderEntry s.currentTerm], s.commitIndex⟩ s' := by
  cases call_cases h with
  | leader role run =>
    obtain ⟨u, hu, rfl⟩ := leaderCall_cases run
    have hsame : Edited s s.noEdit s.takeOver := edited_same rfl rfl rfl
    exact Or.inr ((hsame.broadcast hu).of_same rfl rfl rfl)
  | follower role => exact Or.inl (edited_same rfl rfl rfl)
  | candidate role => exact Or.inl (edited_same rfl rfl rfl)
  | none role => exact Or.inl (edited_same rfl rfl rfl)

/-! ## Lookups -/

/-- After the change, the entry committed last with this id is the one appended with it last, or
the one it was. -/
def Edit.Shows (d : Edit) (s : RaftNode n) (idNum : Key) : Prop :=
  Lib.lastWith Entry.id idNum ((s.log.take d.kept ++ d.entries).take (d.commit + 1)) =
    (Lib.lastWith Entry.id idNum d.entries).or (s.committedEntry idNum)

instance (d : Edit) (s : RaftNode n) (idNum : Key) : Decidable (d.Shows s idNum) := by
  unfold Edit.Shows; infer_instance

theorem noEdit_shows (s : RaftNode n) (idNum : Key) : s.noEdit.Shows s idNum := by
  simp [Edit.Shows, noEdit, committedEntry]

/-- The entry of a new leader does not show up under other ids. -/
theorem leaderEntry_shows {idNum : Key} (hid : initEntry.id ≠ idNum) (s : RaftNode n) :
    Edit.Shows ⟨s.log.length, [leaderEntry s.currentTerm], s.commitIndex⟩ s idNum := by
  have hne : (leaderEntry s.currentTerm).id ≠ idNum := hid
  unfold Edit.Shows
  simp only [List.take_length]
  rw [Lib.lastWith_take_concat _ hne, Lib.lastWith_singleton, if_neg hne, Option.none_or]
  rfl

/-- **A lookup that was right stays right exactly where the change shows.** -/
theorem Edited.lookup_iff {idNum : Key} (h : Edited s d s')
    (hs : s.checkCommittedEntryId idNum = s.committedEntry idNum) :
    s'.checkCommittedEntryId idNum = s'.committedEntry idNum ↔ d.Shows s idNum := by
  have hcheck : s'.checkCommittedEntryId idNum =
      (Lib.lastWith Entry.id idNum d.entries).or (s.committedEntry idNum) := by
    rw [← hs]
    unfold checkCommittedEntryId
    rw [h.hash, Lib.fileAll_apply]
  have hcommitted : s'.committedEntry idNum =
      Lib.lastWith Entry.id idNum ((s.log.take d.kept ++ d.entries).take (d.commit + 1)) := by
    unfold committedEntry
    rw [h.log, h.commit]
  rw [hcheck, hcommitted]
  exact eq_comm

end RaftNode

namespace World

/-- In the round of the step, the node commits what it appends with this id, and its commit uncovers
and hides no other. -/
def Shows (w : World n) (idNum : Key) (ev : Event n) : Prop :=
  ∀ d ∈ w.round ev, ((w.node d.1).edit d.2).Shows (w.node d.1) idNum

instance (w : World n) (idNum : Key) (ev : Event n) : Decidable (w.Shows idNum ev) := by
  unfold Shows; infer_instance

/-- The lookups of an id are right at all nodes. -/
def LooksUp (w : World n) (idNum : Key) : Prop :=
  ∀ a, (w.node a).checkCommittedEntryId idNum = (w.node a).committedEntry idNum

variable {w : World n} {ev : Event n}

theorem looksUp_init {idNum : Key} (hid : initEntry.id ≠ idNum) :
    (World.init : World n).LooksUp idNum := by
  intro a
  show none = Lib.lastWith Entry.id idNum [initEntry]
  rw [Lib.lastWith_singleton, if_neg hid]

/-- The change that a step makes at a node: that of its round, or one that shows under all ids but one. -/
theorem step_edit (w : World n) (ev : Event n) (a : Fin n) :
    ∃ d, RaftNode.Edited (w.node a) d ((w.step ev).node a) ∧
      ((∃ m, w.round ev = some (a, m) ∧ d = (w.node a).edit m) ∨
        ∀ idNum, initEntry.id ≠ idNum → d.Shows (w.node a) idNum) := by
  have hidle : ∀ s : RaftNode n, s.log = (w.node a).log → s.commitIndex = (w.node a).commitIndex →
      s.logHash = (w.node a).logHash → ∃ d, RaftNode.Edited (w.node a) d s ∧
        ((∃ m, w.round ev = some (a, m) ∧ d = (w.node a).edit m) ∨
          ∀ idNum, initEntry.id ≠ idNum → d.Shows (w.node a) idNum) :=
    fun s hlog hcommit hhash => ⟨_, RaftNode.edited_same hlog hcommit hhash,
      Or.inr fun idNum _ => (w.node a).noEdit_shows idNum⟩
  rcases w.step_cases ev with heq | ⟨b, m, s, w₁, hacts, heq⟩
  · rw [heq]
    exact hidle _ rfl rfl rfl
  by_cases hab : a = b
  · subst hab
    rw [heq, put_node_self]
    cases hacts with
    | clientRequest _ value idNum => exact hidle _ rfl rfl rfl
    | call _ frame run =>
      rcases RaftNode.call_edit run with hedit | hedit
      · exact ⟨_, hedit.of_same rfl rfl rfl, Or.inr fun idNum _ => (w.node a).noEdit_shows idNum⟩
      · exact ⟨_, hedit.of_same rfl rfl rfl,
          Or.inr fun idNum hid => RaftNode.leaderEntry_shows hid (w.node a)⟩
    | loop _ r frame recv run =>
      exact ⟨_, (RaftNode.loop_edit run).of_same rfl rfl rfl,
        Or.inl ⟨m, by simp [round, frame, recv], rfl⟩⟩
  · rw [heq, put_node_ne hab, hacts.node]
    exact hidle _ rfl rfl rfl

/-- **A step that shows what it appends keeps the lookups right.** -/
theorem LooksUp.step {idNum : Key} (h : w.LooksUp idNum) (hid : initEntry.id ≠ idNum)
    (hshows : w.Shows idNum ev) : (w.step ev).LooksUp idNum := by
  intro a
  obtain ⟨d, hedited, ⟨m, hround, rfl⟩ | hd⟩ := w.step_edit ev a
  · exact (hedited.lookup_iff (h a)).2 (hshows (a, m) hround)
  · exact (hedited.lookup_iff (h a)).2 (hd idNum hid)

/-- A step between worlds whose lookups are right shows what it appends. -/
theorem LooksUp.shows {idNum : Key} (htracked : w.Tracked) (h : w.LooksUp idNum)
    (h' : (w.step ev).LooksUp idNum) : w.Shows idNum ev := by
  rintro ⟨a, m⟩ hround
  obtain ⟨timers, s, hs, hnode⟩ := htracked.round_loop hround
  have hedited : RaftNode.Edited (w.node a) ((w.node a).edit m) ((w.step ev).node a) := by
    rw [hnode]
    exact (RaftNode.loop_edit hs).of_same rfl rfl rfl
  exact (hedited.lookup_iff (h a)).1 (h' a)

end World

/-- **Lookup by id** in a run: what `check_committed_entry` returns for an id is, at every node and time,
the entry with this id at the highest committed index. -/
def LookupCommitted (es : List (Event n)) (idNum : Key) : Prop :=
  ∀ k, (wAt es k).LooksUp idNum

/-- **A lookup by id is right in a run exactly where the id is not that of the first entry, and every
step shows what it appends with the id.** -/
theorem lookup_committed (es : List (Event n)) (hn : 0 < n) (idNum : Key) :
    LookupCommitted es idNum ↔
      idNum ≠ .int (-1) ∧ ∀ k (hk : k < es.length), (wAt es k).Shows idNum es[k] := by
  constructor
  · intro h
    refine ⟨?_, fun k hk => ?_⟩
    · -- the first entry is committed from the start, and never filed
      rintro rfl
      have hfirst := h 0 ⟨0, hn⟩
      rw [show wAt es 0 = World.init from Lib.stateAt_zero ..] at hfirst
      exact absurd hfirst (by simp [World.init, RaftNode.init, RaftNode.checkCommittedEntryId,
        RaftNode.committedEntry, Lib.lastWith, initEntry])
    · have hnext := h (k + 1)
      rw [wAt_succ es hk] at hnext
      exact (h k).shows (tracked_wAt es k) hnext
  · rintro ⟨hne, hshows⟩
    have hinit : initEntry.id ≠ idNum := fun h => hne h.symm
    exact Lib.stateAt_invariant (P := fun w : World n => w.LooksUp idNum) (World.looksUp_init hinit)
      fun k hk h => h.step hinit (hshows k hk)

/-- Node 0 of two leads in term 2 and appends a request with id 7, of which nobody has heard. -/
def unheardRequest : List (Event 2) := elect ++ [.clientRequest 0 (.str "x") (.int 7), .loop 0 {}]

/-- Node 0 sends its first entry three times, credits the acknowledgements to two requests as well, and tells
node 1 that all is committed, which has only the first. Node 1 leads then, and is asked: its entry for that is
at the commit index. -/
def aheadRequest : List (Event 2) :=
  elect ++ [.loop 0 { resend := fun _ => true }, .loop 0 { resend := fun _ => true }, .take 1 0 1, .take 1 0 2,
    .take 1 0 3, .take 1 0 4, .clientRequest 0 (.str "x") (.int 7), .loop 0 {},
    .clientRequest 0 (.str "y") (.int 8), .loop 0 {}, .take 0 1 1, .take 0 1 2, .take 0 1 3, .take 1 0 9,
    .timeout 1, .call 1, .take 0 1 4, .take 1 1 1, .take 1 0 10, .call 1, .clientRequest 1 (.str "z") (.int 9),
    .loop 1 {}]

set_option maxRecDepth 10000 in
theorem lookup_committed_aheadRequest :
    ((wAt aheadRequest 31).node 1).checkCommittedEntryId (.int 9) = some ⟨3, .str "z", .int 9⟩ ∧
      LookupCommitted aheadRequest (.int 9) :=
  ⟨by decide +kernel, (lookup_committed aheadRequest (by decide) (.int 9)).2 ⟨by decide, by decide +kernel⟩⟩

set_option maxRecDepth 10000 in
/-- **An uncommitted entry is returned**: node 0 has committed nothing but its first entry. -/
theorem lookup_uncommitted :
    ((wAt unheardRequest 11).node 0).commitIndex = 0 ∧
      ((wAt unheardRequest 11).node 0).checkCommittedEntryId (.int 7) = some ⟨2, .str "x", .int 7⟩ ∧
      ¬ LookupCommitted unheardRequest (.int 7) := by
  refine ⟨by decide, by decide, fun h => ?_⟩
  have hlook := h 11 0
  exact absurd hlook (by decide)

end EdgeConsensus.Raft
