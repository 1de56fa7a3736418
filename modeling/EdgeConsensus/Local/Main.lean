import EdgeConsensus.Local.Node

/-!
# The main thread of a node

* `mainStep_cases`: what a step of `main` does.
* `Acts.leases`: the local group is a table of leases, and `main` the thread that sweeps it.
* `Acts.sound`: what is true where `main` is, whatever the listeners do.
* `Acts.timed`: `main` sweeps from the time that it has read.
-/

namespace EdgeConsensus.Local

open Lib

namespace Process

/-! ## What a step of `main` does -/

/-- A step of `main`, with what it has seen. -/
inductive Acts (me : Edge.Node) (s : Process) : Process → Prop
  | wait : s.main = .test → Acts me s s
  | due : s.main = .test → s.systime + bluetoothAdvertisementInterval ≤ s.clock →
    Acts me s { s with main := .renew }
  | renew : s.main = .renew → Acts me s { s with systime := s.clock, main := .bluetoothSender }
  | send : s.main = .bluetoothSender →
    Acts me s { s with outbox := s.outbox ++ [encode me.message], main := .list }
  | list : s.main = .list → Acts me s { s with main := .trigger s.localGroup.keys }
  | trigger {keylist : List (List Char)} : s.main = .trigger keylist → keylist.length = 3 →
    Acts me s { s with main := .iterate keylist ⟨s.localGroup.entries.length, 0⟩ Dict.empty }
  | skip {keylist : List (List Char)} : s.main = .trigger keylist → keylist.length ≠ 3 →
    Acts me s { s with main := .edgeKnown keylist }
  | changed {keylist : List (List Char)} {it : KeyIterator} {commDict : CommDict} :
    s.main = .iterate keylist it commDict → s.localGroup.entries.length ≠ it.size →
    Acts me s { s with main := .raised keylist .iteration }
  | iterated {keylist : List (List Char)} {it : KeyIterator} {commDict : CommDict} :
    s.main = .iterate keylist it commDict → s.localGroup.entries.length = it.size →
    s.localGroup.keys[it.index]? = none → Acts me s { s with main := .make keylist commDict }
  | next {keylist : List (List Char)} {it : KeyIterator} {commDict : CommDict} {key : List Char} :
    s.main = .iterate keylist it commDict → s.localGroup.entries.length = it.size →
    s.localGroup.keys[it.index]? = some key →
    Acts me s { s with main := .copy keylist ⟨it.size, it.index + 1⟩ commDict key }
  | gone {keylist : List (List Char)} {it : KeyIterator} {commDict : CommDict} {key : List Char} :
    s.main = .copy keylist it commDict key → key ∉ s.localGroup.keys →
    Acts me s { s with main := .raised keylist .lookup }
  | copy {keylist : List (List Char)} {it : KeyIterator} {commDict : CommDict} {key : List Char}
    {x : List Char × ℕ} : s.main = .copy keylist it commDict key → (key, x) ∈ s.localGroup.entries →
    Acts me s { s with main := .iterate keylist it (commDict.assign key ⟨x.1, highPowerTxPort⟩) }
  | unmade {keylist : List (List Char)} {commDict : CommDict} : s.main = .make keylist commDict →
    Members.init (commDict.assign me.id ⟨me.address.text, highPowerTxPort⟩) me.id = none →
    Acts me s { s with main := .raised keylist .raftNode }
  | make {keylist : List (List Char)} {commDict : CommDict} {raft : Members} : s.main = .make keylist commDict →
    Members.init (commDict.assign me.id ⟨me.address.text, highPowerTxPort⟩) me.id = some raft →
    Acts me s { s with main := .consensus keylist raft }
  | stop {keylist : List (List Char)} {raft : Members} : s.main = .consensus keylist raft →
    Acts me s { s with main := .edgeKnown keylist }
  | noEdge {keylist : List (List Char)} : s.main = .edgeKnown keylist → s.edgeServerAddressTime = none →
    Acts me s { s with main := .sweep (.checking s.systime keylist) }
  | edge {keylist : List (List Char)} : s.main = .edgeKnown keylist → s.edgeServerAddressTime ≠ none →
    Acts me s { s with main := .edgeTimer keylist }
  | edgeGone {keylist : List (List Char)} : s.main = .edgeTimer keylist → s.edgeServerAddressTime = none →
    Acts me s { s with main := .raised keylist .edgeTime }
  | edgeOver {keylist : List (List Char)} {x : List Char × ℕ} : s.main = .edgeTimer keylist →
    s.edgeServerAddressTime = some x → x.2 + edgeHeartbeatTimer ≤ s.systime →
    Acts me s { s with main := .edgeReset keylist }
  | edgeKept {keylist : List (List Char)} {x : List Char × ℕ} : s.main = .edgeTimer keylist →
    s.edgeServerAddressTime = some x → s.systime < x.2 + edgeHeartbeatTimer →
    Acts me s { s with main := .sweep (.checking s.systime keylist) }
  | edgeReset {keylist : List (List Char)} : s.main = .edgeReset keylist →
    Acts me s { s with edgeServerAddressTime := none, main := .sweep (.checking s.systime keylist) }
  | rest {step : Sweep (List Char)} {t : Leases (List Char) (List Char)} : s.main = .sweep step →
    Leases.advance bluetoothHeartbeatTimer ⟨s.localGroup, step⟩ = t → t.sweep = .resting →
    Acts me s { s with localGroup := t.table, main := .test }
  | sweep {step : Sweep (List Char)} {t : Leases (List Char) (List Char)} : s.main = .sweep step →
    Leases.advance bluetoothHeartbeatTimer ⟨s.localGroup, step⟩ = t → t.sweep ≠ .resting →
    Acts me s { s with localGroup := t.table, main := .sweep t.sweep }
  | raised {keylist : List (List Char)} {failure : Failure} : s.main = .raised keylist failure → Acts me s s

theorem mainStep_cases (me : Edge.Node) (s : Process) : s.Acts me (s.mainStep me) := by
  unfold mainStep
  split
  · rename_i hmain
    split
    · rename_i hdue
      exact .due hmain hdue
    · exact .wait hmain
  · rename_i hmain
    exact .renew hmain
  · rename_i hmain
    exact .send hmain
  · rename_i hmain
    exact .list hmain
  · rename_i keylist hmain
    split
    · rename_i hlength
      exact .trigger hmain hlength
    · rename_i hlength
      exact .skip hmain hlength
  · rename_i keylist it commDict hmain
    split
    · rename_i hsize
      exact .changed hmain hsize
    · rename_i hsize
      split
      · rename_i hend
        exact .iterated hmain (not_not.1 hsize) hend
      · rename_i key hkey
        exact .next hmain (not_not.1 hsize) hkey
  · rename_i keylist it commDict key hmain
    split
    · rename_i hnone
      refine .gone hmain ?_
      intro hkey
      obtain ⟨x, hx⟩ := Dict.find?_of_mem_keys hkey
      rw [hx] at hnone
      cases hnone
    · rename_i x hx
      exact .copy hmain (Dict.find?_eq_some.1 hx)
  · rename_i keylist commDict hmain
    split
    · rename_i hnone
      exact .unmade hmain hnone
    · rename_i raft hraft
      exact .make hmain hraft
  · rename_i keylist raft hmain
    exact .stop hmain
  · rename_i keylist hmain
    split
    · rename_i hnone
      exact .noEdge hmain hnone
    · rename_i hedge
      exact .edge hmain hedge
  · rename_i keylist hmain
    split
    · rename_i hnone
      exact .edgeGone hmain hnone
    · rename_i x hx
      by_cases hover : x.2 + edgeHeartbeatTimer ≤ s.systime
      · rw [if_pos hover]
        exact .edgeOver hmain hx hover
      · rw [if_neg hover]
        exact .edgeKept hmain hx (by omega)
  · rename_i keylist hmain
    exact .edgeReset hmain
  · rename_i step hmain
    dsimp only
    split
    · rename_i hrest
      exact .rest hmain rfl hrest
    · rename_i hgoes
      exact .sweep hmain rfl hgoes
  · rename_i keylist failure hmain
    exact .raised hmain

/-- What happens beside the steps of `main`: new keys come at the end, an edge server stays known, and a
`RaftNode` may let `main` down. -/
structure Listens (s s' : Process) : Prop where
  main : s'.main = s.main ∨
    ∃ keylist raft, s.main = .consensus keylist raft ∧ s'.main = .raised keylist .committedEntry
  systime : s'.systime = s.systime
  clock : s.clock ≤ s'.clock
  outbox : s'.outbox = s.outbox
  keys : s.localGroup.keys <+: s'.localGroup.keys
  edge : s.edgeServerAddressTime ≠ none → s'.edgeServerAddressTime ≠ none

theorem Listens.refl (s : Process) : s.Listens s := ⟨Or.inl rfl, rfl, le_refl _, rfl, List.prefix_rfl, fun h => h⟩

/-- `main` sends nothing but the advertisement of the node. -/
theorem Acts.outbox {me : Edge.Node} {s s' : Process} (h : s.Acts me s') : s'.outbox = s.outbox ∨
    (s.main = .bluetoothSender ∧ s'.outbox = s.outbox ++ [encode me.message]) := by
  cases h with
  | send hmain => exact Or.inr ⟨hmain, rfl⟩
  | _ => exact Or.inl rfl

theorem Acts.heard {me : Edge.Node} {s s' : Process} (h : s.Acts me s') : s'.heard = s.heard := by
  cases h <;> rfl

end Process

/-! ## The local group as leases -/

/-- The sweep of the local group: from `list` on, `main` is about to look at its `keylist`. -/
def MainPoint.toSweep (systime : ℕ) : MainPoint → Sweep (List Char)
  | .test => .resting
  | .renew => .resting
  | .bluetoothSender => .resting
  | .list => .resting
  | .trigger keylist => .checking systime keylist
  | .iterate keylist _ _ => .checking systime keylist
  | .copy keylist _ _ _ => .checking systime keylist
  | .make keylist _ => .checking systime keylist
  | .consensus keylist _ => .checking systime keylist
  | .edgeKnown keylist => .checking systime keylist
  | .edgeTimer keylist => .checking systime keylist
  | .edgeReset keylist => .checking systime keylist
  | .sweep step => step
  | .raised keylist _ => .checking systime keylist

namespace Process

variable {me : Edge.Node} {s s' : Process}

def leases (s : Process) : Leases (List Char) (List Char) := ⟨s.localGroup, s.main.toSweep s.systime⟩

/-- **A step of `main`** is a step of a sweep, or does nothing to the local group. -/
theorem Acts.leases (h : s.Acts me s') : s.leases.Step bluetoothHeartbeatTimer none s'.leases := by
  have hidle : ∀ t : Process, t.leases = s.leases → s.leases.Step bluetoothHeartbeatTimer none t.leases := by
    intro t ht
    rw [ht]
    exact .idle
  have hadvance : s.leases.Step bluetoothHeartbeatTimer none (s.leases.advance bluetoothHeartbeatTimer) :=
    .advance
  cases h with
  | list hmain =>
    have hrest : s.leases.sweep = .resting := by simp [Process.leases, MainPoint.toSweep, hmain]
    exact .begin s.systime hrest
  | @rest step t hmain ht hrest =>
    have hleases : s.leases = ⟨s.localGroup, step⟩ := by simp only [Process.leases, MainPoint.toSweep, hmain]
    rw [hleases, ht] at hadvance
    rw [hleases]
    simp only [Process.leases, MainPoint.toSweep]
    rwa [← hrest]
  | @sweep step t hmain ht _ =>
    have hleases : s.leases = ⟨s.localGroup, step⟩ := by simp only [Process.leases, MainPoint.toSweep, hmain]
    rw [hleases, ht] at hadvance
    rw [hleases]
    exact hadvance
  | wait => exact hidle _ rfl
  | raised => exact hidle _ rfl
  | due hmain | renew hmain | send hmain | trigger hmain | skip hmain | changed hmain
  | iterated hmain | next hmain
  | gone hmain | copy hmain | unmade hmain | make hmain | stop hmain | noEdge hmain | edge hmain | edgeGone hmain
  | edgeOver hmain | edgeKept hmain | edgeReset hmain =>
    apply hidle
    simp [Process.leases, MainPoint.toSweep, hmain]

theorem Listens.sweep (h : s.Listens s') : s'.leases.sweep = s.leases.sweep := by
  show s'.main.toSweep s'.systime = s.main.toSweep s.systime
  rw [h.systime]
  rcases h.main with hmain | ⟨keylist, raft, hmain, hmain'⟩
  · rw [hmain]
  · rw [hmain, hmain']
    rfl

/-- `main` begins to sweep when it takes its `keylist`. -/
theorem Acts.begins {start : ℕ} (h : s.Acts me s') (hrest : s.leases.sweep = .resting)
    (hstart : s'.leases.sweep.start? = some start) : s.main = .list ∧ start = s.systime := by
  cases h with
  | list hmain => exact ⟨hmain, (Option.some.inj hstart).symm⟩
  | wait hmain | raised hmain =>
    rw [hrest] at hstart
    cases hstart
  | due | renew | send | rest => cases hstart
  | @sweep step t hmain hadvance _ =>
    have hstep : s.leases.sweep = step := by simp only [Process.leases, MainPoint.toSweep, hmain]
    have hcases := Leases.advance_cases bluetoothHeartbeatTimer ⟨s.localGroup, step⟩
    rw [hadvance] at hcases
    have hgoes := hcases.goes_on hstart
    rw [← hstep, hrest] at hgoes
    cases hgoes
  | trigger hmain | skip hmain | changed hmain | iterated hmain | next hmain | gone hmain
  | copy hmain | unmade hmain
  | make hmain | stop hmain | noEdge hmain | edge hmain | edgeGone hmain | edgeOver hmain | edgeKept hmain
  | edgeReset hmain => simp [Process.leases, MainPoint.toSweep, hmain] at hrest

/-- What `main` is about to delete, it deletes in its next step. -/
theorem Acts.deletes {start : ℕ} {k : List Char} {todo : List (List Char)} (h : s.Acts me s')
    (hs : s.leases.sweep = .deleting start k todo) : s'.leases.sweep ≠ .deleting start k todo := by
  cases h with
  | rest =>
    intro hs'
    cases hs'
  | @sweep step t hmain hadvance _ =>
    have hstep : s.leases.sweep = step := by simp only [Process.leases, MainPoint.toSweep, hmain]
    have hcases := Leases.advance_cases bluetoothHeartbeatTimer ⟨s.localGroup, step⟩
    rw [hadvance] at hcases
    exact hcases.deletes (hstep.symm.trans hs)
  | wait hmain | due hmain | renew hmain | send hmain | list hmain | trigger hmain | skip hmain | changed hmain
  | iterated hmain | next hmain | gone hmain | copy hmain | unmade hmain | make hmain | stop hmain | noEdge hmain
  | edge hmain | edgeGone hmain | edgeOver hmain | edgeKept hmain | edgeReset hmain | raised hmain =>
    simp [Process.leases, MainPoint.toSweep, hmain] at hs

end Process

/-! ## Where `main` is -/

/-- What is true of the keys of the local group where `main` is, if the edge server is known or not: new keys
have come at the end at most. -/
def MainPoint.Sound (keys : List (List Char)) (known : Prop) : MainPoint → Prop
  | .trigger keylist => keylist <+: keys
  | .iterate _ it commDict =>
    3 ≤ it.size ∧ it.size ≤ keys.length ∧ commDict.keys <+: keys ∧ commDict.keys.length = it.index
  | .copy _ it commDict key =>
    3 ≤ it.size ∧ it.size ≤ keys.length ∧ commDict.keys ++ [key] <+: keys ∧ commDict.keys.length + 1 = it.index
  | .make _ commDict => 3 ≤ commDict.keys.length ∧ commDict.keys <+: keys
  | .consensus _ _ => 3 ≤ keys.length
  | .edgeTimer _ => known
  | .sweep step => step ≠ .resting
  | .raised _ failure => (failure = .iteration ∧ 3 < keys.length) ∨ (failure = .committedEntry ∧ 3 ≤ keys.length)
  | _ => True

theorem MainPoint.Sound.mono {keys keys' : List (List Char)} {known known' : Prop} {main : MainPoint}
    (h : main.Sound keys known) (hkeys : keys <+: keys') (hknown : known → known') : main.Sound keys' known' := by
  have hlength := hkeys.length_le
  cases main with
  | trigger => exact List.IsPrefix.trans h hkeys
  | iterate =>
    obtain ⟨hthree, hsize, hcopied, hindex⟩ := h
    exact ⟨hthree, by omega, hcopied.trans hkeys, hindex⟩
  | copy =>
    obtain ⟨hthree, hsize, hcopied, hindex⟩ := h
    exact ⟨hthree, by omega, hcopied.trans hkeys, hindex⟩
  | make => exact ⟨h.1, h.2.trans hkeys⟩
  | edgeTimer => exact hknown h
  | sweep => exact h
  | consensus => exact le_trans h hlength
  | raised => exact h.imp (fun h => ⟨h.1, lt_of_lt_of_le h.2 hlength⟩) fun h => ⟨h.1, le_trans h.2 hlength⟩
  | test | renew | bluetoothSender | list | edgeKnown | edgeReset => exact trivial

namespace Process

variable {me : Edge.Node} {s s' : Process}

def Sound (s : Process) : Prop := s.main.Sound s.localGroup.keys (s.edgeServerAddressTime ≠ none)

theorem append_prefix {α : Type*} {l m : List α} {x : α} (h : l <+: m) (hx : m[l.length]? = some x) :
    l ++ [x] <+: m := by
  obtain ⟨r, rfl⟩ := h
  rw [List.getElem?_append_right (Nat.le_refl _), Nat.sub_self] at hx
  cases r with
  | nil => cases hx
  | cons y r =>
    obtain rfl := Option.some.inj hx
    exact ⟨r, by simp⟩

/-- **What is true where `main` is** stays true: it raises only where the local group has
grown under its hands. -/
theorem Acts.sound (h : s.Acts me s') (hsound : s.Sound) : s'.Sound := by
  unfold Process.Sound at hsound ⊢
  have hsize : s.localGroup.keys.length = s.localGroup.entries.length := List.length_map _
  cases h with
  | wait => exact hsound
  | raised => exact hsound
  | list => exact List.prefix_rfl
  | trigger hmain hthree =>
    rw [hmain] at hsound
    have hle := List.IsPrefix.length_le hsound
    have hgroup : 3 ≤ s.localGroup.entries.length := by omega
    exact ⟨hgroup, le_of_eq hsize.symm, List.nil_prefix, rfl⟩
  | @changed keylist it commDict hmain hchanged =>
    rw [hmain] at hsound
    obtain ⟨hthree, hle, -, -⟩ := hsound
    have hgrown : 3 < s.localGroup.keys.length := by omega
    exact Or.inl ⟨rfl, hgrown⟩
  | @iterated keylist it commDict hmain hsame hend =>
    rw [hmain] at hsound
    obtain ⟨hthree, hle, hcopied, hindex⟩ := hsound
    have hall := List.getElem?_eq_none_iff.1 hend
    exact ⟨by omega, hcopied⟩
  | @next keylist it commDict key hmain hsame hkey =>
    rw [hmain] at hsound
    obtain ⟨hthree, hle, hcopied, hindex⟩ := hsound
    refine ⟨hthree, hle, append_prefix hcopied ?_, by rw [hindex]⟩
    rw [hindex, hkey]
  | @gone keylist it commDict key hmain hgone =>
    rw [hmain] at hsound
    obtain ⟨-, -, hcopied, -⟩ := hsound
    exact absurd (hcopied.subset (List.mem_append_right _ List.mem_cons_self)) hgone
  | @copy keylist it commDict key x hmain hx =>
    rw [hmain] at hsound
    obtain ⟨hthree, hle, hcopied, hindex⟩ := hsound
    have hnew : key ∉ commDict.keys := by
      have hnodup := s.localGroup.nodup_keys.sublist hcopied.sublist
      intro hkey
      exact (List.nodup_append.1 hnodup).2.2 key hkey key List.mem_cons_self rfl
    have hkeys : (commDict.assign key ⟨x.1, highPowerTxPort⟩).keys = commDict.keys ++ [key] := by
      rw [Dict.keys_assign, if_neg hnew]
    refine ⟨hthree, hle, ?_, ?_⟩
    · rw [hkeys]
      exact hcopied
    · rw [hkeys, List.length_append]
      exact hindex
  | @unmade keylist commDict hmain hnone =>
    obtain ⟨raft, hraft⟩ := Members.init_assign commDict me.id ⟨me.address.text, highPowerTxPort⟩
    rw [hraft] at hnone
    cases hnone
  | edge hmain hknown => exact hknown
  | edgeGone hmain hnone =>
    rw [hmain] at hsound
    exact absurd hnone hsound
  | sweep _ _ hgoes => exact hgoes
  | noEdge | edgeKept | edgeReset =>
    intro h
    cases h
  | make hmain =>
    rw [hmain] at hsound
    exact hsound.1.trans hsound.2.length_le
  | due | renew | send | skip | stop | edgeOver | rest => exact trivial

theorem Listens.sound (h : s.Listens s') (hsound : s.Sound) : s'.Sound := by
  unfold Process.Sound at hsound ⊢
  have hlater := hsound.mono h.keys h.edge
  rcases h.main with hmain | ⟨keylist, raft, hmain, hmain'⟩
  · rw [hmain]
    exact hlater
  · rw [hmain] at hlater
    rw [hmain']
    exact Or.inr ⟨rfl, hlater⟩

/-- `main` comes back to its test when it has looked at all keys. -/
theorem Acts.ends (h : s.Acts me s') (hmain : s.main ≠ .test) (hend : s'.main = .test)
    (hsound : s.Sound) : ∃ start, s.leases.sweep = .checking start [] := by
  cases h with
  | wait htest => exact absurd htest hmain
  | raised => exact absurd hend hmain
  | @rest step t hsweep hadvance ht =>
    have hstep : s.leases.sweep = step := by simp only [Process.leases, MainPoint.toSweep, hsweep]
    have hcases := Leases.advance_cases bluetoothHeartbeatTimer ⟨s.localGroup, step⟩
    rw [hadvance] at hcases
    unfold Process.Sound at hsound
    rw [hsweep] at hsound
    rw [hstep]
    exact hcases.ends ht hsound
  | _ => cases hend

/-! ## Times -/

/-- `main` sweeps from the time that it has read, which is not ahead of the clock. -/
structure Timed (s : Process) : Prop where
  le : s.systime ≤ s.clock
  start : ∀ start, s.leases.sweep.start? = some start → start = s.systime

theorem Listens.timed (h : s.Listens s') (ht : s.Timed) : s'.Timed := by
  refine ⟨?_, fun start hstart => ?_⟩
  · rw [h.systime]
    exact ht.le.trans h.clock
  · rw [h.sweep] at hstart
    rw [h.systime]
    exact ht.start start hstart

theorem Acts.timed (h : s.Acts me s') (ht : s.Timed) : s'.Timed := by
  have hsame : ∀ m : MainPoint, (∀ start, (m.toSweep s.systime).start? = some start → start = s.systime) →
      Timed { s with main := m } := fun m hm => ⟨ht.le, hm⟩
  cases h with
  | wait => exact ht
  | raised => exact ht
  | renew =>
    refine ⟨le_refl _, fun start hstart => ?_⟩
    cases hstart
  | send => exact ⟨ht.le, fun start hstart => by cases hstart⟩
  | edgeReset => exact ⟨ht.le, fun start hstart => (Option.some.inj hstart).symm⟩
  | rest => exact ⟨ht.le, fun start hstart => by cases hstart⟩
  | @sweep step t hmain hadvance _ =>
    refine ⟨ht.le, fun start hstart => ht.start start ?_⟩
    have hcases := Leases.advance_cases bluetoothHeartbeatTimer ⟨s.localGroup, step⟩
    rw [hadvance] at hcases
    have hstep : s.leases.sweep = step := by simp only [Process.leases, MainPoint.toSweep, hmain]
    rw [hstep]
    exact hcases.goes_on hstart
  | due => exact hsame _ fun start hstart => by cases hstart
  | list | trigger | skip | changed | iterated | next | gone | copy | unmade | make | stop | noEdge
  | edge | edgeGone | edgeOver
  | edgeKept => exact hsame _ fun start hstart => (Option.some.inj hstart).symm

end Process

end EdgeConsensus.Local
