import EdgeConsensus.Local.Network

/-!
# What a local group says

The entries of a `local_group` over a whole run, whatever the network and the threads do.

* `traced`: the broadcast node hands on only what nodes have sent, and not back to them.
* `group_known`: an entry is what the node has heard last of another node, with the time at which it heard it.
* `group_swept`: when `main` is through with its keys, all entries are in time or have come in the meantime.
* `group_dropped`: an entry disappears only after it was over its time; what is heard of the node between the
  look and the deletion is lost.
-/

namespace EdgeConsensus.Local

open Lib Log

variable {n : ℕ} {net : Net n} {es : List (Event n)} {a b : Fin n} {g h i j k : ℕ}

/-! ## Advertisements -/

theorem recvfrom_message (net : Net n) (b : Fin n) :
    recvfrom (encode (net.host b).message) = encode (net.host b).message := List.take_of_length_le (net.short b)

/-- Everybody reads an advertisement as it was meant. -/
theorem bluetoothAdvertisement_message (net : Net n) (b : Fin n) :
    bluetoothAdvertisement (encode (net.host b).message) = some (net.id b, net.address b) := by
  unfold bluetoothAdvertisement
  rw [recvfrom_message, decode_encode]
  simp only [(net.host b).splitOn_message]
  rfl

/-- The broadcast node hands an advertisement on as it is, but not to where it came from. -/
theorem mem_broadcast {out : List (List Char × List UInt8)} {p : List Char × List UInt8} {address : List Char}
    (hout : broadcast net.recipients (encode (net.host b).message) address = some out) (hp : p ∈ out) :
    p.2 = encode (net.host b).message ∧ p.1 ≠ address := by
  unfold broadcast at hout
  rw [recvfrom_message, decode_encode] at hout
  obtain rfl := Option.some.inj hout
  obtain ⟨listener, hlistener, rfl⟩ := List.mem_map.1 hp
  obtain ⟨-, hne⟩ := List.mem_filter.1 hlistener
  exact ⟨rfl, by simpa using hne⟩

/-- Node `b` sends its advertisement in step `g`. -/
def Advertises (net : Net n) (es : List (Event n)) (b : Fin n) (g : ℕ) : Prop :=
  es[g]? = some (.main b) ∧ ((wAt net es g).node b).main = .bluetoothSender

/-- In step `h` an advertisement of node `b`, sent before, comes to node `a`. -/
def Hears (net : Net n) (es : List (Event n)) (a b : Fin n) (h : ℕ) : Prop :=
  ∃ i g, es[h]? = some (.hear a i) ∧ (wAt net es h).received net a i = some (encode (net.host b).message) ∧
    g < h ∧ Advertises net es b g

/-- Before `k` node `a` has heard another node, with this id and address, when its clock showed this time. -/
def HeardFrom (net : Net n) (es : List (Event n)) (k : ℕ) (a : Fin n) (x : List Char × List Char × ℕ) : Prop :=
  ∃ b ≠ a, x.1 = net.id b ∧ x.2.1 = net.address b ∧
    ∃ h < k, Hears net es a b h ∧ x.2.2 = ((wAt net es h).node a).clock

/-- Where the datagrams and what nodes are about to assign come from. -/
structure Traced (net : Net n) (es : List (Event n)) (k : ℕ) : Prop where
  air : ∀ p ∈ (wAt net es k).air, ∃ b g, g < k ∧ Advertises net es b g ∧
    p = (net.address b, encode (net.host b).message)
  relayed : ∀ p ∈ (wAt net es k).relayed, ∃ b g, g < k ∧ Advertises net es b g ∧
    p.2 = encode (net.host b).message ∧ p.1 ≠ net.address b
  heard : ∀ a x, ((wAt net es k).node a).heard = some x → HeardFrom net es k a x

theorem HeardFrom.mono {x : List Char × List Char × ℕ} (hx : HeardFrom net es j a x) (hjk : j ≤ k) :
    HeardFrom net es k a x := by
  obtain ⟨b, hb, hid, haddress, h, hhj, hrest⟩ := hx
  exact ⟨b, hb, hid, haddress, h, by omega, hrest⟩

theorem Traced.mono_air (ht : Traced net es k) {p : List Char × List UInt8} (hp : p ∈ (wAt net es k).air) :
    ∃ b g, g < k + 1 ∧ Advertises net es b g ∧ p = (net.address b, encode (net.host b).message) := by
  obtain ⟨b, g, hg, hrest⟩ := ht.air p hp
  exact ⟨b, g, by omega, hrest⟩

theorem Traced.mono_relayed (ht : Traced net es k) {p : List Char × List UInt8}
    (hp : p ∈ (wAt net es k).relayed) : ∃ b g, g < k + 1 ∧ Advertises net es b g ∧
      p.2 = encode (net.host b).message ∧ p.1 ≠ net.address b := by
  obtain ⟨b, g, hg, hrest⟩ := ht.relayed p hp
  exact ⟨b, g, by omega, hrest⟩

/-- What a node hears is an advertisement of another node. -/
theorem Traced.received (ht : Traced net es k) {data : List UInt8} (hev : es[k]? = some (.hear a i))
    (hdata : (wAt net es k).received net a i = some data) :
    ∃ b ≠ a, data = encode (net.host b).message ∧ Hears net es a b k := by
  obtain ⟨b, g, hg, hadvertises, hmessage, hto⟩ := ht.relayed _ (World.received_eq hdata)
  have hne : b ≠ a := by
    rintro rfl
    exact hto rfl
  obtain rfl : data = encode (net.host b).message := hmessage
  exact ⟨b, hne, rfl, i, g, hev, hdata, hg, hadvertises⟩

/-- Where nothing changes. -/
theorem Traced.keep (ht : Traced net es k) (hsame : wAt net es (k + 1) = wAt net es k) :
    Traced net es (k + 1) := by
  refine ⟨fun p hp => ht.mono_air ?_, fun p hp => ht.mono_relayed ?_, fun a x hx => ?_⟩
  · rwa [hsame] at hp
  · rwa [hsame] at hp
  · rw [hsame] at hx
    exact (ht.heard a x hx).mono (Nat.le_succ k)

/-- A node acts: it may send its advertisement, and it may hear one. -/
theorem Traced.acts (ht : Traced net es k) {ev : Event n} {s : Process} (hev : es[k]? = some ev)
    (hacts : (wAt net es k).Acts net ev b s) (hsucc : wAt net es (k + 1) = (wAt net es k).put net b s) :
    Traced net es (k + 1) := by
  refine ⟨fun p hp => ?_, fun p hp => ht.mono_relayed ?_, fun a x hx => ?_⟩
  · rw [hsucc] at hp
    rcases List.mem_append.1 hp with hp | hp
    · exact ht.mono_air hp
    obtain ⟨data, hdata, rfl⟩ := List.mem_map.1 hp
    rcases hacts.outbox (outbox net es k b) with hnone | ⟨hmain, hsender, hone⟩
    · rw [hnone] at hdata
      cases hdata
    · rw [hone] at hdata
      obtain rfl := List.mem_singleton.1 hdata
      exact ⟨b, k, Nat.lt_succ_self k, ⟨by rw [hev, hmain], hsender⟩, rfl⟩
  · rwa [hsucc] at hp
  · rw [hsucc] at hx
    by_cases hab : a = b
    · subst hab
      rw [World.put_node_self] at hx
      rcases hacts.heard hx with hold | ⟨i, data, hhear, hdata, hadvert, hclock⟩
      · exact (ht.heard a x hold).mono (Nat.le_succ k)
      · obtain ⟨c, hc, rfl, hhears⟩ := ht.received (by rw [hev, hhear]) hdata
        rw [bluetoothAdvertisement_message] at hadvert
        obtain ⟨hid, haddress⟩ := Prod.mk.inj (Option.some.inj hadvert)
        exact ⟨c, hc, hid.symm, haddress.symm, k, Nat.lt_succ_self k, hhears, hclock⟩
    · rw [World.put_node_ne hab] at hx
      exact (ht.heard a x hx).mono (Nat.le_succ k)

/-- The broadcast node hands a datagram on. -/
theorem Traced.relay (ht : Traced net es k) {p : List Char × List UInt8} {out : List (List Char × List UInt8)}
    (hp : p ∈ (wAt net es k).air) (hout : broadcast net.recipients p.2 p.1 = some out)
    (hsucc : wAt net es (k + 1) = { wAt net es k with relayed := (wAt net es k).relayed ++ out }) :
    Traced net es (k + 1) := by
  refine ⟨fun q hq => ht.mono_air ?_, fun q hq => ?_, fun a x hx => ?_⟩
  · rwa [hsucc] at hq
  · rw [hsucc] at hq
    rcases List.mem_append.1 hq with hq | hq
    · exact ht.mono_relayed hq
    · obtain ⟨b, g, hg, hadvertises, rfl⟩ := ht.air p hp
      obtain ⟨hmessage, hne⟩ := mem_broadcast hout hq
      exact ⟨b, g, by omega, hadvertises, hmessage, hne⟩
  · rw [hsucc] at hx
    exact (ht.heard a x hx).mono (Nat.le_succ k)

theorem Traced.succ (ht : Traced net es k) : Traced net es (k + 1) := by
  rcases Nat.lt_or_ge k es.length with hk | hk
  · have hsucc : wAt net es (k + 1) = (wAt net es k).step net es[k] := stateAt_succ hk
    rcases World.step_cases net (wAt net es k) es[k] with ⟨-, hstep⟩ | ⟨b, s, hacts, hstep⟩ |
      ⟨i, p, out, -, hp, hout, hstep⟩
    · exact ht.keep (hsucc.trans hstep)
    · exact ht.acts (List.getElem?_eq_getElem hk) hacts (hsucc.trans hstep)
    · exact ht.relay hp hout (hsucc.trans hstep)
  · exact ht.keep (stateAt_end hk)

theorem traced (net : Net n) (es : List (Event n)) (k : ℕ) : Traced net es k := by
  induction k with
  | zero =>
    have hzero : wAt net es 0 = World.init := stateAt_zero _ _ _
    refine ⟨fun p hp => ?_, fun p hp => ?_, fun a x hx => ?_⟩
    · rw [hzero] at hp
      cases hp
    · rw [hzero] at hp
      cases hp
    · rw [hzero] at hx
      cases hx
  | succ k ih => exact ih.succ

/-! ## Entries -/

/-- What a node assigns is what it has heard of another. -/
theorem filed_heardFrom {f : ℕ} {x : List Char × List Char × ℕ} (hfiled : filed net es a f = some x) :
    HeardFrom net es f a x := by
  unfold filed at hfiled
  split at hfiled
  · exact (traced net es f).heard a x hfiled
  · cases hfiled

/-- What node `a` knows at `k`: it has assigned this in step `f`, after it heard it, and has assigned
nothing for the same id since. -/
def Known (net : Net n) (es : List (Event n)) (k : ℕ) (a : Fin n) (x : List Char × List Char × ℕ) : Prop :=
  ∃ f < k, filed net es a f = some x ∧ HeardFrom net es f a x ∧
    ∀ l, f < l → l < k → ∀ y, filed net es a l ≠ some (x.1, y)

/-- **Local groups are genuine**: in every run, every entry of a local group is what the node has assigned last
under that id: the id and the address of another node, which it has heard when its clock showed the time in the
entry, and which had sent its advertisement before. -/
theorem group_known (net : Net n) (es : List (Event n)) (k : ℕ) (a : Fin n)
    (x : List Char × List Char × ℕ) (hx : x ∈ ((wAt net es k).node a).localGroup.entries) :
    Known net es k a x := by
  obtain ⟨f, hf, hfiled, hsince⟩ := (history net es a).entry_filed hx
  exact ⟨f, hf, hfiled, filed_heardFrom hfiled, hsince⟩

theorem group_known_loses : Known quartet loses 7 0 (['1'], quartet.address 1, 0) :=
  group_known quartet loses 7 0 _ (by decide +kernel)

/-! ## Expiry -/

/-- `main` goes through its keys once in each pass: a pass begins where it takes its `keylist`, from the
time that it has read last. -/
theorem loop (net : Net n) (es : List (Event n)) (a : Fin n) :
    Leases.History.Loop (fun j => ((wAt net es j).node a).leases) (fun j => ((wAt net es j).node a).main = .test)
      (fun j => es[j]? = some (.main a) ∧ ((wAt net es j).node a).main = .list)
      (fun j => ((wAt net es j).node a).systime) where
  rests j htest := by
    show (MainPoint.toSweep _ _).start? = none
    rw [htest]
    rfl
  starts j start hrest hstart := by
    rcases node_succ net es j a with ⟨hev, s, hacts, hnode⟩ | ⟨-, hlistens⟩
    · rw [hnode] at hstart
      obtain ⟨hlist, htime⟩ := hacts.begins hrest hstart
      exact ⟨⟨hev, hlist⟩, htime⟩
    · rw [hlistens.sweep, hrest] at hstart
      cases hstart
  ends j hmain hend := by
    rcases node_succ net es j a with ⟨-, s, hacts, hnode⟩ | ⟨-, hlistens⟩
    · rw [hnode] at hend
      exact hacts.ends hmain hend (sound net es j a)
    · rcases hlistens.main with heq | ⟨keylist, failure, -, heq⟩
      · exact absurd (heq.symm.trans hend) hmain
      · rw [heq] at hend
        cases hend

/-- **What a pass leaves is current**: whenever `main` comes back to its test, in every run, each entry of
the local group is less than the heartbeat timer older than the time that `main` had read when it took its
keys, or was assigned since. -/
theorem group_swept (net : Net n) (es : List (Event n)) (a : Fin n) (j : ℕ)
    (hmain : ((wAt net es j).node a).main ≠ .test) (hend : ((wAt net es (j + 1)).node a).main = .test) :
    ∃ i < j, es[i]? = some (.main a) ∧ ((wAt net es i).node a).main = .list ∧
      (∀ l, i < l → l ≤ j → ((wAt net es l).node a).main ≠ .test) ∧
      ∀ x ∈ ((wAt net es (j + 1)).node a).localGroup.entries,
        ((wAt net es i).node a).systime < x.2.2 + bluetoothHeartbeatTimer ∨
          ∃ l, i < l ∧ l ≤ j ∧ filed net es a l = some x := by
  obtain ⟨i, hij, ⟨hev, hlist⟩, hout, hcurrent⟩ := (history net es a).pass (loop net es a) hmain hend
  exact ⟨i, hij, hev, hlist, hout, hcurrent⟩

theorem group_swept_loses :
    ∃ i < 15, loses[i]? = some (.main 0) ∧ ((wAt quartet loses i).node 0).main = .list ∧
      (∀ l, i < l → l ≤ 15 → ((wAt quartet loses l).node 0).main ≠ .test) ∧
      ∀ x ∈ ((wAt quartet loses 16).node 0).localGroup.entries,
        ((wAt quartet loses i).node 0).systime < x.2.2 + bluetoothHeartbeatTimer ∨
          ∃ l, i < l ∧ l ≤ 15 ∧ filed quartet loses 0 l = some x :=
  group_swept quartet loses 0 15 (by decide +kernel) (by decide +kernel)

/-- **What disappears was over its time**: in every run, an id leaves the local group of a node only if `main`
has looked at its entry in an earlier step and the entry was the heartbeat timer or more behind the clock then,
and it leaves in the next step of `main`. What is assigned to the id between these two steps is lost. -/
theorem group_dropped (net : Net n) (es : List (Event n)) (a : Fin n) (j : ℕ) (key : List Char)
    (hkey : key ∈ ((wAt net es j).node a).localGroup.keys)
    (hgone : key ∉ ((wAt net es (j + 1)).node a).localGroup.keys) :
    ∃ i < j, ∃ x, (key, x) ∈ ((wAt net es i).node a).localGroup.entries ∧
      x.2 + bluetoothHeartbeatTimer ≤ ((wAt net es i).node a).clock ∧
      es[i]? = some (.main a) ∧ es[j]? = some (.main a) ∧ (∀ l, i < l → l < j → es[l]? ≠ some (.main a)) ∧
      ∀ y, (key, y) ∈ ((wAt net es j).node a).localGroup.entries →
        y = x ∨ ∃ l, i < l ∧ l < j ∧ filed net es a l = some (key, y) := by
  obtain ⟨i, x, start, todo, hfound⟩ := (history net es a).dropped hkey hgone
  have hij : i < j := hfound.before
  have hchecking : ((wAt net es i).node a).leases.sweep = .checking start (key :: todo) := hfound.checking
  have hev : es[i]? = some (.main a) := by
    rcases node_succ net es i a with ⟨hev, -⟩ | ⟨-, hlistens⟩
    · exact hev
    · have hdeleting : ((wAt net es (i + 1)).node a).leases.sweep = .deleting start key todo :=
        hfound.deleting (i + 1) (Nat.lt_succ_self i) hij
      rw [hlistens.sweep, hchecking] at hdeleting
      cases hdeleting
  refine ⟨i, hij, x, hfound.mem, ?_, hev, ?_, fun l hil hlj hl => ?_, fun y hy => ?_⟩
  · -- the sweep began at a time that the clock has shown
    have htimed := timed net es i a
    have hstart : start = ((wAt net es i).node a).systime := htimed.start start (by rw [hchecking]; rfl)
    have hover : x.2 + bluetoothHeartbeatTimer ≤ start := hfound.overdue
    have hle := htimed.le
    omega
  · rcases node_succ net es j a with ⟨hev, -⟩ | ⟨-, hlistens⟩
    · exact hev
    · exact absurd (hlistens.keys.subset hkey) hgone
  · rcases node_succ net es l a with ⟨-, s, hacts, hnode⟩ | ⟨hnot, -⟩
    · have hdeleting : ((wAt net es l).node a).leases.sweep = .deleting start key todo :=
        hfound.deleting l hil (by omega)
      have hdeleting' : ((wAt net es (l + 1)).node a).leases.sweep = .deleting start key todo :=
        hfound.deleting (l + 1) (by omega) hlj
      rw [hnode] at hdeleting'
      exact hacts.deletes hdeleting hdeleting'
    · exact hnot hl
  · rcases (history net es a).entry_since hij.le hy with hold | ⟨l, hil, hlj, hfiled⟩
    · exact Or.inl (Prod.mk.inj (Dict.key_unique hold hfound.mem rfl)).2
    · refine Or.inr ⟨l, ?_, hlj, hfiled⟩
      rcases Nat.eq_or_lt_of_le hil with rfl | hil
      · unfold filed at hfiled
        rw [hev, if_neg (by simp)] at hfiled
        cases hfiled
      · exact hil

theorem group_dropped_loses :
    ∃ i < 25, ∃ x, (['1'], x) ∈ ((wAt quartet loses i).node 0).localGroup.entries ∧
      x.2 + bluetoothHeartbeatTimer ≤ ((wAt quartet loses i).node 0).clock ∧
      loses[i]? = some (.main 0) ∧ loses[25]? = some (.main 0) ∧
      (∀ l, i < l → l < 25 → loses[l]? ≠ some (.main 0)) ∧
      ∀ y, (['1'], y) ∈ ((wAt quartet loses 25).node 0).localGroup.entries →
        y = x ∨ ∃ l, i < l ∧ l < 25 ∧ filed quartet loses 0 l = some (['1'], y) :=
  group_dropped quartet loses 0 25 ['1'] (by decide +kernel) (by decide +kernel)

end EdgeConsensus.Local
