import EdgeConsensus.Lib.Json
import Mathlib.Algebra.GroupWithZero.Nat
import Mathlib.Order.Lattice.Nat

/-!
# How short a JSON text can be

No text of printable characters that `loads` reads as a value has fewer characters than the
one that `dumps` writes, if blanks do not count.

* `Takes`: what a scan takes off a text, next to what `dumps` would have written.
* `scansTake`: this of every scan of the decoder.
* `solid_dumps_le`: so the text of a value is not read from a part of it.
* `nul_of_loads`: no text has a NUL.
-/

namespace EdgeConsensus.Lib

namespace Json

/-- How many characters of the text are no blanks. -/
def solid (cs : List Char) : ℕ := cs.countP fun c => !isSpace c

@[simp] theorem solid_nil : solid [] = 0 := rfl

@[simp] theorem solid_append (cs ds : List Char) : solid (cs ++ ds) = solid cs + solid ds :=
  List.countP_append

theorem solid_cons (c : Char) (cs : List Char) :
    solid (c :: cs) = solid cs + if isSpace c then 0 else 1 := by
  unfold solid
  rw [List.countP_cons]
  cases isSpace c <;> rfl

theorem solid_le_length (cs : List Char) : solid cs ≤ cs.length := List.countP_le_length

theorem solid_of_not_space {cs : List Char} (h : ∀ c ∈ cs, isSpace c = false) : solid cs = cs.length := by
  refine List.countP_eq_length.2 fun c hc => ?_
  rw [h c hc]
  rfl

/-! ## What a scan takes -/

/-- From `cs` to `rest` no NUL is taken, and among printable characters as many that are no blanks as
`written` has. -/
def Takes (cs rest written : List Char) : Prop :=
  ∃ used, cs = used ++ rest ∧ '\x00' ∉ used ∧ ((∀ c ∈ used, c.toNat ≤ 126) → solid written ≤ solid used)

theorem Takes.refl (cs : List Char) : Takes cs cs [] :=
  ⟨[], rfl, List.not_mem_nil, fun _ => le_rfl⟩

theorem Takes.trans {cs mid rest a b : List Char} (h : Takes cs mid a) (h' : Takes mid rest b) :
    Takes cs rest (a ++ b) := by
  obtain ⟨used, rfl, hnul, hsolid⟩ := h
  obtain ⟨used', rfl, hnul', hsolid'⟩ := h'
  refine ⟨used ++ used', (List.append_assoc _ _ _).symm, ?_, fun hprint => ?_⟩
  · rw [List.mem_append]
    exact not_or.2 ⟨hnul, hnul'⟩
  · have h1 := hsolid fun c hc => hprint c (List.mem_append_left _ hc)
    have h2 := hsolid' fun c hc => hprint c (List.mem_append_right _ hc)
    rw [solid_append, solid_append]
    omega

theorem Takes.mono {cs rest a b : List Char} (h : Takes cs rest a) (hle : solid b ≤ solid a) :
    Takes cs rest b := by
  obtain ⟨used, hcs, hnul, hsolid⟩ := h
  exact ⟨used, hcs, hnul, fun hprint => hle.trans (hsolid hprint)⟩

theorem takes_of_solid (used : List Char) {rest written : List Char} (hnul : '\x00' ∉ used)
    (hle : solid written ≤ solid used) : Takes (used ++ rest) rest written :=
  ⟨used, rfl, hnul, fun _ => hle⟩

theorem takes_head {cs : List Char} {c : Char} (h : cs.head? = some c) (hc : c ≠ '\x00') :
    Takes cs cs.tail [c] := by
  cases cs with
  | nil => cases h
  | cons d ds =>
    obtain rfl : d = c := by simpa using h
    exact takes_of_solid [d] (by simpa using hc.symm) le_rfl

theorem takes_skip (cs : List Char) : Takes cs (skip cs) [] := by
  induction cs with
  | nil => exact Takes.refl []
  | cons c cs ih =>
    unfold skip
    split
    · rename_i h
      have hnul : c ≠ '\x00' := by
        rintro rfl
        revert h
        decide
      have hone : Takes (c :: cs) cs [c] := takes_head rfl hnul
      have hblank : Takes (c :: cs) cs [] := hone.mono (Nat.zero_le _)
      exact hblank.trans ih
    · exact Takes.refl _

/-- A scan that goes on behind the blanks. -/
theorem Takes.skip {cs rest a : List Char} (h : Takes cs rest a) : Takes cs (skip rest) a := by
  have htrans := h.trans (takes_skip rest)
  rwa [List.append_nil] at htrans

theorem takes_dropLiteral {literal text rest : List Char} (hnul : '\x00' ∉ literal)
    (h : dropLiteral literal text = some rest) : Takes text rest literal := by
  unfold dropLiteral at h
  split at h
  · rename_i hprefix
    obtain ⟨tail, rfl⟩ := List.isPrefixOf_iff_prefix.1 hprefix
    obtain rfl : tail = rest := by simpa using h
    exact takes_of_solid literal hnul le_rfl
  · cases h

theorem takes_literal {c d : Char} {word cs rest : List Char} {x y : Json} (hc : c = d)
    (hword : dumps y = d :: word) (hnul : '\x00' ∉ d :: word)
    (h : (dropLiteral word cs).bind (fun rest => some (y, rest)) = some (x, rest)) :
    Takes (c :: cs) rest (dumps x) := by
  obtain ⟨mid, hdrop, h⟩ := Option.bind_eq_some_iff.1 h
  obtain ⟨rfl, rfl⟩ := Prod.mk.inj (Option.some.inj h)
  obtain ⟨hd, hrest⟩ := not_or.1 (mt List.mem_cons.2 hnul)
  have hhead : Takes (c :: cs) cs [d] := takes_head (congrArg some hc) (Ne.symm hd)
  rw [hword]
  exact hhead.trans (takes_dropLiteral hrest hdrop)

/-! ## Strings -/

theorem hexVal_plain {c : Char} {d : ℕ} (h : hexVal c = some d) : isSpace c = false ∧ c ≠ '\x00' ∧ d < 16 := by
  have hc : ∀ {e : Char}, hexVal e = none → c ≠ e := by
    rintro e he rfl
    rw [he] at h
    cases h
  refine ⟨?_, hc rfl, ?_⟩
  · have h1 := hc (e := ' ') rfl
    have h2 := hc (e := '\t') rfl
    have h3 := hc (e := '\n') rfl
    have h4 := hc (e := '\r') rfl
    simp [isSpace, h1, h2, h3, h4]
  · unfold hexVal at h
    split at h
    · rename_i hrange
      have hle : c.toNat ≤ 57 := hrange.2
      cases h
      omega
    · split at h
      · rename_i hrange
        have hle : c.toNat ≤ 102 := hrange.2
        cases h
        omega
      · split at h
        · rename_i hrange
          have hle : c.toNat ≤ 70 := hrange.2
          cases h
          omega
        · cases h

/-- Four digits are taken, and they are a number of two bytes. -/
theorem takes_scanHex {cs rest : List Char} {n : ℕ} (h : scanHex cs = some (n, rest)) :
    Takes cs rest (hex4 0) ∧ n < 0x10000 := by
  match cs, h with
  | a :: b :: c :: d :: tail, h =>
    simp only [scanHex, Option.bind_eq_bind, Option.bind_eq_some_iff, Option.pure_def, Option.some.injEq,
      Prod.mk.injEq] at h
    obtain ⟨i, hi, j, hj, k, hk, l, hl, rfl, rfl⟩ := h
    have ha := hexVal_plain hi
    have hb := hexVal_plain hj
    have hc := hexVal_plain hk
    have hd := hexVal_plain hl
    refine ⟨takes_of_solid [a, b, c, d] ?_ ?_, by omega⟩
    · simp [ha.2.1.symm, hb.2.1.symm, hc.2.1.symm, hd.2.1.symm]
    · have hused : solid [a, b, c, d] = 4 := by
        refine solid_of_not_space fun x hx => ?_
        simp only [List.mem_cons, List.not_mem_nil, or_false] at hx
        rcases hx with rfl | rfl | rfl | rfl
        exacts [ha.1, hb.1, hc.1, hd.1]
      rw [hused]
      exact solid_le_length _

/-- An escaped character is short, and shorter in the basic plane. -/
theorem solid_escape (c : Char) :
    solid (escape c) ≤ 12 ∧ (c.toNat < 0x10000 → solid (escape c) ≤ 6) := by
  have hescaped := escaped c
  have hlen := solid_le_length (escape c)
  generalize escape c = l at hescaped hlen ⊢
  have hbound : l.length ≤ 12 ∧ (c.toNat < 0x10000 → l.length ≤ 6) := by
    cases hescaped with
    | short he => exact ⟨by simp, fun _ => by simp⟩
    | plain hquote hbackslash hprint => exact ⟨by simp, fun _ => by simp⟩
    | hex hsmall => exact ⟨by simp [hex4], fun _ => by simp [hex4]⟩
    | pair hbig => exact ⟨by simp [hex4], fun hsmall => absurd hsmall (Nat.not_lt.2 hbig)⟩
  exact ⟨hlen.trans hbound.1, fun h => hlen.trans (hbound.2 h)⟩

theorem toNat_ofNat_le (n : ℕ) : (Char.ofNat n).toNat ≤ n := by
  by_cases hvalid : n.isValidChar
  · rw [Char.ofNat, dif_pos hvalid]
    exact le_rfl
  · rw [Char.ofNat, dif_neg hvalid]
    exact Nat.zero_le n

/-- The second character of an escape of two. -/
theorem unescape_plain {e c : Char} (h : unescape e = some c) :
    solid (escape c) ≤ 2 ∧ isSpace e = false ∧ e ≠ '\x00' := by
  unfold unescape at h
  repeat' split at h
  all_goals try cases h
  all_goals
    subst e
    decide

theorem takes_scanLow {n : ℕ} {cs rest : List Char} {c : Char} (h : scanLow n cs = some (c, rest)) :
    Takes cs rest (['\\', 'u'] ++ hex4 0) := by
  match cs with
  | [] => cases h
  | [_] => cases h
  | b :: u :: tail =>
    by_cases hbu : b = '\\' ∧ u = 'u'
    · rw [scanLow, if_pos hbu] at h
      obtain ⟨rfl, rfl⟩ := hbu
      obtain ⟨⟨m, more⟩, hhex, h⟩ := Option.bind_eq_some_iff.1 h
      dsimp only at h
      have hmore : more = rest := by
        split at h
        · exact congrArg Prod.snd (Option.some.inj h)
        · cases h
      subst hmore
      have htwo : Takes ('\\' :: 'u' :: tail) tail ['\\', 'u'] :=
        takes_of_solid ['\\', 'u'] (by decide) le_rfl
      exact htwo.trans (takes_scanHex hhex).1
    · rw [scanLow, if_neg hbu] at h
      cases h

/-- What follows a backslash. -/
theorem takes_scanEscape {cs rest : List Char} {c : Char} (h : scanEscape cs = some (c, rest)) :
    ∃ written, Takes cs rest written ∧ solid (escape c) ≤ solid written + 1 := by
  cases cs with
  | nil => cases h
  | cons e tail =>
    by_cases hu : e = 'u'
    · subst hu
      rw [scanEscape, if_pos rfl] at h
      obtain ⟨⟨n, more⟩, hhex, h⟩ := Option.bind_eq_some_iff.1 h
      dsimp only at h
      have hone : Takes ('u' :: tail) tail ['u'] := takes_of_solid ['u'] (by decide) le_rfl
      have hdigits := hone.trans (takes_scanHex hhex).1
      have hn := (takes_scanHex hhex).2
      split at h
      · exact ⟨_, hdigits.trans (takes_scanLow h), (solid_escape c).1⟩
      · split at h
        · cases h
        · obtain ⟨rfl, rfl⟩ := Prod.mk.inj (Option.some.inj h)
          have hsmall := toNat_ofNat_le n
          exact ⟨_, hdigits, (solid_escape (Char.ofNat n)).2 (by omega)⟩
    · rw [scanEscape, if_neg hu] at h
      obtain ⟨d, hd, h⟩ := Option.bind_eq_some_iff.1 h
      obtain ⟨rfl, rfl⟩ := Prod.mk.inj (Option.some.inj h)
      obtain ⟨hshort, hspace, hnul⟩ := unescape_plain hd
      have hone : Takes (e :: tail) tail [e] := takes_head rfl hnul
      have hsolid : solid [e] = 1 := solid_of_not_space (by simpa using hspace)
      exact ⟨_, hone, by omega⟩

theorem takes_scanChar {cs rest : List Char} {c : Char} (hquote : cs.head? ≠ some '"')
    (h : scanChar cs = some (c, rest)) : Takes cs rest (escape c) := by
  cases cs with
  | nil => cases h
  | cons d tail =>
    by_cases hd : d = '\\'
    · subst hd
      rw [scanChar, if_pos rfl] at h
      obtain ⟨written, hwritten, hle⟩ := takes_scanEscape h
      have hone : Takes ('\\' :: tail) tail ['\\'] := takes_of_solid ['\\'] (by decide) le_rfl
      refine (hone.trans hwritten).mono ?_
      rw [solid_append]
      have hsolid : solid ['\\'] = 1 := rfl
      omega
    · rw [scanChar, if_neg hd] at h
      split at h
      · cases h
      · rename_i hprint
        obtain ⟨rfl, rfl⟩ := Prod.mk.inj (Option.some.inj h)
        have hnul : d ≠ '\x00' := by
          rintro rfl
          exact hprint (by decide)
        refine ⟨[d], rfl, by simpa using hnul.symm, fun hused => ?_⟩
        -- a printable character that is no quote stands for itself
        have hplain : escape d = [d] := by
          have hne : ∀ e : Char, e.toNat < 32 → d ≠ e := by
            rintro e he rfl
            exact hprint he
          have hself : d ≠ '"' := by simpa using hquote
          rw [escape, if_neg hself, if_neg hd, if_neg (hne _ (by decide)), if_neg (hne _ (by decide)),
            if_neg (hne _ (by decide)), if_neg (hne _ (by decide)), if_neg (hne _ (by decide)),
            if_pos ⟨Nat.le_of_not_lt hprint, hused d List.mem_cons_self⟩]
        rw [hplain]

theorem takes_scanString (fuel : ℕ) : ∀ {cs rest s : List Char}, scanString fuel cs = some (s, rest) →
    Takes cs rest (s.flatMap escape ++ ['"']) := by
  induction fuel with
  | zero =>
    intro cs rest s h
    cases h
  | succ fuel ih =>
    intro cs rest s h
    by_cases hquote : cs.head? = some '"'
    · rw [scanString, if_pos hquote] at h
      obtain ⟨rfl, rfl⟩ := Prod.mk.inj (Option.some.inj h)
      exact takes_head hquote (by decide)
    · rw [scanString, if_neg hquote] at h
      obtain ⟨⟨c, mid⟩, hchar, h⟩ := Option.bind_eq_some_iff.1 h
      obtain ⟨⟨s', rest'⟩, hstring, h⟩ := Option.bind_eq_some_iff.1 h
      obtain ⟨rfl, rfl⟩ := Prod.mk.inj (Option.some.inj h)
      rw [List.flatMap_cons, List.append_assoc]
      exact (takes_scanChar hquote hchar).trans (ih hstring)

/-! ## Numbers -/

theorem ofDigitChars_lt {cs : List Char} (h : ∀ c ∈ cs, c.isDigit = true) :
    ∀ init, Nat.ofDigitChars 10 cs init < 10 ^ cs.length * (init + 1) := by
  induction cs with
  | nil =>
    intro init
    simp
  | cons c cs ih =>
    intro init
    have hc : c.isDigit = true := h c List.mem_cons_self
    have hdigit : c.toNat - '0'.toNat < 10 := by
      simp only [Char.isDigit, Bool.and_eq_true, decide_eq_true_eq] at hc
      have hle : c.toNat ≤ 57 := hc.2
      have hzero : '0'.toNat = 48 := rfl
      omega
    have hrest := ih (fun x hx => h x (List.mem_cons_of_mem c hx)) (10 * init + (c.toNat - '0'.toNat))
    rw [Nat.ofDigitChars_cons]
    refine hrest.trans_le ?_
    rw [List.length_cons, Nat.pow_succ, Nat.mul_assoc]
    exact Nat.mul_le_mul_left _ (by omega)

/-- Digits are at least as many as their number has. -/
theorem takes_digits (cs : List Char) (h : ∀ c ∈ cs, c.isDigit = true) (hne : cs ≠ []) (rest : List Char) :
    Takes (cs ++ rest) rest (Nat.toDigits 10 (Nat.ofDigitChars 10 cs 0)) := by
  have hnul : '\x00' ∉ cs := by
    intro hmem
    exact absurd (h _ hmem) (by decide)
  have hsolid : solid cs = cs.length := solid_of_not_space fun c hc => (isDigit_plain (h c hc)).1
  have hlt := ofDigitChars_lt h 0
  refine takes_of_solid cs hnul ((solid_le_length _).trans ?_)
  rw [hsolid, Nat.length_toDigits_le_iff (by omega) (List.length_pos_iff.2 hne)]
  simpa using hlt

theorem takes_scanDigits {cs rest : List Char} {n : ℕ} (h : scanDigits cs = some (n, rest)) :
    Takes cs rest (Nat.toDigits 10 n) := by
  cases cs with
  | nil => cases h
  | cons c tail =>
    by_cases hzero : c = '0'
    · rw [scanDigits, if_pos hzero] at h
      obtain ⟨rfl, rfl⟩ := Prod.mk.inj (Option.some.inj h)
      subst hzero
      exact takes_digits ['0'] (List.forall_mem_singleton.2 rfl) (List.cons_ne_nil _ _) tail
    rw [scanDigits, if_neg hzero] at h
    by_cases hdigit : c.isDigit = true
    · rw [if_pos hdigit] at h
      obtain ⟨rfl, rfl⟩ := Prod.mk.inj (Option.some.inj h)
      have hall : ∀ d ∈ (c :: tail).takeWhile Char.isDigit, d.isDigit = true :=
        List.all_eq_true.1 List.all_takeWhile
      have hne : (c :: tail).takeWhile Char.isDigit ≠ [] := by
        rw [List.takeWhile_cons_of_pos hdigit]
        exact List.cons_ne_nil _ _
      have htakes := takes_digits _ hall hne ((c :: tail).dropWhile Char.isDigit)
      rwa [List.takeWhile_append_dropWhile] at htakes
    · rw [if_neg hdigit] at h
      cases h

theorem takes_scanNumber {cs rest : List Char} {x : Json} (h : scanNumber cs = some (x, rest)) :
    Takes cs rest (dumps x) := by
  unfold scanNumber at h
  by_cases hminus : cs.head? = some '-'
  · rw [if_pos hminus] at h
    obtain ⟨⟨z, mid⟩, hz, h⟩ := Option.bind_eq_some_iff.1 h
    obtain ⟨⟨n, rest'⟩, hdigits, heq⟩ := Option.map_eq_some_iff.1 hz
    obtain ⟨rfl, rfl⟩ := Prod.mk.inj heq
    dsimp only at h
    split at h
    · cases h
    obtain ⟨rfl, rfl⟩ := Prod.mk.inj (Option.some.inj h)
    refine ((takes_head hminus (by decide)).trans (takes_scanDigits hdigits)).mono ?_
    -- the text of 0 has no sign
    rw [dumps, dumpsInt, Int.natAbs_neg, Int.natAbs_natCast]
    split
    · exact le_rfl
    · rw [solid_append]
      exact Nat.le_add_left _ _
  · rw [if_neg hminus] at h
    obtain ⟨⟨z, mid⟩, hz, h⟩ := Option.bind_eq_some_iff.1 h
    obtain ⟨⟨n, rest'⟩, hdigits, heq⟩ := Option.map_eq_some_iff.1 hz
    obtain ⟨rfl, rfl⟩ := Prod.mk.inj heq
    dsimp only at h
    split at h
    · cases h
    obtain ⟨rfl, rfl⟩ := Prod.mk.inj (Option.some.inj h)
    rw [dumps, dumpsInt, if_neg (by omega), Int.natAbs_natCast]
    exact takes_scanDigits hdigits

/-! ## Dicts -/

/-- What an item adds to the text of a dict: its key, a colon, its value, and a comma or a brace. -/
def itemSize (item : String × Json) : ℕ := solid (dumpsStr item.1) + solid (dumps item.2) + 2

def itemsSize (items : List (String × Json)) : ℕ := (items.map itemSize).sum

theorem solid_dumpsItems : ∀ {items : List (String × Json)}, items ≠ [] →
    solid (dumpsItems items) + 1 = itemsSize items
  | [], h => absurd rfl h
  | [(k, x)], _ => by
    have hcolon : solid [':', ' '] = 1 := rfl
    simp only [dumpsItems, solid_append, hcolon, itemsSize, itemSize, List.map_cons, List.map_nil,
      List.sum_cons, List.sum_nil]
    omega
  | (k, x) :: item :: items, _ => by
    have hrest : solid (dumpsItems (item :: items)) + 1 = itemsSize (item :: items) :=
      solid_dumpsItems (List.cons_ne_nil _ _)
    have hcolon : solid [':', ' '] = 1 := rfl
    have hcomma : solid [',', ' '] = 1 := rfl
    simp only [dumpsItems, solid_append, hcolon, hcomma]
    simp only [itemsSize, itemSize, List.map_cons, List.sum_cons] at hrest ⊢
    omega

/-- A value in the place of another one is at most as long as both. -/
theorem itemsSize_replace {k : String} {x : Json} : ∀ {items : List (String × Json)},
    (items.map Prod.fst).Nodup →
    itemsSize (items.map fun item => if item.1 = k then (k, x) else item) ≤ itemsSize items + itemSize (k, x)
  | [], _ => Nat.zero_le _
  | item :: items, hnodup => by
    rw [List.map_cons, List.nodup_cons] at hnodup
    by_cases hk : item.1 = k
    · have hid : items.map (fun item => if item.1 = k then (k, x) else item) = items := by
        refine (List.map_congr_left fun other hother => ?_).trans (List.map_id items)
        have hne : other.1 ≠ k := by
          intro heq
          exact hnodup.1 (by rw [hk, ← heq]; exact List.mem_map_of_mem hother)
        rw [if_neg hne]
        rfl
      rw [List.map_cons, if_pos hk, hid]
      simp only [itemsSize, List.map_cons, List.sum_cons]
      omega
    · have hrest := itemsSize_replace (k := k) (x := x) hnodup.2
      rw [List.map_cons, if_neg hk]
      simp only [itemsSize, List.map_cons, List.sum_cons] at hrest ⊢
      omega

theorem assign_keys (items : List (String × Json)) (k : String) (x : Json)
    (h : (items.map Prod.fst).Nodup) : ((assign items k x).map Prod.fst).Nodup := by
  unfold assign
  split
  · have hkeys : (items.map fun item => if item.1 = k then (k, x) else item).map Prod.fst =
        items.map Prod.fst := by
      rw [List.map_map]
      refine List.map_congr_left fun item _ => ?_
      show (if item.1 = k then (k, x) else item).1 = item.1
      split
      · rename_i hk
        exact hk.symm
      · rfl
    rw [hkeys]
    exact h
  · rename_i hfresh
    rw [List.map_append, List.nodup_append]
    refine ⟨h, by simp, ?_⟩
    rintro key hkey key' hkey' rfl
    obtain rfl : key = k := by simpa using hkey'
    obtain ⟨item, hitem, hitemkey⟩ := List.mem_map.1 hkey
    exact hfresh (List.any_eq_true.2 ⟨item, hitem, by simpa using hitemkey⟩)

theorem itemsSize_assign {items : List (String × Json)} {k : String} {x : Json}
    (h : (items.map Prod.fst).Nodup) :
    itemsSize (assign items k x) ≤ itemsSize items + itemSize (k, x) := by
  unfold assign
  split
  · exact itemsSize_replace h
  · simp [itemsSize]

theorem itemsSize_foldl (pairs : List (String × Json)) : ∀ items : List (String × Json),
    (items.map Prod.fst).Nodup →
    itemsSize (pairs.foldl (fun items pair => assign items pair.1 pair.2) items) ≤
      itemsSize items + itemsSize pairs := by
  induction pairs with
  | nil =>
    intro items _
    exact Nat.le_add_right _ _
  | cons pair pairs ih =>
    intro items hnodup
    have hone : itemsSize (assign items pair.1 pair.2) ≤ itemsSize items + itemSize pair :=
      itemsSize_assign hnodup
    have hrest := ih (assign items pair.1 pair.2) (assign_keys items pair.1 pair.2 hnodup)
    rw [List.foldl_cons]
    simp only [itemsSize, List.map_cons, List.sum_cons] at hone hrest ⊢
    omega

/-- Pairs of which some are overwritten make a dict that is no longer than they are. -/
theorem solid_ofPairs (pairs : List (String × Json)) (hne : pairs ≠ []) :
    solid (dumpsItems (ofPairs pairs)) ≤ solid (dumpsItems pairs) := by
  have hpairs := solid_dumpsItems hne
  have hsize : itemsSize (ofPairs pairs) ≤ itemsSize [] + itemsSize pairs :=
    itemsSize_foldl pairs [] List.nodup_nil
  have hempty : itemsSize [] = 0 := rfl
  by_cases hnil : ofPairs pairs = []
  · rw [hnil]
    exact Nat.zero_le _
  · have hdict := solid_dumpsItems hnil
    omega

/-! ## Values -/

/-- What the scans of a nesting take. -/
structure ScansTake (fuel : ℕ) : Prop where
  once : ∀ {cs rest x}, scanOnce fuel cs = some (x, rest) → Takes cs rest (dumps x)
  list : ∀ {cs rest xs}, scanList fuel cs = some (xs, rest) → Takes cs rest (dumpsList xs ++ [']'])
  items : ∀ {cs rest pairs}, scanItems fuel cs = some (pairs, rest) →
    pairs ≠ [] ∧ Takes cs rest (dumpsItems pairs ++ ['}'])

section

variable {fuel : ℕ} (ih : ScansTake fuel)
include ih

theorem takes_scanOnce {cs rest : List Char} {x : Json} (h : scanOnce (fuel + 1) cs = some (x, rest)) :
    Takes cs rest (dumps x) := by
  cases cs with
  | nil => cases h
  | cons c cs =>
    rw [scanOnce] at h
    have hone : ∀ {d : Char}, d ≠ '\x00' → c = d → Takes (c :: cs) cs [d] := by
      rintro d hd rfl
      exact takes_head rfl hd
    split at h
    · rename_i hc
      obtain ⟨⟨s, mid⟩, hstring, h⟩ := Option.bind_eq_some_iff.1 h
      obtain ⟨rfl, rfl⟩ := Prod.mk.inj (Option.some.inj h)
      have htakes := (hone (by decide) hc).trans (takes_scanString fuel hstring)
      rw [dumps, dumpsStr, String.toList_ofList, List.append_assoc]
      exact htakes
    split at h
    · rename_i hc
      have hopen := (hone (by decide) hc).skip
      split at h
      · rename_i hclose
        obtain ⟨rfl, rfl⟩ := Prod.mk.inj (Option.some.inj h)
        exact hopen.trans (takes_head hclose (by decide))
      · obtain ⟨⟨pairs, mid⟩, hitems, h⟩ := Option.bind_eq_some_iff.1 h
        obtain ⟨rfl, rfl⟩ := Prod.mk.inj (Option.some.inj h)
        obtain ⟨hne, hpairs⟩ := ih.items hitems
        refine (hopen.trans hpairs).mono ?_
        have hle := solid_ofPairs pairs hne
        simp only [dumps, solid_append]
        omega
    split at h
    · rename_i hc
      have hopen := (hone (by decide) hc).skip
      split at h
      · rename_i hclose
        obtain ⟨rfl, rfl⟩ := Prod.mk.inj (Option.some.inj h)
        exact hopen.trans (takes_head hclose (by decide))
      · obtain ⟨⟨xs, mid⟩, hlist, h⟩ := Option.bind_eq_some_iff.1 h
        obtain ⟨rfl, rfl⟩ := Prod.mk.inj (Option.some.inj h)
        have htakes := hopen.trans (ih.list hlist)
        rw [dumps, List.append_assoc]
        exact htakes
    -- the three literals
    split at h
    · rename_i hc
      exact takes_literal (y := .null) hc rfl (by decide) h
    split at h
    · rename_i hc
      exact takes_literal (y := .bool true) hc rfl (by decide) h
    split at h
    · rename_i hc
      exact takes_literal (y := .bool false) hc rfl (by decide) h
    · exact takes_scanNumber h

theorem takes_scanList {cs rest : List Char} {xs : List Json} (h : scanList (fuel + 1) cs = some (xs, rest)) :
    Takes cs rest (dumpsList xs ++ [']']) := by
  rw [scanList] at h
  obtain ⟨⟨x, mid⟩, hx, h⟩ := Option.bind_eq_some_iff.1 h
  have hvalue := (ih.once hx).skip
  dsimp only at h
  split at h
  · rename_i hclose
    obtain ⟨rfl, rfl⟩ := Prod.mk.inj (Option.some.inj h)
    exact hvalue.trans (takes_head hclose (by decide))
  split at h
  · rename_i hcomma
    obtain ⟨⟨ys, mid'⟩, hlist, h⟩ := Option.bind_eq_some_iff.1 h
    obtain ⟨rfl, rfl⟩ := Prod.mk.inj (Option.some.inj h)
    have hsep := (takes_head hcomma (by decide)).skip
    refine ((hvalue.trans hsep).trans (ih.list hlist)).mono ?_
    cases ys with
    | nil =>
      simp only [dumpsList, solid_append, solid_nil]
      omega
    | cons y ys =>
      have hblank : solid [',', ' '] = solid [','] := rfl
      simp only [dumpsList, solid_append, hblank]
      omega
  · cases h

theorem takes_scanItems {cs rest : List Char} {pairs : List (String × Json)}
    (h : scanItems (fuel + 1) cs = some (pairs, rest)) :
    pairs ≠ [] ∧ Takes cs rest (dumpsItems pairs ++ ['}']) := by
  rw [scanItems] at h
  split at h
  swap
  · cases h
  rename_i hquote
  obtain ⟨⟨key, mid⟩, hkey, h⟩ := Option.bind_eq_some_iff.1 h
  have hstring := ((takes_head hquote (by decide)).trans (takes_scanString fuel hkey)).skip
  dsimp only at h
  split at h
  swap
  · cases h
  rename_i hcolon
  obtain ⟨⟨x, mid'⟩, hx, h⟩ := Option.bind_eq_some_iff.1 h
  -- the key, its colon and its value
  have hitem := (hstring.trans (takes_head hcolon (by decide)).skip).trans (ih.once hx).skip
  have hcolonBlank : solid [':', ' '] = solid [':'] := rfl
  dsimp only at h
  split at h
  · rename_i hclose
    obtain ⟨rfl, rfl⟩ := Prod.mk.inj (Option.some.inj h)
    refine ⟨List.cons_ne_nil _ _, (hitem.trans (takes_head hclose (by decide))).mono ?_⟩
    simp only [dumpsItems, dumpsStr, String.toList_ofList, solid_append, hcolonBlank]
    omega
  split at h
  · rename_i hcomma
    obtain ⟨⟨more, mid''⟩, hitems, h⟩ := Option.bind_eq_some_iff.1 h
    obtain ⟨rfl, rfl⟩ := Prod.mk.inj (Option.some.inj h)
    obtain ⟨hne, hmore⟩ := ih.items hitems
    refine ⟨List.cons_ne_nil _ _, ?_⟩
    have hsep := (takes_head hcomma (by decide)).skip
    refine ((hitem.trans hsep).trans hmore).mono ?_
    obtain ⟨pair, pairs, rfl⟩ := List.exists_cons_of_ne_nil hne
    have hcommaBlank : solid [',', ' '] = solid [','] := rfl
    simp only [dumpsItems, dumpsStr, String.toList_ofList, solid_append, hcolonBlank, hcommaBlank]
    omega
  · cases h

end

/-- **What a scan takes is at least as long as what `dumps` writes** for its value. -/
theorem scansTake (fuel : ℕ) : ScansTake fuel := by
  induction fuel with
  | zero =>
    refine ⟨?_, ?_, ?_⟩
    · intro cs rest x h
      cases h
    · intro cs rest xs h
      cases h
    · intro cs rest pairs h
      cases h
  | succ fuel ih => exact ⟨takes_scanOnce ih, takes_scanList ih, takes_scanItems ih⟩

theorem takes_loads {text : List Char} {x : Json} (h : loads text = some x) : Takes text [] (dumps x) := by
  unfold loads at h
  obtain ⟨⟨y, rest⟩, hscan, h⟩ := Option.bind_eq_some_iff.1 h
  dsimp only at h
  split at h
  · rename_i hrest
    obtain rfl := Option.some.inj h
    have htakes := ((takes_skip text).trans ((scansTake _).once hscan)).skip
    rw [hrest] at htakes
    exact htakes
  · cases h

/-- **The text of a value is not read from a part of it**, blanks apart. -/
theorem solid_dumps_le {text : List Char} {x : Json} (h : loads text = some x)
    (hprint : ∀ c ∈ text, c.toNat ≤ 126) : solid (dumps x) ≤ solid text := by
  obtain ⟨used, rfl, -, hsolid⟩ := takes_loads h
  rw [List.append_nil] at hprint ⊢
  exact hsolid hprint

/-- **No text has a NUL.** -/
theorem nul_of_loads {text : List Char} {x : Json} (h : loads text = some x) : '\x00' ∉ text := by
  obtain ⟨used, rfl, hnul, -⟩ := takes_loads h
  rw [List.append_nil]
  exact hnul

/-! ## The text of a value -/

/-- The characters that `ensure_ascii` leaves. -/
def Printable (cs : List Char) : Prop := ∀ c ∈ cs, 32 ≤ c.toNat ∧ c.toNat ≤ 126

theorem printable_of_all {cs : List Char} (h : cs.all (fun c => 32 ≤ c.toNat ∧ c.toNat ≤ 126) = true) :
    Printable cs := fun c hc => of_decide_eq_true (List.all_eq_true.1 h c hc)

theorem Printable.append {cs ds : List Char} (h : Printable cs) (h' : Printable ds) : Printable (cs ++ ds) := by
  intro c hc
  rcases List.mem_append.1 hc with hc | hc
  · exact h c hc
  · exact h' c hc

theorem printable_hex4 (n : ℕ) : Printable (hex4 n) := by
  have hdigit : ∀ d < 16, 32 ≤ (Nat.digitChar d).toNat ∧ (Nat.digitChar d).toNat ≤ 126 := by decide
  intro c hc
  simp only [hex4, List.mem_cons, List.not_mem_nil, or_false] at hc
  rcases hc with rfl | rfl | rfl | rfl <;> exact hdigit _ (Nat.mod_lt _ (by omega))

theorem printable_escape (c : Char) : Printable (escape c) := by
  have hu : Printable ['\\', 'u'] := printable_of_all rfl
  unfold escape
  repeat' split
  any_goals exact printable_of_all rfl
  · rename_i hprint
    intro d hd
    obtain rfl : d = c := by simpa using hd
    exact hprint
  · exact hu.append (printable_hex4 _)
  · exact ((hu.append (printable_hex4 _)).append hu).append (printable_hex4 _)

theorem printable_dumpsStr (s : String) : Printable (dumpsStr s) := by
  have hquote : Printable ['"'] := printable_of_all rfl
  refine (hquote.append fun c hc => ?_).append hquote
  obtain ⟨d, -, hd⟩ := List.mem_flatMap.1 hc
  exact printable_escape d c hd

theorem printable_dumpsInt (z : ℤ) : Printable (dumpsInt z) := by
  have hdigits : Printable (Nat.toDigits 10 z.natAbs) := by
    intro c hc
    have hdigit := Nat.isDigit_of_mem_toDigits (by omega) (by omega) hc
    simp only [Char.isDigit, Bool.and_eq_true, decide_eq_true_eq] at hdigit
    have hlow : 48 ≤ c.toNat := hdigit.1
    have hhigh : c.toNat ≤ 57 := hdigit.2
    omega
  have hminus : Printable ['-'] := printable_of_all rfl
  unfold dumpsInt
  split
  · exact hminus.append hdigits
  · exact hdigits

mutual

theorem printable_dumps : ∀ x : Json, Printable (dumps x)
  | .null => printable_of_all rfl
  | .bool true => printable_of_all rfl
  | .bool false => printable_of_all rfl
  | .int z => by
    rw [dumps]
    exact printable_dumpsInt z
  | .str s => by
    rw [dumps]
    exact printable_dumpsStr s
  | .list xs => by
    have hopen : Printable ['['] := printable_of_all rfl
    have hclose : Printable [']'] := printable_of_all rfl
    rw [dumps]
    exact (hopen.append (printable_dumpsList xs)).append hclose
  | .dict items => by
    have hopen : Printable ['{'] := printable_of_all rfl
    have hclose : Printable ['}'] := printable_of_all rfl
    rw [dumps]
    exact (hopen.append (printable_dumpsItems items)).append hclose

theorem printable_dumpsList : ∀ xs : List Json, Printable (dumpsList xs)
  | [] => fun _ hc => absurd hc List.not_mem_nil
  | [x] => printable_dumps x
  | x :: y :: xs => by
    have hcomma : Printable [',', ' '] := printable_of_all rfl
    rw [dumpsList]
    exact ((printable_dumps x).append hcomma).append (printable_dumpsList (y :: xs))

theorem printable_dumpsItems : ∀ items : List (String × Json), Printable (dumpsItems items)
  | [] => fun _ hc => absurd hc List.not_mem_nil
  | [(k, x)] => by
    have hcolon : Printable [':', ' '] := printable_of_all rfl
    rw [dumpsItems]
    exact ((printable_dumpsStr k).append hcolon).append (printable_dumps x)
  | (k, x) :: item :: items => by
    have hcolon : Printable [':', ' '] := printable_of_all rfl
    have hcomma : Printable [',', ' '] := printable_of_all rfl
    rw [dumpsItems]
    exact ((((printable_dumpsStr k).append hcolon).append (printable_dumps x)).append hcomma).append
      (printable_dumpsItems (item :: items))

end

/-! ## Objects -/

theorem dumps_dict (items : List (String × Json)) : dumps (.dict items) = '{' :: (dumpsItems items ++ ['}']) := by
  rw [dumps, List.append_assoc]
  rfl

/-- A part of the text leaves a brace out. -/
theorem solid_part {items : List (String × Json)} {before part after : List Char}
    (h : before ++ part ++ after = dumps (.dict items)) (hpart : before ≠ [] ∨ after ≠ []) :
    solid part < solid (dumps (.dict items)) := by
  rw [← h, solid_append, solid_append]
  rw [dumps_dict] at h
  rcases hpart with hpart | hpart
  · obtain ⟨c, before, rfl⟩ := List.exists_cons_of_ne_nil hpart
    obtain rfl : c = '{' := by
      have hhead := congrArg List.head? h
      simpa using hhead
    rw [solid_cons, if_neg (by decide)]
    omega
  · obtain ⟨after, c, rfl⟩ := (List.eq_nil_or_concat after).resolve_left hpart
    have hconcat : (before ++ part ++ after) ++ [c] = ('{' :: dumpsItems items) ++ ['}'] := by
      rw [List.concat_eq_append, ← List.append_assoc] at h
      exact h
    obtain rfl : c = '}' := List.singleton_inj.1 (List.append_inj_right' hconcat rfl)
    have hone : solid ['}'] = 1 := rfl
    rw [List.concat_eq_append, solid_append, hone]
    omega

/-- **No part of the text of an object is read as the object.** -/
theorem loads_part {items : List (String × Json)} {before part after : List Char}
    (h : before ++ part ++ after = dumps (.dict items)) (hpart : before ≠ [] ∨ after ≠ []) :
    loads part ≠ some (.dict items) := by
  intro hloads
  have hprint : Printable (before ++ part ++ after) := by
    rw [h]
    exact printable_dumps _
  have hle := solid_dumps_le hloads fun c hc => (hprint c (by simp [hc])).2
  exact absurd (solid_part h hpart) (Nat.not_lt.2 hle)

theorem int_of_scanNumber {cs rest : List Char} {x : Json} (h : scanNumber cs = some (x, rest)) :
    ∃ z, x = .int z := by
  unfold scanNumber at h
  split at h
  all_goals
    obtain ⟨⟨z, mid⟩, -, hz⟩ := Option.bind_eq_some_iff.1 h
    dsimp only at hz
    split at hz
    · cases hz
    · exact ⟨z, (Prod.mk.inj (Option.some.inj hz)).1.symm⟩

theorem brace_of_scanOnce {fuel : ℕ} {c : Char} {cs rest : List Char} {items : List (String × Json)}
    (h : scanOnce fuel (c :: cs) = some (.dict items, rest)) : c = '{' := by
  cases fuel with
  | zero => cases h
  | succ fuel =>
    by_contra hbrace
    rw [scanOnce, if_neg hbrace] at h
    split at h
    · obtain ⟨⟨s, mid⟩, -, hs⟩ := Option.bind_eq_some_iff.1 h
      cases hs
    split at h
    · split at h
      · cases h
      · obtain ⟨⟨xs, mid⟩, -, hxs⟩ := Option.bind_eq_some_iff.1 h
        cases hxs
    split at h
    · obtain ⟨mid, -, hmid⟩ := Option.bind_eq_some_iff.1 h
      cases hmid
    split at h
    · obtain ⟨mid, -, hmid⟩ := Option.bind_eq_some_iff.1 h
      cases hmid
    split at h
    · obtain ⟨mid, -, hmid⟩ := Option.bind_eq_some_iff.1 h
      cases hmid
    · obtain ⟨z, hz⟩ := int_of_scanNumber h
      cases hz

/-- A text that is read as an object begins with a blank or with a brace, and goes on with no other one. -/
theorem head_of_loads {text : List Char} {items : List (String × Json)}
    (h : loads text = some (.dict items)) :
    ∃ c cs, text = c :: cs ∧ (isSpace c = true ∨ c = '{' ∧ cs.head? ≠ some '{') := by
  cases text with
  | nil => cases h
  | cons c cs =>
    refine ⟨c, cs, rfl, ?_⟩
    by_cases hspace : isSpace c = true
    · exact Or.inl hspace
    right
    unfold loads at h
    rw [skip_cons (Bool.eq_false_iff.2 hspace)] at h
    obtain ⟨⟨x, rest⟩, hscan, h⟩ := Option.bind_eq_some_iff.1 h
    dsimp only at h
    split at h
    swap
    · cases h
    obtain rfl := Option.some.inj h
    obtain rfl := brace_of_scanOnce hscan
    refine ⟨rfl, fun hhead => ?_⟩
    obtain ⟨tail, rfl⟩ : ∃ tail, cs = '{' :: tail := by
      cases cs with
      | nil => cases hhead
      | cons d tail => exact ⟨tail, by rw [Option.some.inj hhead]⟩
    -- a brace is no key
    rw [scanOnce, if_neg (by decide), if_pos rfl, skip_cons rfl, List.head?_cons, if_neg (by decide)] at hscan
    obtain ⟨⟨pairs, mid⟩, hitems, -⟩ := Option.bind_eq_some_iff.1 hscan
    rw [scanItems, List.head?_cons, if_neg (by decide)] at hitems
    cases hitems

/-- Nor behind another character. -/
theorem loads_cons_part {items : List (String × Json)} {c : Char} {part after : List Char}
    (h : part ++ after = dumps (.dict items)) (hafter : after ≠ []) :
    loads (c :: part) ≠ some (.dict items) := by
  intro hloads
  obtain ⟨d, cs, heq, hhead⟩ := head_of_loads hloads
  obtain ⟨rfl, rfl⟩ := List.cons.inj heq
  rcases hhead with hspace | ⟨rfl, hbrace⟩
  · have hc : c.toNat ≤ 126 := by
      simp only [isSpace, Bool.or_eq_true, decide_eq_true_eq] at hspace
      rcases hspace with ((rfl | rfl) | rfl) | rfl <;> decide
    have hprint : ∀ e ∈ c :: part, e.toNat ≤ 126 := by
      intro e he
      rcases List.mem_cons.1 he with rfl | he
      · exact hc
      · exact (printable_dumps (.dict items) e (by rw [← h]; exact List.mem_append_left _ he)).2
    have hle := solid_dumps_le hloads hprint
    have hall : [] ++ part ++ after = dumps (.dict items) := h
    have hlt := solid_part hall (Or.inr hafter)
    rw [solid_cons, if_pos hspace] at hle
    omega
  · cases part with
    | nil =>
      -- the brace alone
      rw [dumps_dict, List.nil_append] at h
      have hbrace' : [] ++ ['{'] ++ (dumpsItems items ++ ['}']) = dumps (.dict items) := (dumps_dict items).symm
      exact loads_part hbrace' (Or.inr (by simp)) hloads
    | cons e part =>
      rw [dumps_dict] at h
      obtain ⟨rfl, -⟩ := List.cons.inj h
      exact hbrace rfl

end Json

end EdgeConsensus.Lib
