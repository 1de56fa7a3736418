import Mathlib.Data.Int.Notation
import Mathlib.Data.Nat.Notation
import Mathlib.Tactic.Common

/-!
# JSON text

`dumps` and `loads` of Python's `json` module with their defaults, on the values that are
made of null, booleans, integers, strings, lists and dicts with string keys. The text is
a list of characters. `loads` follows the module's decoder: `scanOnce` reads one value and
gives back the rest of the text, `none` stands for an error. Texts with a float or with half
a surrogate pair are outside of what it reads.

* `scanOnce_dumps`: a value is read back from its text, whatever text follows.
* `loads_dumps`: so the text of a value determines it.
-/

namespace EdgeConsensus.Lib

inductive Json
  | null
  | bool (b : Bool)
  | int (z : ℤ)
  | str (s : String)
  | list (xs : List Json)
  | dict (items : List (String × Json))

namespace Json

/-! ## Writing -/

/-- Four hexadecimal digits. -/
def hex4 (n : ℕ) : List Char :=
  [Nat.digitChar (n / 4096 % 16), Nat.digitChar (n / 256 % 16), Nat.digitChar (n / 16 % 16),
    Nat.digitChar (n % 16)]

/-- A character inside of a string: `ensure_ascii` escapes whatever is not printable ASCII. -/
def escape (c : Char) : List Char :=
  if c = '"' then ['\\', '"']
  else if c = '\\' then ['\\', '\\']
  else if c = '\n' then ['\\', 'n']
  else if c = '\r' then ['\\', 'r']
  else if c = '\t' then ['\\', 't']
  else if c = '\x0c' then ['\\', 'f']
  else if c = '\x08' then ['\\', 'b']
  else if 32 ≤ c.toNat ∧ c.toNat ≤ 126 then [c]
  else if c.toNat < 0x10000 then ['\\', 'u'] ++ hex4 c.toNat
  else
    -- a pair of surrogates
    let n := c.toNat - 0x10000
    ['\\', 'u'] ++ hex4 (0xD800 + n / 1024) ++ ['\\', 'u'] ++ hex4 (0xDC00 + n % 1024)

def dumpsStr (s : String) : List Char := ['"'] ++ s.toList.flatMap escape ++ ['"']

def dumpsInt (z : ℤ) : List Char :=
  if z < 0 then ['-'] ++ Nat.toDigits 10 z.natAbs else Nat.toDigits 10 z.natAbs

mutual

def dumps : Json → List Char
  | .null => "null".toList
  | .bool true => "true".toList
  | .bool false => "false".toList
  | .int z => dumpsInt z
  | .str s => dumpsStr s
  | .list xs => ['['] ++ dumpsList xs ++ [']']
  | .dict items => ['{'] ++ dumpsItems items ++ ['}']

def dumpsList : List Json → List Char
  | [] => []
  | [x] => dumps x
  | x :: y :: xs => dumps x ++ [',', ' '] ++ dumpsList (y :: xs)

def dumpsItems : List (String × Json) → List Char
  | [] => []
  | [(k, x)] => dumpsStr k ++ [':', ' '] ++ dumps x
  | (k, x) :: item :: items =>
    dumpsStr k ++ [':', ' '] ++ dumps x ++ [',', ' '] ++ dumpsItems (item :: items)

end

/-! ## Reading -/

def skip : List Char → List Char
  | [] => []
  | c :: cs => if c = ' ' ∨ c = '\t' ∨ c = '\n' ∨ c = '\r' then skip cs else c :: cs

def hexVal (c : Char) : Option ℕ :=
  if '0' ≤ c ∧ c ≤ '9' then some (c.toNat - 48)
  else if 'a' ≤ c ∧ c ≤ 'f' then some (c.toNat - 87)
  else if 'A' ≤ c ∧ c ≤ 'F' then some (c.toNat - 55)
  else none

def scanHex : List Char → Option (ℕ × List Char)
  | a :: b :: c :: d :: rest => do
    return ((← hexVal a) * 4096 + (← hexVal b) * 256 + (← hexVal c) * 16 + (← hexVal d), rest)
  | _ => none

def unescape (c : Char) : Option Char :=
  if c = '"' then some '"'
  else if c = '\\' then some '\\'
  else if c = '/' then some '/'
  else if c = 'b' then some '\x08'
  else if c = 'f' then some '\x0c'
  else if c = 'n' then some '\n'
  else if c = 'r' then some '\r'
  else if c = 't' then some '\t'
  else none

/-- The second half of a surrogate pair whose first half is `n`. -/
def scanLow (n : ℕ) : List Char → Option (Char × List Char)
  | b :: u :: rest =>
    if b = '\\' ∧ u = 'u' then do
      let (m, rest) ← scanHex rest
      if 0xDC00 ≤ m ∧ m ≤ 0xDFFF then
        some (Char.ofNat (0x10000 + (n - 0xD800) * 1024 + (m - 0xDC00)), rest)
      else none
    else none
  | _ => none

/-- What follows a backslash. -/
def scanEscape : List Char → Option (Char × List Char)
  | [] => none
  | c :: rest =>
    if c = 'u' then do
      let (n, rest) ← scanHex rest
      if 0xD800 ≤ n ∧ n ≤ 0xDBFF then scanLow n rest
      else if 0xDC00 ≤ n ∧ n ≤ 0xDFFF then none
      else some (Char.ofNat n, rest)
    else do return (← unescape c, rest)

/-- The next character of a string, which is not its closing quote. -/
def scanChar : List Char → Option (Char × List Char)
  | [] => none
  | c :: rest =>
    if c = '\\' then scanEscape rest
    else if c.toNat < 32 then none
    else some (c, rest)

/-- A string behind its opening quote, of fewer characters than `fuel`. -/
def scanString : ℕ → List Char → Option (List Char × List Char)
  | 0, _ => none
  | fuel + 1, cs =>
    if cs.head? = some '"' then some ([], cs.tail)
    else do
      let (c, rest) ← scanChar cs
      let (s, rest) ← scanString fuel rest
      return (c :: s, rest)

/-- The digits of a natural number: one 0, or digits that do not begin with 0. -/
def scanDigits (cs : List Char) : Option (ℕ × List Char) :=
  match cs with
  | [] => none
  | c :: rest =>
    if c = '0' then some (0, rest)
    else if c.isDigit then some (Nat.ofDigitChars 10 (cs.takeWhile Char.isDigit) 0, cs.dropWhile Char.isDigit)
    else none

/-- A fraction or an exponent follows, so the number is a float. -/
def isFloat : List Char → Bool
  | '.' :: d :: _ => d.isDigit
  | e :: d :: rest =>
    (e = 'e' || e = 'E') && (d.isDigit || ((d = '+' || d = '-') && rest.head?.any Char.isDigit))
  | _ => false

def scanNumber (cs : List Char) : Option (Json × List Char) := do
  let (z, rest) ← if cs.head? = some '-' then (scanDigits cs.tail).map fun p => (-(p.1 : ℤ), p.2)
    else (scanDigits cs).map fun p => ((p.1 : ℤ), p.2)
  if isFloat rest then none else some (.int z, rest)

/-- `text` without `literal` at its beginning. -/
def dropLiteral (literal text : List Char) : Option (List Char) :=
  if literal.isPrefixOf text then some (text.drop literal.length) else none

/-- The assignment of a dict: a key keeps its place. -/
def assign (items : List (String × Json)) (key : String) (x : Json) : List (String × Json) :=
  if items.any (·.1 = key) then items.map fun item => if item.1 = key then (key, x) else item
  else items ++ [(key, x)]

/-- The dict made of pairs, of which the last one for a key counts. -/
def ofPairs (pairs : List (String × Json)) : List (String × Json) :=
  pairs.foldl (fun items pair => assign items pair.1 pair.2) []

mutual

/-- One value at the beginning of a text, nested less deep and long than `fuel`. -/
def scanOnce : ℕ → List Char → Option (Json × List Char)
  | 0, _ => none
  | _ + 1, [] => none
  | fuel + 1, c :: cs =>
    if c = '"' then do
      let (s, rest) ← scanString fuel cs
      return (.str (String.ofList s), rest)
    else if c = '{' then
      if (skip cs).head? = some '}' then some (.dict [], (skip cs).tail)
      else do
        let (pairs, rest) ← scanItems fuel (skip cs)
        return (.dict (ofPairs pairs), rest)
    else if c = '[' then
      if (skip cs).head? = some ']' then some (.list [], (skip cs).tail)
      else do
        let (xs, rest) ← scanList fuel (skip cs)
        return (.list xs, rest)
    else if c = 'n' then do return (.null, ← dropLiteral "ull".toList cs)
    else if c = 't' then do return (.bool true, ← dropLiteral "rue".toList cs)
    else if c = 'f' then do return (.bool false, ← dropLiteral "alse".toList cs)
    else scanNumber (c :: cs)

/-- The values of a list that has some, up to its closing bracket. -/
def scanList : ℕ → List Char → Option (List Json × List Char)
  | 0, _ => none
  | fuel + 1, cs => do
    let (x, rest) ← scanOnce fuel cs
    if (skip rest).head? = some ']' then some ([x], (skip rest).tail)
    else if (skip rest).head? = some ',' then do
      let (xs, rest) ← scanList fuel (skip (skip rest).tail)
      return (x :: xs, rest)
    else none

/-- The pairs of a dict that has some, up to its closing brace. -/
def scanItems : ℕ → List Char → Option (List (String × Json) × List Char)
  | 0, _ => none
  | fuel + 1, cs =>
    if cs.head? = some '"' then do
      let (key, rest) ← scanString fuel cs.tail
      if (skip rest).head? = some ':' then do
        let (x, rest) ← scanOnce fuel (skip (skip rest).tail)
        if (skip rest).head? = some '}' then some ([(String.ofList key, x)], (skip rest).tail)
        else if (skip rest).head? = some ',' then do
          let (pairs, rest) ← scanItems fuel (skip (skip rest).tail)
          return ((String.ofList key, x) :: pairs, rest)
        else none
      else none
    else none

end

/-- `loads`: one value, and nothing behind it. -/
def loads (text : List Char) : Option Json := do
  let (x, rest) ← scanOnce (2 * text.length + 2) (skip text)
  if skip rest = [] then some x else none

/-! ## What JSON carries unchanged -/

mutual

/-- The keys of a dict are distinct, at every depth. -/
def valid : Json → Bool
  | .list xs => validList xs
  | .dict items => decide (items.map Prod.fst).Nodup && validItems items
  | _ => true

def validList : List Json → Bool
  | [] => true
  | x :: xs => valid x && validList xs

def validItems : List (String × Json) → Bool
  | [] => true
  | (_, x) :: items => valid x && validItems items

end

theorem foldl_assign (pairs : List (String × Json)) : ∀ items : List (String × Json),
    ((items ++ pairs).map Prod.fst).Nodup →
    pairs.foldl (fun items pair => assign items pair.1 pair.2) items = items ++ pairs := by
  induction pairs with
  | nil =>
    intro items _
    simp
  | cons pair pairs ih =>
    intro items hnodup
    have hfresh : items.any (·.1 = pair.1) = false := by
      rw [List.any_eq_false]
      intro item hitem heq
      rw [List.map_append, List.nodup_append] at hnodup
      have hne := hnodup.2.2 item.1 (List.mem_map_of_mem hitem) pair.1 (by simp)
      exact hne (by simpa using heq)
    have hassign : assign items pair.1 pair.2 = items ++ [pair] := by
      unfold assign
      rw [hfresh]
      rfl
    rw [List.foldl_cons, hassign, ih]
    · simp
    · simpa using hnodup

theorem ofPairs_eq {pairs : List (String × Json)} (h : (pairs.map Prod.fst).Nodup) :
    ofPairs pairs = pairs := foldl_assign pairs [] h

/-! ## Strings -/

theorem hexVal_digitChar : ∀ d < 16, hexVal (Nat.digitChar d) = some d := by decide

theorem scanHex_hex4 {n : ℕ} (hn : n < 0x10000) (rest : List Char) :
    scanHex (hex4 n ++ rest) = some (n, rest) := by
  have h1 := hexVal_digitChar (n / 4096 % 16) (by omega)
  have h2 := hexVal_digitChar (n / 256 % 16) (by omega)
  have h3 := hexVal_digitChar (n / 16 % 16) (by omega)
  have h4 := hexVal_digitChar (n % 16) (by omega)
  have hsum : n / 4096 % 16 * 4096 + n / 256 % 16 * 256 + n / 16 % 16 * 16 + n % 16 = n := by omega
  simp [hex4, scanHex, h1, h2, h3, h4, hsum]

/-- A character is no half of a surrogate pair. -/
theorem toNat_bounds (c : Char) : (c.toNat < 0xD800 ∨ 0xDFFF < c.toNat) ∧ c.toNat < 0x110000 := by
  have h := c.valid
  simp only [UInt32.isValidChar, Nat.isValidChar] at h
  have htoNat : c.val.toNat = c.toNat := rfl
  omega

theorem scanChar_hex {c : Char} (hc : c.toNat < 0x10000) (rest : List Char) :
    scanChar (['\\', 'u'] ++ hex4 c.toNat ++ rest) = some (c, rest) := by
  have hsurrogate := (toNat_bounds c).1
  have hhigh : ¬ (0xD800 ≤ c.toNat ∧ c.toNat ≤ 0xDBFF) := by omega
  have hlow : ¬ (0xDC00 ≤ c.toNat ∧ c.toNat ≤ 0xDFFF) := by omega
  simp [scanChar, scanEscape, scanHex_hex4 hc, hhigh, hlow]

theorem scanLow_hex4 (n : ℕ) {m : ℕ} (hm : m < 1024) (rest : List Char) :
    scanLow (0xD800 + n) (['\\', 'u'] ++ hex4 (0xDC00 + m) ++ rest) =
      some (Char.ofNat (0x10000 + n * 1024 + m), rest) := by
  have hhex := scanHex_hex4 (n := 0xDC00 + m) (by omega) rest
  have hlow : 0xDC00 ≤ 0xDC00 + m ∧ 0xDC00 + m ≤ 0xDFFF := by omega
  simp only [List.cons_append, List.nil_append] at hhex ⊢
  simp only [scanLow, and_self, if_true, hhex, Option.bind_eq_bind, Option.bind_some, hlow,
    Nat.add_sub_cancel_left]

/-- The two halves of a pair are read as one character. -/
theorem scanChar_pair {n m : ℕ} (hn : n < 1024) (hm : m < 1024) (rest : List Char) :
    scanChar (['\\', 'u'] ++ hex4 (0xD800 + n) ++ ['\\', 'u'] ++ hex4 (0xDC00 + m) ++ rest) =
      some (Char.ofNat (0x10000 + n * 1024 + m), rest) := by
  have hlow := scanLow_hex4 n hm rest
  have hhex := scanHex_hex4 (n := 0xD800 + n) (by omega) (['\\', 'u'] ++ hex4 (0xDC00 + m) ++ rest)
  have hhigh : 0xD800 ≤ 0xD800 + n ∧ 0xD800 + n ≤ 0xDBFF := by omega
  simp only [List.append_assoc, List.cons_append, List.nil_append] at hhex hlow ⊢
  simp only [scanChar, if_true, scanEscape, hhex, Option.bind_eq_bind, Option.bind_some, hhigh,
    and_self, hlow]

/-- A character outside of the basic plane is its pair. -/
theorem surrogates {k : ℕ} (h : 0x10000 ≤ k) (hmax : k < 0x110000) :
    (k - 0x10000) / 1024 < 1024 ∧
      0x10000 + (k - 0x10000) / 1024 * 1024 + (k - 0x10000) % 1024 = k := by
  omega

/-- What `escape` makes of a character. -/
inductive Escaped (c : Char) : List Char → Prop
  | short {e : Char} (he : unescape e = some c) : Escaped c ['\\', e]
  | plain (hquote : c ≠ '"') (hbackslash : c ≠ '\\') (hprint : 32 ≤ c.toNat) : Escaped c [c]
  | hex (hsmall : c.toNat < 0x10000) : Escaped c (['\\', 'u'] ++ hex4 c.toNat)
  | pair (hbig : 0x10000 ≤ c.toNat) : Escaped c (['\\', 'u'] ++ hex4 (0xD800 + (c.toNat - 0x10000) / 1024) ++
    ['\\', 'u'] ++ hex4 (0xDC00 + (c.toNat - 0x10000) % 1024))

theorem escaped (c : Char) : Escaped c (escape c) := by
  by_cases hquote : c = '"'
  · subst hquote
    exact .short rfl
  by_cases hbackslash : c = '\\'
  · subst hbackslash
    exact .short rfl
  by_cases hn : c = '\n'
  · subst hn
    exact .short rfl
  by_cases hr : c = '\r'
  · subst hr
    exact .short rfl
  by_cases ht : c = '\t'
  · subst ht
    exact .short rfl
  by_cases hf : c = '\x0c'
  · subst hf
    exact .short rfl
  by_cases hb : c = '\x08'
  · subst hb
    exact .short rfl
  rw [escape, if_neg hquote, if_neg hbackslash, if_neg hn, if_neg hr, if_neg ht, if_neg hf, if_neg hb]
  by_cases hprint : 32 ≤ c.toNat ∧ c.toNat ≤ 126
  · rw [if_pos hprint]
    exact .plain hquote hbackslash hprint.1
  rw [if_neg hprint]
  by_cases hsmall : c.toNat < 0x10000
  · rw [if_pos hsmall]
    exact .hex hsmall
  · rw [if_neg hsmall]
    exact .pair (Nat.le_of_not_lt hsmall)

theorem scanEscape_short {e c : Char} (he : unescape e = some c) (rest : List Char) :
    scanEscape (e :: rest) = some (c, rest) := by
  have hu : e ≠ 'u' := by
    rintro rfl
    cases he
  rw [scanEscape, if_neg hu, he]
  rfl

theorem scanChar_escape (c : Char) (rest : List Char) : scanChar (escape c ++ rest) = some (c, rest) := by
  have hescaped := escaped c
  generalize escape c = l at hescaped ⊢
  cases hescaped with
  | short he => exact scanEscape_short he rest
  | plain hquote hbackslash hprint =>
    rw [List.singleton_append, scanChar, if_neg hbackslash, if_neg (Nat.not_lt.2 hprint)]
  | hex hsmall => exact scanChar_hex hsmall rest
  | pair hbig =>
    obtain ⟨hn, hjoin⟩ := surrogates hbig (toNat_bounds c).2
    have hpair := scanChar_pair hn (Nat.mod_lt (c.toNat - 0x10000) (by omega)) rest
    rw [hjoin, Char.ofNat_toNat] at hpair
    exact hpair

/-- An escaped character is not mistaken for the closing quote, and is not nothing. -/
theorem escape_cons (c : Char) : ∃ a l, escape c = a :: l ∧ a ≠ '"' := by
  have hescaped := escaped c
  generalize escape c = l at hescaped ⊢
  cases hescaped with
  | short he => exact ⟨_, _, rfl, by decide⟩
  | plain hquote hbackslash hprint => exact ⟨_, _, rfl, hquote⟩
  | hex hsmall => exact ⟨_, _, rfl, by decide⟩
  | pair hbig => exact ⟨_, _, rfl, by decide⟩

theorem scanString_escape (l : List Char) : ∀ (fuel : ℕ) (rest : List Char), l.length < fuel →
    scanString fuel (l.flatMap escape ++ ('"' :: rest)) = some (l, rest) := by
  induction l with
  | nil =>
    intro fuel rest hfuel
    obtain ⟨fuel, rfl⟩ := Nat.exists_eq_succ_of_ne_zero (Nat.ne_of_gt hfuel)
    rfl
  | cons c l ih =>
    intro fuel rest hfuel
    obtain ⟨fuel, rfl⟩ := Nat.exists_eq_succ_of_ne_zero (Nat.ne_of_gt (Nat.zero_lt_of_lt hfuel))
    have hlen : l.length < fuel := by
      rw [List.length_cons] at hfuel
      omega
    obtain ⟨a, t, hescape, ha⟩ := escape_cons c
    have hchar := scanChar_escape c (l.flatMap escape ++ ('"' :: rest))
    have hhead : (escape c ++ (l.flatMap escape ++ ('"' :: rest))).head? ≠ some '"' := by
      rw [hescape]
      simpa using ha
    rw [List.flatMap_cons, List.append_assoc, scanString, if_neg hhead, hchar]
    simp only [Option.bind_eq_bind, Option.bind_some, ih fuel rest hlen, Option.pure_def]

theorem length_le_flatMap (l : List Char) : l.length ≤ (l.flatMap escape).length := by
  induction l with
  | nil => simp
  | cons c l ih =>
    obtain ⟨a, t, hescape, -⟩ := escape_cons c
    rw [List.flatMap_cons, List.length_append, hescape, List.length_cons, List.length_cons]
    omega

/-! ## Numbers -/

/-- What stands behind a value: nothing, or what closes or separates. -/
def Ends (rest : List Char) : Prop := ∀ c ∈ rest.head?, c = ',' ∨ c = ']' ∨ c = '}'

theorem ends_nil : Ends [] := by
  intro c hc
  cases hc

theorem ends_cons {c : Char} (h : c = ',' ∨ c = ']' ∨ c = '}') (rest : List Char) : Ends (c :: rest) := by
  intro d hd
  obtain rfl : c = d := by simpa using hd
  exact h

theorem Ends.not_digit {c : Char} {rest : List Char} (h : Ends (c :: rest)) : c.isDigit = false := by
  rcases h c rfl with rfl | rfl | rfl <;> rfl

theorem Ends.not_float {rest : List Char} (h : Ends rest) : isFloat rest = false := by
  cases rest with
  | nil => rfl
  | cons c rest =>
    rcases h c rfl with rfl | rfl | rfl
    · cases rest <;> rfl
    · cases rest <;> rfl
    · cases rest <;> rfl

theorem Ends.span {rest : List Char} (h : Ends rest) :
    rest.takeWhile Char.isDigit = [] ∧ rest.dropWhile Char.isDigit = rest := by
  cases rest with
  | nil => exact ⟨rfl, rfl⟩
  | cons c rest =>
    have hc := h.not_digit
    constructor
    · rw [List.takeWhile_cons, hc]
      rfl
    · rw [List.dropWhile_cons, hc]
      rfl

theorem toDigits_head {n : ℕ} (hn : 0 < n) : (Nat.toDigits 10 n).head? ≠ some '0' := by
  induction n using Nat.strongRecOn with
  | ind n ih =>
    rcases Nat.lt_or_ge n 10 with hlt | hge
    · have hdigit : ∀ d < 10, 0 < d → Nat.digitChar d ≠ '0' := by decide
      rw [Nat.toDigits_of_lt_base hlt]
      simpa using hdigit n hlt hn
    · have hshort := ih (n / 10) (by omega) (by omega)
      obtain ⟨d, ds, hds⟩ := List.exists_cons_of_ne_nil (Nat.toDigits_ne_nil (n := n / 10) (b := 10))
      rw [hds] at hshort
      rw [Nat.toDigits_of_base_le (by omega) hge, hds]
      exact hshort

theorem scanDigits_toDigits (n : ℕ) {rest : List Char} (hrest : Ends rest) :
    scanDigits (Nat.toDigits 10 n ++ rest) = some (n, rest) := by
  have hdigits : ∀ d ∈ Nat.toDigits 10 n, d.isDigit = true := by
    intro d hd
    exact Nat.isDigit_of_mem_toDigits (by omega) (by omega) hd
  obtain ⟨htake, hdrop⟩ := hrest.span
  rcases Nat.eq_zero_or_pos n with rfl | hn
  · rfl
  · have hhead := toDigits_head hn
    have hvalue : Nat.ofDigitChars 10 (Nat.toDigits 10 n) 0 = n := Nat.ofDigitChars_ten_toDigits
    cases hds : Nat.toDigits 10 n with
    | nil => exact absurd hds Nat.toDigits_ne_nil
    | cons d ds =>
      rw [hds] at hhead hdigits hvalue
      have hd0 : d ≠ '0' := by simpa using hhead
      have hd := hdigits d List.mem_cons_self
      rw [List.cons_append, scanDigits, if_neg hd0, if_pos hd, ← List.cons_append,
        List.takeWhile_append_of_pos hdigits, List.dropWhile_append_of_pos hdigits, htake, hdrop,
        List.append_nil, hvalue]

theorem toDigits_cons (n : ℕ) : ∃ d ds, Nat.toDigits 10 n = d :: ds ∧ d.isDigit = true := by
  cases hds : Nat.toDigits 10 n with
  | nil => exact absurd hds Nat.toDigits_ne_nil
  | cons d ds =>
    have hmem : d ∈ Nat.toDigits 10 n := by
      rw [hds]
      exact List.mem_cons_self
    exact ⟨d, ds, rfl, Nat.isDigit_of_mem_toDigits (by omega) (by omega) hmem⟩

theorem scanNumber_dumpsInt (z : ℤ) {rest : List Char} (hrest : Ends rest) :
    scanNumber (dumpsInt z ++ rest) = some (.int z, rest) := by
  have hdigits := scanDigits_toDigits z.natAbs hrest
  have hfloat := hrest.not_float
  unfold dumpsInt
  split
  · have hneg : -(z.natAbs : ℤ) = z := by omega
    have htext : ['-'] ++ Nat.toDigits 10 z.natAbs ++ rest = '-' :: (Nat.toDigits 10 z.natAbs ++ rest) := rfl
    rw [htext, scanNumber, List.head?_cons, if_pos rfl, List.tail_cons, hdigits]
    simp only [Option.map_some, hneg, Option.bind_eq_bind, Option.bind_some, hfloat, Bool.false_eq_true,
      if_false]
  · have hpos : (z.natAbs : ℤ) = z := by omega
    obtain ⟨d, ds, hds, hd⟩ := toDigits_cons z.natAbs
    have hhead : (Nat.toDigits 10 z.natAbs ++ rest).head? ≠ some '-' := by
      rw [hds]
      rintro heq
      obtain rfl : d = '-' := by simpa using heq
      cases hd
    rw [scanNumber, if_neg hhead, hdigits]
    simp only [Option.map_some, hpos, Option.bind_eq_bind, Option.bind_some, hfloat, Bool.false_eq_true,
      if_false]

/-! ## Values -/

def isSpace (c : Char) : Bool := c = ' ' || c = '\t' || c = '\n' || c = '\r'

theorem skip_cons {c : Char} (h : isSpace c = false) (cs : List Char) : skip (c :: cs) = c :: cs := by
  simp only [isSpace, Bool.or_eq_false_iff, decide_eq_false_iff_not] at h
  obtain ⟨⟨⟨h1, h2⟩, h3⟩, h4⟩ := h
  simp [skip, h1, h2, h3, h4]

theorem skip_space (cs : List Char) : skip (' ' :: cs) = skip cs := by
  simp [skip]

theorem isDigit_plain {c : Char} (h : c.isDigit = true) :
    isSpace c = false ∧ c ≠ ']' ∧ c ≠ '"' ∧ c ≠ '{' ∧ c ≠ '[' ∧ c ≠ 'n' ∧ c ≠ 't' ∧ c ≠ 'f' := by
  refine ⟨?_, ?_, ?_, ?_, ?_, ?_, ?_, ?_⟩
  · cases hspace : isSpace c with
    | false => rfl
    | true =>
      simp only [isSpace, Bool.or_eq_true, decide_eq_true_eq] at hspace
      rcases hspace with ((rfl | rfl) | rfl) | rfl <;> cases h
  all_goals
    rintro rfl
    cases h

/-- The text of a number begins with its sign or with a digit. -/
theorem dumpsInt_cons (z : ℤ) : ∃ c cs, dumpsInt z = c :: cs ∧ (c = '-' ∨ c.isDigit = true) := by
  unfold dumpsInt
  split
  · exact ⟨_, _, rfl, Or.inl rfl⟩
  · obtain ⟨d, ds, hds, hd⟩ := toDigits_cons z.natAbs
    exact ⟨d, ds, hds, Or.inr hd⟩

/-- No text of a value begins with a space or a bracket that closes. -/
theorem dumps_cons (x : Json) : ∃ c cs, dumps x = c :: cs ∧ isSpace c = false ∧ c ≠ ']' := by
  cases x with
  | null => exact ⟨_, _, rfl, rfl, by decide⟩
  | bool b => cases b <;> exact ⟨_, _, rfl, rfl, by decide⟩
  | int z =>
    obtain ⟨c, cs, hcs, hc⟩ := dumpsInt_cons z
    refine ⟨c, cs, hcs, ?_⟩
    rcases hc with rfl | hc
    · exact ⟨rfl, by decide⟩
    · exact ⟨(isDigit_plain hc).1, (isDigit_plain hc).2.1⟩
  | str s => exact ⟨_, _, rfl, rfl, by decide⟩
  | list xs => exact ⟨_, _, rfl, rfl, by decide⟩
  | dict items => exact ⟨_, _, rfl, rfl, by decide⟩

theorem skip_dumps (x : Json) (rest : List Char) : skip (dumps x ++ rest) = dumps x ++ rest := by
  obtain ⟨c, cs, hcs, hspace, -⟩ := dumps_cons x
  rw [hcs, List.cons_append, skip_cons hspace]

theorem dumpsList_cons (x : Json) (xs : List Json) : ∃ rest, dumpsList (x :: xs) = dumps x ++ rest := by
  cases xs with
  | nil => exact ⟨[], (List.append_nil _).symm⟩
  | cons y xs => exact ⟨_, by rw [dumpsList, List.append_assoc]⟩

theorem scanOnce_int (z : ℤ) (fuel : ℕ) {rest : List Char} (hrest : Ends rest) :
    scanOnce (fuel + 1) (dumpsInt z ++ rest) = some (.int z, rest) := by
  have hnumber := scanNumber_dumpsInt z hrest
  obtain ⟨c, cs, hcs, hc⟩ := dumpsInt_cons z
  rw [hcs, List.cons_append] at hnumber ⊢
  rcases hc with rfl | hc
  · exact hnumber
  · obtain ⟨-, -, h1, h2, h3, h4, h5, h6⟩ := isDigit_plain hc
    rw [scanOnce, if_neg h1, if_neg h2, if_neg h3, if_neg h4, if_neg h5, if_neg h6, hnumber]

theorem dumpsStr_append (s : String) (rest : List Char) :
    dumpsStr s ++ rest = '"' :: (s.toList.flatMap escape ++ ('"' :: rest)) := by
  simp [dumpsStr]

theorem length_dumpsStr (s : String) : s.toList.length + 2 ≤ (dumpsStr s).length := by
  have hle := length_le_flatMap s.toList
  simp only [dumpsStr, List.length_append, List.length_singleton]
  omega

theorem dumpsItems_cons (k : String) (x : Json) (items : List (String × Json)) :
    ∃ rest, dumpsItems ((k, x) :: items) = dumpsStr k ++ rest := by
  cases items with
  | nil => exact ⟨_, by rw [dumpsItems, List.append_assoc]⟩
  | cons item items => exact ⟨_, by rw [dumpsItems, List.append_assoc, List.append_assoc, List.append_assoc]⟩

theorem skip_dumpsItems (k : String) (x : Json) (items : List (String × Json)) (rest : List Char) :
    skip (dumpsItems ((k, x) :: items) ++ rest) = dumpsItems ((k, x) :: items) ++ rest := by
  obtain ⟨tail, htail⟩ := dumpsItems_cons k x items
  rw [htail, List.append_assoc, dumpsStr_append, skip_cons rfl]

mutual

/-- **A value is read back from its text**, and what follows is left. -/
theorem scanOnce_dumps : ∀ (x : Json) (fuel : ℕ) (rest : List Char), valid x = true →
    2 * (dumps x).length < fuel → Ends rest → scanOnce fuel (dumps x ++ rest) = some (x, rest)
  | .null, fuel + 1, rest, _, _, _ => by
    simp [dumps, scanOnce, dropLiteral]
  | .bool true, fuel + 1, rest, _, _, _ => by
    simp [dumps, scanOnce, dropLiteral]
  | .bool false, fuel + 1, rest, _, _, _ => by
    simp [dumps, scanOnce, dropLiteral]
  | .int z, fuel + 1, rest, _, _, hrest => by
    rw [dumps]
    exact scanOnce_int z fuel hrest
  | .str s, fuel + 1, rest, _, hfuel, _ => by
    have hlen := length_dumpsStr s
    rw [dumps] at hfuel
    have hstring := scanString_escape s.toList fuel rest (by omega)
    rw [dumps, dumpsStr_append, scanOnce, if_pos rfl, hstring]
    simp only [Option.bind_eq_bind, Option.bind_some, Option.pure_def, String.ofList_toList]
  | .list [], fuel + 1, rest, _, _, _ => by
    simp [dumps, dumpsList, scanOnce, skip]
  | .list (x :: xs), fuel + 1, rest, hvalid, hfuel, _ => by
    have hvalid' : validList (x :: xs) = true := hvalid
    simp only [dumps, List.length_append, List.length_singleton] at hfuel
    have hlist := scanList_dumps x xs fuel rest hvalid' (by omega)
    obtain ⟨tail, htail⟩ := dumpsList_cons x xs
    have hskip : skip (dumpsList (x :: xs) ++ (']' :: rest)) = dumpsList (x :: xs) ++ (']' :: rest) := by
      rw [htail, List.append_assoc, skip_dumps]
    have hhead : (dumpsList (x :: xs) ++ (']' :: rest)).head? ≠ some ']' := by
      obtain ⟨c, cs, hcs, -, hc⟩ := dumps_cons x
      rw [htail, hcs]
      simpa using hc
    have htext : dumps (.list (x :: xs)) ++ rest = '[' :: (dumpsList (x :: xs) ++ (']' :: rest)) := by
      simp [dumps]
    rw [htext, scanOnce, if_neg (by decide), if_neg (by decide), if_pos rfl, hskip, if_neg hhead, hlist]
    rfl
  | .dict [], fuel + 1, rest, _, _, _ => by
    simp [dumps, dumpsItems, scanOnce, skip]
  | .dict ((k, x) :: items), fuel + 1, rest, hvalid, hfuel, _ => by
    simp only [valid, Bool.and_eq_true, decide_eq_true_eq] at hvalid
    simp only [dumps, List.length_append, List.length_singleton] at hfuel
    have hitems := scanItems_dumps k x items fuel rest hvalid.2 (by omega)
    have hskip : skip (dumpsItems ((k, x) :: items) ++ ('}' :: rest)) =
        dumpsItems ((k, x) :: items) ++ ('}' :: rest) := skip_dumpsItems k x items ('}' :: rest)
    have hhead : (dumpsItems ((k, x) :: items) ++ ('}' :: rest)).head? ≠ some '}' := by
      obtain ⟨tail, htail⟩ := dumpsItems_cons k x items
      rw [htail, List.append_assoc, dumpsStr_append]
      simp
    have htext : dumps (.dict ((k, x) :: items)) ++ rest =
        '{' :: (dumpsItems ((k, x) :: items) ++ ('}' :: rest)) := by
      simp [dumps]
    rw [htext, scanOnce, if_neg (by decide), if_pos rfl, hskip, if_neg hhead, hitems]
    simp only [Option.bind_eq_bind, Option.bind_some, Option.pure_def, ofPairs_eq hvalid.1]
  | _, 0, _, _, hfuel, _ => absurd hfuel (Nat.not_lt_zero _)

theorem scanList_dumps : ∀ (x : Json) (xs : List Json) (fuel : ℕ) (rest : List Char),
    validList (x :: xs) = true → 2 * (dumpsList (x :: xs)).length + 2 ≤ fuel →
    scanList fuel (dumpsList (x :: xs) ++ (']' :: rest)) = some (x :: xs, rest)
  | x, [], fuel + 1, rest, hvalid, hfuel => by
    simp only [validList, Bool.and_true] at hvalid
    simp only [dumpsList] at hfuel ⊢
    have hx := scanOnce_dumps x fuel _ hvalid (by omega) (ends_cons (c := ']') (by simp) rest)
    have hskip := skip_cons (c := ']') rfl rest
    rw [scanList, hx]
    simp only [Option.bind_eq_bind, Option.bind_some, hskip, List.head?_cons, if_true, List.tail_cons]
  | x, y :: xs, fuel + 1, rest, hvalid, hfuel => by
    simp only [validList, Bool.and_eq_true] at hvalid
    have hvalid' : validList (y :: xs) = true := by
      simp only [validList, Bool.and_eq_true]
      exact hvalid.2
    simp only [dumpsList, List.length_append, List.length_cons, List.length_nil] at hfuel
    have htext : dumpsList (x :: y :: xs) ++ (']' :: rest) =
        dumps x ++ (',' :: (' ' :: (dumpsList (y :: xs) ++ (']' :: rest)))) := by
      simp [dumpsList]
    -- what follows the value is a comma, which ends a number
    have hx := scanOnce_dumps x fuel _ hvalid.1 (by omega)
      (ends_cons (c := ',') (by simp) (' ' :: (dumpsList (y :: xs) ++ (']' :: rest))))
    have hxs := scanList_dumps y xs fuel rest hvalid' (by omega)
    obtain ⟨tail, htail⟩ := dumpsList_cons y xs
    have hskip : skip (' ' :: (dumpsList (y :: xs) ++ (']' :: rest))) =
        dumpsList (y :: xs) ++ (']' :: rest) := by
      rw [skip_space, htail, List.append_assoc, skip_dumps]
    have hcomma := skip_cons (c := ',') rfl (' ' :: (dumpsList (y :: xs) ++ (']' :: rest)))
    rw [htext, scanList, hx]
    simp only [Option.bind_eq_bind, Option.bind_some, hcomma, List.head?_cons, List.tail_cons, hskip, hxs]
    rfl
  | _, _, 0, _, _, hfuel => absurd hfuel (by omega)

theorem scanItems_dumps : ∀ (k : String) (x : Json) (items : List (String × Json)) (fuel : ℕ)
    (rest : List Char), validItems ((k, x) :: items) = true →
    2 * (dumpsItems ((k, x) :: items)).length + 2 ≤ fuel →
    scanItems fuel (dumpsItems ((k, x) :: items) ++ ('}' :: rest)) = some ((k, x) :: items, rest)
  | k, x, [], fuel + 1, rest, hvalid, hfuel => by
    simp only [validItems, Bool.and_true] at hvalid
    simp only [dumpsItems, List.length_append, List.length_cons, List.length_nil] at hfuel
    have hlen := length_dumpsStr k
    have htext : dumpsItems [(k, x)] ++ ('}' :: rest) =
        dumpsStr k ++ (':' :: (' ' :: (dumps x ++ ('}' :: rest)))) := by
      simp [dumpsItems]
    -- the key is read up to its closing quote, then a colon and a space
    have hkey := scanString_escape k.toList fuel (':' :: (' ' :: (dumps x ++ ('}' :: rest))))
      (by omega)
    have hx := scanOnce_dumps x fuel _ hvalid (by omega) (ends_cons (c := '}') (by simp) rest)
    have hcolon := skip_cons (c := ':') rfl (' ' :: (dumps x ++ ('}' :: rest)))
    have hspace := (skip_space (dumps x ++ ('}' :: rest))).trans (skip_dumps x ('}' :: rest))
    have hclose := skip_cons (c := '}') rfl rest
    rw [htext, dumpsStr_append, scanItems, List.head?_cons, if_pos rfl, List.tail_cons, hkey]
    simp only [Option.bind_eq_bind, Option.bind_some, hcolon, List.head?_cons, if_true, List.tail_cons,
      hspace, hx, hclose, String.ofList_toList]
  | k, x, (k', y) :: items, fuel + 1, rest, hvalid, hfuel => by
    simp only [validItems, Bool.and_eq_true] at hvalid
    have hvalid' : validItems ((k', y) :: items) = true := by
      simp only [validItems, Bool.and_eq_true]
      exact hvalid.2
    simp only [dumpsItems, List.length_append, List.length_cons, List.length_nil] at hfuel
    have hlen := length_dumpsStr k
    set more := dumpsItems ((k', y) :: items) ++ ('}' :: rest) with hmore
    have htext : dumpsItems ((k, x) :: (k', y) :: items) ++ ('}' :: rest) =
        dumpsStr k ++ (':' :: (' ' :: (dumps x ++ (',' :: (' ' :: more))))) := by
      simp [dumpsItems, hmore]
    have hkey := scanString_escape k.toList fuel
      (':' :: (' ' :: (dumps x ++ (',' :: (' ' :: more))))) (by omega)
    have hx := scanOnce_dumps x fuel _ hvalid.1 (by omega)
      (ends_cons (c := ',') (by simp) (' ' :: more))
    have hitems := scanItems_dumps k' y items fuel rest hvalid' (by omega)
    rw [← hmore] at hitems
    have hcolon := skip_cons (c := ':') rfl (' ' :: (dumps x ++ (',' :: (' ' :: more))))
    have hspace := (skip_space (dumps x ++ (',' :: (' ' :: more)))).trans
      (skip_dumps x (',' :: (' ' :: more)))
    have hcomma := skip_cons (c := ',') rfl (' ' :: more)
    have hmore' : skip (' ' :: more) = more :=
      (skip_space more).trans (skip_dumpsItems k' y items ('}' :: rest))
    rw [htext, dumpsStr_append, scanItems, List.head?_cons, if_pos rfl, List.tail_cons, hkey]
    simp only [Option.bind_eq_bind, Option.bind_some, hcolon, List.head?_cons, if_true, List.tail_cons,
      hspace, hx, hcomma, hmore', hitems, String.ofList_toList]
    rfl
  | _, _, _, 0, _, _, hfuel => absurd hfuel (by omega)

end

/-- **`loads` takes back what `dumps` wrote**, if the keys of every dict are distinct. -/
theorem loads_dumps {x : Json} (h : valid x = true) : loads (dumps x) = some x := by
  have hskip := skip_dumps x []
  have hscan := scanOnce_dumps x (2 * (dumps x).length + 2) [] h (by omega) ends_nil
  rw [List.append_nil] at hskip hscan
  unfold loads
  rw [hskip, hscan]
  rfl

end Json

end EdgeConsensus.Lib
