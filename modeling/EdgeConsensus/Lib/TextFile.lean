import EdgeConsensus.Lib.Framing
import Mathlib.Data.List.DropRight

/-!
# Text files

Files of UTF-8 text as Python opens them: written at a position, read line by line. Reading
makes one newline of a carriage return, of a line feed, and of one behind the other.

* `Handle`: a file that is open for reading and writing.
* `universal_append`, `lines_append`: what is read of a text that is made of lines.
* `universal_plain`: a line that is read as one line, and does not end in a carriage return,
  is read as it was written.
-/

namespace EdgeConsensus.Lib

/-! ## Writing -/

/-- A file that is open with mode `r+`, at first at position 0. -/
structure Handle where
  bytes : List UInt8
  pos : ℕ := 0

namespace Handle

/-- `write`, over what is there. -/
def write (f : Handle) (text : List Char) : Handle where
  bytes := f.bytes.take f.pos ++ encode text ++ f.bytes.drop (f.pos + (encode text).length)
  pos := f.pos + (encode text).length

/-- `truncate`, at the position. -/
def truncate (f : Handle) : Handle where
  bytes := f.bytes.take f.pos
  pos := f.pos

/-- The file up to the position is this text. -/
def Written (f : Handle) (text : List Char) : Prop :=
  f.bytes.take f.pos = encode text ∧ f.pos ≤ f.bytes.length

theorem written_start (bytes : List UInt8) : Written { bytes := bytes } [] :=
  ⟨rfl, Nat.zero_le _⟩

theorem Written.write {f : Handle} {text : List Char} (h : f.Written text) (more : List Char) :
    (f.write more).Written (text ++ more) := by
  obtain ⟨htake, hpos⟩ := h
  have hlen : (f.bytes.take f.pos ++ encode more).length = f.pos + (encode more).length := by
    rw [List.length_append, List.length_take]
    omega
  refine ⟨?_, ?_⟩
  · show (f.bytes.take f.pos ++ encode more ++ _).take (f.pos + _) = _
    rw [← hlen, List.take_left, htake, encode_append]
  · show f.pos + _ ≤ (f.bytes.take f.pos ++ encode more ++ _).length
    rw [List.length_append, hlen]
    exact Nat.le_add_right _ _

theorem Written.truncate {f : Handle} {text : List Char} (h : f.Written text) :
    f.truncate.bytes = encode text := h.1

end Handle

/-! ## Reading -/

/-- The characters for which `str.isspace` is true. -/
def isWhitespace (c : Char) : Bool :=
  (0x09 ≤ c.toNat && c.toNat ≤ 0x0D) || (0x1C ≤ c.toNat && c.toNat ≤ 0x20) || c.toNat = 0x85 ||
    c.toNat = 0xA0 || c.toNat = 0x1680 || (0x2000 ≤ c.toNat && c.toNat ≤ 0x200A) || c.toNat = 0x2028 ||
    c.toNat = 0x2029 || c.toNat = 0x202F || c.toNat = 0x205F || c.toNat = 0x3000

/-- `str.strip()`. -/
def strip (cs : List Char) : List Char := (cs.dropWhile isWhitespace).rdropWhile isWhitespace

/-- What a text is read as, if the character before it was a carriage return or not. -/
def universal : Bool → List Char → List Char
  | _, [] => []
  | afterReturn, c :: cs =>
    if c = '\r' then '\n' :: universal true cs
    else if c = '\n' ∧ afterReturn = true then universal false cs
    else c :: universal false cs

/-- The lines that a loop over the file sees, each with its newline. -/
def lines : List Char → List (List Char)
  | [] => []
  | c :: cs =>
    if c = '\n' then ['\n'] :: lines cs
    else match lines cs with
      | [] => [[c]]
      | l :: ls => (c :: l) :: ls

/-! ## Lines -/

theorem flatten_lines (cs : List Char) : (lines cs).flatten = cs := by
  induction cs with
  | nil => rfl
  | cons c cs ih =>
    unfold lines
    split
    · rename_i hc
      rw [List.flatten_cons, ih, hc]
      rfl
    · cases h : lines cs with
      | nil =>
        rw [h] at ih
        rw [← ih]
        rfl
      | cons l ls =>
        rw [h, List.flatten_cons] at ih
        simp [← ih]

theorem length_lines (cs : List Char) : (lines (cs ++ ['\n'])).length = cs.count '\n' + 1 := by
  induction cs with
  | nil => rfl
  | cons c cs ih =>
    rw [List.cons_append, lines]
    split
    · rename_i hc
      rw [List.length_cons, ih, hc, List.count_cons_self]
    · rename_i hc
      rw [List.count_cons_of_ne hc]
      cases h : lines (cs ++ ['\n']) with
      | nil =>
        rw [h] at ih
        cases ih
      | cons l ls =>
        rw [h] at ih
        exact ih

theorem lines_append (cs ds : List Char) : lines (cs ++ '\n' :: ds) = lines (cs ++ ['\n']) ++ lines ds := by
  induction cs with
  | nil => simp [lines]
  | cons c cs ih =>
    by_cases hc : c = '\n'
    · simp only [List.cons_append, lines, if_pos hc, ih]
    · simp only [List.cons_append, lines, if_neg hc, ih]
      cases h : lines (cs ++ ['\n']) with
      | nil =>
        have hlen := length_lines cs
        rw [h] at hlen
        cases hlen
      | cons l ls => rfl

/-! ## Newlines -/

/-- A newline ends what has to be known of the text before it. -/
theorem universal_append (cs ds : List Char) : ∀ b,
    universal b (cs ++ '\n' :: ds) = universal b (cs ++ ['\n']) ++ universal false ds := by
  induction cs with
  | nil =>
    intro b
    cases b with
    | false => rfl
    | true => rfl
  | cons c cs ih =>
    intro b
    simp only [List.cons_append, universal, ih]
    split
    · rfl
    split
    · rfl
    · rfl

/-- A line that is not empty, or not behind a carriage return, is read as text that ends in a newline. -/
theorem universal_ends (cs : List Char) : ∀ b, b = false ∨ cs ≠ [] →
    ∃ ds, universal b (cs ++ ['\n']) = ds ++ ['\n'] := by
  induction cs with
  | nil =>
    intro b hb
    obtain rfl := hb.resolve_right (fun h => h rfl)
    exact ⟨[], rfl⟩
  | cons c cs ih =>
    intro b _
    rw [List.cons_append, universal]
    split
    · by_cases hcs : cs = []
      · subst hcs
        exact ⟨[], rfl⟩
      · obtain ⟨ds, hds⟩ := ih true (Or.inr hcs)
        exact ⟨'\n' :: ds, congrArg _ hds⟩
    split
    · exact ih false (Or.inl rfl)
    · obtain ⟨ds, hds⟩ := ih false (Or.inl rfl)
      exact ⟨c :: ds, congrArg _ hds⟩

theorem one_le_count_universal (cs : List Char) {b : Bool} (hb : b = false ∨ cs ≠ []) :
    1 ≤ (universal b (cs ++ ['\n'])).count '\n' := by
  obtain ⟨ds, hds⟩ := universal_ends cs b hb
  rw [hds]
  exact List.one_le_count_iff.2 (List.mem_append_right ds List.mem_cons_self)

/-- **A line that is read as one line is read as it was written**, if it does not end in a carriage
return. -/
theorem universal_plain (cs : List Char) (hlast : cs.getLast? ≠ some '\r')
    (hone : (universal false (cs ++ ['\n'])).count '\n' = 1) : universal false (cs ++ ['\n']) = cs ++ ['\n'] := by
  induction cs with
  | nil => rfl
  | cons c cs ih =>
    rw [List.cons_append, universal] at hone ⊢
    by_cases hreturn : c = '\r'
    · -- another line follows the carriage return
      rw [if_pos hreturn, List.count_cons_self] at hone
      have hne : cs ≠ [] := by
        rintro rfl
        rw [hreturn] at hlast
        exact hlast rfl
      have hmore := one_le_count_universal cs (Or.inr hne) (b := true)
      omega
    · rw [if_neg hreturn, if_neg (by simp)] at hone ⊢
      have hmore := one_le_count_universal cs (Or.inl rfl) (b := false)
      by_cases hfeed : c = '\n'
      · rw [hfeed, List.count_cons_self] at hone
        omega
      · rw [List.count_cons_of_ne hfeed] at hone
        rw [ih ?_ hone]
        cases cs with
        | nil => simp
        | cons d ds => simpa using hlast

theorem universal_of_not_mem {cs : List Char} (h : '\r' ∉ cs) : universal false cs = cs := by
  induction cs with
  | nil => rfl
  | cons c cs ih =>
    obtain ⟨hc, hcs⟩ := not_or.1 (mt List.mem_cons.2 h)
    rw [universal, if_neg (Ne.symm hc), if_neg (by simp), ih hcs]

/-! ## Blanks -/

/-- What `strip` leaves does not end in a blank. -/
theorem strip_getLast {cs : List Char} {c : Char} (h : c ∈ (strip cs).getLast?) : isWhitespace c = false := by
  have hne : strip cs ≠ [] := by
    rintro hnil
    rw [hnil] at h
    cases h
  rw [List.getLast?_eq_some_getLast hne] at h
  obtain rfl := Option.some.inj h
  have hlast := List.rdropWhile_last_not _ _ hne
  exact Bool.eq_false_iff.2 hlast

theorem strip_append {xs ws : List Char} (hne : xs ≠ []) (hhead : ∀ c ∈ xs.head?, isWhitespace c = false)
    (hlast : ∀ c ∈ xs.getLast?, isWhitespace c = false) (hws : ∀ c ∈ ws, isWhitespace c = true) :
    strip (xs ++ ws) = xs := by
  have hdrop : (xs ++ ws).dropWhile isWhitespace = xs ++ ws := by
    cases xs with
    | nil => exact absurd rfl hne
    | cons x xs => exact List.dropWhile_cons_of_neg (Bool.eq_false_iff.1 (hhead x rfl))
  have hself : xs.rdropWhile isWhitespace = xs := by
    refine List.rdropWhile_eq_self_iff.2 fun hne => ?_
    exact Bool.eq_false_iff.1 (hlast _ (List.getLast?_eq_some_getLast hne))
  have hback : (xs ++ ws).rdropWhile isWhitespace = xs.rdropWhile isWhitespace := by
    unfold List.rdropWhile
    rw [List.reverse_append, List.dropWhile_append_of_pos]
    intro c hc
    exact hws c (List.mem_reverse.1 hc)
  unfold strip
  rw [hdrop, hback, hself]

/-! ## Line by line -/

/-- What is read of a text whose lines are these. -/
def textLines (text : List Char) : List (List Char) := lines (universal false text)

theorem textLines_append (cs ds : List Char) :
    textLines (cs ++ '\n' :: ds) = textLines (cs ++ ['\n']) ++ textLines ds := by
  obtain ⟨text, htext⟩ := universal_ends cs false (Or.inl rfl)
  unfold textLines
  rw [universal_append, htext, List.append_assoc, List.singleton_append, lines_append]

theorem length_textLines (cs : List Char) :
    (textLines (cs ++ ['\n'])).length = (universal false (cs ++ ['\n'])).count '\n' := by
  obtain ⟨text, htext⟩ := universal_ends cs false (Or.inl rfl)
  unfold textLines
  rw [htext, length_lines, List.count_append, List.count_singleton_self]

/-- What is read as one line is that line. -/
theorem textLines_eq_singleton {text line : List Char} (h : textLines text = [line]) :
    line = universal false text := by
  have hflatten := flatten_lines (universal false text)
  unfold textLines at h
  rw [h] at hflatten
  simpa using hflatten

/-- `mapM` succeeds with the values of the list. -/
theorem mapM_eq_some {α β : Type*} {f : α → Option β} {xs : List α} {ys : List β} :
    xs.mapM f = some ys ↔ xs.map f = ys.map some := by
  induction xs generalizing ys with
  | nil =>
    cases ys with
    | nil => exact iff_of_true rfl rfl
    | cons y ys => exact iff_of_false (by simp) (by simp)
  | cons x xs ih =>
    have hcons : (x :: xs).mapM f = some ys ↔ ∃ y, f x = some y ∧ ∃ zs, xs.mapM f = some zs ∧ y :: zs = ys := by
      simp [List.mapM_cons, Option.bind_eq_some_iff]
    rw [hcons, List.map_cons]
    constructor
    · rintro ⟨y, hy, zs, hzs, rfl⟩
      rw [hy, ih.1 hzs, List.map_cons]
    · intro h
      cases ys with
      | nil => cases h
      | cons y zs =>
        obtain ⟨hy, hzs⟩ := List.cons.inj h
        exact ⟨y, hy, zs, ih.2 hzs, rfl⟩

theorem length_le_flatMap {α β : Type*} {f : α → List β} (es : List α) (hne : ∀ e ∈ es, f e ≠ []) :
    es.length ≤ (es.flatMap f).length := by
  induction es with
  | nil => exact Nat.le_refl 0
  | cons e es ih =>
    obtain ⟨hhead, htail⟩ := List.forall_mem_cons.1 hne
    have hone := List.length_pos_iff.2 hhead
    have hrest := ih htail
    rw [List.flatMap_cons, List.length_append, List.length_cons]
    omega

/-- A list that is read piece by piece, each piece at least one element, is as long as there are pieces
exactly if each piece is one element. -/
theorem flatMap_eq_map_iff {α β : Type*} {f : α → List β} {g : α → β} (es : List α)
    (hne : ∀ e ∈ es, f e ≠ []) : es.flatMap f = es.map g ↔ ∀ e ∈ es, f e = [g e] := by
  constructor
  · intro h
    induction es with
    | nil =>
      intro e he
      cases he
    | cons e es ih =>
      obtain ⟨hhead, htail⟩ := List.forall_mem_cons.1 hne
      have hlong := length_le_flatMap es htail
      obtain ⟨x, xs, hx⟩ := List.exists_cons_of_ne_nil hhead
      rw [List.flatMap_cons, List.map_cons, hx, List.cons_append] at h
      obtain ⟨rfl, hrest⟩ := List.cons.inj h
      have hnil : xs = [] := by
        have hlen := congrArg List.length hrest
        rw [List.length_append, List.length_map] at hlen
        exact List.length_eq_zero_iff.1 (by omega)
      rw [hnil] at hx hrest
      exact List.forall_mem_cons.2 ⟨hx, ih htail hrest⟩
  · intro h
    rw [List.flatMap_congr h, List.map_eq_flatMap]

end EdgeConsensus.Lib
