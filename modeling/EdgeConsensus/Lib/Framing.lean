import Mathlib.Algebra.GroupWithZero.Nat
import Mathlib.Data.List.Basic
import Mathlib.Data.Nat.Init
import Mathlib.Data.Nat.Notation
import Mathlib.Tactic.Common

/-!
# Frames on a stream of bytes

A frame is a payload behind its length, which is written with a fixed number of bytes, the
most significant one first. A reader takes bytes off the stream with `recv`; how many it
gets is not for it to choose.

* `fromBytes_bigEndian`: a length is read as it was written.
* `recv_append`: a reader that gets all it asks for takes a frame apart where it was joined.
* `decode_encode`, `encode_of_decode`: text as bytes, and back.
* `encode_split`, `ascii_of_encode`: parts of the bytes of a text.
-/

namespace EdgeConsensus.Lib

/-! ## Lengths -/

/-- The last `k` bytes of a natural number, the most significant one first. -/
def bigEndian : ℕ → ℕ → List UInt8
  | 0, _ => []
  | k + 1, n => bigEndian k (n / 256) ++ [UInt8.ofNat n]

/-- `int.to_bytes(k, "big")`, which raises if the number does not fit. -/
def toBytes (k n : ℕ) : Option (List UInt8) :=
  if n < 256 ^ k then some (bigEndian k n) else none

/-- `int.from_bytes(bytes, "big")`. -/
def fromBytes (bytes : List UInt8) : ℕ := bytes.foldl (fun n b => 256 * n + b.toNat) 0

theorem length_bigEndian (k : ℕ) : ∀ n, (bigEndian k n).length = k := by
  induction k with
  | zero =>
    intro n
    rfl
  | succ k ih =>
    intro n
    rw [bigEndian, List.length_append, ih]
    rfl

theorem fromBytes_bigEndian (k : ℕ) : ∀ {n : ℕ}, n < 256 ^ k → fromBytes (bigEndian k n) = n := by
  induction k with
  | zero =>
    intro n hn
    have hzero : n = 0 := by simpa using hn
    subst hzero
    rfl
  | succ k ih =>
    intro n hn
    have hdiv : n / 256 < 256 ^ k := by
      rw [Nat.pow_succ] at hn
      exact Nat.div_lt_of_lt_mul (by rw [Nat.mul_comm]; exact hn)
    have hlast : (UInt8.ofNat n).toNat = n % 256 := by simp
    have hrest := ih hdiv
    unfold fromBytes at hrest ⊢
    rw [bigEndian, List.foldl_append, hrest, List.foldl_cons, List.foldl_nil, hlast]
    omega

theorem toBytes_eq {k n : ℕ} (h : n < 256 ^ k) : toBytes k n = some (bigEndian k n) := by
  unfold toBytes
  rw [if_pos h]

/-! ## Reading -/

/-- `recv(k)` on a stream that gives it `cut` bytes; `none` while it waits. -/
def recv (stream : List UInt8) (k cut : ℕ) : Option (List UInt8 × List UInt8) :=
  if k = 0 then some ([], stream)
  else if 0 < cut ∧ cut ≤ k ∧ cut ≤ stream.length then some (stream.take cut, stream.drop cut)
  else none

/-- A reader that gets all it asks for takes the next bytes. -/
theorem recv_append {bytes : List UInt8} {k : ℕ} (h : bytes.length = k) (rest : List UInt8) :
    recv (bytes ++ rest) k k = some (bytes, rest) := by
  subst h
  unfold recv
  cases bytes with
  | nil => rfl
  | cons b bytes =>
    have hne : (b :: bytes).length ≠ 0 := by simp
    have hfits : 0 < (b :: bytes).length ∧ (b :: bytes).length ≤ (b :: bytes).length ∧
        (b :: bytes).length ≤ (b :: bytes ++ rest).length := by
      rw [List.length_append]
      exact ⟨Nat.pos_of_ne_zero hne, Nat.le_refl _, Nat.le_add_right _ _⟩
    rw [if_neg hne, if_pos hfits, List.take_left, List.drop_left]

/-! ## Text -/

/-- `str.encode()`. -/
def encode (text : List Char) : List UInt8 := text.flatMap String.utf8EncodeChar

/-- `bytes.decode()`, which raises on bytes that are not UTF-8. -/
def decode (bytes : List UInt8) : Option (List Char) :=
  (ByteArray.utf8Decode? bytes.toByteArray).map Array.toList

theorem decode_encode (text : List Char) : decode (encode text) = some text := by
  have h : ByteArray.utf8Decode? (encode text).toByteArray = some text.toArray :=
    List.utf8Decode?_utf8Encode
  unfold decode
  rw [h]
  rfl

theorem encode_injective {s t : List Char} (h : encode s = encode t) : s = t := by
  have hdecode := decode_encode s
  rw [h, decode_encode] at hdecode
  exact (Option.some.inj hdecode).symm

theorem encode_append (s t : List Char) : encode (s ++ t) = encode s ++ encode t := List.flatMap_append

/-- Bytes that are text are the text's bytes. -/
theorem encode_of_decode {bytes : List UInt8} {text : List Char} (h : decode bytes = some text) :
    encode text = bytes := by
  unfold decode at h
  obtain ⟨chars, hchars, rfl⟩ := Option.map_eq_some_iff.1 h
  have hsome : (ByteArray.utf8Decode? bytes.toByteArray).isSome = true := by
    rw [hchars]
    rfl
  have hget : (ByteArray.utf8Decode? bytes.toByteArray).get hsome = chars := by simp [hchars]
  have hencode := ByteArray.utf8Encode_get_utf8Decode? (h := hsome)
  rw [hget] at hencode
  have hdata := congrArg (fun b : ByteArray => b.data.toList) hencode
  simpa [List.utf8Encode, encode] using hdata

theorem encodeChar_ascii {c : Char} (h : c.toNat ≤ 127) : String.utf8EncodeChar c = [c.val.toUInt8] :=
  String.utf8EncodeChar_eq_singleton (Char.utf8Size_eq_one_iff.2 h)

theorem encode_cons_ascii {c : Char} (h : c.toNat ≤ 127) (text : List Char) :
    encode (c :: text) = c.val.toUInt8 :: encode text := by
  unfold encode
  rw [List.flatMap_cons, encodeChar_ascii h]
  rfl

/-- The parts of an ASCII text are those of its bytes. -/
theorem encode_split {text : List Char} (h : ∀ c ∈ text, c.toNat ≤ 127) :
    ∀ {a b : List UInt8}, encode text = a ++ b →
      ∃ s t, text = s ++ t ∧ a = encode s ∧ b = encode t := by
  induction text with
  | nil =>
    intro a b hab
    obtain ⟨rfl, rfl⟩ := List.append_eq_nil_iff.1 hab.symm
    exact ⟨[], [], rfl, rfl, rfl⟩
  | cons c text ih =>
    intro a b hab
    have hc := h c List.mem_cons_self
    cases a with
    | nil => exact ⟨[], c :: text, rfl, rfl, hab.symm⟩
    | cons x a =>
      rw [encode_cons_ascii hc] at hab
      obtain ⟨rfl, htail⟩ := List.cons.inj hab
      obtain ⟨s, t, rfl, rfl, rfl⟩ := ih (fun d hd => h d (List.mem_cons_of_mem c hd)) htail
      exact ⟨c :: s, t, rfl, (encode_cons_ascii hc s).symm, rfl⟩

/-- An ASCII byte comes of its own character only. -/
theorem ascii_of_encode {text : List Char} {b : UInt8} (hb : b.toNat < 128) (h : b ∈ encode text) :
    ∃ c ∈ text, c.toNat = b.toNat := by
  have hbyte : ∀ n, b = UInt8.ofNat n → n % 256 = b.toNat := by
    intro n hn
    simpa using (congrArg UInt8.toNat hn).symm
  obtain ⟨c, hc, h⟩ := List.mem_flatMap.1 h
  have hval : c.val.toNat = b.toNat := by
    unfold String.utf8EncodeChar at h
    dsimp only at h
    split at h
    · have hone := hbyte _ (by simpa only [List.mem_singleton] using h)
      omega
    -- the bytes of a longer encoding have their first bit set
    split at h
    · simp only [List.mem_cons, List.not_mem_nil, or_false] at h
      rcases h with h | h <;> have hone := hbyte _ h <;> omega
    split at h
    · simp only [List.mem_cons, List.not_mem_nil, or_false] at h
      rcases h with h | h | h <;> have hone := hbyte _ h <;> omega
    · simp only [List.mem_cons, List.not_mem_nil, or_false] at h
      rcases h with h | h | h | h <;> have hone := hbyte _ h <;> omega
  exact ⟨c, hc, hval⟩

/-- Only NUL has a byte that is zero. -/
theorem nul_of_encode {text : List Char} (h : (0 : UInt8) ∈ encode text) : '\x00' ∈ text := by
  obtain ⟨c, hc, hzero⟩ := ascii_of_encode (by decide) h
  obtain rfl : c = '\x00' := Char.toNat_inj.1 hzero
  exact hc

end EdgeConsensus.Lib
