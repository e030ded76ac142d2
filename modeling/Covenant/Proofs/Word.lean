import Covenant.Sha256
import Covenant.Word.Encoding
import Mathlib.Algebra.Group.Nat.Defs

/-!
# Readings of words

A word is determined by each of its faithful readings: the number, the 32 bytes, the hexadecimal
digits. This module proves those round trips once, so that memory keys, storage keys and jump
targets can be compared as numbers.

* `Bytes.toNat_bigEndian` and `Bytes.toNat_inj` are the two halves of the byte reading.
* `Text.Hex.decode_encode` is the round trip of byte strings and their digits.
* `Word.ofBytes?_toBytes`, `Word.ofDigits?_hex` and `Word.ofHex_hex` are the round trips of words.
* `Word.toIndex?_ofNat` says that small numbers come back from a word as indices.
-/

namespace Covenant

namespace Bytes

/-! ### Numbers as bytes -/

/-- Reading starts from an accumulated value, which the bytes to come shift up. -/
theorem foldl_toNat (bytes : Bytes) (value : Nat) :
    bytes.foldl (fun value digit => value * 256 + digit.toNat) value
      = value * 256 ^ bytes.length + toNat bytes := by
  induction bytes generalizing value with
  | nil => simp [toNat]
  | cons b rest ih =>
    have hzero := ih (0 * 256 + b.toNat)
    simp only [toNat, List.foldl_cons, List.length_cons] at hzero ⊢
    rw [ih, hzero, Nat.pow_succ, Nat.add_mul, Nat.zero_mul, Nat.zero_add, Nat.mul_assoc,
      Nat.mul_comm 256, Nat.add_assoc]
    rfl

@[simp] theorem toNat_nil : toNat [] = 0 := rfl

/-- The first byte counts for the highest power of 256. -/
theorem toNat_cons (b : UInt8) (rest : Bytes) :
    toNat (b :: rest) = b.toNat * 256 ^ rest.length + toNat rest := by
  rw [toNat, List.foldl_cons, foldl_toNat]
  simp

/-- A byte string spells a number below the power of 256 that belongs to its length. -/
theorem toNat_lt (bytes : Bytes) : toNat bytes < 256 ^ bytes.length := by
  induction bytes with
  | nil => simp
  | cons b rest ih =>
    have hb : b.toNat < 256 := b.toNat_lt
    rw [toNat_cons, List.length_cons, Nat.pow_succ]
    calc b.toNat * 256 ^ rest.length + toNat rest
        < b.toNat * 256 ^ rest.length + 256 ^ rest.length := by omega
      _ = (b.toNat + 1) * 256 ^ rest.length := by rw [Nat.add_mul, Nat.one_mul]
      _ ≤ 256 * 256 ^ rest.length := Nat.mul_le_mul_right _ (by omega)
      _ = 256 ^ rest.length * 256 := Nat.mul_comm _ _

/-- The bytes of a number spell its remainder at their width. -/
theorem toNat_bigEndian (width n : Nat) : toNat (bigEndian width n) = n % 256 ^ width := by
  induction width with
  | zero => simp [bigEndian, Nat.mod_one]
  | succ width ih =>
    -- The first byte is that of the number shifted down by all others.
    have hshift : n >>> (8 * width) = n / 256 ^ width := by
      rw [Nat.shiftRight_eq_div_pow, Nat.pow_mul]
    rw [bigEndian, toNat_cons, length_bigEndian, ih, hshift, UInt8.toNat_ofNat',
      Nat.pow_succ 256 width, Nat.mod_mul (x := n), Nat.mul_comm (256 ^ width), Nat.add_comm]

/-- Byte strings of one length that spell the same number are the same. -/
theorem toNat_inj {a b : Bytes} (hlen : a.length = b.length) (h : toNat a = toNat b) : a = b := by
  induction a generalizing b with
  | nil => exact (List.length_eq_zero_iff.1 hlen.symm).symm
  | cons x xs ih =>
    cases b with
    | nil => simp at hlen
    | cons y ys =>
      have hlen' : xs.length = ys.length := by simpa using hlen
      rw [toNat_cons, toNat_cons, hlen'] at h
      have hx := toNat_lt xs
      have hy := toNat_lt ys
      rw [hlen'] at hx
      have hpos : 0 < 256 ^ ys.length := Nat.pow_pos (by decide)
      -- The first bytes are the quotients, as the rest is below the power.
      have hhead : x.toNat = y.toNat := by
        have hquot := congrArg (· / 256 ^ ys.length) h
        simp only [Nat.mul_comm _ (256 ^ ys.length), Nat.mul_add_div hpos,
          Nat.div_eq_of_lt hx, Nat.div_eq_of_lt hy, Nat.add_zero] at hquot
        exact hquot
      rw [hhead] at h
      rw [UInt8.toNat_inj.1 hhead, ih hlen' (Nat.add_left_cancel h)]

/-! ### Texts as bytes -/

/-- A text is encoded character by character. -/
theorem ofText_ofList (chars : List Char) :
    ofText (String.ofList chars) = chars.flatMap String.utf8EncodeChar := by
  rw [ofText, String.toUTF8_eq_toByteArray, String.toByteArray_ofList]
  simp [List.utf8Encode]

/-- A character below 128 is encoded as its code. -/
theorem utf8EncodeChar_of_lt {c : Char} (h : c.toNat < 128) :
    String.utf8EncodeChar c = [UInt8.ofNat c.toNat] := by
  rw [String.utf8EncodeChar]
  exact if_pos (show c.toNat ≤ 127 by omega)

/-- The encoding of a text in ASCII has no zero byte, if there is no such character. -/
theorem ne_zero_of_mem_ofText {chars : List Char}
    (h : ∀ c ∈ chars, 0 < c.toNat ∧ c.toNat < 128) {b : UInt8}
    (hb : b ∈ ofText (String.ofList chars)) : b ≠ 0 := by
  rw [ofText_ofList, List.mem_flatMap] at hb
  obtain ⟨c, hc, hb⟩ := hb
  obtain ⟨hpos, hlt⟩ := h c hc
  rw [utf8EncodeChar_of_lt hlt, List.mem_singleton] at hb
  subst hb
  intro hzero
  have h := congrArg UInt8.toNat hzero
  rw [UInt8.toNat_ofNat'] at h
  simp at h
  omega

end Bytes

namespace Text.Hex

/-! ### Hexadecimal digits -/

theorem div_sixteen_lt (byte : UInt8) : byte / 16 < 16 := by
  have := byte.toNat_lt
  rw [UInt8.lt_iff_toNat_lt, UInt8.toNat_div]
  simp only [UInt8.reduceToNat]
  omega

theorem mod_sixteen_lt (byte : UInt8) : byte % 16 < 16 := UInt8.mod_lt byte (by decide)

/-- A byte is made of its halves. -/
theorem join_halves (byte : UInt8) : byte / 16 * 16 + byte % 16 = byte := by
  refine UInt8.toNat_inj.1 ?_
  have := byte.toNat_lt
  rw [UInt8.toNat_add, UInt8.toNat_mul, UInt8.toNat_div, UInt8.toNat_mod]
  simp only [UInt8.reduceToNat]
  omega

/-- A digit is written with one byte, which is read as the value of the digit. -/
theorem encodeChar_digit {value : UInt8} (h : value < 16) :
    ∃ byte, String.utf8EncodeChar (digit value) = [byte] ∧ digitValue? byte = some value := by
  have key : ∀ x : Fin 16, ∃ byte, String.utf8EncodeChar (digit (UInt8.ofNat x)) = [byte]
      ∧ digitValue? byte = some (UInt8.ofNat x) := fun x =>
    ⟨UInt8.ofNat (digit (UInt8.ofNat x)).toNat, by revert x; decide⟩
  simpa using key ⟨value.toNat, h⟩

theorem digit_mem {value : UInt8} (h : value < 16) : digit value ∈ "0123456789abcdef".toList := by
  have key : ∀ x : Fin 16, digit (UInt8.ofNat x) ∈ "0123456789abcdef".toList := by decide
  simpa using key ⟨value.toNat, h⟩

/-- All characters of an encoding are digits. -/
theorem mem_encode {bytes : Bytes} {c : Char} (h : c ∈ (encode bytes).toList) :
    c ∈ "0123456789abcdef".toList := by
  rw [encode, String.toList_ofList] at h
  obtain ⟨byte, -, hc⟩ := List.mem_flatMap.1 h
  simp only [List.mem_cons, List.not_mem_nil, or_false] at hc
  rcases hc with rfl | rfl
  · exact digit_mem (div_sixteen_lt byte)
  · exact digit_mem (mod_sixteen_lt byte)

/-- There are two digits for each byte. -/
theorem length_encode (bytes : Bytes) : (encode bytes).length = 2 * bytes.length := by
  rw [encode, String.length_ofList]
  induction bytes with
  | nil => rfl
  | cons byte rest ih =>
    rw [List.flatMap_cons, List.length_append, ih, List.length_cons]
    simp only [List.length_cons, List.length_nil]
    omega

/-- A byte is written with two digits of one byte each, from which it is read. -/
theorem encodeChar_digits (byte : UInt8) :
    ∃ high low h l, String.utf8EncodeChar (digit (byte / 16)) = [high]
      ∧ String.utf8EncodeChar (digit (byte % 16)) = [low] ∧ digitValue? high = some h
      ∧ digitValue? low = some l ∧ h * 16 + l = byte := by
  obtain ⟨high, hhigh, hvalue⟩ := encodeChar_digit (div_sixteen_lt byte)
  obtain ⟨low, hlow, hvalue'⟩ := encodeChar_digit (mod_sixteen_lt byte)
  exact ⟨high, low, _, _, hhigh, hlow, hvalue, hvalue', join_halves byte⟩

/-- Digits take one byte each. -/
theorem length_ofText_encode (bytes : Bytes) :
    (Bytes.ofText (encode bytes)).length = 2 * bytes.length := by
  rw [encode, Bytes.ofText_ofList]
  induction bytes with
  | nil => rfl
  | cons byte rest ih =>
    obtain ⟨high, low, h, l, hhigh, hlow, -, -, -⟩ := encodeChar_digits byte
    simp only [List.flatMap_cons, List.cons_append, List.nil_append, hhigh, hlow,
      List.length_cons, ih]
    omega

/-- Bytes are read back from pairs of digits, wherever the count of the pairs is. -/
theorem decodePairs_encode (bytes : Bytes) (index : Nat) :
    decodePairs index (Bytes.ofText (encode bytes)) = .ok bytes := by
  rw [encode, Bytes.ofText_ofList]
  induction bytes generalizing index with
  | nil => rfl
  | cons byte rest ih =>
    obtain ⟨high, low, h, l, hhigh, hlow, hvalue, hvalue', hjoin⟩ := encodeChar_digits byte
    simp only [List.flatMap_cons, List.cons_append, List.nil_append, hhigh, hlow, decodePairs,
      hvalue, hvalue', ih, hjoin]
    rfl

/-- A byte string is read back from its digits. -/
theorem decode_encode (bytes : Bytes) : decode (encode bytes) = .ok bytes := by
  -- There is no digit left over.
  have heven : ¬ (Bytes.ofText (encode bytes)).length % 2 = 1 := by
    rw [length_ofText_encode]
    omega
  rw [decode, if_neg heven]
  exact decodePairs_encode bytes 0

/-- The digits of a byte string determine it. -/
theorem encode_injective {a b : Bytes} (h : encode a = encode b) : a = b := by
  have hread := decode_encode a
  rw [h, decode_encode] at hread
  exact (Except.ok.inj hread).symm

end Text.Hex

namespace Word

/-! ### Words as numbers and as bytes -/

theorem toNat_lt (w : Word) : w.toNat < 2 ^ 256 := w.bits.isLt

/-- A word keeps the remainder of a number. -/
@[simp] theorem toNat_ofNat (n : Nat) : (ofNat n).toNat = n % 2 ^ 256 := BitVec.toNat_ofNat n 256

@[simp] theorem ofNat_toNat (w : Word) : ofNat w.toNat = w := by
  ext
  rw [toNat_ofNat, Nat.mod_eq_of_lt w.toNat_lt]

/-- Numbers below 2^256 are told apart by their words. -/
theorem ofNat_inj {m n : Nat} (hm : m < 2 ^ 256) (hn : n < 2 ^ 256) (h : ofNat m = ofNat n) :
    m = n := by
  have hnat := congrArg toNat h
  rwa [toNat_ofNat, toNat_ofNat, Nat.mod_eq_of_lt hm, Nat.mod_eq_of_lt hn] at hnat

/-- The bytes of a word spell its unsigned reading. -/
@[simp] theorem toNat_toBytes (w : Word) : Bytes.toNat w.toBytes = w.toNat := by
  rw [toBytes, Bytes.toNat_bigEndian]
  exact Nat.mod_eq_of_lt (Nat.lt_of_lt_of_eq w.toNat_lt (by decide))

/-- A word comes back from its bytes. -/
@[simp] theorem ofBytes?_toBytes (w : Word) : ofBytes? w.toBytes = some w := by
  rw [ofBytes?, if_pos (length_toBytes w), toNat_toBytes, ofNat_toNat]

/-- Bytes come back from the word they make up. -/
theorem toBytes_of_ofBytes? {bytes : Bytes} {w : Word} (h : ofBytes? bytes = some w) :
    w.toBytes = bytes := by
  unfold ofBytes? at h
  split at h
  · next hlen =>
    cases h
    refine Bytes.toNat_inj (by rw [length_toBytes, hlen]) ?_
    have hlt := Bytes.toNat_lt bytes
    rw [hlen] at hlt
    rw [toNat_toBytes, toNat_ofNat]
    exact Nat.mod_eq_of_lt (Nat.lt_of_lt_of_eq hlt (by decide))
  · cases h

/-- A word that is made of 32 bytes has them. -/
theorem toBytes_ofNat {bytes : Bytes} (h : bytes.length = size) :
    (ofNat (Bytes.toNat bytes)).toBytes = bytes :=
  toBytes_of_ofBytes? (if_pos h)

/-- The bytes of a text's word: those of the text, filled up with zeros. -/
theorem toBytes_of_ofText {text : String} {w : Word} (h : ofText text = .ok w) :
    (Bytes.ofText text).length ≤ size
      ∧ w.toBytes = Bytes.ofText text ++ List.replicate (size - (Bytes.ofText text).length) 0 := by
  unfold ofText at h
  dsimp only at h
  split at h
  · next hle =>
    cases h
    refine ⟨hle, toBytes_ofNat ?_⟩
    rw [List.length_append, List.length_replicate]
    omega
  · cases h

/-- Words with the same hexadecimal digits are the same; storage keys never clash. -/
theorem hex_injective {v w : Word} (h : v.hex = w.hex) : v = w := by
  have hbytes : v.toBytes = w.toBytes := Text.Hex.encode_injective h
  have hsome := congrArg ofBytes? hbytes
  rw [ofBytes?_toBytes, ofBytes?_toBytes] at hsome
  exact Option.some.inj hsome

/-- A word is read back from its digits. -/
theorem ofDigits?_hex (w : Word) : ofDigits? w.hex = some w := by
  rw [ofDigits?, hex, Text.Hex.decode_encode]
  exact ofBytes?_toBytes w

theorem mem_hex {w : Word} {c : Char} (h : c ∈ w.hex.toList) : c ∈ "0123456789abcdef".toList :=
  Text.Hex.mem_encode h

/-- A word has 64 digits. -/
theorem length_hex (w : Word) : w.hex.length = 64 := by
  rw [hex, Text.Hex.length_encode, length_toBytes]
  rfl

theorem utf8ByteSize_hex (w : Word) : w.hex.utf8ByteSize = 64 := by
  have hlength := Text.Hex.length_ofText_encode w.toBytes
  rw [length_toBytes] at hlength
  exact hlength

/-- Digits do not begin with `0x`, as `x` is no digit. -/
theorem hex_ne_marked (w : Word) (rest : List Char) : w.hex.toList ≠ '0' :: 'x' :: rest := by
  intro h
  have hx : 'x' ∈ w.hex.toList := by
    rw [h]
    exact List.mem_cons_of_mem _ List.mem_cons_self
  exact absurd (mem_hex hx) (by decide)

/-- A word is read back from its digits also where `0x` may stand before them. -/
theorem ofHex_hex (w : Word) : ofHex w.hex = .ok w := by
  have hplain := hex_ne_marked w
  simp [ofHex, ofDigits?_hex]

/-- Wrapping the sum of two signed readings is adding the bits. -/
theorem wrap_toInt_add (v w : Word) : wrap (v.toInt + w.toInt) = ⟨v.bits + w.bits⟩ := by
  rw [wrap, toInt, toInt, BitVec.ofInt_add, BitVec.ofInt_toInt, BitVec.ofInt_toInt]

/-- A number that is an index comes back from its word as that index. -/
theorem toIndex?_ofNat {n : Nat} (h : n < Text.indexBound) : (ofNat n).toIndex? = some n := by
  have hn : (ofNat n).toNat = n := by
    rw [toNat_ofNat]
    exact Nat.mod_eq_of_lt (Nat.lt_trans h (by decide))
  rw [toIndex?, hn, if_pos h]

end Word

end Covenant
