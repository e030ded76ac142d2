/-!
# Byte strings

Bytes are what is hashed, stored and sent: words, program images and store values are all lists of
`UInt8`. The module fixes the one way numbers become bytes, big-endian at a stated width, and the
UTF-8 view of text.

* `Bytes.bigEndian width n` is the number `n` as exactly `width` bytes, high byte first.
* `Bytes.toNat` reads a big-endian byte string of any width.
* `Bytes.ofText` and `Bytes.toText?` are the UTF-8 encoding of a text and its partial inverse.
-/

namespace Covenant

/-- A finite string of bytes. -/
abbrev Bytes := List UInt8

namespace Bytes

/-- The low `width` base-256 digits of `n`, most significant first. -/
def bigEndian : Nat → Nat → Bytes
  | 0, _ => []
  | width + 1, n => UInt8.ofNat (n >>> (8 * width)) :: bigEndian width n

/-- The number a byte string spells in base 256, most significant byte first. -/
def toNat (bytes : Bytes) : Nat :=
  bytes.foldl (fun value digit => value * 256 + digit.toNat) 0

/-- The UTF-8 encoding of a text. -/
def ofText (text : String) : Bytes :=
  text.toUTF8.data.toList

/-- The text a byte string encodes, if it is well-formed UTF-8. -/
def toText? (bytes : Bytes) : Option String :=
  String.fromUTF8? ⟨bytes.toArray⟩

@[simp] theorem length_bigEndian (width n : Nat) : (bigEndian width n).length = width := by
  induction width with
  | zero => rfl
  | succ width ih => simp [bigEndian, ih]

/-- Every text is the text of its own encoding. -/
@[simp] theorem toText?_ofText (text : String) : toText? (ofText text) = some text := by
  simp only [toText?, ofText, Array.toArray_toList, String.fromUTF8?, String.toUTF8_eq_toByteArray,
    dif_pos text.isValidUTF8]
  rfl

/-- A byte string that encodes a text is the encoding of that text. -/
theorem ofText_of_toText? {bytes : Bytes} {text : String} (h : toText? bytes = some text) :
    ofText text = bytes := by
  unfold toText? String.fromUTF8? at h
  split at h
  · rw [Option.some.injEq] at h
    subst h
    rfl
  · contradiction

end Bytes

end Covenant
