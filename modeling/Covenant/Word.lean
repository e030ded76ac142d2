import Covenant.Text.Decimal
import Covenant.Text.Hex

/-!
# Words

A word is 256 bits. It is the only value the machine knows: literals, stack entries, memory and
storage cells, call arguments, addresses and jump targets are all words. One word has several
readings, and this module holds them:

* as a number, unsigned (`toNat`) or in two's complement (`toInt`), with `wrap` taking any integer
  to the word congruent to it modulo 2^256;
* as a truth value (`isTrue`), every word but zero being true;
* as 32 bytes, high byte first (`toBytes`, `ofBytes?`), and those as hexadecimal digits (`hex`);
* as an index into a list (`toIndex?`);
* as a short text, padded with zero bytes on the right (`toText?`).
-/

namespace Covenant

/-- A 256-bit word. -/
structure Word where
  bits : BitVec 256
  deriving DecidableEq, Inhabited

namespace Word

/-- The number of bytes in a word. -/
def size : Nat := 32

/-- The word congruent to `n` modulo 2^256. -/
def wrap (n : Int) : Word := ⟨BitVec.ofInt 256 n⟩

/-- The word congruent to `n` modulo 2^256; slots, indices and jump targets are made with it. -/
def ofNat (n : Nat) : Word := ⟨BitVec.ofNat 256 n⟩

/-- True is one and false is zero. -/
def ofBool (b : Bool) : Word := ofNat b.toNat

/-- The word all of whose bits are zero. -/
def zero : Word := ofNat 0

/-- The unsigned reading, in `[0, 2^256)`. -/
def toNat (w : Word) : Nat := w.bits.toNat

/-- The two's complement reading, in `[-2^255, 2^255)`. -/
def toInt (w : Word) : Int := w.bits.toInt

/-- Whether the two's complement reading is below zero: the top bit. -/
def isNegative (w : Word) : Bool := w.bits.msb

/-- Every word but zero counts as true. -/
def isTrue (w : Word) : Bool := w.toNat != 0

/-- The reading as an index: neither negative nor 2^64 or more. -/
def toIndex? (w : Word) : Option Nat :=
  if w.toNat < Text.indexBound then some w.toNat else none

/-- The 32 bytes of a word, high byte first. -/
def toBytes (w : Word) : Bytes := Bytes.bigEndian size w.toNat

/-- The word that 32 bytes make up. -/
def ofBytes? (bytes : Bytes) : Option Word :=
  if bytes.length = size then some (ofNat bytes.toNat) else none

/-- The 64 lower-case hexadecimal digits of a word. -/
def hex (w : Word) : String := Text.Hex.encode w.toBytes

/-- The word that exactly 64 hexadecimal digits of either case spell. -/
def ofDigits? (digits : String) : Option Word :=
  match Text.Hex.decode digits with
  | .ok bytes => ofBytes? bytes
  | .error _ => none

/-- The text a word holds: its bytes up to the last one that is not zero, read as UTF-8. -/
def toText? (w : Word) : Option String :=
  Bytes.toText? (w.toBytes.reverse.dropWhile (· == 0)).reverse

/-- Words are ordered by their bytes, which is the order of their unsigned readings. -/
instance : Ord Word where
  compare v w := compare v.toNat w.toNat

@[ext] theorem ext_toNat {v w : Word} (h : v.toNat = w.toNat) : v = w := by
  cases v; cases w
  simpa [toNat, BitVec.toNat_eq] using h

@[simp] theorem length_toBytes (w : Word) : w.toBytes.length = size :=
  Bytes.length_bigEndian _ _

instance : Std.OrientedOrd Word where
  eq_swap := Std.OrientedOrd.eq_swap (α := Nat)

instance : Std.TransOrd Word where
  isLE_trans := Std.TransOrd.isLE_trans (α := Nat)

instance : Std.LawfulEqOrd Word where
  compare_self := Std.ReflOrd.compare_self (α := Nat)
  eq_of_compare h := ext_toNat (Std.LawfulEqOrd.eq_of_compare h)

end Word

end Covenant
