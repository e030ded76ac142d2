import Covenant.Proofs.Word.Arithmetic

/-!
# Encoders of numbers

A number becomes a word in several ways. An integer of any size is taken modulo 2^256, and its bytes
are filled up with zero bytes on the left. A number of 64 bits is put into the last eight bytes, behind
bytes that repeat its sign. Slots, targets and truth values are small numbers. Where two encoders take
the same number, they give the same word.

* `Word.toBytes_wrap_iff` says which bytes the word of an integer has.
* `Word.ofUInt64_eq_wrap` and `Word.ofInt64_eq_wrap` are about numbers of 64 bits.
* `Word.lex_toBytes_iff` says that the order of the bytes is the order of the numbers.
* `Word.encoders_and_readings_agree` is all of it.
-/

namespace Covenant

namespace Bytes

/-- Bytes in front count by the power of those behind them. -/
theorem toNat_append (a b : Bytes) : toNat (a ++ b) = toNat a * 256 ^ b.length + toNat b := by
  rw [toNat, List.foldl_append, foldl_toNat]
  rfl

/-- Zero bytes on the left count for nothing. -/
theorem toNat_zeros_append (n : Nat) (bytes : Bytes) :
    toNat (List.replicate n 0 ++ bytes) = toNat bytes := by
  have hzeros : toNat (List.replicate n 0) = 0 := by
    induction n with
    | zero => rfl
    | succ n ih => rw [List.replicate_succ, toNat_cons, ih]; simp
  rw [toNat_append, hzeros, Nat.zero_mul, Nat.zero_add]

/-- Bytes with all bits set spell the largest number of their length. -/
theorem toNat_ones (n : Nat) : toNat (List.replicate n 0xFF) + 1 = 256 ^ n := by
  induction n with
  | zero => rfl
  | succ n ih =>
    have hlast : (0xFF : UInt8).toNat = 255 := rfl
    rw [List.replicate_succ, toNat_cons, List.length_replicate, hlast, Nat.pow_succ]
    omega

/-- Byte strings of one length are in the order of the numbers they spell. -/
theorem lex_iff {a b : Bytes} (hlen : a.length = b.length) :
    List.Lex (fun x y => x.toNat < y.toNat) a b ↔ toNat a < toNat b := by
  induction a generalizing b with
  | nil =>
    obtain rfl := (List.length_eq_zero_iff.1 hlen.symm)
    exact iff_of_false (fun h => by cases h) (Nat.lt_irrefl _)
  | cons x xs ih =>
    cases b with
    | nil => simp at hlen
    | cons y ys =>
      have hlen' : xs.length = ys.length := by simpa using hlen
      have hx := toNat_lt xs
      have hy := toNat_lt ys
      rw [toNat_cons, toNat_cons, hlen']
      rw [hlen'] at hx
      generalize 256 ^ ys.length = power at hx hy
      -- The first bytes decide, as the rest is below the power.
      have hfirst : ∀ {m n k l : Nat}, m < n → k < power → m * power + k < n * power + l := by
        intro m n k l hmn hk
        have hnext : (m + 1) * power ≤ n * power := Nat.mul_le_mul_right _ hmn
        rw [Nat.add_mul, Nat.one_mul] at hnext
        omega
      rcases Nat.lt_trichotomy x.toNat y.toNat with hlt | heq | hgt
      · exact iff_of_true (.rel hlt) (hfirst hlt hx)
      · obtain rfl := UInt8.toNat_inj.1 heq
        rw [Nat.add_lt_add_iff_left, ← ih hlen']
        constructor
        · intro h
          cases h with
          | rel h => exact absurd h (Nat.lt_irrefl _)
          | cons h => exact h
        · exact .cons
      · refine iff_of_false (fun h => ?_) (Nat.lt_asymm (hfirst hgt hy))
        cases h with
        | rel h => exact Nat.lt_asymm h hgt
        | cons h => exact Nat.lt_irrefl _ hgt

end Bytes

namespace Word

/-! ### Integers of any size -/

theorem wrap_toNat (w : Word) : wrap w.toNat = w :=
  (represents_iff_eq_wrap.1 (Int.ModEq.refl _)).symm

/-- Wrapping a number that is not negative is taking it modulo 2^256. -/
theorem wrap_natCast (n : Nat) : wrap n = ofNat n := by
  show (⟨BitVec.ofInt 256 n⟩ : Word) = ⟨BitVec.ofNat 256 n⟩
  rw [BitVec.ofInt_natCast]

/-- Integers wrap to the same word if they are congruent. -/
theorem wrap_eq_wrap_iff {m n : ℤ} : wrap m = wrap n ↔ m ≡ n [ZMOD 2 ^ 256] := by
  rw [← represents_iff_eq_wrap]
  constructor
  · exact fun h => ((represents_iff_eq_wrap.2 rfl : (wrap m).Represents m).symm).trans h
  · exact fun h => (represents_iff_eq_wrap.2 rfl : (wrap m).Represents m).trans h

/-- The signed reading of an integer's word is the one integer in range that is congruent to it. -/
theorem toInt_wrap_iff {n m : ℤ} :
    (wrap n).toInt = m ↔ m ≡ n [ZMOD 2 ^ 256] ∧ -2 ^ 255 ≤ m ∧ m < 2 ^ 255 := by
  constructor
  · rintro rfl
    refine ⟨?_, le_toInt _, toInt_lt _⟩
    rw [← wrap_eq_wrap_iff, wrap_toInt]
  · rintro ⟨hcongr, hlow, hhigh⟩
    rw [← wrap_eq_wrap_iff.2 hcongr, toInt_wrap hlow hhigh]

/-- The bytes of an integer's word are those that spell its remainder, after zero bytes. -/
theorem toBytes_wrap_iff {n : ℤ} {magnitude : Bytes} :
    (wrap n).toBytes = List.replicate (size - magnitude.length) 0 ++ magnitude
      ↔ magnitude.length ≤ size ∧ (Bytes.toNat magnitude : ℤ) = n % 2 ^ 256 := by
  have hnat := toNat_wrap n
  constructor
  · intro h
    have hlength := congrArg List.length h
    have hvalue := congrArg Bytes.toNat h
    rw [length_toBytes, List.length_append, List.length_replicate] at hlength
    rw [toNat_toBytes, Bytes.toNat_zeros_append] at hvalue
    exact ⟨by omega, by rw [← hvalue, hnat]⟩
  · rintro ⟨hlength, hvalue⟩
    -- Byte strings of one length are told apart by their numbers.
    refine Bytes.toNat_inj ?_ ?_
    · rw [length_toBytes, List.length_append, List.length_replicate]
      omega
    · rw [toNat_toBytes, Bytes.toNat_zeros_append]
      exact_mod_cast hnat.trans hvalue.symm

/-- An integer is encoded if it has a reading, signed or unsigned, that fits. -/
theorem ofInt_eq_ok_iff {n : ℤ} {w : Word} :
    ofInt n = .ok w ↔ (-2 ^ 255 ≤ n ∧ n < 2 ^ 256) ∧ w = wrap n := by
  have hlow : Int.pow 2 255 = 2 ^ 255 := by decide
  have hhigh : Int.pow 2 256 = 2 ^ 256 := by decide
  rw [ofInt, hlow, hhigh]
  split
  · next hrange => exact ⟨fun h => ⟨hrange, (Except.ok.inj h).symm⟩, fun h => by rw [h.2]⟩
  · next hrange => exact iff_of_false (fun h => by cases h) (fun h => hrange h.1)

/-- A literal is encoded in a narrower range, but in the same way. -/
theorem ofSafeInt_eq_ok_iff {n : ℤ} {w : Word} :
    ofSafeInt n = .ok w ↔ (-(2 ^ 53 - 1) ≤ n ∧ n ≤ 2 ^ 53 - 1) ∧ w = wrap n := by
  have hmax : maxSafeInt = 2 ^ 53 - 1 := by decide
  rw [ofSafeInt, hmax]
  split
  · next hsafe =>
    rw [ofInt_eq_ok_iff]
    refine and_congr_left fun _ => ?_
    constructor
    · intro _
      omega
    · intro _
      omega
  · next hsafe =>
    refine iff_of_false (fun h => by cases h) ?_
    rintro ⟨⟨hlow, hhigh⟩, -⟩
    omega

/-! ### Numbers of 64 bits -/

theorem ofUInt64_eq_ofNat (n : UInt64) : ofUInt64 n = ofNat n.toNat := by
  have hlt : n.toNat < 256 ^ 8 := n.toNat_lt
  rw [ofUInt64, Bytes.toNat_zeros_append, Bytes.toNat_bigEndian, Nat.mod_eq_of_lt hlt]

/-- A number of 64 bits without a sign is encoded as the integer it is. -/
theorem ofUInt64_eq_wrap (n : UInt64) : ofUInt64 n = wrap n.toNat := by
  rw [ofUInt64_eq_ofNat, wrap_natCast]

/-- A negative number of 64 bits is continued to the left by its sign. -/
theorem ofInt64_eq_wrap (n : Int64) : ofInt64 n = wrap n.toInt := by
  have hlt : n.toUInt64.toNat < 256 ^ 8 := n.toUInt64.toNat_lt
  have hsign : n < 0 ↔ n.toInt < 0 := Int64.lt_iff_toInt_lt
  -- The sign is the topmost of the 64 bits.
  have hvalue : n.toInt = if 2 * n.toUInt64.toNat < 2 ^ 64 then (n.toUInt64.toNat : ℤ)
      else n.toUInt64.toNat - (2 ^ 64 : ℕ) := BitVec.toInt_eq_toNat_cond n.toBitVec
  have hlow : Bytes.toNat (Bytes.bigEndian 8 n.toUInt64.toNat) = n.toUInt64.toNat := by
    rw [Bytes.toNat_bigEndian, Nat.mod_eq_of_lt hlt]
  rw [ofInt64, ← wrap_natCast, wrap_eq_wrap_iff]
  by_cases hneg : n < 0
  · -- 24 bytes of ones and a one more are 2^192, so the word is 2^256 above the number
    have hones : Bytes.toNat (List.replicate (size - 8) 0xFF) + 1 = 256 ^ 24 := Bytes.toNat_ones 24
    have hnegative := hsign.1 hneg
    rw [if_pos hneg, Bytes.toNat_append, Bytes.length_bigEndian, hlow, Int.modEq_iff_dvd]
    refine ⟨-1, ?_⟩
    split at hvalue
    · omega
    · omega
  · have hnonneg : ¬ n.toInt < 0 := fun h => hneg (hsign.2 h)
    rw [if_neg hneg, Bytes.toNat_zeros_append, hlow]
    split at hvalue
    · rw [hvalue]
    · omega

/-! ### Indices -/

/-- A word is an index if its signed reading is not negative and has 64 bits. -/
theorem toIndex?_eq_some_iff {w : Word} {t : ℕ} :
    w.toIndex? = some t ↔ w.toInt = t ∧ t < 2 ^ 64 := by
  have hbound : Text.indexBound = 2 ^ 64 := by decide
  -- Below 2^64 the two readings are the same.
  have hsmall : w.toNat < 2 ^ 64 → w.toInt = w.toNat := by
    intro hlt
    rw [← wrap_toNat w, toInt_wrap (by omega) (by omega), wrap_toNat]
  rw [toIndex?, hbound]
  constructor
  · intro h
    split at h
    · next hlt =>
      obtain rfl := Option.some.inj h
      exact ⟨hsmall hlt, hlt⟩
    · cases h
  · rintro ⟨hint, hlt⟩
    have hnat : w.toNat = t := by
      rw [← wrap_toInt w, hint, wrap_natCast, toNat_ofNat]
      exact Nat.mod_eq_of_lt (by omega)
    rw [hnat, if_pos hlt]

/-! ### Order -/

/-- Words compare as their bytes do, from the first byte on. -/
theorem lex_toBytes_iff {v w : Word} :
    List.Lex (fun x y => x.toNat < y.toNat) v.toBytes w.toBytes ↔ v.toNat < w.toNat := by
  rw [Bytes.lex_iff (by rw [length_toBytes, length_toBytes]), toNat_toBytes, toNat_toBytes]

theorem compare_eq_lt_iff {v w : Word} : compare v w = .lt ↔ v.toNat < w.toNat :=
  Nat.compare_eq_lt

/-- **Encoders and readings of words agree.** Wrapping undoes both readings of a word. The signed
reading of a wrapped integer is the one integer in `[-2^255, 2^255)` that is congruent to it modulo
2^256, and the bytes of its word are those of its remainder, after zero bytes. An integer is encoded
just if it is in `[-2^255, 2^256)`, a literal just if its magnitude is at most 2^53 - 1, and both as
wrapping does. Numbers of 64 bits with a sign or without, slots and targets, and truth values are
encoded as the integers they are. A word is an index just if its signed reading is, and words are in
the order of their unsigned readings, which is that of their bytes. -/
theorem encoders_and_readings_agree :
    (∀ w : Word, wrap w.toInt = w ∧ wrap w.toNat = w)
      ∧ (∀ n m : ℤ, (wrap n).toInt = m ↔ m ≡ n [ZMOD 2 ^ 256] ∧ -2 ^ 255 ≤ m ∧ m < 2 ^ 255)
      ∧ (∀ (n : ℤ) (magnitude : Bytes),
        (wrap n).toBytes = List.replicate (size - magnitude.length) 0 ++ magnitude
          ↔ magnitude.length ≤ size ∧ (Bytes.toNat magnitude : ℤ) = n % 2 ^ 256)
      ∧ (∀ (n : ℤ) (w : Word), ofInt n = .ok w ↔ (-2 ^ 255 ≤ n ∧ n < 2 ^ 256) ∧ w = wrap n)
      ∧ (∀ (n : ℤ) (w : Word),
        ofSafeInt n = .ok w ↔ (-(2 ^ 53 - 1) ≤ n ∧ n ≤ 2 ^ 53 - 1) ∧ w = wrap n)
      ∧ (∀ n : Int64, ofInt n.toInt = .ok (ofInt64 n))
      ∧ (∀ n : UInt64, ofInt n.toNat = .ok (ofUInt64 n) ∧ ofInt n.toNat = .ok (ofNat n.toNat))
      ∧ (∀ b : Bool, ofInt b.toNat = .ok (ofBool b))
      ∧ (∀ (w : Word) (t : ℕ), w.toIndex? = some t ↔ w.toInt = t ∧ t < 2 ^ 64)
      ∧ ∀ v w : Word, (compare v w = .lt ↔ v.toNat < w.toNat)
        ∧ (List.Lex (fun x y => x.toNat < y.toNat) v.toBytes w.toBytes ↔ v.toNat < w.toNat) := by
  refine ⟨fun w => ⟨wrap_toInt w, wrap_toNat w⟩, fun _ _ => toInt_wrap_iff,
    fun _ _ => toBytes_wrap_iff, fun _ _ => ofInt_eq_ok_iff, fun _ _ => ofSafeInt_eq_ok_iff,
    fun n => ?_, fun n => ?_, fun b => ?_, fun _ _ => toIndex?_eq_some_iff,
    fun _ _ => ⟨compare_eq_lt_iff, lex_toBytes_iff⟩⟩
  · have hlow := n.le_toInt
    have hhigh := n.toInt_lt
    exact ofInt_eq_ok_iff.2 ⟨by omega, ofInt64_eq_wrap n⟩
  · have hlt := n.toNat_lt
    exact ⟨ofInt_eq_ok_iff.2 ⟨by omega, ofUInt64_eq_wrap n⟩,
      ofInt_eq_ok_iff.2 ⟨by omega, (wrap_natCast _).symm⟩⟩
  · cases b with
    | false => exact ofInt_eq_ok_iff.2 ⟨by decide, (wrap_natCast 0).symm⟩
    | true => exact ofInt_eq_ok_iff.2 ⟨by decide, (wrap_natCast 1).symm⟩

end Word

end Covenant
