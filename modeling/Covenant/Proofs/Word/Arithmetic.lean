import Covenant.Machine.Step
import Covenant.Proofs.Word
import Mathlib.Data.Int.ModEq
import Mathlib.Data.Rat.Floor
import Mathlib.Tactic.Linarith

/-!
# Arithmetic of the machine

What the thirteen operators do to the two words on top of the stack, said in integers. Sums,
differences and products are exact modulo 2^256, so it does not matter there whether a word is read
with a sign. Division and remainder go by the signed readings: a quotient is rounded up, a remainder
has the sign of the dividend. A quotient of two words fits in a word, but for one pair.

* `Word.toInt_wrap` and `Word.represents_iff_eq_wrap` say which integers a word stands for.
* `ceilDiv_eq_ceil` and `isRemainder_iff_eq_tmod` say what is computed, `ceilDiv_mem` and
  `tmod_mem` that it fits.
* `operators_are_integer_arithmetic` is about the instructions.
-/

namespace Covenant

namespace Word

/-! ### Signed readings -/

theorem le_toInt (w : Word) : -2 ^ 255 ≤ w.toInt := BitVec.le_toInt w.bits

theorem toInt_lt (w : Word) : w.toInt < 2 ^ 255 := BitVec.toInt_lt

/-- Words are told apart by their signed readings. -/
theorem toInt_inj {v w : Word} : v.toInt = w.toInt ↔ v = w := by
  constructor
  · intro h
    have hbits : v.bits = w.bits := BitVec.toInt_inj.1 h
    show (⟨v.bits⟩ : Word) = ⟨w.bits⟩
    rw [hbits]
  · intro h
    rw [h]

/-- A word is what its signed reading wraps to. -/
theorem wrap_toInt (w : Word) : wrap w.toInt = w := by
  show (⟨BitVec.ofInt 256 w.bits.toInt⟩ : Word) = w
  rw [BitVec.ofInt_toInt]

/-- An integer that has a signed reading is the signed reading of its word. -/
theorem toInt_wrap {n : ℤ} (hlow : -2 ^ 255 ≤ n) (hhigh : n < 2 ^ 255) : (wrap n).toInt = n := by
  show (BitVec.ofInt 256 n).toInt = n
  rw [BitVec.toInt_ofInt]
  exact Int.bmod_eq_of_le (by omega) (by omega)

/-- A word counts as true if it is not zero. -/
theorem isTrue_iff (w : Word) : w.isTrue = true ↔ w ≠ .zero := by
  have hzero : Word.zero.toNat = 0 := by decide
  rw [isTrue, bne_iff_ne, ne_eq, ne_eq, ← hzero]
  exact not_congr ⟨ext_toNat, congrArg toNat⟩

theorem toInt_zero : Word.zero.toInt = 0 := by decide

theorem toInt_ne_zero {w : Word} (h : w ≠ .zero) : w.toInt ≠ 0 := by
  intro hzero
  rw [← toInt_zero] at hzero
  exact h (toInt_inj.1 hzero)

/-! ### Congruent words -/

/-- The word is congruent to the integer modulo 2^256. -/
def Represents (w : Word) (n : ℤ) : Prop := (w.toNat : ℤ) ≡ n [ZMOD 2 ^ 256]

/-- The unsigned reading of a wrapped integer is its remainder. -/
theorem toNat_wrap (n : ℤ) : ((wrap n).toNat : ℤ) = n % 2 ^ 256 := by
  show ((BitVec.ofInt 256 n).toNat : ℤ) = _
  rw [BitVec.toNat_ofInt]
  exact Int.toNat_of_nonneg (Int.emod_nonneg _ (by decide))

/-- One word is congruent to an integer, that which it wraps to. -/
theorem represents_iff_eq_wrap {w : Word} {n : ℤ} : w.Represents n ↔ w = wrap n := by
  have hlt : (w.toNat : ℤ) < 2 ^ 256 := by exact_mod_cast w.toNat_lt
  -- A word is below 2^256, so it is its own remainder.
  have hmod : (w.toNat : ℤ) % 2 ^ 256 = w.toNat := Int.emod_eq_of_lt (by omega) hlt
  constructor
  · intro h
    have heq : (w.toNat : ℤ) = n % 2 ^ 256 := hmod.symm.trans h
    rw [← toNat_wrap] at heq
    exact ext_toNat (by exact_mod_cast heq)
  · rintro rfl
    show ((wrap n).toNat : ℤ) % 2 ^ 256 = n % 2 ^ 256
    rw [hmod, toNat_wrap]

/-- The two readings of a word are congruent. -/
theorem toNat_modEq_toInt (w : Word) : (w.toNat : ℤ) ≡ w.toInt [ZMOD 2 ^ 256] :=
  represents_iff_eq_wrap.2 (wrap_toInt w).symm

/-- Integers that are congruent are those of the same words. -/
theorem represents_congr {m n : ℤ} (h : m ≡ n [ZMOD 2 ^ 256]) (w : Word) :
    w.Represents m ↔ w = wrap n :=
  ⟨fun hw => represents_iff_eq_wrap.1 (hw.trans h),
    fun hw => (represents_iff_eq_wrap.2 hw).trans h.symm⟩

end Word

/-! ### Quotients -/

/-- How far a quotient that is rounded up is off, for either sign of the divisor. -/
theorem ceilDiv_spec (a : ℤ) {b : ℤ} (hb : b ≠ 0) :
    (0 < b ∧ 0 ≤ ceilDiv a b * b - a ∧ ceilDiv a b * b - a < b)
      ∨ (b < 0 ∧ 0 ≤ a - ceilDiv a b * b ∧ a - ceilDiv a b * b < -b) := by
  have hdiv : b * (-a).fdiv b + (-a).fmod b = -a := Int.mul_fdiv_add_fmod (-a) b
  -- The quotient is that of the opposite dividend rounded down, with the sign turned round.
  have hq : ceilDiv a b * b = -(b * (-a).fdiv b) := by
    rw [ceilDiv]
    ring
  rcases lt_or_gt_of_ne hb with hneg | hpos
  · -- Both signs of the division turned round, the remainder is turned round.
    have hflip : (- -a).fmod (-b) = -((-a).fmod b) := Int.neg_fmod_neg ..
    have hlow := Int.fmod_nonneg_of_pos (- -a) (b := -b) (by omega)
    have hhigh := Int.fmod_lt_of_pos (- -a) (b := -b) (by omega)
    exact Or.inr ⟨hneg, by omega, by omega⟩
  · have hlow := Int.fmod_nonneg_of_pos (-a) hpos
    have hhigh := Int.fmod_lt_of_pos (-a) hpos
    exact Or.inl ⟨hpos, by omega, by omega⟩

/-- The quotient is the least integer that is not below the exact one. -/
theorem ceilDiv_eq_ceil (a : ℤ) {b : ℤ} (hb : b ≠ 0) : ceilDiv a b = ⌈(a : ℚ) / b⌉ := by
  symm
  rw [Int.ceil_eq_iff]
  rcases ceilDiv_spec a hb with ⟨hpos, hlow, hhigh⟩ | ⟨hneg, hlow, hhigh⟩
  · have hposQ : (0 : ℚ) < b := by exact_mod_cast hpos
    have hlowQ : (0 : ℚ) ≤ ceilDiv a b * b - a := by exact_mod_cast hlow
    have hhighQ : (ceilDiv a b * b - a : ℚ) < b := by exact_mod_cast hhigh
    constructor
    · rw [lt_div_iff₀ hposQ]
      linarith
    · rw [div_le_iff₀ hposQ]
      linarith
  · have hnegQ : (b : ℚ) < 0 := by exact_mod_cast hneg
    have hlowQ : (0 : ℚ) ≤ a - ceilDiv a b * b := by exact_mod_cast hlow
    have hhighQ : (a - ceilDiv a b * b : ℚ) < -b := by exact_mod_cast hhigh
    constructor
    · rw [lt_div_iff_of_neg hnegQ]
      linarith
    · rw [div_le_iff_of_neg hnegQ]
      linarith

/-- The quotient of two signed readings is a signed reading, unless it is that of the least one by
minus one. -/
theorem ceilDiv_mem {bound a b : ℤ} (hbound : 2 ≤ bound) (hb : b ≠ 0) (hlow : -bound ≤ a)
    (hhigh : a < bound) (hmin : ¬ (a = -bound ∧ b = -1)) :
    -bound ≤ ceilDiv a b ∧ ceilDiv a b < bound := by
  rcases ceilDiv_spec a hb with ⟨hpos, hq, hq'⟩ | ⟨hneg, hq, hq'⟩
  · constructor
    · by_contra hlt
      nlinarith
    · by_contra hge
      -- With a divisor of one or more a quotient is not larger than the dividend.
      have hprod : 0 ≤ (ceilDiv a b - 1) * (b - 1) := mul_nonneg (by omega) (by omega)
      nlinarith
  · constructor
    · by_contra hlt
      nlinarith
    · by_contra hge
      -- Such a quotient is out of reach for a divisor of magnitude two.
      have hminus : b = -1 := by
        by_contra hne
        have hprod : 0 ≤ (ceilDiv a b - 1) * (-b - 2) := mul_nonneg (by omega) (by omega)
        nlinarith
      subst hminus
      exact hmin ⟨by omega, rfl⟩

/-! ### Remainders -/

/-- The remainder of a division: less in magnitude than the divisor, and zero or of the sign of the
dividend. -/
def IsRemainder (a b m : ℤ) : Prop :=
  (∃ q, a = q * b + m) ∧ |m| < |b| ∧ (m = 0 ∨ m.sign = a.sign)

/-- The truncated remainder, which the machine computes, is a remainder in this sense. -/
theorem isRemainder_tmod (a : ℤ) {b : ℤ} (hb : b ≠ 0) : IsRemainder a b (a.tmod b) := by
  refine ⟨⟨a.tdiv b, ?_⟩, ?_, ?_⟩
  · rw [Int.tmod_def]
    ring
  · rw [Int.abs_eq_natAbs, Int.abs_eq_natAbs, Int.natAbs_tmod]
    have hpos : 0 < b.natAbs := Int.natAbs_pos.2 hb
    exact_mod_cast Nat.mod_lt _ hpos
  · rw [← Int.sign_eq_zero_iff_zero, Int.sign_tmod]
    split
    · exact Or.inl rfl
    · exact Or.inr rfl

/-- Two remainders of one division are equal: they differ by a multiple of the divisor and are on
the same side of zero. -/
theorem IsRemainder.unique {a b m n : ℤ} (hm : IsRemainder a b m) (hn : IsRemainder a b n) :
    m = n := by
  obtain ⟨⟨p, hp⟩, hmlt, hmsign⟩ := hm
  obtain ⟨⟨q, hq⟩, hnlt, hnsign⟩ := hn
  have hdvd : b ∣ m - n := ⟨q - p, by linarith⟩
  -- Both have the sign of the dividend, so they are closer to each other than the divisor is large.
  have hclose : |m - n| < |b| := by
    rcases lt_trichotomy a 0 with ha | rfl | ha
    · rw [Int.sign_eq_neg_one_of_neg ha, Int.sign_eq_neg_one_iff_neg] at hmsign hnsign
      have hm0 : m ≤ 0 := by omega
      have hn0 : n ≤ 0 := by omega
      rw [abs_of_nonpos hm0] at hmlt
      rw [abs_of_nonpos hn0] at hnlt
      rw [abs_lt]
      constructor <;> linarith
    · have hm0 : m = 0 := by simpa using hmsign
      have hn0 : n = 0 := by simpa using hnsign
      subst hm0 hn0
      simpa using hmlt
    · rw [Int.sign_eq_one_of_pos ha, Int.sign_eq_one_iff_pos] at hmsign hnsign
      have hm0 : 0 ≤ m := by omega
      have hn0 : 0 ≤ n := by omega
      rw [abs_of_nonneg hm0] at hmlt
      rw [abs_of_nonneg hn0] at hnlt
      rw [abs_lt]
      constructor <;> linarith
  have hzero : m - n = 0 := Int.eq_zero_of_abs_lt_dvd ((abs_dvd b _).2 hdvd) hclose
  linarith

/-- The truncated remainder is the only remainder. -/
theorem isRemainder_iff_eq_tmod {a b m : ℤ} (hb : b ≠ 0) : IsRemainder a b m ↔ a.tmod b = m := by
  constructor
  · intro h
    exact (isRemainder_tmod a hb).unique h
  · rintro rfl
    exact isRemainder_tmod a hb

/-- The remainder of two signed readings is a signed reading. -/
theorem tmod_mem {bound a : ℤ} (b : ℤ) (hlow : -bound ≤ a) (hhigh : a < bound) :
    -bound ≤ a.tmod b ∧ a.tmod b < bound := by
  have hle : (a.tmod b).natAbs ≤ a.natAbs := by
    rw [Int.natAbs_tmod]
    exact Nat.mod_le _ _
  rcases lt_or_ge a 0 with ha | ha
  · have hsign : 0 ≤ (-a).tmod b := Int.tmod_nonneg _ (by omega)
    rw [Int.neg_tmod] at hsign
    omega
  · have hsign : 0 ≤ a.tmod b := Int.tmod_nonneg _ ha
    omega

/-! ### The instructions of operators -/

namespace Operator

/-- Wherever it stands, and whatever else there is, the instruction of the operator takes `r` and the
word `l` below it from the stack and puts `w` there; the stores and the rest of the frame stay. The
stack has room for `w` if it was within its limit before. -/
def Pushes (op : Operator) (l r w : Word) : Prop :=
  ∀ (ω : Type) [Stores ω] (limits : Limits) (program : Word) (length pc : Nat) (f : Frame)
    (rest : List Word) (s : ω), f.stack = r :: l :: rest →
    (Instruction.binary op).execute limits program length pc f s
        = (s, { f with stack := rest }.push limits w)
      ∧ (f.stack.length ≤ limits.stack →
        { f with stack := rest }.push limits w = .ok { f with stack := w :: rest })

/-- Wherever it stands, and whatever else there is, the instruction of the operator faults for a
division by zero, with the stores as they were. -/
def DividesByZero (op : Operator) (l r : Word) : Prop :=
  ∀ (ω : Type) [Stores ω] (limits : Limits) (program : Word) (length pc : Nat) (f : Frame)
    (rest : List Word) (s : ω), f.stack = r :: l :: rest →
    (Instruction.binary op).execute limits program length pc f s = (s, .error (.divisionByZero pc))

variable {op : Operator} {l r w : Word}

/-- An operator that has a result pushes it, where two words were before. -/
theorem pushes_of_apply (h : op.apply l r = some w) : op.Pushes l r w := by
  intro ω _ limits program length pc f rest s hstack
  constructor
  · simp only [Instruction.execute, Instruction.execLocal, hstack, h]
  · intro hroom
    have hlt : rest.length < limits.stack := by
      rw [hstack, List.length_cons, List.length_cons] at hroom
      omega
    exact if_pos hlt

/-- An operator that has no result faults. -/
theorem dividesByZero_of_apply (h : op.apply l r = none) : op.DividesByZero l r := by
  intro ω _ limits program length pc f rest s hstack
  simp only [Instruction.execute, Instruction.execLocal, hstack, h]

/-- An instruction that pushes a word does not fault. -/
theorem Pushes.not_dividesByZero (h : op.Pushes l r w) : ¬ op.DividesByZero l r := by
  intro hzero
  -- Any state will do to tell the two apart.
  let f : Frame := { stack := [r, l] }
  have hpush := (h MemoryStores {} .zero 0 0 f [] {} rfl).1
  rw [hzero MemoryStores {} .zero 0 0 f [] {} rfl] at hpush
  cases hpush

end Operator

/-- One for what holds, and zero for what does not. -/
def Word.truth (p : Prop) [Decidable p] : Word := if p then .ofNat 1 else .ofNat 0

theorem Word.ofBool_eq_truth {b : Bool} {p : Prop} [Decidable p] (h : b = true ↔ p) :
    Word.ofBool b = Word.truth p := by
  unfold Word.truth
  by_cases hp : p
  · rw [if_pos hp, h.2 hp]
    rfl
  · rw [if_neg hp, Bool.eq_false_iff.2 (mt h.1 hp)]
    rfl

/-- What the operators compute from two words. Each of sum, difference and product is the only word
congruent to the exact one, with the operands read with or without a sign. -/
structure IntegerArithmetic (l r : Word) : Prop where
  add : ∃ w, Operator.add.Pushes l r w
    ∧ ∀ v : Word, (v.Represents (l.toInt + r.toInt) ↔ v = w)
      ∧ (v.Represents (l.toNat + r.toNat) ↔ v = w)
  subtract : ∃ w, Operator.subtract.Pushes l r w
    ∧ ∀ v : Word, (v.Represents (l.toInt - r.toInt) ↔ v = w)
      ∧ (v.Represents (l.toNat - r.toNat) ↔ v = w)
  multiply : ∃ w, Operator.multiply.Pushes l r w
    ∧ ∀ v : Word, (v.Represents (l.toInt * r.toInt) ↔ v = w)
      ∧ (v.Represents (l.toNat * r.toNat) ↔ v = w)
  divideByZero : Operator.divide.DividesByZero l r ↔ r = .zero
  moduloByZero : Operator.modulo.DividesByZero l r ↔ r = .zero
  divide : r ≠ .zero → ∃ w, Operator.divide.Pushes l r w
    ∧ w.toInt = if l.toInt = -2 ^ 255 ∧ r.toInt = -1 then -2 ^ 255
      else ⌈(l.toInt : ℚ) / r.toInt⌉
  modulo : r ≠ .zero → ∃ w, Operator.modulo.Pushes l r w
    ∧ ∀ m, IsRemainder l.toInt r.toInt m ↔ w.toInt = m
  equal : Operator.equal.Pushes l r (.truth (l = r))
  notEqual : Operator.notEqual.Pushes l r (.truth (l ≠ r))
  less : Operator.less.Pushes l r (.truth (l.toInt < r.toInt))
  greater : Operator.greater.Pushes l r (.truth (l.toInt > r.toInt))
  lessEqual : Operator.lessEqual.Pushes l r (.truth (l.toInt ≤ r.toInt))
  greaterEqual : Operator.greaterEqual.Pushes l r (.truth (l.toInt ≥ r.toInt))
  and : Operator.and.Pushes l r (.truth (l ≠ .zero ∧ r ≠ .zero))
  or : Operator.or.Pushes l r (.truth (l ≠ .zero ∨ r ≠ .zero))

section Operators

variable (l r : Word)

/-- An operator that wraps an exact result pushes the word congruent to it, and to any integer
congruent to it. -/
theorem pushes_congruent {op : Operator} {m n : ℤ} (h : op.apply l r = some (.wrap n))
    (hmod : m ≡ n [ZMOD 2 ^ 256]) :
    ∃ w, op.Pushes l r w ∧ ∀ v : Word, (v.Represents n ↔ v = w) ∧ (v.Represents m ↔ v = w) :=
  ⟨.wrap n, Operator.pushes_of_apply h,
    fun v => ⟨Word.represents_iff_eq_wrap, Word.represents_congr hmod v⟩⟩

variable {l r}

/-- A division pushes the quotient rounded up. One pair of words has a quotient that is too large by
one, and it wraps. -/
theorem pushes_quotient (hr : r ≠ .zero) :
    ∃ w, Operator.divide.Pushes l r w
      ∧ w.toInt = if l.toInt = -2 ^ 255 ∧ r.toInt = -1 then -2 ^ 255
        else ⌈(l.toInt : ℚ) / r.toInt⌉ := by
  have hzero := Word.toInt_ne_zero hr
  have happly : Operator.divide.apply l r = some (.wrap (ceilDiv l.toInt r.toInt)) :=
    if_pos ((Word.isTrue_iff r).2 hr)
  refine ⟨_, Operator.pushes_of_apply happly, ?_⟩
  -- The exception can be evaluated, as both words are known in it.
  split
  · next hmin =>
    rw [hmin.1, hmin.2]
    decide
  · next hmin =>
    obtain ⟨hlow, hhigh⟩ := ceilDiv_mem (by decide) hzero l.le_toInt l.toInt_lt hmin
    rw [Word.toInt_wrap hlow hhigh, ceilDiv_eq_ceil _ hzero]

/-- A remainder is never too large to be pushed. -/
theorem pushes_remainder (hr : r ≠ .zero) :
    ∃ w, Operator.modulo.Pushes l r w ∧ ∀ m, IsRemainder l.toInt r.toInt m ↔ w.toInt = m := by
  have happly : Operator.modulo.apply l r = some (.wrap (l.toInt.tmod r.toInt)) :=
    if_pos ((Word.isTrue_iff r).2 hr)
  obtain ⟨hlow, hhigh⟩ := tmod_mem r.toInt l.le_toInt l.toInt_lt
  refine ⟨_, Operator.pushes_of_apply happly, fun m => ?_⟩
  rw [Word.toInt_wrap hlow hhigh]
  exact isRemainder_iff_eq_tmod (Word.toInt_ne_zero hr)

/-- A division faults exactly if the divisor is zero, as it pushes a word otherwise. -/
theorem dividesByZero_iff {op : Operator} (hfault : r = .zero → op.apply l r = none)
    (hpush : r ≠ .zero → ∃ w, op.Pushes l r w) : op.DividesByZero l r ↔ r = .zero := by
  constructor
  · intro h
    by_contra hr
    obtain ⟨w, hw⟩ := hpush hr
    exact hw.not_dividesByZero h
  · intro hr
    exact Operator.dividesByZero_of_apply (hfault hr)

/-- A comparison pushes one or zero. -/
theorem pushes_truth {op : Operator} {b : Bool} {p : Prop} [Decidable p]
    (h : op.apply l r = some (.ofBool b)) (hp : b = true ↔ p) : op.Pushes l r (.truth p) := by
  rw [Word.ofBool_eq_truth hp] at h
  exact Operator.pushes_of_apply h

end Operators

/-- **Operators are integer arithmetic.** For any two words, and in any state of the machine in which
they are on top of the stack. -/
theorem operators_are_integer_arithmetic (l r : Word) : IntegerArithmetic l r where
  add := pushes_congruent l r rfl (l.toNat_modEq_toInt.add r.toNat_modEq_toInt)
  subtract := pushes_congruent l r rfl (l.toNat_modEq_toInt.sub r.toNat_modEq_toInt)
  multiply := pushes_congruent l r rfl (l.toNat_modEq_toInt.mul r.toNat_modEq_toInt)
  divideByZero := by
    apply dividesByZero_iff
    · rintro rfl
      rfl
    · intro hr
      obtain ⟨w, hw, -⟩ := pushes_quotient (l := l) hr
      exact ⟨w, hw⟩
  moduloByZero := by
    apply dividesByZero_iff
    · rintro rfl
      rfl
    · intro hr
      obtain ⟨w, hw, -⟩ := pushes_remainder (l := l) hr
      exact ⟨w, hw⟩
  divide := pushes_quotient
  modulo := pushes_remainder
  equal := pushes_truth rfl (beq_iff_eq.trans Word.toInt_inj)
  notEqual := pushes_truth rfl (bne_iff_ne.trans (not_congr Word.toInt_inj))
  less := pushes_truth rfl decide_eq_true_iff
  greater := pushes_truth rfl decide_eq_true_iff
  lessEqual := pushes_truth rfl decide_eq_true_iff
  greaterEqual := pushes_truth rfl decide_eq_true_iff
  and := by
    refine pushes_truth rfl ?_
    rw [Bool.and_eq_true, Word.isTrue_iff, Word.isTrue_iff]
  or := by
    refine pushes_truth rfl ?_
    rw [Bool.or_eq_true, Word.isTrue_iff, Word.isTrue_iff]

end Covenant
