import Covenant.Proofs.Word.Encoders
import Covenant.Proofs.Word.Texts
import Mathlib.Data.List.TakeWhile

/-!
# How words are shown

A word is shown in the form it was most likely written in: as the literal it is the word of, else as
the printable text it is the word of, else as its digits. The forms are told apart by their
characters. A literal has none but digits and a minus sign, a text in quotes starts with a quote, and
the digits of a word have an `x` before them. Within a form the text can be read back, so a word is
known from the way it is shown.

* `Word.toText?_eq_some_iff` says which texts a word holds.
* `Word.Shown` is the rule, in terms of the encoders.
* `Word.describe_tells_words_apart` says that words are shown by it, and that no two words are shown
  alike.
-/

namespace Covenant

/-! ### Decimals -/

/-- A number in decimal has only digits. -/
theorem isDigit_of_mem_repr {n : ℕ} {c : Char} (h : c ∈ n.repr.toList) : c.isDigit = true := by
  rw [Nat.repr_eq_ofList_toDigits, String.toList_ofList] at h
  exact Nat.isDigit_of_mem_toDigits (by decide) (by decide) h

/-- A number is known from its decimal. -/
theorem eq_of_repr_eq {m n : ℕ} (h : m.repr = n.repr) : m = n := by
  rw [Nat.repr_eq_ofList_toDigits, Nat.repr_eq_ofList_toDigits, String.ofList_inj] at h
  calc
    m = Nat.ofDigitChars 10 (Nat.toDigits 10 m) 0 := Nat.ofDigitChars_ten_toDigits.symm
    _ = Nat.ofDigitChars 10 (Nat.toDigits 10 n) 0 := by rw [h]
    _ = n := Nat.ofDigitChars_ten_toDigits

theorem toString_negSucc (n : ℕ) : toString (Int.negSucc n) = "-" ++ (n + 1).repr := rfl

/-- The characters of an integer in decimal. -/
theorem isDigit_or_minus_of_mem {n : ℤ} {c : Char} (h : c ∈ (toString n).toList) :
    c.isDigit = true ∨ c = '-' := by
  cases n with
  | ofNat n => exact Or.inl (isDigit_of_mem_repr h)
  | negSucc n =>
    rw [toString_negSucc, String.toList_append] at h
    rcases List.mem_append.1 h with hsign | hdigit
    · exact Or.inr (List.mem_singleton.1 hsign)
    · exact Or.inl (isDigit_of_mem_repr hdigit)

/-- An integer is known from its decimal. -/
theorem eq_of_toString_eq {m n : ℤ} (h : toString m = toString n) : m = n := by
  -- No natural number has a sign.
  have hsign : ∀ {a b : ℕ}, a.repr ≠ "-" ++ (b + 1).repr := by
    intro a b heq
    have hmem : '-' ∈ a.repr.toList := by simp [heq]
    exact absurd (isDigit_of_mem_repr hmem) (by decide)
  cases m with
  | ofNat a =>
    cases n with
    | ofNat b => rw [eq_of_repr_eq (m := a) (n := b) h]
    | negSucc b => exact absurd h hsign
  | negSucc a =>
    cases n with
    | ofNat b => exact absurd h.symm hsign
    | negSucc b =>
      rw [toString_negSucc, toString_negSucc, String.append_right_inj] at h
      rw [Nat.succ.inj (eq_of_repr_eq h)]

namespace Word

/-! ### The text in a word -/

/-- The bytes of a word are those that are left without the zero bytes at the end, and zeros. -/
theorem toBytes_eq_stripped_append (w : Word) :
    ∃ fill, w.toBytes
      = (w.toBytes.reverse.dropWhile (· == 0)).reverse ++ List.replicate fill 0 := by
  have hzeros : w.toBytes.reverse.takeWhile (· == 0)
      = List.replicate (w.toBytes.reverse.takeWhile (· == 0)).length 0 := by
    refine List.eq_replicate_of_mem fun b hb => ?_
    exact beq_iff_eq.1 (List.all_eq_true.1 List.all_takeWhile b hb)
  refine ⟨(w.toBytes.reverse.takeWhile (· == 0)).length, ?_⟩
  rw [← List.reverse_replicate, ← hzeros, ← List.reverse_append, List.takeWhile_append_dropWhile,
    List.reverse_reverse]

/-- A word is that of the text it holds. -/
theorem ofText_of_toText? {w : Word} {text : String} (h : w.toText? = some text) :
    ofText text = .ok w := by
  have hbytes := Bytes.ofText_of_toText? h
  obtain ⟨fill, hw⟩ := toBytes_eq_stripped_append w
  rw [← hbytes] at hw
  have hlength := congrArg List.length hw
  rw [length_toBytes, List.length_append, List.length_replicate] at hlength
  -- The zeros that were taken off are those that fill the word up.
  have hfill : size - (Bytes.ofText text).length = fill := by omega
  have hle : (Bytes.ofText text).length ≤ size := by omega
  unfold ofText
  dsimp only
  rw [if_pos hle, hfill, ← hw, toNat_toBytes, ofNat_toNat]

/-- A text without zero bytes is held by its word. -/
theorem toText?_of_ofText {w : Word} {text : String} (h : ofText text = .ok w)
    (hzero : ∀ b ∈ Bytes.ofText text, b ≠ 0) : w.toText? = some text := by
  have hsame : (Bytes.ofText text).rdropWhile (· == 0) = Bytes.ofText text :=
    List.rdropWhile_eq_self_iff.2 fun hne => by simpa using hzero _ (List.getLast_mem hne)
  rw [toText?_eq_rdropWhile h, hsame, Bytes.toText?_ofText]

/-- A text that can be shown between quotes. -/
def IsPrintable (text : String) : Prop := text ≠ "" ∧ ∀ c ∈ text.toList, isGraphic c = true

/-- A word holds a printable text if it is the word of the text. -/
theorem toText?_eq_some_iff {w : Word} {text : String} (h : IsPrintable text) :
    w.toText? = some text ↔ ofText text = .ok w := by
  refine ⟨ofText_of_toText?, fun hw => toText?_of_ofText hw ?_⟩
  intro b hb
  -- A graphic character is a single byte other than zero.
  have hascii : ∀ c ∈ text.toList, 0 < c.toNat ∧ c.toNat < 128 := by
    intro c hc
    have hgraphic := h.2 c hc
    simp only [isGraphic, Bool.and_eq_true, decide_eq_true_eq] at hgraphic
    omega
  rw [← String.ofList_toList (s := text)] at hb
  exact Bytes.ne_zero_of_mem_ofText hascii hb

/-! ### The forms -/

/-- A word is that of at most one literal, its signed reading. -/
theorem ofSafeInt_eq_ok_iff_toInt {n : ℤ} {w : Word} :
    ofSafeInt n = .ok w ↔ n = w.toInt ∧ w.toInt.natAbs ≤ maxSafeInt := by
  have hmax : maxSafeInt = 2 ^ 53 - 1 := by decide
  rw [ofSafeInt_eq_ok_iff, hmax]
  constructor
  · rintro ⟨⟨hlow, hhigh⟩, rfl⟩
    rw [toInt_wrap (by omega) (by omega)]
    exact ⟨rfl, by omega⟩
  · rintro ⟨rfl, hsafe⟩
    exact ⟨by omega, (wrap_toInt w).symm⟩

/-- The texts that a word is shown as. -/
inductive Shown (w : Word) : String → Prop where
  /-- The word of a literal is shown as the literal. -/
  | literal {n : ℤ} (h : ofSafeInt n = .ok w) : Shown w (toString n)
  /-- Any other word of a printable text is shown as the text, in quotes. -/
  | quoted {text : String} (hliteral : ∀ n, ofSafeInt n ≠ .ok w) (hprintable : IsPrintable text)
      (h : ofText text = .ok w) : Shown w ("\"" ++ text ++ "\"")
  /-- A word of neither is shown as its digits. -/
  | digits (hliteral : ∀ n, ofSafeInt n ≠ .ok w)
      (htext : ∀ text, IsPrintable text → ofText text ≠ .ok w) : Shown w ("0x" ++ w.hex)

/-- What a word is shown as is one of the forms, and the right one. -/
theorem shown_describe (w : Word) : Shown w w.describe := by
  unfold describe
  split
  · next hsafe => exact .literal (ofSafeInt_eq_ok_iff_toInt.2 ⟨rfl, hsafe⟩)
  · next hunsafe =>
    have hliteral : ∀ n, ofSafeInt n ≠ .ok w :=
      fun n hn => hunsafe (ofSafeInt_eq_ok_iff_toInt.1 hn).2
    split
    · next text htext =>
      split
      · next hprintable =>
        rw [Bool.and_eq_true, List.all_eq_true] at hprintable
        refine .quoted hliteral ⟨?_, hprintable.2⟩ (ofText_of_toText? htext)
        simpa using hprintable.1
      · next hprintable =>
        refine .digits hliteral fun other hother hw => hprintable ?_
        rw [(toText?_eq_some_iff hother).2 hw] at htext
        obtain rfl := Option.some.inj htext
        simpa [IsPrintable] using hother
    · next hnone =>
      refine .digits hliteral fun other hother hw => ?_
      rw [(toText?_eq_some_iff hother).2 hw] at hnone
      cases hnone

/-- Words that are shown alike are equal. -/
theorem Shown.inj {v w : Word} {s t : String} (hv : Shown v s) (hw : Shown w t) (h : s = t) :
    v = w := by
  -- Neither a quote nor an `x` stands in a decimal, and the other two start differently.
  have hquote : ∀ {n : ℤ} {text : String}, toString n ≠ "\"" ++ text ++ "\"" := by
    intro n text heq
    have hmem : '"' ∈ (toString n).toList := by simp [heq]
    exact absurd (isDigit_or_minus_of_mem hmem) (by decide)
  have hx : ∀ {n : ℤ} {text : String}, toString n ≠ "0x" ++ text := by
    intro n text heq
    have hmem : 'x' ∈ (toString n).toList := by simp [heq]
    exact absurd (isDigit_or_minus_of_mem hmem) (by decide)
  have hstart : ∀ {text digits : String}, "\"" ++ text ++ "\"" ≠ "0x" ++ digits := by
    intro text digits heq
    have hlists := congrArg String.toList heq
    simp at hlists
  cases hv with
  | literal hn =>
    cases hw with
    | literal hm =>
      obtain rfl := eq_of_toString_eq h
      exact Except.ok.inj (hn.symm.trans hm)
    | quoted => exact absurd h hquote
    | digits => exact absurd h hx
  | quoted _ _ htext =>
    cases hw with
    | literal => exact absurd h.symm hquote
    | quoted _ _ htext' =>
      obtain rfl := (String.append_right_inj _).1 ((String.append_left_inj _).1 h)
      exact Except.ok.inj (htext.symm.trans htext')
    | digits => exact absurd h hstart
  | digits =>
    cases hw with
    | literal => exact absurd h.symm hx
    | quoted => exact absurd h.symm hstart
    | digits => exact hex_injective ((String.append_right_inj _).1 h)

/-- A word is shown in one way only. -/
theorem Shown.unique {w : Word} {s t : String} (hs : Shown w s) (ht : Shown w t) : s = t := by
  cases hs with
  | literal hn =>
    cases ht with
    | literal hm =>
      rw [(ofSafeInt_eq_ok_iff_toInt.1 hn).1, (ofSafeInt_eq_ok_iff_toInt.1 hm).1]
    | quoted hliteral => exact absurd hn (hliteral _)
    | digits hliteral => exact absurd hn (hliteral _)
  | quoted hliteral hprintable htext =>
    cases ht with
    | literal hm => exact absurd hm (hliteral _)
    | quoted _ hprintable' htext' =>
      have hsome := (toText?_eq_some_iff hprintable).2 htext
      rw [(toText?_eq_some_iff hprintable').2 htext'] at hsome
      rw [Option.some.inj hsome]
    | digits _ hnone => exact absurd htext (hnone _ hprintable)
  | digits hliteral hnone =>
    cases ht with
    | literal hm => exact absurd hm (hliteral _)
    | quoted _ hprintable htext => exact absurd htext (hnone _ hprintable)
    | digits => rfl

/-- **Printed results are unambiguous.** A word is shown as the literal it is the word of, else as the
printable text it is the word of, else as its digits; and no two words are shown alike, be it in the
same form or in different ones. -/
theorem describe_tells_words_apart :
    (∀ (w : Word) (t : String), Shown w t ↔ t = w.describe)
      ∧ ∀ v w : Word, v.describe = w.describe ↔ v = w := by
  refine ⟨fun w t => ⟨fun h => h.unique (shown_describe w), ?_⟩, fun v w => ⟨?_, ?_⟩⟩
  · rintro rfl
    exact shown_describe w
  · exact (shown_describe v).inj (shown_describe w)
  · rintro rfl
    rfl

end Word

end Covenant
