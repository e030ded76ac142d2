import Covenant.Proofs.Word
import Mathlib.Data.List.DropRight

/-!
# Texts in words

A word has room for 32 bytes of text and fills up with zero bytes. Reading the text back drops the
zero bytes at the end, and with them the NUL characters that the text itself ended in. Nothing else is
lost, since no other character has a zero byte in its encoding.

* `Bytes.ne_zero_of_mem_utf8EncodeChar` is about characters, `Bytes.rdropWhile_ofText` about texts.
* `Word.toText?_eq_rdropWhile` and `Word.toText?_ofText` are about words.
-/

namespace Covenant

/-- A text without the NUL characters at its end. -/
def Text.withoutNul (text : String) : String :=
  String.ofList (text.toList.rdropWhile (· == '\x00'))

namespace Bytes

/-- Only the NUL character has a zero byte. -/
theorem ne_zero_of_mem_utf8EncodeChar {c : Char} (h : c ≠ '\x00') {b : UInt8}
    (hb : b ∈ String.utf8EncodeChar c) : b ≠ 0 := by
  have hval : c.val.toNat ≠ 0 := fun hzero => h (Char.ext (UInt32.toNat_inj.1 hzero))
  have hbyte : ∀ n, n % 256 ≠ 0 → UInt8.ofNat n ≠ 0 := by
    intro n hn hzero
    have hnat := congrArg UInt8.toNat hzero
    rw [UInt8.toNat_ofNat'] at hnat
    exact hn hnat
  rw [String.utf8EncodeChar] at hb
  -- Bytes of longer encodings have their high bit set.
  split at hb
  · rw [List.mem_singleton] at hb
    rw [hb]
    exact hbyte _ (by omega)
  · split at hb
    · simp only [List.mem_cons, List.not_mem_nil, or_false] at hb
      rcases hb with rfl | rfl
      all_goals exact hbyte _ (by omega)
    · split at hb
      · simp only [List.mem_cons, List.not_mem_nil, or_false] at hb
        rcases hb with rfl | rfl | rfl
        all_goals exact hbyte _ (by omega)
      · simp only [List.mem_cons, List.not_mem_nil, or_false] at hb
        rcases hb with rfl | rfl | rfl | rfl
        all_goals exact hbyte _ (by omega)

/-- The zero bytes at the end of a text are those of the NUL characters at its end. -/
theorem rdropWhile_ofText (text : String) :
    (ofText text).rdropWhile (· == 0) = ofText (Text.withoutNul text) := by
  rw [Text.withoutNul, ofText_ofList, ← String.ofList_toList (s := text), ofText_ofList,
    String.toList_ofList]
  induction text.toList using List.reverseRecOn with
  | nil => rfl
  | append_singleton chars c ih =>
    by_cases hc : c = '\x00'
    · subst hc
      have hzero : [('\x00' : Char)].flatMap String.utf8EncodeChar = [0] := by decide
      rw [List.flatMap_append, hzero, List.rdropWhile_concat_pos _ _ _ (by decide),
        List.rdropWhile_concat_pos _ _ _ (by decide), ih]
    · obtain ⟨front, last, hencoded⟩ : ∃ front last, String.utf8EncodeChar c = front ++ [last] :=
        (List.eq_nil_or_concat' _).resolve_left String.utf8EncodeChar_ne_nil
      have hlast : last ≠ 0 := by
        refine ne_zero_of_mem_utf8EncodeChar hc ?_
        rw [hencoded]
        exact List.mem_append_right _ List.mem_cons_self
      rw [List.rdropWhile_concat_neg _ _ _ (by simpa using hc), List.flatMap_append,
        List.flatMap_singleton, hencoded, ← List.append_assoc,
        List.rdropWhile_concat_neg _ _ _ (by simpa using hlast)]

end Bytes

namespace Word

/-- The word of a text is read without the zero bytes at the end of the text. -/
theorem toText?_eq_rdropWhile {text : String} {w : Word} (h : ofText text = .ok w) :
    w.toText? = Bytes.toText? ((Bytes.ofText text).rdropWhile (· == 0)) := by
  have hfill : ∀ (bytes : Bytes) (fill : Nat),
      (bytes ++ List.replicate fill 0).rdropWhile (· == 0) = bytes.rdropWhile (· == 0) := by
    intro bytes fill
    induction fill with
    | zero => rw [List.replicate_zero, List.append_nil]
    | succ fill ih =>
      rw [List.replicate_succ', ← List.append_assoc, List.rdropWhile_concat_pos _ _ _ (by decide), ih]
  show Bytes.toText? (w.toBytes.rdropWhile (· == 0)) = _
  rw [(toBytes_of_ofText h).2, hfill]

/-- A word holds the text it was made of, without the NUL characters at its end. -/
theorem toText?_ofText {text : String} {w : Word} (h : ofText text = .ok w) :
    w.toText? = some (Text.withoutNul text) := by
  rw [toText?_eq_rdropWhile h, Bytes.rdropWhile_ofText, Bytes.toText?_ofText]

end Word

end Covenant
