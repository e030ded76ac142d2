import Covenant.Proofs.Contract.EndOfInput
import Covenant.Proofs.Program.Json
import Covenant.Token.Scan

/-!
# The reader and the grammar

Reading gives a contract exactly where the grammar writes it in the tokens before the end of the
input, within the nesting limit. The grammar is the one with `Grammar.Apart`: without it,
`x = 1 -5 = 2` would also be the two statements `x = 1` and `-5 = 2`, which a reader does not find
since an expression takes every operator that follows it.
-/

namespace Covenant

/-- The number of a string of digits is their decimal value. -/
theorem Text.readInt?_of_digits {digits : String} (hne : digits.toList ≠ [])
    (hdigits : ∀ ch ∈ digits.toList, ch.isDigit = true) :
    readInt? digits = some (Nat.ofDigitChars 10 digits.toList 0 : Int) := by
  have hother : ∀ ch, ch.isDigit = false → ch ∉ digits.toList := by
    intro ch hch hmem
    exact absurd (hdigits ch hmem) (Bool.eq_false_iff.1 hch)
  have hvalue := digitsValue_eq_ofDigitChars (hother '_' (by decide))
  have hplain : readDigits? digits.toList = some (digitsValue digits.toList) := by
    cases hchars : digits.toList with
    | nil => exact absurd hchars hne
    | cons first rest =>
      rw [hchars, List.forall_mem_cons] at hdigits
      have hrest : rest.all (fun d => d.isDigit || d == '_') = true :=
        List.all_eq_true.2 fun d hd => by rw [hdigits.2 d hd, Bool.true_or]
      rw [readDigits?, hdigits.1, hrest, Bool.and_self, if_pos rfl]
  unfold readInt?
  -- No sign is a digit, so the first two forms are out.
  split
  · next hsign => exact absurd (hsign ▸ List.mem_cons_self) (hother '-' (by decide))
  · next hsign => exact absurd (hsign ▸ List.mem_cons_self) (hother '+' (by decide))
  · rw [hplain, hvalue]
    rfl

namespace Contract

/-- **Reading accepts what the grammar writes and nothing else.** A list of tokens is read as a
contract if the grammar writes it in the tokens before the end of the input, with no more nesting
than the limit. What stands after the end of the input does not matter, also for the error, and a
number of plain digits is read as their decimal value. -/
theorem parse_eq_ok_iff_grammar (tokens : List Located) (limit : Nat) :
    (∀ c, Contract.parse tokens limit = .ok c
        ↔ ∃ n ≤ limit, Grammar.Contract Grammar.Apart n (Token.beforeEnd tokens) c)
      ∧ (∀ before item after, tokens = before ++ item :: after → item.token = .eof →
        Contract.parse tokens limit = Contract.parse (before ++ [item]) limit)
      ∧ ∀ digits : String, digits.toList ≠ [] → (∀ ch ∈ digits.toList, ch.isDigit = true) →
        Text.readInt? digits = some (Nat.ofDigitChars 10 digits.toList 0 : Int) := by
  refine ⟨fun c => ⟨exists_grammar_of_parse, fun ⟨n, hn, h⟩ => parse_of_grammar h hn⟩, ?_,
    fun digits => Text.readInt?_of_digits⟩
  rintro before item after rfl hend
  rw [← parse_throughEnd, Token.throughEnd_append hend, parse_throughEnd]

/-- A function whose statements are `x = 1` and `-5 = 2`, with only a space between them. -/
def unmarked : Contract :=
  ⟨"C", [.function ⟨"f", [], none,
    [.assign ⟨⟨[.ident "x"], []⟩, ⟨[.literal (.int 1)], []⟩⟩,
      .assign ⟨⟨[.literal (.int (-5))], []⟩, ⟨[.literal (.int 2)], []⟩⟩]⟩]⟩

/-- The tokens of `unmarked`. -/
def unmarkedTokens : List Located :=
  (Token.scan ("contract C " ++ Text.braced ("func f() "
    ++ Text.braced "x = 1 -5 = 2"))).toOption.getD []

/-- With nothing asked of what follows a statement, the grammar writes a contract in tokens that are
no contract to the reader: `1 -5` is one expression, and the second `=` is out of place. -/
theorem minus_goes_on_with_the_expression :
    (∃ n ≤ defaultDepth,
        Grammar.Contract Grammar.anywhere n (Token.beforeEnd unmarkedTokens) unmarked)
      ∧ ∀ c, Contract.parse unmarkedTokens ≠ .ok c := by
  have hname {name : String} (h : Keyword.isReserved name = false) : Grammar.Name name :=
    Keyword.isReserved_eq_false_iff.1 h
  have hx : Grammar.Assignment [.ident "x", .assign, .number "1"]
      ⟨⟨[.ident "x"], []⟩, ⟨[.literal (.int 1)], []⟩⟩ :=
    .mk (.mk (.ident (hname (by decide))) .nil) (.mk (.literal (.number (by decide +kernel))) .nil)
  have hfive : Grammar.Assignment [.operator .subtract, .number "5", .assign, .number "2"]
      ⟨⟨[.literal (.int (-5))], []⟩, ⟨[.literal (.int 2)], []⟩⟩ :=
    .mk (.mk (.literal (.negative (by decide +kernel))) .nil)
      (.mk (.literal (.number (by decide +kernel))) .nil)
  have hbody : Grammar.Statements Grammar.anywhere 0 [.ident "x", .assign, .number "1",
      .operator .subtract, .number "5", .assign, .number "2"] _ :=
    .cons (.assign hx) trivial (.cons (.assign hfive) trivial .nil)
  have htokens : Token.beforeEnd unmarkedTokens = [Keyword.contract.token, .ident "C",
      .opens .brace, Keyword.func.token, .ident "f", .opens .paren, .closes .paren, .opens .brace,
      .ident "x", .assign, .number "1", .operator .subtract, .number "5", .assign, .number "2",
      .closes .brace, .closes .brace] := by
    decide +kernel
  refine ⟨⟨1, by decide, ?_⟩, ?_⟩
  · rw [htokens]
    exact .mk (hname (by decide))
      (.cons (.function (hname (by decide)) .none .none (.mk hbody)) .nil)
  · intro c hc
    have hnone : (Contract.parse unmarkedTokens).toOption.isNone = true := by decide +kernel
    rw [hc] at hnone
    cases hnone

end Contract

end Covenant
