import Covenant.Proofs.Json
import Covenant.Proofs.Program.Binary

/-!
# The JSON form of programs

The text of a program is written from its instructions and read as a draft, which is checked
afterwards, as the binary form is. What is read is the draft of the program that was written, so the
check gives that program back.

Three things of the form need an argument. An instruction is written with one member or two, and read
as a record of two fields. A word is written as digits, which may not be taken for digits after `0x`.
An index is the name of a member: decimal digits without a leading zero, which no escape touches.

* `Word.ofJson?_toJson`, `readIndex?_escape` and `ofJson?_toJson` read the parts back.
* `ofJsonText_toJsonText` reads a program back.
-/

namespace Covenant

namespace Text

/-! ### Decimal digits -/

/-- Without underscores between them, digits are read as they are anywhere. -/
theorem digitsValue_eq_ofDigitChars {digits : List Char} (h : '_' ∉ digits) :
    digitsValue digits = Nat.ofDigitChars 10 digits 0 := by
  -- Any number may have been read before.
  have hfold : ∀ n, digits.foldl (fun n c => if c == '_' then n else n * 10 + decimalValue c) n
      = Nat.ofDigitChars 10 digits n := by
    induction digits with
    | nil => intro n; rw [Nat.ofDigitChars_nil]; rfl
    | cons c digits ih =>
      intro n
      rw [List.mem_cons, not_or] at h
      have hc : (c == '_') = false := by simpa using Ne.symm h.1
      simp only [List.foldl_cons, hc, Bool.false_eq_true, if_false, Nat.ofDigitChars_cons]
      rw [ih h.2, Nat.mul_comm]
      rfl
  exact hfold 0

/-- A number is read back from its decimal digits. -/
theorem digitsValue_toDigits (n : Nat) : digitsValue (Nat.toDigits 10 n) = n := by
  rw [digitsValue_eq_ofDigitChars Nat.underscore_not_in_toDigits, Nat.ofDigitChars_ten_toDigits]

/-- Only zero is written with a leading zero. -/
theorem head_toDigits {n : Nat} (h : n ≠ 0) :
    ∃ c rest, Nat.toDigits 10 n = c :: rest ∧ c ≠ '0' := by
  induction n using Nat.strongRecOn with
  | ind n ih =>
    rw [Nat.toDigits_eq_if (by decide)]
    split
    · exact ⟨_, [], rfl, fun hc => h (Nat.digitChar_eq_zero.1 hc)⟩
    · next hlarge =>
      obtain ⟨c, rest, hdigits, hc⟩ := ih (n / 10) (by omega) (by omega)
      exact ⟨c, rest ++ [(n % 10).digitChar], by rw [hdigits, List.cons_append], hc⟩

end Text

namespace Json

/-! ### Names of members and fields of records -/

/-- A digit is written as itself. -/
theorem escapeChar_of_isDigit {c : Char} (h : c.isDigit = true) : escapeChar c = [c] := by
  rcases escapeChar_cases c with ⟨e, -, he⟩ | ⟨hlow, -⟩ | ⟨hc, -⟩
  · unfold letterEscape? at he
    split at he <;> cases he <;> exact absurd h (by decide)
  · have hdigit := (Char.isDigit_iff_toNat.1 h).1
    have hzero : '0'.toNat = 48 := rfl
    omega
  · exact hc

/-- A number has no escapes as the name of a member. -/
theorem escape_toString (n : Nat) : escape (toString n) = Nat.toDigits 10 n := by
  rw [escape, Nat.toString_eq_ofList_toDigits, String.toList_ofList]
  -- Only that they are digits is used of the characters from here on.
  have hdigits : ∀ c ∈ Nat.toDigits 10 n, c.isDigit = true := fun c hc =>
    Nat.isDigit_of_mem_toDigits (by decide) (by decide) hc
  generalize Nat.toDigits 10 n = digits at hdigits ⊢
  induction digits with
  | nil => rfl
  | cons c cs ih =>
    rw [List.flatMap_cons, escapeChar_of_isDigit (hdigits c List.mem_cons_self),
      ih fun d hd => hdigits d (List.mem_cons_of_mem _ hd)]
    rfl

/-- The names of members are read back from their written form. -/
theorem decodeNames?_escape (members : List (String × Json)) :
    decodeNames? (members.map fun (name, value) => (escape name, value)) = some members := by
  induction members with
  | nil => rfl
  | cons member members ih => simp only [List.map_cons, decodeNames?, unescape?_escape, ih]

/-- A record of two fields that are both given. -/
theorem fields?_both {a b : String} (h : a ≠ b) (x y : Json) :
    fields? [a, b] (ofMembers [(a, x), (b, y)]) = some [some x, some y] := by
  have hnames := decodeNames?_escape [(a, x), (b, y)]
  simp only [fields?, ofMembers, hnames]
  simp [uniqueMember?, h, h.symm]

/-- A record of two fields of which the second is left out. -/
theorem fields?_first {a b : String} (h : a ≠ b) (x : Json) :
    fields? [a, b] (ofMembers [(a, x)]) = some [some x, none] := by
  have hnames := decodeNames?_escape [(a, x)]
  simp only [fields?, ofMembers, hnames]
  simp [uniqueMember?, h]

end Json

/-! ### The parts of a program -/

theorem Word.ofJson?_toJson (w : Word) : ofJson? w.toJson = some w := by
  have htext : w.toJson.text? = some w.hex := Json.unescape?_escape w.hex
  rw [ofJson?, htext]
  simp only [ofHex_hex]
  rfl

theorem Instruction.textual_toJson (i : Instruction) : i.toJson.Textual := by
  unfold toJson
  split
  · refine Json.textual_ofMembers fun member hmember => ?_
    simp only [List.mem_cons, List.not_mem_nil, or_false] at hmember
    rcases hmember with rfl | rfl
    · exact Json.textual_ofText _
    · exact Json.textual_ofText _
  · refine Json.textual_ofMembers fun member hmember => ?_
    cases List.mem_singleton.1 hmember
    exact Json.textual_ofText _

namespace Program

/-- Items are read back in turn if each of them is. -/
theorem readAll?_map {α β : Type} {item : Json → Option α} {write : β → Json} {g : β → α}
    {xs : List β} (h : ∀ x ∈ xs, item (write x) = some (g x)) :
    readAll? item (xs.map write) = some (xs.map g) := by
  induction xs with
  | nil => rfl
  | cons x xs ih =>
    rw [List.map_cons, readAll?, h x List.mem_cons_self,
      ih fun y hy => h y (List.mem_cons_of_mem _ hy)]
    rfl

theorem readOperand?_toJson (w : Word) : readOperand? (some w.toJson) = some (some w) := by
  show (Word.ofJson? w.toJson).map some = _
  rw [Word.ofJson?_toJson]
  rfl

/-- An instruction is read back as its draft, with a constant or without. -/
theorem ofJson?_toJson (i : Instruction) : DraftInstruction.ofJson? i.toJson = some i.draft := by
  have hopcode : (Json.ofText i.mnemonic).text? = some i.mnemonic := Json.unescape?_escape _
  have hdraft : i.draft = ⟨i.mnemonic, i.operand?⟩ := rfl
  rw [hdraft, Instruction.toJson]
  cases i.operand? with
  | none =>
    simp only [DraftInstruction.ofJson?, Json.fields?_first (show "opcode" ≠ "value" by decide),
      hopcode]
    rfl
  | some w =>
    simp only [DraftInstruction.ofJson?, Json.fields?_both (show "opcode" ≠ "value" by decide),
      hopcode, readOperand?_toJson]

theorem readList?_codeToJson (code : List Instruction) :
    readList? DraftInstruction.ofJson? (some (codeToJson code))
      = some (code.map Instruction.draft) :=
  readAll?_map fun i _ => ofJson?_toJson i

/-- A function is read back as its draft. -/
theorem ofJson?_functionToJson (f : FunctionCode) :
    DraftFunction.ofJson? (functionToJson f) = some (draftFunction f) := by
  have hwords : readList? Word.ofJson? (some (.array (f.parameters.map Word.toJson)))
      = some (f.parameters.map id) := readAll?_map fun w _ => Word.ofJson?_toJson w
  rw [List.map_id] at hwords
  simp only [DraftFunction.ofJson?, functionToJson,
    Json.fields?_both (show "params" ≠ "body" by decide), hwords, readList?_codeToJson]
  rfl

/-- An index is read back from its digits. -/
theorem readIndex?_escape {n : Nat} (h : n < Text.indexBound) :
    readIndex? (Json.escape (toString n)) = some n := by
  have hdigits : (Nat.toDigits 10 n).all Char.isDigit = true :=
    List.all_eq_true.2 fun c hc => Nat.isDigit_of_mem_toDigits (by decide) (by decide) hc
  -- The one number that begins with a zero is zero.
  have hlead : (Nat.toDigits 10 n == ['0'] || (Nat.toDigits 10 n).head?.any (· != '0')) = true := by
    by_cases hzero : n = 0
    · rw [hzero]
      decide
    · obtain ⟨c, rest, hcons, hc⟩ := Text.head_toDigits hzero
      rw [hcons]
      simp [hc]
  rw [Json.escape_toString, readIndex?, hdigits, hlead, Text.digitsValue_toDigits]
  simp [h]

/-- Functions are read back with their indices, by induction on the entries. -/
theorem readFunctions?_toJson {entries : List (Nat × FunctionCode)}
    (h : ∀ entry ∈ entries, entry.1 < Text.indexBound) :
    readFunctions? (entries.map fun entry =>
        (Json.escape (toString entry.1), functionToJson entry.2))
      = some (entries.map fun entry => (entry.1, draftFunction entry.2)) := by
  induction entries with
  | nil => rfl
  | cons entry entries ih =>
    have hindex := readIndex?_escape (h entry List.mem_cons_self)
    have hrest := ih fun e he => h e (List.mem_cons_of_mem _ he)
    simp only [List.map_cons, readFunctions?, hindex, ofJson?_functionToJson, hrest]

/-- The table of functions is read back, since its entries are in order. -/
theorem readTable?_toJson {t : Table Nat FunctionCode}
    (h : ∀ entry ∈ t.entries, entry.1 < Text.indexBound) :
    readTable? (some (.ofMembers (t.entries.map fun (index, f) =>
      (toString index, functionToJson f)))) = some (t.map draftFunction) := by
  have hfunctions := readFunctions?_toJson h
  simp only [readTable?, Json.ofMembers, Json.members?, List.map_map, Function.comp_def,
    Option.bind_some, hfunctions, Option.map_some, ofList_draft]

/-! ### Programs and their texts -/

theorem textual_codeToJson (code : List Instruction) : (codeToJson code).Textual := by
  refine .array fun item hitem => ?_
  obtain ⟨i, -, rfl⟩ := List.mem_map.1 hitem
  exact i.textual_toJson

theorem textual_functionToJson (f : FunctionCode) : (functionToJson f).Textual := by
  refine Json.textual_ofMembers fun member hmember => ?_
  simp only [List.mem_cons, List.not_mem_nil, or_false] at hmember
  rcases hmember with rfl | rfl
  · refine .array fun item hitem => ?_
    obtain ⟨w, -, rfl⟩ := List.mem_map.1 hitem
    exact Json.textual_ofText w.hex
  · exact textual_codeToJson f.body

/-- The object of a program has strings and nothing else in it. -/
theorem textual_toJson (p : Program) : p.toJson.Textual := by
  refine Json.textual_ofMembers fun member hmember => ?_
  simp only [List.mem_cons, List.not_mem_nil, or_false] at hmember
  rcases hmember with rfl | rfl
  · exact textual_codeToJson p.initialization
  · refine Json.textual_ofMembers fun function hfunction => ?_
    obtain ⟨entry, -, rfl⟩ := List.mem_map.1 hfunction
    exact textual_functionToJson entry.2

/-- A program is read back from its text: as its draft first, which then passes the check. -/
theorem ofJsonText_toJsonText {p : Program}
    (h : ∀ entry ∈ p.functions.entries, entry.1 < Text.indexBound) :
    ofJsonText p.toJsonText = .ok p := by
  have hparse : Json.parse? p.toJsonText = some p.toJson :=
    Json.parse?_renderPretty p.textual_toJson
  have hdraft : Draft.ofJson? p.toJson = some p.draft := by
    simp only [Draft.ofJson?, toJson,
      Json.fields?_both (show "initialization" ≠ "functions" by decide), readList?_codeToJson,
      readTable?_toJson h]
    rfl
  simp only [ofJsonText, hparse, Option.bind_some, hdraft, Draft.accept, check_draft]

/-- **The JSON form is a codec.** A program whose function indices are below 2^64 is read back from
its text, so what is read has the address of what was written. -/
theorem json_text_reads_back (p : Program)
    (h : ∀ entry ∈ p.functions.entries, entry.1 < Text.indexBound) :
    ofJsonText p.toJsonText = .ok p
      ∧ ∀ q, ofJsonText p.toJsonText = .ok q → q.address = p.address := by
  have hread := ofJsonText_toJsonText h
  refine ⟨hread, fun q hq => ?_⟩
  rw [hread] at hq
  rw [Except.ok.inj hq]

/-- A program with the largest index there is, next to one that is shorter but written later. -/
theorem json_text_of_largest_index :
    let p : Program := ⟨[.push (.ofNat 7), .pop], Table.ofList
      [(18446744073709551615, ⟨[.ofNat 1], [.jump]⟩), (9, ⟨[], [.pushParam (.ofNat 2), .sload]⟩)]⟩
    (∀ entry ∈ p.functions.entries, entry.1 < Text.indexBound)
      ∧ ofJsonText p.toJsonText = .ok p := by
  intro p
  have hindex : ∀ entry ∈ p.functions.entries, entry.1 < Text.indexBound := by decide
  exact ⟨hindex, (json_text_reads_back p hindex).1⟩

end Program

end Covenant
