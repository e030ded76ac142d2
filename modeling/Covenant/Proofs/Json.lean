import Covenant.Json.Read
import Covenant.Json.Write

/-!
# Written values are read back

Programs and stores are kept as JSON texts, one item a line, in which every atom is a string. Such a
text is read back as the value it was written from. The argument follows the writer: `escapeChar` has
three kinds of results, and each is scanned as one piece; a value is scanned to its own end whatever
follows it, and so are the items of an array and the members of an object.

The scanners carry a bound. The length of what is written is enough for it: every call of a scanner
by another is paid for by a character that the caller has taken off.

* `unescape?_escape` gives texts back from their written form in a string.
* `Textual` are the values whose atoms are strings, and `parse?_renderPretty` reads them back.
-/

namespace Covenant

namespace Json

/-! ### Strings -/

theorem hexValue?_hexDigit {n : Nat} (h : n < 16) : hexValue? (hexDigit n) = some n := by
  have key : ∀ d : Fin 16, hexValue? (hexDigit d) = some d.val := by decide
  exact key ⟨n, h⟩

/-- A number below 256 is read back from the digits it is written with, of which the first two are
zero. -/
theorem hexUnit?_hexDigits {n : Nat} (h : n < 256) :
    hexUnit? '0' '0' (hexDigit (n / 16)) (hexDigit (n % 16)) = some n := by
  have hzero : hexValue? '0' = some 0 := rfl
  have hhigh := hexValue?_hexDigit (n := n / 16) (by omega)
  have hlow := hexValue?_hexDigit (n := n % 16) (by omega)
  simp only [hexUnit?, hzero, hhigh, hlow, Option.some.injEq]
  omega

/-- A character is written by a letter after a backslash, by its number, or as itself. -/
theorem escapeChar_cases (c : Char) :
    (∃ e, escapeChar c = ['\\', e] ∧ letterEscape? e = some c)
      ∨ (c.toNat < 0x20 ∧ ∃ x y, escapeChar c = ['\\', 'u', '0', '0', x, y]
          ∧ hexUnit? '0' '0' x y = some c.toNat)
      ∨ (escapeChar c = [c] ∧ c ≠ '"' ∧ c ≠ '\\' ∧ ¬ c.toNat < 0x20) := by
  -- Seven characters have a letter of their own, and those below 32 have a number.
  by_cases hletter : c ∈ ['"', '\\', '\x08', '\x0c', '\n', '\r', '\t']
  · simp only [List.mem_cons, List.not_mem_nil, or_false] at hletter
    rcases hletter with rfl | rfl | rfl | rfl | rfl | rfl | rfl <;> exact Or.inl ⟨_, rfl, rfl⟩
  · simp only [List.mem_cons, List.not_mem_nil, or_false, not_or] at hletter
    by_cases hlow : c.toNat < 0x20
    · have hunit := hexUnit?_hexDigits (n := c.toNat) (by omega)
      exact Or.inr (Or.inl ⟨hlow, _, _, by simp [escapeChar, hletter, hlow], hunit⟩)
    · exact Or.inr (Or.inr ⟨by simp [escapeChar, hletter, hlow], hletter.1, hletter.2.1, hlow⟩)

theorem ne_u_of_letterEscape? {e c : Char} (h : letterEscape? e = some c) : e ≠ 'u' := by
  rintro rfl
  cases h

/-- What is written for a character is scanned as one piece. -/
theorem scanString_escapeChar (c : Char) {text raw left : List Char}
    (h : scanString text = some (raw, left)) :
    scanString (escapeChar c ++ text) = some (escapeChar c ++ raw, left) := by
  rcases escapeChar_cases c with ⟨e, hc, he⟩ | ⟨-, x, y, hc, hunit⟩ | ⟨hc, hquote, hslash, hlow⟩
  · have hu := ne_u_of_letterEscape? he
    simp [hc, scanString, he, h, hu]
  · simp [hc, scanString, hunit, h]
  · simp [hc, scanString, hslash, hlow, h]

/-- A string as written: it is scanned up to the quote that follows it. -/
def Legible (raw : List Char) : Prop :=
  ∀ rest, scanString (raw ++ '"' :: rest) = some (raw, rest)

/-- A text as it is written has no quote that could be taken for its end. -/
theorem legible_escape (text : String) : Legible (escape text) := by
  intro rest
  unfold escape
  induction text.toList with
  | nil => rfl
  | cons c cs ih =>
    rw [List.flatMap_cons, List.append_assoc]
    exact scanString_escapeChar c ih

/-- A piece that stands for a character: the character, or a control character by its number. -/
def Piece.StandsFor (p : Piece) (c : Char) : Prop :=
  p = .char c ∨ (p = .unit c.toNat ∧ c.toNat < 0x20)

/-- What is written for a character is taken apart as one piece that stands for it. -/
theorem pieces?_escapeChar (c : Char) {text : List Char} {ps : List Piece}
    (h : pieces? text = some ps) :
    ∃ p, pieces? (escapeChar c ++ text) = some (p :: ps) ∧ p.StandsFor c := by
  rcases escapeChar_cases c with ⟨e, hc, he⟩ | ⟨hlow, x, y, hc, hunit⟩ | ⟨hc, -, hslash, -⟩
  · have hu := ne_u_of_letterEscape? he
    exact ⟨.char c, by simp [hc, pieces?, he, h, hu], Or.inl rfl⟩
  · exact ⟨.unit c.toNat, by simp [hc, pieces?, hunit, h], Or.inr ⟨rfl, hlow⟩⟩
  · exact ⟨.char c, by simp [hc, pieces?, hslash, h], Or.inl rfl⟩

/-- A number below 32 is no half of a surrogate pair, so it does not look at the piece behind it. -/
theorem joinPieces_unit {n : Nat} (h : n < 0x20) (ps : List Piece) :
    joinPieces (.unit n :: ps) = (joinPieces ps).map (Char.ofNat n :: ·) := by
  have hhigh : isHighSurrogate n = false := by simp [isHighSurrogate]; omega
  have hlow : isLowSurrogate n = false := by simp [isLowSurrogate]; omega
  cases ps with
  | nil => simp [joinPieces, hhigh, hlow]
  | cons p ps =>
    cases p with
    | char c => simp [joinPieces, hhigh, hlow]
    | unit m => simp [joinPieces, hhigh, hlow]

/-- A piece that stands for a character gives the character, whatever pieces follow it. -/
theorem joinPieces_cons {p : Piece} {c : Char} {ps : List Piece} {cs : List Char}
    (hp : p.StandsFor c) (h : joinPieces ps = some cs) : joinPieces (p :: ps) = some (c :: cs) := by
  rcases hp with rfl | ⟨rfl, hlow⟩
  · simp [joinPieces, h]
  · rw [joinPieces_unit hlow, h, Char.ofNat_toNat]
    rfl

/-- A text is read back from its written form in a string. -/
theorem unescape?_escape (text : String) : unescape? (escape text) = some text := by
  have hpieces : ∀ cs : List Char,
      ∃ ps, pieces? (cs.flatMap escapeChar) = some ps ∧ joinPieces ps = some cs := by
    intro cs
    induction cs with
    | nil => exact ⟨[], rfl, rfl⟩
    | cons c cs ih =>
      obtain ⟨ps, hps, hjoin⟩ := ih
      obtain ⟨p, hp, hstands⟩ := pieces?_escapeChar c hps
      exact ⟨p :: ps, hp, joinPieces_cons hstands hjoin⟩
  obtain ⟨ps, hps, hjoin⟩ := hpieces text.toList
  rw [unescape?, escape, hps, Option.bind_some, hjoin, Option.map_some, String.ofList_toList]

/-! ### Values

The induction is on the value. What an item or a member has to offer to the list it stands in is
`ReadsBack`; the lists themselves are walked by inductions of their own. -/

/-- A value whose atoms are all strings. -/
inductive Textual : Json → Prop where
  | string {raw : List Char} (h : Legible raw) : Textual (.string raw)
  | array {items : List Json} (h : ∀ item ∈ items, Textual item) : Textual (.array items)
  | object {members : List (List Char × Json)} (hnames : ∀ member ∈ members, Legible member.1)
      (hvalues : ∀ member ∈ members, Textual member.2) : Textual (.object members)

theorem textual_ofText (text : String) : (ofText text).Textual := .string (legible_escape text)

/-- An object has names that can be scanned, whatever they are. -/
theorem textual_ofMembers {members : List (String × Json)}
    (h : ∀ member ∈ members, member.2.Textual) : (ofMembers members).Textual := by
  refine .object ?_ ?_
  · intro member hmember
    obtain ⟨source, -, rfl⟩ := List.mem_map.1 hmember
    exact legible_escape source.1
  · intro member hmember
    obtain ⟨source, hsource, rfl⟩ := List.mem_map.1 hmember
    exact h source hsource

/-- The text of a value is scanned as that value, up to its end. -/
def ReadsBack (v : Json) : Prop :=
  ∀ level bound rest, (prettyChars level v).length ≤ bound →
    scanValue bound (prettyChars level v ++ rest) = some (v, rest)

theorem skipBlank_of_not {c : Char} (h : isBlank c = false) (text : List Char) :
    skipBlank (c :: text) = c :: text := by
  simp [skipBlank, h]

/-- A line break with its indentation is skipped. -/
theorem skipBlank_lineBreak (level : Nat) (text : List Char) :
    skipBlank (lineBreak level ++ text) = skipBlank text := by
  have hspaces : ∀ n, (List.replicate n ' ' ++ text).dropWhile isBlank
      = text.dropWhile isBlank := by
    intro n
    induction n with
    | zero => rfl
    | succ n ih => rw [List.replicate_succ, List.cons_append, List.dropWhile_cons_of_pos rfl, ih]
  show ('\n' :: List.replicate (2 * level) ' ' ++ text).dropWhile isBlank = _
  rw [List.cons_append, List.dropWhile_cons_of_pos rfl]
  exact hspaces _

theorem scanValue_lineBreak (bound level : Nat) (text : List Char) :
    scanValue bound (lineBreak level ++ text) = scanValue bound text := by
  cases bound with
  | zero => rfl
  | succ bound => simp only [scanValue, skipBlank_lineBreak]

theorem scanValue_space (bound : Nat) (text : List Char) :
    scanValue bound (' ' :: text) = scanValue bound text := by
  cases bound with
  | zero => rfl
  | succ bound =>
    have hskip : skipBlank (' ' :: text) = skipBlank text := rfl
    simp only [scanValue, hskip]

theorem scanItems_lineBreak (bound level : Nat) (text : List Char) :
    scanItems bound (lineBreak level ++ text) = scanItems bound text := by
  cases bound with
  | zero => rfl
  | succ bound => simp only [scanItems, scanValue_lineBreak]

theorem scanMembers_lineBreak (bound level : Nat) (text : List Char) :
    scanMembers bound (lineBreak level ++ text) = scanMembers bound text := by
  cases bound with
  | zero => rfl
  | succ bound => simp only [scanMembers, skipBlank_lineBreak]

/-- The items of an array are scanned up to the bracket. By induction on the items after the first.
-/
theorem scanItems_pretty (level below bound : Nat) {first : Json} {items : List Json}
    (hfirst : first.ReadsBack) (hitems : ∀ item ∈ items, item.ReadsBack) (rest : List Char)
    (hbound : (prettyChars level first ++ prettyItems level items).length < bound) :
    scanItems bound (prettyChars level first ++ (prettyItems level items
      ++ (lineBreak below ++ ']' :: rest))) = some (first :: items, rest) := by
  induction items generalizing first bound with
  | nil =>
    obtain ⟨bound, rfl⟩ : ∃ b, bound = b + 1 := ⟨bound - 1, by omega⟩
    simp only [prettyItems, List.append_nil] at hbound
    rw [scanItems, hfirst level bound _ (by omega)]
    simp [prettyItems, skipBlank_lineBreak, skipBlank_of_not (c := ']') rfl]
  | cons item items ih =>
    obtain ⟨bound, rfl⟩ : ∃ b, bound = b + 1 := ⟨bound - 1, by omega⟩
    simp only [prettyItems, List.length_append, List.length_cons, List.cons_append] at hbound
    -- The comma pays for the call that scans the items behind it.
    have hnext := ih bound (hitems item List.mem_cons_self)
      (fun x hx => hitems x (List.mem_cons_of_mem _ hx)) (by simp only [List.length_append]; omega)
    rw [scanItems, hfirst level bound _ (by omega)]
    simp [prettyItems, skipBlank_of_not (c := ',') rfl, scanItems_lineBreak, hnext]

/-- The members of an object are scanned up to the brace. By induction on the members after the
first. -/
theorem scanMembers_pretty (level below bound : Nat) {name : List Char} {value : Json}
    {members : List (List Char × Json)} (hname : Legible name) (hvalue : value.ReadsBack)
    (hnames : ∀ member ∈ members, Legible member.1)
    (hvalues : ∀ member ∈ members, member.2.ReadsBack) (rest : List Char)
    (hbound : (renderRaw name ++ ':' :: ' ' :: prettyChars level value
      ++ prettyMembers level members).length < bound) :
    scanMembers bound ('"' :: (name ++ '"' :: ':' :: ' ' :: (prettyChars level value
      ++ (prettyMembers level members ++ (lineBreak below ++ '}' :: rest)))))
        = some ((name, value) :: members, rest) := by
  simp only [renderRaw, List.length_append, List.length_cons, List.cons_append] at hbound
  induction members generalizing name value bound with
  | nil =>
    obtain ⟨bound, rfl⟩ : ∃ b, bound = b + 1 := ⟨bound - 1, by omega⟩
    -- The value has its own bound, which is smaller by the name before it.
    have hread := fun rest => hvalue level bound rest (by omega)
    simp [scanMembers, skipBlank_of_not, isBlank, hname _, scanValue_space, prettyMembers, hread,
      skipBlank_lineBreak]
  | cons member members ih =>
    obtain ⟨bound, rfl⟩ : ∃ b, bound = b + 1 := ⟨bound - 1, by omega⟩
    obtain ⟨name', value'⟩ := member
    have hread := fun rest => hvalue level bound rest (by omega)
    simp only [prettyMembers, renderRaw, List.length_append, List.length_cons,
      List.cons_append] at hbound
    have hname' : Legible name' := hnames _ List.mem_cons_self
    have hvalue' : value'.ReadsBack := hvalues _ List.mem_cons_self
    have hnext := ih bound hname' hvalue' (fun x hx => hnames x (List.mem_cons_of_mem _ hx))
      (fun x hx => hvalues x (List.mem_cons_of_mem _ hx)) (by omega)
    simp [scanMembers, skipBlank_of_not, isBlank, hname _, scanValue_space, prettyMembers,
      renderRaw, hread, scanMembers_lineBreak, hnext]

/-- The first character of a value tells it from the end of an array. -/
theorem Textual.head {v : Json} (h : v.Textual) (level : Nat) :
    ∃ c text, prettyChars level v = c :: text ∧ isBlank c = false ∧ c ≠ ']' := by
  cases h with
  | string h => exact ⟨'"', _, rfl, rfl, by decide⟩
  | @array items h =>
    refine ⟨'[', (prettyChars level (.array items)).tail, ?_, rfl, by decide⟩
    cases items <;> rw [prettyChars] <;> rfl
  | @object members _ _ =>
    refine ⟨'{', (prettyChars level (.object members)).tail, ?_, rfl, by decide⟩
    cases members <;> rw [prettyChars] <;> rfl

/-- Every value of strings is scanned to its end, by induction on the value. -/
theorem Textual.readsBack {v : Json} (h : v.Textual) : v.ReadsBack := by
  induction h with
  | string h =>
    intro level bound rest hbound
    simp only [prettyChars, renderRaw, List.cons_append, List.length_cons] at hbound
    obtain ⟨bound, rfl⟩ : ∃ b, bound = b + 1 := ⟨bound - 1, by omega⟩
    simp [prettyChars, renderRaw, scanValue, skipBlank_of_not, isBlank, h _]
  | @array items hitems ih =>
    intro level bound rest hbound
    cases items with
    | nil =>
      obtain ⟨bound, rfl⟩ : ∃ b, bound = b + 1 := ⟨bound - 1, by simp [prettyChars] at hbound; omega⟩
      simp [prettyChars, scanValue, skipBlank_of_not, isBlank]
    | cons first items =>
      simp only [prettyChars, List.cons_append, List.length_cons, List.length_append] at hbound
      obtain ⟨bound, rfl⟩ : ∃ b, bound = b + 1 := ⟨bound - 1, by omega⟩
      have hscan := scanItems_pretty (level + 1) level bound
        (ih first List.mem_cons_self) (fun x hx => ih x (List.mem_cons_of_mem _ hx)) rest
        (by simp only [List.length_append]; omega)
      -- An array with an item is told from an empty one by the item's first character.
      obtain ⟨c, text, hhead, hblank, hclose⟩ := (hitems first List.mem_cons_self).head (level + 1)
      rw [hhead, List.cons_append] at hscan
      simp [prettyChars, scanValue, skipBlank_of_not (c := '[') rfl, skipBlank_lineBreak, hhead,
        skipBlank_of_not hblank, hclose, hscan]
  | @object members hnames _ ih =>
    intro level bound rest hbound
    cases members with
    | nil =>
      obtain ⟨bound, rfl⟩ : ∃ b, bound = b + 1 := ⟨bound - 1, by simp [prettyChars] at hbound; omega⟩
      simp [prettyChars, scanValue, skipBlank_of_not, isBlank]
    | cons member members =>
      obtain ⟨name, value⟩ := member
      simp only [prettyChars, List.cons_append, List.length_cons, List.length_append] at hbound
      obtain ⟨bound, rfl⟩ : ∃ b, bound = b + 1 := ⟨bound - 1, by omega⟩
      have hscan := scanMembers_pretty (level + 1) level bound
        (hnames _ List.mem_cons_self) (ih _ List.mem_cons_self)
        (fun x hx => hnames x (List.mem_cons_of_mem _ hx))
        (fun x hx => ih x (List.mem_cons_of_mem _ hx)) rest
        (by simp only [List.length_append, List.length_cons]; omega)
      simp [prettyChars, renderRaw, scanValue, skipBlank_of_not, skipBlank_lineBreak, isBlank, hscan]

/-- **A value of strings is read back from its text.** -/
theorem parse?_renderPretty {v : Json} (h : v.Textual) : parse? v.renderPretty = some v := by
  -- The bound of the parser is counted from the text, and is twice as large as needed.
  have hlen : v.renderPretty.length = (v.prettyChars 0).length := String.length_ofList
  have hscan := h.readsBack 0 (2 * v.renderPretty.length + 2) [] (by omega)
  rw [List.append_nil] at hscan
  have htext : v.renderPretty.toList = v.prettyChars 0 := String.toList_ofList
  rw [parse?, htext, hscan]
  rfl

end Json

end Covenant
