import Covenant.Proofs.Token.Lexeme

/-!
# The greedy split of a source

Scanning cuts a source into trivia and lexemes, and takes as much as it can each time. The split of
a text takes the longest trivia, then the longest token, and so on (`Token.Splits`); it comes to an
end when nothing but trivia is left, or at a place where no token starts (`Token.exists_splits`).

* `Position.after` is the place behind a text, counted in its line feeds and in the characters of
  its last line. Scanning steps from place to place and agrees with it (`Position.advance_after`).
* `Token.Splits.scanFrom_eq` says that scanning goes along the split.
* `Token.tokens_of_scan` is what later readers of the tokens need: the end comes last, and no two
  tokens stand at one place.
-/

namespace Covenant

/-! ### Places -/

namespace Position

/-- The place behind a text. Its line is one more than the text has line feeds, and its column one
more than the text has characters after the last of them. -/
def after (before : List Char) : Position :=
  ⟨before.count '\n' + 1, (before.reverse.takeWhile (· != '\n')).length + 1⟩

/-- One more character moves the place on by one step. -/
theorem after_concat (before : List Char) (c : Char) :
    after (before ++ [c]) = (after before).next c := by
  by_cases hc : c = '\n'
  · simp [after, next, hc]
  · simp [after, next, hc]

/-- Stepping over a text leads to the place behind it. -/
theorem advance_after (before text : List Char) :
    (after before).advance text = after (before ++ text) := by
  induction text generalizing before with
  | nil => rw [List.append_nil]; rfl
  | cons c text ih =>
    show ((after before).next c).advance text = _
    rw [← after_concat, ih, List.append_assoc]
    rfl

/-- A text that is not empty leads to another place. -/
theorem after_append_ne {before text : List Char} (h : text ≠ []) :
    after (before ++ text) ≠ after before := by
  intro heq
  have hline := congrArg Position.line heq
  have hcolumn := congrArg Position.column heq
  simp only [after, List.count_append, List.reverse_append] at hline hcolumn
  -- On the same line there is no line feed in the text, and all its characters count.
  have hplain : ∀ c ∈ text.reverse, (c != '\n') = true := by
    intro c hc
    rw [bne_iff_ne]
    rintro rfl
    have hpos := List.count_pos_iff.2 (List.mem_reverse.1 hc)
    omega
  rw [List.takeWhile_append_of_pos hplain, List.length_append, List.length_reverse] at hcolumn
  have hpos := List.length_pos_iff.2 h
  omega

end Position

namespace Token

/-! ### The whole source -/

/-- Trivia and the token behind it. -/
structure Piece where
  trivia : List Char
  token : Token

namespace Piece

/-- The characters of a piece. -/
def chars (piece : Piece) : List Char := piece.trivia ++ piece.token.text.toList

/-- The tokens of pieces, each at the place where its first character stands, where the pieces come
behind some text. -/
def locate (before : List Char) : List Piece → List Located
  | [] => []
  | piece :: rest =>
    ⟨piece.token, .after (before ++ piece.trivia)⟩ :: locate (before ++ piece.chars) rest

end Piece

/-- The greedy split of a text has cut off some pieces and has `rest` before it: each piece took the
longest trivia, and then the longest token. -/
inductive Splits : List Char → List Piece → List Char → Prop
  | nil (rest : List Char) : Splits rest [] rest
  | cons {trivia left rest : List Char} {token : Token} {pieces : List Piece}
    (htrivia : LongestTrivia trivia (token.text.toList ++ left)) (htoken : LongestToken token left)
    (hrest : Splits left pieces rest) :
    Splits (trivia ++ (token.text.toList ++ left)) (⟨trivia, token⟩ :: pieces) rest

/-- Cutting off pieces loses nothing, and the end of the source is none of them. -/
theorem Splits.join {text rest : List Char} {pieces : List Piece} (h : Splits text pieces rest) :
    text = pieces.flatMap Piece.chars ++ rest ∧ ∀ piece ∈ pieces, piece.token.IsLexeme := by
  induction h with
  | nil rest => exact ⟨rfl, fun _ h => absurd h List.not_mem_nil⟩
  | cons _ htoken _ ih =>
    refine ⟨?_, List.forall_mem_cons.2 ⟨htoken.1, ih.2⟩⟩
    rw [ih.1, List.flatMap_cons, Piece.chars, List.append_assoc, List.append_assoc]

/-- The split comes to an end: nothing but trivia is left, or behind the trivia there is a place
where no token starts. -/
theorem exists_splits (text : List Char) :
    ∃ pieces rest, Splits text pieces rest ∧ (LongestTrivia rest []
      ∨ ∃ trivia c left, rest = trivia ++ c :: left ∧ LongestTrivia trivia (c :: left)
        ∧ StartsNone (c :: left)) := by
  -- On the length of the text, as a piece takes at least one character.
  induction hlength : text.length using Nat.strongRecOn generalizing text with
  | ind n ih =>
    subst hlength
    rcases hskip : skipTrivia false text with ⟨trivia, rest⟩
    obtain ⟨rfl, htrivia⟩ := skipTrivia_eq_iff.1 hskip
    cases rest with
    | nil =>
      refine ⟨[], _, .nil _, Or.inl ?_⟩
      rwa [List.append_nil]
    | cons c rest =>
      cases hlexeme : lexeme c rest with
      | error problem =>
        obtain ⟨hnone, -⟩ := lexeme_eq_error_iff.1 hlexeme
        exact ⟨[], _, .nil _, Or.inr ⟨trivia, c, rest, rfl, htrivia, hnone⟩⟩
      | ok result =>
        obtain ⟨token, left⟩ := result
        obtain ⟨hjoin, htoken⟩ := lexeme_eq_ok_iff.1 hlexeme
        have hshorter : left.length < (trivia ++ c :: rest).length := by
          have hle := length_lexeme_le hlexeme
          rw [List.length_append, List.length_cons]
          omega
        obtain ⟨pieces, last, hsplits, hend⟩ := ih _ hshorter left rfl
        rw [hjoin] at htrivia ⊢
        exact ⟨⟨trivia, token⟩ :: pieces, last, .cons htrivia htoken hsplits, hend⟩

/-- Scanning goes along the split: the tokens of the pieces come first. -/
theorem Splits.scanFrom_eq {text rest : List Char} {pieces : List Piece}
    (h : Splits text pieces rest) (before : List Char) :
    scanFrom (.after before) text
      = (scanFrom (.after (before ++ pieces.flatMap Piece.chars)) rest).map
          (Piece.locate before pieces ++ ·) := by
  induction h generalizing before with
  | nil rest =>
    rw [List.flatMap_nil, List.append_nil]
    cases scanFrom (.after before) rest with
    | error e => rfl
    | ok tokens => rfl
  | @cons trivia left rest token pieces htrivia htoken _ ih =>
    have hskip := skipTrivia_eq_iff.2 ⟨rfl, htrivia⟩
    obtain ⟨c, more, htext, -⟩ := htoken.1.first
    have hjoin : c :: (more ++ left) = token.text.toList ++ left := by rw [htext]; rfl
    have hlexeme := lexeme_eq_ok_iff.2 ⟨hjoin, htoken⟩
    have hrest : (skipTrivia false (trivia ++ (token.text.toList ++ left))).2
        = c :: (more ++ left) := by
      rw [hskip, hjoin]
    rw [scanFrom_of_lexeme hrest hlexeme, hskip]
    dsimp only
    rw [Position.advance_after, Position.advance_after, List.append_assoc before, ih]
    have hbefore : before ++ (trivia ++ token.text.toList) ++ pieces.flatMap Piece.chars
        = before ++ (⟨trivia, token⟩ :: pieces : List Piece).flatMap Piece.chars := by
      rw [List.flatMap_cons, List.append_assoc]
      rfl
    rw [hbefore]
    cases scanFrom _ rest with
    | error e => rfl
    | ok tokens => rfl

/-- Where nothing but trivia is left, scanning gives the end. -/
theorem scanFrom_of_longestTrivia {trivia : List Char} (h : LongestTrivia trivia [])
    (before : List Char) :
    scanFrom (.after before) trivia = .ok [⟨.eof, .after (before ++ trivia)⟩] := by
  have hskip := skipTrivia_eq_iff.2 ⟨(List.append_nil trivia).symm, h⟩
  rw [scanFrom_of_trivia (by rw [hskip]), hskip, Position.advance_after]

/-- Where no token starts, scanning fails behind the trivia. -/
theorem scanFrom_of_startsNone {trivia rest : List Char} {c : Char}
    (htrivia : LongestTrivia trivia (c :: rest)) (hnone : StartsNone (c :: rest))
    (before : List Char) :
    scanFrom (.after before) (trivia ++ c :: rest)
      = .error ⟨.after (before ++ trivia), problemAt c⟩ := by
  have hskip := skipTrivia_eq_iff.2 ⟨rfl, htrivia⟩
  have hlexeme := lexeme_eq_error_iff.2 ⟨hnone, rfl⟩
  have hrest : (skipTrivia false (trivia ++ c :: rest)).2 = c :: rest := by rw [hskip]
  rw [scanFrom_of_problem hrest hlexeme, hskip, Position.advance_after]

/-- A split that leaves nothing but trivia gives the tokens. -/
theorem Splits.scan_eq_ok {source : String} {pieces : List Piece} {trivia : List Char}
    (h : Splits source.toList pieces trivia) (htrivia : LongestTrivia trivia []) :
    scan source = .ok (Piece.locate [] pieces ++ [⟨.eof, .after source.toList⟩]) := by
  have hscan := h.scanFrom_eq []
  rw [scanFrom_of_longestTrivia htrivia, List.nil_append, ← h.join.1] at hscan
  exact hscan

/-- A split that comes to a place where no token starts gives an error there. -/
theorem Splits.scan_eq_error {source : String} {pieces : List Piece} {trivia rest : List Char}
    {c : Char} (h : Splits source.toList pieces (trivia ++ c :: rest))
    (htrivia : LongestTrivia trivia (c :: rest)) (hnone : StartsNone (c :: rest)) :
    scan source = .error ⟨.after (pieces.flatMap Piece.chars ++ trivia), problemAt c⟩ := by
  have hscan := h.scanFrom_eq []
  rw [scanFrom_of_startsNone htrivia hnone, List.nil_append] at hscan
  exact hscan

/-- The tokens of a source come from its split. -/
theorem exists_splits_of_scan {source : String} {tokens : List Located}
    (h : scan source = .ok tokens) :
    ∃ pieces trivia, Splits source.toList pieces trivia ∧ LongestTrivia trivia []
      ∧ tokens = Piece.locate [] pieces ++ [⟨.eof, .after source.toList⟩] := by
  obtain ⟨pieces, rest, hsplits, htrivia | ⟨trivia, c, left, rfl, htrivia, hnone⟩⟩ :=
    exists_splits source.toList
  · rw [hsplits.scan_eq_ok htrivia] at h
    exact ⟨pieces, rest, hsplits, htrivia, (Except.ok.inj h).symm⟩
  · rw [hsplits.scan_eq_error htrivia hnone] at h
    cases h

/-- **Scanning is the greedy split of the source.** It gives tokens exactly if the split leaves
nothing but trivia at the end. The source is then made of trivia and the texts of the tokens in
turn, every trivia and every token as long as it can be; each token stands at the place of its first
character, and the end of the source, which is no lexeme, comes last. Scanning fails exactly if the
split comes to a place where no token starts, and the error is that of this place. -/
theorem scan_is_greedy_split (source : String) :
    (∀ tokens, scan source = .ok tokens ↔ ∃ pieces trivia,
        source.toList = pieces.flatMap Piece.chars ++ trivia
          ∧ Splits source.toList pieces trivia ∧ LongestTrivia trivia []
          ∧ (∀ piece ∈ pieces, piece.token.IsLexeme)
          ∧ tokens = Piece.locate [] pieces ++ [⟨.eof, .after source.toList⟩])
      ∧ ∀ e, scan source = .error e ↔ ∃ pieces trivia c rest,
        source.toList = pieces.flatMap Piece.chars ++ (trivia ++ c :: rest)
          ∧ Splits source.toList pieces (trivia ++ c :: rest) ∧ LongestTrivia trivia (c :: rest)
          ∧ StartsNone (c :: rest)
          ∧ e = ⟨.after (pieces.flatMap Piece.chars ++ trivia), problemAt c⟩ := by
  refine ⟨fun tokens => ⟨fun h => ?_, ?_⟩, fun e => ⟨fun h => ?_, ?_⟩⟩
  · obtain ⟨pieces, trivia, hsplits, htrivia, htokens⟩ := exists_splits_of_scan h
    exact ⟨pieces, trivia, hsplits.join.1, hsplits, htrivia, hsplits.join.2, htokens⟩
  · rintro ⟨pieces, trivia, -, hsplits, htrivia, -, rfl⟩
    exact hsplits.scan_eq_ok htrivia
  · -- There is a split, and had it left nothing but trivia, scanning would not have failed.
    obtain ⟨pieces, rest, hsplits, htrivia | ⟨trivia, c, left, rfl, htrivia, hnone⟩⟩ :=
      exists_splits source.toList
    · rw [hsplits.scan_eq_ok htrivia] at h
      cases h
    · rw [hsplits.scan_eq_error htrivia hnone] at h
      cases h
      exact ⟨pieces, trivia, c, left, hsplits.join.1, hsplits, htrivia, hnone, rfl⟩
  · rintro ⟨pieces, trivia, c, rest, -, hsplits, htrivia, hnone, rfl⟩
    exact hsplits.scan_eq_error htrivia hnone

/-! ### The tokens of a source -/

/-- The end comes last in a list of tokens, and nowhere else. -/
def Ended (tokens : List Located) : Prop :=
  ∃ items last, tokens = items ++ [last] ∧ last.token = .eof ∧ ∀ item ∈ items, item.token ≠ .eof

/-- A located token is that of a piece, at a place behind the text before. -/
theorem mem_locate {before : List Char} {pieces : List Piece} {item : Located}
    (h : item ∈ Piece.locate before pieces) :
    (∃ piece ∈ pieces, item.token = piece.token)
      ∧ ∃ text, item.position = .after (before ++ text) := by
  induction pieces generalizing before with
  | nil => exact absurd h List.not_mem_nil
  | cons piece pieces ih =>
    rcases List.mem_cons.1 h with rfl | h
    · exact ⟨⟨piece, List.mem_cons_self, rfl⟩, _, rfl⟩
    · obtain ⟨⟨other, hother, htoken⟩, text, hposition⟩ := ih h
      refine ⟨⟨other, List.mem_cons_of_mem _ hother, htoken⟩, piece.chars ++ text, ?_⟩
      rw [hposition, List.append_assoc]

/-- A piece takes at least one character, so no two tokens stand at one place. -/
theorem pairwise_locate {pieces : List Piece} (h : ∀ piece ∈ pieces, piece.token.IsLexeme)
    (before trivia : List Char) :
    List.Pairwise (fun a b : Located => a.position ≠ b.position)
      (Piece.locate before pieces
        ++ [⟨.eof, .after (before ++ pieces.flatMap Piece.chars ++ trivia)⟩]) := by
  induction pieces generalizing before with
  | nil => exact List.pairwise_singleton _ _
  | cons piece pieces ih =>
    rw [List.forall_mem_cons] at h
    have htail := ih h.2 (before ++ piece.chars)
    rw [List.append_assoc before] at htail
    refine List.pairwise_cons.2 ⟨fun item hitem => ?_, htail⟩
    -- Whatever comes later stands behind the characters of the token.
    have hbehind : ∃ text, item.position = .after (before ++ piece.chars ++ text) := by
      rcases List.mem_append.1 hitem with hitem | hitem
      · exact (mem_locate hitem).2
      · rw [List.mem_singleton.1 hitem]
        exact ⟨pieces.flatMap Piece.chars ++ trivia, by simp⟩
    obtain ⟨text, htext⟩ := hbehind
    obtain ⟨c, rest, hfirst, -⟩ := h.1.first
    rw [htext, Piece.chars, ← List.append_assoc, List.append_assoc _ piece.token.text.toList]
    refine (Position.after_append_ne ?_).symm
    rw [hfirst]
    exact List.cons_ne_nil _ _

/-- The tokens of a source are lexemes and the end, each at a place of its own. -/
theorem tokens_of_scan {source : String} {tokens : List Located} (h : scan source = .ok tokens) :
    Ended tokens ∧ (∀ item ∈ tokens, item.token ≠ .eof → item.token.IsLexeme)
      ∧ tokens.Pairwise fun a b => a.position ≠ b.position := by
  obtain ⟨pieces, trivia, hsplits, -, rfl⟩ := exists_splits_of_scan h
  obtain ⟨hjoin, hlexemes⟩ := hsplits.join
  have hlocated : ∀ item ∈ Piece.locate [] pieces, item.token.IsLexeme := by
    intro item hitem
    obtain ⟨⟨piece, hpiece, htoken⟩, -⟩ := mem_locate hitem
    rw [htoken]
    exact hlexemes piece hpiece
  refine ⟨⟨_, _, rfl, rfl, fun item hitem heof => ?_⟩, fun item hitem hne => ?_, ?_⟩
  · have hlexeme := hlocated item hitem
    rw [heof] at hlexeme
    exact hlexeme
  · rcases List.mem_append.1 hitem with hitem | hitem
    · exact hlocated item hitem
    · rw [List.mem_singleton.1 hitem] at hne
      exact absurd rfl hne
  · have hpairwise := pairwise_locate hlexemes [] trivia
    rwa [List.nil_append, ← hjoin] at hpairwise

end Token

end Covenant
