import Covenant.Proofs.Contract.EndOfInput

/-!
# Readers that fail at once

A reader that fails has consumed tokens that could have gone on, and stands at a token that could
not. So what it says of the tokens it was given it says of all others that begin in the same way.

The second part is about two runs. As long as two cursors show the same tokens, a reader does the
same on both; it decides by the next token, but for a `-`, which belongs to a number only if one is
directly after it.

* `Cursor.Agree` says how many tokens two cursors have in common.
* `Reader.Prompt` compares a run with a second one and says of a failure that the tokens consumed
  before it have a property. It is closed under chaining (`Reader.Prompt.bind`).
* `Grammar.Begins` is that property: the tokens are the beginning of what the grammar writes.
* There is one lemma for each reader up to expressions.
-/

namespace Covenant

/-! ### Consumed tokens and common tokens -/

namespace Cursor

variable {c c' c'' d : Cursor} {items more : List Located} {k : Nat}

/-- One cursor is behind another, with these tokens in between. -/
def Passes (c : Cursor) (items : List Located) (c' : Cursor) : Prop :=
  c.cut.rest = items ++ c'.cut.rest ∧ ∀ item ∈ items, item.token ≠ .eof

theorem Passes.refl (c : Cursor) : c.Passes [] c :=
  ⟨rfl, fun _ h => absurd h List.not_mem_nil⟩

/-- What is passed in two stretches is passed in one. -/
theorem Passes.trans (h : c.Passes items c') (h' : c'.Passes more c'') :
    c.Passes (items ++ more) c'' := by
  refine ⟨by rw [h.1, h'.1, List.append_assoc], fun item hitem => ?_⟩
  rcases List.mem_append.1 hitem with hitem | hitem
  · exact h.2 item hitem
  · exact h'.2 item hitem

/-- The tokens in between are the first ones that a parser sees. -/
theorem Passes.visible (h : c.Passes items c') :
    c.visible = items.map Located.token ++ c'.visible := by
  rw [← c.visible_cut, ← c'.visible_cut]
  unfold Cursor.visible Token.beforeEnd
  rw [h.1, List.map_append, List.takeWhile_append_of_pos]
  intro t ht
  obtain ⟨item, hitem, rfl⟩ := List.mem_map.1 ht
  exact bne_iff_ne.2 (h.2 item hitem)

/-- One step passes one token, unless the input has ended. -/
theorem passes_advance (h : c.peek ≠ .eof) : ∃ item, c.Passes [item] c.advance := by
  obtain ⟨rest, last⟩ := c
  cases rest with
  | nil => exact absurd rfl h
  | cons item rest =>
    refine ⟨item, ?_, fun other hother => ?_⟩
    · -- A token that is not the end is dropped, and what follows it is cut as before.
      have hadvance : Cursor.advance ⟨item :: rest, last⟩ = ⟨rest, item.position⟩ := if_neg h
      have hthrough : Token.throughEnd (item :: rest) = item :: Token.throughEnd rest := if_neg h
      rw [hadvance]
      exact hthrough
    · rw [List.mem_singleton.1 hother]
      exact h

/-- The next token is the first one that is seen, or the end. -/
theorem peek_eq_getD (c : Cursor) : c.peek = c.visible.head?.getD .eof := by
  rcases c.peek_cases with ⟨hnil, heof, -⟩ | ⟨-, hvisible, -⟩
  · rw [hnil, heof]
    rfl
  · rw [hvisible]
    rfl

/-- A step leaves all but the first of the tokens that are seen. -/
theorem visible_advance (c : Cursor) : c.advance.visible = c.visible.drop 1 := by
  rcases c.peek_cases with ⟨hnil, -, hadvance⟩ | ⟨-, hvisible, -⟩
  · rw [hnil, hadvance]
    rfl
  · rw [hvisible]
    rfl

/-- Two cursors show the same tokens, so many of them or up to the end. -/
def Agree (k : Nat) (c d : Cursor) : Prop := c.visible.take k = d.visible.take k

/-- Cursors with a token in common show the same one next. -/
theorem Agree.peek (h : Agree k c d) (hk : 0 < k) : c.peek = d.peek := by
  have hhead := congrArg List.head? h
  rw [List.head?_take, List.head?_take, if_neg (Nat.ne_of_gt hk), if_neg (Nat.ne_of_gt hk)] at hhead
  rw [c.peek_eq_getD, d.peek_eq_getD, hhead]

/-- A step on both uses up one of the common tokens. -/
theorem Agree.advance (h : Agree k c d) : Agree (k - 1) c.advance d.advance := by
  have hdrop := congrArg (List.drop 1) h
  rw [List.drop_take, List.drop_take] at hdrop
  unfold Agree
  rwa [visible_advance, visible_advance]

/-- A failure has the token it stands at, and what was expected there. -/
theorem failure_eq (c : Cursor) (what : Expectation) :
    (c.failure what).found = c.peek ∧ (c.failure what).expected = what := by
  obtain ⟨rest, last⟩ := c
  cases rest with
  | nil => exact ⟨rfl, rfl⟩
  | cons item rest => exact ⟨rfl, rfl⟩

end Cursor

/-- Where these are expected, a minus sign may come before a number. -/
def Expectation.signed : Expectation → Bool
  | .expression | .literal => true
  | _ => false

/-- How many tokens a failure depends on, from the one it stands at. -/
def ParseError.reach (e : ParseError) : Nat :=
  if e.found = .operator .subtract ∧ e.expected.signed = true then 2 else 1

/-- A failure depends on its own token alone, unless it stands at a `-` where a number may have one.
-/
theorem Cursor.reach_failure {c : Cursor} {what : Expectation}
    (h : c.peek = .operator .subtract → what.signed = false) : (c.failure what).reach = 1 := by
  obtain ⟨hfound, hexpected⟩ := c.failure_eq what
  rw [ParseError.reach, hfound, hexpected, if_neg]
  rintro ⟨hminus, hsigned⟩
  rw [h hminus] at hsigned
  exact absurd hsigned Bool.false_ne_true

theorem ParseError.reach_cases (e : ParseError) :
    e.reach = 1 ∨ e.reach = 2 ∧ e.found = .operator .subtract := by
  unfold reach
  split
  · exact Or.inr ⟨rfl, And.left ‹_›⟩
  · exact Or.inl rfl

/-! ### Beginnings -/

namespace Grammar

/-- Tokens that go on to write something. -/
def Begins {α : Type} (written : List Token → α → Prop) (ts : List Token) : Prop :=
  ∃ us a, written (ts ++ us) a

variable {α : Type} {written : List Token → α → Prop} {ts : List Token} {a : α}

/-- What can be written begins with nothing. -/
theorem begins_nil (h : written ts a) : Begins written [] := ⟨ts, a, h⟩

/-- What is written is its own beginning. -/
theorem begins_of_written (h : written ts a) : Begins written ts :=
  ⟨[], a, by rwa [List.append_nil]⟩

theorem literal_zero : Literal [.number "0"] (.int 0) := .number (by decide)

theorem term_zero : Term [.number "0"] (.literal (.int 0)) := .literal literal_zero

/-- A name with keys, or without one, is an operand. -/
theorem exists_term_of_keys {base : String} {keys : List Covenant.Term} (hbase : Name base)
    (hkeys : Keys ts keys) : ∃ t, Term (.ident base :: ts) t := by
  cases keys with
  | nil =>
    cases hkeys
    exact ⟨_, .ident hbase⟩
  | cons key keys => exact ⟨_, .index hbase hkeys⟩

theorem expression_zero : Expression [.number "0"] ⟨[.literal (.int 0)], []⟩ := .mk term_zero .nil

end Grammar

/-! ### Two runs -/

namespace Reader

open Cursor (Agree)

variable {α β : Type} {r s r' s' : Reader α} {c d : Cursor} {U V : List Token → Prop}

/-- A failure of a run on `c`. It stands behind tokens with a property, and if it depends on a
number that is missing behind a `-`, a number in place of the `-` has the property too. The reader
`s` fails wherever a cursor shows the tokens that the failure depends on. -/
structure Fault (s : Reader α) (c d : Cursor) (V : List Token → Prop) (e : ParseError)
    (items : List Located) (c' : Cursor) : Prop where
  passes : c.Passes items c'
  stands : ∃ what, e = c'.failure what
  begins : V (items.map Located.token)
  number : e.reach = 2 → ∃ digits, V (items.map Located.token ++ [.number digits])
  stuck : ∀ k, Agree k c d → items.length + e.reach ≤ k → ∀ x, s d ≠ .ok x

/-- A run of `r` on `c` is compared with one of `s` on `d`. If the first succeeds, the second gives
the same or fails, as long as the cursors have the consumed tokens and the next one in common. If
the first fails, it does so at once. -/
structure Prompt (r s : Reader α) (c d : Cursor) (V : List Token → Prop) : Prop where
  ok : ∀ a c₁, r c = .ok (a, c₁) → ∃ items, c.Passes items c₁ ∧ ∀ k b d₁, Agree k c d →
    items.length < k → s d = .ok (b, d₁) → b = a ∧ Agree (k - items.length) c₁ d₁
  fault : ∀ e, r c = .error e → ∃ items c', Fault s c d V e items c'

/-- All that matters of the readers is what they do on the two cursors. -/
theorem Prompt.of_run (h : Prompt r s c d V) (hr : r' c = r c) (hs : s' d = s d) :
    Prompt r' s' c d V := by
  refine ⟨fun a c₁ hrun => ?_, fun e hrun => ?_⟩
  · rw [hs]
    exact h.ok a c₁ (hr ▸ hrun)
  · obtain ⟨items, c', hfault⟩ := h.fault e (hr ▸ hrun)
    refine ⟨items, c', { hfault with stuck := ?_ }⟩
    rw [hs]
    exact hfault.stuck

/-- A weaker property, which may use that the tokens begin with a `-` only if the cursor shows
one. -/
theorem Prompt.imp_of_front (h : Prompt r s c d U)
    (hV : ∀ ts, (ts.head? = some (.operator .subtract) → c.peek = .operator .subtract) → U ts →
      V ts) : Prompt r s c d V := by
  refine ⟨h.ok, fun e hrun => ?_⟩
  obtain ⟨items, c', hfault⟩ := h.fault e hrun
  have hvisible := hfault.passes.visible
  -- A `-` in front is the first token consumed, and that is what the cursor shows.
  have hfront : ∀ more : List Token, more.head? ≠ some (.operator .subtract) →
      (items.map Located.token ++ more).head? = some (.operator .subtract) →
      c.peek = .operator .subtract := by
    intro more hmore hhead
    cases items with
    | nil => exact absurd hhead hmore
    | cons item items =>
      rw [(Cursor.peek_of_visible hvisible).1]
      exact Option.some.inj hhead
  refine ⟨items, c', { hfault with begins := ?_, number := fun hreach => ?_ }⟩
  · refine hV _ (fun hhead => hfront [] (by simp) ?_) hfault.begins
    rwa [List.append_nil]
  · obtain ⟨digits, hdigits⟩ := hfault.number hreach
    exact ⟨digits, hV _ (hfront _ (by simp)) hdigits⟩

/-- A property that the tokens before a failure have can be replaced by a weaker one. -/
theorem Prompt.imp (h : Prompt r s c d U) (hV : ∀ ts, U ts → V ts) : Prompt r s c d V :=
  h.imp_of_front fun ts _ => hV ts

/-- A second run that fails is in order. -/
theorem Prompt.of_stuck (h : Prompt r s c d V) (hs : ∀ x, s' d ≠ .ok x) : Prompt r s' c d V := by
  refine ⟨fun a c₁ hrun => ?_, fun e hrun => ?_⟩
  · obtain ⟨items, hpasses, -⟩ := h.ok a c₁ hrun
    exact ⟨items, hpasses, fun k b d₁ _ _ hd => absurd hd (hs _)⟩
  · obtain ⟨items, c', hfault⟩ := h.fault e hrun
    exact ⟨items, c', { hfault with stuck := fun _ _ _ => hs }⟩

/-- Where the next tokens differ, nothing is asked of the second run. -/
theorem Prompt.of_peek_ne (h : Prompt r s c d V) (hne : c.peek ≠ d.peek) : Prompt r s' c d V := by
  -- The cursors have no token in common.
  have hzero : ∀ k, Agree k c d → k = 0 := fun k hagree =>
    (Nat.eq_zero_or_pos k).resolve_right fun hk => hne (hagree.peek hk)
  refine ⟨fun a c₁ hrun => ?_, fun e hrun => ?_⟩
  · obtain ⟨items, hpasses, -⟩ := h.ok a c₁ hrun
    refine ⟨items, hpasses, fun k b d₁ hagree hlt => ?_⟩
    rw [hzero k hagree] at hlt
    exact absurd hlt (Nat.not_lt_zero _)
  · obtain ⟨items, c', hfault⟩ := h.fault e hrun
    refine ⟨items, c', { hfault with stuck := fun k hagree hle => ?_ }⟩
    have hreach := e.reach_cases
    rw [hzero k hagree] at hle
    omega

theorem bind_of_ok {f : α → Reader β} {a : α} {c₁ : Cursor} (h : r c = .ok (a, c₁)) :
    (r >>= f) c = f a c₁ := by
  simp [StateT.bind, Bind.bind, Except.bind, h]

theorem bind_of_error {f : α → Reader β} {e : ParseError} (h : r c = .error e) :
    (r >>= f) c = .error e := by
  simp [StateT.bind, Bind.bind, Except.bind, h]

/-- After its first reader the second run goes on somewhere, with the value of the first run. If
that reader has failed, any place will do. -/
theorem exists_second_run {g : α → Reader β} {a : α} {c₁ : Cursor} {n : Nat}
    (hok : ∀ k b d₁, Agree k c d → n < k → s d = .ok (b, d₁) → b = a ∧ Agree (k - n) c₁ d₁) :
    ∃ d₁, (∀ result, s d = .ok result → result.2 = d₁) ∧ ∀ k x, Agree k c d → n < k →
      (s >>= g) d = .ok x → Agree (k - n) c₁ d₁ ∧ g a d₁ = .ok x := by
  cases hs : s d with
  | error e =>
    refine ⟨d, fun result hresult => (by cases hresult), fun k x _ _ hx => ?_⟩
    rw [bind_of_error hs] at hx
    cases hx
  | ok result =>
    obtain ⟨b, d₁⟩ := result
    refine ⟨d₁, fun result hresult => (by cases hresult; rfl), fun k x hagree hlt hx => ?_⟩
    obtain ⟨rfl, hagree₁⟩ := hok k b d₁ hagree hlt hs
    rw [bind_of_ok hs] at hx
    exact ⟨hagree₁, hx⟩

/-- Chaining. The first reader has consumed some tokens, which come before those of the second. -/
theorem Prompt.bind {f g : α → Reader β} {Q : α → Cursor → Prop} (h : Prompt r s c d U)
    (hU : ∀ ts, U ts → V ts) (hreads : Reads r c Q)
    (hf : ∀ a c₁ d₁ ts, c.visible = ts ++ c₁.visible → Q a c₁ →
      (∀ result, s d = .ok result → result.2 = d₁) →
      Prompt (f a) (g a) c₁ d₁ fun us => V (ts ++ us)) :
    Prompt (r >>= f) (s >>= g) c d V := by
  -- Where the first reader fails the chain does, with the same failure.
  cases hr : r c with
  | error e =>
    have hrun := bind_of_error (f := f) hr
    refine ⟨fun b c₂ hok => ?_, fun e' herror => ?_⟩
    · rw [hrun] at hok
      cases hok
    · rw [hrun] at herror
      cases herror
      obtain ⟨items, c', hfault⟩ := (h.imp hU).fault e hr
      refine ⟨items, c', { hfault with stuck := fun k hagree hle x hx => ?_ }⟩
      cases hs : s d with
      | error e' =>
        rw [bind_of_error hs] at hx
        cases hx
      | ok result => exact hfault.stuck k hagree hle result hs
  | ok result =>
    obtain ⟨a, c₁⟩ := result
    obtain ⟨items, hpasses, hok⟩ := h.ok a c₁ hr
    obtain ⟨d₁, hd₁, hnext⟩ := exists_second_run (g := g) hok
    have hf' := hf a c₁ d₁ _ hpasses.visible (hreads a c₁ hr) hd₁
    have hrun := bind_of_ok (f := f) hr
    -- The tokens that the cursors have in common are used up from the front.
    refine ⟨fun b c₂ hb => ?_, fun e he => ?_⟩
    · obtain ⟨more, hmore, hok'⟩ := hf'.ok b c₂ (hrun ▸ hb)
      refine ⟨items ++ more, hpasses.trans hmore, fun k b' d₂ hagree hlt hd => ?_⟩
      rw [List.length_append] at hlt ⊢
      obtain ⟨hagree₁, hg⟩ := hnext k _ hagree (by omega) hd
      rw [← Nat.sub_sub]
      exact hok' _ b' d₂ hagree₁ (by omega) hg
    · obtain ⟨more, c', hfault⟩ := hf'.fault e (hrun ▸ he)
      refine ⟨items ++ more, c', hpasses.trans hfault.passes, hfault.stands, ?_, ?_, ?_⟩
      · rw [List.map_append]
        exact hfault.begins
      · intro hreach
        obtain ⟨digits, hdigits⟩ := hfault.number hreach
        exact ⟨digits, by rwa [List.map_append, List.append_assoc]⟩
      · intro k hagree hle x hx
        have hreach := e.reach_cases
        rw [List.length_append] at hle
        obtain ⟨hagree₁, hg⟩ := hnext k _ hagree (by omega) hx
        exact hfault.stuck _ hagree₁ (by omega) x hg

/-- Chaining after a reader whose tokens write its value. -/
theorem Prompt.spans {f g : α → Reader β} {written : List Token → α → Prop}
    (h : Prompt r s c d U) (hU : ∀ ts, U ts → V ts) (hreads : Reads r c (Spans written c))
    (hf : ∀ a c₁ d₁ ts, c.visible = ts ++ c₁.visible → written ts a →
      Prompt (f a) (g a) c₁ d₁ fun us => V (ts ++ us)) :
    Prompt (r >>= f) (s >>= g) c d V := by
  refine h.bind hU hreads fun a c₁ d₁ ts hts hspans _ => ?_
  -- The tokens consumed are determined by what is left.
  obtain ⟨us, hus, hwritten⟩ := hspans
  obtain rfl : ts = us := List.append_cancel_right (hts.symm.trans hus)
  exact hf a c₁ d₁ ts hts hwritten

/-- A reader that reads nothing gives the same on both. -/
theorem prompt_pure (a : α) : Prompt (pure a) (pure a) c d V := by
  refine ⟨fun b c₁ hrun => ?_, fun e hrun => by cases hrun⟩
  cases hrun
  refine ⟨[], .refl c, fun k b d₁ hagree _ hrun => ?_⟩
  cases hrun
  exact ⟨rfl, hagree⟩

/-- What is made of the value of a reader does not matter. -/
theorem Prompt.then_pure {f : α → β} (h : Prompt r s c d U) (hU : ∀ ts, U ts → V ts) :
    Prompt (r >>= fun a => pure (f a)) (s >>= fun a => pure (f a)) c d V :=
  h.bind hU (fun _ _ _ => trivial) fun a _ _ _ _ _ _ => prompt_pure (f a)

/-- A reader that fails has consumed nothing, so nothing has to have the property. -/
theorem prompt_fail {what what' : Expectation} (hV : V [])
    (hnumber : (c.failure what).reach = 2 → ∃ digits, V [.number digits]) :
    Prompt (fail what : Reader α) (fail what') c d V := by
  refine ⟨fun a c₁ hrun => (by cases hrun), fun e hrun => ?_⟩
  cases hrun
  exact ⟨[], c, .refl c, ⟨what, rfl⟩, hV, hnumber, fun _ _ _ _ hx => by cases hx⟩

/-- A failure to find something that no `-` can begin. -/
theorem prompt_fail_unsigned {what what' : Expectation} (hwhat : what.signed = false)
    (hV : V []) : Prompt (fail what : Reader α) (fail what') c d V := by
  refine prompt_fail hV fun hreach => ?_
  rw [Cursor.reach_failure fun _ => hwhat] at hreach
  exact absurd hreach (by decide)

/-- A step consumes one token on both, whatever it is. -/
theorem prompt_advance (h : c.peek ≠ .eof) : Prompt advance advance c d V := by
  refine ⟨fun u c₁ hrun => ?_, fun e hrun => by cases hrun⟩
  cases hrun
  obtain ⟨item, hpasses⟩ := Cursor.passes_advance h
  refine ⟨[item], hpasses, fun k b d₁ hagree _ hrun => ?_⟩
  cases hrun
  exact ⟨rfl, hagree.advance⟩

/-- A reader that looks at the next token has to be compared for one token only. For two different
ones nothing is asked. -/
theorem prompt_peek {f g : Token → Reader α}
    (h : ∀ t, c.peek = t → Prompt (f t) (g t) c d V) : Prompt (peek >>= f) (peek >>= g) c d V := by
  -- For a different next token the second run is left out.
  by_cases hpeek : d.peek = c.peek
  · have hd : (peek >>= g) d = g c.peek d := hpeek ▸ rfl
    exact (h _ rfl).of_run rfl hd
  · exact ((h _ rfl).of_peek_ne fun heq => hpeek heq.symm).of_run rfl rfl

/-- A reader that tests the next token. -/
theorem prompt_test {p : Token → Bool} {yes no yes' no' : Reader α}
    (hyes : p c.peek = true → Prompt yes yes' c d V)
    (hno : p c.peek = false → Prompt no no' c d V) :
    Prompt (peek >>= fun t => if p t then yes else no) (peek >>= fun t => if p t then yes' else no')
      c d V := by
  refine prompt_peek fun t ht => ?_
  subst ht
  cases hp : p c.peek with
  | true => exact hyes hp
  | false => exact hno hp

/-- A reader that asks for one token. -/
theorem prompt_sees {t : Token} {yes no yes' no' : Reader α}
    (hyes : c.peek = t → Prompt yes yes' c d V) (hno : c.peek ≠ t → Prompt no no' c d V) :
    Prompt (do if ← sees t then yes else no) (do if ← sees t then yes' else no') c d V := by
  have htest := prompt_test (p := (· == t)) (fun h => hyes (eq_of_beq h)) fun h =>
    hno (ne_of_beq_false h)
  exact htest.of_run rfl rfl

theorem prompt_seesKeyword {keyword : Keyword} {yes no yes' no' : Reader α}
    (hyes : c.peek = keyword.token → Prompt yes yes' c d V)
    (hno : c.peek ≠ keyword.token → Prompt no no' c d V) :
    Prompt (do if ← seesKeyword keyword then yes else no)
      (do if ← seesKeyword keyword then yes' else no') c d V := by
  have htest := prompt_test (p := Token.isKeyword keyword)
    (fun h => hyes (Token.isKeyword_iff.1 h))
    fun h => hno fun heq => Bool.eq_false_iff.1 h (Token.isKeyword_iff.2 heq)
  exact htest.of_run rfl rfl

/-- A token that has to come next is there or is a failure at once. -/
theorem prompt_expect {t : Token} (ht : (t == .eof) = false) (hV : V []) :
    Prompt (expect t) (expect t) c d V :=
  prompt_sees (fun hpeek => prompt_advance (hpeek ▸ ne_of_beq_false ht)) fun _ =>
    prompt_fail_unsigned rfl hV

theorem prompt_expectKeyword (keyword : Keyword) (hV : V []) :
    Prompt (expectKeyword keyword) (expectKeyword keyword) c d V :=
  prompt_seesKeyword (fun hpeek => prompt_advance (hpeek ▸ by simp [Keyword.token])) fun _ =>
    prompt_fail_unsigned rfl hV

/-- The end of the input is consumed and still there. -/
theorem prompt_expect_end (hV : V []) : Prompt (expect .eof) (expect .eof) c d V := by
  refine prompt_sees (fun hpeek => ?_) fun _ => prompt_fail_unsigned rfl hV
  refine ⟨fun u c₁ hrun => ?_, fun e hrun => by cases hrun⟩
  cases hrun
  -- A step at the end stays there, so no token has been passed.
  have hstays : c.advance.cut.rest = c.cut.rest := by
    obtain ⟨rest, last⟩ := c
    cases rest with
    | nil => rfl
    | cons item rest =>
      have hadvance : Cursor.advance ⟨item :: rest, last⟩ = ⟨item :: rest, item.position⟩ :=
        if_pos hpeek
      rw [hadvance]
      rfl
  refine ⟨[], ⟨hstays.symm, fun _ h => absurd h List.not_mem_nil⟩, fun k b d₁ hagree hk hrun => ?_⟩
  cases hrun
  have hd : d.peek = .eof := (hagree.peek hk).symm.trans hpeek
  refine ⟨rfl, ?_⟩
  unfold Agree
  rw [c.visible_advance, d.visible_advance, Cursor.visible_eq_nil hpeek, Cursor.visible_eq_nil hd]

/-- A name has to come next. The condition is for the names that an operand begins with, in whose
place a number might be. -/
theorem prompt_expectName {what : Expectation} (hV : V [])
    (hwhat : c.peek = .operator .subtract → what.signed = false) :
    Prompt (expectName what) (expectName what) c d V := by
  have hfail : Prompt (fail what : Reader String) (fail what) c d V := by
    refine prompt_fail hV fun hreach => ?_
    rw [Cursor.reach_failure hwhat] at hreach
    exact absurd hreach (by decide)
  refine prompt_peek fun t ht => ?_
  cases t with
  | ident name =>
    dsimp only
    by_cases hreserved : Keyword.isReserved name = true
    · rw [if_pos hreserved]
      exact hfail
    · rw [if_neg hreserved]
      exact (prompt_advance (ht ▸ by simp)).then_pure fun _ h => h
  | _ => exact hfail

/-! ### Chaining after tokens and names -/

/-- Chaining after a token that has been seen, which comes first in the property of the rest. -/
theorem prompt_advance_then {f g : Unit → Reader α} {t : Token} (hpeek : c.peek = t)
    (ht : (t == .eof) = false)
    (hf : ∀ c₁ d₁, c.visible = t :: c₁.visible → Prompt (f ()) (g ()) c₁ d₁ fun us => V (t :: us)) :
    Prompt (advance >>= f) (advance >>= g) c d V := by
  refine (prompt_advance (hpeek ▸ ne_of_beq_false ht)).bind (fun _ h => h)
    (reads_advance hpeek ht) fun _ c₁ d₁ ts hts h _ => ?_
  obtain rfl : ts = [t] := List.append_cancel_right (hts.symm.trans h)
  exact hf c₁ d₁ h

/-- Chaining after a token that has to come next. -/
theorem prompt_expect_then {f g : Unit → Reader α} {t : Token} (ht : (t == .eof) = false)
    (hV : V [])
    (hf : ∀ c₁ d₁, c.visible = t :: c₁.visible → Prompt (f ()) (g ()) c₁ d₁ fun us => V (t :: us)) :
    Prompt (expect t >>= f) (expect t >>= g) c d V := by
  refine (prompt_expect ht hV).bind (fun _ h => h) (reads_expect ht) fun _ c₁ d₁ ts hts h _ => ?_
  obtain rfl : ts = [t] := List.append_cancel_right (hts.symm.trans h)
  exact hf c₁ d₁ h

theorem prompt_expectKeyword_then {f g : Unit → Reader α} {keyword : Keyword} (hV : V [])
    (hf : ∀ c₁ d₁, c.visible = keyword.token :: c₁.visible →
      Prompt (f ()) (g ()) c₁ d₁ fun us => V (keyword.token :: us)) :
    Prompt (expectKeyword keyword >>= f) (expectKeyword keyword >>= g) c d V := by
  refine (prompt_expectKeyword keyword hV).bind (fun _ h => h) (reads_expectKeyword keyword)
    fun _ c₁ d₁ ts hts h _ => ?_
  obtain rfl : ts = [keyword.token] := List.append_cancel_right (hts.symm.trans h)
  exact hf c₁ d₁ h

theorem prompt_expectName_then {f g : String → Reader α} {what : Expectation} (hV : V [])
    (hwhat : what.signed = false)
    (hf : ∀ name c₁ d₁, Grammar.Name name → c.visible = .ident name :: c₁.visible →
      Prompt (f name) (g name) c₁ d₁ fun us => V (.ident name :: us)) :
    Prompt (expectName what >>= f) (expectName what >>= g) c d V := by
  refine (prompt_expectName hV fun _ => hwhat).bind (fun _ h => h) (reads_expectName what)
    fun name c₁ d₁ ts hts h _ => ?_
  obtain rfl : ts = [.ident name] := List.append_cancel_right (hts.symm.trans h.2)
  exact hf name c₁ d₁ h.1 h.2

/-! ### Bounds -/

/-- Two readers that are alike succeed together, up to what comes after the end of the input. -/
theorem exists_run_of_alike {a : α} {c₁ : Cursor} (h : Alike r r' c) (h' : Alike r' r' c)
    (hrun : r' c = .ok (a, c₁)) : ∃ c₂, r c = .ok (a, c₂) ∧ c₂.cut = c₁.cut := by
  have hsame := h.symm.trans h'
  rw [hrun] at hsame
  cases hr : r c with
  | error e =>
    rw [hr] at hsame
    cases hsame
  | ok result =>
    rw [hr] at hsame
    obtain ⟨hvalue, hcut⟩ := Prod.mk.inj (Except.ok.inj hsame)
    exact ⟨result.2, congrArg Except.ok (Prod.ext hvalue rfl), hcut⟩

/-- Two readers that are alike fail together, with the same error. -/
theorem error_of_alike {e : ParseError} (h : Alike r r' c) (h' : Alike r' r' c)
    (hrun : r' c = .error e) : r c = .error e := by
  have hsame := h.symm.trans h'
  rw [hrun] at hsame
  cases hr : r c with
  | error e' =>
    rw [hr] at hsame
    exact hsame
  | ok result =>
    rw [hr] at hsame
    cases hsame

/-- Readers that differ in their bounds at most. -/
theorem Prompt.alike (h : Prompt r s c d V) (hc : Alike r r' c) (hc' : Alike r' r' c)
    (hd : Alike s s' d) (hd' : Alike s' s' d) : Prompt r' s' c d V := by
  refine ⟨fun a c₁ hrun => ?_, fun e hrun => ?_⟩
  · obtain ⟨c₂, hrun₂, hcut⟩ := exists_run_of_alike hc hc' hrun
    obtain ⟨items, hpasses, hfollows⟩ := h.ok a c₂ hrun₂
    refine ⟨items, ⟨hcut ▸ hpasses.1, hpasses.2⟩, fun k b d₁ hagree hlt hd₁ => ?_⟩
    obtain ⟨d₂, hrun', hcut'⟩ := exists_run_of_alike hd hd' hd₁
    obtain ⟨hvalue, hagree₂⟩ := hfollows k b d₂ hagree hlt hrun'
    refine ⟨hvalue, ?_⟩
    unfold Agree at hagree₂ ⊢
    rwa [← c₁.visible_cut, ← d₁.visible_cut, ← hcut, ← hcut', Cursor.visible_cut,
      Cursor.visible_cut]
  · obtain ⟨items, c', hfault⟩ := h.fault e (error_of_alike hc hc' hrun)
    refine ⟨items, c', { hfault with stuck := fun k hagree hle x hx => ?_ }⟩
    obtain ⟨b, d₁⟩ := x
    obtain ⟨d₂, hrun', -⟩ := exists_run_of_alike hd hd' hx
    exact hfault.stuck k hagree hle _ hrun'

/-- With one bound for both runs a reader stops on both at once, and larger bounds change
nothing. -/
theorem Prompt.bounds {r s : Nat → Reader α} {b b' : Nat}
    (hr : ∀ b b' c, c.visible.length ≤ b → c.visible.length ≤ b' → Alike (r b) (r b') c)
    (hs : ∀ b b' c, c.visible.length ≤ b → c.visible.length ≤ b' → Alike (s b) (s b') c)
    (h : ∀ bound, Prompt (r bound) (s bound) c d V) (hc : c.visible.length ≤ b)
    (hd : d.visible.length ≤ b') : Prompt (r b) (s b') c d V := by
  -- Both are compared with the larger bound.
  have hleft := Nat.le_trans hc (Nat.le_max_left b b')
  have hright := Nat.le_trans hd (Nat.le_max_right b b')
  exact (h (max b b')).alike (hr _ _ c hleft hc) (hr _ _ c hc hc) (hs _ _ d hright hd)
    (hs _ _ d hd hd)

/-- Readers whose bound has to be larger than the number of tokens. -/
theorem Prompt.bounds_succ {r s : Nat → Reader α}
    (hr : ∀ b b' c, c.visible.length < b → c.visible.length < b' → Alike (r b) (r b') c)
    (hs : ∀ b b' c, c.visible.length < b → c.visible.length < b' → Alike (s b) (s b') c)
    (h : ∀ bound, Prompt (r bound) (s bound) c d V) :
    Prompt (r (c.rest.length + 1)) (s (d.rest.length + 1)) c d V :=
  Prompt.bounds (r := fun b => r (b + 1)) (s := fun b => s (b + 1))
    (fun _ _ c hb hb' => hr _ _ c (Nat.lt_succ_of_le hb) (Nat.lt_succ_of_le hb'))
    (fun _ _ c hb hb' => hs _ _ c (Nat.lt_succ_of_le hb) (Nat.lt_succ_of_le hb'))
    (fun bound => h (bound + 1)) c.length_visible_le d.length_visible_le

/-- The number of tokens left is the bound of the readers behind it, on each cursor its own. -/
theorem prompt_remaining {f g : Nat → Reader α}
    (h : Prompt (f c.rest.length) (g d.rest.length) c d V) :
    Prompt (remaining >>= f) (remaining >>= g) c d V :=
  h.of_run rfl rfl

/-! ### Constants -/

open Grammar (Begins)

theorem prompt_some (h : Prompt r s c d V) : Prompt (some <$> r) (some <$> s) c d V := by
  have hbind : Prompt (r >>= fun a => pure (some a)) (s >>= fun a => pure (some a)) c d V :=
    h.then_pure fun _ h => h
  exact hbind

/-- The digits of a number, whose sign has been read. -/
theorem prompt_number (negative : Bool) (hV : V []) :
    Prompt (number negative) (number negative) c d V := by
  refine prompt_peek fun t ht => ?_
  cases t with
  | number digits =>
    dsimp only
    cases Text.readInt? digits with
    | none => exact prompt_fail_unsigned rfl hV
    | some n =>
      exact (prompt_advance (ht ▸ by simp)).then_pure fun _ h => h
  | _ => exact prompt_fail_unsigned rfl hV

/-- A minus sign with no number directly after it. -/
def LoneMinus (c : Cursor) : Prop :=
  c.peek = .operator .subtract ∧ ∀ digits, c.advance.peek ≠ .number digits

theorem peekSecond_of_minus {t : Token} (hpeek : c.peek = .operator .subtract)
    (ht : c.advance.peek = t) : peekSecond c = .ok (t, c) := by
  rcases c.peek_cases with ⟨-, heof, -⟩ | ⟨-, -, hsecond⟩
  · rw [hpeek] at heof
    cases heof
  · rw [peekSecond, hsecond, ht]

/-- With a number directly behind it, a `-` is its sign. -/
theorem literal?_of_negative {digits : String} (hpeek : c.peek = .operator .subtract)
    (hnumber : c.advance.peek = .number digits) :
    literal? c = (some <$> number true) c.advance := by
  have hminus : peek c = .ok (.operator .subtract, c) := by rw [peek, hpeek]
  rw [literal?, bind_of_ok hminus]
  dsimp only
  rw [bind_of_ok (peekSecond_of_minus hpeek hnumber)]
  rfl

/-- No constant begins with a `-` that has no number behind it, and nothing is consumed. -/
theorem literal?_of_loneMinus (h : LoneMinus c) : literal? c = .ok (none, c) := by
  have hminus : peek c = .ok (.operator .subtract, c) := by rw [peek, h.1]
  rw [literal?, bind_of_ok hminus]
  dsimp only
  rw [bind_of_ok (peekSecond_of_minus h.1 rfl)]
  cases hsecond : c.advance.peek with
  | number digits => exact absurd hsecond (h.2 digits)
  | _ => rfl

/-- Two common tokens are enough to see that a `-` is alone. -/
theorem LoneMinus.of_agree {k : Nat} (h : LoneMinus c) (hagree : Agree k c d) (hk : 2 ≤ k) :
    LoneMinus d := by
  refine ⟨(hagree.peek (by omega)).symm.trans h.1, fun digits => ?_⟩
  rw [← hagree.advance.peek (by omega)]
  exact h.2 digits

/-- One token is consumed, and a second run goes on after it. -/
theorem prompt_step (hpeek : c.peek ≠ .eof) (hr : r' c = r c.advance) (hs : s' d = s d.advance)
    (h : Prompt r s c.advance d.advance fun us => V (c.peek :: us)) : Prompt r' s' c d V := by
  have hadvance : Prompt (advance >>= fun _ => r) (advance >>= fun _ => s) c d V := by
    refine (prompt_advance hpeek).bind (fun _ h => h) (Q := fun _ c₁ => c₁ = c.advance)
      (fun _ _ hrun => by cases hrun; rfl) fun _ c₁ d₁ ts hts hc₁ hd₁ => ?_
    obtain rfl : d.advance = d₁ := hd₁ _ rfl
    subst hc₁
    obtain rfl : ts = [c.peek] :=
      List.append_cancel_right (hts.symm.trans (Cursor.visible_of_peek rfl hpeek))
    exact h
  exact hadvance.of_run hr hs

/-- A constant with a sign is decided by two tokens, both of which are consumed. -/
theorem prompt_literal?_of_negative {digits : String} (hpeek : c.peek = .operator .subtract)
    (hnumber : c.advance.peek = .number digits) :
    Prompt literal? literal? c d (Begins Grammar.Literal) := by
  have hne : c.peek ≠ .eof := by simp [hpeek]
  have hbegins : Begins Grammar.Literal [c.peek] := by
    rw [hpeek]
    exact ⟨[.number "0"], _, .negative (by decide : Text.readInt? "0" = some 0)⟩
  have hrest : Prompt (some <$> number true) (some <$> number true) c.advance d.advance
      fun us => Begins Grammar.Literal (c.peek :: us) :=
    prompt_some (prompt_number true hbegins)
  have hrun := literal?_of_negative hpeek hnumber
  by_cases hpeek' : c.peek = d.peek
  · by_cases hsecond : c.advance.peek = d.advance.peek
    · have hrun' := literal?_of_negative (hpeek'.symm.trans hpeek) (hsecond.symm.trans hnumber)
      exact prompt_step hne hrun hrun' hrest
    · -- The second cursor shows something else after the `-`, and then nothing is asked.
      exact prompt_step (s := fun _ => literal? d) hne hrun rfl (hrest.of_peek_ne hsecond)
  · have hstep : Prompt literal? (advance >>= fun _ => some <$> number true) c d
        (Begins Grammar.Literal) := prompt_step hne hrun rfl hrest
    exact hstep.of_peek_ne hpeek'

/-- A constant, or none, where no `-` is alone. -/
theorem prompt_literal? (h : ¬ LoneMinus c) :
    Prompt literal? literal? c d (Begins Grammar.Literal) := by
  have hnil := Grammar.begins_nil Grammar.literal_zero
  by_cases hminus : c.peek = .operator .subtract
  · have hnumber : ∃ digits, c.advance.peek = .number digits :=
      Classical.byContradiction fun hnone => h ⟨hminus, fun digits heq => hnone ⟨digits, heq⟩⟩
    obtain ⟨digits, hnumber⟩ := hnumber
    exact prompt_literal?_of_negative hminus hnumber
  refine prompt_peek fun t ht => ?_
  -- The words `true` and `false` are tried in turn, and what is left reads nothing.
  have hword : ∀ (keyword : Keyword) (value : Literal) {no : Reader (Option Literal)},
      Prompt no no c d (Begins Grammar.Literal) →
      Prompt (if t.isKeyword keyword then (do advance; return some value) else no)
        (if t.isKeyword keyword then (do advance; return some value) else no) c d
        (Begins Grammar.Literal) := by
    intro keyword value no hno
    by_cases hkeyword : t = keyword.token
    · rw [if_pos (Token.isKeyword_iff.2 hkeyword)]
      exact prompt_advance_then (ht.trans hkeyword) rfl fun _ _ _ => prompt_pure _
    · rw [if_neg fun heq => hkeyword (Token.isKeyword_iff.1 heq)]
      exact hno
  have hwords := hword .true_ (.bool true) (hword .false_ (.bool false) (prompt_pure none))
  cases t with
  | number digits => exact prompt_some (prompt_number false hnil)
  | operator op =>
    cases op with
    | subtract => exact absurd ht hminus
    | _ => exact hwords
  | _ => exact hwords

/-- Where no `-` is alone, no constant means that the next token is no `-`. -/
theorem reads_literal?_of_not_loneMinus (h : ¬ LoneMinus c) :
    Reads literal? c fun value c' => (value = none ∧ c' = c ∧ c.peek ≠ .operator .subtract)
      ∨ ∃ v, value = some v ∧ Spans Grammar.Literal c v c' := by
  intro value c' hrun
  rcases reads_literal? value c' hrun with ⟨rfl, rfl⟩ | hsome
  · refine Or.inl ⟨rfl, rfl, fun hminus => h ⟨hminus, fun digits hnumber => ?_⟩⟩
    rw [literal?_of_negative hminus hnumber] at hrun
    obtain ⟨v, hv, -⟩ := reads_some (reads_number true) _ _ hrun
    cases hv
  · exact Or.inr hsome

/-- A reader that takes no constant and then fails for a sign alone. -/
theorem prompt_of_loneMinus {f : Option Literal → Reader α} {what : Expectation} (h : LoneMinus c)
    (hwhat : what.signed = true)
    (hf : ∀ c', LoneMinus c' → f none c' = .error (c'.failure what)) (hV : V [])
    (hnumber : V [.number "0"]) : Prompt (literal? >>= f) (literal? >>= f) c d V := by
  have hrun : ∀ c', LoneMinus c' → (literal? >>= f) c' = .error (c'.failure what) := by
    intro c' h'
    rw [bind_of_ok (literal?_of_loneMinus h'), hf c' h']
  -- The failure depends on the token behind the `-` too.
  have hreach : (c.failure what).reach = 2 := by
    obtain ⟨hfound, hexpected⟩ := c.failure_eq what
    rw [ParseError.reach, hfound, hexpected, if_pos ⟨h.1, hwhat⟩]
  refine ⟨fun a c₁ hok => ?_, fun e herror => ?_⟩
  · rw [hrun c h] at hok
    cases hok
  · rw [hrun c h] at herror
    cases herror
    refine ⟨[], c, .refl c, ⟨what, rfl⟩, hV, fun _ => ⟨"0", hnumber⟩, fun k hagree hle x hx => ?_⟩
    rw [hreach] at hle
    rw [hrun d (h.of_agree hagree (by simpa using hle))] at hx
    cases hx

theorem prompt_literal : Prompt literal literal c d (Begins Grammar.Literal) := by
  have hnil := Grammar.begins_nil Grammar.literal_zero
  by_cases h : LoneMinus c
  · exact prompt_of_loneMinus h rfl (fun _ _ => rfl) hnil (Grammar.begins_of_written
      Grammar.literal_zero)
  · -- No constant was read, and no `-` is alone: the failure is decided by its own token.
    refine (prompt_literal? h).bind (fun _ h => h) (reads_literal?_of_not_loneMinus h)
      fun value c₁ d₁ ts hts h₁ _ => ?_
    rcases h₁ with ⟨rfl, rfl, hminus⟩ | ⟨v, rfl, -⟩
    · obtain rfl : ts = [] := List.append_cancel_right (hts.symm.trans (List.nil_append _).symm)
      refine prompt_fail hnil fun hreach => ?_
      rw [Cursor.reach_failure fun heq => absurd heq hminus] at hreach
      exact absurd hreach (by decide)
    · exact prompt_pure v

/-! ### Operands and expressions -/

/-- No name begins with a `-`. -/
theorem expectName_of_minus {f : String → Reader α} {what : Expectation}
    (h : c.peek = .operator .subtract) :
    (expectName what >>= f) c = .error (c.failure what) := by
  have hminus : peek c = .ok (.operator .subtract, c) := by rw [peek, h]
  have hfail : expectName what c = .error (c.failure what) := by
    rw [expectName, bind_of_ok hminus]
    rfl
  exact bind_of_error hfail

/-- The readers of operands and of keys, together: each calls the other with a smaller bound. -/
theorem prompt_termWithin_and_keysWithin (bound : Nat) :
    (∀ c d, Prompt (termWithin bound) (termWithin bound) c d (Begins Grammar.Term))
      ∧ ∀ c d, Prompt (keysWithin bound) (keysWithin bound) c d (Begins Grammar.Keys) := by
  have hnil := Grammar.begins_nil Grammar.term_zero
  have hzero := Grammar.begins_of_written Grammar.term_zero
  induction bound with
  | zero =>
    refine ⟨fun c d => ?_, fun c d => prompt_pure []⟩
    exact prompt_fail hnil fun _ => ⟨_, hzero⟩
  | succ bound ih =>
    refine ⟨fun c d => ?_, fun c d => ?_⟩
    · by_cases h : LoneMinus c
      · exact prompt_of_loneMinus h rfl (fun _ h' => expectName_of_minus h'.1) hnil hzero
      -- A constant is an operand of its own, and otherwise a name with keys is.
      refine (prompt_literal? h).bind ?_ (reads_literal?_of_not_loneMinus h)
        fun value c₁ d₁ ts hts h₁ _ => ?_
      · rintro ts ⟨us, v, hv⟩
        exact ⟨us, _, .literal hv⟩
      rcases h₁ with ⟨rfl, rfl, hminus⟩ | ⟨v, rfl, -⟩
      · obtain rfl : ts = [] := List.append_cancel_right (hts.symm.trans (List.nil_append _).symm)
        refine (prompt_expectName hnil fun heq => absurd heq hminus).bind (fun _ h => h)
          (reads_expectName _) fun base c₂ d₂ ts hts h₂ _ => ?_
        obtain rfl : ts = [.ident base] := List.append_cancel_right (hts.symm.trans h₂.2)
        refine (ih.2 c₂ d₂).bind ?_ (fun _ _ _ => trivial) fun keys c₃ d₃ _ _ _ _ => ?_
        · rintro ts ⟨us, keys, hkeys⟩
          obtain ⟨t, ht⟩ := Grammar.exists_term_of_keys h₂.1 hkeys
          exact ⟨us, t, ht⟩
        · cases keys with
          | nil => exact prompt_pure _
          | cons key keys => exact prompt_pure _
      · exact prompt_pure _
    · refine prompt_sees (fun hpeek => ?_) fun _ => prompt_pure []
      refine prompt_advance_then hpeek rfl fun c₁ d₁ _ => ?_
      -- What begins a key can be completed to one entry, by closing it.
      refine (ih.1 c₁ d₁).spans ?_ ((reads_termWithin_and_keysWithin bound).1 c₁)
        fun key c₂ d₂ ts _ hkey => ?_
      · rintro ts ⟨us, key, hkey⟩
        exact ⟨us ++ [.closes .square], _, by simpa using Grammar.Keys.cons hkey .nil⟩
      refine prompt_expect_then rfl ?_ fun c₃ d₃ _ => ?_
      · exact ⟨[.closes .square], _, by simpa using Grammar.Keys.cons hkey .nil⟩
      refine (ih.2 c₃ d₃).then_pure ?_
      rintro us ⟨vs, keys, hkeys⟩
      exact ⟨vs, _, by simpa using Grammar.Keys.cons hkey hkeys⟩

theorem prompt_term : Prompt term term c d (Begins Grammar.Term) := by
  have halike : ∀ b b' c, c.visible.length < b → c.visible.length < b' →
      Alike (termWithin b) (termWithin b') c :=
    fun b => (alike_termWithin_and_keysWithin b).1
  exact prompt_remaining (.bounds_succ halike halike fun bound =>
    (prompt_termWithin_and_keysWithin bound).1 c d)

/-- Operators with their operands. By induction on the bound. -/
theorem prompt_operandsWithin (bound : Nat) (c d : Cursor) :
    Prompt (operandsWithin bound) (operandsWithin bound) c d (Begins Grammar.Operands) := by
  induction bound generalizing c d with
  | zero => exact prompt_pure []
  | succ bound ih =>
    refine prompt_peek fun t ht => ?_
    cases hop : t.operator? with
    | none => exact prompt_pure []
    | some op =>
      obtain rfl := Token.eq_of_operator? hop
      refine prompt_advance_then ht rfl fun c₁ d₁ _ => ?_
      -- An operator that is read needs its operand, and an operand may be the last.
      refine prompt_term.spans ?_ reads_term fun operand c₂ d₂ ts _ hoperand => ?_
      · rintro ts ⟨us, operand, hoperand⟩
        exact ⟨us, _, by simpa using Grammar.Operands.cons hoperand .nil⟩
      refine (ih c₂ d₂).then_pure ?_
      rintro us ⟨vs, pairs, hpairs⟩
      exact ⟨vs, _, by simpa using Grammar.Operands.cons hoperand hpairs⟩

/-- An expression: an operand, and operators with operands behind it. -/
theorem prompt_expression : Prompt expression expression c d (Begins Grammar.Expression) := by
  refine prompt_term.spans ?_ reads_term fun first c₁ d₁ ts _ hfirst => ?_
  · rintro ts ⟨us, first, hfirst⟩
    exact ⟨us, _, by simpa using Grammar.Expression.mk hfirst .nil⟩
  refine prompt_remaining ?_
  have hoperands := Prompt.bounds alike_operandsWithin alike_operandsWithin
    (fun bound => prompt_operandsWithin bound c₁ d₁) c₁.length_visible_le d₁.length_visible_le
  refine hoperands.then_pure ?_
  rintro us ⟨vs, pairs, hpairs⟩
  exact ⟨vs, _, by simpa using Grammar.Expression.mk hfirst hpairs⟩

end Reader

end Covenant
