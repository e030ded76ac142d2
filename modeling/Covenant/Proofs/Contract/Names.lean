import Covenant.Compile
import Covenant.Proofs.Contract.Soundness
import Covenant.Proofs.Word

/-!
# Names

The names in a contract that was read from a text are letters and digits, the first of them a
letter. That matters for memory, where a parameter is kept under its name: the key of a name starts
with a letter, so it is none of the small numbers that are the keys of locals (`key_ne_ofNat`), and
it has no zero byte but those it is filled up with, so different names have different keys
(`key_inj`).

* `IsName` is what the scanner takes for an identifier (`isName_of_scan`).
* `FunctionDeclaration.names` are the names in a function, wherever they stand.
* The names in a tree are among the tokens that the grammar writes it with
  (`Grammar.Contract.ident_mem`), so those of a contract that was read are names (`names_of_parse`).
-/

namespace Covenant

/-- Letters and digits, the first of them a letter. -/
def IsName (name : String) : Prop :=
  ∃ c rest, name = String.ofList (c :: rest) ∧ c.isAlpha = true ∧ ∀ d ∈ rest, d.isAlphanum = true

/-! ### The keys of names -/

/-- Letters and digits are in ASCII, and none of them is NUL. -/
theorem toNat_of_isAlphanum {c : Char} (h : c.isAlphanum = true) : 0 < c.toNat ∧ c.toNat < 128 := by
  delta Char.isAlphanum Char.isAlpha Char.isUpper Char.isLower Char.isDigit at h
  simp only [Bool.or_eq_true, Bool.and_eq_true, decide_eq_true_eq, UInt32.le_iff_toNat_le] at h
  have hval : c.toNat = c.val.toNat := rfl
  rcases h with (⟨hlow, hhigh⟩ | ⟨hlow, hhigh⟩) | ⟨hlow, hhigh⟩
  all_goals
    simp at hlow hhigh
    omega

/-- The bytes of a name: there is at least one, and none of them is zero. -/
theorem ofText_of_isName {name : String} (h : IsName name) :
    ∃ b bytes, Bytes.ofText name = b :: bytes ∧ ∀ x ∈ b :: bytes, x ≠ 0 := by
  obtain ⟨c, rest, rfl, hc, hrest⟩ := h
  have hall : ∀ d ∈ c :: rest, d.isAlphanum = true := by
    intro d hd
    rcases List.mem_cons.1 hd with rfl | hmem
    · exact Bool.or_eq_true_iff.2 (Or.inl hc)
    · exact hrest d hmem
  cases hbytes : Bytes.ofText (String.ofList (c :: rest)) with
  | nil =>
    -- A text without bytes is empty, and a name is not.
    have hback := Bytes.toText?_ofText (String.ofList (c :: rest))
    rw [hbytes] at hback
    have hempty : Bytes.toText? [] = some "" := Bytes.toText?_ofText ""
    rw [hempty] at hback
    have := congrArg String.toList (Option.some.inj hback)
    simp at this
  | cons b bytes =>
    -- A text with a character has a byte, and none of its bytes is zero.
    refine ⟨b, bytes, rfl, fun x hx => ?_⟩
    rw [← hbytes] at hx
    exact Bytes.ne_zero_of_mem_ofText (fun d hd => toNat_of_isAlphanum (hall d hd)) hx

/-- The number of a text's word: that of the bytes of the text, filled up with zeros. -/
theorem toNat_ofText {name : String} {w : Word} (h : Word.ofText name = .ok w) :
    ∃ fill, (Bytes.ofText name ++ List.replicate fill 0).length = Word.size
      ∧ w.toNat = Bytes.toNat (Bytes.ofText name ++ List.replicate fill 0) := by
  obtain ⟨-, hbytes⟩ := Word.toBytes_of_ofText h
  refine ⟨Word.size - (Bytes.ofText name).length, ?_, ?_⟩
  · rw [← hbytes, Word.length_toBytes]
  · rw [← hbytes, Word.toNat_toBytes]

/-- Different names have different keys. -/
theorem key_inj {a b : String} {w : Word} (ha : IsName a) (hb : IsName b)
    (hwa : Word.ofText a = .ok w) (hwb : Word.ofText b = .ok w) : a = b := by
  obtain ⟨fill, hlen, hnat⟩ := toNat_ofText hwa
  obtain ⟨fill', hlen', hnat'⟩ := toNat_ofText hwb
  have hpadded := Bytes.toNat_inj (hlen.trans hlen'.symm) (hnat.symm.trans hnat')
  -- What stands before the first zero byte is the name.
  have hstrip : ∀ {name : String} (n : Nat), IsName name →
      (Bytes.ofText name ++ List.replicate n 0).takeWhile (· != 0) = Bytes.ofText name := by
    intro name n hname
    obtain ⟨c, bytes, hbytes, hall⟩ := ofText_of_isName hname
    rw [hbytes, List.takeWhile_append_of_pos (by simpa using hall)]
    cases n <;> simp [List.replicate_succ]
  have hbytes : Bytes.ofText a = Bytes.ofText b := by
    rw [← hstrip fill ha, ← hstrip fill' hb, hpadded]
  have hback := Bytes.toText?_ofText a
  rw [hbytes, Bytes.toText?_ofText] at hback
  exact (Option.some.inj hback).symm

/-- The key of a name is no small number. -/
theorem key_ne_ofNat {name : String} {w : Word} (h : IsName name) (hw : Word.ofText name = .ok w)
    {i : Nat} (hi : i < Text.indexBound) : w ≠ Word.ofNat i := by
  obtain ⟨fill, hlen, hnat⟩ := toNat_ofText hw
  obtain ⟨b, bytes, hbytes, hall⟩ := ofText_of_isName h
  rw [hbytes, List.cons_append] at hlen hnat
  -- A word has 32 bytes, so behind the first there are 31.
  have hrest : (bytes ++ List.replicate fill 0).length = 31 := Nat.succ.inj hlen
  rw [Bytes.toNat_cons, hrest] at hnat
  have hb : 0 < b.toNat := by
    have := hall b List.mem_cons_self
    rcases Nat.eq_zero_or_pos b.toNat with hzero | hpos
    · exact absurd (UInt8.toNat_inj.1 hzero) this
    · exact hpos
  -- The first byte is the highest of 32, so the word is at least 256^31.
  have hbig : 256 ^ 31 ≤ b.toNat * 256 ^ 31 := Nat.le_mul_of_pos_left _ hb
  have hbound : Text.indexBound < 256 ^ 31 := by decide
  have hwide : Text.indexBound < 2 ^ 256 := by decide
  rintro rfl
  rw [Word.toNat_ofNat, Nat.mod_eq_of_lt (by omega)] at hnat
  omega

/-! ### The names in a tree -/

mutual

/-- The names in an operand. -/
def Term.names : Term → List String
  | .literal _ => []
  | .ident name => [name]
  | .index base keys => base :: Term.allNames keys

/-- The names in several operands. -/
def Term.allNames : List Term → List String
  | [] => []
  | first :: rest => first.names ++ Term.allNames rest

end

/-- The names in an expression. -/
def Expression.names (e : Expression) : List String := Term.allNames e.terms

/-- The names in an assignment. -/
def Assignment.names (a : Assignment) : List String := a.target.names ++ a.value.names

/-- The names in the declaration of a local. -/
def LocalVariable.names (v : LocalVariable) : List String := v.name :: v.value.names

mutual

/-- The names in a statement. -/
def Statement.names : Statement → List String
  | .returns value => value.names
  | .assign a => a.names
  | .declare v => v.names
  | .branch condition thenBody elseBody =>
    condition.names ++ Statement.allNames thenBody ++ Statement.armNames elseBody
  | .loop start condition step body =>
    start.names ++ condition.names ++ step.names ++ Statement.allNames body

/-- The names in several statements. -/
def Statement.allNames : List Statement → List String
  | [] => []
  | first :: rest => first.names ++ Statement.allNames rest

/-- The names in the second arm of a branch. -/
def Statement.armNames : Option (List Statement) → List String
  | none => []
  | some body => Statement.allNames body

end

/-- The names of the parameters of a function and those in its body. -/
def FunctionDeclaration.names (f : FunctionDeclaration) : List String :=
  f.parameters.map Parameter.name ++ Statement.allNames f.body

/-- All of these are names. -/
def AreNames (names : List String) : Prop := ∀ name ∈ names, IsName name

@[simp] theorem areNames_cons {name : String} {rest : List String} :
    AreNames (name :: rest) ↔ IsName name ∧ AreNames rest := by
  simp [AreNames]

@[simp] theorem areNames_append {a b : List String} :
    AreNames (a ++ b) ↔ AreNames a ∧ AreNames b := by
  simp only [AreNames, List.mem_append]
  exact ⟨fun h => ⟨fun n hn => h n (Or.inl hn), fun n hn => h n (Or.inr hn)⟩,
    fun h n hn => hn.elim (h.1 n) (h.2 n)⟩

/-- The names in one operand are some of the names in all. -/
theorem areNames_of_mem {x : Term} {xs : List Term} (h : AreNames (Term.allNames xs))
    (hx : x ∈ xs) : AreNames x.names := by
  induction xs with
  | nil => cases hx
  | cons first rest ih =>
    rw [Term.allNames, areNames_append] at h
    rcases List.mem_cons.1 hx with rfl | hmem
    · exact h.1
    · exact ih h.2 hmem

/-! ### Names and tokens -/

namespace Grammar

variable {separated : Separation} {n : Nat} {ts : List Token} {name : String}

mutual

/-- A name in an operand is one of its tokens. -/
theorem Term.ident_mem {ts : List Token} {t : Covenant.Term} :
    Term ts t → name ∈ t.names → .ident name ∈ ts
  | .literal _, hname => absurd hname List.not_mem_nil
  | .ident _, hname => by
    rw [List.mem_singleton.1 hname]
    exact List.mem_cons_self
  | .index _ hkeys, hname => by
    rcases List.mem_cons.1 hname with rfl | hname
    · exact List.mem_cons_self
    · exact List.mem_cons_of_mem _ (Keys.ident_mem hkeys hname)

theorem Keys.ident_mem {ts : List Token} {keys : List Covenant.Term} :
    Keys ts keys → name ∈ Covenant.Term.allNames keys → .ident name ∈ ts
  | .nil, hname => absurd hname List.not_mem_nil
  | .cons hkey hkeys, hname => by
    rcases List.mem_append.1 hname with hname | hname
    · simp [Term.ident_mem hkey hname]
    · simp [Keys.ident_mem hkeys hname]

end

theorem Operands.ident_mem {pairs : List (Operator × Covenant.Term)} (h : Operands ts pairs)
    (hname : name ∈ Covenant.Term.allNames (pairs.map Prod.snd)) : .ident name ∈ ts := by
  induction h with
  | nil => exact absurd hname List.not_mem_nil
  | cons hoperand _ ih =>
    rcases List.mem_append.1 hname with hname | hname
    · simp [hoperand.ident_mem hname]
    · simp [ih hname]

/-- A name in an expression is one of its tokens. -/
theorem Expression.ident_mem {e : Covenant.Expression} (h : Expression ts e)
    (hname : name ∈ e.names) : .ident name ∈ ts := by
  obtain ⟨hfirst, hrest⟩ := h
  rcases List.mem_append.1 hname with hname | hname
  · exact List.mem_append_left _ (hfirst.ident_mem hname)
  · exact List.mem_append_right _ (hrest.ident_mem hname)

/-- A name in an assignment is one of its tokens, on either side. -/
theorem Assignment.ident_mem {a : Covenant.Assignment} (h : Assignment ts a)
    (hname : name ∈ a.names) : .ident name ∈ ts := by
  obtain ⟨htarget, hvalue⟩ := h
  rcases List.mem_append.1 hname with hname | hname
  · simp [htarget.ident_mem hname]
  · simp [hvalue.ident_mem hname]

theorem LocalVariable.ident_mem {v : Covenant.LocalVariable} (h : LocalVariable ts v)
    (hname : name ∈ v.names) : .ident name ∈ ts := by
  obtain ⟨_, _, hvalue⟩ := h
  rcases List.mem_cons.1 hname with rfl | hname
  · simp
  · simp [hvalue.ident_mem hname]

mutual

/-- A name in a statement is one of its tokens. By recursion on the derivation, together with
branches and blocks. -/
theorem Statement.ident_mem {n : Nat} {ts : List Token} {s : Covenant.Statement} :
    Statement separated n ts s → name ∈ s.names → .ident name ∈ ts
  | .returns hvalue, hname => List.mem_cons_of_mem _ (hvalue.ident_mem hname)
  | .assign ha, hname => ha.ident_mem hname
  | .declare hv, hname => hv.ident_mem hname
  | .branch hbranch, hname => Branch.ident_mem hbranch hname
  | .loop hstart hcondition hstep hbody, hname => by
    simp only [Covenant.Statement.names, List.mem_append] at hname
    rcases hname with ((hname | hname) | hname) | hname
    · simp [hstart.ident_mem hname]
    · simp [hcondition.ident_mem hname]
    · simp [hstep.ident_mem hname]
    · simp [Block.ident_mem hbody hname]

theorem Branch.ident_mem {n : Nat} {ts : List Token} {s : Covenant.Statement} :
    Branch separated n ts s → name ∈ s.names → .ident name ∈ ts
  | .single hcondition hbody, hname => by
    simp only [Covenant.Statement.names, Covenant.Statement.armNames, List.mem_append,
      List.not_mem_nil, or_false] at hname
    rcases hname with hname | hname
    · simp [hcondition.ident_mem hname]
    · simp [Block.ident_mem hbody hname]
  | .double hcondition hbody helse, hname => by
    simp only [Covenant.Statement.names, Covenant.Statement.armNames, List.mem_append] at hname
    rcases hname with (hname | hname) | hname
    · simp [hcondition.ident_mem hname]
    · simp [Block.ident_mem hbody hname]
    · simp [Block.ident_mem helse hname]
  | .chained hcondition hbody hnext, hname => by
    simp only [Covenant.Statement.names, Covenant.Statement.armNames,
      Covenant.Statement.allNames, List.mem_append, List.not_mem_nil, or_false] at hname
    rcases hname with (hname | hname) | hname
    · simp [hcondition.ident_mem hname]
    · simp [Block.ident_mem hbody hname]
    · simp [Branch.ident_mem hnext hname]

theorem Block.ident_mem {n : Nat} {ts : List Token} {body : List Covenant.Statement} :
    Block separated n ts body → name ∈ Covenant.Statement.allNames body → .ident name ∈ ts
  | .mk hbody, hname => by simp [Statements.ident_mem hbody hname]

theorem Statements.ident_mem {n : Nat} {ts : List Token} {body : List Covenant.Statement} :
    Statements separated n ts body → name ∈ Covenant.Statement.allNames body → .ident name ∈ ts
  | .nil, hname => absurd hname List.not_mem_nil
  | .cons hfirst _ hrest, hname => by
    rcases List.mem_append.1 hname with hname | hname
    · exact List.mem_append_left _ (Statement.ident_mem hfirst hname)
    · exact List.mem_append_right _ (Statements.ident_mem hrest hname)

end

/-- The names of parameters are among their tokens. -/
theorem ParameterList.ident_mem {ps : List Parameter} (h : ParameterList ts ps)
    (hname : name ∈ ps.map Parameter.name) : .ident name ∈ ts := by
  induction h with
  | last _ _ =>
    rw [List.mem_singleton.1 hname]
    exact List.mem_cons_self
  | more _ _ _ ih =>
    rcases List.mem_cons.1 hname with rfl | hname
    · exact List.mem_cons_self
    · simp [ih hname]

/-- **The names in a function that the grammar writes are among its tokens.** -/
theorem Contract.ident_mem {c : Covenant.Contract} (h : Contract separated n ts c)
    {f : FunctionDeclaration} (hf : f ∈ c.functions) (hname : name ∈ f.names) :
    .ident name ∈ ts := by
  obtain ⟨_, us, hfunction, hsub⟩ := h.exists_function hf
  apply hsub
  cases hfunction with
  | function _ hparameters _ hbody =>
    rcases List.mem_append.1 hname with hname | hname
    · cases hparameters with
      | none => exact absurd hname List.not_mem_nil
      | some hps => simp [hps.ident_mem hname]
    · simp [hbody.ident_mem hname]

end Grammar

/-! ### Scanning and parsing -/

theorem ofPair?_ne_ident (c d : Char) (name : String) :
    Token.ofPair? c d ≠ some (.ident name) := by
  unfold Token.ofPair?
  split <;> simp

theorem ofChar?_ne_ident (c : Char) (name : String) : Token.ofChar? c ≠ some (.ident name) := by
  unfold Token.ofChar?
  split <;> simp

/-- An identifier that is scanned is a name. -/
theorem isName_of_lexeme {c : Char} {rest left : List Char} {name : String}
    (h : Token.lexeme c rest = .ok (.ident name, left)) : IsName name := by
  unfold Token.lexeme at h
  split at h
  · cases h
  · split at h
    · next halpha =>
      cases h
      exact ⟨c, _, rfl, halpha, List.all_eq_true.1 List.all_takeWhile⟩
    · -- The other tokens are fixed, and none of them is an identifier.
      unfold Token.punctuation at h
      split at h
      · next token hpair =>
        cases h
        obtain ⟨d, -, hd⟩ := Option.bind_eq_some_iff.1 hpair
        exact absurd hd (ofPair?_ne_ident c d name)
      · split at h
        · next token hchar =>
          cases h
          exact absurd hchar (ofChar?_ne_ident c name)
        · cases h

/-- Every identifier of a text is a name, by the recursion of the scanner. -/
theorem isName_of_scanFrom {position : Position} {text : List Char} {tokens : List Located}
    (h : Token.scanFrom position text = .ok tokens) :
    ∀ item ∈ tokens, ∀ name, item.token = .ident name → IsName name := by
  fun_induction Token.scanFrom position text generalizing tokens with
  | case1 =>
    cases h
    simp
  | case2 => cases h
  | case3 => cases h
  | case4 position text start c rest htrivia token left hlexeme tokens' hrest =>
    rename_i ih
    cases h
    intro item hitem name hname
    rcases List.mem_cons.1 hitem with rfl | hmem
    · dsimp only at hname
      subst hname
      exact isName_of_lexeme hlexeme
    · exact ih hrest item hmem name hname

/-- All identifiers of a source are names. -/
theorem isName_of_scan {source : String} {tokens : List Located}
    (h : Token.scan source = .ok tokens) :
    ∀ item ∈ tokens, ∀ name, item.token = .ident name → IsName name :=
  isName_of_scanFrom h

/-- The functions of a contract that was read from a source have names where names are due. -/
theorem names_of_parse {source : String} {tokens : List Located} {limit : Nat} {c : Contract}
    (hscan : Token.scan source = .ok tokens) (hparse : Contract.parse tokens limit = .ok c)
    {f : FunctionDeclaration} (hf : f ∈ c.functions) : AreNames f.names := by
  intro name hname
  obtain ⟨_, -, hgrammar⟩ := Contract.exists_grammar_of_parse hparse
  -- The parser sees the tokens before the end only.
  have hident : .ident name ∈ tokens.map Located.token :=
    (List.takeWhile_sublist _).subset (hgrammar.ident_mem hf hname)
  obtain ⟨item, hitem, htoken⟩ := List.mem_map.1 hident
  exact isName_of_scan hscan item hitem name htoken

end Covenant
