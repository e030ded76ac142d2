import Covenant.Proofs.Compile.Precedence
import Covenant.Proofs.Machine.Operations
import Covenant.Proofs.Program.Binary

/-!
# Balance of compiled code

Compiled code neither takes a word that is not there nor jumps out of its body, and it leaves one
word behind if a `return` was executed and none otherwise. That holds in every run: with any limits,
on any stores, however these fail, and for any contract that compiles.

The code of an operand, of an expression and of a statement is safe from any place in a body at which
it stands. That of an expression leaves one word more on whatever stack it finds (`safe_expression`);
that of a statement starts and ends with an empty stack, unless it comes to a `return`
(`safe_statement`). A `return` is where the second half of the argument starts: from the beginning of
its code on, the run ends with one word more than it found there (`safe_return`).

* `ReturnsAt` says where the code of a `return` begins.
* `run_body` puts the two halves together for the code of one function.
-/

namespace Covenant

namespace Compile

/-- Among statements whose code starts at a position, the code of a `return` begins at another. The
two arms of a branch and the body of a loop are looked into. -/
inductive ReturnsAt (scope : Scope) : Nat → Numbering → List Statement → Nat → Prop where
  | here {position : Nat} {locals : Numbering} {value : Expression} {rest : List Statement} :
      ReturnsAt scope position locals (.returns value :: rest) position
  | later {position q : Nat} {locals after : Numbering} {first : Statement}
      {rest : List Statement} {code : List Symbol}
      (hfirst : statement scope position locals first = .ok (code, after))
      (hrest : ReturnsAt scope (position + code.length) after rest q) :
      ReturnsAt scope position locals (first :: rest) q
  | thenArm {position q : Nat} {locals : Numbering} {condition : Expression}
      {thenBody rest : List Statement} {elseBody : Option (List Statement)}
      {test : List Instruction} (htest : expression scope locals condition = .ok test)
      (hthen : ReturnsAt scope (position + test.length + 2) locals thenBody q) :
      ReturnsAt scope position locals (.branch condition thenBody elseBody :: rest) q
  | elseArm {position q : Nat} {locals middle : Numbering} {condition : Expression}
      {thenBody elseBody rest : List Statement} {test : List Instruction} {thenCode : List Symbol}
      (htest : expression scope locals condition = .ok test)
      (hthen : block scope (position + test.length + 2) locals thenBody = .ok (thenCode, middle))
      (helse : ReturnsAt scope (position + test.length + 2 + thenCode.length + 2) middle
        elseBody q) :
      ReturnsAt scope position locals (.branch condition thenBody (some elseBody) :: rest) q
  | loop {position q : Nat} {locals inner : Numbering} {start : LocalVariable}
      {condition : Expression} {step : Assignment} {body rest : List Statement}
      {startCode test : List Instruction}
      (hstart : localVariable scope locals start = .ok (startCode, inner))
      (htest : expression scope inner condition = .ok test)
      (hbody : ReturnsAt scope (position + startCode.length + test.length + 2) inner body q) :
      ReturnsAt scope position locals (.loop start condition step body :: rest) q

/-- What returns in the first of several statements returns in them all. -/
theorem ReturnsAt.cons {scope : Scope} {position q : Nat} {locals : Numbering} {first : Statement}
    {rest : List Statement} (h : ReturnsAt scope position locals [first] q) :
    ReturnsAt scope position locals (first :: rest) q := by
  cases h with
  | here => exact .here
  | later _ hrest => cases hrest
  | thenArm htest hthen => exact .thenArm htest hthen
  | elseArm htest hthen helse => exact .elseArm htest hthen helse
  | loop hstart htest hbody => exact .loop hstart htest hbody

/-- What returns in several statements returns in the first of them or behind it. -/
theorem ReturnsAt.split {scope : Scope} {position q : Nat} {locals : Numbering} {first : Statement}
    {rest : List Statement} (h : ReturnsAt scope position locals (first :: rest) q) :
    ReturnsAt scope position locals [first] q
      ∨ ∃ code after, statement scope position locals first = .ok (code, after)
        ∧ ReturnsAt scope (position + code.length) after rest q := by
  cases h with
  | here => exact Or.inl .here
  | later hfirst hrest => exact Or.inr ⟨_, _, hfirst, hrest⟩
  | thenArm htest hthen => exact Or.inl (.thenArm htest hthen)
  | elseArm htest hthen helse => exact Or.inl (.elseArm htest hthen helse)
  | loop hstart htest hbody => exact Or.inl (.loop hstart htest hbody)

section Safe

variable {ω : Type} [Stores ω] {limits : Limits} {program : Word} {code : List Instruction}
  {Q : Nat → List Word → Prop} {n pc : Nat} {stack : List Word} {scope : Scope}
  {locals after : Numbering} {position : Nat}

/-! ### Expressions -/

/-- A name is read with one word more on the stack, whatever it is taken for. -/
theorem safe_readName {name : String} {xs : List Instruction}
    (h : readName scope locals name = .ok xs) (hcode : CodeAt code pc xs)
    (hnext : ∀ w, Safe ω limits program code Q n (pc + xs.length) (w :: stack)) :
    Safe ω limits program code Q n pc stack := by
  unfold readName at h
  -- A local, a variable, a mapping, which has no value, or a parameter.
  split at h
  · cases h
    simp only [pushNat, codeAt_cons] at hcode
    exact (Safe.push hcode.1 (Safe.mload hcode.2.1 hnext).pred).pred
  · cases h
    simp only [pushNat, codeAt_cons] at hcode
    exact (Safe.push hcode.1 (Safe.sload hcode.2.1 hnext).pred).pred
  · cases h
  · simp only [bind_eq_ok, pure_eq_ok] at h
    obtain ⟨key, -, rfl⟩ := h
    exact (Safe.pushParam (codeAt_cons.1 hcode).1 hnext).pred

mutual

/-- The code of an operand puts one word on the stack it finds. -/
theorem safe_term : ∀ (x : Term) {pc : Nat} {stack : List Word} {xs : List Instruction},
    term scope locals x = .ok xs → CodeAt code pc xs →
    (∀ w, Safe ω limits program code Q n (pc + xs.length) (w :: stack)) →
    Safe ω limits program code Q n pc stack
  | .literal value, pc, stack, xs, h, hcode, hnext => by
    obtain ⟨w, -, rfl⟩ := term_literal_ok h
    exact (Safe.push (codeAt_cons.1 hcode).1 (hnext w)).pred
  | .ident name, pc, stack, xs, h, hcode, hnext => by
    rw [term] at h
    exact safe_readName h hcode hnext
  | .index base keys, pc, stack, xs, h, hcode, hnext => by
    obtain ⟨slot, rest, -, hrest, rfl⟩ := term_index_ok h
    simp only [List.cons_append, codeAt_cons, codeAt_append, pushNat] at hcode
    obtain ⟨hpush, hkeys, hload, -⟩ := hcode
    refine (Safe.push hpush ?_).pred
    refine safe_keyCode keys hrest hkeys (fun a => ?_) _
    refine (Safe.sload hload fun w => ?_).pred
    have h := hnext w
    rwa [add_length_entry] at h

/-- The code of keys changes the address on top of the stack. -/
theorem safe_keyCode : ∀ (keys : List Term) {pc : Nat} {stack : List Word}
    {xs : List Instruction}, keyCode scope locals keys = .ok xs → CodeAt code pc xs →
    (∀ a, Safe ω limits program code Q n (pc + xs.length) (a :: stack)) →
    ∀ a, Safe ω limits program code Q n pc (a :: stack)
  | [], pc, stack, xs, h, hcode, hnext, a => by
    cases h
    exact hnext a
  | key :: keys, pc, stack, xs, h, hcode, hnext, a => by
    obtain ⟨first, rest, hfirst, hrest, rfl⟩ := keyCode_cons_ok h
    simp only [codeAt_cons, codeAt_append] at hcode
    obtain ⟨hkey, hadd, hhash, hmore⟩ := hcode
    refine safe_term key hfirst hkey fun k => ?_
    refine (Safe.binary hadd fun sum => ?_).pred
    refine (Safe.hash256 hhash fun b => ?_).pred
    refine safe_keyCode keys hrest hmore (fun c => ?_) b
    have h := hnext c
    rwa [add_length_key] at h

end

/-- The code of a tree puts one word on the stack it finds. -/
theorem safe_tree {g : Term → List Instruction} (t : Tree)
    (hleaf : ∀ x ∈ t.terms, term scope locals x = .ok (g x)) (hcode : CodeAt code pc (t.code g))
    (hnext : ∀ w, Safe ω limits program code Q n (pc + (t.code g).length) (w :: stack)) :
    Safe ω limits program code Q n pc stack := by
  induction t generalizing pc stack with
  | leaf x => exact safe_term x (hleaf x List.mem_cons_self) hcode hnext
  | node op l r ihl ihr =>
    simp only [Tree.terms, List.mem_append] at hleaf
    simp only [Tree.code, codeAt_append, codeAt_cons] at hcode
    obtain ⟨⟨hl, hr⟩, hop, -⟩ := hcode
    -- Each operand may leave any word, so the operator is safe for any two.
    refine ihl (fun x hx => hleaf x (Or.inl hx)) hl fun a => ?_
    refine ihr (fun x hx => hleaf x (Or.inr hx)) hr fun b => ?_
    rw [List.length_append, ← Nat.add_assoc] at hop
    refine (Safe.binary hop fun w => ?_).pred
    have h := hnext w
    rwa [Tree.add_length_node] at h

/-- The code of an expression puts one word on the stack it finds. -/
theorem safe_expression {e : Expression} {xs : List Instruction}
    (h : expression scope locals e = .ok xs) (hcode : CodeAt code pc xs)
    (hnext : ∀ w, Safe ω limits program code Q n (pc + xs.length) (w :: stack)) :
    Safe ω limits program code Q n pc stack := by
  obtain ⟨t, -, hleaf, rfl⟩ := expression_tree h
  exact safe_tree t hleaf hcode hnext

/-! ### Statements -/

/-- A declaration leaves the stack as it finds it. -/
theorem safe_localVariable {v : LocalVariable} {xs : List Instruction}
    (h : localVariable scope locals v = .ok (xs, after)) (hcode : CodeAt code pc xs)
    (hnext : Safe ω limits program code Q n (pc + xs.length) stack) :
    Safe ω limits program code Q n pc stack := by
  obtain ⟨value, hvalue, rfl, -⟩ := localVariable_ok h
  simp only [pushNat, codeAt_append, codeAt_cons] at hcode
  obtain ⟨hcode, hpush, hstore, -⟩ := hcode
  refine safe_expression hvalue hcode fun w => ?_
  refine (Safe.push hpush (Safe.mstore hstore ?_).pred).pred
  rwa [List.length_append, ← Nat.add_assoc] at hnext

/-- Writing to a name takes one word, whatever the name is taken for. -/
theorem safe_writeName {name : String} {xs : List Instruction} {w : Word}
    (h : writeName scope locals name = .ok xs) (hcode : CodeAt code pc xs)
    (hnext : Safe ω limits program code Q n (pc + xs.length) stack) :
    Safe ω limits program code Q n pc (w :: stack) := by
  unfold writeName at h
  split at h
  · cases h
    simp only [pushNat, codeAt_cons] at hcode
    exact (Safe.push hcode.1 (Safe.mstore hcode.2.1 hnext).pred).pred
  · cases h
    simp only [pushNat, codeAt_cons] at hcode
    exact (Safe.push hcode.1 (Safe.sstore hcode.2.1 hnext).pred).pred
  · cases h
  · simp only [bind_eq_ok, pure_eq_ok] at h
    obtain ⟨key, -, rfl⟩ := h
    simp only [codeAt_cons] at hcode
    exact (Safe.push hcode.1 (Safe.mstore hcode.2.1 hnext).pred).pred

/-- The code that stores a word takes it from the stack. -/
theorem safe_store {target : Expression} {x : Term} {xs : List Instruction} {w : Word}
    (h : store scope locals target x = .ok xs) (hcode : CodeAt code pc xs)
    (hnext : Safe ω limits program code Q n (pc + xs.length) stack) :
    Safe ω limits program code Q n pc (w :: stack) := by
  cases x with
  | literal value => cases h
  | ident name =>
    rw [store] at h
    exact safe_writeName h hcode hnext
  | index base keys =>
    obtain ⟨place, hplace, rfl⟩ := store_index_ok h
    obtain ⟨slot, rest, -, hrest, rfl⟩ := address_ok hplace
    simp only [List.cons_append, codeAt_cons, codeAt_append, pushNat] at hcode
    obtain ⟨hpush, hkeys, hstore, -⟩ := hcode
    refine (Safe.push hpush (safe_keyCode keys hrest hkeys (fun a => ?_) _)).pred
    refine (Safe.sstore hstore ?_).pred
    rwa [add_length_entry] at hnext

/-- An assignment leaves the stack as it finds it. -/
theorem safe_assignment {a : Assignment} {xs : List Instruction}
    (h : assignment scope locals a = .ok xs) (hcode : CodeAt code pc xs)
    (hnext : Safe ω limits program code Q n (pc + xs.length) stack) :
    Safe ω limits program code Q n pc stack := by
  obtain ⟨target, value, rest, -, hvalue, hstore, rfl⟩ := assignment_ok h
  obtain ⟨hcode, hrest⟩ := codeAt_append.1 hcode
  refine safe_expression hvalue hcode fun w => ?_
  refine safe_store hstore hrest ?_
  rwa [List.length_append, ← Nat.add_assoc] at hnext

/-- The code of a test under the position of a target goes on behind the test or at the target. -/
theorem safe_test {target : Nat} {condition : Expression} {test : List Instruction}
    (hsize : code.length < Text.indexBound) (htarget : target ≤ code.length)
    (h : expression scope locals condition = .ok test)
    (hcode : CodeAt code pc (pushNat target :: test ++ [.jumpi]))
    (hnext : Safe ω limits program code Q n (pc + test.length + 2) stack)
    (htaken : Safe ω limits program code Q n target stack) :
    Safe ω limits program code Q (n + 1) pc stack := by
  simp only [pushNat, List.cons_append, codeAt_cons, codeAt_append] at hcode
  obtain ⟨hpush, htest, hjumpi, -⟩ := hcode
  refine Safe.push hpush (safe_expression h htest fun w => ?_)
  refine (Safe.jumpi hjumpi htarget hsize ?_ htaken).pred
  rwa [show pc + test.length + 2 = pc + 1 + test.length + 1 by omega] at hnext

/-- The jump at the end of a piece of code goes to its target. -/
theorem safe_goto {target : Nat} (hsize : code.length < Text.indexBound)
    (htarget : target ≤ code.length) (hcode : CodeAt code pc [pushNat target, .jump])
    (hnext : Safe ω limits program code Q n target stack) :
    Safe ω limits program code Q n pc stack := by
  simp only [pushNat, codeAt_cons] at hcode
  exact (Safe.push hcode.1 (Safe.jump hcode.2.1 htarget hsize hnext).pred).pred

mutual

/-- The code of a statement goes from an empty stack to an empty stack, or to a `return`. -/
theorem safe_statement (hsize : code.length < Text.indexBound) :
    ∀ (s : Statement) {n position : Nat} {locals after : Numbering} {symbols : List Symbol},
    statement scope position locals s = .ok (symbols, after) → Placed code position symbols →
    (∀ q, ReturnsAt scope position locals [s] q → Q q []) →
    Safe ω limits program code Q n (position + symbols.length) [] →
    Safe ω limits program code Q n position []
  | .returns value, n, position, locals, after, symbols, h, hplaced, hreturn, hnext =>
    Safe.exit (hreturn position .here)
  | .assign a, n, position, locals, after, symbols, h, hplaced, hreturn, hnext => by
    obtain ⟨xs, hassign, rfl, -⟩ := statement_assign_ok h
    rw [placed_plain] at hplaced
    rw [length_plain] at hnext
    exact safe_assignment hassign hplaced hnext
  | .declare v, n, position, locals, after, symbols, h, hplaced, hreturn, hnext => by
    obtain ⟨xs, hdeclare, rfl⟩ := statement_declare_ok h
    rw [placed_plain] at hplaced
    rw [length_plain] at hnext
    exact safe_localVariable hdeclare hplaced hnext
  | .branch condition thenBody elseBody, n, position, locals, after, symbols, h, hplaced, hreturn,
      hnext => by
    obtain ⟨test, thenCode, middle, elseCode, skip, thenStart, elseStart, rfl, rfl, hlen, hle, htest,
      hthen, helse, htestAt, hthenAt, hskip, helseAt⟩ := branch_placed h hplaced
    rw [hlen] at hnext hle
    have harm := safe_elseArm hsize elseBody helse helseAt hskip
      (fun body q hbody hq => hreturn q (by subst hbody; exact .elseArm htest hthen hq)) hle hnext
    refine (safe_test hsize (by omega) htest htestAt ?_ harm.2).pred
    exact safe_block hsize thenBody hthen hthenAt (fun q hq => hreturn q (.thenArm htest hq)) harm.1
  | .loop start condition step body, n, position, locals, after, symbols, h, hplaced, hreturn,
      hnext => by
    obtain ⟨startCode, inner, test, bodyCode, stepCode, head, bodyStart, rfl, rfl, hlen, hle, hstart,
      htest, hbody, hstep, hstartAt, htestAt, hbodyAt, hstepAt, hjump⟩ := loop_placed h hplaced
    refine safe_localVariable hstart hstartAt ?_
    -- One turn of the test pays for the next round.
    induction n with
    | zero => trivial
    | succ n ih =>
      refine safe_test hsize hle htest htestAt ?_ hnext.pred
      refine safe_block hsize body hbody hbodyAt
        (fun q hq => hreturn q (.loop hstart htest hq)) ?_
      refine safe_assignment hstep hstepAt ?_
      exact safe_goto hsize (by omega) hjump (ih hnext.pred)

/-- The code of a block goes from an empty stack to an empty stack, or to a `return`. -/
theorem safe_block (hsize : code.length < Text.indexBound) :
    ∀ (statements : List Statement) {n position : Nat} {locals after : Numbering}
    {symbols : List Symbol},
    block scope position locals statements = .ok (symbols, after) → Placed code position symbols →
    (∀ q, ReturnsAt scope position locals statements q → Q q []) →
    Safe ω limits program code Q n (position + symbols.length) [] →
    Safe ω limits program code Q n position []
  | [], n, position, locals, after, symbols, h, hplaced, hreturn, hnext => by
    obtain ⟨rfl, -⟩ := block_nil_ok h
    exact hnext
  | first :: rest, n, position, locals, after, symbols, h, hplaced, hreturn, hnext => by
    obtain ⟨firstCode, middle, restCode, hfirst, hrest, rfl⟩ := block_cons_ok h
    obtain ⟨hfirstAt, hrestAt⟩ := placed_append.1 hplaced
    refine safe_statement hsize first hfirst hfirstAt (fun q hq => hreturn q hq.cons) ?_
    refine safe_block hsize rest hrest hrestAt (fun q hq => hreturn q (.later hfirst hq)) ?_
    rwa [List.length_append, ← Nat.add_assoc] at hnext

/-- Both from the end of the first arm and from the start of the second one, a branch comes to its
end. -/
theorem safe_elseArm (hsize : code.length < Text.indexBound) :
    ∀ (elseBody : Option (List Statement)) {n position : Nat} {locals after : Numbering}
    {symbols : List Symbol} {skip : List Instruction},
    elseArm scope position locals elseBody = .ok (symbols, skip, after) →
    Placed code (position + skip.length) symbols → CodeAt code position skip →
    (∀ body q, elseBody = some body → ReturnsAt scope (position + 2) locals body q → Q q []) →
    position + skip.length + symbols.length ≤ code.length →
    Safe ω limits program code Q n (position + skip.length + symbols.length) [] →
    Safe ω limits program code Q n position []
      ∧ Safe ω limits program code Q n (position + skip.length) []
  | none, n, position, locals, after, symbols, skip, h, hplaced, hskip, hreturn, hle, hnext => by
    obtain ⟨rfl, rfl, -⟩ := elseArm_none_ok h
    exact ⟨hnext, hnext⟩
  | some body, n, position, locals, after, symbols, skip, h, hplaced, hskip, hreturn, hle,
      hnext => by
    obtain ⟨hblock, rfl⟩ := elseArm_some_ok h
    -- The first arm ends with a jump over the second; where there is no second arm, there is no jump.
    exact ⟨safe_goto hsize hle hskip hnext,
      safe_block hsize body hblock hplaced (fun q hq => hreturn body q rfl hq) hnext⟩

end

/-- The code of a body goes from an empty stack to its end with an empty stack, or to a `return`. -/
theorem safe_bodyFrom (hsize : code.length < Text.indexBound) (hend : Q code.length [])
    {statements : List Statement} {symbols : List Symbol}
    (h : bodyFrom scope position locals statements = .ok symbols)
    (hplaced : Placed code position symbols) (hlen : position + symbols.length = code.length)
    (hreturn : ∀ q, ReturnsAt scope position locals statements q → Q q []) :
    Safe ω limits program code Q n position [] := by
  induction statements generalizing position locals symbols with
  | nil =>
    cases h
    rw [show position = code.length from hlen]
    exact Safe.exit hend
  | cons first rest ih =>
    -- A `return` that comes last is compiled without a jump, so it is a case of its own.
    by_cases hlast : ∃ value, first = .returns value ∧ rest = []
    · obtain ⟨value, rfl, rfl⟩ := hlast
      exact Safe.exit (hreturn position .here)
    · obtain ⟨firstCode, middle, restCode, hfirst, hrest, rfl⟩ :=
        bodyFrom_cons_ok (fun value hv => hlast ⟨value, hv⟩) h
      obtain ⟨hfirstAt, hrestAt⟩ := placed_append.1 hplaced
      rw [List.length_append, ← Nat.add_assoc] at hlen
      exact safe_statement hsize first hfirst hfirstAt (fun q hq => hreturn q hq.cons)
        (ih hrest hrestAt hlen fun q hq => hreturn q (.later hfirst hq))

/-! ### Returns -/

/-- The code at a position puts a word on the stack and ends the body: it is that of an expression,
and behind it is the end of the body or a jump there. -/
def EndsWithValue (scope : Scope) (code : List Instruction) (q : Nat) : Prop :=
  ∃ locals value valueCode, expression scope locals value = .ok valueCode
    ∧ CodeAt code q valueCode
    ∧ (CodeAt code (q + valueCode.length) [pushNat code.length, .jump]
      ∨ q + valueCode.length = code.length)

/-- Where a block has a `return`, its code ends the body with a value. -/
theorem endsWithValue_of_block {statements : List Statement} {q : Nat} {symbols : List Symbol}
    (hq : ReturnsAt scope position locals statements q)
    (h : block scope position locals statements = .ok (symbols, after))
    (hplaced : Placed code position symbols) : EndsWithValue scope code q := by
  -- The induction is on where the `return` is. Each case compiles the same part twice, once in the
  -- block and once in `hq`, and the two are the same code.
  induction hq generalizing after symbols with
  | here =>
    obtain ⟨firstCode, middle, restCode, hfirst, -, rfl⟩ := block_cons_ok h
    obtain ⟨valueCode, hvalue, hcode, hjump⟩ := returns_placed hfirst (placed_append.1 hplaced).1
    exact ⟨_, _, valueCode, hvalue, hcode, Or.inl hjump⟩
  | later hfirst' _ ih =>
    obtain ⟨firstCode, middle, restCode, hfirst, hrest, rfl⟩ := block_cons_ok h
    rw [hfirst] at hfirst'
    cases hfirst'
    exact ih hrest (placed_append.1 hplaced).2
  | thenArm htest' _ ih =>
    obtain ⟨firstCode, middle, restCode, hfirst, -, rfl⟩ := block_cons_ok h
    obtain ⟨test, thenCode, _, elseCode, skip, _, _, rfl, rfl, -, -, htest, hthen, -, -, hthenAt, -⟩ :=
      branch_placed hfirst (placed_append.1 hplaced).1
    rw [htest] at htest'
    cases htest'
    exact ih hthen hthenAt
  | elseArm htest' hthen' _ ih =>
    obtain ⟨firstCode, middle, restCode, hfirst, -, rfl⟩ := block_cons_ok h
    obtain ⟨test, thenCode, _, elseCode, skip, _, _, rfl, rfl, -, -, htest, hthen, helse, -, -, -,
      helseAt⟩ := branch_placed hfirst (placed_append.1 hplaced).1
    rw [htest] at htest'
    cases htest'
    rw [hthen] at hthen'
    cases hthen'
    obtain ⟨hblock, rfl⟩ := elseArm_some_ok helse
    exact ih hblock helseAt
  | loop hstart' htest' _ ih =>
    obtain ⟨firstCode, middle, restCode, hfirst, -, rfl⟩ := block_cons_ok h
    obtain ⟨startCode, inner, test, bodyCode, stepCode, _, _, rfl, rfl, -, -, hstart, htest, hbody, -,
      -, -, hbodyAt, -, -⟩ := loop_placed hfirst (placed_append.1 hplaced).1
    rw [hstart] at hstart'
    cases hstart'
    rw [htest] at htest'
    cases htest'
    exact ih hbody hbodyAt

/-- Where a body has a `return`, its code ends the body with a value. -/
theorem endsWithValue_of_bodyFrom {statements : List Statement} {q : Nat} {symbols : List Symbol}
    (hq : ReturnsAt scope position locals statements q)
    (h : bodyFrom scope position locals statements = .ok symbols)
    (hplaced : Placed code position symbols) (hlen : position + symbols.length = code.length) :
    EndsWithValue scope code q := by
  induction statements generalizing position locals symbols with
  | nil => cases hq
  | cons first rest ih =>
    by_cases hlast : ∃ value, first = .returns value ∧ rest = []
    · obtain ⟨value, rfl, rfl⟩ := hlast
      obtain ⟨valueCode, hvalue, rfl⟩ := bodyFrom_last_ok h
      rw [placed_plain] at hplaced
      rw [length_plain] at hlen
      cases hq with
      | here => exact ⟨_, _, valueCode, hvalue, hplaced, Or.inr hlen⟩
      | later _ hrest => cases hrest
    · obtain ⟨firstCode, middle, restCode, hfirst, hrest, rfl⟩ :=
        bodyFrom_cons_ok (fun value hv => hlast ⟨value, hv⟩) h
      obtain ⟨hfirstAt, hrestAt⟩ := placed_append.1 hplaced
      rw [List.length_append, ← Nat.add_assoc] at hlen
      rcases hq.split with hin | ⟨firstCode', after', hfirst', hin⟩
      · -- The first statement is a block of its own, to which the lemma on blocks applies.
        have hblock : block scope position locals [first] = .ok (firstCode, middle) := by
          rw [block, hfirst]
          show Except.ok (firstCode ++ [], middle) = _
          rw [List.append_nil]
        exact endsWithValue_of_block hin hblock hfirstAt
      · rw [hfirst] at hfirst'
        cases hfirst'
        exact ih hin hrest hrestAt hlen

/-- From the beginning of the code of a `return`, the end of the body is reached with one word more
on the stack. -/
theorem safe_return {q : Nat} (hsize : code.length < Text.indexBound)
    (h : EndsWithValue scope code q) :
    Safe ω limits program code (fun pc st => pc = code.length ∧ ∃ w, st = w :: stack) n q stack := by
  obtain ⟨locals, value, valueCode, hvalue, hcode, hjump | hend⟩ := h
  · -- The value is followed by a jump to the end, unless the end is there already.
    exact safe_expression hvalue hcode fun w =>
      safe_goto hsize (Nat.le_refl _) hjump (Safe.exit ⟨rfl, w, rfl⟩)
  · exact safe_expression hvalue hcode fun w => Safe.exit ⟨hend, w, rfl⟩

/-! ### Runs of a function and of the initialization -/

/-- A run has come to the code of a `return`. -/
def Returned (limits : Limits) (program : Word) (code : List Instruction) (scope : Scope)
    (statements : List Statement) (f : Frame) (s : ω) : Prop :=
  ∃ f' s', Reaches limits program code f s f' s' ∧ ReturnsAt scope 0 {} statements f'.pc

/-- A run of the code of a body from its beginning faults without a misstep, or ends with one word on
the stack if it came to a `return`, and with none if it did not. -/
theorem run_body {statements : List Statement} {fuel : Nat} {f : Frame} {s : ω} {o : Outcome ω}
    (hbody : body scope statements = .ok code) (hsize : code.length < Text.indexBound)
    (hpc : f.pc = 0) (hstack : f.stack = [])
    (hrun : run limits program code fuel f s = some o) :
    (∃ e, o.result = .error e ∧ e.isMisstep = false)
      ∨ o.result = .ok () ∧ ((∃ w, o.frame.stack = [w])
          ∧ Returned limits program code scope statements f s
        ∨ o.frame.stack = [] ∧ ¬ Returned limits program code scope statements f s) := by
  obtain ⟨symbols, hfrom, rfl⟩ := body_ok hbody
  have hlen : 0 + symbols.length = (settle symbols).length := by
    rw [Nat.zero_add]
    exact (List.length_map _).symm
  have hends : ∀ q, ReturnsAt scope 0 {} statements q → EndsWithValue scope (settle symbols) q :=
    fun q hq => endsWithValue_of_bodyFrom hq hfrom (placed_settle symbols) hlen
  -- What a run that comes to a `return` with any stack ends with.
  have hreturn : ∀ {fuel' : Nat} {f' : Frame} {s' : ω}, ReturnsAt scope 0 {} statements f'.pc →
      run limits program (settle symbols) fuel' f' s' = some o →
      (∃ e, o.result = .error e ∧ e.isMisstep = false)
        ∨ o.result = .ok () ∧ ∃ w, o.frame.stack = w :: f'.stack := by
    intro fuel' f' s' hat hrun'
    rcases (safe_return hsize (hends _ hat)).run hrun' with hfault | ⟨f₁, s₁, _, -, ⟨hpc₁, hw⟩, hrun₁⟩
    · exact Or.inl hfault
    · rw [run_of_end hpc₁] at hrun₁
      cases hrun₁
      exact Or.inr ⟨rfl, hw⟩
  -- Up to a `return`, or to the end if there is none on the way, the stack is empty between statements.
  let Q : Nat → List Word → Prop := fun pc st =>
    st = [] ∧ (pc = (settle symbols).length ∨ ReturnsAt scope 0 {} statements pc)
  have hsafe : Safe ω limits program (settle symbols) Q (fuel + 1) f.pc f.stack := by
    rw [hpc, hstack]
    exact safe_bodyFrom hsize ⟨rfl, Or.inl rfl⟩ hfrom (placed_settle symbols) hlen
      (fun q hq => ⟨rfl, Or.inr hq⟩)
  rcases hsafe.run hrun with hfault | ⟨f', s', fuel', hreach, ⟨hempty, hend | hat⟩, hrun'⟩
  · exact Or.inl hfault
  · rw [run_of_end hend] at hrun'
    cases hrun'
    refine Or.inr ⟨rfl, Or.inr ⟨hempty, ?_⟩⟩
    -- Had the run come to a `return` before, it would have ended with a word.
    rintro ⟨f₁, s₁, hreach₁, hat₁⟩
    obtain ⟨fuel₁, hrun₁⟩ := run_of_reaches hreach₁ hrun
    rcases hreturn hat₁ hrun₁ with ⟨e, he, -⟩ | ⟨-, w, hw⟩
    · cases he
    · rw [hempty] at hw
      cases hw
  · rcases hreturn hat hrun' with hfault | ⟨hok, w, hw⟩
    · exact Or.inl hfault
    · rw [hempty] at hw
      exact Or.inr ⟨hok, Or.inl ⟨⟨w, hw⟩, f', s', hreach, hat⟩⟩

/-- The initialization goes from an empty stack to an empty stack. -/
theorem safe_initialization {declarations : List Declaration} {slots slots' : Numbering}
    {xs : List Instruction} (h : initialization slots declarations = .ok (xs, slots'))
    (hcode : CodeAt code pc xs) (hnext : Safe ω limits program code Q n (pc + xs.length) stack) :
    Safe ω limits program code Q n pc stack := by
  induction declarations generalizing slots slots' pc xs with
  | nil =>
    cases h
    exact hnext
  | cons d rest ih =>
    -- Only a variable has code; a mapping takes a slot and a function nothing.
    cases d with
    | variable_ d =>
      simp only [initialization, bind_eq_ok, pure_eq_ok, Prod.mk.injEq, Prod.exists] at h
      obtain ⟨value, -, more, slots'', hrest, rfl, -⟩ := h
      simp only [pushNat, codeAt_cons] at hcode
      obtain ⟨hvalue, hslot, hstore, hmore⟩ := hcode
      refine (Safe.push hvalue (Safe.push hslot (Safe.sstore hstore ?_).pred).pred).pred
      refine ih hrest hmore ?_
      rwa [List.length_cons, List.length_cons, List.length_cons,
        show pc + (more.length + 1 + 1 + 1) = pc + 1 + 1 + 1 + more.length by omega] at hnext
    | mapping d => exact ih h hcode hnext
    | function f => exact ih h hcode hnext

/-- A run of an initialization faults without a misstep, or ends with an empty stack. -/
theorem run_initialization {declarations : List Declaration} {slots : Numbering} {fuel : Nat}
    {f : Frame} {s : ω} {o : Outcome ω}
    (h : initialization {} declarations = .ok (code, slots)) (hpc : f.pc = 0)
    (hstack : f.stack = []) (hrun : run limits program code fuel f s = some o) :
    (∃ e, o.result = .error e ∧ e.isMisstep = false)
      ∨ o.result = .ok () ∧ o.frame.stack = [] := by
  have hsafe : Safe ω limits program code (fun pc st => pc = code.length ∧ st = []) (fuel + 1) f.pc
      f.stack := by
    rw [hpc, hstack]
    exact safe_initialization h (codeAt_self code) (Safe.exit ⟨Nat.zero_add _, rfl⟩)
  rcases hsafe.run hrun with hfault | ⟨f', s', fuel', -, ⟨hend, hempty⟩, hrun'⟩
  · exact Or.inl hfault
  · rw [run_of_end hend] at hrun'
    cases hrun'
    exact Or.inr ⟨rfl, hempty⟩

end Safe

end Compile

/-! ### Deployments and calls -/

namespace Machine

variable {ω : Type} [Stores ω] {m m' : Machine ω} {fuel : Nat} {address : Word}
  {r : Except Fault (Option Word)}

/-- A deployment of a compiled contract does not fault by a misstep, and leaves nothing on the stack
when its run halts. -/
theorem balanced_deploy {c : Contract} {p : Program} {r : Except Fault Word}
    (hcompile : c.compile = .ok p) (hloaded : m.loaded = some ⟨p, address⟩)
    (h : m.deploy fuel = some (r, m')) :
    (∀ e, r = .error e → e.isMisstep = false) ∧ (m'.phase = .halted → m'.frame.stack = []) := by
  obtain ⟨r₀, m₀, hrun, hend⟩ := deploy_eq_some hloaded h
  obtain ⟨o, horun, rfl, rfl⟩ := runCode_eq_some hrun
  obtain ⟨-, ⟨slots, hinit⟩, -⟩ := Contract.compile_ok hcompile
  rcases Compile.run_initialization hinit rfl rfl horun with ⟨e, he, hmisstep⟩ | ⟨hok, hempty⟩
  · rw [he] at hend
    rcases hend with ⟨e', he', rfl, rfl⟩ | ⟨value, hvalue, -⟩
    · cases he'
      refine ⟨fun e' he' => Except.error.inj he' ▸ hmisstep, fun hphase => ?_⟩
      rw [phaseAfter, he] at hphase
      cases hphase
    · cases hvalue
  · rw [hok] at hend
    rcases hend with ⟨e, he, -⟩ | ⟨value, -, rfl, rfl⟩
    · cases he
    · -- The run itself went well, so a fault is that of one of the two insertions.
      exact ⟨fun e he => isMisstep_of_recordProgram he, fun _ => hempty⟩

/-- What holds of every call of a function of a compiled contract: it does not fault by a misstep,
and where it has a result, the result is all there is on the stack, and it is a word if the run came
to a `return` and nothing otherwise. -/
def BalancedCall (c : Contract) (p : Program) (address : Word) (m m' : Machine ω) (i : Nat)
    (arguments : List Word) (r : Except Fault (Option Word)) : Prop :=
  (∀ e, r = .error e → e.isMisstep = false)
    ∧ ∀ value, r = .ok value → ∃ f code, c.functions[i]? = some f
      ∧ p.functions.get? i = some code ∧ m'.frame.stack = value.toList
      ∧ (value.isSome ↔ Compile.Returned m.limits address code.body c.scope f.body
          { memory := bind code.parameters arguments } m.stores)

theorem balancedCall_of_callWords {c : Contract} {p : Program} {i : Nat} {arguments : List Word}
    (hcompile : c.compile = .ok p) (hsize : p.Addressable)
    (hloaded : m.loaded = some ⟨p, address⟩)
    (h : m.callWords fuel i arguments = some (r, m')) :
    BalancedCall c p address m m' i arguments r := by
  rcases callWords_eq_some hloaded h with ⟨e, rfl, he, -⟩ | ⟨code, hget, hrun⟩
  · refine ⟨fun e' he' => ?_, nofun⟩
    rcases he with rfl | ⟨expected, rfl⟩
    · cases he'
      rfl
    · cases he'
      rfl
  · obtain ⟨f, hf, hfunction⟩ := (Contract.compile_function hcompile i code).1 hget
    obtain ⟨-, -, hbody⟩ := Compile.function_ok hfunction
    obtain ⟨o, horun, rfl, rfl⟩ := runCode_eq_some hrun
    rcases Compile.run_body hbody (hsize.body_lt hget) rfl rfl horun with
      ⟨e, he, hmisstep⟩ | ⟨hok, hstack⟩
    · rw [he]
      exact ⟨fun e' he' => Except.error.inj he' ▸ hmisstep, nofun⟩
    · rw [hok]
      refine ⟨nofun, fun value hv => ⟨f, code, hf, hget, ?_⟩⟩
      cases hv
      rcases hstack with ⟨⟨w, hw⟩, hret⟩ | ⟨hnil, hret⟩
      · rw [hw]
        exact ⟨rfl, fun _ => hret, fun _ => rfl⟩
      · rw [hnil]
        exact ⟨rfl, nofun, fun h => absurd h hret⟩

/-- **Compiled code is balanced.** In any sequence of deployments and calls of a contract that
compiles, with any limits, on any stores and whatever insertions these refuse, no run faults for want
of a word or by a jump out of its code. A run that halts leaves its result on the stack and nothing
else: a word if a `return` was executed, and nothing otherwise. -/
theorem compiled_code_is_balanced {c : Contract} {p : Program} (hcompile : c.compile = .ok p)
    (hsize : p.Addressable) {m m' : Machine ω} (hloaded : m.loaded = some ⟨p, address⟩)
    (hserves : m.Serves m') :
    (∀ fuel r m'', m'.deploy fuel = some (r, m'') →
        (∀ e, r = .error e → e.isMisstep = false)
          ∧ (m''.phase = .halted → m''.frame.stack = []))
      ∧ (∀ fuel i arguments r m'', m'.callWords fuel i arguments = some (r, m'') →
        BalancedCall c p address m' m'' i arguments r)
      ∧ ∀ fuel i values r m'', m'.call fuel i values = some (r, m'') →
        (∃ e, encodeAll values = .error e ∧ r = .error (.encoding e))
          ∨ ∃ words, encodeAll values = .ok words ∧ BalancedCall c p address m' m'' i words r := by
  have hloaded' := hserves.loaded hloaded
  refine ⟨?_, ?_, ?_⟩
  · intro fuel r m'' h
    exact balanced_deploy hcompile hloaded' h
  · intro fuel i arguments r m'' h
    exact balancedCall_of_callWords hcompile hsize hloaded' h
  · intro fuel i values r m'' h
    rcases call_eq_some h with ⟨e, hencode, hr, -⟩ | ⟨words, hencode, hcall⟩
    · exact Or.inl ⟨e, hencode, hr⟩
    · exact Or.inr ⟨words, hencode, balancedCall_of_callWords hcompile hsize hloaded' hcall⟩

/-- A search with a `return` inside a loop, dead code behind it, and a way past it. -/
def searchSource : String :=
  "contract Search " ++ Text.braced ("var rounds: Int = 0 func root(n: Int) -> Int "
    ++ Text.braced ("for var i = 0; i < n; i = i + 1 "
      ++ Text.braced ("if i * i >= n " ++ Text.braced "return i rounds = 9"
        ++ " else " ++ Text.braced "rounds = rounds + 1")
      ++ " rounds = 7"))

/-- A call that returns from inside the loop, after a deployment on a stack of five words. -/
theorem search_is_balanced :
    ∃ c p m₁ m₂, Contract.ofSource searchSource = .ok c ∧ c.compile = .ok p ∧ p.Addressable
      ∧ deploy (ω := MemoryStores) ⟨{}, ⟨5, none⟩, some ⟨p, .zero⟩, {}, .ready⟩ 20
          = some (.ok .zero, m₁)
      ∧ m₁.callWords 200 0 [.ofNat 3] = some (.ok (some (.ofNat 2)), m₂)
      ∧ BalancedCall c p .zero m₁ m₂ 0 [.ofNat 3] (.ok (some (.ofNat 2))) := by
  have hrun : ((Contract.ofSource searchSource).toOption.any fun c =>
      c.compile.toOption.any fun p =>
        decide p.Addressable &&
        (deploy (ω := MemoryStores) ⟨{}, ⟨5, none⟩, some ⟨p, .zero⟩, {}, .ready⟩ 20).any fun r₁ =>
          decide (r₁.1.toOption = some .zero) &&
          (r₁.2.callWords 200 0 [.ofNat 3]).any fun r₂ =>
            decide (r₂.1.toOption = some (some (.ofNat 2)))) = true := by
    decide +kernel
  obtain ⟨c, hc, hrun⟩ := exists_ok_of_any hrun
  obtain ⟨p, hp, hrun⟩ := exists_ok_of_any hrun
  rw [Bool.and_eq_true, decide_eq_true_eq] at hrun
  obtain ⟨haddr, hrun⟩ := hrun
  obtain ⟨⟨r, m₁⟩, hdeploy, hrun⟩ := (Option.any_eq_true _ _).1 hrun
  rw [Bool.and_eq_true, decide_eq_true_eq, toOption_eq_some] at hrun
  obtain ⟨rfl, hrun⟩ := hrun
  obtain ⟨⟨r, m₂⟩, hcall, hrun⟩ := (Option.any_eq_true _ _).1 hrun
  rw [decide_eq_true_eq, toOption_eq_some] at hrun
  subst hrun
  obtain ⟨-, hcalls, -⟩ := compiled_code_is_balanced hp haddr rfl (.deploy (.refl _) hdeploy)
  exact ⟨c, p, m₁, m₂, hc, hp, haddr, hdeploy, hcall, hcalls _ _ _ _ _ hcall⟩

end Machine

end Covenant
