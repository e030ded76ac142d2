import Covenant.Compile
import Covenant.Proofs.Machine.Turn
import Covenant.Proofs.Table

/-!
# What compilation emits

Compilation runs checks and emits code; where it succeeds, only the code matters. The lemmas here
take a successful compilation apart, one for every construct, into the compilations of its parts and
the code put together from theirs. Nothing after this module looks into the checks.

* `expression_ok`, `localVariable_ok` and `assignment_ok` are about straight code.
* `statement_branch_ok` and `statement_loop_ok` are about code with jumps; the positions in it are
  those of the parts, added up. `branch_placed` and `loop_placed` say where the parts stand in a body
  that has the whole statement in it.
* `compile_ok` is about a whole contract: its scope is `Contract.scope`, in which the slot of a name
  is its place among the storage declarations.
-/

namespace Covenant

/-- A chain of two computations succeeds if the first does and the second does on its result. -/
theorem bind_eq_ok {ε α β : Type} {x : Except ε α} {f : α → Except ε β} {b : β} :
    (x >>= f) = .ok b ↔ ∃ a, x = .ok a ∧ f a = .ok b := by
  cases x with
  | error e => simp [Bind.bind, Except.bind]
  | ok a => simp [Bind.bind, Except.bind]

theorem pure_eq_ok {ε α : Type} {a b : α} : (pure a : Except ε α) = .ok b ↔ a = b := by
  show (Except.ok a : Except ε α) = .ok b ↔ a = b
  rw [Except.ok.injEq]

theorem toOption_eq_some {ε α : Type} {x : Except ε α} {a : α} :
    x.toOption = some a ↔ x = .ok a := by
  cases x with
  | error e => simp [Except.toOption]
  | ok b => simp [Except.toOption]

/-- A result that passes a test is there. -/
theorem exists_ok_of_any {ε α : Type} {x : Except ε α} {test : α → Bool}
    (h : x.toOption.any test = true) : ∃ a, x = .ok a ∧ test a = true := by
  obtain ⟨a, ha, htest⟩ := (Option.any_eq_true _ _).1 h
  exact ⟨a, toOption_eq_some.1 ha, htest⟩

theorem lookup_eq_none_iff {α : Type} {pairs : List (String × α)} {name : String} :
    pairs.lookup name = none ↔ name ∉ pairs.map Prod.fst := by
  simp only [List.lookup_eq_none_iff, bne_iff_ne, List.mem_map, not_exists, not_and]
  exact ⟨fun h pair hpair heq => h pair hpair heq.symm,
    fun h pair hpair heq => h pair hpair heq.symm⟩

/-- With names of their own, pairs are found by their names. -/
theorem lookup_eq_some_of_mem {α : Type} {pairs : List (String × α)} {name : String} {a : α}
    (h : (pairs.map Prod.fst).Nodup) (hmem : (name, a) ∈ pairs) : pairs.lookup name = some a := by
  induction pairs with
  | nil => cases hmem
  | cons pair rest ih =>
    obtain ⟨other, b⟩ := pair
    rw [List.map_cons, List.nodup_cons] at h
    rw [List.lookup_cons]
    rcases List.mem_cons.1 hmem with heq | hrest
    · cases heq
      rw [beq_self_eq_true]
    · have hne : (name == other) = false := by
        rw [beq_eq_false_iff_ne]
        rintro rfl
        exact h.1 (List.mem_map.2 ⟨(name, a), hrest, rfl⟩)
      rw [hne]
      exact ih h.2 hrest

namespace Compile

variable {scope : Scope} {locals after : Numbering} {position : Nat}

/-! ### Operands and expressions -/

/-- A constant is pushed. -/
theorem term_literal_ok {value : Literal} {code : List Instruction}
    (h : term scope locals (.literal value) = .ok code) :
    ∃ w, literalWord value = .ok w ∧ code = [.push w] := by
  simp only [term, bind_eq_ok, pure_eq_ok] at h
  obtain ⟨w, hw, rfl⟩ := h
  exact ⟨w, hw, rfl⟩

/-- An entry is loaded from the address made of a slot and the keys. -/
theorem term_index_ok {base : String} {keys : List Term} {code : List Instruction}
    (h : term scope locals (.index base keys) = .ok code) :
    ∃ slot rest, mappingSlot scope base keys.length = .ok slot
      ∧ keyCode scope locals keys = .ok rest ∧ code = pushNat slot :: rest ++ [.sload] := by
  simp only [term, bind_eq_ok, pure_eq_ok] at h
  obtain ⟨slot, hslot, rest, hrest, rfl⟩ := h
  exact ⟨slot, rest, hslot, hrest, rfl⟩

/-- Each key is added to what came before it, and the sum is hashed. -/
theorem keyCode_cons_ok {key : Term} {keys : List Term} {code : List Instruction}
    (h : keyCode scope locals (key :: keys) = .ok code) :
    ∃ first rest, term scope locals key = .ok first ∧ keyCode scope locals keys = .ok rest
      ∧ code = first ++ .binary .add :: .hash256 :: rest := by
  simp only [keyCode, bind_eq_ok, pure_eq_ok] at h
  obtain ⟨first, hfirst, rest, hrest, rfl⟩ := h
  exact ⟨first, rest, hfirst, hrest, rfl⟩

theorem address_ok {base : String} {keys : List Term} {code : List Instruction}
    (h : address scope locals base keys = .ok code) :
    ∃ slot rest, mappingSlot scope base keys.length = .ok slot
      ∧ keyCode scope locals keys = .ok rest ∧ code = pushNat slot :: rest := by
  simp only [address, bind_eq_ok, pure_eq_ok] at h
  obtain ⟨slot, hslot, rest, hrest, rfl⟩ := h
  exact ⟨slot, rest, hslot, hrest, rfl⟩

/-- Where the code of an entry ends: a slot, the keys, and what is done with the address. -/
theorem add_length_entry (pc : Nat) (i j : Instruction) (rest : List Instruction) :
    pc + (i :: rest ++ [j]).length = pc + 1 + rest.length + 1 := by
  simp only [List.cons_append, List.length_cons, List.length_append, List.length_nil]
  omega

/-- Where the code of keys ends: the first key, its two instructions, and the other keys. -/
theorem add_length_key (pc : Nat) (first rest : List Instruction) (i j : Instruction) :
    pc + (first ++ i :: j :: rest).length = pc + first.length + 1 + 1 + rest.length := by
  simp only [List.length_append, List.length_cons]
  omega

/-- Only a mapping with as many keys has a slot for its entries. -/
theorem mappingSlot_ok {base : String} {keys slot : Nat}
    (h : mappingSlot scope base keys = .ok slot) :
    scope.cell? base = some (.mapping keys) ∧ slot = scope.slot base := by
  unfold mappingSlot at h
  split at h
  · next depth hcell =>
    split at h
    · next hkeys =>
      cases h
      exact ⟨by rw [hcell, hkeys], rfl⟩
    · cases h
  · cases h

theorem terms_cons_ok {first : Term} {rest : List Term} {codes : List (List Instruction)}
    (h : terms scope locals (first :: rest) = .ok codes) :
    ∃ code more, term scope locals first = .ok code ∧ terms scope locals rest = .ok more
      ∧ codes = code :: more := by
  simp only [terms, bind_eq_ok, pure_eq_ok] at h
  obtain ⟨code, hcode, more, hmore, rfl⟩ := h
  exact ⟨code, more, hcode, hmore, rfl⟩

/-- An expression that compiles is a first operand and pairs of an operator and an operand. -/
theorem expression_ok {e : Expression} {code : List Instruction}
    (h : expression scope locals e = .ok code) :
    ∃ first rest firstCode codes, e.terms = first :: rest ∧ rest.length = e.operators.length
      ∧ term scope locals first = .ok firstCode ∧ terms scope locals rest = .ok codes
      ∧ code = firstCode ++ weave [] (e.operators.zip codes) := by
  -- The check of the lengths is what makes the first operand be there.
  unfold expression at h
  split at h
  · next hlen =>
    obtain ⟨codes, hcodes, hmatch⟩ := bind_eq_ok.1 h
    -- There is one operand more than there are operators, so there is a first one.
    cases hterms : e.terms with
    | nil => rw [hterms] at hlen; simp at hlen
    | cons first rest =>
      rw [hterms] at hcodes hlen
      obtain ⟨firstCode, more, hfirst, hmore, rfl⟩ := terms_cons_ok hcodes
      have hcode : firstCode ++ weave [] (e.operators.zip more) = code := pure_eq_ok.1 hmatch
      exact ⟨first, rest, firstCode, more, rfl, by simpa using hlen, hfirst, hmore, hcode.symm⟩
  · cases h

/-! ### Straight statements -/

/-- A local is stored to the cell of its number, and its name counts behind its value only. -/
theorem localVariable_ok {v : LocalVariable} {code : List Instruction}
    (h : localVariable scope locals v = .ok (code, after)) :
    ∃ value, expression scope locals v.value = .ok value
      ∧ code = value ++ [pushNat (locals.number v.name).1, .mstore]
      ∧ after = (locals.number v.name).2 := by
  simp only [localVariable, bind_eq_ok, pure_eq_ok, Prod.mk.injEq] at h
  obtain ⟨value, hvalue, rfl, rfl⟩ := h
  exact ⟨value, hvalue, rfl, rfl⟩

/-- The value of an assignment comes first, then the place it goes to. -/
theorem assignment_ok {a : Assignment} {code : List Instruction}
    (h : assignment scope locals a = .ok code) :
    ∃ target value rest, a.target.singleTerm? = some target
      ∧ expression scope locals a.value = .ok value
      ∧ store scope locals a.target target = .ok rest ∧ code = value ++ rest := by
  unfold assignment at h
  split at h
  · cases h
  · next target htarget =>
    simp only [bind_eq_ok, pure_eq_ok] at h
    obtain ⟨value, hvalue, rest, hrest, rfl⟩ := h
    exact ⟨target, value, rest, htarget, hvalue, hrest, rfl⟩

/-- The one operand of a target is an operand of it. -/
theorem mem_of_singleTerm? {e : Expression} {x : Term} (h : e.singleTerm? = some x) :
    x ∈ e.terms := by
  unfold Expression.singleTerm? at h
  split at h
  · next hterms _ =>
    cases h
    rw [hterms]
    exact List.mem_cons_self
  · cases h

theorem store_index_ok {target : Expression} {base : String} {keys : List Term}
    {code : List Instruction} (h : store scope locals target (.index base keys) = .ok code) :
    ∃ place, address scope locals base keys = .ok place ∧ code = place ++ [.sstore] := by
  simp only [store, bind_eq_ok, pure_eq_ok] at h
  obtain ⟨place, hplace, rfl⟩ := h
  exact ⟨place, hplace, rfl⟩

/-! ### Statements and blocks -/

/-- A `return` leaves its value and jumps to the end, wherever that is. -/
theorem statement_returns_ok {value : Expression} {code : List Symbol}
    (h : statement scope position locals (.returns value) = .ok (code, after)) :
    ∃ valueCode, expression scope locals value = .ok valueCode
      ∧ code = plain valueCode ++ [.pushEnd, .instruction .jump] ∧ after = locals := by
  simp only [statement, bind_eq_ok, pure_eq_ok, Prod.mk.injEq] at h
  obtain ⟨valueCode, hvalue, rfl, rfl⟩ := h
  exact ⟨valueCode, hvalue, rfl, rfl⟩

theorem statement_assign_ok {a : Assignment} {code : List Symbol}
    (h : statement scope position locals (.assign a) = .ok (code, after)) :
    ∃ assignCode, assignment scope locals a = .ok assignCode ∧ code = plain assignCode
      ∧ after = locals := by
  simp only [statement, bind_eq_ok, pure_eq_ok, Prod.mk.injEq] at h
  obtain ⟨assignCode, hassign, rfl, rfl⟩ := h
  exact ⟨assignCode, hassign, rfl, rfl⟩

theorem statement_declare_ok {v : LocalVariable} {code : List Symbol}
    (h : statement scope position locals (.declare v) = .ok (code, after)) :
    ∃ declareCode, localVariable scope locals v = .ok (declareCode, after)
      ∧ code = plain declareCode := by
  simp only [statement, bind_eq_ok, pure_eq_ok, Prod.mk.injEq, Prod.exists] at h
  obtain ⟨declareCode, locals', hdeclare, rfl, rfl⟩ := h
  exact ⟨declareCode, hdeclare, rfl⟩

/-- A branch is a test under the position of the second arm, the first arm, the jump over the second
arm and the second arm. -/
theorem statement_branch_ok {condition : Expression} {thenBody : List Statement}
    {elseBody : Option (List Statement)} {code : List Symbol}
    (h : statement scope position locals (.branch condition thenBody elseBody)
      = .ok (code, after)) :
    ∃ test thenCode middle elseCode skip, expression scope locals condition = .ok test
      ∧ block scope (position + test.length + 2) locals thenBody = .ok (thenCode, middle)
      ∧ elseArm scope (position + test.length + 2 + thenCode.length) middle elseBody
          = .ok (elseCode, skip, after)
      ∧ code = plain (pushNat (position + test.length + 2 + thenCode.length + skip.length)
          :: test ++ [.jumpi]) ++ thenCode ++ plain skip ++ elseCode := by
  simp only [statement, bind_eq_ok, pure_eq_ok, Prod.mk.injEq, Prod.exists] at h
  obtain ⟨test, htest, thenCode, middle, hthen, elseCode, skip, after', helse, rfl, rfl⟩ := h
  exact ⟨test, thenCode, middle, elseCode, skip, htest, hthen, helse, rfl⟩

/-- A loop is the declaration of its variable, a test under the position behind the loop, the body,
the step and a jump back to the test. -/
theorem statement_loop_ok {start : LocalVariable} {condition : Expression} {step : Assignment}
    {body : List Statement} {code : List Symbol}
    (h : statement scope position locals (.loop start condition step body) = .ok (code, after)) :
    ∃ startCode inner test bodyCode stepCode,
      localVariable scope locals start = .ok (startCode, inner)
      ∧ expression scope inner condition = .ok test
      ∧ block scope (position + startCode.length + test.length + 2) inner body
          = .ok (bodyCode, after)
      ∧ assignment scope after step = .ok stepCode
      ∧ code = plain (startCode ++ pushNat (position + startCode.length + test.length + 2
            + bodyCode.length + stepCode.length + 2) :: test ++ [.jumpi]) ++ bodyCode
          ++ plain (stepCode ++ [pushNat (position + startCode.length), .jump]) := by
  simp only [statement, bind_eq_ok, pure_eq_ok, Prod.mk.injEq, Prod.exists] at h
  obtain ⟨startCode, inner, hstart, test, htest, bodyCode, after', hbody, stepCode, hstep, rfl,
    rfl⟩ := h
  exact ⟨startCode, inner, test, bodyCode, stepCode, hstart, htest, hbody, hstep, rfl⟩

theorem block_nil_ok {code : List Symbol} (h : block scope position locals [] = .ok (code, after)) :
    code = [] ∧ after = locals := by
  simp only [block, Except.ok.injEq, Prod.mk.injEq] at h
  exact ⟨h.1.symm, h.2.symm⟩

/-- The statements of a block stand one after the other, and the locals of each are handed on. -/
theorem block_cons_ok {first : Statement} {rest : List Statement} {code : List Symbol}
    (h : block scope position locals (first :: rest) = .ok (code, after)) :
    ∃ firstCode middle restCode,
      statement scope position locals first = .ok (firstCode, middle)
      ∧ block scope (position + firstCode.length) middle rest = .ok (restCode, after)
      ∧ code = firstCode ++ restCode := by
  simp only [block, bind_eq_ok, pure_eq_ok, Prod.mk.injEq, Prod.exists] at h
  obtain ⟨firstCode, middle, hfirst, restCode, after', hrest, rfl, rfl⟩ := h
  exact ⟨firstCode, middle, restCode, hfirst, hrest, rfl⟩

theorem elseArm_none_ok {code : List Symbol} {skip : List Instruction}
    (h : elseArm scope position locals none = .ok (code, skip, after)) :
    code = [] ∧ skip = [] ∧ after = locals := by
  simp only [elseArm, Except.ok.injEq, Prod.mk.injEq] at h
  exact ⟨h.1.symm, h.2.1.symm, h.2.2.symm⟩

/-- The first arm ends with a jump over the second, which is two instructions. -/
theorem elseArm_some_ok {body : List Statement} {code : List Symbol} {skip : List Instruction}
    (h : elseArm scope position locals (some body) = .ok (code, skip, after)) :
    block scope (position + 2) locals body = .ok (code, after)
      ∧ skip = [pushNat (position + 2 + code.length), .jump] := by
  simp only [elseArm, bind_eq_ok, pure_eq_ok, Prod.mk.injEq, Prod.exists] at h
  obtain ⟨code', after', hblock, rfl, rfl, rfl⟩ := h
  exact ⟨hblock, rfl⟩

/-! ### Function bodies -/

/-- A `return` that is the last statement of a body needs no jump. -/
theorem bodyFrom_last_ok {value : Expression} {code : List Symbol}
    (h : bodyFrom scope position locals [.returns value] = .ok code) :
    ∃ valueCode, expression scope locals value = .ok valueCode ∧ code = plain valueCode := by
  simp only [bodyFrom, bind_eq_ok, pure_eq_ok] at h
  obtain ⟨valueCode, hvalue, rfl⟩ := h
  exact ⟨valueCode, hvalue, rfl⟩

/-- Any statement but a last `return` is compiled as inside a block. -/
theorem bodyFrom_cons_ok {first : Statement} {rest : List Statement} {code : List Symbol}
    (hlast : ∀ value, ¬ (first = .returns value ∧ rest = []))
    (h : bodyFrom scope position locals (first :: rest) = .ok code) :
    ∃ firstCode middle restCode,
      statement scope position locals first = .ok (firstCode, middle)
      ∧ bodyFrom scope (position + firstCode.length) middle rest = .ok restCode
      ∧ code = firstCode ++ restCode := by
  rw [bodyFrom] at h
  · simp only [bind_eq_ok, pure_eq_ok, Prod.exists] at h
    obtain ⟨firstCode, middle, hfirst, restCode, hrest, rfl⟩ := h
    exact ⟨firstCode, middle, restCode, hfirst, hrest, rfl⟩
  · intro value hfirst hrest
    exact hlast value ⟨hfirst, hrest⟩

/-- The end of a body is known when all of it has been compiled. -/
theorem body_ok {statements : List Statement} {code : List Instruction}
    (h : body scope statements = .ok code) :
    ∃ symbols, bodyFrom scope 0 {} statements = .ok symbols ∧ code = settle symbols := by
  unfold body at h
  cases hfrom : bodyFrom scope 0 {} statements with
  | error e => rw [hfrom] at h; cases h
  | ok symbols =>
    rw [hfrom] at h
    cases h
    exact ⟨symbols, rfl, rfl⟩

/-- Straight code has nothing to settle. -/
@[simp] theorem map_settle_plain (length : Nat) (code : List Instruction) :
    (plain code).map (Symbol.settle length) = code := by
  rw [plain, List.map_map]
  exact List.map_id code

@[simp] theorem length_plain (code : List Instruction) : (plain code).length = code.length :=
  List.length_map _

/-! ### Places in a body

Symbols become instructions when the length of the body is known, so code with symbols can be found
again in a complete body only. -/

/-- The symbols stand at the position in a complete body, as the instructions they stand for. -/
def Placed (whole : List Instruction) (position : Nat) (symbols : List Symbol) : Prop :=
  CodeAt whole position (symbols.map (Symbol.settle whole.length))

variable {whole : List Instruction}

/-- Straight code stands in a body as it is. -/
@[simp] theorem placed_plain {piece : List Instruction} :
    Placed whole position (plain piece) ↔ CodeAt whole position piece := by
  rw [Placed, map_settle_plain]

/-- Two pieces stand in a body one behind the other. -/
@[simp] theorem placed_append {first second : List Symbol} :
    Placed whole position (first ++ second)
      ↔ Placed whole position first ∧ Placed whole (position + first.length) second := by
  rw [Placed, List.map_append, codeAt_append, List.length_map]
  rfl

theorem Placed.shift {symbols : List Symbol} {q : Nat} (h : Placed whole position symbols)
    (heq : position = q) : Placed whole q symbols := heq ▸ h

/-- The symbols of a body stand at its beginning. -/
theorem placed_settle (symbols : List Symbol) : Placed (settle symbols) 0 symbols := by
  have hlen : (settle symbols).length = symbols.length := List.length_map _
  rw [Placed, hlen]
  exact codeAt_self _

/-- The code of a `return` is that of its value and the jump to the end of the body. -/
theorem returns_placed {value : Expression} {code : List Symbol}
    (h : statement scope position locals (.returns value) = .ok (code, after))
    (hplaced : Placed whole position code) :
    ∃ valueCode, expression scope locals value = .ok valueCode
      ∧ CodeAt whole position valueCode
      ∧ CodeAt whole (position + valueCode.length) [pushNat whole.length, .jump] := by
  obtain ⟨valueCode, hvalue, rfl, -⟩ := statement_returns_ok h
  rw [placed_append, placed_plain, length_plain] at hplaced
  exact ⟨valueCode, hvalue, hplaced.1, hplaced.2⟩

/-- The parts of a branch in a body. -/
theorem branch_placed {condition : Expression} {thenBody : List Statement}
    {elseBody : Option (List Statement)} {code : List Symbol}
    (h : statement scope position locals (.branch condition thenBody elseBody)
      = .ok (code, after))
    (hplaced : Placed whole position code) :
    ∃ test thenCode middle elseCode skip thenStart elseStart,
      thenStart = position + test.length + 2
      ∧ elseStart = thenStart + thenCode.length + skip.length
      ∧ position + code.length = elseStart + elseCode.length
      ∧ position + code.length ≤ whole.length
      ∧ expression scope locals condition = .ok test
      ∧ block scope thenStart locals thenBody = .ok (thenCode, middle)
      ∧ elseArm scope (thenStart + thenCode.length) middle elseBody = .ok (elseCode, skip, after)
      ∧ CodeAt whole position (pushNat elseStart :: test ++ [.jumpi])
      ∧ Placed whole thenStart thenCode ∧ CodeAt whole (thenStart + thenCode.length) skip
      ∧ Placed whole elseStart elseCode := by
  obtain ⟨test, thenCode, middle, elseCode, skip, htest, hthen, helse, rfl⟩ := statement_branch_ok h
  have hle := CodeAt.le_length hplaced (by simp [plain])
  rw [List.length_map] at hle
  rw [placed_append, placed_append, placed_append, placed_plain, placed_plain] at hplaced
  obtain ⟨⟨⟨hcode, hthenAt⟩, hskip⟩, helseAt⟩ := hplaced
  -- The parts are in place up to the sums of lengths that say where.
  refine ⟨test, thenCode, middle, elseCode, skip, _, _, rfl, rfl, ?_, hle, htest, hthen, helse, hcode,
    hthenAt.shift ?_, hskip.shift ?_, helseAt.shift ?_⟩
  all_goals
    simp only [List.length_append, length_plain, List.length_cons, List.length_nil]
    omega

/-- The parts of a loop in a body. -/
theorem loop_placed {start : LocalVariable} {condition : Expression} {step : Assignment}
    {body : List Statement} {code : List Symbol}
    (h : statement scope position locals (.loop start condition step body) = .ok (code, after))
    (hplaced : Placed whole position code) :
    ∃ startCode inner test bodyCode stepCode head bodyStart,
      head = position + startCode.length ∧ bodyStart = head + test.length + 2
      ∧ position + code.length = bodyStart + bodyCode.length + stepCode.length + 2
      ∧ position + code.length ≤ whole.length
      ∧ localVariable scope locals start = .ok (startCode, inner)
      ∧ expression scope inner condition = .ok test
      ∧ block scope bodyStart inner body = .ok (bodyCode, after)
      ∧ assignment scope after step = .ok stepCode
      ∧ CodeAt whole position startCode
      ∧ CodeAt whole head (pushNat (position + code.length) :: test ++ [.jumpi])
      ∧ Placed whole bodyStart bodyCode
      ∧ CodeAt whole (bodyStart + bodyCode.length) stepCode
      ∧ CodeAt whole (bodyStart + bodyCode.length + stepCode.length) [pushNat head, .jump] := by
  obtain ⟨startCode, inner, test, bodyCode, stepCode, hstart, htest, hbody, hstep, hcode⟩ :=
    statement_loop_ok h
  have hlen : position + code.length = position + startCode.length + test.length + 2
      + bodyCode.length + stepCode.length + 2 := by
    rw [hcode]
    simp only [List.length_append, length_plain, List.length_cons, List.length_nil]
    omega
  have hle := CodeAt.le_length hplaced (by simp [hcode, plain])
  rw [List.length_map] at hle
  rw [hcode, placed_append, placed_append, placed_plain, placed_plain, List.append_assoc] at hplaced
  -- The declaration and the test are one piece of straight code, and so are the step and the jump.
  obtain ⟨⟨hfront, hbodyAt⟩, hback⟩ := hplaced
  obtain ⟨hstartAt, htestAt⟩ := codeAt_append.1 hfront
  obtain ⟨hstepAt, hjump⟩ := codeAt_append.1 hback
  refine ⟨startCode, inner, test, bodyCode, stepCode, _, _, rfl, rfl, hlen, hle, hstart, htest, hbody,
    hstep, hstartAt, ?_, hbodyAt.shift ?_, hstepAt.shift ?_, hjump.shift ?_⟩
  · rw [hlen]
    exact htestAt
  all_goals
    simp only [List.length_append, length_plain, List.length_cons, List.length_nil]
    omega

/-! ### Declarations

Names are distinct, so numbering the storage declarations in turn numbers them by their places. -/

/-- Where no name is found to be repeated, none is, and none was seen before. -/
theorem nodup_of_firstRepeat? {seen names : List String} (h : firstRepeat? seen names = none) :
    names.Nodup ∧ ∀ name ∈ names, name ∉ seen := by
  induction names generalizing seen with
  | nil => simp
  | cons name rest ih =>
    rw [firstRepeat?] at h
    split at h
    · cases h
    · next hseen =>
      obtain ⟨hnodup, hrest⟩ := ih h
      rw [List.contains_iff_mem] at hseen
      -- The name has been seen when the rest is looked at.
      have habsent : name ∉ rest := fun hmem => hrest name hmem List.mem_cons_self
      refine ⟨List.nodup_cons.2 ⟨habsent, hnodup⟩, ?_⟩
      intro other hother
      rcases List.mem_cons.1 hother with rfl | hmem
      · exact hseen
      · exact fun hin => hrest other hmem (List.mem_cons_of_mem _ hin)

/-- A name that was not asked for yet comes last. -/
theorem number_of_notMem {slots : Numbering} {name : String} (h : name ∉ slots.names) :
    slots.number name = (slots.names.length, ⟨slots.names ++ [name]⟩) := by
  have habsent : slots.lookup? name = none := List.idxOf?_eq_none_iff.2 h
  rw [Numbering.number, habsent]

/-- The slots of storage declarations with names of their own are the places of the names. -/
theorem initialization_slots {slots slots' : Numbering} {declarations : List Declaration}
    {code : List Instruction} (hnodup : (slots.names ++ declarations.map Declaration.name).Nodup)
    (h : initialization slots declarations = .ok (code, slots')) :
    slots' = ⟨slots.names ++ (declarations.filterMap Declaration.cell?).map Prod.fst⟩ := by
  induction declarations generalizing slots code with
  | nil =>
    cases h
    simp
  | cons d rest ih =>
    -- A declared name is new, so its number is taken and put behind the others.
    have htake : ∀ code, d.name ∉ slots.names
        ∧ (initialization (slots.number d.name).2 rest = .ok (code, slots') →
          slots' = ⟨slots.names ++ d.name :: (rest.filterMap Declaration.cell?).map Prod.fst⟩) := by
      intro code
      have hnew : d.name ∉ slots.names := by
        intro hmem
        exact (List.nodup_append.1 hnodup).2.2 _ hmem _ (by simp) rfl
      refine ⟨hnew, fun hrest => ?_⟩
      rw [number_of_notMem hnew] at hrest
      rw [ih (by simpa [List.append_assoc] using hnodup) hrest]
      simp
    cases d with
    | variable_ d =>
      simp only [initialization, bind_eq_ok, pure_eq_ok, Prod.mk.injEq, Prod.exists] at h
      obtain ⟨value, -, restCode, slots'', hrest, -, rfl⟩ := h
      exact (htake restCode).2 hrest
    | mapping d =>
      rw [initialization] at h
      exact (htake code).2 h
    | function f =>
      -- A function has a name but no slot.
      rw [initialization] at h
      have hsub : (slots.names ++ rest.map Declaration.name).Nodup :=
        hnodup.sublist (List.Sublist.append_left (List.sublist_cons_self _ _) _)
      exact ih hsub h

/-! ### Functions -/

/-- The parts of a function that compiles. What its parameters are checked for is no part of the
code. -/
theorem function_ok {f : FunctionDeclaration} {code : FunctionCode}
    (h : function scope f = .ok code) :
    checkParameters scope f.name [] f.parameters = .ok ()
      ∧ parameterWords f.parameters = .ok code.parameters
      ∧ body scope f.body = .ok code.body := by
  simp only [function, bind_eq_ok, pure_eq_ok] at h
  obtain ⟨⟨⟩, hcheck, words, hwords, bodyCode, hbody, rfl⟩ := h
  exact ⟨hcheck, hwords, hbody⟩

theorem length_functions {fs : List FunctionDeclaration} {codes : List FunctionCode}
    (h : functions scope fs = .ok codes) : codes.length = fs.length := by
  induction fs generalizing codes with
  | nil =>
    cases h
    rfl
  | cons first rest ih =>
    simp only [functions, bind_eq_ok, pure_eq_ok] at h
    obtain ⟨firstCode, -, more, hmore, rfl⟩ := h
    rw [List.length_cons, List.length_cons, ih hmore]

/-- Functions are compiled one by one, in order. -/
theorem functions_getElem? {fs : List FunctionDeclaration} {codes : List FunctionCode}
    (h : functions scope fs = .ok codes) (i : Nat) (code : FunctionCode) :
    codes[i]? = some code ↔ ∃ f, fs[i]? = some f ∧ function scope f = .ok code := by
  induction fs generalizing codes i with
  | nil =>
    cases h
    simp
  | cons first rest ih =>
    simp only [functions, bind_eq_ok, pure_eq_ok] at h
    obtain ⟨firstCode, hfirst, more, hmore, rfl⟩ := h
    cases i with
    | zero => simp [hfirst]
    | succ i => simpa using ih hmore i

end Compile

namespace Contract

/-- The storage declarations of a contract: what the functions of the contract share. -/
def scope (c : Contract) : Scope :=
  ⟨c.declarations.filterMap Declaration.cell?,
    ⟨(c.declarations.filterMap Declaration.cell?).map Prod.fst⟩⟩

variable {c : Contract} {p : Program}

/-- A contract that compiles is compiled in its own scope. -/
theorem compile_ok (h : c.compile = .ok p) :
    (c.declarations.map Declaration.name).Nodup
      ∧ (∃ slots, Compile.initialization {} c.declarations = .ok (p.initialization, slots))
      ∧ ∃ codes, Compile.functions c.scope c.functions = .ok codes
        ∧ p.functions = FunctionCode.table codes := by
  unfold compile at h
  split at h
  · cases h
  · next hrepeat =>
    obtain ⟨hnodup, -⟩ := Compile.nodup_of_firstRepeat? hrepeat
    simp only [bind_eq_ok, pure_eq_ok, Prod.exists] at h
    obtain ⟨code, slots, hinit, codes, hcodes, rfl⟩ := h
    -- The numbering that the initial values end with is the one that the scope has.
    have hslots := Compile.initialization_slots (by simpa using hnodup) hinit
    refine ⟨hnodup, ⟨slots, hinit⟩, codes, ?_, rfl⟩
    rw [hslots] at hcodes
    simpa [scope] using hcodes

/-- The functions of a compiled contract are those it declares, by their places. -/
theorem compile_function (h : c.compile = .ok p) (i : Nat) (code : FunctionCode) :
    p.functions.get? i = some code
      ↔ ∃ f, c.functions[i]? = some f ∧ Compile.function c.scope f = .ok code := by
  obtain ⟨-, -, codes, hcodes, htable⟩ := compile_ok h
  rw [htable, FunctionCode.get?_table, Compile.functions_getElem? hcodes]

/-- Every function of a compiled contract has code. -/
theorem exists_code (h : c.compile = .ok p) {i : Nat} {f : FunctionDeclaration}
    (hf : c.functions[i]? = some f) :
    ∃ code, p.functions.get? i = some code ∧ Compile.function c.scope f = .ok code := by
  obtain ⟨-, -, codes, hcodes, htable⟩ := compile_ok h
  obtain ⟨hlt, -⟩ := List.getElem?_eq_some_iff.1 hf
  -- There are as many codes as functions.
  have hget : p.functions.get? i = some (codes.get ⟨i, Compile.length_functions hcodes ▸ hlt⟩) := by
    rw [htable, FunctionCode.get?_table]
    exact List.getElem?_eq_getElem _
  obtain ⟨f', hf', hfunction⟩ := (compile_function h i _).1 hget
  cases hf.symm.trans hf'
  exact ⟨_, hget, hfunction⟩

end Contract

end Covenant
