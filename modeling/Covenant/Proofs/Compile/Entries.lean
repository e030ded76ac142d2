import Covenant.Proofs.Compile.Correctness
import Covenant.Proofs.Compile.Mapping

/-!
# Entries hold what is assigned to them

The code of an assignment to a mapping entry changes the storage cell of the entry and no other. What
the entry is read as afterwards, further on in the same call or in a later one, is what was assigned;
an entry of the same mapping with one key changed is read as before.

Nothing is left open here about how far the code gets. It is straight code, so it takes one step for
each instruction, and it needs a bounded number of free places on the stack.

* `HaveWords` gives the operands of an entry their values, and `EntryReads` says what an entry is
  read as, as an operand and by a call that returns it.
* `assigned_entry_is_read_back` is the result.
-/

namespace Covenant

namespace Compile

/-! ### The code of entries -/

section Entries

variable {ω : Type} [Stores ω] {limits : Limits} {program : Word} {memory : Memory} {s s' : ω}
  {room : Nat} {c : Contract} {p : Program} {locals : Numbering} {base : String} {keys : List Term}
  {ks : List Word} {xs : List Instruction} {stack : List Word}

/-- With so many free places on the stack, the code of each operand puts the given word there. -/
def HaveWords (limits : Limits) (program : Word) (memory : Memory) (s : ω) (room : Nat)
    (c : Contract) (locals : Numbering) : List Term → List Word → Prop :=
  GiveWords (performing ω limits program memory) s room c locals

/-- A parameter that has an argument yields it. -/
theorem yields_parameter {name : String} {key w : Word}
    (hresolve : c.scope.resolve locals name = .parameter) (hkey : textWord name = .ok key)
    (hmemory : memory.get? key = some w) (h : term c.scope locals (.ident name) = .ok xs) :
    Yields limits program memory s 1 xs (.ok w) := by
  rw [term, readName, hresolve] at h
  simp only [hkey, bind_eq_ok, pure_eq_ok] at h
  obtain ⟨_, ⟨⟩, rfl⟩ := h
  exact .value fun stack hroom => (straight_performing _ _ _).pushParam _ hmemory hroom

/-! ### Calls -/

/-- The code of an expression that is one operand is the code of the operand. -/
theorem term_of_expression {scope : Scope} {x : Term} {code : List Instruction}
    (h : expression scope locals ⟨[x], []⟩ = .ok code) : term scope locals x = .ok code := by
  obtain ⟨first, rest, firstCode, codes, hterms, -, hfirst, hrest, rfl⟩ := expression_ok h
  cases hterms
  cases hrest
  rw [hfirst]
  show Except.ok firstCode = .ok (firstCode ++ [])
  rw [List.append_nil]

/-- The body of a function that returns one operand is the code of the operand. -/
theorem term_of_body {scope : Scope} {x : Term} {code : List Instruction}
    (h : body scope [.returns ⟨[x], []⟩] = .ok code) : term scope {} x = .ok code := by
  obtain ⟨symbols, hsymbols, rfl⟩ := body_ok h
  obtain ⟨valueCode, hvalue, rfl⟩ := bodyFrom_last_ok hsymbols
  rw [settle, map_settle_plain]
  exact term_of_expression hvalue

end Entries

end Compile

namespace Machine

variable {ω : Type} [Stores ω] {m : Machine ω} {p : Program} {address : Word} {i room : Nat}
  {code : FunctionCode} {arguments : List Word} {result : Except Fault Word}

/-- A call of a function whose code stands for one word gives that word, or comes to its fault. -/
theorem callWords_of_yields (hloaded : m.loaded = some ⟨p, address⟩)
    (hget : p.functions.get? i = some code) (hlength : arguments.length ≤ code.parameters.length)
    (hroom : room ≤ m.limits.stack) (hallow : m.limits.Allow code.body.length)
    (h : Yields m.limits address (bind code.parameters arguments) m.stores room code.body result) :
    ∃ fuel m', m.callWords fuel i arguments = some (result.map some, m')
      ∧ m'.stores = m.stores := by
  obtain ⟨fuel, o, hrun, hstores, hresult⟩ := run_of_yields h hroom hallow
  refine ⟨fuel, { m with stores := o.stores, frame := o.frame, phase := phaseAfter o }, ?_, hstores⟩
  rw [callWords_eq_map_run hloaded hget hlength, hrun, Option.map_some, hresult]

end Machine

namespace Compile

section Entries

variable {ω : Type} [Stores ω]

/-- An entry is read as a word, or its reading comes to a fault: wherever code has the entry for an
operand, and in every call of a function that returns it. -/
structure EntryReads (c : Contract) (p : Program) (base : String) (ks : List Word) (s : ω)
    (result : Except Fault Word) : Prop where
  operand : ∀ (limits : Limits) (program : Word) (memory : Memory) (room : Nat)
    (locals : Numbering) (keys : List Term) (xs : List Instruction),
    HaveWords limits program memory s room c locals keys ks →
    term c.scope locals (.index base keys) = .ok xs →
    Yields limits program memory s (room + 1) xs result
  call : ∀ (m : Machine ω) (address : Word) (i room : Nat) (f : FunctionDeclaration)
    (code : FunctionCode) (arguments : List Word) (keys : List Term),
    m.stores = s → m.loaded = some ⟨p, address⟩ →
    c.functions[i]? = some f → f.body = [.returns ⟨[.index base keys], []⟩] →
    p.functions.get? i = some code → arguments.length ≤ code.parameters.length →
    HaveWords m.limits address (Machine.bind code.parameters arguments) s room c {} keys ks →
    room + 1 ≤ m.limits.stack → m.limits.Allow code.body.length →
    ∃ fuel m', m.callWords fuel i arguments = some (result.map some, m') ∧ m'.stores = s

/-- What an entry is read as is what its cell holds. -/
theorem entryReads_readCell {c : Contract} {p : Program} (hcompile : c.compile = .ok p)
    (base : String) (ks : List Word) (s : ω) :
    EntryReads c p base ks s (Instruction.readCell s (c.entryAddress base ks)) where
  operand := fun limits program memory _ _ _ _ hkeys hterm =>
    gives_index (straight_performing limits program memory) hkeys hterm
  -- The body of such a function is the code of the entry as an operand.
  call := by
    intro m address i room f code arguments keys hstores hloaded hf hbody hget hlength hkeys hroom
      hallow
    subst hstores
    obtain ⟨f', hf', hfunction⟩ := (Contract.compile_function hcompile i code).1 hget
    cases hf.symm.trans hf'
    obtain ⟨-, -, hcode⟩ := function_ok hfunction
    rw [hbody] at hcode
    exact Machine.callWords_of_yields hloaded hget hlength hroom hallow
      (gives_index (straight_performing _ _ _) hkeys (term_of_body hcode))

/-- Two stores hold the same in a storage cell. -/
def SameCell (s later : ω) (address : Word) : Prop :=
  Stores.get? later .storage address.hex = Stores.get? s .storage address.hex

/-- **An entry holds what was assigned to it.** In a contract that compiles, let the target of an
assignment be an entry of a mapping, let the operands of the entry and the value have the words `ks`
and `w`, and let the stores not fail. The code of the assignment then runs to its end and changes one
storage cell. As long as that cell is not changed again, the entry is read as `w`. An entry of the
same mapping with one key changed is read as it was before the assignment as long as its own cell is
not changed, given that the hash has no collision among the words hashed for the two. -/
theorem assigned_entry_is_read_back {c : Contract} {p : Program} (hcompile : c.compile = .ok p)
    {good : ω → Prop} (hreliable : Stores.Reliable good) {s : ω} (hgood : good s) {limits : Limits}
    {program : Word} {memory : Memory} {room : Nat} {locals : Numbering} {a : Assignment}
    {base : String} {keys : List Term} {ks : List Word} {w : Word} {xs : List Instruction}
    (htarget : a.target.singleTerm? = some (.index base keys))
    (hvalue : ∀ ys, expression c.scope locals a.value = .ok ys →
      Yields limits program memory s room ys (.ok w))
    (hkeys : HaveWords limits program memory s room c locals keys ks)
    (hassign : assignment c.scope locals a = .ok xs) :
    ∃ s', good s'
      ∧ (∀ stack : List Word, stack.length + room + 2 ≤ limits.stack →
          Performs limits program memory xs stack s stack s')
      ∧ (∀ key, Stores.get? s' .storage key
          = if key = (c.entryAddress base ks).hex then .ok (some w.toBytes)
            else Stores.get? s .storage key)
      ∧ (∀ later, SameCell s' later (c.entryAddress base ks) →
          EntryReads c p base ks later (.ok w))
      ∧ ∀ ls, Contract.DifferOnce base ks base ls →
          CollisionFree (c.entryHashed base ks ++ c.entryHashed base ls) →
          EntryReads c p base ls s (Instruction.readCell s (c.entryAddress base ls))
            ∧ ∀ later, SameCell s' later (c.entryAddress base ls) →
              EntryReads c p base ls later (Instruction.readCell s (c.entryAddress base ls)) := by
  obtain ⟨s', hwrite, hgood', hget⟩ :=
    hreliable.writeCell hgood program (c.entryAddress base ks) w
  refine ⟨s', hgood', fun stack hroom =>
    acts_assignment (straight_performing limits program memory) htarget hvalue hkeys hwrite hassign
      hroom, hget, ?_, ?_⟩
  · intro later hsame
    have hread : Instruction.readCell later (c.entryAddress base ks) = .ok w := by
      rw [readCell_congr hsame, readCell_after hget, if_pos rfl]
    rw [← hread]
    exact entryReads_readCell hcompile base ks later
  · intro ls hdiffer hfree
    refine ⟨entryReads_readCell hcompile base ls s, fun later hsame => ?_⟩
    -- The two entries are in different cells, so the write left this one alone.
    have hne : c.entryAddress base ks ≠ c.entryAddress base ls := by
      rcases hdiffer with ⟨hother, -⟩ | ⟨-, before, x, y, behind, rfl, rfl, hkey⟩
      · exact absurd rfl hother
      · exact Contract.entryAddress_ne_of_key hfree hkey
    have hread : Instruction.readCell later (c.entryAddress base ls)
        = Instruction.readCell s (c.entryAddress base ls) := by
      rw [readCell_congr hsame, readCell_after hget, if_neg hne]
    rw [← hread]
    exact entryReads_readCell hcompile base ls later

end Entries

/-- A mapping of two keys, with a function that assigns to an entry and one that returns it. -/
def tollBook : Contract :=
  ⟨"Tolls", [.mapping ⟨"tolls", ["Int", "Int"], "Int"⟩,
    .function ⟨"put", [⟨"a", "Int"⟩, ⟨"b", "Int"⟩, ⟨"v", "Int"⟩], none,
      [.assign ⟨⟨[.index "tolls" [.ident "a", .ident "b"]], []⟩, ⟨[.ident "v"], []⟩⟩]⟩,
    .function ⟨"look", [⟨"a", "Int"⟩, ⟨"b", "Int"⟩], some "Int",
      [.returns ⟨[.index "tolls" [.ident "a", .ident "b"]], []⟩]⟩]⟩

/-- The assignment of 9 to `tolls[3][2]` on empty stores is seen by a later call for `tolls[3][2]`,
and not by a later call for `tolls[4][2]`. -/
theorem toll_is_found_again :
    ∃ (p : Program) (put look : FunctionCode) (s' : MemoryStores),
      tollBook.compile = .ok p ∧ p.functions.get? 0 = some put ∧ p.functions.get? 1 = some look
      ∧ CollisionFree (tollBook.entryHashed "tolls" [.wrap 3, .wrap 2]
          ++ tollBook.entryHashed "tolls" [.wrap 4, .wrap 2])
      ∧ Performs {} .zero (Machine.bind put.parameters [.wrap 3, .wrap 2, .wrap 9]) put.body [] {}
          [] s'
      ∧ (∃ fuel m', Machine.callWords ⟨s', {}, some ⟨p, .zero⟩, {}, .ready⟩ fuel 1
          [.wrap 3, .wrap 2] = some (.ok (some (.wrap 9)), m'))
      ∧ ∃ fuel m', Machine.callWords ⟨s', {}, some ⟨p, .zero⟩, {}, .ready⟩ fuel 1
          [.wrap 4, .wrap 2] = some (.error (.missingStorageKey
            (tollBook.entryAddress "tolls" [.wrap 4, .wrap 2]).hex), m') := by
  have hfree : CollisionFree (tollBook.entryHashed "tolls" [.wrap 3, .wrap 2]
      ++ tollBook.entryHashed "tolls" [.wrap 4, .wrap 2]) := by
    decide +kernel
  -- The two functions have the arguments in memory under the names of their parameters.
  obtain ⟨p, put, look, hp, hput, hlook, hassign, hlength, hvalue, hkeys, hsame⟩ :
      ∃ (p : Program) (put look : FunctionCode), tollBook.compile = .ok p
        ∧ p.functions.get? 0 = some put ∧ p.functions.get? 1 = some look
        ∧ assignment tollBook.scope {} ⟨⟨[.index "tolls" [.ident "a", .ident "b"]], []⟩,
            ⟨[.ident "v"], []⟩⟩ = .ok put.body
        ∧ look.parameters.length = 2
        ∧ (∀ (s : MemoryStores) (x y z : Word) (ys : List Instruction),
            expression tollBook.scope {} ⟨[.ident "v"], []⟩ = .ok ys →
            Yields {} .zero (Machine.bind put.parameters [x, y, z]) s 1 ys (.ok z))
        ∧ (∀ (s : MemoryStores) (x y z : Word),
            HaveWords {} .zero (Machine.bind put.parameters [x, y, z]) s 1 tollBook {}
              [.ident "a", .ident "b"] [x, y])
        ∧ ∀ (s : MemoryStores) (x y : Word),
            HaveWords {} .zero (Machine.bind look.parameters [x, y]) s 1 tollBook {}
              [.ident "a", .ident "b"] [x, y] := by
    refine ⟨_, _, _, rfl, rfl, rfl, rfl, rfl, ?_, ?_, ?_⟩
    · exact fun s x y z ys h => yields_parameter rfl rfl rfl (term_of_expression h)
    · exact fun s x y z => .cons (fun xs h => yields_parameter rfl rfl rfl h)
        (.cons (fun xs h => yields_parameter rfl rfl rfl h) .nil)
    · exact fun s x y => .cons (fun xs h => yields_parameter rfl rfl rfl h)
        (.cons (fun xs h => yields_parameter rfl rfl rfl h) .nil)
  obtain ⟨s', -, hperforms, -, hread, hother⟩ := assigned_entry_is_read_back hp
    MemoryStores.reliable (s := {}) trivial rfl (hvalue {} (.wrap 3) (.wrap 2) (.wrap 9))
    (hkeys {} (.wrap 3) (.wrap 2) (.wrap 9)) hassign
  have hdiffer : Contract.DifferOnce "tolls" [.wrap 3, .wrap 2] "tolls" [.wrap 4, .wrap 2] :=
    Or.inr ⟨rfl, [], .wrap 3, .wrap 4, [.wrap 2], rfl, rfl, by decide⟩
  have hspared := (hother _ hdiffer hfree).2 s' rfl
  have harguments : 2 ≤ look.parameters.length := by omega
  have hroom : 1 + 1 ≤ ({} : Limits).stack := by decide
  have hallow : ({} : Limits).Allow look.body.length := fun limit h => by cases h
  refine ⟨p, put, look, s', hp, hput, hlook, hfree, hperforms [] (by decide), ?_, ?_⟩
  · obtain ⟨fuel, m', hcall, -⟩ := (hread s' rfl).call ⟨s', {}, some ⟨p, .zero⟩, {}, .ready⟩ .zero 1 1
      _ look [.wrap 3, .wrap 2] _ rfl rfl rfl rfl hlook harguments (hsame s' _ _) hroom hallow
    exact ⟨fuel, m', hcall⟩
  · obtain ⟨fuel, m', hcall, -⟩ := hspared.call ⟨s', {}, some ⟨p, .zero⟩, {}, .ready⟩ .zero 1 1
      _ look [.wrap 4, .wrap 2] _ rfl rfl rfl rfl hlook harguments (hsame s' _ _) hroom hallow
    exact ⟨fuel, m', hcall⟩

end Compile

end Covenant
