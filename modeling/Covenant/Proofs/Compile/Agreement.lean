import Covenant.Proofs.Contract.Names
import Covenant.Proofs.Evaluation
import Covenant.Proofs.Machine.Stores

/-!
# Agreement of an evaluation and a machine

An evaluation keeps locals and parameters by their names and storage as cells. A machine keeps them
in one memory of words and in a store of texts and bytes. `Agrees` says that the two hold the same,
and the lemmas here say that they go on to do so when both are changed alike.

Locals agree with respect to all locals of a function at once, `names`, in the order of their
declarations: a loop comes back to code that was compiled when fewer were declared.

* `after_statement` says that compilation and evaluation declare the same locals.
* `Agrees.setLocal`, `Agrees.setParameter` and `Agrees.setCell` are the changes.
-/

namespace Covenant

namespace Compile

variable {scope : Scope} {locals after : Numbering} {position : Nat}

/-! ### Locals -/

/-- A local is numbered where an evaluation declares it: at the end, or where it is already. -/
theorem names_number (locals : Numbering) (name : String) :
    (locals.number name).2.names = Evaluation.declare locals.names name := by
  unfold Numbering.number Evaluation.declare
  cases h : locals.lookup? name with
  | some i =>
    have hmem : name ∈ locals.names := by
      rcases Decidable.em (name ∈ locals.names) with hmem | hmem
      · exact hmem
      · rw [Numbering.lookup?, List.idxOf?_eq_none_iff.2 hmem] at h
        cases h
    rw [if_pos hmem]
  | none => rw [if_neg (List.idxOf?_eq_none_iff.1 h)]

/-- A declaration declares its name in both. -/
theorem after_localVariable {v : LocalVariable} {xs : List Instruction}
    (h : localVariable scope locals v = .ok (xs, after)) :
    after.names = Evaluation.declare locals.names v.name := by
  obtain ⟨value, -, -, rfl⟩ := localVariable_ok h
  exact names_number locals v.name

/-- A declaration has at least one instruction for the local it may add. -/
theorem length_after_localVariable {v : LocalVariable} {xs : List Instruction}
    (h : localVariable scope locals v = .ok (xs, after)) :
    after.names.length ≤ locals.names.length + xs.length := by
  obtain ⟨value, -, rfl, rfl⟩ := localVariable_ok h
  rw [names_number, Evaluation.declare]
  split
  · omega
  · simp only [List.length_append, List.length_cons, List.length_nil]
    omega

mutual

/-- Compilation and evaluation declare the same locals. -/
theorem after_statement : ∀ (s : Statement) {position : Nat} {locals after : Numbering}
    {symbols : List Symbol}, statement scope position locals s = .ok (symbols, after) →
    after.names = Evaluation.declaredBy locals.names s
  | .returns value, position, locals, after, symbols, h => by
    obtain ⟨_, -, -, rfl⟩ := statement_returns_ok h
    rw [Evaluation.declaredBy]
  | .assign a, position, locals, after, symbols, h => by
    obtain ⟨_, -, -, rfl⟩ := statement_assign_ok h
    rw [Evaluation.declaredBy]
  | .declare v, position, locals, after, symbols, h => by
    obtain ⟨_, hdeclare, -⟩ := statement_declare_ok h
    rw [Evaluation.declaredBy, after_localVariable hdeclare]
  | .branch condition thenBody elseBody, position, locals, after, symbols, h => by
    obtain ⟨_, _, middle, _, _, -, hthen, helse, -⟩ := statement_branch_ok h
    rw [Evaluation.declaredBy, ← after_block thenBody hthen, ← after_elseArm elseBody helse]
  | .loop start condition step body, position, locals, after, symbols, h => by
    obtain ⟨_, inner, _, _, _, hstart, -, hbody, -, -⟩ := statement_loop_ok h
    rw [Evaluation.declaredBy, ← after_localVariable hstart, ← after_block body hbody]

theorem after_block : ∀ (statements : List Statement) {position : Nat}
    {locals after : Numbering} {symbols : List Symbol},
    block scope position locals statements = .ok (symbols, after) →
    after.names = Evaluation.declared locals.names statements
  | [], position, locals, after, symbols, h => by
    obtain ⟨-, rfl⟩ := block_nil_ok h
    rw [Evaluation.declared]
  | first :: rest, position, locals, after, symbols, h => by
    obtain ⟨_, middle, _, hfirst, hrest, -⟩ := block_cons_ok h
    rw [Evaluation.declared, ← after_statement first hfirst, ← after_block rest hrest]

theorem after_elseArm : ∀ (elseBody : Option (List Statement)) {position : Nat}
    {locals after : Numbering} {symbols : List Symbol} {skip : List Instruction},
    elseArm scope position locals elseBody = .ok (symbols, skip, after) →
    after.names = Evaluation.declaredByArm locals.names elseBody
  | none, position, locals, after, symbols, skip, h => by
    obtain ⟨-, -, rfl⟩ := elseArm_none_ok h
    rw [Evaluation.declaredByArm]
  | some body, position, locals, after, symbols, skip, h => by
    obtain ⟨hblock, -⟩ := elseArm_some_ok h
    rw [Evaluation.declaredByArm, ← after_block body hblock]

end

mutual

/-- Every local that is declared takes room in the code. -/
theorem length_after_statement : ∀ (s : Statement) {position : Nat} {locals after : Numbering}
    {symbols : List Symbol}, statement scope position locals s = .ok (symbols, after) →
    after.names.length ≤ locals.names.length + symbols.length
  | .returns value, position, locals, after, symbols, h => by
    obtain ⟨_, -, -, rfl⟩ := statement_returns_ok h
    omega
  | .assign a, position, locals, after, symbols, h => by
    obtain ⟨_, -, -, rfl⟩ := statement_assign_ok h
    omega
  | .declare v, position, locals, after, symbols, h => by
    obtain ⟨_, hdeclare, rfl⟩ := statement_declare_ok h
    rw [length_plain]
    exact length_after_localVariable hdeclare
  | .branch condition thenBody elseBody, position, locals, after, symbols, h => by
    obtain ⟨_, _, middle, _, _, -, hthen, helse, rfl⟩ := statement_branch_ok h
    -- The locals of both arms count, since both arms have code.
    have hthenLe := length_after_block thenBody hthen
    have helseLe := length_after_elseArm elseBody helse
    simp only [List.length_append]
    omega
  | .loop start condition step body, position, locals, after, symbols, h => by
    obtain ⟨_, inner, _, _, _, hstart, -, hbody, -, rfl⟩ := statement_loop_ok h
    have hstartLe := length_after_localVariable hstart
    have hbodyLe := length_after_block body hbody
    simp only [List.length_append, length_plain]
    omega

theorem length_after_block : ∀ (statements : List Statement) {position : Nat}
    {locals after : Numbering} {symbols : List Symbol},
    block scope position locals statements = .ok (symbols, after) →
    after.names.length ≤ locals.names.length + symbols.length
  | [], position, locals, after, symbols, h => by
    obtain ⟨rfl, rfl⟩ := block_nil_ok h
    exact Nat.le_refl _
  | first :: rest, position, locals, after, symbols, h => by
    obtain ⟨_, middle, _, hfirst, hrest, rfl⟩ := block_cons_ok h
    have hfirstLe := length_after_statement first hfirst
    have hrestLe := length_after_block rest hrest
    rw [List.length_append]
    omega

theorem length_after_elseArm : ∀ (elseBody : Option (List Statement)) {position : Nat}
    {locals after : Numbering} {symbols : List Symbol} {skip : List Instruction},
    elseArm scope position locals elseBody = .ok (symbols, skip, after) →
    after.names.length ≤ locals.names.length + symbols.length
  | none, position, locals, after, symbols, skip, h => by
    obtain ⟨rfl, -, rfl⟩ := elseArm_none_ok h
    exact Nat.le_refl _
  | some body, position, locals, after, symbols, skip, h => by
    obtain ⟨hblock, -⟩ := elseArm_some_ok h
    exact length_after_block body hblock

end

/-- A body has no more locals than instructions. -/
theorem length_declared_le {statements : List Statement} {symbols : List Symbol}
    (h : bodyFrom scope position locals statements = .ok symbols) :
    (Evaluation.declared locals.names statements).length
      ≤ locals.names.length + symbols.length := by
  induction statements generalizing position locals symbols with
  | nil =>
    rw [Evaluation.declared]
    omega
  | cons first rest ih =>
    -- A last `return` is compiled on its own, and declares nothing.
    by_cases hlast : ∃ value, first = .returns value ∧ rest = []
    · obtain ⟨value, rfl, rfl⟩ := hlast
      rw [Evaluation.declared, Evaluation.declared, Evaluation.declaredBy]
      omega
    · obtain ⟨firstCode, middle, restCode, hfirst, hrest, rfl⟩ :=
        bodyFrom_cons_ok (fun value hv => hlast ⟨value, hv⟩) h
      have hfirstLe := length_after_statement first hfirst
      have hrestLe := ih hrest
      rw [Evaluation.declared, ← after_statement first hfirst, List.length_append]
      omega

end Compile

namespace Evaluation

/-- One list of locals goes on from another, without saying a name twice. -/
def Extends (locals after : List String) : Prop :=
  locals <+: after ∧ (locals.Nodup → after.Nodup)

theorem Extends.refl (locals : List String) : Extends locals locals := ⟨List.prefix_refl _, id⟩

theorem Extends.trans {a b c : List String} (h : Extends a b) (h' : Extends b c) : Extends a c :=
  ⟨h.1.trans h'.1, fun hnodup => h'.2 (h.2 hnodup)⟩

/-- A name is added at the end, and only if it is new. -/
theorem extends_declare (locals : List String) (name : String) :
    Extends locals (declare locals name) := by
  unfold declare
  split
  · exact .refl locals
  · next hnew =>
    refine ⟨List.prefix_append _ _, fun hnodup => ?_⟩
    rw [List.nodup_append]
    refine ⟨hnodup, by simp, fun a ha b hb hab => ?_⟩
    rw [List.mem_singleton.1 hb] at hab
    exact hnew (hab ▸ ha)

mutual

/-- Statements go on from the locals they begin with, by recursion on the tree. -/
theorem extends_declaredBy : ∀ (s : Statement) (locals : List String),
    Extends locals (declaredBy locals s)
  | .returns _, locals => by rw [declaredBy]; exact .refl locals
  | .assign _, locals => by rw [declaredBy]; exact .refl locals
  | .declare v, locals => by rw [declaredBy]; exact extends_declare locals v.name
  | .branch _ thenBody elseBody, locals => by
    rw [declaredBy]
    exact (extends_declared thenBody locals).trans (extends_declaredByArm elseBody _)
  | .loop start _ _ body, locals => by
    rw [declaredBy]
    exact (extends_declare locals start.name).trans (extends_declared body _)

theorem extends_declared : ∀ (statements : List Statement) (locals : List String),
    Extends locals (declared locals statements)
  | [], locals => by rw [declared]; exact .refl locals
  | first :: rest, locals => by
    rw [declared]
    exact (extends_declaredBy first locals).trans (extends_declared rest _)

theorem extends_declaredByArm : ∀ (elseBody : Option (List Statement)) (locals : List String),
    Extends locals (declaredByArm locals elseBody)
  | none, locals => by rw [declaredByArm]; exact .refl locals
  | some body, locals => by rw [declaredByArm]; exact extends_declared body locals

end

end Evaluation

/-! ### Storage declarations -/

/-- Declarations with names of their own leave names of their own to some of them. -/
theorem Contract.nodup_filterMap {c : Contract} {β : Type} {select : Declaration → Option β}
    {label : β → String}
    (hlabel : ∀ d b, select d = some b → label b = d.name)
    (h : (c.declarations.map Declaration.name).Nodup) :
    ((c.declarations.filterMap select).map label).Nodup := by
  -- The names that are left are some of all names, in the same order.
  have hsub : ((c.declarations.filterMap select).map label).Sublist
      (c.declarations.map Declaration.name) := by
    induction c.declarations with
    | nil => exact .slnil
    | cons d rest ih =>
      cases hselect : select d with
      | none =>
        rw [List.filterMap_cons_none hselect]
        exact ih.cons d.name
      | some b =>
        rw [List.filterMap_cons_some hselect, List.map_cons, hlabel d b hselect]
        exact ih.cons_cons d.name
  exact h.sublist hsub

/-- The storage declarations have names of their own. -/
theorem Contract.nodup_storageNames {c : Contract}
    (h : (c.declarations.map Declaration.name).Nodup) :
    c.storageNames.Nodup := by
  refine nodup_filterMap (fun d b hcell => ?_) h
  cases d with
  | variable_ d => cases hcell; rfl
  | mapping d => cases hcell; rfl
  | function f => cases hcell

/-- A name stands for a storage declaration if it is one of their names, and its slot is its place
among them. -/
theorem Contract.cell?_scope (c : Contract) (name : String) :
    (c.scope.cell? name = none ∧ c.storageNames.idxOf? name = none)
      ∨ ∃ cell, c.scope.cell? name = some cell
        ∧ c.storageNames.idxOf? name = some (c.scope.slot name) := by
  have hslot : c.scope.slot name = (Numbering.number ⟨c.storageNames⟩ name).1 := rfl
  cases hcell : c.scope.cell? name with
  | none =>
    have habsent : name ∉ c.storageNames := lookup_eq_none_iff.1 hcell
    exact Or.inl ⟨rfl, List.idxOf?_eq_none_iff.2 habsent⟩
  | some cell =>
    refine Or.inr ⟨cell, rfl, ?_⟩
    -- The cells and the names are two views of the same declarations.
    cases hidx : c.storageNames.idxOf? name with
    | none =>
      have habsent : c.scope.cell? name = none :=
        lookup_eq_none_iff.2 (List.idxOf?_eq_none_iff.1 hidx)
      rw [habsent] at hcell
      cases hcell
    | some slot =>
      have hlookup : Numbering.lookup? ⟨c.storageNames⟩ name = some slot := hidx
      rw [hslot, Numbering.number, hlookup]

namespace Compile

theorem textWord_ok {text : String} {w : Word} (h : textWord text = .ok w) :
    Word.ofText text = .ok w := by
  unfold textWord at h
  cases hw : Word.ofText text with
  | error e => rw [hw] at h; cases h
  | ok w' => rw [hw] at h; cases h; rfl

variable {c : Contract} {locals : Numbering} {name : String} {xs : List Instruction}

/-- What a name is taken for: a local, a storage declaration or a parameter. -/
theorem resolve_cases (c : Contract) (locals : Numbering) (name : String) :
    (∃ i, locals.names.idxOf? name = some i ∧ c.scope.resolve locals name = .memory i)
      ∨ locals.names.idxOf? name = none
        ∧ ((∃ slot, c.storageNames.idxOf? name = some slot
            ∧ (c.scope.resolve locals name = .storage slot
              ∨ ∃ depth, c.scope.resolve locals name = .mapping slot depth))
          ∨ c.storageNames.idxOf? name = none ∧ c.scope.resolve locals name = .parameter) := by
  unfold Scope.resolve Numbering.lookup?
  cases hlocal : locals.names.idxOf? name with
  | some i => exact Or.inl ⟨i, rfl, rfl⟩
  | none =>
    refine Or.inr ⟨rfl, ?_⟩
    rcases c.cell?_scope name with ⟨hcell, hslot⟩ | ⟨cell, hcell, hslot⟩
    · rw [hcell]
      exact Or.inr ⟨hslot, rfl⟩
    · rw [hcell]
      cases cell with
      | variable_ => exact Or.inl ⟨_, hslot, Or.inl rfl⟩
      | mapping depth => exact Or.inl ⟨_, hslot, Or.inr ⟨depth, rfl⟩⟩

/-- The code that reads a name, by what the name is taken for. -/
theorem readName_ok (h : readName c.scope locals name = .ok xs) :
    (∃ i, locals.names.idxOf? name = some i ∧ xs = [pushNat i, .mload])
      ∨ locals.names.idxOf? name = none
        ∧ ((∃ slot, c.storageNames.idxOf? name = some slot ∧ xs = [pushNat slot, .sload])
          ∨ c.storageNames.idxOf? name = none
            ∧ ∃ key, Word.ofText name = .ok key ∧ xs = [.pushParam key]) := by
  unfold readName at h
  rcases resolve_cases c locals name with
    ⟨i, hi, hres⟩ | ⟨hlocal, ⟨slot, hslot, hres | ⟨depth, hres⟩⟩ | ⟨hslot, hres⟩⟩
  · rw [hres] at h
    cases h
    exact Or.inl ⟨i, hi, rfl⟩
  · rw [hres] at h
    cases h
    exact Or.inr ⟨hlocal, Or.inl ⟨slot, hslot, rfl⟩⟩
  · rw [hres] at h
    cases h
  · simp only [hres, bind_eq_ok, pure_eq_ok] at h
    obtain ⟨key, hkey, rfl⟩ := h
    exact Or.inr ⟨hlocal, Or.inr ⟨hslot, key, textWord_ok hkey, rfl⟩⟩

/-- The code that writes to a name, by what the name is taken for. -/
theorem writeName_ok (h : writeName c.scope locals name = .ok xs) :
    (∃ i, locals.names.idxOf? name = some i ∧ xs = [pushNat i, .mstore])
      ∨ locals.names.idxOf? name = none
        ∧ ((∃ slot, c.storageNames.idxOf? name = some slot ∧ xs = [pushNat slot, .sstore])
          ∨ c.storageNames.idxOf? name = none
            ∧ ∃ key, Word.ofText name = .ok key ∧ xs = [.push key, .mstore]) := by
  unfold writeName at h
  rcases resolve_cases c locals name with
    ⟨i, hi, hres⟩ | ⟨hlocal, ⟨slot, hslot, hres | ⟨depth, hres⟩⟩ | ⟨hslot, hres⟩⟩
  · rw [hres] at h
    cases h
    exact Or.inl ⟨i, hi, rfl⟩
  · rw [hres] at h
    cases h
    exact Or.inr ⟨hlocal, Or.inl ⟨slot, hslot, rfl⟩⟩
  · rw [hres] at h
    cases h
  · simp only [hres, bind_eq_ok, pure_eq_ok] at h
    obtain ⟨key, hkey, rfl⟩ := h
    exact Or.inr ⟨hlocal, Or.inr ⟨hslot, key, textWord_ok hkey, rfl⟩⟩

/-- The slot of a mapping is its place among the storage declarations. -/
theorem mappingSlot_eq {base : String} {keys slot : Nat}
    (h : mappingSlot c.scope base keys = .ok slot) : slot = c.storageNames.idxOf base := by
  obtain ⟨hcell, rfl⟩ := mappingSlot_ok h
  rcases c.cell?_scope base with ⟨hnone, -⟩ | ⟨cell, -, hslot⟩
  · rw [hnone] at hcell
    cases hcell
  · exact (List.findIdx?_eq_some_iff_findIdx_eq.1 hslot).2.symm

/-- The word of a constant is its value. -/
theorem literalWord_ok {value : Literal} {w : Word} (h : literalWord value = .ok w) :
    w = Evaluation.literal value := by
  cases value with
  | int n =>
    rw [literalWord] at h
    cases hn : Word.ofSafeInt n with
    | error e => rw [hn] at h; cases h
    | ok w' =>
      rw [hn] at h
      cases h
      unfold Word.ofSafeInt Word.ofInt at hn
      split at hn
      · split at hn
        · cases hn; rfl
        · cases hn
      · cases hn
  | bool b => exact (Except.ok.inj h).symm

end Compile

/-! ### Agreement -/

/-- An evaluation and a machine hold the same. `names` are all locals of the function, and `s₀` are
the stores the call began with. -/
structure Agrees {ω : Type} [Stores ω] (good : ω → Prop) (names : List String) (s₀ : ω)
    (σ : Evaluation.State) (memory : Memory) (s : ω) : Prop where
  /-- A local is in memory under its number. -/
  locals : ∀ i name, names[i]? = some name → memory.get? (.ofNat i) = σ.locals name
  /-- A parameter is in memory under its name. -/
  parameters : ∀ name key, IsName name → Word.ofText name = .ok key →
    memory.get? key = σ.parameters name
  good : good s
  /-- A cell is in storage under the digits of its address. -/
  cells : ∀ address : Word,
    Stores.get? s .storage address.hex = .ok ((σ.cells address).map Word.toBytes)
  /-- What is in storage under other keys is what was there before. -/
  others : ∀ key, (∀ address : Word, key ≠ address.hex) →
    Stores.get? s .storage key = Stores.get? s₀ .storage key

namespace Agrees

variable {ω : Type} [Stores ω] {good : ω → Prop} {names : List String} {s₀ s s' : ω}
  {σ : Evaluation.State} {memory : Memory}

/-- Reading a cell gives its value, or faults for want of one. -/
theorem readCell (h : Agrees good names s₀ σ memory s) (address : Word) :
    Instruction.readCell s address
      = match σ.cells address with
        | some w => .ok w
        | none => .error (.missingStorageKey address.hex) := by
  rw [Instruction.readCell, h.cells]
  cases σ.cells address with
  | none => rfl
  | some w => simp

/-- A local is set in the state and under its number in memory. -/
theorem setLocal (h : Agrees good names s₀ σ memory s) (hnodup : names.Nodup)
    (hsize : names.length < Text.indexBound) {name : String} {i : Nat}
    (hi : names[i]? = some name) (w : Word) :
    Agrees good names s₀ (σ.setLocal name w) (memory.insert (.ofNat i) w) s := by
  have hwide : Text.indexBound < 2 ^ 256 := by decide
  obtain ⟨hlt, -⟩ := List.getElem?_eq_some_iff.1 hi
  refine { h with locals := fun j other hj => ?_, parameters := fun other key hother hkey => ?_ }
  · obtain ⟨hlt', -⟩ := List.getElem?_eq_some_iff.1 hj
    rw [Table.get?_insert, Evaluation.State.setLocal]
    -- Different locals have different numbers, and these are far below 2^256.
    by_cases hji : j = i
    · subst hji
      rw [hi] at hj
      cases hj
      simp
    · have hname : other ≠ name := by
        rintro rfl
        exact hji ((List.getElem?_inj hlt' hnodup).1 (hj.trans hi.symm))
      have hslot : Word.ofNat j ≠ Word.ofNat i := fun heq =>
        hji (Word.ofNat_inj (by omega) (by omega) heq)
      rw [if_neg hslot, h.locals j other hj]
      exact (if_neg hname).symm
  · -- The key of a parameter is no number of a local.
    rw [Table.get?_insert, if_neg (key_ne_ofNat hother hkey (by omega))]
    exact h.parameters other key hother hkey

/-- A parameter is set in the state and under its key in memory. -/
theorem setParameter (h : Agrees good names s₀ σ memory s)
    (hsize : names.length < Text.indexBound) {name : String} {key : Word} (hname : IsName name)
    (hkey : Word.ofText name = .ok key) (w : Word) :
    Agrees good names s₀ (σ.setParameter name w) (memory.insert key w) s := by
  refine { h with locals := fun i other hi => ?_, parameters := fun other key' hother hkey' => ?_ }
  · -- The number of a local is no key of a parameter.
    obtain ⟨hlt, -⟩ := List.getElem?_eq_some_iff.1 hi
    rw [Table.get?_insert, if_neg fun heq => key_ne_ofNat hname hkey (by omega) heq.symm]
    exact h.locals i other hi
  · rw [Table.get?_insert, Evaluation.State.setParameter]
    by_cases hsame : other = name
    · subst hsame
      rw [hkey] at hkey'
      cases hkey'
      simp
    · have hne : key' ≠ key := by
        rintro rfl
        exact hsame (key_inj hother hname hkey' hkey)
      rw [if_neg hne, h.parameters other key' hother hkey']
      exact (if_neg hsame).symm

/-- A cell is set in the state and under the digits of its address in storage. -/
theorem setCell (h : Agrees good names s₀ σ memory s) {address w : Word} (hgood : good s')
    (hget : ∀ key, Stores.get? s' .storage key
      = if key = address.hex then .ok (some w.toBytes) else Stores.get? s .storage key) :
    Agrees good names s₀ (σ.setCell address w) memory s' := by
  refine { h with good := hgood, cells := fun other => ?_, others := fun key hkey => ?_ }
  · -- Different addresses have different digits.
    rw [hget, Evaluation.State.setCell]
    by_cases hsame : other = address
    · subst hsame
      simp
    · rw [if_neg fun heq => hsame (Word.hex_injective heq), h.cells]
      exact congrArg (fun cell => Except.ok (Option.map Word.toBytes cell)) (if_neg hsame).symm
  · rw [hget, if_neg (hkey address)]
    exact h.others key hkey

end Agrees

end Covenant
