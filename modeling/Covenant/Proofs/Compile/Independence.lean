import Covenant.Proofs.Compile.Agreement
import Covenant.Proofs.Compile.Generator

/-!
# Functions compile independently

A pass over a contract hands out slots where names are first used, from one allocator for all of it.
Still a slot depends on the declarations only, and the code of a function on nothing but the
function and the storage declarations: another function, an initial value or the name of a type
moves nothing.

* `Scope.UsesSlot` says how the code of a function uses the slot of a storage declaration, and
  `Contract.usesSlot` that this slot is the place of the declaration.
* `Compile.initialization_eq` is the initialization, written with these places.
* `Contract.functions_compile_independently` compares two contracts.
-/

namespace Covenant

namespace FunctionCode

/-- The keys of a function table are the numbers below the number of functions, in order. -/
theorem keys_table (codes : List FunctionCode) : (table codes).keys = List.range codes.length := by
  have hkeys : ((List.range codes.length).zip codes).map Prod.fst = List.range codes.length :=
    List.map_fst_zip (by simp)
  have hsorted : (((List.range codes.length).zip codes).map Prod.fst).Pairwise
      fun a b => compare a b = .lt := by
    rw [hkeys]
    exact List.pairwise_lt_range.imp fun hlt => Nat.compare_eq_lt.2 hlt
  have htable : table codes = ⟨(List.range codes.length).zip codes, hsorted⟩ := by
    refine Table.ext_get? fun i => ?_
    have hlookup := lookup_zip_range' codes 0 i
    rw [Nat.zero_add, ← List.range_eq_range'] at hlookup
    rw [get?_table]
    exact hlookup.symm
  rw [htable]
  exact hkeys

end FunctionCode

/-! ### Names that are declared once -/

/-- Of entries with names of their own, the first one with a name is the only one. -/
theorem findIdx?_eq_some_iff_of_nodup {α : Type} (label : α → String) {entries : List α}
    (h : (entries.map label).Nodup) {name : String} {i : Nat} :
    (entries.findIdx? fun entry => label entry == name) = some i
      ↔ ∃ entry, entries[i]? = some entry ∧ label entry = name := by
  rw [List.findIdx?_eq_some_iff_getElem]
  constructor
  · rintro ⟨hlt, hname, -⟩
    exact ⟨_, List.getElem?_eq_getElem hlt, eq_of_beq hname⟩
  · rintro ⟨entry, hentry, rfl⟩
    obtain ⟨hlt, rfl⟩ := List.getElem?_eq_some_iff.1 hentry
    refine ⟨hlt, beq_self_eq_true _, fun j hji hj => ?_⟩
    -- An earlier entry with the name would have the same place.
    have hlabels : (entries.map label)[j]? = (entries.map label)[i]? := by
      rw [List.getElem?_map, List.getElem?_map, hentry,
        List.getElem?_eq_getElem (Nat.lt_trans hji hlt)]
      exact congrArg some (eq_of_beq hj)
    have hij : j = i := (List.getElem?_inj (by simpa using Nat.lt_trans hji hlt) h).1 hlabels
    omega

/-! ### Slots -/

open Compile

/-- The code of a function uses a slot for a storage declaration: a variable is read and written
there, unless a local has its name, and the address of an entry of a mapping starts from there. -/
def Scope.UsesSlot (scope : Scope) (name : String) (slot : Nat) : Cell → Prop
  | .variable_ => ∀ locals : Numbering, name ∉ locals.names →
      readName scope locals name = .ok [pushNat slot, .sload]
        ∧ writeName scope locals name = .ok [pushNat slot, .sstore]
  | .mapping depth => ∀ (locals : Numbering) (keys : List Term) (target : Expression),
      keys.length = depth →
        term scope locals (.index name keys)
            = (keyCode scope locals keys).map (fun code => pushNat slot :: code ++ [.sload])
          ∧ store scope locals target (.index name keys)
            = (keyCode scope locals keys).map (fun code => pushNat slot :: code ++ [.sstore])

/-- The slot of a storage declaration is the one that its name has in the scope. -/
theorem Scope.usesSlot_of_cell? {scope : Scope} {name : String} {cell : Cell}
    (hcell : scope.cell? name = some cell) : scope.UsesSlot name (scope.slot name) cell := by
  cases cell with
  | variable_ =>
    intro locals hlocal
    have hnone : locals.lookup? name = none := List.idxOf?_eq_none_iff.2 hlocal
    have hresolve : scope.resolve locals name = .storage (scope.slot name) := by
      rw [Scope.resolve, hnone, hcell]
    rw [readName, writeName, hresolve]
    exact ⟨rfl, rfl⟩
  | mapping depth =>
    intro locals keys target hkeys
    have hslot : mappingSlot scope name keys.length = .ok (scope.slot name) := by
      rw [mappingSlot, hcell]
      exact if_pos hkeys
    rw [term, store, address, hslot]
    cases keyCode scope locals keys with
    | error e => exact ⟨rfl, rfl⟩
    | ok code => exact ⟨rfl, rfl⟩

/-- The store of the initial value of a variable in a slot. -/
def Declaration.initialStore (slot : Nat) : Declaration → List Instruction
  | .variable_ d => [.push (Evaluation.literal d.value), pushNat slot, .sstore]
  | _ => []

/-- The initialization stores every variable in its place among the storage declarations. -/
theorem Compile.initialization_eq {slots slots' : Numbering} {declarations : List Declaration}
    {code : List Instruction} (hnodup : (slots.names ++ declarations.map Declaration.name).Nodup)
    (h : initialization slots declarations = .ok (code, slots')) :
    code = ((declarations.filter fun d => d.cell?.isSome).zipIdx slots.names.length).flatMap
      fun place => place.1.initialStore place.2 := by
  induction declarations generalizing slots code with
  | nil =>
    cases h
    rfl
  | cons d rest ih =>
    -- A storage declaration is new, so its number is the next one and the others follow.
    have hnew : d.name ∉ slots.names := by
      intro hmem
      exact (List.nodup_append.1 hnodup).2.2 _ hmem _ (by simp) rfl
    have hnumber := number_of_notMem hnew
    have hnext : ((slots.number d.name).2.names ++ rest.map Declaration.name).Nodup := by
      rw [hnumber]
      simpa [List.append_assoc] using hnodup
    have hlength : (slots.number d.name).2.names.length = slots.names.length + 1 := by
      rw [hnumber]
      simp
    cases d with
    | variable_ d =>
      simp only [initialization, bind_eq_ok, pure_eq_ok, Prod.mk.injEq, Prod.exists] at h
      obtain ⟨w, hw, more, slots'', hrest, rfl, rfl⟩ := h
      have hslot : (slots.number d.name).1 = slots.names.length := congrArg Prod.fst hnumber
      rw [ih hnext hrest, hlength, literalWord_ok hw, hslot]
      rfl
    | mapping d =>
      rw [initialization] at h
      rw [ih hnext h, hlength]
      rfl
    | function f =>
      rw [initialization] at h
      have hsub : (slots.names ++ rest.map Declaration.name).Nodup :=
        hnodup.sublist (List.Sublist.append_left (List.sublist_cons_self _ _) _)
      exact ih hsub h

namespace Contract

variable {c : Contract} {p : Program}

/-- The storage declarations of a contract, in order. -/
def storageDeclarations (c : Contract) : List Declaration :=
  c.declarations.filter fun d => d.cell?.isSome

/-- Functions have different names if all declarations do. -/
theorem nodup_functionNames (h : (c.declarations.map Declaration.name).Nodup) :
    (c.functions.map FunctionDeclaration.name).Nodup := by
  refine nodup_filterMap (fun d f hfunction => ?_) h
  cases d with
  | variable_ d => cases hfunction
  | mapping d => cases hfunction
  | function f => cases hfunction; rfl

/-- Where names are declared once, the slot of a storage declaration is its place among them. -/
theorem usesSlot (hnodup : c.storageNames.Nodup) {i : Nat} {name : String} {cell : Cell}
    (hplace : (c.declarations.filterMap Declaration.cell?)[i]? = some (name, cell)) :
    c.scope.UsesSlot name i cell := by
  have hcell : c.scope.cell? name = some cell :=
    lookup_eq_some_of_mem hnodup (List.mem_of_getElem? hplace)
  have hname : c.storageNames[i]? = some name := by
    rw [storageNames, List.getElem?_map, hplace]
    rfl
  -- A name that is declared once is found at the place of its declaration.
  have hindex : Numbering.lookup? ⟨c.storageNames⟩ name = some i := by
    refine (findIdx?_eq_some_iff_of_nodup id ?_).2 ⟨name, hname, rfl⟩
    rwa [List.map_id]
  have hslot : c.scope.slot name = i := by
    show (Numbering.number ⟨c.storageNames⟩ name).1 = i
    rw [Numbering.number, hindex]
  exact hslot ▸ Scope.usesSlot_of_cell? hcell

/-- **Slots are fixed by the declarations, and functions compile independently.** Of a contract that
compiles: a pass over it hands out the storage slots in the order of the storage declarations; the
initialization and every function use the place of a declaration as its slot; the function table has
the functions at their indexes; and another contract with the same storage declarations has the same
code for a function they share. -/
theorem functions_compile_independently (h : c.compile = .ok p) :
    (∃ slots, c.generate = .ok (p, slots) ∧ slots.storage.names = c.storageNames)
      ∧ p.initialization
          = c.storageDeclarations.zipIdx.flatMap (fun place => place.1.initialStore place.2)
      ∧ (∀ i name cell, (c.declarations.filterMap Declaration.cell?)[i]? = some (name, cell) →
          c.scope.UsesSlot name i cell)
      ∧ p.functions.keys = List.range c.functions.length
      ∧ (∀ j f, c.functions[j]? = some f →
          ∃ code, p.functions.get? j = some code ∧ Compile.function c.scope f = .ok code)
      ∧ (∀ name j, c.functionIndex? name = some j ↔
          ∃ f, c.functions[j]? = some f ∧ f.name = name)
      ∧ ∀ (c' : Contract) (p' : Program), c'.compile = .ok p' →
          c'.declarations.filterMap Declaration.cell?
            = c.declarations.filterMap Declaration.cell? →
          ∀ i j f, c.functions[i]? = some f → c'.functions[j]? = some f →
            p'.functions.get? j = p.functions.get? i := by
  obtain ⟨hnodup, ⟨slots, hinit⟩, codes, hcodes, htable⟩ := compile_ok h
  refine ⟨?_, ?_, fun i name cell => usesSlot (nodup_storageNames hnodup), ?_,
    fun j f => exists_code h, fun name j => ?_, ?_⟩
  · obtain ⟨slots, hgenerate, hstorage⟩ := generate_eq_ok h
    exact ⟨slots, hgenerate, congrArg Numbering.names hstorage⟩
  · exact Compile.initialization_eq (by simpa using hnodup) hinit
  · rw [htable, FunctionCode.keys_table, Compile.length_functions hcodes]
  · exact findIdx?_eq_some_iff_of_nodup FunctionDeclaration.name (nodup_functionNames hnodup)
  · -- The code of a function depends on the scope, and the scope on the storage declarations alone.
    intro c' p' h' hcells i j f hf hf'
    have hscope : c'.scope = c.scope := by
      rw [scope, scope, hcells]
    obtain ⟨code, hcode, hfunction⟩ := exists_code h hf
    obtain ⟨code', hcode', hfunction'⟩ := exists_code h' hf'
    rw [hscope, hfunction] at hfunction'
    cases hfunction'
    rw [hcode, hcode']

/-- `func pay(who: Text) { var due = fee + 1  paid[who] = due }` -/
def payment : FunctionDeclaration where
  name := "pay"
  parameters := [⟨"who", "Text"⟩]
  returnType := none
  body :=
    [.declare ⟨"due", ⟨[.ident "fee", .literal (.int 1)], [.add]⟩⟩,
      .assign ⟨⟨[.index "paid" [.ident "who"]], []⟩, ⟨[.ident "due"], []⟩⟩]

/-- Declares storage and the payment. -/
def plainLedger : Contract :=
  ⟨"Plain", [.variable_ ⟨"fee", "Int", .int 2⟩, .mapping ⟨"paid", ["Text"], "Int"⟩,
    .function payment]⟩

/-- Declares the same names, with another function first that has a local of its own. -/
def busyLedger : Contract :=
  ⟨"Busy", [.function ⟨"audit", [], some "Int",
      [.declare ⟨"sum", ⟨[.index "paid" [.literal (.int 0)]], []⟩⟩, .returns ⟨[.ident "sum"], []⟩]⟩,
    .variable_ ⟨"fee", "Bool", .bool true⟩, .function payment, .mapping ⟨"paid", ["Int"], "Bool"⟩]⟩

/-- The two ledgers differ in their types, their initial values and in a function that comes first.
The payment has the same code in both. -/
theorem payment_compiles_alike :
    ∃ p p', plainLedger.compile = .ok p ∧ busyLedger.compile = .ok p'
      ∧ (p.functions.get? 0).isSome ∧ p'.functions.get? 1 = p.functions.get? 0 := by
  have hplain : (plainLedger.compile.toOption.any fun p => (p.functions.get? 0).isSome) = true := by
    decide +kernel
  have hbusy : (busyLedger.compile.toOption.any fun _ => true) = true := by decide +kernel
  obtain ⟨p, hp, hcode⟩ := exists_ok_of_any hplain
  obtain ⟨p', hp', -⟩ := exists_ok_of_any hbusy
  obtain ⟨-, -, -, -, -, -, halike⟩ := functions_compile_independently hp
  exact ⟨p, p', hp, hp', hcode, halike busyLedger p' hp' rfl 0 1 payment rfl rfl⟩

end Contract

end Covenant
