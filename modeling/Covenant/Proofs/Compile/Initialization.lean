import Covenant.Proofs.Compile.Entries
import Covenant.Proofs.Machine.Writes
import Mathlib.Data.List.Nodup

/-!
# The state a deployment begins with

The initialization code of a contract puts the value of each declared variable into the storage cell
of its slot, in the order of the declarations. The names of the declarations are distinct, so the
slots are, and no value is overwritten by a later one. Mappings only take a slot each and functions
not even that: what storage held elsewhere before, it holds after the deployment.

* `Contract.initialCells` are the values with their cells, and `performs_initialization` says that
  the initialization code writes these and nothing else.
* `Contract.lastWrite?_initialCells` is where distinct slots come in.
* `Machine.deployment_sets_initial_values` is the result.
-/

namespace Covenant

/-- The value a declared variable begins with, and the cell it goes to. -/
def Declaration.initialCell? (slots : Numbering) : Declaration → Option (Word × Word)
  | .variable_ d =>
    (Compile.literalWord d.value).toOption.map fun w => (.ofNat (slots.number d.name).1, w)
  | _ => none

/-- The values that the variables of a contract begin with, in the order of the declarations, each
with the cell it goes to. -/
def Contract.initialCells (c : Contract) : List (Word × Word) :=
  c.declarations.filterMap (Declaration.initialCell? c.scope.storage)

/-! ### The initialization code -/

section Code

variable {ω : Type} [Stores ω] {good : ω → Prop} {limits : Limits} {program : Word}
  {memory : Memory} {s s' : ω}

/-- The code that puts a value into a cell needs two places on the stack. -/
theorem performs_setCell {cell w : Word}
    (hwrite : Instruction.writeCell s program cell w = (s', .ok ())) (hstack : 2 ≤ limits.stack) :
    Performs limits program memory [.push w, .push cell, .sstore] [] s [] s' := by
  have hstraight := straight_performing (ω := ω) limits program memory
  have hone : (performing ω limits program memory).fits 1 := hstraight.fits_mono hstack (by omega)
  have hvalue : Performs limits program memory [.push w] [] s [w] s := hstraight.pushWord w s hone
  have hcell : Performs limits program memory [.push cell] [w] s [cell, w] s :=
    hstraight.pushWord cell s hstack
  exact hstraight.append hvalue (hstraight.append hcell (hstraight.sstore hwrite []))

namespace Compile

/-- The number of a name is its place, if it stands nowhere before that. -/
theorem number_append_cons {before : List String} {name : String} (h : name ∉ before)
    (after : List String) :
    (Numbering.number ⟨before ++ name :: after⟩ name).1 = before.length := by
  have hlookup : Numbering.lookup? ⟨before ++ name :: after⟩ name = some before.length := by
    have habsent : before.findIdx? (· == name) = none := List.idxOf?_eq_none_iff.2 h
    simp [Numbering.lookup?, List.idxOf?, List.findIdx?_append, List.findIdx?_cons,
      habsent]
  rw [Numbering.number, hlookup]

/-- The initialization code of declarations writes the values of their variables, each to the cell of
the slot that its name has in the end. -/
theorem performs_initialization (program : Word) (memory : Memory) (hrel : Stores.Reliable good)
    (hroots : Stores.ContentRoots good) (hstack : 2 ≤ limits.stack) {slots slots' : Numbering}
    {declarations : List Declaration} {code : List Instruction}
    (hnodup : (slots.names ++ declarations.map Declaration.name).Nodup)
    (h : initialization slots declarations = .ok (code, slots')) (hgood : good s) :
    ∃ s', good s' ∧ Performs limits program memory code [] s [] s'
      ∧ Stores.Written program (declarations.filterMap (Declaration.initialCell? slots')) s s' := by
  induction declarations generalizing slots code s with
  | nil =>
    cases h
    exact ⟨s, hgood, (straight_performing limits program memory).nil [] s, .nil program s⟩
  | cons d rest ih =>
    have hslots := initialization_slots hnodup h
    -- What is declared is new, so its name is put behind the names before it.
    have hnew : d.name ∉ slots.names := by
      intro hmem
      exact (List.nodup_append.1 hnodup).2.2 _ hmem _ (by simp) rfl
    have hnodup' : ((slots.number d.name).2.names ++ rest.map Declaration.name).Nodup := by
      rw [number_of_notMem hnew]
      simpa [List.append_assoc] using hnodup
    cases d with
    | variable_ d =>
      simp only [initialization, bind_eq_ok, pure_eq_ok, Prod.mk.injEq, Prod.exists] at h
      obtain ⟨value, hvalue, restCode, slots'', hrest, rfl, rfl⟩ := h
      have hslot : (slots''.number d.name).1 = (slots.number d.name).1 := by
        have hnew : d.name ∉ slots.names := hnew
        rw [number_of_notMem hnew, hslots]
        exact number_append_cons hnew _
      obtain ⟨s₁, hwrite, hgood₁, hwritten₁⟩ :=
        hrel.written hroots hgood program (.ofNat (slots.number d.name).1) value
      obtain ⟨s₂, hgood₂, hperforms, hwritten₂⟩ := ih hnodup' hrest hgood₁
      have hcell : Declaration.initialCell? slots'' (.variable_ d)
          = some (.ofNat (slots.number d.name).1, value) := by
        simp only [Declaration.initialCell?, hvalue, hslot]
        rfl
      refine ⟨s₂, hgood₂, (straight_performing limits program memory).append
        (performs_setCell hwrite hstack) hperforms, ?_⟩
      rw [List.filterMap_cons_some hcell]
      exact hwritten₁.append hroots hgood₁ hgood₂ hwritten₂
    | mapping d =>
      rw [initialization] at h
      rw [List.filterMap_cons_none rfl]
      exact ih hnodup' h hgood
    | function f =>
      rw [initialization] at h
      rw [List.filterMap_cons_none rfl]
      have hsub : (slots.names ++ rest.map Declaration.name).Nodup :=
        hnodup.sublist (List.Sublist.append_left (List.sublist_cons_self _ _) _)
      exact ih hsub h hgood

/-- A variable of declarations that compile has a value. -/
theorem exists_literalWord {slots slots' : Numbering} {declarations : List Declaration}
    {code : List Instruction} (h : initialization slots declarations = .ok (code, slots'))
    {d : VariableDeclaration} (hd : .variable_ d ∈ declarations) :
    ∃ w, literalWord d.value = .ok w := by
  induction declarations generalizing slots slots' code with
  | nil => cases hd
  | cons first rest ih =>
    cases first with
    | variable_ v =>
      simp only [initialization, bind_eq_ok, pure_eq_ok, Prod.mk.injEq, Prod.exists] at h
      obtain ⟨value, hvalue, restCode, slots'', hrest, -, -⟩ := h
      rcases List.mem_cons.1 hd with heq | hmem
      · cases heq
        exact ⟨value, hvalue⟩
      · exact ih hrest hmem
    | mapping v =>
      rw [initialization] at h
      exact ih h ((List.mem_cons.1 hd).resolve_left (by simp))
    | function f =>
      rw [initialization] at h
      exact ih h ((List.mem_cons.1 hd).resolve_left (by simp))

end Compile

end Code

/-! ### The cells of the variables -/

namespace Contract

variable {c : Contract} {p : Program} {d : VariableDeclaration} {cell w : Word}

theorem mem_storageNames_of_declaration {declaration : Declaration} {pair : String × Cell}
    (hmem : declaration ∈ c.declarations) (hcell : declaration.cell? = some pair) :
    pair.1 ∈ c.storageNames :=
  List.mem_map_of_mem (List.mem_filterMap.2 ⟨declaration, hmem, hcell⟩)

theorem slot_eq_slotWord {name : String} (h : name ∈ c.storageNames) :
    .ofNat (c.scope.storage.number name).1 = c.slotWord name := by
  rcases c.cell?_scope name with ⟨-, hnone⟩ | ⟨cell, -, hslot⟩
  · exact absurd h (List.idxOf?_eq_none_iff.1 hnone)
  · exact congrArg Word.ofNat (List.findIdx?_eq_some_iff_findIdx_eq.1 hslot).2.symm

/-- The cells that are filled are those of the variables. -/
theorem mem_initialCells :
    (cell, w) ∈ c.initialCells
      ↔ ∃ d, .variable_ d ∈ c.declarations ∧ cell = c.slotWord d.name
        ∧ Compile.literalWord d.value = .ok w := by
  rw [initialCells, List.mem_filterMap]
  constructor
  · rintro ⟨declaration, hmem, hcell⟩
    cases declaration with
    | variable_ d =>
      obtain ⟨value, hvalue, hpair⟩ := Option.map_eq_some_iff.1 hcell
      cases hpair
      exact ⟨d, hmem, slot_eq_slotWord (mem_storageNames_of_declaration hmem rfl),
        toOption_eq_some.1 hvalue⟩
    | mapping d => cases hcell
    | function f => cases hcell
  · rintro ⟨d, hmem, rfl, hvalue⟩
    refine ⟨.variable_ d, hmem, Option.map_eq_some_iff.2 ⟨w, toOption_eq_some.2 hvalue, ?_⟩⟩
    rw [slot_eq_slotWord (mem_storageNames_of_declaration hmem rfl)]

/-- Declarations with names of their own are told apart by their names. -/
theorem eq_of_name (hnodup : (c.declarations.map Declaration.name).Nodup) {a b : Declaration}
    (ha : a ∈ c.declarations) (hb : b ∈ c.declarations) (h : a.name = b.name) : a = b :=
  List.inj_on_of_nodup_map hnodup ha hb h

/-- The last value that goes to the cell of a variable is its own, as no other variable has the same
slot. -/
theorem lastWrite?_initialCells (hnodup : (c.declarations.map Declaration.name).Nodup)
    (hsize : c.storageNames.length ≤ 2 ^ 256) (hd : .variable_ d ∈ c.declarations)
    (hw : Compile.literalWord d.value = .ok w) :
    lastWrite? (c.slotWord d.name).hex c.initialCells = some w := by
  refine lastWrite?_of_mem (mem_initialCells.2 ⟨d, hd, rfl, hw⟩) fun v hv => ?_
  obtain ⟨d', hd', hslot, hv⟩ := mem_initialCells.1 hv
  have hname : d.name = d'.name := by
    refine Decidable.byContradiction fun hne => ?_
    exact slotWord_ne hsize (mem_storageNames_of_declaration hd rfl)
      (mem_storageNames_of_declaration hd' rfl) hne hslot
  cases eq_of_name hnodup hd hd' hname
  exact Except.ok.inj (hv.symm.trans hw)

/-- The slot of a mapping is no slot of a variable. -/
theorem slotWord_mapping_ne (hnodup : (c.declarations.map Declaration.name).Nodup)
    (hsize : c.storageNames.length ≤ 2 ^ 256) {e : MappingDeclaration}
    (he : .mapping e ∈ c.declarations) (hd : .variable_ d ∈ c.declarations) :
    (c.slotWord e.name).hex ≠ (c.slotWord d.name).hex := by
  intro hkey
  refine slotWord_ne hsize (mem_storageNames_of_declaration he rfl)
    (mem_storageNames_of_declaration hd rfl) (fun hname => ?_) (Word.hex_injective hkey)
  cases eq_of_name hnodup he hd hname

end Contract

/-! ### Deployments -/

namespace Machine

variable {ω : Type} [Stores ω] {m : Machine ω} {c : Contract} {p : Program} {address : Word}

/-- A deployment whose initialization halts and whose program is recorded goes right. -/
theorem deploy_of_run {l : Loaded} {fuel : Nat} {f : Frame} {s s' : ω}
    (hloaded : m.loaded = some l)
    (hrun : run m.limits l.address l.program.initialization fuel { memory := ∅ } m.stores
      = some ⟨s, f, .ok ()⟩)
    (hrecord : recordProgram s l = (s', .ok ())) :
    m.deploy fuel = some (.ok l.address, { m with stores := s', frame := f, phase := .halted }) := by
  have hcode : m.runCode fuel l.address ∅ l.program.initialization
      = some (.ok f.stack.head?, { m with stores := s, frame := f, phase := .halted }) := by
    rw [runCode_eq_map_run, hrun]
    rfl
  simp only [deploy, hloaded, hcode, hrecord]

/-- The program of a contract that compiles can be deployed on reliable stores, without a step limit
and with two places on the stack. What the machine did before does not show in its frame. -/
theorem deploy_initializes (hcompile : c.compile = .ok p) {good : ω → Prop}
    (hrel : Stores.Reliable good) (hroots : Stores.ContentRoots good) (hgood : good m.stores)
    (hsteps : m.limits.steps = none) (hstack : 2 ≤ m.limits.stack)
    (hloaded : m.loaded = some ⟨p, address⟩) :
    ∃ n s', good s' ∧ Stores.Deployed ⟨p, address⟩ c.initialCells m.stores s'
      ∧ ∀ fuel, n ≤ fuel → m.deploy fuel = some (.ok address,
        { m with
          stores := s'
          frame := ⟨[], ∅, p.initialization.length, p.initialization.length⟩
          phase := .halted }) := by
  obtain ⟨hnodup, ⟨slots, hinit⟩, -⟩ := Contract.compile_ok hcompile
  have hslots : slots = c.scope.storage := by
    rw [Compile.initialization_slots (by simpa using hnodup) hinit]
    rfl
  subst hslots
  obtain ⟨s, hgood', hperforms, hwritten⟩ := Compile.performs_initialization address ∅ hrel
    hroots hstack (by simpa using hnodup) hinit hgood
  obtain ⟨s', hrecord, hgood'', hdeployed⟩ :=
    Stores.Written.recordProgram (l := ⟨p, address⟩) hwritten hrel hroots hgood'
  have hallow : m.limits.Allow (0 + p.initialization.length) := by
    intro limit hlimit
    rw [hsteps] at hlimit
    cases hlimit
  have hreach := hperforms p.initialization 0 0 (codeAt_self _) hallow
  rw [Nat.zero_add] at hreach
  obtain ⟨n, hrun⟩ := run_before_reaches hreach (run_of_end rfl 0)
  refine ⟨n, s', hgood'', hdeployed, fun fuel hfuel => deploy_of_run hloaded ?_ hrecord⟩
  have hmore := run_add hrun (fuel - n)
  rwa [Nat.add_sub_cancel' hfuel] at hmore

/-- **A deployment sets the declared initial state.** A contract that compiles is loaded and deployed
on stores that do not fail and hold anything, without a step limit and with at least two places on
the stack. The deployment succeeds, and the machine has halted. The storage cell of each variable
holds the value of its declaration; every other key of the storage is as it was, those of the slots of
mappings among them. A second deployment right after it succeeds and leaves the machine and its
stores as they are. -/
theorem deployment_sets_initial_values (hcompile : c.compile = .ok p)
    (hsize : c.storageNames.length ≤ 2 ^ 256) {good : ω → Prop} (hrel : Stores.Reliable good)
    (hroots : Stores.ContentRoots good) (hgood : good m.stores) (hsteps : m.limits.steps = none)
    (hstack : 2 ≤ m.limits.stack) :
    ∃ n m' m'', (∀ fuel, n ≤ fuel → (m.load p).2.deploy fuel = some (.ok p.address, m')
          ∧ m'.deploy fuel = some (.ok p.address, m''))
      ∧ m'.phase = .halted
      ∧ (∀ d, .variable_ d ∈ c.declarations → ∃ w, Compile.literalWord d.value = .ok w
          ∧ Stores.get? m'.stores .storage (c.slotWord d.name).hex = .ok (some w.toBytes))
      ∧ (∀ key, (∀ d, .variable_ d ∈ c.declarations → key ≠ (c.slotWord d.name).hex) →
          Stores.get? m'.stores .storage key = Stores.get? m.stores .storage key)
      ∧ (∀ e, .mapping e ∈ c.declarations → ∀ d, .variable_ d ∈ c.declarations →
          (c.slotWord e.name).hex ≠ (c.slotWord d.name).hex)
      ∧ m'' = { m' with stores := m''.stores }
      ∧ ∀ area, Stores.Unchanged area m'.stores m''.stores := by
  obtain ⟨hnodup, ⟨slots, hinit⟩, -⟩ := Contract.compile_ok hcompile
  obtain ⟨n₁, s₁, hgood₁, hdeployed₁, hdeploy₁⟩ := deploy_initializes (m := (m.load p).2) hcompile
    hrel hroots hgood hsteps hstack rfl
  -- The second deployment starts from the machine that the first one leaves.
  obtain ⟨n₂, s₂, hgood₂, hdeployed₂, hdeploy₂⟩ := deploy_initializes
    (m := { (m.load p).2 with
      stores := s₁
      frame := ⟨[], ∅, p.initialization.length, p.initialization.length⟩
      phase := .halted }) hcompile hrel hroots hgood₁ hsteps hstack rfl
  refine ⟨max n₁ n₂, _, _, fun fuel hfuel =>
    ⟨hdeploy₁ fuel (by omega), hdeploy₂ fuel (by omega)⟩, rfl, fun d hd => ?_, fun key hkey => ?_,
    fun e he d hd => Contract.slotWord_mapping_ne hnodup hsize he hd, rfl,
    hdeployed₁.unchanged hroots hgood₁ hgood₂ hdeployed₂⟩
  · obtain ⟨w, hw⟩ := Compile.exists_literalWord hinit hd
    refine ⟨w, hw, ?_⟩
    rw [hdeployed₁.storage, Contract.lastWrite?_initialCells hnodup hsize hd hw]
    rfl
  · have hnone : lastWrite? key c.initialCells = none := by
      refine lastWrite?_eq_none_iff.2 fun pair hpair => ?_
      obtain ⟨d, hd, hcell, -⟩ := Contract.mem_initialCells.1 hpair
      rw [hcell]
      exact hkey d hd
    rw [hdeployed₁.storage, hnone]
    rfl

/-- Two variables, with a mapping before them and a function between them. -/
def till : Contract :=
  ⟨"Till", [.mapping ⟨"paid", ["Int"], "Int"⟩, .variable_ ⟨"fee", "Int", .int (-7)⟩,
    .function ⟨"close", [], none, []⟩, .variable_ ⟨"opened", "Bool", .bool true⟩]⟩

/-- A storage that holds something in the slot of the mapping and something else in the slot of the
first variable. With two places on the stack the deployment keeps the one and replaces the other. -/
theorem till_is_deployed_twice :
    let storage : Store := .ofList [((till.slotWord "paid").hex, [1]),
      ((till.slotWord "fee").hex, [2, 3])]
    let m : Machine MemoryStores := { stores := { storage }, limits := { stack := 2 } }
    ∃ p n m' m'', till.compile = .ok p ∧ (m.load p).2.deploy n = some (.ok p.address, m')
      ∧ m'.phase = .halted
      ∧ m'.stores.storage.get? (till.slotWord "paid").hex = some [1]
      ∧ m'.stores.storage.get? (till.slotWord "fee").hex = some (Word.wrap (-7)).toBytes
      ∧ m'.stores.storage.get? (till.slotWord "opened").hex = some (Word.ofBool true).toBytes
      ∧ m'.deploy n = some (.ok p.address, m'') ∧ m''.stores = m'.stores := by
  intro storage m
  obtain ⟨p, hp⟩ : ∃ p, till.compile = .ok p := ⟨_, rfl⟩
  obtain ⟨n, m', m'', hdeploy, hphase, hvalues, hothers, hmappings, -, hsame⟩ :=
    deployment_sets_initial_values hp (by decide) MemoryStores.reliable MemoryStores.contentRoots
      (m := m) trivial rfl (by decide)
  obtain ⟨hfirst, hsecond⟩ := hdeploy n (Nat.le_refl n)
  obtain ⟨fee, hfee, hfeeCell⟩ := hvalues ⟨"fee", "Int", .int (-7)⟩ (by simp [till])
  obtain ⟨opened, hopened, hopenedCell⟩ := hvalues ⟨"opened", "Bool", .bool true⟩ (by simp [till])
  cases (rfl : Compile.literalWord (.int (-7)) = .ok (.wrap (-7))).symm.trans hfee
  cases (rfl : Compile.literalWord (.bool true) = .ok (.ofBool true)).symm.trans hopened
  have hpaid := hothers (till.slotWord "paid").hex
    (hmappings ⟨"paid", ["Int"], "Int"⟩ (by simp [till]))
  have hbefore : storage.get? (till.slotWord "paid").hex = some [1] := by decide
  exact ⟨p, n, m', m'', hp, hfirst, hphase, (Except.ok.inj hpaid).trans hbefore,
    Except.ok.inj hfeeCell, Except.ok.inj hopenedCell, hsecond, MemoryStores.eq_of_unchanged hsame⟩

end Machine

end Covenant
