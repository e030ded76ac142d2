import Covenant.Proofs.Machine.Operations

/-!
# Machines in lockstep

A machine knows its stores by what they answer. On stores of two kinds that answer alike it does the
same thing, turn by turn, and the stores go on to answer alike. The first kind may lose an insertion
that the second takes; then the first machine reports the loss as its fault, and that is the only
way in which the two can part.

* `Stores.Alike` is what is asked of the two kinds.
* `turn_matches` is about one turn, and `run_matches_of_turns` about a run.
* `Machine.Together` compares what two operations end in. What a machine did before does not count.
-/

namespace Covenant

section Run

variable {ω ω' : Type} [Stores ω] [Stores ω']

/-- Related stores answer alike, and an insertion has the same result and leaves them related,
unless the first loses it. -/
structure Stores.Alike (R : ω → ω' → Prop) (lost : StoreError → Prop) : Prop where
  get? : ∀ s t, R s t → ∀ area key, Stores.get? s area key = Stores.get? t area key
  root : ∀ s t, R s t → ∀ area, Stores.root s area = Stores.root t area
  insert : ∀ s t, R s t → ∀ area key value,
    (∃ cause, lost cause ∧ (Stores.insert s area key value).2 = .error cause)
      ∨ (Stores.insert s area key value).2 = (Stores.insert t area key value).2
        ∧ R (Stores.insert s area key value).1 (Stores.insert t area key value).1

/-- A fault that reports a loss. -/
def IsLoss {α : Type} (lost : StoreError → Prop) (r : Except Fault α) : Prop :=
  ∃ cause, lost cause ∧ r = .error (.store cause)

/-- The first of two steps on the stores reports a loss, or they have the same result and leave the
stores related. -/
def Stores.Match {α : Type} (R : ω → ω' → Prop) (lost : StoreError → Prop)
    (x : ω × Except Fault α) (y : ω' × Except Fault α) : Prop :=
  IsLoss lost x.2 ∨ x.2 = y.2 ∧ R x.1 y.1

variable {R : ω → ω' → Prop} {lost : StoreError → Prop} {s : ω} {t : ω'} {limits : Limits}
  {program : Word} {code : List Instruction}

/-- An insertion that is lost is reported as a loss. -/
theorem IsLoss.of_insert {cause : StoreError} (h : lost cause) {result : Except StoreError Unit}
    (hresult : result = .error cause) : IsLoss lost (result.mapError .store) :=
  ⟨cause, h, by rw [hresult]; rfl⟩

/-- Roots are recorded alike, as they are alike. -/
theorem Stores.Alike.recordRoot (h : Stores.Alike R lost) (hR : R s t) (program : Word) :
    Stores.Match R lost (Instruction.recordRoot s program) (Instruction.recordRoot t program) := by
  unfold Instruction.recordRoot
  rw [h.root s t hR .storage]
  cases Stores.root t .storage with
  | error e => exact Or.inr ⟨rfl, hR⟩
  | ok root =>
    rcases h.insert s t hR .accounts program.hex root.toBytes with
      ⟨cause, hlost, hresult⟩ | ⟨hresult, hR'⟩
    · exact Or.inl (.of_insert hlost hresult)
    · exact Or.inr ⟨congrArg (Except.mapError Fault.store) hresult, hR'⟩

/-- An insertion and, if it goes right, the storage root recorded after it. -/
def Stores.insertRecorded (s : ω) (area : Area) (key : String) (value : Bytes) (program : Word) :
    ω × Except Fault Unit :=
  match Stores.insert s area key value with
  | (s, .error e) => (s, .error (.store e))
  | (s, .ok ()) => Instruction.recordRoot s program

/-- An insertion and the root after it match, if the insertion does. -/
theorem Stores.Alike.insertRecorded (h : Stores.Alike R lost) (hR : R s t) (area : Area)
    (key : String) (value : Bytes) (program : Word) :
    Stores.Match R lost (Stores.insertRecorded s area key value program)
      (Stores.insertRecorded t area key value program) := by
  have hinsert := h.insert s t hR area key value
  unfold Stores.insertRecorded
  rcases hs : Stores.insert s area key value with ⟨s', result⟩
  rcases ht : Stores.insert t area key value with ⟨t', result'⟩
  rw [hs, ht] at hinsert
  rcases hinsert with ⟨cause, hlost, rfl⟩ | ⟨rfl, hR'⟩
  · exact Or.inl ⟨cause, hlost, rfl⟩
  · cases result with
    | error e => exact Or.inr ⟨rfl, hR'⟩
    | ok => exact h.recordRoot hR' program

/-- A cell is written, and the root recorded after it. -/
theorem Stores.Alike.writeCell (h : Stores.Alike R lost) (hR : R s t) (program cell w : Word) :
    Stores.Match R lost (Instruction.writeCell s program cell w)
      (Instruction.writeCell t program cell w) :=
  h.insertRecorded hR .storage cell.hex w.toBytes program

/-- A program is recorded, and the root after it. -/
theorem Stores.Alike.recordProgram (h : Stores.Alike R lost) (hR : R s t) (l : Loaded) :
    Stores.Match R lost (Machine.recordProgram s l) (Machine.recordProgram t l) :=
  h.insertRecorded hR .accounts (programKey l.address) l.program.toBytes l.address

/-- An instruction does the same on both stores if what it reads and writes there is the same. -/
theorem execute_match (hR : R s t) (limits : Limits) (length pc : Nat) (i : Instruction) (f : Frame)
    (hread : ∀ cell rest, i = .sload → f.stack = cell :: rest →
      Instruction.readCell s cell = Instruction.readCell t cell)
    (hwrite : ∀ cell w rest, i = .sstore → f.stack = cell :: w :: rest →
      Stores.Match R lost (Instruction.writeCell s program cell w)
        (Instruction.writeCell t program cell w)) :
    Stores.Match R lost (i.execute limits program length pc f s)
      (i.execute limits program length pc f t) := by
  cases i with
  | sload =>
    simp only [Instruction.execute]
    cases hstack : f.stack with
    | nil => exact Or.inr ⟨rfl, hR⟩
    | cons cell rest =>
      simp only [hread cell rest rfl hstack]
      cases Instruction.readCell t cell with
      | error e => exact Or.inr ⟨rfl, hR⟩
      | ok w => exact Or.inr ⟨rfl, hR⟩
  | sstore =>
    simp only [Instruction.execute]
    rcases hstack : f.stack with _ | ⟨cell, _ | ⟨w, rest⟩⟩
    · exact Or.inr ⟨rfl, hR⟩
    · exact Or.inr ⟨rfl, hR⟩
    · -- The word is written by the stores alone, so their match is that of the instruction.
      have hmatch := hwrite cell w rest rfl hstack
      rcases hs : Instruction.writeCell s program cell w with ⟨s', result⟩
      rcases ht : Instruction.writeCell t program cell w with ⟨t', result'⟩
      rw [hs, ht] at hmatch
      dsimp only
      rw [hs, ht]
      rcases hmatch with ⟨cause, hlost, hresult⟩ | ⟨hresult, hR'⟩
      · cases hresult
        exact Or.inl ⟨cause, hlost, rfl⟩
      · cases hresult
        cases result with
        | error e => exact Or.inr ⟨rfl, hR'⟩
        | ok => exact Or.inr ⟨rfl, hR'⟩
  | _ => exact Or.inr ⟨rfl, hR⟩

/-- Two turns that do the same, or of which the first reports a loss. -/
inductive Turn.Matches (R : ω → ω' → Prop) (lost : StoreError → Prop) :
    Turn ω → Turn ω' → Prop where
  | halted : Matches R lost .halted .halted
  | next {f : Frame} {s : ω} {t : ω'} (h : R s t) : Matches R lost (.next f s) (.next f t)
  | faulted {f : Frame} {e : Fault} {s : ω} {t : ω'} (h : R s t) :
      Matches R lost (.faulted ⟨s, f, .error e⟩) (.faulted ⟨t, f, .error e⟩)
  | lost {o : Outcome ω} (h : IsLoss lost o.result) (other : Turn ω') :
      Matches R lost (.faulted o) other

/-- Two runs that end alike, or both not at all, or of which the first reports a loss. -/
inductive Outcome.Matches (R : ω → ω' → Prop) (lost : StoreError → Prop) :
    Option (Outcome ω) → Option (Outcome ω') → Prop where
  | unfinished : Matches R lost none none
  | ended {f : Frame} {r : Except Fault Unit} {s : ω} {t : ω'} (h : R s t) :
      Matches R lost (some ⟨s, f, r⟩) (some ⟨t, f, r⟩)
  | lost {o : Outcome ω} (h : IsLoss lost o.result) (other : Option (Outcome ω')) :
      Matches R lost (some o) other

/-- Two turns at one frame do the same if the cell does that they read or write. -/
theorem turn_matches (hR : R s t) (f : Frame)
    (hread : ∀ cell rest, code[f.pc]? = some .sload → f.stack = cell :: rest →
      ({ f with steps := f.steps + 1 } : Frame).exceeded limits = none →
      Instruction.readCell s cell = Instruction.readCell t cell)
    (hwrite : ∀ cell w rest, code[f.pc]? = some .sstore → f.stack = cell :: w :: rest →
      ({ f with steps := f.steps + 1 } : Frame).exceeded limits = none →
      Stores.Match R lost (Instruction.writeCell s program cell w)
        (Instruction.writeCell t program cell w)) :
    Turn.Matches R lost (turn limits program code f s) (turn limits program code f t) := by
  unfold turn
  cases hcode : code[f.pc]? with
  | none => exact .halted
  | some i =>
    -- The limits are those of the frame, which both turns have in common.
    dsimp only
    cases hlimit : ({ f with steps := f.steps + 1 } : Frame).exceeded limits with
    | some limit => exact .faulted hR
    | none =>
      have hexec : Stores.Match R lost
          (i.execute limits program code.length f.pc
            { f with pc := f.pc + 1, steps := f.steps + 1 } s)
          (i.execute limits program code.length f.pc
            { f with pc := f.pc + 1, steps := f.steps + 1 } t) := by
        apply execute_match hR
        · intro cell rest hi hstack
          exact hread cell rest (hi ▸ hcode) hstack hlimit
        · intro cell w rest hi hstack
          exact hwrite cell w rest (hi ▸ hcode) hstack hlimit
      dsimp only
      rcases hs : i.execute limits program code.length f.pc
        { f with pc := f.pc + 1, steps := f.steps + 1 } s with ⟨s', result⟩
      rcases ht : i.execute limits program code.length f.pc
        { f with pc := f.pc + 1, steps := f.steps + 1 } t with ⟨t', result'⟩
      rw [hs, ht] at hexec
      rcases hexec with ⟨cause, hlost, hresult⟩ | ⟨hresult, hR'⟩
      · cases hresult
        exact .lost ⟨cause, hlost, rfl⟩ _
      · cases hresult
        cases result with
        | error e => exact .faulted hR'
        | ok f' => exact .next hR'

/-- Two runs match if the turns do that they come to. -/
theorem run_matches_of_turns (hR : R s t) (fuel : Nat) (f : Frame)
    (hturns : ∀ f' s' t', Reaches limits program code f s f' s' →
      Reaches limits program code f t f' t' → R s' t' →
      Turn.Matches R lost (turn limits program code f' s') (turn limits program code f' t')) :
    Outcome.Matches R lost (run limits program code fuel f s)
      (run limits program code fuel f t) := by
  -- On the turns left: the frames stay the same, so only the stores have to be carried along.
  induction fuel generalizing f s t with
  | zero =>
    rw [run, run]
    split
    · exact .unfinished
    · exact .ended hR
  | succ fuel ih =>
    have hturn := hturns f s t (.refl f s) (.refl f t) hR
    rw [run_succ, run_succ]
    generalize hfirst : turn limits program code f s = first at hturn ⊢
    generalize hsecond : turn limits program code f t = second at hturn ⊢
    cases hturn with
    | halted => exact .ended hR
    | next hR' =>
      exact ih hR' _ fun f'' s'' t'' hs ht =>
        hturns f'' s'' t'' (.step hfirst hs) (.step hsecond ht)
    | faulted hR' => exact .ended hR'
    | lost hlost other => exact .lost hlost _

/-- Runs on stores that are alike match. -/
theorem Stores.Alike.run (h : Stores.Alike R lost) (hR : R s t) (limits : Limits) (program : Word)
    (code : List Instruction) (fuel : Nat) (f : Frame) :
    Outcome.Matches R lost (Covenant.run limits program code fuel f s)
      (Covenant.run limits program code fuel f t) :=
  run_matches_of_turns hR fuel f fun _ _ _ _ _ hR' =>
    turn_matches hR' _ (fun _ _ _ _ _ => readCell_congr (h.get? _ _ hR' _ _))
      fun cell w _ _ _ _ => h.writeCell hR' program cell w

end Run

namespace Machine

variable {ω ω' α : Type} {R : ω → ω' → Prop} {lost : StoreError → Prop} {m : Machine ω}
  {n : Machine ω'}

/-- Machines with the same program and limits on related stores. -/
structure Alike (R : ω → ω' → Prop) (m : Machine ω) (n : Machine ω') : Prop where
  limits : m.limits = n.limits
  loaded : m.loaded = n.loaded
  stores : R m.stores n.stores

/-- Two operations that end alike, or both not at all, or of which the first reports a loss. -/
inductive Together (R : ω → ω' → Prop) (lost : StoreError → Prop) :
    Option (Except Fault α × Machine ω) → Option (Except Fault α × Machine ω') → Prop where
  | unfinished : Together R lost none none
  | ended {r : Except Fault α} {m : Machine ω} {n : Machine ω'} (h : m.Alike R n) :
      Together R lost (some (r, m)) (some (r, n))
  | lost {r : Except Fault α} {m : Machine ω} (h : IsLoss lost r)
      (other : Option (Except Fault α × Machine ω')) : Together R lost (some (r, m)) other

/-- What machines had loaded before does not matter once they have loaded the same program. -/
theorem alike_load (hlimits : m.limits = n.limits) (hstores : R m.stores n.stores) (p : Program) :
    (m.load p).2.Alike R (n.load p).2 :=
  ⟨hlimits, rfl, hstores⟩

variable [Stores ω] [Stores ω']

/-- A program is found in both or in neither. -/
theorem programAt_eq (halike : Stores.Alike R lost) (hstores : R m.stores n.stores) (a : Word) :
    m.programAt a = n.programAt a := by
  rw [programAt, programAt, halike.get? _ _ hstores]

/-- Running code gives both machines the outcomes of their runs. -/
theorem Alike.together_runCode (h : m.Alike R n) {fuel : Nat} {address : Word} {memory : Memory}
    {code : List Instruction}
    (hrun : Outcome.Matches R lost (run n.limits address code fuel { memory } m.stores)
      (run n.limits address code fuel { memory } n.stores)) :
    Together R lost (m.runCode fuel address memory code) (n.runCode fuel address memory code) := by
  rw [runCode_eq_map_run, runCode_eq_map_run, h.limits]
  generalize run n.limits address code fuel { memory } m.stores = first at hrun ⊢
  generalize run n.limits address code fuel { memory } n.stores = second at hrun ⊢
  cases hrun with
  | unfinished => exact .unfinished
  | ended hR => exact .ended ⟨rfl, h.loaded, hR⟩
  | lost hloss other =>
    obtain ⟨cause, hlost, hresult⟩ := hloss
    exact .lost ⟨cause, hlost, by rw [hresult]; rfl⟩ _

/-- A call fails on both machines before it runs anything, or runs the function on both. -/
theorem Alike.together_callWords (h : m.Alike R n) {fuel i : Nat} {arguments : List Word}
    (hrun : ∀ l f, n.loaded = some l → l.program.functions.get? i = some f →
      Outcome.Matches R lost
        (run n.limits l.address f.body fuel { memory := bind f.parameters arguments } m.stores)
        (run n.limits l.address f.body fuel { memory := bind f.parameters arguments } n.stores)) :
    Together R lost (m.callWords fuel i arguments) (n.callWords fuel i arguments) := by
  rw [Machine.callWords, Machine.callWords, h.loaded]
  cases hloaded : n.loaded with
  | none => exact .ended h
  | some l =>
    dsimp only
    cases hf : l.program.functions.get? i with
    | none => exact .ended h
    | some f =>
      dsimp only
      -- The number of arguments is compared on both machines in the same way.
      split
      · exact .ended h
      · exact h.together_runCode (hrun l f hloaded hf)

/-- Calls match. -/
theorem Alike.callWords (h : m.Alike R n) (halike : Stores.Alike R lost) (fuel i : Nat)
    (arguments : List Word) :
    Together R lost (m.callWords fuel i arguments) (n.callWords fuel i arguments) :=
  h.together_callWords fun l f _ _ => halike.run h.stores n.limits l.address f.body fuel _

theorem Alike.call (h : m.Alike R n) (halike : Stores.Alike R lost) (fuel i : Nat)
    (values : List Value) : Together R lost (m.call fuel i values) (n.call fuel i values) := by
  rw [Machine.call, Machine.call]
  cases encodeAll values with
  | error e => exact .ended h
  | ok words => exact h.callWords halike fuel i words

/-- Deployments match. -/
theorem Alike.deploy (h : m.Alike R n) (halike : Stores.Alike R lost) (fuel : Nat) :
    Together R lost (m.deploy fuel) (n.deploy fuel) := by
  rw [Machine.deploy, Machine.deploy, h.loaded]
  cases n.loaded with
  | none => exact .ended h
  | some l =>
    dsimp only
    have hrun := h.together_runCode
      (halike.run h.stores n.limits l.address l.program.initialization fuel { memory := ∅ })
    generalize m.runCode fuel l.address ∅ l.program.initialization = first at hrun ⊢
    generalize n.runCode fuel l.address ∅ l.program.initialization = second at hrun ⊢
    cases hrun with
    | unfinished => exact .unfinished
    | lost hloss other =>
      obtain ⟨cause, hlost, rfl⟩ := hloss
      exact .lost ⟨cause, hlost, rfl⟩ _
    | @ended r m₁ n₁ h₁ =>
      -- Only after an initialization that went right is the program recorded.
      cases r with
      | error e => exact .ended h₁
      | ok value =>
        dsimp only
        have hrecord := halike.recordProgram h₁.stores l
        rcases hs : recordProgram m₁.stores l with ⟨s, result⟩
        rcases ht : recordProgram n₁.stores l with ⟨t, result'⟩
        rw [hs, ht] at hrecord
        rcases hrecord with ⟨cause, hlost, hresult⟩ | ⟨hresult, hR⟩
        · cases hresult
          exact .lost ⟨cause, hlost, rfl⟩ _
        · cases hresult
          cases result with
          | error e => exact .ended ⟨h₁.limits, h₁.loaded, hR⟩
          | ok => exact .ended ⟨h₁.limits, h₁.loaded, hR⟩

end Machine

end Covenant
