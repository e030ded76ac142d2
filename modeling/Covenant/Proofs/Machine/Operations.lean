import Covenant.Proofs.Machine.Safety
import Covenant.Proofs.Machine.Stores

/-!
# Operations of a machine

What a deployment and a call come to: a run of one code list, and for a deployment two insertions
after it. Each operation has one lemma that says all it can do, and what later proofs say about
operations goes through it.

* `runCode_eq_some`, `deploy_eq_some`, `callWords_eq_some` and `call_eq_some` take an operation apart.
* `callWords_stores`, `call_stores` and `deploy_stores` carry what a write of any cell keeps over
  whole operations.
* `Machine.Serves` is any sequence of deployments and calls.
-/

namespace Covenant

namespace Machine

variable {ω : Type} [Stores ω] {m m' : Machine ω} {fuel : Nat} {address : Word} {memory : Memory}
  {code : List Instruction} {l : Loaded} {r : Except Fault (Option Word)}

/-- The phase of a machine after a run with an outcome. -/
def phaseAfter (o : Outcome ω) : Phase :=
  match o.result with
  | .ok () => .halted
  | .error _ => .faulted

/-- Running code starts with an empty stack and gives the outcome of the run to the machine. -/
theorem runCode_eq_map_run :
    m.runCode fuel address memory code
      = (run m.limits address code fuel { memory } m.stores).map fun o =>
          (o.result.map fun _ => o.frame.stack.head?,
            { m with stores := o.stores, frame := o.frame, phase := phaseAfter o }) := by
  unfold runCode
  split
  · next hrun => rw [hrun]; rfl
  · next hrun => rw [hrun]; rfl
  · next hrun => rw [hrun]; rfl

/-- Code that comes to an end has the outcome of its run. -/
theorem runCode_eq_some (h : m.runCode fuel address memory code = some (r, m')) :
    ∃ o, run m.limits address code fuel { memory } m.stores = some o
      ∧ r = o.result.map (fun _ => o.frame.stack.head?)
      ∧ m' = { m with stores := o.stores, frame := o.frame, phase := phaseAfter o } := by
  rw [runCode_eq_map_run, Option.map_eq_some_iff] at h
  obtain ⟨o, hrun, ho⟩ := h
  cases ho
  exact ⟨o, hrun, rfl, rfl⟩

/-- A run of code leaves the machine halted if it has a result, and faulted if it has none. -/
theorem runCode_phase (h : m.runCode fuel address memory code = some (r, m')) :
    (∀ value, r = .ok value → m'.phase = .halted) ∧ ∀ e, r = .error e → m'.phase = .faulted := by
  obtain ⟨o, -, rfl, rfl⟩ := runCode_eq_some h
  show (∀ value, o.result.map _ = .ok value → phaseAfter o = .halted)
    ∧ ∀ e, o.result.map _ = .error e → phaseAfter o = .faulted
  unfold phaseAfter
  cases o.result with
  | ok => exact ⟨fun _ _ => rfl, fun e he => by cases he⟩
  | error e => exact ⟨fun value hvalue => (by cases hvalue), fun _ _ => rfl⟩

/-- A deployment runs the initialization. If that faults the deployment faults with it, and if it
halts the program is recorded in the stores it left. -/
theorem deploy_eq_some {r : Except Fault Word} (hloaded : m.loaded = some l)
    (h : m.deploy fuel = some (r, m')) :
    ∃ r₀ m₀, m.runCode fuel l.address ∅ l.program.initialization = some (r₀, m₀)
      ∧ ((∃ e, r₀ = .error e ∧ r = .error e ∧ m' = m₀)
        ∨ ∃ value, r₀ = .ok value
          ∧ r = (recordProgram m₀.stores l).2.map (fun _ => l.address)
          ∧ m' = { m₀ with stores := (recordProgram m₀.stores l).1 }) := by
  unfold deploy at h
  rw [hloaded] at h
  dsimp only at h
  split at h
  · cases h
  · next e m₀ hrun =>
    cases h
    exact ⟨_, _, hrun, Or.inl ⟨e, rfl, rfl, rfl⟩⟩
  · -- The initialization has halted, so the rest is recording.
    next value m₀ hrun =>
    refine ⟨_, _, hrun, Or.inr ⟨value, rfl, ?_⟩⟩
    split at h
    · next stores hrecord =>
      cases h
      rw [hrecord]
      exact ⟨rfl, rfl⟩
    · next stores e hrecord =>
      cases h
      rw [hrecord]
      exact ⟨rfl, rfl⟩

/-- A call fails before it runs anything, with the machine as it was, or it runs the code of the
function. -/
theorem callWords_eq_some {i : Nat} {arguments : List Word} (hloaded : m.loaded = some l)
    (h : m.callWords fuel i arguments = some (r, m')) :
    (∃ e, r = .error e
        ∧ (e = .undefinedFunction i ∨ ∃ expected, e = .tooManyArguments i expected arguments.length)
        ∧ m' = m)
      ∨ ∃ code, l.program.functions.get? i = some code
        ∧ m.runCode fuel l.address (bind code.parameters arguments) code.body = some (r, m') := by
  unfold callWords at h
  rw [hloaded] at h
  dsimp only at h
  split at h
  · cases h
    exact Or.inl ⟨_, rfl, Or.inl rfl, rfl⟩
  · next code hcode =>
    split at h
    · cases h
      exact Or.inl ⟨_, rfl, Or.inr ⟨_, rfl⟩, rfl⟩
    · exact Or.inr ⟨code, hcode, h⟩

/-- A call with values fails to encode them, with the machine as it was, or is a call with their
words. -/
theorem call_eq_some {i : Nat} {values : List Value} (h : m.call fuel i values = some (r, m')) :
    (∃ e, encodeAll values = .error e ∧ r = .error (.encoding e) ∧ m' = m)
      ∨ ∃ words, encodeAll values = .ok words ∧ m.callWords fuel i words = some (r, m') := by
  unfold call at h
  split at h
  · next e he =>
    cases h
    exact Or.inl ⟨e, he, rfl, rfl⟩
  · next words hwords => exact Or.inr ⟨words, hwords, h⟩

/-- Recording a program cannot misstep. -/
theorem isMisstep_of_recordProgram {s : ω} {e : Fault}
    (h : (recordProgram s l).2.map (fun _ => l.address) = .error e) : e.isMisstep = false := by
  rcases hrecord : recordProgram s l with ⟨s', e' | ⟨⟩⟩
  · rw [hrecord] at h
    rw [← Except.error.inj h]
    unfold recordProgram at hrecord
    split at hrecord
    · cases hrecord
      rfl
    · -- The program is there, but the root after it is not recorded.
      obtain ⟨cause, rfl, -⟩ := recordRoot_eq_error hrecord
      rfl
  · rw [hrecord] at h
    cases h

/-! ### The program of a machine -/

/-- The limits and the program of a machine are those of another. -/
structure SameSetup (m m' : Machine ω) : Prop where
  limits : m'.limits = m.limits
  loaded : m'.loaded = m.loaded

theorem runCode_setup (h : m.runCode fuel address memory code = some (r, m')) :
    m.SameSetup m' := by
  obtain ⟨o, -, -, rfl⟩ := runCode_eq_some h
  exact ⟨rfl, rfl⟩

/-- A deployment changes neither the limits nor the program. -/
theorem deploy_setup {r : Except Fault Word} (h : m.deploy fuel = some (r, m')) :
    m.SameSetup m' := by
  cases hloaded : m.loaded with
  | none =>
    simp only [deploy, hloaded, Option.some.injEq, Prod.mk.injEq] at h
    rw [← h.2]
    exact ⟨rfl, rfl⟩
  | some l =>
    obtain ⟨r₀, m₀, hrun, hend⟩ := deploy_eq_some hloaded h
    rcases hend with ⟨e, -, -, rfl⟩ | ⟨value, -, -, rfl⟩
    · exact runCode_setup hrun
    · exact ⟨(runCode_setup hrun).limits, (runCode_setup hrun).loaded⟩

/-- A call changes neither the limits nor the program. -/
theorem callWords_setup {i : Nat} {arguments : List Word}
    (h : m.callWords fuel i arguments = some (r, m')) : m.SameSetup m' := by
  cases hloaded : m.loaded with
  | none =>
    simp only [callWords, hloaded, Option.some.injEq, Prod.mk.injEq] at h
    rw [← h.2]
    exact ⟨rfl, rfl⟩
  | some l =>
    rcases callWords_eq_some hloaded h with ⟨-, -, -, rfl⟩ | ⟨code, -, hrun⟩
    · exact ⟨rfl, rfl⟩
    · exact runCode_setup hrun

theorem call_setup {i : Nat} {values : List Value} (h : m.call fuel i values = some (r, m')) :
    m.SameSetup m' := by
  rcases call_eq_some h with ⟨-, -, -, rfl⟩ | ⟨words, -, hwords⟩
  · exact ⟨rfl, rfl⟩
  · exact callWords_setup hwords

/-- A machine comes from another by any sequence of deployments and calls, whatever their results. -/
inductive Serves : Machine ω → Machine ω → Prop where
  | refl (m : Machine ω) : Serves m m
  | deploy {m m' m'' : Machine ω} {fuel : Nat} {r : Except Fault Word} (h : Serves m m')
      (hdeploy : m'.deploy fuel = some (r, m'')) : Serves m m''
  | callWords {m m' m'' : Machine ω} {fuel i : Nat} {arguments : List Word}
      {r : Except Fault (Option Word)} (h : Serves m m')
      (hcall : m'.callWords fuel i arguments = some (r, m'')) : Serves m m''
  | call {m m' m'' : Machine ω} {fuel i : Nat} {arguments : List Value}
      {r : Except Fault (Option Word)} (h : Serves m m')
      (hcall : m'.call fuel i arguments = some (r, m'')) : Serves m m''

/-- No deployment and no call changes the program of a machine. -/
theorem Serves.loaded (h : m.Serves m') (hloaded : m.loaded = some l) : m'.loaded = some l := by
  induction h with
  | refl => exact hloaded
  | deploy _ hdeploy ih => exact (deploy_setup hdeploy).loaded.trans ih
  | callWords _ hcall ih => exact (callWords_setup hcall).loaded.trans ih
  | call _ hcall ih => exact (call_setup hcall).loaded.trans ih

/-! ### Operations and stores -/

variable {P : ω → Prop}

/-- A fault of the stores has its origin in stores of `P`. -/
def FailsIn (P : ω → Prop) (e : Fault) : Prop :=
  ∀ cause, e = .store cause → ∃ s program, P s ∧ Stores.Fails program s cause

/-- The write of any cell by the program of a machine keeps `P`. -/
def Keeps (m : Machine ω) (P : ω → Prop) : Prop :=
  ∀ l, m.loaded = some l → ∀ s cell value, P s → P (Instruction.writeCell s l.address cell value).1

/-- What the write of any cell keeps, running code keeps, and a fault of the stores comes from
stores of this kind. -/
theorem runCode_stores (hkeeps : m.Keeps P) (hloaded : m.loaded = some l) (hs : P m.stores)
    (h : m.runCode fuel l.address memory code = some (r, m')) :
    P m'.stores ∧ ∀ e, r = .error e → FailsIn P e := by
  obtain ⟨o, hrun, rfl, rfl⟩ := runCode_eq_some h
  obtain ⟨hafter, hfault⟩ := run_stores (hkeeps l hloaded) hs hrun
  refine ⟨hafter, fun e he cause hcause => ?_⟩
  -- The fault that is reported is that of the run.
  have hresult : o.result = .error (.store cause) := by
    cases hresult : o.result with
    | ok _ =>
      rw [hresult] at he
      cases he
    | error e' =>
      rw [hresult] at he
      rw [← hcause, ← Except.error.inj he]
  obtain ⟨s, hs', hfails⟩ := hfault cause hresult
  exact ⟨s, l.address, hs', hfails⟩

/-- What the write of any cell keeps, a call keeps. -/
theorem callWords_stores (hkeeps : m.Keeps P) (hs : P m.stores) {i : Nat} {arguments : List Word}
    (h : m.callWords fuel i arguments = some (r, m')) :
    P m'.stores ∧ ∀ e, r = .error e → FailsIn P e := by
  cases hloaded : m.loaded with
  | none =>
    simp only [callWords, hloaded, Option.some.injEq, Prod.mk.injEq] at h
    obtain ⟨rfl, rfl⟩ := h
    exact ⟨hs, fun e he cause hcause => by cases he; cases hcause⟩
  | some l =>
    rcases callWords_eq_some hloaded h with ⟨e, rfl, he, rfl⟩ | ⟨code, -, hrun⟩
    · refine ⟨hs, fun e' he' cause hcause => ?_⟩
      cases he'
      rcases he with he | ⟨expected, he⟩
      · rw [he] at hcause
        cases hcause
      · rw [he] at hcause
        cases hcause
    · exact runCode_stores hkeeps hloaded hs hrun

/-- What the write of any cell keeps, a call with values keeps. -/
theorem call_stores (hkeeps : m.Keeps P) (hs : P m.stores) {i : Nat} {values : List Value}
    (h : m.call fuel i values = some (r, m')) :
    P m'.stores ∧ ∀ e, r = .error e → FailsIn P e := by
  rcases call_eq_some h with ⟨e, -, rfl, rfl⟩ | ⟨words, -, hwords⟩
  · refine ⟨hs, fun e' he' cause hcause => ?_⟩
    rw [← Except.error.inj he'] at hcause
    cases hcause
  · exact callWords_stores hkeeps hs hwords

/-- A deployment without a program or with a run that faults keeps what the write of any cell keeps,
and any other records the program in stores where that still holds. -/
theorem deploy_stores {r : Except Fault Word} (hkeeps : m.Keeps P) (hs : P m.stores)
    (h : m.deploy fuel = some (r, m')) :
    (∃ e, r = .error e ∧ FailsIn P e ∧ P m'.stores)
      ∨ ∃ l s, m.loaded = some l ∧ P s ∧ r = (recordProgram s l).2.map (fun _ => l.address)
        ∧ m'.stores = (recordProgram s l).1 := by
  cases hloaded : m.loaded with
  | none =>
    simp only [deploy, hloaded, Option.some.injEq, Prod.mk.injEq] at h
    obtain ⟨rfl, rfl⟩ := h
    exact Or.inl ⟨.notLoaded, rfl, nofun, hs⟩
  | some l =>
    obtain ⟨r₀, m₀, hrun, hend⟩ := deploy_eq_some hloaded h
    obtain ⟨hafter, hfault⟩ := runCode_stores hkeeps hloaded hs hrun
    -- The program is recorded only after an initialization that halts.
    rcases hend with ⟨e, he, rfl, rfl⟩ | ⟨value, -, rfl, rfl⟩
    · exact Or.inl ⟨e, rfl, hfault e he, hafter⟩
    · exact Or.inr ⟨l, m₀.stores, rfl, hafter, rfl, rfl⟩

end Machine

end Covenant
