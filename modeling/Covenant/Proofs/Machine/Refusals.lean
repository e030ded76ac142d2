import Covenant.Proofs.Machine.Moves
import Covenant.Proofs.Machine.Operations

/-!
# Calls that are refused

A call is refused if there is no program, the function is not defined, a value has no word, or there
are more words than parameters. Then nothing runs, and the machine is as it was. Any other call runs
the code of the function, and after that the machine has halted or faulted. The two sorts of calls can
be told apart by the fault alone: no instruction raises a fault that refuses a call.

* `Fault.isRefusal` and `Fault.isOfRun` are the two sorts of faults.
* `Machine.Starts` is what a call needs to start.
* `runFault_move` is about single instructions, `isOfRun_of_run` about runs.
* `Machine.refusals_leave_machine_untouched` is about calls.
-/

namespace Covenant

/-- Whether a fault refuses a call before anything runs. -/
def Fault.isRefusal : Fault → Bool
  | .notLoaded | .undefinedFunction _ | .tooManyArguments .. | .encoding _ => true
  | _ => false

/-- Whether a fault is one of code that runs. -/
def Fault.isOfRun : Fault → Bool
  | .stackUnderflow .. | .stackOverflow _ | .undefinedParameter _ | .missingStorageKey _
  | .missingMemorySlot _ | .divisionByZero _ | .jumpOutOfBounds .. | .stepLimitExceeded _
  | .store _ => true
  | _ => false

/-- No fault is of both sorts. -/
theorem Fault.isRefusal_of_isOfRun {e : Fault} (h : e.isOfRun = true) : e.isRefusal = false := by
  cases e with
  | notLoaded => cases h
  | undefinedFunction => cases h
  | tooManyArguments => cases h
  | encoding => cases h
  | _ => rfl

/-! ### Faults of runs -/

/-- A move that is a fault is one of code that runs. -/
def Move.RunFault : Move → Prop
  | .fault e => e.isOfRun = true
  | _ => True

/-- A word that may be missing gives one fault, the given one. -/
theorem runFault_ofOption {e : Fault} (he : e.isOfRun = true) (w? : Option Word) :
    (Move.ofOption e w?).RunFault := by
  cases w? with
  | none => exact he
  | some w => trivial

section Run

variable {ω : Type} [Stores ω] {limits : Limits} {program : Word} {code : List Instruction}
  {f : Frame} {s : ω} {o : Outcome ω}

/-- No instruction raises a fault that refuses a call. -/
theorem runFault_move (program : Word) (pc : Nat) (i : Instruction) (stack : List Word)
    (memory : Memory) (s : ω) : (i.move program pc stack memory s).2.RunFault := by
  -- A stack that is too short gives an underflow. Apart from that, only a lookup or the stores can
  -- fail.
  cases i with
  | push w => trivial
  | pushParam key => exact runFault_ofOption rfl _
  | pop =>
    cases stack with
    | nil => rfl
    | cons w rest => trivial
  | sload =>
    cases stack with
    | nil => rfl
    | cons address rest =>
      show (Move.ofRead (Instruction.readCell s address)).RunFault
      cases hread : Instruction.readCell s address with
      | ok w => trivial
      | error e =>
        rcases fault_of_readCell hread with rfl | ⟨cause, rfl⟩
        · rfl
        · rfl
  | sstore =>
    rcases stack with _ | ⟨address, _ | ⟨w, rest⟩⟩
    · rfl
    · rfl
    · show (Move.ofWrite memory (Instruction.writeCell s program address w).2).RunFault
      cases hwrite : (Instruction.writeCell s program address w).2 with
      | ok => trivial
      | error e =>
        obtain ⟨cause, rfl⟩ := fault_of_writeCell hwrite
        rfl
  | mload =>
    cases stack with
    | nil => rfl
    | cons key rest => exact runFault_ofOption rfl _
  | mstore =>
    rcases stack with _ | ⟨key, _ | ⟨w, rest⟩⟩
    · rfl
    · rfl
    · trivial
  | hash256 =>
    cases stack with
    | nil => rfl
    | cons w rest => trivial
  | binary op =>
    rcases stack with _ | ⟨r, _ | ⟨l, rest⟩⟩
    · rfl
    · rfl
    · exact runFault_ofOption rfl _
  | jump =>
    cases stack with
    | nil => rfl
    | cons target rest => trivial
  | jumpi =>
    rcases stack with _ | ⟨condition, _ | ⟨target, rest⟩⟩
    · rfl
    · rfl
    · show (if condition.isTrue then Move.pass memory else .jump target).RunFault
      cases condition.isTrue with
      | true => trivial
      | false => trivial

/-- Making a move adds two faults: the stack is full, or the target is not in the code. -/
theorem isOfRun_of_settle {move : Move} (hmove : move.RunFault) {length : Nat} {e : Fault}
    (h : move.settle limits length f = .error e) : e.isOfRun = true := by
  have hsettles := settles limits length f move
  rw [h] at hsettles
  cases hsettles with
  | fault => exact hmove
  | full => rfl
  | out => rfl

/-- A turn that faults has a fault of code that runs. -/
theorem isOfRun_of_turn (h : turn limits program code f s = .faulted o) :
    ∃ e, o.result = .error e ∧ e.isOfRun = true := by
  have hmade := made_turn limits program code f s
  rw [h] at hmade
  cases hmade with
  | exceeded => exact ⟨_, rfl, rfl⟩
  | @faulted i e s' move hget hlimit hmove hsettle =>
    have hkind := runFault_move program f.pc i f.stack f.memory s
    rw [hmove] at hkind
    exact ⟨e, rfl, isOfRun_of_settle hkind hsettle⟩

/-- A run that faults has the fault of its last turn, so one of code that runs. -/
theorem isOfRun_of_run {fuel : Nat} (h : run limits program code fuel f s = some o) {e : Fault}
    (he : o.result = .error e) : e.isOfRun = true := by
  obtain ⟨f', s', -, ⟨-, rfl⟩ | hfaulted⟩ := exists_last_turn h
  · cases he
  · obtain ⟨e', he', hkind⟩ := isOfRun_of_turn hfaulted
    rw [he] at he'
    cases he'
    exact hkind

end Run

/-! ### Calls -/

namespace Machine

variable {ω : Type} [Stores ω] {m m' : Machine ω} {fuel i : Nat} {values : List Value} {l : Loaded}
  {f : FunctionCode} {words : List Word}

/-- A machine that runs code reports the fault of the run. -/
theorem isOfRun_of_runCode {address : Word} {memory : Memory} {code : List Instruction} {e : Fault}
    (h : m.runCode fuel address memory code = some (.error e, m')) : e.isOfRun = true := by
  obtain ⟨o, hrun, hresult, -⟩ := runCode_eq_some h
  cases ho : o.result with
  | ok =>
    rw [ho] at hresult
    cases hresult
  | error e' =>
    rw [ho] at hresult
    cases hresult
    exact isOfRun_of_run hrun ho

/-- Values are encoded to words if each of them has the word at its place. -/
theorem encodeAll_eq_ok_iff :
    encodeAll values = .ok words ↔ values.map Value.encode = words.map .ok := by
  induction values generalizing words with
  | nil => cases words <;> simp [encodeAll]
  | cons first rest ih =>
    cases hfirst : first.encode with
    | error e => cases words <;> simp [encodeAll, hfirst]
    | ok w =>
      cases words with
      | nil => cases hrest : encodeAll rest <;> simp [encodeAll, hfirst, hrest, Except.map]
      | cons w' words' =>
        rw [List.map_cons, List.map_cons, hfirst, List.cons.injEq, Except.ok.injEq, ← ih]
        cases hrest : encodeAll rest <;> simp [encodeAll, hfirst, hrest, Except.map]

/-- What a call needs to start: a program, a function under its index, a word for each value, and no
more words than the function has parameters. -/
structure Starts (m : Machine ω) (i : Nat) (values : List Value) (l : Loaded) (f : FunctionCode)
    (words : List Word) : Prop where
  loaded : m.loaded = some l
  function : l.program.functions.get? i = some f
  encoded : values.map Value.encode = words.map .ok
  room : words.length ≤ f.parameters.length

/-- A call that has what it needs runs the code of the function. -/
theorem Starts.call_eq (h : m.Starts i values l f words) (fuel : Nat) :
    m.call fuel i values = m.runCode fuel l.address (bind f.parameters words) f.body := by
  simp only [call, encodeAll_eq_ok_iff.2 h.encoded, callWords, h.loaded, h.function,
    if_neg (Nat.not_lt.2 h.room)]

/-- A call that lacks anything is refused, however long it may run. -/
theorem exists_refusal (h : ¬ ∃ l f words, m.Starts i values l f words) :
    ∃ e : Fault, e.isRefusal = true ∧ ∀ fuel, m.call fuel i values = some (.error e, m) := by
  -- In the order in which a call looks: the values, the program, the function, the number of words.
  cases hencode : encodeAll values with
  | error e => exact ⟨.encoding e, rfl, fun fuel => by simp only [call, hencode]⟩
  | ok words =>
    cases hloaded : m.loaded with
    | none => exact ⟨.notLoaded, rfl, fun fuel => by simp only [call, hencode, callWords, hloaded]⟩
    | some l =>
      cases hfunction : l.program.functions.get? i with
      | none =>
        exact ⟨.undefinedFunction i, rfl,
          fun fuel => by simp only [call, hencode, callWords, hloaded, hfunction]⟩
      | some f =>
        by_cases hroom : words.length ≤ f.parameters.length
        · exact absurd ⟨l, f, words, hloaded, hfunction, encodeAll_eq_ok_iff.1 hencode, hroom⟩ h
        · exact ⟨.tooManyArguments i f.parameters.length words.length, rfl, fun fuel => by
            simp only [call, hencode, callWords, hloaded, hfunction, if_pos (Nat.not_le.1 hroom)]⟩

/-- **Calls that do not start leave no trace.** On any machine, with any function index and any
values: a call fails for a missing program, an undefined function, too many arguments or a value
without a word exactly if it starts no code, and then the machine is as it was. A call that starts
runs the code of the function. It leaves the machine halted if it has a result; otherwise it leaves
the machine faulted, and the fault is one of code that runs. -/
theorem refusals_leave_machine_untouched (m : Machine ω) (i : Nat) (values : List Value) :
    (∀ fuel r m', m.call fuel i values = some (r, m') →
        ((∃ e, r = .error e ∧ e.isRefusal = true) ↔ ¬ ∃ l f words, m.Starts i values l f words))
      ∧ ((¬ ∃ l f words, m.Starts i values l f words) →
        ∃ e : Fault, e.isRefusal = true ∧ ∀ fuel, m.call fuel i values = some (.error e, m))
      ∧ ∀ l f words, m.Starts i values l f words → ∀ fuel,
        m.call fuel i values = m.runCode fuel l.address (bind f.parameters words) f.body
        ∧ ∀ r m', m.call fuel i values = some (r, m') →
          (∀ value, r = .ok value → m'.phase = .halted)
          ∧ ∀ e, r = .error e → m'.phase = .faulted ∧ e.isOfRun = true := by
  refine ⟨fun fuel r m' hcall => ⟨?_, fun hnone => ?_⟩, exists_refusal, ?_⟩
  · -- Code that runs does not raise such a fault.
    rintro ⟨e, rfl, hrefusal⟩ ⟨l, f, words, hstarts⟩
    rw [hstarts.call_eq] at hcall
    have hkind := Fault.isRefusal_of_isOfRun (isOfRun_of_runCode hcall)
    rw [hrefusal] at hkind
    cases hkind
  · obtain ⟨e, hrefusal, hrefused⟩ := exists_refusal hnone
    rw [hrefused] at hcall
    cases hcall
    exact ⟨e, rfl, hrefusal⟩
  · intro l f words hstarts fuel
    refine ⟨hstarts.call_eq fuel, fun r m' hcall => ?_⟩
    rw [hstarts.call_eq] at hcall
    obtain ⟨hhalted, hfaulted⟩ := runCode_phase hcall
    refine ⟨hhalted, ?_⟩
    rintro e rfl
    exact ⟨hfaulted e rfl, isOfRun_of_runCode hcall⟩

end Machine

end Covenant
