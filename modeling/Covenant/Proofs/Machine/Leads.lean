import Covenant.Proofs.Machine.Turn

/-!
# Where a run leads

`Leads` says that the machine gets from a frame to a place of `Q` in some number of turns. It is
about runs without a step limit. That the stack may get full on the way is part of it, so it need not
be looked at turn by turn: it is ruled out once, for a whole run.

* `Leads.push`, `Leads.jump` and the others are the rules, one for every instruction: an instruction
  leads where the frame after it leads.
* `Accepts` is how a fault enters: the frame at which the machine faults is itself a place of `Q`.
* `Leads.elim` brings what was found back to runs.
-/

namespace Covenant

section Leads

variable {ω : Type} [Stores ω]

/-- The next turn finds the stack full. -/
def Overflows (limits : Limits) (program : Word) (code : List Instruction) (f : Frame) (s : ω) :
    Prop :=
  ∃ o limit, turn limits program code f s = .faulted o ∧ o.result = .error (.stackOverflow limit)

/-- The machine comes to a place of `Q`, unless the stack gets full before. -/
def Leads (limits : Limits) (program : Word) (code : List Instruction) (Q : Frame → ω → Prop)
    (f : Frame) (s : ω) : Prop :=
  ∃ f' s', Reaches limits program code f s f' s' ∧ (Q f' s' ∨ Overflows limits program code f' s')

/-- A frame is a place of `Q` if the machine faults there with the given fault, the stores as they
are. -/
def Accepts (limits : Limits) (program : Word) (code : List Instruction) (Q : Frame → ω → Prop)
    (s : ω) (e : Fault) : Prop :=
  ∀ f f', turn limits program code f s = .faulted ⟨s, f', .error e⟩ → Q f s

variable {limits : Limits} {program : Word} {code : List Instruction} {Q : Frame → ω → Prop}
  {memory : Memory} {stack : List Word} {pc k : Nat} {s s' : ω}

theorem Leads.here {f : Frame} (h : Q f s) : Leads limits program code Q f s :=
  ⟨f, s, .refl f s, Or.inl h⟩

/-- What leads to places that lead on leads there too. -/
theorem Leads.trans {R : Frame → ω → Prop} {f : Frame} (h : Leads limits program code Q f s)
    (hnext : ∀ f' s', Q f' s' → Leads limits program code R f' s') :
    Leads limits program code R f s := by
  obtain ⟨f', s', hreach, hQ | hover⟩ := h
  · obtain ⟨f'', s'', hreach', hR⟩ := hnext f' s' hQ
    exact ⟨f'', s'', hreach.trans hreach', hR⟩
  · exact ⟨f', s', hreach, Or.inr hover⟩

/-- A turn of a run without a step limit executes the instruction that is next. -/
theorem turn_execute {i : Instruction} {f : Frame} (hsteps : limits.steps = none)
    (hget : code[f.pc]? = some i) :
    turn limits program code f s
      = match i.execute limits program code.length f.pc
          { f with pc := f.pc + 1, steps := f.steps + 1 } s with
        | (s', .ok f') => .next f' s'
        | (s', .error e) =>
          .faulted ⟨s', { f with pc := f.pc + 1, steps := f.steps + 1 }, .error e⟩ := by
  -- Without a step limit the count is not compared with anything.
  have hlimit : ({ f with steps := f.steps + 1 } : Frame).exceeded limits = none := by
    simp only [Frame.exceeded, hsteps]
  rcases hexec : i.execute limits program code.length f.pc
    { f with pc := f.pc + 1, steps := f.steps + 1 } s with ⟨s', e | f'⟩
  · simp only [turn, hget, hlimit, hexec]
  · simp only [turn, hget, hlimit, hexec]

section Rules

variable (hsteps : limits.steps = none)

include hsteps

/-! ### Steps -/

/-- An instruction that can be executed leads where the frame after it leads. -/
theorem Leads.next {i : Instruction} {f' : Frame} (hget : code[pc]? = some i)
    (hexec : i.execute limits program code.length pc ⟨stack, memory, pc + 1, k + 1⟩ s
      = (s', .ok f'))
    (h : Leads limits program code Q f' s') :
    Leads limits program code Q ⟨stack, memory, pc, k⟩ s := by
  obtain ⟨f'', s'', hreach, hQ⟩ := h
  refine ⟨f'', s'', .step ?_ hreach, hQ⟩
  rw [turn_execute hsteps hget]
  simp only [hexec]

/-- An instruction that faults is where the run has come to, if the fault is accepted. -/
theorem Leads.fault {i : Instruction} {e : Fault} (hget : code[pc]? = some i)
    (hexec : i.execute limits program code.length pc ⟨stack, memory, pc + 1, k + 1⟩ s
      = (s, .error e))
    (h : Accepts limits program code Q s e) :
    Leads limits program code Q ⟨stack, memory, pc, k⟩ s := by
  refine Leads.here (h _ ⟨stack, memory, pc + 1, k + 1⟩ ?_)
  rw [turn_execute hsteps hget]
  simp only [hexec]

/-- An instruction that puts a word on the stack leads on, or finds the stack full. -/
theorem Leads.pushed {i : Instruction} {rest : List Word} {w : Word} (hget : code[pc]? = some i)
    (hexec : i.execute limits program code.length pc ⟨stack, memory, pc + 1, k + 1⟩ s
      = (s, Frame.push limits ⟨rest, memory, pc + 1, k + 1⟩ w))
    (h : Leads limits program code Q ⟨w :: rest, memory, pc + 1, k + 1⟩ s) :
    Leads limits program code Q ⟨stack, memory, pc, k⟩ s := by
  rcases push_cases limits ⟨rest, memory, pc + 1, k + 1⟩ w with hpush | hpush
  · rw [hpush] at hexec
    exact Leads.next hsteps hget hexec h
  · rw [hpush] at hexec
    -- The stack is full before the instruction, so the run has come to where it overflows.
    refine ⟨_, _, .refl _ _, Or.inr ⟨⟨s, ⟨stack, memory, pc + 1, k + 1⟩,
      .error (.stackOverflow limits.stack)⟩, limits.stack, ?_, rfl⟩⟩
    rw [turn_execute hsteps hget]
    simp only [hexec]

/-! ### The rules of the instructions -/

theorem Leads.push {w : Word} (hget : code[pc]? = some (.push w))
    (h : Leads limits program code Q ⟨w :: stack, memory, pc + 1, k + 1⟩ s) :
    Leads limits program code Q ⟨stack, memory, pc, k⟩ s :=
  Leads.pushed hsteps hget rfl h

/-- A parameter is pushed if the call has it. -/
theorem Leads.pushParam {key : Word} (hget : code[pc]? = some (.pushParam key))
    (h : match memory.get? key with
      | some w => Leads limits program code Q ⟨w :: stack, memory, pc + 1, k + 1⟩ s
      | none => Accepts limits program code Q s (.undefinedParameter key)) :
    Leads limits program code Q ⟨stack, memory, pc, k⟩ s := by
  cases hmem : memory.get? key with
  | some w =>
    rw [hmem] at h
    exact Leads.pushed hsteps hget (by simp [Instruction.execute, Instruction.execLocal, hmem]) h
  | none =>
    rw [hmem] at h
    exact Leads.fault hsteps hget (by simp [Instruction.execute, Instruction.execLocal, hmem]) h

/-- A cell is pushed if it has been written. -/
theorem Leads.mload {key : Word} (hget : code[pc]? = some .mload)
    (h : match memory.get? key with
      | some w => Leads limits program code Q ⟨w :: stack, memory, pc + 1, k + 1⟩ s
      | none => Accepts limits program code Q s (.missingMemorySlot key)) :
    Leads limits program code Q ⟨key :: stack, memory, pc, k⟩ s := by
  cases hmem : memory.get? key with
  | some w =>
    rw [hmem] at h
    exact Leads.pushed hsteps hget (by simp [Instruction.execute, Instruction.execLocal, hmem]) h
  | none =>
    rw [hmem] at h
    exact Leads.fault hsteps hget (by simp [Instruction.execute, Instruction.execLocal, hmem]) h

theorem Leads.mstore {key w : Word} (hget : code[pc]? = some .mstore)
    (h : Leads limits program code Q ⟨stack, memory.insert key w, pc + 1, k + 1⟩ s) :
    Leads limits program code Q ⟨key :: w :: stack, memory, pc, k⟩ s :=
  Leads.next hsteps hget rfl h

theorem Leads.hash256 {w : Word} (hget : code[pc]? = some .hash256)
    (h : Leads limits program code Q ⟨w.hash :: stack, memory, pc + 1, k + 1⟩ s) :
    Leads limits program code Q ⟨w :: stack, memory, pc, k⟩ s :=
  Leads.pushed hsteps hget rfl h

/-- An operator takes two words, and faults for a division by zero. -/
theorem Leads.binary {op : Operator} {l r : Word} (hget : code[pc]? = some (.binary op))
    (h : match op.apply l r with
      | some w => Leads limits program code Q ⟨w :: stack, memory, pc + 1, k + 1⟩ s
      | none => Accepts limits program code Q s (.divisionByZero pc)) :
    Leads limits program code Q ⟨r :: l :: stack, memory, pc, k⟩ s := by
  cases happly : op.apply l r with
  | some w =>
    rw [happly] at h
    exact Leads.pushed hsteps hget (by simp [Instruction.execute, Instruction.execLocal, happly]) h
  | none =>
    rw [happly] at h
    exact Leads.fault hsteps hget (by simp [Instruction.execute, Instruction.execLocal, happly]) h

/-- A cell of the storage is pushed if it can be read. -/
theorem Leads.sload {address : Word} (hget : code[pc]? = some .sload)
    (h : match Instruction.readCell s address with
      | .ok w => Leads limits program code Q ⟨w :: stack, memory, pc + 1, k + 1⟩ s
      | .error e => Accepts limits program code Q s e) :
    Leads limits program code Q ⟨address :: stack, memory, pc, k⟩ s := by
  cases hread : Instruction.readCell s address with
  | ok w =>
    rw [hread] at h
    exact Leads.pushed hsteps hget (by simp [Instruction.execute, hread]) h
  | error e =>
    rw [hread] at h
    exact Leads.fault hsteps hget (by simp [Instruction.execute, hread]) h

/-- A word that is stored leads on with the stores after it. -/
theorem Leads.sstore {address w : Word} (hget : code[pc]? = some .sstore)
    (hwrite : Instruction.writeCell s program address w = (s', .ok ()))
    (h : Leads limits program code Q ⟨stack, memory, pc + 1, k + 1⟩ s') :
    Leads limits program code Q ⟨address :: w :: stack, memory, pc, k⟩ s :=
  Leads.next hsteps hget (by simp [Instruction.execute, hwrite]) h

/-- A jump to a position of the code, or right behind it, leads on from there. -/
theorem Leads.jump {target : Nat} (hget : code[pc]? = some .jump) (hle : target ≤ code.length)
    (hsize : code.length < Text.indexBound)
    (h : Leads limits program code Q ⟨stack, memory, target, k + 1⟩ s) :
    Leads limits program code Q ⟨Word.ofNat target :: stack, memory, pc, k⟩ s := by
  refine Leads.next hsteps hget ?_ h
  simp only [Instruction.execute, Instruction.execLocal]
  rw [jump_of_le hle hsize]

/-- A test leads on behind it if the word is true, and otherwise to the position below the word. -/
theorem Leads.jumpi {target : Nat} {w : Word} (hget : code[pc]? = some .jumpi)
    (hle : target ≤ code.length) (hsize : code.length < Text.indexBound)
    (h : if w.isTrue then Leads limits program code Q ⟨stack, memory, pc + 1, k + 1⟩ s
      else Leads limits program code Q ⟨stack, memory, target, k + 1⟩ s) :
    Leads limits program code Q ⟨w :: Word.ofNat target :: stack, memory, pc, k⟩ s := by
  cases htrue : w.isTrue with
  | true =>
    rw [htrue] at h
    exact Leads.next hsteps hget (by simp [Instruction.execute, Instruction.execLocal, htrue]) h
  | false =>
    rw [htrue] at h
    refine Leads.next hsteps hget ?_ h
    simp only [Instruction.execute, Instruction.execLocal, htrue]
    rw [jump_of_le hle hsize]
    rfl

end Rules

/-! ### Back to runs -/

/-- A run from further on is a run from the start, with more fuel. -/
theorem run_before_reaches {f f' : Frame} {o : Outcome ω}
    (hreach : Reaches limits program code f s f' s') {fuel : Nat}
    (hrun : run limits program code fuel f' s' = some o) :
    ∃ fuel', run limits program code fuel' f s = some o := by
  induction hreach with
  | refl => exact ⟨fuel, hrun⟩
  | step hturn _ ih =>
    obtain ⟨fuel', hfuel'⟩ := ih hrun
    exact ⟨fuel' + 1, by rw [run_succ_of_next hturn]; exact hfuel'⟩

/-- If no run finds the stack full, the machine does come to a place of `Q`. -/
theorem Leads.elim {f : Frame} (h : Leads limits program code Q f s)
    (hstack : ∀ fuel o limit, run limits program code fuel f s = some o →
      o.result ≠ .error (.stackOverflow limit)) :
    ∃ f' s', Reaches limits program code f s f' s' ∧ Q f' s' := by
  obtain ⟨f', s', hreach, hQ | ⟨o, limit, hturn, hresult⟩⟩ := h
  · exact ⟨f', s', hreach, hQ⟩
  · -- One turn more would end the run with the stack full.
    obtain ⟨fuel, hrun⟩ := run_before_reaches hreach (run_succ_of_faulted hturn 0)
    exact absurd hresult (hstack fuel o limit hrun)

theorem steps_push {f f' : Frame} {w : Word} (h : f.push limits w = .ok f') :
    f'.steps = f.steps := by
  rcases push_cases limits f w with hpush | hpush
  · rw [hpush] at h
    cases h
    rfl
  · rw [hpush] at h
    cases h

theorem steps_jump {f f' : Frame} {length : Nat} {w : Word} (h : f.jump length w = .ok f') :
    f'.steps = f.steps := by
  unfold Frame.jump at h
  split at h
  · split at h
    · cases h
      rfl
    · cases h
  · cases h

/-- No instruction changes the count of instructions. -/
theorem steps_execLocal {i : Instruction} {length : Nat} {f f' : Frame}
    (h : i.execLocal limits length pc f = .ok f') : f'.steps = f.steps := by
  unfold Instruction.execLocal at h
  split at h
  · exact (steps_push h :)
  · split at h
    · exact (steps_push h :)
    · cases h
  · cases h
    rfl
  · split at h
    · exact (steps_push h :)
    · cases h
  · cases h
    rfl
  · exact (steps_push h :)
  · split at h
    · exact (steps_push h :)
    · cases h
  · exact (steps_jump h :)
  · split at h
    · cases h
      rfl
    · exact (steps_jump h :)
  · cases h

/-- No instruction changes the number of steps, which the turn has counted. -/
theorem steps_execute {i : Instruction} {length : Nat} {f f' : Frame}
    (h : i.execute limits program length pc f s = (s', .ok f')) : f'.steps = f.steps := by
  unfold Instruction.execute at h
  split at h
  · split at h
    · split at h
      · exact (steps_push (Prod.mk.inj h).2 :)
      · cases h
    · cases h
  · split at h
    · split at h
      · cases h
        rfl
      · cases h
    · cases h
  · exact steps_execLocal (Prod.mk.inj h).2

/-- Every turn counts. -/
theorem steps_of_next {f f' : Frame} (hturn : turn limits program code f s = .next f' s') :
    f'.steps = f.steps + 1 := by
  unfold turn at hturn
  split at hturn
  · cases hturn
  · dsimp only at hturn
    split at hturn
    · cases hturn
    · split at hturn
      · next hexec =>
        cases hturn
        exact steps_execute hexec
      · cases hturn

/-- A run that has come further than its fuel allows is not finished. -/
theorem run_eq_none_of_reaches {f f' : Frame} (hreach : Reaches limits program code f s f' s')
    {fuel : Nat} (hlt : f.steps + fuel < f'.steps) : run limits program code fuel f s = none := by
  induction hreach generalizing fuel with
  | refl => omega
  | step hturn hrest ih =>
    -- Each turn takes one of the fuel and counts one step.
    have hsteps := steps_of_next hturn
    cases fuel with
    | zero => exact run_zero_of_not_halted (by rw [hturn]; simp)
    | succ fuel =>
      rw [run_succ_of_next hturn]
      exact ih (by omega)

end Leads

end Covenant
