import Covenant.Proofs.Machine.Moves

/-!
# Effects on the stack

`Instruction.effect` says how many words an instruction pops and how many it pushes. The machine does
not ask it: every instruction has its own way to take words from the stack, and faults of its own
that come after some of the words are taken. What the table says is nevertheless all there is to say
about the stack. An instruction that finds too few words does nothing else, whatever it would have
done with enough of them, and with enough of them it never reports too few.

* `execute_of_short` and `ne_stackUnderflow_of_execute` are the two sides of the words popped.
* `stack_of_execute` is about the words pushed.
* `Instruction.effect_matches_execution` puts them together, for an instruction of a run.
-/

namespace Covenant

/-- The frame in which the next instruction is executed: it counts as started, and the position is
the one behind it. -/
def Frame.started (f : Frame) : Frame := { f with pc := f.pc + 1, steps := f.steps + 1 }

variable {ω : Type} [Stores ω] {limits : Limits} {program : Word} {code : List Instruction}
  {length pc : Nat} {i : Instruction} {f f' : Frame} {s s' : ω} {e : Fault}

/-! ### The table and an execution -/

/-- An instruction that finds too few words on the stack does nothing but say so. -/
theorem execute_of_short (h : f.stack.length < i.effect.1) :
    i.execute limits program length pc f s = (s, .error (.stackUnderflow i.mnemonic pc)) := by
  rw [execute_eq_settle, move_of_short h]
  rfl

/-- An instruction that finds its words on the stack takes them and makes a move that conforms to
it. -/
theorem exists_settles_execute (limits : Limits) (program : Word) (length pc : Nat) (s : ω)
    (h : i.effect.1 ≤ f.stack.length) :
    ∃ move : Move, move.Conforms i f.stack
      ∧ move.Settles limits length { f with stack := f.stack.drop i.effect.1 }
        (i.execute limits program length pc f s).2 := by
  refine ⟨_, conforms_move program pc f.memory s h, ?_⟩
  rw [execute_eq_settle]
  exact settles limits length _ _

/-- An instruction that finds its words on the stack may fault, but not for want of words. -/
theorem ne_stackUnderflow_of_execute (h : i.effect.1 ≤ f.stack.length)
    (hexec : (i.execute limits program length pc f s).2 = .error e) (op : String) (position : Nat) :
    e ≠ .stackUnderflow op position := by
  obtain ⟨move, hconforms, hsettles⟩ := exists_settles_execute limits program length pc s h
  rw [hexec] at hsettles
  -- Either the move was a fault already, or making it met the limit or the end of the code.
  cases hsettles with
  | fault =>
    rintro rfl
    cases hconforms.1
  | full => simp
  | out => simp

/-- An instruction that succeeds has popped and pushed what its effect says, and left the words below
as they were. -/
theorem stack_of_execute (hexec : i.execute limits program length pc f s = (s', .ok f')) :
    ∃ popped pushed rest, f.stack = popped ++ rest ∧ popped.length = i.effect.1
      ∧ f'.stack = pushed ++ rest ∧ pushed.length = i.effect.2 := by
  have hle : i.effect.1 ≤ f.stack.length := by
    rcases Nat.lt_or_ge f.stack.length i.effect.1 with hshort | hle
    · rw [execute_of_short hshort] at hexec
      cases hexec
    · exact hle
  have hsplit : f.stack = f.stack.take i.effect.1 ++ f.stack.drop i.effect.1 :=
    (List.take_append_drop _ _).symm
  have hpopped : (f.stack.take i.effect.1).length = i.effect.1 := List.length_take_of_le hle
  obtain ⟨move, hconforms, hsettles⟩ := exists_settles_execute limits program length pc s hle
  rw [hexec] at hsettles
  cases hsettles with
  | @push w hroom => exact ⟨_, [w], _, hsplit, hpopped, rfl, hconforms.1.symm⟩
  | pass memory => exact ⟨_, [], _, hsplit, hpopped, rfl, hconforms.1.symm⟩
  | jump hindex hle => exact ⟨_, [], _, hsplit, hpopped, rfl, hconforms.1.symm⟩

/-! ### The table and a run -/

section Run

variable (hget : code[f.pc]? = some i)
  (hsteps : ∀ limit, limits.steps = some limit → f.steps < limit)

include hget hsteps

/-- A run whose next instruction succeeds goes on behind it. -/
theorem run_succ_of_execute_ok
    (hexec : i.execute limits program code.length f.pc f.started s = (s', .ok f')) (fuel : Nat) :
    run limits program code (fuel + 1) f s = run limits program code fuel f' s' := by
  refine run_succ_of_next ?_ fuel
  have hlimit : ({ f with steps := f.steps + 1 } : Frame).exceeded limits = none :=
    Frame.exceeded_of_allow hsteps
  have hexec' : i.execute limits program code.length f.pc
      { f with pc := f.pc + 1, steps := f.steps + 1 } s = (s', .ok f') := hexec
  simp only [turn, hget, hlimit, hexec']

/-- A run whose next instruction faults ends with the fault. -/
theorem run_succ_of_execute_error
    (hexec : i.execute limits program code.length f.pc f.started s = (s', .error e)) (fuel : Nat) :
    run limits program code (fuel + 1) f s = some ⟨s', f.started, .error e⟩ := by
  refine run_succ_of_faulted ?_ fuel
  have hlimit : ({ f with steps := f.steps + 1 } : Frame).exceeded limits = none :=
    Frame.exceeded_of_allow hsteps
  have hexec' : i.execute limits program code.length f.pc
      { f with pc := f.pc + 1, steps := f.steps + 1 } s = (s', .error e) := hexec
  simp only [turn, hget, hlimit, hexec']
  rfl

end Run

/-- **The table of effects is what the machine does.** Take any instruction of any code, any stores
and any frame at it that is within its step limit. The instruction faults for want of words exactly if
the stack holds fewer words than it pops. Then the run ends there with both stores and the memory as
they were. If the instruction succeeds, the words it pops are gone from the top of the stack, as many
words as it pushes are there in their place, the words below are as they were, and the run goes on. -/
theorem Instruction.effect_matches_execution (limits : Limits) (program : Word)
    (code : List Instruction) (f : Frame) (s : ω) (hget : code[f.pc]? = some i)
    (hsteps : ∀ limit, limits.steps = some limit → f.steps < limit) :
    ((∃ op position, (i.execute limits program code.length f.pc f.started s).2
          = .error (.stackUnderflow op position)) ↔ f.stack.length < i.effect.1)
      ∧ (f.stack.length < i.effect.1 → ∃ o, (∀ fuel, run limits program code (fuel + 1) f s = some o)
          ∧ o.result = .error (.stackUnderflow i.mnemonic f.pc) ∧ o.stores = s
          ∧ o.frame.memory = f.memory)
      ∧ ∀ s' f', i.execute limits program code.length f.pc f.started s = (s', .ok f') →
        (∃ popped pushed rest, f.stack = popped ++ rest ∧ popped.length = i.effect.1
          ∧ f'.stack = pushed ++ rest ∧ pushed.length = i.effect.2)
        ∧ ∀ fuel, run limits program code (fuel + 1) f s = run limits program code fuel f' s' := by
  have hshort : f.stack.length < i.effect.1 →
      i.execute limits program code.length f.pc f.started s
        = (s, .error (.stackUnderflow i.mnemonic f.pc)) := fun h => execute_of_short h
  refine ⟨⟨?_, fun h => ⟨_, _, congrArg Prod.snd (hshort h)⟩⟩,
    fun h => ⟨_, run_succ_of_execute_error hget hsteps (hshort h), rfl, rfl, rfl⟩,
    fun s' f' hexec => ⟨stack_of_execute (f := f.started) hexec,
      run_succ_of_execute_ok hget hsteps hexec⟩⟩
  rintro ⟨op, position, hexec⟩
  rcases Nat.lt_or_ge f.stack.length i.effect.1 with h | h
  · exact h
  · exact absurd rfl (ne_stackUnderflow_of_execute (f := f.started) h hexec op position)

/-- A frame with so many of the words 5, 2 and 9 on its stack, the first on top, and one cell in
memory. It has started four of the five instructions that it may start. -/
def shortFrame (words : Nat) : Frame where
  stack := [Word.ofNat 5, .ofNat 2, .ofNat 9].take words
  memory := (∅ : Memory).insert .zero (.ofNat 7)
  steps := 4

/-- Stores that take nothing more. -/
def closedStores : Rationed MemoryStores := ⟨{}, some 0, some 0⟩

/-- On stores that take nothing more, a store reports a missing word rather than the refusal, which it
reports when both its words are there; and a subtraction leaves the third word alone. -/
theorem missing_word_is_reported_before_refusal :
    (∃ o, (∀ fuel, run ⟨1024, some 5⟩ .zero [.sstore] (fuel + 1) (shortFrame 1) closedStores = some o)
        ∧ o.result = .error (.stackUnderflow "SSTORE" 0) ∧ o.stores = closedStores
        ∧ o.frame.memory = (shortFrame 1).memory)
      ∧ (Instruction.sstore.execute ⟨1024, some 5⟩ .zero 1 0 (shortFrame 2).started closedStores).2
        = .error (.store .refused)
      ∧ ∃ f', (Instruction.binary .subtract).execute ⟨1024, some 5⟩ .zero 1 0 (shortFrame 3).started
          closedStores = (closedStores, .ok f')
        ∧ f'.stack = [.wrap (-3), .ofNat 9]
        ∧ ∃ popped pushed rest, (shortFrame 3).stack = popped ++ rest ∧ popped.length = 2
          ∧ f'.stack = pushed ++ rest ∧ pushed.length = 1 := by
  have hsteps : ∀ words limit, (⟨1024, some 5⟩ : Limits).steps = some limit →
      (shortFrame words).steps < limit := by
    rintro words limit ⟨⟩
    exact Nat.lt_succ_self 4
  obtain ⟨-, hshort, -⟩ := Instruction.effect_matches_execution _ .zero [.sstore] (shortFrame 1)
    closedStores rfl (hsteps 1)
  obtain ⟨-, -, hok⟩ := Instruction.effect_matches_execution _ .zero [.binary .subtract]
    (shortFrame 3) closedStores rfl (hsteps 3)
  exact ⟨hshort (by decide), rfl, _, rfl, by decide +kernel, (hok _ _ rfl).1⟩

end Covenant
