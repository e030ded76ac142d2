import Covenant.Program.Listing
import Covenant.Proofs.Machine.Safety

/-!
# Moves

Every instruction takes some words from the stack and then does one of four things: it faults, it
puts one word on the stack, it goes on to the next instruction, or it jumps. Which of the four, and
with which word, is settled by the stack, the memory and the stores. The limit of the stack and the
length of the code only come in when the move is made.

* `Instruction.move` is the choice of the move and `Move.settle` makes it; `execute_eq_settle` says
  that the two together are the execution of the instruction.
* `move_of_short` is about a stack that holds too few words, and `conforms_move` about any other:
  whatever the move is, it conforms to the instruction.
* `Move.Settles` lists what can become of a move, and `Turn.Made` how a turn can come about; `settles`
  and `made_turn` say that there is nothing else.

After this module nothing looks into single instructions to find out how a turn can end.
-/

namespace Covenant

/-- What an instruction does after it has taken its words from the stack. -/
inductive Move where
  | fault (e : Fault)
  /-- Puts a word on the stack. -/
  | push (w : Word)
  /-- Goes on with the next instruction, with this memory. -/
  | pass (memory : Memory)
  | jump (target : Word)

/-- Makes a move in a frame from which the words of the instruction have been taken, and which points
behind the instruction. -/
def Move.settle (limits : Limits) (length : Nat) (f : Frame) : Move → Except Fault Frame
  | .fault e => .error e
  | .push w => f.push limits w
  | .pass memory => .ok { f with memory }
  | .jump target => f.jump length target

/-- A word if there is one, else a fault. -/
def Move.ofOption (e : Fault) : Option Word → Move
  | some w => .push w
  | none => .fault e

/-- A word that was read, or the fault of the reading. -/
def Move.ofRead : Except Fault Word → Move
  | .ok w => .push w
  | .error e => .fault e

/-- What is left to do after a write to the stores. -/
def Move.ofWrite (memory : Memory) : Except Fault Unit → Move
  | .ok () => .pass memory
  | .error e => .fault e

variable {ω : Type} [Stores ω]

/-- The move of an instruction at a position, and the stores with it. -/
def Instruction.move (program : Word) (pc : Nat) (i : Instruction) (stack : List Word)
    (memory : Memory) (s : ω) : ω × Move :=
  match i, stack with
  | .push w, _ => (s, .push w)
  | .pushParam key, _ => (s, .ofOption (.undefinedParameter key) (memory.get? key))
  | .pop, _ :: _ => (s, .pass memory)
  | .sload, address :: _ => (s, .ofRead (Instruction.readCell s address))
  | .sstore, address :: w :: _ =>
    let (s', result) := Instruction.writeCell s program address w
    (s', .ofWrite memory result)
  | .mload, key :: _ => (s, .ofOption (.missingMemorySlot key) (memory.get? key))
  | .mstore, key :: w :: _ => (s, .pass (memory.insert key w))
  | .hash256, w :: _ => (s, .push w.hash)
  | .binary op, r :: l :: _ => (s, .ofOption (.divisionByZero pc) (op.apply l r))
  | .jump, target :: _ => (s, .jump target)
  | .jumpi, condition :: target :: _ =>
    (s, if condition.isTrue then .pass memory else .jump target)
  | i, _ => (s, .fault (i.underflow pc))

/-- An execution is the move of the instruction, made in the frame without its words. -/
theorem execute_eq_settle (limits : Limits) (program : Word) (length pc : Nat) (i : Instruction)
    (f : Frame) (s : ω) :
    i.execute limits program length pc f s
      = ((i.move program pc f.stack f.memory s).1,
          (i.move program pc f.stack f.memory s).2.settle limits length
            { f with stack := f.stack.drop i.effect.1 }) := by
  obtain ⟨stack, memory, next, steps⟩ := f
  -- In each case both sides are computed, once it is known whether a lookup finds anything.
  cases i with
  | push w => rfl
  | pushParam key =>
    simp only [Instruction.execute, Instruction.execLocal, Instruction.move]
    cases memory.get? key with
    | none => rfl
    | some w => rfl
  | pop =>
    cases stack with
    | nil => rfl
    | cons w rest => rfl
  | sload =>
    cases stack with
    | nil => rfl
    | cons address rest =>
      simp only [Instruction.execute, Instruction.move]
      cases Instruction.readCell s address with
      | error e => rfl
      | ok w => rfl
  | sstore =>
    rcases stack with _ | ⟨address, _ | ⟨w, rest⟩⟩
    · rfl
    · rfl
    · simp only [Instruction.execute, Instruction.move]
      rcases Instruction.writeCell s program address w with ⟨s', e | ⟨⟩⟩
      · rfl
      · rfl
  | mload =>
    cases stack with
    | nil => rfl
    | cons key rest =>
      simp only [Instruction.execute, Instruction.execLocal, Instruction.move]
      cases memory.get? key with
      | none => rfl
      | some w => rfl
  | mstore => rcases stack with _ | ⟨key, _ | ⟨w, rest⟩⟩ <;> rfl
  | hash256 => cases stack <;> rfl
  | binary op =>
    rcases stack with _ | ⟨r, _ | ⟨l, rest⟩⟩
    · rfl
    · rfl
    · simp only [Instruction.execute, Instruction.execLocal, Instruction.move]
      cases op.apply l r with
      | none => rfl
      | some w => rfl
  | jump => cases stack <;> rfl
  | jumpi =>
    rcases stack with _ | ⟨condition, _ | ⟨target, rest⟩⟩
    · rfl
    · rfl
    · simp only [Instruction.execute, Instruction.execLocal, Instruction.move]
      cases condition.isTrue with
      | true => rfl
      | false => rfl

/-! ### Which moves an instruction has -/

/-- Whether a fault reports a limit of the run. -/
def Fault.isLimit : Fault → Bool
  | .stackOverflow _ | .stepLimitExceeded _ => true
  | _ => false

/-- A move that an instruction can have on a stack that holds its words. A word is put on the stack
by the instructions whose effect says so, and a constant by a `push`; a jump goes to a word that the
instruction takes from the stack for a target. -/
def Move.Conforms (i : Instruction) (stack : List Word) : Move → Prop
  | .fault e => e.isMisstep = false ∧ e.isLimit = false
  | .push w => i.effect.2 = 1 ∧ ∀ v, i = .push v → w = v
  | .pass _ => i.effect.2 = 0 ∧ i ≠ .jump
  | .jump target => i.effect.2 = 0 ∧ i.target? (stack.map some) = some target

section Instruction

variable {program : Word} {pc : Nat} {i : Instruction} {stack : List Word} {memory : Memory} {s : ω}

/-- An instruction that finds too few words faults, and does nothing else. -/
theorem move_of_short (h : stack.length < i.effect.1) :
    i.move program pc stack memory s = (s, .fault (i.underflow pc)) := by
  rcases stack with _ | ⟨a, _ | ⟨b, rest⟩⟩
  · cases i with
    | push w => exact absurd h (Nat.not_lt_zero _)
    | pushParam key => exact absurd h (Nat.not_lt_zero _)
    | _ => rfl
  · cases i with
    | sstore => rfl
    | mstore => rfl
    | binary op => rfl
    | jumpi => rfl
    | _ => exact absurd h (by simp [Instruction.effect])
  · -- No instruction takes more than two words.
    have htwo : i.effect.1 ≤ 2 := by cases i <;> simp [Instruction.effect]
    simp only [List.length_cons] at h
    omega

/-- A word that may be missing conforms to an instruction that pushes one. -/
theorem conforms_ofOption {e : Fault} (he : e.isMisstep = false ∧ e.isLimit = false)
    (hone : i.effect.2 = 1) (hpush : ∀ v, i ≠ .push v) (w? : Option Word) :
    (Move.ofOption e w?).Conforms i stack := by
  cases w? with
  | none => exact he
  | some w => exact ⟨hone, fun v hv => absurd hv (hpush v)⟩

/-- On a stack that holds its words, an instruction has a move that conforms to it. -/
theorem conforms_move (program : Word) (pc : Nat) (memory : Memory) (s : ω)
    (h : i.effect.1 ≤ stack.length) : (i.move program pc stack memory s).2.Conforms i stack := by
  -- Short stacks are excluded, and on the others the move is known.
  cases i with
  | push w => exact ⟨rfl, fun v hv => by cases hv; rfl⟩
  | pushParam key => exact conforms_ofOption ⟨rfl, rfl⟩ rfl (by simp) _
  | pop =>
    cases stack with
    | nil => exact absurd h (by simp [Instruction.effect])
    | cons w rest => exact ⟨rfl, by simp⟩
  | sload =>
    cases stack with
    | nil => exact absurd h (by simp [Instruction.effect])
    | cons address rest =>
      show (Move.ofRead (Instruction.readCell s address)).Conforms _ _
      cases hread : Instruction.readCell s address with
      | error e =>
        rcases fault_of_readCell hread with rfl | ⟨cause, rfl⟩
        · exact ⟨rfl, rfl⟩
        · exact ⟨rfl, rfl⟩
      | ok w => exact ⟨rfl, by simp⟩
  | sstore =>
    rcases stack with _ | ⟨address, _ | ⟨w, rest⟩⟩
    · exact absurd h (by simp [Instruction.effect])
    · exact absurd h (by simp [Instruction.effect])
    · show (Move.ofWrite memory (Instruction.writeCell s program address w).2).Conforms _ _
      cases hwrite : (Instruction.writeCell s program address w).2 with
      | error e =>
        obtain ⟨cause, rfl⟩ := fault_of_writeCell hwrite
        exact ⟨rfl, rfl⟩
      | ok => exact ⟨rfl, by simp⟩
  | mload =>
    cases stack with
    | nil => exact absurd h (by simp [Instruction.effect])
    | cons key rest => exact conforms_ofOption ⟨rfl, rfl⟩ rfl (by simp) _
  | mstore =>
    rcases stack with _ | ⟨key, _ | ⟨w, rest⟩⟩
    · exact absurd h (by simp [Instruction.effect])
    · exact absurd h (by simp [Instruction.effect])
    · exact ⟨rfl, by simp⟩
  | hash256 =>
    cases stack with
    | nil => exact absurd h (by simp [Instruction.effect])
    | cons w rest => exact ⟨rfl, by simp⟩
  | binary op =>
    rcases stack with _ | ⟨r, _ | ⟨l, rest⟩⟩
    · exact absurd h (by simp [Instruction.effect])
    · exact absurd h (by simp [Instruction.effect])
    · exact conforms_ofOption ⟨rfl, rfl⟩ rfl (by simp) _
  | jump =>
    cases stack with
    | nil => exact absurd h (by simp [Instruction.effect])
    | cons target rest => exact ⟨rfl, rfl⟩
  | jumpi =>
    rcases stack with _ | ⟨condition, _ | ⟨target, rest⟩⟩
    · exact absurd h (by simp [Instruction.effect])
    · exact absurd h (by simp [Instruction.effect])
    · show (if condition.isTrue then Move.pass memory else .jump target).Conforms _ _
      cases condition.isTrue with
      | true => exact ⟨rfl, by simp⟩
      | false => exact ⟨rfl, rfl⟩

/-- No instruction looks at the limits before its move is made. -/
theorem isLimit_of_move {s' : ω} {e : Fault}
    (h : i.move program pc stack memory s = (s', .fault e)) : e.isLimit = false := by
  -- A stack that is too short gives an underflow, and on any other the move conforms.
  rcases Nat.lt_or_ge stack.length i.effect.1 with hshort | hle
  · rw [move_of_short hshort] at h
    cases h
    rfl
  · have hconforms := conforms_move program pc memory s hle
    rw [h] at hconforms
    exact hconforms.2

end Instruction

/-! ### What becomes of a move -/

/-- All that can become of a move. -/
inductive Move.Settles (limits : Limits) (length : Nat) (f : Frame) :
    Move → Except Fault Frame → Prop where
  | fault (e : Fault) : Settles limits length f (.fault e) (.error e)
  | push {w : Word} (hroom : f.stack.length < limits.stack) :
      Settles limits length f (.push w) (.ok { f with stack := w :: f.stack })
  | full {w : Word} (hfull : limits.stack ≤ f.stack.length) :
      Settles limits length f (.push w) (.error (.stackOverflow limits.stack))
  | pass (memory : Memory) : Settles limits length f (.pass memory) (.ok { f with memory })
  | jump {target : Word} {position : Nat} (hindex : target.toIndex? = some position)
      (hle : position ≤ length) :
      Settles limits length f (.jump target) (.ok { f with pc := position })
  | out (target : Word) :
      Settles limits length f (.jump target) (.error (.jumpOutOfBounds target length))

/-- Nothing else can become of a move. -/
theorem settles (limits : Limits) (length : Nat) (f : Frame) (move : Move) :
    move.Settles limits length f (move.settle limits length f) := by
  cases move with
  | fault e => exact .fault e
  | push w =>
    show Move.Settles limits length f (.push w) (f.push limits w)
    unfold Frame.push
    by_cases hlt : f.stack.length < limits.stack
    · rw [if_pos hlt]
      exact .push hlt
    · rw [if_neg hlt]
      exact .full (by omega)
  | pass memory => exact .pass memory
  | jump target =>
    show Move.Settles limits length f (.jump target) (f.jump length target)
    unfold Frame.jump
    -- A word that is no index is out of any code, and an index may still be.
    cases hindex : target.toIndex? with
    | none => exact .out target
    | some position =>
      by_cases hle : position ≤ length
      · simp only [if_pos hle]
        exact .jump hindex hle
      · simp only [if_neg hle]
        exact .out target

/-! ### Turns by their moves -/

section Turn

variable {limits : Limits} {program : Word} {code : List Instruction} {f f' : Frame}
  {i : Instruction} {s s' : ω} {move : Move}

/-- The frame in which the move of an instruction is made. -/
def Frame.entered (f : Frame) (i : Instruction) : Frame :=
  ⟨f.stack.drop i.effect.1, f.memory, f.pc + 1, f.steps + 1⟩

/-- A turn beyond the step limit faults before its instruction is executed. -/
theorem turn_of_exceeded {limit : Nat} (hget : code[f.pc]? = some i)
    (hlimit : ({ f with steps := f.steps + 1 } : Frame).exceeded limits = some limit) :
    turn limits program code f s
      = .faulted ⟨s, { f with steps := f.steps + 1 }, .error (.stepLimitExceeded limit)⟩ := by
  simp only [turn, hget, hlimit]

/-- A turn goes on with the frame that the move leads to. -/
theorem turn_of_settle_ok (hget : code[f.pc]? = some i)
    (hlimit : ({ f with steps := f.steps + 1 } : Frame).exceeded limits = none)
    (hmove : i.move program f.pc f.stack f.memory s = (s', move))
    (hsettle : move.settle limits code.length (f.entered i) = .ok f') :
    turn limits program code f s = .next f' s' := by
  have hsettle' : move.settle limits code.length
      { f with stack := f.stack.drop i.effect.1, pc := f.pc + 1, steps := f.steps + 1 } = .ok f' :=
    hsettle
  simp only [turn, hget, hlimit, execute_eq_settle, hmove, hsettle']

/-- A turn whose move cannot be made faults. Its frame still has the words of the instruction. -/
theorem turn_of_settle_error {e : Fault} (hget : code[f.pc]? = some i)
    (hlimit : ({ f with steps := f.steps + 1 } : Frame).exceeded limits = none)
    (hmove : i.move program f.pc f.stack f.memory s = (s', move))
    (hsettle : move.settle limits code.length (f.entered i) = .error e) :
    turn limits program code f s
      = .faulted ⟨s', { f with pc := f.pc + 1, steps := f.steps + 1 }, .error e⟩ := by
  have hsettle' : move.settle limits code.length
      { f with stack := f.stack.drop i.effect.1, pc := f.pc + 1, steps := f.steps + 1 }
      = .error e := hsettle
  simp only [turn, hget, hlimit, execute_eq_settle, hmove, hsettle']

/-- All ways in which a turn comes about. -/
inductive Turn.Made (limits : Limits) (program : Word) (code : List Instruction) (f : Frame)
    (s : ω) : Turn ω → Prop where
  | halted (hend : code.length ≤ f.pc) : Made limits program code f s .halted
  | exceeded {i : Instruction} {limit : Nat} (hget : code[f.pc]? = some i)
      (hlimit : ({ f with steps := f.steps + 1 } : Frame).exceeded limits = some limit) :
      Made limits program code f s
        (.faulted ⟨s, { f with steps := f.steps + 1 }, .error (.stepLimitExceeded limit)⟩)
  | next {i : Instruction} {f' : Frame} {s' : ω} {move : Move} (hget : code[f.pc]? = some i)
      (hlimit : ({ f with steps := f.steps + 1 } : Frame).exceeded limits = none)
      (hmove : i.move program f.pc f.stack f.memory s = (s', move))
      (hsettle : move.settle limits code.length (f.entered i) = .ok f') :
      Made limits program code f s (.next f' s')
  | faulted {i : Instruction} {e : Fault} {s' : ω} {move : Move} (hget : code[f.pc]? = some i)
      (hlimit : ({ f with steps := f.steps + 1 } : Frame).exceeded limits = none)
      (hmove : i.move program f.pc f.stack f.memory s = (s', move))
      (hsettle : move.settle limits code.length (f.entered i) = .error e) :
      Made limits program code f s
        (.faulted ⟨s', { f with pc := f.pc + 1, steps := f.steps + 1 }, .error e⟩)

/-- A turn comes about in one of these ways. -/
theorem made_turn (limits : Limits) (program : Word) (code : List Instruction) (f : Frame) (s : ω) :
    Turn.Made limits program code f s (turn limits program code f s) := by
  cases hget : code[f.pc]? with
  | none =>
    have hend : code.length ≤ f.pc := List.getElem?_eq_none_iff.1 hget
    rw [turn_eq_halted_iff.2 hend]
    exact .halted hend
  | some i =>
    cases hlimit : ({ f with steps := f.steps + 1 } : Frame).exceeded limits with
    | some limit =>
      rw [turn_of_exceeded hget hlimit]
      exact .exceeded hget hlimit
    | none =>
      rcases hmove : i.move program f.pc f.stack f.memory s with ⟨s', move⟩
      cases hsettle : move.settle limits code.length (f.entered i) with
      | ok f' =>
        rw [turn_of_settle_ok hget hlimit hmove hsettle]
        exact .next hget hlimit hmove hsettle
      | error e =>
        rw [turn_of_settle_error hget hlimit hmove hsettle]
        exact .faulted hget hlimit hmove hsettle

end Turn

end Covenant
