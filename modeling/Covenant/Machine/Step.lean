import Covenant.Machine.Fault
import Covenant.Store.Pair
import Covenant.Word.Arithmetic

/-!
# Execution

The machine runs one list of instructions on a frame: a stack of words, a memory of words under
words, and the position of the next instruction. Storage is outside the frame, in a pair of stores.
Whenever a run writes to storage it records the new storage root under the address of the program it
belongs to.

* `Instruction.execLocal` is the effect of an instruction on the frame alone, for every instruction
  that does not touch storage.
* `Instruction.execute` is the effect of any instruction.
* `run` executes a code list to its end, a fault, or the end of its fuel.

Fuel bounds the number of instructions so that `run` is total; running out of it is no result at
all, and apart from the step limit, which is a fault.
-/

namespace Covenant

/-- The limits of a run. -/
structure Limits where
  /-- The largest number of words on the stack. -/
  stack : Nat := 1024
  /-- The largest number of instructions executed, if there is one. -/
  steps : Option Nat := none
  deriving DecidableEq

/-- The memory of a call: parameters under their names, locals under their slots. -/
abbrev Memory := Table Word Word

/-- The part of a machine that a run starts afresh. -/
structure Frame where
  /-- The stack, its top first. -/
  stack : List Word := []
  memory : Memory := ∅
  /-- The position of the next instruction. -/
  pc : Nat := 0
  /-- The number of instructions started. -/
  steps : Nat := 0
  deriving DecidableEq

namespace Frame

/-- Puts a word on the stack. -/
def push (limits : Limits) (f : Frame) (w : Word) : Except Fault Frame :=
  if f.stack.length < limits.stack then .ok { f with stack := w :: f.stack }
  else .error (.stackOverflow limits.stack)

/-- Continues at a target in a code list of the given length. The end of the list is a target
too. -/
def jump (f : Frame) (length : Nat) (target : Word) : Except Fault Frame :=
  match target.toIndex? with
  | some position =>
    if position ≤ length then .ok { f with pc := position }
    else .error (.jumpOutOfBounds target length)
  | none => .error (.jumpOutOfBounds target length)

end Frame

namespace Instruction

/-- The fault of an instruction at a position that finds too few words. -/
def underflow (i : Instruction) (pc : Nat) : Fault := .stackUnderflow i.mnemonic pc

/-- The effect of an instruction on the frame, for those that do not touch storage. The instruction
stands at position `pc` of a code list of the given length, and the frame already points behind
it. -/
def execLocal (limits : Limits) (length pc : Nat) (i : Instruction) (f : Frame) :
    Except Fault Frame :=
  match i, f.stack with
  | .push w, _ => f.push limits w
  | .pushParam key, _ =>
    match f.memory.get? key with
    | some w => f.push limits w
    | none => .error (.undefinedParameter key)
  | .pop, _ :: rest => .ok { f with stack := rest }
  | .mload, key :: rest =>
    match f.memory.get? key with
    | some w => { f with stack := rest }.push limits w
    | none => .error (.missingMemorySlot key)
  | .mstore, key :: w :: rest => .ok { f with stack := rest, memory := f.memory.insert key w }
  | .hash256, w :: rest => { f with stack := rest }.push limits w.hash
  | .binary op, r :: l :: rest =>
    match op.apply l r with
    | some w => { f with stack := rest }.push limits w
    | none => .error (.divisionByZero pc)
  | .jump, target :: rest => { f with stack := rest }.jump length target
  | .jumpi, condition :: target :: rest =>
    if condition.isTrue then .ok { f with stack := rest }
    else { f with stack := rest }.jump length target
  | i, _ => .error (i.underflow pc)

variable {ω : Type} [Stores ω]

/-- Reads a storage cell. -/
def readCell (stores : ω) (address : Word) : Except Fault Word :=
  match Stores.get? stores .storage address.hex with
  | .error e => .error (.store e)
  | .ok none => .error (.missingStorageKey address.hex)
  | .ok (some bytes) =>
    match Word.ofBytes? bytes with
    | some w => .ok w
    | none => .error (.store (.notWord address.hex bytes.length))

/-- Records the storage root under the address of a program. -/
def recordRoot (stores : ω) (program : Word) : ω × Except Fault Unit :=
  match Stores.root stores .storage with
  | .error e => (stores, .error (.store e))
  | .ok root =>
    let (stores, result) := Stores.insert stores .accounts program.hex root.toBytes
    (stores, result.mapError .store)

/-- Writes a storage cell on behalf of a program, and records the new root. -/
def writeCell (stores : ω) (program address value : Word) : ω × Except Fault Unit :=
  match Stores.insert stores .storage address.hex value.toBytes with
  | (stores, .error e) => (stores, .error (.store e))
  | (stores, .ok ()) => recordRoot stores program

/-- The effect of an instruction that stands at position `pc`. -/
def execute (limits : Limits) (program : Word) (length pc : Nat) (i : Instruction) (f : Frame)
    (stores : ω) : ω × Except Fault Frame :=
  match i with
  | .sload =>
    match f.stack with
    | address :: rest =>
      match readCell stores address with
      | .ok w => (stores, { f with stack := rest }.push limits w)
      | .error e => (stores, .error e)
    | [] => (stores, .error (i.underflow pc))
  | .sstore =>
    match f.stack with
    | address :: value :: rest =>
      match writeCell stores program address value with
      | (stores, .ok ()) => (stores, .ok { f with stack := rest })
      | (stores, .error e) => (stores, .error e)
    | _ => (stores, .error (i.underflow pc))
  | i => (stores, i.execLocal limits length pc f)

end Instruction

namespace Frame

/-- Whether a run has started more instructions than it may. -/
def exceeded (limits : Limits) (f : Frame) : Option Nat :=
  match limits.steps with
  | some limit => if limit < f.steps then some limit else none
  | none => none

end Frame

/-- The outcome of a run: the stores and the frame at its end, and its fault if it had one. -/
structure Outcome (ω : Type) where
  stores : ω
  frame : Frame
  result : Except Fault Unit

variable {ω : Type} [Stores ω]

/-- Executes a code list on behalf of a program from the frame's position on. `none` means that the
fuel ran out first. -/
def run (limits : Limits) (program : Word) (code : List Instruction) :
    (fuel : Nat) → Frame → ω → Option (Outcome ω)
  | 0, f, stores =>
    if f.pc < code.length then none else some ⟨stores, f, .ok ()⟩
  | fuel + 1, f, stores =>
    match code[f.pc]? with
    | none => some ⟨stores, f, .ok ()⟩
    | some i =>
      let started := { f with steps := f.steps + 1 }
      match started.exceeded limits with
      | some limit => some ⟨stores, started, .error (.stepLimitExceeded limit)⟩
      | none =>
        let entered := { started with pc := f.pc + 1 }
        match i.execute limits program code.length f.pc entered stores with
        | (stores, .ok next) => run limits program code fuel next stores
        | (stores, .error e) => some ⟨stores, entered, .error e⟩

end Covenant
