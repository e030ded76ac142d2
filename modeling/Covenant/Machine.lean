import Covenant.Machine.Step
import Covenant.Value

/-!
# Machines

A machine holds a pair of stores, the program it has loaded and the frame of its last run. It deploys
its program, which runs the initialization and records the program under its address, and it calls
the program's functions. Every run starts with an empty stack, and with nothing but its arguments in
memory.

Deployments and calls take fuel, and give nothing when it runs out.

* `Machine.load`, `Machine.deploy`, `Machine.call` and `Machine.callWords` are the operations.
* `Machine.programAt` reads a deployed program back.
-/

namespace Covenant

/-- What a machine did last. -/
inductive Phase where
  | ready
  | running
  | halted
  | faulted
  deriving DecidableEq

/-- A program and its address. -/
structure Loaded where
  program : Program
  address : Word
  deriving DecidableEq

/-- A machine on stores of kind `ω`. -/
structure Machine (ω : Type) where
  stores : ω
  limits : Limits := {}
  loaded : Option Loaded := none
  frame : Frame := {}
  phase : Phase := .ready

/-- The key of a program in the account index. -/
def programKey (address : Word) : String := address.hex ++ ":bytecode"

namespace Machine

variable {ω : Type}

/-- The address of the loaded program. -/
def address? (m : Machine ω) : Option Word := m.loaded.map Loaded.address

/-- Makes a program the current one, and gives its address. -/
def load (m : Machine ω) (p : Program) : Word × Machine ω :=
  let address := p.address
  (address,
   { m with
     loaded := some ⟨p, address⟩
     frame := { m.frame with stack := [], memory := ∅ }
     phase := .ready })

variable [Stores ω]

/-- Runs a code list of the loaded program with the given memory. The result is the top of the stack
at the end, if there is one. -/
def runCode (m : Machine ω) (fuel : Nat) (address : Word) (memory : Memory)
    (code : List Instruction) : Option (Except Fault (Option Word) × Machine ω) :=
  match run m.limits address code fuel { memory } m.stores with
  | none => none
  | some ⟨stores, frame, .ok ()⟩ =>
    some (.ok frame.stack.head?, { m with stores, frame, phase := .halted })
  | some ⟨stores, frame, .error e⟩ =>
    some (.error e, { m with stores, frame, phase := .faulted })

/-- Records a program and the storage root under the program's address. -/
def recordProgram (stores : ω) (l : Loaded) : ω × Except Fault Unit :=
  match Stores.insert stores .accounts (programKey l.address) l.program.toBytes with
  | (stores, .error e) => (stores, .error (.store e))
  | (stores, .ok ()) => Instruction.recordRoot stores l.address

/-- Runs the initialization of the loaded program, then records the program and the storage root
under its address, which is the result. -/
def deploy (m : Machine ω) (fuel : Nat) : Option (Except Fault Word × Machine ω) :=
  match m.loaded with
  | none => some (.error .notLoaded, m)
  | some l =>
    match m.runCode fuel l.address ∅ l.program.initialization with
    | none => none
    | some (.error e, m) => some (.error e, m)
    | some (.ok _, m) =>
      match recordProgram m.stores l with
      | (stores, .ok ()) => some (.ok l.address, { m with stores })
      | (stores, .error e) => some (.error e, { m with stores })

/-- The program deployed at an address. -/
def programAt (m : Machine ω) (address : Word) : Except Fault Program :=
  match Stores.get? m.stores .accounts (programKey address) with
  | .error e => .error (.store e)
  | .ok none => .error (.missingStorageKey (programKey address))
  | .ok (some bytes) => (Program.ofBytes bytes).mapError .program

/-- The memory at the start of a call: each argument under the key of its parameter. -/
def bind (parameters arguments : List Word) : Memory :=
  (parameters.zip arguments).foldl (fun memory (key, w) => memory.insert key w) ∅

/-- Calls a function with words as arguments. Arguments may be fewer than parameters; one that is
missing is a fault only if it is read. -/
def callWords (m : Machine ω) (fuel index : Nat) (arguments : List Word) :
    Option (Except Fault (Option Word) × Machine ω) :=
  match m.loaded with
  | none => some (.error .notLoaded, m)
  | some l =>
    match l.program.functions.get? index with
    | none => some (.error (.undefinedFunction index), m)
    | some f =>
      if f.parameters.length < arguments.length then
        some (.error (.tooManyArguments index f.parameters.length arguments.length), m)
      else m.runCode fuel l.address (bind f.parameters arguments) f.body

/-- The words of argument values, or the error of the first that has none. -/
def encodeAll : List Value → Except EncodingError (List Word)
  | [] => .ok []
  | first :: rest =>
    match first.encode with
    | .error e => .error e
    | .ok w => (encodeAll rest).map (w :: ·)

/-- Calls a function with values as arguments, which are all encoded first. -/
def call (m : Machine ω) (fuel index : Nat) (arguments : List Value) :
    Option (Except Fault (Option Word) × Machine ω) :=
  match encodeAll arguments with
  | .error e => some (.error (.encoding e), m)
  | .ok words => m.callWords fuel index words

end Machine

end Covenant
