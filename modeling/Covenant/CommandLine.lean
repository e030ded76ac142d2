import Covenant.CommandLine.Arguments
import Covenant.Compile
import Covenant.Contract.Outline
import Covenant.Failure
import Covenant.Machine
import Covenant.Program.Listing
import Covenant.Token.Dump

/-!
# Commands

What each command does to a disk and prints. Files whose name ends in `.json` hold programs, all
others the text of contracts. A state directory keeps the storage of every contract in a file named
for its address, and one account index for all of them.

* `Command.perform` carries out a command.
* `CommandLine.respond` is the whole program: arguments in, exit code and printed text out.
-/

namespace Covenant

/-- Why a command failed. -/
inductive CommandError where
  | read (path : String) (cause : DiskError)
  | write (path : String) (cause : DiskError)
  | badAddress (text : String)
  | unknownFunction (name : String)
  | failure (cause : Failure)
  deriving DecidableEq

namespace CommandError

/-- The wording of a command error. -/
def message : CommandError → String
  | .read path cause => s!"failed to read '{path}': {cause.message}"
  | .write path cause => s!"failed to write '{path}': {cause.message}"
  | .badAddress text => s!"'{text}' is not a contract address"
  | .unknownFunction name => s!"no function named '{name}'"
  | .failure cause => cause.message

/-- The code of a command error. -/
def code : CommandError → String
  | .read _ _ | .write _ _ => "io_error"
  | .badAddress _ | .unknownFunction _ => "usage_error"
  | .failure cause => cause.code

/-- A compilation error as a command error. -/
def ofCompile (e : CompileError) : CommandError := .failure (.compile e)

/-- A fault as a command error. -/
def ofFault (e : Fault) : CommandError := .failure (.execution e)

/-- A store error as a command error. -/
def ofStore (e : StoreError) : CommandError := .failure (.store e)

end CommandError

namespace Command

/-- The text of a file. -/
def readFile (d : Disk) (file : String) : Except CommandError String :=
  (d.readText (.ofText file)).mapError (.read file)

/-- Whether a file holds a program: its name has the extension `json`. -/
def isProgramFile (file : String) : Bool := (Path.ofText file).extension? == some "json"

/-- The program a file holds, or that its text compiles to. -/
def readProgram (d : Disk) (file : String) : Except CommandError Program := do
  let text ← readFile d file
  if isProgramFile file then
    (Program.ofJsonText text).mapError fun e => .ofFault (.program e)
  else (compileSource text).mapError .ofCompile

/-- The tokens of a file. -/
def readTokens (d : Disk) (file : String) : Except CommandError (List Located) := do
  let text ← readFile d file
  (Token.scan text).mapError fun e => .ofCompile (.lex e)

/-- The contract in a file. -/
def readContract (d : Disk) (file : String) : Except CommandError Contract := do
  let text ← readFile d file
  (Contract.ofSource text).mapError .ofCompile

/-- The index of a function that is given by index, or by name if the file holds a contract. -/
def functionIndex (d : Disk) (file function : String) : Except CommandError Nat :=
  match Text.readIndex? function with
  | some index => .ok index
  | none => do
    if isProgramFile file then throw (.unknownFunction function)
    let contract ← readContract d file
    match contract.functionIndex? function with
    | some index => return index
    | none => throw (.unknownFunction function)

/-- The file of a state directory that keeps the storage of a contract. -/
def storageFile (state : String) (address : Word) : Path :=
  (Path.ofText state).child (address.hex ++ ".json")

/-- The file of a state directory that keeps the account index. -/
def accountsFile (state : String) : Path := (Path.ofText state).child "accounts.json"

/-- The stores of a contract in a state directory. -/
def openState (d : Disk) (state : String) (address : Word) : Except CommandError FileStores :=
  (FileStores.load d (storageFile state address) (accountsFile state)).mapError .ofStore

/-- The printed form of a call's result. -/
def showResult : Option Word → String
  | some w => w.describe ++ "\n"
  | none => "(no value)\n"

/-- What a command leaves behind: a disk, and what it prints or its error. `none` stands for a run
that ended for lack of fuel. -/
abbrev Effect := Option (Disk × Except CommandError String)

/-- A command that changes nothing on the disk. -/
def pureEffect (d : Disk) (result : Except CommandError String) : Effect := some (d, result)

/-- Compiles a file, and prints the program or writes it to a file. -/
def compileFile (d : Disk) (file : String) (output : Option String) : Effect :=
  match readFile d file with
  | .error e => some (d, .error e)
  | .ok text =>
    match compileSource text, output with
    | .error e, _ => some (d, .error (.ofCompile e))
    | .ok p, none => some (d, .ok (p.toJsonText ++ "\n"))
    | .ok p, some out =>
      match d.write (.ofText out) (Bytes.ofText p.toJsonText) with
      | .ok d => some (d, .ok "")
      | .error e => some (d, .error (.write out e))

/-- Deploys a program into a state directory, and prints its address. -/
def deployFile (d : Disk) (fuel : Nat) (file state : String) : Effect :=
  match readProgram d file with
  | .error e => some (d, .error e)
  | .ok p =>
    match openState d state p.address with
    | .error e => some (d, .error e)
    | .ok stores =>
      let (_, m) := ({ stores } : Machine FileStores).load p
      (m.deploy fuel).map fun (result, m) =>
        (m.stores.disk, (result.mapError .ofFault).map fun address => address.hex ++ "\n")

/-- Calls a function of a deployed contract, and prints the result. -/
def callDeployed (d : Disk) (fuel : Nat) (address : String) (index : Nat)
    (arguments : List String) (state : String) : Effect :=
  match Word.ofDigits? address with
  | none => some (d, .error (.badAddress address))
  | some address =>
    match openState d state address with
    | .error e => some (d, .error e)
    | .ok stores =>
      let m : Machine FileStores := { stores }
      match m.programAt address with
      | .error e => some (d, .error (.ofFault e))
      | .ok p =>
        let (_, m) := m.load p
        (m.call fuel index (arguments.map Value.ofArgument)).map fun (result, m) =>
          (m.stores.disk, (result.mapError .ofFault).map showResult)

/-- Deploys and calls in memory, and prints the result. -/
def runFile (d : Disk) (fuel : Nat) (file function : String) (arguments : List String) : Effect :=
  match readProgram d file with
  | .error e => some (d, .error e)
  | .ok p =>
    match functionIndex d file function with
    | .error e => some (d, .error e)
    | .ok index =>
      let (_, m) := ({ stores := {} } : Machine MemoryStores).load p
      match m.deploy fuel with
      | none => none
      | some (.error e, _) => some (d, .error (.ofFault e))
      | some (.ok _, m) =>
        (m.call fuel index (arguments.map Value.ofArgument)).map fun (result, _) =>
          (d, (result.mapError .ofFault).map showResult)

/-- Carries out a command. -/
def perform (d : Disk) (fuel : Nat) : Command → Effect
  | .tokens file color pretty =>
    pureEffect d ((readTokens d file).map (Token.dump { color, pretty }))
  | .ast file => pureEffect d ((readContract d file).map fun c => c.outline.spread 0 ++ "\n")
  | .compile file output => compileFile d file output
  | .disasm file => pureEffect d ((readProgram d file).map Program.listing)
  | .deploy file state => deployFile d fuel file state
  | .call address index arguments state => callDeployed d fuel address index arguments state
  | .run file function arguments => runFile d fuel file function arguments

end Command

namespace CommandLine

/-- What a run of the program shows: an exit code, and the text it prints and complains with. -/
structure Reply where
  exitCode : Nat
  output : String := ""
  complaint : String := ""
  deriving DecidableEq

/-- The reply to arguments that are misused. -/
def misuse : Reply := { exitCode := 2 }

/-- The reply that shows the result of a command. -/
def Reply.ofResult : Except CommandError String → Reply
  | .ok text => { exitCode := 0, output := text }
  | .error e => { exitCode := 1, complaint := s!"error[{e.code}]: {e.message}" }

/-- Carries out the command that arguments ask for. -/
def respond (d : Disk) (fuel : Nat) (arguments : List String) : Option (Disk × Reply) :=
  match Arguments.parse? arguments with
  | none => some (d, misuse)
  | some command => (command.perform d fuel).map fun (d, result) => (d, .ofResult result)

end CommandLine

end Covenant
