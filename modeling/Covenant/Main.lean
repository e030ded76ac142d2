import Covenant.CommandLine

/-!
# The program

Copies the files that a command looks at from the real file system to a `Disk`, carries the command
out there, and copies back the files that changed.
-/

namespace Covenant.CommandLine

/-- More instructions than any run will execute. -/
def ample : Nat := Nat.pow 2 64

/-- The files a command is given by name. -/
def givenFiles : Command → List Path
  | .tokens file _ _ | .ast file | .disasm file | .deploy file _ | .run file _ _ => [.ofText file]
  | .compile file output => (file :: output.toList).map .ofText
  | .call _ _ _ _ => []

/-- The files of the state directory that a command works on, which may depend on the program it is
given. -/
def stateFiles (d : Disk) : Command → List Path
  | .deploy file state =>
    match Command.readProgram d file with
    | .ok p => [Command.storageFile state p.address, Command.accountsFile state]
    | .error _ => []
  | .call address _ _ state =>
    match Word.ofDigits? address with
    | some w => [Command.storageFile state w, Command.accountsFile state]
    | none => []
  | _ => []

/-- The locations that a walk along names passes. -/
def passed (start : Location) : List String → List Location
  | [] => []
  | name :: rest =>
    let next := if name == ".." then start.dropLast else start ++ [name]
    next :: passed next rest

/-- A location as the real file system writes it. -/
def realName (location : Location) : String := "/" ++ "/".intercalate location

/-- Copies what really stands at a location to the disk, if the disk has a directory above it. -/
def copyIn (d : Disk) (location : Location) : IO Disk := do
  unless d.node? location.dropLast == some .directory do return d
  match ← (IO.FS.readBinFile (realName location)).toBaseIO with
  | .ok bytes => return d.put location (.file bytes.data.toList)
  | .error (.noFileOrDirectory ..) => return d
  | .error _ => return d.put location .directory

/-- Copies the file of a path to the disk, with the directories on the way. -/
def copyFile (d : Disk) (p : Path) : IO Disk :=
  (passed (if p.isRooted then [] else d.home) p.names).foldlM copyIn d

/-- Copies a changed node back; a file goes through a staging file beside it. -/
def copyOut (location : Location) : Node → IO Unit
  | .directory => IO.FS.createDirAll (realName location)
  | .file bytes => do
    let staging := realName location ++ ".tmp"
    IO.FS.createDirAll (realName location.dropLast)
    IO.FS.writeBinFile staging ⟨bytes.toArray⟩
    IO.FS.rename staging (realName location)

/-- Carries a command out on the real file system, and gives the reply. -/
def carryOut (command : Command) : IO Reply := do
  let home := (Path.ofText (toString (← IO.currentDir))).names
  let start ← (passed [] home).foldlM copyIn { home }
  let given ← (givenFiles command).foldlM copyFile start
  let before ← (stateFiles given command).foldlM copyFile given
  match command.perform before ample with
  | none => return { exitCode := 1, complaint := "error[execution_fault]: out of fuel" }
  | some (after, result) =>
    for (location, node) in after.nodes.entries do
      unless before.node? location == some node do
        copyOut location node
    return .ofResult result

end Covenant.CommandLine

/-- Carries out the command that the arguments ask for. -/
def main (arguments : List String) : IO UInt32 := do
  let reply ← match Covenant.Arguments.parse? arguments with
    | some command => Covenant.CommandLine.carryOut command
    | none => pure Covenant.CommandLine.misuse
  IO.print reply.output
  unless reply.complaint.isEmpty do
    IO.eprintln reply.complaint
  return reply.exitCode.toUInt32
