import Covenant.Bytes
import Covenant.Path
import Covenant.Table

/-!
# Disks

As much of a file system as files of state need: a tree of directories and files, given by the node
at every location. A location is the list of names from the root down.

A path leads to a location by a walk, name by name, from the root or from the working directory.
Every name on the way has to be that of a directory, and `..` goes up; so `a/../b` is not `b` where
there is no `a`. What is done at the end of the walk depends on the operation and on how the path
ends.

* `Disk.approach` walks to the directory of what a path ends in.
* `Disk.read`, `Disk.write`, `Disk.createDirectories` and `Disk.rename` are the operations;
  `read_write` says that what is written can be read.
* `DiskStep` is one of the changing operations as a value, and `Disk.runSteps` carries out several
  in turn up to the first that fails.
-/

namespace Covenant

/-- The names from the root down to a file or directory. -/
abbrev Location := List String

/-- What can stand at a location. -/
inductive Node where
  | file (bytes : Bytes)
  | directory
  deriving DecidableEq

/-- Why a disk operation could not be carried out. -/
inductive DiskError where
  | noEntry
  /-- Something is to be put over or taken from the end of a path that names no entry. -/
  | busy
  | exists_
  | notDirectory
  | isDirectory
  | nameTooLong
  /-- A path contains the character that ends texts. -/
  | nulInPath
  /-- A file that was to be read as text is not UTF-8. -/
  | notText
  deriving DecidableEq

/-- The wording of a disk error. -/
def DiskError.message : DiskError → String
  | .noEntry => "No such file or directory (os error 2)"
  | .busy => "Device or resource busy (os error 16)"
  | .exists_ => "File exists (os error 17)"
  | .notDirectory => "Not a directory (os error 20)"
  | .isDirectory => "Is a directory (os error 21)"
  | .nameTooLong => "File name too long (os error 36)"
  | .nulInPath => "file name contained an unexpected NUL byte"
  | .notText => "stream did not contain valid UTF-8"

/-- A tree of directories and files, and the directory that relative paths start from. -/
structure Disk where
  nodes : Table Location Node := ∅
  home : Location := []
  deriving DecidableEq

namespace Disk

/-- The most bytes a name may have. -/
def longestName : Nat := 255

/-- The most bytes a path may have. -/
def longestPath : Nat := 4095

/-- What stands at a location. The root is always a directory. -/
def node? (d : Disk) (at_ : Location) : Option Node :=
  match at_ with
  | [] => some .directory
  | names => d.nodes.get? names

/-- Puts a node at a location, whatever stood there. -/
def put (d : Disk) (at_ : Location) (node : Node) : Disk :=
  { d with nodes := d.nodes.insert at_ node }

/-! ## Walking -/

/-- What stands under a name in a directory, if anything does. A name that is too long is not looked
up. -/
def find (d : Disk) (directory : Location) (name : String) : Except DiskError (Option Node) :=
  if longestName < name.utf8ByteSize then .error .nameTooLong
  else .ok (d.node? (directory ++ [name]))

/-- Goes from a directory to the one a name stands for. -/
def enter (d : Disk) (directory : Location) (name : String) : Except DiskError Location :=
  if name = ".." then .ok directory.dropLast
  else
    match d.find directory name with
    | .error e => .error e
    | .ok (some .directory) => .ok (directory ++ [name])
    | .ok (some (.file _)) => .error .notDirectory
    | .ok none => .error .noEntry

/-- Goes from a directory along several names. -/
def walk (d : Disk) : Location → List String → Except DiskError Location
  | directory, [] => .ok directory
  | directory, name :: rest =>
    match d.enter directory name with
    | .error e => .error e
    | .ok next => d.walk next rest

/-- The directory that the walk along a path starts from. -/
def start (d : Disk) (p : Path) : Except DiskError Location :=
  let text := p.text
  if text.toList.contains '\x00' then .error .nulInPath
  else if longestPath < text.utf8ByteSize then .error .nameTooLong
  else if text.isEmpty then .error .noEntry
  else .ok (if p.isRooted then [] else d.home)

/-- Walks to the directory of what a path ends in. -/
def approach (d : Disk) (p : Path) : Except DiskError Location :=
  match d.start p with
  | .error e => .error e
  | .ok first => d.walk first p.route

/-- The node at the end of a path. -/
def resolve (d : Disk) (p : Path) : Except DiskError Node :=
  match d.approach p, p.goal with
  | .error e, _ => .error e
  | .ok _, .here => .ok .directory
  | .ok directory, .entry name slash =>
    match d.find directory name with
    | .error e => .error e
    | .ok none => .error .noEntry
    | .ok (some .directory) => .ok .directory
    | .ok (some (.file bytes)) => if slash then .error .notDirectory else .ok (.file bytes)

/-- Whether there is something at the end of a path. -/
def contains (d : Disk) (p : Path) : Bool := (d.resolve p).isOk

/-- Whether there is a directory at the end of a path. -/
def hasDirectory (d : Disk) (p : Path) : Bool :=
  match d.resolve p with
  | .ok .directory => true
  | _ => false

/-! ## Operations -/

/-- The contents of a file. -/
def read (d : Disk) (p : Path) : Except DiskError Bytes :=
  match d.resolve p with
  | .error e => .error e
  | .ok .directory => .error .isDirectory
  | .ok (.file bytes) => .ok bytes

/-- The contents of a file as text. -/
def readText (d : Disk) (p : Path) : Except DiskError String :=
  match d.read p with
  | .error e => .error e
  | .ok bytes =>
    match bytes.toText? with
    | some text => .ok text
    | none => .error .notText

/-- Where a file can be put under a path: there is one already, or there is nothing yet. A slash
after the name asks for a directory. -/
def fileLocation (d : Disk) (p : Path) : Except DiskError Location :=
  match d.approach p, p.goal with
  | .error e, _ => .error e
  | .ok _, .here => .error .isDirectory
  | .ok _, .entry _ true => .error .isDirectory
  | .ok directory, .entry name false =>
    match d.find directory name with
    | .error e => .error e
    | .ok (some .directory) => .error .isDirectory
    | .ok _ => .ok (directory ++ [name])

/-- Replaces the contents of a file, or makes a new one. -/
def write (d : Disk) (p : Path) (bytes : Bytes) : Except DiskError Disk :=
  match d.fileLocation p with
  | .error e => .error e
  | .ok at_ => .ok (d.put at_ (.file bytes))

/-- Makes a directory where there is nothing. -/
def createDirectory (d : Disk) (p : Path) : Except DiskError Disk :=
  match d.approach p, p.goal with
  | .error e, _ => .error e
  | .ok _, .here => .error .exists_
  | .ok directory, .entry name _ =>
    match d.find directory name with
    | .error e => .error e
    | .ok (some _) => .error .exists_
    | .ok none => .ok (d.put (directory ++ [name]) .directory)

/-- The disk after an operation, and why it could not be carried out if it could not. -/
abbrev Outcome := Disk × Option DiskError

/-- The outcome of an operation that changes nothing when it fails. -/
def outcome (d : Disk) : Except DiskError Disk → Outcome
  | .ok next => (next, none)
  | .error e => (d, some e)

/-- The outcome of making a directory, where one that is there already will do. -/
def ensureDirectory (d : Disk) (p : Path) : Outcome :=
  match d.createDirectory p with
  | .error .exists_ => if d.hasDirectory p then (d, none) else (d, some .exists_)
  | result => d.outcome result

/-- Makes a directory, and if one above it is missing, that one first. The paths are the directory's
and those above it. -/
def createBelow (d : Disk) : List Path → Outcome
  | [] => (d, none)
  | p :: above =>
    match d.ensureDirectory p with
    | (_, some .noEntry) =>
      match d.createBelow above with
      | (next, none) => next.ensureDirectory p
      | failed => failed
    | result => result

/-- Makes a directory and those above it, unless they are there. Those it has made stay when it
fails. -/
def createDirectories (d : Disk) (p : Path) : Outcome := d.createBelow p.ancestors

/-- Moves a file over what stands at the end of another path, which may be a file or nothing. -/
def rename (d : Disk) (source target : Path) : Except DiskError Disk :=
  match d.approach source, source.goal, d.approach target, target.goal with
  | .error e, _, _, _ => .error e
  | _, _, .error e, _ => .error e
  | _, .here, _, _ => .error .busy
  | _, _, _, .here => .error .busy
  | .ok above, .entry name slash, .ok above', .entry name' slash' =>
    match d.find above name, d.find above' name' with
    | .error e, _ => .error e
    | _, .error e => .error e
    | .ok none, _ => .error .noEntry
    | .ok (some .directory), _ => .error .isDirectory
    | .ok (some (.file bytes)), .ok there =>
      if slash || slash' then .error .notDirectory
      else if there = some .directory then .error .isDirectory
      else .ok ({ d with nodes := d.nodes.erase (above ++ [name]) }.put (above' ++ [name'])
        (.file bytes))

/-! ## Laws -/

/-- A node that is put somewhere changes nothing elsewhere. -/
theorem node?_put (d : Disk) {at_ : Location} (ne : at_ ≠ []) (node : Node) (other : Location) :
    (d.put at_ node).node? other = if other = at_ then some node else d.node? other := by
  unfold node?
  split
  · simp [Ne.symm ne]
  · exact Table.get?_insert ..

/-- A file that is put where there is no directory is in the way of no walk. -/
theorem walk_put_file (d : Disk) {at_ : Location} (ne : at_ ≠ [])
    (free : d.node? at_ ≠ some .directory) (bytes : Bytes) {directory target : Location}
    {names : List String} (walked : d.walk directory names = .ok target) :
    (d.put at_ (.file bytes)).walk directory names = .ok target := by
  induction names generalizing directory with
  | nil => exact walked
  | cons name rest ih =>
    have entered (next : Location) (found : d.enter directory name = .ok next) :
        (d.put at_ (.file bytes)).enter directory name = .ok next := by
      unfold enter find at found ⊢
      rw [node?_put d ne]
      by_cases here : directory ++ [name] = at_
      · grind
      · simpa [here] using found
    unfold walk at walked ⊢
    cases found : d.enter directory name with
    | error e => simp [found] at walked
    | ok next =>
      rw [entered next found]
      simp only [found] at walked
      exact ih walked

/-- A directory is reached in the same way after a file is put where no directory was. -/
theorem approach_put_file (d : Disk) {at_ : Location} (ne : at_ ≠ [])
    (free : d.node? at_ ≠ some .directory) (bytes : Bytes) {p : Path} {directory : Location}
    (reached : d.approach p = .ok directory) :
    (d.put at_ (.file bytes)).approach p = .ok directory := by
  have started : (d.put at_ (.file bytes)).start p = d.start p := rfl
  unfold approach at reached ⊢
  rw [started]
  split at reached
  · cases reached
  · exact walk_put_file d ne free bytes reached

/-- What is written under a path is read under it. -/
theorem read_write {d after : Disk} {p : Path} {bytes : Bytes}
    (written : d.write p bytes = .ok after) : after.read p = .ok bytes := by
  unfold write fileLocation at written
  cases reached : d.approach p with
  | error e => simp [reached] at written
  | ok directory =>
    cases goal : p.goal with
    | here => simp [reached, goal] at written
    | entry name slash =>
      cases slash with
      | true => simp [reached, goal] at written
      | false =>
        simp only [reached, goal, find] at written
        by_cases fits : longestName < name.utf8ByteSize
        · simp [fits] at written
        · by_cases free : d.node? (directory ++ [name]) = some .directory
          · simp [fits, free] at written
          · obtain rfl : d.put (directory ++ [name]) (.file bytes) = after := by grind
            have again := approach_put_file d (by simp) free bytes reached
            simp [read, resolve, again, goal, find, fits, node?_put]

end Disk

/-- A change to a disk. -/
inductive DiskStep where
  | createDirectories (path : Path)
  | write (path : Path) (bytes : Bytes)
  | rename (source target : Path)
  deriving DecidableEq

/-- Carries out a change. -/
def DiskStep.run (d : Disk) : DiskStep → Disk.Outcome
  | .createDirectories p => d.createDirectories p
  | .write p bytes => d.outcome (d.write p bytes)
  | .rename source target => d.outcome (d.rename source target)

/-- Carries out changes in turn, up to the first that fails. -/
def Disk.runSteps (d : Disk) : List DiskStep → Disk.Outcome
  | [] => (d, none)
  | step :: rest =>
    match step.run d with
    | (next, none) => next.runSteps rest
    | failed => failed

end Covenant
