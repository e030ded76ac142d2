import Covenant.Text.Decimal

/-!
# Command-line arguments

    tokens FILE [--no-color] [--pretty]
    ast FILE
    compile FILE [-o OUT | --output OUT]
    disasm FILE
    deploy FILE --state DIR
    call ADDRESS INDEX [ARGUMENT]... --state DIR
    run FILE FUNCTION [ARGUMENT]...

`-v` or `--verbose` may stand before the command or after it. Options and other arguments may come in
any order; after `--` everything is an ordinary argument. An option that takes a value has it in the
next argument or behind a `=`. No option may be given twice.

* `Arguments.parse?` gives the command that arguments ask for, or nothing if they are misused.
-/

namespace Covenant

/-- What the command line asks for. -/
inductive Command where
  | tokens (file : String) (color pretty : Bool)
  | ast (file : String)
  | compile (file : String) (output : Option String)
  | disasm (file : String)
  | deploy (file state : String)
  | call (address : String) (index : Nat) (arguments : List String) (state : String)
  | run (file function : String) (arguments : List String)
  deriving DecidableEq

namespace Arguments

/-- The options there are. -/
inductive Flag where
  | verbose
  | noColor
  | pretty
  | output
  | state
  deriving DecidableEq

namespace Flag

/-- The name after two dashes. -/
def long : Flag → String
  | .verbose => "verbose"
  | .noColor => "no-color"
  | .pretty => "pretty"
  | .output => "output"
  | .state => "state"

/-- The letter after one dash. -/
def letter? : Flag → Option Char
  | .verbose => some 'v'
  | .output => some 'o'
  | _ => none

/-- Whether the option takes a value. -/
def takesValue : Flag → Bool
  | .output | .state => true
  | _ => false

end Flag

/-- Arguments sorted out: the ordinary ones, and the options with their values. -/
structure Sorted where
  plain : List String := []
  flags : List (Flag × String) := []

namespace Sorted

/-- Adds an ordinary argument. -/
def addPlain (s : Sorted) (argument : String) : Sorted := { s with plain := s.plain ++ [argument] }

/-- Adds an option, unless it is there already. -/
def addFlag? (s : Sorted) (flag : Flag) (value : String) : Option Sorted :=
  if s.flags.any fun given => given.1 == flag then none
  else some { s with flags := (flag, value) :: s.flags }

/-- Whether an option was given. -/
def has (s : Sorted) (flag : Flag) : Bool := s.flags.any fun given => given.1 == flag

/-- The value of an option. -/
def value? (s : Sorted) (flag : Flag) : Option String := s.flags.lookup flag

end Sorted

/-- Whether an argument is an option, or `--`. A lone dash is neither. -/
def isOption (argument : String) : Bool :=
  match argument.toList with
  | '-' :: _ :: _ => true
  | _ => false

/-- What a cluster of option letters asks for: more options, and perhaps one that takes a value,
with the part of the value that is in the cluster. -/
structure Cluster where
  flags : List Flag := []
  last : Option (Flag × List Char) := none

/-- Takes a cluster of option letters apart. -/
def cluster? (allowed : List Flag) : List Char → Option Cluster
  | [] => some {}
  | c :: rest =>
    match allowed.find? fun flag => flag.letter? == some c with
    | none => none
    | some flag =>
      if flag.takesValue then some { last := some (flag, rest) }
      else (cluster? allowed rest).map fun more => { more with flags := flag :: more.flags }

/-- Splits `name=value`. -/
def splitValue (text : List Char) : String × Option String :=
  match text.dropWhile (· != '=') with
  | [] => (String.ofList text, none)
  | _ :: value => (String.ofList (text.takeWhile (· != '=')), some (String.ofList value))

/-- An option that takes a value, given here or to be found in the next argument. -/
structure Pending where
  flag : Flag
  value : Option String

/-- One argument that begins with two dashes: the option, with its value if it takes one. -/
def long? (allowed : List Flag) (text : List Char) : Option Pending :=
  let (name, value) := splitValue text
  match allowed.find? fun flag => flag.long == name with
  | none => none
  | some flag => if value.isSome && !flag.takesValue then none else some ⟨flag, value⟩

/-- The value of an option letter that takes one, as far as it is in the cluster. -/
def clusterValue : List Char → Option String
  | [] => none
  | '=' :: value => some (String.ofList value)
  | value => some (String.ofList value)

/-- One argument that is an option: the options without values in it, and perhaps one with. -/
def option? (allowed : List Flag) (argument : String) : Option (List Flag × Option Pending) :=
  match argument.toList with
  | '-' :: '-' :: text =>
    (long? allowed text).map fun pending =>
      if pending.flag.takesValue then ([], some pending) else ([pending.flag], none)
  | _ :: letters =>
    (cluster? allowed letters).map fun cluster =>
      (cluster.flags, cluster.last.map fun (flag, value) => ⟨flag, clusterValue value⟩)
  | [] => none

/-- Sorts arguments out. `waiting` is an option whose value is the next argument. -/
def sortFrom? (allowed : List Flag) : Option Flag → List String → Sorted → Option Sorted
  | none, [], sorted => some sorted
  | some _, [], _ => none
  | some flag, argument :: rest, sorted =>
    if isOption argument then none
    else (sorted.addFlag? flag argument).bind (sortFrom? allowed none rest)
  | none, argument :: rest, sorted =>
    if argument == "--" then some { sorted with plain := sorted.plain ++ rest }
    else if isOption argument then do
      let (flags, pending) ← option? allowed argument
      let sorted ← flags.foldlM (fun sorted flag => sorted.addFlag? flag "") sorted
      match pending with
      | none => sortFrom? allowed none rest sorted
      | some ⟨flag, some value⟩ => (sorted.addFlag? flag value).bind (sortFrom? allowed none rest)
      | some ⟨flag, none⟩ => sortFrom? allowed (some flag) rest sorted
    else sortFrom? allowed none rest (sorted.addPlain argument)

/-- Sorts out the arguments after a command that has the given options. -/
def sort? (options : List Flag) (arguments : List String) : Option Sorted :=
  sortFrom? (.verbose :: options) none arguments {}

/-- A path is any text but the empty one. -/
def path? (text : String) : Option String := if text.isEmpty then none else some text

/-- The path an option was given, which must be there. -/
def pathOf? (s : Sorted) (flag : Flag) : Option String := (s.value? flag).bind path?

/-- The command with a name, from the arguments after the name. -/
def command? (name : String) (arguments : List String) : Option Command :=
  match name with
  | "tokens" => do
    let s ← sort? [.noColor, .pretty] arguments
    match s.plain with
    | [file] => return .tokens (← path? file) (!s.has .noColor) (s.has .pretty)
    | _ => none
  | "ast" => do
    let s ← sort? [] arguments
    match s.plain with
    | [file] => return .ast (← path? file)
    | _ => none
  | "compile" => do
    let s ← sort? [.output] arguments
    match s.plain with
    | [file] =>
      match s.value? .output with
      | none => return .compile (← path? file) none
      | some output => return .compile (← path? file) (some (← path? output))
    | _ => none
  | "disasm" => do
    let s ← sort? [] arguments
    match s.plain with
    | [file] => return .disasm (← path? file)
    | _ => none
  | "deploy" => do
    let s ← sort? [.state] arguments
    match s.plain with
    | [file] => return .deploy (← path? file) (← pathOf? s .state)
    | _ => none
  | "call" => do
    let s ← sort? [.state] arguments
    match s.plain with
    | address :: index :: arguments =>
      return .call address (← Text.readIndex? index) arguments (← pathOf? s .state)
    | _ => none
  | "run" => do
    let s ← sort? [] arguments
    match s.plain with
    | file :: function :: arguments => return .run (← path? file) function arguments
    | _ => none
  | _ => none

/-- Skips the options before the command name; `seen` says whether `--verbose` was among them. -/
def parseFrom? (seen : Bool) : List String → Option Command
  | [] => none
  | argument :: rest =>
    if argument == "--" then none
    else if isOption argument then
      match option? [.verbose] argument with
      | some ([], none) => parseFrom? seen rest
      | some ([_], none) => if seen then none else parseFrom? true rest
      | _ => none
    else command? argument rest

/-- The command that arguments ask for; `none` when they are misused. -/
def parse? (arguments : List String) : Option Command := parseFrom? false arguments

end Arguments

end Covenant
