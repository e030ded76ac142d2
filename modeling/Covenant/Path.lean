/-!
# Paths

A path as it is written, cut at its slashes. Nothing is lost in cutting (`text_ofText`), because how
a path is written matters: one that ends in a slash or in `.` can only mean a directory, and one that
passes through `..` needs the directory it leaves again.

Empty pieces and `.` name nothing and are *blank*; the other pieces are the *names* of the path.

* `Path.child` goes down by a name, and `Path.parent` goes up by one; `names_child` and
  `names_parent` say so.
* `Path.beside` is the path of a file whose name has something added.
* `Path.goal` is what a path ends in, and `Path.route` are the names on the way there.
-/

namespace Covenant

/-- The pieces of a written path between its slashes. -/
structure Path where
  pieces : List String
  deriving DecidableEq

/-- What a path ends in. -/
inductive Goal where
  /-- The directory that the names before lead to. -/
  | here
  /-- An entry of that directory. A slash after its name asks for a directory. -/
  | entry (name : String) (slash : Bool)
  deriving DecidableEq

namespace Path

/-- Reads a path. -/
def ofText (text : String) : Path := ⟨(text.toList.splitOn '/').map String.ofList⟩

/-- The path as it is written. -/
def text (p : Path) : String :=
  String.ofList (['/'].intercalate (p.pieces.map String.toList))

@[simp]
theorem text_ofText (s : String) : (ofText s).text = s := by
  simp [text, ofText, Function.comp_def, List.intercalate_splitOn]

/-- Whether a piece of a path names nothing. -/
def isBlank (piece : String) : Bool := piece == "" || piece == "."

/-- The names in a path. -/
def names (p : Path) : List String := p.pieces.filter fun piece => !isBlank piece

/-- Whether a path starts at the root. -/
def isRooted (p : Path) : Bool := p.pieces.head? == some "" && p.pieces.length != 1

/-- The path of an entry of a directory. -/
def child (p : Path) (name : String) : Path :=
  if p.pieces.getLast? = some "" then ⟨p.pieces.dropLast ++ [name]⟩ else ⟨p.pieces ++ [name]⟩

/-- Pieces up to the last one that is a name. -/
def trim (pieces : List String) : List String := (pieces.reverse.dropWhile isBlank).reverse

/-- The path of the directory that holds what the last name stands for. -/
def parent (p : Path) : Path :=
  match trim (trim p.pieces).dropLast with
  | [] => if p.isRooted then ⟨["", ""]⟩ else ⟨[""]⟩
  | pieces => ⟨pieces⟩

/-- A path and those above it that have a name, as many as there are names. -/
def ancestors (p : Path) : List Path := climb p.names.length p
where
  /-- A path and those above it, up to a count. -/
  climb : Nat → Path → List Path
    | 0, _ => []
    | n + 1, p => p :: climb n p.parent

/-- The name of the file that a path stands for, unless it goes up in the end. -/
def fileName? (p : Path) : Option String := p.names.getLast?.filter (· != "..")

/-- What follows the last dot of the file name, if something stands before that dot. -/
def extension? (p : Path) : Option String :=
  match (p.fileName?.getD "").toList.splitOn '.' with
  | [_] | [[], _] => none
  | parts => parts.getLast?.map String.ofList

/-- The path of the file beside a file whose name has something added. -/
def beside (p : Path) (suffix : String) : Path :=
  match p.fileName? with
  | some name => p.parent.child (name ++ suffix)
  | none => p.child suffix

/-- What a path ends in. -/
def goal (p : Path) : Goal :=
  match (p.pieces.filter (· != "")).getLast? with
  | none | some "." | some ".." => .here
  | some name => .entry name (p.pieces.getLast? == some "")

/-- The names on the way to what a path ends in. -/
def route (p : Path) : List String :=
  match p.goal with
  | .here => p.names
  | .entry _ _ => p.names.dropLast

/-! ## Names -/

/-- A name that is not blank comes last. -/
theorem names_child (p : Path) {name : String} (h : isBlank name = false) :
    (p.child name).names = p.names ++ [name] := by
  unfold child
  split
  · rename_i last
    obtain ⟨above, eq⟩ := List.getLast?_eq_some_iff.mp last
    simp [names, eq, h, show isBlank "" = true from rfl]
  · simp [names, h]

theorem filter_dropWhile_isBlank (pieces : List String) :
    ((pieces.dropWhile isBlank).filter fun piece => !isBlank piece)
      = pieces.filter fun piece => !isBlank piece := by
  induction pieces with
  | nil => rfl
  | cons piece rest ih => by_cases h : isBlank piece <;> simp [h, ih]

theorem filter_trim (pieces : List String) :
    ((trim pieces).filter fun piece => !isBlank piece)
      = pieces.filter fun piece => !isBlank piece := by
  simp [trim, List.filter_reverse, filter_dropWhile_isBlank]

/-- The parent has all names but the last. -/
theorem names_parent (p : Path) : p.parent.names = p.names.dropLast := by
  have key : ((trim (trim p.pieces).dropLast).filter fun piece => !isBlank piece)
      = p.names.dropLast := by
    rw [filter_trim, names, ← filter_trim p.pieces]
    rcases List.eq_nil_or_concat (trim p.pieces) with eq | ⟨above, name, eq⟩
    · simp [eq]
    · have hname : isBlank name = false := by
        have head : (p.pieces.reverse.dropWhile isBlank).head? = some name := by
          simpa [trim] using congrArg List.getLast? eq
        have := List.head?_dropWhile_not isBlank p.pieces.reverse
        simpa [head] using this
      simp [eq, hname]
  unfold parent
  split
  · rename_i nil
    rw [nil] at key
    rw [← key]
    split <;> rfl
  · exact key

end Path

end Covenant
