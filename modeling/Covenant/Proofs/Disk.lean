import Covenant.Disk
import Covenant.Proofs.Table
import Mathlib.Data.List.DropRight

/-!
# Files of one directory

A file of a directory is named by the path of the directory and a name. Wherever such a path leads to
anything, it leads to the same place: that place can be told from the names in the path alone, also
before the directory exists.

* `Disk.destination` is that place.
* `Disk.Within` compares the directories of two disks. Every path that leads somewhere on the first
  leads there on the second.
* `Disk.Extends` says besides what making directories and writing files leaves as it was.
* `Disk.read_child_iff`, `Disk.write_child_iff` and `Disk.rename_child_iff` say when files of a
  directory can be read, written and moved, and what comes of it.
-/

namespace Covenant

namespace Path

/-- A piece of a path that names an entry of a directory. -/
def IsName (name : String) : Prop := isBlank name = false ∧ name ≠ ".."

instance (name : String) : Decidable (IsName name) := inferInstanceAs (Decidable (_ ∧ _))

variable {name directory : String}

theorem IsName.ne_empty (h : IsName name) : name ≠ "" := by
  rintro rfl
  exact absurd h.1 (by decide)

theorem IsName.ne_dot (h : IsName name) : name ≠ "." := by
  rintro rfl
  exact absurd h.1 (by decide)

/-- The name of an entry is the last piece of its path, behind the same pieces for every name. -/
theorem pieces_child (p : Path) : ∃ above, ∀ name, (p.child name).pieces = above ++ [name] := by
  unfold child
  split
  · exact ⟨_, fun _ => rfl⟩
  · exact ⟨_, fun _ => rfl⟩

/-- The path of an entry asks for that entry. -/
theorem goal_child (p : Path) (h : IsName name) : (p.child name).goal = .entry name false := by
  obtain ⟨above, hpieces⟩ := p.pieces_child
  have hne := h.ne_empty
  have hlast : ((p.child name).pieces.filter (· != "")).getLast? = some name := by
    simp [hpieces, List.filter_append, hne]
  -- A name is not empty, so the path does not end in a slash.
  have hslash : ((p.child name).pieces.getLast? == some "") = false := by
    simp [hpieces, hne]
  unfold goal
  rw [hlast, hslash]
  split
  · next heq => cases heq
  · next heq => exact absurd (Option.some.inj heq) h.ne_dot
  · next heq => exact absurd (Option.some.inj heq) h.2
  · next heq => rw [Option.some.inj heq]

/-- The way to an entry leads through the names of the directory. -/
theorem route_child (p : Path) (h : IsName name) : (p.child name).route = p.names := by
  rw [route, goal_child p h]
  simp only [names_child p h.1, List.dropLast_concat]

/-- The path of an entry starts where that of the directory starts. -/
theorem isRooted_child (p : Path) (name : String) : (p.child name).isRooted = p.isRooted := by
  unfold child isRooted
  split
  · next hlast =>
    obtain ⟨above, hpieces⟩ := List.getLast?_eq_some_iff.1 hlast
    rw [hpieces, List.dropLast_concat]
    cases above with
    | nil => simp
    | cons first rest => simp
  · next hlast =>
    -- A path of one empty piece is not rooted, and an entry of it would be.
    rcases hpieces : p.pieces with _ | ⟨first, _ | ⟨second, rest⟩⟩
    · simp
    · rw [hpieces] at hlast
      have hfirst : first ≠ "" := fun heq => hlast (by rw [heq]; rfl)
      simp [hfirst]
    · simp

/-- Going up does not change where a path starts. -/
theorem isRooted_parent (p : Path) : p.parent.isRooted = p.isRooted := by
  have hpre : trim (trim p.pieces).dropLast <+: p.pieces :=
    (List.rdropWhile_prefix isBlank _).trans
      ((List.dropLast_prefix _).trans (List.rdropWhile_prefix isBlank _))
  have hlast := List.rdropWhile_last_not isBlank (trim p.pieces).dropLast
  change ∀ h : trim (trim p.pieces).dropLast ≠ [],
    ¬ isBlank ((trim (trim p.pieces).dropLast).getLast h) = true at hlast
  obtain ⟨back, hback⟩ := hpre
  unfold parent
  generalize trim (trim p.pieces).dropLast = front at hlast hback
  rcases front with _ | ⟨first, _ | ⟨second, rest⟩⟩
  · cases h : p.isRooted with
    | false => simp [isRooted]
    | true => simp [isRooted]
  · -- What is left ends in a name, so alone it is no root.
    have hfirst : first ≠ "" := fun heq => hlast (List.cons_ne_nil _ _) (by rw [heq]; rfl)
    simp [isRooted, ← hback, hfirst]
  · simp [isRooted, ← hback]

/-- The path of a directory is the same for all its entries. -/
theorem parent_child (p : Path) {other : String} (h : IsName name) (hother : IsName other) :
    (p.child name).parent = (p.child other).parent := by
  -- A name at the end is all that going up takes away.
  obtain ⟨above, hpieces⟩ := p.pieces_child
  have htrim : ∀ entry, IsName entry → trim (p.child entry).pieces = above ++ [entry] := by
    intro entry hentry
    rw [hpieces]
    exact List.rdropWhile_concat_neg isBlank above entry (by simp [hentry.1])
  unfold parent
  rw [htrim name h, htrim other hother, List.dropLast_concat, List.dropLast_concat, isRooted_child,
    isRooted_child]

/-- The path of an entry ends in its name. -/
theorem fileName?_child (p : Path) (h : IsName name) : (p.child name).fileName? = some name := by
  rw [fileName?, names_child p h.1, List.getLast?_concat]
  simp [h.2]

/-- A name that is good for any directory: it is short, and no character of it ends a path. -/
structure IsPlain (name : String) : Prop where
  isName : IsName name
  nul : '\x00' ∉ name.toList
  size : name.utf8ByteSize ≤ Disk.longestName

/-- The path of an entry of the working directory. -/
def single (directory : String) : Path := ⟨[directory]⟩

/-- The path of an entry in a directory of the working directory. -/
theorem child_single (h : IsName directory) (name : String) :
    (single directory).child name = ⟨[directory, name]⟩ :=
  if_neg fun heq => h.ne_empty (Option.some.inj heq)

/-- Going up from such an entry leads to the path of the directory itself, and not only to another
path of it. -/
theorem parent_child_single (h : IsName directory) (hname : IsName name) :
    ((single directory).child name).parent = single directory := by
  have hnames : trim [directory, name] = [directory, name] :=
    List.rdropWhile_concat_neg isBlank [directory] name (by simp [hname.1])
  have hdirectory : trim [directory] = [directory] :=
    List.rdropWhile_concat_neg isBlank [] directory (by simp [h.1])
  rw [child_single h]
  unfold parent
  rw [hnames, List.dropLast_cons_cons, List.dropLast_singleton, hdirectory]
  rfl

theorem isRooted_single (directory : String) : (single directory).isRooted = false := by
  simp [isRooted, single]

theorem names_single (h : IsName directory) : (single directory).names = [directory] := by
  simp [names, single, h.1]

end Path

namespace Disk

/-! ### Where a directory is -/

/-- Where a name leads from a directory, if it leads anywhere. -/
def descend (directory : Location) (name : String) : Location :=
  if name = ".." then directory.dropLast else directory ++ [name]

/-- The place of the directory that a path names, whether it exists or not. -/
def destination (d : Disk) (p : Path) : Location :=
  p.names.foldl descend (if p.isRooted then [] else d.home)

variable {d d' : Disk} {p : Path} {name : String} {bytes : Bytes}

/-- Going up from an entry leads to where the directory is. -/
theorem destination_parent_child (d : Disk) (p : Path) (h : Path.IsName name) :
    d.destination (p.child name).parent = d.destination p := by
  rw [destination, Path.names_parent, Path.names_child p h.1, List.dropLast_concat,
    Path.isRooted_parent, Path.isRooted_child, destination]

theorem location_ne_nil (directory : Location) (name : String) : directory ++ [name] ≠ [] := by
  simp

/-- A name that can be entered leads where it says. -/
theorem enter_eq {directory next : Location} (h : d.enter directory name = .ok next) :
    next = descend directory name := by
  unfold enter at h
  unfold descend
  split at h
  · next hup =>
    cases h
    rw [if_pos hup]
  · next hup =>
    rw [if_neg hup]
    split at h
    · cases h
    · cases h
      rfl
    · cases h
    · cases h

/-- A walk that comes to an end ends where its names say. -/
theorem walk_eq {directory target : Location} {names : List String}
    (h : d.walk directory names = .ok target) : target = names.foldl descend directory := by
  induction names generalizing directory with
  | nil =>
    cases h
    rfl
  | cons name rest ih =>
    unfold walk at h
    split at h
    · cases h
    · next next hnext =>
      rw [List.foldl_cons, ← enter_eq hnext]
      exact ih h

/-- The way to an entry ends in the directory, wherever it ends at all. -/
theorem approach_child_eq {at_ : Location} (hname : Path.IsName name)
    (h : d.approach (p.child name) = .ok at_) : at_ = d.destination p := by
  unfold approach at h
  split at h
  · cases h
  · next first hfirst =>
    rw [Path.route_child p hname] at h
    rw [walk_eq h, destination]
    -- Where a path starts depends on whether it is rooted. All else that is checked there fails.
    unfold start at hfirst
    rw [Path.isRooted_child] at hfirst
    dsimp only at hfirst
    split at hfirst
    · cases hfirst
    · split at hfirst
      · cases hfirst
      · split at hfirst
        · cases hfirst
        · cases hfirst
          rfl

/-! ### What stays -/

/-- The directories of a disk are directories of another, and paths start in the same place. -/
structure Within (d d' : Disk) : Prop where
  home : d'.home = d.home
  directory : ∀ at_, d.node? at_ = some .directory → d'.node? at_ = some .directory

/-- Paths are about the same places on both disks. -/
theorem Within.destination (h : Within d d') (p : Path) : d'.destination p = d.destination p := by
  rw [Disk.destination, Disk.destination, h.home]

/-- A directory that is found is found on the second disk too. -/
theorem Within.find (h : Within d d') {at_ : Location}
    (hfind : d.find at_ name = .ok (some .directory)) :
    d'.find at_ name = .ok (some .directory) := by
  unfold Disk.find at hfind ⊢
  split at hfind
  · cases hfind
  · next hfits => rw [if_neg hfits, h.directory _ (Except.ok.inj hfind)]

/-- What can be entered can be entered on the second disk. -/
theorem Within.enter (h : Within d d') {directory next : Location}
    (hnext : d.enter directory name = .ok next) : d'.enter directory name = .ok next := by
  unfold Disk.enter at hnext ⊢
  split at hnext
  · next hup => rw [if_pos hup]; exact hnext
  · next hup =>
    rw [if_neg hup]
    split at hnext
    · cases hnext
    · next hfind => rw [h.find hfind]; exact hnext
    · cases hnext
    · cases hnext

/-- A walk that comes to an end does so on the second disk, by induction on its names. -/
theorem Within.walk (h : Within d d') {directory target : Location} {names : List String}
    (hwalk : d.walk directory names = .ok target) : d'.walk directory names = .ok target := by
  induction names generalizing directory with
  | nil => exact hwalk
  | cons name rest ih =>
    unfold Disk.walk at hwalk ⊢
    cases hnext : d.enter directory name with
    | error e =>
      rw [hnext] at hwalk
      cases hwalk
    | ok next =>
      rw [hnext] at hwalk
      rw [h.enter hnext]
      exact ih hwalk

/-- Every path that led somewhere goes on to lead there. -/
theorem Within.approach (h : Within d d') {at_ : Location} (hat : d.approach p = .ok at_) :
    d'.approach p = .ok at_ := by
  have hstart : d'.start p = d.start p := by
    unfold start
    rw [h.home]
  unfold Disk.approach at hat ⊢
  rw [hstart]
  split at hat
  · cases hat
  · exact h.walk hat

/-- Apart from some locations, a disk has what another has, and more directories at most. Directories
stay in any case. -/
structure Extends (touched : List Location) (d d' : Disk) : Prop extends Within d d' where
  other : ∀ at_, at_ ∉ touched → d'.node? at_ = d.node? at_
    ∨ d.node? at_ = none ∧ d'.node? at_ = some .directory

variable {touched : List Location}

theorem Extends.refl (touched : List Location) (d : Disk) : Extends touched d d :=
  ⟨⟨rfl, fun _ h => h⟩, fun _ _ => Or.inl rfl⟩

/-- What stays in two steps stays in both. A directory made in the first is there in the second. -/
theorem Extends.trans {d'' : Disk} (h : Extends touched d d') (h' : Extends touched d' d'') :
    Extends touched d d'' where
  home := h'.home.trans h.home
  directory at_ hat := h'.directory at_ (h.directory at_ hat)
  other at_ hat := by
    rcases h.other at_ hat with hsame | ⟨hnone, hdir⟩
    · rw [← hsame]
      exact h'.other at_ hat
    · exact Or.inr ⟨hnone, h'.directory at_ hdir⟩

/-- Fewer locations may have been touched than are named. -/
theorem Extends.mono {more : List Location} (h : Extends touched d d') (hsub : touched ⊆ more) :
    Extends more d d' :=
  ⟨h.toWithin, fun at_ hat => h.other at_ fun hmem => hat (hsub hmem)⟩

/-! ### Making directories -/

/-- Something put where no directory is leaves everything else as it is. -/
theorem Extends.put {at_ : Location} (hne : at_ ≠ []) (hfree : d.node? at_ ≠ some .directory)
    (node : Node) : Extends [at_] d (d.put at_ node) where
  home := rfl
  directory other hother := by
    have hother' : other ≠ at_ := fun heq => hfree (heq ▸ hother)
    rw [node?_put d hne, if_neg hother', hother]
  other other hother := by
    rw [List.mem_singleton] at hother
    rw [node?_put d hne, if_neg hother]
    exact Or.inl rfl

/-- A file that is put somewhere makes no directory. -/
theorem Within.of_put {at_ : Location} (hne : at_ ≠ []) (d : Disk) (bytes : Bytes) :
    Within (d.put at_ (.file bytes)) d := by
  refine ⟨rfl, fun other hdir => ?_⟩
  rw [node?_put d hne] at hdir
  split at hdir
  · cases hdir
  · exact hdir

/-- A directory is made only where nothing was. -/
theorem Extends.createDirectory (h : d.createDirectory p = .ok d') : Extends [] d d' := by
  unfold Disk.createDirectory at h
  split at h
  · cases h
  · cases h
  · next directory name slash _ _ =>
    unfold find at h
    split at h
    · cases h
    · cases h
    · next hfind =>
      split at hfind
      · cases hfind
      · have hnone : d.node? (directory ++ [name]) = none := Except.ok.inj hfind
        cases h
        have hput := Extends.put (location_ne_nil directory name) (by rw [hnone]; nofun)
          .directory
        refine ⟨hput.toWithin, fun at_ _ => ?_⟩
        -- The only location that changes had nothing, and has a directory now.
        by_cases heq : at_ = directory ++ [name]
        · subst heq
          exact Or.inr ⟨hnone, by rw [node?_put _ (location_ne_nil _ _), if_pos rfl]⟩
        · exact hput.other at_ (by rwa [List.mem_singleton])

/-- Making a directory that may be there already touches nothing else. -/
theorem Extends.ensureDirectory (d : Disk) (p : Path) : Extends [] d (d.ensureDirectory p).1 := by
  unfold Disk.ensureDirectory
  split
  · split
    · exact .refl [] d
    · exact .refl [] d
  · unfold outcome
    split
    · next hcreate => exact .createDirectory hcreate
    · exact .refl [] d

/-- Making directories one inside the other only adds directories. -/
theorem Extends.createBelow (d : Disk) (paths : List Path) :
    Extends [] d (d.createBelow paths).1 := by
  induction paths generalizing d with
  | nil => exact .refl [] d
  | cons p above ih =>
    unfold Disk.createBelow
    split
    · split
      · -- The directories above come first, and then this one is tried again.
        next hbelow =>
        have habove := ih d
        rw [hbelow] at habove
        exact habove.trans (.ensureDirectory _ p)
      · exact ih d
    · exact .ensureDirectory d p

/-- Making a directory with all those above it leaves all files as they are. -/
theorem Extends.createDirectories (d : Disk) (p : Path) :
    Extends [] d (d.createDirectories p).1 :=
  .createBelow d p.ancestors

/-- A path names a directory if the way to it exists, and it either ends there or asks for an entry
that is one. -/
theorem hasDirectory_iff : d.hasDirectory p = true ↔ ∃ at_, d.approach p = .ok at_
    ∧ (p.goal = .here
      ∨ ∃ name slash, p.goal = .entry name slash ∧ d.find at_ name = .ok (some .directory)) := by
  unfold hasDirectory resolve
  cases d.approach p with
  | error e => simp
  | ok at_ =>
    cases hgoal : p.goal with
    | here => simp
    | entry name slash =>
      rcases hfind : d.find at_ name with e | _ | _ | _
      · simp [hfind]
      · simp [hfind]
      · cases slash <;> simp [hfind]
      · simp [hfind]

/-- Directories are directories of the second disk, by the same path. -/
theorem Within.hasDirectory (h : Within d d') (hdir : d.hasDirectory p = true) :
    d'.hasDirectory p = true := by
  obtain ⟨at_, hat, hhere | ⟨name, slash, hentry, hfind⟩⟩ := hasDirectory_iff.1 hdir
  · exact hasDirectory_iff.2 ⟨at_, h.approach hat, Or.inl hhere⟩
  · exact hasDirectory_iff.2 ⟨at_, h.approach hat, Or.inr ⟨name, slash, hentry, h.find hfind⟩⟩

/-- A directory that is there cannot be made. -/
theorem createDirectory_of_hasDirectory (h : d.hasDirectory p = true) :
    d.createDirectory p = .error .exists_ := by
  unfold createDirectory
  obtain ⟨at_, hat, hhere | ⟨name, slash, hentry, hfind⟩⟩ := hasDirectory_iff.1 h
  · rw [hat, hhere]
  · rw [hat, hentry]
    dsimp only
    rw [hfind]

/-- Nothing is done for a directory that is there. -/
theorem ensureDirectory_of_hasDirectory (h : d.hasDirectory p = true) :
    d.ensureDirectory p = (d, none) := by
  rw [ensureDirectory, createDirectory_of_hasDirectory h]
  exact if_pos h

/-- What has been made is there, by the path it was made with. -/
theorem hasDirectory_of_createDirectory (h : d.createDirectory p = .ok d') :
    d'.hasDirectory p = true := by
  have hext := Extends.createDirectory h
  unfold createDirectory at h
  split at h
  · cases h
  · cases h
  · next at_ name slash hat hgoal =>
    -- The way to it leads through directories that were there before.
    refine hasDirectory_iff.2 ⟨at_, hext.approach hat, Or.inr ⟨name, slash, hgoal, ?_⟩⟩
    unfold find at h ⊢
    split at h
    · cases h
    · cases h
    · next hfind =>
      split at hfind
      · cases hfind
      · next hfits =>
        cases h
        rw [if_neg hfits, node?_put d (location_ne_nil at_ name), if_pos rfl]

/-- Where no error is reported, the directory is there. -/
theorem hasDirectory_of_ensureDirectory (h : d.ensureDirectory p = (d', none)) :
    d'.hasDirectory p = true := by
  unfold ensureDirectory at h
  split at h
  · split at h
    · next hdir =>
      cases h
      exact hdir
    · cases h
  · unfold outcome at h
    split at h
    · next hcreate =>
      cases h
      exact hasDirectory_of_createDirectory hcreate
    · cases h

/-- A directory that has been made need not be made again. -/
theorem createDirectories_again (h : d.createDirectories p = (d', none)) {d'' : Disk}
    (hwithin : Within d' d'') : d''.createDirectories p = (d'', none) := by
  unfold createDirectories at h ⊢
  cases hpaths : p.ancestors with
  | nil => rfl
  | cons q above =>
    have hq : q = p := by
      unfold Path.ancestors at hpaths
      cases hcount : p.names.length with
      | zero => rw [hcount] at hpaths; cases hpaths
      | succ n => rw [hcount] at hpaths; cases hpaths; rfl
    subst hq
    -- Whether the directories above had to be made first or not, the last step made this one.
    have hdir : d'.hasDirectory q = true := by
      rw [hpaths, createBelow] at h
      split at h
      · split at h
        · exact hasDirectory_of_ensureDirectory h
        · next hfailed => exact absurd h (hfailed _)
      · exact hasDirectory_of_ensureDirectory h
    rw [createBelow, ensureDirectory_of_hasDirectory (hwithin.hasDirectory hdir)]

/-! ### Files of a directory -/

/-- What the path of an entry leads to, once the way to it is known. -/
theorem resolve_child (hname : Path.IsName name) {at_ : Location}
    (hat : d.approach (p.child name) = .ok at_) :
    d.resolve (p.child name) = if longestName < name.utf8ByteSize then .error .nameTooLong
      else (d.node? (at_ ++ [name])).elim (.error .noEntry) .ok := by
  unfold resolve
  rw [hat, Path.goal_child p hname]
  dsimp only
  unfold find
  by_cases hfits : longestName < name.utf8ByteSize
  · rw [if_pos hfits, if_pos hfits]
  · rw [if_neg hfits, if_neg hfits]
    rcases d.node? (at_ ++ [name]) with _ | _ | _
    · rfl
    · rfl
    · rfl

/-- A file of a directory is read where its path leads to the directory and the file is there. -/
theorem read_child_iff (hname : Path.IsName name) :
    d.read (p.child name) = .ok bytes
      ↔ d.approach (p.child name) = .ok (d.destination p) ∧ name.utf8ByteSize ≤ longestName
        ∧ d.node? (d.destination p ++ [name]) = some (.file bytes) := by
  unfold read
  constructor
  · intro h
    cases hat : d.approach (p.child name) with
    | error e => simp only [resolve, hat] at h; cases h
    | ok at_ =>
      -- Wherever the way led, that is the place the names tell.
      rw [resolve_child hname hat, approach_child_eq hname hat] at h
      by_cases hfits : longestName < name.utf8ByteSize
      · rw [if_pos hfits] at h
        cases h
      · rw [if_neg hfits] at h
        refine ⟨by rw [approach_child_eq hname hat], Nat.le_of_not_lt hfits, ?_⟩
        rcases hnode : d.node? (d.destination p ++ [name]) with _ | _ | _
        · rw [hnode] at h; cases h
        · rw [hnode] at h; cases h; rfl
        · rw [hnode] at h; cases h
  · rintro ⟨hat, hfits, hnode⟩
    rw [resolve_child hname hat, if_neg (Nat.not_lt.2 hfits), hnode]
    rfl

/-- A file of a directory is read on as long as its own location is not touched. -/
theorem Extends.read (h : Extends touched d d') (hname : Path.IsName name)
    (hat : d.destination p ++ [name] ∉ touched) (hread : d.read (p.child name) = .ok bytes) :
    d'.read (p.child name) = .ok bytes := by
  obtain ⟨happroach, hfits, hnode⟩ := (read_child_iff hname).1 hread
  rw [read_child_iff hname, h.destination]
  refine ⟨h.approach happroach, hfits, ?_⟩
  rcases h.other _ hat with hsame | ⟨hnone, -⟩
  · rw [hsame, hnode]
  · rw [hnode] at hnone
    cases hnone

/-- A location without a file stays so as long as it is not touched. -/
theorem Extends.not_file (h : Extends touched d d') {at_ : Location} (hat : at_ ∉ touched)
    (hnode : ∀ bytes, d.node? at_ ≠ some (.file bytes)) (bytes : Bytes) :
    d'.node? at_ ≠ some (.file bytes) := by
  rcases h.other _ hat with hsame | ⟨-, hdir⟩
  · rw [hsame]
    exact hnode bytes
  · rw [hdir]
    nofun

/-- A file can be put into a directory under a name. -/
structure Admits (d : Disk) (p : Path) (name : String) : Prop where
  approach : d.approach (p.child name) = .ok (d.destination p)
  fits : name.utf8ByteSize ≤ longestName
  free : d.node? (d.destination p ++ [name]) ≠ some .directory

/-- Only directories count for where files can be put. -/
theorem Admits.of_within (h : d.Admits p name) (hwithin : Within d d') (hback : Within d' d) :
    d'.Admits p name := by
  refine ⟨?_, h.fits, fun hdir => ?_⟩
  · rw [hwithin.destination]
    exact hwithin.approach h.approach
  · rw [hwithin.destination] at hdir
    exact h.free (hback.directory _ hdir)

theorem find_of_fits (h : name.utf8ByteSize ≤ longestName) (d : Disk) (directory : Location) :
    d.find directory name = .ok (d.node? (directory ++ [name])) :=
  if_neg (Nat.not_lt.2 h)

theorem fits_of_find {directory : Location} {node : Option Node}
    (h : d.find directory name = .ok node) : name.utf8ByteSize ≤ longestName := by
  unfold find at h
  split at h
  · cases h
  · next hfits => exact Nat.le_of_not_lt hfits

/-- A file can be written where one can be put, and it is put there. -/
theorem write_child_iff (hname : Path.IsName name) :
    d.write (p.child name) bytes = .ok d'
      ↔ d.Admits p name ∧ d' = d.put (d.destination p ++ [name]) (.file bytes) := by
  unfold write fileLocation
  rw [Path.goal_child p hname]
  constructor
  · intro h
    cases hat : d.approach (p.child name) with
    | error e => simp only [hat] at h; cases h
    | ok at_ =>
      obtain rfl := approach_child_eq hname hat
      rw [hat] at h
      dsimp only at h
      cases hfind : d.find (d.destination p) name with
      | error e => simp only [hfind] at h; cases h
      | ok node =>
        have hfits := fits_of_find hfind
        rw [find_of_fits hfits] at h
        -- A file may be replaced, but not a directory.
        rcases hnode : d.node? (d.destination p ++ [name]) with _ | _ | _
        · rw [hnode] at h; cases h; exact ⟨⟨hat, hfits, by rw [hnode]; nofun⟩, rfl⟩
        · rw [hnode] at h; cases h; exact ⟨⟨hat, hfits, by rw [hnode]; nofun⟩, rfl⟩
        · rw [hnode] at h; cases h
  · rintro ⟨hadmits, rfl⟩
    have hfree := hadmits.free
    rw [hadmits.approach]
    dsimp only
    rw [find_of_fits hadmits.fits]
    rcases hnode : d.node? (d.destination p ++ [name]) with _ | _ | _
    · rfl
    · rfl
    · exact absurd hnode hfree

/-- The disk after a file with some contents has been moved. -/
def moved (d : Disk) (source target : Location) (bytes : Bytes) : Disk :=
  { d with nodes := d.nodes.erase source }.put target (.file bytes)

/-- Moving a file changes two locations. -/
theorem node?_moved (d : Disk) {source target : Location} (hsource : source ≠ [])
    (htarget : target ≠ []) (bytes : Bytes) (at_ : Location) :
    (d.moved source target bytes).node? at_
      = if at_ = target then some (.file bytes) else if at_ = source then none
        else d.node? at_ := by
  -- The root is no entry of the table, so nothing can be erased there.
  have herase : ({ d with nodes := d.nodes.erase source } : Disk).node? at_
      = if at_ = source then none else d.node? at_ := by
    cases at_ with
    | nil => rw [if_neg hsource.symm]; rfl
    | cons first rest => exact Table.get?_erase d.nodes source (first :: rest)
  rw [moved, node?_put _ htarget, herase]

/-- What can be read can be moved to where a file can be put. -/
theorem rename_child_iff {q : Path} {other : String} (hname : Path.IsName name)
    (hother : Path.IsName other) :
    d.rename (q.child other) (p.child name) = .ok d'
      ↔ d.Admits p name ∧ ∃ bytes, d.read (q.child other) = .ok bytes
        ∧ d' = d.moved (d.destination q ++ [other]) (d.destination p ++ [name]) bytes := by
  simp only [read_child_iff hother]
  unfold rename
  rw [Path.goal_child p hname, Path.goal_child q hother]
  constructor
  · intro h
    cases hat : d.approach (q.child other) with
    | error e => simp only [hat] at h; cases h
    | ok at_ =>
      cases hat' : d.approach (p.child name) with
      | error e => simp only [hat, hat'] at h; cases h
      | ok at_' =>
        obtain rfl := approach_child_eq hother hat
        obtain rfl := approach_child_eq hname hat'
        rw [hat, hat'] at h
        dsimp only at h
        cases hfind : d.find (d.destination q) other with
        | error e => simp only [hfind] at h; cases h
        | ok node =>
          cases hfind' : d.find (d.destination p) name with
          | error e => simp only [hfind, hfind'] at h; cases h
          | ok node' =>
            -- Both names are short enough, or they would not have been looked for.
            have hfits := fits_of_find hfind
            have hfits' := fits_of_find hfind'
            rw [find_of_fits hfits, find_of_fits hfits'] at h
            -- Of the things that can be moved only a file is moved here, and never onto a
            -- directory.
            rcases hnode : d.node? (d.destination q ++ [other]) with _ | ⟨bytes⟩ | _
            · rw [hnode] at h; cases h
            · rw [hnode] at h
              simp only [Bool.or_self, Bool.false_eq_true, if_false] at h
              split at h
              · cases h
              · next hfree =>
                cases h
                exact ⟨⟨hat', hfits', hfree⟩, bytes, ⟨rfl, hfits, rfl⟩, rfl⟩
            · rw [hnode] at h; cases h
  · rintro ⟨hadmits, bytes, ⟨hat, hfits, hnode⟩, rfl⟩
    rw [hat, hadmits.approach]
    dsimp only
    rw [find_of_fits hfits, find_of_fits hadmits.fits, hnode]
    simp only [Bool.or_self, Bool.false_eq_true, if_false, if_neg hadmits.free, moved]

/-! ### Directories of the working directory -/

variable {directory : String}

/-- A path starts somewhere if its text is not empty, not too long and has no character that ends
it. -/
theorem start_of_text {text : String} (htext : p.text = text) (hne : text ≠ "")
    (hnul : '\x00' ∉ text.toList) (hsize : text.utf8ByteSize ≤ longestPath) :
    d.start p = .ok (if p.isRooted then [] else d.home) := by
  unfold start
  rw [htext]
  simp [hne, hnul, Nat.not_lt.2 hsize]

/-- A directory named by one name is in the working directory. -/
theorem destination_single (h : Path.IsName directory) (d : Disk) :
    d.destination (.single directory) = d.home ++ [directory] := by
  rw [destination, Path.names_single h, Path.isRooted_single]
  exact if_neg h.2

theorem start_single (h : Path.IsPlain directory) : d.start (.single directory) = .ok d.home := by
  have htext : (Path.single directory).text = directory := by simp [Path.text, Path.single]
  rw [start_of_text htext h.isName.ne_empty h.nul (h.size.trans (by decide)), Path.isRooted_single]
  rfl

theorem start_child_single (h : Path.IsPlain directory) (hname : Path.IsPlain name) :
    d.start ((Path.single directory).child name) = .ok d.home := by
  have htext : ((Path.single directory).child name).text = directory ++ "/" ++ name := by
    rw [Path.child_single h.isName]
    apply String.toList_injective
    simp [Path.text]
  have hne : directory ++ "/" ++ name ≠ "" := fun heq => by
    simpa using congrArg String.length heq
  have hnul : '\x00' ∉ (directory ++ "/" ++ name).toList := by
    simp [h.nul, hname.nul]
  -- Two names and a slash are shorter than any path may be.
  have hsize : (directory ++ "/" ++ name).utf8ByteSize ≤ longestPath := by
    have hdirectory : directory.utf8ByteSize ≤ 255 := h.size
    have hname' : name.utf8ByteSize ≤ 255 := hname.size
    have hslash : "/".utf8ByteSize = 1 := rfl
    rw [String.utf8ByteSize_append, String.utf8ByteSize_append, longestPath]
    omega
  rw [start_of_text htext hne hnul hsize, Path.isRooted_child, Path.isRooted_single]
  rfl

/-- A directory of the working directory admits every plain name that no directory has. -/
theorem admits_single (h : Path.IsPlain directory) (hname : Path.IsPlain name)
    (hdir : d.node? (d.home ++ [directory]) = some .directory)
    (hfree : d.node? (d.home ++ [directory] ++ [name]) ≠ some .directory) :
    d.Admits (.single directory) name := by
  have hdest := destination_single h.isName d
  refine ⟨?_, hname.size, by rwa [hdest]⟩
  rw [approach, start_child_single h hname, Path.route_child _ hname.isName,
    Path.names_single h.isName, hdest]
  dsimp only
  rw [walk, enter, if_neg h.isName.2, find_of_fits h.size, hdir]
  rfl

/-- A directory of the working directory can be made where nothing is. -/
theorem createDirectories_single (h : Path.IsPlain directory)
    (hnode : d.node? (d.home ++ [directory]) = none) :
    d.createDirectories (.single directory) = (d.put (d.home ++ [directory]) .directory, none) := by
  have hgoal : (Path.single directory).goal = .entry directory false :=
    Path.goal_child ⟨[""]⟩ h.isName
  have happroach : d.approach (.single directory) = .ok d.home := by
    rw [approach, start_single h, Path.route, hgoal, Path.names_single h.isName]
    rfl
  have hcreate : d.createDirectory (.single directory)
      = .ok (d.put (d.home ++ [directory]) .directory) := by
    unfold createDirectory
    rw [happroach, hgoal]
    dsimp only
    rw [find_of_fits h.size, hnode]
  rw [createDirectories, Path.ancestors, Path.names_single h.isName]
  simp only [List.length_singleton, Path.ancestors.climb, createBelow, ensureDirectory, hcreate,
    outcome]

end Disk

end Covenant
