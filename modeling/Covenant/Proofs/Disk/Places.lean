import Covenant.Proofs.Disk
import Mathlib.Data.List.Infix

/-!
# Places of paths

A path has a place, which its names lead to whether or not there is anything (`Disk.destination`),
and on the way there it passes other places. Making the directories of a path puts directories where
it passes and nowhere else. It can pass its own place: `s/../s` does, and a directory made on the way
is then in the place of the file.

* `Disk.passed` are the places on the way, the start and the end among them.
* `Disk.node?_createDirectories` says that nothing changes anywhere else.
* `Disk.contains_of_vacant` says that a path leads to nothing if nothing stands in its place.
* `Disk.Alike` compares two disks that differ in the file of one place at most. A path that does not
  pass that place leads to the same on both (`Alike.approach`), and the same directories are made
  (`Alike.createDirectories`).
-/

namespace Covenant

namespace Path

variable {p q : Path} {name : String}

/-- What a path ends in is the last of its names. -/
theorem names_of_goal {slash : Bool} (h : p.goal = .entry name slash) :
    p.names = p.route ++ [name] ∧ name ≠ ".." := by
  have hlast : (p.pieces.filter (· != "")).getLast? = some name ∧ name ≠ "." ∧ name ≠ ".." := by
    unfold goal at h
    split at h
    · cases h
    · cases h
    · cases h
    · next last hdot hup heq =>
      cases h
      exact ⟨heq, fun hd => hdot (by rw [hd]), fun hu => hup (by rw [hu])⟩
  obtain ⟨hlast, hdot, hup⟩ := hlast
  obtain ⟨above, hpieces⟩ := List.getLast?_eq_some_iff.1 hlast
  have hblank : isBlank name = false := by
    have hmem : name ∈ p.pieces.filter (· != "") := by simp [hpieces]
    simp only [isBlank, Bool.or_eq_false_iff, beq_eq_false_iff_ne]
    exact ⟨by simpa using (List.mem_filter.1 hmem).2, hdot⟩
  -- Of the pieces that are not empty, those that are dots do not count as names.
  have hnames : p.names = (above.filter fun piece => !isBlank piece) ++ [name] := by
    have hcut : p.names = (p.pieces.filter (· != "")).filter fun piece => !isBlank piece := by
      rw [names, List.filter_filter]
      refine List.filter_congr fun piece _ => ?_
      by_cases hempty : piece = "" <;> simp [isBlank, hempty]
    rw [hcut, hpieces, List.filter_append]
    simp [hblank]
  refine ⟨?_, hup⟩
  rw [route, h]
  simp only [hnames, List.dropLast_concat]

/-- The way to what a path names is along its names. -/
theorem route_isPrefix (p : Path) : p.route <+: p.names := by
  unfold route
  split
  · exact List.prefix_refl _
  · exact List.dropLast_prefix _

/-- The paths above a path have its first names. -/
theorem names_of_mem_ancestors (h : q ∈ p.ancestors) :
    q.names <+: p.names ∧ q.isRooted = p.isRooted := by
  -- The number of steps up is that of the names, but each step is about any path.
  have climb : ∀ (n : Nat) (p : Path), q ∈ ancestors.climb n p →
      q.names <+: p.names ∧ q.isRooted = p.isRooted := by
    intro n
    induction n with
    | zero => exact fun p h => absurd h List.not_mem_nil
    | succ n ih =>
      intro p h
      rcases List.mem_cons.1 h with rfl | habove
      · exact ⟨List.prefix_refl _, rfl⟩
      · obtain ⟨hnames, hroot⟩ := ih p.parent habove
        rw [names_parent] at hnames
        rw [isRooted_parent] at hroot
        exact ⟨hnames.trans (List.dropLast_prefix _), hroot⟩
  exact climb p.names.length p h

/-- A path that names a file ends in the name, behind the names of the path above it. -/
theorem names_of_fileName? (h : p.fileName? = some name) :
    p.names = p.parent.names ++ [name] ∧ name ≠ ".." := by
  rw [fileName?, Option.filter_eq_some_iff] at h
  obtain ⟨hlast, hup⟩ := h
  obtain ⟨above, hnames⟩ := List.getLast?_eq_some_iff.1 hlast
  rw [names_parent, hnames, List.dropLast_concat]
  exact ⟨rfl, by simpa using hup⟩

end Path

namespace Disk

variable {d d' : Disk} {p q : Path} {name : String} {at_ other : Location}

/-! ### Places -/

/-- The place that the way along a path starts from. -/
def origin (d : Disk) (p : Path) : Location := if p.isRooted then [] else d.home

/-- The places that the way along a path leads through, from the first to the last. -/
def passed (d : Disk) (p : Path) : List Location :=
  p.names.inits.map fun front => front.foldl descend (d.origin p)

/-- A place is passed if some of the first names lead to it. -/
theorem mem_passed : at_ ∈ d.passed p
    ↔ ∃ front, front <+: p.names ∧ front.foldl descend (d.origin p) = at_ := by
  simp only [passed, List.mem_map, List.mem_inits]

theorem destination_eq (d : Disk) (p : Path) :
    d.destination p = p.names.foldl descend (d.origin p) := rfl

theorem origin_eq (hroot : q.isRooted = p.isRooted) : d.origin q = d.origin p := by
  rw [origin, origin, hroot]

/-- A path above another leads to a place that the other passes. -/
theorem destination_mem_passed (hnames : q.names <+: p.names) (hroot : q.isRooted = p.isRooted) :
    d.destination q ∈ d.passed p :=
  mem_passed.2 ⟨q.names, hnames, by rw [destination_eq, origin_eq hroot]⟩

/-- Nothing is passed on the way to a path above that is not passed by the path. -/
theorem passed_subset (hnames : q.names <+: p.names) (hroot : q.isRooted = p.isRooted) :
    d.passed q ⊆ d.passed p := by
  intro at_ hat
  obtain ⟨front, hfront, rfl⟩ := mem_passed.1 hat
  exact mem_passed.2 ⟨front, hfront.trans hnames, by rw [origin_eq hroot]⟩

theorem passed_of_home (h : d'.home = d.home) (p : Path) : d'.passed p = d.passed p := by
  rw [passed, passed, origin, origin, h]

theorem destination_of_home (h : d'.home = d.home) (p : Path) :
    d'.destination p = d.destination p := by
  rw [destination, destination, h]

/-- The place of a file is in the place of the directory above it. -/
theorem destination_of_fileName? (h : p.fileName? = some name) (d : Disk) :
    d.destination p = d.destination p.parent ++ [name] := by
  obtain ⟨hnames, hup⟩ := Path.names_of_fileName? h
  rw [destination_eq, hnames, List.foldl_concat, ← origin_eq p.isRooted_parent, ← destination_eq]
  exact if_neg hup

/-- The place of an entry is in the place of the directory. -/
theorem destination_child (hname : Path.IsName name) (d : Disk) (p : Path) :
    d.destination (p.child name) = d.destination p ++ [name] := by
  rw [destination_of_fileName? (Path.fileName?_child p hname), destination_parent_child d p hname]

theorem start_eq (h : d.start p = .ok at_) : at_ = d.origin p := by
  unfold start at h
  dsimp only at h
  split at h
  · cases h
  · split at h
    · cases h
    · split at h
      · cases h
      · cases h
        rfl

/-- The way to what a path names ends where the names on it lead. -/
theorem approach_eq (h : d.approach p = .ok at_) : at_ = p.route.foldl descend (d.origin p) := by
  unfold approach at h
  split at h
  · cases h
  · next first hfirst => rw [walk_eq h, start_eq hfirst]

/-- Where a path leads to an entry, the entry is in the place of the path. -/
theorem destination_of_goal {slash : Bool} (hgoal : p.goal = .entry name slash)
    (h : d.approach p = .ok at_) : d.destination p = at_ ++ [name] := by
  obtain ⟨hnames, hup⟩ := Path.names_of_goal hgoal
  rw [destination_eq, hnames, List.foldl_concat, ← approach_eq h]
  exact if_neg hup

/-! ### Paths that lead to nothing -/

/-- A walk to the end has entered the last name from where the others lead. -/
theorem walk_concat {first last : Location} {names : List String}
    (h : d.walk first (names ++ [name]) = .ok last) :
    ∃ above, d.walk first names = .ok above ∧ d.enter above name = .ok last := by
  induction names generalizing first with
  | nil =>
    refine ⟨first, rfl, ?_⟩
    rw [List.nil_append, walk] at h
    cases hnext : d.enter first name with
    | error e => rw [hnext] at h; cases h
    | ok next => rw [hnext] at h; exact h
  | cons step rest ih =>
    rw [List.cons_append, walk] at h
    cases hnext : d.enter first step with
    | error e => rw [hnext] at h; cases h
    | ok next =>
      rw [hnext] at h
      obtain ⟨above, hwalk, henter⟩ := ih h
      exact ⟨above, by rw [walk, hnext]; exact hwalk, henter⟩

/-- What is found under a name is what stands in its place. -/
theorem node?_of_find {directory : Location} {node : Option Node}
    (h : d.find directory name = .ok node) : d.node? (directory ++ [name]) = node := by
  unfold find at h
  split at h
  · cases h
  · exact Except.ok.inj h

/-- A name is entered where it is that of a directory. -/
theorem node?_of_enter (hup : name ≠ "..") {above : Location} (h : d.enter above name = .ok at_) :
    d.node? at_ = some .directory := by
  have hat := enter_eq h
  rw [descend, if_neg hup] at hat
  rw [enter, if_neg hup] at h
  split at h
  · cases h
  · next hfind =>
    rw [hat]
    exact node?_of_find hfind
  · cases h
  · cases h

/-- A path that names a file leads to nothing if there is nothing in its place. -/
theorem contains_of_vacant (hfile : p.fileName? = some name)
    (hvacant : d.node? (d.destination p) = none) : d.contains p = false := by
  unfold contains
  cases hat : d.approach p with
  | error e =>
    rw [resolve, hat]
    rfl
  | ok at_ =>
    cases hgoal : p.goal with
    | here =>
      -- The way goes on into the place itself, so there would be a directory.
      obtain ⟨hnames, hup⟩ := Path.names_of_fileName? hfile
      have hplace : at_ = d.destination p := by rw [approach_eq hat, Path.route, hgoal]; rfl
      unfold approach at hat
      split at hat
      · cases hat
      · rw [Path.route, hgoal] at hat
        dsimp only at hat
        rw [hnames] at hat
        obtain ⟨above, -, henter⟩ := walk_concat hat
        have hdir := node?_of_enter hup henter
        rw [hplace, hvacant] at hdir
        cases hdir
    | entry last slash =>
      -- The name is looked up in the place itself, where there is nothing.
      have hplace := destination_of_goal hgoal hat
      rw [hplace] at hvacant
      rw [resolve, hat, hgoal]
      dsimp only
      split
      · rfl
      · rfl
      · next hfind =>
        rw [node?_of_find hfind] at hvacant
        cases hvacant
      · next hfind =>
        rw [node?_of_find hfind] at hvacant
        cases hvacant

/-! ### Making directories -/

/-- A directory is made in the place of its path only. -/
theorem node?_createDirectory (h : d.createDirectory p = .ok d') (hat : at_ ≠ d.destination p) :
    d'.node? at_ = d.node? at_ := by
  unfold createDirectory at h
  split at h
  · cases h
  · cases h
  · next directory name slash happroach hgoal =>
    rw [destination_of_goal hgoal happroach] at hat
    split at h
    · cases h
    · cases h
    · cases h
      rw [node?_put d (location_ne_nil directory name), if_neg hat]

theorem node?_ensureDirectory (d : Disk) (hat : at_ ≠ d.destination p) :
    (d.ensureDirectory p).1.node? at_ = d.node? at_ := by
  unfold ensureDirectory
  split
  · split
    · rfl
    · rfl
  · unfold outcome
    split
    · next hcreate => exact node?_createDirectory hcreate hat
    · rfl

/-- Several are made in the places of their paths only, by induction on the paths. -/
theorem node?_createBelow (d : Disk) {paths : List Path}
    (hat : ∀ q ∈ paths, at_ ≠ d.destination q) :
    (d.createBelow paths).1.node? at_ = d.node? at_ := by
  induction paths generalizing d with
  | nil => rfl
  | cons q above ih =>
    have habove := ih d fun r hr => hat r (List.mem_cons_of_mem _ hr)
    unfold createBelow
    split
    · split
      · next next hbelow =>
        -- The working directory does not move, so the places are the same on the way.
        have hhome := (Extends.createBelow d above).home
        rw [hbelow] at habove hhome
        rw [node?_ensureDirectory next, habove]
        rw [destination_of_home hhome]
        exact hat q List.mem_cons_self
      · exact habove
    · exact node?_ensureDirectory d (hat q List.mem_cons_self)

/-- Making the directories of a path changes nothing where the path does not pass. -/
theorem node?_createDirectories (d : Disk) (hat : at_ ∉ d.passed p) :
    (d.createDirectories p).1.node? at_ = d.node? at_ := by
  refine node?_createBelow d fun q hq heq => hat ?_
  obtain ⟨hnames, hroot⟩ := Path.names_of_mem_ancestors hq
  rw [heq]
  exact destination_mem_passed hnames hroot

/-! ### Disks that differ in one file -/

/-- Two disks differ in one place at most, and neither has a directory there. -/
structure Alike (at_ : Location) (d d' : Disk) : Prop where
  home : d'.home = d.home
  same : ∀ other, other ≠ at_ → d'.nodes.get? other = d.nodes.get? other
  free : d.node? at_ ≠ some .directory
  free' : d'.node? at_ ≠ some .directory

namespace Alike

/-- What stands in any other place is the same. -/
theorem node? (h : Alike at_ d d') (hother : other ≠ at_) : d'.node? other = d.node? other := by
  cases other with
  | nil => rfl
  | cons first rest => exact h.same _ hother

theorem find (h : Alike at_ d d') {directory : Location} (hother : directory ++ [name] ≠ at_) :
    d'.find directory name = d.find directory name := by
  rw [Disk.find, Disk.find, h.node? hother]

/-- A name that does not lead to the place in question leads to the same. -/
theorem enter (h : Alike at_ d d') {directory : Location} (hother : descend directory name ≠ at_) :
    d'.enter directory name = d.enter directory name := by
  unfold Disk.enter
  by_cases hup : name = ".."
  · rw [if_pos hup, if_pos hup]
  · rw [descend, if_neg hup] at hother
    rw [if_neg hup, if_neg hup, h.find hother]

/-- A walk that does not come to the place ends alike on both. -/
theorem walk (h : Alike at_ d d') {first : Location} {names : List String}
    (hother : ∀ front, front <+: names → front.foldl descend first ≠ at_) :
    d'.walk first names = d.walk first names := by
  induction names generalizing first with
  | nil => rfl
  | cons step rest ih =>
    have hstep : descend first step ≠ at_ := hother [step] ⟨rest, rfl⟩
    rw [Disk.walk, Disk.walk, h.enter hstep]
    cases hnext : d.enter first step with
    | error e => rfl
    | ok next =>
      refine ih fun front hfront => ?_
      rw [enter_eq hnext]
      exact hother (step :: front) (List.cons_prefix_cons.2 ⟨rfl, hfront⟩)

/-- Only the places on the way count, so the last name of a path may lead to the place. -/
theorem approach_of_route (h : Alike at_ d d')
    (hother : ∀ front, front <+: p.route → front.foldl descend (d.origin p) ≠ at_) :
    d'.approach p = d.approach p := by
  -- Where a path starts depends on the working directory only.
  have hstart : d'.start p = d.start p := by
    unfold start
    rw [h.home]
  unfold Disk.approach
  rw [hstart]
  cases hfirst : d.start p with
  | error e => rfl
  | ok first =>
    rw [← start_eq hfirst] at hother
    exact h.walk hother

/-- A path that does not pass the place in question leads to the same place on both disks. -/
theorem approach (h : Alike at_ d d') (hat : at_ ∉ d.passed p) : d'.approach p = d.approach p :=
  h.approach_of_route fun front hfront heq =>
    hat (mem_passed.2 ⟨front, hfront.trans p.route_isPrefix, heq⟩)

theorem destination_ne (hat : at_ ∉ d.passed p) : d.destination p ≠ at_ := by
  rintro rfl
  exact hat (destination_mem_passed (List.prefix_refl _) rfl)

/-- A path that does not pass the place names the same thing on both. -/
theorem resolve (h : Alike at_ d d') (hat : at_ ∉ d.passed p) : d'.resolve p = d.resolve p := by
  unfold Disk.resolve
  rw [h.approach hat]
  cases happroach : d.approach p with
  | error e => rfl
  | ok directory =>
    cases hgoal : p.goal with
    | here => rfl
    | entry name slash =>
      have hplace := destination_ne hat
      rw [destination_of_goal hgoal happroach] at hplace
      dsimp only
      rw [h.find hplace]

/-- What is put elsewhere is put on both. -/
theorem put (h : Alike at_ d d') (hother : other ≠ at_) (node : Node) :
    Alike at_ (d.put other node) (d'.put other node) := by
  -- No directory comes into the place in question by something that is put elsewhere.
  have hstays : ∀ e : Disk, e.node? at_ ≠ some .directory →
      (e.put other node).node? at_ ≠ some .directory := by
    intro e hfree
    cases at_ with
    | nil => exact hfree
    | cons first rest =>
      have hget : (e.put other node).node? (first :: rest) = e.node? (first :: rest) :=
        (Table.get?_insert e.nodes other (first :: rest) node).trans (if_neg hother.symm)
      rw [hget]
      exact hfree
  refine ⟨h.home, fun location hlocation => ?_, hstays d h.free, hstays d' h.free'⟩
  show (d'.nodes.insert other node).get? location = (d.nodes.insert other node).get? location
  rw [Table.get?_insert, Table.get?_insert, h.same location hlocation]

/-- With the same file in the place in question the disks are the same. -/
theorem put_eq (h : Alike at_ d d') (node : Node) : d'.put at_ node = d.put at_ node := by
  have hnodes : d'.nodes.insert at_ node = d.nodes.insert at_ node := by
    refine Table.ext_get? fun location => ?_
    rw [Table.get?_insert, Table.get?_insert]
    split
    · rfl
    · next hlocation => exact h.same location hlocation
  rw [Disk.put, Disk.put, hnodes, h.home]

/-- A directory is made on both disks, or on neither for the same reason. -/
theorem createDirectory (h : Alike at_ d d') (hat : at_ ∉ d.passed p) :
    (∃ e, d.createDirectory p = .error e ∧ d'.createDirectory p = .error e)
      ∨ ∃ next next', d.createDirectory p = .ok next ∧ d'.createDirectory p = .ok next'
        ∧ Alike at_ next next' := by
  unfold Disk.createDirectory
  rw [h.approach hat]
  cases happroach : d.approach p with
  | error e => exact Or.inl ⟨e, rfl, rfl⟩
  | ok directory =>
    cases hgoal : p.goal with
    | here => exact Or.inl ⟨.exists_, rfl, rfl⟩
    | entry name slash =>
      have hplace := destination_ne hat
      rw [destination_of_goal hgoal happroach] at hplace
      dsimp only
      rw [h.find hplace]
      rcases d.find directory name with e | _ | node
      · exact Or.inl ⟨e, rfl, rfl⟩
      · exact Or.inr ⟨_, _, rfl, rfl, h.put hplace .directory⟩
      · exact Or.inl ⟨.exists_, rfl, rfl⟩

/-- That a directory is there already is seen on both in the same way. -/
theorem ensureDirectory (h : Alike at_ d d') (hat : at_ ∉ d.passed p) :
    (d'.ensureDirectory p).2 = (d.ensureDirectory p).2
      ∧ Alike at_ (d.ensureDirectory p).1 (d'.ensureDirectory p).1 := by
  have hdir : d'.hasDirectory p = d.hasDirectory p := by
    rw [hasDirectory, hasDirectory, h.resolve hat]
  unfold Disk.ensureDirectory
  rw [hdir]
  rcases h.createDirectory hat with ⟨e, hleft, hright⟩ | ⟨next, next', hleft, hright, hnext⟩
  · rw [hleft, hright]
    -- Only a failure of that kind is passed over, and only where there is a directory.
    by_cases hexists : e = .exists_
    · subst hexists
      cases d.hasDirectory p with
      | true => exact ⟨rfl, h⟩
      | false => exact ⟨rfl, h⟩
    · split
      · next heq => exact absurd (Except.error.inj heq) hexists
      · exact ⟨rfl, h⟩
  · rw [hleft, hright]
    exact ⟨rfl, hnext⟩

/-- Several directories are made alike, by induction on the paths. -/
theorem createBelow (h : Alike at_ d d') {paths : List Path}
    (hat : ∀ q ∈ paths, at_ ∉ d.passed q) :
    (d'.createBelow paths).2 = (d.createBelow paths).2
      ∧ Alike at_ (d.createBelow paths).1 (d'.createBelow paths).1 := by
  induction paths with
  | nil => exact ⟨rfl, h⟩
  | cons q above ih =>
    obtain ⟨hresult, hdisks⟩ := h.ensureDirectory (hat q List.mem_cons_self)
    obtain ⟨hresult', hdisks'⟩ := ih fun r hr => hat r (List.mem_cons_of_mem _ hr)
    have hhome := (Extends.createBelow d above).home
    unfold Disk.createBelow
    generalize d.ensureDirectory q = left, d'.ensureDirectory q = right at hresult hdisks ⊢
    generalize d.createBelow above = below, d'.createBelow above = below'
      at hresult' hdisks' hhome ⊢
    obtain ⟨next, result⟩ := left
    obtain ⟨next', _⟩ := right
    obtain ⟨below, result'⟩ := below
    obtain ⟨below', _⟩ := below'
    cases hresult
    cases hresult'
    -- The directories above are made where there is no entry, and then the last one again.
    by_cases hnone : result = some .noEntry
    · subst hnone
      cases result' with
      | none =>
        refine hdisks'.ensureDirectory ?_
        rw [passed_of_home hhome]
        exact hat q List.mem_cons_self
      | some e => exact ⟨rfl, hdisks'⟩
    · split
      · next heq => exact absurd (congrArg Prod.snd heq) hnone
      · split
        · next heq => exact absurd (congrArg Prod.snd heq) hnone
        · exact ⟨rfl, hdisks⟩

/-- The same directories are made on both disks, with the same outcome. -/
theorem createDirectories (h : Alike at_ d d') (hat : at_ ∉ d.passed p) :
    (d'.createDirectories p).2 = (d.createDirectories p).2
      ∧ Alike at_ (d.createDirectories p).1 (d'.createDirectories p).1 := by
  refine h.createBelow fun q hq hmem => hat ?_
  obtain ⟨hnames, hroot⟩ := Path.names_of_mem_ancestors hq
  exact passed_subset hnames hroot hmem

/-- A file that is written to the place in question makes the disks the same. -/
theorem write (hname : Path.IsName name) (h : Alike (d.destination p ++ [name]) d d')
    (hat : d.destination p ++ [name] ∉ d.passed p) (bytes : Bytes) :
    d'.write (p.child name) bytes = d.write (p.child name) bytes := by
  have happroach : d'.approach (p.child name) = d.approach (p.child name) := by
    refine h.approach_of_route fun front hfront heq => hat ?_
    rw [Path.route_child p hname] at hfront
    rw [origin_eq (Path.isRooted_child p name)] at heq
    exact mem_passed.2 ⟨front, hfront, heq⟩
  unfold Disk.write fileLocation
  rw [happroach, Path.goal_child p hname]
  cases hdirectory : d.approach (p.child name) with
  | error e => rfl
  | ok directory =>
    obtain rfl := approach_child_eq hname hdirectory
    dsimp only
    unfold Disk.find
    by_cases hfits : longestName < name.utf8ByteSize
    · rw [if_pos hfits, if_pos hfits]
    · rw [if_neg hfits, if_neg hfits]
      -- What stands there, a file or nothing, is replaced on both.
      rcases hleft : d.node? (d.destination p ++ [name]) with _ | _ | _
      · rcases hright : d'.node? (d.destination p ++ [name]) with _ | _ | _
        · exact congrArg Except.ok (h.put_eq _)
        · exact congrArg Except.ok (h.put_eq _)
        · exact absurd hright h.free'
      · rcases hright : d'.node? (d.destination p ++ [name]) with _ | _ | _
        · exact congrArg Except.ok (h.put_eq _)
        · exact congrArg Except.ok (h.put_eq _)
        · exact absurd hright h.free'
      · exact absurd hleft h.free

end Alike

end Disk

end Covenant
