import Covenant.Proofs.Disk.Places
import Covenant.Proofs.Store.Sessions

/-!
# Insertions that do not come to their end

An insertion binds its key in memory, and then brings the file up to date in three steps: the
directories are made, the staging file is written, and it is moved over the file. Any of them can
fail, and what it leaves then is known only in part: some of the directories, or a staging file with
anything in it. But the file itself is left alone until the last step, which is done as a whole or not
at all.

So the file and the store in memory go apart: the file keeps what it kept, and the store has the new
binding. They are the same again after the next insertion that goes right, which writes all bindings,
or when the store is opened again, which loses those that were not written.

* `Disk.Stops` are the ways in which steps can come to a stop; those of `Disk.runSteps` are among
  them (`Disk.stops_of_runSteps`).
* `Disk.Spares` says that the file of a path is left alone, and `FileStore.spares_of_stops` that an
  insertion that comes to a stop does that.
* `FileStore.Course` is what can happen to a store, with what the file keeps and with the bindings
  that only memory has; `Course.holds` is what stays true.
* `FileStore.memory_is_file_with_failed_insertions` is about the two.
-/

namespace Covenant

/-- What a step leaves that has not come to its end. Of the directories of a path some have been made,
and a file has been written with anything in it, or not at all. A file is not moved in part. -/
inductive DiskStep.Partly (d : Disk) : DiskStep → Disk → Prop where
  | made {p : Path} {d' : Disk} (directories : Disk.Extends [] d d')
      (only : ∀ at_, at_ ∉ d.passed p → d'.node? at_ = d.node? at_) :
      Partly d (.createDirectories p) d'
  | unwritten {p : Path} {bytes : Bytes} : Partly d (.write p bytes) d
  | written {p : Path} {bytes part : Bytes} {d' : Disk} (h : d.write p part = .ok d') :
      Partly d (.write p bytes) d'
  | unmoved {source target : Path} : Partly d (.rename source target) d

/-- What steps leave when one of them does not come to its end. -/
inductive Disk.Stops : Disk → List DiskStep → Disk → Prop where
  | here {d d' : Disk} {step : DiskStep} {rest : List DiskStep} (h : step.Partly d d') :
      Stops d (step :: rest) d'
  | later {d d₁ d' : Disk} {step : DiskStep} {rest : List DiskStep}
      (done : step.run d = (d₁, none)) (h : Stops d₁ rest d') : Stops d (step :: rest) d'

variable {d d' d₀ : Disk} {path : Path} {name : String} {c kept : Store} {s s' : FileStore}
  {bytes : Bytes}

/-! ### Steps that stop -/

theorem DiskStep.partly_createDirectories (d : Disk) (p : Path) :
    (DiskStep.createDirectories p).Partly d (d.createDirectories p).1 :=
  .made (.createDirectories d p) fun _ hat => Disk.node?_createDirectories d hat

/-- A step that fails has not come to its end. -/
theorem DiskStep.partly_of_run {step : DiskStep} {e : DiskError}
    (h : step.run d = (d', some e)) : step.Partly d d' := by
  -- Writing and moving leave the disk as it was when they fail.
  have houtcome : ∀ r : Except DiskError Disk, d.outcome r = (d', some e) → d = d' := by
    intro r hr
    cases r with
    | error cause => cases hr; rfl
    | ok next => cases hr
  cases step with
  | createDirectories p =>
    have hmade := partly_createDirectories d p
    rw [run] at h
    rwa [h] at hmade
  | write p bytes =>
    obtain rfl := houtcome _ h
    exact .unwritten
  | rename source target =>
    obtain rfl := houtcome _ h
    exact .unmoved

/-- Steps of which one fails come to a stop there. -/
theorem Disk.stops_of_runSteps {steps : List DiskStep} {e : DiskError}
    (h : d.runSteps steps = (d', some e)) : d.Stops steps d' := by
  induction steps generalizing d with
  | nil => cases h
  | cons step rest ih =>
    rw [runSteps] at h
    rcases hrun : step.run d with ⟨d₁, _ | cause⟩
    · rw [hrun] at h
      exact .later hrun (ih h)
    · rw [hrun] at h
      cases h
      exact .here (DiskStep.partly_of_run hrun)

/-! ### Files that are left alone -/

/-- The path names a file, nothing stands in its place, and the way there does not pass that
place. -/
structure Disk.Fresh (d : Disk) (path : Path) : Prop where
  isFile : ∃ name, path.fileName? = some name
  vacant : d.node? (d.destination path) = none
  aside : d.destination path ∉ d.passed path.parent

/-- There is a file at the path, or the path is fresh. -/
def Disk.Settled (d : Disk) (path : Path) : Prop :=
  (∃ bytes, d.read path = .ok bytes) ∨ d.Fresh path

/-- A file that is at the path stays as it is, and nothing is put in the place of one that is not. -/
structure Disk.Spares (path : Path) (d d' : Disk) : Prop where
  home : d'.home = d.home
  file : ∀ bytes, d.read path = .ok bytes → d'.read path = .ok bytes
  vacant : d.node? (d.destination path) = none → d'.node? (d.destination path) = none

theorem Disk.Spares.refl (path : Path) (d : Disk) : d.Spares path d :=
  ⟨rfl, fun _ h => h, fun h => h⟩

/-- What is left alone by two changes in turn is left alone by both. -/
theorem Disk.Spares.trans {d₁ : Disk} (h : Disk.Spares path d d₁) (h' : Disk.Spares path d₁ d') :
    Disk.Spares path d d' where
  home := h'.home.trans h.home
  file bytes hread := h'.file bytes (h.file bytes hread)
  vacant hnone := by
    have hnone' := h'.vacant
    rw [Disk.destination_of_home h.home] at hnone'
    exact hnone' (h.vacant hnone)

/-- A path stays settled as long as its file is left alone. -/
theorem Disk.Spares.settled (h : Disk.Spares path d d') (hsettled : d.Settled path) :
    d'.Settled path := by
  rcases hsettled with ⟨bytes, hread⟩ | hfresh
  · exact Or.inl ⟨bytes, h.file bytes hread⟩
  · -- The place and the way to it are told from the names, so they are the same.
    refine Or.inr ⟨hfresh.isFile, ?_, ?_⟩
    · rw [Disk.destination_of_home h.home]
      exact h.vacant hfresh.vacant
    · rw [Disk.destination_of_home h.home, Disk.passed_of_home h.home]
      exact hfresh.aside

/-- A file that can be read is an entry of a directory. -/
theorem Disk.exists_child_of_read (h : d.read path = .ok bytes) :
    ∃ p name, Path.IsName name ∧ path = Path.child p name := by
  have hgoal : ∃ name, path.goal = .entry name false := by
    unfold read resolve at h
    cases happroach : d.approach path with
    | error e => rw [happroach] at h; cases h
    | ok directory =>
      cases hgoal : path.goal with
      | here => rw [happroach, hgoal] at h; cases h
      | entry name slash =>
        cases slash with
        | false => exact ⟨name, rfl⟩
        | true =>
          -- A slash asks for a directory, and a directory is not read.
          rw [happroach, hgoal] at h
          dsimp only at h
          rcases hfind : d.find directory name with e | _ | _ | _
          · rw [hfind] at h; cases h
          · rw [hfind] at h; cases h
          · rw [hfind] at h; cases h
          · rw [hfind] at h; cases h
  obtain ⟨name, hgoal⟩ := hgoal
  obtain ⟨hname, p, hpath⟩ := Path.exists_child_of_goal hgoal
  exact ⟨p, name, hname, hpath⟩

/-- What is read stands in the place of the path. -/
theorem Disk.node?_of_read (h : d.read path = .ok bytes) :
    d.node? (d.destination path) = some (.file bytes) := by
  obtain ⟨p, name, hname, rfl⟩ := Disk.exists_child_of_read h
  rw [Disk.destination_child hname]
  exact ((Disk.read_child_iff hname).1 h).2.2

theorem Disk.Settled.isFile (h : d.Settled path) : ∃ name, path.fileName? = some name := by
  rcases h with ⟨bytes, hread⟩ | hfresh
  · obtain ⟨p, name, hname, rfl⟩ := Disk.exists_child_of_read hread
    exact ⟨name, Path.fileName?_child p hname⟩
  · exact hfresh.isFile

/-- What leaves the place of a path alone and takes no directory away leaves the file alone. -/
theorem Disk.spares_of_extends {touched : List Location} (hext : Disk.Extends touched d d')
    (hat : d.destination path ∉ touched)
    (hvacant : d.node? (d.destination path) = none → d'.node? (d.destination path) = none) :
    d.Spares path d' := by
  refine ⟨hext.home, fun bytes hread => ?_, hvacant⟩
  obtain ⟨p, name, hname, rfl⟩ := Disk.exists_child_of_read hread
  rw [Disk.destination_child hname] at hat
  exact hext.read hname hat hread

namespace FileStore

/-! ### Opening -/

/-- What is opened at a path is kept at that path. -/
theorem load_eq (h : load d path = .ok s) : s = ⟨path, s.contents⟩ := by
  unfold load at h
  split at h
  · split at h
    · cases h
    · next text _ =>
      cases hcontents : Store.ofText path.text text with
      | error e => rw [hcontents] at h; cases h
      | ok contents => rw [hcontents] at h; cases h; rfl
  · cases h
    rfl

/-- A file with the same contents is opened as the same store. -/
theorem load_of_read_eq (h : d.read path = .ok bytes) (h' : d'.read path = .ok bytes) :
    load d' path = load d path := by
  have hcontains : ∀ e : Disk, e.read path = .ok bytes → e.contains path = true := by
    intro e hread
    unfold Disk.read at hread
    unfold Disk.contains
    cases hresolve : e.resolve path with
    | error cause => rw [hresolve] at hread; cases hread
    | ok node => rfl
  rw [load, load, hcontains d h, hcontains d' h', Disk.readText, Disk.readText, h, h']

/-- At a fresh path an empty store is opened. -/
theorem load_of_fresh (h : d.Fresh path) : load d path = .ok ⟨path, ∅⟩ := by
  obtain ⟨name, hfile⟩ := h.isFile
  rw [load, Disk.contains_of_vacant hfile h.vacant]
  rfl

/-- Opening a path gives a store, and the path is settled. -/
structure Holds (d : Disk) (path : Path) (c : Store) : Prop where
  opens : load d path = .ok ⟨path, c⟩
  settled : d.Settled path

/-- What opening gives does not change while the file is left alone. -/
theorem Holds.spares (hold : Holds d path c) (h : d.Spares path d') : Holds d' path c := by
  refine ⟨?_, h.settled hold.settled⟩
  rcases hold.settled with ⟨bytes, hread⟩ | hfresh
  · rw [load_of_read_eq hread (h.file bytes hread)]
    exact hold.opens
  · have hempty := hold.opens
    rw [load_of_fresh hfresh] at hempty
    cases hempty
    rcases h.settled hold.settled with ⟨bytes, hread⟩ | hfresh'
    · -- There is still nothing in the place of the file.
      have hnode := Disk.node?_of_read hread
      rw [Disk.destination_of_home h.home, h.vacant hfresh.vacant] at hnode
      cases hnode
    · exact load_of_fresh hfresh'

/-! ### An insertion that stops -/

/-- The staging file is beside the file. -/
theorem staging_eq (hfile : path.fileName? = some name) (c : Store) :
    staging ⟨path, c⟩ = path.parent.child (name ++ ".tmp") := by
  rw [staging, Path.beside, hfile]

theorem append_ne_self (name : String) : name ++ ".tmp" ≠ name := by
  intro heq
  have hlength := congrArg String.length heq
  rw [String.length_append] at hlength
  have : ".tmp".length = 4 := rfl
  omega

/-- The staging file is not in the place of the file. -/
theorem destination_ne_staging (hfile : path.fileName? = some name) (d : Disk) :
    d.destination path ≠ d.destination path.parent ++ [name ++ ".tmp"] := by
  rw [Disk.destination_of_fileName? hfile]
  intro heq
  have hlast : name = name ++ ".tmp" := List.singleton_inj.1 (List.append_cancel_left heq)
  exact append_ne_self name hlast.symm

/-- Making directories leaves the file alone, even if only some of them are made. -/
theorem spares_of_made (hsettled : d.Settled path)
    (h : (DiskStep.createDirectories path.parent).Partly d d') : d.Spares path d' := by
  cases h with
  | made directories only =>
    refine Disk.spares_of_extends directories List.not_mem_nil fun hnone => ?_
    -- A fresh path does not pass its own place, so no directory is made there.
    rcases hsettled with ⟨bytes, hread⟩ | hfresh
    · rw [Disk.node?_of_read hread] at hnone
      cases hnone
    · rw [only _ hfresh.aside, hnone]

/-- Writing the staging file leaves the file alone. -/
theorem spares_of_write (hfile : path.fileName? = some name)
    (h : d.write (path.parent.child (name ++ ".tmp")) bytes = .ok d') : d.Spares path d' := by
  obtain ⟨hadmits, rfl⟩ := (Disk.write_child_iff (isName_staging name)).1 h
  have hne := destination_ne_staging hfile d
  have hput := Disk.Extends.put (Disk.location_ne_nil _ _) hadmits.free (.file bytes)
  refine Disk.spares_of_extends hput (by rwa [List.mem_singleton]) fun hnone => ?_
  rw [Disk.node?_put d (Disk.location_ne_nil _ _), if_neg hne, hnone]

/-- The file is left alone by an insertion that does not come to its end, wherever it stops. -/
theorem spares_of_stops (hsettled : d.Settled path)
    (h : d.Stops (flushSteps ⟨path, c⟩) d') : d.Spares path d' := by
  obtain ⟨name, hfile⟩ := hsettled.isFile
  rw [flushSteps, staging_eq hfile] at h
  -- There are three steps, and it may stop in each. The last is done as a whole or not at all.
  cases h with
  | here hmade => exact spares_of_made hsettled hmade
  | later hdone h =>
    have hmade := DiskStep.partly_createDirectories d path.parent
    rw [DiskStep.run] at hdone
    rw [hdone] at hmade
    refine (spares_of_made hsettled hmade).trans ?_
    cases h with
    | here hstaged =>
      cases hstaged with
      | unwritten => exact .refl path _
      | written hwrite => exact spares_of_write hfile hwrite
    | later hdone h =>
      refine (spares_of_write hfile (Disk.run_write.1 hdone)).trans ?_
      cases h with
      | here hmoved =>
        cases hmoved with
        | unmoved => exact .refl path _
      | later _ h => cases h

/-- The store that is written by an insertion that comes to its end is what the file holds. -/
theorem holds_of_runSteps (h : d.runSteps (flushSteps ⟨path, c⟩) = (d', none)) :
    Holds d' path c := by
  obtain ⟨htext, hopens, -⟩ := load_of_runSteps h
  refine ⟨hopens, Or.inl ?_⟩
  cases hread : d'.read path with
  | error e => rw [Disk.readText, hread] at htext; cases htext
  | ok bytes => exact ⟨bytes, rfl⟩

/-! ### What happens to a store -/

/-- An insertion comes to its end if its steps do, and memory has the binding then. -/
theorem insert_ok_iff {key : String} {value : Bytes} :
    insert ⟨path, c⟩ d key value = (s', d', .ok ())
      ↔ s' = ⟨path, c.insert key value⟩ ∧ d.runSteps (flushSteps s') = (d', none) := by
  unfold insert
  dsimp only
  rcases hsteps : d.runSteps (flushSteps ⟨path, c.insert key value⟩) with ⟨after, _ | e⟩
  · constructor
    · intro h
      cases h
      exact ⟨rfl, hsteps⟩
    · rintro ⟨rfl, hsteps'⟩
      rw [hsteps] at hsteps'
      cases hsteps'
      rfl
  · constructor
    · intro h
      cases h
    · rintro ⟨rfl, hsteps'⟩
      rw [hsteps] at hsteps'
      cases hsteps'

/-- An insertion that is refused has its binding in memory, and its steps have come to a stop. -/
theorem stops_of_insert {key : String} {value : Bytes} {e : StoreError}
    (h : insert ⟨path, c⟩ d key value = (s', d', .error e)) :
    s' = ⟨path, c.insert key value⟩ ∧ d.Stops (flushSteps s') d' := by
  unfold insert at h
  dsimp only at h
  rcases hsteps : d.runSteps (flushSteps ⟨path, c.insert key value⟩) with ⟨after, _ | cause⟩
  · rw [hsteps] at h
    cases h
  · rw [hsteps] at h
    cases h
    exact ⟨rfl, Disk.stops_of_runSteps hsteps⟩

/-- A store with bindings added in turn. -/
def bindAll (c : Store) (bindings : List (String × Bytes)) : Store :=
  bindings.foldl (fun c binding => c.insert binding.1 binding.2) c

/-- What can happen to a store that was opened at a path, with the disk as it is then. Beside them
stand the contents after the last insertion that came to its end, or from when the store was opened
first, and the bindings of those that have failed since. -/
inductive Course (path : Path) (d₀ : Disk) :
    FileStore → Disk → Store → List (String × Bytes) → Prop where
  | opened {s : FileStore} (h : load d₀ path = .ok s) : Course path d₀ s d₀ s.contents []
  | inserted {s s' : FileStore} {d d' : Disk} {kept : Store} {failed : List (String × Bytes)}
      {key : String} {value : Bytes} (before : Course path d₀ s d kept failed)
      (h : s.insert d key value = (s', d', .ok ())) : Course path d₀ s' d' s'.contents []
  /-- A step failed, for whatever reason. -/
  | failed {s : FileStore} {d d' : Disk} {kept : Store} {failed : List (String × Bytes)}
      {key : String} {value : Bytes} (before : Course path d₀ s d kept failed)
      (h : d.Stops (flushSteps ⟨path, s.contents.insert key value⟩) d') :
      Course path d₀ ⟨path, s.contents.insert key value⟩ d' kept (failed ++ [(key, value)])
  /-- The store is opened again, also after the program ended in the midst of an insertion. -/
  | reopened {s s' : FileStore} {d : Disk} {kept : Store} {failed : List (String × Bytes)}
      (before : Course path d₀ s d kept failed) (h : load d path = .ok s') :
      Course path d₀ s' d kept []
  /-- Others have changed the disk, but not the file. -/
  | elsewhere {s : FileStore} {d d' : Disk} {kept : Store} {failed : List (String × Bytes)}
      (before : Course path d₀ s d kept failed) (h : d.Spares path d') :
      Course path d₀ s d' kept failed

variable {failed : List (String × Bytes)}

/-- The file holds what was written last, and memory has the bindings that failed on top of it. -/
theorem Course.holds (course : Course path d₀ s d kept failed) (hsettled : d₀.Settled path) :
    Holds d path kept ∧ s = ⟨path, bindAll kept failed⟩ := by
  induction course with
  | opened h =>
    have hs := load_eq h
    rw [hs] at h
    exact ⟨⟨h, hsettled⟩, hs⟩
  | inserted before h ih =>
    obtain ⟨-, rfl⟩ := ih
    obtain ⟨rfl, hsteps⟩ := insert_ok_iff.1 h
    exact ⟨holds_of_runSteps hsteps, rfl⟩
  | failed before h ih =>
    -- The file is left alone, and memory has one more binding.
    obtain ⟨hold, rfl⟩ := ih
    refine ⟨hold.spares (spares_of_stops hold.settled h), ?_⟩
    rw [bindAll, bindAll, List.foldl_concat]
  | reopened before h ih =>
    -- What only memory had is lost.
    obtain ⟨hold, -⟩ := ih
    rw [hold.opens] at h
    cases h
    exact ⟨hold, rfl⟩
  | elsewhere before h ih => exact ⟨ih.1.spares h, ih.2⟩

/-- **Memory is ahead of the file by the insertions that failed.** Let a store be opened at a path
where there is a file, or which is fresh, and let anything happen to it. Opening the path again would
give what the last insertion wrote that came to its end, and the store in memory has the bindings on
top of it that have failed since. An insertion that is refused leaves alone what opening the path
gives; in memory it binds its key all the same, which changes no answer only where the key was bound
to that value before. An insertion that is not refused makes the two the same again. -/
theorem memory_is_file_with_failed_insertions (course : Course path d₀ s d kept failed)
    (hsettled : d₀.Settled path) :
    load d path = .ok ⟨path, kept⟩ ∧ s = ⟨path, bindAll kept failed⟩
      ∧ ∀ key value s' d' result, s.insert d key value = (s', d', result) →
        s' = ⟨path, s.contents.insert key value⟩
          ∧ (∀ e, result = .error e → load d' path = load d path
            ∧ ((∀ k, s'.contents.get? k = s.contents.get? k) ↔ s.contents.get? key = some value))
          ∧ (result = .ok () → load d' path = .ok s') := by
  obtain ⟨hold, rfl⟩ := course.holds hsettled
  refine ⟨hold.opens, rfl, fun key value s' d' result hinsert => ?_⟩
  rcases result with e | ⟨⟨⟩⟩
  · obtain ⟨rfl, hstops⟩ := stops_of_insert hinsert
    have hspared := hold.spares (spares_of_stops hold.settled hstops)
    refine ⟨rfl, fun _ _ => ⟨hspared.opens.trans hold.opens.symm, ?_⟩, fun h => by cases h⟩
    -- All other keys have the values they had, so only this one matters.
    constructor
    · intro hsame
      rw [← hsame key, Table.get?_insert, if_pos rfl]
    · intro hbound k
      rw [Table.get?_insert]
      split
      · next heq => rw [heq, hbound]
      · rfl
  · obtain ⟨rfl, hsteps⟩ := insert_ok_iff.1 hinsert
    exact ⟨rfl, fun _ h => (by cases h), fun _ => (holds_of_runSteps hsteps).opens⟩

/-! ### A name that is too long -/

/-- A path that is a single name is fresh where there is no such entry. -/
theorem fresh_single (hname : Path.IsName name) (hnone : d.node? (d.home ++ [name]) = none) :
    d.Fresh (.single name) := by
  have hchild : Path.single name = Path.child ⟨[""]⟩ name := rfl
  have hplace : d.destination (.single name) = d.home ++ [name] :=
    Disk.destination_single hname d
  refine ⟨⟨name, ?_⟩, by rw [hplace, hnone], ?_⟩
  · rw [hchild]
    exact Path.fileName?_child _ hname
  · have hnames : (Path.single name).parent.names = [] := by
      rw [Path.names_parent, Path.names_single hname]
      rfl
    rw [hplace, Disk.passed, hnames, Disk.origin, Path.isRooted_parent, Path.isRooted_single]
    simp

/-- A name of so many bytes. -/
def nameOfSize (n : Nat) : String := String.ofList (List.replicate n 'n')

theorem utf8ByteSize_nameOfSize (n : Nat) : (nameOfSize n).utf8ByteSize = n := by
  have hbytes : (Bytes.ofText (nameOfSize n)).length = n := by
    rw [nameOfSize, Bytes.ofText_ofList]
    induction n with
    | zero => rfl
    | succ n ih =>
      rw [List.replicate_succ, List.flatMap_cons, List.length_append, ih]
      exact Nat.add_comm 1 n
  exact hbytes

theorem isName_nameOfSize {n : Nat} (h : 2 < n) : Path.IsName (nameOfSize n) := by
  have hne : ∀ piece : String, piece.utf8ByteSize ≤ 2 → nameOfSize n ≠ piece := by
    intro piece hpiece heq
    rw [← heq, utf8ByteSize_nameOfSize] at hpiece
    omega
  refine ⟨?_, hne ".." (by decide)⟩
  simp [Path.isBlank, hne "" (by decide), hne "." (by decide)]

/-- A path that is a name of almost as many bytes as are allowed. -/
def longPath : Path := .single (nameOfSize 253)

theorem fresh_longPath : ({} : Disk).Fresh longPath :=
  fresh_single (isName_nameOfSize (by decide)) rfl

/-- An insertion under a long name is refused, as the name of the staging file is too long. -/
theorem insert_longPath (d : Disk) (c : Store) (key : String) (value : Bytes) :
    ∃ d' e, insert ⟨longPath, c⟩ d key value
      = (⟨longPath, c.insert key value⟩, d', .error e) := by
  rcases insert_or_refused d longPath c key value with
    ⟨s', d', e, hinsert, -⟩ | ⟨d', hinsert, -, -⟩
  · obtain ⟨rfl, -⟩ := stops_of_insert hinsert
    exact ⟨d', e, hinsert⟩
  · have hsteps := (insert_ok_iff.1 hinsert).2
    have hchild : longPath = Path.child ⟨[""]⟩ (nameOfSize 253) := rfl
    rw [hchild] at hsteps
    -- Had it come to its end, there would have been room for the staging file.
    obtain ⟨d₁, -, hfits, -⟩ :=
      (runSteps_flushSteps (isName_nameOfSize (by decide))).1 hsteps
    have hsize := hfits.staging.fits
    rw [String.utf8ByteSize_append, utf8ByteSize_nameOfSize] at hsize
    exact absurd hsize (by decide)

/-- In an empty directory a store is opened under a long name, and a key is bound. The insertion is
refused, but the key, which had no value, has one in memory then, and what is opened next does not
have it. -/
theorem refused_insertion_is_found_in_memory :
    load {} longPath = .ok ⟨longPath, ∅⟩
      ∧ ∃ s d e, insert ⟨longPath, ∅⟩ {} "k" [1] = (s, d, .error e)
        ∧ (∅ : Store).get? "k" = none ∧ s.contents.get? "k" = some [1]
        ∧ load d longPath = .ok ⟨longPath, ∅⟩ := by
  have hold : Holds {} longPath ∅ := ⟨load_of_fresh fresh_longPath, Or.inr fresh_longPath⟩
  obtain ⟨d, e, hinsert⟩ := insert_longPath {} ∅ "k" [1]
  have hspared := hold.spares (spares_of_stops hold.settled (stops_of_insert hinsert).2)
  exact ⟨hold.opens, _, d, e, hinsert, rfl, rfl, hspared.opens⟩

/-- Two insertions under a long name are refused one after the other. Memory has both bindings then,
and the file neither. -/
theorem two_refused_insertions_are_in_memory : ∃ d,
    Course longPath {} ⟨longPath, bindAll ∅ [("k", [1]), ("j", [2])]⟩ d ∅
        [("k", [1]), ("j", [2])]
      ∧ ({} : Disk).Settled longPath ∧ load d longPath = .ok ⟨longPath, ∅⟩ := by
  obtain ⟨d₁, e₁, hinsert₁⟩ := insert_longPath {} ∅ "k" [1]
  obtain ⟨d₂, e₂, hinsert₂⟩ := insert_longPath d₁ ((∅ : Store).insert "k" [1]) "j" [2]
  have hopened : Course longPath {} ⟨longPath, ∅⟩ {} ∅ [] :=
    .opened (load_of_fresh fresh_longPath)
  have hcourse := (hopened.failed (stops_of_insert hinsert₁).2).failed (stops_of_insert hinsert₂).2
  exact ⟨d₂, hcourse, Or.inr fresh_longPath,
    (memory_is_file_with_failed_insertions hcourse (Or.inr fresh_longPath)).1⟩

end FileStore

end Covenant
