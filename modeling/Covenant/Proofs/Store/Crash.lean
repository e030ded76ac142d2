import Covenant.Proofs.Store.Interruption

/-!
# Stores and crashes

A program can end in the midst of an insertion, between two steps or within one. Whatever is left then,
opening the path gives a store that was written as a whole: that of the last insertion that came to its
end, or that of the insertion in question if all its steps were done. Of the staging file that may be
left nothing is ever read. It is written over by the next insertion, and which answers a store gives
does not depend on it.

This is so for a path that passes neither its own place nor that of the staging file on the way. The
way along `s/../s` passes its own place, and making the directories of the path puts a directory
there.

* `FileStore.insert_of_alike` compares an insertion with a staging file left over and one without.
* `FileStore.crash_leaves_a_written_store` is about all that can happen to a store.
-/

namespace Covenant

variable {d d' d₀ : Disk} {path : Path} {name : String} {c kept : Store} {s : FileStore}
  {at_ : Location} {failed : List (String × Bytes)}

/-- The place of the staging file of a path. -/
def Disk.stagingPlace (d : Disk) (path : Path) : Location := d.destination (path.beside ".tmp")

/-- The staging file is in the directory of the file, with a longer name. -/
theorem Disk.stagingPlace_eq (hfile : path.fileName? = some name) (d : Disk) :
    d.stagingPlace path = d.destination path.parent ++ [name ++ ".tmp"] := by
  rw [stagingPlace, Path.beside, hfile]
  exact Disk.destination_child (FileStore.isName_staging name) d path.parent

namespace FileStore

/-! ### Staging files left over -/

/-- What bringing a file up to date comes to does not depend on a staging file that was left. If it
goes right, the disks are the same from then on. -/
theorem runSteps_of_alike (hfile : path.fileName? = some name) (hplace : at_ = d.stagingPlace path)
    (hat : at_ ∉ d.passed path) (h : Disk.Alike at_ d d') :
    d'.runSteps (flushSteps ⟨path, c⟩) = d.runSteps (flushSteps ⟨path, c⟩)
      ∨ ∃ next next' e, d.runSteps (flushSteps ⟨path, c⟩) = (next, some e)
        ∧ d'.runSteps (flushSteps ⟨path, c⟩) = (next', some e)
        ∧ next.home = d.home ∧ Disk.Alike at_ next next' := by
  have hparent : d.passed path.parent ⊆ d.passed path :=
    Disk.passed_subset (by rw [Path.names_parent]; exact List.dropLast_prefix _)
      path.isRooted_parent
  have haside : at_ ∉ d.passed path.parent := fun hmem => hat (hparent hmem)
  -- The directories are made alike. If they cannot be made, both stop here.
  obtain ⟨hresult, hdisks⟩ := h.createDirectories haside
  have hhome := (Disk.Extends.createDirectories d path.parent).home
  rw [flushSteps, staging_eq hfile, Disk.runSteps, Disk.runSteps, DiskStep.run, DiskStep.run]
  dsimp only
  generalize d.createDirectories path.parent = left, d'.createDirectories path.parent = right
    at hresult hdisks hhome ⊢
  obtain ⟨next, result⟩ := left
  obtain ⟨next', _⟩ := right
  cases hresult
  cases result with
  | some e => exact Or.inr ⟨next, next', e, rfl, rfl, hhome, hdisks⟩
  | none =>
    have hstaging : at_ = next.destination path.parent ++ [name ++ ".tmp"] := by
      rw [hplace, Disk.stagingPlace_eq hfile]
      exact congrArg (· ++ [name ++ ".tmp"]) (Disk.destination_of_home hhome path.parent).symm
    -- Writing puts the same bytes there on both disks, and from then on they are the same.
    have hwrite := Disk.Alike.write (isName_staging name) (hstaging ▸ hdisks)
      (by rw [← hstaging, Disk.passed_of_home hhome]; exact haside) (fileBytes ⟨path, c⟩)
    dsimp only
    rw [Disk.runSteps, Disk.runSteps, DiskStep.run, DiskStep.run, hwrite]
    cases next.write (path.parent.child (name ++ ".tmp")) (fileBytes ⟨path, c⟩) with
    | error e => exact Or.inr ⟨next, next', e, rfl, rfl, hhome, hdisks⟩
    | ok staged => exact Or.inl rfl

/-- Opening does not look at the staging file. -/
theorem load_of_alike (hat : at_ ∉ d.passed path) (h : Disk.Alike at_ d d') :
    load d' path = load d path := by
  rw [load, load, Disk.contains, Disk.contains, Disk.readText, Disk.readText, Disk.read, Disk.read,
    h.resolve hat]

/-- An insertion has the same answer with a staging file left over and without it. -/
theorem insert_of_alike (hfile : path.fileName? = some name) (hplace : at_ = d.stagingPlace path)
    (hat : at_ ∉ d.passed path) (h : Disk.Alike at_ d d') (key : String) (value : Bytes) :
    insert ⟨path, c⟩ d' key value = insert ⟨path, c⟩ d key value
      ∨ ∃ s next next' e, insert ⟨path, c⟩ d key value = (⟨path, s⟩, next, .error e)
        ∧ insert ⟨path, c⟩ d' key value = (⟨path, s⟩, next', .error e)
        ∧ next.home = d.home ∧ Disk.Alike at_ next next' := by
  unfold insert
  dsimp only
  rcases runSteps_of_alike (c := c.insert key value) hfile hplace hat h with
    heq | ⟨next, next', e, hleft, hright, hhome, hnext⟩
  · rw [heq]
    exact Or.inl rfl
  · rw [hleft, hright]
    exact Or.inr ⟨_, next, next', _, rfl, rfl, hhome, hnext⟩

/-- No sequence of uses tells whether a staging file was left. -/
theorem answers_of_alike (hfile : path.fileName? = some name) (hplace : at_ = d.stagingPlace path)
    (hat : at_ ∉ d.passed path) (h : Disk.Alike at_ d d') (uses : List StoreUse) :
    answers ⟨path, c⟩ d' uses = answers ⟨path, c⟩ d uses := by
  -- An insertion that fails leaves two disks that still differ in the staging file alone.
  induction uses generalizing d d' c with
  | nil => rfl
  | cons use rest ih =>
    cases use with
    | insert key value =>
      rw [answers, answers]
      rcases insert_of_alike (c := c) hfile hplace hat h key value with
        heq | ⟨s, next, next', e, hleft, hright, hhome, hnext⟩
      · rw [heq]
      · rw [hleft, hright]
        have hplace' : at_ = next.stagingPlace path := by
          rw [hplace]
          exact (Disk.destination_of_home hhome _).symm
        exact congrArg (StoreAnswer.refused e :: ·)
          (ih hplace' (by rwa [Disk.passed_of_home hhome]) hnext)
    | get key => exact congrArg (StoreAnswer.value (c.get? key) :: ·) (ih hplace hat h)
    | root => exact congrArg (StoreAnswer.root (Store.root c) :: ·) (ih hplace hat h)
    | reopen =>
      rw [answers, answers, load_of_alike hat h]
      cases hload : load d path with
      | error e => rfl
      | ok s =>
        rw [load_eq hload]
        exact congrArg (StoreAnswer.done :: ·) (ih hplace hat h)

/-- A change to the staging file leaves the file alone. -/
theorem spares_of_alike (hat : at_ ∉ d.passed path) (h : Disk.Alike at_ d d') :
    d.Spares path d' := by
  refine ⟨h.home, fun bytes hread => ?_, fun hnone => ?_⟩
  · rw [Disk.read, h.resolve hat]
    exact hread
  · rw [h.node? (Disk.Alike.destination_ne hat), hnone]

/-! ### Crashes -/

/-- Nothing that happens to a store changes where paths start. -/
theorem Course.home (course : Course path d₀ s d kept failed) (hsettled : d₀.Settled path) :
    d.home = d₀.home := by
  induction course with
  | opened h => rfl
  | inserted before h ih =>
    obtain ⟨-, rfl⟩ := before.holds hsettled
    obtain ⟨rfl, hsteps⟩ := insert_ok_iff.1 h
    obtain ⟨p, name, hname, rfl⟩ := exists_child_of_runSteps hsteps
    exact (runSteps_flushSteps_spec hname hsteps).1.home.trans ih
  | failed before h ih =>
    obtain ⟨hold, -⟩ := before.holds hsettled
    exact (spares_of_stops hold.settled h).home.trans ih
  | reopened before h ih => exact ih
  | elsewhere before h ih => exact h.home.trans ih

/-- **A crash leaves a store that was written as a whole.** Let a store be opened at a fresh path that
does not pass the place of its staging file on the way, and let anything happen to it. If the program
ends in the midst of an insertion, within a step or between two steps, opening the path gives the
contents after the last insertion that came to its end; if all steps were done, it gives those of the
insertion in question. Anything may be left in the staging file at any time: the same can happen to
the store then, and it gives the same answers. -/
theorem crash_leaves_a_written_store (hfresh : d₀.Fresh path)
    (hstaging : d₀.stagingPlace path ∉ d₀.passed path) :
    load d₀ path = .ok ⟨path, ∅⟩
      ∧ ∀ s d kept failed, Course path d₀ s d kept failed →
        (∀ key value d',
          (d.Stops (flushSteps ⟨path, s.contents.insert key value⟩) d' →
            load d' path = .ok ⟨path, kept⟩)
          ∧ (d.runSteps (flushSteps ⟨path, s.contents.insert key value⟩) = (d', none) →
            load d' path = .ok ⟨path, s.contents.insert key value⟩))
        ∧ ∀ d', Disk.Alike (d₀.stagingPlace path) d d' →
          Course path d₀ s d' kept failed ∧ ∀ uses, answers s d' uses = answers s d uses := by
  have hsettled : d₀.Settled path := Or.inr hfresh
  obtain ⟨name, hfile⟩ := hfresh.isFile
  refine ⟨load_of_fresh hfresh, fun s d kept failed course => ?_⟩
  obtain ⟨hold, hs⟩ := course.holds hsettled
  have hhome := course.home hsettled
  refine ⟨fun key value d' => ⟨fun hstops => ?_, fun hsteps => ?_⟩, fun d' halike => ?_⟩
  · exact (hold.spares (spares_of_stops hold.settled hstops)).opens
  · exact (holds_of_runSteps hsteps).opens
  · -- Places are told from the names, so they are those of the disk at first.
    have hat : d₀.stagingPlace path ∉ d.passed path := by rwa [Disk.passed_of_home hhome]
    have hplace : d₀.stagingPlace path = d.stagingPlace path :=
      (Disk.destination_of_home hhome _).symm
    refine ⟨course.elsewhere (spares_of_alike hat halike), fun uses => ?_⟩
    rw [hs]
    exact answers_of_alike hfile hplace hat halike uses

/-- A key is bound in a store whose directory did not exist. The program ends in the next insertion,
when the staging file holds one brace. Opening the path gives the first binding, with that staging
file and with any other. -/
theorem half_written_staging_file_is_ignored :
    let path : Path := (Path.single "state").child "s.json"
    let first := insert ⟨path, ∅⟩ {} "k" [1]
    let torn := first.2.1.put ["state", "s.json.tmp"] (.file [0x7b])
    ({} : Disk).Fresh path ∧ ({} : Disk).stagingPlace path ∉ ({} : Disk).passed path
      ∧ Course path {} first.1 first.2.1 first.1.contents []
      ∧ first.2.1.Stops (flushSteps ⟨path, first.1.contents.insert "j" [2]⟩) torn
      ∧ load torn path = .ok ⟨path, first.1.contents⟩ := by
  intro path first torn
  have hfresh : ({} : Disk).Fresh path := ⟨⟨"s.json", by decide⟩, by decide, by decide⟩
  have hstaging : ({} : Disk).stagingPlace path ∉ ({} : Disk).passed path := by decide
  have hinsert : insert ⟨path, ∅⟩ {} "k" [1] = (first.1, first.2.1, .ok ()) := by decide +kernel
  have hcourse : Course path {} first.1 first.2.1 first.1.contents [] :=
    (Course.opened (load_of_fresh hfresh)).inserted hinsert
  have hmade : (DiskStep.createDirectories path.parent).run first.2.1 = (first.2.1, none) := by
    decide +kernel
  have htorn : first.2.1.write (path.beside ".tmp") [0x7b] = .ok torn := by
    decide +kernel
  have hstops : first.2.1.Stops (flushSteps ⟨path, first.1.contents.insert "j" [2]⟩) torn :=
    .later hmade (.here (.written htorn))
  exact ⟨hfresh, hstaging, hcourse, hstops,
    (((crash_leaves_a_written_store hfresh hstaging).2 _ _ _ _ hcourse).1 "j" [2] torn).1 hstops⟩

/-- In an empty directory the path `s/../s` leads to nothing, and nothing stands in its place. If the
program ends when the first step of an insertion is done, the path cannot be opened again, as there is
a directory. An insertion at `s.tmp/../s` is refused for another reason if a staging file was left. -/
theorem path_through_its_own_files_is_spoiled :
    let path := Path.ofText "s/../s"
    let flush := flushSteps ⟨path, (∅ : Store).insert "k" [1]⟩
    let other := Path.ofText "s.tmp/../s"
    let littered := ({} : Disk).put ["s.tmp"] (.file [])
    (({} : Disk).contains path = false ∧ ({} : Disk).node? (({} : Disk).destination path) = none
        ∧ load {} path = .ok ⟨path, ∅⟩
        ∧ ∃ d, ({} : Disk).runSteps (flush.take 1) = (d, none)
          ∧ load d path = .error (.disk .isDirectory))
      ∧ (insert ⟨other, ∅⟩ {} "k" [1]).2.2 = .error (.disk .isDirectory)
      ∧ (insert ⟨other, ∅⟩ littered "k" [1]).2.2 = .error (.disk .notDirectory) := by
  intro path flush other littered
  exact ⟨⟨by decide, by decide, by decide, (({} : Disk).runSteps (flush.take 1)).1,
    by decide, by decide⟩, by decide, by decide⟩

end FileStore

end Covenant
