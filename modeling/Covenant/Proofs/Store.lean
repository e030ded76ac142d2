import Covenant.Proofs.Disk
import Covenant.Proofs.Json
import Covenant.Proofs.Word
import Covenant.Store.File

/-!
# Stores kept in files

A store is kept as the text of a JSON object, and comes back from it: the printer and the reader of
JSON agree on the object, every key is escaped and read back, and so are the digits of every value.

An insertion writes that text to a staging file and moves it over the file of the store. If all of it
goes right, the file holds the new contents, and apart from these two files the disk has what it had.

* `Store.ofText_toText` is the first part.
* `FileStore.runSteps_flushSteps` says when a write goes right and what it does then.
* `Disk.Writable` says that it would. It stays so from one write to the next, because only directories
  can be in the way of a file.
* `Disk.Keeps` says that a file of a directory keeps a store, where no file will do for an empty one.
* `FileStore.insert_cases` is about one insertion.
-/

namespace Covenant

namespace Store

/-- The object of a store has texts only. -/
theorem textual_toJson (s : Store) : s.toJson.Textual := by
  refine Json.textual_ofMembers fun member hmember => ?_
  obtain ⟨entry, -, rfl⟩ := List.mem_map.1 hmember
  exact Json.textual_ofText _

/-- Members are read back with their escapes undone. -/
theorem readMembers?_escape (texts : List (String × String)) :
    readMembers? (texts.map fun entry => (Json.escape entry.1, Json.ofText entry.2))
      = some texts := by
  induction texts with
  | nil => rfl
  | cons entry rest ih =>
    have hkey := Json.unescape?_escape entry.1
    have htext : (Json.ofText entry.2).text? = some entry.2 := Json.unescape?_escape entry.2
    simp only [List.map_cons, readMembers?, hkey, htext, ih]

/-- The object of a store is read as the digits of its values. -/
theorem readTexts?_toText (s : Store) : readTexts? s.toText = some (s.map Text.Hex.encode) := by
  -- The members of the object are those of the table of digits, in their order.
  have hmembers : s.toJson.members?
      = some ((s.map Text.Hex.encode).entries.map fun entry =>
          (Json.escape entry.1, Json.ofText entry.2)) := by
    show some (List.map _ (List.map _ s.entries)) = some (List.map _ (List.map _ s.entries))
    rw [List.map_map, List.map_map]
    rfl
  rw [readTexts?, toText, Json.parse?_renderPretty s.textual_toJson, Option.bind_some, hmembers,
    Option.bind_some, readMembers?_escape, Option.map_some, Table.ofList_entries]

/-- Digits are read back as the bytes they were made of. -/
theorem decodeValues_encode (entries : List (String × Bytes)) :
    decodeValues (entries.map fun entry => (entry.1, Text.Hex.encode entry.2)) = .ok entries := by
  induction entries with
  | nil => rfl
  | cons entry rest ih =>
    simp only [List.map_cons, decodeValues, Text.Hex.decode_encode, ih]
    rfl

/-- A store is read back from its text. -/
theorem ofText_toText (path : String) (s : Store) : ofText path s.toText = .ok s := by
  have hvalues : decodeValues (s.map Text.Hex.encode).entries = .ok s.entries :=
    decodeValues_encode s.entries
  rw [ofText, readTexts?_toText]
  simp only [hvalues]
  exact congrArg Except.ok (Table.ofList_entries s)

end Store

variable {d d' : Disk} {p : Path} {name : String} {c : Store} {bytes : Bytes}

/-! ### Writing a store -/

namespace Disk

theorem outcome_eq_none {r : Except DiskError Disk} : d.outcome r = (d', none) ↔ r = .ok d' := by
  cases r with
  | error e => simp [outcome]
  | ok next => simp [outcome]

theorem run_write {q : Path} :
    (DiskStep.write q bytes).run d = (d', none) ↔ d.write q bytes = .ok d' := outcome_eq_none

theorem run_rename {source target : Path} :
    (DiskStep.rename source target).run d = (d', none) ↔ d.rename source target = .ok d' :=
  outcome_eq_none

theorem runSteps_nil : d.runSteps [] = (d', none) ↔ d = d' := by
  rw [runSteps, Prod.mk.injEq, and_iff_left rfl]

/-- Steps go right if the first does and the others do after it. -/
theorem runSteps_cons {step : DiskStep} {rest : List DiskStep} :
    d.runSteps (step :: rest) = (d', none)
      ↔ ∃ d₁, step.run d = (d₁, none) ∧ d₁.runSteps rest = (d', none) := by
  rw [runSteps]
  rcases step.run d with ⟨d₁, _ | e⟩
  · simp
  · simp

end Disk

namespace FileStore

/-- The name of a staging file is not one of the names that mean a directory. -/
theorem isName_staging (name : String) : Path.IsName (name ++ ".tmp") := by
  have hlength : 4 ≤ (name ++ ".tmp").length := by
    rw [String.length_append]
    exact Nat.le_add_left 4 _
  have hne : ∀ piece : String, piece.length < 4 → name ++ ".tmp" ≠ piece := by
    rintro piece hpiece rfl
    omega
  refine ⟨?_, hne ".." (by decide)⟩
  simp [Path.isBlank, hne "" (by decide), hne "." (by decide)]

/-- The locations that a write of a store touches: that of its file, and that of the staging file. -/
def locations (d : Disk) (p : Path) (name : String) : List Location :=
  [d.destination p ++ [name], d.destination p ++ [name ++ ".tmp"]]

theorem locations_eq (h : Disk.Within d d') (p : Path) (name : String) :
    locations d' p name = locations d p name := by
  rw [locations, locations, h.destination]

/-- A directory has room for a file and for the staging file beside it. -/
structure Fits (d : Disk) (p : Path) (name : String) : Prop where
  file : d.Admits p name
  staging : d.Admits (p.child name).parent (name ++ ".tmp")

/-- Files do not take room away, as they can be replaced. -/
theorem Fits.of_within (h : Fits d p name) (hwithin : Disk.Within d d')
    (hback : Disk.Within d' d) : Fits d' p name :=
  ⟨h.file.of_within hwithin hback, h.staging.of_within hwithin hback⟩

theorem Fits.staging_free (h : Fits d p name) (hname : Path.IsName name) :
    d.node? (d.destination p ++ [name ++ ".tmp"]) ≠ some .directory := by
  have hfree := h.staging.free
  rwa [Disk.destination_parent_child d p hname] at hfree

/-- The disk after a staging file has been written and moved over a file. -/
def replaced (d : Disk) (p : Path) (name : String) (bytes : Bytes) : Disk :=
  (d.put (d.destination p ++ [name ++ ".tmp"]) (.file bytes)).moved
    (d.destination p ++ [name ++ ".tmp"]) (d.destination p ++ [name]) bytes

/-- A file that has been replaced has its new contents, and the staging file is gone. -/
theorem node?_replaced (d : Disk) (p : Path) (name : String) (bytes : Bytes) (at_ : Location) :
    (replaced d p name bytes).node? at_
      = if at_ = d.destination p ++ [name] then some (.file bytes)
        else if at_ = d.destination p ++ [name ++ ".tmp"] then none else d.node? at_ := by
  rw [replaced, Disk.node?_moved _ (Disk.location_ne_nil _ _) (Disk.location_ne_nil _ _),
    Disk.node?_put d (Disk.location_ne_nil _ _)]
  split
  · rfl
  · split
    · rfl
    · rfl

/-- No directory comes or goes when a file is replaced. -/
theorem within_replaced (h : Fits d p name) (hname : Path.IsName name) (bytes : Bytes) :
    Disk.Within d (replaced d p name bytes) ∧ Disk.Within (replaced d p name bytes) d := by
  refine ⟨⟨rfl, fun at_ hdir => ?_⟩, rfl, fun at_ hdir => ?_⟩
  · -- There was room for both files, so neither of them is in the place of a directory.
    have hfile : at_ ≠ d.destination p ++ [name] := fun heq => h.file.free (heq ▸ hdir)
    have hstaging : at_ ≠ d.destination p ++ [name ++ ".tmp"] :=
      fun heq => h.staging_free hname (heq ▸ hdir)
    rw [node?_replaced, if_neg hfile, if_neg hstaging, hdir]
  · rw [node?_replaced] at hdir
    split at hdir
    · cases hdir
    · split at hdir
      · cases hdir
      · exact hdir

/-- Replacing a file leaves everything else as it was. -/
theorem extends_replaced (h : Fits d p name) (hname : Path.IsName name) (bytes : Bytes) :
    Disk.Extends (locations d p name) d (replaced d p name bytes) where
  toWithin := (within_replaced h hname bytes).1
  other at_ hat := by
    rw [locations, List.mem_cons, List.mem_singleton, not_or] at hat
    rw [node?_replaced, if_neg hat.1, if_neg hat.2]
    exact Or.inl rfl

/-- The new contents can be read. -/
theorem read_replaced (h : Fits d p name) (hname : Path.IsName name) (bytes : Bytes) :
    (replaced d p name bytes).read (p.child name) = .ok bytes := by
  have hwithin := (within_replaced h hname bytes).1
  rw [Disk.read_child_iff hname, hwithin.destination, node?_replaced, if_pos rfl]
  exact ⟨hwithin.approach h.file.approach, h.file.fits, rfl⟩

/-- Writing a staging file and moving it over a file goes right where there is room for both. -/
theorem write_rename_iff (hname : Path.IsName name) :
    (∃ d₁, d.write ((p.child name).parent.child (name ++ ".tmp")) bytes = .ok d₁
        ∧ d₁.rename ((p.child name).parent.child (name ++ ".tmp")) (p.child name) = .ok d')
      ↔ Fits d p name ∧ d' = replaced d p name bytes := by
  have htmp := isName_staging name
  constructor
  · rintro ⟨d₁, hwrite, hrename⟩
    obtain ⟨hstaging, rfl⟩ := (Disk.write_child_iff htmp).1 hwrite
    obtain ⟨hfile, bytes', hread, rfl⟩ := (Disk.rename_child_iff hname htmp).1 hrename
    rw [Disk.read_write hwrite] at hread
    cases hread
    -- The staging file is in no way: there is room for the other with it or without it.
    have hput := Disk.Extends.put (Disk.location_ne_nil _ _) hstaging.free (.file bytes)
    refine ⟨⟨hfile.of_within (.of_put (Disk.location_ne_nil _ _) d bytes) hput.toWithin,
      hstaging⟩, ?_⟩
    rw [hput.destination, hput.destination, Disk.destination_parent_child d p hname, replaced]
  · rintro ⟨hfits, rfl⟩
    have hput := Disk.Extends.put (Disk.location_ne_nil _ _) hfits.staging.free (.file bytes)
    have hwrite : d.write ((p.child name).parent.child (name ++ ".tmp")) bytes
        = .ok (d.put (d.destination (p.child name).parent ++ [name ++ ".tmp"]) (.file bytes)) :=
      (Disk.write_child_iff htmp).2 ⟨hfits.staging, rfl⟩
    refine ⟨_, hwrite, (Disk.rename_child_iff hname htmp).2 ⟨?_, bytes, Disk.read_write hwrite, ?_⟩⟩
    · exact hfits.file.of_within hput.toWithin (.of_put (Disk.location_ne_nil _ _) d bytes)
    · rw [hput.destination, hput.destination, Disk.destination_parent_child d p hname, replaced]

/-- What bringing a file up to date does when it goes right, and when that is. -/
theorem runSteps_flushSteps (hname : Path.IsName name) :
    d.runSteps (flushSteps ⟨p.child name, c⟩) = (d', none)
      ↔ ∃ d₁, d.createDirectories (p.child name).parent = (d₁, none) ∧ Fits d₁ p name
        ∧ d' = replaced d₁ p name (Bytes.ofText c.toText) := by
  have hstaging : staging ⟨p.child name, c⟩ = (p.child name).parent.child (name ++ ".tmp") := by
    rw [staging, Path.beside, Path.fileName?_child p hname]
  rw [flushSteps, hstaging, fileBytes, Disk.runSteps_cons]
  refine exists_congr fun d₁ => and_congr_right fun _ => ?_
  rw [← write_rename_iff hname, Disk.runSteps_cons]
  refine exists_congr fun d₂ => and_congr Disk.run_write ?_
  rw [Disk.runSteps_cons]
  simp only [Disk.run_rename, Disk.runSteps_nil, exists_eq_right]

end FileStore

/-- Any store can be written to a file of a directory. -/
def Disk.Writable (d : Disk) (p : Path) (name : String) : Prop :=
  ∀ c : Store, (d.runSteps (FileStore.flushSteps ⟨p.child name, c⟩)).2 = none

/-- A file can be written if its directory can be made and has room then. What is written does not
matter. -/
theorem Disk.writable_iff (hname : Path.IsName name) :
    d.Writable p name ↔ ∃ d₁, d.createDirectories (p.child name).parent = (d₁, none)
      ∧ FileStore.Fits d₁ p name := by
  constructor
  · intro h
    -- The empty store is as good as any to find out.
    have hnone := h ∅
    rcases hsteps : d.runSteps (FileStore.flushSteps ⟨p.child name, ∅⟩) with ⟨d', result⟩
    rw [hsteps] at hnone
    subst hnone
    obtain ⟨d₁, hmake, hfits, -⟩ := (FileStore.runSteps_flushSteps hname).1 hsteps
    exact ⟨d₁, hmake, hfits⟩
  · rintro ⟨d₁, hmake, hfits⟩ c
    rw [(FileStore.runSteps_flushSteps hname).2 ⟨d₁, hmake, hfits, rfl⟩]

/-- Where a file can be written there is no directory. -/
theorem Disk.Writable.free (h : d.Writable p name) (hname : Path.IsName name) :
    d.node? (d.destination p ++ [name]) ≠ some .directory := by
  obtain ⟨d₁, hmake, hfits⟩ := (Disk.writable_iff hname).1 h
  -- A directory in the place would still be there when those above have been made.
  have hmade := Disk.Extends.createDirectories d (p.child name).parent
  rw [hmake] at hmade
  intro hdir
  have hfree := hfits.file.free
  rw [hmade.destination] at hfree
  exact hfree (hmade.directory _ hdir)

/-- In a directory that does not exist yet, any file can be written whose name is good. -/
theorem Disk.writable_single {directory : String} (h : Path.IsPlain directory)
    (hname : Path.IsPlain name) (hstaging : Path.IsPlain (name ++ ".tmp"))
    (hnode : d.node? (d.home ++ [directory]) = none)
    (hvacant : ∀ entry, d.node? (d.home ++ [directory] ++ [entry]) = none) :
    d.Writable (.single directory) name := by
  -- Nothing is in the new directory, so it has room for any name.
  have hadmits : ∀ entry, Path.IsPlain entry →
      (d.put (d.home ++ [directory]) .directory).Admits (.single directory) entry := by
    intro entry hentry
    refine Disk.admits_single h hentry ?_ ?_
    · exact (Disk.node?_put d (Disk.location_ne_nil _ _) _ _).trans (if_pos rfl)
    · have hother : d.home ++ [directory] ++ [entry] ≠ d.home ++ [directory] := by simp
      show (d.put (d.home ++ [directory]) .directory).node? (d.home ++ [directory] ++ [entry])
        ≠ some .directory
      rw [Disk.node?_put d (Disk.location_ne_nil _ _), if_neg hother, hvacant entry]
      nofun
  have hparent := Path.parent_child_single h.isName hname.isName
  refine (Disk.writable_iff hname.isName).2
    ⟨_, by rw [hparent]; exact Disk.createDirectories_single h hnode, hadmits name hname, ?_⟩
  rw [hparent]
  exact hadmits (name ++ ".tmp") hstaging

/-! ### Opening a store -/

/-- A file of a directory keeps a store: it holds the text of the store, or the store is empty and
there is no such file. -/
def Disk.Keeps (d : Disk) (p : Path) (name : String) (c : Store) : Prop :=
  d.read (p.child name) = .ok (Bytes.ofText c.toText)
    ∨ c = ∅ ∧ ∀ bytes, d.node? (d.destination p ++ [name]) ≠ some (.file bytes)

theorem Disk.readText_of_read {path : Path} {text : String}
    (hread : d.read path = .ok (Bytes.ofText text)) : d.readText path = .ok text := by
  rw [Disk.readText, hread]
  simp only [Bytes.toText?_ofText]

/-- A file that holds the text of a store is opened as that store. -/
theorem FileStore.load_of_read {path : Path} (hread : d.read path = .ok (Bytes.ofText c.toText)) :
    FileStore.load d path = .ok ⟨path, c⟩ := by
  have hcontains : d.contains path = true := by
    unfold Disk.read at hread
    unfold Disk.contains
    cases hresolve : d.resolve path with
    | error e => rw [hresolve] at hread; cases hread
    | ok node => rfl
  rw [FileStore.load, if_pos hcontains, Disk.readText_of_read hread]
  simp only [Store.ofText_toText]
  rfl

/-- Where there is nothing, an empty store is opened. -/
theorem FileStore.load_of_none (hname : Path.IsName name)
    (hnode : d.node? (d.destination p ++ [name]) = none) :
    FileStore.load d (p.child name) = .ok ⟨p.child name, ∅⟩ := by
  have hcontains : d.contains (p.child name) = false := by
    unfold Disk.contains
    cases hat : d.approach (p.child name) with
    | error e =>
      rw [Disk.resolve, hat]
      rfl
    | ok at_ =>
      rw [Disk.resolve_child hname hat, Disk.approach_child_eq hname hat, hnode]
      split
      · rfl
      · rfl
  rw [FileStore.load, hcontains]
  rfl

/-- Opening a store gives what its file keeps. It can fail only where a directory is in the place of
the file of an empty store, and then because of the disk. -/
theorem Disk.Keeps.load (h : d.Keeps p name c) (hname : Path.IsName name) :
    FileStore.load d (p.child name) = .ok ⟨p.child name, c⟩
      ∨ c = ∅ ∧ ¬ d.Writable p name
        ∧ ∃ e, FileStore.load d (p.child name) = .error (.disk e) := by
  rcases h with hread | ⟨rfl, hnode⟩
  · exact Or.inl (FileStore.load_of_read hread)
  · rcases hat : d.node? (d.destination p ++ [name]) with _ | bytes | _
    · exact Or.inl (FileStore.load_of_none hname hat)
    · exact absurd hat (hnode bytes)
    · -- The directory is opened as a file if the path leads to it.
      unfold FileStore.load
      split
      · refine Or.inr ⟨rfl, fun hwritable => hwritable.free hname hat, ?_⟩
        cases htext : d.readText (p.child name) with
        | error e => exact ⟨e, rfl⟩
        | ok text =>
          unfold Disk.readText at htext
          split at htext
          · cases htext
          · next bytes hread =>
            exact absurd ((Disk.read_child_iff hname).1 hread).2.2 (hnode bytes)
      · exact Or.inl rfl

/-- A file goes on to keep its store as long as its location is not touched. -/
theorem Disk.Keeps.extends {touched : List Location} (h : d.Keeps p name c)
    (hext : Disk.Extends touched d d') (hname : Path.IsName name)
    (hat : d.destination p ++ [name] ∉ touched) : d'.Keeps p name c := by
  rcases h with hread | ⟨rfl, hnode⟩
  · exact Or.inl (hext.read hname hat hread)
  · refine Or.inr ⟨rfl, ?_⟩
    rw [hext.destination]
    exact hext.not_file hat hnode

/-- A file whose location is not touched holds what it held, and is not made. -/
theorem Disk.Keeps.read_iff {touched : List Location} (h : d.Keeps p name c)
    (hext : Disk.Extends touched d d') (hname : Path.IsName name)
    (hat : d.destination p ++ [name] ∉ touched) (bytes : Bytes) :
    d'.read (p.child name) = .ok bytes ↔ d.read (p.child name) = .ok bytes := by
  rcases h with hread | ⟨rfl, hnode⟩
  · rw [hread, hext.read hname hat hread]
  · constructor
    · intro hread
      have hfile := ((Disk.read_child_iff hname).1 hread).2.2
      rw [hext.destination] at hfile
      exact absurd hfile (hext.not_file hat hnode bytes)
    · exact hext.read hname hat

/-! ### Insertions -/

namespace FileStore

/-- A file that is brought up to date holds the store. Apart from it and the staging file the disk
has what it had, and what could be written still can. -/
theorem runSteps_flushSteps_spec (hname : Path.IsName name)
    (h : d.runSteps (flushSteps ⟨p.child name, c⟩) = (d', none)) :
    Disk.Extends (locations d p name) d d' ∧ d'.Keeps p name c
      ∧ ∀ other, Path.IsName other → d.Writable p other → d'.Writable p other := by
  -- First the directories are made, and then one file is replaced.
  obtain ⟨d₁, hmake, hfits, rfl⟩ := (runSteps_flushSteps hname).1 h
  have hmade := Disk.Extends.createDirectories d (p.child name).parent
  rw [hmake] at hmade
  have hext := extends_replaced hfits hname (Bytes.ofText c.toText)
  obtain ⟨hwithin, hback⟩ := within_replaced hfits hname (Bytes.ofText c.toText)
  refine ⟨?_, Or.inl (read_replaced hfits hname _), fun other hother hwritable => ?_⟩
  · rw [locations_eq hmade.toWithin] at hext
    exact (hmade.mono (List.nil_subset _)).trans hext
  · -- The directory has been made, and it has room as it had.
    obtain ⟨d₂, hmake', hfits'⟩ := (Disk.writable_iff hother).1 hwritable
    rw [Path.parent_child p hother hname, hmake] at hmake'
    cases hmake'
    refine (Disk.writable_iff hother).2 ⟨_, ?_, hfits'.of_within hwithin hback⟩
    rw [Path.parent_child p hother hname]
    exact Disk.createDirectories_again hmake hwithin

/-- An insertion fails because of the disk, which then cannot write the file, or it binds the key in
memory and in the file. -/
theorem insert_cases (d : Disk) (p : Path) (hname : Path.IsName name) (c : Store) (key : String)
    (value : Bytes) :
    ((∃ e, (insert ⟨p.child name, c⟩ d key value).2.2 = .error (.disk e)) ∧ ¬ d.Writable p name)
      ∨ ∃ d', insert ⟨p.child name, c⟩ d key value
          = (⟨p.child name, c.insert key value⟩, d', .ok ())
        ∧ Disk.Extends (locations d p name) d d' ∧ d'.Keeps p name (c.insert key value)
        ∧ ∀ other, Path.IsName other → d.Writable p other → d'.Writable p other := by
  unfold insert
  dsimp only
  rcases hsteps : d.runSteps (flushSteps ⟨p.child name, c.insert key value⟩) with ⟨d', _ | e⟩
  · exact Or.inr ⟨d', rfl, runSteps_flushSteps_spec hname hsteps⟩
  · refine Or.inl ⟨⟨e, rfl⟩, fun hwritable => ?_⟩
    have hnone := hwritable (c.insert key value)
    rw [hsteps] at hnone
    cases hnone

end FileStore

end Covenant
