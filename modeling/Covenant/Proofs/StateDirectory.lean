import Covenant.Proofs.Ledger
import Covenant.Proofs.Machine.Lockstep
import Covenant.Proofs.Program.Json
import Covenant.Proofs.Store

/-!
# State directories

Every command on a state directory opens the files of one contract, builds a machine on them, and
ends. A ledger does the same in memory without ever ending. The two cannot be told apart: what a
command prints is what the ledger answers, as long as the disk does not fail; and the files of other
contracts stay as they are.

* `Mirrors` relates open files to the stores of a ledger; `mirrors_alike` says that a machine cannot
  tell them apart.
* `Disk.Holds` relates a whole state directory to a ledger, between commands.
* `perform_parallel` is about one command, and `Session` is any number of them.
-/

namespace Covenant

/-- A command on a state directory. -/
inductive Order where
  | deploy (file : String)
  | call (address : String) (index : Nat) (arguments : List String)

namespace Order

/-- The command line that an order is given by. -/
def command (state : String) : Order → Command
  | .deploy file => .deploy file state
  | .call address index arguments => .call address index arguments state

/-- What an order asks for: a file is read from the disk as it is. -/
def request (d : Disk) : Order → Request
  | .deploy file => .deploy (Command.readProgram d file)
  | .call address index arguments => .call address index arguments

end Order

/-- Whether a command failed because the disk could not do what a store asked of it. -/
def CommandError.isDiskFailure : CommandError → Bool
  | .failure (.execution (.store (.disk _))) | .failure (.store (.disk _)) => true
  | _ => false

/-- A command that ended with a failure of the disk. -/
def DiskFailed (r : Except CommandError String) : Prop :=
  ∃ e, r = .error e ∧ e.isDiskFailure = true

/-! ### The files of a contract -/

/-- The names of the two files that a contract has in a state directory. The second is that of all
contracts. -/
def fileName (a : Word) : Area → String
  | .storage => a.hex ++ ".json"
  | .accounts => "accounts.json"

/-- The locations that work on a contract touches. -/
def touched (d : Disk) (p : Path) (a : Word) : List Location :=
  FileStore.locations d p (fileName a .storage) ++ FileStore.locations d p (fileName a .accounts)

variable {d d' : Disk} {p : Path} {a b : Word}

theorem length_fileName_storage (a : Word) : (fileName a .storage).length = 69 := by
  rw [fileName, String.length_append, Word.length_hex]
  rfl

/-- The names of the files are not those of a directory itself or the one above it. -/
theorem isName_fileName (a : Word) (area : Area) : Path.IsName (fileName a area) := by
  cases area with
  | accounts => exact (by decide : Path.IsName "accounts.json")
  | storage =>
    -- The name of a storage file is longer than any name it might be taken for.
    have hne : ∀ piece : String, piece.length < 69 → fileName a .storage ≠ piece := by
      intro piece hpiece heq
      rw [← heq, length_fileName_storage] at hpiece
      omega
    refine ⟨?_, hne ".." (by decide)⟩
    simp [Path.isBlank, hne "" (by decide), hne "." (by decide)]

/-- No name of a file has a character that ends a path. -/
theorem nul_notMem_fileName (a : Word) (area : Area) : '\x00' ∉ (fileName a area).toList := by
  cases area with
  | accounts => exact (by decide : '\x00' ∉ "accounts.json".toList)
  | storage =>
    have hhex : '\x00' ∉ a.hex.toList := fun hmem => absurd (Word.mem_hex hmem) (by decide)
    rw [fileName, String.toList_append, List.mem_append, not_or]
    exact ⟨hhex, by decide⟩

theorem utf8ByteSize_fileName_le (a : Word) (area : Area) :
    (fileName a area).utf8ByteSize ≤ 69 := by
  cases area with
  | accounts => exact (by decide : "accounts.json".utf8ByteSize ≤ 69)
  | storage =>
    rw [fileName, String.utf8ByteSize_append, Word.utf8ByteSize_hex]
    decide

/-- The names of the files are good for any directory. -/
theorem isPlain_fileName (a : Word) (area : Area) : Path.IsPlain (fileName a area) :=
  ⟨isName_fileName a area, nul_notMem_fileName a area,
    (utf8ByteSize_fileName_le a area).trans (by decide)⟩

/-- The names of the staging files are good for any directory too. -/
theorem isPlain_staging (a : Word) (area : Area) : Path.IsPlain (fileName a area ++ ".tmp") := by
  refine ⟨FileStore.isName_staging _, ?_, ?_⟩
  · rw [String.toList_append, List.mem_append, not_or]
    exact ⟨nul_notMem_fileName a area, by decide⟩
  · have hsize := utf8ByteSize_fileName_le a area
    have hsuffix : ".tmp".utf8ByteSize = 4 := rfl
    rw [String.utf8ByteSize_append, hsuffix, Disk.longestName]
    omega

theorem mem_locations {name other : String} :
    d.destination p ++ [other] ∈ FileStore.locations d p name
      ↔ other = name ∨ other = name ++ ".tmp" := by
  simp [FileStore.locations]

/-- Neither of the two files is touched when the other is written. -/
theorem fileName_notMem_locations {area other : Area} (h : other ≠ area) :
    d.destination p ++ [fileName b other] ∉ FileStore.locations d p (fileName a area) := by
  -- The names have different lengths, also with the ending of a staging file.
  have hlength : ∀ c, (fileName c .accounts).length = 13 := fun _ => by rw [fileName]; decide
  rw [mem_locations]
  cases area with
  | storage =>
    cases other with
    | storage => exact absurd rfl h
    | accounts =>
      rintro (heq | heq)
      · exact absurd (congrArg String.length heq) (by rw [hlength, length_fileName_storage]; decide)
      · exact absurd (congrArg String.length heq)
          (by rw [hlength, String.length_append, length_fileName_storage]; decide)
  | accounts =>
    cases other with
    | accounts => exact absurd rfl h
    | storage =>
      rintro (heq | heq)
      · exact absurd (congrArg String.length heq) (by rw [hlength, length_fileName_storage]; decide)
      · exact absurd (congrArg String.length heq)
          (by rw [String.length_append, hlength, length_fileName_storage]; decide)

/-- The file of one contract is not touched by work on another. -/
theorem storage_notMem_touched (h : b ≠ a) :
    d.destination p ++ [fileName b .storage] ∉ touched d p a := by
  rw [touched, List.mem_append]
  rintro (hmem | hmem)
  · rcases mem_locations.1 hmem with heq | heq
    · exact h (Word.hex_injective ((String.append_left_inj _).1 heq))
    · exact absurd (congrArg String.length heq)
        (by rw [String.length_append, length_fileName_storage, length_fileName_storage]; decide)
  · exact fileName_notMem_locations (by decide : Area.storage ≠ .accounts) hmem

theorem locations_subset_touched (d : Disk) (p : Path) (a : Word) (area : Area) :
    FileStore.locations d p (fileName a area) ⊆ touched d p a := by
  cases area with
  | storage => exact List.subset_append_left _ _
  | accounts => exact List.subset_append_right _ _

/-- Every file that a state directory can have can be written. -/
def Disk.Ready (d : Disk) (p : Path) : Prop := ∀ a area, d.Writable p (fileName a area)

/-! ### Machines on files and in memory -/

/-- Two open files hold what two stores in memory hold, and on their disk nothing else has changed
since they were opened. -/
structure Mirrors (d : Disk) (p : Path) (a : Word) (s : FileStores) (t : MemoryStores) : Prop where
  store : ∀ area, s.store area = ⟨p.child (fileName a area), t.store area⟩
  disk : Disk.Extends (touched d p a) d s.disk
  file : ∀ area, s.disk.Keeps p (fileName a area) (t.store area)
  ready : d.Ready p → s.disk.Ready p

/-- A store error that comes from the disk, which was not ready. -/
def LostToDisk (d : Disk) (p : Path) (e : StoreError) : Prop :=
  (∃ cause, e = .disk cause) ∧ ¬ d.Ready p

/-- An insertion into one of two files leaves the other as it was in memory. -/
theorem FileStores.store_insert {s : FileStores} {area : Area} {key : String} {value : Bytes}
    {file : FileStore} {r : Except StoreError Unit}
    (h : (s.store area).insert s.disk key value = (file, d', r)) :
    (s.insert area key value).2 = r ∧ (s.insert area key value).1.disk = d'
      ∧ ∀ other, (s.insert area key value).1.store other
        = if other = area then file else s.store other := by
  unfold FileStores.insert
  rw [h]
  cases area with
  | storage => exact ⟨rfl, rfl, fun other => by cases other <;> rfl⟩
  | accounts => exact ⟨rfl, rfl, fun other => by cases other <;> rfl⟩

/-- An insertion fails because of the disk, or is the same on files as in memory. -/
theorem Mirrors.insert {s : FileStores} {t : MemoryStores} (h : Mirrors d p a s t) (area : Area)
    (key : String) (value : Bytes) :
    (∃ e, (s.insert area key value).2 = .error (.disk e) ∧ ¬ d.Ready p)
      ∨ (s.insert area key value).2 = .ok ()
        ∧ Mirrors d p a (s.insert area key value).1 (t.insert area key value) := by
  have hcases := FileStore.insert_cases s.disk p (isName_fileName a area) (t.store area) key value
  rw [← h.store] at hcases
  rcases hinsert : (s.store area).insert s.disk key value with ⟨file, d', r⟩
  obtain ⟨hresult, hdisk, hstore⟩ := FileStores.store_insert hinsert
  rw [hinsert] at hcases
  -- The disk was not ready, or the file was written.
  rcases hcases with ⟨⟨e, rfl⟩, hrefused⟩ | ⟨d', hok, hext, hkeeps, hwritable⟩
  · exact Or.inl ⟨e, hresult, fun hready => hrefused (h.ready hready a area)⟩
  · cases hok
    rw [FileStore.locations_eq h.disk.toWithin] at hext
    refine Or.inr ⟨hresult, fun other => ?_, ?_, fun other => ?_, fun hready b other => ?_⟩
    · rw [hstore, MemoryStores.store_insert]
      by_cases heq : other = area
      · rw [if_pos heq, if_pos heq, heq]
      · rw [if_neg heq, if_neg heq, h.store]
    · rw [hdisk]
      exact h.disk.trans (hext.mono (locations_subset_touched d p a area))
    · rw [hdisk, MemoryStores.store_insert]
      by_cases heq : other = area
      · rw [if_pos heq, heq]
        exact hkeeps
      · -- The other of the two files is not at the locations that were touched.
        rw [if_neg heq]
        refine (h.file other).extends hext (isName_fileName a other) ?_
        rw [h.disk.destination]
        exact fileName_notMem_locations heq
    · rw [hdisk]
      exact hwritable _ (isName_fileName b other) (h.ready hready b other)

/-- A machine cannot tell open files from stores in memory, unless the disk fails. -/
theorem mirrors_alike (d : Disk) (p : Path) (a : Word) :
    Stores.Alike (Mirrors d p a) (LostToDisk d p) where
  get? s t h area key := congrArg (fun file => Except.ok (file.contents.get? key)) (h.store area)
  root s t h area := congrArg (fun file => Except.ok file.contents.root) (h.store area)
  insert s t h area key value := by
    rcases h.insert area key value with ⟨e, he, hready⟩ | ⟨hok, hmirrors⟩
    · exact Or.inl ⟨.disk e, ⟨⟨e, rfl⟩, hready⟩, he⟩
    · exact Or.inr ⟨hok, hmirrors⟩

/-! ### State directories and ledgers -/

/-- Every file of a state directory keeps what a ledger has for it. -/
def Disk.Holds (d : Disk) (p : Path) (g : Ledger) : Prop :=
  ∀ a area, d.Keeps p (fileName a area) ((g.enter a).stores.store area)

/-- There is nothing in a directory yet. -/
def Disk.Vacant (d : Disk) (p : Path) : Prop :=
  ∀ name, d.node? (d.destination p ++ [name]) = none

/-- A directory that is still to be made in the working directory is ready. -/
theorem Disk.ready_single {directory : String} (h : Path.IsPlain directory)
    (hnode : d.node? (d.home ++ [directory]) = none) (hvacant : d.Vacant (.single directory)) :
    d.Ready (.single directory) := by
  have hnone : ∀ name, d.node? (d.home ++ [directory] ++ [name]) = none := by
    intro name
    have hname := hvacant name
    rwa [Disk.destination_single h.isName] at hname
  intro a area
  exact Disk.writable_single h (isPlain_fileName a area) (isPlain_staging a area) hnode hnone

variable {g : Ledger}

/-- An empty directory holds what a new ledger has. -/
theorem Disk.Vacant.holds (h : d.Vacant p) : d.Holds p {} := by
  intro a area
  refine Or.inr ⟨?_, fun bytes => by rw [h]; nofun⟩
  cases area with
  | storage => rfl
  | accounts => rfl

/-- Opening the files of a contract gives what the ledger has, or fails because of the disk. -/
theorem Disk.Holds.load (h : d.Holds p g) (a : Word) :
    (∃ e, FileStores.load d (p.child (fileName a .storage)) (p.child (fileName a .accounts))
        = .error (.disk e) ∧ ¬ d.Ready p)
      ∨ ∃ s, FileStores.load d (p.child (fileName a .storage)) (p.child (fileName a .accounts))
          = .ok s ∧ Mirrors d p a s (g.enter a).stores := by
  unfold FileStores.load
  rcases (h a .storage).load (isName_fileName a .storage) with
    hstorage | ⟨-, hrefused, e, hstorage⟩
  swap
  · exact Or.inl ⟨e, by rw [hstorage], fun hready => hrefused (hready a .storage)⟩
  rcases (h a .accounts).load (isName_fileName a .accounts) with
    haccounts | ⟨-, hrefused, e, haccounts⟩
  swap
  · exact Or.inl ⟨e, by rw [hstorage, haccounts], fun hready => hrefused (hready a .accounts)⟩
  rw [hstorage, haccounts]
  refine Or.inr ⟨_, rfl, fun area => ?_, .refl _ d, h a, id⟩
  cases area with
  | storage => rfl
  | accounts => rfl

/-- When a machine has worked on the files of a contract, the directory holds what the ledger has
after the same work. -/
theorem Mirrors.holds {s : FileStores} {m : Machine MemoryStores} (h : Mirrors d p a s m.stores)
    (hholds : d.Holds p g) : s.disk.Holds p (g.leave a m) := by
  intro b area
  cases area with
  -- There is one account index, which every command works on.
  | accounts => exact h.file .accounts
  | storage =>
    show s.disk.Keeps p (fileName b .storage) (if b = a then m.stores.storage else g.storage b)
    split
    · next heq =>
      rw [heq]
      exact h.file .storage
    · next hne =>
      exact (hholds b .storage).extends h.disk (isName_fileName b .storage)
        (storage_notMem_touched hne)

/-- What one command does to a state directory, next to what one request does to a ledger. -/
structure Step (p : Path) (target : Option Word) (d : Disk) (g : Ledger) (d' : Disk)
    (g' : Ledger) : Prop where
  holds : d'.Holds p g'
  ready : d.Ready p → d'.Ready p
  limits : g'.machine.limits = g.machine.limits
  /-- The files of other contracts hold what they held. -/
  files : ∀ b, target ≠ some b → ∀ bytes, d'.read (p.child (fileName b .storage)) = .ok bytes
    ↔ d.read (p.child (fileName b .storage)) = .ok bytes

/-- A command and a request that end alike, or both not at all, or a command that fails because of
a disk that was not ready. -/
inductive Parallel (ready : Prop) (Q : Disk → Ledger → Prop) :
    Command.Effect → Option (Ledger × Except CommandError String) → Prop where
  | unfinished : Parallel ready Q none none
  | ended {d : Disk} {g : Ledger} {r : Except CommandError String} (h : Q d g) :
      Parallel ready Q (some (d, r)) (some (g, r))
  | failed {d : Disk} {r : Except CommandError String} (h : DiskFailed r) (hready : ¬ ready)
      (other : Option (Ledger × Except CommandError String)) :
      Parallel ready Q (some (d, r)) other

theorem Step.refl (target : Option Word) (h : d.Holds p g) : Step p target d g d g :=
  ⟨h, id, rfl, fun _ _ _ => Iff.rfl⟩

/-- A machine on the files of one contract has done a step of the directory when it ends. -/
theorem Mirrors.step {s : FileStores} {m : Machine MemoryStores} (h : Mirrors d p a s m.stores)
    (hholds : d.Holds p g) (hlimits : m.limits = g.machine.limits) :
    Step p (some a) d g s.disk (g.leave a m) where
  holds := h.holds hholds
  ready := h.ready
  limits := hlimits
  files b hb bytes := (hholds b .storage).read_iff h.disk (isName_fileName b .storage)
    (storage_notMem_touched fun heq => hb (by rw [heq])) bytes

/-- Operations that end together print the same. -/
theorem parallel_of_together {α : Type} {x : Option (Except Fault α × Machine FileStores)}
    {y : Option (Except Fault α × Machine MemoryStores)}
    (h : Machine.Together (Mirrors d p a) (LostToDisk d p) x y) (hholds : d.Holds p g)
    (hlimits : ∀ r m, y = some (r, m) → m.limits = g.machine.limits) (print : α → String) :
    Parallel (d.Ready p) (Step p (some a) d g)
      (x.map fun answer => (answer.2.stores.disk, (answer.1.mapError .ofFault).map print))
      (y.map fun answer => (g.leave a answer.2, (answer.1.mapError .ofFault).map print)) := by
  cases h with
  | unfinished => exact .unfinished
  | ended halike => exact .ended (halike.stores.step hholds (hlimits _ _ rfl))
  | lost hloss other =>
    obtain ⟨-, ⟨⟨cause, rfl⟩, hready⟩, rfl⟩ := hloss
    exact .failed ⟨_, rfl, rfl⟩ hready _

/-! ### One command -/

variable {state : String}

theorem storageFile_eq (state : String) (a : Word) :
    Command.storageFile state a = (Path.ofText state).child (fileName a .storage) := rfl

theorem accountsFile_eq (state : String) (a : Word) :
    Command.accountsFile state = (Path.ofText state).child (fileName a .accounts) := rfl

/-- The same for the paths that a command gives to the files. -/
theorem Disk.Holds.openState (h : d.Holds (.ofText state) g) (a : Word) :
    (∃ e, Command.openState d state a = .error (.ofStore (.disk e)) ∧ ¬ d.Ready (.ofText state))
      ∨ ∃ s, Command.openState d state a = .ok s
        ∧ Mirrors d (.ofText state) a s (g.enter a).stores := by
  rw [Command.openState, storageFile_eq, accountsFile_eq state a]
  rcases h.load a with ⟨e, hload, hready⟩ | ⟨s, hload, hmirrors⟩
  · exact Or.inl ⟨e, by rw [hload]; rfl, hready⟩
  · exact Or.inr ⟨s, by rw [hload]; rfl, hmirrors⟩

/-- A deployment is that of a new machine on the files, if they can be opened. -/
theorem deployFile_eq {p : Program} {s : FileStores} {file : String} {fuel : Nat}
    (hread : Command.readProgram d file = .ok p)
    (hopen : Command.openState d state p.address = .ok s) :
    Command.deployFile d fuel file state
      = ((({ stores := s } : Machine FileStores).load p).2.deploy fuel).map fun answer =>
          (answer.2.stores.disk,
            (answer.1.mapError .ofFault).map fun address => address.hex ++ "\n") := by
  unfold Command.deployFile
  rw [hread]
  dsimp only
  rw [hopen]

/-- A deployment goes along with the request, whether or not there is a program. -/
theorem deploy_parallel (hholds : d.Holds (.ofText state) g) (hlimits : g.machine.limits = {})
    (fuel : Nat) (file : String) :
    Parallel (d.Ready (.ofText state))
      (Step (.ofText state) (Request.deploy (Command.readProgram d file)).target? d g)
      (Command.deployFile d fuel file state)
      (g.serve fuel (.deploy (Command.readProgram d file))) := by
  cases hread : Command.readProgram d file with
  | error e =>
    unfold Command.deployFile
    rw [hread]
    exact .ended (Step.refl _ hholds)
  | ok p =>
    rcases hholds.openState p.address with ⟨e, hopen, hready⟩ | ⟨s, hopen, hmirrors⟩
    · unfold Command.deployFile
      rw [hread]
      dsimp only
      rw [hopen]
      exact .failed ⟨_, rfl, rfl⟩ hready _
    · rw [deployFile_eq hread hopen]
      -- A machine that is new and one that has served before, on the same program.
      have halike := Machine.alike_load (m := { stores := s }) (n := g.enter p.address)
        hlimits.symm hmirrors p
      exact parallel_of_together (halike.deploy (mirrors_alike d _ p.address) fuel) hholds
        (fun r m hdeploy => (Machine.deploy_setup hdeploy).limits) _

/-- A call goes along with the request. It finds the program of the address where the ledger finds
it. -/
theorem call_parallel (hholds : d.Holds (.ofText state) g) (hlimits : g.machine.limits = {})
    (fuel : Nat) (address : String) (index : Nat) (arguments : List String) :
    Parallel (d.Ready (.ofText state))
      (Step (.ofText state) (Request.call address index arguments).target? d g)
      (Command.callDeployed d fuel address index arguments state)
      (g.serve fuel (.call address index arguments)) := by
  unfold Command.callDeployed Ledger.serve Request.target?
  dsimp only
  cases Word.ofDigits? address with
  | none => exact .ended (Step.refl _ hholds)
  | some a =>
    dsimp only
    rcases hholds.openState a with ⟨e, hopen, hready⟩ | ⟨s, hopen, hmirrors⟩
    · rw [hopen]
      exact .failed ⟨_, rfl, rfl⟩ hready _
    · rw [hopen]
      dsimp only
      -- The program is read from the open files, as a ledger reads it from its stores.
      rw [Machine.programAt_eq (m := { stores := s }) (n := g.enter a) (mirrors_alike d _ a)
        hmirrors a]
      cases (g.enter a).programAt a with
      | error e => exact .ended (Step.refl _ hholds)
      | ok p =>
        have halike := Machine.alike_load (m := { stores := s }) (n := g.enter a) hlimits.symm
          hmirrors p
        exact parallel_of_together (halike.call (mirrors_alike d _ a) fuel index _) hholds
          (fun r m hcall => (Machine.call_setup hcall).limits) _

/-- One command goes along with one request. -/
theorem perform_parallel (hholds : d.Holds (.ofText state) g) (hlimits : g.machine.limits = {})
    (fuel : Nat) (o : Order) :
    Parallel (d.Ready (.ofText state)) (Step (.ofText state) (o.request d).target? d g)
      ((o.command state).perform d fuel) (g.serve fuel (o.request d)) := by
  cases o with
  | deploy file => exact deploy_parallel hholds hlimits fuel file
  | call address index arguments =>
    exact call_parallel hholds hlimits fuel address index arguments

/-! ### Any number of commands -/

/-- A disk comes from another by commands on a state directory, each with what it asked for and what
came of it. None failed because of the disk. -/
inductive Session (state : String) (d : Disk) :
    List (Request × Except CommandError String) → Disk → Prop where
  | start : Session state d [] d
  | command {d' d'' : Disk} {answers : List (Request × Except CommandError String)} {fuel : Nat}
      {o : Order} {r : Except CommandError String} (h : Session state d answers d')
      (hperform : (o.command state).perform d' fuel = some (d'', r)) (hdisk : ¬ DiskFailed r) :
      Session state d (answers ++ [(o.request d', r)]) d''

/-- The bytes under a key in the account index of a state directory. -/
def accountEntry? (d : Disk) (state key : String) : Option Bytes :=
  (FileStore.load d (Command.accountsFile state)).toOption.bind fun file => file.contents.get? key

/-- The account index of a directory is that of the ledger. -/
theorem Disk.Holds.accountEntry? (h : d.Holds (.ofText state) g) (key : String) :
    accountEntry? d state key = g.accounts.get? key := by
  have haccounts : (g.enter .zero).stores.store .accounts = g.accounts := rfl
  rw [Covenant.accountEntry?, accountsFile_eq state .zero]
  rcases (h .zero .accounts).load (isName_fileName .zero .accounts) with
    hload | ⟨hempty, -, e, hload⟩
  · rw [hload]
    rfl
  · rw [hload, ← haccounts, hempty]
    rfl

/-- A ledger that is given the same requests as a state directory gives the same answers, and in the
end the directory holds what it has. -/
theorem Session.ledger {answers : List (Request × Except CommandError String)}
    (h : Session state d answers d') (hvacant : d.Vacant (.ofText state)) :
    ∃ g ps, Ledger.Session {} answers g ∧ d'.Holds (.ofText state) g ∧ g.machine.limits = {}
      ∧ g.Sound ps ∧ (d.Ready (.ofText state) → d'.Ready (.ofText state)) := by
  induction h with
  | start => exact ⟨{}, [], .start, hvacant.holds, rfl, Ledger.sound_empty, id⟩
  | @command d₁ d₂ answers fuel o r _ hperform hdisk ih =>
    -- The disk did not fail, so the request ends as the command did.
    obtain ⟨g, ps, hsession, hholds, hlimits, hsound, hready⟩ := ih
    have hstep := perform_parallel hholds hlimits fuel o
    rw [hperform] at hstep
    generalize hserve : g.serve fuel (o.request d₁) = answer at hstep
    cases hstep with
    | failed hfailed => exact absurd hfailed hdisk
    | @ended _ g' _ hnext =>
      obtain ⟨⟨qs, hsound'⟩, -⟩ := Ledger.serve_spec hsound hserve
      exact ⟨g', qs, .request hsession hserve, hnext.holds, hnext.limits.trans hlimits, hsound',
        fun h => hnext.ready (hready h)⟩

/-- **A state directory is a ledger.** Commands on a directory that starts out empty, over any number
of contracts in any order, have the outcomes of the same requests to a ledger in memory whose machine
is never restarted, as long as the disk does not fail; and it does not if the directory could be
written to begin with. And a command for one address leaves alone the file and the account entries of
every other. -/
theorem state_directory_is_a_ledger {answers : List (Request × Except CommandError String)}
    (hvacant : d.Vacant (.ofText state)) (h : Session state d answers d') :
    ∃ g, Ledger.Session {} answers g
      ∧ ∀ fuel (o : Order),
        (∃ d'' r, (o.command state).perform d' fuel = some (d'', r) ∧ DiskFailed r
            ∧ ¬ d.Ready (.ofText state))
          ∨ ((o.command state).perform d' fuel).map Prod.snd
              = (g.serve fuel (o.request d')).map Prod.snd
            ∧ ∀ d'' r, (o.command state).perform d' fuel = some (d'', r) →
              ∀ b, (o.request d').target? ≠ some b →
                (∀ bytes, d''.read (Command.storageFile state b) = .ok bytes
                  ↔ d'.read (Command.storageFile state b) = .ok bytes)
                ∧ accountEntry? d'' state b.hex = accountEntry? d' state b.hex
                ∧ accountEntry? d'' state (programKey b)
                  = accountEntry? d' state (programKey b) := by
  obtain ⟨g, ps, hsession, hholds, hlimits, hsound, hready⟩ := h.ledger hvacant
  refine ⟨g, hsession, fun fuel o => ?_⟩
  have hstep := perform_parallel hholds hlimits fuel o
  generalize (o.command state).perform d' fuel = effect at hstep ⊢
  generalize hserve : g.serve fuel (o.request d') = answer at hstep ⊢
  cases hstep with
  | unfinished => exact Or.inr ⟨rfl, fun d'' r heffect => by cases heffect⟩
  | failed hfailed hrefused => exact Or.inl ⟨_, _, rfl, hfailed, fun h => hrefused (hready h)⟩
  | ended hnext =>
    refine Or.inr ⟨rfl, fun d'' r heffect b hb => ?_⟩
    cases heffect
    -- What the ledger spares, the directory spares: it holds the same before and after.
    have hspares := (Ledger.serve_spec hsound hserve).2 b hb
    refine ⟨?_, ?_, ?_⟩
    · rw [storageFile_eq]
      exact hnext.files b hb
    · rw [hnext.holds.accountEntry?, hholds.accountEntry?, hspares.root]
    · rw [hnext.holds.accountEntry?, hholds.accountEntry?, hspares.program]

/-- A file of JSON that holds the text of a program is read as that program. -/
theorem readProgram_of_read {file : String} {p : Program}
    (hfile : Command.isProgramFile file = true)
    (hread : d.read (.ofText file) = .ok (Bytes.ofText p.toJsonText))
    (hindex : ∀ entry ∈ p.functions.entries, entry.1 < Text.indexBound) :
    Command.readProgram d file = .ok p := by
  have htext : Command.readFile d file = .ok p.toJsonText := by
    rw [Command.readFile, Disk.readText, hread]
    simp only [Bytes.toText?_ofText]
    rfl
  have hprogram : Program.ofJsonText p.toJsonText = .ok p := Program.ofJsonText_toJsonText hindex
  rw [Command.readProgram, htext]
  refine (if_pos hfile).trans ?_
  rw [hprogram]
  rfl

/-- A program is deployed into a directory that does not exist yet: what it prints and what any
command would print after it are the answers of a ledger. -/
theorem ledger_after_deployment :
    let p : Program := ⟨[], .ofList [(0, ⟨[], [.push .zero]⟩)]⟩
    let d : Disk := { nodes := .ofList [(["p.json"], .file (Bytes.ofText p.toJsonText))] }
    let answers := [(Request.deploy (.ok p), Except.ok (p.address.hex ++ "\n"))]
    d.Vacant (.ofText "st") ∧ d.Ready (.ofText "st")
      ∧ ∃ d' g, Session "st" d answers d' ∧ Ledger.Session {} answers g
        ∧ ∀ fuel (o : Order), ((o.command "st").perform d' fuel).map Prod.snd
          = (g.serve fuel (o.request d')).map Prod.snd := by
  intro p d answers
  have hvacant : d.Vacant (.ofText "st") := fun name => rfl
  have hready : d.Ready (.ofText "st") :=
    Disk.ready_single ⟨by decide, by decide, by decide⟩ rfl hvacant
  have hread : Command.readProgram d "p.json" = .ok p :=
    readProgram_of_read (by decide) rfl (by decide)
  have hopen : Command.openState d "st" p.address = .ok ⟨d, ⟨Command.storageFile "st" p.address, ∅⟩,
      ⟨Command.accountsFile "st", ∅⟩⟩ := by
    rw [Command.openState, FileStores.load, storageFile_eq, accountsFile_eq "st" p.address,
      FileStore.load_of_none (isName_fileName _ _) (hvacant _)]
    dsimp only
    rw [FileStore.load_of_none (isName_fileName _ _) (hvacant _)]
    rfl
  -- The deployment is run on the files of an empty directory.
  have hrun : ((({ stores := ⟨d, ⟨Command.storageFile "st" p.address, ∅⟩,
      ⟨Command.accountsFile "st", ∅⟩⟩ } : Machine FileStores).load p).2.deploy 1).any (fun answer =>
        decide (answer.1.toOption = some p.address)) = true := by
    decide +kernel
  obtain ⟨⟨result, m⟩, hdeploy, hresult⟩ := (Option.any_eq_true _ _).1 hrun
  have hok : result = .ok p.address := by
    have htoOption := of_decide_eq_true hresult
    cases result with
    | error e => cases htoOption
    | ok a => rw [Option.some.inj htoOption]
  have hperform : ((Order.deploy "p.json").command "st").perform d 1
      = some (m.stores.disk, .ok (p.address.hex ++ "\n")) := by
    rw [Order.command, Command.perform, deployFile_eq hread hopen, hdeploy, hok]
    rfl
  have hsession : Session "st" d answers m.stores.disk := by
    have hnext := Session.command (.start (d := d)) hperform (by rintro ⟨e, he, -⟩; cases he)
    rwa [Order.request, hread] at hnext
  obtain ⟨g, hledger, hnext⟩ := state_directory_is_a_ledger hvacant hsession
  refine ⟨hvacant, hready, _, g, hsession, hledger, fun fuel o => ?_⟩
  rcases hnext fuel o with ⟨-, -, -, -, hrefused⟩ | ⟨hsame, -⟩
  · exact absurd hready hrefused
  · exact hsame

end Covenant
