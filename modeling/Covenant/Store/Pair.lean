import Covenant.Store.File

/-!
# The two stores of a machine

A machine works on two stores. Contract storage is under the hexadecimal digits of words; the
account index binds a contract's address to the root of its storage, and to its program under the
address with `:bytecode` after it.

`Stores` is what the machine needs of them. Every answer may be an error instead. There are three
kinds:

* `MemoryStores`, two stores that are kept nowhere and never fail;
* `FileStores`, two stores kept in files of one disk;
* `Rationed`, stores of another kind that take only so many more insertions.
-/

namespace Covenant

/-- Which of the two stores. -/
inductive Area where
  | storage
  | accounts
  deriving DecidableEq

/-- A pair of stores. An insertion that fails may still have changed something. -/
class Stores (ω : Type) where
  /-- The value under a key, if there is one. -/
  get? : ω → Area → String → Except StoreError (Option Bytes)
  /-- Binds a key. -/
  insert : ω → Area → String → Bytes → ω × Except StoreError Unit
  /-- The root of a store. -/
  root : ω → Area → Except StoreError Word

/-- Two stores in memory. -/
structure MemoryStores where
  storage : Store := ∅
  accounts : Store := ∅
  deriving DecidableEq

namespace MemoryStores

/-- One of the two stores. -/
def store (s : MemoryStores) : Area → Store
  | .storage => s.storage
  | .accounts => s.accounts

/-- Binds a key in one of the two stores. -/
def insert (s : MemoryStores) (area : Area) (key : String) (value : Bytes) : MemoryStores :=
  match area with
  | .storage => { s with storage := s.storage.insert key value }
  | .accounts => { s with accounts := s.accounts.insert key value }

instance : Stores MemoryStores where
  get? s area key := .ok ((s.store area).get? key)
  insert s area key value := (s.insert area key value, .ok ())
  root s area := .ok (s.store area).root

end MemoryStores

/-- Two stores kept in files, and the disk the files are on. -/
structure FileStores where
  disk : Disk
  storage : FileStore
  accounts : FileStore
  deriving DecidableEq

namespace FileStores

/-- Opens two stores, the storage first. -/
def load (d : Disk) (storage accounts : Path) : Except StoreError FileStores :=
  match FileStore.load d storage with
  | .error e => .error e
  | .ok storage =>
    match FileStore.load d accounts with
    | .error e => .error e
    | .ok accounts => .ok ⟨d, storage, accounts⟩

/-- One of the two stores. -/
def store (s : FileStores) : Area → FileStore
  | .storage => s.storage
  | .accounts => s.accounts

/-- Binds a key in one of the two stores. -/
def insert (s : FileStores) (area : Area) (key : String) (value : Bytes) :
    FileStores × Except StoreError Unit :=
  let (store, disk, result) := (s.store area).insert s.disk key value
  match area with
  | .storage => ({ s with disk, storage := store }, result)
  | .accounts => ({ s with disk, accounts := store }, result)

instance : Stores FileStores where
  get? s area key := .ok ((s.store area).contents.get? key)
  insert := insert
  root s area := .ok (s.store area).contents.root

end FileStores

/-- Stores that take a limited number of further insertions, where there is a limit. Once it is used
up, insertions are refused and change nothing. -/
structure Rationed (ω : Type) where
  stores : ω
  storageLeft : Option Nat := none
  accountsLeft : Option Nat := none

namespace Rationed

variable {ω : Type}

/-- How many further insertions a store takes. -/
def left (s : Rationed ω) : Area → Option Nat
  | .storage => s.storageLeft
  | .accounts => s.accountsLeft

/-- Sets how many further insertions a store takes. -/
def setLeft (s : Rationed ω) (area : Area) (count : Nat) : Rationed ω :=
  match area with
  | .storage => { s with storageLeft := some count }
  | .accounts => { s with accountsLeft := some count }

/-- Binds a key in one of the two stores, if it still takes one. -/
def insert [Stores ω] (s : Rationed ω) (area : Area) (key : String) (value : Bytes) :
    Rationed ω × Except StoreError Unit :=
  match s.left area with
  | some 0 => (s, .error .refused)
  | some (count + 1) =>
    let (stores, result) := Stores.insert s.stores area key value
    ({ s.setLeft area count with stores }, result)
  | none =>
    let (stores, result) := Stores.insert s.stores area key value
    ({ s with stores }, result)

instance [Stores ω] : Stores (Rationed ω) where
  get? s area key := Stores.get? s.stores area key
  insert := insert
  root s area := Stores.root s.stores area

end Rationed

end Covenant
