import Covenant.Store

/-!
# Stores kept in files

A store that keeps its contents in a file, which is written anew at every insertion: first to a
staging file beside it, which is then renamed over it. So the file always holds a complete store.

An insertion changes the contents in memory before it writes them. If writing fails, the insertion
fails, but the contents in memory stay changed.

* `FileStore.load` reads a store from its file, and starts empty if there is none.
* `FileStore.flushSteps` are the disk operations of one write, and `FileStore.insert` carries them
  out.
-/

namespace Covenant

/-- A store and the file it is kept in. -/
structure FileStore where
  path : Path
  contents : Store := ∅
  deriving DecidableEq

namespace FileStore

/-- Opens the store kept in a file. -/
def load (d : Disk) (path : Path) : Except StoreError FileStore :=
  if d.contains path then
    match d.readText path with
    | .error e => .error (.disk e)
    | .ok text => (Store.ofText path.text text).map fun contents => ⟨path, contents⟩
  else .ok ⟨path, ∅⟩

/-- The path of the staging file. -/
def staging (s : FileStore) : Path := s.path.beside ".tmp"

/-- The contents of the file that keeps the store. -/
def fileBytes (s : FileStore) : Bytes := Bytes.ofText s.contents.toText

/-- The disk operations that bring the file up to date. -/
def flushSteps (s : FileStore) : List DiskStep :=
  [.createDirectories s.path.parent, .write s.staging s.fileBytes, .rename s.staging s.path]

/-- Binds a key and brings the file up to date. -/
def insert (s : FileStore) (d : Disk) (key : String) (value : Bytes) :
    FileStore × Disk × Except StoreError Unit :=
  let s := { s with contents := s.contents.insert key value }
  match d.runSteps s.flushSteps with
  | (d, none) => (s, d, .ok ())
  | (d, some e) => (s, d, .error (.disk e))

end FileStore

end Covenant
