import Covenant.Disk
import Covenant.Json.Read
import Covenant.Json.Write
import Covenant.Sha256
import Covenant.Table

/-!
# Stores

A store binds keys, which are texts, to byte strings. Its root is a digest of the whole contents: of
every key and value in the order of the keys, each after its length, so that no two contents are
written alike.

* `Store.root` is the root, the digest of `Store.image`.
* `Store.toText` and `Store.ofText` are the form in which a store is kept in a file: a JSON object of
  hexadecimal values.
-/

namespace Covenant

/-- Byte strings under keys. Keys are in the order of their code points, which is that of their
UTF-8 encodings. -/
abbrev Store := Table String Bytes

/-- Why a store operation failed. -/
inductive StoreError where
  | disk (cause : DiskError)
  /-- A file that is no JSON object of strings. -/
  | notObject (path : String)
  /-- A file with a value that is not hexadecimal. -/
  | badValue (key : String) (cause : Text.Hex.Error)
  /-- A value that was to be read as a word has another length. -/
  | notWord (key : String) (length : Nat)
  /-- The store takes no more insertions. -/
  | refused
  deriving DecidableEq

/-- The wording of a store error. -/
def StoreError.message : StoreError → String
  | .disk cause => "storage I/O failed: " ++ cause.message
  | .notObject path => s!"storage file is corrupt: {path}: not an object of strings"
  | .badValue key cause => s!"storage file is corrupt: value of {key}: {cause.message}"
  | .notWord key length =>
    s!"storage file is corrupt: value at {key} is {length} bytes, expected a word"
  | .refused => "storage file is corrupt: insert refused"

namespace Store

/-- A byte string after its length in eight bytes. -/
def sized (bytes : Bytes) : Bytes := Bytes.bigEndian 8 bytes.length ++ bytes

/-- A key and its value, each after its length. -/
def entryImage (entry : String × Bytes) : Bytes :=
  sized (Bytes.ofText entry.1) ++ sized entry.2

/-- What is hashed to give the root: the entries in the order of their keys. -/
def image (s : Store) : Bytes := s.entries.flatMap entryImage

/-- The digest of the whole contents. -/
def root (s : Store) : Word := sha256 s.image

/-- A store as a JSON object. -/
def toJson (s : Store) : Json :=
  .ofMembers (s.entries.map fun (key, value) => (key, .ofText (Text.Hex.encode value)))

/-- The text of a file that keeps a store. -/
def toText (s : Store) : String := s.toJson.renderPretty

/-- The members of a JSON object whose values are all strings. -/
def readMembers? : List (List Char × Json) → Option (List (String × String))
  | [] => some []
  | (name, value) :: rest =>
    match Json.unescape? name, value.text?, readMembers? rest with
    | some key, some text, some members => some ((key, text) :: members)
    | _, _, _ => none

/-- The keys and texts of a JSON object of strings. Of several members with one name the last one
counts. -/
def readTexts? (text : String) : Option (Table String String) :=
  (((Json.parse? text).bind Json.members?).bind readMembers?).map Table.ofList

/-- Decodes the values of a store in the order of the keys. -/
def decodeValues : List (String × String) → Except StoreError (List (String × Bytes))
  | [] => .ok []
  | (key, digits) :: rest =>
    match Text.Hex.decode digits with
    | .error e => .error (.badValue key e)
    | .ok bytes => (decodeValues rest).map ((key, bytes) :: ·)

/-- Reads the text of a file that keeps a store. The path is that of the file, for messages. -/
def ofText (path text : String) : Except StoreError Store :=
  match readTexts? text with
  | none => .error (.notObject path)
  | some texts => (decodeValues texts.entries).map Table.ofList

end Store

end Covenant
