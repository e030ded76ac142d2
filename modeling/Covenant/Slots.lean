/-!
# Slots

Variables live in numbered cells. A numbering gives every name the next free number when it is first
asked for and the same number ever after. Storage cells are numbered for a whole contract, memory
cells anew for each function.

* `Numbering.number` asks for the number of a name, taking a new one if need be.
* `Numbering.lookup?` asks without taking one.
-/

namespace Covenant

/-- Names in the order they were first asked for; the number of a name is its position. -/
structure Numbering where
  names : List String := []
  deriving DecidableEq

namespace Numbering

/-- The number of a name that has one. -/
def lookup? (n : Numbering) (name : String) : Option Nat := n.names.idxOf? name

/-- The number of a name, and the numbering in which it has one. -/
def number (n : Numbering) (name : String) : Nat × Numbering :=
  match n.lookup? name with
  | some i => (i, n)
  | none => (n.names.length, ⟨n.names ++ [name]⟩)

/-- A name that was asked for keeps the number it was given. -/
theorem lookup?_number (n : Numbering) (name : String) :
    (n.number name).2.lookup? name = some (n.number name).1 := by
  cases h : n.lookup? name with
  | some i => simp [number, h]
  | none =>
    have absent : n.names.findIdx? (· == name) = none := h
    simp only [number, h]
    simp [lookup?, List.idxOf?, List.findIdx?_append, absent]

/-- Asking for a name changes the number of no other. -/
theorem lookup?_number_of_ne (n : Numbering) {name other : String} (h : other ≠ name) :
    (n.number name).2.lookup? other = n.lookup? other := by
  cases hl : n.lookup? name with
  | some i => simp [number, hl]
  | none =>
    simp only [number, hl]
    simp [lookup?, List.idxOf?, List.findIdx?_append, h.symm]

end Numbering

/-- The numberings of the two address spaces. -/
structure Slots where
  storage : Numbering := {}
  memory : Numbering := {}
  deriving DecidableEq

namespace Slots

/-- The storage cell of a name. -/
def storageSlot (s : Slots) (name : String) : Nat × Slots :=
  let (i, storage) := s.storage.number name
  (i, { s with storage })

/-- The memory cell of a name. -/
def memorySlot (s : Slots) (name : String) : Nat × Slots :=
  let (i, memory) := s.memory.number name
  (i, { s with memory })

/-- The storage cell of a name that has one. -/
def lookupStorage? (s : Slots) (name : String) : Option Nat := s.storage.lookup? name

/-- The memory cell of a name that has one. -/
def lookupMemory? (s : Slots) (name : String) : Option Nat := s.memory.lookup? name

/-- Frees all memory cells. -/
def resetMemory (s : Slots) : Slots := { s with memory := {} }

end Slots

end Covenant
