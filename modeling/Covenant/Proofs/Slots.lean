import Covenant.Proofs.Table
import Covenant.Slots
import Mathlib.Data.List.DropRight

/-!
# Slots by first request

The slots of a contract are asked for in any order: for a name in storage or in memory, with or
without taking a number for it, and memory may be freed in between. What is answered depends on the
names that were asked for alone. They are numbered in the order in which they came up first, and a
number stays what it is until its space is freed.

* `SlotRequest` is what can be asked for, `Slots.answer` the answer, and `SlotRequest.names` are the
  names that count in a space.
* `Numbers` says that names are numbered by first occurrence. `Numbering.numbers_number` is about one
  name more, `Slots.numbers_after` about any history of requests.
* `Slots.numbering_answer` is what one request does to the numbers of a space; that numbers stay and
  that the spaces are independent follows from it alone.
* `Slots.slots_are_numbered_by_first_request` is about the answers.

The numbers can as well be kept in a table from names to numbers, in which the next number is the size
of the table. `SlotTables` are slots of this kind, and `Slots.tables_answer_alike` says that no request
tells them from a numbering.
-/

namespace Covenant

/-- The two address spaces that have slots. -/
inductive Space where
  | storage
  | memory
  deriving DecidableEq

/-- Something that is asked of the slots of a contract. -/
inductive SlotRequest where
  /-- The slot of a name, which takes one if it has none. -/
  | slot (space : Space) (name : String)
  /-- The slot of a name that has one. -/
  | lookup (space : Space) (name : String)
  | resetMemory
  deriving DecidableEq

namespace SlotRequest

/-- Whether a request is about a space. -/
def concerns (space : Space) : SlotRequest → Bool
  | .slot other _ | .lookup other _ => other = space
  | .resetMemory => space = .memory

/-- Whether a request frees the slots of a space. -/
def clears (space : Space) : SlotRequest → Bool
  | .resetMemory => space = .memory
  | _ => false

/-- The name for which a request takes a slot of a space. -/
def taken? (space : Space) : SlotRequest → Option String
  | .slot other name => if other = space then some name else none
  | _ => none

/-- The names for which slots of a space were asked since it was freed last, in the order of the
requests. -/
def names (space : Space) (requests : List SlotRequest) : List String :=
  (requests.rtakeWhile fun r => !r.clears space).filterMap (taken? space)

/-- One more request clears the names, or adds its own. -/
theorem names_concat (space : Space) (requests : List SlotRequest) (r : SlotRequest) :
    names space (requests ++ [r])
      = if r.clears space then [] else names space requests ++ (r.taken? space).toList := by
  rw [names, List.rtakeWhile_concat]
  cases r.clears space with
  | true => rfl
  | false =>
    rw [if_pos Bool.not_false, List.filterMap_append, List.filterMap_cons, List.filterMap_nil]
    cases r.taken? space <;> rfl

end SlotRequest

namespace Slots

/-- The numbers of the names in a space. -/
def numbering (s : Slots) : Space → Numbering
  | .storage => s.storage
  | .memory => s.memory

/-- The answer to a request, and the slots after it. -/
def answer (s : Slots) : SlotRequest → Option Nat × Slots
  | .slot .storage name => ((s.storageSlot name).1, (s.storageSlot name).2)
  | .slot .memory name => ((s.memorySlot name).1, (s.memorySlot name).2)
  | .lookup .storage name => (s.lookupStorage? name, s)
  | .lookup .memory name => (s.lookupMemory? name, s)
  | .resetMemory => (none, s.resetMemory)

/-- The slots after requests in turn, none being taken before. -/
def after (requests : List SlotRequest) : Slots :=
  requests.foldl (fun s r => (s.answer r).2) {}

end Slots

/-! ### Numbers in order of first occurrence -/

/-- The names of a list are mapped one-to-one onto the numbers below a count, in the order in which
they first occur. No other name has a number. -/
structure Numbers (names : List String) (count : Nat) (number : String → Option Nat) : Prop where
  isSome_iff : ∀ name, (number name).isSome ↔ name ∈ names
  inj : ∀ a b i, number a = some i → number b = some i → a = b
  lt_iff : ∀ i, i < count ↔ ∃ name, number name = some i
  order : ∀ a b i j, number a = some i → number b = some j →
    (i < j ↔ names.idxOf a < names.idxOf b)

namespace Numbers

variable {names : List String} {count : Nat} {number : String → Option Nat} {name : String} {i : Nat}

theorem mem (h : Numbers names count number) (hname : number name = some i) : name ∈ names :=
  (h.isSome_iff name).1 (by rw [hname]; rfl)

/-- A name that occurs again changes nothing. -/
theorem concat_of_mem (h : Numbers names count number) (hmem : name ∈ names) :
    Numbers (names ++ [name]) count number where
  isSome_iff other := by
    rw [h.isSome_iff, List.mem_append, List.mem_singleton]
    exact ⟨Or.inl, fun hother => hother.elim id fun heq => heq ▸ hmem⟩
  inj := h.inj
  lt_iff := h.lt_iff
  order a b i j ha hb := by
    rw [List.idxOf_append_of_mem (h.mem ha), List.idxOf_append_of_mem (h.mem hb)]
    exact h.order a b i j ha hb

end Numbers

namespace Numbering

variable {n : Numbering} {names : List String} {name : String} {i : Nat}

/-- A number is below the count of the names. -/
theorem lt_of_lookup? (h : n.lookup? name = some i) : i < n.names.length := by
  obtain ⟨hlt, -⟩ := List.findIdx?_eq_some_iff_getElem.1 h
  exact hlt

/-- No two names have the same number. -/
theorem eq_of_lookup? {other : String} (h : n.lookup? name = some i)
    (h' : n.lookup? other = some i) : name = other := by
  obtain ⟨_, hname, -⟩ := List.findIdx?_eq_some_iff_getElem.1 h
  obtain ⟨_, hother, -⟩ := List.findIdx?_eq_some_iff_getElem.1 h'
  exact (beq_iff_eq.1 hname).symm.trans (beq_iff_eq.1 hother)

/-- A number that a name has stays with it, whatever is asked for next. -/
theorem lookup?_number_of_lookup? (h : n.lookup? name = some i) (other : String) :
    (n.number other).2.lookup? name = some i := by
  by_cases hsame : name = other
  · subst hsame
    simp only [number, h]
  · rw [lookup?_number_of_ne n hsame, h]

/-- A new name takes the next number, and changes no other. -/
theorem lookup?_number_eq_some_iff (hnew : n.lookup? name = none) {other : String} :
    (n.number name).2.lookup? other = some i
      ↔ n.lookup? other = some i ∨ other = name ∧ i = n.names.length := by
  by_cases hsame : other = name
  · subst hsame
    have hnext : (n.number other).1 = n.names.length := by simp only [number, hnew]
    rw [lookup?_number, hnext, hnew]
    simp [eq_comm]
  · rw [lookup?_number_of_ne n hsame]
    simp [hsame]

/-- If names are numbered in the order in which they first occur, then so they are with one more. -/
theorem numbers_number (h : Numbers names n.names.length n.lookup?) (name : String) :
    Numbers (names ++ [name]) (n.number name).2.names.length (n.number name).2.lookup? := by
  cases hlookup : n.lookup? name with
  | some i =>
    have hsame : (n.number name).2 = n := by simp only [number, hlookup]
    rw [hsame]
    exact h.concat_of_mem (h.mem hlookup)
  | none =>
    have hlength : (n.number name).2.names.length = n.names.length + 1 := by
      simp only [number, hlookup, List.length_append, List.length_singleton]
    have hname : name ∉ names := by
      rw [← h.isSome_iff, hlookup]
      simp
    -- Old names keep their places, and the new one stands behind them all.
    have hold : ∀ {a i}, n.lookup? a = some i → (names ++ [name]).idxOf a = names.idxOf a := fun ha =>
      List.idxOf_append_of_mem (h.mem ha)
    have hnew : (names ++ [name]).idxOf name = names.length := by
      rw [List.idxOf_append_of_notMem hname, List.idxOf_cons_self, Nat.add_zero]
    have hlt : ∀ {a i}, n.lookup? a = some i → names.idxOf a < names.length := fun ha =>
      List.idxOf_lt_length_of_mem (h.mem ha)
    rw [hlength]
    constructor
    · intro other
      rw [Option.isSome_iff_exists, List.mem_append, List.mem_singleton, ← h.isSome_iff,
        Option.isSome_iff_exists]
      simp only [lookup?_number_eq_some_iff hlookup, exists_or, exists_and_left, exists_eq, and_true]
    · intro a b i ha hb
      exact eq_of_lookup? ha hb
    · intro i
      rw [Nat.lt_succ_iff_lt_or_eq, h.lt_iff]
      simp only [lookup?_number_eq_some_iff hlookup, exists_or, exists_eq_left]
    · -- Two names, each of them old or the new one.
      intro a b i j ha hb
      rw [lookup?_number_eq_some_iff hlookup] at ha hb
      rcases ha with ha | ⟨rfl, rfl⟩
      · rcases hb with hb | ⟨rfl, rfl⟩
        · rw [hold ha, hold hb]
          exact h.order a b i j ha hb
        · rw [hold ha, hnew]
          exact iff_of_true (lt_of_lookup? ha) (hlt ha)
      · rcases hb with hb | ⟨rfl, rfl⟩
        · have hj := lt_of_lookup? hb
          have hb' := hlt hb
          rw [hnew, hold hb]
          omega
        · exact iff_of_false (Nat.lt_irrefl _) (Nat.lt_irrefl _)

theorem numbers_empty : Numbers [] 0 (lookup? {}) where
  isSome_iff name := by simp [lookup?]
  inj a b i ha := by cases ha
  lt_iff i := by simp [lookup?]
  order a b i j ha := by cases ha

end Numbering

/-! ### Histories of requests -/

namespace Slots

open SlotRequest

variable {s : Slots} {space : Space} {r : SlotRequest} {requests later : List SlotRequest}
  {name : String} {i : Nat}

/-- What a request does to the numbers of a space: it frees them, or takes one for a name, or leaves
them as they are. Nothing else counts, so a request about the other space does nothing. -/
theorem numbering_answer (s : Slots) (space : Space) (r : SlotRequest) :
    (s.answer r).2.numbering space
      = if r.clears space then {}
        else (r.taken? space).elim (s.numbering space) fun name =>
          ((s.numbering space).number name).2 := by
  cases r with
  | slot other name => cases other <;> cases space <;> rfl
  | lookup other name => cases other <;> rfl
  | resetMemory => cases space <;> rfl

/-- A slot is the number that the name takes in the space. -/
theorem answer_slot (s : Slots) (space : Space) (name : String) :
    (s.answer (.slot space name)).1 = some ((s.numbering space).number name).1 := by
  cases space <;> rfl

/-- A lookup takes nothing. -/
theorem answer_lookup (s : Slots) (space : Space) (name : String) :
    (s.answer (.lookup space name)).1 = (s.numbering space).lookup? name := by
  cases space <;> rfl

theorem after_concat (requests : List SlotRequest) (r : SlotRequest) :
    after (requests ++ [r]) = ((after requests).answer r).2 := by
  rw [after, List.foldl_append]
  rfl

/-- **After any requests, the names of a space are numbered in the order in which they were first
asked for** since the space was freed last. -/
theorem numbers_after (space : Space) (requests : List SlotRequest) :
    Numbers (names space requests) ((after requests).numbering space).names.length
      ((after requests).numbering space).lookup? := by
  induction requests using List.reverseRecOn with
  | nil => cases space <;> exact Numbering.numbers_empty
  | append_singleton requests r ih =>
    rw [after_concat, numbering_answer, names_concat]
    -- The last request starts the numbers again, takes one more, or changes nothing.
    cases r.clears space with
    | true => exact Numbering.numbers_empty
    | false =>
      cases r.taken? space with
      | none => rwa [Option.toList_none, List.append_nil]
      | some name => exact Numbering.numbers_number ih name

/-- A number that a name has stays with it as long as the space is not freed. -/
theorem lookup?_after_append (hkept : ∀ r ∈ later, r.clears space = false)
    (h : ((after requests).numbering space).lookup? name = some i) :
    ((after (requests ++ later)).numbering space).lookup? name = some i := by
  induction later using List.reverseRecOn with
  | nil => rwa [List.append_nil]
  | append_singleton later r ih =>
    have hlater := ih fun r hr => hkept r (List.mem_append_left _ hr)
    have hr : r.clears space = false := hkept r (List.mem_append_right _ List.mem_cons_self)
    rw [← List.append_assoc, after_concat, numbering_answer, hr]
    cases r.taken? space with
    | none => exact hlater
    | some other => exact Numbering.lookup?_number_of_lookup? hlater other

/-- A request that is not about a space leaves its numbers as they are. -/
theorem numbering_answer_of_not_concerns (h : r.concerns space = false) :
    (s.answer r).2.numbering space = s.numbering space := by
  have hclears : r.clears space = false := by
    cases r with
    | resetMemory => exact h
    | _ => rfl
  have htaken : r.taken? space = none := by
    cases r with
    | slot other name => exact if_neg (of_decide_eq_false h)
    | _ => rfl
  rw [numbering_answer, hclears, htaken]
  rfl

/-- The numbers of a space come from the requests about it alone. -/
theorem numbering_after_filter (space : Space) (requests : List SlotRequest) :
    (after (requests.filter (concerns space))).numbering space
      = (after requests).numbering space := by
  induction requests using List.reverseRecOn with
  | nil => rfl
  | append_singleton requests r ih =>
    rw [after_concat, List.filter_append, List.filter_cons, List.filter_nil]
    cases hconcerns : r.concerns space with
    | false => rw [if_neg Bool.false_ne_true, List.append_nil, ih,
        numbering_answer_of_not_concerns hconcerns]
    | true => rw [if_pos rfl, after_concat, numbering_answer, numbering_answer, ih]

/-- The answer to a request about a space is known from the numbers of the space. -/
theorem answer_congr {s' : Slots} (hr : r.concerns space = true)
    (h : s.numbering space = s'.numbering space) : (s.answer r).1 = (s'.answer r).1 := by
  cases r with
  | slot other name =>
    obtain rfl : other = space := of_decide_eq_true hr
    rw [answer_slot, answer_slot, h]
  | lookup other name =>
    obtain rfl : other = space := of_decide_eq_true hr
    rw [answer_lookup, answer_lookup, h]
  | resetMemory => rfl

/-- **Slots are numbered by first request.** After any requests, in storage as in memory, looking
names up gives numbers to the names that slots were asked for, in memory since it was freed last. The
names are mapped one-to-one onto the numbers below a count, in the order of their first requests; any
other name has none. Whatever number a name is given when its slot is asked for, it is given again
whenever it is asked for or looked up, until its space is freed. And what is answered about one space
is what is answered if nothing was ever asked about the other. -/
theorem slots_are_numbered_by_first_request (requests : List SlotRequest) (space : Space) :
    (∃ count, Numbers (names space requests) count fun name =>
        ((after requests).answer (.lookup space name)).1)
      ∧ (∀ name, ∃ i, ((after requests).answer (.slot space name)).1 = some i
        ∧ ∀ later, (∀ r ∈ later, r.clears space = false) →
          ((after (requests ++ .slot space name :: later)).answer (.slot space name)).1 = some i
          ∧ ((after (requests ++ .slot space name :: later)).answer (.lookup space name)).1 = some i)
      ∧ ∀ r, r.concerns space = true → ((after requests).answer r).1
        = ((after (requests.filter (concerns space))).answer r).1 := by
  refine ⟨⟨((after requests).numbering space).names.length, ?_⟩,
    fun name => ⟨_, answer_slot _ _ _, fun later hlater => ?_⟩, fun r hr => ?_⟩
  · simp only [answer_lookup]
    exact numbers_after space requests
  · -- From the request on the name has its number.
    have hfirst : ((after (requests ++ [.slot space name])).numbering space).lookup? name
        = some (((after requests).numbering space).number name).1 := by
      rw [after_concat, numbering_answer]
      cases space <;> exact Numbering.lookup?_number _ name
    have hlast := lookup?_after_append hlater hfirst
    rw [List.append_assoc, List.singleton_append] at hlast
    rw [answer_slot, answer_lookup, Numbering.number, hlast]
    exact ⟨rfl, rfl⟩
  · exact answer_congr hr (numbering_after_filter space requests).symm

end Slots

/-! ### Numbers kept in tables -/

/-- The number of a name in a table of numbers. A name that has none takes the size of the table. -/
def Table.number (t : Table String Nat) (name : String) : Nat × Table String Nat :=
  match t.get? name with
  | some i => (i, t)
  | none => (t.size, t.insert name t.size)

/-- A table holds the numbers of a numbering: as many, and the same for each name. -/
structure Numbering.HeldBy (n : Numbering) (t : Table String Nat) : Prop where
  size : t.size = n.names.length
  get? : ∀ name, t.get? name = n.lookup? name

theorem Numbering.heldBy_empty : HeldBy {} ∅ := ⟨rfl, fun _ => rfl⟩

/-- **The size of the table is the next number.** One more name gets the same number from the table as
from the numbering, and the table goes on to hold the numbers. -/
theorem Numbering.HeldBy.number {n : Numbering} {t : Table String Nat} (h : n.HeldBy t)
    (name : String) :
    (t.number name).1 = (n.number name).1 ∧ (n.number name).2.HeldBy (t.number name).2 := by
  cases hlookup : n.lookup? name with
  | some i =>
    have hget : t.get? name = some i := (h.get? name).trans hlookup
    simp only [Table.number, Numbering.number, hget, hlookup]
    exact ⟨trivial, h⟩
  | none =>
    have hget : t.get? name = none := (h.get? name).trans hlookup
    have hnumber : n.number name = (n.names.length, ⟨n.names ++ [name]⟩) := by
      simp only [Numbering.number, hlookup]
    simp only [Table.number, hget, hnumber]
    refine ⟨h.size, ?_, fun other => ?_⟩
    · rw [Table.size_insert_of_get?_eq_none hget, h.size, List.length_append, List.length_singleton]
    · -- Only the new name is looked up differently, on either side.
      have hafter : (⟨n.names ++ [name]⟩ : Numbering) = (n.number name).2 := by rw [hnumber]
      rw [Table.get?_insert, hafter]
      by_cases hsame : other = name
      · subst hsame
        rw [if_pos rfl, Numbering.lookup?_number, hnumber, h.size]
      · rw [if_neg hsame, Numbering.lookup?_number_of_ne n hsame, h.get?]

/-- The slots of a contract in two tables. -/
structure SlotTables where
  storage : Table String Nat := ∅
  memory : Table String Nat := ∅

namespace SlotTables

/-- The table of a space. -/
def table (t : SlotTables) : Space → Table String Nat
  | .storage => t.storage
  | .memory => t.memory

/-- The answer to a request, and the tables after it. -/
def answer (t : SlotTables) : SlotRequest → Option Nat × SlotTables
  | .slot .storage name =>
    ((t.storage.number name).1, { t with storage := (t.storage.number name).2 })
  | .slot .memory name => ((t.memory.number name).1, { t with memory := (t.memory.number name).2 })
  | .lookup space name => ((t.table space).get? name, t)
  | .resetMemory => (none, { t with memory := ∅ })

/-- The tables after requests in turn, both being empty before. -/
def after (requests : List SlotRequest) : SlotTables :=
  requests.foldl (fun t r => (t.answer r).2) {}

/-- The tables hold the numbers of both spaces. -/
def Hold (t : SlotTables) (s : Slots) : Prop := ∀ space, (s.numbering space).HeldBy (t.table space)

variable {t : SlotTables} {s : Slots}

/-- A request gets the same answer from tables that hold the numbers, and they go on to hold them. -/
theorem Hold.answer (h : t.Hold s) (r : SlotRequest) :
    (t.answer r).1 = (s.answer r).1 ∧ (t.answer r).2.Hold (s.answer r).2 := by
  cases r with
  | slot space name =>
    -- The request is about one table, and the other is held as before.
    obtain ⟨hnumber, hheld⟩ := (h space).number name
    cases space with
    | storage =>
      refine ⟨congrArg some hnumber, fun other => ?_⟩
      cases other with
      | storage => exact hheld
      | memory => exact h .memory
    | memory =>
      refine ⟨congrArg some hnumber, fun other => ?_⟩
      cases other with
      | storage => exact h .storage
      | memory => exact hheld
  | lookup space name =>
    refine ⟨((h space).get? name).trans (Slots.answer_lookup s space name).symm, fun other => ?_⟩
    cases space <;> exact h other
  | resetMemory =>
    refine ⟨rfl, fun other => ?_⟩
    cases other with
    | storage => exact h .storage
    | memory => exact Numbering.heldBy_empty

/-- After any requests, tables hold the numbers that the same requests have given. -/
theorem hold_after (requests : List SlotRequest) : (after requests).Hold (Slots.after requests) := by
  induction requests using List.reverseRecOn with
  | nil => intro space; cases space <;> exact Numbering.heldBy_empty
  | append_singleton requests r ih =>
    rw [Slots.after_concat, after, List.foldl_append]
    exact (ih.answer r).2

end SlotTables

/-- **Tables answer alike.** After any requests, any further one gets the same answer from tables in
which the next number is their size as from the slots of a contract. -/
theorem Slots.tables_answer_alike (requests : List SlotRequest) (r : SlotRequest) :
    ((SlotTables.after requests).answer r).1 = ((Slots.after requests).answer r).1 :=
  ((SlotTables.hold_after requests).answer r).1

end Covenant
