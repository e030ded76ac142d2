import Covenant.Proofs.Machine.Shapes

/-!
# Memory

An instruction that uses the memory has the key of a cell in it, or takes the key from the stack. In
code that checks, the key is known before the code runs if it is pushed right before it is used, for
then the shape of the stack at this place has it on top.

* `MemoryKeys` reads the keys off a code list in which every memory instruction stands behind the
  `push` of its key, and `MemoryKeys.mem_of_inShape` says that a run goes to cells under these keys.
* `MemoryWithin` says that all that is in a memory is under some keys. One turn keeps it so
  (`MemoryWithin.next`), and with it a run (`MemoryWithin.reaches`).
-/

namespace Covenant

/-! ### Keys in code -/

namespace Instruction

/-- Whether an instruction reads or writes the memory. -/
def usesMemory : Instruction → Bool
  | .pushParam _ | .mload | .mstore => true
  | _ => false

/-- The key of the memory cell that an instruction reads or writes on a stack. -/
def memoryKey? : Instruction → List Word → Option Word
  | .pushParam key, _ => some key
  | .mload, stack => stack.head?
  | .mstore, stack => stack.head?
  | _, _ => none

end Instruction

/-- The keys under which code reads and writes the memory, from top to bottom. An instruction that
takes its key from the stack stands right behind the `push` of it. -/
inductive MemoryKeys : List Instruction → List Word → Prop
  | nil : MemoryKeys [] []
  | parameter {key : Word} {code : List Instruction} {keys : List Word}
      (h : MemoryKeys code keys) : MemoryKeys (.pushParam key :: code) (key :: keys)
  | cell {key : Word} {i : Instruction} {code : List Instruction} {keys : List Word}
      (hi : i = .mload ∨ i = .mstore) (h : MemoryKeys code keys) :
      MemoryKeys (.push key :: i :: code) (key :: keys)
  | other {i : Instruction} {code : List Instruction} {keys : List Word}
      (hi : i.usesMemory = false) (h : MemoryKeys code keys) : MemoryKeys (i :: code) keys

/-- The memory instruction at a position has this key, in it or right before it. -/
def KeyAt (code : List Instruction) (pc : Nat) (key : Word) : Prop :=
  code[pc]? = some (.pushParam key)
    ∨ (code[pc]? = some .mload ∨ code[pc]? = some .mstore)
      ∧ ∃ before, pc = before + 1 ∧ code[before]? = some (.push key)

/-- A key keeps its place relative to its instruction when the code gets longer in front. -/
theorem KeyAt.cons {code : List Instruction} {pc : Nat} {key : Word} (h : KeyAt code pc key)
    (i : Instruction) : KeyAt (i :: code) (pc + 1) key := by
  refine h.imp id (And.imp id ?_)
  rintro ⟨before, rfl, hbefore⟩
  exact ⟨before + 1, rfl, hbefore⟩

namespace MemoryKeys

variable {code code' : List Instruction} {keys keys' : List Word}

/-- The keys of two pieces of code are those of the first and then those of the second. -/
theorem append (h : MemoryKeys code keys) (h' : MemoryKeys code' keys') :
    MemoryKeys (code ++ code') (keys ++ keys') := by
  induction h with
  | nil => exact h'
  | parameter _ ih => exact .parameter ih
  | cell hi _ ih => exact .cell hi ih
  | other hi _ ih => exact .other hi ih

/-- Code that does not use the memory has no keys. -/
theorem of_usesMemory (h : ∀ i ∈ code, i.usesMemory = false) : MemoryKeys code [] := by
  induction code with
  | nil => exact .nil
  | cons i rest ih =>
    rw [List.forall_mem_cons] at h
    exact .other h.1 (ih h.2)

/-- There are no more keys than instructions. -/
theorem length_le (h : MemoryKeys code keys) : keys.length ≤ code.length := by
  induction h with
  | nil => exact Nat.le_refl _
  | parameter _ ih => exact Nat.succ_le_succ ih
  | cell _ _ ih => exact Nat.succ_le_succ (Nat.le_succ_of_le ih)
  | other _ _ ih => exact Nat.le_succ_of_le ih

/-- A memory instruction has a key, and that is one of the keys of the code. -/
theorem exists_keyAt (h : MemoryKeys code keys) {pc : Nat} {i : Instruction}
    (hget : code[pc]? = some i) (hi : i.usesMemory = true) : ∃ key ∈ keys, KeyAt code pc key := by
  -- The induction is on how the code was read, one instruction or two at a time.
  induction h generalizing pc with
  | nil => cases hget
  | @parameter key code keys _ ih =>
    cases pc with
    | zero => exact ⟨key, List.mem_cons_self, Or.inl rfl⟩
    | succ pc =>
      obtain ⟨other, hother, hat⟩ := ih hget
      exact ⟨other, List.mem_cons_of_mem _ hother, hat.cons _⟩
  | @cell key j code keys hj _ ih =>
    rcases pc with _ | _ | pc
    · cases hget
      cases hi
    · exact ⟨key, List.mem_cons_self, Or.inr ⟨hj.imp (congrArg some) (congrArg some), 0, rfl, rfl⟩⟩
    · obtain ⟨other, hother, hat⟩ := ih hget
      exact ⟨other, List.mem_cons_of_mem _ hother, (hat.cons _).cons _⟩
  | @other j code keys hj _ ih =>
    cases pc with
    | zero =>
      cases hget
      rw [hj] at hi
      cases hi
    | succ pc =>
      obtain ⟨other, hother, hat⟩ := ih hget
      exact ⟨other, hother, hat.cons _⟩

end MemoryKeys

/-! ### Runs -/

/-- All that is in a memory is under these keys. -/
def MemoryWithin (keys : List Word) (memory : Memory) : Prop :=
  ∀ key w, memory.get? key = some w → key ∈ keys

section Run

variable {ω : Type} [Stores ω] {limits : Limits} {program : Word} {code : List Instruction}
  {bound : Nat} {f f' : Frame} {s s' : ω} {keys all : List Word} {key : Word} {memory : Memory}

/-- A word under one of the keys keeps a memory within them. -/
theorem MemoryWithin.insert (h : MemoryWithin keys memory) (hkey : key ∈ keys) (w : Word) :
    MemoryWithin keys (memory.insert key w) := by
  intro other w' hget
  rw [Table.get?_insert] at hget
  by_cases hsame : other = key
  · exact hsame ▸ hkey
  · rw [if_neg hsame] at hget
    exact h other w' hget

theorem MemoryWithin.foldl_insert {pairs : List (Word × Word)}
    (hpairs : ∀ pair ∈ pairs, pair.1 ∈ keys) (h : MemoryWithin keys memory) :
    MemoryWithin keys (pairs.foldl (fun memory pair => memory.insert pair.1 pair.2) memory) := by
  induction pairs generalizing memory with
  | nil => exact h
  | cons pair rest ih =>
    rw [List.forall_mem_cons] at hpairs
    exact ih hpairs.2 (h.insert hpairs.1 pair.2)

/-- A call starts with nothing in memory but arguments. -/
theorem memoryWithin_bind {parameters : List Word} (h : parameters ⊆ keys) (arguments : List Word) :
    MemoryWithin keys (Machine.bind parameters arguments) := by
  refine MemoryWithin.foldl_insert (fun pair hpair => h (List.of_mem_zip hpair).1) ?_
  intro key w hget
  cases hget

/-- An instruction leaves the memory as it is, or writes to the cell of its key. -/
theorem memory_of_move {i : Instruction} {pc : Nat} {stack : List Word} {memory' : Memory}
    (h : i.move program pc stack memory s = (s', .pass memory')) :
    memory' = memory
      ∨ ∃ key w, i.memoryKey? stack = some key ∧ memory' = memory.insert key w := by
  rcases Nat.lt_or_ge stack.length i.effect.1 with hshort | hle
  · rw [move_of_short hshort] at h
    cases h
  · have hconforms := conforms_move program pc memory s hle
    rw [h] at hconforms
    obtain ⟨hzero, hjump⟩ := hconforms
    -- Only instructions that push nothing pass, and of these only one writes to the memory.
    cases i with
    | pop =>
      cases stack with
      | nil => cases h
      | cons w rest =>
        cases h
        exact Or.inl rfl
    | sstore =>
      rcases stack with _ | ⟨address, _ | ⟨w, rest⟩⟩
      · cases h
      · cases h
      · have hwrite : Move.ofWrite memory (Instruction.writeCell s program address w).2
            = .pass memory' := congrArg Prod.snd h
        cases hresult : (Instruction.writeCell s program address w).2 with
        | error e => rw [hresult] at hwrite; cases hwrite
        | ok => rw [hresult] at hwrite; cases hwrite; exact Or.inl rfl
    | mstore =>
      rcases stack with _ | ⟨key, _ | ⟨w, rest⟩⟩
      · cases h
      · cases h
      · cases h
        exact Or.inr ⟨key, w, rfl, rfl⟩
    | jump => exact absurd rfl hjump
    | jumpi =>
      rcases stack with _ | ⟨condition, _ | ⟨target, rest⟩⟩
      · cases h
      · cases h
      · have htest : (if condition.isTrue then Move.pass memory else .jump target)
            = .pass memory' := congrArg Prod.snd h
        cases hcondition : condition.isTrue with
        | true => rw [hcondition] at htest; cases htest; exact Or.inl rfl
        | false => rw [hcondition] at htest; cases htest
    | _ => cases hzero

/-- Where the stack is in shape, the next instruction goes to a cell under one of the keys. -/
theorem MemoryKeys.mem_of_inShape (h : MemoryKeys code keys) (hshape : InShape code bound f)
    {i : Instruction} (hget : code[f.pc]? = some i) (hkey : i.memoryKey? f.stack = some key) :
    key ∈ keys := by
  obtain ⟨hpc, -⟩ := List.getElem?_eq_some_iff.1 hget
  have hi : i.usesMemory = true := by
    cases i with
    | pushParam key => rfl
    | mload => rfl
    | mstore => rfl
    | _ => cases hkey
  obtain ⟨known, hmem, hparameter | ⟨hcell, before, hbefore, hpush⟩⟩ := h.exists_keyAt hget hi
  · rw [hget] at hparameter
    cases hparameter
    cases hkey
    exact hmem
  · -- The key has just been pushed, and the shape of the stack knows it.
    have hdescribes : Describes (some known :: shapeAt code before) f.stack := by
      have hhere := hshape.describes hpc
      rwa [hbefore, shapeAt_succ hpush] at hhere
    have hhead : i.memoryKey? f.stack = f.stack.head? := by
      rw [hget] at hcell
      rcases hcell with hload | hstore
      · cases hload
        rfl
      · cases hstore
        rfl
    rw [hhead] at hkey
    generalize f.stack = stack at hdescribes hkey
    cases hdescribes with
    | cons hknown _ =>
      cases hkey
      exact hknown known rfl ▸ hmem

/-- A turn keeps the memory within keys that include those of the code. -/
theorem MemoryWithin.next (hkeys : MemoryKeys code keys) (hsub : keys ⊆ all)
    (hshape : InShape code bound f) (h : MemoryWithin all f.memory)
    (hturn : turn limits program code f s = .next f' s') : MemoryWithin all f'.memory := by
  have hmade := made_turn limits program code f s
  rw [hturn] at hmade
  cases hmade with
  | @next i _ _ move hget hlimit hmove hsettle =>
    have hsettles := settles limits code.length (f.entered i) move
    rw [hsettle] at hsettles
    cases hsettles with
    | push hroom => exact h
    | jump hindex hle => exact h
    | pass memory =>
      rcases memory_of_move hmove with rfl | ⟨key, w, hkey, rfl⟩
      · exact h
      · exact h.insert (hsub (hkeys.mem_of_inShape hshape hget hkey)) w

/-- Wherever a run comes to, its memory is within the keys. -/
theorem MemoryWithin.reaches (hkeys : MemoryKeys code keys) (hsub : keys ⊆ all)
    (hchecks : ChecksFrom code bound 0 code.length) (hsize : code.length < Text.indexBound)
    (hshape : InShape code bound f) (h : MemoryWithin all f.memory)
    (hreach : Reaches limits program code f s f' s') : MemoryWithin all f'.memory := by
  induction hreach with
  | refl f s => exact h
  | step hturn _ ih =>
    exact ih (hshape.next hchecks hsize hturn) (h.next hkeys hsub hshape hturn)

end Run

end Covenant
