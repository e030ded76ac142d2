import Covenant.Proofs.Machine.Turn

/-!
# Safety of code

An instruction missteps when it finds too few words on the stack or jumps out of its code. Whether it
does is settled by the position and the stack alone: memory and stores can make an instruction fault,
but never in one of these two ways. `Safe` therefore speaks of positions and stacks, for any memory
and any stores.

`Safe` counts turns. A loop is safe for one turn more than its next round, so its safety goes by
induction on the number of turns, and straight code only has to hand on the number it was given.

* `Safe.push`, `Safe.jump` and the others are the rules, one for every instruction.
* `Safe.run` brings safety back to runs: a run that ends has faulted in another way, or has come to
  a place it was safe up to.
-/

namespace Covenant

/-- Whether a fault is a misstep of the code: too few words on the stack, or a jump out of it. -/
def Fault.isMisstep : Fault → Bool
  | .stackUnderflow .. | .jumpOutOfBounds .. => true
  | _ => false

section Safe

variable {ω : Type} [Stores ω]

/-- From a position and a stack the machine goes on for `n` turns or up to a place of `Q`: it does
not halt before, and faults only without a misstep. -/
def Safe (ω : Type) [Stores ω] (limits : Limits) (program : Word) (code : List Instruction)
    (Q : Nat → List Word → Prop) : (n pc : Nat) → List Word → Prop
  | 0, _, _ => True
  | n + 1, pc, stack =>
    Q pc stack ∨ ∀ (memory : Memory) (steps : Nat) (s : ω),
      match turn limits program code ⟨stack, memory, pc, steps⟩ s with
      | .halted => False
      | .faulted o => ∃ e, o.result = .error e ∧ e.isMisstep = false
      | .next f _ => Safe ω limits program code Q n f.pc f.stack

variable {limits : Limits} {program : Word} {code : List Instruction}
  {Q : Nat → List Word → Prop} {n pc : Nat} {stack : List Word}

/-- A place of `Q` is safe. -/
theorem Safe.exit (h : Q pc stack) : Safe ω limits program code Q n pc stack := by
  cases n with
  | zero => trivial
  | succ n => exact Or.inl h

/-- What is safe for some turns is safe for fewer. -/
theorem Safe.pred (h : Safe ω limits program code Q (n + 1) pc stack) :
    Safe ω limits program code Q n pc stack := by
  -- On the turns left: each place on the way has one turn more than is asked for.
  induction n generalizing pc stack with
  | zero => trivial
  | succ n ih =>
    rcases h with hexit | hturn
    · exact Or.inl hexit
    · refine Or.inr fun memory steps s => ?_
      have h := hturn memory steps s
      cases ht : turn limits program code ⟨stack, memory, pc, steps⟩ s with
      | halted => rw [ht] at h; exact h
      | faulted o => rw [ht] at h; exact h
      | next f s' => rw [ht] at h; exact ih h

/-! ### The rules of the instructions -/

/-- An instruction is safe if, executed with any memory and stores, it faults without a misstep or
leads to a safe place. -/
theorem Safe.execute {i : Instruction} (hget : code[pc]? = some i)
    (h : ∀ (memory : Memory) (steps : Nat) (s : ω),
      match (i.execute limits program code.length pc ⟨stack, memory, pc + 1, steps⟩ s).2 with
      | .ok f => Safe ω limits program code Q n f.pc f.stack
      | .error e => e.isMisstep = false) :
    Safe ω limits program code Q (n + 1) pc stack := by
  refine Or.inr fun memory steps s => ?_
  unfold turn
  simp only [hget]
  -- A turn faults at the step limit or by its instruction; it does not halt, as there is one.
  split
  · next hturn =>
    split at hturn
    · cases hturn
    · split at hturn <;> cases hturn
  · next o hturn =>
    split at hturn
    · cases hturn
      exact ⟨_, rfl, rfl⟩
    · have hexec := h memory (steps + 1) s
      split at hturn
      · cases hturn
      · next e he =>
        cases hturn
        rw [he] at hexec
        exact ⟨e, rfl, hexec⟩
  · next f s' hturn =>
    split at hturn
    · cases hturn
    · have hexec := h memory (steps + 1) s
      split at hturn
      · next f' he =>
        cases hturn
        rw [he] at hexec
        exact hexec
      · cases hturn

/-- A frame that gets one more word is safe if it is safe with that word. -/
theorem Safe.pushed {f : Frame} {w : Word}
    (h : Safe ω limits program code Q n f.pc (w :: f.stack)) :
    match f.push limits w with
    | .ok f => Safe ω limits program code Q n f.pc f.stack
    | .error e => e.isMisstep = false := by
  rcases push_cases limits f w with hpush | hpush
  · rw [hpush]; exact h
  · rw [hpush]; rfl

theorem Safe.push {w : Word} (hget : code[pc]? = some (.push w))
    (h : Safe ω limits program code Q n (pc + 1) (w :: stack)) :
    Safe ω limits program code Q (n + 1) pc stack := by
  refine Safe.execute hget fun memory steps s => ?_
  exact Safe.pushed (f := ⟨stack, memory, pc + 1, steps⟩) h

/-- A parameter may be any word, and one that is not there is no misstep. -/
theorem Safe.pushParam {key : Word} (hget : code[pc]? = some (.pushParam key))
    (h : ∀ w, Safe ω limits program code Q n (pc + 1) (w :: stack)) :
    Safe ω limits program code Q (n + 1) pc stack := by
  refine Safe.execute hget fun memory steps s => ?_
  simp only [Instruction.execute, Instruction.execLocal]
  cases memory.get? key with
  | none => rfl
  | some w => exact Safe.pushed (f := ⟨stack, memory, pc + 1, steps⟩) (h w)

/-- A cell of memory may hold any word, and one that was not written is no misstep. -/
theorem Safe.mload {key : Word} (hget : code[pc]? = some .mload)
    (h : ∀ w, Safe ω limits program code Q n (pc + 1) (w :: stack)) :
    Safe ω limits program code Q (n + 1) pc (key :: stack) := by
  refine Safe.execute hget fun memory steps s => ?_
  simp only [Instruction.execute, Instruction.execLocal]
  cases memory.get? key with
  | none => rfl
  | some w => exact Safe.pushed (f := ⟨stack, memory, pc + 1, steps⟩) (h w)

theorem Safe.mstore {key w : Word} (hget : code[pc]? = some .mstore)
    (h : Safe ω limits program code Q n (pc + 1) stack) :
    Safe ω limits program code Q (n + 1) pc (key :: w :: stack) :=
  Safe.execute hget fun _ _ _ => h

/-- A digest may be any word. -/
theorem Safe.hash256 {w : Word} (hget : code[pc]? = some .hash256)
    (h : ∀ w, Safe ω limits program code Q n (pc + 1) (w :: stack)) :
    Safe ω limits program code Q (n + 1) pc (w :: stack) := by
  refine Safe.execute hget fun memory steps s => ?_
  exact Safe.pushed (f := ⟨stack, memory, pc + 1, steps⟩) (h w.hash)

/-- An operator takes two words. Dividing by zero is no misstep. -/
theorem Safe.binary {op : Operator} {l r : Word} (hget : code[pc]? = some (.binary op))
    (h : ∀ w, Safe ω limits program code Q n (pc + 1) (w :: stack)) :
    Safe ω limits program code Q (n + 1) pc (r :: l :: stack) := by
  refine Safe.execute hget fun memory steps s => ?_
  simp only [Instruction.execute, Instruction.execLocal]
  cases op.apply l r with
  | none => rfl
  | some w => exact Safe.pushed (f := ⟨stack, memory, pc + 1, steps⟩) (h w)

/-- What a read of the stores reports is no misstep. -/
theorem isMisstep_of_readCell {s : ω} {address : Word} {e : Fault}
    (h : Instruction.readCell s address = .error e) : e.isMisstep = false := by
  rcases fault_of_readCell h with rfl | ⟨cause, rfl⟩
  · rfl
  · rfl

/-- What a write to the stores reports is no misstep. -/
theorem isMisstep_of_writeCell {s s' : ω} {program address value : Word} {e : Fault}
    (h : Instruction.writeCell s program address value = (s', .error e)) :
    e.isMisstep = false := by
  obtain ⟨cause, rfl⟩ := fault_of_writeCell (congrArg Prod.snd h)
  rfl

/-- A word from the storage may be any word. -/
theorem Safe.sload {address : Word} (hget : code[pc]? = some .sload)
    (h : ∀ w, Safe ω limits program code Q n (pc + 1) (w :: stack)) :
    Safe ω limits program code Q (n + 1) pc (address :: stack) := by
  refine Safe.execute hget fun memory steps s => ?_
  simp only [Instruction.execute]
  cases hread : Instruction.readCell s address with
  | error e => exact isMisstep_of_readCell hread
  | ok w => exact Safe.pushed (f := ⟨stack, memory, pc + 1, steps⟩) (h w)

/-- Storing takes two words, and what the stores report is no misstep. -/
theorem Safe.sstore {address value : Word} (hget : code[pc]? = some .sstore)
    (h : Safe ω limits program code Q n (pc + 1) stack) :
    Safe ω limits program code Q (n + 1) pc (address :: value :: stack) := by
  refine Safe.execute hget fun memory steps s => ?_
  simp only [Instruction.execute]
  rcases hwrite : Instruction.writeCell s program address value with ⟨s', e | ⟨⟩⟩
  · exact isMisstep_of_writeCell hwrite
  · exact h

/-- A jump is safe if its target is, which lies in the code or right behind it. -/
theorem Safe.jump {target : Nat} (hget : code[pc]? = some .jump) (hle : target ≤ code.length)
    (hsize : code.length < Text.indexBound)
    (h : Safe ω limits program code Q n target stack) :
    Safe ω limits program code Q (n + 1) pc (Word.ofNat target :: stack) := by
  refine Safe.execute hget fun memory steps s => ?_
  simp only [Instruction.execute, Instruction.execLocal]
  rw [jump_of_le hle hsize]
  exact h

/-- A test is safe if both ways are, as the word it finds may be any. -/
theorem Safe.jumpi {target : Nat} {w : Word} (hget : code[pc]? = some .jumpi)
    (hle : target ≤ code.length) (hsize : code.length < Text.indexBound)
    (hnext : Safe ω limits program code Q n (pc + 1) stack)
    (htaken : Safe ω limits program code Q n target stack) :
    Safe ω limits program code Q (n + 1) pc (w :: Word.ofNat target :: stack) := by
  refine Safe.execute hget fun memory steps s => ?_
  simp only [Instruction.execute, Instruction.execLocal]
  rw [jump_of_le hle hsize]
  cases w.isTrue with
  | true => exact hnext
  | false => exact htaken

/-! ### Safe runs -/

/-- A run that ends from a safe place has faulted without a misstep, or comes to a place of `Q` and
ends as it does from there. -/
theorem Safe.run {fuel : Nat} {f : Frame} {s : ω} {o : Outcome ω}
    (hsafe : Safe ω limits program code Q (fuel + 1) f.pc f.stack)
    (hrun : Covenant.run limits program code fuel f s = some o) :
    (∃ e, o.result = .error e ∧ e.isMisstep = false)
      ∨ ∃ f' s' fuel', Reaches limits program code f s f' s' ∧ Q f'.pc f'.stack
        ∧ Covenant.run limits program code fuel' f' s' = some o := by
  -- Safe for one turn more than there is fuel: without fuel, that turn shows that the run is not over.
  induction fuel generalizing f s with
  | zero =>
    rcases hsafe with hexit | hturn
    · exact Or.inr ⟨f, s, 0, .refl f s, hexit, hrun⟩
    · have h := hturn f.memory f.steps s
      cases ht : turn limits program code f s with
      | halted => rw [ht] at h; exact h.elim
      | _ =>
        rw [run_zero_of_not_halted (by rw [ht]; simp)] at hrun
        cases hrun
  | succ fuel ih =>
    rcases hsafe with hexit | hturn
    · exact Or.inr ⟨f, s, fuel + 1, .refl f s, hexit, hrun⟩
    · have h := hturn f.memory f.steps s
      cases ht : turn limits program code f s with
      | halted => rw [ht] at h; exact h.elim
      | faulted o' =>
        rw [ht] at h
        rw [run_succ_of_faulted ht] at hrun
        cases hrun
        exact Or.inl h
      | next f' s' =>
        rw [ht] at h
        rw [run_succ_of_next ht] at hrun
        rcases ih h hrun with hfault | ⟨f'', s'', fuel', hreach, hQ, hrest⟩
        · exact Or.inl hfault
        · exact Or.inr ⟨f'', s'', fuel', .step ht hreach, hQ, hrest⟩

/-- A run that ends does so from every frame on its way. -/
theorem run_of_reaches {fuel : Nat} {f f' : Frame} {s s' : ω} {o : Outcome ω}
    (hreach : Reaches limits program code f s f' s')
    (hrun : run limits program code fuel f s = some o) :
    ∃ fuel', run limits program code fuel' f' s' = some o := by
  induction hreach generalizing fuel with
  | refl f s => exact ⟨fuel, hrun⟩
  | step hturn _ ih =>
    have hmore := run_add hrun 1
    rw [run_succ_of_next hturn] at hmore
    exact ih hmore

end Safe

end Covenant
