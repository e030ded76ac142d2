import Covenant.Machine
import Covenant.Proofs.Word

/-!
# Turns of the machine

`run` repeats one thing: look at the instruction at the position of the frame, count it against the
step limit, execute it. That one thing is a `Turn` here, and everything later says about runs goes
through it: a run that halts, faults or goes on does so because of its first turn.

* `turn` is one round of `run`, and `run_of_halted`, `run_succ_of_faulted` and `run_succ_of_next`
  are the equations of `run` by its first turn.
* `run_add` says that more fuel keeps a finished run as it is.
* `Reaches` is any number of turns, and `exists_last_turn` finds the one with which a run ends.
* `CodeAt` says that a piece of code stands at a position inside a longer one.
* `fault_of_readCell` and `fault_of_writeCell` say what can go wrong with a storage cell.
-/

namespace Covenant

variable {ω : Type}

/-- What the machine does at a frame: nothing more, a last turn that faults, or a turn after which
it goes on. -/
inductive Turn (ω : Type) where
  | halted
  | faulted (outcome : Outcome ω)
  | next (frame : Frame) (stores : ω)

variable [Stores ω]

/-- One round of a run. -/
def turn (limits : Limits) (program : Word) (code : List Instruction) (f : Frame) (stores : ω) :
    Turn ω :=
  match code[f.pc]? with
  | none => .halted
  | some i =>
    let started := { f with steps := f.steps + 1 }
    match started.exceeded limits with
    | some limit => .faulted ⟨stores, started, .error (.stepLimitExceeded limit)⟩
    | none =>
      let entered := { started with pc := f.pc + 1 }
      match i.execute limits program code.length f.pc entered stores with
      | (stores, .ok next) => .next next stores
      | (stores, .error e) => .faulted ⟨stores, entered, .error e⟩

section Limits

/-- So many instructions are within the step limit, if there is one. -/
def Limits.Allow (limits : Limits) (steps : Nat) : Prop :=
  ∀ limit, limits.steps = some limit → steps ≤ limit

/-- A limit that allows some steps allows fewer. -/
theorem Limits.Allow.mono {limits : Limits} {steps fewer : Nat} (h : limits.Allow steps)
    (hle : fewer ≤ steps) : limits.Allow fewer :=
  fun limit hlimit => Nat.le_trans hle (h limit hlimit)

/-- A frame that is within the step limit does not exceed it. -/
theorem Frame.exceeded_of_allow {limits : Limits} {f : Frame} (h : limits.Allow f.steps) :
    f.exceeded limits = none := by
  unfold Frame.exceeded
  cases hsteps : limits.steps with
  | none => rfl
  | some limit =>
    have hle : f.steps ≤ limit := h limit hsteps
    exact if_neg (by omega)

end Limits

section Cells

variable {s s' : ω} {program address w root : Word} {e : Fault}

/-- A read that fails finds no cell, or a fault of the stores. -/
theorem fault_of_readCell (h : Instruction.readCell s address = .error e) :
    e = .missingStorageKey address.hex ∨ ∃ cause, e = .store cause := by
  unfold Instruction.readCell at h
  split at h
  · -- The stores do not answer.
    cases h
    exact Or.inr ⟨_, rfl⟩
  · cases h
    exact Or.inl rfl
  · -- The cell is there, but is no word.
    split at h
    · cases h
    · cases h
      exact Or.inr ⟨_, rfl⟩

/-- A cell is read alike in stores that answer alike for it. The stores may be of two kinds. -/
theorem readCell_congr {ω' : Type} [Stores ω'] {t : ω'}
    (h : Stores.get? s .storage address.hex = Stores.get? t .storage address.hex) :
    Instruction.readCell s address = Instruction.readCell t address := by
  rw [Instruction.readCell, Instruction.readCell, h]

/-- A root is recorded if it can be computed and its insertion goes right. -/
theorem recordRoot_of_insert (hroot : Stores.root s .storage = .ok root)
    (hinsert : Stores.insert s .accounts program.hex root.toBytes = (s', .ok ())) :
    Instruction.recordRoot s program = (s', .ok ()) := by
  simp only [Instruction.recordRoot, hroot, hinsert]
  rfl

/-- A root that is not recorded is not there, or it is refused. -/
theorem recordRoot_eq_error (h : Instruction.recordRoot s program = (s', .error e)) :
    ∃ cause, e = .store cause
      ∧ ((Stores.root s .storage = .error cause ∧ s' = s)
        ∨ ∃ root, Stores.root s .storage = .ok root
          ∧ Stores.insert s .accounts program.hex root.toBytes = (s', .error cause)) := by
  unfold Instruction.recordRoot at h
  cases hroot : Stores.root s .storage with
  | error cause =>
    rw [hroot] at h
    cases h
    exact ⟨cause, rfl, Or.inl ⟨rfl, rfl⟩⟩
  | ok root =>
    rw [hroot] at h
    dsimp only at h
    rcases hinsert : Stores.insert s .accounts program.hex root.toBytes with ⟨s₁, cause | ⟨⟩⟩
    · rw [hinsert] at h
      cases h
      exact ⟨cause, rfl, Or.inr ⟨root, rfl, hinsert⟩⟩
    · rw [hinsert] at h
      cases h

/-- A write that fails fails for the stores. -/
theorem fault_of_writeCell (h : (Instruction.writeCell s program address w).2 = .error e) :
    ∃ cause, e = .store cause := by
  unfold Instruction.writeCell at h
  rcases hinsert : Stores.insert s .storage address.hex w.toBytes with ⟨s₁, cause | ⟨⟩⟩
  · rw [hinsert] at h
    cases h
    exact ⟨cause, rfl⟩
  · rw [hinsert] at h
    obtain ⟨cause, he, -⟩ := recordRoot_eq_error (Prod.ext rfl h)
    exact ⟨cause, he⟩

end Cells

section Run

variable {limits : Limits} {program : Word} {code : List Instruction} {f f' : Frame}
  {s s' : ω} {o : Outcome ω}

/-! ### Runs by their first turn -/

/-- A run halts where no instruction is left, and only there. -/
theorem turn_eq_halted_iff : turn limits program code f s = .halted ↔ code.length ≤ f.pc := by
  unfold turn
  constructor
  · intro h
    split at h
    · next hnone => exact List.getElem?_eq_none_iff.1 hnone
    · dsimp only at h
      split at h
      · cases h
      · split at h <;> cases h
  · intro h
    rw [List.getElem?_eq_none_iff.2 h]

/-- A run that halts is over, with or without fuel. -/
theorem run_of_halted (h : turn limits program code f s = .halted) (fuel : Nat) :
    run limits program code fuel f s = some ⟨s, f, .ok ()⟩ := by
  have hpc := turn_eq_halted_iff.1 h
  cases fuel with
  | zero => rw [run, if_neg (by omega)]
  | succ fuel => rw [run, List.getElem?_eq_none_iff.2 hpc]

/-- At the end of its code a run is over, with or without fuel. -/
theorem run_of_end (h : f.pc = code.length) (fuel : Nat) :
    run limits program code fuel f s = some ⟨s, f, .ok ()⟩ :=
  run_of_halted (turn_eq_halted_iff.2 (Nat.le_of_eq h.symm)) fuel

/-- Without fuel a run that has a turn to take is not finished. -/
theorem run_zero_of_not_halted (h : turn limits program code f s ≠ .halted) :
    run limits program code 0 f s = none := by
  have hpc : ¬ code.length ≤ f.pc := fun hle => h (turn_eq_halted_iff.2 hle)
  rw [run, if_pos (by omega)]

/-- With fuel for one more turn, a run is its first turn and the run after it. -/
theorem run_succ (fuel : Nat) (f : Frame) (s : ω) :
    run limits program code (fuel + 1) f s
      = match turn limits program code f s with
        | .halted => some ⟨s, f, .ok ()⟩
        | .faulted o => some o
        | .next f' s' => run limits program code fuel f' s' := by
  rw [run]
  unfold turn
  cases code[f.pc]? with
  | none => rfl
  | some i =>
    dsimp only
    cases ({ f with steps := f.steps + 1 } : Frame).exceeded limits with
    | some limit => rfl
    | none =>
      rcases i.execute limits program code.length f.pc
        { f with pc := f.pc + 1, steps := f.steps + 1 } s with ⟨s', e | f'⟩
      · rfl
      · rfl

/-- A run ends with a first turn that faults. -/
theorem run_succ_of_faulted (h : turn limits program code f s = .faulted o) (fuel : Nat) :
    run limits program code (fuel + 1) f s = some o := by
  rw [run_succ, h]

/-- After a first turn that goes on, a run is the run from there with less fuel. -/
theorem run_succ_of_next (h : turn limits program code f s = .next f' s') (fuel : Nat) :
    run limits program code (fuel + 1) f s = run limits program code fuel f' s' := by
  rw [run_succ, h]

/-- More fuel keeps a finished run as it is. -/
theorem run_add {fuel : Nat} (h : run limits program code fuel f s = some o) (more : Nat) :
    run limits program code (fuel + more) f s = some o := by
  -- On the fuel of the finished run: its first turn is the first turn with more fuel too.
  induction fuel generalizing f s with
  | zero =>
    cases ht : turn limits program code f s with
    | halted =>
      rw [run_of_halted ht] at h ⊢
      exact h
    | _ =>
      rw [run_zero_of_not_halted (by rw [ht]; simp)] at h
      cases h
  | succ fuel ih =>
    rw [show fuel + 1 + more = fuel + more + 1 by omega, run_succ]
    rw [run_succ] at h
    cases ht : turn limits program code f s with
    | halted => rw [ht] at h; exact h
    | faulted o' => rw [ht] at h; exact h
    | next f' s' => rw [ht] at h; exact ih h

/-- Two finished runs from one place are the same run, whatever fuel they had. -/
theorem run_unique {fuel fuel' : Nat} {o' : Outcome ω}
    (h : run limits program code fuel f s = some o)
    (h' : run limits program code fuel' f s = some o') : o = o' := by
  have hmore := run_add h fuel'
  have hmore' := run_add h' fuel
  rw [Nat.add_comm fuel' fuel, hmore] at hmore'
  exact Option.some.inj hmore'

end Run

/-! ### Pushes and jumps -/

/-- Putting a word on the stack goes right, or finds the stack full. -/
theorem push_cases (limits : Limits) (f : Frame) (w : Word) :
    f.push limits w = .ok { f with stack := w :: f.stack }
      ∨ f.push limits w = .error (.stackOverflow limits.stack) := by
  unfold Frame.push
  split
  · exact Or.inl rfl
  · exact Or.inr rfl

/-- A jump to a position that is no further than the end of the code goes there. -/
theorem jump_of_le {code : List Instruction} {target : Nat} (hle : target ≤ code.length)
    (hsize : code.length < Text.indexBound) (f : Frame) :
    f.jump code.length (Word.ofNat target) = .ok { f with pc := target } := by
  unfold Frame.jump
  rw [Word.toIndex?_ofNat (by omega)]
  exact if_pos hle

/-! ### Any number of turns -/

/-- The machine comes from one frame and stores to another in any number of turns. -/
inductive Reaches (limits : Limits) (program : Word) (code : List Instruction) :
    Frame → ω → Frame → ω → Prop where
  | refl (f : Frame) (s : ω) : Reaches limits program code f s f s
  | step {f f' f'' : Frame} {s s' s'' : ω} (hturn : turn limits program code f s = .next f' s')
      (hrest : Reaches limits program code f' s' f'' s'') :
      Reaches limits program code f s f'' s''

theorem Reaches.trans {limits : Limits} {program : Word} {code : List Instruction}
    {f f' f'' : Frame} {s s' s'' : ω} (h : Reaches limits program code f s f' s')
    (h' : Reaches limits program code f' s' f'' s'') : Reaches limits program code f s f'' s'' := by
  induction h with
  | refl => exact h'
  | step hturn _ ih => exact .step hturn (ih h')

/-- A run that ends comes to a last turn, which halts or faults. -/
theorem exists_last_turn {limits : Limits} {program : Word} {code : List Instruction} {fuel : Nat}
    {f : Frame} {s : ω} {o : Outcome ω} (hrun : run limits program code fuel f s = some o) :
    ∃ f' s', Reaches limits program code f s f' s'
      ∧ (turn limits program code f' s' = .halted ∧ o = ⟨s', f', .ok ()⟩
        ∨ turn limits program code f' s' = .faulted o) := by
  -- Each turn on the way takes one of the fuel.
  induction fuel generalizing f s with
  | zero =>
    cases hturn : turn limits program code f s with
    | halted =>
      rw [run_of_halted hturn] at hrun
      exact ⟨f, s, .refl f s, Or.inl ⟨hturn, (Option.some.inj hrun).symm⟩⟩
    | _ =>
      rw [run_zero_of_not_halted (by rw [hturn]; simp)] at hrun
      cases hrun
  | succ fuel ih =>
    cases hturn : turn limits program code f s with
    | halted =>
      rw [run_of_halted hturn] at hrun
      exact ⟨f, s, .refl f s, Or.inl ⟨hturn, (Option.some.inj hrun).symm⟩⟩
    | faulted o' =>
      rw [run_succ_of_faulted hturn] at hrun
      cases hrun
      exact ⟨f, s, .refl f s, Or.inr hturn⟩
    | next f' s' =>
      rw [run_succ_of_next hturn] at hrun
      obtain ⟨f'', s'', hreach, hlast⟩ := ih hrun
      exact ⟨f'', s'', .step hturn hreach, hlast⟩

/-! ### Pieces of code

A jump target is a position in a whole body, and the lemmas on code are about the pieces a body is
put together from. `CodeAt` places a piece. -/

/-- The piece of code stands at the position in the whole. -/
def CodeAt (whole : List Instruction) (position : Nat) (piece : List Instruction) : Prop :=
  ∀ j i, piece[j]? = some i → whole[position + j]? = some i

variable {whole piece : List Instruction} {position : Nat}

@[simp] theorem codeAt_nil : CodeAt whole position [] := by
  intro j i h
  simp at h

/-- A piece stands at a position if its first instruction does and the others stand behind it. -/
@[simp] theorem codeAt_cons {i : Instruction} :
    CodeAt whole position (i :: piece)
      ↔ whole[position]? = some i ∧ CodeAt whole (position + 1) piece := by
  constructor
  · intro h
    refine ⟨h 0 i rfl, fun j k hj => ?_⟩
    rw [show position + 1 + j = position + (j + 1) by omega]
    exact h (j + 1) k hj
  · rintro ⟨hhead, hrest⟩ j k hj
    cases j with
    | zero =>
      rw [List.getElem?_cons_zero, Option.some.injEq] at hj
      rw [← hj]
      exact hhead
    | succ j =>
      rw [show position + (j + 1) = position + 1 + j by omega]
      exact hrest j k hj

/-- Two pieces stand at a position if the first does and the second stands where it ends. -/
@[simp] theorem codeAt_append {first second : List Instruction} :
    CodeAt whole position (first ++ second)
      ↔ CodeAt whole position first ∧ CodeAt whole (position + first.length) second := by
  induction first generalizing position with
  | nil => simp
  | cons i rest ih =>
    rw [List.cons_append, codeAt_cons, codeAt_cons, ih, List.length_cons,
      show position + 1 + rest.length = position + (rest.length + 1) by omega, and_assoc]

theorem CodeAt.shift {q : Nat} (h : CodeAt whole position piece) (heq : position = q) :
    CodeAt whole q piece := heq ▸ h

/-- The whole code stands at its own beginning. -/
theorem codeAt_self (whole : List Instruction) : CodeAt whole 0 whole := by
  intro j i h
  rwa [Nat.zero_add]

/-- A piece that is not empty ends no later than the whole. -/
theorem CodeAt.le_length (h : CodeAt whole position piece) (hne : piece ≠ []) :
    position + piece.length ≤ whole.length := by
  have hpos := List.length_pos_iff.2 hne
  -- The last instruction of the piece stands in the whole.
  have hlast : piece[piece.length - 1]? = some (piece.getLast hne) := by
    rw [← List.getLast?_eq_getElem?, List.getLast?_eq_some_getLast hne]
  obtain ⟨hlt, -⟩ := List.getElem?_eq_some_iff.1 (h _ _ hlast)
  omega

end Covenant
