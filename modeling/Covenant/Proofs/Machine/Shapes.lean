import Covenant.Proofs.Machine.Moves
import Mathlib.Data.List.Forall2

/-!
# Shapes of the stack

The shape of a stack says how many words it holds, and which of them are constants that the code has
put there. Read from top to bottom, a piece of code gives each of its positions a shape: that before
an instruction, changed by its effect, is that behind it. Only behind an unconditional jump the
reading starts again with an empty stack, as nothing comes there from above.

A code list checks if no instruction wants more words than the shape before it has, and if every
jump goes to a constant, to a position where the shape is the one that the jump leaves. Then the
stack of a run has, wherever the run is, the shape of the position: the machine follows the jumps, and
the shapes agree on both ends of a jump.

* `shapeAt` is the shape at a position and `Checks` the condition on the instruction there.
* `InShape` is the invariant of a run of code that checks: `InShape.next` is about one turn and
  `InShape.reaches` about any number.
* `result_ne_stackOverflow` says that such a run does not ask for more room than the bound.
-/

namespace Covenant

/-- The places of a stack, its top first, each with the word that is known to be there. -/
abbrev Shape := List (Option Word)

/-- The stack has as many words as the shape has places, and the known ones are right. -/
def Describes (shape : Shape) (stack : List Word) : Prop :=
  List.Forall₂ (fun known w => ∀ v, known = some v → v = w) shape stack

/-- The shape behind an instruction, as far as the code is read from top to bottom. -/
def Instruction.flow (shape : Shape) : Instruction → Shape
  | .jump => []
  | i => i.trace shape

/-- The shape at a position of a code list that starts with an empty stack. -/
def shapeAt (code : List Instruction) (pc : Nat) : Shape :=
  (code.take pc).foldl Instruction.flow []

/-- A jump to the position is right with this shape: it goes to the end of the code, or to a position
that has this shape. -/
def Lands (code : List Instruction) (target : Nat) (shape : Shape) : Prop :=
  target ≤ code.length ∧ (target < code.length → shapeAt code target = shape)

/-- An instruction of a code list is right where the stack has this shape, and leaves at most so many
words on it. -/
structure Checks (code : List Instruction) (bound : Nat) (shape : Shape) (i : Instruction) :
    Prop where
  words : i.effect.1 ≤ shape.length
  bounded : (i.trace shape).length ≤ bound
  lands : i = .jump ∨ i = .jumpi →
    ∃ target, i.target? shape = some (.ofNat target) ∧ Lands code target (shape.drop i.effect.1)

/-- All instructions from one position up to another check. -/
def ChecksFrom (code : List Instruction) (bound first last : Nat) : Prop :=
  ∀ pc i, first ≤ pc → pc < last → code[pc]? = some i → Checks code bound (shapeAt code pc) i

variable {code : List Instruction} {bound pc : Nat} {shape : Shape} {stack : List Word}
  {i : Instruction}

/-! ### Shapes and effects -/

/-- All but a `push` forget what they put on the stack. -/
theorem trace_eq_drop (h : ∀ v, i ≠ .push v) (shape : Shape) :
    i.trace shape = List.replicate i.effect.2 none ++ shape.drop i.effect.1 := by
  cases i with
  | push v => exact absurd rfl (h v)
  | _ => rfl

/-- Reading on behind an instruction, unless it is a jump, the shape is the one it leaves. -/
theorem flow_eq_trace (h : i ≠ .jump) (shape : Shape) : i.flow shape = i.trace shape := by
  cases i with
  | jump => exact absurd rfl h
  | _ => rfl

/-- How long the shape behind an instruction is. -/
theorem length_trace (shape : Shape) (i : Instruction) :
    (i.trace shape).length = i.effect.2 + (shape.length - i.effect.1) := by
  cases i with
  | push v =>
    show shape.length + 1 = 1 + (shape.length - 0)
    omega
  | _ => rw [trace_eq_drop (by simp), List.length_append, List.length_replicate, List.length_drop]

/-- The shape one position further. -/
theorem shapeAt_succ (hget : code[pc]? = some i) :
    shapeAt code (pc + 1) = i.flow (shapeAt code pc) := by
  rw [shapeAt, List.take_add_one, hget, List.foldl_append]
  rfl

/-- An instruction that puts a word on the stack leads from a stack of a shape to one of the shape
behind it. -/
theorem Describes.pushed {w : Word} (h : Describes shape stack) (hone : i.effect.2 = 1)
    (hconstant : ∀ v, i = .push v → w = v) :
    Describes (i.trace shape) (w :: stack.drop i.effect.1) := by
  by_cases hpush : ∃ v, i = .push v
  · -- A `push` is the one instruction that makes its word known.
    obtain ⟨v, rfl⟩ := hpush
    have hw := hconstant v rfl
    subst hw
    exact .cons (fun _ hv => (Option.some.inj hv).symm) h
  · rw [trace_eq_drop (fun v hv => hpush ⟨v, hv⟩), hone]
    exact .cons (by simp) (List.forall₂_drop _ h)

/-- An instruction that only takes words leads to a stack of the shape behind it. -/
theorem Describes.dropped (h : Describes shape stack) (hzero : i.effect.2 = 0) :
    Describes (i.trace shape) (stack.drop i.effect.1) := by
  have hpush : ∀ v, i ≠ .push v := by
    rintro v rfl
    cases hzero
  rw [trace_eq_drop hpush, hzero]
  exact List.forall₂_drop _ h

/-- A jump finds the target that is known. -/
theorem Describes.target {v w : Word} (h : Describes shape stack) (hv : i.target? shape = some v)
    (hw : i.target? (stack.map some) = some w) : v = w := by
  cases i with
  | jump =>
    cases h with
    | nil => cases hv
    | @cons known top _ _ hknown _ =>
      have hknown' : known = some v := hv
      have htop : some top = some w := hw
      rw [hknown v hknown', Option.some.inj htop]
  | jumpi =>
    cases h with
    | nil => cases hv
    | cons _ hrest =>
      cases hrest with
      | nil => cases hv
      | @cons known second _ _ hknown _ =>
        have hknown' : known = some v := hv
        have hsecond : some second = some w := hw
        rw [hknown v hknown', Option.some.inj hsecond]
  | _ => cases hv

/-! ### Runs of code that checks -/

section Run

variable {ω : Type} [Stores ω] {limits : Limits} {program : Word} {f f' : Frame} {s s' : ω}

/-- The stack of a frame holds at most so many words, and has the shape of its position, if that is
one of the code. -/
structure InShape (code : List Instruction) (bound : Nat) (f : Frame) : Prop where
  bounded : f.stack.length ≤ bound
  describes : f.pc < code.length → Describes (shapeAt code f.pc) f.stack

/-- In a frame that is in shape, the words of the next instruction are there. -/
theorem InShape.effect_le (hchecks : ChecksFrom code bound 0 code.length)
    (h : InShape code bound f) (hget : code[f.pc]? = some i) : i.effect.1 ≤ f.stack.length := by
  obtain ⟨hpc, -⟩ := List.getElem?_eq_some_iff.1 hget
  have hwords := (hchecks f.pc i (Nat.zero_le _) hpc hget).words
  rwa [(h.describes hpc).length_eq] at hwords

/-- A jump instruction whose move is a jump, in a frame that is in shape, goes to the known target. -/
theorem InShape.jump_target (hchecks : ChecksFrom code bound 0 code.length)
    (hsize : code.length < Text.indexBound) (h : InShape code bound f)
    (hget : code[f.pc]? = some i) {target : Word} {position : Nat}
    (htarget : i.target? (f.stack.map some) = some target)
    (hindex : target.toIndex? = some position) :
    i.target? (shapeAt code f.pc) = some (.ofNat position)
      ∧ Lands code position ((shapeAt code f.pc).drop i.effect.1) := by
  obtain ⟨hpc, -⟩ := List.getElem?_eq_some_iff.1 hget
  have hjump : i = .jump ∨ i = .jumpi := by
    cases i with
    | jump => exact Or.inl rfl
    | jumpi => exact Or.inr rfl
    | _ => cases htarget
  obtain ⟨known, hknown, hlands⟩ := (hchecks f.pc i (Nat.zero_le _) hpc hget).lands hjump
  have hsame : Word.ofNat known = target := (h.describes hpc).target hknown htarget
  have hle : known ≤ code.length := hlands.1
  rw [← hsame, Word.toIndex?_ofNat (by omega)] at hindex
  cases hindex
  exact ⟨hknown, hlands⟩

/-- A turn keeps the stack in shape. -/
theorem InShape.next (hchecks : ChecksFrom code bound 0 code.length)
    (hsize : code.length < Text.indexBound) (h : InShape code bound f)
    (hturn : turn limits program code f s = .next f' s') : InShape code bound f' := by
  have hmade := made_turn limits program code f s
  rw [hturn] at hmade
  cases hmade with
  | @next i _ _ move hget hlimit hmove hsettle =>
    obtain ⟨hpc, -⟩ := List.getElem?_eq_some_iff.1 hget
    have hcheck := hchecks f.pc i (Nat.zero_le _) hpc hget
    have hdescribes := h.describes hpc
    have hconforms := conforms_move program f.pc f.memory s (h.effect_le hchecks hget)
    rw [hmove] at hconforms
    have hsettles := settles limits code.length (f.entered i) move
    rw [hsettle] at hsettles
    -- In each case the stack is described by the shape behind the instruction.
    cases hsettles with
    | @push w hroom =>
      have hnext : Describes (i.trace (shapeAt code f.pc)) (w :: f.stack.drop i.effect.1) :=
        hdescribes.pushed hconforms.1 hconforms.2
      have hjump : i ≠ .jump := by
        rintro rfl
        cases hconforms.1
      constructor
      · exact hnext.length_eq ▸ hcheck.bounded
      · intro _
        show Describes (shapeAt code (f.pc + 1)) (w :: f.stack.drop i.effect.1)
        rw [shapeAt_succ hget, flow_eq_trace hjump]
        exact hnext
    | pass memory =>
      have hnext := hdescribes.dropped hconforms.1
      constructor
      · exact hnext.length_eq ▸ hcheck.bounded
      · intro _
        show Describes (shapeAt code (f.pc + 1)) (f.stack.drop i.effect.1)
        rw [shapeAt_succ hget, flow_eq_trace hconforms.2]
        exact hnext
    | @jump target position hindex hle =>
      -- The shape at the target is the one that the jump leaves.
      have hnext := hdescribes.dropped hconforms.1
      obtain ⟨-, hlands⟩ := h.jump_target hchecks hsize hget hconforms.2 hindex
      constructor
      · exact hnext.length_eq ▸ hcheck.bounded
      · intro hposition
        show Describes (shapeAt code position) (f.stack.drop i.effect.1)
        rw [hlands.2 hposition]
        exact List.forall₂_drop _ hdescribes

/-- Wherever a run comes to, its stack is in shape. -/
theorem InShape.reaches (hchecks : ChecksFrom code bound 0 code.length)
    (hsize : code.length < Text.indexBound) (h : InShape code bound f)
    (hreach : Reaches limits program code f s f' s') : InShape code bound f' := by
  induction hreach with
  | refl f s => exact h
  | step hturn _ ih => exact ih (h.next hchecks hsize hturn)

/-- A turn of a frame that is in shape needs no more room than the bound. -/
theorem InShape.result_ne_stackOverflow (hchecks : ChecksFrom code bound 0 code.length)
    (hbound : bound ≤ limits.stack) (h : InShape code bound f) {o : Outcome ω}
    (hturn : turn limits program code f s = .faulted o) (limit : Nat) :
    o.result ≠ .error (.stackOverflow limit) := by
  have hmade := made_turn limits program code f s
  rw [hturn] at hmade
  cases hmade with
  | exceeded hget hlimit => simp
  | @faulted i e _ move hget hlimit hmove hsettle =>
    obtain ⟨hpc, -⟩ := List.getElem?_eq_some_iff.1 hget
    have hcheck := hchecks f.pc i (Nat.zero_le _) hpc hget
    have hlength := (h.describes hpc).length_eq
    have hconforms := conforms_move program f.pc f.memory s (h.effect_le hchecks hget)
    rw [hmove] at hconforms
    have hsettles := settles limits code.length (f.entered i) move
    rw [hsettle] at hsettles
    cases hsettles with
    | fault e =>
      intro heq
      cases heq
      cases hconforms.2
    | full hfull =>
      -- The word that did not fit is counted in the shape behind the instruction.
      have hroom := hcheck.bounded
      rw [length_trace, hconforms.1, hlength] at hroom
      have hlen : (f.stack.drop i.effect.1).length = f.stack.length - i.effect.1 :=
        List.length_drop
      have hfull' : limits.stack ≤ (f.stack.drop i.effect.1).length := hfull
      omega
    | out target => simp

/-- A run starts in shape. -/
theorem inShape_start (code : List Instruction) (bound : Nat) (memory : Memory) :
    InShape code bound { memory } :=
  ⟨Nat.zero_le _, fun _ => .nil⟩

/-- A run of code that checks does not overflow a stack that has room for the bound. -/
theorem result_ne_stackOverflow (hchecks : ChecksFrom code bound 0 code.length)
    (hsize : code.length < Text.indexBound) (hbound : bound ≤ limits.stack) {memory : Memory}
    {fuel : Nat} {o : Outcome ω} (hrun : run limits program code fuel { memory } s = some o)
    (limit : Nat) : o.result ≠ .error (.stackOverflow limit) := by
  obtain ⟨f, s₁, hreach, hlast⟩ := exists_last_turn hrun
  have hshape := (inShape_start code bound memory).reaches hchecks hsize hreach
  rcases hlast with ⟨-, rfl⟩ | hfaulted
  · simp
  · exact hshape.result_ne_stackOverflow hchecks hbound hfaulted limit

end Run

end Covenant
