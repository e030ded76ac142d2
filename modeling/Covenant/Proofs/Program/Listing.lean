import Covenant.Proofs.Compile.StackNeed

/-!
# Targets in a listing

A listing finds the targets of jumps in one walk over the code, from top to bottom. The walk does not
follow the jumps, so behind an early `return` it goes on with the value of that `return` still on its
stack, while a run that comes to the same place has an empty stack. The walk finds the right targets
all the same: what it has left over lies below the words of every later jump.

* `exists_knownAt_eq` says so: what the walk knows at a position is the shape there, on top of what is
  left over.
* `getElem?_jumpTargets_of_checks` is the target that a listing has for an instruction.
-/

namespace Covenant

open Instruction

variable {code : List Instruction} {bound pc : Nat} {shape : Shape} {i : Instruction}

/-- What the walk of a listing knows of the stack when it comes to a position. -/
def knownAt (code : List Instruction) (pc : Nat) : Shape := (code.take pc).foldl trace []

/-- The target of an instruction is told from what the walk knows there. -/
theorem getElem?_jumpTargetsFrom (known : Shape) (code : List Instruction) (pc : Nat) :
    (jumpTargetsFrom known code)[pc]?
      = code[pc]?.map fun i =>
          (i.target? ((code.take pc).foldl trace known)).bind Word.toIndex? := by
  induction code generalizing known pc with
  | nil => rfl
  | cons first rest ih =>
    cases pc with
    | zero => rfl
    | succ pc => exact ih (first.trace known) pc

/-! ### What is left over -/

/-- An instruction does not touch what lies below its words. -/
theorem trace_append (h : i.effect.1 ≤ shape.length) (left : Shape) :
    i.trace (shape ++ left) = i.trace shape ++ left := by
  by_cases hpush : ∃ v, i = .push v
  · obtain ⟨v, rfl⟩ := hpush
    rfl
  · have hpush' : ∀ v, i ≠ .push v := fun v hv => hpush ⟨v, hv⟩
    rw [trace_eq_drop hpush', trace_eq_drop hpush', List.drop_append_of_le_length h,
      List.append_assoc]

/-- A jump does not look for its target below its words. -/
theorem target?_append (h : i.effect.1 ≤ shape.length) (left : Shape) :
    i.target? (shape ++ left) = i.target? shape := by
  cases i with
  | jump =>
    cases shape with
    | nil => exact absurd h (by simp [effect])
    | cons known rest => rfl
  | jumpi =>
    rcases shape with _ | ⟨known, _ | ⟨second, rest⟩⟩
    · exact absurd h (by simp [effect])
    · exact absurd h (by simp [effect])
    · rfl
  | _ => rfl

/-- In code that checks, the walk knows the shape at every position, and has something left over
below it. -/
theorem exists_knownAt_eq (hchecks : ChecksFrom code bound 0 code.length) (hle : pc ≤ code.length) :
    ∃ left, knownAt code pc = shapeAt code pc ++ left := by
  -- On the position: what is left over grows at a jump and stays the same elsewhere.
  induction pc with
  | zero => exact ⟨[], rfl⟩
  | succ pc ih =>
    obtain ⟨left, hleft⟩ := ih (Nat.le_of_succ_le hle)
    have hget : code[pc]? = some (code.get ⟨pc, hle⟩) := List.getElem?_eq_getElem hle
    have hwords := (hchecks pc _ (Nat.zero_le _) hle hget).words
    have hknown : knownAt code (pc + 1) = (code.get ⟨pc, hle⟩).trace (knownAt code pc) := by
      rw [knownAt, List.take_add_one, hget, List.foldl_append]
      rfl
    rw [hknown, hleft, trace_append hwords, shapeAt_succ hget]
    -- Behind an unconditional jump the shape starts again, and all the walk has is left over.
    by_cases hjump : code.get ⟨pc, hle⟩ = .jump
    · rw [hjump]
      exact ⟨_, rfl⟩
    · rw [flow_eq_trace hjump]
      exact ⟨left, rfl⟩

/-- The target that a listing of code that checks has for an instruction. -/
theorem getElem?_jumpTargets_of_checks (hchecks : ChecksFrom code bound 0 code.length)
    (hget : code[pc]? = some i) :
    (jumpTargets code)[pc]? = some ((i.target? (shapeAt code pc)).bind Word.toIndex?) := by
  obtain ⟨hpc, -⟩ := List.getElem?_eq_some_iff.1 hget
  obtain ⟨left, hleft⟩ := exists_knownAt_eq hchecks (Nat.le_of_lt hpc)
  have hwords := (hchecks pc i (Nat.zero_le _) hpc hget).words
  rw [jumpTargets, getElem?_jumpTargetsFrom, hget]
  show some ((i.target? (knownAt code pc)).bind Word.toIndex?) = _
  rw [hleft, target?_append hwords]

/-- A jump has a target in the listing, and that is not behind the end of the code. -/
theorem exists_target_of_checks (hchecks : ChecksFrom code bound 0 code.length)
    (hsize : code.length < Text.indexBound) (hget : code[pc]? = some i)
    (hjump : i = .jump ∨ i = .jumpi) :
    ∃ target, (jumpTargets code)[pc]? = some (some target) ∧ target ≤ code.length := by
  obtain ⟨hpc, -⟩ := List.getElem?_eq_some_iff.1 hget
  obtain ⟨target, htarget, hle, -⟩ := (hchecks pc i (Nat.zero_le _) hpc hget).lands hjump
  refine ⟨target, ?_, hle⟩
  rw [getElem?_jumpTargets_of_checks hchecks hget, htarget]
  show some ((Word.ofNat target).toIndex?) = _
  rw [Word.toIndex?_ofNat (by omega)]

/-- Only jumps have targets. -/
theorem jump_of_getElem?_jumpTargets {target : Nat}
    (h : (jumpTargets code)[pc]? = some (some target)) :
    ∃ i, code[pc]? = some i ∧ (i = .jump ∨ i = .jumpi) := by
  rw [jumpTargets, getElem?_jumpTargetsFrom, Option.map_eq_some_iff] at h
  obtain ⟨i, hget, hi⟩ := h
  refine ⟨i, hget, ?_⟩
  cases i with
  | jump => exact Or.inl rfl
  | jumpi => exact Or.inr rfl
  | _ => cases hi

/-! ### Runs -/

/-- The next instruction is a jump that is taken: one without a condition, or one whose condition is
not true. -/
def Frame.TakesJump (code : List Instruction) (f : Frame) : Prop :=
  code[f.pc]? = some .jump
    ∨ code[f.pc]? = some .jumpi ∧ ∃ condition rest, f.stack = condition :: rest
      ∧ condition.isTrue = false

section Run

variable {ω : Type} [Stores ω] {limits : Limits} {program : Word} {f f' : Frame} {s s' : ω}

/-- The move of a jump that is taken is a jump, to a word on the stack. -/
theorem exists_target_of_takesJump (program : Word) (s : ω) (htakes : f.TakesJump code)
    (hget : code[f.pc]? = some i) (hwords : i.effect.1 ≤ f.stack.length) :
    ∃ target, i.move program f.pc f.stack f.memory s = (s, .jump target)
      ∧ i.target? (f.stack.map some) = some target := by
  rcases htakes with hjump | ⟨hjumpi, condition, rest, hstack, hfalse⟩
  · cases hget.symm.trans hjump
    cases hstack : f.stack with
    | nil =>
      rw [hstack] at hwords
      exact absurd hwords (by simp [effect])
    | cons target rest => exact ⟨target, rfl, rfl⟩
  · cases hget.symm.trans hjumpi
    rw [hstack] at hwords ⊢
    cases rest with
    | nil => exact absurd hwords (by simp [effect])
    | cons target rest =>
      refine ⟨target, ?_, rfl⟩
      simp [move, hfalse]

/-- A jump that is taken in a run of code that checks goes to the target in the listing. -/
theorem InShape.getElem?_jumpTargets (hchecks : ChecksFrom code bound 0 code.length)
    (hsize : code.length < Text.indexBound) (h : InShape code bound f)
    (htakes : f.TakesJump code) (hturn : turn limits program code f s = .next f' s') :
    (jumpTargets code)[f.pc]? = some (some f'.pc) := by
  have hmade := made_turn limits program code f s
  rw [hturn] at hmade
  cases hmade with
  | @next i _ _ move hget hlimit hmove hsettle =>
    obtain ⟨target, hjump, htarget⟩ :=
      exists_target_of_takesJump program s htakes hget (h.effect_le hchecks hget)
    cases hmove.symm.trans hjump
    have hsettles := settles limits code.length (f.entered i) (.jump target)
    rw [hsettle] at hsettles
    cases hsettles with
    | @jump _ position hindex hle =>
      obtain ⟨hknown, -⟩ := h.jump_target hchecks hsize hget htarget hindex
      rw [getElem?_jumpTargets_of_checks hchecks hget, hknown]
      show some ((Word.ofNat position).toIndex?) = _
      rw [Word.toIndex?_ofNat (by omega)]

end Run

/-- **A listing shows the targets that the machine takes.** In the code of every function of a
contract that compiles, the listing has a target for each jump and for nothing else, and no target is
behind the end of the code. Whenever a run from the beginning of the code takes a jump, with any
memory, limits and stores, it goes to the target that the listing has for it. -/
theorem listing_shows_taken_targets {c : Contract} {p : Program} {n : Nat} {f : FunctionCode}
    (hcompile : c.compile = .ok p) (hsize : p.Addressable) (hget : p.functions.get? n = some f) :
    (∀ pc : Nat, (∃ target, (jumpTargets f.body)[pc]? = some (some target))
        ↔ f.body[pc]? = some .jump ∨ f.body[pc]? = some .jumpi)
      ∧ (∀ pc target : Nat, (jumpTargets f.body)[pc]? = some (some target) → target ≤ f.body.length)
      ∧ ∀ (ω : Type) [Stores ω] (limits : Limits) (program : Word) (memory : Memory)
          (s s₁ s₂ : ω) (f₁ f₂ : Frame),
        Reaches limits program f.body { memory } s f₁ s₁ → f₁.TakesJump f.body →
        turn limits program f.body f₁ s₁ = .next f₂ s₂ →
        (jumpTargets f.body)[f₁.pc]? = some (some f₂.pc) := by
  obtain ⟨d, -, hfunction⟩ := (Contract.compile_function hcompile n f).1 hget
  have hchecks := Compile.checks_function hfunction
  have hbody := hsize.body_lt hget
  refine ⟨?_, ?_, ?_⟩
  · intro pc
    constructor
    · rintro ⟨target, htarget⟩
      obtain ⟨i, hi, rfl | rfl⟩ := jump_of_getElem?_jumpTargets htarget
      · exact Or.inl hi
      · exact Or.inr hi
    · rintro (hjump | hjumpi)
      · -- Code that checks has a known target for every jump.
        obtain ⟨target, htarget, -⟩ := exists_target_of_checks hchecks hbody hjump (Or.inl rfl)
        exact ⟨target, htarget⟩
      · obtain ⟨target, htarget, -⟩ := exists_target_of_checks hchecks hbody hjumpi (Or.inr rfl)
        exact ⟨target, htarget⟩
  · intro pc target htarget
    obtain ⟨i, hi, hjump⟩ := jump_of_getElem?_jumpTargets htarget
    obtain ⟨target', htarget', hle⟩ := exists_target_of_checks hchecks hbody hi hjump
    cases htarget.symm.trans htarget'
    exact hle
  · intro ω _ limits program memory s s₁ s₂ f₁ f₂ hreach htakes hturn
    have hshape := (inShape_start f.body (5 + d.need) memory).reaches hchecks hbody hreach
    exact hshape.getElem?_jumpTargets hchecks hbody htakes hturn

/-- Two early returns, each behind a test that fails. -/
def twoReturnsSource : String :=
  "contract Early " ++ Text.braced ("func pick() -> Int "
    ++ Text.braced ("if false " ++ Text.braced "return 1" ++ " if false " ++ Text.braced "return 2"
      ++ " return 3"))

/-- The code of the function with the early returns. -/
def twoReturnsBody : List Instruction :=
  [.push (.ofNat 6), .push (.ofNat 0), .jumpi, .push (.ofNat 1), .push (.ofNat 13), .jump,
    .push (.ofNat 12), .push (.ofNat 0), .jumpi, .push (.ofNat 2), .push (.ofNat 13), .jump,
    .push (.ofNat 3)]

/-- At the second test the walk still has the value of the first `return` on its stack, and the run
has not. Both find the same target. -/
theorem second_test_goes_to_listed_target :
    ∃ c p f, Contract.ofSource twoReturnsSource = .ok c ∧ c.compile = .ok p ∧ p.Addressable
      ∧ p.functions.get? 0 = some f ∧ f.body = twoReturnsBody
      ∧ shapeAt f.body 8 = [some (.ofNat 0), some (.ofNat 12)]
      ∧ knownAt f.body 8 = [some (.ofNat 0), some (.ofNat 12), some (.ofNat 1)]
      ∧ ∃ f₁ f₂ : Frame, Reaches {} .zero f.body {} ({} : MemoryStores) f₁ {}
        ∧ f₁.pc = 8 ∧ f₁.TakesJump f.body
        ∧ turn {} .zero f.body f₁ ({} : MemoryStores) = .next f₂ {}
        ∧ (jumpTargets f.body)[8]? = some (some f₂.pc) := by
  have hrun : ((Contract.ofSource twoReturnsSource).toOption.any fun c =>
      c.compile.toOption.any fun p =>
        decide p.Addressable && (p.functions.get? 0).any fun f =>
          decide (f.body = twoReturnsBody)) = true := by
    decide +kernel
  obtain ⟨c, hc, hrun⟩ := exists_ok_of_any hrun
  obtain ⟨p, hp, hrun⟩ := exists_ok_of_any hrun
  rw [Bool.and_eq_true, decide_eq_true_eq] at hrun
  obtain ⟨haddr, hrun⟩ := hrun
  obtain ⟨f, hget, hrun⟩ := (Option.any_eq_true _ _).1 hrun
  rw [decide_eq_true_eq] at hrun
  obtain ⟨-, -, htaken⟩ := listing_shows_taken_targets hp haddr hget
  rw [hrun] at htaken
  -- The frame before the second test, after the first test has jumped over the first `return`.
  let f₁ : Frame := ⟨[.ofNat 0, .ofNat 12], ∅, 8, 5⟩
  let f₂ : Frame := ⟨[], ∅, 12, 6⟩
  have hreach : Reaches {} .zero twoReturnsBody {} ({} : MemoryStores) f₁ {} :=
    .step rfl (.step rfl (.step rfl (.step rfl (.step rfl (.refl _ _)))))
  have htakes : f₁.TakesJump twoReturnsBody := Or.inr ⟨rfl, _, _, rfl, rfl⟩
  have hturn : turn {} .zero twoReturnsBody f₁ ({} : MemoryStores) = .next f₂ {} := rfl
  refine ⟨c, p, f, hc, hp, haddr, hget, hrun, ?_⟩
  rw [hrun]
  exact ⟨rfl, rfl, f₁, f₂, hreach, rfl, htakes, hturn,
    htaken MemoryStores {} .zero _ {} {} {} f₁ f₂ hreach htakes hturn⟩

end Covenant
