import Covenant.Proofs.Machine.Leads
import Covenant.Proofs.Machine.Moves

/-!
# Limits

A run has a limit for the number of its instructions, and one for the words on its stack. Neither
changes what a run does, it only ends it: with a step limit a run goes like the run without one, for
as many instructions as it may, and with a larger stack it goes on in the same way from where it
found the smaller one full.

* `ReachesIn` counts turns. `ExecutesMore` says that a run without a step limit has more than so many
  instructions to execute; the last of them may be one that faults.
* `turn_withSteps` and `turn_withStack` compare one turn under two limits, `run_cut`, `run_uncut` and
  `run_withStack` whole runs.
* `limits_only_truncate` is the result.
-/

namespace Covenant

/-- The limits with this step limit, or with none. -/
def Limits.withSteps (limits : Limits) (steps : Option Nat) : Limits := { limits with steps }

/-- The limits with this largest number of words on the stack. -/
def Limits.withStack (limits : Limits) (stack : Nat) : Limits := { limits with stack }

variable {ω : Type} [Stores ω]

/-- The machine comes from one frame and stores to another in so many turns. -/
inductive ReachesIn (limits : Limits) (program : Word) (code : List Instruction) :
    Nat → Frame → ω → Frame → ω → Prop where
  | refl (f : Frame) (s : ω) : ReachesIn limits program code 0 f s f s
  | step {n : Nat} {f f' f'' : Frame} {s s' s'' : ω}
      (hturn : turn limits program code f s = .next f' s')
      (hrest : ReachesIn limits program code n f' s' f'' s'') :
      ReachesIn limits program code (n + 1) f s f'' s''

/-- After so many instructions, none of which faults, there is one more to execute. -/
def ExecutesMore (limits : Limits) (program : Word) (code : List Instruction) (n : Nat) (f : Frame)
    (s : ω) : Prop :=
  ∃ f' s', ReachesIn limits program code n f s f' s' ∧ f'.pc < code.length

variable {limits : Limits} {program : Word} {code : List Instruction} {f f' : Frame} {s s' : ω}
  {n k fuel : Nat}

/-! ### The step limit -/

/-- Steps do not count when a move is made. -/
theorem settle_withSteps (steps : Option Nat) (length : Nat) (f : Frame) (move : Move) :
    move.settle (limits.withSteps steps) length f = move.settle limits length f := by
  cases move with
  | _ => rfl

/-- Before the limit, a turn does what it does without one. -/
theorem turn_withSteps (limits : Limits) (program : Word) (code : List Instruction) (s : ω)
    (h : f.steps < n) :
    turn (limits.withSteps (some n)) program code f s
      = turn (limits.withSteps none) program code f s := by
  have hlimit : ({ f with steps := f.steps + 1 } : Frame).exceeded (limits.withSteps (some n))
      = none := if_neg (by show ¬ n < f.steps + 1; omega)
  -- The turn without a limit comes about in one of four ways, and each is a way with the limit.
  have hmade := made_turn (limits.withSteps none) program code f s
  generalize turn (limits.withSteps none) program code f s = t at hmade ⊢
  cases hmade with
  | halted hend => exact turn_eq_halted_iff.2 hend
  | exceeded hget hnone => cases hnone
  | next hget hnone hmove hsettle =>
    rw [settle_withSteps] at hsettle
    exact turn_of_settle_ok hget hlimit hmove (by rwa [settle_withSteps])
  | faulted hget hnone hmove hsettle =>
    rw [settle_withSteps] at hsettle
    exact turn_of_settle_error hget hlimit hmove (by rwa [settle_withSteps])

/-- At the limit no further instruction is executed. -/
theorem turn_at_limit (hpc : f.pc < code.length) (h : n ≤ f.steps) :
    turn (limits.withSteps (some n)) program code f s
      = .faulted ⟨s, { f with steps := f.steps + 1 }, .error (.stepLimitExceeded n)⟩ := by
  have hlimit : ({ f with steps := f.steps + 1 } : Frame).exceeded (limits.withSteps (some n))
      = some n := if_pos (by show n < f.steps + 1; omega)
  exact turn_of_exceeded (List.getElem?_eq_getElem hpc) hlimit

/-- A run that has more to execute than it may ends at its limit, with what it had then. -/
theorem run_cut (h : ReachesIn (limits.withSteps none) program code k f s f' s')
    (hn : f.steps + k = n) (hpc : f'.pc < code.length) (hfuel : k < fuel) :
    run (limits.withSteps (some n)) program code fuel f s
      = some ⟨s', { f' with steps := n + 1 }, .error (.stepLimitExceeded n)⟩ := by
  -- On the way to the limit. With each turn the counter and the turns left add up to the same.
  induction h generalizing fuel with
  | refl f s =>
    obtain ⟨fuel, rfl⟩ : ∃ m, fuel = m + 1 := ⟨fuel - 1, by omega⟩
    have hsteps : f.steps = n := by omega
    rw [run_succ_of_faulted (turn_at_limit hpc (by omega)), hsteps]
  | step hturn hrest ih =>
    obtain ⟨fuel, rfl⟩ : ∃ m, fuel = m + 1 := ⟨fuel - 1, by omega⟩
    have hsteps := steps_of_next hturn
    have hsame := (turn_withSteps limits program code _ (show _ < n by omega)).trans hturn
    rw [run_succ_of_next hsame]
    exact ih (by omega) hpc (by omega)

/-- A run that has no more to execute than it may is the run without a step limit. -/
theorem run_uncut (limits : Limits) (program : Word) (code : List Instruction) (f : Frame) (s : ω)
    (hn : f.steps + k = n) (h : ¬ ExecutesMore (limits.withSteps none) program code k f s) :
    ∃ o, ∀ fuel, k ≤ fuel →
      run (limits.withSteps (some n)) program code fuel f s = some o
        ∧ run (limits.withSteps none) program code fuel f s = some o := by
  -- On the instructions that are left to the limit. After the last of them the code has to be at
  -- its end.
  induction k generalizing f s with
  | zero =>
    have hend : code.length ≤ f.pc :=
      Nat.le_of_not_lt fun hlt => h ⟨f, s, .refl f s, hlt⟩
    refine ⟨⟨s, f, .ok ()⟩, fun fuel _ => ⟨?_, ?_⟩⟩
    · exact run_of_halted (turn_eq_halted_iff.2 hend) fuel
    · exact run_of_halted (turn_eq_halted_iff.2 hend) fuel
  | succ k ih =>
    have hsame := turn_withSteps limits program code s (show f.steps < n by omega)
    cases hturn : turn (limits.withSteps none) program code f s with
    | halted =>
      rw [hturn] at hsame
      exact ⟨⟨s, f, .ok ()⟩, fun fuel _ => ⟨run_of_halted hsame fuel, run_of_halted hturn fuel⟩⟩
    | faulted o =>
      rw [hturn] at hsame
      refine ⟨o, fun fuel hfuel => ?_⟩
      obtain ⟨fuel, rfl⟩ : ∃ m, fuel = m + 1 := ⟨fuel - 1, by omega⟩
      exact ⟨run_succ_of_faulted hsame fuel, run_succ_of_faulted hturn fuel⟩
    | next f' s' =>
      rw [hturn] at hsame
      have hsteps := steps_of_next hturn
      have hrest : ¬ ExecutesMore (limits.withSteps none) program code k f' s' := by
        rintro ⟨f'', s'', hreach, hpc⟩
        exact h ⟨f'', s'', .step hturn hreach, hpc⟩
      obtain ⟨o, ho⟩ := ih f' s' (by omega) hrest
      refine ⟨o, fun fuel hfuel => ?_⟩
      obtain ⟨fuel, rfl⟩ : ∃ m, fuel = m + 1 := ⟨fuel - 1, by omega⟩
      rw [run_succ_of_next hsame, run_succ_of_next hturn]
      exact ho fuel (by omega)

/-- A run without a step limit does not end at one. -/
theorem result_ne_stepLimitExceeded {o : Outcome ω}
    (hrun : run (limits.withSteps none) program code fuel f s = some o) (limit : Nat) :
    o.result ≠ .error (.stepLimitExceeded limit) := by
  obtain ⟨f', s', -, ⟨-, rfl⟩ | hturn⟩ := exists_last_turn hrun
  · simp
  · have hmade := made_turn (limits.withSteps none) program code f' s'
    rw [hturn] at hmade
    cases hmade with
    | exceeded hget hnone => cases hnone
    | @faulted i e _ move hget hnone hmove hsettle =>
      have hsettles := settles (limits.withSteps none) code.length (f'.entered i) move
      rw [hsettle] at hsettles
      -- No instruction and no move gives this fault, only the counter does.
      cases hsettles with
      | fault e =>
        have hlimit := isLimit_of_move hmove
        rintro ⟨⟩
        cases hlimit
      | full hfull => simp
      | out target => simp

/-! ### The stack -/

/-- A turn that goes on keeps the stack within its limit. -/
theorem stack_le_of_next (h : f.stack.length ≤ limits.stack)
    (hturn : turn limits program code f s = .next f' s') : f'.stack.length ≤ limits.stack := by
  have hmade := made_turn limits program code f s
  rw [hturn] at hmade
  cases hmade with
  | @next i _ _ move hget hlimit hmove hsettle =>
    have hsettles := settles limits code.length (f.entered i) move
    rw [hsettle] at hsettles
    have hdrop : (f.entered i).stack.length ≤ limits.stack := by
      show (f.stack.drop i.effect.1).length ≤ limits.stack
      rw [List.length_drop]
      omega
    cases hsettles with
    | push hroom => exact hroom
    | pass memory => exact hdrop
    | jump hindex hle => exact hdrop

/-- Any number of turns keeps the stack within its limit. -/
theorem stack_le_of_reaches (h : f.stack.length ≤ limits.stack)
    (hreach : Reaches limits program code f s f' s') : f'.stack.length ≤ limits.stack := by
  induction hreach with
  | refl f s => exact h
  | step hturn _ ih => exact ih (stack_le_of_next h hturn)

/-- The stack is within its limit where a run ends, also where it faults. -/
theorem stack_le_of_run {o : Outcome ω} (h : f.stack.length ≤ limits.stack)
    (hrun : run limits program code fuel f s = some o) : o.frame.stack.length ≤ limits.stack := by
  obtain ⟨f', s', hreach, ⟨-, rfl⟩ | hturn⟩ := exists_last_turn hrun
  · exact stack_le_of_reaches h hreach
  · have hle := stack_le_of_reaches h hreach
    have hmade := made_turn limits program code f' s'
    rw [hturn] at hmade
    cases hmade with
    | exceeded hget hlimit => exact hle
    | faulted hget hlimit hmove hsettle => exact hle

/-- With a larger stack a move has the same result, unless it found the smaller stack full. -/
theorem settle_withStack {larger : Nat} (hle : limits.stack ≤ larger) (length : Nat) (f : Frame)
    (move : Move) :
    move.settle (limits.withStack larger) length f = move.settle limits length f
      ∨ move.settle limits length f = .error (.stackOverflow limits.stack) := by
  cases move with
  | push w =>
    by_cases hroom : f.stack.length < limits.stack
    · have hroom' : f.stack.length < (limits.withStack larger).stack := Nat.lt_of_lt_of_le hroom hle
      exact Or.inl ((if_pos hroom').trans (if_pos hroom).symm)
    · exact Or.inr (if_neg hroom)
  | _ => exact Or.inl rfl

/-- With a larger stack a turn does the same, unless it found the smaller stack full. -/
theorem turn_withStack {larger : Nat} (hle : limits.stack ≤ larger) (program : Word)
    (code : List Instruction) (f : Frame) (s : ω) :
    turn (limits.withStack larger) program code f s = turn limits program code f s
      ∨ ∃ o, turn limits program code f s = .faulted o
        ∧ o.result = .error (.stackOverflow limits.stack) := by
  have hmade := made_turn limits program code f s
  generalize turn limits program code f s = t at hmade ⊢
  cases hmade with
  | halted hend => exact Or.inl (turn_eq_halted_iff.2 hend)
  | exceeded hget hlimit => exact Or.inl (turn_of_exceeded hget hlimit)
  | @next i _ _ move hget hlimit hmove hsettle =>
    rcases settle_withStack hle code.length (f.entered i) move with hsame | hfull
    · exact Or.inl (turn_of_settle_ok hget hlimit hmove (hsame.trans hsettle))
    · rw [hsettle] at hfull
      cases hfull
  | @faulted i e _ move hget hlimit hmove hsettle =>
    rcases settle_withStack hle code.length (f.entered i) move with hsame | hfull
    · exact Or.inl (turn_of_settle_error hget hlimit hmove (hsame.trans hsettle))
    · rw [hsettle] at hfull
      cases hfull
      exact Or.inr ⟨_, rfl, rfl⟩

/-- With a larger stack a run comes to all frames it came to before. -/
theorem Reaches.withStack {larger : Nat} (hle : limits.stack ≤ larger)
    (hreach : Reaches limits program code f s f' s') :
    Reaches (limits.withStack larger) program code f s f' s' := by
  induction hreach with
  | refl f s => exact .refl f s
  | @step f₁ _ _ s₁ _ _ hturn _ ih =>
    rcases turn_withStack hle program code f₁ s₁ with hsame | ⟨o, hfaulted, -⟩
    · exact .step (hsame.trans hturn) ih
    · rw [hturn] at hfaulted
      cases hfaulted

/-- With a larger stack a run that did not find the smaller one full is the same, for any fuel. -/
theorem run_withStack {larger : Nat} (hle : limits.stack ≤ larger)
    (h : ∀ o, run limits program code fuel f s = some o →
      o.result ≠ .error (.stackOverflow limits.stack)) :
    run (limits.withStack larger) program code fuel f s = run limits program code fuel f s := by
  -- On the turns left: the two runs take the same turn, or the smaller stack is full.
  induction fuel generalizing f s with
  | zero => rfl
  | succ fuel ih =>
    rcases turn_withStack hle program code f s with hsame | ⟨o, hfaulted, hfull⟩
    · cases hturn : turn limits program code f s with
      | halted =>
        rw [run_of_halted hturn, run_of_halted (hsame.trans hturn)]
      | faulted o =>
        rw [run_succ_of_faulted hturn, run_succ_of_faulted (hsame.trans hturn)]
      | next f' s' =>
        rw [run_succ_of_next hturn] at h ⊢
        rw [run_succ_of_next (hsame.trans hturn)]
        exact ih h
    · exact absurd hfull (h o (run_succ_of_faulted hfaulted fuel))

/-! ### Both limits -/

/-- A step limit of `n` ends a run from a frame after `n` instructions, and does nothing else to it.
If there is more to execute, the run ends at the limit, with the frame and the stores as they were
after `n` instructions of the run without a limit, the counter apart. If there is not, both runs
end, with the same result, frame and stores. -/
structure StepLimitTruncates (limits : Limits) (program : Word) (code : List Instruction)
    (f : Frame) (s : ω) (n : Nat) : Prop where
  exceeded_iff :
    (∃ fuel o, run (limits.withSteps (some n)) program code fuel f s = some o
        ∧ o.result = .error (.stepLimitExceeded n))
      ↔ ExecutesMore (limits.withSteps none) program code n f s
  cut : ∀ f' s', ReachesIn (limits.withSteps none) program code n f s f' s' →
    f'.pc < code.length → ∀ fuel, n < fuel →
      run (limits.withSteps (some n)) program code fuel f s
        = some ⟨s', { f' with steps := n + 1 }, .error (.stepLimitExceeded n)⟩
  uncut : ¬ ExecutesMore (limits.withSteps none) program code n f s →
    ∃ o, ∀ fuel, n ≤ fuel →
      run (limits.withSteps (some n)) program code fuel f s = some o
        ∧ run (limits.withSteps none) program code fuel f s = some o

/-- The stack of a run from a frame stays within its limit, and a larger limit makes no difference to
a run that does not end for want of room: it comes to the same frames, and ends with the same
outcome or does not end. -/
structure StackLimitTruncates (limits : Limits) (program : Word) (code : List Instruction)
    (f : Frame) (s : ω) : Prop where
  bounded : f.stack.length ≤ limits.stack → ∀ f' s', Reaches limits program code f s f' s' →
    f'.stack.length ≤ limits.stack
  bounded_at_end : f.stack.length ≤ limits.stack → ∀ fuel o,
    run limits program code fuel f s = some o → o.frame.stack.length ≤ limits.stack
  reaches_larger : ∀ larger, limits.stack ≤ larger → ∀ f' s',
    Reaches limits program code f s f' s' → Reaches (limits.withStack larger) program code f s f' s'
  run_larger : ∀ larger, limits.stack ≤ larger → ∀ fuel,
    (∀ o, run limits program code fuel f s = some o →
      o.result ≠ .error (.stackOverflow limits.stack)) →
    run (limits.withStack larger) program code fuel f s = run limits program code fuel f s

/-- **Limits only truncate.** For any code, any stack and memory it starts with, and any stores. -/
theorem limits_only_truncate (limits : Limits) (program : Word) (code : List Instruction)
    (stack : List Word) (memory : Memory) (s : ω) :
    (∀ n, StepLimitTruncates limits program code { stack, memory } s n)
      ∧ StackLimitTruncates limits program code { stack, memory } s := by
  constructor
  · intro n
    have hcut : ∀ f' s', ReachesIn (limits.withSteps none) program code n { stack, memory } s f' s' →
        f'.pc < code.length → ∀ fuel, n < fuel →
          run (limits.withSteps (some n)) program code fuel { stack, memory } s
            = some ⟨s', { f' with steps := n + 1 }, .error (.stepLimitExceeded n)⟩ :=
      fun f' s' hreach hpc fuel hfuel => run_cut hreach (Nat.zero_add n) hpc hfuel
    have huncut := run_uncut limits program code { stack, memory } s (Nat.zero_add n)
    refine ⟨⟨?_, ?_⟩, hcut, huncut⟩
    · rintro ⟨fuel, o, hrun, hresult⟩
      -- Had the run no more to execute, it would be the run without a limit, which does not exceed
      -- one.
      refine Classical.byContradiction fun hmore => ?_
      obtain ⟨o', ho'⟩ := huncut hmore
      obtain ⟨hlimited, hfree⟩ := ho' n (Nat.le_refl n)
      have hsame : o = o' := run_unique hrun hlimited
      subst hsame
      exact result_ne_stepLimitExceeded hfree n hresult
    · rintro ⟨f', s', hreach, hpc⟩
      exact ⟨n + 1, _, hcut f' s' hreach hpc (n + 1) (Nat.lt_succ_self n), rfl⟩
  · exact
      { bounded := fun h _ _ hreach => stack_le_of_reaches h hreach
        bounded_at_end := fun h _ _ hrun => stack_le_of_run h hrun
        reaches_larger := fun _ hle _ _ hreach => hreach.withStack hle
        run_larger := fun _ hle _ h => run_withStack hle h }

end Covenant
