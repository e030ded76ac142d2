import Covenant.Proofs.Machine.Leads

/-!
# Pieces of straight code

What a piece of straight code does can be said in two ways. `Takes` leaves open whether the stack gets
full on the way, and is about runs without a step limit. `Performs` leaves nothing open: under both
limits the code comes to its end, in one step for each instruction. `Faults` and `Aborts` are the same
two for a piece that comes to a fault.

The two ways put pieces together by the same rules, so what follows from the rules is proved once, for
any such way.

* `Behaviour` is a way of saying what code does, and `Behaviour.Straight` are the rules that it has to
  keep. `Behaviour.Gives` is about a piece that stands for one word.
* `taking` and `performing` are the two ways; `straight_taking` and `straight_performing` say that
  they keep the rules.
-/

namespace Covenant

/-! ### The rules -/

section Rules

variable {ω : Type}

/-- A way of saying what a piece of code does. -/
structure Behaviour (ω : Type) where
  /-- The stack may hold so many words. -/
  fits : Nat → Prop
  /-- The code brings the machine from a stack and stores to a stack and stores. -/
  acts : List Instruction → List Word → ω → List Word → ω → Prop
  /-- The code brings the machine to a fault, with the stores as they were. -/
  stops : List Instruction → List Word → ω → Fault → Prop

namespace Behaviour

/-- With so many free places on the stack, the code puts one word there, or comes to a fault. -/
inductive Gives (B : Behaviour ω) (s : ω) (room : Nat) (xs : List Instruction) :
    Except Fault Word → Prop where
  | value {w : Word} (h : ∀ stack, B.fits (stack.length + room) → B.acts xs stack s (w :: stack) s) :
      Gives B s room xs (.ok w)
  | fault {e : Fault} (h : ∀ stack, B.fits (stack.length + room) → B.stops xs stack s e) :
      Gives B s room xs (.error e)

variable {B : Behaviour ω} {xs : List Instruction} {stack : List Word} {s s' : ω} {room : Nat}

/-- A piece that stands for a word puts it on the stack. -/
theorem Gives.acts {w : Word} (h : B.Gives s room xs (.ok w)) (stack : List Word)
    (hroom : B.fits (stack.length + room)) : B.acts xs stack s (w :: stack) s := by
  cases h with
  | value h => exact h stack hroom

/-- What is given with some free places is given with any others that leave these. -/
theorem Gives.of_fits {r : Except Fault Word} {places : Nat} (h : B.Gives s room xs r)
    (hfits : ∀ n, B.fits (n + places) → B.fits (n + room)) : B.Gives s places xs r := by
  cases h with
  | value h => exact .value fun stack hplaces => h stack (hfits _ hplaces)
  | fault h => exact .fault fun stack hplaces => h stack (hfits _ hplaces)

variable [Stores ω] {program : Word} {memory : Memory}

/-- What is asked of a way of saying what straight code does, on behalf of a program and with a memory
that stays as it is. Single instructions are told by their execution: one that puts a word on the
stack needs a place for it. -/
structure Straight (program : Word) (memory : Memory) (B : Behaviour ω) : Prop where
  fits_mono : ∀ {m n : Nat}, B.fits n → m ≤ n → B.fits m
  nil : ∀ stack s, B.acts [] stack s stack s
  append : ∀ {xs ys stack stack' stack'' s s' s''}, B.acts xs stack s stack' s' →
    B.acts ys stack' s' stack'' s'' → B.acts (xs ++ ys) stack s stack'' s''
  append_stops : ∀ {xs ys stack stack' s e}, B.acts xs stack s stack' s →
    B.stops ys stack' s e → B.stops (xs ++ ys) stack s e
  next : ∀ {i : Instruction} {stack stack' : List Word} {s s' : ω},
    (∀ limits length pc k, i.execute limits program length pc ⟨stack, memory, pc + 1, k + 1⟩ s
      = (s', .ok ⟨stack', memory, pc + 1, k + 1⟩)) → B.acts [i] stack s stack' s'
  push : ∀ {i : Instruction} {stack rest : List Word} {w : Word} {s : ω},
    (∀ limits length pc k, i.execute limits program length pc ⟨stack, memory, pc + 1, k + 1⟩ s
      = (s, Frame.push limits ⟨rest, memory, pc + 1, k + 1⟩ w)) → B.fits (rest.length + 1) →
    B.acts [i] stack s (w :: rest) s
  fault : ∀ {i : Instruction} {stack : List Word} {s : ω} {e : Fault},
    (∀ limits length pc k, i.execute limits program length pc ⟨stack, memory, pc + 1, k + 1⟩ s
      = (s, .error e)) → B.stops [i] stack s e

namespace Straight

variable (hB : B.Straight program memory)

include hB

/-- A constant is put on the stack. -/
theorem pushWord (w : Word) (s : ω) (h : B.fits (stack.length + 1)) :
    B.acts [.push w] stack s (w :: stack) s :=
  hB.push (fun _ _ _ _ => rfl) h

/-- An argument that is in memory is put on the stack. -/
theorem pushParam {key w : Word} (s : ω) (hmemory : memory.get? key = some w)
    (h : B.fits (stack.length + 1)) : B.acts [.pushParam key] stack s (w :: stack) s := by
  refine hB.push (fun limits length pc k => ?_) h
  simp only [Instruction.execute, Instruction.execLocal, hmemory]

/-- A cell that the stores take is written. -/
theorem sstore {address w : Word}
    (hwrite : Instruction.writeCell s program address w = (s', .ok ())) (stack : List Word) :
    B.acts [.sstore] (address :: w :: stack) s stack s' := by
  refine hB.next fun limits length pc k => ?_
  simp only [Instruction.execute, hwrite]

/-- What is read from a cell takes the place of its address. -/
theorem sload {address w : Word} (hread : Instruction.readCell s address = .ok w)
    (h : B.fits (stack.length + 1)) : B.acts [.sload] (address :: stack) s (w :: stack) s := by
  refine hB.push (fun limits length pc k => ?_) h
  simp only [Instruction.execute, hread]

/-- A cell that cannot be read is a fault. -/
theorem stops_sload {address : Word} {e : Fault}
    (hread : Instruction.readCell s address = .error e) (stack : List Word) :
    B.stops [.sload] (address :: stack) s e := by
  refine hB.fault fun limits length pc k => ?_
  simp only [Instruction.execute, hread]

end Straight

end Behaviour

end Rules

/-! ### The two ways -/

section Ways

variable {ω : Type} [Stores ω]

/-- Wherever the code stands, and unless the stack gets full, the machine comes from the stack and the
stores in front of the code to those behind it. Memory stays as it is. -/
def Takes (program : Word) (memory : Memory) (xs : List Instruction) (stack : List Word) (s : ω)
    (stack' : List Word) (s' : ω) : Prop :=
  ∀ (limits : Limits) (code : List Instruction) (pc k : Nat), limits.steps = none →
    CodeAt code pc xs →
    Leads limits program code
      (fun f s₁ => (∃ k', f = ⟨stack', memory, pc + xs.length, k'⟩) ∧ s₁ = s')
      ⟨stack, memory, pc, k⟩ s

/-- Wherever the code stands, and unless the stack gets full, the machine comes to a fault, with the
stores as they were. -/
def Faults (program : Word) (memory : Memory) (xs : List Instruction) (stack : List Word) (s : ω)
    (e : Fault) : Prop :=
  ∀ (limits : Limits) (code : List Instruction) (pc k : Nat), limits.steps = none →
    CodeAt code pc xs →
    Leads limits program code
      (fun f s₁ => ∃ f', turn limits program code f s₁ = .faulted ⟨s, f', .error e⟩)
      ⟨stack, memory, pc, k⟩ s

/-- Wherever the code stands, the machine comes from the stack and the stores in front of it to those
behind it, in one step for each instruction. Memory stays as it is. -/
def Performs (limits : Limits) (program : Word) (memory : Memory) (xs : List Instruction)
    (stack : List Word) (s : ω) (stack' : List Word) (s' : ω) : Prop :=
  ∀ (code : List Instruction) (pc k : Nat), CodeAt code pc xs → limits.Allow (k + xs.length) →
    Reaches limits program code ⟨stack, memory, pc, k⟩ s
      ⟨stack', memory, pc + xs.length, k + xs.length⟩ s'

/-- Wherever the code stands, the machine comes to a fault in it, with the stores as they were. -/
def Aborts (limits : Limits) (program : Word) (memory : Memory) (xs : List Instruction)
    (stack : List Word) (s : ω) (e : Fault) : Prop :=
  ∀ (code : List Instruction) (pc k : Nat), CodeAt code pc xs → limits.Allow (k + xs.length) →
    ∃ f f', Reaches limits program code ⟨stack, memory, pc, k⟩ s f s
      ∧ turn limits program code f s = .faulted ⟨s, f', .error e⟩

/-- What code does unless the stack gets full. No place has to be free for it. -/
def taking (ω : Type) [Stores ω] (program : Word) (memory : Memory) : Behaviour ω where
  fits _ := True
  acts := Takes program memory
  stops := Faults program memory

/-- What code does within given limits. -/
def performing (ω : Type) [Stores ω] (limits : Limits) (program : Word) (memory : Memory) :
    Behaviour ω where
  fits n := n ≤ limits.stack
  acts := Performs limits program memory
  stops := Aborts limits program memory

/-- The code puts a word on the stack, or faults. -/
def Reads (program : Word) (memory : Memory) (s : ω) (xs : List Instruction)
    (r : Except Fault Word) : Prop :=
  (taking ω program memory).Gives s 0 xs r

/-- With so many free places on the stack and within the limits, the code puts one word there, or
comes to a fault. -/
def Yields (limits : Limits) (program : Word) (memory : Memory) (s : ω) (room : Nat)
    (xs : List Instruction) (r : Except Fault Word) : Prop :=
  (performing ω limits program memory).Gives s room xs r

/-- Without a step limit a piece leads on to the piece behind it, and a full stack ends both. -/
theorem straight_taking (program : Word) (memory : Memory) :
    (taking ω program memory).Straight program memory where
  fits_mono _ _ := trivial
  nil _ _ := fun _ _ _ k _ _ => Leads.here ⟨⟨k, rfl⟩, rfl⟩
  append {xs _ _ _ _ _ _ _} h h' := by
    intro limits code pc k hsteps hcode
    obtain ⟨hxs, hys⟩ := codeAt_append.1 hcode
    refine (h limits code pc k hsteps hxs).trans ?_
    rintro _ _ ⟨⟨k', rfl⟩, rfl⟩
    -- The second piece starts where the first ends, whatever has been counted by then.
    have hrest := h' limits code (pc + xs.length) k' hsteps hys
    rwa [Nat.add_assoc, ← List.length_append] at hrest
  append_stops {xs _ _ _ _ _} h h' := by
    intro limits code pc k hsteps hcode
    obtain ⟨hxs, hys⟩ := codeAt_append.1 hcode
    refine (h limits code pc k hsteps hxs).trans ?_
    rintro _ _ ⟨⟨k', rfl⟩, rfl⟩
    exact h' limits code (pc + xs.length) k' hsteps hys
  next h := fun limits code _ k hsteps hcode =>
    Leads.next hsteps (codeAt_cons.1 hcode).1 (h limits code.length _ k)
      (Leads.here ⟨⟨_, rfl⟩, rfl⟩)
  push h _ := fun limits code _ k hsteps hcode =>
    Leads.pushed hsteps (codeAt_cons.1 hcode).1 (h limits code.length _ k)
      (Leads.here ⟨⟨_, rfl⟩, rfl⟩)
  fault h := fun limits code _ k hsteps hcode =>
    Leads.fault hsteps (codeAt_cons.1 hcode).1 (h limits code.length _ k)
      fun _ f' hturn => ⟨f', hturn⟩

variable {limits : Limits} {program : Word} {memory : Memory} {stack stack' : List Word} {s s' : ω}

/-- An instruction that goes right is one step. -/
theorem performs_instruction {i : Instruction}
    (h : ∀ length pc k, i.execute limits program length pc ⟨stack, memory, pc + 1, k + 1⟩ s
      = (s', .ok ⟨stack', memory, pc + 1, k + 1⟩)) :
    Performs limits program memory [i] stack s stack' s' := by
  intro code pc k hcode hallow
  have hget : code[pc]? = some i := (codeAt_cons.1 hcode).1
  have hlimit : (⟨stack, memory, pc, k + 1⟩ : Frame).exceeded limits = none :=
    Frame.exceeded_of_allow hallow
  have hturn : turn limits program code ⟨stack, memory, pc, k⟩ s
      = .next ⟨stack', memory, pc + 1, k + 1⟩ s' := by
    simp only [turn, hget, hlimit, h]
  exact .step hturn (.refl _ _)

/-- Within the limits the steps of two pieces add up. -/
theorem straight_performing (limits : Limits) (program : Word) (memory : Memory) :
    (performing ω limits program memory).Straight program memory where
  fits_mono h hle := Nat.le_trans hle h
  nil stack s := fun _ pc k _ _ => .refl ⟨stack, memory, pc, k⟩ s
  append {xs _ _ _ _ _ _ _} h h' := by
    intro code pc k hcode hallow
    obtain ⟨hxs, hys⟩ := codeAt_append.1 hcode
    rw [List.length_append, ← Nat.add_assoc] at hallow
    -- What the limit allows for both pieces it allows for the first.
    have hfirst := h code pc k hxs (hallow.mono (by omega))
    have hsecond := h' code (pc + xs.length) (k + xs.length) hys hallow
    rw [List.length_append, ← Nat.add_assoc, ← Nat.add_assoc]
    exact hfirst.trans hsecond
  append_stops {xs _ _ _ _ _} h h' := by
    intro code pc k hcode hallow
    obtain ⟨hxs, hys⟩ := codeAt_append.1 hcode
    rw [List.length_append, ← Nat.add_assoc] at hallow
    have hfirst := h code pc k hxs (hallow.mono (by omega))
    obtain ⟨f, f', hreach, hturn⟩ := h' code (pc + xs.length) (k + xs.length) hys hallow
    exact ⟨f, f', hfirst.trans hreach, hturn⟩
  next h := performs_instruction (h limits)
  push {_ _ rest w _} h hfits := by
    refine performs_instruction fun length pc k => ?_
    have hroom : rest.length < limits.stack := hfits
    have hpush : Frame.push limits ⟨rest, memory, pc + 1, k + 1⟩ w
        = .ok ⟨w :: rest, memory, pc + 1, k + 1⟩ := if_pos hroom
    rw [h, hpush]
  fault {i stack _ _} h := by
    intro code pc k hcode hallow
    have hget : code[pc]? = some i := (codeAt_cons.1 hcode).1
    have hlimit : (⟨stack, memory, pc, k + 1⟩ : Frame).exceeded limits = none :=
      Frame.exceeded_of_allow hallow
    refine ⟨_, ⟨stack, memory, pc + 1, k + 1⟩, .refl _ _, ?_⟩
    simp only [turn, hget, hlimit, h]

/-- A run of code that stands for one word ends with that word, or with its fault. -/
theorem run_of_yields {room : Nat} {code : List Instruction} {result : Except Fault Word}
    (h : Yields limits program memory s room code result) (hroom : room ≤ limits.stack)
    (hallow : limits.Allow code.length) :
    ∃ fuel o, run limits program code fuel { memory } s = some o ∧ o.stores = s
      ∧ (o.result.map fun _ => o.frame.stack.head?) = result.map some := by
  have hstart : CodeAt code 0 code := codeAt_self code
  have hempty : ([] : List Word).length + room ≤ limits.stack := by simpa using hroom
  have hsteps : limits.Allow (0 + code.length) := hallow.mono (by omega)
  cases h with
  | value h =>
    have hreach := h [] hempty code 0 0 hstart hsteps
    have hend : 0 + code.length = code.length := Nat.zero_add _
    obtain ⟨fuel, hrun⟩ := run_before_reaches hreach (run_of_end hend 0)
    exact ⟨fuel, _, hrun, rfl, rfl⟩
  | fault h =>
    obtain ⟨f, f', hreach, hturn⟩ := h [] hempty code 0 0 hstart hsteps
    obtain ⟨fuel, hrun⟩ := run_before_reaches hreach (run_succ_of_faulted hturn 0)
    exact ⟨fuel, _, hrun, rfl, rfl⟩

end Ways

end Covenant
