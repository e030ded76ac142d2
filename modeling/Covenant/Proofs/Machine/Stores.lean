import Covenant.Proofs.Machine.Turn

/-!
# Runs and stores

One instruction writes to the stores and one reads from them; all others leave them alone. So what
holds of the stores before a run, and is kept by the write of any cell, holds after it, however the
run ends. And a run that ends in a fault of the stores has it from a read or a write of a cell that
was tried where it still held.

* `Stores.Reliable` is what is asked of stores that do not fail.
* `execute_stores` is about one instruction, `turn_stores` about one turn, `run_stores` about a run.
-/

namespace Covenant

/-- Stores that answer, and on which an insertion goes right and binds its key and no other, as long
as `good` holds of them; and it goes on to hold. -/
structure Stores.Reliable {ω : Type} [Stores ω] (good : ω → Prop) : Prop where
  get? : ∀ s area key, good s → ∃ value?, Stores.get? s area key = .ok value?
  root : ∀ s area, good s → ∃ root, Stores.root s area = .ok root
  insert : ∀ s area key value, good s → ∃ s', Stores.insert s area key value = (s', .ok ()) ∧ good s'
    ∧ ∀ area' key', Stores.get? s' area' key'
      = if area' = area ∧ key' = key then .ok (some value) else Stores.get? s area' key'

/-- An insertion changes the store of its area and no other. -/
theorem MemoryStores.store_insert (s : MemoryStores) (area other : Area) (key : String)
    (value : Bytes) : (s.insert area key value).store other
      = if other = area then (s.store area).insert key value else s.store other := by
  cases area <;> cases other <;> rfl

/-- Stores in memory are reliable. -/
theorem MemoryStores.reliable : Stores.Reliable fun _ : MemoryStores => True where
  get? _ _ _ _ := ⟨_, rfl⟩
  root _ _ _ := ⟨_, rfl⟩
  insert s area key value _ := by
    refine ⟨s.insert area key value, rfl, trivial, fun area' key' => ?_⟩
    show Except.ok (((s.insert area key value).store area').get? key')
      = if area' = area ∧ key' = key then .ok (some value) else .ok ((s.store area').get? key')
    rw [MemoryStores.store_insert]
    by_cases harea : area' = area
    · subst harea
      by_cases hkey : key' = key
      · simp [hkey, Table.get?_insert]
      · simp [hkey, Table.get?_insert]
    · simp [harea]

/-- A write to reliable stores changes one storage cell. -/
theorem Stores.Reliable.writeCell {ω : Type} [Stores ω] {good : ω → Prop}
    (h : Stores.Reliable good) {s : ω} (hgood : good s) (program address w : Word) :
    ∃ s', Instruction.writeCell s program address w = (s', .ok ()) ∧ good s'
      ∧ ∀ key, Stores.get? s' .storage key
        = if key = address.hex then .ok (some w.toBytes) else Stores.get? s .storage key := by
  -- Two insertions: the cell, and the storage root in the account index.
  obtain ⟨s₁, hinsert, hgood₁, hget₁⟩ := h.insert s .storage address.hex w.toBytes hgood
  obtain ⟨root, hroot⟩ := h.root s₁ .storage hgood₁
  obtain ⟨s₂, hrecord, hgood₂, hget₂⟩ := h.insert s₁ .accounts program.hex root.toBytes hgood₁
  refine ⟨s₂, ?_, hgood₂, fun key => ?_⟩
  · rw [Instruction.writeCell, hinsert]
    exact recordRoot_of_insert hroot hrecord
  · rw [hget₂, if_neg (by simp), hget₁]
    simp

section Run

variable {ω : Type} [Stores ω] {limits : Limits} {program : Word} {code : List Instruction}

/-- The fault of the stores in reading or writing some cell. -/
def Stores.Fails (program : Word) (s : ω) (cause : StoreError) : Prop :=
  (∃ address, Instruction.readCell s address = .error (.store cause))
    ∨ ∃ address value, (Instruction.writeCell s program address value).2 = .error (.store cause)

theorem push_ne_store (f : Frame) (w : Word) (cause : StoreError) :
    f.push limits w ≠ .error (.store cause) := by
  rcases push_cases limits f w with hpush | hpush
  · rw [hpush]; nofun
  · rw [hpush]; nofun

theorem jump_ne_store (f : Frame) (length : Nat) (target : Word) (cause : StoreError) :
    f.jump length target ≠ .error (.store cause) := by
  unfold Frame.jump
  split
  · split <;> nofun
  · nofun

/-- An instruction that does not go to the stores has no fault of theirs. -/
theorem execLocal_ne_store (length pc : Nat) (i : Instruction) (f : Frame) (cause : StoreError) :
    i.execLocal limits length pc f ≠ .error (.store cause) := by
  unfold Instruction.execLocal
  split
  · exact push_ne_store _ _ _
  · split
    · exact push_ne_store _ _ _
    · nofun
  · nofun
  · split
    · exact push_ne_store _ _ _
    · nofun
  · nofun
  · exact push_ne_store _ _ _
  · split
    · exact push_ne_store _ _ _
    · nofun
  · exact jump_ne_store _ _ _ _
  · split
    · nofun
    · exact jump_ne_store _ _ _ _
  · nofun

/-- What an instruction can do to the stores, and where a fault of theirs comes from. -/
theorem execute_stores (limits : Limits) (program : Word) (length pc : Nat) (i : Instruction)
    (f : Frame) (s : ω) :
    ((i.execute limits program length pc f s).1 = s
        ∨ ∃ address value, (i.execute limits program length pc f s).1
          = (Instruction.writeCell s program address value).1)
      ∧ ∀ cause, (i.execute limits program length pc f s).2 = .error (.store cause) →
        Stores.Fails program s cause := by
  unfold Instruction.execute
  split
  · -- A read.
    split
    · next address rest hstack =>
      split
      · exact ⟨Or.inl rfl, fun cause h => absurd h (push_ne_store _ _ cause)⟩
      · next e hread =>
        refine ⟨Or.inl rfl, fun cause h => Or.inl ⟨address, ?_⟩⟩
        rw [hread, Except.error.inj h]
    · exact ⟨Or.inl rfl, nofun⟩
  · -- A write.
    split
    · next address value rest hstack =>
      split
      · next hwrite => exact ⟨Or.inr ⟨address, value, by rw [hwrite]⟩, nofun⟩
      · next e hwrite =>
        refine ⟨Or.inr ⟨address, value, by rw [hwrite]⟩, fun cause h => Or.inr ⟨address, value, ?_⟩⟩
        rw [hwrite, Except.error.inj h]
    · exact ⟨Or.inl rfl, nofun⟩
  · exact ⟨Or.inl rfl, fun cause h => absurd h (execLocal_ne_store _ _ _ _ cause)⟩

/-- What a write of any cell keeps, a turn keeps. -/
theorem turn_stores (limits : Limits) (code : List Instruction) (f : Frame) {P : ω → Prop}
    (hwrite : ∀ s address value, P s → P (Instruction.writeCell s program address value).1)
    {s : ω} (hs : P s) :
    (∀ f' s', turn limits program code f s = .next f' s' → P s')
      ∧ ∀ o, turn limits program code f s = .faulted o →
        P o.stores ∧ ∀ cause, o.result = .error (.store cause) → Stores.Fails program s cause := by
  unfold turn
  cases code[f.pc]? with
  | none => exact ⟨nofun, nofun⟩
  | some i =>
    dsimp only
    cases ({ f with steps := f.steps + 1 } : Frame).exceeded limits with
    | some limit =>
      refine ⟨nofun, fun o h => ?_⟩
      cases h
      exact ⟨hs, nofun⟩
    | none =>
      dsimp only
      obtain ⟨heffect, hfault⟩ := execute_stores limits program code.length f.pc i
        { f with pc := f.pc + 1, steps := f.steps + 1 } s
      have hafter : P (i.execute limits program code.length f.pc
          { f with pc := f.pc + 1, steps := f.steps + 1 } s).1 := by
        rcases heffect with hsame | ⟨address, value, hstored⟩
        · rw [hsame]; exact hs
        · rw [hstored]; exact hwrite s address value hs
      rcases hexec : i.execute limits program code.length f.pc
        { f with pc := f.pc + 1, steps := f.steps + 1 } s with ⟨s', e | f'⟩
      · rw [hexec] at hafter hfault
        refine ⟨nofun, fun o h => ?_⟩
        cases h
        exact ⟨hafter, fun cause he => hfault cause (Except.error.inj he ▸ rfl)⟩
      · rw [hexec] at hafter
        refine ⟨fun f'' s'' h => ?_, nofun⟩
        cases h
        exact hafter

/-- What a write of any cell keeps, a run keeps. -/
theorem run_stores {P : ω → Prop}
    (hwrite : ∀ s address value, P s → P (Instruction.writeCell s program address value).1)
    {fuel : Nat} {f : Frame} {s : ω} {o : Outcome ω} (hs : P s)
    (hrun : run limits program code fuel f s = some o) :
    P o.stores ∧ ∀ cause, o.result = .error (.store cause) →
      ∃ s', P s' ∧ Stores.Fails program s' cause := by
  -- On the turns left: what holds of the stores before a turn holds after it.
  induction fuel generalizing f s with
  | zero =>
    cases ht : turn limits program code f s with
    | halted =>
      rw [run_of_halted ht] at hrun
      cases hrun
      exact ⟨hs, nofun⟩
    | _ =>
      rw [run_zero_of_not_halted (by rw [ht]; simp)] at hrun
      cases hrun
  | succ fuel ih =>
    obtain ⟨hnext, hfaulted⟩ := turn_stores limits code f hwrite hs
    rw [run_succ] at hrun
    cases ht : turn limits program code f s with
    | halted =>
      rw [ht] at hrun
      cases hrun
      exact ⟨hs, nofun⟩
    | faulted o' =>
      rw [ht] at hrun
      cases hrun
      obtain ⟨hafter, hfails⟩ := hfaulted o ht
      exact ⟨hafter, fun cause h => ⟨s, hs, hfails cause h⟩⟩
    | next f' s' =>
      rw [ht] at hrun
      exact ih (hnext f' s' ht) hrun

end Run

end Covenant
