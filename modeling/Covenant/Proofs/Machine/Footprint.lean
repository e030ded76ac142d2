import Covenant.Proofs.Machine.Moves
import Covenant.Proofs.Machine.Writes

/-!
# Footprints of runs

Of the stores a run sees the cells that it reads, and it changes the cells that it writes. The list of
both, in the order in which they come, is its footprint. On stores that do not fail, a run from other
stores that hold the same in the cells it reads is the same run, and has the same footprint. So two
calls can be made in either order if neither writes a cell that the other reads or writes.

* `accesses` is the footprint of a run, and `Machine.accesses` that of a call.
* `turn_written` and `run_written` say that nothing changes but the cells that are written, and the
  account entry with them.
* `run_of_agreement` says that nothing counts but the cells that are read.
* `Machine.independent_calls_commute` is about two calls.
-/

namespace Covenant

/-- A storage cell that is read, found or not, or one that is written. -/
inductive Access where
  | read (cell : Word)
  | write (cell w : Word)
  deriving DecidableEq

namespace Access

/-- The cell of an access. -/
def cell : Access → Word
  | .read cell => cell
  | .write cell _ => cell

/-- The cell and the word of a write. -/
def write? : Access → Option (Word × Word)
  | .read _ => none
  | .write cell w => some (cell, w)

/-- The writes among accesses. -/
def writes (accesses : List Access) : List (Word × Word) := accesses.filterMap write?

/-- No cell is written by either that the other reads or writes. -/
def Independent (as bs : List Access) : Prop :=
  (∀ x ∈ writes as, ∀ b ∈ bs, x.1 ≠ b.cell) ∧ ∀ y ∈ writes bs, ∀ a ∈ as, y.1 ≠ a.cell

instance (as bs : List Access) : Decidable (Independent as bs) :=
  inferInstanceAs (Decidable (_ ∧ _))

theorem writes_append (as bs : List Access) : writes (as ++ bs) = writes as ++ writes bs :=
  List.filterMap_append

/-- What is among the writes is an access. -/
theorem write_mem_of_mem_writes {as : List Access} {x : Word × Word} (h : x ∈ writes as) :
    .write x.1 x.2 ∈ as := by
  obtain ⟨a, hmem, hwrite⟩ := List.mem_filterMap.1 h
  cases a with
  | read cell => cases hwrite
  | write cell w =>
    cases hwrite
    exact hmem

end Access

/-- The access of an instruction that finds these words on the stack. -/
def Instruction.access? : Instruction → List Word → Option Access
  | .sload, cell :: _ => some (.read cell)
  | .sstore, cell :: w :: _ => some (.write cell w)
  | _, _ => none

/-- The accesses of a turn: one, or none. A turn that the step limit ends has none. -/
def Frame.accesses (limits : Limits) (code : List Instruction) (f : Frame) : List Access :=
  match code[f.pc]?, ({ f with steps := f.steps + 1 } : Frame).exceeded limits with
  | some i, none => (i.access? f.stack).toList
  | _, _ => []

section Run

variable {ω : Type} [Stores ω]

/-- The accesses of a run, in their order. -/
def accesses (limits : Limits) (program : Word) (code : List Instruction) :
    Nat → Frame → ω → List Access
  | 0, _, _ => []
  | fuel + 1, f, s =>
    f.accesses limits code ++
      match turn limits program code f s with
      | .next f' s' => accesses limits program code fuel f' s'
      | _ => []

variable {good : ω → Prop} {limits : Limits} {program : Word} {code : List Instruction}
  {f f' : Frame} {i : Instruction} {s s' t : ω} {o : Outcome ω} {fuel : Nat}

/-- A turn within the step limit has the access of its instruction. -/
theorem Frame.accesses_eq (hget : code[f.pc]? = some i)
    (hlimit : ({ f with steps := f.steps + 1 } : Frame).exceeded limits = none) :
    f.accesses limits code = (i.access? f.stack).toList := by
  simp only [Frame.accesses, hget, hlimit]

/-- A turn that the step limit ends has none. -/
theorem Frame.accesses_of_exceeded {limit : Nat}
    (hlimit : ({ f with steps := f.steps + 1 } : Frame).exceeded limits = some limit) :
    f.accesses limits code = [] := by
  cases hget : code[f.pc]? with
  | none => simp only [Frame.accesses, hget]
  | some i => simp only [Frame.accesses, hget, hlimit]

/-- The accesses of a turn that goes on come before those of the run after it. -/
theorem accesses_of_next (hturn : turn limits program code f s = .next f' s') (fuel : Nat) :
    accesses limits program code (fuel + 1) f s
      = f.accesses limits code ++ accesses limits program code fuel f' s' := by
  rw [accesses, hturn]

theorem accesses_of_faulted (hturn : turn limits program code f s = .faulted o) (fuel : Nat) :
    accesses limits program code (fuel + 1) f s = f.accesses limits code := by
  rw [accesses, hturn, List.append_nil]

/-- A run that is over has no accesses, with or without fuel. -/
theorem accesses_of_halted (hturn : turn limits program code f s = .halted) (fuel : Nat) :
    accesses limits program code fuel f s = [] := by
  cases fuel with
  | zero => rfl
  | succ fuel =>
    have hend := List.getElem?_eq_none_iff.2 (turn_eq_halted_iff.1 hturn)
    rw [accesses, hturn, List.append_nil]
    simp only [Frame.accesses, hend]

/-! ### What a run changes -/

/-- An instruction makes the write that it has, and leaves the stores alone if it has none. -/
theorem move_written (hrel : Stores.Reliable good) (hroots : Stores.ContentRoots good)
    (hgood : good s) (program : Word) (pc : Nat) (i : Instruction) (stack : List Word)
    (memory : Memory) :
    good (i.move program pc stack memory s).1
      ∧ Stores.Written program (Access.writes (i.access? stack).toList) s
        (i.move program pc stack memory s).1 := by
  cases i with
  | sstore =>
    rcases stack with _ | ⟨cell, _ | ⟨w, rest⟩⟩
    · exact ⟨hgood, .nil program s⟩
    · exact ⟨hgood, .nil program s⟩
    · obtain ⟨s', hwrite, hgood', hwritten⟩ := hrel.written hroots hgood program cell w
      have hmove : (Instruction.sstore.move program pc (cell :: w :: rest) memory s).1 = s' := by
        simp only [Instruction.move, hwrite]
      rw [hmove]
      exact ⟨hgood', hwritten⟩
  | _ =>
    -- Nothing else touches the stores, whatever there is on the stack.
    rcases stack with _ | ⟨a, _ | ⟨b, rest⟩⟩ <;> exact ⟨hgood, .nil program s⟩

/-- A turn changes what it writes, whether it faults or not. -/
theorem turn_written (hrel : Stores.Reliable good) (hroots : Stores.ContentRoots good)
    (hgood : good s) :
    (∀ f' s', turn limits program code f s = .next f' s' →
        good s' ∧ Stores.Written program (Access.writes (f.accesses limits code)) s s')
      ∧ ∀ o, turn limits program code f s = .faulted o → good o.stores
        ∧ Stores.Written program (Access.writes (f.accesses limits code)) s o.stores := by
  have hmade := made_turn limits program code f s
  generalize turn limits program code f s = taken at hmade ⊢
  cases hmade with
  | halted => exact ⟨fun _ _ h => (by cases h), fun _ h => (by cases h)⟩
  | exceeded hget hlimit =>
    refine ⟨fun _ _ h => (by cases h), fun o h => ?_⟩
    cases h
    rw [Frame.accesses_of_exceeded hlimit]
    exact ⟨hgood, .nil program s⟩
  | @next i f₁ s₁ move hget hlimit hmove =>
    refine ⟨fun f' s' h => ?_, fun _ h => (by cases h)⟩
    cases h
    have hwritten := move_written hrel hroots hgood program f.pc i f.stack f.memory
    rw [hmove] at hwritten
    rwa [Frame.accesses_eq hget hlimit]
  | @faulted i e s₁ move hget hlimit hmove =>
    refine ⟨fun _ _ h => (by cases h), fun o h => ?_⟩
    cases h
    have hwritten := move_written hrel hroots hgood program f.pc i f.stack f.memory
    rw [hmove] at hwritten
    rwa [Frame.accesses_eq hget hlimit]

/-- A run changes what it writes. -/
theorem run_written (hrel : Stores.Reliable good) (hroots : Stores.ContentRoots good)
    (hgood : good s) (hrun : run limits program code fuel f s = some o) :
    good o.stores
      ∧ Stores.Written program (Access.writes (accesses limits program code fuel f s)) s
        o.stores := by
  -- On the turns left: the writes of the first turn come before those of the rest.
  induction fuel generalizing f s with
  | zero =>
    cases hturn : turn limits program code f s with
    | halted =>
      rw [run_of_halted hturn] at hrun
      cases hrun
      exact ⟨hgood, .nil program s⟩
    | _ =>
      rw [run_zero_of_not_halted (by rw [hturn]; simp)] at hrun
      cases hrun
  | succ fuel ih =>
    cases hturn : turn limits program code f s with
    | halted =>
      rw [run_of_halted hturn] at hrun
      cases hrun
      rw [accesses_of_halted hturn]
      exact ⟨hgood, .nil program s⟩
    | faulted o' =>
      rw [run_succ_of_faulted hturn] at hrun
      cases hrun
      rw [accesses_of_faulted hturn]
      exact (turn_written hrel hroots hgood).2 o hturn
    | next f' s' =>
      rw [run_succ_of_next hturn] at hrun
      obtain ⟨hgood', hfirst⟩ := (turn_written hrel hroots hgood).1 f' s' hturn
      obtain ⟨hgood'', hrest⟩ := ih hgood' hrun
      rw [accesses_of_next hturn, Access.writes_append]
      exact ⟨hgood'', hfirst.append hroots hgood' hgood'' hrest⟩

/-! ### What a run depends on -/

/-- The stores hold the same in the cells that are read. -/
def Stores.AgreeOn (as : List Access) (s t : ω) : Prop :=
  ∀ cell, .read cell ∈ as → Stores.get? s .storage cell.hex = Stores.get? t .storage cell.hex

/-- A turn is the same on stores that agree on the cell it reads. -/
theorem turn_of_agreement (program : Word) (hrel : Stores.Reliable good)
    (hroots : Stores.ContentRoots good) (hs : good s) (ht : good t)
    (hagree : Stores.AgreeOn (f.accesses limits code) s t) :
    Turn.Matches (fun s t : ω => good s ∧ good t) (fun _ => False)
      (turn limits program code f s) (turn limits program code f t) := by
  apply turn_matches ⟨hs, ht⟩
  · intro cell rest hcode hstack hlimit
    have hread : Stores.get? s .storage cell.hex = Stores.get? t .storage cell.hex := by
      apply hagree
      rw [Frame.accesses_eq hcode hlimit, hstack]
      exact List.mem_singleton_self _
    exact readCell_congr hread
  · -- Stores that do not fail take a write, whatever they hold.
    intro cell w rest _ _ _
    obtain ⟨s', hwrite, hs', -⟩ := hrel.written hroots hs program cell w
    obtain ⟨t', hwrite', ht', -⟩ := hrel.written hroots ht program cell w
    rw [hwrite, hwrite']
    exact Or.inr ⟨rfl, hs', ht'⟩

/-- A run is the same on stores that agree on the cells it reads: it ends in the same frame with the
same result, and comes by the same cells. -/
theorem run_of_agreement (hrel : Stores.Reliable good) (hroots : Stores.ContentRoots good)
    (hs : good s) (ht : good t) (hrun : run limits program code fuel f s = some o)
    (hagree : Stores.AgreeOn (accesses limits program code fuel f s) s t) :
    (∃ t', run limits program code fuel f t = some ⟨t', o.frame, o.result⟩)
      ∧ accesses limits program code fuel f t = accesses limits program code fuel f s := by
  -- On the turns left. Both runs take the same turns, so they can be compared turn by turn.
  induction fuel generalizing f s t with
  | zero =>
    cases hturn : turn limits program code f s with
    | halted =>
      have hturn' : turn limits program code f t = .halted :=
        turn_eq_halted_iff.2 (turn_eq_halted_iff.1 hturn)
      rw [run_of_halted hturn] at hrun
      cases hrun
      exact ⟨⟨t, run_of_halted hturn' 0⟩, rfl⟩
    | _ =>
      rw [run_zero_of_not_halted (by rw [hturn]; simp)] at hrun
      cases hrun
  | succ fuel ih =>
    have hfirst : Stores.AgreeOn (f.accesses limits code) s t := fun cell hmem =>
      hagree cell (List.mem_append_left _ hmem)
    have hmatches := turn_of_agreement program hrel hroots hs ht hfirst
    generalize hturn : turn limits program code f s = taken at hmatches
    generalize hturn' : turn limits program code f t = taken' at hmatches
    cases hmatches with
    | halted =>
      rw [run_of_halted hturn] at hrun
      cases hrun
      rw [accesses_of_halted hturn, accesses_of_halted hturn']
      exact ⟨⟨t, run_of_halted hturn' _⟩, rfl⟩
    | faulted =>
      rw [run_succ_of_faulted hturn] at hrun
      cases hrun
      rw [accesses_of_faulted hturn, accesses_of_faulted hturn']
      exact ⟨⟨_, run_succ_of_faulted hturn' fuel⟩, rfl⟩
    | lost hloss other =>
      obtain ⟨cause, hlost, -⟩ := hloss
      exact hlost.elim
    | @next f' s' t' hgoods =>
      rw [run_succ_of_next hturn] at hrun
      rw [run_succ_of_next hturn', accesses_of_next hturn, accesses_of_next hturn']
      -- Both turns write the same, so the stores still agree on what is read from here on.
      have hrest : Stores.AgreeOn (accesses limits program code fuel f' s') s' t' := by
        intro cell hmem
        have hbefore := hagree cell (by
          rw [accesses_of_next hturn]
          exact List.mem_append_right _ hmem)
        rw [((turn_written hrel hroots hs).1 f' s' hturn).2.storage,
          ((turn_written hrel hroots ht).1 f' t' hturn').2.storage, hbefore]
      obtain ⟨hends, hsame⟩ := ih hgoods.1 hgoods.2 hrun hrest
      exact ⟨hends, by rw [hsame]⟩

/-- Writes to other cells than those that are read leave stores that agree on these. -/
theorem Stores.Written.agreeOn {xs : List (Word × Word)} (h : Stores.Written program xs s t)
    {as : List Access} (hapart : ∀ x ∈ xs, ∀ a ∈ as, x.1 ≠ a.cell) : Stores.AgreeOn as s t := by
  intro cell hmem
  have hnone : lastWrite? cell.hex xs = none := by
    refine lastWrite?_eq_none_iff.2 fun x hx heq => ?_
    exact hapart x hx _ hmem (Word.hex_injective heq).symm
  rw [h.storage, hnone]
  rfl

end Run

/-! ### Calls -/

/-- The function that a call runs, or the fault of a call that runs nothing. -/
def Loaded.entry (l : Loaded) (i : Nat) (arguments : List Word) : Except Fault FunctionCode :=
  match l.program.functions.get? i with
  | none => .error (.undefinedFunction i)
  | some f =>
    if f.parameters.length < arguments.length then
      .error (.tooManyArguments i f.parameters.length arguments.length)
    else .ok f

namespace Machine

variable {ω : Type} [Stores ω] {good : ω → Prop} {m m' m₁ m₂ n : Machine ω} {l : Loaded}
  {fuel fuel' i j : Nat} {arguments xs ys : List Word} {r r' : Except Fault (Option Word)}

/-- The accesses of a call. A call that fails before it runs anything has none. -/
def accesses (m : Machine ω) (fuel i : Nat) (arguments : List Word) : List Access :=
  match m.loaded with
  | none => []
  | some l =>
    match l.entry i arguments with
    | .error _ => []
    | .ok f =>
      Covenant.accesses m.limits l.address f.body fuel { memory := bind f.parameters arguments }
        m.stores

/-- A call that runs a function has the accesses of that run. -/
theorem callWords_of_entry {f : FunctionCode} (hloaded : m.loaded = some l)
    (hentry : l.entry i arguments = .ok f) (fuel : Nat) :
    m.callWords fuel i arguments = m.runCode fuel l.address (bind f.parameters arguments) f.body
      ∧ m.accesses fuel i arguments = Covenant.accesses m.limits l.address f.body fuel
          { memory := bind f.parameters arguments } m.stores := by
  refine ⟨?_, by simp only [accesses, hloaded, hentry]⟩
  unfold Loaded.entry at hentry
  cases hget : l.program.functions.get? i with
  | none =>
    rw [hget] at hentry
    cases hentry
  | some f' =>
    rw [hget] at hentry
    dsimp only at hentry
    split at hentry
    · cases hentry
    · next hroom =>
      cases hentry
      simp only [callWords, hloaded, hget, if_neg hroom]

/-- A call that is refused has no accesses and leaves the machine as it was. -/
theorem callWords_of_refusal {e : Fault} (hloaded : m.loaded = some l)
    (hentry : l.entry i arguments = .error e) (fuel : Nat) :
    m.callWords fuel i arguments = some (.error e, m) ∧ m.accesses fuel i arguments = [] := by
  refine ⟨?_, by simp only [accesses, hloaded, hentry]⟩
  unfold Loaded.entry at hentry
  cases hget : l.program.functions.get? i with
  | none =>
    rw [hget] at hentry
    cases hentry
    simp only [callWords, hloaded, hget]
  | some f =>
    rw [hget] at hentry
    dsimp only at hentry
    split at hentry
    · next hmany =>
      cases hentry
      simp only [callWords, hloaded, hget, if_pos hmany]
    · cases hentry

/-- A call changes what it writes. -/
theorem callWords_written (hrel : Stores.Reliable good) (hroots : Stores.ContentRoots good)
    (hgood : good m.stores) (hloaded : m.loaded = some l)
    (hcall : m.callWords fuel i arguments = some (r, m')) :
    good m'.stores
      ∧ Stores.Written l.address (Access.writes (m.accesses fuel i arguments)) m.stores
        m'.stores := by
  cases hentry : l.entry i arguments with
  | error e =>
    obtain ⟨hresult, hnone⟩ := callWords_of_refusal hloaded hentry fuel
    rw [hresult] at hcall
    cases hcall
    rw [hnone]
    exact ⟨hgood, .nil l.address m.stores⟩
  | ok f =>
    obtain ⟨hresult, haccesses⟩ := callWords_of_entry hloaded hentry fuel
    rw [hresult] at hcall
    obtain ⟨o, hrun, -, rfl⟩ := runCode_eq_some hcall
    rw [haccesses]
    exact run_written hrel hroots hgood hrun

/-- A call is the same on a machine of the same setup whose stores agree on the cells it reads. -/
theorem callWords_of_agreement (hrel : Stores.Reliable good) (hroots : Stores.ContentRoots good)
    (hm : good m.stores) (hn : good n.stores) (hloaded : m.loaded = some l)
    (hsetup : m.SameSetup n) (hcall : m.callWords fuel i arguments = some (r, m'))
    (hagree : Stores.AgreeOn (m.accesses fuel i arguments) m.stores n.stores) :
    (∃ n', n.callWords fuel i arguments = some (r, n'))
      ∧ n.accesses fuel i arguments = m.accesses fuel i arguments := by
  have hloaded' : n.loaded = some l := hsetup.loaded.trans hloaded
  cases hentry : l.entry i arguments with
  | error e =>
    obtain ⟨hresult, hnone⟩ := callWords_of_refusal hloaded hentry fuel
    obtain ⟨hresult', hnone'⟩ := callWords_of_refusal hloaded' hentry fuel
    rw [hresult] at hcall
    cases hcall
    exact ⟨⟨n, hresult'⟩, hnone'.trans hnone.symm⟩
  | ok f =>
    obtain ⟨hresult, haccesses⟩ := callWords_of_entry hloaded hentry fuel
    obtain ⟨hresult', haccesses'⟩ := callWords_of_entry hloaded' hentry fuel
    rw [hresult] at hcall
    obtain ⟨o, hrun, rfl, -⟩ := runCode_eq_some hcall
    rw [haccesses] at hagree ⊢
    obtain ⟨⟨t, hrun'⟩, hsame⟩ := run_of_agreement hrel hroots hm hn hrun hagree
    rw [haccesses', hresult', runCode_eq_map_run, hsetup.limits, hrun']
    exact ⟨⟨_, rfl⟩, hsame⟩

/-- A call that comes after another one, which has not written what it reads, does what it would have
done at first. -/
theorem callWords_after (hrel : Stores.Reliable good) (hroots : Stores.ContentRoots good)
    (hgood : good m.stores) (hloaded : m.loaded = some l)
    (hfirst : m.callWords fuel i xs = some (r, m₁))
    (hsecond : m.callWords fuel' j ys = some (r', m₂))
    (hapart : ∀ x ∈ Access.writes (m.accesses fuel i xs), ∀ a ∈ m.accesses fuel' j ys,
      x.1 ≠ a.cell) :
    ∃ m', m₁.callWords fuel' j ys = some (r', m') ∧ good m'.stores
      ∧ Stores.Written l.address (Access.writes (m.accesses fuel i xs)
          ++ Access.writes (m.accesses fuel' j ys)) m.stores m'.stores := by
  obtain ⟨hgood₁, hwritten₁⟩ := callWords_written hrel hroots hgood hloaded hfirst
  have hsetup := callWords_setup hfirst
  -- The first call has left alone what the second reads.
  obtain ⟨⟨m', hcall⟩, hsame⟩ := callWords_of_agreement hrel hroots hgood hgood₁ hloaded hsetup
    hsecond (hwritten₁.agreeOn hapart)
  obtain ⟨hgood', hwritten'⟩ :=
    callWords_written hrel hroots hgood₁ (hsetup.loaded.trans hloaded) hcall
  rw [hsame] at hwritten'
  exact ⟨m', hcall, hgood', hwritten₁.append hroots hgood₁ hgood' hwritten'⟩

/-- **Independent calls commute.** Two calls come to an end on a machine whose stores do not fail, and
neither writes a cell that the other reads or writes. Made one after the other, in either order, each
of them has the result or the fault that it has alone; and the storage, its root and the account index
are the same in the end. -/
theorem independent_calls_commute (hrel : Stores.Reliable good) (hroots : Stores.ContentRoots good)
    (hgood : good m.stores) (hloaded : m.loaded = some l)
    (hfirst : m.callWords fuel i xs = some (r, m₁))
    (hsecond : m.callWords fuel' j ys = some (r', m₂))
    (hindependent : Access.Independent (m.accesses fuel i xs) (m.accesses fuel' j ys)) :
    ∃ m₁₂ m₂₁, m₁.callWords fuel' j ys = some (r', m₁₂) ∧ m₂.callWords fuel i xs = some (r, m₂₁)
      ∧ ∀ area, Stores.Unchanged area m₁₂.stores m₂₁.stores := by
  obtain ⟨m₁₂, hcall, hgood₁₂, hwritten⟩ :=
    callWords_after hrel hroots hgood hloaded hfirst hsecond hindependent.1
  obtain ⟨m₂₁, hcall', hgood₂₁, hwritten'⟩ :=
    callWords_after hrel hroots hgood hloaded hsecond hfirst hindependent.2
  -- The same cells are written in both orders, each by one of the two calls only.
  refine ⟨m₁₂, m₂₁, hcall, hcall',
    hwritten.unchanged_of_lastWrite? hroots hgood₁₂ hgood₂₁ hwritten' ?_⟩
  apply lastWrite?_append_comm
  intro x hx y hy
  exact hindependent.1 x hx _ (Access.write_mem_of_mem_writes hy)

/-- One function stores a cell and then faults on a cell that is not there; the other copies a third
cell to a fourth. In either order the one faults, the other does not, and the stores end up the
same. -/
theorem failing_store_commutes_with_copy :
    let store : FunctionCode :=
      ⟨[], [.push (.ofNat 5), .push (.ofNat 1), .sstore, .push (.ofNat 7), .sload]⟩
    let copy : FunctionCode := ⟨[], [.push (.ofNat 2), .sload, .push (.ofNat 3), .sstore]⟩
    let storage : Store := .ofList [((Word.ofNat 2).hex, (Word.ofNat 9).toBytes)]
    let m : Machine MemoryStores :=
      { stores := { storage }, loaded := some ⟨⟨[], .ofList [(0, store), (1, copy)]⟩, .zero⟩ }
    let missing : Fault := .missingStorageKey (Word.ofNat 7).hex
    m.accesses 9 0 [] = [.write (.ofNat 1) (.ofNat 5), .read (.ofNat 7)]
      ∧ m.accesses 9 1 [] = [.read (.ofNat 2), .write (.ofNat 3) (.ofNat 9)]
      ∧ ∃ m₁ m₂ m₁₂ m₂₁, m.callWords 9 0 [] = some (.error missing, m₁)
        ∧ m₁.callWords 9 1 [] = some (.ok none, m₁₂)
        ∧ m.callWords 9 1 [] = some (.ok none, m₂)
        ∧ m₂.callWords 9 0 [] = some (.error missing, m₂₁) ∧ m₂₁.stores = m₁₂.stores := by
  intro store copy storage m missing
  have hstore : m.accesses 9 0 [] = [.write (.ofNat 1) (.ofNat 5), .read (.ofNat 7)] := by decide
  have hcopy : m.accesses 9 1 [] = [.read (.ofNat 2), .write (.ofNat 3) (.ofNat 9)] := by decide
  have hindependent : Access.Independent (m.accesses 9 0 []) (m.accesses 9 1 []) := by
    rw [hstore, hcopy]
    decide
  have hfails : (m.callWords 9 0 []).map Prod.fst = some (.error missing) := rfl
  have hcopies : (m.callWords 9 1 []).map Prod.fst = some (.ok none) := rfl
  obtain ⟨⟨r, m₁⟩, hfirst, hr⟩ := Option.map_eq_some_iff.1 hfails
  obtain ⟨⟨r', m₂⟩, hsecond, hr'⟩ := Option.map_eq_some_iff.1 hcopies
  cases (hr : r = .error missing)
  cases (hr' : r' = .ok none)
  obtain ⟨m₁₂, m₂₁, hcall, hcall', hsame⟩ := independent_calls_commute MemoryStores.reliable
    MemoryStores.contentRoots trivial rfl hfirst hsecond hindependent
  exact ⟨hstore, hcopy, m₁, m₂, m₁₂, m₂₁, hfirst, hcall, hsecond, hcall',
    MemoryStores.eq_of_unchanged hsame⟩

end Machine

end Covenant
