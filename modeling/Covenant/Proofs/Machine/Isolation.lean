import Covenant.Proofs.Machine.Lockstep

/-!
# What a call depends on

A call starts at its first instruction, at step zero, with an empty stack and with nothing but its
arguments in memory; of the stores it reads the storage and nothing else. So on two machines with
one program and the same limits, whose storages behave alike, a call does the same: what either of
them did before, how that ended, and what their account indexes hold is not to be seen.

The account index matters in one way. A call that stores a cell records the new root there, and
faults if the root is refused; `Machine.RecordsRoots` says that this does not happen.

* `Stores.SameStorage` is what is asked of the stores of the two machines.
* `writeCell_match` is about a cell that is written; everything else a turn does is on the frame.
* `Machine.call_depends_only_on_storage` is about whole calls.
-/

namespace Covenant

section Run

variable {ω ω' : Type} [Stores ω] [Stores ω']

/-- Related stores have the same storage, and it takes the same cells. The account indexes may hold
anything, and stay out of the relation: it survives whatever they take. -/
structure Stores.SameStorage (R : ω → ω' → Prop) : Prop where
  get? : ∀ s t, R s t → ∀ key, Stores.get? s .storage key = Stores.get? t .storage key
  storage : ∀ s t, R s t → ∀ key value,
    (Stores.insert s .storage key value).2 = (Stores.insert t .storage key value).2
      ∧ R (Stores.insert s .storage key value).1 (Stores.insert t .storage key value).1
  accounts : ∀ s t, R s t → ∀ key value key' value' s' t',
    Stores.insert s .accounts key value = (s', .ok ()) →
    Stores.insert t .accounts key' value' = (t', .ok ()) → R s' t'

/-- After a cell that the storage takes there is a storage root, and the account index takes it. -/
def Stores.TakesRoot (s : ω) (program cell w : Word) : Prop :=
  ∀ s', Stores.insert s .storage cell.hex w.toBytes = (s', .ok ()) →
    ∃ root s'', Stores.root s' .storage = .ok root
      ∧ Stores.insert s' .accounts program.hex root.toBytes = (s'', .ok ())

/-- The account index takes the root after every cell that is written in a run from a frame on. -/
def RecordsRoots (limits : Limits) (program : Word) (code : List Instruction) (f : Frame) (s : ω) :
    Prop :=
  ∀ f' s', Reaches limits program code f s f' s' → ∀ cell w rest,
    code[f'.pc]? = some .sstore → f'.stack = cell :: w :: rest →
    ({ f' with steps := f'.steps + 1 } : Frame).exceeded limits = none →
    Stores.TakesRoot s' program cell w

variable {R : ω → ω' → Prop} {s : ω} {t : ω'} {limits : Limits} {program : Word}
  {code : List Instruction}

/-- A cell that is written goes to both storages or to neither, and no loss is possible. -/
theorem writeCell_match (h : Stores.SameStorage R) (hR : R s t) {cell w : Word}
    (hs : Stores.TakesRoot s program cell w) (ht : Stores.TakesRoot t program cell w) :
    Stores.Match R (fun _ => False) (Instruction.writeCell s program cell w)
      (Instruction.writeCell t program cell w) := by
  obtain ⟨hresult, hR'⟩ := h.storage s t hR cell.hex w.toBytes
  unfold Instruction.writeCell
  rcases hinsert : Stores.insert s .storage cell.hex w.toBytes with ⟨s', result⟩
  rcases hinsert' : Stores.insert t .storage cell.hex w.toBytes with ⟨t', result'⟩
  rw [hinsert, hinsert'] at hresult hR'
  dsimp only at hresult hR'
  subst hresult
  cases result with
  | error e => exact Or.inr ⟨rfl, hR'⟩
  | ok =>
    -- The two roots may differ, as the account indexes do.
    obtain ⟨root, s'', hroot, haccounts⟩ := hs s' hinsert
    obtain ⟨root', t'', hroot', haccounts'⟩ := ht t' hinsert'
    dsimp only
    rw [recordRoot_of_insert hroot haccounts, recordRoot_of_insert hroot' haccounts']
    exact Or.inr ⟨rfl, h.accounts s' t' hR' _ _ _ _ _ _ haccounts haccounts'⟩

/-- Runs match as long as all roots are recorded. -/
theorem Stores.SameStorage.run (h : Stores.SameStorage R) (hR : R s t) {f : Frame}
    (hs : RecordsRoots limits program code f s) (ht : RecordsRoots limits program code f t)
    (fuel : Nat) :
    Outcome.Matches R (fun _ => False) (Covenant.run limits program code fuel f s)
      (Covenant.run limits program code fuel f t) := by
  apply run_matches_of_turns hR
  intro f' s' t' hreach hreach' hR'
  refine turn_matches hR' f' (fun _ _ _ _ _ => readCell_congr (h.get? s' t' hR' _)) ?_
  intro cell w rest hcode hstack hlimit
  exact writeCell_match h hR' (hs f' s' hreach cell w rest hcode hstack hlimit)
    (ht f' t' hreach' cell w rest hcode hstack hlimit)

end Run

/-- Stores in memory have the same storage if they have the same cells. -/
theorem MemoryStores.sameStorage :
    Stores.SameStorage fun s t : MemoryStores => s.storage = t.storage where
  get? s t h key := by
    show Except.ok (s.storage.get? key) = Except.ok (t.storage.get? key)
    rw [h]
  storage s t h key value := by
    show Except.ok () = Except.ok () ∧ s.storage.insert key value = t.storage.insert key value
    rw [h]
    exact ⟨rfl, rfl⟩
  accounts s t h key value key' value' s' t' hs ht := by
    cases hs
    cases ht
    exact h

/-- An account index in memory takes every root. -/
theorem MemoryStores.takesRoot (s : MemoryStores) (program cell w : Word) :
    Stores.TakesRoot s program cell w :=
  fun _ _ => ⟨_, _, rfl, rfl⟩

namespace Machine

variable {ω ω' : Type} [Stores ω] [Stores ω']

/-- The account index takes every root that a call records. -/
def RecordsRoots (m : Machine ω) (i : Nat) (arguments : List Word) : Prop :=
  ∀ l f, m.loaded = some l → l.program.functions.get? i = some f →
    Covenant.RecordsRoots m.limits l.address f.body { memory := bind f.parameters arguments }
      m.stores

/-- **A call depends on the program, the storage, its arguments and the limits.** On two machines
that have these in common it does not end, or it has the same result or the same fault and leaves
the same storage. Nothing is said about the frames, the phases and the account indexes of the two:
no word that an earlier call left on the stack or in memory shows. -/
theorem call_depends_only_on_storage {R : ω → ω' → Prop} (hsame : Stores.SameStorage R)
    {m : Machine ω} {n : Machine ω'} (hlimits : m.limits = n.limits) (hloaded : m.loaded = n.loaded)
    (hstores : R m.stores n.stores) (i : Nat) (arguments : List Word)
    (hm : m.RecordsRoots i arguments) (hn : n.RecordsRoots i arguments) (fuel : Nat) :
    (m.callWords fuel i arguments = none ∧ n.callWords fuel i arguments = none)
      ∨ ∃ r m' n', m.callWords fuel i arguments = some (r, m')
        ∧ n.callWords fuel i arguments = some (r, n') ∧ R m'.stores n'.stores
        ∧ ∀ key, Stores.get? m'.stores .storage key = Stores.get? n'.stores .storage key := by
  have htogether : Together R (fun _ => False) (m.callWords fuel i arguments)
      (n.callWords fuel i arguments) := by
    apply Alike.together_callWords ⟨hlimits, hloaded, hstores⟩
    intro l f hl hf
    have hrecords := hm l f (hloaded.trans hl) hf
    rw [hlimits] at hrecords
    exact hsame.run hstores hrecords (hn l f hl hf) fuel
  generalize m.callWords fuel i arguments = first at htogether
  generalize n.callWords fuel i arguments = second at htogether
  -- No loss is possible, so one of two cases is left.
  cases htogether with
  | unfinished => exact Or.inl ⟨rfl, rfl⟩
  | ended halike =>
    exact Or.inr ⟨_, _, _, rfl, rfl, halike.stores, hsame.get? _ _ halike.stores⟩
  | lost hloss other =>
    obtain ⟨cause, hlost, -⟩ := hloss
    exact hlost.elim

/-- A function stores a cell and then reads a local that it never set. One machine has just faulted
with a word under that very key, the other is new and has another account index: both calls fault on
the local, and the cell is stored on both. -/
theorem stale_local_is_not_read :
    let body : List Instruction :=
      [.push (.ofNat 5), .push (.ofNat 1), .sstore, .push .zero, .mload]
    let loaded : Option Loaded := some ⟨⟨[], .ofList [(0, ⟨[], body⟩)]⟩, .zero⟩
    let stale : Frame :=
      { stack := [.ofNat 8], memory := (∅ : Memory).insert .zero (.ofNat 42), pc := 3, steps := 9 }
    let m : Machine MemoryStores := ⟨{}, {}, loaded, stale, .faulted⟩
    let n : Machine MemoryStores :=
      ⟨{ accounts := (∅ : Store).insert "other" [] }, {}, loaded, {}, .ready⟩
    ∃ m' n', m.callWords 9 0 [] = some (.error (.missingMemorySlot .zero), m')
      ∧ n.callWords 9 0 [] = some (.error (.missingMemorySlot .zero), n')
      ∧ m'.stores.storage = n'.stores.storage ∧ m'.stores.storage.entries.length = 1 := by
  intro body loaded stale m n
  have hm : m.RecordsRoots 0 [] := fun _ _ _ _ _ s _ cell w _ _ _ _ => s.takesRoot _ cell w
  have hn : n.RecordsRoots 0 [] := fun _ _ _ _ _ s _ cell w _ _ _ _ => s.takesRoot _ cell w
  have hrun : (m.callWords 9 0 []).map (fun r => (r.1, r.2.stores.storage.entries.length))
      = some (.error (.missingMemorySlot .zero), 1) := rfl
  rcases call_depends_only_on_storage MemoryStores.sameStorage (m := m) (n := n) rfl rfl rfl 0 []
    hm hn 9 with
    ⟨hnone, -⟩ | ⟨r, m', n', hcall, hcall', hstorage, -⟩
  · rw [hnone] at hrun
    cases hrun
  · rw [hcall] at hrun
    obtain ⟨rfl, hlength⟩ := Prod.mk.inj (Option.some.inj hrun)
    exact ⟨m', n', hcall, hcall', hstorage, hlength⟩

end Machine

end Covenant
