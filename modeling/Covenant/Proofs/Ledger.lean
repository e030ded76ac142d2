import Covenant.CommandLine
import Covenant.Proofs.Machine.AccountRoot
import Covenant.Proofs.Machine.Accounts

/-!
# Ledgers

A ledger does in memory what a state directory does on a disk. It has one machine, which is never
restarted, one account index, and one storage for every address. A request names a contract: the
machine is given the storage of that contract, loads the program and does what is asked.

* `Ledger.serve` answers a request.
* `Ledger.serve_spec` says that a request leaves alone what belongs to other addresses than its own.
  For a call that rests on the account index: the program under an address is one with that address.
-/

namespace Covenant

/-- What is asked of a ledger: to deploy the program of a file, if the file holds one, or to call a
function of a deployed program. -/
inductive Request where
  | deploy (program : Except CommandError Program)
  | call (address : String) (index : Nat) (arguments : List String)

/-- The address of the contract that a request is for, if there is one. -/
def Request.target? : Request → Option Word
  | .deploy (.error _) => none
  | .deploy (.ok p) => some p.address
  | .call address _ _ => Word.ofDigits? address

/-- One machine, whose account index is for all contracts, and a storage for every address. -/
structure Ledger where
  machine : Machine MemoryStores := { stores := {} }
  storage : Word → Store := fun _ => ∅

namespace Ledger

/-- The account index. -/
def accounts (g : Ledger) : Store := g.machine.stores.accounts

/-- The machine with the storage of a contract. -/
def enter (g : Ledger) (a : Word) : Machine MemoryStores :=
  { g.machine with stores := ⟨g.storage a, g.accounts⟩ }

/-- The ledger after the machine has worked on the storage of a contract. -/
def leave (g : Ledger) (a : Word) (m : Machine MemoryStores) : Ledger :=
  ⟨m, fun b => if b = a then m.stores.storage else g.storage b⟩

/-- Answers a request. `none` stands for a run that ended for lack of fuel. -/
def serve (g : Ledger) (fuel : Nat) : Request → Option (Ledger × Except CommandError String)
  | .deploy (.error e) => some (g, .error e)
  | .deploy (.ok p) =>
    (((g.enter p.address).load p).2.deploy fuel).map fun answer =>
      (g.leave p.address answer.2,
        (answer.1.mapError .ofFault).map fun address => address.hex ++ "\n")
  | .call address index arguments =>
    match Word.ofDigits? address with
    | none => some (g, .error (.badAddress address))
    | some a =>
      match (g.enter a).programAt a with
      | .error e => some (g, .error (.ofFault e))
      | .ok p =>
        (((g.enter a).load p).2.call fuel index (arguments.map Value.ofArgument)).map fun answer =>
          (g.leave a answer.2, (answer.1.mapError .ofFault).map Command.showResult)

/-- A ledger comes from another by requests, each with its answer. -/
inductive Session (g : Ledger) : List (Request × Except CommandError String) → Ledger → Prop where
  | start : Session g [] g
  | request {g' g'' : Ledger} {answers : List (Request × Except CommandError String)} {fuel : Nat}
      {q : Request} {r : Except CommandError String} (h : Session g answers g')
      (hserve : g'.serve fuel q = some (g'', r)) : Session g (answers ++ [(q, r)]) g''

/-! ### What a request leaves alone -/

/-- Nothing that belongs to an address has changed. -/
structure Spares (b : Word) (g g' : Ledger) : Prop where
  storage : g'.storage b = g.storage b
  root : g'.accounts.get? b.hex = g.accounts.get? b.hex
  program : g'.accounts.get? (programKey b) = g.accounts.get? (programKey b)

/-- The entries of a ledger are those a machine makes. -/
def Sound (g : Ledger) (programs : List Program) : Prop :=
  ∀ a, Stores.Sound (fun _ => True) programs (⟨g.storage a, g.accounts⟩ : MemoryStores)

variable {g g' : Ledger} {ps qs : List Program} {a b : Word} {m : Machine MemoryStores}

theorem Spares.refl (b : Word) (g : Ledger) : Spares b g g := ⟨rfl, rfl, rfl⟩

theorem sound_empty : Sound {} [] := fun a =>
  .of_empty trivial fun area key => by cases area <;> rfl

/-- The machine that works for a contract is sound if the ledger is. -/
theorem Sound.enter (h : g.Sound ps) (a : Word) (p : Program) :
    ((g.enter a).load p).2.Sound (fun _ => True) ps where
  stores := h a
  loaded l hl := by
    cases hl
    rfl

/-- A ledger is sound again when the machine leaves sound stores behind. -/
theorem Sound.leave (h : g.Sound ps) (hm : Stores.Sound (fun _ => True) qs m.stores) :
    (g.leave a m).Sound qs := by
  intro b
  refine ⟨trivial, fun area key value hget => ?_, hm.deployed⟩
  cases area with
  | accounts => exact hm.entry .accounts key value hget
  | storage =>
    change Except.ok ((if b = a then m.stores.storage else g.storage b).get? key)
      = .ok (some value) at hget
    split at hget
    · exact hm.entry .storage key value hget
    · exact (h b).entry .storage key value hget

/-- In sound stores the program that is read from an address has that address. -/
theorem address_of_programAt (h : Stores.Sound (fun _ => True) ps m.stores) {p : Program}
    (hp : m.programAt a = .ok p) : p.address = a := by
  obtain ⟨value?, hget⟩ := MemoryStores.reliable.get? m.stores .accounts (programKey a) trivial
  cases value? with
  | none =>
    simp only [Machine.programAt, hget] at hp
    cases hp
  | some bytes =>
    obtain ⟨q, -, rfl, hq⟩ := h.program hget
    simp only [Machine.programAt, hget] at hp
    cases hread : Program.ofBytes q.toBytes with
    | error e =>
      rw [hread] at hp
      cases hp
    | ok p' =>
      rw [hread] at hp
      cases hp
      rw [Program.eq_of_ofBytes_toBytes hread, hq]

/-- A machine that changes the entries of one address leaves alone what belongs to others. -/
theorem spares_leave {keys : List String} (hkeys : keys ⊆ [a.hex, programKey a])
    (htracks : Stores.Tracks a keys (g.enter a).stores m.stores) (hne : a ≠ b) :
    Spares b g (g.leave a m) := by
  have hothers : ∀ key, key ≠ a.hex → key ≠ programKey a →
      m.stores.accounts.get? key = g.accounts.get? key := by
    intro key hhex hprogram
    refine Except.ok.inj (htracks.others key fun hmem => ?_)
    rcases List.mem_cons.1 (hkeys hmem) with heq | hmem
    · exact hhex heq
    · exact hprogram (List.mem_singleton.1 hmem)
  -- Addresses and programs of different contracts have different keys.
  refine ⟨if_neg hne.symm, hothers _ ?_ ?_, hothers _ ?_ ?_⟩
  · exact fun heq => hne (Word.hex_injective heq).symm
  · exact (programKey_ne_hex a b).symm
  · exact programKey_ne_hex b a
  · exact fun heq => hne (programKey_injective heq).symm

/-- A request keeps a ledger sound, and leaves alone what belongs to other addresses. -/
theorem serve_spec (hsound : g.Sound ps) {fuel : Nat} {q : Request}
    {r : Except CommandError String} (h : g.serve fuel q = some (g', r)) :
    (∃ qs, g'.Sound qs) ∧ ∀ b, q.target? ≠ some b → Spares b g g' := by
  -- A request is refused with the ledger as it was, or it is an operation of the machine.
  unfold serve at h
  split at h
  · cases h
    exact ⟨⟨ps, hsound⟩, fun b _ => .refl b g⟩
  · next p =>
    obtain ⟨⟨result, m⟩, hdeploy, hanswer⟩ := Option.map_eq_some_iff.1 h
    cases hanswer
    have htracks := (Machine.deploy_tracks MemoryStores.guarded rfl trivial hdeploy).1
    refine ⟨?_, fun b hb => spares_leave (fun _ hk => hk) htracks fun heq => hb (heq ▸ rfl)⟩
    rcases (hsound.enter p.address p).deploy MemoryStores.reliable hdeploy with
      ⟨-, hm⟩ | ⟨l, -, -, hm⟩
    · exact ⟨ps, hsound.leave hm.stores⟩
    · exact ⟨l.program :: ps, hsound.leave hm.stores⟩
  · next address index arguments =>
    split at h
    · cases h
      exact ⟨⟨ps, hsound⟩, fun b _ => .refl b g⟩
    · next a ha =>
      split at h
      · cases h
        exact ⟨⟨ps, hsound⟩, fun b _ => .refl b g⟩
      · next p hp =>
        obtain ⟨⟨result, m⟩, hcall, hanswer⟩ := Option.map_eq_some_iff.1 h
        cases hanswer
        -- The machine runs under the address of the program, which is that of the request.
        obtain rfl := address_of_programAt (hsound a) hp
        have htracks := Machine.call_tracks MemoryStores.guarded rfl trivial hcall
        have hm := ((hsound.enter p.address p).call MemoryStores.reliable hcall).1
        refine ⟨⟨ps, hsound.leave hm.stores⟩, fun b hb => spares_leave (by simp) htracks ?_⟩
        exact fun heq => hb (heq ▸ ha)

end Ledger

end Covenant
