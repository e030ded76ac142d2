import Covenant.Proofs.Machine.Operations

/-!
# Account roots

An account entry is the root of contract storage, and it is written right after every storage cell.
So between two instructions it is never behind: either the stores are as they were before the
operation, or the entry of the program that runs is the root of the storage as it stands. It does not
matter where the operation ends, as long as there is a root, the account index takes its entries and
a cell that is refused is not stored.

* `Stores.Guarded` is what is asked of the stores.
* `Stores.Tracks` is what a write of one cell keeps, and with it every operation.
-/

namespace Covenant

section Stores

variable {ω : Type} [Stores ω]

/-- One of the two stores answers as it did before, and has the root it had. -/
def Stores.Unchanged (area : Area) (s s' : ω) : Prop :=
  (∀ key, Stores.get? s' area key = Stores.get? s area key)
    ∧ Stores.root s' area = Stores.root s area

/-- Stores whose storage has a root and is as it was when it refuses a cell, and whose account index
takes every entry, as long as `good` holds of them; and it goes on to hold. -/
structure Stores.Guarded (good : ω → Prop) : Prop where
  root : ∀ s, good s → ∃ root, Stores.root s .storage = .ok root
  accounts : ∀ s key value, good s → ∃ s', Stores.insert s .accounts key value = (s', .ok ())
    ∧ good s' ∧ Stores.Unchanged .storage s s'
    ∧ ∀ key', Stores.get? s' .accounts key'
      = if key' = key then .ok (some value) else Stores.get? s .accounts key'
  storage : ∀ s key value s' r, good s → Stores.insert s .storage key value = (s', r) →
    good s' ∧ Stores.Unchanged .accounts s s' ∧ (r = .ok () ∨ Stores.Unchanged .storage s s')

/-- The account entry of a program is the root of the storage. -/
def Stores.RootRecorded (program : Word) (s : ω) : Prop :=
  ∃ root, Stores.root s .storage = .ok root
    ∧ Stores.get? s .accounts program.hex = .ok (some root.toBytes)

/-- From one state of the stores to another, nothing has changed or the account entry of a program is
the root of the storage; and in the account index nothing has changed but the given keys. -/
structure Stores.Tracks (program : Word) (keys : List String) (s s' : ω) : Prop where
  root : (Stores.Unchanged .storage s s' ∧ Stores.Unchanged .accounts s s')
    ∨ Stores.RootRecorded program s'
  others : ∀ key, key ∉ keys → Stores.get? s' .accounts key = Stores.get? s .accounts key

variable {good : ω → Prop} {program : Word} {keys : List String} {s s' s'' : ω}

theorem Stores.Unchanged.refl (area : Area) (s : ω) : Stores.Unchanged area s s :=
  ⟨fun _ => rfl, rfl⟩

/-- What does not change in either of two steps does not change in both. -/
theorem Stores.Unchanged.trans {area : Area} (h : Stores.Unchanged area s s')
    (h' : Stores.Unchanged area s' s'') : Stores.Unchanged area s s'' :=
  ⟨fun key => (h'.1 key).trans (h.1 key), h'.2.trans h.2⟩

theorem Stores.Tracks.refl (program : Word) (keys : List String) (s : ω) :
    Stores.Tracks program keys s s :=
  ⟨Or.inl ⟨.refl _ s, .refl _ s⟩, fun _ _ => rfl⟩

/-- The entry of a program is settled by the storage root where it is that root. -/
theorem Stores.RootRecorded.get?_eq (h : Stores.RootRecorded program s)
    (h' : Stores.RootRecorded program s') (hroot : Stores.root s' .storage = Stores.root s .storage) :
    Stores.get? s' .accounts program.hex = Stores.get? s .accounts program.hex := by
  obtain ⟨root, hs, hget⟩ := h
  obtain ⟨root', hs', hget'⟩ := h'
  rw [hroot, hs] at hs'
  cases hs'
  rw [hget', hget]

/-- What is tracked stays so where nothing changes. -/
theorem Stores.Tracks.unchanged (h : Stores.Tracks program keys s s')
    (hstorage : Stores.Unchanged .storage s' s'') (haccounts : Stores.Unchanged .accounts s' s'') :
    Stores.Tracks program keys s s'' := by
  constructor
  · rcases h.root with ⟨hstorage₀, haccounts₀⟩ | hroot
    · exact Or.inl ⟨hstorage₀.trans hstorage, haccounts₀.trans haccounts⟩
    · -- Where nothing changes, both the entry and the root are what they were.
      right
      rw [Stores.RootRecorded, haccounts.1, hstorage.2]
      exact hroot
  · intro key hkey
    rw [haccounts.1, h.others key hkey]

/-- Recording the root goes right, makes the entry the root of the storage, and changes no other
entry. -/
theorem Stores.Guarded.recordRoot (hguard : Stores.Guarded good) (hgood : good s)
    (program : Word) :
    ∃ s', Instruction.recordRoot s program = (s', .ok ()) ∧ good s'
      ∧ Stores.RootRecorded program s'
      ∧ ∀ key, key ≠ program.hex → Stores.get? s' .accounts key = Stores.get? s .accounts key := by
  obtain ⟨root, hroot⟩ := hguard.root s hgood
  obtain ⟨s', hinsert, hgood', hstorage, hget⟩ :=
    hguard.accounts s program.hex root.toBytes hgood
  refine ⟨s', recordRoot_of_insert hroot hinsert, hgood', ⟨root, ?_, ?_⟩, fun key hkey => ?_⟩
  · rw [hstorage.2, hroot]
  · rw [hget, if_pos rfl]
  · rw [hget, if_neg hkey]

/-- The write of a cell, stored or refused, keeps the root tracked. -/
theorem Stores.Guarded.writeCell (hguard : Stores.Guarded good) (hkeys : program.hex ∈ keys)
    (s s' : ω) (cell value : Word) (h : good s' ∧ Stores.Tracks program keys s s') :
    good (Instruction.writeCell s' program cell value).1
      ∧ Stores.Tracks program keys s (Instruction.writeCell s' program cell value).1 := by
  obtain ⟨hgood, htracks⟩ := h
  unfold Instruction.writeCell
  split
  · -- Refused: the stores are where the write before left them.
    next s₁ e hinsert =>
    obtain ⟨hgood₁, haccounts, hstorage⟩ := hguard.storage _ _ _ _ _ hgood hinsert
    exact ⟨hgood₁, htracks.unchanged (hstorage.resolve_left nofun) haccounts⟩
  · -- Stored: the entry may have been behind, but it is overwritten at once.
    next s₁ hinsert =>
    obtain ⟨hgood₁, haccounts, -⟩ := hguard.storage _ _ _ _ _ hgood hinsert
    obtain ⟨s₂, hrecord, hgood₂, hroot, hothers⟩ := hguard.recordRoot hgood₁ program
    rw [hrecord]
    refine ⟨hgood₂, Or.inr hroot, fun key hkey => ?_⟩
    have hne : key ≠ program.hex := fun heq => hkey (heq ▸ hkeys)
    rw [hothers key hne, haccounts.1, htracks.others key hkey]

/-- Recording a program goes right, and leaves the account entry at the root of the storage. -/
theorem Stores.Guarded.recordProgram (hguard : Stores.Guarded good) {l : Loaded} (hgood : good s') :
    ∃ s'', Machine.recordProgram s' l = (s'', .ok ()) ∧ good s''
      ∧ Stores.RootRecorded l.address s''
      ∧ ∀ key, key ≠ l.address.hex → key ≠ programKey l.address →
        Stores.get? s'' .accounts key = Stores.get? s' .accounts key := by
  obtain ⟨s₁, hinsert, hgood₁, -, hget⟩ :=
    hguard.accounts s' (programKey l.address) l.program.toBytes hgood
  obtain ⟨s₂, hrecord, hgood₂, hroot, hothers⟩ := hguard.recordRoot hgood₁ l.address
  refine ⟨s₂, ?_, hgood₂, hroot, fun key hkey hprogram => ?_⟩
  · rw [Machine.recordProgram, hinsert]
    exact hrecord
  · rw [hothers key hkey, hget, if_neg hprogram]

end Stores

/-- Stores in memory refuse nothing. -/
theorem MemoryStores.guarded : Stores.Guarded fun _ : MemoryStores => True where
  root _ _ := ⟨_, rfl⟩
  accounts s key value hgood := by
    obtain ⟨s', hinsert, -, hget⟩ := MemoryStores.reliable.insert s .accounts key value hgood
    cases hinsert
    refine ⟨_, rfl, trivial, .refl _ _, fun key' => ?_⟩
    rw [hget]
    simp
  storage s key value s' r _ hinsert := by
    cases hinsert
    exact ⟨trivial, .refl _ _, Or.inl rfl⟩

/-- Rationed stores keep the guarantees of the stores they ration, as long as the account index is
without a limit. -/
theorem Rationed.guarded {ω : Type} [Stores ω] {good : ω → Prop} (hguard : Stores.Guarded good) :
    Stores.Guarded fun s : Rationed ω => s.accountsLeft = none ∧ good s.stores where
  root s h := hguard.root s.stores h.2
  accounts s key value h := by
    obtain ⟨s', hinsert, hgood', hstorage, hget⟩ := hguard.accounts s.stores key value h.2
    refine ⟨{ s with stores := s' }, ?_, ⟨h.1, hgood'⟩, hstorage, hget⟩
    show Rationed.insert s .accounts key value = _
    simp only [Rationed.insert, Rationed.left, h.1, hinsert]
  storage s key value s' r h hinsert := by
    have hinner := hguard.storage s.stores key value _ _ h.2 rfl
    change Rationed.insert s .storage key value = _ at hinsert
    unfold Rationed.insert Rationed.left at hinsert
    dsimp only at hinsert
    -- Nothing is left, or there is no limit, or one insertion less is left.
    split at hinsert
    · cases hinsert
      exact ⟨h, .refl _ _, Or.inr (.refl _ _)⟩
    · cases hinsert
      exact ⟨⟨h.1, hinner.1⟩, hinner.2⟩
    · cases hinsert
      exact ⟨⟨h.1, hinner.1⟩, hinner.2⟩

namespace Machine

variable {ω : Type} [Stores ω] {good : ω → Prop} {m m' : Machine ω} {l : Loaded} {fuel : Nat}

/-- The writes of the program of a machine keep its root tracked. -/
theorem keeps_tracks (hguard : Stores.Guarded good) (hloaded : m.loaded = some l)
    {keys : List String} (hkeys : l.address.hex ∈ keys) (s : ω) :
    m.Keeps fun s' => good s' ∧ Stores.Tracks l.address keys s s' := by
  intro l' hloaded'
  rw [hloaded] at hloaded'
  cases hloaded'
  exact hguard.writeCell hkeys s

/-- A call keeps the root tracked, whatever its result. -/
theorem callWords_tracks (hguard : Stores.Guarded good) (hloaded : m.loaded = some l)
    (hgood : good m.stores) {i : Nat} {arguments : List Word} {r : Except Fault (Option Word)}
    (h : m.callWords fuel i arguments = some (r, m')) :
    Stores.Tracks l.address [l.address.hex] m.stores m'.stores :=
  (callWords_stores (keeps_tracks hguard hloaded List.mem_cons_self m.stores)
    ⟨hgood, .refl _ _ _⟩ h).1.2

theorem call_tracks (hguard : Stores.Guarded good) (hloaded : m.loaded = some l)
    (hgood : good m.stores) {i : Nat} {values : List Value} {r : Except Fault (Option Word)}
    (h : m.call fuel i values = some (r, m')) :
    Stores.Tracks l.address [l.address.hex] m.stores m'.stores :=
  (call_stores (keeps_tracks hguard hloaded List.mem_cons_self m.stores)
    ⟨hgood, .refl _ _ _⟩ h).1.2

/-- A deployment keeps the root tracked, and writes the program besides. If it goes right the root
is recorded. -/
theorem deploy_tracks (hguard : Stores.Guarded good) (hloaded : m.loaded = some l)
    (hgood : good m.stores) {r : Except Fault Word} (h : m.deploy fuel = some (r, m')) :
    Stores.Tracks l.address [l.address.hex, programKey l.address] m.stores m'.stores
      ∧ ∀ a, r = .ok a → Stores.RootRecorded l.address m'.stores := by
  have hrun := deploy_stores (keeps_tracks hguard hloaded List.mem_cons_self m.stores)
    ⟨hgood, .refl l.address [l.address.hex, programKey l.address] m.stores⟩ h
  rcases hrun with ⟨e, rfl, -, -, htracks⟩ | ⟨l', s, hl', ⟨hgood', htracks⟩, -, hstores⟩
  · exact ⟨htracks, nofun⟩
  · rw [hloaded] at hl'
    cases hl'
    -- Recording the program ends with its root, so the root need not be tracked up to there.
    obtain ⟨s', hrecord, -, hroot, hothers⟩ := hguard.recordProgram (l := l) hgood'
    rw [hstores, hrecord]
    refine ⟨⟨Or.inr hroot, fun key hkey => ?_⟩, fun _ _ => hroot⟩
    have hne : key ≠ l.address.hex ∧ key ≠ programKey l.address := by
      simpa only [List.mem_cons, List.not_mem_nil, or_false, not_or] using hkey
    rw [hothers key hne.1 hne.2, htracks.others key hkey]

/-- Whatever becomes of a deployment or a call, it leaves both stores as they were, or the account
entry of the program at the root of the storage; and no other entry of the account index has changed,
apart from the program itself in a deployment. -/
theorem account_root_tracks_storage (hguard : Stores.Guarded good) (hloaded : m.loaded = some l)
    (hgood : good m.stores) :
    (∀ fuel r m', m.deploy fuel = some (r, m') →
        Stores.Tracks l.address [l.address.hex, programKey l.address] m.stores m'.stores
          ∧ ∀ a, r = .ok a → Stores.RootRecorded l.address m'.stores)
      ∧ (∀ fuel i arguments r m', m.callWords fuel i arguments = some (r, m') →
        Stores.Tracks l.address [l.address.hex] m.stores m'.stores)
      ∧ ∀ fuel i values r m', m.call fuel i values = some (r, m') →
        Stores.Tracks l.address [l.address.hex] m.stores m'.stores :=
  ⟨fun _ _ _ h => deploy_tracks hguard hloaded hgood h,
    fun _ _ _ _ _ h => callWords_tracks hguard hloaded hgood h,
    fun _ _ _ _ _ h => call_tracks hguard hloaded hgood h⟩

/-- A function stores two cells, and the storage takes only the first: the call faults, and the
account entry is the root of a storage with one cell. -/
theorem root_after_refused_cell :
    ∃ m m' : Machine (Rationed MemoryStores),
      m.address? = some .zero ∧ m.stores = ⟨{}, some 1, none⟩
        ∧ m.callWords 10 0 [] = some (.error (.store .refused), m')
        ∧ m'.stores.stores.storage.entries.length = 1
        ∧ Stores.Tracks .zero [Word.zero.hex] m.stores m'.stores := by
  let body : List Instruction :=
    [.push .zero, .push .zero, .sstore, .push .zero, .push (.ofNat 1), .sstore]
  let m : Machine (Rationed MemoryStores) :=
    ⟨⟨{}, some 1, none⟩, {}, some ⟨⟨[], .ofList [(0, ⟨[], body⟩)]⟩, .zero⟩, {}, .ready⟩
  have hrun : (m.callWords 10 0 []).map (fun r => (r.1, r.2.stores.stores.storage.entries.length))
      = some (.error (.store .refused), 1) := rfl
  obtain ⟨⟨r, m'⟩, hcall, hrun⟩ := Option.map_eq_some_iff.1 hrun
  obtain ⟨rfl, hlength⟩ := Prod.mk.inj hrun
  have htracks := account_root_tracks_storage (Rationed.guarded MemoryStores.guarded) (m := m) rfl
    ⟨rfl, trivial⟩
  exact ⟨m, m', rfl, rfl, hcall, hlength, htracks.2.1 _ _ _ _ _ hcall⟩

end Machine

end Covenant
