import Covenant.Proofs.Machine.Writes

/-!
# Deployments that fail

A deployment can fail in three places: in the initialization code, when the program is recorded, and
when the storage root is recorded after it. Nothing is taken back. A failure in the code or at the
program leaves what is found under the address of the program as it was; at the root, the program has
been recorded already and stays.

* `Stores.Atomic` is what is asked of the stores: they may refuse any insertion, but then it changes
  nothing. They need not have a root, nor answer when they are read.
* `Stores.RootFails` is how the recording of a root can fail.
* `Stores.Recorded` lists what can come of an insertion with the root recorded after it, and
  `Stores.Atomic.recorded` says that there is nothing else. A storage cell and a program are both
  inserted in this way.
* `Machine.deployment_fails_in_code_or_in_recording` is about deployments, and
  `Machine.program_is_found_after_failed_deployment` is one that fails at the root.
-/

namespace Covenant

section Stores

variable {ω : Type} [Stores ω]

/-- One key has been bound, and the other store has the root it had. -/
structure Stores.Bound (area : Area) (key : String) (value : Bytes) (s s' : ω) : Prop where
  get? : ∀ area' key', Stores.get? s' area' key'
    = if area' = area ∧ key' = key then .ok (some value) else Stores.get? s area' key'
  root : ∀ area', area' ≠ area → Stores.root s' area' = Stores.root s area'

/-- Stores on which an insertion binds its key or is refused and changes nothing, as long as `good`
holds of them; and it goes on to hold. -/
def Stores.Atomic (good : ω → Prop) : Prop :=
  ∀ s area key value s' r, good s → Stores.insert s area key value = (s', r) →
    good s' ∧ (r = .ok () ∧ Stores.Bound area key value s s'
      ∨ (∃ cause, r = .error cause) ∧ ∀ area', Stores.Unchanged area' s s')

/-- There is no storage root to record under the address of a program, or it is refused. -/
def Stores.RootFails (program : Word) (s s' : ω) (cause : StoreError) : Prop :=
  (Stores.root s .storage = .error cause ∧ s' = s)
    ∨ ∃ root, Stores.root s .storage = .ok root
      ∧ Stores.insert s .accounts program.hex root.toBytes = (s', .error cause)

/-- All that can come of an insertion and the storage root recorded after it. -/
inductive Stores.Recorded (program : Word) (area : Area) (key : String) (value : Bytes) (s : ω) :
    ω × Except Fault Unit → Prop where
  /-- The insertion is refused. -/
  | refused {s' : ω} {cause : StoreError}
      (hinsert : Stores.insert s area key value = (s', .error cause))
      (hsame : ∀ area', Stores.Unchanged area' s s') :
      Recorded program area key value s (s', .error (.store cause))
  /-- The insertion is taken, but the root is not recorded. -/
  | unrecorded {s₁ s' : ω} {cause : StoreError}
      (hinsert : Stores.insert s area key value = (s₁, .ok ()))
      (hfails : Stores.RootFails program s₁ s' cause)
      (hget : ∀ area' key', Stores.get? s' area' key'
        = if area' = area ∧ key' = key then .ok (some value) else Stores.get? s area' key') :
      Recorded program area key value s (s', .error (.store cause))
  /-- Both are taken. -/
  | recorded {s' : ω} (hroot : Stores.RootRecorded program s')
      (hget : ∀ area' key', (area' = .accounts → key' ≠ program.hex) → Stores.get? s' area' key'
        = if area' = area ∧ key' = key then .ok (some value) else Stores.get? s area' key') :
      Recorded program area key value s (s', .ok ())

variable {good : ω → Prop} {s : ω}

/-- An insertion with the root recorded after it goes right, or stops in one of the two steps. -/
theorem Stores.Atomic.recorded (hatomic : Stores.Atomic good) (hgood : good s) (program : Word)
    (area : Area) (key : String) (value : Bytes) :
    good (Stores.insertRecorded s area key value program).1
      ∧ Stores.Recorded program area key value s
        (Stores.insertRecorded s area key value program) := by
  unfold Stores.insertRecorded
  rcases hinsert : Stores.insert s area key value with ⟨s₁, r₁⟩
  obtain ⟨hgood₁, hfirst⟩ := hatomic s area key value s₁ r₁ hgood hinsert
  rcases hfirst with ⟨rfl, hbound₁⟩ | ⟨⟨cause, rfl⟩, hsame⟩
  · -- The key is bound, and the root is next.
    dsimp only
    unfold Instruction.recordRoot
    cases hroot : Stores.root s₁ .storage with
    | error cause => exact ⟨hgood₁, .unrecorded hinsert (Or.inl ⟨hroot, rfl⟩) hbound₁.get?⟩
    | ok root =>
      dsimp only
      rcases hrecord : Stores.insert s₁ .accounts program.hex root.toBytes with ⟨s₂, r₂⟩
      obtain ⟨hgood₂, hsecond⟩ := hatomic s₁ _ _ _ s₂ r₂ hgood₁ hrecord
      refine ⟨hgood₂, ?_⟩
      rcases hsecond with ⟨rfl, hbound₂⟩ | ⟨⟨cause, rfl⟩, hsame⟩
      · refine .recorded ⟨root, ?_, ?_⟩ fun area' key' hother => ?_
        · rw [hbound₂.root .storage (by simp), hroot]
        · rw [hbound₂.get?, if_pos ⟨rfl, rfl⟩]
        · rw [hbound₂.get?, if_neg fun h => hother h.1 h.2, hbound₁.get?]
      · refine .unrecorded hinsert (Or.inr ⟨root, hroot, hrecord⟩) fun area' key' => ?_
        rw [(hsame area').1, hbound₁.get?]
  · exact ⟨hgood₁, .refused hinsert hsame⟩

/-- The write of a cell, however it ends, leaves the programs of the account index alone. -/
theorem Stores.Atomic.writeCell (hatomic : Stores.Atomic good) (hgood : good s)
    (program cell w address : Word) :
    good (Instruction.writeCell s program cell w).1
      ∧ Stores.get? (Instruction.writeCell s program cell w).1 .accounts (programKey address)
        = Stores.get? s .accounts (programKey address) := by
  obtain ⟨hgood', hrecorded⟩ := hatomic.recorded hgood program .storage cell.hex w.toBytes
  have hwrite : Stores.insertRecorded s .storage cell.hex w.toBytes program
      = Instruction.writeCell s program cell w := rfl
  rw [hwrite] at hgood' hrecorded
  refine ⟨hgood', ?_⟩
  generalize Instruction.writeCell s program cell w = after at hrecorded ⊢
  cases hrecorded with
  | refused _ hsame => exact (hsame .accounts).1 _
  | unrecorded _ _ hget => rw [hget, if_neg (by simp)]
  | recorded _ hget => rw [hget _ _ fun _ => programKey_ne_hex address program, if_neg (by simp)]

/-- Stores that refuse nothing are atomic, if their roots are those of their contents. -/
theorem Stores.Reliable.atomic (hrel : Stores.Reliable good) (hroots : Stores.ContentRoots good) :
    Stores.Atomic good := by
  intro s area key value s' r hgood hinsert
  obtain ⟨s₁, hinsert₁, hgood₁, hget⟩ := hrel.insert s area key value hgood
  cases hinsert₁.symm.trans hinsert
  refine ⟨hgood₁, Or.inl ⟨rfl, hget, fun area' hne => ?_⟩⟩
  refine hroots s' s area' hgood₁ hgood fun key' => ?_
  rw [hget, if_neg fun h => hne h.1]

end Stores

/-- Rationed stores are atomic if the stores are that they ration. -/
theorem Rationed.atomic {ω : Type} [Stores ω] {good : ω → Prop} (hatomic : Stores.Atomic good) :
    Stores.Atomic fun s : Rationed ω => good s.stores := by
  intro s area key value s' r hgood hinsert
  -- Counted or not, an insertion that is let through is made in the stores below.
  have htaken : ∀ t : Rationed ω, t.stores = (Stores.insert s.stores area key value).1 →
      good t.stores ∧ ((Stores.insert s.stores area key value).2 = .ok ()
          ∧ Stores.Bound area key value s t
        ∨ (∃ cause, (Stores.insert s.stores area key value).2 = .error cause)
          ∧ ∀ area', Stores.Unchanged area' s t) := by
    rintro ⟨stores, storageLeft, accountsLeft⟩ ht
    cases ht
    obtain ⟨hgood', ⟨hok, hbound⟩ | ⟨herror, hsame⟩⟩ :=
      hatomic s.stores area key value _ _ hgood rfl
    · exact ⟨hgood', Or.inl ⟨hok, hbound.get?, hbound.root⟩⟩
    · exact ⟨hgood', Or.inr ⟨herror, hsame⟩⟩
  change Rationed.insert s area key value = _ at hinsert
  unfold Rationed.insert at hinsert
  split at hinsert
  · cases hinsert
    exact ⟨hgood, Or.inr ⟨⟨_, rfl⟩, fun area' => .refl area' s⟩⟩
  · cases hinsert
    exact htaken _ rfl
  · cases hinsert
    exact htaken _ rfl

namespace Machine

variable {ω : Type} [Stores ω] {good : ω → Prop} {m m' : Machine ω} {l : Loaded} {fuel : Nat}

/-- What is found at an address is settled by what the account index holds there. -/
theorem programAt_congr {address : Word}
    (h : Stores.get? m'.stores .accounts (programKey address)
      = Stores.get? m.stores .accounts (programKey address)) :
    m'.programAt address = m.programAt address := by
  rw [programAt, programAt, h]

/-- A run of code leaves the programs of the account index alone. -/
theorem runCode_programs (hatomic : Stores.Atomic good) (hloaded : m.loaded = some l)
    (hgood : good m.stores) {memory : Memory} {code : List Instruction}
    {r : Except Fault (Option Word)}
    (h : m.runCode fuel l.address memory code = some (r, m')) (address : Word) :
    good m'.stores ∧ Stores.get? m'.stores .accounts (programKey address)
      = Stores.get? m.stores .accounts (programKey address) := by
  have hkeeps : m.Keeps fun s => good s ∧ Stores.get? s .accounts (programKey address)
      = Stores.get? m.stores .accounts (programKey address) := by
    intro l' _ s cell w hs
    obtain ⟨hgood', hget⟩ := hatomic.writeCell hs.1 l'.address cell w address
    exact ⟨hgood', hget.trans hs.2⟩
  exact (runCode_stores hkeeps hloaded ⟨hgood, rfl⟩ h).1

/-- **How a deployment fails.** On stores that may refuse any insertion, a deployment fails in one of
three ways. In the initialization code: then the machine has faulted, and what is found under the
address of the program is what was found before. When the program is recorded, or the root after it:
then the code has halted, and the fault is that of the stores. In the first case the program is
refused, and the same is found as before; in the second the root is refused or there is none, and the
program stays. A deployment that succeeds leaves the machine halted, the program recorded and the
account entry at the storage root. -/
theorem deployment_fails_in_code_or_in_recording (hatomic : Stores.Atomic good)
    (hloaded : m.loaded = some l) (hgood : good m.stores) {r : Except Fault Word}
    (hdeploy : m.deploy fuel = some (r, m')) :
    (∀ e, r = .error e →
        (∃ m₀, m.runCode fuel l.address ∅ l.program.initialization = some (.error e, m₀)
          ∧ m'.phase = .faulted ∧ m'.programAt l.address = m.programAt l.address)
        ∨ ∃ value m₀ s cause,
          m.runCode fuel l.address ∅ l.program.initialization = some (.ok value, m₀)
          ∧ e = .store cause ∧ m'.phase = .halted
          ∧ (Stores.insert m₀.stores .accounts (programKey l.address) l.program.toBytes
                = (s, .error cause)
              ∧ m'.programAt l.address = m.programAt l.address
            ∨ Stores.insert m₀.stores .accounts (programKey l.address) l.program.toBytes
                = (s, .ok ())
              ∧ Stores.RootFails l.address s m'.stores cause
              ∧ Stores.get? m'.stores .accounts (programKey l.address)
                = .ok (some l.program.toBytes)))
      ∧ ∀ a, r = .ok a → a = l.address ∧ m'.phase = .halted
        ∧ Stores.get? m'.stores .accounts (programKey l.address) = .ok (some l.program.toBytes)
        ∧ Stores.RootRecorded l.address m'.stores := by
  obtain ⟨r₀, m₀, hrun, hend⟩ := deploy_eq_some hloaded hdeploy
  obtain ⟨hgood₀, hprograms⟩ := runCode_programs hatomic hloaded hgood hrun l.address
  obtain ⟨hhalted, hfaulted⟩ := runCode_phase hrun
  rcases hend with ⟨e, rfl, rfl, rfl⟩ | ⟨value, rfl, rfl, rfl⟩
  · -- The code faults, and nothing is recorded.
    refine ⟨fun e' he => ?_, fun a ha => by cases ha⟩
    cases he
    exact Or.inl ⟨m', hrun, hfaulted e rfl, programAt_congr hprograms⟩
  · have hrecorded := (hatomic.recorded hgood₀ l.address .accounts (programKey l.address)
      l.program.toBytes).2
    have hsame : Stores.insertRecorded m₀.stores .accounts (programKey l.address) l.program.toBytes
        l.address = recordProgram m₀.stores l := rfl
    rw [hsame] at hrecorded
    generalize recordProgram m₀.stores l = after at hrecorded ⊢
    cases hrecorded with
    | @refused s cause hinsert hsame =>
      refine ⟨fun e he => ?_, fun a ha => by cases ha⟩
      cases he
      refine Or.inr ⟨value, m₀, s, cause, hrun, rfl, hhalted value rfl,
        Or.inl ⟨hinsert, programAt_congr ?_⟩⟩
      exact ((hsame .accounts).1 _).trans hprograms
    | @unrecorded s₁ s cause hinsert hfails hget =>
      refine ⟨fun e he => ?_, fun a ha => by cases ha⟩
      cases he
      refine Or.inr ⟨value, m₀, s₁, cause, hrun, rfl, hhalted value rfl,
        Or.inr ⟨hinsert, hfails, ?_⟩⟩
      exact (hget _ _).trans (if_pos ⟨rfl, rfl⟩)
    | recorded hroot hget =>
      refine ⟨fun e he => (by cases he), fun a ha => ?_⟩
      cases ha
      refine ⟨rfl, hhalted value rfl, ?_, hroot⟩
      exact (hget _ _ fun _ => programKey_ne_hex _ _).trans (if_pos ⟨rfl, rfl⟩)

/-- The second of two initial cells is refused: the machine has faulted, and no program is found. -/
theorem refused_cell_fails_deployment :
    let code : List Instruction :=
      [.push (.ofNat 5), .push .zero, .sstore, .push (.ofNat 6), .push (.ofNat 1), .sstore]
    let l : Loaded := ⟨⟨code, .ofList []⟩, .zero⟩
    let m : Machine (Rationed MemoryStores) := { stores := ⟨{}, some 1, none⟩, loaded := some l }
    ∃ m', m.deploy 9 = some (.error (.store .refused), m') ∧ m'.phase = .faulted
      ∧ m'.programAt .zero = .error (.missingStorageKey (programKey .zero)) := by
  intro code l m
  have hfails : (m.deploy 9).map Prod.fst = some (.error (.store .refused)) := rfl
  obtain ⟨⟨r, m'⟩, hdeploy, hr⟩ := Option.map_eq_some_iff.1 hfails
  cases (hr : r = .error (.store .refused))
  have hcode : (m.runCode 9 l.address ∅ l.program.initialization).map Prod.fst
      = some (.error (.store .refused)) := rfl
  have hatomic := MemoryStores.reliable.atomic MemoryStores.contentRoots
  have hdeployment := deployment_fails_in_code_or_in_recording (Rationed.atomic hatomic) (l := l)
    rfl trivial hdeploy
  rcases hdeployment.1 _ rfl with ⟨-, -, hphase, hprogram⟩ | ⟨value, m₀, -, -, hhalts, -⟩
  · exact ⟨m', hdeploy, hphase, hprogram⟩
  · rw [hhalts] at hcode
    cases hcode

/-- The account index takes one more entry. A program without code is deployed: the entry is the
program, the root after it is refused, and the deployment fails. The machine has halted all the same,
and the program, which was not found before, is found. -/
theorem program_is_found_after_failed_deployment :
    let p : Program := ⟨[], .ofList []⟩
    let blank : Machine (Rationed MemoryStores) := { stores := ⟨{}, none, some 1⟩ }
    let m := (blank.load p).2
    m.programAt p.address = .error (.missingStorageKey (programKey p.address))
      ∧ ∃ m', m.deploy 1 = some (.error (.store .refused), m') ∧ m'.phase = .halted
        ∧ m'.programAt p.address = .ok p := by
  intro p blank m
  refine ⟨rfl, _, rfl, rfl, programAt_of_get? (by decide) ?_⟩
  exact congrArg Except.ok ((Table.get?_insert _ _ _ _).trans (if_pos rfl))

end Machine

end Covenant
