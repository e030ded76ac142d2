import Covenant.Proofs.Machine.Operations
import Covenant.Proofs.Program.Binary

/-!
# The account index

A machine only ever inserts three kinds of entries: a storage cell, which is a word under the digits
of a word; an account, which is a storage root under the digits of an address; and a program, under
the digits of its own address with a mark behind them. A machine that starts on empty stores
therefore finds nothing else in them, whatever programs it is given to load, deploy and call.

From that it follows that no cell is ever found damaged, that a program is found under its own
address, and, as long as no two of the deployed programs have the same digest, that it is found there
for good.

* `Stores.Entry` says what may be bound, and `Stores.Sound` that nothing else is.
* `Machine.History` is any sequence of operations, with the programs that were deployed in it.
* `Machine.Sound.history` says that soundness lasts.
-/

namespace Covenant

/-- No two of some programs have the same digest and different binary forms. -/
def Program.CollisionFree (programs : List Program) : Prop :=
  ∀ p ∈ programs, ∀ q ∈ programs, sha256 p.toBytes = sha256 q.toBytes → p.toBytes = q.toBytes

/-- Programs with different addresses have different keys. -/
theorem programKey_injective {a b : Word} (h : programKey a = programKey b) : a = b :=
  Word.hex_injective ((String.append_left_inj _).1 h)

/-- The mark makes a program key longer than an address. -/
theorem programKey_ne_hex (a b : Word) : programKey a ≠ b.hex := by
  intro h
  have hlength := congrArg String.length h
  rw [programKey, String.length_append, Word.length_hex, Word.length_hex] at hlength
  exact absurd hlength (by decide)

section Stores

variable {ω : Type} [Stores ω]

/-- The entries a machine makes when the given programs are deployed. -/
def Stores.Entry (programs : List Program) : Area → String → Bytes → Prop
  | .storage, key, value => (∃ w : Word, key = w.hex) ∧ value.length = Word.size
  | .accounts, key, value =>
    ((∃ a : Word, key = a.hex) ∧ value.length = Word.size)
      ∨ ∃ p ∈ programs, key = programKey p.address ∧ value = p.toBytes

/-- Stores in which nothing is bound but by a machine, and in which all the given programs are. -/
structure Stores.Sound (good : ω → Prop) (programs : List Program) (s : ω) : Prop where
  good : good s
  entry : ∀ area key value, Stores.get? s area key = .ok (some value) →
    Stores.Entry programs area key value
  deployed : ∀ p ∈ programs, ∃ value,
    Stores.get? s .accounts (programKey p.address) = .ok (some value)

variable {good : ω → Prop} {ps qs : List Program} {s : ω} {area : Area} {key : String}
  {value : Bytes}

/-- What may be bound may be bound still when more programs are deployed. -/
theorem Stores.Entry.mono (h : Stores.Entry ps area key value) (hsub : ps ⊆ qs) :
    Stores.Entry qs area key value := by
  cases area with
  | storage => exact h
  | accounts =>
    rcases h with hroot | ⟨p, hp, hprogram⟩
    · exact Or.inl hroot
    · exact Or.inr ⟨p, hsub hp, hprogram⟩

/-- Empty stores are sound. -/
theorem Stores.Sound.of_empty (hgood : good s)
    (hempty : ∀ area key, Stores.get? s area key = .ok none) : Stores.Sound good [] s where
  good := hgood
  entry area key value hget := by
    rw [hempty] at hget
    cases hget
  deployed := nofun

/-- The insertion of an entry goes right and keeps stores sound. It may be the entry of one more
program. -/
theorem Stores.Sound.insert (h : Stores.Sound good ps s) (hrel : Stores.Reliable good)
    (hentry : Stores.Entry qs area key value) (hsub : ps ⊆ qs)
    (hnew : ∀ p ∈ qs, p ∈ ps ∨ area = .accounts ∧ key = programKey p.address) :
    ∃ s', Stores.insert s area key value = (s', .ok ()) ∧ Stores.Sound good qs s' := by
  obtain ⟨s', hinsert, hgood, hget⟩ := hrel.insert s area key value h.good
  refine ⟨s', hinsert, hgood, fun area' key' value' hvalue => ?_, fun p hp => ?_⟩
  · rw [hget] at hvalue
    split at hvalue
    · -- The entry that is read is the one that was made.
      next hsame =>
      obtain ⟨rfl, rfl⟩ := hsame
      cases hvalue
      exact hentry
    · exact (h.entry _ _ _ hvalue).mono hsub
  · rw [hget]
    split
    · exact ⟨value, rfl⟩
    · next hother =>
      -- A program that is new is bound by this very insertion.
      rcases hnew p hp with hold | ⟨rfl, rfl⟩
      · exact h.deployed p hold
      · exact absurd ⟨rfl, rfl⟩ hother

/-- In sound stores every cell can be read, and none is damaged. -/
theorem Stores.Sound.readCell (h : Stores.Sound good ps s) (hrel : Stores.Reliable good)
    (cell : Word) (cause : StoreError) :
    Instruction.readCell s cell ≠ .error (.store cause) := by
  intro hread
  obtain ⟨value?, hget⟩ := hrel.get? s .storage cell.hex h.good
  cases value? with
  | none =>
    simp only [Instruction.readCell, hget] at hread
    cases hread
  | some bytes =>
    have hlength : bytes.length = Word.size := (h.entry .storage _ _ hget).2
    simp only [Instruction.readCell, hget, Word.ofBytes?, if_pos hlength] at hread
    cases hread

/-- A storage root is recorded, and stores stay sound. -/
theorem Stores.Sound.recordRoot (h : Stores.Sound good ps s) (hrel : Stores.Reliable good)
    (program : Word) :
    ∃ s', Instruction.recordRoot s program = (s', .ok ()) ∧ Stores.Sound good ps s' := by
  obtain ⟨root, hroot⟩ := hrel.root s .storage h.good
  have hentry : Stores.Entry ps .accounts program.hex root.toBytes :=
    Or.inl ⟨⟨program, rfl⟩, Word.length_toBytes _⟩
  obtain ⟨s', hinsert, hsound⟩ := h.insert hrel hentry (fun _ hp => hp) fun _ hp => Or.inl hp
  exact ⟨s', recordRoot_of_insert hroot hinsert, hsound⟩

/-- A cell is written, and stores stay sound. -/
theorem Stores.Sound.writeCell (h : Stores.Sound good ps s) (hrel : Stores.Reliable good)
    (program cell w : Word) :
    ∃ s', Instruction.writeCell s program cell w = (s', .ok ()) ∧ Stores.Sound good ps s' := by
  have hentry : Stores.Entry ps .storage cell.hex w.toBytes := ⟨⟨cell, rfl⟩, Word.length_toBytes w⟩
  obtain ⟨s₁, hinsert, hsound₁⟩ := h.insert hrel hentry (fun _ hp => hp) fun _ hp => Or.inl hp
  obtain ⟨s₂, hrecord, hsound₂⟩ := hsound₁.recordRoot hrel program
  refine ⟨s₂, ?_, hsound₂⟩
  rw [Instruction.writeCell, hinsert]
  exact hrecord

/-- Sound stores give no fault. -/
theorem Stores.Sound.not_fails (h : Stores.Sound good ps s) (hrel : Stores.Reliable good)
    (program : Word) (cause : StoreError) : ¬ Stores.Fails program s cause := by
  rintro (⟨cell, hread⟩ | ⟨cell, w, hwrite⟩)
  · exact h.readCell hrel cell cause hread
  · obtain ⟨s', hok, -⟩ := h.writeCell hrel program cell w
    rw [hok] at hwrite
    cases hwrite

/-- Recording a program under its own address adds it to the deployed ones. -/
theorem Stores.Sound.recordProgram (h : Stores.Sound good ps s) (hrel : Stores.Reliable good)
    {l : Loaded} (haddress : l.address = l.program.address) :
    ∃ s', Machine.recordProgram s l = (s', .ok ()) ∧ Stores.Sound good (l.program :: ps) s' := by
  have hentry : Stores.Entry (l.program :: ps) .accounts (programKey l.address)
      l.program.toBytes :=
    Or.inr ⟨l.program, List.mem_cons_self, by rw [haddress], rfl⟩
  have hnew : ∀ p ∈ l.program :: ps,
      p ∈ ps ∨ Area.accounts = .accounts ∧ programKey l.address = programKey p.address := by
    intro p hp
    rcases List.mem_cons.1 hp with rfl | hp
    · exact Or.inr ⟨rfl, by rw [haddress]⟩
    · exact Or.inl hp
  obtain ⟨s₁, hinsert, hsound₁⟩ := h.insert hrel hentry (List.subset_cons_self _ _) hnew
  obtain ⟨s₂, hrecord, hsound₂⟩ := hsound₁.recordRoot hrel l.address
  refine ⟨s₂, ?_, hsound₂⟩
  rw [Machine.recordProgram, hinsert]
  exact hrecord

/-- What is bound under a program key is the binary form of a program with that address. -/
theorem Stores.Sound.program (h : Stores.Sound good ps s) {a : Word}
    (hget : Stores.get? s .accounts (programKey a) = .ok (some value)) :
    ∃ p ∈ ps, value = p.toBytes ∧ p.address = a := by
  rcases h.entry .accounts _ _ hget with ⟨⟨b, hkey⟩, -⟩ | ⟨p, hp, hkey, rfl⟩
  · exact absurd hkey (programKey_ne_hex a b)
  · exact ⟨p, hp, rfl, (programKey_injective hkey).symm⟩

end Stores

namespace Machine

variable {ω : Type} [Stores ω] {good : ω → Prop} {m m' m'' : Machine ω} {ps qs : List Program}
  {fuel : Nat}

/-- A machine on sound stores, with a program loaded under its own address or none. -/
structure Sound (good : ω → Prop) (programs : List Program) (m : Machine ω) : Prop where
  stores : Stores.Sound good programs m.stores
  loaded : ∀ l, m.loaded = some l → l.address = l.program.address

/-- A machine comes from another by any sequence of operations, whatever their results. The programs
are those whose deployment went right, the last one first. -/
inductive History : Machine ω → List Program → Machine ω → Prop where
  | refl (m : Machine ω) : History m [] m
  | load {m m' : Machine ω} {ps : List Program} (h : History m ps m') (p : Program) :
      History m ps (m'.load p).2
  | deploy {m m' m'' : Machine ω} {ps : List Program} {fuel : Nat} {l : Loaded} {a : Word}
      (h : History m ps m') (hloaded : m'.loaded = some l)
      (hdeploy : m'.deploy fuel = some (.ok a, m'')) : History m (l.program :: ps) m''
  | fault {m m' m'' : Machine ω} {ps : List Program} {fuel : Nat} {e : Fault}
      (h : History m ps m') (hdeploy : m'.deploy fuel = some (.error e, m'')) : History m ps m''
  | callWords {m m' m'' : Machine ω} {ps : List Program} {fuel i : Nat} {arguments : List Word}
      {r : Except Fault (Option Word)} (h : History m ps m')
      (hcall : m'.callWords fuel i arguments = some (r, m'')) : History m ps m''
  | call {m m' m'' : Machine ω} {ps : List Program} {fuel i : Nat} {values : List Value}
      {r : Except Fault (Option Word)} (h : History m ps m')
      (hcall : m'.call fuel i values = some (r, m'')) : History m ps m''

/-! ### What one operation keeps -/

/-- A program is loaded under its own address, and the stores are not used. -/
theorem Sound.load (h : m.Sound good ps) (p : Program) : (m.load p).2.Sound good ps where
  stores := h.stores
  loaded l hloaded := by
    cases hloaded
    rfl

/-- Sound stores stay sound under the writes of any program. -/
theorem Sound.keeps (hrel : Stores.Reliable good) (m : Machine ω) (ps : List Program) :
    m.Keeps (Stores.Sound good ps) := by
  intro l _ s cell w hs
  obtain ⟨s', hwrite, hsound⟩ := hs.writeCell hrel l.address cell w
  rw [hwrite]
  exact hsound

theorem Sound.not_failsIn (hrel : Stores.Reliable good) (cause : StoreError) :
    ¬ FailsIn (Stores.Sound good ps) (.store cause) := by
  intro hfails
  obtain ⟨s, program, hs, hfails⟩ := hfails cause rfl
  exact hs.not_fails hrel program cause hfails

/-- A call keeps a machine sound, and does not fault because of the stores. -/
theorem Sound.callWords (h : m.Sound good ps) (hrel : Stores.Reliable good) {i : Nat}
    {arguments : List Word} {r : Except Fault (Option Word)}
    (hcall : m.callWords fuel i arguments = some (r, m')) :
    m'.Sound good ps ∧ ∀ cause, r ≠ .error (.store cause) := by
  obtain ⟨hstores, hfault⟩ := callWords_stores (Sound.keeps hrel m ps) h.stores hcall
  have hloaded := (callWords_setup hcall).loaded
  exact ⟨⟨hstores, fun l hl => h.loaded l (hloaded ▸ hl)⟩,
    fun cause hr => Sound.not_failsIn hrel cause (hfault _ hr)⟩

theorem Sound.call (h : m.Sound good ps) (hrel : Stores.Reliable good) {i : Nat}
    {values : List Value} {r : Except Fault (Option Word)}
    (hcall : m.call fuel i values = some (r, m')) :
    m'.Sound good ps ∧ ∀ cause, r ≠ .error (.store cause) := by
  obtain ⟨hstores, hfault⟩ := call_stores (Sound.keeps hrel m ps) h.stores hcall
  have hloaded := (call_setup hcall).loaded
  exact ⟨⟨hstores, fun l hl => h.loaded l (hloaded ▸ hl)⟩,
    fun cause hr => Sound.not_failsIn hrel cause (hfault _ hr)⟩

/-- A deployment that goes right adds the program of the machine to the deployed ones, and one that
faults adds nothing. -/
theorem Sound.deploy (h : m.Sound good ps) (hrel : Stores.Reliable good) {r : Except Fault Word}
    (hdeploy : m.deploy fuel = some (r, m')) :
    ((∃ e, r = .error e ∧ ∀ cause, e ≠ .store cause) ∧ m'.Sound good ps)
      ∨ ∃ l, m.loaded = some l ∧ r = .ok l.address ∧ m'.Sound good (l.program :: ps) := by
  have hloaded := (deploy_setup hdeploy).loaded
  rcases deploy_stores (Sound.keeps hrel m ps) h.stores hdeploy with
    ⟨e, rfl, hfault, hstores⟩ | ⟨l, s, hl, hs, rfl, hstores⟩
  · refine Or.inl ⟨⟨e, rfl, fun cause he => ?_⟩, hstores, fun l hl => h.loaded l (hloaded ▸ hl)⟩
    exact Sound.not_failsIn hrel cause (he ▸ hfault)
  · obtain ⟨s', hrecord, hsound⟩ := hs.recordProgram hrel (h.loaded l hl)
    rw [hrecord] at hstores ⊢
    refine Or.inr ⟨l, hl, rfl, ?_, fun l' hl' => h.loaded l' (hloaded ▸ hl')⟩
    rw [hstores]
    exact hsound

/-! ### What lasts -/

/-- A sound machine stays sound. The programs deployed on the way are added to those before. -/
theorem Sound.history (h : m.Sound good ps) (hrel : Stores.Reliable good)
    (hhistory : m.History qs m') : m'.Sound good (qs ++ ps) := by
  -- Only a deployment that goes right adds a program to those that may be bound.
  induction hhistory with
  | refl => exact h
  | load _ p ih => exact ih.load p
  | deploy _ hloaded hdeploy ih =>
    rcases ih.deploy hrel hdeploy with ⟨⟨e, he, -⟩, -⟩ | ⟨l, hl, -, hsound⟩
    · cases he
    · rw [hloaded] at hl
      cases hl
      exact hsound
  | fault _ hdeploy ih =>
    rcases ih.deploy hrel hdeploy with ⟨-, hsound⟩ | ⟨l, -, hok, -⟩
    · exact hsound
    · cases hok
  | callWords _ hcall ih => exact (ih.callWords hrel hcall).1
  | call _ hcall ih => exact (ih.call hrel hcall).1

/-- A program is read back from its binary form. -/
theorem programAt_of_get? {a : Word} {p : Program} (hsize : p.Addressable)
    (hget : Stores.get? m.stores .accounts (programKey a) = .ok (some p.toBytes)) :
    m.programAt a = .ok p := by
  have hread := Program.ofBytes_toBytes_append hsize []
  rw [List.append_nil] at hread
  rw [programAt, hget]
  simp only [hread]
  rfl

/-- A deployed program is found under its address, if no other one has the same digest. -/
theorem Sound.programAt_address (h : m.Sound good ps) (hfree : Program.CollisionFree ps)
    {p : Program} (hp : p ∈ ps) (hsize : p.Addressable) : m.programAt p.address = .ok p := by
  obtain ⟨value, hget⟩ := h.stores.deployed p hp
  obtain ⟨q, hq, rfl, haddress⟩ := h.stores.program hget
  refine programAt_of_get? hsize ?_
  -- Two programs at one address have the same digest, so the same binary form.
  rw [hget, hfree q hq p hp haddress]

/-- **The account index is content-addressed and permanent.** Whatever a machine does that starts on
empty stores which do not fail: it finds words under the digits of words in storage, and no operation
faults because of the stores; it finds accounts and programs in the account index, each program under
its digest, from where it is read back; and a program that was deployed is read back ever after, as
long as no two deployed programs have the same digest. -/
theorem account_index_is_content_addressed_and_permanent (hrel : Stores.Reliable good)
    (hgood : good m.stores) (hempty : ∀ area key, Stores.get? m.stores area key = .ok none)
    (hnone : m.loaded = none) (hhistory : m.History ps m') (hsize : ∀ p ∈ ps, p.Addressable) :
    (∀ key value, Stores.get? m'.stores .storage key = .ok (some value) →
        (∃ w : Word, key = w.hex) ∧ key.length = 64
          ∧ (∀ c ∈ key.toList, c ∈ "0123456789abcdef".toList) ∧ value.length = 32)
      ∧ (∀ fuel r m'', m'.deploy fuel = some (r, m'') → ∀ cause, r ≠ .error (.store cause))
      ∧ (∀ fuel i arguments r m'', m'.callWords fuel i arguments = some (r, m'') →
        ∀ cause, r ≠ .error (.store cause))
      ∧ (∀ fuel i values r m'', m'.call fuel i values = some (r, m'') →
        ∀ cause, r ≠ .error (.store cause))
      ∧ (∀ key value, Stores.get? m'.stores .accounts key = .ok (some value) →
        ((∃ a : Word, key = a.hex) ∧ value.length = 32)
          ∨ ∃ a p, key = programKey a ∧ sha256 value = a ∧ m'.programAt a = .ok p
            ∧ p.address = a)
      ∧ ∀ fuel l a m₁ qs m₂, m'.loaded = some l → m'.deploy fuel = some (.ok a, m₁) →
        l.program.Addressable → m₁.History qs m₂ →
        Program.CollisionFree (qs ++ l.program :: ps) →
        a = l.program.address ∧ m₂.programAt a = .ok l.program := by
  have hstart : m.Sound good [] :=
    ⟨.of_empty hgood hempty, fun l hl => by rw [hnone] at hl; cases hl⟩
  have hsound := hstart.history hrel hhistory
  rw [List.append_nil] at hsound
  refine ⟨fun key value hget => ?_, fun fuel r m'' hdeploy cause hr => ?_,
    fun fuel i arguments r m'' hcall => (hsound.callWords hrel hcall).2,
    fun fuel i values r m'' hcall => (hsound.call hrel hcall).2, fun key value hget => ?_,
    fun fuel l a m₁ qs m₂ hloaded hdeploy hsize hlater hfree => ?_⟩
  · obtain ⟨⟨w, rfl⟩, hlength⟩ := hsound.stores.entry .storage _ _ hget
    exact ⟨⟨w, rfl⟩, w.length_hex, fun c => Word.mem_hex, hlength⟩
  · rcases hsound.deploy hrel hdeploy with ⟨⟨e, rfl, hcause⟩, -⟩ | ⟨l, -, rfl, -⟩
    · exact hcause cause (Except.error.inj hr)
    · cases hr
  · rcases hsound.stores.entry .accounts _ _ hget with hroot | ⟨p, hp, rfl, rfl⟩
    · exact Or.inl hroot
    · exact Or.inr ⟨p.address, p, rfl, rfl, programAt_of_get? (hsize p hp) hget, rfl⟩
  · rcases hsound.deploy hrel hdeploy with ⟨⟨e, he, -⟩, -⟩ | ⟨l', hl', ha, hdeployed⟩
    · cases he
    · rw [hloaded] at hl'
      cases hl'
      cases ha
      rw [hsound.loaded l hloaded]
      -- What was deployed later comes in front, and the program is still among them.
      refine ⟨rfl, (hdeployed.history hrel hlater).programAt_address hfree ?_ hsize⟩
      exact List.mem_append_right _ List.mem_cons_self

/-- A program that stores a cell is deployed, then another one on the same machine: the first is
still read back from its address. -/
theorem first_program_after_second_deployment :
    let p : Program := ⟨[.push .zero, .push .zero, .sstore], .ofList [(0, ⟨[], [.push .zero]⟩)]⟩
    let q : Program := ⟨[], .ofList [(7, ⟨[], [.pop]⟩)]⟩
    let m : Machine MemoryStores := { stores := {} }
    ∃ m₁ m₂, (m.load p).2.deploy 5 = some (.ok p.address, m₁)
      ∧ (m₁.load q).2.deploy 5 = some (.ok q.address, m₂) ∧ m₂.programAt p.address = .ok p := by
  intro p q m
  have hp : p.Addressable := by decide
  have hfirst : ((m.load p).2.deploy 5).map Prod.fst = some (.ok p.address) := rfl
  obtain ⟨⟨r, m₁⟩, hfirst, hr⟩ := Option.map_eq_some_iff.1 hfirst
  cases (hr : r = .ok p.address)
  have hload : (m₁.load q).2.loaded = some ⟨q, q.address⟩ := rfl
  have hsecond : ((m₁.load q).2.deploy 5).map Prod.fst = some (.ok q.address) := rfl
  obtain ⟨⟨r, m₂⟩, hsecond, hr⟩ := Option.map_eq_some_iff.1 hsecond
  cases (hr : r = .ok q.address)
  have hlater : m₁.History [q] m₂ := .deploy (.load (.refl m₁) q) hload hsecond
  have hne : sha256 p.toBytes ≠ sha256 q.toBytes := by decide +kernel
  have hfree : Program.CollisionFree [q, p] := by
    intro x hx y hy hsame
    simp only [List.mem_cons, List.not_mem_nil, or_false] at hx hy
    rcases hx with rfl | rfl
    · rcases hy with rfl | rfl
      · rfl
      · exact absurd hsame.symm hne
    · rcases hy with rfl | rfl
      · exact absurd hsame hne
      · rfl
  have hindex := account_index_is_content_addressed_and_permanent MemoryStores.reliable trivial
    (fun area key => by cases area <;> rfl) rfl (.load (.refl m) p)
    fun _ h => absurd h List.not_mem_nil
  exact ⟨m₁, m₂, hfirst, hsecond, (hindex.2.2.2.2.2 5 _ _ _ _ _ rfl hfirst hp hlater hfree).2⟩

end Machine

end Covenant
