import Covenant.Proofs.Compile.Balance
import Covenant.Proofs.Compile.Simulation

/-!
# Calls agree with evaluation

A call of a function of a compiled contract and the evaluation of the function's tree come to an end
together, and then they agree on the result and on storage.

The simulation of the body does the work. What is left is its two ends: the memory a call begins with
holds the arguments as the state of the evaluation does, and the place the simulation leads to tells
the outcome of the run.

* `get?_bind` is about the memory at the start of a call, and `agrees_start` about all of the start.
* `Ends` says where a run has to come to for a flow, and `run_of_ends` what its outcome is then.
* `Evaluation.Flow.Describes` is the agreement of a flow with the result of a call.
-/

namespace Covenant

namespace Compile

variable {scope : Scope}

/-! ### The start of a call -/

/-- Parameters have names of their own. -/
theorem nodup_of_checkParameters {function : String} {seen : List String} {ps : List Parameter}
    (h : checkParameters scope function seen ps = .ok ()) :
    (ps.map Parameter.name).Nodup ∧ ∀ name ∈ ps.map Parameter.name, name ∉ seen := by
  induction ps generalizing seen with
  | nil => simp
  | cons p rest ih =>
    rw [checkParameters] at h
    split at h
    · cases h
    · next hseen =>
      split at h
      · cases h
      · -- The rest is checked against this name too.
        obtain ⟨hnodup, hrest⟩ := ih h
        rw [List.contains_iff_mem] at hseen
        have habsent : p.name ∉ rest.map Parameter.name := fun hmem =>
          hrest p.name hmem List.mem_cons_self
        refine ⟨List.nodup_cons.2 ⟨habsent, hnodup⟩, ?_⟩
        intro name hname
        rcases List.mem_cons.1 hname with rfl | hmem
        · exact hseen
        · exact fun hold => hrest name hmem (List.mem_cons_of_mem _ hold)

/-- The keys of parameters are made one by one. -/
theorem parameterWords_cons_ok {p : Parameter} {rest : List Parameter} {keys : List Word}
    (h : parameterWords (p :: rest) = .ok keys) :
    ∃ key more, Word.ofText p.name = .ok key ∧ parameterWords rest = .ok more
      ∧ keys = key :: more := by
  simp only [parameterWords, bind_eq_ok, pure_eq_ok] at h
  obtain ⟨key, hkey, more, hmore, rfl⟩ := h
  exact ⟨key, more, textWord_ok hkey, hmore, rfl⟩

/-- There are as many keys as parameters. -/
theorem length_parameterWords {ps : List Parameter} {keys : List Word}
    (h : parameterWords ps = .ok keys) : keys.length = ps.length := by
  induction ps generalizing keys with
  | nil =>
    cases h
    rfl
  | cons p rest ih =>
    obtain ⟨key, more, -, hmore, rfl⟩ := parameterWords_cons_ok h
    rw [List.length_cons, List.length_cons, ih hmore]

/-- The key of a parameter is the word of its name. -/
theorem ofText_of_mem_parameterWords {ps : List Parameter} {keys : List Word}
    (h : parameterWords ps = .ok keys) {key : Word} (hkey : key ∈ keys) :
    ∃ name ∈ ps.map Parameter.name, Word.ofText name = .ok key := by
  induction ps generalizing keys with
  | nil =>
    cases h
    cases hkey
  | cons p rest ih =>
    obtain ⟨first, more, hfirst, hmore, rfl⟩ := parameterWords_cons_ok h
    rcases List.mem_cons.1 hkey with rfl | hmem
    · exact ⟨p.name, List.mem_cons_self, hfirst⟩
    · obtain ⟨name, hname, htext⟩ := ih hmore hmem
      exact ⟨name, List.mem_cons_of_mem _ hname, htext⟩

/-- Parameters with names of their own have keys of their own. -/
theorem nodup_parameterWords {ps : List Parameter} {keys : List Word}
    (h : parameterWords ps = .ok keys) (hnames : AreNames (ps.map Parameter.name))
    (hnodup : (ps.map Parameter.name).Nodup) : keys.Nodup := by
  induction ps generalizing keys with
  | nil =>
    cases h
    exact List.nodup_nil
  | cons p rest ih =>
    obtain ⟨key, more, hkey, hmore, rfl⟩ := parameterWords_cons_ok h
    rw [List.map_cons, areNames_cons] at hnames
    rw [List.map_cons, List.nodup_cons] at hnodup
    -- A key that came again would be the key of another parameter of the same name.
    refine List.nodup_cons.2 ⟨fun hmem => hnodup.1 ?_, ih hmore hnames.2 hnodup.2⟩
    obtain ⟨name, hname, htext⟩ := ofText_of_mem_parameterWords hmore hmem
    rw [key_inj hnames.1 (hnames.2 name hname) hkey htext]
    exact hname

/-- Looking up the key of a name among the keys is looking up the name among the names. -/
theorem lookup_parameterWords {ps : List Parameter} {keys : List Word}
    (h : parameterWords ps = .ok keys) (hnames : AreNames (ps.map Parameter.name)) {name : String}
    {key : Word} (hname : IsName name) (hkey : Word.ofText name = .ok key) (arguments : List Word) :
    Table.lookup key (keys.zip arguments)
      = ((ps.map Parameter.name).zip arguments).lookup name := by
  induction ps generalizing keys arguments with
  | nil =>
    cases h
    rfl
  | cons p rest ih =>
    obtain ⟨first, more, hfirst, hmore, rfl⟩ := parameterWords_cons_ok h
    rw [List.map_cons, areNames_cons] at hnames
    cases arguments with
    | nil => rfl
    | cons w arguments =>
      rw [List.zip_cons_cons, Table.lookup_cons, List.map_cons, List.zip_cons_cons, List.lookup_cons,
        ih hmore hnames.2]
      -- Names are told apart by their keys, so both lists are searched alike.
      by_cases hsame : name = p.name
      · subst hsame
        rw [hfirst] at hkey
        cases hkey
        simp
      · have hne : key ≠ first := by
          rintro rfl
          exact hsame (key_inj hname hnames.1 hkey hfirst)
        rw [if_neg hne, beq_false_of_ne hsame]

/-- The memory at the start of a call has the arguments under the keys of the parameters. -/
theorem get?_bind {keys arguments : List Word} (hnodup : keys.Nodup)
    (hlen : arguments.length ≤ keys.length) (key : Word) :
    (Machine.bind keys arguments).get? key = Table.lookup key (keys.zip arguments) := by
  -- Missing arguments leave out the last keys, and the others are still different.
  have hzip : ((keys.zip arguments).map Prod.fst).Nodup := by
    rw [List.zip_eq_zip_take_min, Nat.min_eq_right hlen, List.take_length,
      List.map_fst_zip (List.length_take_le _ _)]
    exact hnodup.sublist (List.take_sublist _ _)
  rw [Machine.bind, Table.get?_foldl_insert hzip]
  exact Option.or_none

end Compile

/-- The cells of storage: the words under the digits of their addresses. -/
def Stores.cells {ω : Type} [Stores ω] (s : ω) (address : Word) : Option Word :=
  (Stores.get? s .storage address.hex).toOption.join.bind Word.ofBytes?

/-- All that is in storage has the size of a word. -/
def Stores.HoldsWords {ω : Type} [Stores ω] (s : ω) : Prop :=
  ∀ key bytes, Stores.get? s .storage key = .ok (some bytes) → bytes.length = Word.size

/-- Stores in memory hold words if their entries have the size of words. -/
theorem MemoryStores.holdsWords {s : MemoryStores}
    (h : ∀ entry ∈ s.storage.entries, entry.2.length = Word.size) : Stores.HoldsWords s :=
  fun key bytes hget => h (key, bytes) (Table.mem_of_lookup (Except.ok.inj hget))

/-- On stores that answer, the cells are all there is under the digits of words. -/
theorem Stores.HoldsWords.get?_hex {ω : Type} [Stores ω] {s : ω} (h : Stores.HoldsWords s)
    {good : ω → Prop} (hreliable : Stores.Reliable good) (hgood : good s) (address : Word) :
    Stores.get? s .storage address.hex = .ok ((Stores.cells s address).map Word.toBytes) := by
  unfold Stores.cells
  obtain ⟨value?, hget⟩ := hreliable.get? s .storage address.hex hgood
  rw [hget]
  cases value? with
  | none => rfl
  | some bytes =>
    have hword : Word.ofBytes? bytes = some (.ofNat bytes.toNat) := if_pos (h _ _ hget)
    have hcell : (Except.ok (some bytes) : Except StoreError _).toOption.join = some bytes := rfl
    rw [hcell, Option.bind_some, hword, Option.map_some, Word.toBytes_of_ofBytes? hword]

namespace Compile

section Calls

variable {ω : Type} [Stores ω] {limits : Limits} {program : Word} {code : List Instruction}
  {good : ω → Prop} {names : List String} {s₀ : ω} {c : Contract} {f : FunctionDeclaration}
  {keys arguments : List Word}

/-- A call begins with a memory and stores that agree with the state the evaluation begins with. -/
theorem agrees_start (hkeys : parameterWords f.parameters = .ok keys)
    (hparameters : AreNames (f.parameters.map Parameter.name))
    (hnodup : (f.parameters.map Parameter.name).Nodup)
    (hlen : arguments.length ≤ f.parameters.length) (hbound : names.length < Text.indexBound)
    (hreliable : Stores.Reliable good) (hgood : good s₀) (hwords : Stores.HoldsWords s₀) :
    Agrees good names s₀
      { locals := fun _ => none
        parameters := fun name => ((f.parameters.map Parameter.name).zip arguments).lookup name
        cells := Stores.cells s₀ }
      (Machine.bind keys arguments) s₀ := by
  have hbind := get?_bind (nodup_parameterWords hkeys hparameters hnodup)
    (hlen.trans_eq (length_parameterWords hkeys).symm)
  refine ⟨fun i name hi => ?_, fun name key hname hkey => ?_, hgood,
    hwords.get?_hex hreliable hgood, fun _ _ => rfl⟩
  · -- The number of a local is not the key of a parameter.
    obtain ⟨hlt, -⟩ := List.getElem?_eq_some_iff.1 hi
    rw [hbind]
    refine Table.lookup_eq_none_of_notMem fun hmem => ?_
    obtain ⟨⟨key, w⟩, hpair, rfl⟩ := List.mem_map.1 hmem
    obtain ⟨name', hname', htext⟩ :=
      ofText_of_mem_parameterWords hkeys (List.of_mem_zip hpair).1
    exact key_ne_ofNat (hparameters name' hname') htext (by omega) rfl
  · rw [hbind]
    exact lookup_parameterWords hkeys hparameters hname hkey arguments

/-! ### The end of a call -/

/-- Where a run has to come to for a flow: the end of the body, the fault the flow has stopped with,
or more turns than the evaluation had fuel. -/
def Ends (limits : Limits) (program : Word) (code : List Instruction) (good : ω → Prop)
    (names : List String) (s₀ : ω) (fuel : Nat) : Option Evaluation.Flow → Frame → ω → Prop
  | some (.next σ), f, s => f.pc = code.length ∧ f.stack = [] ∧ Agrees good names s₀ σ f.memory s
  | some (.returned w σ), f, s =>
    f.pc = code.length ∧ f.stack = [w] ∧ Agrees good names s₀ σ f.memory s
  | some (.stopped t σ), f, s =>
    (∃ memory, Agrees good names s₀ σ memory s)
      ∧ ∃ f' e, turn limits program code f s = .faulted ⟨s, f', .error e⟩ ∧ t.Raises e
  | none, f, _ => fuel < f.steps

/-- From the end of the body on there is nothing left to do. -/
theorem continues_ends (fuel : Nat) (r : Option Evaluation.Flow) :
    Continues limits program code (Ends limits program code good names s₀ fuel r) good names s₀ fuel
      code.length 0 r := by
  match r with
  | some (.next σ) => exact fun memory s k _ hagrees => Leads.here ⟨rfl, rfl, hagrees⟩
  | some (.returned w σ) => exact fun memory s k _ hagrees => Leads.here ⟨rfl, rfl, hagrees⟩
  | some (.stopped t σ) =>
    exact fun memory s hagrees e hraises f f' hturn => ⟨⟨memory, hagrees⟩, f', e, hturn, hraises⟩
  | none => exact fun f s hlt => by rwa [Nat.zero_add] at hlt

/-- The body of a function leads from the start of a call to where its flow ends. -/
theorem leads_call {body : List Instruction} (hparameters : AreNames f.names)
    (hcheck : checkParameters c.scope f.name [] f.parameters = .ok ())
    (hkeys : parameterWords f.parameters = .ok keys)
    (hbody : Compile.body c.scope f.body = .ok body) (hsize : body.length < Text.indexBound)
    (hsteps : limits.steps = none) (hreliable : Stores.Reliable good) (hgood : good s₀)
    (hwords : Stores.HoldsWords s₀) (hlen : arguments.length ≤ f.parameters.length) (fuel : Nat) :
    Leads limits program body
      (Ends limits program body good (Evaluation.declared [] f.body) s₀ fuel
        (Evaluation.call c fuel f arguments (Stores.cells s₀)))
      { memory := Machine.bind keys arguments } s₀ := by
  obtain ⟨symbols, hfrom, rfl⟩ := body_ok hbody
  rw [FunctionDeclaration.names, areNames_append] at hparameters
  have hsettle : (settle symbols).length = symbols.length := List.length_map _
  have hbound : (Evaluation.declared [] f.body).length < Text.indexBound := by
    have h := length_declared_le hfrom
    simp only [List.length_nil, Nat.zero_add] at h
    omega
  -- The locals are numbered below the length of the code, so their numbers are indices.
  have hset : Setting limits (settle symbols) good (Evaluation.declared [] f.body) :=
    ⟨hsteps, hsize, hreliable, (Evaluation.extends_declared f.body []).2 List.nodup_nil, hbound⟩
  exact leads_bodyFrom hset fuel
    (agrees_start hkeys hparameters.1 (nodup_of_checkParameters hcheck).1 hlen hbound hreliable
      hgood hwords)
    hparameters.2 hfrom (List.prefix_refl _) (placed_settle symbols) (by omega)
    (continues_ends fuel _)

end Calls

end Compile

namespace Evaluation

/-- The state a flow ends with. -/
def Flow.state : Flow → State
  | .next σ => σ
  | .returned _ σ => σ
  | .stopped _ σ => σ

/-- The result of a call that a flow stands for. -/
def Flow.Shows : Flow → Except Fault (Option Word) → Prop
  | .next _, r => r = .ok none
  | .returned w _, r => r = .ok (some w)
  | .stopped t _, r => ∃ e, r = .error e ∧ t.Raises e

/-- A flow agrees with a call that began with stores `s₀`, ended with stores `s` and has the result
`r`: every storage cell is as the flow leaves it, and what is no cell is as it was. -/
def Flow.Describes {ω : Type} [Stores ω] (flow : Flow) (s₀ : ω) (r : Except Fault (Option Word))
    (s : ω) : Prop :=
  flow.Shows r
    ∧ (∀ address : Word,
        Stores.get? s .storage address.hex = .ok ((flow.state.cells address).map Word.toBytes))
    ∧ ∀ key, (∀ address : Word, key ≠ address.hex) →
        Stores.get? s .storage key = Stores.get? s₀ .storage key

end Evaluation

namespace Compile

variable {ω : Type} [Stores ω] {limits : Limits} {program : Word} {code : List Instruction}
  {good : ω → Prop} {names : List String} {s₀ s : ω}

/-- A run that comes to where a flow ends has an outcome, and the flow describes it. -/
theorem run_of_ends {f₀ f : Frame} {fuel : Nat} {flow : Evaluation.Flow}
    (hreach : Reaches limits program code f₀ s₀ f s)
    (h : Ends limits program code good names s₀ fuel (some flow) f s) :
    ∃ fuel' o, run limits program code fuel' f₀ s₀ = some o
      ∧ flow.Describes s₀ (o.result.map fun _ => o.frame.stack.head?) o.stores := by
  cases flow with
  | next σ =>
    obtain ⟨hpc, hstack, hagrees⟩ := h
    obtain ⟨fuel', hrun⟩ := run_before_reaches hreach (run_of_end hpc 0)
    exact ⟨fuel', _, hrun, by simp [hstack, Except.map, Evaluation.Flow.Shows], hagrees.cells,
      hagrees.others⟩
  | returned w σ =>
    obtain ⟨hpc, hstack, hagrees⟩ := h
    obtain ⟨fuel', hrun⟩ := run_before_reaches hreach (run_of_end hpc 0)
    exact ⟨fuel', _, hrun, by simp [hstack, Except.map, Evaluation.Flow.Shows], hagrees.cells,
      hagrees.others⟩
  | stopped t σ =>
    obtain ⟨⟨memory, hagrees⟩, f', e, hturn, hraises⟩ := h
    obtain ⟨fuel', hrun⟩ := run_before_reaches hreach (run_succ_of_faulted hturn 0)
    exact ⟨fuel', _, hrun, ⟨e, rfl, hraises⟩, hagrees.cells, hagrees.others⟩

end Compile

namespace Machine

variable {ω : Type} [Stores ω] {m m' : Machine ω} {address : Word}

/-- A call of a function that exists, with no more arguments than it has parameters, is a run of its
code. -/
theorem callWords_eq_map_run {p : Program} {i : Nat} {code : FunctionCode} {arguments : List Word}
    (hloaded : m.loaded = some ⟨p, address⟩) (hget : p.functions.get? i = some code)
    (hlen : arguments.length ≤ code.parameters.length) (fuel : Nat) :
    m.callWords fuel i arguments
      = (run m.limits address code.body fuel { memory := bind code.parameters arguments }
          m.stores).map fun o =>
          (o.result.map fun _ => o.frame.stack.head?,
            { m with stores := o.stores, frame := o.frame, phase := phaseAfter o }) := by
  rw [← runCode_eq_map_run]
  unfold callWords
  split
  · next hnone => rw [hnone] at hloaded; cases hloaded
  · next l hl =>
    cases hl.symm.trans hloaded
    rw [hget]
    exact if_neg (by omega)

/-- Two finished calls of one function with the same arguments are the same, whatever fuel they
had. -/
theorem callWords_unique {p : Program} {i fuel fuel' : Nat} {code : FunctionCode}
    {arguments : List Word} {a b : Except Fault (Option Word) × Machine ω}
    (hloaded : m.loaded = some ⟨p, address⟩) (hget : p.functions.get? i = some code)
    (hlen : arguments.length ≤ code.parameters.length)
    (ha : m.callWords fuel i arguments = some a) (hb : m.callWords fuel' i arguments = some b) :
    a = b := by
  rw [callWords_eq_map_run hloaded hget hlen, Option.map_eq_some_iff] at ha hb
  obtain ⟨o, hrun, rfl⟩ := ha
  obtain ⟨o', hrun', rfl⟩ := hb
  rw [run_unique hrun hrun']

/-- **Calls agree with evaluation.** Let a contract be read from a source and compiled. Without a
step limit, on stores that do not fail and hold words, and as long as the stack does not get full, a
call of a function and the evaluation of its tree come to an end together: what either comes to, the
other comes to as well. -/
theorem call_agrees_with_evaluation {source : String} {tokens : List Located} {limit : Nat}
    {c : Contract} {p : Program} (hscan : Token.scan source = .ok tokens)
    (hparse : Contract.parse tokens limit = .ok c) (hcompile : c.compile = .ok p)
    (hsize : p.Addressable) {i : Nat} {f : FunctionDeclaration} (hf : c.functions[i]? = some f)
    {m : Machine ω} (hloaded : m.loaded = some ⟨p, address⟩) (hsteps : m.limits.steps = none)
    {good : ω → Prop} (hreliable : Stores.Reliable good) (hgood : good m.stores)
    (hwords : Stores.HoldsWords m.stores) {arguments : List Word}
    (hlen : arguments.length ≤ f.parameters.length)
    (hstack : ∀ fuel r m' most, m.callWords fuel i arguments = some (r, m') →
      r ≠ .error (.stackOverflow most)) :
    (∀ fuel flow, Evaluation.call c fuel f arguments (Stores.cells m.stores) = some flow →
        ∃ fuel' r m', m.callWords fuel' i arguments = some (r, m')
          ∧ flow.Describes m.stores r m'.stores)
      ∧ ∀ fuel r m', m.callWords fuel i arguments = some (r, m') →
        ∃ fuel' flow, Evaluation.call c fuel' f arguments (Stores.cells m.stores) = some flow
          ∧ flow.Describes m.stores r m'.stores := by
  obtain ⟨code, hget, hfunction⟩ := Contract.exists_code hcompile hf
  obtain ⟨hcheck, hkeys, hbody⟩ := Compile.function_ok hfunction
  have hcall := callWords_eq_map_run hloaded hget
    (hlen.trans_eq (Compile.length_parameterWords hkeys).symm)
  -- With any fuel for the evaluation, the machine comes to where its flow ends.
  have hends : ∀ fuel, ∃ f₁ s₁,
      Reaches m.limits address code.body { memory := bind code.parameters arguments } m.stores f₁ s₁
        ∧ Compile.Ends m.limits address code.body good (Evaluation.declared [] f.body) m.stores fuel
          (Evaluation.call c fuel f arguments (Stores.cells m.stores)) f₁ s₁ := by
    intro fuel
    refine (Compile.leads_call (names_of_parse hscan hparse (List.mem_of_getElem? hf)) hcheck hkeys
      hbody (hsize.body_lt hget) hsteps hreliable hgood hwords hlen fuel).elim ?_
    intro fuel' o most hrun hfull
    refine hstack fuel' _ _ most (by rw [hcall, hrun]; rfl) ?_
    rw [hfull]
    rfl
  constructor
  · intro fuel flow hflow
    obtain ⟨f₁, s₁, hreach, hend⟩ := hends fuel
    rw [hflow] at hend
    obtain ⟨fuel', o, hrun, hdescribes⟩ := Compile.run_of_ends hreach hend
    exact ⟨fuel', _, _, by rw [hcall, hrun]; rfl, hdescribes⟩
  · intro fuel r m' hr
    rw [hcall, Option.map_eq_some_iff] at hr
    obtain ⟨o, hrun, ho⟩ := hr
    cases ho
    obtain ⟨f₁, s₁, hreach, hend⟩ := hends fuel
    cases hflow : Evaluation.call c fuel f arguments (Stores.cells m.stores) with
    | none =>
      -- The run would have taken more turns than the fuel it ended with.
      rw [hflow] at hend
      rw [run_eq_none_of_reaches hreach (by rw [Nat.zero_add]; exact hend)] at hrun
      cases hrun
    | some flow =>
      rw [hflow] at hend
      obtain ⟨fuel', o', hrun', hdescribes⟩ := Compile.run_of_ends hreach hend
      cases run_unique hrun hrun'
      exact ⟨fuel, flow, hflow, hdescribes⟩

/-- Payments that grow, until one comes to more than is allowed. -/
def paySource : String :=
  "contract Pay " ++ Text.braced ("var fee: Int = 0 mapping(Int => Int) paid "
    ++ "func pay(n: Int, most: Int) -> Int " ++ Text.braced ("for var i = 1; i <= n; i = i + 1 "
      ++ Text.braced ("paid[i] = i * i - fee "
        ++ "if paid[i] > most " ++ Text.braced "return i")
      ++ " return fee"))

/-- A call that writes to a mapping in two rounds of a loop and returns from the second. -/
theorem pay_agrees_with_evaluation :
    ∃ tokens c p f m₁ m₂, Token.scan paySource = .ok tokens ∧ Contract.parse tokens = .ok c
      ∧ c.compile = .ok p ∧ p.Addressable ∧ c.functions[0]? = some f
      ∧ deploy (ω := MemoryStores) ⟨{}, {}, some ⟨p, .zero⟩, {}, .ready⟩ 20 = some (.ok .zero, m₁)
      ∧ m₁.callWords 200 0 [.ofNat 5, .ofNat 2] = some (.ok (some (.ofNat 2)), m₂)
      ∧ ∃ fuel flow,
        Evaluation.call c fuel f [.ofNat 5, .ofNat 2] (Stores.cells m₁.stores) = some flow
          ∧ flow.Describes m₁.stores (.ok (some (.ofNat 2))) m₂.stores := by
  have hrun : ((Token.scan paySource).toOption.any fun tokens =>
      (Contract.parse tokens).toOption.any fun c =>
        c.compile.toOption.any fun p =>
          decide p.Addressable &&
          c.functions[0]?.any fun f =>
            decide ([Word.ofNat 5, .ofNat 2].length ≤ f.parameters.length) &&
            (deploy (ω := MemoryStores) ⟨{}, {}, some ⟨p, .zero⟩, {}, .ready⟩ 20).any fun r₁ =>
              decide (r₁.1.toOption = some .zero ∧ r₁.2.limits.steps = none
                ∧ ∀ entry ∈ r₁.2.stores.storage.entries, entry.2.length = Word.size) &&
              (r₁.2.callWords 200 0 [.ofNat 5, .ofNat 2]).any fun r₂ =>
                decide (r₂.1.toOption = some (some (.ofNat 2)))) = true := by
    decide +kernel
  obtain ⟨tokens, hscan, hrun⟩ := exists_ok_of_any hrun
  obtain ⟨c, hparse, hrun⟩ := exists_ok_of_any hrun
  obtain ⟨p, hcompile, hrun⟩ := exists_ok_of_any hrun
  rw [Bool.and_eq_true, decide_eq_true_eq] at hrun
  obtain ⟨hsize, hrun⟩ := hrun
  obtain ⟨f, hf, hrun⟩ := (Option.any_eq_true _ _).1 hrun
  rw [Bool.and_eq_true, decide_eq_true_eq] at hrun
  obtain ⟨hlen, hrun⟩ := hrun
  obtain ⟨⟨r, m₁⟩, hdeploy, hrun⟩ := (Option.any_eq_true _ _).1 hrun
  rw [Bool.and_eq_true, decide_eq_true_eq, toOption_eq_some] at hrun
  obtain ⟨⟨rfl, hsteps, hentries⟩, hrun⟩ := hrun
  obtain ⟨⟨r, m₂⟩, hcall, hrun⟩ := (Option.any_eq_true _ _).1 hrun
  rw [decide_eq_true_eq, toOption_eq_some] at hrun
  subst hrun
  have hloaded : m₁.loaded = some ⟨p, .zero⟩ := Serves.loaded (.deploy (.refl _) hdeploy) rfl
  obtain ⟨code, hget, hfunction⟩ := Contract.exists_code hcompile hf
  obtain ⟨-, hkeys, -⟩ := Compile.function_ok hfunction
  have hstack : ∀ fuel r m' most, m₁.callWords fuel 0 [.ofNat 5, .ofNat 2] = some (r, m') →
      r ≠ .error (.stackOverflow most) := by
    intro fuel r m' most hother
    cases callWords_unique hloaded hget (hlen.trans_eq (Compile.length_parameterWords hkeys).symm)
      hcall hother
    exact nofun
  refine ⟨tokens, c, p, f, m₁, m₂, hscan, hparse, hcompile, hsize, hf, hdeploy, hcall, ?_⟩
  exact (call_agrees_with_evaluation hscan hparse hcompile hsize hf hloaded hsteps
    MemoryStores.reliable trivial (MemoryStores.holdsWords hentries) hlen hstack).2 _ _ _ hcall

end Machine

end Covenant
