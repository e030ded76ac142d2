import Covenant.Program.Decode
import Covenant.Proofs.Table
import Covenant.Proofs.Wire

/-!
# The binary form of programs

The binary form is written from instructions and read as drafts, which are checked afterwards. A
program is told from its binary form all the same: the draft that is read is the program's own, it
passes the check, and no proper part of the binary form is taken for a whole one. So no two programs
share a binary form, none has a form that begins that of another, and what is hashed to give the
address of a program determines the program.

* `decodes_draft` says that the reader of drafts decodes the binary form of a program.
* `check_draft` says that the draft of a program passes the check with that program as result.
-/

namespace Covenant

open Wire

namespace Instruction

/-- An instruction as it goes outside. -/
def draft (i : Instruction) : Program.DraftInstruction := ⟨i.mnemonic, i.operand?⟩

/-- An instruction is what its own mnemonic and constant make. -/
theorem check_draft (i : Instruction) : i.draft.check = .ok i := by
  cases i with
  | binary op => cases op <;> rfl
  | _ => rfl

/-- Mnemonics are short, so their lengths can be written. -/
theorem length_mnemonic (i : Instruction) :
    (Bytes.ofText i.mnemonic).length < Text.indexBound := by
  cases i with
  | push w => exact show (Bytes.ofText "PUSH").length < Text.indexBound by decide
  | pushParam key => exact show (Bytes.ofText "PUSH_PARAM").length < Text.indexBound by decide
  | binary op => cases op <;> decide
  | _ => decide

/-- An instruction is read as its draft: a mnemonic, and a constant or none. -/
theorem decodes_draft (i : Instruction) :
    Decodes Program.DraftInstruction.reader i.toBytes i.draft := by
  have hvalue := decodes_option (o := i.operand?) fun w _ => decodes_word w
  exact (decodes_text i.length_mnemonic).bind
    (hvalue.map fun value => (⟨i.mnemonic, value⟩ : Program.DraftInstruction))

end Instruction

namespace Program

/-- The lists of a program are shorter than 2^64 and so are the indices of its functions. A program
in the memory of a computer is like that. -/
structure Addressable (p : Program) : Prop where
  initialization : p.initialization.length < Text.indexBound
  functions : p.functions.size < Text.indexBound
  index : ∀ entry ∈ p.functions.entries, entry.1 < Text.indexBound
  parameters : ∀ entry ∈ p.functions.entries, entry.2.parameters.length < Text.indexBound
  body : ∀ entry ∈ p.functions.entries, entry.2.body.length < Text.indexBound

instance (p : Program) : Decidable p.Addressable :=
  decidable_of_iff
    (p.initialization.length < Text.indexBound ∧ p.functions.size < Text.indexBound ∧
      ∀ entry ∈ p.functions.entries, entry.1 < Text.indexBound ∧
        entry.2.parameters.length < Text.indexBound ∧ entry.2.body.length < Text.indexBound)
    ⟨fun ⟨hi, hf, he⟩ => ⟨hi, hf, fun e h => (he e h).1, fun e h => (he e h).2.1,
      fun e h => (he e h).2.2⟩,
     fun h => ⟨h.initialization, h.functions, fun e he =>
      ⟨h.index e he, h.parameters e he, h.body e he⟩⟩⟩

theorem Addressable.body_lt {p : Program} (h : p.Addressable) {i : Nat} {f : FunctionCode}
    (hget : p.functions.get? i = some f) : f.body.length < Text.indexBound :=
  h.body (i, f) (Table.mem_of_lookup hget)

/-- A function as it goes outside. -/
def draftFunction (f : FunctionCode) : DraftFunction :=
  ⟨f.parameters, f.body.map Instruction.draft⟩

/-- A program as it goes outside. -/
def draft (p : Program) : Draft :=
  ⟨p.initialization.map Instruction.draft, p.functions.map draftFunction⟩

/-! ### The draft of a program passes the check -/

/-- Code is what its drafts make, instruction by instruction. -/
theorem checkAll_draft (code : List Instruction) :
    checkAll (code.map Instruction.draft) = .ok code := by
  induction code with
  | nil => rfl
  | cons i rest ih =>
    simp only [List.map_cons, checkAll, Instruction.check_draft, ih]
    rfl

theorem check_draftFunction (f : FunctionCode) : (draftFunction f).check = .ok f := by
  rw [DraftFunction.check, draftFunction, checkAll_draft]
  rfl

theorem traverseEntries_draft (entries : List (Nat × FunctionCode)) :
    Table.traverseEntries DraftFunction.check
      (entries.map fun (index, f) => (index, draftFunction f)) = .ok entries := by
  induction entries with
  | nil => rfl
  | cons entry rest ih =>
    simp only [List.map_cons, Table.traverseEntries, check_draftFunction, ih]
    rfl

/-- A table of functions passes the check with its own entries, in their order. -/
theorem traverse_draft (t : Table Nat FunctionCode) :
    (t.map draftFunction).traverse DraftFunction.check = .ok t := by
  have hentries : Table.traverseEntries DraftFunction.check (t.map draftFunction).entries
      = .ok t.entries := traverseEntries_draft t.entries
  -- The entries stay as they are, so they are in order and make the same table.
  unfold Table.traverse
  split
  · next e herror =>
    rw [hentries] at herror
    cases herror
  · next entries hok =>
    rw [hentries] at hok
    cases hok
    rfl

/-- The draft of a program passes the check with that program as result. -/
theorem check_draft (p : Program) : p.draft.check = .ok p := by
  rw [Draft.check, draft, checkAll_draft]
  simp only [traverse_draft]
  rfl

/-! ### The draft of a program is what is read -/

/-- A function is read as its draft if its lists are not too long. -/
theorem decodes_draftFunction {f : FunctionCode} (hparams : f.parameters.length < Text.indexBound)
    (hbody : f.body.length < Text.indexBound) :
    Decodes DraftFunction.reader (functionToBytes f) (draftFunction f) := by
  have hwords := decodes_list (g := id) hparams fun w _ => decodes_word w
  rw [List.map_id] at hwords
  have hcode := decodes_list hbody fun i _ => Instruction.decodes_draft i
  exact hwords.bind (hcode.map fun body => (⟨f.parameters, body⟩ : DraftFunction))

/-- An entry of the table is read as its index and the draft of its function. -/
theorem decodes_entry {entry : Nat × FunctionCode} (hindex : entry.1 < Text.indexBound)
    (hparams : entry.2.parameters.length < Text.indexBound)
    (hbody : entry.2.body.length < Text.indexBound) :
    Decodes readEntry (entryToBytes entry) (entry.1, draftFunction entry.2) :=
  (decodes_varint hindex).bind
    ((decodes_draftFunction hparams hbody).map fun function => (entry.1, function))

theorem ofList_draft (t : Table Nat FunctionCode) :
    Table.ofList (t.entries.map fun entry => (entry.1, draftFunction entry.2))
      = t.map draftFunction :=
  Table.ofList_entries (t.map draftFunction)

/-- The reader of drafts decodes the binary form of a program to the draft of that program. -/
theorem decodes_draft {p : Program} (h : p.Addressable) :
    Decodes Draft.reader p.toBytes p.draft := by
  have hcode := decodes_list h.initialization fun i _ => Instruction.decodes_draft i
  have hentries := decodes_list h.functions fun entry he =>
    decodes_entry (h.index entry he) (h.parameters entry he) (h.body entry he)
  have hmap := hentries.map fun functions =>
    (⟨p.initialization.map Instruction.draft, Table.ofList functions⟩ : Draft)
  rw [ofList_draft] at hmap
  exact hcode.bind hmap

/-! ### Programs and their binary forms -/

/-- A program is read from its binary form, and what follows is not looked at. -/
theorem ofBytes_toBytes_append {p : Program} (h : p.Addressable) (rest : Bytes) :
    ofBytes (p.toBytes ++ rest) = .ok p := by
  have hread : Draft.reader.run? (p.toBytes ++ rest) = .ok p.draft := by
    rw [Reader.run?, (decodes_draft h).read]
    rfl
  simp only [ofBytes, hread, Draft.accept, check_draft]

/-- A binary form that is cut ends inside a value. -/
theorem ofBytes_of_cut {p : Program} (h : p.Addressable) {front back : Bytes}
    (hsplit : p.toBytes = front ++ back) (hback : back ≠ []) :
    ofBytes front = .error (.malformedBytes .endOfInput) := by
  have hread : Draft.reader.run? front = .error .endOfInput := by
    rw [Reader.run?, (decodes_draft h).cut front back hsplit hback]
    rfl
  simp only [ofBytes, hread]

/-- Code of any length is read as its drafts, if it is read at all. -/
theorem exact_code (code : List Instruction) :
    Exact (Reader.list DraftInstruction.reader) (Wire.list Instruction.toBytes code)
      (code.map Instruction.draft) :=
  exact_list fun i _ => (Instruction.decodes_draft i).exact

theorem exact_draftFunction (f : FunctionCode) :
    Exact DraftFunction.reader (functionToBytes f) (draftFunction f) := by
  have hwords : Exact (Reader.list Reader.word) (Wire.list Word.toBytes f.parameters)
      (f.parameters.map id) := exact_list fun w _ => (decodes_word w).exact
  rw [List.map_id] at hwords
  exact hwords.bind ((exact_code f.body).map fun body => (⟨f.parameters, body⟩ : DraftFunction))

theorem exact_entry (entry : Nat × FunctionCode) :
    Exact readEntry (entryToBytes entry) (entry.1, draftFunction entry.2) :=
  (exact_varintWithin 10 entry.1).bind
    ((exact_draftFunction entry.2).map fun function => (entry.1, function))

/-- A program is read exactly, as its draft. -/
theorem exact_draft (p : Program) : Exact Draft.reader p.toBytes p.draft := by
  have hentries : Exact (Reader.list readEntry) (Wire.list entryToBytes p.functions.entries)
      (p.functions.entries.map fun entry => (entry.1, draftFunction entry.2)) :=
    exact_list fun entry _ => exact_entry entry
  have hmap := hentries.map fun functions =>
    (⟨p.initialization.map Instruction.draft, Table.ofList functions⟩ : Draft)
  rw [ofList_draft] at hmap
  exact (exact_code p.initialization).bind hmap

/-- Whatever program is read from the binary form of one, however long its lists are, is that
program. -/
theorem eq_of_ofBytes_toBytes {p q : Program} (h : ofBytes p.toBytes = .ok q) : q = p := by
  unfold ofBytes at h
  split at h
  · next draft hread =>
    rw [Reader.run?] at hread
    -- Without a bound on its lists a form may be refused, but nothing else can be read from it.
    rcases hrun : Draft.reader p.toBytes with e | ⟨draft', left⟩
    · rw [hrun] at hread
      cases hread
    · rw [hrun] at hread
      cases hread
      rw [← List.append_nil p.toBytes] at hrun
      obtain ⟨rfl, -⟩ := exact_draft p _ _ _ hrun
      simp only [Draft.accept, check_draft] at h
      cases h
      rfl
  · cases h

/-- **The binary form is a codec.** A program is read back from its binary form, whatever follows;
every proper beginning of the form ends inside a value; and so the form of one program begins the
form of another only if they are the same program. -/
theorem binary_form_decodes_and_is_prefix_free (p : Program) (h : p.Addressable) :
    (∀ rest, ofBytes (p.toBytes ++ rest) = .ok p)
      ∧ (∀ front, front <+: p.toBytes → front ≠ p.toBytes →
          ofBytes front = .error (.malformedBytes .endOfInput))
      ∧ (∀ q : Program, q.Addressable → q.toBytes <+: p.toBytes → q = p) := by
  refine ⟨ofBytes_toBytes_append h, ?_, ?_⟩
  · rintro front ⟨back, hsplit⟩ hne
    refine ofBytes_of_cut h hsplit.symm fun hnil => hne ?_
    rw [← hsplit, hnil, List.append_nil]
  · rintro q hq ⟨back, hsplit⟩
    -- Both programs are read from the longer of the two forms.
    have hread := ofBytes_toBytes_append hq back
    have hself := ofBytes_toBytes_append h []
    rw [List.append_nil] at hself
    rw [hsplit, hself] at hread
    exact (Except.ok.inj hread).symm

/-- A program with one function, whose index takes two groups, is read back before other bytes, and
its form cut inside that index is refused. -/
theorem binary_form_of_function_three_hundred :
    let p : Program := ⟨[.push (.ofNat 7), .pop], Table.ofList [(300, ⟨[.ofNat 1], [.jump]⟩)]⟩
    p.Addressable ∧ ofBytes (p.toBytes ++ [1, 2]) = .ok p
      ∧ ofBytes (p.toBytes.take 46) = .error (.malformedBytes .endOfInput) := by
  intro p
  have haddr : p.Addressable := by decide
  obtain ⟨hread, hcut, -⟩ := binary_form_decodes_and_is_prefix_free p haddr
  exact ⟨haddr, hread [1, 2], hcut _ (List.take_prefix 46 _) (by decide +kernel)⟩

end Program

end Covenant
