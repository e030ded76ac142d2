import Covenant.Machine
import Covenant.Proofs.Compile.Agreement
import Covenant.Proofs.Machine.Pieces
import Mathlib.Data.List.Basic

/-!
# The storage cells of mapping entries

The address of a mapping entry comes from the slot of the mapping: one key after the other is added to
the address so far, and the sum is hashed. The sum forgets what it was made of, so entries of
different mappings, or of one mapping of more than one key, can share a cell: the entry `1` of the
mapping in slot 0 and the entry `0` of the mapping in slot 1 do. What is proved here is when two
entries share a cell, given that the hash has no collision among the words that are hashed for them:
when the sums that are hashed last are the same.

* `Evaluation.hashed` are the words hashed for an entry, and `CollisionFree` is what is asked of them.
* `entryAddress_eq_iff` and `entryAddress_ne_of_differOnce` are about addresses.
* `acts_address`, `acts_assignment` and `gives_index` say that compiled code computes these addresses,
  writes to them and reads from them. They hold of what code does unless the stack gets full, and of
  what it does within limits.
-/

namespace Covenant

/-- The hash tells the given words apart. It does so for any words if it is injective. -/
def CollisionFree (words : List Word) : Prop :=
  ∀ a ∈ words, ∀ b ∈ words, a.hash = b.hash → a = b

instance (words : List Word) : Decidable (CollisionFree words) :=
  inferInstanceAs (Decidable (∀ a ∈ words, ∀ b ∈ words, a.hash = b.hash → a = b))

theorem CollisionFree.subset {words more : List Word} (h : CollisionFree more)
    (hsub : words ⊆ more) : CollisionFree words :=
  fun a ha b hb => h a (hsub ha) b (hsub hb)

namespace Evaluation

/-! ### Addresses -/

/-- An address and a key, added modulo 2^256. -/
def keySum (address key : Word) : Word := .wrap (address.toInt + key.toInt)

/-- A sum tells the addresses apart that one key is added to. -/
theorem keySum_left_inj {a b key : Word} (h : keySum a key = keySum b key) : a = b := by
  rw [keySum, keySum, Word.wrap_toInt_add, Word.wrap_toInt_add] at h
  exact congrArg Word.mk ((BitVec.add_left_inj _).1 (Word.mk.inj h))

/-- A sum tells the keys apart that are added to one address. -/
theorem keySum_right_inj {address k l : Word} (h : keySum address k = keySum address l) : k = l := by
  rw [keySum, keySum, Word.wrap_toInt_add, Word.wrap_toInt_add] at h
  exact congrArg Word.mk ((BitVec.add_right_inj _).1 (Word.mk.inj h))

/-- The words that are hashed when an address is taken through keys. -/
def hashed (address : Word) : List Word → List Word
  | [] => []
  | key :: rest => keySum address key :: hashed (nextAddress address key) rest

/-- The words that are hashed for some keys come before those for more keys. -/
theorem hashed_append (address : Word) (ks ls : List Word) :
    hashed address (ks ++ ls) = hashed address ks ++ hashed (ks.foldl nextAddress address) ls := by
  induction ks generalizing address with
  | nil => rfl
  | cons key rest ih =>
    rw [List.cons_append, hashed, ih, hashed, List.foldl_cons, List.cons_append]

/-- The sum hashed last is that of the last key. -/
theorem keySum_mem_hashed (address : Word) (ks : List Word) (k : Word) :
    keySum (ks.foldl nextAddress address) k ∈ hashed address (ks ++ [k]) := by
  rw [hashed_append]
  exact List.mem_append_right _ List.mem_cons_self

/-- Keys keep different addresses different. -/
theorem foldl_nextAddress_ne {a b : Word} {ks : List Word}
    (hfree : CollisionFree (hashed a ks ++ hashed b ks)) (hne : a ≠ b) :
    ks.foldl nextAddress a ≠ ks.foldl nextAddress b := by
  induction ks generalizing a b with
  | nil => exact hne
  | cons key rest ih =>
    rw [hashed, hashed] at hfree
    -- One key moves both addresses by the same amount, and the hash tells the sums apart.
    have hnext : nextAddress a key ≠ nextAddress b key := by
      intro heq
      refine hne (keySum_left_inj (hfree _ ?_ _ ?_ heq))
      · exact List.mem_append_left _ List.mem_cons_self
      · exact List.mem_append_right _ List.mem_cons_self
    rw [List.foldl_cons, List.foldl_cons]
    refine ih (hfree.subset ?_) hnext
    exact List.append_subset.2 ⟨
      fun w hw => List.mem_append_left _ (List.mem_cons_of_mem _ hw),
      fun w hw => List.mem_append_right _ (List.mem_cons_of_mem _ hw)⟩

end Evaluation

namespace Contract

variable {c : Contract} {m n : String} {ks ls : List Word} {k l : Word}

/-- The slot of a mapping, as the address its entries start from. -/
def slotWord (c : Contract) (base : String) : Word := .ofNat (c.storageNames.idxOf base)

/-- The storage cell of an entry of a mapping. -/
def entryAddress (c : Contract) (base : String) (keys : List Word) : Word :=
  Evaluation.entryAddress (c.storageNames.idxOf base) keys

/-- The sum that is hashed last for an entry: the last key is added to the address that the keys
before it give. -/
def lastSum (c : Contract) (base : String) (keys : List Word) (last : Word) : Word :=
  Evaluation.keySum (c.entryAddress base keys) last

/-- The words that are hashed for an entry. -/
def entryHashed (c : Contract) (base : String) (keys : List Word) : List Word :=
  Evaluation.hashed (c.slotWord base) keys

theorem entryAddress_concat : c.entryAddress m (ks ++ [k]) = (c.lastSum m ks k).hash := by
  rw [entryAddress, Evaluation.entryAddress, List.foldl_append]
  rfl

/-- Two entries share a cell when the sums hashed last for them are the same. -/
theorem entryAddress_eq_iff
    (hfree : CollisionFree (c.entryHashed m (ks ++ [k]) ++ c.entryHashed n (ls ++ [l]))) :
    c.entryAddress m (ks ++ [k]) = c.entryAddress n (ls ++ [l])
      ↔ c.lastSum m ks k = c.lastSum n ls l := by
  rw [entryAddress_concat, entryAddress_concat]
  constructor
  · exact hfree _ (List.mem_append_left _ (Evaluation.keySum_mem_hashed _ _ _)) _
      (List.mem_append_right _ (Evaluation.keySum_mem_hashed _ _ _))
  · exact congrArg Word.hash

/-- Two entries differ in one thing only: in the mapping, or in one key. -/
def DifferOnce (m : String) (ks : List Word) (n : String) (ls : List Word) : Prop :=
  (m ≠ n ∧ ks = ls)
    ∨ m = n ∧ ∃ before x y behind, ks = before ++ x :: behind ∧ ls = before ++ y :: behind ∧ x ≠ y

/-- What has a cell is among the storage declarations. -/
theorem mem_storageNames {cell : Cell} (h : c.scope.cell? m = some cell) : m ∈ c.storageNames := by
  refine Decidable.byContradiction fun habsent => ?_
  have hnone : c.scope.cell? m = none := lookup_eq_none_iff.2 habsent
  rw [hnone] at h
  cases h

/-- Different storage declarations have different slots, as long as there are words for all of
them. -/
theorem slotWord_ne (hsize : c.storageNames.length ≤ 2 ^ 256) (hm : m ∈ c.storageNames)
    (hn : n ∈ c.storageNames) (hne : m ≠ n) : c.slotWord m ≠ c.slotWord n := by
  have hlt := List.idxOf_lt_length_of_mem hm
  have hlt' := List.idxOf_lt_length_of_mem hn
  exact fun heq => hne ((List.idxOf_inj hm).1 (Word.ofNat_inj (by omega) (by omega) heq))

/-- Entries of one mapping that differ in one key have cells of their own. -/
theorem entryAddress_ne_of_key {before behind : List Word} {x y : Word}
    (hfree : CollisionFree
      (c.entryHashed m (before ++ x :: behind) ++ c.entryHashed m (before ++ y :: behind)))
    (hne : x ≠ y) :
    c.entryAddress m (before ++ x :: behind) ≠ c.entryAddress m (before ++ y :: behind) := by
  -- The keys before lead to one address, and the keys behind keep the two addresses apart.
  rw [entryHashed, entryHashed, Evaluation.hashed_append, Evaluation.hashed_append,
    Evaluation.hashed, Evaluation.hashed] at hfree
  rw [entryAddress, entryAddress, Evaluation.entryAddress, Evaluation.entryAddress,
    List.foldl_append, List.foldl_append, List.foldl_cons, List.foldl_cons]
  refine Evaluation.foldl_nextAddress_ne (hfree.subset ?_) fun heq => hne ?_
  · exact List.append_subset.2 ⟨
      fun w hw => List.mem_append_left _ (List.mem_append_right _ (List.mem_cons_of_mem _ hw)),
      fun w hw => List.mem_append_right _ (List.mem_append_right _ (List.mem_cons_of_mem _ hw))⟩
  · refine Evaluation.keySum_right_inj (hfree _ ?_ _ ?_ heq)
    · exact List.mem_append_left _ (List.mem_append_right _ List.mem_cons_self)
    · exact List.mem_append_right _ (List.mem_append_right _ List.mem_cons_self)

/-- Entries that differ in one thing only have cells of their own. -/
theorem entryAddress_ne_of_differOnce (hsize : c.storageNames.length < Text.indexBound)
    (hm : m ∈ c.storageNames) (hn : n ∈ c.storageNames)
    (hfree : CollisionFree (c.entryHashed m ks ++ c.entryHashed n ls))
    (h : DifferOnce m ks n ls) : c.entryAddress m ks ≠ c.entryAddress n ls := by
  rcases h with ⟨hne, rfl⟩ | ⟨rfl, before, x, y, behind, rfl, rfl, hne⟩
  · have hwide : Text.indexBound < 2 ^ 256 := by decide
    exact Evaluation.foldl_nextAddress_ne hfree (slotWord_ne (by omega) hm hn hne)
  · exact entryAddress_ne_of_key hfree hne

end Contract

namespace Compile

/-! ### The code of entries -/

section Entries

variable {ω : Type} [Stores ω] {program : Word} {memory : Memory} {s s' : ω} {room : Nat}
  {c : Contract} {locals : Numbering} {base : String} {keys : List Term} {ks : List Word}
  {xs : List Instruction} {stack : List Word}

/-- The code of each operand stands for the given word. -/
def GiveWords (B : Behaviour ω) (s : ω) (room : Nat) (c : Contract) (locals : Numbering) :
    List Term → List Word → Prop :=
  List.Forall₂ fun x w => ∀ xs, term c.scope locals x = .ok xs → B.Gives s room xs (.ok w)

/-- The code of each operand puts the given word on the stack. -/
def HaveValues (program : Word) (memory : Memory) (s : ω) (c : Contract) (locals : Numbering) :
    List Term → List Word → Prop :=
  GiveWords (taking ω program memory) s 0 c locals

section Straight

variable {B : Behaviour ω} (hB : B.Straight program memory)

include hB

/-- Adding a key and hashing the sum gives the next address. -/
theorem acts_nextAddress (address key : Word) (s : ω) (h : B.fits (stack.length + 1)) :
    B.acts [.binary .add, .hash256] (key :: address :: stack) s
      (Evaluation.nextAddress address key :: stack) s := by
  have hadd : B.acts [.binary .add] (key :: address :: stack) s
      (Evaluation.keySum address key :: stack) s := hB.push (fun _ _ _ _ => rfl) h
  have hhash : B.acts [.hash256] (Evaluation.keySum address key :: stack) s
      (Evaluation.nextAddress address key :: stack) s := hB.push (fun _ _ _ _ => rfl) h
  exact hB.append hadd hhash

/-- The code of keys takes an address through their values. -/
theorem acts_keyCode (hkeys : GiveWords B s room c locals keys ks)
    (h : keyCode c.scope locals keys = .ok xs) (address : Word)
    (hroom : B.fits (stack.length + 1 + room)) :
    B.acts xs (address :: stack) s (ks.foldl Evaluation.nextAddress address :: stack) s := by
  induction hkeys generalizing xs address with
  | nil =>
    cases h
    exact hB.nil _ _
  | cons hkey _ ih =>
    obtain ⟨first, rest, hfirst, hrest, rfl⟩ := keyCode_cons_ok h
    -- A key is worked out above the address so far, and the two become the next address.
    have hplace : B.fits (stack.length + 1) := hB.fits_mono hroom (by omega)
    have hvalue := (hkey first hfirst).acts (address :: stack) hroom
    exact hB.append hvalue (hB.append (acts_nextAddress hB _ _ _ hplace) (ih hrest _))

/-- The code of an address puts the cell of the entry on the stack. -/
theorem acts_address (hkeys : GiveWords B s room c locals keys ks)
    (h : address c.scope locals base keys = .ok xs)
    (hroom : B.fits (stack.length + 1 + room)) :
    B.acts xs stack s (c.entryAddress base ks :: stack) s := by
  obtain ⟨slot, rest, hslot, hrest, rfl⟩ := address_ok h
  have hplace : B.fits (stack.length + 1) := hB.fits_mono hroom (by omega)
  cases mappingSlot_eq hslot
  exact hB.append (hB.pushWord _ _ hplace) (acts_keyCode hB hkeys hrest _ hroom)

/-- An assignment to an entry writes to the cell of the entry. -/
theorem acts_assignment {a : Assignment} {w : Word}
    (htarget : a.target.singleTerm? = some (.index base keys))
    (hvalue : ∀ ys, expression c.scope locals a.value = .ok ys → B.Gives s room ys (.ok w))
    (hkeys : GiveWords B s room c locals keys ks)
    (hwrite : Instruction.writeCell s program (c.entryAddress base ks) w = (s', .ok ()))
    (h : assignment c.scope locals a = .ok xs) (hroom : B.fits (stack.length + room + 2)) :
    B.acts xs stack s stack s' := by
  obtain ⟨target, value, rest, htarget', hcode, hstore, rfl⟩ := assignment_ok h
  cases htarget.symm.trans htarget'
  obtain ⟨place, hplace, rfl⟩ := store_index_ok hstore
  -- The value stays on the stack while the address is worked out above it.
  have hword := (hvalue value hcode).acts stack (hB.fits_mono hroom (by omega))
  have haddress : B.acts place (w :: stack) s (c.entryAddress base ks :: w :: stack) s := by
    apply acts_address hB hkeys hplace
    rw [List.length_cons]
    exact hB.fits_mono hroom (by omega)
  exact hB.append hword (hB.append haddress (hB.sstore hwrite _))

/-- An entry that is used as an operand reads the cell of the entry. -/
theorem gives_index (hkeys : GiveWords B s room c locals keys ks)
    (h : term c.scope locals (.index base keys) = .ok xs) :
    B.Gives s (room + 1) xs (Instruction.readCell s (c.entryAddress base ks)) := by
  obtain ⟨slot, rest, hslot, hrest, rfl⟩ := term_index_ok h
  have haddress : address c.scope locals base keys = .ok (pushNat slot :: rest) := by
    rw [address, hslot, hrest]
    rfl
  -- What is read takes the place of the address, so it needs no place of its own.
  have hcell : ∀ stack : List Word, B.fits (stack.length + (room + 1)) →
      B.acts (pushNat slot :: rest) stack s (c.entryAddress base ks :: stack) s :=
    fun stack hroom => acts_address hB hkeys haddress (hB.fits_mono hroom (by omega))
  cases hread : Instruction.readCell s (c.entryAddress base ks) with
  | ok w =>
    refine .value fun stack hroom => hB.append (hcell stack hroom) ?_
    exact hB.sload hread (hB.fits_mono hroom (by omega))
  | error e =>
    exact .fault fun stack hroom => hB.append_stops (hcell stack hroom) (hB.stops_sload hread _)

end Straight

/-- After a write to a cell, that cell holds what was written, and every other what it held. -/
theorem readCell_after {address w : Word}
    (hget : ∀ key, Stores.get? s' .storage key
      = if key = address.hex then .ok (some w.toBytes) else Stores.get? s .storage key)
    (other : Word) :
    Instruction.readCell s' other
      = if address = other then .ok w else Instruction.readCell s other := by
  rw [Instruction.readCell, hget]
  by_cases hsame : address = other
  · subst hsame
    simp
  · rw [if_neg fun heq => hsame (Word.hex_injective heq).symm, if_neg hsame]
    rfl

end Entries

/-- **When mapping entries share a storage cell.** Let `m` and `n` be mappings of a contract that
compiles, each with as many keys as it declares, and let the hash have no collision among the words
hashed for the two entries. The functions of the contract are compiled in its scope, and there:

* two entries have the same cell if and only if the sums hashed last are the same;
* entries that differ only in the mapping or only in one key have different cells;
* the code of an assignment to the first entry writes to its cell, and the code of the second entry,
  as an operand, then reads the assigned word if the sums are the same, and what it read before if
  they are not. -/
theorem entries_share_cell_iff_last_sums_agree {c : Contract} {p : Program}
    (hcompile : c.compile = .ok p) (hsize : c.storageNames.length < Text.indexBound) {m n : String}
    {ks ls : List Word} {k l : Word}
    (hm : c.scope.cell? m = some (.mapping (ks.length + 1)))
    (hn : c.scope.cell? n = some (.mapping (ls.length + 1)))
    (hfree : CollisionFree (c.entryHashed m (ks ++ [k]) ++ c.entryHashed n (ls ++ [l])))
    {ω : Type} [Stores ω] {good : ω → Prop} (hreliable : Stores.Reliable good) :
    (∀ i f, c.functions[i]? = some f →
        ∃ code, p.functions.get? i = some code ∧ function c.scope f = .ok code)
      ∧ (c.entryAddress m (ks ++ [k]) = c.entryAddress n (ls ++ [l])
          ↔ c.lastSum m ks k = c.lastSum n ls l)
      ∧ (Contract.DifferOnce m (ks ++ [k]) n (ls ++ [l]) →
          c.entryAddress m (ks ++ [k]) ≠ c.entryAddress n (ls ++ [l]))
      ∧ ∀ (program : Word) (memory : Memory) (s : ω) (locals : Numbering) (a : Assignment)
          (keys : List Term) (w : Word) (xs : List Instruction), good s →
          a.target.singleTerm? = some (.index m keys) →
          (∀ ys, expression c.scope locals a.value = .ok ys → Reads program memory s ys (.ok w)) →
          HaveValues program memory s c locals keys (ks ++ [k]) →
          assignment c.scope locals a = .ok xs →
          ∃ s', good s' ∧ (∀ stack, Takes program memory xs stack s stack s')
            ∧ ∀ (memory' : Memory) (locals' : Numbering) (keys' : List Term)
                (ys : List Instruction), HaveValues program memory' s' c locals' keys' (ls ++ [l]) →
                term c.scope locals' (.index n keys') = .ok ys →
                Reads program memory' s' ys
                  (if c.lastSum m ks k = c.lastSum n ls l then .ok w
                    else Instruction.readCell s (c.entryAddress n (ls ++ [l]))) := by
  have hiff := Contract.entryAddress_eq_iff hfree
  refine ⟨fun i f hf => Contract.exists_code hcompile hf, hiff, ?_, ?_⟩
  · exact Contract.entryAddress_ne_of_differOnce hsize (Contract.mem_storageNames hm)
      (Contract.mem_storageNames hn) hfree
  · intro program memory s locals a keys w xs hgood htarget hvalue hvalues hassign
    -- The write binds one cell; what the second entry reads depends on whether that is its own.
    obtain ⟨s', hwrite, hgood', hget⟩ :=
      hreliable.writeCell hgood program (c.entryAddress m (ks ++ [k])) w
    have hstraight := straight_taking (ω := ω) program memory
    refine ⟨s', hgood', fun stack =>
      acts_assignment hstraight htarget hvalue hvalues hwrite hassign trivial, ?_⟩
    intro memory' locals' keys' ys hvalues' hterm
    have hread := readCell_after hget (c.entryAddress n (ls ++ [l]))
    simp only [hiff] at hread
    rw [← hread]
    exact (gives_index (straight_taking program memory') hvalues' hterm).of_fits fun _ _ => trivial

/-- A mapping of one key and a mapping of two. -/
def bookContract : Contract :=
  ⟨"Book", [.mapping ⟨"paid", ["Int"], "Int"⟩, .mapping ⟨"owed", ["Int", "Int"], "Int"⟩]⟩

/-- The code of the assignment of 9 to `paid[5]`, on empty stores, leaves `owed[3][2]` unset. -/
theorem paid_and_owed_have_cells_of_their_own :
    ∃ p, bookContract.compile = .ok p
      ∧ CollisionFree (bookContract.entryHashed "paid" [.wrap 5]
          ++ bookContract.entryHashed "owed" [.wrap 3, .wrap 2])
      ∧ bookContract.lastSum "paid" [] (.wrap 5) ≠ bookContract.lastSum "owed" [.wrap 3] (.wrap 2)
      ∧ bookContract.entryAddress "paid" [.wrap 5]
          ≠ bookContract.entryAddress "owed" [.wrap 3, .wrap 2]
      ∧ ∃ s' : MemoryStores,
        (∀ stack, Takes .zero ∅
          [.push (.wrap 9), .push (.ofNat 0), .push (.wrap 5), .binary .add, .hash256, .sstore]
          stack {} stack s')
        ∧ Reads .zero ∅ s'
          [.push (.ofNat 1), .push (.wrap 3), .binary .add, .hash256, .push (.wrap 2), .binary .add,
            .hash256, .sload]
          (.error (.missingStorageKey
            (bookContract.entryAddress "owed" [.wrap 3, .wrap 2]).hex)) := by
  have hfree : CollisionFree (bookContract.entryHashed "paid" ([] ++ [.wrap 5])
      ++ bookContract.entryHashed "owed" ([.wrap 3] ++ [.wrap 2])) := by
    decide +kernel
  have hsums : bookContract.lastSum "paid" [] (.wrap 5)
      ≠ bookContract.lastSum "owed" [.wrap 3] (.wrap 2) := by
    decide +kernel
  have hm : bookContract.scope.cell? "paid" = some (.mapping (([] : List Word).length + 1)) := rfl
  have hn : bookContract.scope.cell? "owed" = some (.mapping ([Word.wrap 3].length + 1)) := rfl
  have hconstant : ∀ (s : MemoryStores) (n : Int) (xs : List Instruction),
      term bookContract.scope {} (.literal (.int n)) = .ok xs → Reads .zero ∅ s xs (.ok (.wrap n)) := by
    intro s n xs h
    obtain ⟨w, hw, rfl⟩ := term_literal_ok h
    rw [literalWord_ok hw]
    exact .value fun _ _ => (straight_taking _ _).pushWord _ _ trivial
  obtain ⟨-, hiff, -, hassign⟩ := entries_share_cell_iff_last_sums_agree (c := bookContract) rfl
    (by decide) hm hn hfree MemoryStores.reliable
  refine ⟨_, rfl, hfree, hsums, fun h => hsums (hiff.1 h), ?_⟩
  obtain ⟨s', -, htakes, hreads⟩ := hassign .zero ∅ {} {}
    ⟨⟨[.index "paid" [.literal (.int 5)]], []⟩, ⟨[.literal (.int 9)], []⟩⟩ [.literal (.int 5)]
    (.wrap 9) _ trivial rfl (fun _ h => by cases h; exact .value fun _ _ => (straight_taking _ _).pushWord _ _ trivial)
    (.cons (hconstant _ 5) .nil) rfl
  have hvalues : HaveValues .zero ∅ s' bookContract {} [.literal (.int 3), .literal (.int 2)]
      ([.wrap 3] ++ [.wrap 2]) := .cons (hconstant _ 3) (.cons (hconstant _ 2) .nil)
  have hread := hreads ∅ {} _ _ hvalues rfl
  rw [if_neg hsums] at hread
  exact ⟨s', htakes, hread⟩

/-- Two mappings of one key; one is written to, and the other is read. -/
def sharingSource : String :=
  "contract C " ++ Text.braced ("mapping(Int => Int) a mapping(Int => Int) b "
    ++ "func set(k: Int, v: Int) " ++ Text.braced "a[k] = v"
    ++ " func get(k: Int) -> Int " ++ Text.braced "return b[k]")

/-- The entries `a[1]` and `b[0]` are different and share a cell, as both are found by the hash of 1:
`b[0]` has no value until `a[1]` is assigned one, and then it has that value. -/
theorem distinct_entries_share_a_cell :
    ∃ c p m m₁ m₂, Contract.ofSource sharingSource = .ok c ∧ c.compile = .ok p
      ∧ c.scope.cell? "a" = some (.mapping 1) ∧ c.scope.cell? "b" = some (.mapping 1)
      ∧ ("a", [Word.ofNat 1]) ≠ ("b", [Word.ofNat 0])
      ∧ c.entryAddress "a" [.ofNat 1] = c.entryAddress "b" [.ofNat 0]
      ∧ m = (⟨{}, {}, some ⟨p, .zero⟩, {}, .ready⟩ : Machine MemoryStores)
      ∧ Stores.get? m.stores .storage (c.entryAddress "b" [.ofNat 0]).hex = .ok none
      ∧ m.callWords 30 0 [.ofNat 1, .ofNat 5] = some (.ok none, m₁)
      ∧ m₁.callWords 30 1 [.ofNat 0] = some (.ok (some (.ofNat 5)), m₂) := by
  have hrun : ((Contract.ofSource sharingSource).toOption.any fun c =>
      c.compile.toOption.any fun p =>
        decide (c.scope.cell? "a" = some (.mapping 1) ∧ c.scope.cell? "b" = some (.mapping 1)
          ∧ c.lastSum "a" [] (.ofNat 1) = c.lastSum "b" [] (.ofNat 0)) &&
        (Machine.callWords (ω := MemoryStores) ⟨{}, {}, some ⟨p, .zero⟩, {}, .ready⟩ 30 0
          [.ofNat 1, .ofNat 5]).any fun r₁ =>
          decide (r₁.1.toOption = some none) &&
          (r₁.2.callWords 30 1 [.ofNat 0]).any fun r₂ =>
            decide (r₂.1.toOption = some (some (.ofNat 5)))) = true := by
    decide +kernel
  obtain ⟨c, hc, hrun⟩ := exists_ok_of_any hrun
  obtain ⟨p, hp, hrun⟩ := exists_ok_of_any hrun
  rw [Bool.and_eq_true, decide_eq_true_eq] at hrun
  obtain ⟨⟨ha, hb, hsum⟩, hrun⟩ := hrun
  obtain ⟨⟨r, m₁⟩, hwrite, hrun⟩ := (Option.any_eq_true _ _).1 hrun
  rw [Bool.and_eq_true, decide_eq_true_eq, toOption_eq_some] at hrun
  obtain ⟨rfl, hrun⟩ := hrun
  obtain ⟨⟨r, m₂⟩, hread, hrun⟩ := (Option.any_eq_true _ _).1 hrun
  rw [decide_eq_true_eq, toOption_eq_some] at hrun
  subst hrun
  have hshare : c.entryAddress "a" ([] ++ [.ofNat 1]) = c.entryAddress "b" ([] ++ [.ofNat 0]) := by
    rw [Contract.entryAddress_concat, Contract.entryAddress_concat, hsum]
  exact ⟨c, p, _, m₁, m₂, hc, hp, ha, hb, by simp, hshare, rfl, rfl, hwrite, hread⟩

end Compile

end Covenant
