import Covenant.Proofs.Machine.AccountRoot
import Covenant.Proofs.Machine.Accounts
import Covenant.Proofs.Machine.Lockstep

/-!
# Cells written in turn

A program changes its storage one cell at a time, and after every cell the new storage root goes to
the account index. What several such writes come to on stores that do not fail can be said without
the steps between them: a cell holds what was written to it last, and what it held before if nothing
was; the account entry of the program is the storage root, if anything was written at all; and
nothing else has changed.

* `Stores.ContentRoots` says that a root is settled by what a store holds. Without it a root could
  tell in which order cells were written.
* `Stores.Written` is what a list of writes has made of the stores. Lists of writes are joined by
  `Written.append`, and `Written.unchanged_of_lastWrite?` compares two of them by what they leave in
  each cell.
* `Stores.Deployed` is the same for a deployment, which records the program after the writes.
-/

namespace Covenant

/-! ### What is written last -/

/-- The word written last to the cell with a key. The writes are pairs of a cell and a word, in the
order in which they are made. -/
def lastWrite? (key : String) : List (Word × Word) → Option Word
  | [] => none
  | (cell, w) :: rest => (lastWrite? key rest).or (if key = cell.hex then some w else none)

section LastWrite

variable {key : String} {cell w : Word} {xs ys : List (Word × Word)}

/-- Of two lists of writes the second decides, if it writes the cell at all. -/
theorem lastWrite?_append (key : String) (xs ys : List (Word × Word)) :
    lastWrite? key (xs ++ ys) = (lastWrite? key ys).or (lastWrite? key xs) := by
  induction xs with
  | nil => simp [lastWrite?]
  | cons x rest ih => rw [List.cons_append, lastWrite?, ih, lastWrite?, Option.or_assoc]

/-- What is written last has been written. -/
theorem mem_of_lastWrite? (h : lastWrite? key xs = some w) :
    ∃ cell, (cell, w) ∈ xs ∧ key = cell.hex := by
  induction xs with
  | nil => cases h
  | cons x rest ih =>
    rw [lastWrite?, Option.or_eq_some_iff] at h
    rcases h with hrest | ⟨-, hfirst⟩
    · obtain ⟨cell, hmem, hkey⟩ := ih hrest
      exact ⟨cell, List.mem_cons_of_mem _ hmem, hkey⟩
    · rw [Option.ite_none_right_eq_some] at hfirst
      obtain ⟨hkey, hword⟩ := hfirst
      cases hword
      exact ⟨x.1, List.mem_cons_self, hkey⟩

/-- Nothing is written last to a cell that is not written. -/
theorem lastWrite?_eq_none_iff : lastWrite? key xs = none ↔ ∀ x ∈ xs, key ≠ x.1.hex := by
  induction xs with
  | nil => simp [lastWrite?]
  | cons x rest ih =>
    rw [lastWrite?, Option.or_eq_none_iff, ih, List.forall_mem_cons, and_comm]
    simp

/-- A cell that is only ever written with one word holds that word. -/
theorem lastWrite?_of_mem (hmem : (cell, w) ∈ xs) (hone : ∀ v, (cell, v) ∈ xs → v = w) :
    lastWrite? cell.hex xs = some w := by
  cases hlast : lastWrite? cell.hex xs with
  | none =>
    have hne : cell.hex ≠ cell.hex := lastWrite?_eq_none_iff.1 hlast (cell, w) hmem
    exact absurd rfl hne
  | some v =>
    obtain ⟨other, hother, hkey⟩ := mem_of_lastWrite? hlast
    rw [Word.hex_injective hkey] at hone
    rw [hone v hother]

/-- Writes to different cells can be made in either order. -/
theorem lastWrite?_append_comm (hapart : ∀ x ∈ xs, ∀ y ∈ ys, x.1 ≠ y.1) (key : String) :
    lastWrite? key (xs ++ ys) = lastWrite? key (ys ++ xs) := by
  rw [lastWrite?_append, lastWrite?_append]
  cases hx : lastWrite? key xs with
  | none => rw [Option.or_none, Option.none_or]
  | some v =>
    have hy : lastWrite? key ys = none := by
      obtain ⟨cell, hmem, rfl⟩ := mem_of_lastWrite? hx
      refine lastWrite?_eq_none_iff.2 fun y hy heq => ?_
      exact hapart _ hmem y hy (Word.hex_injective heq)
    rw [hy, Option.or_none, Option.none_or]

/-- Lists of writes that leave the same in every cell both write something, or neither does. -/
theorem eq_nil_of_lastWrite? (h : ∀ key, lastWrite? key xs = lastWrite? key ys) (hxs : xs = []) :
    ys = [] := by
  subst hxs
  cases ys with
  | nil => rfl
  | cons y rest =>
    have hnone : lastWrite? y.1.hex (y :: rest) = none := (h y.1.hex).symm
    have hne : y.1.hex ≠ y.1.hex := lastWrite?_eq_none_iff.1 hnone y List.mem_cons_self
    exact absurd rfl hne

end LastWrite

/-! ### What writes come to -/

section Stores

variable {ω : Type} [Stores ω] {good : ω → Prop} {program : Word} {s s' s'' t' : ω}
  {xs ys : List (Word × Word)}

/-- The root of a store is settled by what the store holds, wherever `good` holds. -/
def Stores.ContentRoots (good : ω → Prop) : Prop :=
  ∀ s t area, good s → good t → (∀ key, Stores.get? s area key = Stores.get? t area key) →
    Stores.root s area = Stores.root t area

/-- Stores that hold the same in both areas have the same roots, so nothing has changed. -/
theorem Stores.ContentRoots.unchanged (hroots : Stores.ContentRoots good) (hgood : good s)
    (hgood' : good s') (h : ∀ area key, Stores.get? s' area key = Stores.get? s area key)
    (area : Area) : Stores.Unchanged area s s' :=
  ⟨h area, hroots s' s area hgood' hgood (h area)⟩

/-- Stores in memory have the roots of their contents. -/
theorem MemoryStores.contentRoots : Stores.ContentRoots fun _ : MemoryStores => True := by
  intro s t area _ _ h
  have hsame : s.store area = t.store area := Table.ext_get? fun key => Except.ok.inj (h key)
  exact congrArg (fun store => Except.ok (Store.root store)) hsame

/-- Stores in memory that give the same answers are the same. -/
theorem MemoryStores.eq_of_unchanged {s t : MemoryStores}
    (h : ∀ area, Stores.Unchanged area s t) : t = s := by
  have hstorage : t.storage = s.storage :=
    Table.ext_get? fun key => Except.ok.inj ((h .storage).1 key)
  have haccounts : t.accounts = s.accounts :=
    Table.ext_get? fun key => Except.ok.inj ((h .accounts).1 key)
  cases s
  cases t
  cases hstorage
  cases haccounts
  rfl

/-- An insertion into reliable stores with the root recorded after it goes right. The account entry
is the storage root, and of all other keys one is bound. -/
theorem Stores.Reliable.insertRecorded (hrel : Stores.Reliable good)
    (hroots : Stores.ContentRoots good) (hgood : good s) (area : Area) (key : String)
    (value : Bytes) (program : Word) :
    ∃ s', Stores.insertRecorded s area key value program = (s', .ok ()) ∧ good s'
      ∧ Stores.RootRecorded program s'
      ∧ ∀ area' key', (area' = .accounts → key' ≠ program.hex) → Stores.get? s' area' key'
        = if area' = area ∧ key' = key then .ok (some value) else Stores.get? s area' key' := by
  obtain ⟨s₁, hinsert, hgood₁, hget₁⟩ := hrel.insert s area key value hgood
  obtain ⟨root, hroot⟩ := hrel.root s₁ .storage hgood₁
  obtain ⟨s₂, hrecord, hgood₂, hget₂⟩ := hrel.insert s₁ .accounts program.hex root.toBytes hgood₁
  refine ⟨s₂, ?_, hgood₂, ⟨root, ?_, ?_⟩, fun area' key' hother => ?_⟩
  · rw [Stores.insertRecorded, hinsert]
    exact recordRoot_of_insert hroot hrecord
  · -- The root that was recorded is still that of the storage, which the recording left alone.
    have hstorage : ∀ key, Stores.get? s₂ .storage key = Stores.get? s₁ .storage key := by
      intro key
      rw [hget₂, if_neg (by simp)]
    rw [hroots s₂ s₁ .storage hgood₂ hgood₁ hstorage, hroot]
  · rw [hget₂, if_pos ⟨rfl, rfl⟩]
  · rw [hget₂, if_neg fun h => hother h.1 h.2, hget₁]

/-- What writes to storage cells by a program have made of the stores. -/
structure Stores.Written (program : Word) (cells : List (Word × Word)) (s s' : ω) : Prop where
  storage : ∀ key, Stores.get? s' .storage key
    = (lastWrite? key cells).elim (Stores.get? s .storage key) fun w => .ok (some w.toBytes)
  root : cells ≠ [] → Stores.RootRecorded program s'
  accounts : ∀ key, (key = program.hex → cells = []) →
    Stores.get? s' .accounts key = Stores.get? s .accounts key

theorem Stores.Written.nil (program : Word) (s : ω) : Stores.Written program [] s s :=
  ⟨fun _ => rfl, fun h => absurd rfl h, fun _ _ => rfl⟩

/-- One write to reliable stores. -/
theorem Stores.Reliable.written (hrel : Stores.Reliable good) (hroots : Stores.ContentRoots good)
    (hgood : good s) (program cell w : Word) :
    ∃ s', Instruction.writeCell s program cell w = (s', .ok ()) ∧ good s'
      ∧ Stores.Written program [(cell, w)] s s' := by
  obtain ⟨s', hwrite, hgood', hroot, hget⟩ :=
    hrel.insertRecorded hroots hgood .storage cell.hex w.toBytes program
  refine ⟨s', hwrite, hgood', fun key => ?_, fun _ => hroot, fun key hkey => ?_⟩
  · rw [hget _ _ (fun h => by cases h)]
    by_cases hcell : key = cell.hex
    · simp [lastWrite?, hcell]
    · simp [lastWrite?, hcell]
  · have hne : key ≠ program.hex := fun heq => by cases hkey heq
    rw [hget _ _ fun _ => hne, if_neg (by simp)]

/-- Writes that follow one another. -/
theorem Stores.Written.append (hroots : Stores.ContentRoots good) (hgood' : good s')
    (hgood'' : good s'') (h : Stores.Written program xs s s')
    (h' : Stores.Written program ys s' s'') : Stores.Written program (xs ++ ys) s s'' where
  storage key := by
    rw [h'.storage, h.storage, lastWrite?_append]
    cases lastWrite? key ys with
    | none => rw [Option.none_or, Option.elim_none]
    | some w => rfl
  root hne := by
    rcases ys with _ | ⟨y, rest⟩
    · -- The second list writes nothing, so the entry and the root are those after the first.
      rw [List.append_nil] at hne
      have hstorage : ∀ key, Stores.get? s'' .storage key = Stores.get? s' .storage key :=
        h'.storage
      rw [Stores.RootRecorded, h'.accounts _ fun _ => rfl,
        hroots s'' s' .storage hgood'' hgood' hstorage]
      exact h.root hne
    · exact h'.root (List.cons_ne_nil y rest)
  accounts key hkey := by
    have hboth : key = program.hex → xs = [] ∧ ys = [] := fun heq =>
      List.append_eq_nil_iff.1 (hkey heq)
    rw [h'.accounts key fun heq => (hboth heq).2, h.accounts key fun heq => (hboth heq).1]

/-- Two lists of writes to the same stores make the same of them if they leave the same in every
cell. -/
theorem Stores.Written.unchanged_of_lastWrite? (hroots : Stores.ContentRoots good)
    (hgood' : good s') (hgood'' : good t') (h : Stores.Written program xs s s')
    (h' : Stores.Written program ys s t')
    (hlast : ∀ key, lastWrite? key xs = lastWrite? key ys) (area : Area) :
    Stores.Unchanged area s' t' := by
  have hstorage : ∀ key, Stores.get? t' .storage key = Stores.get? s' .storage key := by
    intro key
    rw [h'.storage, h.storage, hlast]
  have hroot := hroots t' s' .storage hgood'' hgood' hstorage
  have haccounts : ∀ key, Stores.get? t' .accounts key = Stores.get? s' .accounts key := by
    intro key
    -- The entry of the program is a root if anything is written, and otherwise as it was.
    by_cases hempty : xs = []
    · have hempty' := eq_nil_of_lastWrite? hlast hempty
      rw [h'.accounts key fun _ => hempty', h.accounts key fun _ => hempty]
    · have hne : ys ≠ [] := fun hys => hempty (eq_nil_of_lastWrite? (fun k => (hlast k).symm) hys)
      by_cases hkey : key = program.hex
      · subst hkey
        exact (h.root hempty).get?_eq (h'.root hne) hroot
      · rw [h'.accounts key fun heq => absurd heq hkey, h.accounts key fun heq => absurd heq hkey]
  refine hroots.unchanged hgood' hgood'' (fun area => ?_) area
  cases area with
  | storage => exact hstorage
  | accounts => exact haccounts

/-! ### Deployments -/

/-- What a deployment has made of the stores that wrote these cells and recorded its program. -/
structure Stores.Deployed (l : Loaded) (cells : List (Word × Word)) (s s' : ω) : Prop where
  storage : ∀ key, Stores.get? s' .storage key
    = (lastWrite? key cells).elim (Stores.get? s .storage key) fun w => .ok (some w.toBytes)
  root : Stores.RootRecorded l.address s'
  program : Stores.get? s' .accounts (programKey l.address) = .ok (some l.program.toBytes)
  others : ∀ key, key ≠ l.address.hex → key ≠ programKey l.address →
    Stores.get? s' .accounts key = Stores.get? s .accounts key

/-- Recording a program in reliable stores goes right. -/
theorem Stores.Written.recordProgram {l : Loaded} (h : Stores.Written l.address xs s s')
    (hrel : Stores.Reliable good) (hroots : Stores.ContentRoots good) (hgood' : good s') :
    ∃ s'', Machine.recordProgram s' l = (s'', .ok ()) ∧ good s'' ∧ Stores.Deployed l xs s s'' := by
  obtain ⟨s'', hrecord, hgood'', hroot, hget⟩ := hrel.insertRecorded hroots hgood' .accounts
    (programKey l.address) l.program.toBytes l.address
  refine ⟨s'', hrecord, hgood'', fun key => ?_, hroot, ?_, fun key hkey hprogram => ?_⟩
  · rw [hget _ _ (fun h => by cases h), if_neg (by simp), h.storage]
  · rw [hget _ _ fun _ => programKey_ne_hex _ _, if_pos ⟨rfl, rfl⟩]
  · rw [hget _ _ fun _ => hkey, if_neg fun hsame => hprogram hsame.2,
      h.accounts key fun heq => absurd heq hkey]

/-- A second deployment finds everything as it leaves it. -/
theorem Stores.Deployed.unchanged (hroots : Stores.ContentRoots good) {l : Loaded}
    (hgood' : good s') (hgood'' : good s'') (h : Stores.Deployed l xs s s')
    (h' : Stores.Deployed l xs s' s'') (area : Area) : Stores.Unchanged area s' s'' := by
  have hstorage : ∀ key, Stores.get? s'' .storage key = Stores.get? s' .storage key := by
    intro key
    rw [h'.storage, h.storage]
    -- The second deployment writes the same words to the same cells.
    cases lastWrite? key xs with
    | none => rfl
    | some w => rfl
  have hroot := hroots s'' s' .storage hgood'' hgood' hstorage
  have haccounts : ∀ key, Stores.get? s'' .accounts key = Stores.get? s' .accounts key := by
    intro key
    by_cases hkey : key = l.address.hex
    · subst hkey
      exact h.root.get?_eq h'.root hroot
    · by_cases hprogram : key = programKey l.address
      · subst hprogram
        rw [h'.program, h.program]
      · exact h'.others key hkey hprogram
  refine hroots.unchanged hgood' hgood'' (fun area => ?_) area
  cases area with
  | storage => exact hstorage
  | accounts => exact haccounts

end Stores

end Covenant
