import Covenant.Proofs.Store

/-!
# Sessions of a store

A store kept in a file can be closed and opened again at any time, and all that it knows then is the
text of its file. A store in memory is never closed. As long as insertions go right, no sequence of
uses tells the two apart.

Between two uses one thing holds: opening the file would give the store that is open
(`FileStore.load d path = .ok s`). An insertion keeps it because the file is written from the store
and read back as it was (`load_of_runSteps`), whatever path the file has; the other uses change
nothing.

* `FileStore.answers` and `Store.answers` are what uses come to, of a store kept in a file and of one
  in memory.
* `FileStore.answers_eq` compares them from any point of a session on.
-/

namespace Covenant

/-- A use of a store. -/
inductive StoreUse where
  | insert (key : String) (value : Bytes)
  | get (key : String)
  | root
  /-- The store is closed and opened again. -/
  | reopen

/-- The answer to a use. -/
inductive StoreAnswer where
  | done
  | value (found : Option Bytes)
  | root (digest : Word)
  /-- An insertion that failed. -/
  | refused (cause : StoreError)
  /-- The store could not be opened. -/
  | shut (cause : StoreError)
  deriving DecidableEq

/-- The answers of a store in memory, which has nothing to close. -/
def Store.answers (s : Store) : List StoreUse → List StoreAnswer
  | [] => []
  | .insert key value :: rest => .done :: Store.answers (s.insert key value) rest
  | .get key :: rest => .value (s.get? key) :: Store.answers s rest
  | .root :: rest => .root (Store.root s) :: Store.answers s rest
  | .reopen :: rest => .done :: Store.answers s rest

namespace FileStore

/-- The answers of a store kept in a file. A store that could not be opened gives no more. -/
def answers (s : FileStore) (d : Disk) : List StoreUse → List StoreAnswer
  | [] => []
  | .insert key value :: rest =>
    match s.insert d key value with
    | (s, d, .ok ()) => .done :: answers s d rest
    | (s, d, .error e) => .refused e :: answers s d rest
  | .get key :: rest => .value (s.contents.get? key) :: answers s d rest
  | .root :: rest => .root (Store.root s.contents) :: answers s d rest
  | .reopen :: rest =>
    match load d s.path with
    | .ok s => .done :: answers s d rest
    | .error e => [.shut e]

end FileStore

/-- A session in memory begins with nothing. -/
def Store.session (uses : List StoreUse) : List StoreAnswer := .done :: Store.answers ∅ uses

/-- A session on a file begins with opening it. -/
def FileStore.session (d : Disk) (path : Path) (uses : List StoreUse) : List StoreAnswer :=
  match FileStore.load d path with
  | .ok s => .done :: s.answers d uses
  | .error e => [.shut e]

/-- Any store could be written to the file of a path. -/
def Disk.CanKeep (d : Disk) (path : Path) : Prop :=
  ∀ contents : Store, (d.runSteps (FileStore.flushSteps ⟨path, contents⟩)).2 = none

variable {d d' : Disk} {path : Path} {c : Store}

/-! ### Paths of files -/

/-- A path that ends in a name, with no slash after it, is that of an entry of a directory. -/
theorem Path.exists_child_of_goal {name : String} (h : path.goal = .entry name false) :
    Path.IsName name ∧ ∃ p : Path, path = p.child name := by
  obtain ⟨pieces⟩ := path
  unfold Path.goal at h
  dsimp only at h
  rcases List.eq_nil_or_concat pieces with rfl | ⟨above, last, rfl⟩
  · cases h
  · rw [List.concat_eq_append] at h ⊢
    by_cases hlast : last = ""
    · -- A last piece that is empty stands behind a slash.
      subst hlast
      rw [List.getLast?_concat] at h
      split at h <;> simp at h
    · have hfilter : ((above ++ [last]).filter (· != "")).getLast? = some last := by
        simp [List.filter_append, hlast]
      rw [hfilter] at h
      split at h
      · cases h
      · cases h
      · cases h
      · next hdot hup heq =>
        cases heq
        obtain rfl : last = name := (Goal.entry.inj h).1
        have hblank : Path.isBlank last = false := by
          simp only [Path.isBlank, Bool.or_eq_false_iff, beq_eq_false_iff_ne]
          exact ⟨hlast, fun hd => hdot (by rw [hd])⟩
        refine ⟨⟨hblank, fun hu => hup (by rw [hu])⟩, ⟨above ++ [""]⟩, ?_⟩
        simp [Path.child]

theorem Disk.goal_of_rename {source : Path} (h : d.rename source path = .ok d') :
    ∃ name, path.goal = .entry name false := by
  unfold Disk.rename at h
  split at h
  · cases h
  · cases h
  · cases h
  · cases h
  · next above name slash above' name' slash' _ _ _ hgoal =>
    split at h
    · cases h
    · cases h
    · cases h
    · cases h
    · cases slash' with
      | true =>
        rw [Bool.or_true, if_pos rfl] at h
        cases h
      | false => exact ⟨name', hgoal⟩

/-- A store that could be written stands at the path of an entry of a directory, as the staging file
is moved there. -/
theorem FileStore.exists_child_of_runSteps (h : d.runSteps (flushSteps ⟨path, c⟩) = (d', none)) :
    ∃ p name, Path.IsName name ∧ path = Path.child p name := by
  rw [flushSteps, Disk.runSteps_cons] at h
  obtain ⟨d₁, -, h⟩ := h
  rw [Disk.runSteps_cons] at h
  obtain ⟨d₂, -, h⟩ := h
  rw [Disk.runSteps_cons] at h
  obtain ⟨d₃, hrename, -⟩ := h
  obtain ⟨name, hgoal⟩ := Disk.goal_of_rename (Disk.run_rename.1 hrename)
  obtain ⟨hname, p, hpath⟩ := Path.exists_child_of_goal hgoal
  exact ⟨p, name, hname, hpath⟩

/-! ### One use -/

namespace FileStore

/-- What is written to a file is the text of the store, and opening the file gives the store. Where
any store could be written, any store still can. -/
theorem load_of_runSteps (h : d.runSteps (flushSteps ⟨path, c⟩) = (d', none)) :
    d'.readText path = .ok c.toText ∧ load d' path = .ok ⟨path, c⟩
      ∧ (d.CanKeep path → d'.CanKeep path) := by
  obtain ⟨p, name, hname, rfl⟩ := exists_child_of_runSteps h
  obtain ⟨d₁, -, hfits, hafter⟩ := (runSteps_flushSteps hname).1 h
  have hread : d'.read (p.child name) = .ok (Bytes.ofText c.toText) := by
    rw [hafter]
    exact read_replaced hfits hname _
  have hkeep := (runSteps_flushSteps_spec hname h).2.2 name hname
  exact ⟨Disk.readText_of_read hread, load_of_read hread, hkeep⟩

/-- An insertion is refused, and then not every store can be written; or it is done, and opening the
file gives the store with the new binding. -/
theorem insert_or_refused (d : Disk) (path : Path) (c : Store) (key : String) (value : Bytes) :
    (∃ s d' e, insert ⟨path, c⟩ d key value = (s, d', .error e) ∧ ¬ d.CanKeep path)
      ∨ ∃ d', insert ⟨path, c⟩ d key value = (⟨path, c.insert key value⟩, d', .ok ())
        ∧ load d' path = .ok ⟨path, c.insert key value⟩
        ∧ (d.CanKeep path → d'.CanKeep path) := by
  unfold insert
  dsimp only
  rcases hsteps : d.runSteps (flushSteps ⟨path, c.insert key value⟩) with ⟨d', _ | e⟩
  · obtain ⟨-, hload, hkeep⟩ := load_of_runSteps hsteps
    exact Or.inr ⟨d', rfl, hload, hkeep⟩
  · refine Or.inl ⟨_, d', _, rfl, fun hkeep => ?_⟩
    have hnone := hkeep (c.insert key value)
    rw [hsteps] at hnone
    cases hnone

/-! ### Sessions -/

/-- No insertion was refused. -/
def NoneRefused (answers : List StoreAnswer) : Prop := ∀ cause, .refused cause ∉ answers

theorem NoneRefused.tail {answer : StoreAnswer} {rest : List StoreAnswer}
    (h : NoneRefused (answer :: rest)) : NoneRefused rest :=
  fun cause hmem => h cause (List.mem_cons_of_mem _ hmem)

/-- From any point of a session on where opening the file would give the store that is open, the
answers are those in memory, if no insertion is refused or if any store can be written. -/
theorem answers_eq {uses : List StoreUse} (hload : load d path = .ok ⟨path, c⟩)
    (hgood : NoneRefused (answers ⟨path, c⟩ d uses) ∨ d.CanKeep path) :
    answers ⟨path, c⟩ d uses = Store.answers c uses := by
  induction uses generalizing c d with
  | nil => rfl
  | cons use rest ih =>
    cases use with
    | insert key value =>
      rw [answers] at hgood ⊢
      rcases insert_or_refused d path c key value with
        ⟨s, d', e, hinsert, hnot⟩ | ⟨d', hinsert, hload', hkeep⟩
      · -- A refusal would be among the answers.
        rw [hinsert] at hgood
        rcases hgood with hdone | hkeep
        · exact absurd List.mem_cons_self (hdone e)
        · exact absurd hkeep hnot
      · rw [hinsert] at hgood ⊢
        have hrest := ih hload' (hgood.imp NoneRefused.tail hkeep)
        exact congrArg (StoreAnswer.done :: ·) hrest
    | get key =>
      rw [answers] at hgood ⊢
      have hrest := ih hload (hgood.imp_left NoneRefused.tail)
      exact congrArg (StoreAnswer.value (c.get? key) :: ·) hrest
    | root =>
      rw [answers] at hgood ⊢
      have hrest := ih hload (hgood.imp_left NoneRefused.tail)
      exact congrArg (StoreAnswer.root (Store.root c) :: ·) hrest
    | reopen =>
      -- The store that is opened is the one that was open.
      simp only [answers, hload] at hgood ⊢
      have hrest := ih hload (hgood.imp_left NoneRefused.tail)
      exact congrArg (StoreAnswer.done :: ·) hrest

/-- **A store kept in a file answers like a store in memory.** Let a session begin at a path where
there is nothing yet. If no insertion is refused, then all answers are those of a store in memory
that has the same insertions and is never closed; and none is refused if the file can be written to
begin with. Whenever a store has been written to the file, the file holds its text, and both the text
and the file are read as that store. -/
theorem session_on_file_is_session_in_memory (d : Disk) (path : Path)
    (hfresh : d.contains path = false) (uses : List StoreUse) :
    (NoneRefused (session d path uses) → session d path uses = Store.session uses)
      ∧ (d.CanKeep path → session d path uses = Store.session uses)
      ∧ ∀ (contents : Store) (d₁ d₂ : Disk),
        d₁.runSteps (flushSteps ⟨path, contents⟩) = (d₂, none) →
          d₂.readText path = .ok contents.toText
            ∧ Store.ofText path.text contents.toText = .ok contents
            ∧ load d₂ path = .ok ⟨path, contents⟩ := by
  have hload : load d path = .ok ⟨path, ∅⟩ := by
    rw [load, hfresh]
    rfl
  have hsession : session d path uses = .done :: answers ⟨path, ∅⟩ d uses := by
    rw [session, hload]
  rw [hsession, Store.session]
  refine ⟨fun h => ?_, fun h => ?_, fun contents d₁ d₂ hwrite => ?_⟩
  · rw [answers_eq hload (Or.inl h.tail)]
  · rw [answers_eq hload (Or.inr h)]
  · obtain ⟨htext, hopen, -⟩ := load_of_runSteps hwrite
    exact ⟨htext, Store.ofText_toText _ _, hopen⟩

/-- A key with a quote, a line break, a control character and characters of two and of four bytes is
bound twice and looked up after the store has been opened again. -/
theorem escaped_key_is_found_again :
    let path : Path := (Path.single "state").child "s.json"
    let key := "a\"\n\x01é😀"
    let uses : List StoreUse :=
      [.insert key [1], .reopen, .insert key [0xde, 0xad], .reopen, .reopen, .get key, .root]
    ({} : Disk).contains path = false ∧ ({} : Disk).CanKeep path
      ∧ session {} path uses = Store.session uses
      ∧ (session {} path uses)[6]? = some (.value (some [0xde, 0xad])) := by
  intro path key uses
  have hkeep : ({} : Disk).CanKeep path :=
    Disk.writable_single ⟨by decide, by decide, by decide⟩ ⟨by decide, by decide, by decide⟩
      ⟨by decide, by decide, by decide⟩ rfl fun _ => rfl
  have hfresh : ({} : Disk).contains path = false := by decide
  have hsame := (session_on_file_is_session_in_memory {} path hfresh uses).2.1 hkeep
  refine ⟨hfresh, hkeep, hsame, ?_⟩
  rw [hsame]
  decide +kernel

end FileStore

end Covenant
