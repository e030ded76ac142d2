/-!
# Tables

A table binds keys to values and keeps its entries in strictly increasing order of key. The order
makes the representation canonical: two tables that bind the same keys to the same values are the
same table, whatever the insertions that built them.

* `Table.insert` binds a key, replacing an earlier binding.
* `Table.get?` looks a key up; `get?_insert` says what an insertion does to every look-up.
* `Table.ext_get?` is extensionality: equal look-ups make equal tables.
-/

namespace Covenant

/-- A finite map with its entries in strictly increasing order of key. -/
structure Table (κ : Type) (α : Type) [Ord κ] where
  entries : List (κ × α)
  sorted : (entries.map Prod.fst).Pairwise fun a b => compare a b = .lt

namespace Table

variable {κ α β : Type} [Ord κ]

/-- The table that binds nothing. -/
def empty : Table κ α := ⟨[], .nil⟩

instance : Inhabited (Table κ α) := ⟨empty⟩

instance : EmptyCollection (Table κ α) := ⟨empty⟩

/-- Binds `key` in a list of entries sorted by key. -/
def insertEntry (key : κ) (value : α) : List (κ × α) → List (κ × α)
  | [] => [(key, value)]
  | (k, v) :: rest =>
    match compare key k with
    | .lt => (key, value) :: (k, v) :: rest
    | .eq => (key, value) :: rest
    | .gt => (k, v) :: insertEntry key value rest

/-- Looks `key` up in a list of entries. -/
def lookup (key : κ) : List (κ × α) → Option α
  | [] => none
  | (k, v) :: rest => if compare key k = .eq then some v else lookup key rest

/-- The value bound to a key. -/
def get? (t : Table κ α) (key : κ) : Option α := lookup key t.entries

/-- The number of keys bound. -/
def size (t : Table κ α) : Nat := t.entries.length

/-- Whether no key is bound. -/
def isEmpty (t : Table κ α) : Bool := t.entries.isEmpty

/-- The bound keys, in increasing order. -/
def keys (t : Table κ α) : List κ := t.entries.map Prod.fst

/-- The bound values, in the order of their keys. -/
def values (t : Table κ α) : List α := t.entries.map Prod.snd

theorem mem_insertEntry {key : κ} {value : α} {entries : List (κ × α)} {k : κ}
    (h : k ∈ (insertEntry key value entries).map Prod.fst) :
    k = key ∨ k ∈ entries.map Prod.fst := by
  induction entries with
  | nil => simpa [insertEntry] using h
  | cons entry rest ih =>
    obtain ⟨k', v'⟩ := entry
    simp only [insertEntry] at h
    split at h
    · simpa using h
    · simp only [List.map_cons, List.mem_cons] at h ⊢
      rcases h with h | h
      · exact .inl h
      · exact .inr (.inr h)
    · simp only [List.map_cons, List.mem_cons] at h ⊢
      rcases h with h | h
      · exact .inr (.inl h)
      · rcases ih h with h | h
        · exact .inl h
        · exact .inr (.inr h)

section Lawful

variable [Std.TransOrd κ] [Std.LawfulEqOrd κ]

/-- An insertion keeps the keys in order. -/
theorem pairwise_insertEntry {key : κ} {value : α} {entries : List (κ × α)}
    (h : (entries.map Prod.fst).Pairwise fun a b => compare a b = .lt) :
    ((insertEntry key value entries).map Prod.fst).Pairwise fun a b => compare a b = .lt := by
  induction entries with
  | nil => simp [insertEntry]
  | cons entry rest ih =>
    obtain ⟨k', v'⟩ := entry
    simp only [List.map_cons, List.pairwise_cons] at h
    obtain ⟨below, tail⟩ := h
    simp only [insertEntry]
    split
    · next hlt =>
      simp only [List.map_cons, List.pairwise_cons, List.mem_cons]
      refine ⟨?_, below, tail⟩
      rintro a (rfl | ha)
      · exact hlt
      · exact Std.TransCmp.lt_trans hlt (below a ha)
    · next heq =>
      obtain rfl := Std.LawfulEqOrd.eq_of_compare heq
      simp only [List.map_cons, List.pairwise_cons]
      exact ⟨below, tail⟩
    · next hgt =>
      simp only [List.map_cons, List.pairwise_cons]
      refine ⟨fun a ha => ?_, ih tail⟩
      rcases mem_insertEntry ha with rfl | ha
      · exact Std.OrientedCmp.gt_iff_lt.1 hgt
      · exact below a ha

/-- Binds `key` to `value`, replacing what was bound to it before. -/
def insert (t : Table κ α) (key : κ) (value : α) : Table κ α :=
  ⟨insertEntry key value t.entries, pairwise_insertEntry t.sorted⟩

/-- Inserts pairs in turn, so that of several with one key the last one counts. -/
def ofList (pairs : List (κ × α)) : Table κ α :=
  pairs.foldl (fun t (key, value) => t.insert key value) empty

end Lawful

/-- Applies a function to every value, keeping the keys. -/
def map (f : α → β) (t : Table κ α) : Table κ β :=
  ⟨t.entries.map fun (key, value) => (key, f value), by
    have := t.sorted
    simpa [List.map_map, Function.comp_def] using this⟩

/-- Forgets a key. -/
def erase (t : Table κ α) (key : κ) : Table κ α :=
  ⟨t.entries.filter fun entry => compare entry.1 key != .eq,
   t.sorted.sublist (List.filter_sublist.map Prod.fst)⟩

/-- Applies a function that may fail to every value of a list of entries, from the left. -/
def traverseEntries {ε : Type} (f : α → Except ε β) : List (κ × α) → Except ε (List (κ × β))
  | [] => .ok []
  | (key, value) :: rest =>
    match f value with
    | .error e => .error e
    | .ok value => (traverseEntries f rest).map ((key, value) :: ·)

omit [Ord κ] in
theorem keys_traverseEntries {ε : Type} {f : α → Except ε β} {xs : List (κ × α)}
    {ys : List (κ × β)} (h : traverseEntries f xs = .ok ys) :
    ys.map Prod.fst = xs.map Prod.fst := by
  induction xs generalizing ys with
  | nil => cases h; rfl
  | cons x xs ih =>
    simp only [traverseEntries] at h
    split at h
    · cases h
    · cases hrest : traverseEntries f xs with
      | error e => rw [hrest] at h; cases h
      | ok zs =>
        rw [hrest] at h
        cases h
        simp [ih hrest]

/-- Applies a function that may fail to every value, in the order of the keys. -/
def traverse {ε : Type} (f : α → Except ε β) (t : Table κ α) : Except ε (Table κ β) :=
  match h : traverseEntries f t.entries with
  | .error e => .error e
  | .ok entries => .ok ⟨entries, keys_traverseEntries h ▸ t.sorted⟩

/-! ### Look-ups -/

/-- An inserted key is bound to its value, and any other to what it was bound to. -/
theorem lookup_insertEntry [Std.LawfulEqOrd κ] [DecidableEq κ] (key k : κ) (value : α) (entries : List (κ × α)) :
    lookup k (insertEntry key value entries)
      = if k = key then some value else lookup k entries := by
  induction entries with
  | nil =>
    by_cases hk : k = key
    · subst hk; simp [insertEntry, lookup, Std.ReflOrd.compare_self]
    · have : compare k key ≠ .eq := fun h => hk (Std.LawfulEqOrd.eq_of_compare h)
      simp [insertEntry, lookup, hk, this]
  | cons entry rest ih =>
    obtain ⟨k', v'⟩ := entry
    by_cases hk : k = key
    · subst hk
      simp only [insertEntry]
      split <;> simp_all [lookup, Std.ReflOrd.compare_self]
    · have hne : compare k key ≠ .eq := fun h => hk (Std.LawfulEqOrd.eq_of_compare h)
      simp only [insertEntry]
      split
      · simp [lookup, hk, hne]
      · next heq =>
        obtain rfl := Std.LawfulEqOrd.eq_of_compare heq
        simp [lookup, hk, hne]
      · simp [lookup, hk, ih]

/-- An insertion changes the look-up of its own key and of no other. -/
theorem get?_insert [Std.TransOrd κ] [Std.LawfulEqOrd κ] [DecidableEq κ] (t : Table κ α) (key k : κ) (value : α) :
    (t.insert key value).get? k = if k = key then some value else t.get? k :=
  lookup_insertEntry key k value t.entries

/-- A key before all others is not bound. -/
theorem lookup_eq_none_of_lt {key : κ} {entries : List (κ × α)}
    (h : ∀ k ∈ entries.map Prod.fst, compare key k = .lt) : lookup key entries = none := by
  induction entries with
  | nil => rfl
  | cons entry rest ih =>
    obtain ⟨k', v'⟩ := entry
    have hne : compare key k' ≠ .eq := by
      rw [h k' (by simp)]; simp
    simp only [lookup, hne, if_false]
    exact ih fun k hk => h k (by simp [hk])

/-- Entries in the order of their keys are determined by what is looked up. The first key of the one
list is the first of the other. -/
theorem entries_eq_of_lookup_eq [Std.TransOrd κ] [Std.LawfulEqOrd κ] {xs ys : List (κ × α)}
    (hx : (xs.map Prod.fst).Pairwise fun a b => compare a b = .lt)
    (hy : (ys.map Prod.fst).Pairwise fun a b => compare a b = .lt)
    (h : ∀ key, lookup key xs = lookup key ys) : xs = ys := by
  induction xs generalizing ys with
  | nil =>
    cases ys with
    | nil => rfl
    | cons entry rest =>
      have := h entry.1
      simp [lookup, Std.ReflOrd.compare_self] at this
  | cons x xs ih =>
    cases ys with
    | nil =>
      have := h x.1
      simp [lookup, Std.ReflOrd.compare_self] at this
    | cons y ys =>
      obtain ⟨kx, vx⟩ := x
      obtain ⟨ky, vy⟩ := y
      simp only [List.map_cons, List.pairwise_cons] at hx hy
      have hkey : kx = ky := by
        cases hc : compare kx ky with
        | eq => exact Std.LawfulEqOrd.eq_of_compare hc
        | lt =>
          have hnone : lookup kx ((ky, vy) :: ys) = none := by
            refine lookup_eq_none_of_lt fun k hk => ?_
            simp only [List.map_cons, List.mem_cons] at hk
            rcases hk with rfl | hk
            · exact hc
            · exact Std.TransCmp.lt_trans hc (hy.1 k hk)
          have := h kx
          rw [hnone] at this
          simp [lookup, Std.ReflOrd.compare_self] at this
        | gt =>
          have hlt : compare ky kx = .lt := Std.OrientedCmp.gt_iff_lt.1 hc
          have hnone : lookup ky ((kx, vx) :: xs) = none := by
            refine lookup_eq_none_of_lt fun k hk => ?_
            simp only [List.map_cons, List.mem_cons] at hk
            rcases hk with rfl | hk
            · exact hlt
            · exact Std.TransCmp.lt_trans hlt (hx.1 k hk)
          have := h ky
          rw [hnone] at this
          simp [lookup, Std.ReflOrd.compare_self] at this
      subst hkey
      have hvalue : vx = vy := by
        have := h kx
        simpa [lookup, Std.ReflOrd.compare_self] using this
      subst hvalue
      have hrest : xs = ys := by
        refine ih hx.2 hy.2 fun key => ?_
        have hkey := h key
        simp only [lookup] at hkey
        by_cases hc : compare key kx = .eq
        · obtain rfl := Std.LawfulEqOrd.eq_of_compare hc
          rw [lookup_eq_none_of_lt hx.1, lookup_eq_none_of_lt hy.1]
        · simpa [hc] using hkey
      rw [hrest]

/-- Tables are equal when all their look-ups are. -/
theorem ext_get? [Std.TransOrd κ] [Std.LawfulEqOrd κ] {s t : Table κ α}
    (h : ∀ key, s.get? key = t.get? key) : s = t := by
  obtain ⟨xs, hx⟩ := s
  obtain ⟨ys, hy⟩ := t
  obtain rfl := entries_eq_of_lookup_eq hx hy h
  rfl

instance [DecidableEq κ] [DecidableEq α] : DecidableEq (Table κ α) := fun s t =>
  if h : s.entries = t.entries then
    .isTrue (by cases s; cases t; simp_all)
  else .isFalse fun heq => h (heq ▸ rfl)

end Table

end Covenant
