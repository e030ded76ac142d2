import Covenant.Compile

/-!
# Tables from lists

What a look-up finds in a table that was filled from a list of pairs, and that a table is filled
again from its own entries. The function table of a compiled contract is such a table, with the
positions of the functions as keys.
-/

namespace Covenant

namespace Table

variable {κ α : Type} [Ord κ] [Std.TransOrd κ] [Std.LawfulEqOrd κ] [DecidableEq κ]

omit [Std.TransOrd κ] in
/-- A pair in front answers the look-up of its own key and no other. -/
theorem lookup_cons (key k : κ) (value : α) (rest : List (κ × α)) :
    lookup k ((key, value) :: rest) = if k = key then some value else lookup k rest := by
  by_cases hk : k = key
  · subst hk
    simp [lookup, Std.ReflOrd.compare_self]
  · have hne : compare k key ≠ .eq := fun h => hk (Std.LawfulEqOrd.eq_of_compare h)
    simp [lookup, hk, hne]

omit [Std.TransOrd κ] in
/-- A key that no pair has is not found. -/
theorem lookup_eq_none_of_notMem {k : κ} {pairs : List (κ × α)} (h : k ∉ pairs.map Prod.fst) :
    lookup k pairs = none := by
  induction pairs with
  | nil => rfl
  | cons pair rest ih =>
    obtain ⟨key, value⟩ := pair
    simp only [List.map_cons, List.mem_cons, not_or] at h
    rw [lookup_cons, if_neg h.1, ih h.2]

omit [Std.TransOrd κ] in
/-- What is found is in the list. -/
theorem mem_of_lookup {k : κ} {value : α} {pairs : List (κ × α)} (h : lookup k pairs = some value) :
    (k, value) ∈ pairs := by
  induction pairs with
  | nil => cases h
  | cons pair rest ih =>
    obtain ⟨key, other⟩ := pair
    rw [lookup_cons] at h
    split at h
    · next hk =>
      cases h
      rw [hk]
      exact List.mem_cons_self
    · exact List.mem_cons_of_mem _ (ih h)

/-- Pairs with keys of their own, inserted in turn, answer before the table they are inserted in. -/
theorem get?_foldl_insert {pairs : List (κ × α)} (h : (pairs.map Prod.fst).Nodup) (t : Table κ α)
    (k : κ) :
    (pairs.foldl (fun t (key, value) => t.insert key value) t).get? k
      = (lookup k pairs).or (t.get? k) := by
  induction pairs generalizing t with
  | nil => simp [lookup]
  | cons pair rest ih =>
    obtain ⟨key, value⟩ := pair
    rw [List.map_cons, List.nodup_cons] at h
    rw [List.foldl_cons, ih h.2, get?_insert, lookup_cons]
    by_cases hk : k = key
    · subst hk
      rw [if_pos rfl, if_pos rfl, lookup_eq_none_of_notMem h.1]
      rfl
    · rw [if_neg hk, if_neg hk]

/-- A table filled from pairs with keys of their own finds what the list of pairs holds. -/
theorem get?_ofList {pairs : List (κ × α)} (h : (pairs.map Prod.fst).Nodup) (k : κ) :
    (ofList pairs).get? k = lookup k pairs := by
  rw [ofList, get?_foldl_insert h]
  exact Option.or_none

omit [Std.TransOrd κ] [DecidableEq κ] in
/-- The keys of a table are all different. -/
theorem nodup_keys (t : Table κ α) : (t.entries.map Prod.fst).Nodup := by
  refine t.sorted.imp fun {a b} hlt heq => ?_
  subst heq
  rw [Std.ReflOrd.compare_self] at hlt
  contradiction

/-- Filling a table from the entries of another gives that table again. -/
theorem ofList_entries (t : Table κ α) : ofList t.entries = t :=
  ext_get? fun key => get?_ofList t.nodup_keys key

omit [DecidableEq κ] in
/-- A key that was not bound makes a table one entry larger. -/
theorem size_insert_of_get?_eq_none {t : Table κ α} {key : κ} (h : t.get? key = none) (value : α) :
    (t.insert key value).size = t.size + 1 := by
  have hentries : ∀ entries : List (κ × α), lookup key entries = none →
      (insertEntry key value entries).length = entries.length + 1 := by
    intro entries habsent
    induction entries with
    | nil => rfl
    | cons entry rest ih =>
      obtain ⟨k, v⟩ := entry
      rw [lookup] at habsent
      rw [insertEntry]
      split
      · rfl
      · -- The key would be bound by this entry.
        next heq =>
        rw [if_pos heq] at habsent
        cases habsent
      · next hgt =>
        rw [if_neg (by rw [hgt]; decide)] at habsent
        rw [List.length_cons, ih habsent, List.length_cons]
  exact hentries t.entries h

omit [Std.TransOrd κ] in
/-- A key that is forgotten is not found, and all others are as before. -/
theorem get?_erase (t : Table κ α) (key k : κ) :
    (t.erase key).get? k = if k = key then none else t.get? k := by
  show lookup k (t.entries.filter fun entry => compare entry.1 key != .eq)
    = if k = key then none else lookup k t.entries
  induction t.entries with
  | nil => simp [lookup]
  | cons entry rest ih =>
    obtain ⟨other, value⟩ := entry
    by_cases hother : other = key
    · subst hother
      simp only [List.filter_cons, Std.ReflOrd.compare_self, bne_self_eq_false, Bool.false_eq_true,
        if_false, ih, lookup_cons]
      split <;> rfl
    · have hne : compare other key ≠ .eq := fun h => hother (Std.LawfulEqOrd.eq_of_compare h)
      simp only [List.filter_cons, bne_iff_ne, ne_eq, hne, not_false_eq_true, if_true, lookup_cons,
        ih]
      by_cases hk : k = other
      · subst hk
        simp [hother]
      · simp [hk]

end Table

namespace FunctionCode

/-- Code lists zipped with consecutive numbers are found under their positions. -/
theorem lookup_zip_range' (codes : List FunctionCode) (first i : Nat) :
    Table.lookup (first + i) ((List.range' first codes.length).zip codes) = codes[i]? := by
  induction codes generalizing first i with
  | nil => simp [Table.lookup]
  | cons code rest ih =>
    rw [List.length_cons, List.range'_succ, List.zip_cons_cons, Table.lookup_cons]
    cases i with
    | zero => simp
    | succ i =>
      rw [if_neg (by omega), show first + (i + 1) = first + 1 + i by omega, ih]
      rfl

/-- The function table has the functions under their positions and nothing else. -/
theorem get?_table (codes : List FunctionCode) (i : Nat) : (table codes).get? i = codes[i]? := by
  have hkeys : (((List.range codes.length).zip codes).map Prod.fst).Nodup := by
    rw [List.map_fst_zip (by simp)]
    exact List.nodup_range
  have hlookup := lookup_zip_range' codes 0 i
  rw [Nat.zero_add, ← List.range_eq_range'] at hlookup
  rw [table, Table.get?_ofList hkeys, hlookup]

end FunctionCode

end Covenant
