import Covenant.Proofs.Store

/-!
# The root of a store

The root is the digest of an image: every key and every value after its length, in the order of the
keys. A length has eight bytes, so it says where a byte string of less than 2^64 bytes ends,
whatever bytes follow, and the image can be taken apart again from the left. Together with the order
of the keys, which a table fixes, the image determines the contents.

* `Store.sized_append_inj` takes one byte string off an image, `Store.flatMap_entryImage_inj` all
  entries.
* `Store.finalValue` is what a key is bound to after insertions, said without a table.
* `Store.Filled` are the contents after insertions, of a store in memory or in a file.
-/

namespace Covenant

namespace Store

/-! ### Images -/

/-- A byte string whose length fits in eight bytes. -/
def Short (bytes : Bytes) : Prop := bytes.length < 2 ^ 64

/-- A key and a value of which both are short. -/
def ShortEntry (entry : String × Bytes) : Prop :=
  Short (Bytes.ofText entry.1) ∧ Short entry.2

instance (bytes : Bytes) : Decidable (Short bytes) :=
  inferInstanceAs (Decidable (bytes.length < 2 ^ 64))

instance (entry : String × Bytes) : Decidable (ShortEntry entry) :=
  inferInstanceAs (Decidable (Short _ ∧ Short _))

/-- The eight bytes of a length tell short lengths apart. -/
theorem bigEndian_inj {m n : Nat} (hm : m < 2 ^ 64) (hn : n < 2 ^ 64)
    (h : Bytes.bigEndian 8 m = Bytes.bigEndian 8 n) : m = n := by
  have hvalue := congrArg Bytes.toNat h
  rw [Bytes.toNat_bigEndian, Bytes.toNat_bigEndian] at hvalue
  omega

/-- A byte string behind its length ends where the length says, whatever comes after it. -/
theorem sized_append_inj {a b x y : Bytes} (ha : Short a) (hb : Short b)
    (h : sized a ++ x = sized b ++ y) : a = b ∧ x = y := by
  simp only [sized, List.append_assoc] at h
  obtain ⟨hlengths, hrest⟩ := List.append_inj h (by simp)
  exact List.append_inj hrest (bigEndian_inj ha hb hlengths)

/-- Texts are told apart by their bytes. -/
theorem ofText_inj {a b : String} (h : Bytes.ofText a = Bytes.ofText b) : a = b := by
  have htext := congrArg Bytes.toText? h
  rw [Bytes.toText?_ofText, Bytes.toText?_ofText] at htext
  exact Option.some.inj htext

/-- An entry is a key and a value, each of which can be taken off the front. -/
theorem entryImage_append_inj {p q : String × Bytes} {x y : Bytes} (hp : ShortEntry p)
    (hq : ShortEntry q) (h : entryImage p ++ x = entryImage q ++ y) : p = q ∧ x = y := by
  simp only [entryImage, List.append_assoc] at h
  obtain ⟨hkey, h⟩ := sized_append_inj hp.1 hq.1 h
  obtain ⟨hvalue, hrest⟩ := sized_append_inj hp.2 hq.2 h
  exact ⟨Prod.ext (ofText_inj hkey) hvalue, hrest⟩

/-- No entry leaves no trace: the lengths alone are sixteen bytes. -/
theorem entryImage_append_ne_nil (p : String × Bytes) (x : Bytes) : entryImage p ++ x ≠ [] := by
  intro h
  have hlength := congrArg List.length h
  simp [entryImage, sized] at hlength

/-- Lists of entries that are written alike are the same list. -/
theorem flatMap_entryImage_inj {ps qs : List (String × Bytes)} (hps : ∀ p ∈ ps, ShortEntry p)
    (hqs : ∀ q ∈ qs, ShortEntry q) (h : ps.flatMap entryImage = qs.flatMap entryImage) :
    ps = qs := by
  -- From the left: an entry is taken off both images at once.
  induction ps generalizing qs with
  | nil =>
    cases qs with
    | nil => rfl
    | cons q qs => exact absurd h.symm (entryImage_append_ne_nil q _)
  | cons p ps ih =>
    cases qs with
    | nil => exact absurd h (entryImage_append_ne_nil p _)
    | cons q qs =>
      rw [List.forall_mem_cons] at hps hqs
      rw [List.flatMap_cons, List.flatMap_cons] at h
      obtain ⟨rfl, hrest⟩ := entryImage_append_inj hps.1 hqs.1 h
      rw [ih hps.2 hqs.2 hrest]

/-! ### Contents after insertions -/

/-- What a key is bound to after pairs were inserted in turn: the value inserted last. -/
def finalValue (pairs : List (String × Bytes)) (key : String) : Option Bytes :=
  (pairs.reverse.find? fun pair => pair.1 == key).map Prod.snd

/-- The last insertion decides about its key, and about no other. -/
theorem finalValue_concat (pairs : List (String × Bytes)) (key k : String) (value : Bytes) :
    finalValue (pairs ++ [(key, value)]) k
      = if k = key then some value else finalValue pairs k := by
  by_cases hk : k = key
  · simp [finalValue, hk]
  · have hne : (key == k) = false := beq_false_of_ne fun h => hk h.symm
    simp [finalValue, hk, hne]

theorem ofList_concat (pairs : List (String × Bytes)) (key : String) (value : Bytes) :
    (Table.ofList (pairs ++ [(key, value)]) : Store) = (Table.ofList pairs).insert key value := by
  simp [Table.ofList]

/-- A table holds what was inserted last. -/
theorem get?_ofList_eq_finalValue (pairs : List (String × Bytes)) (key : String) :
    (Table.ofList pairs : Store).get? key = finalValue pairs key := by
  -- From the right, as the last insertion decides.
  induction pairs using List.reverseRecOn with
  | nil => rfl
  | append_singleton pairs pair ih =>
    obtain ⟨k, value⟩ := pair
    rw [ofList_concat, Table.get?_insert, finalValue_concat, ih]

/-- An insertion adds no entry but its own. -/
theorem mem_of_mem_insertEntry {key : String} {value : Bytes} {entries : List (String × Bytes)}
    {entry : String × Bytes} (h : entry ∈ Table.insertEntry key value entries) :
    entry = (key, value) ∨ entry ∈ entries := by
  induction entries with
  | nil => exact Or.inl (List.mem_singleton.1 h)
  | cons first rest ih =>
    obtain ⟨k, v⟩ := first
    rw [Table.insertEntry] at h
    -- The entry is put in front, replaces the first, or goes in further behind.
    cases hc : compare key k with
    | lt =>
      rw [hc] at h
      exact List.mem_cons.1 h
    | eq =>
      rw [hc] at h
      exact (List.mem_cons.1 h).imp_right (List.mem_cons_of_mem _)
    | gt =>
      rw [hc] at h
      rcases List.mem_cons.1 h with rfl | h
      · exact Or.inr List.mem_cons_self
      · exact (ih h).imp_right (List.mem_cons_of_mem _)

/-- A store holds nothing but what was inserted. -/
theorem mem_of_mem_ofList {pairs : List (String × Bytes)} {entry : String × Bytes}
    (h : entry ∈ (Table.ofList pairs : Store).entries) : entry ∈ pairs := by
  induction pairs using List.reverseRecOn with
  | nil => exact h
  | append_singleton pairs pair ih =>
    obtain ⟨key, value⟩ := pair
    rw [ofList_concat] at h
    rcases mem_of_mem_insertEntry h with rfl | h
    · exact List.mem_append_right _ List.mem_cons_self
    · exact List.mem_append_left _ (ih h)

end Store

/-- A store in a file after pairs were inserted in turn, and the disk then. An insertion that the
disk refuses counts for the store all the same. -/
def FileStore.insertAll (s : FileStore) (d : Disk) : List (String × Bytes) → FileStore × Disk
  | [] => (s, d)
  | (key, value) :: rest =>
    let after := s.insert d key value
    FileStore.insertAll after.1 after.2.1 rest

/-- An insertion is in memory, whether it comes to the disk or not. -/
theorem FileStore.contents_insert (s : FileStore) (d : Disk) (key : String) (value : Bytes) :
    (s.insert d key value).1.contents = s.contents.insert key value := by
  unfold FileStore.insert
  dsimp only
  rcases d.runSteps _ with ⟨d', _ | e⟩
  · rfl
  · rfl

/-- Insertions in turn are all in memory, whether they come to the disk or not. -/
theorem FileStore.contents_insertAll (s : FileStore) (d : Disk) (pairs : List (String × Bytes)) :
    (s.insertAll d pairs).1.contents
      = pairs.foldl (fun t (key, value) => t.insert key value) s.contents := by
  induction pairs generalizing s d with
  | nil => rfl
  | cons pair rest ih =>
    obtain ⟨key, value⟩ := pair
    rw [insertAll, ih, contents_insert]
    rfl

namespace Store

/-- The contents of a store that began empty and had pairs inserted in turn. -/
inductive Filled (pairs : List (String × Bytes)) : Store → Prop
  | memory : Filled pairs (Table.ofList pairs)
  | file (d : Disk) (path : Path) : Filled pairs (FileStore.insertAll ⟨path, ∅⟩ d pairs).1.contents

/-- The contents are the same in memory and in a file. -/
theorem Filled.eq_ofList {pairs : List (String × Bytes)} {s : Store} (h : Filled pairs s) :
    s = Table.ofList pairs := by
  cases h with
  | memory => rfl
  | file d path => exact FileStore.contents_insertAll _ d pairs

/-- **The root identifies the contents.** Let two stores, each in memory or in a file, begin empty
and have short keys and values inserted. The byte strings that are hashed for their roots are equal
exactly if the stores are, that is, if the value inserted last is the same for every key. So the
roots are equal whenever these values are, in whatever order they came and whatever they replaced;
and unless the digest of the two byte strings collides, equal roots mean equal contents. -/
theorem root_identifies_contents {ps qs : List (String × Bytes)} {s t : Store} (hs : Filled ps s)
    (ht : Filled qs t) (hps : ∀ p ∈ ps, ShortEntry p) (hqs : ∀ q ∈ qs, ShortEntry q) :
    (s.image = t.image ↔ s = t)
      ∧ (s = t ↔ ∀ key, finalValue ps key = finalValue qs key)
      ∧ ((∀ key, finalValue ps key = finalValue qs key) → root s = root t)
      ∧ ((sha256 s.image = sha256 t.image → s.image = t.image) → root s = root t → s = t) := by
  obtain rfl := hs.eq_ofList
  obtain rfl := ht.eq_ofList
  -- The image is taken apart into entries, and these are short as they were inserted.
  have himage : image (Table.ofList ps) = image (Table.ofList qs)
      ↔ (Table.ofList ps : Store) = Table.ofList qs := by
    refine ⟨fun h => ?_, fun h => by rw [h]⟩
    have hentries := flatMap_entryImage_inj (fun p hp => hps p (mem_of_mem_ofList hp))
      (fun q hq => hqs q (mem_of_mem_ofList hq)) h
    exact Table.ext_get? fun key => congrArg (Table.lookup key) hentries
  -- A table is determined by what it answers.
  have hfinal : (Table.ofList ps : Store) = Table.ofList qs
      ↔ ∀ key, finalValue ps key = finalValue qs key := by
    simp only [← get?_ofList_eq_finalValue]
    exact ⟨fun h key => by rw [h], Table.ext_get?⟩
  exact ⟨himage, hfinal, fun h => congrArg root (hfinal.2 h), fun hfree h => himage.1 (hfree h)⟩

/-- A byte that goes over from a key to its value is seen in what is hashed, while a value that was
overwritten and the order of the others are not. -/
theorem image_tells_key_from_value :
    let joined : List (String × Bytes) := [("ab", [0x63])]
    let shifted : List (String × Bytes) := [("a", [0x62, 0x63])]
    let detour : List (String × Bytes) := [("b", [9]), ("a", [0x62, 0x63]), ("b", [7])]
    let direct : List (String × Bytes) := [("b", [7]), ("a", [0x62, 0x63])]
    ((∀ p ∈ joined, ShortEntry p) ∧ (∀ p ∈ shifted, ShortEntry p)
        ∧ image (Table.ofList joined) ≠ image (Table.ofList shifted))
      ∧ (∀ p ∈ detour, ShortEntry p) ∧ (∀ p ∈ direct, ShortEntry p)
        ∧ root (Table.ofList detour)
          = root (FileStore.insertAll ⟨Path.single "s.json", ∅⟩ {} direct).1.contents := by
  intro joined shifted detour direct
  have hjoined : ∀ p ∈ joined, ShortEntry p := by decide
  have hshifted : ∀ p ∈ shifted, ShortEntry p := by decide
  have hdetour : ∀ p ∈ detour, ShortEntry p := by decide
  have hdirect : ∀ p ∈ direct, ShortEntry p := by decide
  refine ⟨⟨hjoined, hshifted, fun h => ?_⟩, hdetour, hdirect, ?_⟩
  · have hsame := (root_identifies_contents .memory .memory hjoined hshifted).1.1 h
    exact absurd hsame (by decide)
  · obtain ⟨-, hfinal, hroot, -⟩ :=
      root_identifies_contents .memory (.file {} (.single "s.json")) hdetour hdirect
    exact hroot (hfinal.1 (by decide +kernel))

end Store

end Covenant
