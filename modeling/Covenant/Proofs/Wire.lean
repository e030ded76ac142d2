import Covenant.Proofs.Word
import Covenant.Wire
import Mathlib.Algebra.Group.Nat.Defs

/-!
# Readers of the binary form

Every writer of the binary form has a reader that takes back exactly what was written, and that
notices when what was written is cut off. Both facts are one predicate here, `Decodes`, and it is
closed under the ways readers are put together, so that a reader of records decodes what a writer of
records wrote for no other reason than that its parts do.

* `Decodes.bind` joins two readers; the input may be cut inside the first part, between the parts or
  inside the second.
* `decodes_varint`, `decodes_text`, `decodes_word`, `decodes_option` and `decodes_list` are the
  readers of the single forms.

A number of more than 64 bits is written but not read, so for lists of any length there is less to
say: what is read, if anything is, is what was written. That is `Exact`.
-/

namespace Covenant

namespace Wire

open Covenant.Wire.Reader

variable {α β : Type}

/-- A reader decodes a byte string to a value: it takes these bytes off the front of any input, and
it runs out of input on every part of them that is cut off at the end. -/
structure Decodes (reader : Reader α) (bytes : Bytes) (value : α) : Prop where
  read : ∀ rest, reader (bytes ++ rest) = .ok (value, rest)
  cut : ∀ front back, bytes = front ++ back → back ≠ [] → reader front = .error .endOfInput

/-! ### Putting readers together -/

theorem bind_of_ok {reader : Reader α} {k : α → Reader β} {input rest : Bytes} {value : α}
    (h : reader input = .ok (value, rest)) : (reader >>= k) input = k value rest := by
  show (reader input >>= fun (a, s) => k a s) = _
  rw [h]
  rfl

theorem bind_of_error {reader : Reader α} {k : α → Reader β} {input : Bytes} {e : Error}
    (h : reader input = .error e) : (reader >>= k) input = .error e := by
  show (reader input >>= fun (a, s) => k a s) = _
  rw [h]
  rfl

/-- Nothing is read for a value that is there already. -/
theorem decodes_pure (value : α) : Decodes (pure value) [] value where
  read _ := rfl
  cut front back h hback := by
    exact absurd (List.append_eq_nil_iff.1 h.symm).2 hback

/-- Two readers in turn decode what two writers wrote in turn. -/
theorem Decodes.bind {reader : Reader α} {k : α → Reader β} {s t : Bytes} {a : α} {b : β}
    (hfirst : Decodes reader s a) (hsecond : Decodes (k a) t b) :
    Decodes (reader >>= k) (s ++ t) b where
  read rest := by
    rw [List.append_assoc, bind_of_ok (hfirst.read _)]
    exact hsecond.read rest
  cut front back h hback := by
    rcases List.append_eq_append_iff.1 h with ⟨left, hfront, hsplit⟩ | ⟨left, hsplit, hrest⟩
    · -- The cut is inside the second part, or between the two.
      rw [hfront, bind_of_ok (hfirst.read _)]
      exact hsecond.cut left back hsplit hback
    · -- The cut is inside the first part, unless nothing of it is missing.
      by_cases hleft : left = []
      · subst hleft
        rw [List.append_nil] at hsplit
        rw [List.nil_append] at hrest
        have hread := hfirst.read []
        rw [List.append_nil, hsplit] at hread
        rw [bind_of_ok hread]
        exact hsecond.cut [] back hrest.symm hback
      · exact bind_of_error (hfirst.cut front left hsplit hleft)

/-- A second reader that takes nothing more. -/
theorem Decodes.bind_last {reader : Reader α} {k : α → Reader β} {bytes : Bytes} {a : α} {b : β}
    (hfirst : Decodes reader bytes a) (hsecond : Decodes (k a) [] b) :
    Decodes (reader >>= k) bytes b := by
  have hbind := hfirst.bind hsecond
  rwa [List.append_nil] at hbind

/-- What is made of a value does not take more bytes. -/
theorem Decodes.map {reader : Reader α} {bytes : Bytes} {a : α} (h : Decodes reader bytes a)
    (f : α → β) : Decodes (reader >>= fun x => pure (f x)) bytes (f a) :=
  h.bind_last (decodes_pure (f a))

/-! ### Bytes and numbers -/

/-- Nothing is left of one byte that is cut off. -/
theorem front_eq_nil_of_singleton {b : UInt8} {front back : Bytes} (h : [b] = front ++ back)
    (hback : back ≠ []) : front = [] := by
  cases front with
  | nil => rfl
  | cons x front =>
    rw [List.cons_append, List.cons.injEq] at h
    exact absurd (List.append_eq_nil_iff.1 h.2.symm).2 hback

theorem decodes_byte (b : UInt8) : Decodes byte [b] b where
  read _ := rfl
  cut front back h hback := by
    rw [front_eq_nil_of_singleton h hback]
    rfl

/-- So many bytes, which are missing if there are fewer. -/
theorem decodes_bytes (xs : Bytes) : Decodes (bytes xs.length) xs xs where
  read rest := by simp [bytes]
  cut front back h hback := by
    -- What is cut off is missing.
    have hlen : ¬ xs.length ≤ front.length := by
      have := List.length_pos_iff.2 hback
      rw [h, List.length_append]
      omega
    rw [bytes, if_neg hlen]

/-- The byte of a group that ends a number. -/
theorem lastGroup_byte {n : Nat} (h : n < 128) :
    (UInt8.ofNat n).toNat = n ∧ UInt8.ofNat n < 128 := by
  have hbyte : (UInt8.ofNat n).toNat = n := by rw [UInt8.toNat_ofNat']; omega
  refine ⟨hbyte, ?_⟩
  rw [UInt8.lt_iff_toNat_lt, hbyte]
  exact h

/-- The byte of a group that does not, with its high bit set. -/
theorem moreGroups_byte (n : Nat) :
    (UInt8.ofNat (n % 128 + 128)).toNat = n % 128 + 128
      ∧ ¬ UInt8.ofNat (n % 128 + 128) < 128 := by
  have hbyte : (UInt8.ofNat (n % 128 + 128)).toNat = n % 128 + 128 := by
    rw [UInt8.toNat_ofNat']; omega
  refine ⟨hbyte, ?_⟩
  rw [UInt8.lt_iff_toNat_lt, hbyte]
  show ¬ n % 128 + 128 < 128
  omega

/-- The group that ends a number; as the last of ten it holds no more than one bit. -/
theorem decodes_lastGroup (groups n : Nat) (hn : n < 128) (hlast : groups = 0 → n < 2) :
    Decodes (varintWithin (groups + 1)) [UInt8.ofNat n] n where
  read rest := by
    obtain ⟨hbyte, hlow⟩ := lastGroup_byte hn
    -- The tenth group may hold one bit, as 64 is nine times seven and one.
    have hfits : ¬ (groups = 0 ∧ 1 < UInt8.ofNat n) := by
      rintro ⟨hzero, hone⟩
      rw [UInt8.lt_iff_toNat_lt, hbyte] at hone
      have : 1 < n := hone
      have := hlast hzero
      omega
    rw [List.singleton_append, varintWithin]
    simp only [hlow, if_true, hfits, if_false, hbyte]
  cut front back h hback := by
    rw [front_eq_nil_of_singleton h hback]
    rfl

/-- A number is read within so many groups if the last of them has to hold no more than one bit. -/
theorem decodes_varintWithin (groups n : Nat) (h : n < 2 * 128 ^ groups) :
    Decodes (varintWithin (groups + 1)) (varint n) n := by
  induction groups generalizing n with
  | zero =>
    have hn : n < 2 := by simpa using h
    rw [varint, if_pos (by omega)]
    exact decodes_lastGroup 0 n (by omega) fun _ => hn
  | succ groups ih =>
    rw [varint]
    split
    · next hn => exact decodes_lastGroup (groups + 1) n hn fun hzero => by omega
    · next hn =>
      -- A byte with its high bit set, then the higher groups.
      obtain ⟨hbyte, hhigh⟩ := moreGroups_byte n
      have hquot : n / 128 < 2 * 128 ^ groups := by
        rw [Nat.div_lt_iff_lt_mul (by decide)]
        rw [Nat.pow_succ] at h
        omega
      have hrest := ih (n / 128) hquot
      constructor
      · intro rest
        rw [List.cons_append, varintWithin]
        simp only [hhigh, if_false, hrest.read rest, hbyte]
        rw [show n % 128 + 128 - 128 + 128 * (n / 128) = n by omega]
      · intro front back hsplit hback
        cases front with
        | nil => rfl
        | cons x front =>
          rw [List.cons_append, List.cons.injEq] at hsplit
          rw [← hsplit.1, varintWithin]
          simp only [hhigh, if_false, hrest.cut front back hsplit.2 hback]

/-- A number below 2^64 is decoded from its groups. -/
theorem decodes_varint {n : Nat} (h : n < Text.indexBound) :
    Decodes Reader.varint (varint n) n :=
  decodes_varintWithin 9 n (Nat.lt_of_lt_of_eq h (by decide))

/-! ### Texts, words, options and lists -/

/-- A text is written as the number of its bytes and the bytes. -/
theorem decodes_text {s : String} (h : (Bytes.ofText s).length < Text.indexBound) :
    Decodes Reader.text (text s) s := by
  refine (decodes_varint h).bind ((decodes_bytes (Bytes.ofText s)).bind_last ?_)
  rw [Bytes.toText?_ofText]
  exact decodes_pure s

/-- A word is written as its 32 bytes. -/
theorem decodes_word (w : Word) : Decodes Reader.word w.toBytes w := by
  have hbytes := decodes_bytes w.toBytes
  rw [Word.length_toBytes] at hbytes
  have hmap := hbytes.map fun bs => Word.ofNat bs.toNat
  rwa [Word.toNat_toBytes, Word.ofNat_toNat] at hmap

/-- A value that may be missing is written behind a byte that says so. -/
theorem decodes_option {item : Reader α} {write : α → Bytes} {o : Option α}
    (h : ∀ a ∈ o, Decodes item (write a) a) :
    Decodes (Reader.option item) (option write o) o := by
  cases o with
  | none => exact (decodes_byte 0).bind (t := []) (decodes_pure none)
  | some a => exact (decodes_byte 1).bind (t := write a) ((h a rfl).map some)

/-- Items one after the other, each written by `write` and read as `g` says. -/
theorem decodes_items {item : Reader β} {write : α → Bytes} {g : α → β} {xs : List α}
    (h : ∀ x ∈ xs, Decodes item (write x) (g x)) :
    Decodes (items item xs.length) (xs.flatMap write) (xs.map g) := by
  induction xs with
  | nil => exact decodes_pure []
  | cons x xs ih =>
    have hrest := ih fun y hy => h y (List.mem_cons_of_mem x hy)
    exact (h x List.mem_cons_self).bind (hrest.map (g x :: ·))

/-- A list is written as its length and its items. -/
theorem decodes_list {item : Reader β} {write : α → Bytes} {g : α → β} {xs : List α}
    (hlen : xs.length < Text.indexBound) (h : ∀ x ∈ xs, Decodes item (write x) (g x)) :
    Decodes (Reader.list item) (list write xs) (xs.map g) :=
  (decodes_varint hlen).bind (decodes_items h)

/-! ### What is read is what was written -/

/-- A reader that takes anything off the front of these bytes takes all of them, for the value. -/
def Exact (reader : Reader α) (bytes : Bytes) (value : α) : Prop :=
  ∀ rest v left, reader (bytes ++ rest) = .ok (v, left) → v = value ∧ left = rest

/-- A reader that takes back what was written takes back nothing else. -/
theorem Decodes.exact {reader : Reader α} {bytes : Bytes} {value : α}
    (h : Decodes reader bytes value) : Exact reader bytes value := by
  intro rest v left hread
  rw [h.read] at hread
  cases hread
  exact ⟨rfl, rfl⟩

/-- Two readers in turn take what two writers wrote, if they take anything. -/
theorem Exact.bind {reader : Reader α} {k : α → Reader β} {s t : Bytes} {a : α} {b : β}
    (hfirst : Exact reader s a) (hsecond : Exact (k a) t b) : Exact (reader >>= k) (s ++ t) b := by
  intro rest v left hread
  rw [List.append_assoc] at hread
  rcases hmid : reader (s ++ (t ++ rest)) with e | ⟨a', input⟩
  · rw [bind_of_error hmid] at hread
    cases hread
  · obtain ⟨rfl, rfl⟩ := hfirst _ _ _ hmid
    rw [bind_of_ok hmid] at hread
    exact hsecond _ _ _ hread

theorem Exact.map {reader : Reader α} {bytes : Bytes} {a : α} (h : Exact reader bytes a)
    (g : α → β) : Exact (do return g (← reader)) bytes (g a) := by
  have hbind := h.bind (k := fun a => (pure (g a) : Reader β)) (decodes_pure (g a)).exact
  rwa [List.append_nil] at hbind

/-- A number that is read from its groups is that number, within any number of groups. -/
theorem exact_varintWithin (groups n : Nat) : Exact (varintWithin groups) (varint n) n := by
  induction groups generalizing n with
  | zero => intro rest v left hread; cases hread
  | succ groups ih =>
    intro rest v left hread
    rw [varint] at hread
    -- The last group may be refused for its size, and any other for what comes behind it.
    split at hread
    · next hn =>
      obtain ⟨hbyte, hlow⟩ := lastGroup_byte hn
      rw [List.singleton_append, varintWithin] at hread
      simp only [hlow, if_true, hbyte] at hread
      split at hread
      · cases hread
      · cases hread
        exact ⟨rfl, rfl⟩
    · next hn =>
      obtain ⟨hbyte, hhigh⟩ := moreGroups_byte n
      rw [List.cons_append, varintWithin] at hread
      simp only [hhigh, if_false, hbyte] at hread
      split at hread
      · next m input hmore =>
        obtain ⟨rfl, rfl⟩ := ih _ _ _ _ hmore
        cases hread
        exact ⟨by omega, rfl⟩
      · cases hread

theorem exact_items {item : Reader β} {write : α → Bytes} {g : α → β} {xs : List α}
    (h : ∀ x ∈ xs, Exact item (write x) (g x)) :
    Exact (items item xs.length) (xs.flatMap write) (xs.map g) := by
  induction xs with
  | nil => exact (decodes_pure []).exact
  | cons x xs ih =>
    have hrest := ih fun y hy => h y (List.mem_cons_of_mem x hy)
    exact (h x List.mem_cons_self).bind (hrest.map (g x :: ·))

/-- A list that is read is the list that was written, however long it is. -/
theorem exact_list {item : Reader β} {write : α → Bytes} {g : α → β} {xs : List α}
    (h : ∀ x ∈ xs, Exact item (write x) (g x)) :
    Exact (Reader.list item) (list write xs) (xs.map g) :=
  (exact_varintWithin 10 xs.length).bind (exact_items h)

end Wire

end Covenant
