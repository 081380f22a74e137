import Mathlib

/-!
# Finite maps as strictly sorted association lists

The reading order of the entries is the order of the keys, as in a B+tree bucket. The entries
carry the proof that they are strictly sorted, so a key occurs at most once and `entries` and
`get` describe the same map (`mem_entries_iff`).
-/

namespace NuSync.Lib

/-- A finite map whose entries are listed in strictly increasing key order. -/
structure OrderedMap (K V : Type*) [LinearOrder K] where
  entries : List (K × V)
  sorted : entries.Pairwise fun a b => a.1 < b.1

namespace OrderedMap

variable {K V : Type*} [LinearOrder K]

/-- The map without entries. -/
def empty : OrderedMap K V := ⟨[], .nil⟩

instance : Inhabited (OrderedMap K V) := ⟨empty⟩

/-- Lookup in a list of entries. -/
def find (key : K) : List (K × V) → Option V
  | [] => none
  | (k, v) :: rest => if k = key then some v else find key rest

/-- Insert an entry at its place, replacing the entry of the same key. -/
def insert (key : K) (value : V) : List (K × V) → List (K × V)
  | [] => [(key, value)]
  | (k, v) :: rest =>
      if key < k then (key, value) :: (k, v) :: rest
      else if key = k then (key, value) :: rest
      else (k, v) :: insert key value rest

/-- An entry of the list after an insertion is the new one or an old one. -/
theorem mem_insert {key : K} {value : V} {entry : K × V} {entries : List (K × V)}
    (h : entry ∈ insert key value entries) : entry = (key, value) ∨ entry ∈ entries := by
  induction entries with
  | nil => simpa [insert] using h
  | cons head rest ih =>
      obtain ⟨k, v⟩ := head
      rw [insert] at h
      split_ifs at h with hlt heq
      · simpa using h
      · rcases List.mem_cons.mp h with h | h
        · exact .inl h
        · exact .inr (List.mem_cons_of_mem _ h)
      · rcases List.mem_cons.mp h with h | h
        · exact .inr (h ▸ List.mem_cons_self)
        · exact (ih h).imp id (List.mem_cons_of_mem _)

/-- Insertion keeps the entries strictly sorted. -/
theorem sorted_insert (key : K) (value : V) {entries : List (K × V)}
    (h : entries.Pairwise fun a b => a.1 < b.1) :
    (insert key value entries).Pairwise fun a b => a.1 < b.1 := by
  induction entries with
  | nil => simp [insert]
  | cons head rest ih =>
      obtain ⟨k, v⟩ := head
      obtain ⟨hhead, hrest⟩ := List.pairwise_cons.mp h
      rw [insert]
      split_ifs with hlt heq
      · refine List.pairwise_cons.mpr ⟨fun entry hentry => ?_, h⟩
        rcases List.mem_cons.mp hentry with rfl | hentry
        · exact hlt
        · exact hlt.trans (hhead entry hentry)
      · subst heq
        exact List.pairwise_cons.mpr ⟨hhead, hrest⟩
      · refine List.pairwise_cons.mpr ⟨fun entry hentry => ?_, ih hrest⟩
        rcases mem_insert hentry with rfl | hentry
        · exact lt_of_le_of_ne (not_lt.mp hlt) (Ne.symm heq)
        · exact hhead entry hentry

/-- The value stored under a key. -/
def get (map : OrderedMap K V) (key : K) : Option V := find key map.entries

/-- The map with the key bound to the value. -/
def put (map : OrderedMap K V) (key : K) (value : V) : OrderedMap K V :=
  ⟨insert key value map.entries, sorted_insert key value map.sorted⟩

@[simp] theorem get_empty (key : K) : (empty : OrderedMap K V).get key = none := rfl

theorem find_insert_self (key : K) (value : V) (entries : List (K × V)) :
    find key (insert key value entries) = some value := by
  induction entries with
  | nil => simp [insert, find]
  | cons head rest ih =>
      obtain ⟨k, v⟩ := head
      rw [insert]
      split_ifs with hlt heq
      · simp [find]
      · simp [find]
      · simp [find, Ne.symm heq, ih]

theorem find_insert_of_ne {key other : K} (h : other ≠ key) (value : V)
    (entries : List (K × V)) : find other (insert key value entries) = find other entries := by
  induction entries with
  | nil => simp [insert, find, h.symm]
  | cons head rest ih =>
      obtain ⟨k, v⟩ := head
      rw [insert]
      split_ifs with hlt heq
      · simp [find, h.symm]
      · subst heq
        simp [find, h.symm]
      · by_cases hk : k = other <;> simp [find, hk, ih]

@[simp] theorem get_put_self (map : OrderedMap K V) (key : K) (value : V) :
    (map.put key value).get key = some value := find_insert_self key value map.entries

theorem get_put_of_ne (map : OrderedMap K V) {key other : K} (h : other ≠ key) (value : V) :
    (map.put key value).get other = map.get other := find_insert_of_ne h value map.entries

/-- Lookup after an update, by cases on the key. -/
theorem get_put (map : OrderedMap K V) (key other : K) (value : V) :
    (map.put key value).get other = if other = key then some value else map.get other := by
  split_ifs with h
  · rw [h, get_put_self]
  · exact get_put_of_ne map h value

/-- An entry of the list is found under its key. -/
theorem find_of_mem {entries : List (K × V)} (hsorted : entries.Pairwise fun a b => a.1 < b.1)
    {key : K} {value : V} (h : (key, value) ∈ entries) : find key entries = some value := by
  induction entries with
  | nil => simp at h
  | cons head rest ih =>
      obtain ⟨k, v⟩ := head
      obtain ⟨hhead, hrest⟩ := List.pairwise_cons.mp hsorted
      rcases List.mem_cons.mp h with heq | hmem
      · cases heq
        simp [find]
      · have hne : k ≠ key := (hhead _ hmem).ne
        simp [find, hne, ih hrest hmem]

/-- What is found under a key is an entry of the list. -/
theorem mem_of_find {entries : List (K × V)} {key : K} {value : V}
    (h : find key entries = some value) : (key, value) ∈ entries := by
  induction entries with
  | nil => simp [find] at h
  | cons head rest ih =>
      obtain ⟨k, v⟩ := head
      by_cases hk : k = key
      · subst hk
        simp only [find, if_true, Option.some.injEq] at h
        exact h ▸ List.mem_cons_self
      · simp only [find, hk, if_false] at h
        exact List.mem_cons_of_mem _ (ih h)

/-- The listed entries are exactly the pairs of a key and the value stored under it. -/
theorem mem_entries_iff {map : OrderedMap K V} {key : K} {value : V} :
    (key, value) ∈ map.entries ↔ map.get key = some value :=
  ⟨find_of_mem map.sorted, mem_of_find⟩

/-! ## Two maps with the same keys -/

section Matching

variable {W : Type*} {R : V → W → Prop}

/-- The maps have the same keys, and the values under each key are related. -/
def Matches (R : V → W → Prop) (a : OrderedMap K V) (b : OrderedMap K W) : Prop :=
  List.Forall₂ (fun x y => x.1 = y.1 ∧ R x.2 y.2) a.entries b.entries

theorem matches_empty : Matches R (empty : OrderedMap K V) empty := List.Forall₂.nil

/-- Insertions of related values at one key keep the lists related. -/
theorem forall_insert (key : K) {v : V} {w : W} (h : R v w) {xs : List (K × V)}
    {ys : List (K × W)} (hxs : List.Forall₂ (fun x y => x.1 = y.1 ∧ R x.2 y.2) xs ys) :
    List.Forall₂ (fun x y => x.1 = y.1 ∧ R x.2 y.2) (insert key v xs) (insert key w ys) := by
  induction hxs with
  | nil => exact .cons ⟨rfl, h⟩ .nil
  | @cons x y xs ys hhead hrest ih =>
      obtain ⟨k, vx⟩ := x
      obtain ⟨k', vy⟩ := y
      obtain ⟨rfl, hvalue⟩ : k = k' ∧ R vx vy := hhead
      rw [insert, insert]
      split_ifs
      · exact .cons ⟨rfl, h⟩ (.cons ⟨rfl, hvalue⟩ hrest)
      · exact .cons ⟨rfl, h⟩ hrest
      · exact .cons ⟨rfl, hvalue⟩ ih

theorem Matches.put {a : OrderedMap K V} {b : OrderedMap K W} (h : Matches R a b) (key : K) {v : V}
    {w : W} (hvalue : R v w) : Matches R (a.put key v) (b.put key w) := forall_insert key hvalue h

theorem forall_find (key : K) {xs : List (K × V)} {ys : List (K × W)}
    (hxs : List.Forall₂ (fun x y => x.1 = y.1 ∧ R x.2 y.2) xs ys) :
    Option.Rel R (find key xs) (find key ys) := by
  induction hxs with
  | nil => exact .none
  | @cons x y xs ys hhead hrest ih =>
      obtain ⟨k, vx⟩ := x
      obtain ⟨k', vy⟩ := y
      obtain ⟨rfl, hvalue⟩ : k = k' ∧ R vx vy := hhead
      rw [find, find]
      split_ifs
      · exact .some hvalue
      · exact ih

/-- Lookups in maps with the same keys find related values. -/
theorem Matches.get {a : OrderedMap K V} {b : OrderedMap K W} (h : Matches R a b) (key : K) :
    Option.Rel R (a.get key) (b.get key) := forall_find key h

end Matching

end OrderedMap

end NuSync.Lib
