import NuSync.Go.Json

/-!
# Go values from JSON

How `encoding/json` stores a value that it has read in a Go variable. A decoder takes what the
variable held before, since `null` leaves most types as they are, an array is filled element by
element and a slice is filled over what its memory still holds. `none` is an error, after which
the callers in this repository drop the variable.

A type's encoder and decoder fit together in the sense of `Reads`: whatever the variable held, it
holds the encoded value afterwards.
-/

namespace NuSync.Go.Json

/-! ## Strings and numbers -/

/-- A `string`. -/
def decodeString : GoString → Json → Option GoString
  | old, .null => some old
  | _, .str s => some s
  | _, _ => none

/-- An unsigned integer of this many bits. -/
def decodeUint (bits : Nat) : Nat → Json → Option Nat
  | old, .null => some old
  | _, .num text => (parseUint text).filter fun n => n < 2 ^ bits
  | _, _ => none

/-- A `uint64`. -/
def decodeUint64 (old : UInt64) (v : Json) : Option UInt64 :=
  (decodeUint 64 old.toNat v).map UInt64.ofNat

/-- A `byte`. -/
def decodeByte (old : UInt8) (v : Json) : Option UInt8 :=
  (decodeUint 8 old.toNat v).map UInt8.ofNat

/-- The number of an unsigned integer. -/
def ofNat (n : Nat) : Json := .num (decimal n)

/-! ## Arrays and slices -/

section Sequences

variable {α : Type} (decode : α → Json → Option α) (zero : α)

/-- The elements of a Go array. Items beyond its end are skipped, elements without an item become
zero. -/
def decodeElems : List α → List Json → Option (List α)
  | [], _ => some []
  | _ :: olds, [] => some (zero :: olds.map fun _ => zero)
  | old :: olds, v :: vs => do
      let x ← decode old v
      let xs ← decodeElems olds vs
      pure (x :: xs)

/-- The elements of a Go slice over what its memory holds. -/
def decodeItems : List α → List Json → Option (List α)
  | _, [] => some []
  | [], v :: vs => do
      let x ← decode zero v
      let xs ← decodeItems [] vs
      pure (x :: xs)
  | old :: olds, v :: vs => do
      let x ← decode old v
      let xs ← decodeItems olds vs
      pure (x :: xs)

/-- A slice: its elements, and what its memory holds behind them. -/
def decodeSlice : List α × List α → Json → Option (List α × List α)
  | _, .null => some ([], [])
  | _, .arr [] => some ([], [])
  | (olds, hidden), .arr vs =>
      (decodeItems decode zero (olds ++ hidden) vs).map fun xs =>
        (xs, (olds ++ hidden).drop vs.length)
  | _, _ => none

end Sequences

/-- A `[32]byte`. -/
def decodeHash : Hash → Json → Option Hash
  | old, .null => some old
  | old, .arr vs => (decodeElems decodeByte 0 old.bytes vs).map Hash.copy
  | _, _ => none

/-- The array of a `[32]byte`. -/
def ofHash (hash : Hash) : Json := .arr (hash.bytes.map fun b => ofNat b.toNat)

/-- A slice of which the items are known; one that was never allocated is `null`. -/
def ofSlice (items : List Json) (allocated : Bool) : Json :=
  if items = [] ∧ ¬allocated then .null else .arr items

/-! ## Structs -/

/-- `foldName`, as far as names of ASCII letters are concerned: lower case becomes upper case, and
the Kelvin sign and the long s become the letters they stand for. -/
def foldName : GoString → GoString
  | 0xE2 :: 0x84 :: 0xAA :: rest => 0x4B :: foldName rest
  | 0xC5 :: 0xBF :: rest => 0x53 :: foldName rest
  | b :: rest => (if 0x61 ≤ b ∧ b ≤ 0x7A then b - 0x20 else b) :: foldName rest
  | [] => []

/-- A field of a struct: its name, and what decoding a value into it does to the struct. -/
structure StructField (σ : Type) where
  name : GoString
  decode : σ → Json → Option σ

/-- A field of which the type has a decoder, by how it is read from and put into the struct. -/
def StructField.ofType {σ α : Type} (name : String) (decode : α → Json → Option α) (get : σ → α)
    (set : σ → α → σ) : StructField σ := ⟨ascii name, fun st v => (decode (get st) v).map (set st)⟩

section Structs

variable {σ : Type} (fields : List (StructField σ))

/-- The field a key stands for: the one of that name, or else one that differs in case only. -/
def findField (key : GoString) : Option (StructField σ) :=
  (fields.find? fun f => f.name = key) <|> fields.find? fun f => foldName f.name = foldName key

/-- The members of an object one after another; members of other names are skipped. -/
def decodeMembers : σ → List (GoString × Json) → Option σ
  | st, [] => some st
  | st, (key, v) :: ms =>
      match findField fields key with
      | some f => (f.decode st v).bind fun st => decodeMembers st ms
      | none => decodeMembers st ms

/-- A struct. -/
def decodeStruct : σ → Json → Option σ
  | st, .null => some st
  | st, .obj ms => decodeMembers fields st ms
  | _, _ => none

end Structs

/-! ## The nesting of encoded values -/

theorem fits_str (depth : Nat) (s : GoString) : Fits depth (.str s) := by
  cases depth <;> exact trivial

theorem fits_of_nat (depth n : Nat) : Fits depth (ofNat n) := by
  cases depth <;> exact ⟨n, rfl⟩

theorem fits_of_hash (depth : Nat) (hash : Hash) : Fits (depth + 1) (ofHash hash) := by
  intro v hv
  obtain ⟨b, -, rfl⟩ := List.mem_map.mp hv
  exact fits_of_nat depth b.toNat

theorem fits_of_slice {depth : Nat} {items : List Json} (h : ∀ v ∈ items, Fits depth v)
    (allocated : Bool) : Fits (depth + 1) (ofSlice items allocated) := by
  rw [ofSlice]
  split_ifs
  · exact trivial
  · exact h

/-! ## Reading back -/

/-- Decoding the value gives this, whatever was there before. -/
def Reads {α : Type} (decode : α → Json → Option α) (v : Json) (x : α) : Prop :=
  ∀ old, decode old v.reread = some x

theorem reads_string (s : GoString) : Reads decodeString (.str s) (jsonString s) := fun _ => by
  rw [reread, decodeString]

theorem decode_uint_of_nat {bits n : Nat} (h : n < 2 ^ bits) (old : Nat) :
    decodeUint bits old (ofNat n).reread = some n := by
  rw [ofNat, reread, decodeUint, parse_uint_decimal, Option.filter_some, if_pos (by simpa using h)]

theorem reads_uint64 (n : UInt64) : Reads decodeUint64 (ofNat n.toNat) n := fun old => by
  rw [decodeUint64, decode_uint_of_nat n.toNat_lt, Option.map_some, UInt64.ofNat_toNat]

theorem reads_byte (b : UInt8) : Reads decodeByte (ofNat b.toNat) b := fun old => by
  rw [decodeByte, decode_uint_of_nat b.toNat_lt, Option.map_some, UInt8.ofNat_toNat]

section Sequences

variable {α β : Type} {decode : α → Json → Option α} {encode : β → Json} {f : β → α} (zero : α)

/-- An array is filled with the encoded elements. -/
theorem decode_elems_map (h : ∀ x, Reads decode (encode x) (f x)) {olds : List α} {xs : List β}
    (hlength : olds.length = xs.length) :
    decodeElems decode zero olds (rereadItems (xs.map encode)) = some (xs.map f) := by
  induction xs generalizing olds with
  | nil =>
      obtain rfl := List.length_eq_zero_iff.mp hlength
      rfl
  | cons x xs ih =>
      obtain ⟨old, olds, rfl⟩ := List.exists_cons_of_length_eq_add_one hlength
      have hrest := ih (Nat.succ.inj hlength)
      rw [List.map_cons, rereadItems, decodeElems, h x old, hrest]
      rfl

/-- A slice is filled with the encoded elements. -/
theorem decode_items_map (h : ∀ x, Reads decode (encode x) (f x)) (olds : List α) (xs : List β) :
    decodeItems decode zero olds (rereadItems (xs.map encode)) = some (xs.map f) := by
  induction xs generalizing olds with
  | nil => rw [List.map_nil, rereadItems, decodeItems, List.map_nil]
  | cons x xs ih =>
      rw [List.map_cons, rereadItems]
      cases olds with
      | nil =>
          rw [decodeItems, h x zero, ih []]
          rfl
      | cons old olds =>
          rw [decodeItems, h x old, ih olds]
          rfl

/-- The elements of a slice are read back, whether or not an empty one was allocated. -/
theorem decode_slice_map (h : ∀ x, Reads decode (encode x) (f x)) (old : List α × List α)
    (xs : List β) (allocated : Bool) :
    ∃ hidden, decodeSlice decode zero old (ofSlice (xs.map encode) allocated).reread =
      some (xs.map f, hidden) := by
  cases xs with
  | nil => cases allocated <;> exact ⟨[], rfl⟩
  | cons x xs =>
      have hitems := decode_items_map zero h (old.1 ++ old.2) (x :: xs)
      rw [List.map_cons, rereadItems] at hitems
      rw [ofSlice, if_neg (by simp), List.map_cons, reread, rereadItems, decodeSlice, hitems]
      · exact ⟨_, rfl⟩
      · exact List.cons_ne_nil _ _

end Sequences

theorem reads_hash (hash : Hash) : Reads decodeHash (ofHash hash) hash := fun old => by
  have hbytes : decodeElems decodeByte 0 old.bytes
      (rereadItems (hash.bytes.map fun b => ofNat b.toNat)) = some hash.bytes := by
    rw [decode_elems_map 0 reads_byte (old.length_eq.trans hash.length_eq.symm), List.map_id']
  rw [ofHash, reread, decodeHash, hbytes, Option.map_some, Hash.copy_bytes]

theorem decode_of_type {σ α : Type} {name : String} {decode : α → Json → Option α} {get : σ → α}
    {set : σ → α → σ} {st : σ} {v : Json} {x : α} (h : decode (get st) v = some x) :
    (StructField.ofType name decode get set).decode st v = some (set st x) := by
  show (decode (get st) v).map (set st) = some (set st x)
  rw [h, Option.map_some]

/-- A member of a known name goes into its field. -/
theorem decode_members_cons {σ : Type} {fields : List (StructField σ)} (name : String)
    {f : StructField σ} (hname : ValidUtf8 (ascii name))
    (hfield : findField fields (ascii name) = some f) {st next : σ} {v : Json}
    (hdecode : f.decode st v.reread = some next) (ms : List (GoString × Json)) :
    decodeMembers fields st (rereadMembers ((ascii name, v) :: ms)) =
      decodeMembers fields next (rereadMembers ms) := by
  rw [rereadMembers, hname, decodeMembers, hfield]
  simp only [hdecode, Option.bind_some]

/-! ## What decoding keeps

A property of a variable that decoding any value read from a text keeps. -/

/-- Decoding a value that was read from a text keeps the property. -/
def Keeps {α : Type} (decode : α → Json → Option α) (P : α → Prop) : Prop :=
  ∀ old v x, P old → v.reread = v → decode old v = some x → P x

theorem keeps_string : Keeps decodeString ValidUtf8 := by
  intro old v s hold hreread h
  cases v with
  | null =>
      cases h
      exact hold
  | str text =>
      cases h
      rw [reread] at hreread
      exact Json.str.inj hreread
  | bool => cases h
  | num => cases h
  | arr => cases h
  | obj => cases h

/-- A field of another type keeps what does not depend on it. -/
theorem keeps_field {σ α : Type} (name : String) {decode : α → Json → Option α} {get : σ → α}
    {set : σ → α → σ} {P : σ → Prop} (h : ∀ st x, P st → P (set st x)) :
    Keeps (StructField.ofType name decode get set).decode P := by
  intro st v next hst _ hdecode
  obtain ⟨x, -, rfl⟩ := Option.map_eq_some_iff.mp hdecode
  exact h st x hst

/-- A field keeps what its type's decoder keeps. -/
theorem keeps_field_of_type {σ α : Type} (name : String) {decode : α → Json → Option α}
    {get : σ → α} {set : σ → α → σ} {P : σ → Prop} {Q : α → Prop} (hdecode : Keeps decode Q)
    (hget : ∀ st, P st → Q (get st)) (hset : ∀ st x, P st → Q x → P (set st x)) :
    Keeps (StructField.ofType name decode get set).decode P := by
  intro st v next hst hreread h
  obtain ⟨x, hx, rfl⟩ := Option.map_eq_some_iff.mp h
  exact hset st x hst (hdecode _ v x (hget st hst) hreread hx)

theorem mem_of_find_field {σ : Type} {fields : List (StructField σ)} {key : GoString}
    {f : StructField σ} (h : findField fields key = some f) : f ∈ fields := by
  unfold findField at h
  cases hname : fields.find? fun f => f.name = key with
  | some g =>
      rw [hname] at h
      cases h
      exact List.mem_of_find?_eq_some hname
  | none =>
      rw [hname] at h
      exact List.mem_of_find?_eq_some h

section Structs

variable {σ : Type} {fields : List (StructField σ)} {P : σ → Prop}
  (hfields : ∀ f ∈ fields, Keeps f.decode P)
include hfields

theorem keeps_members {st next : σ} {ms : List (GoString × Json)} (hst : P st)
    (hreread : rereadMembers ms = ms) (h : decodeMembers fields st ms = some next) : P next := by
  induction ms generalizing st with
  | nil =>
      cases h
      exact hst
  | cons m ms ih =>
      obtain ⟨key, v⟩ := m
      rw [rereadMembers] at hreread
      obtain ⟨hhead, hrest⟩ := List.cons.inj hreread
      rw [decodeMembers] at h
      split at h
      · next f hfind =>
          obtain ⟨st', hdecode, h⟩ := Option.bind_eq_some_iff.mp h
          have hkeeps := hfields f (mem_of_find_field hfind)
          exact ih (hkeeps st v st' hst (Prod.mk.inj hhead).2 hdecode) hrest h
      · exact ih hst hrest h

/-- Decoding a struct keeps what decoding each of its fields keeps. -/
theorem keeps_struct : Keeps (decodeStruct fields) P := by
  intro st v next hst hreread h
  cases v with
  | null =>
      cases h
      exact hst
  | obj ms =>
      rw [reread] at hreread
      exact keeps_members hfields hst (Json.obj.inj hreread) h
  | str => cases h
  | bool => cases h
  | num => cases h
  | arr => cases h

end Structs

section Slices

variable {α : Type} {decode : α → Json → Option α} {zero : α} {P : α → Prop}
  (hdecode : Keeps decode P) (hzero : P zero)
include hdecode hzero

theorem keeps_items {olds xs : List α} {vs : List Json} (holds : ∀ x ∈ olds, P x)
    (hreread : rereadItems vs = vs) (h : decodeItems decode zero olds vs = some xs) :
    ∀ x ∈ xs, P x := by
  induction vs generalizing olds xs with
  | nil =>
      rw [decodeItems] at h
      cases h
      simp
  | cons v vs ih =>
      rw [rereadItems] at hreread
      obtain ⟨hhead, hrest⟩ := List.cons.inj hreread
      cases olds with
      | nil =>
          simp only [decodeItems, Option.bind_eq_bind, Option.bind_eq_some_iff] at h
          obtain ⟨x, hx, more, hmore, heq⟩ := h
          cases heq
          exact List.forall_mem_cons.mpr
            ⟨hdecode _ v x hzero hhead hx, ih holds hrest hmore⟩
      | cons old olds =>
          simp only [decodeItems, Option.bind_eq_bind, Option.bind_eq_some_iff] at h
          obtain ⟨x, hx, more, hmore, heq⟩ := h
          cases heq
          obtain ⟨hold, holds⟩ := List.forall_mem_cons.mp holds
          exact List.forall_mem_cons.mpr
            ⟨hdecode _ v x hold hhead hx, ih holds hrest hmore⟩

/-- Decoding a new slice gives elements that have what decoding an element keeps. -/
theorem forall_mem_slice {v : Json} {xs hidden : List α} (hreread : v.reread = v)
    (h : decodeSlice decode zero ([], []) v = some (xs, hidden)) : ∀ x ∈ xs, P x := by
  unfold decodeSlice at h
  split at h
  · cases h
    simp
  · cases h
    simp
  · next hempty =>
      cases hempty
      obtain ⟨ys, hys, heq⟩ := Option.map_eq_some_iff.mp h
      cases heq
      rw [reread] at hreread
      exact keeps_items hdecode hzero (by simp) (Json.arr.inj hreread) hys
  · cases h

end Slices

end NuSync.Go.Json
