import NuSync.Go.JsonRecord
import NuSync.Store.Meta

/-!
# The stored bytes of the index

The `files` bucket one level below `BoltMetaStore`: under each key it holds the JSON text that
`PutFileMeta` wrote, and `GetFileMeta` and `ListCatalog` decode it. The bucket refines the index
of records: after any calls the two give the same answers.
-/

namespace NuSync.Store

open NuSync.Go NuSync.Go.Json NuSync.Lib

/-! ## The text of a record -/

namespace FileMeta

/-- The value `json.Marshal` makes of a record. A list of chunks without elements may or may not
have been allocated. -/
def toJson (m : FileMeta) (allocated : Bool) : Json := .obj
  [(ascii "FileID", .str m.fileID), (ascii "MerkleRoot", ofHash m.merkleRoot),
    (ascii "LamportTS", ofNat m.lamportTS.toNat),
    (ascii "ChunkHashes", ofSlice (m.chunkHashes.map ofHash) allocated),
    (ascii "SizeBytes", ofNat m.sizeBytes.toNat)]

/-- The zero value `FileMeta{}`. -/
def zero : FileMeta := ⟨[], .zero, 0, [], 0⟩

/-- A variable of type `FileMeta` while a text is decoded into it: the record, and what the memory
of its list of chunks holds behind the list. -/
abbrev Variable := FileMeta × List Hash

/-- The fields of the struct. -/
def fields : List (StructField Variable) :=
  [.ofType "FileID" decodeString (fun st => st.1.fileID)
      fun st fileID => ({ st.1 with fileID }, st.2),
    .ofType "MerkleRoot" decodeHash (fun st => st.1.merkleRoot)
      fun st merkleRoot => ({ st.1 with merkleRoot }, st.2),
    .ofType "LamportTS" decodeUint64 (fun st => st.1.lamportTS)
      fun st lamportTS => ({ st.1 with lamportTS }, st.2),
    .ofType "ChunkHashes" (decodeSlice decodeHash .zero) (fun st => (st.1.chunkHashes, st.2))
      fun st chunks => ({ st.1 with chunkHashes := chunks.1 }, chunks.2),
    .ofType "SizeBytes" decodeUint64 (fun st => st.1.sizeBytes)
      fun st sizeBytes => ({ st.1 with sizeBytes }, st.2)]

/-- A value decoded into a new variable. -/
def ofJson (v : Json) : Option FileMeta := (decodeStruct fields (zero, []) v).map Prod.fst

/-- A record is read back as JSON keeps it. -/
theorem of_json_to_json (m : FileMeta) (allocated : Bool) :
    ofJson (m.toJson allocated).reread = some m.json := by
  obtain ⟨hidden, hchunks⟩ := decode_slice_map .zero reads_hash ([], []) m.chunkHashes allocated
  rw [List.map_id'] at hchunks
  -- each member goes into its own field, in the order of the fields
  have hmembers : decodeStruct fields (zero, []) (m.toJson allocated).reread =
      some (m.json, hidden) := by
    rw [toJson, reread, decodeStruct]
    refine (decode_members_cons "FileID" (by decide) rfl
      (decode_of_type (reads_string _ _)) _).trans ?_
    refine (decode_members_cons "MerkleRoot" (by decide) rfl
      (decode_of_type (reads_hash _ _)) _).trans ?_
    refine (decode_members_cons "LamportTS" (by decide) rfl
      (decode_of_type (reads_uint64 _ _)) _).trans ?_
    refine (decode_members_cons "ChunkHashes" (by decide) rfl
      (decode_of_type (by exact hchunks)) _).trans ?_
    refine (decode_members_cons "SizeBytes" (by decide) rfl
      (decode_of_type (reads_uint64 _ _)) _).trans ?_
    rw [rereadMembers, decodeMembers]
    rfl
  rw [ofJson, hmembers, Option.map_some]

theorem fits_to_json (m : FileMeta) (allocated : Bool) (depth : Nat) :
    Fits (depth + 3) (m.toJson allocated) := by
  have hchunks : ∀ v ∈ m.chunkHashes.map ofHash, Fits (depth + 1) v := by
    intro v hv
    obtain ⟨hash, -, rfl⟩ := List.mem_map.mp hv
    exact fits_of_hash depth hash
  intro member hmember
  simp only [List.mem_cons, List.not_mem_nil, or_false] at hmember
  rcases hmember with rfl | rfl | rfl | rfl | rfl
  · exact fits_str _ _
  · exact fits_of_hash _ _
  · exact fits_of_nat _ _
  · exact fits_of_slice hchunks allocated
  · exact fits_of_nat _ _

/-- `json.Marshal(meta)`. -/
def marshal (m : FileMeta) (allocated : Bool) : Bytes := (m.toJson allocated).marshal

/-- `json.Unmarshal(data, &meta)` into a new variable. -/
def unmarshal (data : Bytes) : Option FileMeta := (Json.unmarshal data).bind ofJson

/-- The text of a record is decoded to the record as JSON keeps it. -/
theorem unmarshal_marshal (m : FileMeta) (allocated : Bool) :
    unmarshal (m.marshal allocated) = some m.json := by
  rw [unmarshal, marshal, Json.unmarshal_marshal (m.fits_to_json allocated 9997), Option.bind_some,
    of_json_to_json]

end FileMeta

/-! ## The bucket -/

/-- bbolt's `MaxValueSize`. -/
def maxValueSize : Nat := 2 ^ 31 - 2

/-- The errors of `db.Update` in `PutFileMeta`, that of a value that is too large among them. -/
inductive BucketError where
  | put (error : BoltMetaStore.PutError)
  | valueTooLarge
  deriving DecidableEq

/-- The errors of `GetFileMeta`. -/
inductive GetError where
  | notFound
  | invalidJSON
  deriving DecidableEq

/-- One call of `PutFileMeta`: the record, whether its list of chunks was allocated, and whether
bbolt gets the page writes to disk. -/
structure MetaCall where
  record : FileMeta
  allocated : Bool
  commit : Bool

/-- The text that the call stores. -/
def MetaCall.data (call : MetaCall) : Bytes := call.record.marshal call.allocated

/-- The `files` bucket: the bytes under each key. -/
structure FilesBucket where
  values : OrderedMap GoString Bytes

namespace FilesBucket

/-- The bucket of a new database. -/
def empty : FilesBucket := ⟨.empty⟩

/-- `PutFileMeta`. -/
def putFileMeta (bucket : FilesBucket) (call : MetaCall) : Except BucketError FilesBucket :=
  if call.record.fileID = [] then .error (.put .keyRequired)
  else if BoltMetaStore.maxKeySize < call.record.fileID.length then .error (.put .keyTooLarge)
  else if maxValueSize < call.data.length then .error .valueTooLarge
  else if call.commit then .ok ⟨bucket.values.put call.record.fileID call.data⟩
  else .error (.put .commitFailed)

/-- `GetFileMeta`. -/
def getFileMeta (bucket : FilesBucket) (fileID : GoString) : Except GetError FileMeta :=
  match bucket.values.get fileID with
  | none => .error .notFound
  | some data =>
      match FileMeta.unmarshal data with
      | none => .error .invalidJSON
      | some m => .ok m

/-- `ListCatalog`: a value that is no JSON text of a record is left out. -/
def listCatalog (bucket : FilesBucket) : List CatalogEntry :=
  bucket.values.entries.filterMap fun entry =>
    (FileMeta.unmarshal entry.2).map FileMeta.catalogEntry

end FilesBucket

/-- `PutFileMeta` on the index of records, which knows its texts only by their length. -/
def BoltMetaStore.putCall (store : BoltMetaStore) (call : MetaCall) :
    Except BucketError BoltMetaStore :=
  if BoltMetaStore.ValidKey call.record.fileID ∧ maxValueSize < call.data.length then
    .error .valueTooLarge
  else (store.putFileMeta call.record call.commit).mapError .put

/-! ## The bucket refines the index -/

/-- Every value of the bucket is a text of the record that the index has under its key. -/
def Refines (bucket : FilesBucket) (store : BoltMetaStore) : Prop :=
  bucket.values.Matches (fun data m => FileMeta.unmarshal data = some m) store.files

theorem refines_empty : Refines .empty .empty := OrderedMap.matches_empty

section Refines

variable {bucket : FilesBucket} {store : BoltMetaStore}

/-- One call: both levels store the record, or both report the same error. -/
theorem Refines.put (h : Refines bucket store) (call : MetaCall) :
    (∃ bucket' store', bucket.putFileMeta call = .ok bucket' ∧ store.putCall call = .ok store' ∧
      Refines bucket' store') ∨
    ∃ e, bucket.putFileMeta call = .error e ∧ store.putCall call = .error e := by
  unfold FilesBucket.putFileMeta BoltMetaStore.putCall BoltMetaStore.putFileMeta
    BoltMetaStore.ValidKey
  by_cases hempty : call.record.fileID = []
  · exact .inr ⟨.put .keyRequired, by simp [hempty], by simp [hempty, Except.mapError]⟩
  by_cases hlong : BoltMetaStore.maxKeySize < call.record.fileID.length
  · exact .inr ⟨.put .keyTooLarge, by simp [hempty, hlong],
      by simp [hempty, hlong, Nat.not_le.mpr hlong, Except.mapError]⟩
  by_cases hvalue : maxValueSize < call.data.length
  · exact .inr ⟨.valueTooLarge, by simp [hempty, hlong, hvalue],
      by simp [hempty, Nat.not_lt.mp hlong, hvalue]⟩
  simp only [hempty, hlong, hvalue, if_false, and_false]
  cases call.commit with
  | false => exact .inr ⟨.put .commitFailed, rfl, rfl⟩
  | true =>
      have htext := call.record.unmarshal_marshal call.allocated
      exact .inl ⟨_, _, rfl, rfl, OrderedMap.Matches.put h call.record.fileID htext⟩

/-- `GetFileMeta` decodes the record that the index has, and fails only where it has none. -/
theorem Refines.get (h : Refines bucket store) (fileID : GoString) :
    bucket.getFileMeta fileID = (store.getFileMeta fileID).elim (.error .notFound) .ok := by
  have hget := OrderedMap.Matches.get h fileID
  unfold FilesBucket.getFileMeta BoltMetaStore.getFileMeta
  generalize bucket.values.get fileID = data at hget ⊢
  generalize store.files.get fileID = m at hget ⊢
  cases hget with
  | none => rfl
  | some hvalue => simp only [hvalue, Option.elim_some]

/-- `ListCatalog` decodes every value. -/
theorem Refines.catalog (h : Refines bucket store) : bucket.listCatalog = store.listCatalog := by
  unfold FilesBucket.listCatalog BoltMetaStore.listCatalog
  unfold Refines OrderedMap.Matches at h
  generalize bucket.values.entries = values at h ⊢
  generalize store.files.entries = entries at h ⊢
  induction h with
  | nil => rfl
  | cons hhead _ ih =>
      rw [List.filterMap_cons, hhead.2, Option.map_some, List.map_cons, ih]

end Refines

/-- Calls of `PutFileMeta` one after another: the index afterwards and the error of each call. A
call that fails changes nothing. -/
def metaCalls {σ ε : Type} (put : σ → MetaCall → Except ε σ) :
    σ → List MetaCall → σ × List (Option ε)
  | st, [] => (st, [])
  | st, call :: calls =>
      match put st call with
      | .ok next => ((metaCalls put next calls).1, none :: (metaCalls put next calls).2)
      | .error e => ((metaCalls put st calls).1, some e :: (metaCalls put st calls).2)

/-- The calls on both levels give the same errors and keep the refinement. -/
theorem Refines.calls {bucket : FilesBucket} {store : BoltMetaStore} (h : Refines bucket store)
    (calls : List MetaCall) :
    let raw := metaCalls FilesBucket.putFileMeta bucket calls
    let index := metaCalls BoltMetaStore.putCall store calls
    raw.2 = index.2 ∧ Refines raw.1 index.1 := by
  induction calls generalizing bucket store with
  | nil => exact ⟨rfl, h⟩
  | cons call calls ih =>
      rcases h.put call with ⟨bucket', store', hput, hput', hnext⟩ | ⟨e, hput, hput'⟩
      · have hih := ih hnext
        simp only [metaCalls, hput, hput']
        exact ⟨congrArg _ hih.1, hih.2⟩
      · have hih := ih h
        simp only [metaCalls, hput, hput']
        exact ⟨congrArg _ hih.1, hih.2⟩

/-- The bucket of a new database after the calls, and their errors. -/
def bucketAfter (calls : List MetaCall) : FilesBucket × List (Option BucketError) :=
  metaCalls FilesBucket.putFileMeta .empty calls

/-- The index of records after the same calls, and their errors. -/
def indexAfter (calls : List MetaCall) : BoltMetaStore × List (Option BucketError) :=
  metaCalls BoltMetaStore.putCall .empty calls

theorem refines_after (calls : List MetaCall) :
    (bucketAfter calls).2 = (indexAfter calls).2 ∧
      Refines (bucketAfter calls).1 (indexAfter calls).1 :=
  refines_empty.calls calls

/-- After any calls of `PutFileMeta` on a new database, with whatever errors, the bucket of JSON
texts and the index of records have reported the same errors and give the same answers: no stored
text fails to decode, and none is left out of the catalog. -/
theorem bucket_refines_index (calls : List MetaCall) :
    (bucketAfter calls).2 = (indexAfter calls).2 ∧
      (∀ fileID, (bucketAfter calls).1.getFileMeta fileID =
        ((indexAfter calls).1.getFileMeta fileID).elim (.error .notFound) .ok) ∧
      (bucketAfter calls).1.listCatalog = (indexAfter calls).1.listCatalog := by
  obtain ⟨herrors, hrefines⟩ := refines_after calls
  exact ⟨herrors, hrefines.get, hrefines.catalog⟩

/-- Two calls for a file whose name is no valid UTF-8, of which the second does not commit, and one
without a name. -/
def sampleCalls : List MetaCall :=
  [⟨⟨[0x61, 0xFF], .zero, 0, [.zero], 0⟩, true, true⟩,
    ⟨⟨[0x61, 0xFF], .zero, 0, [], 0⟩, false, false⟩, ⟨.zero, false, true⟩]

set_option maxRecDepth 4000 in
example : (indexAfter sampleCalls).1.listCatalog = [⟨[0x61, 0xEF, 0xBF, 0xBD], .zero, 0⟩] := by
  decide

end NuSync.Store
