import NuSync.Go.Utf8
import NuSync.Lib.OrderedMap

/-!
# The metadata index

`internal/store/meta.go`: one `FileMeta` per file, kept in a bbolt bucket under the raw bytes
of the file ID. The stored value is the JSON text of the whole record, so it holds a second
copy of the ID that has been through JSON. The bucket is an ordered map from keys to the
records that decoding their values gives; `BoltMetaStore` carries the fact that the copy in
each record is the key after JSON (`keyed`).
-/

namespace NuSync.Store

open NuSync.Go NuSync.Lib

/-- `store.FileMeta`. -/
structure FileMeta where
  fileID : GoString
  merkleRoot : Hash
  lamportTS : UInt64
  chunkHashes : List Hash
  sizeBytes : UInt64
  deriving DecidableEq

/-- The record after `json.Marshal` and `json.Unmarshal`: only the string can change. -/
def FileMeta.json (m : FileMeta) : FileMeta := { m with fileID := jsonString m.fileID }

@[simp] theorem FileMeta.json_json (m : FileMeta) : m.json.json = m.json := by
  simp [FileMeta.json, json_string_idem]

/-- JSON keeps a record whose ID is valid UTF-8. -/
theorem FileMeta.json_of_valid {m : FileMeta} (h : ValidUtf8 m.fileID) : m.json = m := by
  rw [FileMeta.json, h]

/-- `store.CatalogEntry`, the summary served to peers. -/
structure CatalogEntry where
  fileID : GoString
  merkleRoot : Hash
  lamportTS : UInt64
  deriving DecidableEq

/-- The catalog's view of a record. -/
def FileMeta.catalogEntry (m : FileMeta) : CatalogEntry :=
  ⟨m.fileID, m.merkleRoot, m.lamportTS⟩

/-- `store.BoltMetaStore`: the `files` bucket. -/
structure BoltMetaStore where
  files : OrderedMap GoString FileMeta
  keyed : ∀ key m, files.get key = some m → m.fileID = jsonString key

namespace BoltMetaStore

/-- A new index: the empty bucket. -/
def empty : BoltMetaStore := ⟨.empty, by simp⟩

instance : Inhabited BoltMetaStore := ⟨empty⟩

/-- `bucket.Put([]byte(meta.FileID), json.Marshal(meta))`. -/
def set (store : BoltMetaStore) (m : FileMeta) : BoltMetaStore where
  files := store.files.put m.fileID m.json
  keyed key found h := by
    rw [OrderedMap.get_put] at h
    split_ifs at h with hkey
    · cases h
      rw [hkey, FileMeta.json]
    · exact store.keyed key found h

/-- bbolt's `MaxKeySize`. -/
def maxKeySize : Nat := 32768

/-- The errors of `db.Update` in `PutFileMeta`: bbolt refuses the key, or the transaction does
not commit. -/
inductive PutError where
  | keyRequired
  | keyTooLarge
  | commitFailed
  deriving DecidableEq

/-- `PutFileMeta`. The transaction is rolled back on every error, so only success returns an
index. `commit` says whether bbolt gets the page writes to disk. -/
def putFileMeta (store : BoltMetaStore) (m : FileMeta) (commit : Bool) :
    Except PutError BoltMetaStore :=
  if m.fileID = [] then .error .keyRequired
  else if maxKeySize < m.fileID.length then .error .keyTooLarge
  else if commit then .ok (store.set m)
  else .error .commitFailed

/-- `GetFileMeta`; `none` is the "file not found" error. -/
def getFileMeta (store : BoltMetaStore) (fileID : GoString) : Option FileMeta :=
  store.files.get fileID

/-- `ListCatalog`: one entry per stored value, in key order, under the value's own ID. -/
def listCatalog (store : BoltMetaStore) : List CatalogEntry :=
  store.files.entries.map fun entry => entry.2.catalogEntry

@[simp] theorem get_empty (fileID : GoString) : empty.getFileMeta fileID = none := rfl

@[simp] theorem get_set_self (store : BoltMetaStore) (m : FileMeta) :
    (store.set m).getFileMeta m.fileID = some m.json :=
  OrderedMap.get_put_self store.files m.fileID m.json

/-- A record with a valid ID is read back as it was stored. -/
theorem get_set_valid (store : BoltMetaStore) {m : FileMeta} (h : ValidUtf8 m.fileID) :
    (store.set m).getFileMeta m.fileID = some m := by
  rw [get_set_self, FileMeta.json_of_valid h]

theorem get_set_of_ne (store : BoltMetaStore) (m : FileMeta) {fileID : GoString}
    (h : fileID ≠ m.fileID) : (store.set m).getFileMeta fileID = store.getFileMeta fileID :=
  OrderedMap.get_put_of_ne store.files h m.json

theorem get_set (store : BoltMetaStore) (m : FileMeta) (fileID : GoString) :
    (store.set m).getFileMeta fileID =
      if fileID = m.fileID then some m.json else store.getFileMeta fileID := by
  split_ifs with h
  · rw [h, get_set_self]
  · exact get_set_of_ne store m h

/-- An update removes no key. -/
theorem get_set_ne_none {store : BoltMetaStore} {fileID : GoString}
    (h : store.getFileMeta fileID ≠ none) (m : FileMeta) :
    (store.set m).getFileMeta fileID ≠ none := by
  rw [get_set]
  split_ifs
  · exact Option.some_ne_none _
  · exact h

/-- What is found after an update is the new record or was there before. -/
theorem get_set_cases {store : BoltMetaStore} {m found : FileMeta} {fileID : GoString}
    (h : (store.set m).getFileMeta fileID = some found) :
    (fileID = m.fileID ∧ found = m.json) ∨ store.getFileMeta fileID = some found := by
  rw [get_set] at h
  split_ifs at h with hkey
  · exact .inl ⟨hkey, (Option.some.inj h).symm⟩
  · exact .inr h

/-- The record under a key names the key, as JSON keeps it. -/
theorem file_id_of_get {store : BoltMetaStore} {fileID : GoString} {m : FileMeta}
    (h : store.getFileMeta fileID = some m) : m.fileID = jsonString fileID :=
  store.keyed fileID m h

/-- Whatever the index returns has been through JSON. -/
theorem json_of_get {store : BoltMetaStore} {fileID : GoString} {m : FileMeta}
    (h : store.getFileMeta fileID = some m) : m.json = m := by
  rw [FileMeta.json, file_id_of_get h, json_string_idem, ← file_id_of_get h]

/-- bbolt accepts the ID as a key. -/
def ValidKey (fileID : GoString) : Prop := fileID ≠ [] ∧ fileID.length ≤ maxKeySize

instance (fileID : GoString) : Decidable (ValidKey fileID) := inferInstanceAs (Decidable (_ ∧ _))

/-- `PutFileMeta` succeeds exactly if bbolt takes the key and commits, and then the record is
stored under its own ID. -/
theorem put_ok_iff {store next : BoltMetaStore} {m : FileMeta} {commit : Bool} :
    store.putFileMeta m commit = .ok next ↔
      ValidKey m.fileID ∧ commit = true ∧ next = store.set m := by
  unfold putFileMeta ValidKey
  split_ifs with hempty hlarge hcommit
  · simp [hempty]
  · simp only [false_iff]
    omega
  · simp only [Except.ok.injEq, hempty, hcommit, not_lt.mp hlarge, ne_eq, not_false_eq_true,
      true_and, eq_comm]
  · simp [hcommit]

/-- The catalog lists exactly the summaries of the stored records. -/
theorem mem_list_catalog {store : BoltMetaStore} {entry : CatalogEntry} :
    entry ∈ store.listCatalog ↔
      ∃ key m, store.getFileMeta key = some m ∧ m.catalogEntry = entry := by
  simp only [listCatalog, List.mem_map, Prod.exists, OrderedMap.mem_entries_iff]
  rfl

end BoltMetaStore

end NuSync.Store
