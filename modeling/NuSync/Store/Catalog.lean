import NuSync.Store.Meta

/-!
# What the index gives back

A sequence of `PutFileMeta` calls on a new index, and what `GetFileMeta` and `ListCatalog` return
afterwards. Lookups go by the key, the raw file ID, while the catalog reports the copy of the ID
inside the record, which has been through JSON. `round_trips_iff` says that the two views agree
exactly as long as every ID is valid UTF-8.
-/

namespace NuSync.Store

open NuSync.Go NuSync.Lib

namespace BoltMetaStore

/-- `PutFileMeta` calls one after another, each of which bbolt commits. -/
def putAll (store : BoltMetaStore) (puts : List FileMeta) : Except PutError BoltMetaStore :=
  puts.foldlM (fun store m => store.putFileMeta m true) store

/-- The record of the last `PutFileMeta` with this file ID. -/
def lastPut (puts : List FileMeta) (fileID : GoString) : Option FileMeta :=
  (puts.filter fun m => m.fileID = fileID).getLast?

/-- The index gives back what was put into it: every lookup finds the last record put under the
ID, the catalog has one entry for each ID that was put, and looking up the ID of a catalog entry
finds the version it lists. -/
structure RoundTrips (puts : List FileMeta) (store : BoltMetaStore) : Prop where
  get : ∀ fileID, store.getFileMeta fileID = lastPut puts fileID
  nodup : (store.listCatalog.map CatalogEntry.fileID).Nodup
  listed : ∀ fileID, fileID ∈ store.listCatalog.map CatalogEntry.fileID ↔
    ∃ m ∈ puts, m.fileID = fileID
  agree : ∀ entry ∈ store.listCatalog, ∃ m, store.getFileMeta entry.fileID = some m ∧
    m.merkleRoot = entry.merkleRoot ∧ m.lamportTS = entry.lamportTS

variable {puts : List FileMeta} {store : BoltMetaStore}

theorem put_file_meta_of_valid (store : BoltMetaStore) {m : FileMeta} (h : ValidKey m.fileID) :
    store.putFileMeta m true = .ok (store.set m) :=
  put_ok_iff.mpr ⟨h, rfl, rfl⟩

/-- Puts with IDs that bbolt takes all succeed. -/
theorem put_all_of_valid (store : BoltMetaStore) (hkeys : ∀ m ∈ puts, ValidKey m.fileID) :
    store.putAll puts = .ok (puts.foldl set store) := by
  induction puts generalizing store with
  | nil => rfl
  | cons m puts ih =>
      have hput := put_file_meta_of_valid store (hkeys m (by simp))
      rw [putAll, List.foldlM_cons, hput]
      exact ih (store.set m) fun m hm => hkeys m (by simp [hm])

/-- A lookup finds the last record put under the ID, as JSON keeps it. -/
theorem get_foldl_set (puts : List FileMeta) (fileID : GoString) :
    (puts.foldl set empty).getFileMeta fileID = (lastPut puts fileID).map FileMeta.json := by
  -- the last put is the one that counts
  induction puts using List.reverseRecOn with
  | nil => rfl
  | append_singleton puts m ih =>
      rw [List.foldl_append, List.foldl_cons, List.foldl_nil, get_set, ih]
      by_cases hid : fileID = m.fileID
      · simp [lastPut, hid]
      · simp [lastPut, hid, Ne.symm hid]

/-- The last record put under an ID has that ID and was put. -/
theorem mem_of_last_put {fileID : GoString} {m : FileMeta} (h : lastPut puts fileID = some m) :
    m ∈ puts ∧ m.fileID = fileID := by
  have hmem := List.mem_of_getLast? h
  simpa using hmem

/-- Something was put under the ID of every record that was put. -/
theorem exists_last_put {m : FileMeta} (hm : m ∈ puts) :
    ∃ last, lastPut puts m.fileID = some last := by
  have hne : puts.filter (fun other => other.fileID = m.fileID) ≠ [] :=
    List.ne_nil_of_mem (List.mem_filter.mpr ⟨hm, by simp⟩)
  exact ⟨_, List.getLast?_eq_some_getLast hne⟩

/-- An index all of whose keys are valid UTF-8 lists its keys. -/
theorem catalog_ids (hvalid : ∀ key m, store.getFileMeta key = some m → ValidUtf8 key) :
    store.listCatalog.map CatalogEntry.fileID = store.files.entries.map Prod.fst := by
  rw [listCatalog, List.map_map]
  refine List.map_congr_left fun entry hentry => ?_
  have hget : store.getFileMeta entry.1 = some entry.2 := OrderedMap.mem_entries_iff.mp hentry
  exact (file_id_of_get hget).trans (hvalid _ _ hget)

/-- With valid IDs the index gives back what was put. -/
theorem round_trips_of_valid (hvalid : ∀ m ∈ puts, ValidUtf8 m.fileID) :
    RoundTrips puts (puts.foldl set empty) := by
  have hget (fileID : GoString) :
      (puts.foldl set empty).getFileMeta fileID = lastPut puts fileID := by
    rw [get_foldl_set]
    cases hlast : lastPut puts fileID with
    | none => rfl
    | some m => rw [Option.map_some, FileMeta.json_of_valid (hvalid m (mem_of_last_put hlast).1)]
  have hkeys (key : GoString) (m : FileMeta)
      (h : (puts.foldl set empty).getFileMeta key = some m) : ValidUtf8 key := by
    obtain ⟨hm, rfl⟩ := mem_of_last_put ((hget key).symm.trans h)
    exact hvalid m hm
  have hids := catalog_ids hkeys
  refine ⟨hget, ?_, fun fileID => ?_, fun entry hentry => ?_⟩
  · rw [hids]
    exact (List.pairwise_map.mpr (puts.foldl set empty).files.sorted).imp ne_of_lt
  · rw [hids]
    constructor
    · intro hmem
      obtain ⟨⟨key, m⟩, hentry, rfl⟩ := List.mem_map.mp hmem
      have hfound := (hget key).symm.trans (OrderedMap.mem_entries_iff.mp hentry)
      exact ⟨m, mem_of_last_put hfound⟩
    · rintro ⟨m, hm, rfl⟩
      obtain ⟨last, hlast⟩ := exists_last_put hm
      exact List.mem_map.mpr
        ⟨(m.fileID, last), OrderedMap.mem_entries_iff.mpr ((hget _).trans hlast), rfl⟩
  · obtain ⟨key, m, hfound, rfl⟩ := mem_list_catalog.mp hentry
    have hid : m.fileID = key := (file_id_of_get hfound).trans (hkeys key m hfound)
    exact ⟨m, by rw [FileMeta.catalogEntry, hid]; exact hfound, rfl, rfl⟩

/-- **The index gives back what was put into it exactly if every file ID is valid UTF-8.** -/
theorem round_trips_iff (puts : List FileMeta) (hkeys : ∀ m ∈ puts, ValidKey m.fileID) :
    ∃ store, empty.putAll puts = .ok store ∧
      (RoundTrips puts store ↔ ∀ m ∈ puts, ValidUtf8 m.fileID) := by
  refine ⟨_, put_all_of_valid empty hkeys, fun htrips m hm => ?_, round_trips_of_valid⟩
  obtain ⟨last, hlast⟩ := exists_last_put hm
  have hfound := (htrips.get m.fileID).trans hlast
  -- the record under the ID names it as JSON keeps it, and the record that was put names the ID
  exact (file_id_of_get hfound).symm.trans (mem_of_last_put hlast).2

/-- Two versions of one file and another file come back as they were put. -/
theorem round_trips_two_files :
    let f : FileMeta := ⟨ascii "f", .zero, 1, [], 0⟩
    let g : FileMeta := ⟨ascii "g", .zero, 2, [], 0⟩
    ∃ store, empty.putAll [f, g, { f with lamportTS := 3 }] = .ok store ∧
      RoundTrips [f, g, { f with lamportTS := 3 }] store := by
  intro f g
  obtain ⟨store, hput, htrips⟩ := round_trips_iff [f, g, { f with lamportTS := 3 }] (by decide)
  exact ⟨store, hput, htrips.mpr (by decide)⟩

/-- A file name that is not valid UTF-8: the record found under it has another ID, and the ID the
catalog lists finds nothing. -/
theorem catalog_lists_unknown_id :
    let m : FileMeta := ⟨[0xFF], .zero, 1, [], 0⟩
    ∃ store, empty.putAll [m] = .ok store ∧ store.getFileMeta m.fileID ≠ some m ∧
      ∃ entry ∈ store.listCatalog, store.getFileMeta entry.fileID = none := by
  intro m
  refine ⟨set empty m, rfl, by decide, ⟨runeError, .zero, 1⟩, by decide, by decide⟩

end BoltMetaStore

end NuSync.Store
