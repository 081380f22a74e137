import NuSync.Dataplane.Meta
import NuSync.Store.Format

/-!
# The bodies of metadata and catalog replies

`handleGetMeta` and `handleGetCatalog` of `internal/dataplane/server.go` write JSON, and
`FetchMeta` and `FetchCatalog` of `internal/dataplane/client.go` read it. The server here answers
from the bucket of JSON texts, so what a client gets has been through JSON up to three times:
stored, read, written as a reply and read again.
-/

namespace NuSync.Store

open NuSync.Go NuSync.Go.Json

/-! ## The text of a catalog -/

namespace CatalogEntry

/-- The value `json.Marshal` makes of an entry. -/
def toJson (entry : CatalogEntry) : Json := .obj
  [(ascii "FileID", .str entry.fileID), (ascii "MerkleRoot", ofHash entry.merkleRoot),
    (ascii "LamportTS", ofNat entry.lamportTS.toNat)]

/-- The zero value `CatalogEntry{}`. -/
def zero : CatalogEntry := ⟨[], .zero, 0⟩

/-- The fields of the struct. -/
def fields : List (StructField CatalogEntry) :=
  [.ofType "FileID" decodeString (fun st => st.fileID) fun st fileID => { st with fileID },
    .ofType "MerkleRoot" decodeHash (fun st => st.merkleRoot)
      fun st merkleRoot => { st with merkleRoot },
    .ofType "LamportTS" decodeUint64 (fun st => st.lamportTS)
      fun st lamportTS => { st with lamportTS }]

/-- The entry after JSON. -/
def json (entry : CatalogEntry) : CatalogEntry := { entry with fileID := jsonString entry.fileID }

/-- An entry is read back as JSON keeps it. -/
theorem reads_entry (entry : CatalogEntry) :
    Reads (decodeStruct fields) entry.toJson entry.json := fun old => by
  rw [toJson, reread, decodeStruct]
  refine (decode_members_cons "FileID" (by decide) rfl
    (decode_of_type (reads_string _ _)) _).trans ?_
  refine (decode_members_cons "MerkleRoot" (by decide) rfl
    (decode_of_type (reads_hash _ _)) _).trans ?_
  refine (decode_members_cons "LamportTS" (by decide) rfl
    (decode_of_type (reads_uint64 _ _)) _).trans ?_
  rw [rereadMembers, decodeMembers]
  rfl

theorem fits_to_json (entry : CatalogEntry) (depth : Nat) : Fits (depth + 2) entry.toJson := by
  intro member hmember
  simp only [List.mem_cons, List.not_mem_nil, or_false] at hmember
  rcases hmember with rfl | rfl | rfl
  · exact fits_str _ _
  · exact fits_of_hash _ _
  · exact fits_of_nat _ _

end CatalogEntry

/-- The catalog lists IDs that have been through JSON. -/
theorem BoltMetaStore.json_of_mem_catalog {store : BoltMetaStore} {entry : CatalogEntry}
    (h : entry ∈ store.listCatalog) : entry.json = entry := by
  obtain ⟨⟨key, m⟩, hmem, rfl⟩ := List.mem_map.mp h
  have hkey : m.fileID = jsonString key :=
    store.keyed key m (Lib.OrderedMap.mem_entries_iff.mp hmem)
  show ({ m.catalogEntry with fileID := jsonString m.fileID } : CatalogEntry) = m.catalogEntry
  rw [hkey, json_string_idem, ← hkey]
  rfl

end NuSync.Store

namespace NuSync.Dataplane

open NuSync.Go NuSync.Store

/-! ## Replies -/

/-- `json.NewEncoder(w).Encode(meta)`: the value and a line break. -/
def encodeMeta (m : FileMeta) (allocated : Bool) : Bytes := m.marshal allocated ++ [0x0A]

/-- `json.NewDecoder(resp.Body).Decode(&meta)`. -/
def decodeMeta (body : Bytes) : Option FileMeta := (Json.decodeFirst body).bind FileMeta.ofJson

/-- `json.NewEncoder(w).Encode(files)`: the list of entries is allocated with its first entry. -/
def encodeCatalog (entries : List CatalogEntry) : Bytes :=
  (Json.ofSlice (entries.map CatalogEntry.toJson) false).marshal ++ [0x0A]

/-- `json.NewDecoder(resp.Body).Decode(&entries)`. -/
def decodeCatalog (body : Bytes) : Option (List CatalogEntry) :=
  (Json.decodeFirst body).bind fun v =>
    (Json.decodeSlice (Json.decodeStruct CatalogEntry.fields) .zero ([], []) v).map Prod.fst

/-- A record is read back from the body of a reply. -/
theorem decode_encode_meta (m : FileMeta) (allocated : Bool) :
    decodeMeta (encodeMeta m allocated) = some m.json := by
  rw [decodeMeta, encodeMeta, FileMeta.marshal,
    Json.decode_first_marshal (m.fits_to_json allocated 9997), Option.bind_some,
    FileMeta.of_json_to_json]

/-- A catalog is read back from the body of a reply. -/
theorem decode_encode_catalog (entries : List CatalogEntry) :
    decodeCatalog (encodeCatalog entries) = some (entries.map CatalogEntry.json) := by
  have hfits : Json.Fits (9997 + 3) (Json.ofSlice (entries.map CatalogEntry.toJson) false) := by
    refine Json.fits_of_slice (fun v hv => ?_) false
    obtain ⟨entry, -, rfl⟩ := List.mem_map.mp hv
    exact entry.fits_to_json 9997
  obtain ⟨hidden, hslice⟩ :=
    Json.decode_slice_map .zero CatalogEntry.reads_entry ([], []) entries false
  rw [decodeCatalog, encodeCatalog, Json.decode_first_marshal hfits, Option.bind_some, hslice,
    Option.map_some]

/-! ## Requests -/

/-- The errors of `FetchMeta`, that of a body that does not decode among them. -/
inductive ReplyError where
  | request (error : FetchMetaError)
  | invalidJSON
  deriving DecidableEq

/-- `Server.handleGetMeta` over the bucket: the body, or the status of an error. -/
def serveMeta (bucket : FilesBucket) (uri : GoString) (allocated : Bool) : Except Nat Bytes :=
  match bucket.getFileMeta (getParam (parseQuery (cut 0x3F uri).2) (ascii "id")) with
  | .error _ => .error 404
  | .ok m => .ok (encodeMeta m allocated)

/-- `Server.handleGetCatalog` over the bucket. -/
def serveCatalog (bucket : FilesBucket) : Bytes := encodeCatalog bucket.listCatalog

/-- `Client.FetchMeta` towards a server that is up and accepts the signature, byte for byte. -/
def receiveMeta (bucket : FilesBucket) (fileID : GoString) (allocated : Bool) :
    Except ReplyError FileMeta :=
  match requestURI (metaTail fileID) with
  | none => .error (.request .createRequest)
  | some uri =>
      match parseRequestLine (requestLine uri) with
      | none => .error (.request (.httpStatus 400))
      | some uri =>
          match serveMeta bucket uri allocated with
          | .error code => .error (.request (.httpStatus code))
          | .ok body =>
              match decodeMeta body with
              | none => .error .invalidJSON
              | some m => .ok m

/-- `Client.FetchCatalog` towards such a server; `none` is a body that does not decode. -/
def receiveCatalog (bucket : FilesBucket) : Option (List CatalogEntry) :=
  decodeCatalog (serveCatalog bucket)

/-- What a client gets from the bucket is what it gets from the index. -/
theorem receive_meta_of_refines {bucket : FilesBucket} {store : BoltMetaStore}
    (h : Refines bucket store) (fileID : GoString) (allocated : Bool) :
    receiveMeta bucket fileID allocated = (fetchMeta store fileID).mapError .request := by
  unfold receiveMeta fetchMeta
  cases requestURI (metaTail fileID) with
  | none => rfl
  | some uri =>
      cases hline : parseRequestLine (requestLine uri) with
      | none => simp only [hline, Except.mapError]
      | some target =>
          simp only [hline, serveMeta, h.get, handleGetMeta]
          cases store.getFileMeta (getParam (parseQuery (cut 0x3F target).2) (ascii "id")) with
          | none => rfl
          | some m => simp only [Option.elim_some, decode_encode_meta, Except.mapError]

theorem receive_catalog_of_refines {bucket : FilesBucket} {store : BoltMetaStore}
    (h : Refines bucket store) : receiveCatalog bucket = some store.listCatalog := by
  have hjson : store.listCatalog.map CatalogEntry.json = store.listCatalog := by
    conv_rhs => rw [← List.map_id store.listCatalog]
    exact List.map_congr_left fun entry hentry => BoltMetaStore.json_of_mem_catalog hentry
  rw [receiveCatalog, serveCatalog, decode_encode_catalog, h.catalog, hjson]

/-- After any calls of `PutFileMeta` on a peer's new database, `FetchMeta` and `FetchCatalog` get
from it, through the stored texts and the reply's text, what the index of records holds: the record
of a file or the 404 of one that is not there, for every ID that the URL carries as it is, and the
whole catalog in its order. No reply fails to decode. -/
theorem replies_carry_index (calls : List MetaCall) :
    (∀ fileID allocated, (∀ b ∈ fileID, isPlain b) →
      receiveMeta (bucketAfter calls).1 fileID allocated =
        ((indexAfter calls).1.getFileMeta fileID).elim
          (.error (.request (.httpStatus 404))) .ok) ∧
    receiveCatalog (bucketAfter calls).1 = some (indexAfter calls).1.listCatalog := by
  obtain ⟨-, hrefines⟩ := refines_after calls
  refine ⟨fun fileID allocated hplain => ?_, receive_catalog_of_refines hrefines⟩
  rw [receive_meta_of_refines hrefines,
    fetch_meta_of_requested _ ((requested_id_eq_iff fileID).mpr hplain)]
  cases (indexAfter calls).1.getFileMeta fileID <;> rfl

set_option maxRecDepth 4000 in
/-- The first of the calls is the one whose record a client gets. -/
theorem replies_carry_index_sample :
    (∀ b ∈ [0x61, 0xFF], isPlain b) ∧
      receiveMeta (bucketAfter sampleCalls).1 [0x61, 0xFF] true =
        .ok ⟨[0x61, 0xEF, 0xBF, 0xBD], .zero, 0, [.zero], 0⟩ ∧
      receiveCatalog (bucketAfter sampleCalls).1 = some [⟨[0x61, 0xEF, 0xBF, 0xBD], .zero, 0⟩] := by
  obtain ⟨hmeta, hcatalog⟩ := replies_carry_index sampleCalls
  exact ⟨by decide, (hmeta _ true (by decide)).trans (by decide), hcatalog.trans (by decide)⟩

end NuSync.Dataplane
