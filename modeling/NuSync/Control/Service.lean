import NuSync.Store.Cas
import NuSync.Store.Meta

/-!
# The control plane

`internal/control/service.go`: the Merkle diff and the chunk availability of a node, and the
request `Pull` makes for the diff. The messages carry raw byte fields of any length, as the
protobuf ones do. `is_synced_iff` says when a request made from an index entry is answered with
"in sync".
-/

namespace NuSync.Control

open NuSync.Go NuSync.Store

/-- `pb.DiffRequest`. -/
structure DiffRequest where
  fileID : GoString
  localMerkleRoot : Bytes
  knownChunkHashes : List Bytes

/-- `pb.DiffResponse`. -/
structure DiffResponse where
  fileID : GoString
  remoteMerkleRoot : Bytes
  isSynced : Bool
  missingChunkHashes : List Bytes
  deriving DecidableEq

/-- `ControlServer.DiffMerkleTree`. -/
def diffMerkleTree (index : BoltMetaStore) (req : DiffRequest) : DiffResponse :=
  match index.getFileMeta req.fileID with
  | none => ⟨req.fileID, [], false, []⟩
  | some m =>
      -- only a 32-byte root means that the requester has the file
      if req.localMerkleRoot.length = 32 ∧ m.merkleRoot.bytes = req.localMerkleRoot then
        ⟨req.fileID, m.merkleRoot.bytes, true, []⟩
      else
        let knownSet := (req.knownChunkHashes.filter fun raw => raw.length = 32).map Hash.copy
        let missing := m.chunkHashes.filter fun hash => hash ∉ knownSet
        ⟨req.fileID, m.merkleRoot.bytes, false, missing.map Hash.bytes⟩

/-- `ControlServer.GetChunkAvailability`. -/
def getChunkAvailability (objects : Hash → Option Bytes) (chunkHashes : List Bytes) : List Bytes :=
  chunkHashes.filter fun raw => raw.length = 32 ∧ (get objects (Hash.copy raw)).isSome

/-- The request `Pull` makes from its own entry: no root at all if it has none. -/
def diffRequest (fileID : GoString) (localMeta : Option FileMeta) : DiffRequest :=
  match localMeta with
  | none => ⟨fileID, [], []⟩
  | some m => ⟨fileID, m.merkleRoot.bytes, m.chunkHashes.map Hash.bytes⟩

@[simp] theorem diff_request_file_id (fileID : GoString) (localMeta : Option FileMeta) :
    (diffRequest fileID localMeta).fileID = fileID := by
  cases localMeta <;> rfl

/-- `ControlClient.Diff` against a server that is up. Protobuf refuses to encode a string that
is not valid UTF-8. -/
def diff (index : BoltMetaStore) (req : DiffRequest) : Option DiffResponse :=
  if ValidUtf8 req.fileID then some (diffMerkleTree index req) else none

/-- Whatever the request is, missing chunks are named by whole digests. -/
theorem length_missing {index : BoltMetaStore} {req : DiffRequest} {hash : Bytes}
    (h : hash ∈ (diffMerkleTree index req).missingChunkHashes) : hash.length = 32 := by
  unfold diffMerkleTree at h
  split at h
  · cases h
  · split_ifs at h
    · cases h
    · obtain ⟨digest, -, rfl⟩ := List.mem_map.mp h
      exact digest.length_eq

/-- A digest is available if it was asked for and there is an object. -/
theorem mem_availability_iff {objects : Hash → Option Bytes} {asked : List Bytes} {hash : Hash} :
    hash.bytes ∈ getChunkAvailability objects asked ↔ hash.bytes ∈ asked ∧ objects hash ≠ none := by
  simp [getChunkAvailability, hash.length_eq, Store.get, Option.isSome_iff_ne_none]

/-! ## The answer to a request made from an index entry -/

variable {index : BoltMetaStore} {fileID : GoString} {m known : FileMeta}

/-- A server without the file sends no root. -/
theorem diff_absent (h : index.getFileMeta fileID = none) (localMeta : Option FileMeta) :
    diffMerkleTree index (diffRequest fileID localMeta) = ⟨fileID, [], false, []⟩ := by
  cases localMeta <;> simp [diffMerkleTree, diffRequest, h]

/-- To a requester without the file every chunk is missing. -/
theorem diff_new (h : index.getFileMeta fileID = some m) :
    diffMerkleTree index (diffRequest fileID none) =
      ⟨fileID, m.merkleRoot.bytes, false, m.chunkHashes.map Hash.bytes⟩ := by
  simp [diffMerkleTree, diffRequest, h]

/-- A requester with the same root is in sync. -/
theorem diff_synced (h : index.getFileMeta fileID = some m)
    (hroot : m.merkleRoot = known.merkleRoot) :
    diffMerkleTree index (diffRequest fileID (some known)) =
      ⟨fileID, m.merkleRoot.bytes, true, []⟩ := by
  simp [diffMerkleTree, diffRequest, h, hroot, known.merkleRoot.length_eq]

/-- To a requester with another root the chunks outside its entry are missing. -/
theorem diff_missing (h : index.getFileMeta fileID = some m)
    (hroot : m.merkleRoot ≠ known.merkleRoot) :
    diffMerkleTree index (diffRequest fileID (some known)) =
      ⟨fileID, m.merkleRoot.bytes, false,
        (m.chunkHashes.filter fun hash => hash ∉ known.chunkHashes).map Hash.bytes⟩ := by
  have hbytes : m.merkleRoot.bytes ≠ known.merkleRoot.bytes := fun heq => hroot (Hash.ext heq)
  have hknown : ((known.chunkHashes.map Hash.bytes).filter fun raw => raw.length = 32).map
      Hash.copy = known.chunkHashes := by
    rw [List.filter_eq_self.mpr, List.map_map]
    · simp [Function.comp_def]
    · simp [Hash.length_eq]
  simp only [diffMerkleTree, diffRequest, h, hbytes, and_false, if_false, hknown]

/-- A server with the file answers "in sync" exactly to a requester with the same root. -/
theorem is_synced_iff (h : index.getFileMeta fileID = some m) (localMeta : Option FileMeta) :
    (diffMerkleTree index (diffRequest fileID localMeta)).isSynced = true ↔
      ∃ known, localMeta = some known ∧ known.merkleRoot = m.merkleRoot := by
  cases localMeta with
  | none => simp [diff_new h]
  | some known =>
      by_cases hroot : m.merkleRoot = known.merkleRoot
      · simp [diff_synced h hroot, hroot]
      · simp [diff_missing h hroot, Ne.symm hroot]

/-- A server with the file sends its root. -/
theorem remote_root_ne_nil (h : index.getFileMeta fileID = some m)
    (localMeta : Option FileMeta) :
    (diffMerkleTree index (diffRequest fileID localMeta)).remoteMerkleRoot.length ≠ 0 := by
  have hlen := m.merkleRoot.length_eq
  cases localMeta with
  | none => simp [diff_new h, hlen]
  | some known =>
      by_cases hroot : m.merkleRoot = known.merkleRoot
      · simp [diff_synced h hroot, hlen]
      · simp [diff_missing h hroot, hlen]

end NuSync.Control
