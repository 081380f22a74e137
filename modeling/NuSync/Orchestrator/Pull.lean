import NuSync.Assembler
import NuSync.Control.Service
import NuSync.Discovery
import NuSync.Go.Path
import NuSync.Orchestrator.Download

/-!
# `Engine.Pull`

`internal/orchestrator/sync.go`. A pull asks its peers in order for a diff and the file's
metadata, downloads the missing chunks, assembles the file and stores the metadata. Everything
that peers, the scheduler and the file system decide is in a `PullEnv`; given one, `pull` is a
function of the node. `pull_cases` takes it apart into its phases.
-/

namespace NuSync.Orchestrator

open NuSync.Go NuSync.Lib NuSync.Store NuSync.Control NuSync.Discovery NuSync.Scheduler
  NuSync.Assembler

/-- The state of a node that `Pull` works on: the index, the blob store, the files below
`BaseDir` by their cleaned path, the health tracker and the marks of the quiet set. -/
structure Node where
  index : BoltMetaStore
  objects : Hash → Option Bytes
  disk : GoString → Option Bytes
  tracker : HealthTracker
  quiet : GoString → Option Int

/-- What one peer answers in the peer loop: whether the control connection comes up, its answer
to the diff request, and the record `FetchMeta` gets. -/
structure PeerAnswer where
  connects : Bool
  diff : DiffRequest → Option DiffResponse
  fetchMeta : Option FileMeta

/-- The answers of the file system during assembly. `readChunk` and `writeChunk` are about the
chunk at an index; a failing write says how many bytes it got to disk. -/
structure DiskAnswers where
  mkdirAll : Bool
  markedAt : Int
  create : Bool
  truncate : Bool
  readChunk : Nat → Bool
  writeChunk : Nat → Option Nat
  close : Bool
  commit : Bool

/-- A file system on which everything succeeds. -/
def DiskAnswers.allOk : DiskAnswers where
  mkdirAll := true
  markedAt := 0
  create := true
  truncate := true
  readChunk _ := true
  writeChunk _ := none
  close := true
  commit := true

/-- Everything `Pull` does not decide itself. -/
structure PullEnv where
  peers : List (PeerInfo × PeerAnswer)
  availability : List (GoString × List Bytes)
  sorter : RaritySort
  schedule : List FetchEvent
  io : DiskAnswers

/-- The errors the peer loop remembers in `lastErr`. -/
inductive PeerError where
  | connection (grpcAddr : GoString)
  | diff (grpcAddr : GoString)
  | fetchMeta (httpPeer : GoString)
  deriving DecidableEq

/-- The errors `Pull` returns. -/
inductive PullError where
  | noCandidates (fileID : GoString)
  | noPeerHadFile (fileID : GoString) (lastErr : Option PeerError)
  | download (err : DownloadError)
  | mkdir (outPath : GoString)
  | assembler
  | chunkMissing (hash : Hash)
  | writeChunk (i : Nat) (fileID : GoString) (err : WriteError)
  | finalize (outPath : GoString)
  | saveMeta (err : BoltMetaStore.PutError)
  deriving DecidableEq

/-- What a pull leaves behind: the node, the result and the announcement it made. -/
structure PullOutcome where
  node : Node
  result : Except PullError Unit
  announced : Option (GoString × Hash × UInt64)

/-- The map `grpcToHTTP`: a later peer with the same control address replaces an earlier one. -/
def grpcToHTTP (peers : List PeerInfo) (grpcAddr : GoString) : Option GoString :=
  ((peers.filter fun p => p.grpcAddr = grpcAddr).getLast?).map PeerInfo.httpAddr

/-- The peer loop: the first peer that has the file and serves its metadata is taken. -/
def selectPeer (req : DiffRequest) (httpAddr : GoString → Option GoString) :
    Option PeerError → List (PeerInfo × PeerAnswer) →
      Except (Option PeerError) (DiffResponse × FileMeta)
  | lastErr, [] => .error lastErr
  | lastErr, (peer, answer) :: peers =>
      if answer.connects = false then
        selectPeer req httpAddr (some (.connection peer.grpcAddr)) peers
      else
        match answer.diff req with
        | none => selectPeer req httpAddr (some (.diff peer.grpcAddr)) peers
        | some d =>
            -- no root: the peer doesn't have the file
            if d.remoteMerkleRoot.length = 0 then selectPeer req httpAddr lastErr peers
            else
              let httpPeer := (httpAddr peer.grpcAddr).getD []
              match answer.fetchMeta with
              | none => selectPeer req httpAddr (some (.fetchMeta httpPeer)) peers
              | some rm => .ok (d, rm.json)

/-- The assembly loop from chunk `i` at `currentOffset`. -/
def writeChunks (objects : Hash → Option Bytes) (io : DiskAnswers) (fileID : GoString) :
    Nat → Int → SparseFile → List Hash → SparseFile × Except PullError Unit
  | _, _, sparse, [] => (sparse, .ok ())
  | i, currentOffset, sparse, hash :: hashes =>
      match if io.readChunk i then get objects hash else none with
      | none => (sparse, .error (.chunkMissing hash))
      | some data =>
          match sparse.writeChunk (io.writeChunk i) i currentOffset data with
          | (sparse, .error err) => (sparse, .error (.writeChunk i fileID err))
          | (sparse, .ok ()) =>
              writeChunks objects io fileID (i + 1) (addInt64 currentOffset data.length) sparse
                hashes

/-- `outPath`: on Unix `FromSlash` changes nothing. -/
def outPath (baseDir fileID : GoString) : GoString := join baseDir fileID

/-- The node after `MarkQuiet`. -/
def Node.markQuiet (node : Node) (path : GoString) (now : Int) : Node :=
  { node with quiet := Function.update node.quiet path (some now) }

/-- The node with another file at a path. -/
def Node.setFile (node : Node) (path : GoString) (file : Option Bytes) : Node :=
  { node with disk := Function.update node.disk path file }

/-- The assembly phase: from the parent directory to closing the file. -/
def assemble (baseDir fileID : GoString) (io : DiskAnswers) (remoteMeta : FileMeta) (node : Node) :
    Node × Except PullError Unit :=
  let out := outPath baseDir fileID
  if io.mkdirAll = false then (node, .error (.mkdir out))
  else
    let node := node.markQuiet out io.markedAt
    match newSparseFile (node.disk out) io.create io.truncate (int64 remoteMeta.sizeBytes)
        remoteMeta.chunkHashes.length with
    | (file, none) => (node.setFile out file, .error .assembler)
    | (_, some sparse) =>
        let (sparse, result) := writeChunks node.objects io fileID 0 0 sparse remoteMeta.chunkHashes
        let node := node.setFile out (some sparse.bytes)
        match result with
        | .error err => (node, .error err)
        | .ok () => if io.close then (node, .ok ()) else (node, .error (.finalize out))

/-- The last phase: the metadata is stored under its own file ID. -/
def saveMeta (io : DiskAnswers) (remoteMeta : FileMeta) (node : Node) :
    Node × Except PullError Unit :=
  match node.index.putFileMeta remoteMeta io.commit with
  | .error err => (node, .error (.saveMeta err))
  | .ok index => ({ node with index := index }, .ok ())

section Pull

variable (sha256 : Bytes → Hash) (baseDir fileID : GoString) (env : PullEnv)

/-- The peer loop on the request made from the local entry. -/
def PullEnv.select (index : BoltMetaStore) :
    Except (Option PeerError) (DiffResponse × FileMeta) :=
  selectPeer (diffRequest fileID (index.getFileMeta fileID))
    (grpcToHTTP (env.peers.map Prod.fst)) none env.peers

/-- The download phase for a list of missing chunks. -/
def PullEnv.fetchChunks (missing : List Bytes) (objects : Hash → Option Bytes)
    (tracker : HealthTracker) : Option (Download × Except DownloadError Unit) :=
  download sha256 (grpcToHTTP (env.peers.map Prod.fst))
    (buildRarityMap env.sorter missing env.availability) objects tracker env.schedule

/-- Assembly and the index update, after the chunks are there. -/
def PullEnv.finish (remoteMeta : FileMeta) (node : Node) : PullOutcome :=
  match assemble baseDir fileID env.io remoteMeta node with
  | (node, .error err) => ⟨node, .error err, none⟩
  | (node, .ok ()) =>
      match saveMeta env.io remoteMeta node with
      | (node, .error err) => ⟨node, .error err, none⟩
      | (node, .ok ()) =>
          ⟨node, .ok (), some (remoteMeta.fileID, remoteMeta.merkleRoot, remoteMeta.lamportTS)⟩

/-- The node once a download has ended. -/
def Node.downloaded (node : Node) (d : Download) : Node :=
  { node with objects := d.objects, tracker := d.tracker }

/-- `Engine.Pull`. `none` only if the schedule does not bring the download to an end. -/
def pull (node : Node) : Option PullOutcome :=
  if env.peers.length = 0 then some ⟨node, .error (.noCandidates fileID), none⟩
  else
    match env.select fileID node.index with
    | .error lastErr => some ⟨node, .error (.noPeerHadFile fileID lastErr), none⟩
    | .ok (diff, remoteMeta) =>
        if diff.isSynced then some ⟨node, .ok (), none⟩
        else
          (env.fetchChunks sha256 diff.missingChunkHashes node.objects node.tracker).map
            fun (d, result) =>
              match result with
              | .error err => ⟨node.downloaded d, .error (.download err), none⟩
              | .ok () => env.finish baseDir fileID remoteMeta (node.downloaded d)

end Pull

/-! ## The phases -/

section Phases

variable {sha256 : Bytes → Hash} {baseDir fileID : GoString} {env : PullEnv} {node : Node}
  {outcome : PullOutcome}

/-- The record the peer loop returns is the one some peer served, decoded. -/
theorem select_peer_mem {req : DiffRequest} {httpAddr : GoString → Option GoString}
    {lastErr : Option PeerError} {peers : List (PeerInfo × PeerAnswer)} {diff : DiffResponse}
    {m : FileMeta} (h : selectPeer req httpAddr lastErr peers = .ok (diff, m)) :
    ∃ entry ∈ peers, ∃ rm, entry.2.fetchMeta = some rm ∧ m = rm.json := by
  induction peers generalizing lastErr with
  | nil => cases h
  | cons peer peers ih =>
      have hlater {lastErr : Option PeerError}
          (h : selectPeer req httpAddr lastErr peers = .ok (diff, m)) :
          ∃ entry ∈ peer :: peers, ∃ rm, entry.2.fetchMeta = some rm ∧ m = rm.json := by
        obtain ⟨entry, hentry, hrm⟩ := ih h
        exact ⟨entry, List.mem_cons_of_mem peer hentry, hrm⟩
      unfold selectPeer at h
      split_ifs at h
      · exact hlater h
      · split at h
        · exact hlater h
        · split_ifs at h
          · exact hlater h
          · split at h
            · exact hlater h
            · next rm hfetch =>
                cases h
                exact ⟨peer, List.mem_cons_self, rm, hfetch, rfl⟩

/-- **The four ways a pull ends.** No peer serves the file; the peer that is taken says the file
is in sync; the download fails; or the pull goes on to assembly. -/
theorem pull_cases (h : pull sha256 baseDir fileID env node = some outcome) :
    (∃ err, outcome = ⟨node, .error err, none⟩) ∨
    (∃ diff m, env.select fileID node.index = .ok (diff, m) ∧ diff.isSynced = true ∧
      outcome = ⟨node, .ok (), none⟩) ∨
    (∃ diff m d err, env.select fileID node.index = .ok (diff, m) ∧ diff.isSynced = false ∧
      env.fetchChunks sha256 diff.missingChunkHashes node.objects node.tracker =
        some (d, .error err) ∧
      outcome = ⟨node.downloaded d, .error (.download err), none⟩) ∨
    (∃ diff m d, env.select fileID node.index = .ok (diff, m) ∧ diff.isSynced = false ∧
      env.fetchChunks sha256 diff.missingChunkHashes node.objects node.tracker =
        some (d, .ok ()) ∧
      outcome = env.finish baseDir fileID m (node.downloaded d)) := by
  unfold pull at h
  split_ifs at h
  · exact .inl ⟨_, (Option.some.inj h).symm⟩
  · split at h
    · exact .inl ⟨_, (Option.some.inj h).symm⟩
    · next diff m hselect =>
        split_ifs at h with hsynced
        · exact .inr (.inl ⟨diff, m, hselect, hsynced, (Option.some.inj h).symm⟩)
        · rw [Bool.not_eq_true] at hsynced
          obtain ⟨⟨d, result⟩, hdownload, rfl⟩ := Option.map_eq_some_iff.mp h
          cases result with
          | error err =>
              exact .inr (.inr (.inl ⟨diff, m, d, err, hselect, hsynced, hdownload, rfl⟩))
          | ok _ => exact .inr (.inr (.inr ⟨diff, m, d, hselect, hsynced, hdownload, rfl⟩))

/-- The map of addresses knows every peer. -/
theorem grpc_to_http_of_nodup {peers : List PeerInfo} (h : (peers.map PeerInfo.grpcAddr).Nodup)
    {peer : PeerInfo} (hpeer : peer ∈ peers) :
    grpcToHTTP peers peer.grpcAddr = some peer.httpAddr := by
  have hmem : peer ∈ peers.filter fun p => p.grpcAddr = peer.grpcAddr := by simp [hpeer]
  have hne := List.ne_nil_of_mem hmem
  rw [grpcToHTTP, List.getLast?_eq_some_getLast hne, Option.map_some]
  obtain ⟨hlast, haddr⟩ := List.mem_filter.mp (List.getLast_mem hne)
  rw [List.inj_on_of_nodup_map h hlast hpeer (of_decide_eq_true haddr)]

/-- A peer that is taken is one of the peers. -/
theorem length_peers_ne_zero {index : BoltMetaStore} {selected : DiffResponse × FileMeta}
    (hselect : env.select fileID index = .ok selected) : env.peers.length ≠ 0 := by
  intro hnone
  rw [PullEnv.select, List.length_eq_zero_iff.mp hnone] at hselect
  cases hselect

/-- A pull that gets through its download goes on to assembly. -/
theorem pull_of_fetched {diff : DiffResponse} {m : FileMeta} {d : Download}
    (hselect : env.select fileID node.index = .ok (diff, m)) (hsynced : diff.isSynced = false)
    (hdownload : env.fetchChunks sha256 diff.missingChunkHashes node.objects node.tracker =
      some (d, .ok ())) :
    pull sha256 baseDir fileID env node =
      some (env.finish baseDir fileID m (node.downloaded d)) := by
  have hpeers := length_peers_ne_zero hselect
  simp [pull, hpeers, hselect, hsynced, hdownload]

/-- A pull whose download fails reports its error. -/
theorem pull_of_failed {diff : DiffResponse} {m : FileMeta} {d : Download} {err : DownloadError}
    (hselect : env.select fileID node.index = .ok (diff, m)) (hsynced : diff.isSynced = false)
    (hdownload : env.fetchChunks sha256 diff.missingChunkHashes node.objects node.tracker =
      some (d, .error err)) :
    pull sha256 baseDir fileID env node =
      some ⟨node.downloaded d, .error (.download err), none⟩ := by
  have hpeers := length_peers_ne_zero hselect
  simp [pull, hpeers, hselect, hsynced, hdownload]

/-- A pull from a peer that says the file is in sync does nothing. -/
theorem pull_of_synced {diff : DiffResponse} {m : FileMeta}
    (hselect : env.select fileID node.index = .ok (diff, m)) (hsynced : diff.isSynced = true) :
    pull sha256 baseDir fileID env node = some ⟨node, .ok (), none⟩ := by
  have hpeers := length_peers_ne_zero hselect
  simp [pull, hpeers, hselect, hsynced]

end Phases

/-! ## Assembly -/

/-- The offset at which the chunk after these ones is written. -/
def offsetAfter (objects : Hash → Option Bytes) (start : Int) (hashes : List Hash) : Int :=
  hashes.foldl (fun offset hash => addInt64 offset ((objects hash).getD []).length) start

/-- The loop can write these chunks from index `i` on: each is in the store, the file system
lets it be read and written, and its offset has not wrapped around. -/
structure Writable (objects : Hash → Option Bytes) (io : DiskAnswers) (i : Nat) (start : Int)
    (hashes : List Hash) : Prop where
  stored : ∀ hash ∈ hashes, objects hash ≠ none
  read : ∀ k < hashes.length, io.readChunk (i + k) = true
  written : ∀ k < hashes.length, io.writeChunk (i + k) = none
  offset : ∀ k < hashes.length, 0 ≤ offsetAfter objects start (hashes.take k)

theorem writable_cons {objects : Hash → Option Bytes} {io : DiskAnswers} {i : Nat} {start : Int}
    {hash : Hash} {hashes : List Hash} :
    Writable objects io i start (hash :: hashes) ↔
      io.readChunk i = true ∧ io.writeChunk i = none ∧ 0 ≤ start ∧
        ∃ data, objects hash = some data ∧
          Writable objects io (i + 1) (addInt64 start data.length) hashes := by
  constructor
  · rintro ⟨hstored, hread, hwritten, hoffset⟩
    obtain ⟨data, hdata⟩ := Option.ne_none_iff_exists'.mp (hstored hash (by simp))
    refine ⟨hread 0 (by simp), hwritten 0 (by simp), hoffset 0 (by simp), data, hdata, ?_⟩
    refine ⟨fun h hh => hstored h (by simp [hh]), fun k hk => ?_, fun k hk => ?_, fun k hk => ?_⟩
    · rw [Nat.add_assoc, Nat.add_comm 1]
      exact hread (k + 1) (by simpa using hk)
    · rw [Nat.add_assoc, Nat.add_comm 1]
      exact hwritten (k + 1) (by simpa using hk)
    · simpa [offsetAfter, hdata] using hoffset (k + 1) (by simpa using hk)
  · rintro ⟨hread, hwritten, hstart, data, hdata, hrest⟩
    refine ⟨by simpa [hdata] using hrest.stored, fun k hk => ?_, fun k hk => ?_, fun k hk => ?_⟩
      <;> cases k with
      | zero => assumption
      | succ k =>
          have hk' : k < hashes.length := by simpa using hk
          have := hrest.read k hk'
          have := hrest.written k hk'
          have := hrest.offset k hk'
          simp_all [offsetAfter, Nat.add_assoc, Nat.add_comm 1]

/-- The assembly loop succeeds exactly if it can write all its chunks. -/
theorem write_chunks_ok_iff {objects : Hash → Option Bytes} {io : DiskAnswers} {fileID : GoString}
    {i : Nat} {start : Int} {s : SparseFile} {hashes : List Hash}
    (htotal : s.total = i + hashes.length) (hbits : ∀ j, i ≤ j → s.bitmap[j]? ≠ some true) :
    (writeChunks objects io fileID i start s hashes).2 = .ok () ↔
      Writable objects io i start hashes := by
  induction hashes generalizing i start s with
  | nil => exact ⟨fun _ => ⟨by simp, by simp, by simp, by simp⟩, fun _ => rfl⟩
  | cons hash hashes ih =>
      rw [writable_cons, writeChunks]
      cases hread : io.readChunk i with
      | false => simp
      | true =>
          cases hdata : objects hash with
          | none => simp [Store.get, hdata]
          | some data =>
              simp only [if_true, Store.get, hdata]
              rw [write_chunk_fresh (by simp [htotal]) (hbits i le_rfl)]
              by_cases hstart : start < 0
              · simp [hstart]
              · cases hwrite : io.writeChunk i with
                | some written => simp [hstart]
                | none =>
                    simp only [hstart, if_false, Option.some.injEq, exists_eq_left', true_and]
                    rw [ih (by simpa [Nat.add_assoc, Nat.add_comm 1] using htotal) fun j hj => by
                      rw [List.getElem?_set_ne (by omega)]
                      exact hbits j (by omega)]
                    exact ⟨fun h => ⟨by omega, h⟩, fun h => h.2⟩

/-- The same for a file into which the chunks before have been written in order. -/
theorem write_chunks_partly_ok_iff (objects : Hash → Option Bytes) (io : DiskAnswers)
    (fileID : GoString) (front : List Bytes) (start : Int) (zeros : Nat) (hashes : List Hash) :
    (writeChunks objects io fileID front.length start (partlyWritten front hashes.length zeros)
      hashes).2 = .ok () ↔ Writable objects io front.length start hashes := by
  refine write_chunks_ok_iff rfl fun j hj => ?_
  rw [partlyWritten, List.getElem?_append_right (by simpa using hj), List.getElem?_replicate]
  split_ifs <;> simp

section Assembly

variable (baseDir fileID : GoString) (io : DiskAnswers) (m : FileMeta) (node : Node)

/-- **The four ways assembly ends.** The parent directory is not made; the file is not created;
its length cannot be set and it is left empty; or the loop writes into it. -/
theorem assemble_cases :
    let out := outPath baseDir fileID
    let marked := node.markQuiet out io.markedAt
    (io.mkdirAll = false ∧ assemble baseDir fileID io m node = (node, .error (.mkdir out))) ∨
    (io.mkdirAll = true ∧ io.create = false ∧
      assemble baseDir fileID io m node = (marked, .error .assembler)) ∨
    (io.mkdirAll = true ∧ io.create = true ∧
      ¬ (io.truncate = true ∧ m.sizeBytes.toNat < 2 ^ 63) ∧
      assemble baseDir fileID io m node = (marked.setFile out (some []), .error .assembler)) ∨
    (io.mkdirAll = true ∧ io.create = true ∧ io.truncate = true ∧ m.sizeBytes.toNat < 2 ^ 63 ∧
      ∃ sparse result, writeChunks node.objects io fileID 0 0
          (partlyWritten [] m.chunkHashes.length m.sizeBytes.toNat) m.chunkHashes =
            (sparse, result) ∧
        (assemble baseDir fileID io m node).1 = marked.setFile out (some sparse.bytes) ∧
        ((assemble baseDir fileID io m node).2 = .ok () ↔ result = .ok () ∧ io.close = true)) := by
  intro out marked
  cases hmkdir : io.mkdirAll with
  | false => exact .inl ⟨rfl, by simp [assemble, hmkdir, out]⟩
  | true =>
      cases hcreate : io.create with
      | false =>
          refine .inr (.inl ⟨rfl, rfl, ?_⟩)
          simp [assemble, hmkdir, hcreate, newSparseFile, Node.setFile, marked, out]
      | true =>
          by_cases hsize : io.truncate = true ∧ m.sizeBytes.toNat < 2 ^ 63
          · obtain ⟨htruncate, hlt⟩ := hsize
            rcases hloop : writeChunks node.objects io fileID 0 0
              (partlyWritten [] m.chunkHashes.length m.sizeBytes.toNat) m.chunkHashes with
              ⟨sparse, result⟩
            refine .inr (.inr (.inr ⟨rfl, rfl, htruncate, hlt, sparse, result, rfl, ?_⟩))
            simp only [assemble, hmkdir, hcreate, htruncate, Bool.true_eq_false, if_false,
              int64_of_lt hlt, new_sparse_file_ok _ (Int.natCast_nonneg _), Int.toNat_natCast,
              Node.markQuiet, hloop]
            cases result with
            | error err => simp [marked, out, Node.markQuiet]
            | ok _ => cases io.close <;> simp [marked, out, Node.markQuiet]
          · refine .inr (.inr (.inl ⟨rfl, rfl, hsize, ?_⟩))
            have hfail : io.truncate = false ∨ int64 m.sizeBytes < 0 := by
              rw [← not_le, int64_nonneg_iff, ← Bool.not_eq_true]
              tauto
            simp [assemble, hmkdir, hcreate, newSparseFile, hfail, marked, out]

/-- Assembly never touches the index or the blob store. -/
theorem assemble_frame :
    (assemble baseDir fileID io m node).1.index = node.index ∧
      (assemble baseDir fileID io m node).1.objects = node.objects := by
  rcases assemble_cases baseDir fileID io m node with
    ⟨-, heq⟩ | ⟨-, -, heq⟩ | ⟨-, -, -, heq⟩ | ⟨-, -, -, -, _, _, -, heq, -⟩ <;>
  · rw [heq]
    exact ⟨rfl, rfl⟩

/-- Assembly leaves the file as it was exactly as long as it has not been opened. -/
theorem assemble_disk :
    if io.mkdirAll = true ∧ io.create = true then
      ∃ bytes, (assemble baseDir fileID io m node).1.disk (outPath baseDir fileID) = some bytes
    else (assemble baseDir fileID io m node).1.disk = node.disk := by
  rcases assemble_cases baseDir fileID io m node with
    ⟨hmkdir, heq⟩ | ⟨-, hcreate, heq⟩ | ⟨hmkdir, hcreate, -, heq⟩ |
    ⟨hmkdir, hcreate, -, -, sparse, _, -, heq, -⟩
  · simp [hmkdir, heq]
  · simp [hcreate, heq, Node.markQuiet]
  · simp [hmkdir, hcreate, heq, Node.setFile]
  · simp [hmkdir, hcreate, heq, Node.setFile]

/-- Assembly succeeds exactly if the file can be opened and set to its length, all chunks can be
written, and the file can be closed. -/
theorem assemble_ok_iff :
    (assemble baseDir fileID io m node).2 = .ok () ↔
      io.mkdirAll = true ∧ io.create = true ∧ io.truncate = true ∧ m.sizeBytes.toNat < 2 ^ 63 ∧
        Writable node.objects io 0 0 m.chunkHashes ∧ io.close = true := by
  rcases assemble_cases baseDir fileID io m node with
    ⟨hmkdir, heq⟩ | ⟨-, hcreate, heq⟩ | ⟨-, -, hsize, heq⟩ |
    ⟨hmkdir, hcreate, htruncate, hlt, sparse, result, hloop, -, hok⟩
  · simp [hmkdir, heq]
  · simp [hcreate, heq]
  · simp only [heq, reduceCtorEq, false_iff]
    tauto
  · have hwritable := write_chunks_partly_ok_iff node.objects io fileID [] 0 m.sizeBytes.toNat
      m.chunkHashes
    rw [List.length_nil, hloop] at hwritable
    simp only [hmkdir, hcreate, htruncate, hlt, hok, hwritable, true_and]

/-- After a successful assembly the file is what the loop has written. -/
theorem assemble_written (h : (assemble baseDir fileID io m node).2 = .ok ()) :
    ∃ sparse, writeChunks node.objects io fileID 0 0
        (partlyWritten [] m.chunkHashes.length m.sizeBytes.toNat) m.chunkHashes =
          (sparse, .ok ()) ∧
      (assemble baseDir fileID io m node).1.disk (outPath baseDir fileID) =
        some sparse.bytes := by
  rcases assemble_cases baseDir fileID io m node with
    ⟨-, heq⟩ | ⟨-, -, heq⟩ | ⟨-, -, -, heq⟩ | ⟨-, -, -, -, sparse, result, hloop, hnode, hok⟩
  · simp [heq] at h
  · simp [heq] at h
  · simp [heq] at h
  · obtain ⟨rfl, -⟩ := hok.mp h
    exact ⟨sparse, hloop, by simp [hnode, Node.setFile]⟩

end Assembly

/-! ## Assembly and the index update -/

section Finish

variable (baseDir fileID : GoString) (env : PullEnv) (m : FileMeta) (node : Node)

/-- Once its file is open, a pull of this metadata goes through: the length can be set, all
chunks can be written, and the index takes the record. -/
structure Completes (io : DiskAnswers) (objects : Hash → Option Bytes) (m : FileMeta) : Prop where
  truncate : io.truncate = true
  size : m.sizeBytes.toNat < 2 ^ 63
  chunks : Writable objects io 0 0 m.chunkHashes
  close : io.close = true
  key : BoltMetaStore.ValidKey m.fileID
  commit : io.commit = true

/-- **The two ways the rest of a pull ends.** It fails with the index as it was, or it succeeds
with the record stored. -/
theorem finish_cases :
    let assembled := (assemble baseDir fileID env.io m node).1
    let outcome := env.finish baseDir fileID m node
    (outcome.node = assembled ∧ (∃ err, outcome.result = .error err) ∧ outcome.announced = none ∧
      ¬ (env.io.mkdirAll = true ∧ env.io.create = true ∧ Completes env.io node.objects m)) ∨
    (outcome.node = { assembled with index := node.index.set m } ∧ outcome.result = .ok () ∧
      outcome.announced = some (m.fileID, m.merkleRoot, m.lamportTS) ∧
      env.io.mkdirAll = true ∧ env.io.create = true ∧ Completes env.io node.objects m) := by
  intro assembled outcome
  have hok := assemble_ok_iff baseDir fileID env.io m node
  have hindex : assembled.index = node.index := (assemble_frame baseDir fileID env.io m node).1
  have hassemble : assemble baseDir fileID env.io m node =
    (assembled, (assemble baseDir fileID env.io m node).2) := rfl
  cases hresult : (assemble baseDir fileID env.io m node).2 with
  | error err =>
      left
      rw [hresult] at hok hassemble
      have houtcome : outcome = ⟨assembled, .error err, none⟩ := by
        simp only [outcome, PullEnv.finish, hassemble]
      refine ⟨by rw [houtcome], ⟨err, by rw [houtcome]⟩, by rw [houtcome], ?_⟩
      rintro ⟨hmkdir, hcreate, h⟩
      exact absurd (hok.mpr ⟨hmkdir, hcreate, h.truncate, h.size, h.chunks, h.close⟩) (by simp)
  | ok _ =>
      rw [hresult] at hok hassemble
      obtain ⟨hmkdir, hcreate, htruncate, hsize, hchunks, hclose⟩ := hok.mp rfl
      cases hput : node.index.putFileMeta m env.io.commit with
      | error err =>
          left
          have houtcome : outcome = ⟨assembled, .error (.saveMeta err), none⟩ := by
            simp only [outcome, PullEnv.finish, hassemble, saveMeta, hindex, hput]
          refine ⟨by rw [houtcome], ⟨_, by rw [houtcome]⟩, by rw [houtcome], ?_⟩
          rintro ⟨-, -, h⟩
          rw [BoltMetaStore.put_ok_iff.mpr ⟨h.key, h.commit, rfl⟩] at hput
          cases hput
      | ok index =>
          right
          obtain ⟨hkey, hcommit, rfl⟩ := BoltMetaStore.put_ok_iff.mp hput
          have houtcome : outcome = ⟨{ assembled with index := node.index.set m }, .ok (),
              some (m.fileID, m.merkleRoot, m.lamportTS)⟩ := by
            simp only [outcome, PullEnv.finish, hassemble, saveMeta, hindex, hput]
          exact ⟨by rw [houtcome], by rw [houtcome], by rw [houtcome], hmkdir, hcreate,
            htruncate, hsize, hchunks, hclose, hkey, hcommit⟩

end Finish

/-- **What a pull does to the index**, successful or not: nothing, or it stores the record of the
peer it took and announces it. -/
theorem pull_index {sha256 : Bytes → Hash} {baseDir fileID : GoString} {env : PullEnv}
    {node : Node} {outcome : PullOutcome}
    (hpull : pull sha256 baseDir fileID env node = some outcome) :
    outcome.node.index = node.index ∨
      ∃ diff m, env.select fileID node.index = .ok (diff, m) ∧ diff.isSynced = false ∧
        outcome.announced = some (m.fileID, m.merkleRoot, m.lamportTS) ∧
        outcome.node.index = node.index.set m := by
  rcases pull_cases hpull with ⟨_, rfl⟩ | ⟨_, _, -, -, rfl⟩ | ⟨_, _, _, _, -, -, -, rfl⟩ |
    ⟨diff, m, d, hselect, hsynced, -, rfl⟩
  · exact .inl rfl
  · exact .inl rfl
  · exact .inl rfl
  · rcases finish_cases baseDir fileID env m (node.downloaded d) with
      ⟨hnode, -⟩ | ⟨hnode, -, hannounced, -⟩
    · exact .inl (by rw [hnode, (assemble_frame _ _ _ _ _).1]; rfl)
    · exact .inr ⟨diff, m, hselect, hsynced, hannounced, by rw [hnode]; rfl⟩

/-- **What a successful pull does.** Nothing if the peer it took says the file is in sync; otherwise
it downloads what is missing, assembles the file, and stores the record of that peer. -/
theorem pull_ok_cases {sha256 : Bytes → Hash} {baseDir fileID : GoString} {env : PullEnv}
    {node : Node} {outcome : PullOutcome}
    (hpull : pull sha256 baseDir fileID env node = some outcome) (hok : outcome.result = .ok ()) :
    ∃ diff m, env.select fileID node.index = .ok (diff, m) ∧
      (diff.isSynced = true ∧ outcome.node = node ∨
        diff.isSynced = false ∧ ∃ d sparse,
          env.fetchChunks sha256 diff.missingChunkHashes node.objects node.tracker =
            some (d, .ok ()) ∧
          Completes env.io d.objects m ∧
          writeChunks d.objects env.io fileID 0 0
            (partlyWritten [] m.chunkHashes.length m.sizeBytes.toNat) m.chunkHashes =
              (sparse, .ok ()) ∧
          outcome.node.disk (outPath baseDir fileID) = some sparse.bytes ∧
          outcome.node.index = node.index.set m) := by
  rcases pull_cases hpull with ⟨err, rfl⟩ | ⟨diff, m, hselect, hsynced, rfl⟩ |
    ⟨_, _, _, err, -, -, -, rfl⟩ | ⟨diff, m, d, hselect, hsynced, hdownload, rfl⟩
  · cases hok
  · exact ⟨diff, m, hselect, .inl ⟨hsynced, rfl⟩⟩
  · cases hok
  · rcases finish_cases baseDir fileID env m (node.downloaded d) with
      ⟨-, ⟨err, herr⟩, -⟩ | ⟨hnode, -, -, hmkdir, hcreate, hcompletes⟩
    · rw [herr] at hok
      cases hok
    · have hassembled : (assemble baseDir fileID env.io m (node.downloaded d)).2 = .ok () :=
        (assemble_ok_iff _ _ _ _ _).mpr ⟨hmkdir, hcreate, hcompletes.truncate, hcompletes.size,
          hcompletes.chunks, hcompletes.close⟩
      obtain ⟨sparse, hloop, hdisk⟩ := assemble_written _ _ _ _ _ hassembled
      exact ⟨diff, m, hselect, .inr ⟨hsynced, d, sparse, hdownload, hcompletes, hloop,
        by rw [hnode]; exact hdisk, by rw [hnode]; rfl⟩⟩

end NuSync.Orchestrator
