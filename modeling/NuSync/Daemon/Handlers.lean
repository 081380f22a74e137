import NuSync.Merkle
import NuSync.Orchestrator.Pull

/-!
# The daemon's event handlers

`internal/daemon/daemon.go`, `internal/daemon/quiet.go` and the `/ingest` and `/sync` handlers of
`internal/daemon/api.go`, each as a function of the daemon's state. The answers of the file
system and the time are arguments. The two ingest paths share `indexFile`; what differs is the
file ID and the checks before it.
-/

namespace NuSync

open Go Store Chunker Merkle Discovery Scheduler Orchestrator

/-- `daemon.Daemon`: its name and directory, the state it shares with the engine, the Lamport
clock and the file IDs that are being synced. -/
structure Daemon where
  name : GoString
  baseDir : GoString
  node : Node
  clock : UInt64
  syncing : List GoString

namespace Daemon

/-- `NewDaemon` on the index, blobs and files a previous process left. -/
def new (name baseDir : GoString) (index : BoltMetaStore) (objects : Hash → Option Bytes)
    (disk : GoString → Option Bytes) : Daemon where
  name := name
  baseDir := baseDir
  node := ⟨index, objects, disk, .new, fun _ => none⟩
  clock := 0
  syncing := []

/-- `nextTS`: the counter is a `uint64` and wraps around. -/
def nextTS (d : Daemon) : Daemon × UInt64 :=
  ({ d with clock := d.clock + 1 }, d.clock + 1)

/-- `observeTS`. -/
def observeTS (d : Daemon) (remote : UInt64) : Daemon :=
  if remote ≤ d.clock then d else { d with clock := remote }

/-- `remoteWins`. -/
def remoteWins (localTS : UInt64) (localNode : GoString) (remoteTS : UInt64)
    (remoteNode : GoString) : Bool :=
  if remoteTS ≠ localTS then localTS < remoteTS else localNode < remoteNode

/-- `quietWriteTTL`. -/
def quietWriteTTL : Int := 5000 * millisecond

/-- `quietSet.IsQuiet` at time `now`: an expired mark is removed. -/
def isQuiet (d : Daemon) (now : Int) (path : GoString) : Daemon × Bool :=
  match d.node.quiet path with
  | none => (d, false)
  | some t =>
      if quietWriteTTL < now - t then
        ({ d with node := { d.node with quiet := Function.update d.node.quiet path none } }, false)
      else (d, true)

/-! ## Ingest -/

/-- The answers of the file system while a file is indexed: whether the `i`-th `CAS.Put` gets
its data to disk, and whether bbolt commits. Neither error is looked at. -/
structure IndexAnswers where
  putOk : Nat → Bool
  commit : Bool

section Ingest

variable (sha256 : Bytes → Hash) (cdc : FastCdc)

/-- The loop that puts the chunks into the blob store, from chunk `i` on. -/
def storeChunks (io : IndexAnswers) :
    Nat → (Hash → Option Bytes) → List Chunk → (Hash → Option Bytes)
  | _, objects, [] => objects
  | i, objects, chunk :: chunks =>
      storeChunks io (i + 1)
        (if io.putOk i then (put sha256 objects chunk.hash chunk.data).1 else objects) chunks

/-- The sum of `uint64(len(ch.Data))` over the chunks. -/
def totalSize (chunks : List Chunk) : UInt64 :=
  chunks.foldl (fun size chunk => size + lenUInt64 chunk.data) 0

/-- The record both ingest paths build. -/
def fileMeta (fileID : GoString) (chunks : List Chunk) (ts : UInt64) : FileMeta where
  fileID := fileID
  merkleRoot := computeRoot sha256 chunks
  lamportTS := ts
  chunkHashes := chunks.map Chunk.hash
  sizeBytes := totalSize chunks

/-- The index after `PutFileMeta`, whose error is ignored. -/
def putIgnored (index : BoltMetaStore) (m : FileMeta) (commit : Bool) : BoltMetaStore :=
  match index.putFileMeta m commit with
  | .ok next => next
  | .error _ => index

/-- The announcement of a record under this node's name. -/
def announcement (d : Daemon) (m : FileMeta) : FileAnnouncement :=
  ⟨m.fileID, m.merkleRoot, m.lamportTS, d.name⟩

/-- The common part of the two ingest paths: store the chunks, draw a timestamp, store the
record and announce it. -/
def indexFile (d : Daemon) (fileID : GoString) (chunks : List Chunk) (io : IndexAnswers) :
    Daemon × FileMeta :=
  let objects := storeChunks sha256 io 0 d.node.objects chunks
  let (d, ts) := d.nextTS
  let m := fileMeta sha256 fileID chunks ts
  ({ d with node := { d.node with
      objects := objects
      index := putIgnored d.node.index m io.commit } }, m)

/-- The file ID `HandleFileChange` gives a path. -/
def changeFileID (d : Daemon) (path : GoString) : GoString :=
  (rel d.baseDir path).getD (baseName path)

/-- `HandleFileChange` for a path at time `now`; the second component is the record it indexes
and announces. -/
def handleFileChange (d : Daemon) (path : GoString) (now : Int) (io : IndexAnswers) :
    Daemon × Option FileMeta :=
  if ext path = ascii ".db" then (d, none)
  else
    let (d, quiet) := d.isQuiet now path
    if quiet then (d, none)
    else
      let fileID := d.changeFileID path
      match chunkFile sha256 cdc (d.node.disk (clean path)) with
      | none => (d, none)
      | some chunks =>
          -- content didn't actually change
          if (d.node.index.getFileMeta fileID).map FileMeta.merkleRoot =
              some (computeRoot sha256 chunks) then (d, none)
          else
            let (d, m) := d.indexFile sha256 fileID chunks io
            (d, some m)

/-- The `/ingest` handler: the path parameter is the file ID. -/
def ingest (d : Daemon) (path : GoString) (io : IndexAnswers) : Daemon × Option FileMeta :=
  match chunkFile sha256 cdc (d.node.disk (clean path)) with
  | none => (d, none)
  | some chunks =>
      let (d, m) := d.indexFile sha256 path chunks io
      (d, some m)

end Ingest

/-! ## News from peers -/

/-- `triggerSync`, up to the start of the goroutine: `true` if a pull is started. -/
def triggerSync (d : Daemon) (fileID : GoString) : Daemon × Bool :=
  if fileID ∈ d.syncing then (d, false)
  else ({ d with syncing := fileID :: d.syncing }, true)

/-- The decision the two channels share: the remote version is wanted. -/
def wants (d : Daemon) (fileID : GoString) (root : Hash) (ts : UInt64)
    (remoteNode : GoString) : Bool :=
  match d.node.index.getFileMeta fileID with
  | none => true
  | some localMeta =>
      localMeta.merkleRoot ≠ root && remoteWins localMeta.lamportTS d.name ts remoteNode

/-- `handleAnnouncement`; the second component is whether it calls `triggerSync`. -/
def handleAnnouncement (d : Daemon) (ann : FileAnnouncement) : Daemon × Bool :=
  if ann.sourceNode = d.name then (d, false)
  else
    let d := d.observeTS ann.lamportTS
    (d, d.wants ann.fileID ann.merkleRoot ann.lamportTS ann.sourceNode)

/-- The loop of `reconcileWithPeer` over the peer's catalog; the second component lists the
files for which it calls `triggerSync`. -/
def reconcileWithPeer (d : Daemon) (peerName : GoString) :
    List CatalogEntry → Daemon × List GoString
  | [] => (d, [])
  | entry :: entries =>
      if ext entry.fileID = ascii ".db" then d.reconcileWithPeer peerName entries
      else if d.wants entry.fileID entry.merkleRoot entry.lamportTS peerName then
        let (d, triggered) := (d.observeTS entry.lamportTS).reconcileWithPeer peerName entries
        (d, entry.fileID :: triggered)
      else d.reconcileWithPeer peerName entries

/-! ## What the handlers do -/

/-- `remoteWins` is the order by timestamp, then by node name. -/
theorem remote_wins_iff {localTS remoteTS : UInt64} {localNode remoteNode : GoString} :
    remoteWins localTS localNode remoteTS remoteNode = true ↔
      toLex (localTS, localNode) < toLex (remoteTS, remoteNode) := by
  unfold remoteWins
  split_ifs with hts
  · simp [Prod.Lex.toLex_lt_toLex, hts.symm]
  · simp [Prod.Lex.toLex_lt_toLex, not_ne_iff.mp hts]

/-- A winner is not older. -/
theorem le_of_remote_wins {localTS remoteTS : UInt64} {localNode remoteNode : GoString}
    (h : remoteWins localTS localNode remoteTS remoteNode = true) : localTS ≤ remoteTS := by
  rcases Prod.Lex.toLex_lt_toLex.mp (remote_wins_iff.mp h) with hlt | ⟨heq, -⟩
  · exact hlt.le
  · exact heq.le

/-- An index update whose error is ignored stores the record or does nothing. -/
theorem put_ignored_cases (index : BoltMetaStore) (m : FileMeta) (commit : Bool) :
    putIgnored index m commit = index ∨
      BoltMetaStore.ValidKey m.fileID ∧ commit = true ∧
        putIgnored index m commit = index.set m := by
  unfold putIgnored
  split
  · next hput => exact .inr (BoltMetaStore.put_ok_iff.mp hput)
  · exact .inl rfl

theorem put_ignored_of_valid (index : BoltMetaStore) {m : FileMeta} {commit : Bool}
    (hkey : BoltMetaStore.ValidKey m.fileID) (hcommit : commit = true) :
    putIgnored index m commit = index.set m := by
  rw [putIgnored, BoltMetaStore.put_ok_iff.mpr ⟨hkey, hcommit, rfl⟩]

/-- The sizes of the chunks add up to the length of the file, as a `uint64`. -/
theorem total_size_chunks_from (sha256 : Bytes → Hash) (offset seq : Nat) (parts : List Bytes) :
    totalSize (chunksFrom sha256 offset seq parts) = UInt64.ofNat parts.flatten.length := by
  have hfold : ∀ (offset seq : Nat) (parts : List Bytes) (size : UInt64),
      (chunksFrom sha256 offset seq parts).foldl
          (fun size chunk => size + lenUInt64 chunk.data) size =
        size + UInt64.ofNat parts.flatten.length := by
    intro offset seq parts
    induction parts generalizing offset seq with
    | nil =>
        intro size
        simp [chunksFrom]
    | cons part parts ih =>
        intro size
        rw [chunksFrom, List.foldl_cons, ih, lenUInt64, List.flatten_cons, List.length_append,
          UInt64.ofNat_add, UInt64.add_assoc]
  rw [totalSize, hfold, UInt64.zero_add]

/-- The ingest loop keeps the objects valid. -/
theorem valid_store_chunks {sha256 : Bytes → Hash} {objects : Hash → Option Bytes}
    (hvalid : ValidObjects sha256 objects) (io : IndexAnswers) (i : Nat)
    (chunks : List Chunk) : ValidObjects sha256 (storeChunks sha256 io i objects chunks) := by
  induction chunks generalizing i objects with
  | nil => exact hvalid
  | cons chunk chunks ih =>
      rw [storeChunks]
      refine ih ?_ (i + 1)
      split_ifs
      · exact valid_objects_put hvalid chunk.hash chunk.data
      · exact hvalid

section Specs

variable (sha256 : Bytes → Hash) (cdc : FastCdc) (d : Daemon) (path : GoString)

/-- The daemon with other quiet marks. -/
def withQuiet (d : Daemon) (quiet : GoString → Option Int) : Daemon :=
  { d with node := { d.node with quiet := quiet } }

@[simp] theorem with_quiet_index (quiet : GoString → Option Int) :
    (d.withQuiet quiet).node.index = d.node.index := rfl

@[simp] theorem with_quiet_disk (quiet : GoString → Option Int) :
    (d.withQuiet quiet).node.disk = d.node.disk := rfl

@[simp] theorem with_quiet_change_file_id (quiet : GoString → Option Int) :
    (d.withQuiet quiet).changeFileID path = d.changeFileID path := rfl

/-- A path is quiet as long as its mark has not expired. -/
theorem is_quiet_iff {d : Daemon} {path : GoString} {now : Int} :
    (d.isQuiet now path).2 = true ↔
      ∃ t, d.node.quiet path = some t ∧ now - t ≤ quietWriteTTL := by
  unfold isQuiet
  split
  · next hmark => simp [hmark]
  · next t hmark =>
      simp only [hmark, Option.some.injEq, exists_eq_left']
      split_ifs with hexpired
      · simp only [false_iff]
        omega
      · simp only [true_iff]
        omega

/-- At time `now` all marks that have not expired are still among `quiet`. -/
def MarksKept (d : Daemon) (now : Int) (quiet : GoString → Option Int) : Prop :=
  ∀ path t, d.node.quiet path = some t → now - t ≤ quietWriteTTL → quiet path = some t

/-- `IsQuiet` changes nothing but the marks, and removes only an expired one. -/
theorem exists_is_quiet (now : Int) :
    ∃ quiet, d.MarksKept now quiet ∧ (d.isQuiet now path).1 = d.withQuiet quiet := by
  unfold isQuiet
  split
  · exact ⟨d.node.quiet, fun _ _ hmark _ => hmark, rfl⟩
  · next t hmark =>
      split_ifs with hexpired
      · refine ⟨_, fun other u hother hlive => ?_, rfl⟩
        have hne : other ≠ path := by
          rintro rfl
          cases hmark.symm.trans hother
          omega
        rwa [Function.update_of_ne hne]
      · exact ⟨d.node.quiet, fun _ _ hmark _ => hmark, rfl⟩

/-- The content `HandleFileChange` indexes, if it does not skip the file. -/
def changeContent (now : Int) : Option Bytes :=
  if ext path = ascii ".db" ∨ (d.isQuiet now path).2 = true then none
  else
    (d.node.disk (clean path)).filter fun content =>
      (d.node.index.getFileMeta (d.changeFileID path)).map FileMeta.merkleRoot ≠
        some (computeRoot sha256 (chunksFrom sha256 0 0 (cdc.cut content)))

/-- Apart from quiet marks a skipped file changes nothing, and any other is indexed. -/
theorem handle_file_change_eq (now : Int) (io : IndexAnswers) :
    ∃ quiet, d.handleFileChange sha256 cdc path now io =
      match d.changeContent sha256 cdc path now with
      | none => (d.withQuiet quiet, none)
      | some content =>
          let indexed := (d.withQuiet quiet).indexFile sha256 (d.changeFileID path)
            (chunksFrom sha256 0 0 (cdc.cut content)) io
          (indexed.1, some indexed.2) := by
  unfold handleFileChange changeContent
  by_cases hdb : ext path = ascii ".db"
  · exact ⟨d.node.quiet, by simp [hdb, withQuiet]⟩
  obtain ⟨quiet, -, hquiet⟩ := exists_is_quiet d path now
  refine ⟨quiet, ?_⟩
  cases hskip : (d.isQuiet now path).2 with
  | true => simp [hdb, hquiet, hskip]
  | false =>
      cases hdisk : d.node.disk (clean path) with
      | none => simp [hdb, hquiet, hskip, chunkFile, hdisk]
      | some content =>
          by_cases hsame :
              (d.node.index.getFileMeta (d.changeFileID path)).map FileMeta.merkleRoot =
                some (computeRoot sha256 (chunksFrom sha256 0 0 (cdc.cut content)))
          · simp [hdb, hquiet, hskip, chunkFile, hdisk, hsame, Option.filter_some]
          · simp only [hdb, hquiet, hskip, chunkFile, with_quiet_disk, with_quiet_index,
              with_quiet_change_file_id, hdisk, hsame, Option.map_some, Option.filter_some, ne_eq,
              not_false_eq_true, decide_true, if_true, if_false, Bool.false_eq_true, or_self]

/-- **`HandleFileChange` skips the file or indexes what it reads.** Apart from quiet marks a
skipped file changes nothing. -/
theorem handle_file_change_cases (now : Int) (io : IndexAnswers) :
    ∃ quiet,
      d.handleFileChange sha256 cdc path now io = (d.withQuiet quiet, none) ∨
      ∃ content, d.node.disk (clean path) = some content ∧
        let chunks := chunksFrom sha256 0 0 (cdc.cut content)
        (d.node.index.getFileMeta (d.changeFileID path)).map FileMeta.merkleRoot ≠
          some (computeRoot sha256 chunks) ∧
        d.handleFileChange sha256 cdc path now io =
          (((d.withQuiet quiet).indexFile sha256 (d.changeFileID path) chunks io).1,
            some ((d.withQuiet quiet).indexFile sha256 (d.changeFileID path) chunks io).2) := by
  obtain ⟨quiet, heq⟩ := handle_file_change_eq sha256 cdc d path now io
  refine ⟨quiet, ?_⟩
  rw [heq]
  cases hcontent : d.changeContent sha256 cdc path now with
  | none => exact .inl rfl
  | some content =>
      unfold changeContent at hcontent
      split_ifs at hcontent
      obtain ⟨hdisk, hroot⟩ := Option.filter_eq_some_iff.mp hcontent
      exact .inr ⟨content, hdisk, by simpa using hroot, rfl⟩

/-- **`/ingest` fails or indexes what it reads** under the path it was given. -/
theorem ingest_cases (io : IndexAnswers) :
    (d.node.disk (clean path) = none ∧ d.ingest sha256 cdc path io = (d, none)) ∨
      ∃ content, d.node.disk (clean path) = some content ∧
        let chunks := chunksFrom sha256 0 0 (cdc.cut content)
        d.ingest sha256 cdc path io =
          ((d.indexFile sha256 path chunks io).1, some (d.indexFile sha256 path chunks io).2) := by
  unfold ingest chunkFile
  cases hdisk : d.node.disk (clean path) with
  | none => exact .inl ⟨rfl, rfl⟩
  | some content => exact .inr ⟨content, rfl, rfl⟩

end Specs

/-- News from a peer at most moves the clock up and starts syncs. -/
structure Advances (d d' : Daemon) : Prop where
  node : d'.node = d.node
  name : d'.name = d.name
  baseDir : d'.baseDir = d.baseDir
  clock : d.clock ≤ d'.clock

theorem Advances.refl (d : Daemon) : Advances d d := ⟨rfl, rfl, rfl, le_rfl⟩

theorem Advances.trans {a b c : Daemon} (hab : Advances a b) (hbc : Advances b c) :
    Advances a c :=
  ⟨hbc.node.trans hab.node, hbc.name.trans hab.name, hbc.baseDir.trans hab.baseDir,
    hab.clock.trans hbc.clock⟩

/-- `observeTS` leaves the clock at least at the observed timestamp. -/
theorem observe_ts_spec (d : Daemon) (ts : UInt64) :
    Advances d (d.observeTS ts) ∧ ts ≤ (d.observeTS ts).clock := by
  unfold observeTS
  split_ifs with h
  · exact ⟨.refl d, h⟩
  · exact ⟨⟨rfl, rfl, rfl, le_of_lt (not_le.mp h)⟩, le_rfl⟩

theorem trigger_sync_advances (d : Daemon) (fileID : GoString) :
    Advances d (d.triggerSync fileID).1 := by
  unfold triggerSync
  split_ifs
  · exact .refl d
  · exact ⟨rfl, rfl, rfl, le_rfl⟩

/-- An announcement is observed, unless it carries this node's own name. -/
theorem handle_announcement_spec (d : Daemon) (ann : FileAnnouncement) :
    Advances d (d.handleAnnouncement ann).1 ∧
      (ann.sourceNode ≠ d.name → ann.lamportTS ≤ (d.handleAnnouncement ann).1.clock) := by
  unfold handleAnnouncement
  split_ifs with hown
  · exact ⟨.refl d, fun hother => absurd hown hother⟩
  · obtain ⟨hadvances, hclock⟩ := d.observe_ts_spec ann.lamportTS
    exact ⟨hadvances, fun _ => hclock⟩

theorem reconcile_advances (peerName : GoString) (catalog : List CatalogEntry) (d : Daemon) :
    Advances d (d.reconcileWithPeer peerName catalog).1 := by
  induction catalog generalizing d with
  | nil => exact .refl d
  | cons entry catalog ih =>
      unfold reconcileWithPeer
      split_ifs
      · exact ih d
      · exact (d.observe_ts_spec entry.lamportTS).1.trans (ih _)
      · exact ih d

theorem foldl_trigger_sync_advances (files : List GoString) (d : Daemon) :
    Advances d (files.foldl (fun d fileID => (d.triggerSync fileID).1) d) := by
  induction files generalizing d with
  | nil => exact .refl d
  | cons fileID files ih => exact (d.trigger_sync_advances fileID).trans (ih _)

end Daemon

end NuSync
