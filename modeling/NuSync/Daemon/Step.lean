import NuSync.Daemon.Handlers
import NuSync.Lib.System

/-!
# A node as a state machine

Everything that can happen at one node, one event at a time: the watcher reports a change, a
request reaches the local API, news comes from a peer, a pull runs, the user touches a file, or
the process is restarted on the state it left on disk. `step_cases` says what each of them can do
to the index and the clock; the invariants of runs rest on it.
-/

namespace NuSync

open Go Store Chunker Merkle Discovery Orchestrator

/-- An event at a node. The watcher reports paths below `BaseDir`, given by their names. -/
inductive Event where
  | fileChange (names : List GoString) (now : Int) (io : Daemon.IndexAnswers)
  | ingest (path : GoString) (io : Daemon.IndexAnswers)
  | sync (fileID : GoString)
  | announcement (ann : FileAnnouncement)
  | reconcile (peerName : GoString) (catalog : List CatalogEntry)
  | pull (fileID : GoString) (env : PullEnv)
  | userWrite (path : GoString) (content : Option Bytes)
  | restart

namespace Daemon

/-- The path the watcher reports for a file below `BaseDir`. -/
def watchedPath (d : Daemon) (names : List GoString) : GoString :=
  join d.baseDir ([separator].intercalate names)

/-- One event. A pull runs only after it was triggered. -/
def step (sha256 : Bytes → Hash) (cdc : FastCdc) (d : Daemon) : Event → Option Daemon
  | .fileChange names now io =>
      if names ≠ [] ∧ ∀ name ∈ names, IsName name then
        some (d.handleFileChange sha256 cdc (d.watchedPath names) now io).1
      else none
  | .ingest path io => some (d.ingest sha256 cdc path io).1
  | .sync fileID => if fileID = [] then some d else some (d.triggerSync fileID).1
  | .announcement ann =>
      let (d, triggers) := d.handleAnnouncement ann
      some (if triggers then (d.triggerSync ann.fileID).1 else d)
  | .reconcile peerName catalog =>
      let (d, files) := d.reconcileWithPeer peerName catalog
      some (files.foldl (fun d fileID => (d.triggerSync fileID).1) d)
  | .pull fileID env =>
      if fileID ∈ d.syncing then
        (Orchestrator.pull sha256 d.baseDir fileID env d.node).map fun outcome =>
          { d with node := outcome.node, syncing := d.syncing.filter fun f => f ≠ fileID }
      else none
  | .userWrite path content => some { d with node := d.node.setFile (clean path) content }
  | .restart => some (.new d.name d.baseDir d.node.index d.node.objects d.node.disk)

/-- The event indexes a local file under this ID: the watcher reports it, or it exists and is
ingested under its path. `commit` is bbolt's answer to the index update. -/
def Indexes (d : Daemon) (fileID : GoString) (commit : Bool) : Event → Prop
  | .fileChange names _ io => (names ≠ [] ∧ ∀ name ∈ names, IsName name) ∧
      fileID = d.changeFileID (d.watchedPath names) ∧ commit = io.commit
  | .ingest path io => d.node.disk (clean path) ≠ none ∧ fileID = path ∧ commit = io.commit
  | _ => False

/-- What the event reads, chunks and indexes, if anything: the file ID, the content, and the
answers of the file system meanwhile. -/
def indexed (sha256 : Bytes → Hash) (cdc : FastCdc) (d : Daemon) :
    Event → Option (GoString × Bytes × IndexAnswers)
  | .fileChange names now io =>
      (d.changeContent sha256 cdc (d.watchedPath names) now).map fun content =>
        (d.changeFileID (d.watchedPath names), content, io)
  | .ingest path io => (d.node.disk (clean path)).map fun content => (path, content, io)
  | _ => none

variable {sha256 : Bytes → Hash} {cdc : FastCdc} {d d' : Daemon} {event : Event}

/-! ## What an event can do -/

theorem sync_advances {fileID : GoString} (h : d.step sha256 cdc (.sync fileID) = some d') :
    Advances d d' := by
  simp only [step] at h
  split_ifs at h <;> cases h
  · exact .refl d
  · exact d.trigger_sync_advances fileID

theorem announcement_advances {ann : FileAnnouncement}
    (h : d.step sha256 cdc (.announcement ann) = some d') : Advances d d' := by
  cases h
  refine (d.handle_announcement_spec ann).1.trans ?_
  split_ifs
  · exact trigger_sync_advances _ ann.fileID
  · exact .refl _

theorem reconcile_step_advances {peerName : GoString} {catalog : List CatalogEntry}
    (h : d.step sha256 cdc (.reconcile peerName catalog) = some d') : Advances d d' := by
  cases h
  exact (reconcile_advances peerName catalog d).trans (foldl_trigger_sync_advances _ _)

/-- **What an event can do to a node.** The name and the directory stay. The event leaves the index
alone and the clock does not go back; it indexes a local file with the next timestamp; a pull
stores a peer's record and announces it; or the process restarts on the index it has. -/
theorem step_cases (h : d.step sha256 cdc event = some d') :
    (d'.name = d.name ∧ d'.baseDir = d.baseDir) ∧
    ((d'.node.index = d.node.index ∧ d.clock ≤ d'.clock) ∨
    (∃ m commit, d.Indexes m.fileID commit event ∧ d.indexed sha256 cdc event ≠ none ∧
      m.lamportTS = d.clock + 1 ∧ d'.clock = d.clock + 1 ∧
      d'.node.index = putIgnored d.node.index m commit) ∨
    (∃ fileID env outcome diff m, event = .pull fileID env ∧
      Orchestrator.pull sha256 d.baseDir fileID env d.node = some outcome ∧
      outcome.announced = some (m.fileID, m.merkleRoot, m.lamportTS) ∧
      env.select fileID d.node.index = .ok (diff, m) ∧ d'.clock = d.clock ∧
      d'.node.index = d.node.index.set m) ∨
    (event = .restart ∧ d'.node.index = d.node.index)) := by
  have hadvances (h : Advances d d') : (d'.name = d.name ∧ d'.baseDir = d.baseDir) ∧
      d'.node.index = d.node.index ∧ d.clock ≤ d'.clock :=
    ⟨⟨h.name, h.baseDir⟩, by rw [h.node], h.clock⟩
  cases event with
  | fileChange names now io =>
      simp only [step] at h
      split_ifs at h with hnames
      cases h
      obtain ⟨quiet, heq⟩ := d.handle_file_change_eq sha256 cdc (d.watchedPath names) now io
      rw [heq]
      cases hcontent : d.changeContent sha256 cdc (d.watchedPath names) now with
      | none => exact ⟨⟨rfl, rfl⟩, .inl ⟨rfl, le_rfl⟩⟩
      | some content =>
          exact ⟨⟨rfl, rfl⟩, .inr (.inl ⟨_, io.commit, ⟨hnames, rfl, rfl⟩,
            by simp [indexed, hcontent], rfl, rfl, rfl⟩)⟩
  | ingest path io =>
      cases h
      rcases d.ingest_cases sha256 cdc path io with ⟨-, hskip⟩ | ⟨content, hfile, hingest⟩
      · rw [hskip]
        exact ⟨⟨rfl, rfl⟩, .inl ⟨rfl, le_rfl⟩⟩
      · rw [hingest]
        exact ⟨⟨rfl, rfl⟩, .inr (.inl ⟨_, io.commit, ⟨by simp [hfile], rfl, rfl⟩,
          by simp [indexed, hfile], rfl, rfl, rfl⟩)⟩
  | sync fileID => exact (hadvances (sync_advances h)).imp_right .inl
  | announcement ann => exact (hadvances (announcement_advances h)).imp_right .inl
  | reconcile peerName catalog => exact (hadvances (reconcile_step_advances h)).imp_right .inl
  | pull fileID env =>
      simp only [step] at h
      split_ifs at h with hsyncing
      obtain ⟨outcome, hpull, rfl⟩ := Option.map_eq_some_iff.mp h
      refine ⟨⟨rfl, rfl⟩, ?_⟩
      rcases pull_index hpull with hsame | ⟨diff, m, hselect, -, hannounced, hset⟩
      · exact .inl ⟨hsame, le_rfl⟩
      · exact .inr (.inr (.inl ⟨fileID, env, outcome, diff, m, rfl, hpull, hannounced, hselect,
          rfl, hset⟩))
  | userWrite path content =>
      cases h
      exact ⟨⟨rfl, rfl⟩, .inl ⟨rfl, le_rfl⟩⟩
  | restart =>
      cases h
      exact ⟨⟨rfl, rfl⟩, .inr (.inr (.inr ⟨rfl, rfl⟩))⟩

/-- An event that changes the index stores one record: that of a local file it indexes, or one
that a pull fetched. -/
theorem step_index (h : d.step sha256 cdc event = some d') :
    d'.node.index = d.node.index ∨
    ∃ m, d'.node.index = d.node.index.set m ∧
      ((d.Indexes m.fileID true event ∧ BoltMetaStore.ValidKey m.fileID) ∨
      ∃ fileID env diff, event = .pull fileID env ∧
        env.select fileID d.node.index = .ok (diff, m)) := by
  rcases (step_cases h).2 with ⟨hindex, -⟩ | ⟨m, commit, hindexes, -, -, -, hindex⟩ |
    ⟨fileID, env, -, diff, m, hevent, -, -, hselect, -, hindex⟩ | ⟨-, hindex⟩
  · exact .inl hindex
  · rcases put_ignored_cases d.node.index m commit with hput | ⟨hkey, rfl, hput⟩
    · exact .inl (hindex.trans hput)
    · exact .inr ⟨m, hindex.trans hput, .inl ⟨hindexes, hkey⟩⟩
  · exact .inr ⟨m, hindex, .inr ⟨fileID, env, diff, hevent, hselect⟩⟩
  · exact .inl hindex

/-- What an event can do to the index and the blob store: it indexes a content, which puts its
chunks; it does nothing to them; or it is a pull. -/
theorem step_indexed (h : d.step sha256 cdc event = some d') :
    (∃ fileID content io, d.indexed sha256 cdc event = some (fileID, content, io) ∧
      let chunks := chunksFrom sha256 0 0 (cdc.cut content)
      d'.node.objects = storeChunks sha256 io 0 d.node.objects chunks ∧
      d'.node.index =
        putIgnored d.node.index (fileMeta sha256 fileID chunks (d.clock + 1)) io.commit) ∨
    d.indexed sha256 cdc event = none ∧
      (d'.node.objects = d.node.objects ∧ d'.node.index = d.node.index ∨
      ∃ fileID env outcome, event = .pull fileID env ∧
        Orchestrator.pull sha256 d.baseDir fileID env d.node = some outcome ∧
        d'.node = outcome.node) := by
  have hkeeps (h : Advances d d') :
      d'.node.objects = d.node.objects ∧ d'.node.index = d.node.index := by
    simp [h.node]
  cases event with
  | fileChange names now io =>
      simp only [step] at h
      split_ifs at h with hnames
      cases h
      obtain ⟨quiet, heq⟩ := d.handle_file_change_eq sha256 cdc (d.watchedPath names) now io
      rw [heq]
      cases hcontent : d.changeContent sha256 cdc (d.watchedPath names) now with
      | none => exact .inr ⟨by simp [indexed, hcontent], .inl ⟨rfl, rfl⟩⟩
      | some content =>
          exact .inl ⟨_, content, io, by rw [indexed, hcontent, Option.map_some], rfl, rfl⟩
  | ingest path io =>
      cases h
      rcases d.ingest_cases sha256 cdc path io with ⟨hfile, heq⟩ | ⟨content, hfile, heq⟩
      · rw [heq]
        exact .inr ⟨by rw [indexed, hfile, Option.map_none], .inl ⟨rfl, rfl⟩⟩
      · rw [heq]
        exact .inl ⟨path, content, io, by rw [indexed, hfile, Option.map_some], rfl, rfl⟩
  | sync fileID => exact .inr ⟨rfl, .inl (hkeeps (sync_advances h))⟩
  | announcement ann => exact .inr ⟨rfl, .inl (hkeeps (announcement_advances h))⟩
  | reconcile peerName catalog => exact .inr ⟨rfl, .inl (hkeeps (reconcile_step_advances h))⟩
  | pull fileID env =>
      simp only [step] at h
      split_ifs at h with hsyncing
      obtain ⟨outcome, hpull, rfl⟩ := Option.map_eq_some_iff.mp h
      exact .inr ⟨rfl, .inr ⟨fileID, env, outcome, rfl, hpull, rfl⟩⟩
  | userWrite | restart =>
      cases h
      exact .inr ⟨rfl, .inl ⟨rfl, rfl⟩⟩

/-- A file the watcher reports is indexed under its path below the directory. -/
theorem change_file_id_watched (hbase : d.baseDir ≠ []) {names : List GoString}
    (hne : names ≠ []) (hnames : ∀ name ∈ names, IsName name) :
    d.changeFileID (d.watchedPath names) = [separator].intercalate names := by
  rw [changeFileID, watchedPath, rel_join hbase hne hnames, Option.getD_some]

end Daemon

end NuSync
