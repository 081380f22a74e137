import NuSync.Daemon.Handlers
import NuSync.Lib.System

/-!
# A pull against a local edit

One `Pull` of a file and one `HandleFileChange` on its path at the same node, step by step. The
two write the index without a lock and without looking at it again. Alone, each runs as its
function says (`pull_alone`, `change_alone`); together, `local_edit_kept_iff` says in which
interleavings the local edit is what the index holds in the end.
-/

namespace NuSync

open Go Lib Store Chunker Merkle Control Discovery Scheduler Orchestrator

/-- What the two calls are about: the file ID, its path, and the peers of the pull. -/
structure RaceContext where
  sha256 : Bytes → Hash
  cdc : FastCdc
  fileID : GoString
  path : GoString
  peers : List PeerInfo

/-- Where `Pull` is, with its live variables. `done` keeps the metadata it fetched. -/
inductive PullPc where
  | readLocal
  | diff (req : DiffRequest) (peer : PeerInfo) (peers : List PeerInfo) (lastErr : Option PeerError)
  | fetchMeta (req : DiffRequest) (diff : DiffResponse) (peer : PeerInfo) (peers : List PeerInfo)
      (lastErr : Option PeerError)
  | fetchChunks (diff : DiffResponse) (remoteMeta : FileMeta)
  | assemble (remoteMeta : FileMeta)
  | putMeta (remoteMeta : FileMeta)
  | done (remoteMeta : Option FileMeta) (result : Except PullError Unit)

/-- What happens to the pull: it runs on, with the answers it gets. -/
inductive PullEvent where
  | readLocal
  | diff (connects : Bool) (answer : DiffRequest → Option DiffResponse)
  | fetchMeta (answer : Option FileMeta)
  | fetchChunks (availability : List (GoString × List Bytes)) (sorter : RaritySort)
      (schedule : List FetchEvent)
  | assemble (io : DiskAnswers)
  | putMeta (io : DiskAnswers)

/-- Where `HandleFileChange` is, with its live variables. `read` is the loop in which the chunker
reads the open file, with the bytes it has so far. -/
inductive ChangePc where
  | isQuiet
  | openFile
  | read (fileID : GoString) (content : Bytes)
  | compareRoot (fileID : GoString) (chunks : List Chunk)
  | nextTS (fileID : GoString) (chunks : List Chunk)
  | putMeta (indexed : FileMeta)
  | done (indexed : Option FileMeta)

/-- What happens to `HandleFileChange`. `Read` returns more bytes of the file that was opened,
whatever that one holds by now, or none at its end. -/
inductive ChangeEvent where
  | isQuiet (now : Int)
  | openFile
  | read (part : Bytes)
  | compareRoot (io : Daemon.IndexAnswers)
  | nextTS
  | putMeta (commit : Bool)

/-- One of the two calls takes a step. -/
inductive RaceEvent where
  | pull (event : PullEvent)
  | change (event : ChangeEvent)

/-- The node and the two calls that run on it. -/
structure Race where
  daemon : Daemon
  pull : PullPc
  change : ChangePc

namespace RaceContext

variable (ctx : RaceContext)

/-- The peer loop goes on to the next peer, or ends without one. -/
def nextPeer (req : DiffRequest) : List PeerInfo → Option PeerError → PullPc
  | [], lastErr => .done none (.error (.noPeerHadFile ctx.fileID lastErr))
  | peer :: peers, lastErr => .diff req peer peers lastErr

/-- The peer loop after a peer's answer to the diff request. -/
def afterDiff (req : DiffRequest) (peer : PeerInfo) (peers : List PeerInfo)
    (lastErr : Option PeerError) (connects : Bool) (answer : Option DiffResponse) : PullPc :=
  if connects = false then ctx.nextPeer req peers (some (.connection peer.grpcAddr))
  else
    match answer with
    | none => ctx.nextPeer req peers (some (.diff peer.grpcAddr))
    | some d =>
        if d.remoteMerkleRoot.length = 0 then ctx.nextPeer req peers lastErr
        else .fetchMeta req d peer peers lastErr

/-- The pull after its download. -/
def afterDownload (m : FileMeta) : Except DownloadError Unit → PullPc
  | .error err => .done (some m) (.error (.download err))
  | .ok () => .assemble m

/-- The pull after assembly. -/
def afterAssembly (m : FileMeta) : Except PullError Unit → PullPc
  | .error err => .done (some m) (.error err)
  | .ok () => .putMeta m

/-- One step of `Pull`. -/
def pullStep (baseDir : GoString) (node : Node) : PullPc → PullEvent → Option (Node × PullPc)
  | .readLocal, .readLocal =>
      some (node,
        if ctx.peers.length = 0 then .done none (.error (.noCandidates ctx.fileID))
        else
          ctx.nextPeer (diffRequest ctx.fileID (node.index.getFileMeta ctx.fileID)) ctx.peers none)
  | .diff req peer peers lastErr, .diff connects answer =>
      some (node, ctx.afterDiff req peer peers lastErr connects (answer req))
  | .fetchMeta req d peer peers _, .fetchMeta answer =>
      some (node,
        match answer with
        | none =>
            let httpPeer := (grpcToHTTP ctx.peers peer.grpcAddr).getD []
            ctx.nextPeer req peers (some (.fetchMeta httpPeer))
        | some rm =>
            if d.isSynced then .done (some rm.json) (.ok ()) else .fetchChunks d rm.json)
  | .fetchChunks d m, .fetchChunks availability sorter schedule =>
      (download ctx.sha256 (grpcToHTTP ctx.peers)
        (buildRarityMap sorter d.missingChunkHashes availability) node.objects node.tracker
        schedule).map fun (download, result) => (node.downloaded download, afterDownload m result)
  | .assemble m, .assemble io =>
      let (node, result) := Orchestrator.assemble baseDir ctx.fileID io m node
      some (node, afterAssembly m result)
  | .putMeta m, .putMeta io =>
      let (node, result) := saveMeta io m node
      some (node, .done (some m) result)
  | _, _ => none

/-- One step of `HandleFileChange`. -/
def changeStep (d : Daemon) : ChangePc → ChangeEvent → Option (Daemon × ChangePc)
  | .isQuiet, .isQuiet now =>
      if ext ctx.path = ascii ".db" then some (d, .done none)
      else
        let (d, quiet) := d.isQuiet now ctx.path
        some (d, if quiet then .done none else .openFile)
  | .openFile, .openFile =>
      some (d,
        match d.node.disk (clean ctx.path) with
        | none => .done none
        | some _ => .read (d.changeFileID ctx.path) [])
  | .read fileID content, .read part =>
      some (d,
        if part = [] then .compareRoot fileID (chunksFrom ctx.sha256 0 0 (ctx.cdc.cut content))
        else .read fileID (content ++ part))
  | .compareRoot fileID chunks, .compareRoot io =>
      if (d.node.index.getFileMeta fileID).map FileMeta.merkleRoot =
          some (computeRoot ctx.sha256 chunks) then some (d, .done none)
      else
        let objects := Daemon.storeChunks ctx.sha256 io 0 d.node.objects chunks
        some ({ d with node := { d.node with objects := objects } }, .nextTS fileID chunks)
  | .nextTS fileID chunks, .nextTS =>
      let (d, ts) := d.nextTS
      some (d, .putMeta (Daemon.fileMeta ctx.sha256 fileID chunks ts))
  | .putMeta m, .putMeta commit =>
      let index := Daemon.putIgnored d.node.index m commit
      some ({ d with node := { d.node with index := index } }, .done (some m))
  | _, _ => none

/-- One step of the race. -/
def step (s : Race) : RaceEvent → Option Race
  | .pull event =>
      (ctx.pullStep s.daemon.baseDir s.daemon.node s.pull event).map fun (node, pc) =>
        { s with daemon := { s.daemon with node := node }, pull := pc }
  | .change event =>
      (ctx.changeStep s.daemon s.change event).map fun (d, pc) =>
        { s with daemon := d, change := pc }

/-! ## Each call alone -/

section Alone

variable {ctx}

/-- The chunker reads the open file to its end. -/
theorem read_alone (d : Daemon) (pull : PullPc) (fileID : GoString) (content : Bytes) :
    Reachable (fun s event => ctx.step s (.change event)) ⟨d, pull, .read fileID []⟩
      ⟨d, pull, .compareRoot fileID (chunksFrom ctx.sha256 0 0 (ctx.cdc.cut content))⟩ := by
  have hend : ctx.step ⟨d, pull, .read fileID content⟩ (.change (.read [])) =
      some ⟨d, pull, .compareRoot fileID (chunksFrom ctx.sha256 0 0 (ctx.cdc.cut content))⟩ := rfl
  by_cases hempty : content = []
  · subst hempty
    exact .head _ hend (.refl _)
  · have hread : ctx.step ⟨d, pull, .read fileID []⟩ (.change (.read content)) =
        some ⟨d, pull, .read fileID content⟩ := by
      simp [step, changeStep, hempty]
    exact .head _ hread (.head _ hend (.refl _))

/-- Run alone, the steps of `HandleFileChange` are the function. -/
theorem change_alone (s : Race) (hs : s.change = .isQuiet) (now : Int)
    (io : Daemon.IndexAnswers) :
    let outcome := s.daemon.handleFileChange ctx.sha256 ctx.cdc ctx.path now io
    Reachable (fun s event => ctx.step s (.change event)) s
      { s with daemon := outcome.1, change := .done outcome.2 } := by
  obtain ⟨d, pull, pc⟩ := s
  cases hs
  simp only [Daemon.handleFileChange]
  -- the events follow the branch the function takes
  by_cases hdb : ext ctx.path = ascii ".db"
  · exact ⟨[.isQuiet now], by simp [step, changeStep, hdb]⟩
  rw [if_neg hdb]
  generalize hquiet : d.isQuiet now ctx.path = marked
  obtain ⟨d', quiet⟩ := marked
  cases quiet with
  | true => exact ⟨[.isQuiet now], by simp [step, changeStep, hdb, hquiet]⟩
  | false =>
      have hpass : ctx.step ⟨d, pull, .isQuiet⟩ (.change (.isQuiet now)) =
          some ⟨d', pull, .openFile⟩ := by
        simp [step, changeStep, hdb, hquiet]
      refine .head _ hpass ?_
      simp only [Bool.false_eq_true, if_false, chunkFile]
      cases hfile : d'.node.disk (clean ctx.path) with
      | none => exact ⟨[.openFile], by simp [step, changeStep, hfile]⟩
      | some content =>
          have hopen : ctx.step ⟨d', pull, .openFile⟩ (.change .openFile) =
              some ⟨d', pull, .read (d'.changeFileID ctx.path) []⟩ := by
            simp [step, changeStep, hfile]
          refine .head _ hopen ((read_alone d' pull _ content).trans ?_)
          simp only [Option.map_some]
          generalize chunksFrom ctx.sha256 0 0 (ctx.cdc.cut content) = chunks
          by_cases hsame : (d'.node.index.getFileMeta (d'.changeFileID ctx.path)).map
              FileMeta.merkleRoot = some (computeRoot ctx.sha256 chunks)
          · rw [if_pos hsame]
            exact ⟨[.compareRoot io],
              by simp only [run_cons, step, changeStep, if_pos hsame]; rfl⟩
          · rw [if_neg hsame]
            exact ⟨[.compareRoot io, .nextTS, .putMeta io.commit],
              by simp only [run_cons, step, changeStep, if_neg hsame]; rfl⟩

/-- Where the peer loop leaves the pull. -/
def selected : Except (Option PeerError) (DiffResponse × FileMeta) → PullPc
  | .error lastErr => .done none (.error (.noPeerHadFile ctx.fileID lastErr))
  | .ok (d, m) => if d.isSynced then .done (some m) (.ok ()) else .fetchChunks d m

/-- The steps of the peer loop are `selectPeer`. -/
theorem select_alone (s : Race) (req : DiffRequest) (entries : List (PeerInfo × PeerAnswer))
    (lastErr : Option PeerError) :
    Reachable (fun s event => ctx.step s (.pull event))
      { s with pull := ctx.nextPeer req (entries.map Prod.fst) lastErr }
      { s with pull := ctx.selected (selectPeer req (grpcToHTTP ctx.peers) lastErr entries) } := by
  induction entries generalizing lastErr with
  | nil => exact .refl _
  | cons entry entries ih =>
      obtain ⟨peer, connects, diff, fetched⟩ := entry
      have hdiff : ctx.step { s with pull := .diff req peer (entries.map Prod.fst) lastErr }
          (.pull (.diff connects diff)) =
          some ⟨s.daemon, ctx.afterDiff req peer (entries.map Prod.fst) lastErr connects (diff req),
            s.change⟩ := rfl
      refine .head _ hdiff ?_
      unfold selectPeer afterDiff
      dsimp only
      split_ifs
      · exact ih _
      · cases diff req with
        | none => exact ih _
        | some d =>
            dsimp only
            split_ifs
            · exact ih _
            · cases fetched with
              | none => exact .head (.fetchMeta none) rfl (ih _)
              | some rm => exact .head (.fetchMeta (some rm)) rfl (.refl _)

/-- Assembly and the index update are `finish`. -/
theorem finish_alone (d : Daemon) (change : ChangePc) (m : FileMeta) (env : PullEnv) :
    let outcome := env.finish d.baseDir ctx.fileID m d.node
    Reachable (fun s event => ctx.step s (.pull event)) ⟨d, .assemble m, change⟩
      ⟨{ d with node := outcome.node }, .done (some m) outcome.result, change⟩ := by
  intro outcome
  generalize hassemble : Orchestrator.assemble d.baseDir ctx.fileID env.io m d.node = assembled
  obtain ⟨node, result⟩ := assembled
  have hstep : ctx.step ⟨d, .assemble m, change⟩ (.pull (.assemble env.io)) =
      some ⟨{ d with node := node }, afterAssembly m result, change⟩ := by
    simp only [step, pullStep, hassemble, Option.map_some]
  refine .head _ hstep ?_
  simp only [outcome, PullEnv.finish, hassemble]
  cases result with
  | error err => exact .refl _
  | ok _ =>
      refine ⟨[.putMeta env.io], ?_⟩
      simp only [run_cons, step, afterAssembly, pullStep]
      generalize saveMeta env.io m node = saved
      obtain ⟨node, _ | _⟩ := saved <;> rfl

/-- Run alone, the steps of `Pull` are the function. -/
theorem pull_alone (s : Race) (hs : s.pull = .readLocal) (env : PullEnv)
    (hpeers : env.peers.map Prod.fst = ctx.peers) {outcome : PullOutcome}
    (h : Orchestrator.pull ctx.sha256 s.daemon.baseDir ctx.fileID env s.daemon.node =
      some outcome) :
    ∃ remoteMeta, Reachable (fun s event => ctx.step s (.pull event)) s
      { s with
        daemon := { s.daemon with node := outcome.node }
        pull := .done remoteMeta outcome.result } := by
  obtain ⟨d, pc, change⟩ := s
  cases hs
  have hlen : ctx.peers.length = env.peers.length := by rw [← hpeers, List.length_map]
  unfold Orchestrator.pull at h
  split_ifs at h with hnone
  · cases h
    exact ⟨none, [.readLocal], by simp [step, pullStep, hlen, hnone]⟩
  have hread : ctx.step ⟨d, .readLocal, change⟩ (.pull .readLocal) = some ⟨d, ctx.nextPeer
      (diffRequest ctx.fileID (d.node.index.getFileMeta ctx.fileID)) (env.peers.map Prod.fst) none,
      change⟩ := by
    simp [step, pullStep, hlen, hnone, hpeers]
  have hselect : Reachable (fun s event => ctx.step s (.pull event)) ⟨d, .readLocal, change⟩
      ⟨d, ctx.selected (env.select ctx.fileID d.node.index), change⟩ := by
    rw [PullEnv.select, hpeers]
    exact .head _ hread (select_alone ⟨d, .readLocal, change⟩ _ env.peers none)
  cases hfound : env.select ctx.fileID d.node.index with
  | error lastErr =>
      rw [hfound] at h hselect
      cases h
      exact ⟨none, hselect⟩
  | ok found =>
      obtain ⟨diff, m⟩ := found
      rw [hfound] at h hselect
      simp only [selected] at h hselect
      refine ⟨some m, hselect.trans ?_⟩
      split_ifs at h ⊢ with hsynced
      · cases h
        exact .refl _
      · obtain ⟨⟨download, result⟩, hdownload, rfl⟩ := Option.map_eq_some_iff.mp h
        rw [PullEnv.fetchChunks, hpeers] at hdownload
        have hfetch : ctx.step ⟨d, .fetchChunks diff m, change⟩
            (.pull (.fetchChunks env.availability env.sorter env.schedule)) = some
              ⟨{ d with node := d.node.downloaded download }, afterDownload m result, change⟩ := by
          simp only [step, pullStep, hdownload]
          rfl
        refine .head _ hfetch ?_
        cases result with
        | error err => exact .refl _
        | ok _ => exact finish_alone _ change m env

end Alone

/-! ## What a step does to the index -/

variable {ctx} {s s' : Race}

/-- A step of the pull leaves the index alone, except for the last one, which may store the
fetched record. -/
theorem pull_step_index {baseDir : GoString} {node node' : Node} {pc pc' : PullPc}
    {event : PullEvent} (h : ctx.pullStep baseDir node pc event = some (node', pc')) :
    node'.index = node.index ∨
      ∃ m io, pc = .putMeta m ∧ event = .putMeta io ∧ BoltMetaStore.ValidKey m.fileID ∧
        io.commit = true ∧ node'.index = node.index.set m ∧ pc' = .done (some m) (.ok ()) := by
  unfold pullStep at h
  split at h
  · cases h
    exact .inl rfl
  · cases h
    exact .inl rfl
  · cases h
    exact .inl rfl
  · obtain ⟨⟨download, result⟩, -, heq⟩ := Option.map_eq_some_iff.mp h
    cases heq
    exact .inl rfl
  · next m io =>
      cases h
      exact .inl (assemble_frame baseDir ctx.fileID io m node).1
  · next m io =>
      cases hput : node.index.putFileMeta m io.commit with
      | error err =>
          simp only [saveMeta, hput] at h
          cases h
          exact .inl rfl
      | ok next =>
          simp only [saveMeta, hput] at h
          cases h
          obtain ⟨hkey, hcommit, hset⟩ := BoltMetaStore.put_ok_iff.mp hput
          exact .inr ⟨m, io, rfl, rfl, hkey, hcommit, hset, rfl⟩
  · cases h

/-- A pull that has ended takes no step. -/
theorem pull_step_done (baseDir : GoString) (node : Node) (m : Option FileMeta)
    (result : Except PullError Unit) (event : PullEvent) :
    ctx.pullStep baseDir node (.done m result) event = none := rfl

/-- `HandleFileChange` does not look at the file. -/
def Skips (ctx : RaceContext) (d : Daemon) (now : Int) : Prop :=
  ext ctx.path = ascii ".db" ∨ (d.isQuiet now ctx.path).2 = true

/-- What a step of `HandleFileChange` does: it skips the path or goes on to the file, finds none or
opens it, reads on or comes to its end, finds the root in the index or puts the chunks, draws the
timestamp, or stores the record. -/
inductive ChangeMoves (ctx : RaceContext) (d : Daemon) :
    ChangePc → ChangeEvent → Daemon → ChangePc → Prop
  | skip (now : Int) (quiet : GoString → Option Int) (hmarks : d.MarksKept now quiet)
      (hskip : ctx.Skips d now) :
      ChangeMoves ctx d .isQuiet (.isQuiet now) (d.withQuiet quiet) (.done none)
  | pass (now : Int) (quiet : GoString → Option Int) (hmarks : d.MarksKept now quiet)
      (hpass : ¬ ctx.Skips d now) :
      ChangeMoves ctx d .isQuiet (.isQuiet now) (d.withQuiet quiet) .openFile
  | missing (hfile : d.node.disk (clean ctx.path) = none) :
      ChangeMoves ctx d .openFile .openFile d (.done none)
  | opened (content : Bytes) (hfile : d.node.disk (clean ctx.path) = some content) :
      ChangeMoves ctx d .openFile .openFile d (.read (d.changeFileID ctx.path) [])
  | more (fileID : GoString) (content part : Bytes) (hpart : part ≠ []) :
      ChangeMoves ctx d (.read fileID content) (.read part) d (.read fileID (content ++ part))
  | eof (fileID : GoString) (content : Bytes) :
      ChangeMoves ctx d (.read fileID content) (.read []) d
        (.compareRoot fileID (chunksFrom ctx.sha256 0 0 (ctx.cdc.cut content)))
  | same (io : Daemon.IndexAnswers) (fileID : GoString) (chunks : List Chunk)
      (hsame : (d.node.index.getFileMeta fileID).map FileMeta.merkleRoot =
        some (computeRoot ctx.sha256 chunks)) :
      ChangeMoves ctx d (.compareRoot fileID chunks) (.compareRoot io) d (.done none)
  | differ (io : Daemon.IndexAnswers) (fileID : GoString) (chunks : List Chunk)
      (hdiffers : (d.node.index.getFileMeta fileID).map FileMeta.merkleRoot ≠
        some (computeRoot ctx.sha256 chunks)) :
      ChangeMoves ctx d (.compareRoot fileID chunks) (.compareRoot io)
        { d with node := { d.node with
            objects := Daemon.storeChunks ctx.sha256 io 0 d.node.objects chunks } }
        (.nextTS fileID chunks)
  | stamp (fileID : GoString) (chunks : List Chunk) :
      ChangeMoves ctx d (.nextTS fileID chunks) .nextTS { d with clock := d.clock + 1 }
        (.putMeta (Daemon.fileMeta ctx.sha256 fileID chunks (d.clock + 1)))
  | store (m : FileMeta) (commit : Bool) :
      ChangeMoves ctx d (.putMeta m) (.putMeta commit)
        { d with node := { d.node with index := Daemon.putIgnored d.node.index m commit } }
        (.done (some m))

theorem change_step_moves {d d' : Daemon} {pc pc' : ChangePc} {event : ChangeEvent}
    (h : ctx.changeStep d pc event = some (d', pc')) : ChangeMoves ctx d pc event d' pc' := by
  unfold changeStep at h
  split at h
  · next now =>
      split_ifs at h with hdb
      · cases h
        exact .skip now d.node.quiet (fun _ _ hmark _ => hmark) (.inl hdb)
      · obtain ⟨quiet, hmarks, hquiet⟩ := d.exists_is_quiet ctx.path now
        simp only [hquiet] at h
        cases hskip : (d.isQuiet now ctx.path).2 with
        | true =>
            simp only [hskip, if_true] at h
            cases h
            exact .skip now quiet hmarks (.inr hskip)
        | false =>
            simp only [hskip, Bool.false_eq_true, if_false] at h
            cases h
            exact .pass now quiet hmarks (by simp [Skips, hdb, hskip])
  · cases hfile : d.node.disk (clean ctx.path) with
    | none =>
        simp only [hfile] at h
        cases h
        exact .missing hfile
    | some content =>
        simp only [hfile] at h
        cases h
        exact .opened content hfile
  · next fileID content part =>
      split_ifs at h with hpart <;> cases h
      · subst hpart
        exact .eof fileID content
      · exact .more fileID content part hpart
  · next fileID chunks io =>
      split_ifs at h with hsame <;> cases h
      · exact .same io fileID chunks hsame
      · exact .differ io fileID chunks hsame
  · next fileID chunks =>
      cases h
      exact .stamp fileID chunks
  · next m commit =>
      cases h
      exact .store m commit
  · cases h

/-! ## Where the edit is lost -/

/-- The entry of the file. -/
def entry (ctx : RaceContext) (s : Race) : Option FileMeta :=
  s.daemon.node.index.getFileMeta ctx.fileID

/-- The entry has another root, or it is the record the pull stored. -/
def Other (ctx : RaceContext) (s : Race) (root : Hash) : Prop :=
  (ctx.entry s).map FileMeta.merkleRoot ≠ some root ∨
    ∃ m result, s.pull = .done (some m) result ∧ ctx.entry s = some m.json

/-- What is known of the edit on its way to the index. -/
def Tracks (ctx : RaceContext) (s : Race) : Prop :=
  s.daemon.changeFileID ctx.path = ctx.fileID ∧
    match s.change with
    | .isQuiet | .openFile | .done none => True
    | .read fileID _ | .compareRoot fileID _ => fileID = ctx.fileID
    | .nextTS fileID chunks => fileID = ctx.fileID ∧ ctx.Other s (computeRoot ctx.sha256 chunks)
    | .putMeta edit => edit.fileID = ctx.fileID ∧ ctx.Other s edit.merkleRoot
    | .done (some edit) => edit.fileID = ctx.fileID

/-- The step does not lose the edit: bbolt takes its record, and the pull stores no record of the
file once it is there. -/
def KeepsEdit (ctx : RaceContext) (s : Race) : RaceEvent → Prop
  | .change (.putMeta commit) => BoltMetaStore.ValidKey ctx.fileID ∧ commit = true
  | .pull (.putMeta io) => ∀ m edit, s.pull = .putMeta m → s.change = .done (some edit) →
      ¬ (m.fileID = ctx.fileID ∧ BoltMetaStore.ValidKey ctx.fileID ∧ io.commit = true)
  | _ => True

/-- A step of the pull does not bring the edit's record into the index. -/
theorem other_pull {event : PullEvent} (h : ctx.step s (.pull event) = some s') {root : Hash}
    (hother : ctx.Other s root) : ctx.Other s' root := by
  obtain ⟨⟨node, pc⟩, hstep, rfl⟩ := Option.map_eq_some_iff.mp h
  rcases hother with hroot | ⟨m, result, hdone, -⟩
  · rcases pull_step_index hstep with hindex | ⟨m, io, -, -, -, -, hindex, rfl⟩
    · exact .inl (by simpa only [entry, hindex] using hroot)
    · by_cases hfile : ctx.fileID = m.fileID
      · refine .inr ⟨m, .ok (), rfl, ?_⟩
        rw [entry, hindex, BoltMetaStore.get_set, if_pos hfile]
      · refine .inl ?_
        rwa [entry, hindex, BoltMetaStore.get_set_of_ne _ _ hfile]
  · rw [hdone, pull_step_done] at hstep
    cases hstep

theorem step_tracks {event : RaceEvent} (hs : ctx.Tracks s) (h : ctx.step s event = some s') :
    ctx.Tracks s' := by
  obtain ⟨hpath, hchange⟩ := hs
  cases event with
  | pull event =>
      have hother {root : Hash} : ctx.Other s root → ctx.Other s' root := other_pull h
      obtain ⟨⟨node, pc⟩, hstep, rfl⟩ := Option.map_eq_some_iff.mp h
      refine ⟨hpath, ?_⟩
      obtain ⟨d, pull, change⟩ := s
      cases change with
      | isQuiet | openFile => trivial
      | read | compareRoot => exact hchange
      | nextTS fileID chunks => exact ⟨hchange.1, hother hchange.2⟩
      | putMeta edit => exact ⟨hchange.1, hother hchange.2⟩
      | done edit => cases edit <;> exact hchange
  | change event =>
      obtain ⟨⟨d', pc⟩, hstep, rfl⟩ := Option.map_eq_some_iff.mp h
      obtain ⟨d, pull, change⟩ := s
      cases change_step_moves hstep with
      | skip | pass | missing | same => exact ⟨hpath, trivial⟩
      | opened => exact ⟨hpath, hpath⟩
      | more | eof => exact ⟨hpath, hchange⟩
      | differ io fileID chunks hdiffers =>
          refine ⟨hpath, hchange, .inl ?_⟩
          cases hchange
          exact hdiffers
      | stamp => exact ⟨hpath, hchange⟩
      | store => exact ⟨hpath, hchange.1⟩

/-- The edit's record is the entry once it was stored. -/
def Kept (ctx : RaceContext) (s : Race) : Prop :=
  ctx.Tracks s ∧ ∀ edit, s.change = .done (some edit) → ctx.entry s = some edit.json

theorem step_kept {event : RaceEvent} (hs : ctx.Kept s) (hkeeps : ctx.KeepsEdit s event)
    (h : ctx.step s event = some s') : ctx.Kept s' := by
  obtain ⟨htracks, hentry⟩ := hs
  refine ⟨step_tracks htracks h, fun edit hedit => ?_⟩
  cases event with
  | pull event =>
      obtain ⟨⟨node, pc⟩, hstep, rfl⟩ := Option.map_eq_some_iff.mp h
      rcases pull_step_index hstep with hindex | ⟨m, io, hpc, rfl, hkey, hcommit, hindex, -⟩
      · simpa only [entry, hindex] using hentry edit hedit
      · have hfile : ctx.fileID ≠ m.fileID := fun hfile =>
          hkeeps m edit hpc hedit ⟨hfile.symm, hfile ▸ hkey, hcommit⟩
        rw [entry, hindex, BoltMetaStore.get_set_of_ne _ _ hfile]
        exact hentry edit hedit
  | change event =>
      obtain ⟨⟨d', pc⟩, hstep, rfl⟩ := Option.map_eq_some_iff.mp h
      obtain ⟨d, pull, change⟩ := s
      cases hedit
      cases change_step_moves hstep
      obtain ⟨hkey, hcommit⟩ := hkeeps
      have hfile : edit.fileID = ctx.fileID := htracks.2.1
      rw [entry, Daemon.put_ignored_of_valid _ (hfile ▸ hkey) hcommit, ← hfile,
        BoltMetaStore.get_set_self]

/-- The edit is done and its record is not the entry. -/
def Lost (ctx : RaceContext) (edit : FileMeta) (s : Race) : Prop :=
  s.change = .done (some edit) ∧ ctx.Other s edit.merkleRoot

theorem step_lost {event : RaceEvent} {edit : FileMeta} (hs : ctx.Lost edit s)
    (h : ctx.step s event = some s') : ctx.Lost edit s' := by
  obtain ⟨hedit, hother⟩ := hs
  cases event with
  | pull event =>
      refine ⟨?_, other_pull h hother⟩
      obtain ⟨⟨node, pc⟩, -, rfl⟩ := Option.map_eq_some_iff.mp h
      exact hedit
  | change event =>
      obtain ⟨⟨d', pc⟩, hstep, -⟩ := Option.map_eq_some_iff.mp h
      rw [hedit] at hstep
      cases hstep

/-- An edit whose record bbolt does not take is lost. -/
theorem lost_of_not_stored {commit : Bool} (hs : ctx.Tracks s)
    (hkeeps : ¬ (BoltMetaStore.ValidKey ctx.fileID ∧ commit = true))
    (h : ctx.step s (.change (.putMeta commit)) = some s') : ∃ edit, ctx.Lost edit s' := by
  obtain ⟨⟨d', pc⟩, hstep, rfl⟩ := Option.map_eq_some_iff.mp h
  obtain ⟨d, pull, change⟩ := s
  cases change with
  | putMeta edit =>
      cases hstep
      obtain ⟨-, hfile, hother⟩ := hs
      refine ⟨edit, rfl, ?_⟩
      rcases Daemon.put_ignored_cases d.node.index edit commit with hput | ⟨hkey, hcommit, -⟩
      · simpa only [Other, entry, hput] using hother
      · exact absurd ⟨hfile ▸ hkey, hcommit⟩ hkeeps
  | isQuiet | openFile | read | compareRoot | nextTS | done => cases hstep

/-- An edit is lost when the pull stores its record of the file afterwards. -/
theorem lost_of_pulled {io : DiskAnswers} {m edit : FileMeta} (hpull : s.pull = .putMeta m)
    (hedit : s.change = .done (some edit)) (hfile : m.fileID = ctx.fileID)
    (hkey : BoltMetaStore.ValidKey ctx.fileID) (hcommit : io.commit = true)
    (h : ctx.step s (.pull (.putMeta io)) = some s') : ctx.Lost edit s' := by
  have hput : s.daemon.node.index.putFileMeta m io.commit = .ok (s.daemon.node.index.set m) :=
    BoltMetaStore.put_ok_iff.mpr ⟨hfile ▸ hkey, hcommit, rfl⟩
  simp only [step, hpull, pullStep, saveMeta, hput, Option.map_some] at h
  cases h
  refine ⟨hedit, .inr ⟨m, .ok (), rfl, ?_⟩⟩
  rw [entry, ← hfile, BoltMetaStore.get_set_self]

/-- A run that ends with the edit's record in the index never lost it. -/
theorem along_of_kept {start : Race} {events : List RaceEvent} {edit : FileMeta}
    {fetched : Option FileMeta} {result : Except PullError Unit} (hstart : ctx.Tracks start)
    (hrun : run ctx.step start events = some s) (hedit : s.change = .done (some edit))
    (hdone : s.pull = .done fetched result)
    (hts : ∀ m, fetched = some m → m.lamportTS < edit.lamportTS)
    (hkept : ctx.entry s = some edit.json) : Along ctx.step ctx.KeepsEdit start events := by
  -- a state in which the edit is lost does not lead to the end of this run
  have hlost {next : Race} {rest : List RaceEvent} (hrest : run ctx.step next rest = some s) :
      ¬ ∃ lost, ctx.Lost lost next := by
    rintro ⟨lost, hlost⟩
    obtain ⟨hchange, hother⟩ := run_invariant (ctx.Lost lost) hrest (along_true rest) hlost
      fun _ _ _ hs _ hstep => step_lost hs hstep
    rw [hedit] at hchange
    cases hchange
    rcases hother with hroot | ⟨m, _, hpull, hentry⟩
    · exact hroot (by rw [hkept]; rfl)
    · rw [hdone] at hpull
      cases hpull
      rw [hkept] at hentry
      have heq : edit.json.lamportTS = m.json.lamportTS :=
        congrArg FileMeta.lamportTS (Option.some.inj hentry)
      exact (hts m rfl).ne' heq
  induction events generalizing start with
  | nil => trivial
  | cons event events ih =>
      obtain ⟨next, hnext, hrest⟩ := run_cons_eq_some.mp hrun
      refine (along_cons hnext).mpr ⟨?_, ih (step_tracks hstart hnext) hrest⟩
      match event, hnext with
      | .change (.putMeta commit), hnext =>
          by_contra hkeeps
          exact hlost hrest (lost_of_not_stored hstart hkeeps hnext)
      | .pull (.putMeta io), hnext =>
          rintro m lost hpull hchange ⟨hfile, hkey, hcommit⟩
          exact hlost hrest ⟨lost, lost_of_pulled hpull hchange hfile hkey hcommit hnext⟩
      | .change (.isQuiet _), _ | .change .openFile, _ | .change (.read _), _
      | .change (.compareRoot _), _ | .change .nextTS, _ | .pull .readLocal, _
      | .pull (.diff _ _), _ | .pull (.fetchMeta _), _ | .pull (.fetchChunks _ _ _), _
      | .pull (.assemble _), _ => trivial

/-- Every run tracks the edit. -/
theorem run_tracks {start : Race} {events : List RaceEvent} (hstart : ctx.Tracks start)
    (hrun : run ctx.step start events = some s) : ctx.Tracks s :=
  run_invariant ctx.Tracks hrun (along_true events) hstart
    fun _ _ _ hs _ hstep => step_tracks hs hstep

/-- **Which interleavings keep a local edit.** Once both calls have finished and the edit has the
greater timestamp, the entry of the file is the edit's record exactly if JSON can keep the file
ID, bbolt took that record, and the pull did not store a record of the file after it. -/
theorem local_edit_kept_iff {start : Race} {events : List RaceEvent} {edit : FileMeta}
    {fetched : Option FileMeta} {result : Except PullError Unit}
    (hchange : start.change = .isQuiet) (hpath : start.daemon.changeFileID ctx.path = ctx.fileID)
    (hrun : run ctx.step start events = some s) (hedit : s.change = .done (some edit))
    (hdone : s.pull = .done fetched result)
    (hts : ∀ m, fetched = some m → m.lamportTS < edit.lamportTS) :
    s.daemon.node.index.getFileMeta ctx.fileID = some edit ↔
      ValidUtf8 ctx.fileID ∧ Along ctx.step ctx.KeepsEdit start events := by
  have hstart : ctx.Tracks start := ⟨hpath, by rw [hchange]; trivial⟩
  have hfile : edit.fileID = ctx.fileID := by
    have htracks := (run_tracks hstart hrun).2
    rwa [hedit] at htracks
  constructor
  · intro hentry
    -- the entry names its key as JSON keeps it, and the edit names the file
    have hvalid : ValidUtf8 ctx.fileID :=
      (BoltMetaStore.file_id_of_get hentry).symm.trans hfile
    have hkept : ctx.entry s = some edit.json := by rwa [BoltMetaStore.json_of_get hentry]
    exact ⟨hvalid, along_of_kept hstart hrun hedit hdone hts hkept⟩
  · rintro ⟨hvalid, hkeeps⟩
    have hkept : ctx.Kept start := ⟨hstart, fun _ h => by rw [hchange] at h; cases h⟩
    have hentry := (run_invariant ctx.Kept hrun hkeeps hkept
      fun _ _ _ hs hguard hstep => step_kept hs hguard hstep).2 edit hedit
    rwa [FileMeta.json_of_valid (hfile ▸ hvalid)] at hentry

/-! ## Two interleavings -/

/-- The file `f` below `/d`, with one peer. -/
def single : RaceContext :=
  ⟨Hash.sample, .fixed, ascii "f", ascii "/d/f", [⟨ascii "p", ascii "10.0.0.1", 9100, 9000⟩]⟩

/-- A node with clock 5 and the text `edit` in the file, about to run both calls. -/
def bothStart : Race where
  daemon := { Daemon.new (ascii "n") (ascii "/d") .empty (fun _ => none)
    (Function.update (fun _ => none) (ascii "/d/f") (some (ascii "edit"))) with clock := 5 }
  pull := .readLocal
  change := .isQuiet

/-- The peer's version: an empty file with timestamp 1. -/
def peerMeta : FileMeta := ⟨ascii "f", .zero, 1, [], 0⟩

/-- The record of the local edit. -/
def editMeta : FileMeta := ⟨ascii "f", .sample (ascii "edit"), 6, [.sample (ascii "edit")], 4⟩

/-- The pull up to its download, then `HandleFileChange` reads the file. -/
def bothRead : List RaceEvent :=
  [.pull .readLocal, .pull (.diff true (diff (.set .empty peerMeta))),
    .pull (.fetchMeta (some peerMeta)), .pull (.fetchChunks [] .insertion []),
    .change (.isQuiet 0), .change .openFile, .change (.read (ascii "edit")), .change (.read [])]

/-- `HandleFileChange` runs to its end. -/
def finishChange : List RaceEvent :=
  [.change (.compareRoot ⟨fun _ => true, true⟩), .change .nextTS, .change (.putMeta true)]

/-- The pull runs to its end. -/
def finishPull : List RaceEvent := [.pull (.assemble .allOk), .pull (.putMeta .allOk)]

/-- The pull finishes first: the edit is kept. -/
theorem local_edit_kept_after_pull :
    ∃ s result, run single.step bothStart (bothRead ++ finishPull ++ finishChange) = some s ∧
      s.change = .done (some editMeta) ∧ s.pull = .done (some peerMeta) result ∧
      peerMeta.lamportTS < editMeta.lamportTS ∧
      s.daemon.node.index.getFileMeta (ascii "f") = some editMeta := by
  obtain ⟨s, result, hrun, hedit, hdone⟩ : ∃ s result,
      run single.step bothStart (bothRead ++ finishPull ++ finishChange) = some s ∧
        s.change = .done (some editMeta) ∧ s.pull = .done (some peerMeta) result :=
    ⟨_, _, rfl, rfl, rfl⟩
  have hts : peerMeta.lamportTS < editMeta.lamportTS := by decide
  have hkeeps : Along single.step single.KeepsEdit bothStart
      (bothRead ++ finishPull ++ finishChange) := by
    refine ⟨trivial, trivial, trivial, trivial, trivial, trivial, trivial, trivial, trivial, ?_,
      trivial, trivial, ?_, trivial⟩
    · exact fun _ _ _ hdone => by cases hdone
    · exact ⟨by decide, rfl⟩
  refine ⟨s, result, hrun, hedit, hdone, hts,
    (local_edit_kept_iff rfl (by decide) hrun hedit hdone ?_).mpr ⟨by decide, hkeeps⟩⟩
  rintro _ ⟨⟩
  exact hts

/-- `HandleFileChange` finishes first: the pull overwrites the edit's record, whose timestamp is
the greater one. -/
theorem local_edit_lost_to_pull :
    ∃ s result, run single.step bothStart (bothRead ++ finishChange ++ finishPull) = some s ∧
      s.change = .done (some editMeta) ∧ s.pull = .done (some peerMeta) result ∧
      peerMeta.lamportTS < editMeta.lamportTS ∧
      s.daemon.node.index.getFileMeta (ascii "f") = some peerMeta := by
  refine ⟨_, _, rfl, rfl, rfl, by decide, by decide⟩

end RaceContext

end NuSync
