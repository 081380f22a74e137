import NuSync.Orchestrator.GoodPeer
import NuSync.Orchestrator.Pull
import NuSync.Scheduler.Rarity

/-!
# The lifetime of the chunk goroutines

`Engine.Pull` checks that a chunk has a peer inside the loop that starts the goroutines, and
returns from there without waiting. `liveStep` runs `Pull` and its goroutines side by side: they
go on whether or not `Pull` has returned. No goroutine is left when it does
(`no_download_outlives_pull`), because the rarity map is sorted and a chunk without peers comes
before all others. `live_run_pull` says that `pull` is what the two compute together.
-/

namespace NuSync.Orchestrator

open NuSync.Go NuSync.Lib NuSync.Store NuSync.Control NuSync.Scheduler

/-- Where `Pull` itself stands: it has not begun, it goes through the rarity map, it waits for the
goroutines, or it has returned. -/
inductive PullPc where
  | begin
  | spawning (remoteMeta : FileMeta) (chunks : List ChunkRarity)
  | waiting (remoteMeta : FileMeta)
  | returned (result : Except PullError Unit) (announced : Option (GoString × Hash × UInt64))

/-- A pull and the goroutines it has started, on the node they share. -/
structure LivePull where
  node : Node
  pc : PullPc
  fetches : List Fetch
  errors : List Bytes

/-- A pull that has not begun. -/
def LivePull.start (node : Node) : LivePull := ⟨node, .begin, [], []⟩

/-- The part of the state the goroutines work on. -/
def LivePull.download (s : LivePull) : Download :=
  ⟨s.node.objects, s.node.tracker, s.fetches, s.errors⟩

/-- `Pull` moves, up to the rarity map, by one chunk of it, or from `wg.Wait` to its end; or a
goroutine does. -/
inductive LiveEvent where
  | begin
  | spawn
  | wait
  | fetch (event : FetchEvent)

/-- The moves of the goroutines. -/
def fetchEvents (events : List LiveEvent) : List FetchEvent :=
  events.filterMap fun
    | .fetch event => some event
    | _ => none

section Steps

variable (sha256 : Bytes → Hash) (baseDir fileID : GoString) (env : PullEnv)

/-- The rarity map for a diff. -/
def PullEnv.rarity (diff : DiffResponse) : List ChunkRarity :=
  buildRarityMap env.sorter diff.missingChunkHashes env.availability

/-- The same environment with another schedule. -/
def PullEnv.withSchedule (schedule : List FetchEvent) : PullEnv := { env with schedule := schedule }

/-- One step of a pull or of one of its goroutines. -/
def liveStep (s : LivePull) : LiveEvent → Option LivePull
  | .begin =>
      match s.pc with
      | .begin =>
          if env.peers.length = 0 then
            some { s with pc := .returned (.error (.noCandidates fileID)) none }
          else
            match env.select fileID s.node.index with
            | .error lastErr =>
                some { s with pc := .returned (.error (.noPeerHadFile fileID lastErr)) none }
            | .ok (diff, remoteMeta) =>
                if diff.isSynced then some { s with pc := .returned (.ok ()) none }
                else some { s with pc := .spawning remoteMeta (env.rarity diff) }
      | _ => none
  | .spawn =>
      match s.pc with
      | .spawning remoteMeta [] => some { s with pc := .waiting remoteMeta }
      | .spawning remoteMeta (chunk :: chunks) =>
          -- the goroutines started so far are not waited for
          if chunk.peers.length = 0 then
            some { s with pc := .returned (.error (.download (.unavailable chunk.hash))) none }
          else
            some { s with
              pc := .spawning remoteMeta chunks
              fetches := s.fetches ++ [⟨chunk.hash, .nextPeer chunk.peers⟩] }
      | _ => none
  | .wait =>
      match s.pc with
      | .waiting remoteMeta =>
          if s.download.isDone then
            match s.errors with
            | hash :: _ =>
                some { s with pc := .returned (.error (.download (.exhausted hash))) none }
            | [] =>
                let outcome := env.finish baseDir fileID remoteMeta s.node
                some { s with
                  node := outcome.node
                  pc := .returned outcome.result outcome.announced }
          else none
      | _ => none
  | .fetch event =>
      (downloadStep sha256 (grpcToHTTP (env.peers.map Prod.fst)) s.download event).map fun d =>
        { s with node := s.node.downloaded d, fetches := d.fetches, errors := d.errors }

/-- The peer that is taken has a version with a missing chunk that no peer says it has. -/
def SomeUnavailable (index : BoltMetaStore) : Prop :=
  ∃ diff remoteMeta, env.select fileID index = .ok (diff, remoteMeta) ∧ diff.isSynced = false ∧
    ∃ hash ∈ diff.missingChunkHashes, ∀ answer ∈ env.availability, hash ∉ answer.2

/-- The moves of a pull and its goroutines. -/
inductive LiveMoves (s : LivePull) : LiveEvent → LivePull → Prop
  | noPeers (hpc : s.pc = .begin) (hpeers : env.peers.length = 0) :
      LiveMoves s .begin { s with pc := .returned (.error (.noCandidates fileID)) none }
  | noFile (hpc : s.pc = .begin) (hpeers : env.peers.length ≠ 0) (lastErr : Option PeerError)
      (hselect : env.select fileID s.node.index = .error lastErr) :
      LiveMoves s .begin { s with pc := .returned (.error (.noPeerHadFile fileID lastErr)) none }
  | synced (hpc : s.pc = .begin) (diff : DiffResponse) (m : FileMeta)
      (hselect : env.select fileID s.node.index = .ok (diff, m)) (hsynced : diff.isSynced = true) :
      LiveMoves s .begin { s with pc := .returned (.ok ()) none }
  | differs (hpc : s.pc = .begin) (diff : DiffResponse) (m : FileMeta)
      (hselect : env.select fileID s.node.index = .ok (diff, m)) (hsynced : diff.isSynced = false) :
      LiveMoves s .begin { s with pc := .spawning m (env.rarity diff) }
  | all (m : FileMeta) (hpc : s.pc = .spawning m []) :
      LiveMoves s .spawn { s with pc := .waiting m }
  | unavailable (m : FileMeta) (chunk : ChunkRarity) (chunks : List ChunkRarity)
      (hpc : s.pc = .spawning m (chunk :: chunks)) (hpeers : chunk.peers = []) :
      LiveMoves s .spawn
        { s with pc := .returned (.error (.download (.unavailable chunk.hash))) none }
  | spawn (m : FileMeta) (chunk : ChunkRarity) (chunks : List ChunkRarity)
      (hpc : s.pc = .spawning m (chunk :: chunks)) (hpeers : chunk.peers ≠ []) :
      LiveMoves s .spawn
        { s with
          pc := .spawning m chunks
          fetches := s.fetches ++ [⟨chunk.hash, .nextPeer chunk.peers⟩] }
  | exhausted (m : FileMeta) (hash : Bytes) (hashes : List Bytes) (hpc : s.pc = .waiting m)
      (hdone : s.download.isDone = true) (herrors : s.errors = hash :: hashes) :
      LiveMoves s .wait { s with pc := .returned (.error (.download (.exhausted hash))) none }
  | finish (m : FileMeta) (hpc : s.pc = .waiting m) (hdone : s.download.isDone = true)
      (herrors : s.errors = []) :
      LiveMoves s .wait
        { s with
          node := (env.finish baseDir fileID m s.node).node
          pc := .returned (env.finish baseDir fileID m s.node).result
            (env.finish baseDir fileID m s.node).announced }
  | fetch (event : FetchEvent) (d : Download)
      (hstep : downloadStep sha256 (grpcToHTTP (env.peers.map Prod.fst)) s.download event =
        some d) :
      LiveMoves s (.fetch event)
        { s with node := s.node.downloaded d, fetches := d.fetches, errors := d.errors }

end Steps

variable {sha256 : Bytes → Hash} {baseDir fileID : GoString} {env : PullEnv} {node : Node}
  {s s' : LivePull} {event : LiveEvent}

/-- A step is one of the moves. -/
theorem live_step_moves (h : liveStep sha256 baseDir fileID env s event = some s') :
    LiveMoves sha256 baseDir fileID env s event s' := by
  obtain ⟨node, pc, fetches, errors⟩ := s
  cases event with
  | begin =>
      cases pc with
      | begin =>
          simp only [liveStep] at h
          split_ifs at h with hpeers
          · cases h
            exact .noPeers rfl hpeers
          · cases hselect : env.select fileID node.index with
            | error lastErr =>
                simp only [hselect, Option.some.injEq] at h
                subst h
                exact .noFile rfl hpeers lastErr hselect
            | ok selected =>
                obtain ⟨diff, m⟩ := selected
                simp only [hselect] at h
                split_ifs at h with hsynced
                · cases h
                  exact .synced rfl diff m hselect hsynced
                · cases h
                  exact .differs rfl diff m hselect (by simpa using hsynced)
      | spawning | waiting | returned => cases h
  | spawn =>
      cases pc with
      | spawning m chunks =>
          cases chunks with
          | nil =>
              cases h
              exact .all m rfl
          | cons chunk chunks =>
              simp only [liveStep] at h
              split_ifs at h with hpeers
              · cases h
                exact .unavailable m chunk chunks rfl (List.length_eq_zero_iff.mp hpeers)
              · cases h
                refine .spawn m chunk chunks rfl fun hnone => hpeers ?_
                rw [hnone, List.length_nil]
      | begin | waiting | returned => cases h
  | wait =>
      cases pc with
      | waiting m =>
          simp only [liveStep] at h
          split_ifs at h with hdone
          cases errors with
          | nil =>
              cases h
              exact .finish m rfl hdone rfl
          | cons hash hashes =>
              cases h
              exact .exhausted m hash hashes rfl hdone rfl
      | begin | spawning | returned => cases h
  | fetch event =>
      obtain ⟨d, hstep, rfl⟩ := Option.map_eq_some_iff.mp h
      exact .fetch event d hstep

/-! ## What decides the error -/

/-- The assembly loop does not report errors of the download. -/
theorem write_chunks_not_download {objects : Hash → Option Bytes} {io : DiskAnswers} {i : Nat}
    {offset : Int} {sparse : Assembler.SparseFile} {hashes : List Hash} (err : DownloadError) :
    (writeChunks objects io fileID i offset sparse hashes).2 ≠ .error (.download err) := by
  induction hashes generalizing i offset sparse with
  | nil => simp [writeChunks]
  | cons hash hashes ih =>
      rw [writeChunks]
      split
      · simp
      · split
        · simp
        · exact ih

/-- Neither does what comes after the download. -/
theorem finish_not_download {m : FileMeta} {node : Node} (err : DownloadError) :
    (env.finish baseDir fileID m node).result ≠ .error (.download err) := by
  have hassemble : (assemble baseDir fileID env.io m node).2 ≠ .error (.download err) := by
    unfold assemble
    dsimp only
    split
    · simp
    · split
      · simp
      · split
        · next hloop => exact fun h => write_chunks_not_download err (hloop.trans h)
        · split <;> simp
  unfold PullEnv.finish
  split
  · next hresult => exact fun h => hassemble (by rw [hresult]; exact h)
  · split
    · next hresult =>
        unfold saveMeta at hresult
        split at hresult <;> cases hresult
        simp
    · simp

/-- Some chunk is unavailable exactly if the rarity map has a chunk without peers. -/
theorem some_unavailable_iff {index : BoltMetaStore} {diff : DiffResponse} {m : FileMeta}
    (hselect : env.select fileID index = .ok (diff, m)) (hsynced : diff.isSynced = false) :
    SomeUnavailable fileID env index ↔ ∃ chunk ∈ env.rarity diff, chunk.peers = [] := by
  constructor
  · rintro ⟨diff', m', hselect', -, hash, hmissing, hnone⟩
    cases hselect.symm.trans hselect'
    exact ⟨_, mem_build_rarity_map.mpr ⟨hash, hmissing, rfl⟩, rarity_map_eq_nil_iff.mpr hnone⟩
  · rintro ⟨chunk, hchunk, hpeers⟩
    obtain ⟨hash, hmissing, rfl⟩ := mem_build_rarity_map.mp hchunk
    exact ⟨diff, m, hselect, hsynced, hash, hmissing, rarity_map_eq_nil_iff.mp hpeers⟩

theorem not_some_unavailable {index : BoltMetaStore} {diff : DiffResponse} {m : FileMeta}
    (hselect : env.select fileID index = .ok (diff, m)) (hsynced : diff.isSynced = false)
    (hpeers : ∀ chunk ∈ env.rarity diff, chunk.peers ≠ []) :
    ¬ SomeUnavailable fileID env index := by
  rw [some_unavailable_iff hselect hsynced]
  rintro ⟨chunk, hchunk, hnone⟩
  exact hpeers chunk hchunk hnone

/-- **A chunk without peers comes first**: the rarity map is sorted, so no chunk with peers is
before one without. -/
theorem front_eq_nil {diff : DiffResponse} {front chunks : List ChunkRarity} {chunk : ChunkRarity}
    (hrarity : env.rarity diff = front ++ chunk :: chunks)
    (hfront : ∀ other ∈ front, other.peers ≠ []) (hpeers : chunk.peers = []) : front = [] := by
  by_contra hne
  obtain ⟨other, hother⟩ := List.exists_mem_of_ne_nil front hne
  have hsorted : (env.rarity diff).Pairwise fun a b => a.peers.length ≤ b.peers.length :=
    env.sorter.ascending _
  rw [hrarity, List.pairwise_append] at hsorted
  have hle := hsorted.2.2 other hother chunk List.mem_cons_self
  rw [hpeers, List.length_nil, Nat.le_zero, List.length_eq_zero_iff] at hle
  exact hfront other hother hle

/-! ## A pull and its goroutines compute `pull` -/

/-- The goroutine that is started for a chunk. -/
def spawned (chunk : ChunkRarity) : Fetch := ⟨chunk.hash, .nextPeer chunk.peers⟩

/-- A goroutine's step does not depend on goroutines that come after it. -/
theorem download_step_append {httpAddr : GoString → Option GoString} {d d' : Download}
    {event : FetchEvent} (h : downloadStep sha256 httpAddr d event = some d')
    (more : List Fetch) :
    downloadStep sha256 httpAddr { d with fetches := d.fetches ++ more } event =
      some { d' with fetches := d'.fetches ++ more } := by
  simp only [downloadStep, Option.bind_eq_bind, Option.bind_eq_some_iff, pure, Option.some.injEq,
    Prod.exists] at h ⊢
  obtain ⟨fetch, hfetch, objects, tracker, pc, hstep, rfl⟩ := h
  have hlt : event.fetch < d.fetches.length := (List.getElem?_eq_some_iff.mp hfetch).1
  refine ⟨fetch, ?_, objects, tracker, pc, hstep, ?_⟩
  · rw [List.getElem?_append_left hlt, hfetch]
  · rw [List.set_append_left _ _ hlt]

/-- Neither does a run. -/
theorem run_download_append {httpAddr : GoString → Option GoString} {d d' : Download}
    {events : List FetchEvent} (h : run (downloadStep sha256 httpAddr) d events = some d')
    (more : List Fetch) :
    run (downloadStep sha256 httpAddr) { d with fetches := d.fetches ++ more } events =
      some { d' with fetches := d'.fetches ++ more } := by
  induction events generalizing d with
  | nil =>
      cases h
      rfl
  | cons event events ih =>
      obtain ⟨next, hstep, hrest⟩ := run_cons_eq_some.mp h
      exact run_cons_eq_some.mpr ⟨_, download_step_append hstep more, ih hrest⟩

/-- Without goroutines nothing happens. -/
theorem run_download_none {httpAddr : GoString → Option GoString} {d d' : Download}
    {events : List FetchEvent} (h : run (downloadStep sha256 httpAddr) d events = some d')
    (hnone : d.fetches = []) : events = [] ∧ d' = d := by
  cases events with
  | nil =>
      cases h
      exact ⟨rfl, rfl⟩
  | cons event events =>
      obtain ⟨next, hstep, -⟩ := run_cons_eq_some.mp h
      obtain ⟨fetch, -, hfetch, -⟩ := download_step_moves hstep
      simp [hnone] at hfetch

section Invariant

variable (sha256 : Bytes → Hash) (baseDir fileID : GoString) (env : PullEnv) (node : Node)

/-- The goroutines of these chunks have come this far. -/
structure Downloading (chunks : List ChunkRarity) (events : List LiveEvent) (s : LivePull) :
    Prop where
  run : run (downloadStep sha256 (grpcToHTTP (env.peers.map Prod.fst)))
    ⟨node.objects, node.tracker, chunks.map spawned, []⟩ (fetchEvents events) = some s.download
  node : s.node = node.downloaded s.download

/-- What holds when the pull has returned. -/
structure Returned (events : List LiveEvent) (s : LivePull) (result : Except PullError Unit)
    (announced : Option (GoString × Hash × UInt64)) : Prop where
  done : s.download.isDone = true
  pull : pull sha256 baseDir fileID (env.withSchedule (fetchEvents events)) node =
    some ⟨s.node, result, announced⟩
  unavailable : (∃ hash, result = .error (.download (.unavailable hash))) ↔
    SomeUnavailable fileID env node.index
  first : SomeUnavailable fileID env node.index →
    s.fetches = [] ∧ fetchEvents events = [] ∧ s.node = node

/-- What holds of a pull that has come this far. -/
def Follows (events : List LiveEvent) (s : LivePull) : Prop :=
  match s.pc with
  | .begin => s = .start node ∧ fetchEvents events = []
  | .spawning m chunks => ∃ diff front, env.select fileID node.index = .ok (diff, m) ∧
      diff.isSynced = false ∧ env.rarity diff = front ++ chunks ∧
      (∀ chunk ∈ front, chunk.peers ≠ []) ∧ Downloading sha256 env node front events s
  | .waiting m => ∃ diff, env.select fileID node.index = .ok (diff, m) ∧ diff.isSynced = false ∧
      (∀ chunk ∈ env.rarity diff, chunk.peers ≠ []) ∧
      Downloading sha256 env node (env.rarity diff) events s
  | .returned result announced => Returned sha256 baseDir fileID env node events s result announced

end Invariant

/-- The schedule plays no part in the choice of the peer. -/
theorem select_with_schedule (schedule : List FetchEvent) (index : BoltMetaStore) :
    (env.withSchedule schedule).select fileID index = env.select fileID index := rfl

/-- The moves of `Pull` itself are not moves of goroutines. -/
theorem fetch_events_own {before : List LiveEvent} (h : ∀ fetch, event ≠ .fetch fetch) :
    fetchEvents (before ++ [event]) = fetchEvents before := by
  cases event with
  | begin | spawn | wait => simp [fetchEvents]
  | fetch event => exact absurd rfl (h event)

theorem fetch_events_fetch (before : List LiveEvent) (event : FetchEvent) :
    fetchEvents (before ++ [.fetch event]) = fetchEvents before ++ [event] := by
  simp [fetchEvents]

/-- A move of `Pull` itself that starts no goroutine leaves the goroutines where they are. -/
theorem Downloading.own {chunks : List ChunkRarity} {before : List LiveEvent}
    (h : Downloading sha256 env node chunks before s) (hevent : ∀ fetch, event ≠ .fetch fetch)
    (pc : PullPc) :
    Downloading sha256 env node chunks (before ++ [event]) { s with pc := pc } where
  run := by
    rw [fetch_events_own hevent]
    exact h.run
  node := h.node

/-- The download phase when all chunks have peers and the goroutines have returned. -/
theorem Downloading.fetch_chunks {diff : DiffResponse} {events : List LiveEvent}
    (h : Downloading sha256 env node (env.rarity diff) events s)
    (hpeers : ∀ chunk ∈ env.rarity diff, chunk.peers ≠ []) (hdone : s.download.isDone = true) :
    (env.withSchedule (fetchEvents events)).fetchChunks sha256
        diff.missingChunkHashes node.objects node.tracker =
      some (s.download, match s.errors with
        | [] => .ok ()
        | hash :: _ => .error (.exhausted hash)) := by
  have hrun := h.run
  show download sha256 (grpcToHTTP (env.peers.map Prod.fst)) (env.rarity diff) node.objects
    node.tracker (fetchEvents events) = _
  unfold spawned at hrun
  simp only [download, spawn_eq hpeers, hrun, Option.bind_eq_bind, Option.bind_some, hdone, if_true]
  cases herrors : s.errors with
  | nil =>
      have hnone : s.download.errors = [] := herrors
      rw [hnone]
  | cons hash hashes =>
      have hsome : s.download.errors = hash :: hashes := herrors
      rw [hsome]

/-- A pull whose chunks are all available has returned as `pull` does. -/
theorem returned_of_available {events : List LiveEvent} {result : Except PullError Unit}
    {announced : Option (GoString × Hash × UInt64)}
    (havailable : ¬ SomeUnavailable fileID env node.index) (hdone : s.download.isDone = true)
    (hresult : ∀ hash, result ≠ .error (.download (.unavailable hash)))
    (hpull : pull sha256 baseDir fileID (env.withSchedule (fetchEvents events)) node =
      some ⟨s.node, result, announced⟩) :
    Returned sha256 baseDir fileID env node events s result announced where
  done := hdone
  pull := hpull
  unavailable := ⟨fun ⟨hash, h⟩ => absurd h (hresult hash), fun h => absurd h havailable⟩
  first h := absurd h havailable

/-- A pull that has returned without starting a goroutine, and not because a chunk is
unavailable. -/
theorem returned_at_once {events : List LiveEvent} {result : Except PullError Unit}
    {announced : Option (GoString × Hash × UInt64)} (hevents : fetchEvents events = [])
    (hresult : ∀ hash, result ≠ .error (.download (.unavailable hash)))
    (havailable : ¬ SomeUnavailable fileID env node.index)
    (hpull : pull sha256 baseDir fileID (env.withSchedule []) node =
      some ⟨node, result, announced⟩) :
    Returned sha256 baseDir fileID env node events ⟨node, .returned result announced, [], []⟩ result
      announced := by
  refine returned_of_available havailable rfl hresult ?_
  rw [hevents, hpull]

/-- `begin` keeps to `pull`. -/
theorem follows_begin {before : List LiveEvent} (hevents : fetchEvents before = [])
    (hstep : liveStep sha256 baseDir fileID env (.start node) .begin = some s') :
    Follows sha256 baseDir fileID env node (before ++ [.begin]) s' := by
  have hnone : fetchEvents (before ++ [.begin]) = [] := by
    rw [fetch_events_own (by simp), hevents]
  cases live_step_moves hstep with
  | noPeers hpc hpeers =>
      refine returned_at_once hnone (by simp) ?_ (by simp [pull, PullEnv.withSchedule, hpeers])
      rintro ⟨diff, m, hselect, -⟩
      exact length_peers_ne_zero hselect hpeers
  | noFile hpc hpeers lastErr hselect =>
      refine returned_at_once hnone (by simp) ?_ ?_
      · rintro ⟨diff, m, hother, -⟩
        cases hselect.symm.trans hother
      · rw [pull, select_with_schedule, LivePull.start] at *
        simp [PullEnv.withSchedule, hpeers, hselect]
  | synced hpc diff m hselect hsynced =>
      refine returned_at_once hnone (by simp) ?_ (pull_of_synced hselect hsynced)
      rintro ⟨diff', m', hother, hdiffers, -⟩
      cases hselect.symm.trans hother
      cases hsynced.symm.trans hdiffers
  | differs hpc diff m hselect hsynced =>
      refine ⟨diff, [], hselect, hsynced, rfl, by simp, ⟨?_, rfl⟩⟩
      rw [hnone]
      rfl

/-- `spawn` keeps to `pull`. -/
theorem follows_spawn {before : List LiveEvent}
    (hinv : Follows sha256 baseDir fileID env node before s)
    (hstep : liveStep sha256 baseDir fileID env s .spawn = some s') :
    Follows sha256 baseDir fileID env node (before ++ [.spawn]) s' := by
  cases live_step_moves hstep with
  | all m hpc =>
      simp only [Follows, hpc] at hinv
      obtain ⟨diff, front, hselect, hsynced, hrarity, hfront, hdownloading⟩ := hinv
      rw [List.append_nil] at hrarity
      subst hrarity
      exact ⟨diff, hselect, hsynced, hfront, hdownloading.own (by simp) _⟩
  | unavailable m chunk chunks hpc hpeers =>
      simp only [Follows, hpc] at hinv
      obtain ⟨diff, front, hselect, hsynced, hrarity, hfront, hrun, hnode⟩ := hinv
      -- nothing was started before this chunk
      obtain rfl := front_eq_nil hrarity hfront hpeers
      obtain ⟨hevents, hdownload⟩ := run_download_none hrun rfl
      have hfetches : s.fetches = [] := congrArg Download.fetches hdownload
      have hsame : s.node = node := by
        rw [hnode, hdownload]
        rfl
      have hnone : fetchEvents (before ++ [.spawn]) = [] := by
        rw [fetch_events_own (by simp), hevents]
      have hfailed : (env.withSchedule []).fetchChunks sha256
          diff.missingChunkHashes node.objects node.tracker =
            some (⟨node.objects, node.tracker, [], []⟩, .error (.unavailable chunk.hash)) := by
        show download sha256 _ (env.rarity diff) node.objects node.tracker [] = _
        simp [download, hrarity, spawn, hpeers]
      have hsome : SomeUnavailable fileID env node.index :=
        (some_unavailable_iff hselect hsynced).mpr ⟨chunk, by simp [hrarity], hpeers⟩
      refine ⟨by simp [LivePull.download, Download.isDone, hfetches], ?_, ?_, ?_⟩
      · rw [hnone, hsame]
        exact pull_of_failed ((select_with_schedule _ _).trans hselect) hsynced hfailed
      · exact ⟨fun _ => hsome, fun _ => ⟨chunk.hash, rfl⟩⟩
      · exact fun _ => ⟨hfetches, hnone, hsame⟩
  | spawn m chunk chunks hpc hpeers =>
      simp only [Follows, hpc] at hinv
      obtain ⟨diff, front, hselect, hsynced, hrarity, hfront, hrun, hnode⟩ := hinv
      refine ⟨diff, front ++ [chunk], hselect, hsynced, by simp [hrarity], ?_, ⟨?_, hnode⟩⟩
      · intro other hother
        rcases List.mem_append.mp hother with hold | hnew
        · exact hfront other hold
        · rwa [List.mem_singleton.mp hnew]
      · rw [fetch_events_own (by simp), List.map_append]
        exact run_download_append hrun [spawned chunk]

/-- `wait` keeps to `pull`. -/
theorem follows_wait {before : List LiveEvent}
    (hinv : Follows sha256 baseDir fileID env node before s)
    (hstep : liveStep sha256 baseDir fileID env s .wait = some s') :
    Follows sha256 baseDir fileID env node (before ++ [.wait]) s' := by
  have hevents : fetchEvents (before ++ [.wait]) = fetchEvents before :=
    fetch_events_own (by simp)
  cases live_step_moves hstep with
  | exhausted m hash hashes hpc hdone herrors =>
      simp only [Follows, hpc] at hinv
      obtain ⟨diff, hselect, hsynced, hpeers, hdownloading⟩ := hinv
      have hselect' := (select_with_schedule (fetchEvents before) node.index).trans hselect
      have hfetched := hdownloading.fetch_chunks hpeers hdone
      rw [herrors] at hfetched
      have havailable := not_some_unavailable hselect hsynced hpeers
      refine returned_of_available havailable hdone (by simp) ?_
      rw [hevents, pull_of_failed hselect' hsynced hfetched, ← hdownloading.node]
  | finish m hpc hdone herrors =>
      simp only [Follows, hpc] at hinv
      obtain ⟨diff, hselect, hsynced, hpeers, hdownloading⟩ := hinv
      have hselect' := (select_with_schedule (fetchEvents before) node.index).trans hselect
      have hfetched := hdownloading.fetch_chunks hpeers hdone
      rw [herrors] at hfetched
      have havailable := not_some_unavailable hselect hsynced hpeers
      refine returned_of_available havailable hdone (fun hash => finish_not_download _) ?_
      rw [hevents, pull_of_fetched hselect' hsynced hfetched, ← hdownloading.node]
      rfl

/-- The goroutines keep to `pull`, and do nothing once it has returned. -/
theorem follows_fetch {before : List LiveEvent} {event : FetchEvent}
    (hinv : Follows sha256 baseDir fileID env node before s)
    (hstep : liveStep sha256 baseDir fileID env s (.fetch event) = some s') :
    Follows sha256 baseDir fileID env node (before ++ [.fetch event]) s' := by
  have hmore {chunks : List ChunkRarity} {d : Download}
      (hdownloading : Downloading sha256 env node chunks before s)
      (hmove : downloadStep sha256 (grpcToHTTP (env.peers.map Prod.fst)) s.download event =
        some d) :
      Downloading sha256 env node chunks (before ++ [.fetch event])
        { s with node := s.node.downloaded d, fetches := d.fetches, errors := d.errors } := by
    constructor
    · rw [fetch_events_fetch, run_append, hdownloading.run]
      exact run_cons_eq_some.mpr ⟨d, hmove, rfl⟩
    · rw [hdownloading.node]
      rfl
  cases live_step_moves hstep with
  | fetch _ d hmove =>
      cases hpc : s.pc with
      | begin =>
          simp only [Follows, hpc] at hinv
          obtain ⟨rfl, -⟩ := hinv
          cases hmove
      | spawning m chunks =>
          simp only [Follows, hpc] at hinv ⊢
          obtain ⟨diff, front, hselect, hsynced, hrarity, hfront, hdownloading⟩ := hinv
          exact ⟨diff, front, hselect, hsynced, hrarity, hfront, hpc ▸ hmore hdownloading hmove⟩
      | waiting m =>
          simp only [Follows, hpc] at hinv ⊢
          obtain ⟨diff, hselect, hsynced, hpeers, hdownloading⟩ := hinv
          exact ⟨diff, hselect, hsynced, hpeers, hpc ▸ hmore hdownloading hmove⟩
      | returned result announced =>
          simp only [Follows, hpc] at hinv
          have hstuck : downloadStep sha256 (grpcToHTTP (env.peers.map Prod.fst)) s.download
            event = none := is_done_iff_stuck.mp hinv.done event
          cases hstuck.symm.trans hmove

/-- **A pull and its goroutines keep to `pull`**, step after step. -/
theorem run_follows {events : List LiveEvent}
    (hrun : run (liveStep sha256 baseDir fileID env) (.start node) events = some s) :
    Follows sha256 baseDir fileID env node events s := by
  refine run_history (Follows sha256 baseDir fileID env node) hrun ⟨rfl, rfl⟩ ?_
  intro before state event next hinv hstep
  cases event with
  | begin =>
      have hpc : state.pc = .begin := by
        cases live_step_moves hstep <;> assumption
      simp only [Follows, hpc] at hinv
      obtain ⟨rfl, hevents⟩ := hinv
      exact follows_begin hevents hstep
  | spawn => exact follows_spawn hinv hstep
  | wait => exact follows_wait hinv hstep
  | fetch event => exact follows_fetch hinv hstep

/-! ## Every run ends with the pull -/

section Work

variable (fileID : GoString) (env : PullEnv)

/-- The steps for starting these goroutines and their own. -/
def spawnWork (chunks : List ChunkRarity) : Nat :=
  (chunks.map fun chunk => 4 * chunk.peers.length + 2).sum

/-- The steps a pull and its goroutines may still make. -/
def LivePull.work (s : LivePull) : Nat :=
  s.download.work +
    match s.pc with
    | .begin =>
        match env.select fileID s.node.index with
        | .ok (diff, _) => spawnWork (env.rarity diff) + 3
        | .error _ => 1
    | .spawning _ chunks => spawnWork chunks + 2
    | .waiting _ => 1
    | .returned _ _ => 0

end Work

/-- A step uses up work. -/
theorem live_work_lt (hstep : liveStep sha256 baseDir fileID env s event = some s')
    (hbound : s.download.AttemptsBounded) :
    s'.download.AttemptsBounded ∧ s'.work fileID env < s.work fileID env := by
  have hown (pc : PullPc) (other : Node) :
      Download.work (LivePull.download { s with pc := pc, node := other }) = s.download.work := rfl
  cases live_step_moves hstep with
  | noPeers hpc hpeers =>
      refine ⟨hbound, ?_⟩
      cases hselect : env.select fileID s.node.index with
      | error => simp [LivePull.work, hpc, hselect, hown]
      | ok => exact absurd hpeers (length_peers_ne_zero hselect)
  | noFile hpc hpeers lastErr hselect =>
      exact ⟨hbound, by simp [LivePull.work, hpc, hselect, hown]⟩
  | synced hpc diff m hselect hsynced =>
      exact ⟨hbound, by simp [LivePull.work, hpc, hselect, hown]⟩
  | differs hpc diff m hselect hsynced =>
      exact ⟨hbound, by simp [LivePull.work, hpc, hselect, hown]⟩
  | all m hpc => exact ⟨hbound, by simp [LivePull.work, hpc, hown]⟩
  | unavailable m chunk chunks hpc hpeers =>
      exact ⟨hbound, by simp [LivePull.work, hpc, hown]⟩
  | spawn m chunk chunks hpc hpeers =>
      constructor
      · intro fetch hfetch
        rcases List.mem_append.mp hfetch with hold | hnew
        · exact hbound fetch hold
        · simp [List.mem_singleton.mp hnew]
      · simp [LivePull.work, hpc, LivePull.download, Download.work, spawnWork, FetchPc.work]
        omega
  | exhausted m hash hashes hpc hdone herrors =>
      exact ⟨hbound, by simp [LivePull.work, hpc, hown]⟩
  | finish m hpc hdone herrors => exact ⟨hbound, by simp [LivePull.work, hpc, hown]⟩
  | fetch event d hmove =>
      obtain ⟨hbounded, hlt⟩ := download_work_lt hmove hbound
      exact ⟨hbounded, Nat.add_lt_add_right hlt _⟩

/-- As long as the pull has not returned, it or one of its goroutines can move. -/
theorem returned_of_stuck (hstuck : ∀ event, liveStep sha256 baseDir fileID env s event = none) :
    ∃ result announced, s.pc = .returned result announced := by
  cases hpc : s.pc with
  | begin =>
      have hbegin := hstuck .begin
      simp only [liveStep, hpc] at hbegin
      split_ifs at hbegin
      cases hselect : env.select fileID s.node.index with
      | error => simp [hselect] at hbegin
      | ok selected =>
          simp only [hselect] at hbegin
          split_ifs at hbegin
  | spawning m chunks =>
      have hspawn := hstuck .spawn
      cases chunks with
      | nil => simp [liveStep, hpc] at hspawn
      | cons chunk chunks =>
          simp only [liveStep, hpc] at hspawn
          split_ifs at hspawn
  | waiting m =>
      -- the goroutines cannot move either, so they have returned
      have hfetch (event : FetchEvent) :
          downloadStep sha256 (grpcToHTTP (env.peers.map Prod.fst)) s.download event = none :=
        Option.map_eq_none_iff.mp (hstuck (.fetch event))
      have hdone : s.download.isDone = true := is_done_iff_stuck.mpr hfetch
      have hwait := hstuck .wait
      simp only [liveStep, hpc, hdone, if_true] at hwait
      cases herrors : s.errors <;> simp [herrors] at hwait
  | returned result announced => exact ⟨result, announced, rfl⟩

/-- Once the pull has returned, neither it nor its goroutines can move. -/
theorem Returned.stuck {events : List LiveEvent} {result : Except PullError Unit}
    {announced : Option (GoString × Hash × UInt64)}
    (h : Returned sha256 baseDir fileID env node events s result announced)
    (hpc : s.pc = .returned result announced) (event : LiveEvent) :
    liveStep sha256 baseDir fileID env s event = none := by
  cases event with
  | begin | spawn | wait => simp [liveStep, hpc]
  | fetch event =>
      exact Option.map_eq_none_iff.mpr (is_done_iff_stuck.mp h.done event)

/-- **`pull` is what a pull and its goroutines compute together**, along the moves the goroutines
make. -/
theorem live_run_pull {events : List LiveEvent} {result : Except PullError Unit}
    {announced : Option (GoString × Hash × UInt64)}
    (hrun : run (liveStep sha256 baseDir fileID env) (.start node) events = some s)
    (hpc : s.pc = .returned result announced) :
    pull sha256 baseDir fileID (env.withSchedule (fetchEvents events)) node =
      some ⟨s.node, result, announced⟩ := by
  have hfollows := run_follows hrun
  simp only [Follows, hpc] at hfollows
  exact hfollows.pull

/-- A pull that finds the file in sync starts no goroutine and changes nothing. -/
theorem live_run_synced {events : List LiveEvent} {diff : DiffResponse} {m : FileMeta}
    (hselect : env.select fileID node.index = .ok (diff, m)) (hsynced : diff.isSynced = true)
    (hrun : run (liveStep sha256 baseDir fileID env) (.start node) events = some s) :
    s = .start node ∧ events = [] ∨
      s = ⟨node, .returned (.ok ()) none, [], []⟩ ∧ events = [.begin] := by
  have hpeers := length_peers_ne_zero hselect
  cases events with
  | nil =>
      cases hrun
      exact .inl ⟨rfl, rfl⟩
  | cons event events =>
      right
      obtain ⟨next, hstep, hrest⟩ := run_cons_eq_some.mp hrun
      cases event with
      | begin =>
          simp only [liveStep, LivePull.start, hpeers, if_false, hselect, hsynced, if_true,
            Option.some.injEq] at hstep
          subst hstep
          cases events with
          | nil =>
              cases hrest
              exact ⟨rfl, rfl⟩
          | cons event events =>
              -- it has returned and there are no goroutines
              obtain ⟨next, hstep, -⟩ := run_cons_eq_some.mp hrest
              cases event <;> cases hstep
      | spawn | wait | fetch => cases hstep

/-- **No download outlives its pull.** Every run comes to an end, and it ends when the pull
returns: from then on no goroutine can move. The pull says that a chunk is unavailable exactly if
some missing chunk is named by no peer, and then no goroutine has been started; otherwise all of
them have returned. -/
theorem no_download_outlives_pull {events : List LiveEvent}
    (hrun : run (liveStep sha256 baseDir fileID env) (.start node) events = some s) :
    events.length ≤ (LivePull.start node).work fileID env ∧
    ((∀ event, liveStep sha256 baseDir fileID env s event = none) ↔
      ∃ result announced, s.pc = .returned result announced) ∧
    ∀ result announced, s.pc = .returned result announced →
      ((∃ hash, result = .error (.download (.unavailable hash))) ↔
        SomeUnavailable fileID env node.index) ∧
      (SomeUnavailable fileID env node.index →
        s.fetches = [] ∧ fetchEvents events = [] ∧ s.node = node) ∧
      s.download.isDone = true := by
  have hreturned (result announced) (hpc : s.pc = .returned result announced) :
      Returned sha256 baseDir fileID env node events s result announced := by
    have hfollows := run_follows hrun
    simpa only [Follows, hpc] using hfollows
  refine ⟨?_, ⟨returned_of_stuck, ?_⟩, ?_⟩
  · have hlength := run_length_le (fun s => s.download.AttemptsBounded)
      (fun s => s.work fileID env) hrun (by intro fetch hfetch; cases hfetch)
      fun state event next hbound hstep => live_work_lt hstep hbound
    omega
  · rintro ⟨result, announced, hpc⟩
    exact (hreturned result announced hpc).stuck hpc
  · intro result announced hpc
    have h := hreturned result announced hpc
    exact ⟨h.unavailable, h.first, h.done⟩

/-- A peer that has a version of two chunks and says it has the first of them. -/
def halfAvailable : PullEnv where
  peers := [(⟨ascii "p", ascii "h", 80, 81⟩, ⟨true,
    fun req => some ⟨req.fileID, [1], false, [[1], [2]]⟩, some ⟨ascii "f", .zero, 0, [], 0⟩⟩)]
  availability := [(ascii "h:81", [[1]])]
  sorter := .insertion
  schedule := []
  io := .allOk

/-- The chunk that no peer has comes first, and the pull returns before anything is requested. -/
theorem no_download_outlives_half_available :
    let node : Node := ⟨.empty, fun _ => none, fun _ => none, .new, fun _ => none⟩
    let s : LivePull := ⟨node, .returned (.error (.download (.unavailable [2]))) none, [], []⟩
    run (liveStep (fun _ => .zero) (ascii "d") (ascii "f") halfAvailable) (.start node)
        [.begin, .spawn] = some s ∧
      SomeUnavailable (ascii "f") halfAvailable node.index ∧
      ∀ event, liveStep (fun _ => .zero) (ascii "d") (ascii "f") halfAvailable s event = none := by
  intro node s
  have hrun : run (liveStep (fun _ => .zero) (ascii "d") (ascii "f") halfAvailable) (.start node)
      [.begin, .spawn] = some s := rfl
  obtain ⟨-, hstuck, hreturned⟩ := no_download_outlives_pull hrun
  have hunavailable := (hreturned _ none rfl).1.mp ⟨[2], rfl⟩
  exact ⟨hrun, hunavailable, hstuck.mpr ⟨_, none, rfl⟩⟩

end NuSync.Orchestrator
