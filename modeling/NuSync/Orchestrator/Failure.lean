import NuSync.Orchestrator.Pull
import NuSync.Scheduler.Rarity

/-!
# What a failed pull leaves behind

`Pull` truncates its destination before it knows that all chunks can be read, so an error after
that point leaves a damaged file. `failed_pull_keeps_file_iff` says exactly for which answers of
the peers, deliveries, blobs that were there and answers of the file system a failing pull is
harmless.
-/

namespace NuSync.Orchestrator

open NuSync.Go NuSync.Store NuSync.Control NuSync.Discovery NuSync.Scheduler

/-! ## What the peers answer -/

/-- The peer can be reached, answers the diff request with a root, and serves this record. -/
def PeerAnswer.Offers (answer : PeerAnswer) (req : DiffRequest) (diff : DiffResponse)
    (served : FileMeta) : Prop :=
  answer.connects = true ∧ answer.diff req = some diff ∧ diff.remoteMerkleRoot.length ≠ 0 ∧
    answer.fetchMeta = some served

/-- This is what the first peer offers that offers anything. -/
def FirstOffers (req : DiffRequest) (peers : List (PeerInfo × PeerAnswer)) (diff : DiffResponse)
    (served : FileMeta) : Prop :=
  ∃ before peer answer after, peers = before ++ (peer, answer) :: after ∧
    answer.Offers req diff served ∧
    ∀ entry ∈ before, ∀ other otherServed, ¬ entry.2.Offers req other otherServed

theorem first_offers_cons {req : DiffRequest} {peer : PeerInfo} {answer : PeerAnswer}
    {peers : List (PeerInfo × PeerAnswer)} {diff : DiffResponse} {served : FileMeta}
    (hnone : ∀ other otherServed, ¬ answer.Offers req other otherServed) :
    FirstOffers req ((peer, answer) :: peers) diff served ↔ FirstOffers req peers diff served := by
  constructor
  · rintro ⟨before, found, taken, after, hpeers, hoffers, hbefore⟩
    cases before with
    | nil =>
        cases hpeers
        exact absurd hoffers (hnone diff served)
    | cons entry before =>
        cases hpeers
        exact ⟨before, found, taken, after, rfl, hoffers,
          fun other hother => hbefore other (List.mem_cons_of_mem _ hother)⟩
  · rintro ⟨before, found, taken, after, rfl, hoffers, hbefore⟩
    refine ⟨(peer, answer) :: before, found, taken, after, rfl, hoffers, fun entry hentry => ?_⟩
    rcases List.mem_cons.mp hentry with rfl | hlater
    · exact hnone
    · exact hbefore entry hlater

theorem first_offers_head {req : DiffRequest} {peer : PeerInfo} {answer : PeerAnswer}
    {peers : List (PeerInfo × PeerAnswer)} {diff offered : DiffResponse} {served rm : FileMeta}
    (hoffers : answer.Offers req offered rm) :
    FirstOffers req ((peer, answer) :: peers) diff served ↔ diff = offered ∧ served = rm := by
  constructor
  · rintro ⟨before, found, taken, after, hpeers, htaken, hbefore⟩
    cases before with
    | nil =>
        cases hpeers
        exact ⟨Option.some.inj (htaken.2.1.symm.trans hoffers.2.1),
          Option.some.inj (htaken.2.2.2.symm.trans hoffers.2.2.2)⟩
    | cons entry before =>
        cases hpeers
        exact absurd hoffers (hbefore _ List.mem_cons_self offered rm)
  · rintro ⟨rfl, rfl⟩
    exact ⟨[], peer, answer, peers, rfl, hoffers, by simp⟩

/-- **The peer loop takes the first offer.** -/
theorem select_peer_ok_iff {req : DiffRequest} {httpAddr : GoString → Option GoString}
    {lastErr : Option PeerError} {peers : List (PeerInfo × PeerAnswer)} {diff : DiffResponse}
    {m : FileMeta} :
    selectPeer req httpAddr lastErr peers = .ok (diff, m) ↔
      ∃ served, FirstOffers req peers diff served ∧ m = served.json := by
  induction peers generalizing lastErr with
  | nil => simp [selectPeer, FirstOffers]
  | cons entry peers ih =>
      obtain ⟨peer, answer⟩ := entry
      have hlater (hnone : ∀ other otherServed, ¬ answer.Offers req other otherServed)
          (err : Option PeerError) :
          selectPeer req httpAddr err peers = .ok (diff, m) ↔
            ∃ served, FirstOffers req ((peer, answer) :: peers) diff served ∧ m = served.json := by
        simp only [ih, first_offers_cons hnone]
      unfold selectPeer
      split_ifs with hconnects
      · exact hlater (fun _ _ h => by simp [h.1] at hconnects) _
      · cases hdiff : answer.diff req with
        | none => exact hlater (fun _ _ h => by simp [h.2.1] at hdiff) _
        | some d =>
            dsimp only
            split_ifs with hroot
            · refine hlater (fun other _ h => ?_) _
              cases hdiff.symm.trans h.2.1
              exact h.2.2.1 hroot
            · cases hmeta : answer.fetchMeta with
              | none => exact hlater (fun _ _ h => by simp [h.2.2.2] at hmeta) _
              | some rm =>
                  have hoffers : answer.Offers req d rm :=
                    ⟨by simpa using hconnects, hdiff, hroot, hmeta⟩
                  simp only [first_offers_head hoffers, Except.ok.injEq, Prod.mk.injEq]
                  constructor
                  · rintro ⟨rfl, rfl⟩
                    exact ⟨rm, ⟨rfl, rfl⟩, rfl⟩
                  · rintro ⟨_, ⟨rfl, rfl⟩, rfl⟩
                    exact ⟨rfl, rfl⟩

/-! ## What arrives, and what the assembly needs -/

section Failure

variable (sha256 : Bytes → Hash) (env : PullEnv) (objects : Hash → Option Bytes)

/-- The chunks of the goroutines, in the order in which they are started. -/
def PullEnv.started (missing : List Bytes) : List Bytes :=
  (buildRarityMap env.sorter missing env.availability).map ChunkRarity.hash

/-- Some peer says that it has each missing chunk, and for the goroutine of each one bytes arrive,
whether they are the right ones or not. -/
def PullEnv.AllArrive (missing : List Bytes) : Prop :=
  (∀ hash ∈ missing, ∃ answer ∈ env.availability, hash ∈ answer.2) ∧
    ∀ i < missing.length, ∃ event ∈ env.schedule, event.fetch = i ∧ event.Arrives

/-- What the assembly of a file and the index update need: each chunk was in the store or is
delivered to a goroutine that wants it with bytes that hash to its name, and the file system and
bbolt answer without an error. -/
structure PullEnv.GoesThrough (missing : List Bytes) (m : FileMeta) : Prop where
  truncate : env.io.truncate = true
  size : m.sizeBytes.toNat < 2 ^ 63
  stored : ∀ hash ∈ m.chunkHashes,
    objects hash ≠ none ∨ Delivered sha256 (env.started missing) env.schedule hash
  read : ∀ k < m.chunkHashes.length, env.io.readChunk k = true
  written : ∀ k < m.chunkHashes.length, env.io.writeChunk k = none
  offset : ∀ k < m.chunkHashes.length,
    0 ≤ offsetAfter (bytesAfter sha256 (env.started missing) objects env.schedule) 0
      (m.chunkHashes.take k)
  close : env.io.close = true
  key : BoltMetaStore.ValidKey m.fileID
  commit : env.io.commit = true

variable {sha256 env objects} {baseDir fileID : GoString} {tracker : HealthTracker}

/-- The download ends without an error exactly if bytes arrive for every goroutine. -/
theorem fetch_chunks_ok_iff {missing : List Bytes} {d : Download}
    {result : Except DownloadError Unit}
    (h : env.fetchChunks sha256 missing objects tracker = some (d, result)) :
    result = .ok () ↔ env.AllArrive missing := by
  have hlength : (buildRarityMap env.sorter missing env.availability).length = missing.length := by
    rw [buildRarityMap, (env.sorter.perm _).length_eq, List.length_map]
  rw [download_ok_iff h, PullEnv.AllArrive, hlength]
  refine and_congr_left fun _ => ?_
  simp only [mem_build_rarity_map, forall_exists_index, and_imp, forall_apply_eq_imp_iff₂, ne_eq,
    rarity_map_eq_nil_iff]
  push Not
  rfl

/-- The store after a download without an error is that of the deliveries. -/
theorem fetch_chunks_bytes {missing : List Bytes} {d : Download}
    (h : env.fetchChunks sha256 missing objects tracker = some (d, .ok ())) :
    d.objects = bytesAfter sha256 (env.started missing) objects env.schedule := by
  have hpeers := ((download_ok_iff h).mp rfl).1
  have hrun := run_of_download h
  rw [spawn_eq hpeers] at hrun
  rw [run_download_objects hrun, List.map_map]
  rfl

/-- The assembly completes exactly if it has what it needs. -/
theorem completes_iff {missing : List Bytes} {m : FileMeta} :
    Completes env.io (bytesAfter sha256 (env.started missing) objects env.schedule) m ↔
      env.GoesThrough sha256 objects missing m := by
  constructor
  · rintro ⟨htruncate, hsize, ⟨hstored, hread, hwritten, hoffset⟩, hclose, hkey, hcommit⟩
    exact ⟨htruncate, hsize, fun hash hhash => bytes_after_ne_none_iff.mp (hstored hash hhash),
      by simpa using hread, by simpa using hwritten, hoffset, hclose, hkey, hcommit⟩
  · intro h
    have hchunks : Writable (bytesAfter sha256 (env.started missing) objects env.schedule) env.io 0
        0 m.chunkHashes :=
      ⟨fun hash hhash => bytes_after_ne_none_iff.mpr (h.stored hash hhash),
        by simpa using h.read, by simpa using h.written, h.offset⟩
    exact ⟨h.truncate, h.size, hchunks, h.close, h.key, h.commit⟩

/-- A pull that returns gets through its download if bytes arrive for every goroutine. -/
theorem exists_fetched {node : Node} (hreturns : pull sha256 baseDir fileID env node ≠ none)
    {diff : DiffResponse} {m : FileMeta} (hselect : env.select fileID node.index = .ok (diff, m))
    (hsynced : diff.isSynced = false) (harrive : env.AllArrive diff.missingChunkHashes) :
    ∃ d, env.fetchChunks sha256 diff.missingChunkHashes node.objects node.tracker =
      some (d, .ok ()) := by
  cases hfetch : env.fetchChunks sha256 diff.missingChunkHashes node.objects node.tracker with
  | none =>
      refine absurd ?_ hreturns
      simp [pull, length_peers_ne_zero hselect, hselect, hsynced, hfetch]
  | some fetched =>
      obtain ⟨d, result⟩ := fetched
      rw [(fetch_chunks_ok_iff hfetch).mpr harrive]
      exact ⟨d, rfl⟩

/-- **A failed pull leaves the file and its index entry as they were, whatever file was there,
exactly if** the pull opens its file only when it can complete it: whenever the first offer among
the peers is of another version, bytes arrive for every missing chunk and the file is created, all
of what the assembly needs is there. -/
theorem failed_pull_keeps_file_iff {node : Node}
    (hreturns : pull sha256 baseDir fileID env node ≠ none) :
    (∀ disk outcome err, pull sha256 baseDir fileID env { node with disk := disk } = some outcome →
      outcome.result = .error err →
      outcome.node.disk (outPath baseDir fileID) = disk (outPath baseDir fileID) ∧
        outcome.node.index.getFileMeta fileID = node.index.getFileMeta fileID) ↔
      ∀ diff served,
        FirstOffers (diffRequest fileID (node.index.getFileMeta fileID)) env.peers diff served →
        diff.isSynced = false → env.AllArrive diff.missingChunkHashes →
        env.io.mkdirAll = true → env.io.create = true →
        env.GoesThrough sha256 node.objects diff.missingChunkHashes served.json := by
  constructor
  · intro hkeeps diff served hoffers hsynced harrive hmkdir hcreate
    have hselect : env.select fileID node.index = .ok (diff, served.json) :=
      select_peer_ok_iff.mpr ⟨served, hoffers, rfl⟩
    obtain ⟨d, hdownload⟩ := exists_fetched hreturns hselect hsynced harrive
    rw [← completes_iff, ← fetch_chunks_bytes hdownload]
    by_contra hincomplete
    -- start from a node without the file: opening it leaves one
    let bare : Node := { node with disk := fun _ => none }
    have hpull : pull sha256 baseDir fileID env bare =
        some (env.finish baseDir fileID served.json (bare.downloaded d)) :=
      pull_of_fetched hselect hsynced hdownload
    rcases finish_cases baseDir fileID env served.json (bare.downloaded d) with
      ⟨hnode, ⟨err, hresult⟩, -, -⟩ | ⟨-, -, -, -, -, hcompletes⟩
    · have hfile := (hkeeps _ _ err hpull hresult).1
      have hopened := assemble_disk baseDir fileID env.io served.json (bare.downloaded d)
      rw [if_pos ⟨hmkdir, hcreate⟩, ← hnode] at hopened
      obtain ⟨bytes, hbytes⟩ := hopened
      rw [hbytes] at hfile
      cases hfile
    · exact hincomplete hcompletes
  · intro hcompletes disk outcome err hpull hresult
    rcases pull_cases hpull with ⟨_, rfl⟩ | ⟨_, _, -, -, rfl⟩ | ⟨_, _, _, _, -, -, -, rfl⟩ |
      ⟨diff, m, d, hselect, hsynced, hdownload, rfl⟩
    · exact ⟨rfl, rfl⟩
    · exact ⟨rfl, rfl⟩
    · exact ⟨rfl, rfl⟩
    · obtain ⟨served, hoffers, rfl⟩ := select_peer_ok_iff.mp hselect
      have harrive := (fetch_chunks_ok_iff hdownload).mp rfl
      rcases finish_cases baseDir fileID env served.json (Node.downloaded _ d) with
        ⟨hnode, -, -, hstuck⟩ | ⟨-, hok, -, -, -, -⟩
      · -- an incomplete assembly has not opened the file
        have hdisk := assemble_disk baseDir fileID env.io served.json
          (Node.downloaded { node with disk := disk } d)
        rw [if_neg fun hopened => hstuck ⟨hopened.1, hopened.2, ?_⟩] at hdisk
        · rw [hnode, hdisk, (assemble_frame _ _ _ _ _).1]
          exact ⟨rfl, rfl⟩
        · rw [Node.downloaded, fetch_chunks_bytes hdownload]
          exact completes_iff.mpr
            (hcompletes diff served hoffers hsynced harrive hopened.1 hopened.2)
      · rw [hok] at hresult
        cases hresult

end Failure

/-- A peer says that it has a chunk and then does not deliver it: three attempts fail, and the
goroutine has no other peer. The pull fails before it opens the file that is there. -/
theorem failed_pull_keeps_file_exhausted :
    let file := outPath (ascii "dir") (ascii "f")
    let m : FileMeta := ⟨ascii "f", Hash.sample [7], 1, [Hash.sample [7]], 1⟩
    let peer : PeerInfo := ⟨ascii "peer", ascii "10.0.0.2", 9100, 9000⟩
    let missing := [(Hash.sample [7]).bytes]
    let answer : PeerAnswer :=
      ⟨true, fun req => some ⟨req.fileID, (Hash.sample [7]).bytes, false, missing⟩, some m⟩
    let schedule : List FetchEvent := [.look 0 0, .answer 0 1 none 0, .answer 0 2 none 0,
      .answer 0 3 none 0, .look 0 4]
    let env : PullEnv :=
      ⟨[(peer, answer)], [(peer.grpcAddr, missing)], .insertion, schedule, .allOk⟩
    let node : Node := ⟨.empty, fun _ => none, Function.update (fun _ => none) file (some [5]),
      .new, fun _ => none⟩
    ∃ outcome, pull Hash.sample (ascii "dir") (ascii "f") env node = some outcome ∧
      outcome.result = .error (.download (.exhausted (Hash.sample [7]).bytes)) ∧
      outcome.node.disk file = some [5] := by
  intro file m peer missing answer schedule env node
  have hfails : (pull Hash.sample (ascii "dir") (ascii "f") env node).map PullOutcome.result =
      some (.error (.download (.exhausted (Hash.sample [7]).bytes))) := by
    decide
  obtain ⟨outcome, hpull, hresult⟩ := Option.map_eq_some_iff.mp hfails
  have hreturns : pull Hash.sample (ascii "dir") (ascii "f") env node ≠ none := by simp [hpull]
  refine ⟨outcome, hpull, hresult, ?_⟩
  refine ((failed_pull_keeps_file_iff hreturns).mpr ?_ node.disk outcome _ hpull
    hresult).1.trans rfl
  intro diff served hoffers _ harrive _ _
  -- no bytes arrive for the only goroutine
  have hoffer : answer.Offers (diffRequest (ascii "f") (node.index.getFileMeta (ascii "f")))
      ⟨ascii "f", (Hash.sample [7]).bytes, false, missing⟩ m := ⟨rfl, rfl, by decide, rfl⟩
  obtain ⟨rfl, -⟩ := (first_offers_head hoffer).mp hoffers
  obtain ⟨event, hevent, -, harrives⟩ := harrive.2 0 (by simp [missing])
  simp only [env, schedule, List.mem_cons, List.not_mem_nil, or_false] at hevent
  rcases hevent with rfl | rfl | rfl | rfl | rfl <;> simp [FetchEvent.Arrives] at harrives

/-- A peer whose file changes between its two answers: the diff finds nothing missing, and the
metadata fetched after it lists a chunk that is nowhere. The pull fails, and the file that was
there has been overwritten with zeros. -/
theorem failed_pull_zeroes_file :
    let file := outPath (ascii "dir") (ascii "f")
    let m : FileMeta := ⟨ascii "f", Hash.sample [7], 2, [Hash.sample [7]], 1⟩
    let peer : PeerInfo := ⟨ascii "peer", ascii "10.0.0.2", 9100, 9000⟩
    let answer : PeerAnswer :=
      ⟨true, fun req => some ⟨req.fileID, (Hash.sample [6]).bytes, false, []⟩, some m⟩
    let env : PullEnv := ⟨[(peer, answer)], [], .insertion, [], .allOk⟩
    let node : Node := ⟨.empty, fun _ => none, Function.update (fun _ => none) file (some [5]),
      .new, fun _ => none⟩
    (pull Hash.sample (ascii "dir") (ascii "f") env node).map
        (fun outcome => (outcome.result, outcome.node.disk file)) =
      some (.error (.chunkMissing (Hash.sample [7])), some [0]) := by
  decide

end NuSync.Orchestrator
