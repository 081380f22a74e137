import NuSync.Cluster

/-!
# Records that stay coherent across a cluster

A pull stores and serves a peer's record without computing any part of it again. That is safe
because of what every record has been since it was built: `index_coherence` says that each record
in an index or in a reply is stored under its own file ID, with the root of its chunk hashes and
the size of the content they were computed from.
-/

namespace NuSync

open Go Lib Store Chunker Merkle Discovery Orchestrator

/-- The root of the record is the root of its chunk hashes, and they are the hashes of one of the
contents, whose size it has. -/
structure Coherent (sha256 : Bytes → Hash) (cdc : FastCdc) (contents : Set Bytes)
    (m : FileMeta) : Prop where
  root : ∀ chunks : List Chunk, chunks.map Chunk.hash = m.chunkHashes →
    m.merkleRoot = computeRoot sha256 chunks
  size : ∃ content ∈ contents, m.chunkHashes = (cdc.cut content).map sha256 ∧
    m.sizeBytes = UInt64.ofNat ((cdc.cut content).map List.length).sum

namespace Cluster

variable {ι : Type*} (sha256 : Bytes → Hash) (cdc : FastCdc)

/-- The file IDs under which the event indexes local files are valid UTF-8. -/
def IndexesValid (c : Cluster ι) : ClusterEvent ι → Prop
  | .node i event => ∀ fileID content io,
      (c.nodes i).indexed sha256 cdc event = some (fileID, content, io) → ValidUtf8 fileID
  | .getMeta _ _ => True

/-- The contents that were read and indexed in a run. -/
def contentsRead [DecidableEq ι] (start : Cluster ι) (events : List (ClusterEvent ι)) : Set Bytes :=
  { content | ∃ c i event fileID io, Taken (step sha256 cdc) start events c (.node i event) ∧
    (c.nodes i).indexed sha256 cdc event = some (fileID, content, io) }

/-- The record was sent in the run by a node that had it under its own file ID. -/
def SentFromIndex [DecidableEq ι] (start : Cluster ι) (events : List (ClusterEvent ι))
    (m : FileMeta) : Prop :=
  ∃ c i, Taken (step sha256 cdc) start events c (.getMeta i m.fileID) ∧
    (c.nodes i).node.index.getFileMeta m.fileID = some m

/-- The invariant of the cluster. -/
structure CoherentCluster (contents : Set Bytes) (sent : FileMeta → Prop) (c : Cluster ι) :
    Prop where
  index : ∀ i key m, (c.nodes i).node.index.getFileMeta key = some m →
    m.fileID = key ∧ Coherent sha256 cdc contents m
  served : ∀ m ∈ c.served, sent m ∧ Coherent sha256 cdc contents m

variable {sha256 cdc} {contents : Set Bytes} {sent : FileMeta → Prop} {c c' : Cluster ι}

/-! ## One step -/

/-- A root depends on the chunk hashes only. -/
theorem compute_root_congr {chunks chunks' : List Chunk}
    (h : chunks.map Chunk.hash = chunks'.map Chunk.hash) :
    computeRoot sha256 chunks = computeRoot sha256 chunks' := by
  have hlen : chunks.length = chunks'.length := by simpa using congrArg List.length h
  unfold computeRoot
  rw [h, hlen]

/-- The record both ingest paths build is coherent. -/
theorem coherent_file_meta {content : Bytes} (hcontent : content ∈ contents) (fileID : GoString)
    (ts : UInt64) : Coherent sha256 cdc contents
      (Daemon.fileMeta sha256 fileID (chunksFrom sha256 0 0 (cdc.cut content)) ts) where
  root _ hchunks := compute_root_congr hchunks.symm
  size := by
    refine ⟨content, hcontent, map_hash_chunks_from sha256 0 0 _, ?_⟩
    rw [Daemon.fileMeta, Daemon.total_size_chunks_from, List.length_flatten]

/-- JSON changes none of the fields that cohere. -/
theorem coherent_json {m : FileMeta} (h : Coherent sha256 cdc contents m) :
    Coherent sha256 cdc contents m.json := ⟨h.root, h.size⟩

/-- The index of a node after one of its events. -/
theorem index_coherent {i : ι} {event : Event} {d : Daemon}
    (hc : CoherentCluster sha256 cdc contents sent c)
    (hvalid : c.IndexesValid sha256 cdc (.node i event))
    (hread : ∀ fileID content io,
      (c.nodes i).indexed sha256 cdc event = some (fileID, content, io) → content ∈ contents)
    (hfetches : event.FetchesFrom c.served) (h : (c.nodes i).step sha256 cdc event = some d)
    {key : GoString} {m : FileMeta} (hm : d.node.index.getFileMeta key = some m) :
    m.fileID = key ∧ Coherent sha256 cdc contents m := by
  rcases Daemon.step_indexed h with ⟨fileID, content, io, hindexed, -, hindex⟩ |
    ⟨-, ⟨-, hindex⟩ | ⟨fileID, env, outcome, rfl, hpull, hnode⟩⟩
  · rw [hindex] at hm
    rcases Daemon.put_ignored_cases (c.nodes i).node.index (Daemon.fileMeta sha256 fileID
      (chunksFrom sha256 0 0 (cdc.cut content)) ((c.nodes i).clock + 1)) io.commit with
      hput | ⟨-, -, hput⟩ <;> rw [hput] at hm
    · exact hc.index i key m hm
    · rcases BoltMetaStore.get_set_cases hm with ⟨rfl, rfl⟩ | hold
      · rw [FileMeta.json_of_valid (hvalid _ content io hindexed)]
        exact ⟨rfl, coherent_file_meta (hread _ content io hindexed) _ _⟩
      · exact hc.index i key m hold
  · rw [hindex] at hm
    exact hc.index i key m hm
  · rw [hnode] at hm
    rcases pull_index hpull with hsame | ⟨diff, pulled, hselect, -, -, hset⟩
    · rw [hsame] at hm
      exact hc.index i key m hm
    · rw [hset] at hm
      rcases BoltMetaStore.get_set_cases hm with ⟨rfl, rfl⟩ | hold
      · -- a reply some node sent, stored as it came
        obtain ⟨entry, hentry, reply, hreply, rfl⟩ := select_peer_mem hselect
        rw [FileMeta.json_json]
        exact ⟨rfl, coherent_json (hc.served reply (hfetches entry hentry reply hreply)).2⟩
      · exact hc.index i key m hold

variable [DecidableEq ι]

/-- **An event keeps the cluster coherent** if it indexes only under valid file IDs. -/
theorem step_coherent {event : ClusterEvent ι} (hc : CoherentCluster sha256 cdc contents sent c)
    (hvalid : c.IndexesValid sha256 cdc event)
    (hread : ∀ i ev fileID content io, event = .node i ev →
      (c.nodes i).indexed sha256 cdc ev = some (fileID, content, io) → content ∈ contents)
    (hsent : ∀ i m, event = .getMeta i m.fileID →
      (c.nodes i).node.index.getFileMeta m.fileID = some m → sent m)
    (h : c.step sha256 cdc event = some c') : CoherentCluster sha256 cdc contents sent c' := by
  cases event with
  | getMeta i id =>
      cases h
      refine ⟨hc.index, fun m hm => ?_⟩
      rw [List.mem_append, Option.mem_toList, Option.map_eq_some_iff] at hm
      rcases hm with ⟨found, hfound, rfl⟩ | hm
      · obtain ⟨rfl, hcoherent⟩ := hc.index i id found hfound
        rw [BoltMetaStore.json_of_get hfound]
        exact ⟨hsent i found rfl hfound, hcoherent⟩
      · exact hc.served m hm
  | node i event =>
      simp only [step] at h
      split_ifs at h with hfetches
      obtain ⟨d, hd, rfl⟩ := Option.map_eq_some_iff.mp h
      refine ⟨fun j key m hm => ?_, hc.served⟩
      rcases eq_or_ne j i with rfl | hne
      · simp only [Function.update_self] at hm
        exact index_coherent hc hvalid
          (fun fileID content io => hread j event fileID content io rfl) hfetches hd hm
      · simp only [Function.update_of_ne hne] at hm
        exact hc.index j key m hm

/-! ## Every run -/

/-- **Every record in an index or in a reply is stored under its own file ID and coherent**, in
every run in which files are indexed under valid UTF-8. -/
theorem index_coherence (names dirs : ι → GoString) (objects : ι → Hash → Option Bytes)
    (disks : ι → GoString → Option Bytes) (events : List (ClusterEvent ι))
    (hrun : run (step sha256 cdc) (fresh names dirs objects disks) events = some c)
    (hvalid : Along (step sha256 cdc) (IndexesValid sha256 cdc)
      (fresh names dirs objects disks) events) :
    let start := fresh names dirs objects disks
    (∀ i key m, (c.nodes i).node.index.getFileMeta key = some m →
      m.fileID = key ∧ Coherent sha256 cdc (contentsRead sha256 cdc start events) m) ∧
    ∀ m ∈ c.served, SentFromIndex sha256 cdc start events m ∧
      Coherent sha256 cdc (contentsRead sha256 cdc start events) m := by
  intro start
  have hstart : CoherentCluster sha256 cdc (contentsRead sha256 cdc start events)
      (SentFromIndex sha256 cdc start events) start :=
    ⟨fun _ _ _ hm => (by cases hm), fun _ hm => (by cases hm)⟩
  have hcoherent := run_invariant _ hrun (hvalid.and (along_taken events)) hstart
    fun state event next hc hguard hstep => step_coherent hc hguard.1
      (fun i ev fileID content io hevent hindexed =>
        ⟨state, i, ev, fileID, io, hevent ▸ hguard.2, hindexed⟩)
      (fun i m hevent hm => ⟨state, i, hevent ▸ hguard.2, hm⟩) hstep
  exact ⟨hcoherent.index, hcoherent.served⟩

/-- Node `a` indexes a file of one byte and serves its record; node `b` pulls it and serves it
again. -/
def indexAndPull : List (ClusterEvent Bool) :=
  let m : FileMeta := ⟨ascii "f", .sample [7], 1, [.sample [7]], 1⟩
  let peer : PeerInfo := ⟨ascii "a", ascii "10.0.0.1", 9100, 9000⟩
  let answer : PeerAnswer := ⟨true, Control.diff (.set .empty m), some m⟩
  [.node false (.userWrite (ascii "/c/f") (some [7])),
    .node false (.fileChange [ascii "f"] 0 ⟨fun _ => true, true⟩),
    .getMeta false (ascii "f"),
    .node true (.sync (ascii "f")),
    .node true (.pull (ascii "f") ⟨[(peer, answer)], [(peer.grpcAddr, [(Hash.sample [7]).bytes])],
      .insertion, [.look 0 0, .answer 0 0 (some [7]) 0], .allOk⟩),
    .getMeta true (ascii "f")]

/-- The record at node `b` is that of the byte node `a` read. -/
theorem index_coherence_two_nodes :
    let m : FileMeta := ⟨ascii "f", .sample [7], 1, [.sample [7]], 1⟩
    ∃ c, run (step Hash.sample .fixed) twoNodes indexAndPull = some c ∧
      (c.nodes true).node.index.getFileMeta (ascii "f") = some m ∧ c.served = [m, m] ∧
      Coherent Hash.sample .fixed (contentsRead Hash.sample .fixed twoNodes indexAndPull) m := by
  intro m
  have hstate : (run (step Hash.sample .fixed) twoNodes indexAndPull).map (fun c =>
      ((c.nodes true).node.index.getFileMeta (ascii "f"), c.served)) =
      some (some m, [m, m]) := by decide
  obtain ⟨c, hrun, hstate⟩ := Option.map_eq_some_iff.mp hstate
  obtain ⟨hm, hserved⟩ := Prod.mk.inj hstate
  have hvalid : Along (step Hash.sample .fixed) (IndexesValid Hash.sample .fixed) twoNodes
      indexAndPull := by
    refine And.intro ?_ (And.intro ?_ (And.intro trivial (And.intro ?_ (And.intro ?_
      (And.intro trivial trivial)))))
    · exact fun _ _ _ h => nomatch h
    · rintro fileID content io ⟨⟩
      decide
    · exact fun _ _ _ h => nomatch h
    · exact fun _ _ _ h => nomatch h
  exact ⟨c, hrun, hm, hserved, ((index_coherence _ _ _ _ _ hrun hvalid).1 true _ m hm).2⟩

end Cluster

end NuSync
