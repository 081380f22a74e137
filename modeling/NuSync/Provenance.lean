import NuSync.Coherence
import NuSync.Daemon.Fidelity
import NuSync.Daemon.Served

/-!
# Where records and files come from

A record can reach a node over any number of others, none of which looks at it. Still every record
in an index or in a reply is, field by field, one that some node built from a file it had read
(`every_record_was_built`), and every file a pull writes has the bytes of that file
(`pulled_file_was_read`), whatever bytes peers have sent on the way.
-/

namespace NuSync

open Go Lib Store Chunker Merkle Assembler Control Discovery Orchestrator

namespace Cluster

variable {ι : Type*} (sha256 : Bytes → Hash) (cdc : FastCdc)

/-- The record was built in the run by a node that read this content and drew its next timestamp;
what is kept of it has been through JSON. -/
def BuiltFrom [DecidableEq ι] (start : Cluster ι) (events : List (ClusterEvent ι)) (m : FileMeta)
    (content : Bytes) : Prop :=
  ∃ c i event fileID io, Taken (step sha256 cdc) start events c (.node i event) ∧
    (c.nodes i).indexed sha256 cdc event = some (fileID, content, io) ∧
    m = (Daemon.fileMeta sha256 fileID (chunksFrom sha256 0 0 (cdc.cut content))
      ((c.nodes i).clock + 1)).json

/-- The invariant: every record in an index or in a reply was built. -/
structure Traced (built : FileMeta → Prop) (c : Cluster ι) : Prop where
  index : ∀ i key m, (c.nodes i).node.index.getFileMeta key = some m → built m
  served : ∀ m ∈ c.served, built m

variable {sha256 cdc} {built : FileMeta → Prop} {c c' : Cluster ι}

/-! ## One step -/

/-- A node after one of its events. -/
theorem traced_node {i : ι} {event : Event} {d : Daemon} (hc : Traced built c)
    (hjson : ∀ m, built m → m.json = m)
    (hbuilds : ∀ fileID content io,
      (c.nodes i).indexed sha256 cdc event = some (fileID, content, io) →
        built (Daemon.fileMeta sha256 fileID (chunksFrom sha256 0 0 (cdc.cut content))
          ((c.nodes i).clock + 1)).json)
    (hfetches : event.FetchesFrom c.served) (h : (c.nodes i).step sha256 cdc event = some d)
    {key : GoString} {m : FileMeta} (hm : d.node.index.getFileMeta key = some m) : built m := by
  rcases Daemon.step_indexed h with ⟨fileID, content, io, hindexed, -, hindex⟩ |
    ⟨-, ⟨-, hindex⟩ | ⟨fileID, env, outcome, rfl, hpull, hnode⟩⟩
  · rw [hindex] at hm
    rcases Daemon.put_ignored_cases (c.nodes i).node.index (Daemon.fileMeta sha256 fileID
      (chunksFrom sha256 0 0 (cdc.cut content)) ((c.nodes i).clock + 1)) io.commit with
      hput | ⟨-, -, hput⟩ <;> rw [hput] at hm
    · exact hc.index i key m hm
    · rcases BoltMetaStore.get_set_cases hm with ⟨-, rfl⟩ | hold
      · exact hbuilds fileID content io hindexed
      · exact hc.index i key m hold
  · rw [hindex] at hm
    exact hc.index i key m hm
  · rw [hnode] at hm
    rcases pull_index hpull with hsame | ⟨diff, pulled, hselect, -, -, hset⟩
    · rw [hsame] at hm
      exact hc.index i key m hm
    · rw [hset] at hm
      rcases BoltMetaStore.get_set_cases hm with ⟨-, rfl⟩ | hold
      · obtain ⟨entry, hentry, reply, hreply, rfl⟩ := select_peer_mem hselect
        have hsent := hc.served reply (hfetches entry hentry reply hreply)
        rw [FileMeta.json_json, hjson reply hsent]
        exact hsent
      · exact hc.index i key m hold

/-- What a pull puts into the blob store is valid. -/
theorem valid_objects_pull {baseDir fileID : GoString} {env : PullEnv} {node : Node}
    {outcome : PullOutcome} (hpull : pull sha256 baseDir fileID env node = some outcome)
    (hvalid : ValidObjects sha256 node.objects) : ValidObjects sha256 outcome.node.objects := by
  rcases pull_cases hpull with ⟨_, rfl⟩ | ⟨_, _, -, -, rfl⟩ | ⟨_, _, d, _, -, -, hdownload, rfl⟩ |
    ⟨diff, m, d, -, -, hdownload, rfl⟩
  · exact hvalid
  · exact hvalid
  · exact (fetch_chunks_objects hdownload hvalid).1
  · obtain ⟨hnext, -⟩ := fetch_chunks_objects hdownload hvalid
    obtain ⟨-, hobjects⟩ := assemble_frame baseDir fileID env.io m (node.downloaded d)
    rcases finish_cases baseDir fileID env m (node.downloaded d) with ⟨hnode, -⟩ | ⟨hnode, -⟩
    · rw [hnode, hobjects]
      exact hnext
    · rw [hnode]
      exact hobjects ▸ hnext

/-- No event puts an invalid blob into the store. -/
theorem valid_objects_node {d d' : Daemon} {event : Event}
    (hvalid : ValidObjects sha256 d.node.objects) (h : d.step sha256 cdc event = some d') :
    ValidObjects sha256 d'.node.objects := by
  rcases Daemon.step_indexed h with ⟨_, _, io, -, hobjects, -⟩ |
    ⟨-, ⟨hobjects, -⟩ | ⟨_, _, _, -, hpull, hnode⟩⟩
  · rw [hobjects]
    exact Daemon.valid_store_chunks hvalid io 0 _
  · rwa [hobjects]
  · rw [hnode]
    exact valid_objects_pull hpull hvalid

variable [DecidableEq ι]

/-- **An event keeps every record traced** to a node that built it. -/
theorem step_traced {event : ClusterEvent ι} (hc : Traced built c)
    (hjson : ∀ m, built m → m.json = m)
    (hbuilds : ∀ i ev fileID content io, event = .node i ev →
      (c.nodes i).indexed sha256 cdc ev = some (fileID, content, io) →
        built (Daemon.fileMeta sha256 fileID (chunksFrom sha256 0 0 (cdc.cut content))
          ((c.nodes i).clock + 1)).json)
    (h : c.step sha256 cdc event = some c') : Traced built c' := by
  cases event with
  | getMeta i id =>
      cases h
      refine ⟨hc.index, fun m hm => ?_⟩
      rw [List.mem_append, Option.mem_toList, Option.map_eq_some_iff] at hm
      rcases hm with ⟨found, hfound, rfl⟩ | hm
      · rw [BoltMetaStore.json_of_get hfound]
        exact hc.index i id found hfound
      · exact hc.served m hm
  | node i event =>
      simp only [step] at h
      split_ifs at h with hfetches
      obtain ⟨d, hd, rfl⟩ := Option.map_eq_some_iff.mp h
      refine ⟨fun j key m hm => ?_, hc.served⟩
      rcases eq_or_ne j i with rfl | hne
      · exact traced_node hc hjson (fun fileID content io => hbuilds j event fileID content io rfl)
          hfetches hd (by simpa using hm)
      · exact hc.index j key m (by simpa [hne] using hm)

/-- No event of the cluster puts an invalid blob into a store. -/
theorem step_valid_objects {event : ClusterEvent ι}
    (hvalid : ∀ i, ValidObjects sha256 (c.nodes i).node.objects)
    (h : c.step sha256 cdc event = some c') (i : ι) :
    ValidObjects sha256 (c'.nodes i).node.objects := by
  cases event with
  | getMeta j id =>
      cases h
      exact hvalid i
  | node j event =>
      simp only [step] at h
      split_ifs at h
      obtain ⟨d, hd, rfl⟩ := Option.map_eq_some_iff.mp h
      rcases eq_or_ne i j with rfl | hne
      · simpa using valid_objects_node (hvalid i) hd
      · simpa [hne] using hvalid i

/-! ## Every run -/

variable {names dirs : ι → GoString} {objects : ι → Hash → Option Bytes}
  {disks : ι → GoString → Option Bytes} {events : List (ClusterEvent ι)}

/-- In every run from new nodes every record is traced. -/
theorem run_traced
    (hrun : run (step sha256 cdc) (fresh names dirs objects disks) events = some c) :
    Traced (fun m => ∃ content,
      BuiltFrom sha256 cdc (fresh names dirs objects disks) events m content) c := by
  refine run_invariant _ hrun (along_taken events)
    ⟨fun _ _ _ hm => (by cases hm), fun _ hm => (by cases hm)⟩
    fun state event next hc htaken hstep => step_traced hc ?_ ?_ hstep
  · rintro m ⟨content, _, _, _, _, _, -, -, rfl⟩
    exact FileMeta.json_json _
  · rintro i ev fileID content io rfl hindexed
    exact ⟨content, state, i, ev, fileID, io, htaken, hindexed, rfl⟩

/-- **Every record was built by some node** from a file it had read: in every run, each record in
an index or in a reply has the file ID, root, timestamp, chunk hashes and size that some node gave
it when it indexed a content, whatever nodes it has passed since. -/
theorem every_record_was_built
    (hrun : run (step sha256 cdc) (fresh names dirs objects disks) events = some c) :
    (∀ i key m, (c.nodes i).node.index.getFileMeta key = some m →
      ∃ content, BuiltFrom sha256 cdc (fresh names dirs objects disks) events m content) ∧
    ∀ m ∈ c.served,
      ∃ content, BuiltFrom sha256 cdc (fresh names dirs objects disks) events m content :=
  ⟨(run_traced hrun).index, (run_traced hrun).served⟩

/-- The record that node `b` has pulled from node `a` was built by `a`. -/
theorem every_record_was_built_two_nodes :
    let m : FileMeta := ⟨ascii "f", .sample [7], 1, [.sample [7]], 1⟩
    ∃ c, run (step Hash.sample .fixed) twoNodes indexAndPull = some c ∧
      (c.nodes true).node.index.getFileMeta (ascii "f") = some m ∧
      ∃ content, BuiltFrom Hash.sample .fixed twoNodes indexAndPull m content := by
  intro m
  have hstate : (run (step Hash.sample .fixed) twoNodes indexAndPull).map (fun c =>
      (c.nodes true).node.index.getFileMeta (ascii "f")) = some (some m) := by decide
  obtain ⟨c, hrun, hm⟩ := Option.map_eq_some_iff.mp hstate
  exact ⟨c, hrun, hm, (every_record_was_built hrun).1 true _ m hm⟩

/-- What was built from a content lists the hashes of its chunks and its length. -/
theorem BuiltFrom.record {start : Cluster ι} {m : FileMeta} {content : Bytes}
    (h : BuiltFrom sha256 cdc start events m content) :
    m.chunkHashes = (cdc.cut content).map sha256 ∧
      m.sizeBytes = UInt64.ofNat content.length ∧
      content ∈ contentsRead sha256 cdc start events := by
  obtain ⟨c, i, event, fileID, io, htaken, hindexed, rfl⟩ := h
  refine ⟨map_hash_chunks_from sha256 0 0 _, ?_, c, i, event, fileID, io, htaken, hindexed⟩
  exact (Daemon.total_size_chunks_from sha256 0 0 _).trans (by rw [cdc.flatten_cut])

omit [DecidableEq ι] in
/-- If the chunks of a content are all in the store after a download, they are what is there. -/
theorem map_objects_of_stored {content : Bytes} {env : PullEnv} {missing : List Bytes}
    {objects : Hash → Option Bytes} {tracker : Scheduler.HealthTracker} {d : Download}
    {result : Except DownloadError Unit} {m : FileMeta} (hvalid : ValidObjects sha256 objects)
    (hfree : Set.InjOn sha256 (hashedStrings cdc content objects env.schedule))
    (hhashes : m.chunkHashes = (cdc.cut content).map sha256)
    (hdownload : env.fetchChunks sha256 missing objects tracker = some (d, result))
    (hstored : ∀ hash ∈ m.chunkHashes, d.objects hash ≠ none) :
    m.chunkHashes.map d.objects = (cdc.cut content).map some := by
  rw [hhashes, List.map_map]
  refine List.map_congr_left fun part hpart => ?_
  have hlisted : sha256 part ∈ m.chunkHashes := hhashes ▸ List.mem_map_of_mem hpart
  obtain ⟨bytes, hbytes⟩ := Option.ne_none_iff_exists'.mp (hstored (sha256 part) hlisted)
  exact hbytes.trans (congrArg some (chunk_of_stored hvalid hfree hdownload hpart hbytes))

omit [DecidableEq ι] in
/-- A pull of a record of a content writes the content. -/
theorem pull_writes_content {content : Bytes} {baseDir fileID : GoString} {env : PullEnv}
    {node : Node} {diff : DiffResponse} {m : FileMeta} {outcome : PullOutcome}
    (hvalid : ValidObjects sha256 node.objects)
    (hfree : Set.InjOn sha256 (hashedStrings cdc content node.objects env.schedule))
    (hhashes : m.chunkHashes = (cdc.cut content).map sha256)
    (hsize : m.sizeBytes = UInt64.ofNat content.length)
    (hselect : env.select fileID node.index = .ok (diff, m)) (hassembles : diff.isSynced = false)
    (hpull : pull sha256 baseDir fileID env node = some outcome)
    (hok : outcome.result = .ok ()) :
    outcome.node.disk (outPath baseDir fileID) = some content ∧
      content.length = m.sizeBytes.toNat := by
  obtain ⟨_, _, hselect', ⟨hsynced, -⟩ | ⟨-, d, sparse, hdownload, hcompletes, hloop, hdisk, -⟩⟩ :=
    pull_ok_cases hpull hok
  · cases hselect.symm.trans hselect'
    cases hassembles.symm.trans hsynced
  cases hselect.symm.trans hselect'
  have hstored : m.chunkHashes.map d.objects = (cdc.cut content).map some :=
    map_objects_of_stored hvalid hfree hhashes hdownload hcompletes.chunks.stored
  have hlen : ∀ part ∈ cdc.cut content, part.length < 2 ^ 63 := fun part hpart => by
    have := cdc.length_cut_le content part hpart
    unfold maxSize avgSize at this
    omega
  obtain ⟨hbytes, htotal⟩ := write_chunks_content [] hstored hlen (by simp) hloop
  rw [List.nil_append, cdc.flatten_cut] at hbytes htotal
  have hlength : content.length = m.sizeBytes.toNat := by
    rw [hsize, UInt64.toNat_ofNat_of_lt' htotal]
  refine ⟨?_, hlength⟩
  rw [hdisk, hbytes, hlength, Nat.sub_self, List.replicate_zero, List.append_nil]

/-- **Every file a pull writes was read somewhere.** At any point of a run, over any number of
nodes that handed the record on, a pull that goes through assembly leaves at its path, byte for
byte, the content that the node which built the record had read. -/
theorem pulled_file_was_read (hvalid : ∀ i, ValidObjects sha256 (objects i))
    (hrun : run (step sha256 cdc) (fresh names dirs objects disks) events = some c) {i : ι}
    {fileID : GoString} {env : PullEnv} {diff : DiffResponse} {m : FileMeta}
    {outcome : PullOutcome} (hfetches : (Event.pull fileID env).FetchesFrom c.served)
    (hselect : env.select fileID (c.nodes i).node.index = .ok (diff, m))
    (hassembles : diff.isSynced = false)
    (hpull : pull sha256 (c.nodes i).baseDir fileID env (c.nodes i).node = some outcome)
    (hok : outcome.result = .ok ())
    (hfree : ∀ content ∈ contentsRead sha256 cdc (fresh names dirs objects disks) events,
      Set.InjOn sha256 (hashedStrings cdc content (c.nodes i).node.objects env.schedule)) :
    ∃ content, BuiltFrom sha256 cdc (fresh names dirs objects disks) events m content ∧
      outcome.node.disk (outPath (c.nodes i).baseDir fileID) = some content ∧
      content.length = m.sizeBytes.toNat := by
  have hobjects : ∀ i, ValidObjects sha256 (c.nodes i).node.objects :=
    Reachable.invariant ⟨events, hrun⟩ _ hvalid
      fun _ _ _ hold hstep => step_valid_objects hold hstep
  obtain ⟨entry, hentry, reply, hreply, rfl⟩ := select_peer_mem hselect
  obtain ⟨content, hbuilt⟩ := (run_traced hrun).served reply (hfetches entry hentry reply hreply)
  obtain ⟨hhashes, hsize, hread⟩ := hbuilt.record
  have hjson : reply.json = reply := by
    obtain ⟨_, _, _, _, _, -, -, rfl⟩ := hbuilt
    exact FileMeta.json_json _
  rw [hjson] at hselect ⊢
  exact ⟨content, hbuilt, pull_writes_content (hobjects i) (hfree content hread) hhashes hsize
    hselect hassembles hpull hok⟩

/-- Node `b` pulls the byte that node `a` has read. -/
theorem pulled_file_was_read_two_nodes :
    let m : FileMeta := ⟨ascii "f", .sample [7], 1, [.sample [7]], 1⟩
    let peer : PeerInfo := ⟨ascii "a", ascii "10.0.0.1", 9100, 9000⟩
    let env : PullEnv := ⟨[(peer, ⟨true, Control.diff (.set .empty m), some m⟩)],
      [(peer.grpcAddr, [(Hash.sample [7]).bytes])], .insertion,
      [.look 0 0, .answer 0 0 (some [7]) 0], .allOk⟩
    ∃ c outcome, run (step Hash.sample .fixed) twoNodes (indexAndPull.take 4) = some c ∧
      pull Hash.sample (c.nodes true).baseDir (ascii "f") env (c.nodes true).node = some outcome ∧
      ∃ content, BuiltFrom Hash.sample .fixed twoNodes (indexAndPull.take 4) m content ∧
        outcome.node.disk (outPath (c.nodes true).baseDir (ascii "f")) = some content ∧
        content.length = m.sizeBytes.toNat := by
  intro m peer env
  obtain ⟨c, hrun, hfetches, hselect, hresult, hobjects⟩ :
      ∃ c, run (step Hash.sample .fixed) twoNodes (indexAndPull.take 4) = some c ∧
        (Event.pull (ascii "f") env).FetchesFrom c.served ∧
        env.select (ascii "f") (c.nodes true).node.index =
          .ok (⟨ascii "f", m.merkleRoot.bytes, false, [(Hash.sample [7]).bytes]⟩, m) ∧
        (pull Hash.sample (c.nodes true).baseDir (ascii "f") env (c.nodes true).node).map
          PullOutcome.result = some (.ok ()) ∧
        (c.nodes true).node.objects = fun _ => none :=
    ⟨_, rfl, by decide, by decide, by decide, rfl⟩
  obtain ⟨outcome, hpull, hok⟩ := Option.map_eq_some_iff.mp hresult
  refine ⟨c, outcome, hrun, hpull, pulled_file_was_read (fun _ _ _ h => by cases h) hrun hfetches
    hselect rfl hpull hok fun content hcontent => ?_⟩
  -- the only content read is one byte, and the only bytes received are the same
  have hone : content = [7] := by
    obtain ⟨_, _, _, _, _, ⟨before, after, hsplit, hbefore⟩, hindexed⟩ := hcontent
    match before, hsplit, hbefore with
    | [], hsplit, hbefore =>
        cases hsplit
        cases hindexed
    | [_], hsplit, hbefore =>
        cases hsplit
        cases hbefore
        exact (congrArg (fun found => (found.map fun p => p.2.1).getD []) hindexed).symm
    | [_, _], hsplit, hbefore => cases hsplit
    | [_, _, _], hsplit, hbefore =>
        cases hsplit
        cases hindexed
    | _ :: _ :: _ :: _ :: before, hsplit, hbefore => simp [indexAndPull] at hsplit
  subst hone
  rw [hobjects]
  have hhashed : ∀ bytes ∈ hashedStrings .fixed [7] (fun _ => none) env.schedule, bytes = [7] := by
    rintro bytes (hcut | ⟨_, hobject⟩ | ⟨event, hevent, hreceived⟩)
    · exact List.mem_singleton.mp hcut
    · cases hobject
    · simp only [env, List.mem_cons, List.not_mem_nil, or_false] at hevent
      rcases hevent with rfl | rfl
      · cases hreceived
      · exact (Option.some.inj hreceived).symm
  intro x hx y hy _
  rw [hhashed x hx, hhashed y hy]

end Cluster

end NuSync
