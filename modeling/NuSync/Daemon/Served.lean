import NuSync.Daemon.Step

/-!
# Serving what is indexed

An entry of the index promises peers that its chunks can be fetched here. The two ingest paths
drop the error of `CAS.Put` and index the file anyway; a pull drops it too, but reads every chunk
back before it stores the record. `served_iff` says exactly which runs keep the promise.
-/

namespace NuSync

open Go Lib Store Chunker Discovery Orchestrator

/-- Every chunk hash listed in an index entry is in the blob store, with bytes that hash to it. -/
def Orchestrator.Node.Served (sha256 : Bytes → Hash) (node : Node) : Prop :=
  ∀ fileID m, node.index.getFileMeta fileID = some m → ∀ hash ∈ m.chunkHashes,
    ∃ bytes, get node.objects hash = some bytes ∧ sha256 bytes = hash

/-- If the event stores a record for a content, every part of the content is in the blob store
already or some `Put` of its hash gets through. -/
def Daemon.PutsStick (sha256 : Bytes → Hash) (cdc : FastCdc) (d : Daemon) (event : Event) : Prop :=
  ∀ fileID content io, d.indexed sha256 cdc event = some (fileID, content, io) →
    BoltMetaStore.ValidKey fileID → io.commit = true → ∀ part ∈ cdc.cut content,
      d.node.objects (sha256 part) ≠ none ∨
        ∃ k other, (cdc.cut content)[k]? = some other ∧ sha256 other = sha256 part ∧
          io.putOk k = true

variable {sha256 : Bytes → Hash} {cdc : FastCdc} {node node' : Node}

/-! ## The blob store after an ingest or a download -/

/-- A hash is in the store after the ingest loop exactly if it was there or some `Put` of it got
through. -/
theorem Daemon.store_chunks_present (sha256 : Bytes → Hash) (io : Daemon.IndexAnswers) (i : Nat)
    (objects : Hash → Option Bytes) (offset seq : Nat) (parts : List Bytes) (hash : Hash) :
    storeChunks sha256 io i objects (chunksFrom sha256 offset seq parts) hash ≠ none ↔
      objects hash ≠ none ∨
        ∃ k part, parts[k]? = some part ∧ sha256 part = hash ∧ io.putOk (i + k) = true := by
  induction parts generalizing i objects offset seq with
  | nil => simp [chunksFrom, storeChunks]
  | cons part parts ih =>
      have hone : (if io.putOk i then (put sha256 objects (sha256 part) part).1 else objects) hash ≠
          none ↔ objects hash ≠ none ∨ sha256 part = hash ∧ io.putOk i = true := by
        split_ifs with hput
        · rw [put_ne_none_iff]
          simp [hput, eq_comm]
        · simp [hput]
      -- the first chunk, or one of the later ones
      have hsplit : (∃ k other, (part :: parts)[k]? = some other ∧ sha256 other = hash ∧
          io.putOk (i + k) = true) ↔ (sha256 part = hash ∧ io.putOk i = true) ∨
          ∃ k other, parts[k]? = some other ∧ sha256 other = hash ∧
            io.putOk (i + 1 + k) = true := by
        rw [← Nat.or_exists_add_one]
        simp [Nat.add_assoc, Nat.add_comm 1]
      rw [chunksFrom, storeChunks, ih, hone, hsplit, or_assoc]

/-- A download keeps the objects that are there, and the new ones are valid. -/
theorem Orchestrator.fetch_chunks_objects {env : PullEnv} {missing : List Bytes}
    {d : Download} {result : Except DownloadError Unit}
    (h : env.fetchChunks sha256 missing node.objects node.tracker = some (d, result))
    (hvalid : ValidObjects sha256 node.objects) :
    ValidObjects sha256 d.objects ∧ ∀ hash, node.objects hash ≠ none → d.objects hash ≠ none := by
  have hrun := run_of_download h
  refine ⟨fun hash bytes hbytes => ?_, fun hash hhash => ?_⟩
  · rcases run_download_object hrun hbytes with hold | ⟨hmatch, -⟩
    · exact hvalid hash bytes hold
    · exact hmatch
  · exact (run_download_present hrun hash).mpr (.inl hhash)

/-! ## One step -/

/-- With valid objects it is enough that the hashes are there. -/
theorem Orchestrator.Node.served_iff_present (hvalid : ValidObjects sha256 node.objects) :
    node.Served sha256 ↔ ∀ fileID m, node.index.getFileMeta fileID = some m →
      ∀ hash ∈ m.chunkHashes, node.objects hash ≠ none := by
  constructor
  · intro hserved fileID m hm hash hhash
    obtain ⟨bytes, hbytes, -⟩ := hserved fileID m hm hash hhash
    exact Option.ne_none_iff_exists'.mpr ⟨bytes, hbytes⟩
  · intro hpresent fileID m hm hash hhash
    obtain ⟨bytes, hbytes⟩ := Option.ne_none_iff_exists'.mp (hpresent fileID m hm hash hhash)
    exact ⟨bytes, hbytes, hvalid hash bytes hbytes⟩

/-- More objects and no other record keep the promise. -/
theorem Orchestrator.Node.Served.mono (hserved : node.Served sha256)
    (hindex : node'.index = node.index) (hvalid : ValidObjects sha256 node'.objects)
    (hkept : ∀ hash, node.objects hash ≠ none → node'.objects hash ≠ none) :
    node'.Served sha256 := by
  rw [Node.served_iff_present hvalid, hindex]
  intro fileID m hm hash hhash
  obtain ⟨bytes, hbytes, -⟩ := hserved fileID m hm hash hhash
  exact hkept hash (Option.ne_none_iff_exists'.mpr ⟨bytes, hbytes⟩)

/-- A new record keeps the promise exactly if its chunks are there. -/
theorem Orchestrator.Node.served_set_iff (hserved : node.Served sha256) {m : FileMeta}
    (hindex : node'.index = node.index.set m) (hvalid : ValidObjects sha256 node'.objects)
    (hkept : ∀ hash, node.objects hash ≠ none → node'.objects hash ≠ none) :
    node'.Served sha256 ↔ ∀ hash ∈ m.chunkHashes, node'.objects hash ≠ none := by
  rw [Node.served_iff_present hvalid, hindex]
  constructor
  · intro hpresent
    exact hpresent m.fileID m.json (BoltMetaStore.get_set_self node.index m)
  · intro hpresent fileID found hfound
    rcases BoltMetaStore.get_set_cases hfound with ⟨-, rfl⟩ | hold
    · exact hpresent
    · intro hash hhash
      obtain ⟨bytes, hbytes, -⟩ := hserved fileID found hold hash hhash
      exact hkept hash (Option.ne_none_iff_exists'.mpr ⟨bytes, hbytes⟩)

/-- A pull keeps the promise: it stores a record only after it has read all its chunks. -/
theorem Orchestrator.pull_served {baseDir fileID : GoString} {env : PullEnv}
    {outcome : PullOutcome} (hpull : pull sha256 baseDir fileID env node = some outcome)
    (hvalid : ValidObjects sha256 node.objects) (hserved : node.Served sha256) :
    ValidObjects sha256 outcome.node.objects ∧ outcome.node.Served sha256 := by
  rcases pull_cases hpull with ⟨_, rfl⟩ | ⟨_, _, -, -, rfl⟩ | ⟨_, _, d, _, -, -, hdownload, rfl⟩ |
    ⟨diff, m, d, -, -, hdownload, rfl⟩
  · exact ⟨hvalid, hserved⟩
  · exact ⟨hvalid, hserved⟩
  · obtain ⟨hnext, hkept⟩ := fetch_chunks_objects hdownload hvalid
    exact ⟨hnext, hserved.mono rfl hnext hkept⟩
  · obtain ⟨hnext, hkept⟩ := fetch_chunks_objects hdownload hvalid
    obtain ⟨hindex, hobjects⟩ := assemble_frame baseDir fileID env.io m (node.downloaded d)
    rcases finish_cases baseDir fileID env m (node.downloaded d) with
      ⟨hnode, -⟩ | ⟨hnode, -, -, -, -, hcompletes⟩
    · rw [hnode, hobjects]
      refine ⟨hnext, hserved.mono hindex ?_ ?_⟩
      · rwa [hobjects]
      · rwa [hobjects]
    · have hafter : (env.finish baseDir fileID m (node.downloaded d)).node.objects = d.objects := by
        rw [hnode]
        exact hobjects
      rw [hafter]
      refine ⟨hnext, (Node.served_set_iff hserved (m := m) ?_ ?_ ?_).mpr ?_⟩
      · rw [hnode]
        rfl
      · rwa [hafter]
      · rwa [hafter]
      · rw [hafter]
        exact hcompletes.chunks.stored

namespace Daemon

variable {d d' : Daemon} {event : Event}

/-- Indexing a content keeps the promise exactly if the record is not stored or all its chunks are
there afterwards. -/
theorem index_content_served (hvalid : ValidObjects sha256 node.objects)
    (hserved : node.Served sha256) {fileID : GoString} {content : Bytes} {io : IndexAnswers}
    {ts : UInt64}
    (hobjects : node'.objects =
      storeChunks sha256 io 0 node.objects (chunksFrom sha256 0 0 (cdc.cut content)))
    (hindex : node'.index = putIgnored node.index
      (fileMeta sha256 fileID (chunksFrom sha256 0 0 (cdc.cut content)) ts) io.commit) :
    node'.Served sha256 ↔ (BoltMetaStore.ValidKey fileID → io.commit = true →
      ∀ part ∈ cdc.cut content, node.objects (sha256 part) ≠ none ∨
        ∃ k other, (cdc.cut content)[k]? = some other ∧ sha256 other = sha256 part ∧
          io.putOk k = true) := by
  have hnext : ValidObjects sha256 node'.objects := by
    rw [hobjects]
    exact valid_store_chunks hvalid io 0 _
  have hpresent := store_chunks_present sha256 io 0 node.objects 0 0 (cdc.cut content)
  have hkept (hash : Hash) (hhash : node.objects hash ≠ none) : node'.objects hash ≠ none := by
    rw [hobjects]
    exact (hpresent hash).mpr (.inl hhash)
  by_cases hstored : BoltMetaStore.ValidKey fileID ∧ io.commit = true
  · rw [put_ignored_of_valid _ hstored.1 hstored.2] at hindex
    rw [Node.served_set_iff hserved hindex hnext hkept]
    simp [fileMeta, map_hash_chunks_from, hobjects, hpresent, hstored.1, hstored.2]
  · have hsame : node'.index = node.index := by
      rcases put_ignored_cases node.index (fileMeta sha256 fileID
        (chunksFrom sha256 0 0 (cdc.cut content)) ts) io.commit with hput | ⟨hkey, hcommit, -⟩
      · rw [hindex, hput]
      · exact absurd ⟨hkey, hcommit⟩ hstored
    constructor
    · intro _ hkey hcommit
      exact absurd ⟨hkey, hcommit⟩ hstored
    · intro _
      exact hserved.mono hsame hnext hkept

/-- An event that indexes nothing has no puts that could fail. -/
theorem puts_stick_of_none (hnone : d.indexed sha256 cdc event = none) :
    d.PutsStick sha256 cdc event := by
  intro fileID content io hindexed
  cases hnone.symm.trans hindexed

/-- **An event keeps the promise exactly if its puts stick.** -/
theorem step_served (hvalid : ValidObjects sha256 d.node.objects)
    (hserved : d.node.Served sha256) (h : d.step sha256 cdc event = some d') :
    ValidObjects sha256 d'.node.objects ∧
      (d'.node.Served sha256 ↔ d.PutsStick sha256 cdc event) := by
  rcases step_indexed h with ⟨fileID, content, io, hindexed, hobjects, hindex⟩ |
    ⟨hnone, ⟨hobjects, hindex⟩ | ⟨fileID, env, outcome, -, hpull, hnode⟩⟩
  · refine ⟨by rw [hobjects]; exact valid_store_chunks hvalid io 0 _, ?_⟩
    rw [index_content_served hvalid hserved hobjects hindex]
    constructor
    · intro hstick otherID other answers hother
      cases hindexed.symm.trans hother
      exact hstick
    · intro hstick
      exact hstick fileID content io hindexed
  · have hnext : ValidObjects sha256 d'.node.objects := by rwa [hobjects]
    refine ⟨hnext, iff_of_true ?_ (puts_stick_of_none hnone)⟩
    exact hserved.mono hindex hnext fun hash hhash => by rwa [hobjects]
  · rw [hnode]
    obtain ⟨hnext, hpulled⟩ := pull_served hpull hvalid hserved
    exact ⟨hnext, iff_of_true hpulled (puts_stick_of_none hnone)⟩

/-! ## Every run -/

/-- **Everything indexed can be served in all states of a run exactly if the puts of all its
ingests stick.** -/
theorem served_iff {start finish : Daemon} {events : List Event}
    (hvalid : ValidObjects sha256 start.node.objects) (hstart : start.node.Served sha256)
    (hrun : run (step sha256 cdc) start events = some finish) :
    (∀ before after d, events = before ++ after → run (step sha256 cdc) start before = some d →
      d.node.Served sha256) ↔ Along (step sha256 cdc) (PutsStick sha256 cdc) start events :=
  forall_states_iff_along (fun d => ValidObjects sha256 d.node.objects)
    (fun d => d.node.Served sha256) hrun hvalid hstart fun _ _ _ => step_served

/-- A file is indexed, and then ingested under another name while the disk is full: its chunk is
there already. -/
theorem served_after_full_disk :
    let start : Daemon := .new (ascii "a") (ascii "/d") .empty (fun _ => none)
      (Function.update (fun _ => none) (ascii "/d/f") (some [1]))
    let events : List Event := [.fileChange [ascii "f"] 0 ⟨fun _ => true, true⟩,
      .ingest (ascii "/d/f") ⟨fun _ => false, true⟩]
    ∃ d, run (step Hash.sample .fixed) start events = some d ∧
      d.node.index.getFileMeta (ascii "/d/f") ≠ none ∧ d.node.Served Hash.sample := by
  intro start events
  have hvalid : ValidObjects Hash.sample start.node.objects := by
    intro hash bytes h
    cases h
  have hstart : start.node.Served Hash.sample := by
    intro fileID m h
    cases h
  have hfirst : (step Hash.sample .fixed start
      (.fileChange [ascii "f"] 0 ⟨fun _ => true, true⟩)).map (fun d =>
        (d.node.disk (ascii "/d/f"), d.node.objects (Hash.sample [1]))) =
      some (some [1], some [1]) := by decide
  have hlast : (run (step Hash.sample .fixed) start events).map (fun d =>
      (d.node.index.getFileMeta (ascii "/d/f")).isSome) = some true := by decide
  obtain ⟨middle, hstep, hmiddle⟩ := Option.map_eq_some_iff.mp hfirst
  obtain ⟨hdisk, hobject⟩ := Prod.mk.inj hmiddle
  obtain ⟨d, hrun, hindexed⟩ := Option.map_eq_some_iff.mp hlast
  refine ⟨d, hrun, Option.isSome_iff_ne_none.mp hindexed,
    (served_iff hvalid hstart hrun).mpr ?_ events [] d (by simp) hrun⟩
  -- both events read `[1]`, which the fixed chunker leaves in one part
  rw [along_cons hstep]
  refine ⟨?_, ?_, by split <;> trivial⟩
  · intro fileID content io h _ _ part hpart
    rw [indexed, show start.changeContent Hash.sample .fixed (start.watchedPath [ascii "f"]) 0 =
      some [1] by decide, Option.map_some, Option.some.injEq, Prod.mk.injEq] at h
    obtain ⟨-, rfl, rfl⟩ := h
    obtain rfl : part = [1] := List.mem_singleton.mp hpart
    exact .inr ⟨0, [1], rfl, rfl, rfl⟩
  · intro fileID content io h _ _ part hpart
    rw [indexed, show clean (ascii "/d/f") = ascii "/d/f" by decide, hdisk] at h
    cases h
    obtain rfl : part = [1] := List.mem_singleton.mp hpart
    exact .inl (by rw [hobject]; exact Option.some_ne_none [1])

/-- A file is indexed while the disk is full: peers are told of a chunk that is nowhere. -/
theorem indexed_chunk_missing :
    let start : Daemon := .new (ascii "a") (ascii "/d") .empty (fun _ => none)
      (Function.update (fun _ => none) (ascii "/d/f") (some [1]))
    ∃ d, run (step Hash.sample .fixed) start
        [.fileChange [ascii "f"] 0 ⟨fun _ => false, true⟩] = some d ∧
      ¬ d.node.Served Hash.sample := by
  intro start
  have hstate : (run (step Hash.sample .fixed) start
      [.fileChange [ascii "f"] 0 ⟨fun _ => false, true⟩]).map (fun d =>
        (d.node.index.getFileMeta (ascii "f"), d.node.objects (Hash.sample [1]))) =
      some (some ⟨ascii "f", Hash.sample [1], 1, [Hash.sample [1]], 1⟩, none) := by decide
  obtain ⟨d, hrun, hstate⟩ := Option.map_eq_some_iff.mp hstate
  obtain ⟨hm, hobject⟩ := Prod.mk.inj hstate
  refine ⟨d, hrun, fun hserved => ?_⟩
  obtain ⟨bytes, hbytes, -⟩ := hserved _ _ hm (Hash.sample [1]) List.mem_cons_self
  cases hobject.symm.trans hbytes

end Daemon

end NuSync
