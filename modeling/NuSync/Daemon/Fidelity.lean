import NuSync.Daemon.Handlers

/-!
# What a successful pull leaves behind

A file indexed at one node and pulled at another arrives byte for byte, whatever the puller had
before and whatever bytes peers send (`pull_content_eq`). The store only takes bytes that hash
to the name they are put under, so without collisions every chunk read back from it is the chunk
that was cut, and the assembly loop writes the chunks end to end.
-/

namespace NuSync

open Go Lib Store Chunker Merkle Assembler Control Discovery Orchestrator

/-! ## The file the assembly loop writes -/

/-- The loop writes its next chunk right after the ones it has written. -/
theorem write_chunks_cons {objects : Hash → Option Bytes} {io : DiskAnswers}
    {front : List Bytes} {hash : Hash} {data : Bytes} (hread : io.readChunk front.length = true)
    (hwrite : io.writeChunk front.length = none) (hdata : objects hash = some data)
    (fileID : GoString) (hashes : List Hash) (zeros : Nat) :
    writeChunks objects io fileID front.length front.flatten.length
        (partlyWritten front (hashes.length + 1) zeros) (hash :: hashes) =
      writeChunks objects io fileID (front ++ [data]).length
        (addInt64 front.flatten.length data.length)
        (partlyWritten (front ++ [data]) hashes.length (zeros - data.length)) hashes := by
  rw [writeChunks]
  simp only [hread, hwrite, if_true, Store.get, hdata, write_chunk_next, List.length_append,
    List.length_singleton]

/-- The loop writes its chunks one after the other. That it succeeds also bounds their total
length, because an offset that wraps around makes the next write fail. -/
theorem write_chunks_content {objects : Hash → Option Bytes} {io : DiskAnswers}
    {fileID : GoString} {hashes : List Hash} (front : List Bytes) {parts : List Bytes} {zeros : Nat}
    {sparse : SparseFile} (hstored : hashes.map objects = parts.map some)
    (hlen : ∀ part ∈ parts, part.length < 2 ^ 63) (hfront : front.flatten.length < 2 ^ 63)
    (hloop : writeChunks objects io fileID front.length front.flatten.length
      (partlyWritten front hashes.length zeros) hashes = (sparse, .ok ())) :
    sparse.bytes = (front ++ parts).flatten ++ List.replicate (zeros - parts.flatten.length) 0 ∧
      (front ++ parts).flatten.length < 2 ^ 64 := by
  induction hashes generalizing front parts zeros with
  | nil =>
      obtain rfl : parts = [] := by simpa using hstored.symm
      cases hloop
      exact ⟨by simp [partlyWritten], by rw [List.append_nil]; omega⟩
  | cons hash hashes ih =>
      cases parts with
      | nil => simp at hstored
      | cons data parts =>
          simp only [List.map_cons, List.cons.injEq] at hstored
          obtain ⟨hdata, hrest⟩ := hstored
          have hwritable := (write_chunks_partly_ok_iff objects io fileID front _ zeros
            (hash :: hashes)).mp (congrArg Prod.snd hloop)
          obtain ⟨hread, hwrite, -, -⟩ := writable_cons.mp hwritable
          rw [List.length_cons, write_chunks_cons hread hwrite hdata] at hloop
          have hflat : (front ++ [data]).flatten.length = front.flatten.length + data.length := by
            simp
          have hsplit : front ++ data :: parts = (front ++ [data]) ++ parts := by simp
          have hsum := add_int64_nat hfront (hlen data (by simp))
          split_ifs at hsum with hfits
          · rw [hsum, ← hflat] at hloop
            obtain ⟨hbytes, htotal⟩ := ih _ hrest (fun p hp => hlen p (by simp [hp]))
              (hflat ▸ hfits) hloop
            refine ⟨?_, hsplit ▸ htotal⟩
            rw [hbytes, hsplit]
            simp [Nat.sub_sub]
          · -- the offset has wrapped around, so this was the last chunk
            have hlast := (write_chunks_partly_ok_iff objects io fileID (front ++ [data]) _ _
              hashes).mp (congrArg Prod.snd hloop)
            cases hashes with
            | cons next hashes => exact absurd (writable_cons.mp hlast).2.2.1 (not_le.mpr hsum)
            | nil =>
                obtain rfl : parts = [] := by simpa using hrest.symm
                cases hloop
                have hdata := hlen data (by simp)
                exact ⟨by simp [partlyWritten], by omega⟩

/-! ## From file to file -/

/-- The byte strings that are hashed when a file is chunked at one node and pulled at another:
the chunks, the blobs the puller has, and the bytes peers send it. -/
def hashedStrings (cdc : FastCdc) (content : Bytes) (objects : Hash → Option Bytes)
    (schedule : List FetchEvent) : Set Bytes :=
  { bytes | bytes ∈ cdc.cut content ∨ (∃ hash, objects hash = some bytes) ∨
    ∃ event ∈ schedule, event.received = some bytes }

/-- After the download, what the store has under the hash of a chunk is that chunk. -/
theorem chunk_of_stored {sha256 : Bytes → Hash} {cdc : FastCdc} {content part bytes : Bytes}
    {objects : Hash → Option Bytes} {env : PullEnv} {missing : List Bytes}
    {tracker : Scheduler.HealthTracker} {d : Download} {result : Except DownloadError Unit}
    (hvalid : ValidObjects sha256 objects)
    (hfree : Set.InjOn sha256 (hashedStrings cdc content objects env.schedule))
    (hdownload : env.fetchChunks sha256 missing objects tracker = some (d, result))
    (hpart : part ∈ cdc.cut content) (hbytes : d.objects (sha256 part) = some bytes) :
    bytes = part := by
  rcases run_download_object (run_of_download hdownload) hbytes with
    hold | ⟨hmatch, event, hevent, hreceived⟩
  · exact hfree (.inr (.inl ⟨_, hold⟩)) (.inl hpart) (hvalid _ _ hold)
  · exact hfree (.inr (.inr ⟨event, hevent, hreceived⟩)) (.inl hpart) hmatch

/-- The record `HandleFileChange` makes of a file lists the hashes of its chunks and its length. -/
theorem change_record {sha256 : Bytes → Hash} {cdc : FastCdc} {d : Daemon} {path : GoString}
    {now : Int} {io : Daemon.IndexAnswers} {content : Bytes} {m : FileMeta}
    (hfile : d.node.disk (clean path) = some content)
    (hindexed : (d.handleFileChange sha256 cdc path now io).2 = some m) :
    m.chunkHashes = (cdc.cut content).map sha256 ∧
      m.sizeBytes = UInt64.ofNat content.length := by
  obtain ⟨quiet, hskip | ⟨read, hread, -, hchange⟩⟩ :=
    d.handle_file_change_cases sha256 cdc path now io
  · rw [hskip] at hindexed
    cases hindexed
  · obtain rfl : content = read := by rwa [hfile, Option.some.injEq] at hread
    rw [hchange, Option.some.injEq] at hindexed
    subst hindexed
    exact ⟨map_hash_chunks_from sha256 0 0 _,
      (Daemon.total_size_chunks_from sha256 0 0 _).trans (by rw [cdc.flatten_cut])⟩

/-- **End to end.** A file that one node indexed and another one pulled through assembly has the
content, the length and the index entry it had at the first, when no two byte strings hashed in
the run collide. -/
theorem pull_content_eq {sha256 : Bytes → Hash} {cdc : FastCdc} {origin : Daemon}
    {path : GoString} {now : Int} {io : Daemon.IndexAnswers} {content : Bytes} {m : FileMeta}
    {baseDir fileID : GoString} {env : PullEnv} {node : Node} {diff : DiffResponse}
    {outcome : PullOutcome} (hfile : origin.node.disk (clean path) = some content)
    (hindexed : (origin.handleFileChange sha256 cdc path now io).2 = some m)
    (hid : m.fileID = fileID) (hvalid : ValidObjects sha256 node.objects)
    (hfree : Set.InjOn sha256 (hashedStrings cdc content node.objects env.schedule))
    (hselect : env.select fileID node.index = .ok (diff, m)) (hassembles : diff.isSynced = false)
    (hpull : pull sha256 baseDir fileID env node = some outcome)
    (hok : outcome.result = .ok ()) :
    outcome.node.disk (outPath baseDir fileID) = some content ∧
      content.length = m.sizeBytes.toNat ∧
      outcome.node.index.getFileMeta fileID = some m := by
  subst hid
  obtain ⟨hhashes, hsize⟩ := change_record hfile hindexed
  obtain ⟨_, _, hselect', ⟨hsynced, -⟩ |
    ⟨-, d, sparse, hdownload, hcompletes, hloop, hdisk, hindex⟩⟩ := pull_ok_cases hpull hok
  · cases hselect.symm.trans hselect'
    cases hassembles.symm.trans hsynced
  cases hselect.symm.trans hselect'
  -- every chunk read from the store is the one that was cut
  have hstored : m.chunkHashes.map d.objects = (cdc.cut content).map some := by
    rw [hhashes, List.map_map]
    refine List.map_congr_left fun part hpart => ?_
    obtain ⟨bytes, hbytes⟩ := Option.ne_none_iff_exists'.mp
      (hcompletes.chunks.stored (sha256 part) (by rw [hhashes]; exact List.mem_map_of_mem hpart))
    exact hbytes.trans (congrArg some (chunk_of_stored hvalid hfree hdownload hpart hbytes))
  have hlen : ∀ part ∈ cdc.cut content, part.length < 2 ^ 63 := fun part hpart => by
    have := cdc.length_cut_le content part hpart
    unfold maxSize avgSize at this
    omega
  obtain ⟨hbytes, htotal⟩ := write_chunks_content [] hstored hlen (by simp) hloop
  rw [List.nil_append, cdc.flatten_cut] at hbytes htotal
  have hlength : content.length = m.sizeBytes.toNat := by
    rw [hsize, UInt64.toNat_ofNat_of_lt' htotal]
  refine ⟨?_, hlength, ?_⟩
  · rw [hdisk, hbytes, hlength, Nat.sub_self, List.replicate_zero, List.append_nil]
  · obtain ⟨_, -, rm, -, hjson⟩ := select_peer_mem hselect
    rw [hindex, BoltMetaStore.get_set_self, hjson, FileMeta.json_json]

/-- A file of three bytes, pulled by a node that has nothing. -/
theorem pull_content_eq_small_file :
    let chunk : Bytes := [1, 2, 3]
    let origin := Daemon.new (ascii "a") (ascii "dir") .empty (fun _ => none)
      (Function.update (fun _ => none) (ascii "dir/f") (some chunk))
    let m : FileMeta := ⟨ascii "f", Hash.sample chunk, 1, [Hash.sample chunk], 3⟩
    let peer : PeerInfo := ⟨ascii "a", ascii "10.0.0.2", 9100, 9000⟩
    let diff : DiffResponse := ⟨ascii "f", m.merkleRoot.bytes, false, [(Hash.sample chunk).bytes]⟩
    let env : PullEnv :=
      { peers := [(peer, ⟨true, fun _ => some diff, some m⟩)]
        availability := [(peer.grpcAddr, [(Hash.sample chunk).bytes])]
        sorter := .insertion
        schedule := [.look 0 0, .answer 0 0 (some chunk) 0]
        io := .allOk }
    let node : Node := ⟨.empty, fun _ => none, fun _ => none, .new, fun _ => none⟩
    (origin.handleFileChange Hash.sample .fixed (ascii "dir/f") 0 ⟨fun _ => true, true⟩).2 =
        some m ∧
      env.select (ascii "f") node.index = .ok (diff, m) ∧
      ∃ outcome, pull Hash.sample (ascii "b") (ascii "f") env node = some outcome ∧
        outcome.result = .ok () ∧
        outcome.node.disk (outPath (ascii "b") (ascii "f")) = some chunk ∧
        chunk.length = m.sizeBytes.toNat ∧
        outcome.node.index.getFileMeta (ascii "f") = some m := by
  intro chunk origin m peer diff env node
  have hindexed : (origin.handleFileChange Hash.sample .fixed (ascii "dir/f") 0
      ⟨fun _ => true, true⟩).2 = some m := by decide
  have hselect : env.select (ascii "f") node.index = .ok (diff, m) := by decide
  have hresult : (pull Hash.sample (ascii "b") (ascii "f") env node).map PullOutcome.result =
      some (.ok ()) := by decide
  obtain ⟨outcome, hpull, hok⟩ := Option.map_eq_some_iff.mp hresult
  refine ⟨hindexed, hselect, outcome, hpull, hok, ?_⟩
  -- only one byte string is hashed here
  have hfree : Set.InjOn Hash.sample (hashedStrings .fixed chunk node.objects env.schedule) := by
    have hone : ∀ bytes ∈ hashedStrings .fixed chunk node.objects env.schedule, bytes = chunk := by
      rintro bytes (hcut | ⟨_, hobject⟩ | ⟨event, hevent, hreceived⟩)
      · exact List.mem_singleton.mp hcut
      · cases hobject
      · simp only [env, List.mem_cons, List.not_mem_nil, or_false] at hevent
        rcases hevent with rfl | rfl
        · cases hreceived
        · exact (Option.some.inj hreceived).symm
    intro x hx y hy _
    rw [hone x hx, hone y hy]
  exact pull_content_eq (by decide) hindexed rfl (fun _ _ h => by cases h) hfree hselect rfl hpull
    hok

end NuSync
