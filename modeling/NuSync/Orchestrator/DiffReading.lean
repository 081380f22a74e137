import NuSync.Orchestrator.Pull

/-!
# What a diff means to the puller

A diff has no field that says "I do not have the file": `Pull` reads that off a root of length 0,
and `DiffMerkleTree` reads the same of the requester off a root that is not 32 bytes long. An
empty file has a root of 32 zero bytes and no chunks. `readDiff` is what `Pull` makes of an answer
(`select_peer_reads`, `pull_reads`), `difference` is what the answer is for, and
`diff_reading_agrees` says that they are the same for all entries on either side. Which of several
peers is taken therefore does not depend on what the puller has (`select_cluster`).
-/

namespace NuSync.Orchestrator

open NuSync.Go NuSync.Store NuSync.Control NuSync.Discovery

/-- What `Pull` makes of the answer to a diff request. -/
inductive DiffReading where
  | lacks
  | inSync
  | missing (hashes : List Bytes)
  deriving DecidableEq

/-- `Pull` looks at the length of the root, then at `IsSynced`, then at the missing chunks. -/
def readDiff (d : DiffResponse) : DiffReading :=
  if d.remoteMerkleRoot.length = 0 then .lacks
  else if d.isSynced then .inSync
  else .missing d.missingChunkHashes

/-- The chunks of the version a node has. -/
def chunksOf : Option FileMeta → List Hash
  | none => []
  | some m => m.chunkHashes

/-- What a requester should learn: whether the server has the file, whether the two versions are
the same, and which of the server's chunks it does not have. -/
def difference (requester server : Option FileMeta) : DiffReading :=
  match server with
  | none => .lacks
  | some m =>
      if requester.map FileMeta.merkleRoot = some m.merkleRoot then .inSync
      else .missing ((m.chunkHashes.filter fun hash => hash ∉ chunksOf requester).map Hash.bytes)

/-! ## How `Pull` reads an answer -/

section Reading

variable {sha256 : Bytes → Hash} {baseDir fileID : GoString} {env : PullEnv} {node : Node}
  {diff : DiffResponse} {m : FileMeta}

/-- The peer loop goes on from a peer that lacks the file, and otherwise asks it for the
metadata. -/
theorem select_peer_reads {req : DiffRequest} {httpAddr : GoString → Option GoString}
    {lastErr : Option PeerError} {peer : PeerInfo} {answer : PeerAnswer}
    {peers : List (PeerInfo × PeerAnswer)} (hconnects : answer.connects = true)
    (hdiff : answer.diff req = some diff) :
    selectPeer req httpAddr lastErr ((peer, answer) :: peers) =
      if readDiff diff = .lacks then selectPeer req httpAddr lastErr peers
      else
        match answer.fetchMeta with
        | none =>
            selectPeer req httpAddr
              (some (.fetchMeta ((httpAddr peer.grpcAddr).getD []))) peers
        | some rm => .ok (diff, rm.json) := by
  have hlacks : readDiff diff = .lacks ↔ diff.remoteMerkleRoot.length = 0 := by
    unfold readDiff
    split_ifs <;> simp_all
  rw [selectPeer]
  cases hmeta : answer.fetchMeta with
  | none => simp only [hconnects, Bool.true_eq_false, if_false, hdiff, hlacks]
  | some rm => simp only [hconnects, Bool.true_eq_false, if_false, hdiff, hlacks]

/-- The peer that is taken has the file. -/
theorem read_diff_of_select {req : DiffRequest} {httpAddr : GoString → Option GoString}
    {lastErr : Option PeerError} {peers : List (PeerInfo × PeerAnswer)}
    (hselect : selectPeer req httpAddr lastErr peers = .ok (diff, m)) :
    readDiff diff ≠ .lacks := by
  induction peers generalizing lastErr with
  | nil => cases hselect
  | cons head peers ih =>
      obtain ⟨peer, answer⟩ := head
      cases hconnects : answer.connects with
      | false =>
          rw [selectPeer, if_pos hconnects] at hselect
          exact ih hselect
      | true =>
          cases hdiff : answer.diff req with
          | none =>
              rw [selectPeer] at hselect
              simp only [hconnects, Bool.true_eq_false, if_false, hdiff] at hselect
              exact ih hselect
          | some d =>
              rw [select_peer_reads hconnects hdiff] at hselect
              split_ifs at hselect with hlacks
              · exact ih hselect
              · cases hmeta : answer.fetchMeta with
                | none =>
                    rw [hmeta] at hselect
                    exact ih hselect
                | some rm =>
                    rw [hmeta] at hselect
                    cases hselect
                    exact hlacks

/-- Once a peer is taken, the pull is over if the file is in sync, and otherwise downloads the
missing chunks. -/
theorem pull_reads (hselect : env.select fileID node.index = .ok (diff, m)) :
    pull sha256 baseDir fileID env node =
      match readDiff diff with
      | .missing hashes =>
          (env.fetchChunks sha256 hashes node.objects node.tracker).map fun (d, result) =>
            match result with
            | .error err => ⟨node.downloaded d, .error (.download err), none⟩
            | .ok () => env.finish baseDir fileID m (node.downloaded d)
      | _ => some ⟨node, .ok (), none⟩ := by
  have hpeers := length_peers_ne_zero hselect
  have hread := read_diff_of_select hselect
  unfold readDiff at hread ⊢
  split_ifs at hread ⊢ with hroot hsynced
  · exact absurd rfl hread
  · exact pull_of_synced hselect hsynced
  · rw [Bool.not_eq_true] at hsynced
    cases hfetch : env.fetchChunks sha256 diff.missingChunkHashes node.objects node.tracker with
    | none => simp [pull, hpeers, hselect, hsynced, hfetch]
    | some fetched =>
        obtain ⟨d, err | _⟩ := fetched
        · simp only [pull_of_failed hselect hsynced hfetch, hfetch, Option.map_some]
        · simp only [pull_of_fetched hselect hsynced hfetch, hfetch, Option.map_some]

end Reading

/-! ## The two sides agree -/

variable (index : BoltMetaStore) (fileID : GoString) (localMeta : Option FileMeta)

/-- The answer to the request made from an entry reads as the difference of the two versions. -/
theorem read_diff_eq :
    readDiff (diffMerkleTree index (diffRequest fileID localMeta)) =
      difference localMeta (index.getFileMeta fileID) := by
  cases hserver : index.getFileMeta fileID with
  | none =>
      rw [diff_absent hserver]
      rfl
  | some m =>
      have hroot := remote_root_ne_nil hserver localMeta
      rw [readDiff, if_neg hroot, difference]
      cases localMeta with
      | none => simp [diff_new hserver, chunksOf]
      | some known =>
          by_cases hsame : m.merkleRoot = known.merkleRoot
          · simp [diff_synced hserver hsame, hsame]
          · have hdiffer : (some known).map FileMeta.merkleRoot ≠ some m.merkleRoot := by
              simpa using Ne.symm hsame
            rw [diff_missing hserver hsame, if_neg hdiffer]
            rfl

variable {requester server : Option FileMeta}

theorem difference_eq_lacks_iff : difference requester server = .lacks ↔ server = none := by
  cases server with
  | none => simp [difference]
  | some m =>
      rw [difference]
      split_ifs <;> simp

theorem difference_eq_in_sync_iff :
    difference requester server = .inSync ↔ ∃ known m, requester = some known ∧
      server = some m ∧ known.merkleRoot = m.merkleRoot := by
  cases server with
  | none => simp [difference]
  | some m =>
      rw [difference]
      cases requester with
      | none => simp
      | some known =>
          split_ifs with hsame
          · simpa using hsame
          · simpa using hsame

/-- The requester's chunks and the missing ones include all of the server's. -/
theorem difference_covers {m : FileMeta} {hashes : List Bytes}
    (h : difference requester (some m) = .missing hashes) {hash : Hash}
    (hhash : hash ∈ m.chunkHashes) : hash ∈ chunksOf requester ∨ hash.bytes ∈ hashes := by
  rw [difference] at h
  split_ifs at h
  cases h
  by_cases hknown : hash ∈ chunksOf requester
  · exact .inl hknown
  · exact .inr (List.mem_map_of_mem (List.mem_filter.mpr ⟨hhash, by simpa using hknown⟩))

/-- **Diff and its client agree.** `Pull` takes the server for a node without the file exactly if
it has no entry, and the file for synced exactly if both have one and the roots are equal.
Otherwise the missing chunks are the server's, in order, without those of the requester's entry,
and the two together include every chunk of the server's version. -/
theorem diff_reading_agrees :
    let diff := diffMerkleTree index (diffRequest fileID localMeta)
    (readDiff diff = .lacks ↔ index.getFileMeta fileID = none) ∧
    (readDiff diff = .inSync ↔ ∃ known m, localMeta = some known ∧
      index.getFileMeta fileID = some m ∧ known.merkleRoot = m.merkleRoot) ∧
    (diff.isSynced = true ↔ readDiff diff = .inSync) ∧
    ∀ m, index.getFileMeta fileID = some m → diff.isSynced = false →
      readDiff diff = .missing diff.missingChunkHashes ∧
      diff.missingChunkHashes =
        (m.chunkHashes.filter fun hash => hash ∉ chunksOf localMeta).map Hash.bytes ∧
      ∀ hash ∈ m.chunkHashes,
        hash ∈ chunksOf localMeta ∨ hash.bytes ∈ diff.missingChunkHashes := by
  intro diff
  have hread : readDiff diff = difference localMeta (index.getFileMeta fileID) :=
    read_diff_eq index fileID localMeta
  have hsynced : diff.isSynced = true ↔ readDiff diff = .inSync := by
    rw [hread, difference_eq_in_sync_iff]
    cases hserver : index.getFileMeta fileID with
    | none => simp [diff, diff_absent hserver]
    | some m => simpa using is_synced_iff hserver localMeta
  refine ⟨hread ▸ difference_eq_lacks_iff, hread ▸ difference_eq_in_sync_iff, hsynced, ?_⟩
  intro m hserver hdiffer
  have hroot : diff.remoteMerkleRoot.length ≠ 0 := remote_root_ne_nil hserver localMeta
  have hmissing : readDiff diff = .missing diff.missingChunkHashes := by
    simp [readDiff, hroot, hdiffer]
  rw [hserver, hmissing] at hread
  refine ⟨hmissing, ?_, fun hash hhash => difference_covers hread.symm hhash⟩
  rw [difference] at hread
  split_ifs at hread
  exact DiffReading.missing.inj hread

/-! ## Which peer is taken -/

/-- A peer as long as it does not change: its index, whether its control plane can be connected to
and answers a diff, and whether its data plane answers a request for metadata. -/
structure ClusterPeer where
  info : PeerInfo
  index : BoltMetaStore
  connects : Bool
  diffs : Bool
  servesMeta : Bool

section Cluster

variable (fileID : GoString)

/-- What such a peer answers. -/
def ClusterPeer.answer (peer : ClusterPeer) : PeerAnswer where
  connects := peer.connects
  diff req := if peer.diffs then Control.diff peer.index req else none
  fetchMeta := if peer.servesMeta then peer.index.getFileMeta fileID else none

/-- The peer list of a pull with the answers of the cluster. -/
def clusterAnswers (cluster : List ClusterPeer) : List (PeerInfo × PeerAnswer) :=
  cluster.map fun peer => (peer.info, peer.answer fileID)

/-- The version a pull can get from a peer. -/
def ClusterPeer.offers (peer : ClusterPeer) : Option FileMeta :=
  if peer.connects ∧ peer.diffs ∧ peer.servesMeta then peer.index.getFileMeta fileID else none

/-- The first peer that offers a version. -/
def firstOffer (cluster : List ClusterPeer) : Option (ClusterPeer × FileMeta) :=
  cluster.findSome? fun peer => (peer.offers fileID).map fun m => (peer, m)

end Cluster

section Taken

variable {fileID : GoString} {cluster : List ClusterPeer}

theorem offers_of_first_offer {peer : ClusterPeer} {m : FileMeta}
    (h : firstOffer fileID cluster = some (peer, m)) : peer.index.getFileMeta fileID = some m := by
  obtain ⟨found, -, hfound⟩ := List.exists_of_findSome?_eq_some h
  obtain ⟨_, hoffers, heq⟩ := Option.map_eq_some_iff.mp hfound
  cases heq
  unfold ClusterPeer.offers at hoffers
  split_ifs at hoffers
  exact hoffers

theorem first_offer_cons_none {peer : ClusterPeer} (h : peer.offers fileID = none) :
    firstOffer fileID (peer :: cluster) = firstOffer fileID cluster := by
  simp [firstOffer, h]

theorem first_offer_cons_some {peer : ClusterPeer} {m : FileMeta}
    (h : peer.offers fileID = some m) : firstOffer fileID (peer :: cluster) = some (peer, m) := by
  simp [firstOffer, h]

/-- **Which peer is taken does not depend on the local entry**: it is the first one that offers a
version. Protobuf carries only file IDs that are valid UTF-8. -/
theorem select_cluster (localMeta : Option FileMeta) (httpAddr : GoString → Option GoString)
    (lastErr : Option PeerError) {diff : DiffResponse} {m : FileMeta} :
    selectPeer (diffRequest fileID localMeta) httpAddr lastErr (clusterAnswers fileID cluster) =
        .ok (diff, m) ↔
      ValidUtf8 fileID ∧ ∃ peer, firstOffer fileID cluster = some (peer, m) ∧
        diffMerkleTree peer.index (diffRequest fileID localMeta) = diff := by
  induction cluster generalizing lastErr with
  | nil => simp [clusterAnswers, selectPeer, firstOffer]
  | cons peer cluster ih =>
      rw [clusterAnswers, List.map_cons, ← clusterAnswers]
      cases hconnects : (peer.answer fileID).connects with
      | false =>
          have hoffers : peer.offers fileID = none := by
            simp_all [ClusterPeer.offers, ClusterPeer.answer]
          rw [selectPeer, if_pos hconnects, ih, first_offer_cons_none hoffers]
      | true =>
          by_cases hdiffs : peer.diffs = true ∧ ValidUtf8 fileID
          · obtain ⟨hdiffs, hvalid⟩ := hdiffs
            have hdiff : (peer.answer fileID).diff (diffRequest fileID localMeta) =
                some (diffMerkleTree peer.index (diffRequest fileID localMeta)) := by
              simp [ClusterPeer.answer, hdiffs, Control.diff, hvalid]
            rw [select_peer_reads hconnects hdiff, read_diff_eq]
            cases hget : peer.index.getFileMeta fileID with
            | none =>
                rw [if_pos (difference_eq_lacks_iff.mpr rfl), ih,
                  first_offer_cons_none (by simp [ClusterPeer.offers, hget])]
            | some found =>
                rw [if_neg (mt difference_eq_lacks_iff.mp (by simp))]
                cases hmeta : peer.servesMeta with
                | false =>
                    simp only [ClusterPeer.answer, hmeta, Bool.false_eq_true, if_false]
                    rw [ih, first_offer_cons_none (by simp [ClusterPeer.offers, hmeta])]
                | true =>
                    have hoffers : peer.offers fileID = some found := by
                      simp_all [ClusterPeer.offers, ClusterPeer.answer]
                    simp only [ClusterPeer.answer, hmeta, if_true, hget,
                      BoltMetaStore.json_of_get hget, first_offer_cons_some hoffers]
                    simp [hvalid, and_comm]
          · have hdiff : (peer.answer fileID).diff (diffRequest fileID localMeta) = none := by
              simp_all [ClusterPeer.answer, Control.diff]
            rw [selectPeer, if_neg (by simp [hconnects]), hdiff]
            simp only [ih]
            by_cases hvalid : ValidUtf8 fileID
            · rw [first_offer_cons_none (by simp_all [ClusterPeer.offers])]
            · simp [hvalid]

end Taken

end NuSync.Orchestrator
