import NuSync.Orchestrator.DiffReading
import NuSync.Orchestrator.Lifetime

/-!
# Pulling twice

A second pull from the same peers goes through the same loop with another request: it now sends a
root and known chunks. Whether a peer is passed over does not depend on them (`select_cluster`), so
the same peer is taken, and its root is the one that was stored. `pull_again_is_synced` says that
the second pull does nothing.
-/

namespace NuSync.Orchestrator

open NuSync.Go NuSync.Lib NuSync.Store NuSync.Control NuSync.Discovery

variable {sha256 : Bytes → Hash} {baseDir fileID : GoString} {cluster : List ClusterPeer}

/-- **Pulling twice is pulling once.** After a pull that went through assembly, and as long as the
peers stay as they are, a second pull from them returns without error, starts no goroutine, and
leaves the node as it is: along every schedule, and whatever the other peers, the availability and
the file system would have answered. -/
theorem pull_again_is_synced {env env' : PullEnv} {node : Node} {outcome : PullOutcome}
    (hpeers : env.peers = clusterAnswers fileID cluster)
    (hpeers' : env'.peers = clusterAnswers fileID cluster)
    (hpull : pull sha256 baseDir fileID env node = some outcome) (hok : outcome.result = .ok ())
    (hassembled : outcome.announced ≠ none) :
    pull sha256 baseDir fileID env' outcome.node = some ⟨outcome.node, .ok (), none⟩ ∧
      ∀ events s,
        run (liveStep sha256 baseDir fileID env') (.start outcome.node) events = some s →
        s.node = outcome.node ∧ s.fetches = [] ∧ fetchEvents events = [] := by
  rcases pull_cases hpull with ⟨err, rfl⟩ | ⟨diff, m, -, -, rfl⟩ | ⟨diff, m, d, err, -, -, -, rfl⟩ |
    ⟨diff, m, d, hselect, hsynced, -, rfl⟩
  · cases hok
  · exact absurd rfl hassembled
  · cases hok
  · rw [PullEnv.select, hpeers, select_cluster] at hselect
    obtain ⟨hvalid, peer, hoffer, -⟩ := hselect
    have hget := offers_of_first_offer hoffer
    have hid : m.fileID = fileID := (BoltMetaStore.file_id_of_get hget).trans hvalid
    -- the entry that was stored is the version of the peer that is taken again
    have hstored : (env.finish baseDir fileID m (node.downloaded d)).node.index.getFileMeta fileID =
        some m := by
      rcases finish_cases baseDir fileID env m (node.downloaded d) with
        ⟨-, ⟨err, herr⟩, -⟩ | ⟨hnode, -⟩
      · cases herr.symm.trans hok
      · rw [hnode, ← hid]
        exact BoltMetaStore.get_set_valid _ (hid ▸ hvalid)
    generalize (env.finish baseDir fileID m (node.downloaded d)).node = next at hstored ⊢
    have hagain : env'.select fileID next.index =
        .ok (diffMerkleTree peer.index (diffRequest fileID (some m)), m) := by
      rw [PullEnv.select, hstored, hpeers', select_cluster]
      exact ⟨hvalid, peer, hoffer, rfl⟩
    have hsame : (diffMerkleTree peer.index (diffRequest fileID (some m))).isSynced = true :=
      (is_synced_iff hget (some m)).mpr ⟨m, rfl, rfl⟩
    refine ⟨pull_of_synced hagain hsame, fun events s hrun => ?_⟩
    rcases live_run_synced hagain hsame hrun with ⟨rfl, rfl⟩ | ⟨rfl, rfl⟩
    · exact ⟨rfl, rfl, rfl⟩
    · exact ⟨rfl, rfl, rfl⟩

/-- A file of one chunk. -/
def sampleVersion : FileMeta := ⟨ascii "f", .sample [7], 1, [.sample [7]], 1⟩

/-- Peers that cannot be connected to, lack the file and do not serve its metadata, before one that
can be used. -/
def fourPeers : List ClusterPeer :=
  [⟨⟨ascii "a", ascii "a", 80, 81⟩, .empty, false, true, true⟩,
    ⟨⟨ascii "b", ascii "b", 80, 81⟩, .empty, true, true, true⟩,
    ⟨⟨ascii "c", ascii "c", 80, 81⟩, .set .empty sampleVersion, true, true, false⟩,
    ⟨⟨ascii "d", ascii "d", 80, 81⟩, .set .empty sampleVersion, true, true, true⟩]

theorem pull_again_from_four_peers :
    let env : PullEnv :=
      { peers := clusterAnswers (ascii "f") fourPeers
        availability := [(ascii "d:81", [(Hash.sample [7]).bytes])]
        sorter := .insertion
        schedule := [.look 0 0, .answer 0 0 (some [7]) 0]
        io := .allOk }
    let node : Node := ⟨.empty, fun _ => none, fun _ => none, .new, fun _ => none⟩
    ∃ outcome, pull .sample (ascii "dir") (ascii "f") env node = some outcome ∧
      outcome.result = .ok () ∧
      pull .sample (ascii "dir") (ascii "f") env outcome.node =
        some ⟨outcome.node, .ok (), none⟩ := by
  intro env node
  have hpull : (pull .sample (ascii "dir") (ascii "f") env node).map
      (fun outcome => (outcome.result, outcome.announced)) =
        some (.ok (), some (ascii "f", .sample [7], 1)) := by decide
  obtain ⟨outcome, hpull, houtcome⟩ := Option.map_eq_some_iff.mp hpull
  obtain ⟨hok, hannounced⟩ := Prod.mk.inj houtcome
  have hassembled : outcome.announced ≠ none := by simp [hannounced]
  exact ⟨outcome, hpull, hok, (pull_again_is_synced rfl rfl hpull hok hassembled).1⟩

end NuSync.Orchestrator
