import NuSync.Daemon.Handlers
import NuSync.Orchestrator.DiffReading

/-!
# Which version a pull settles on

A sync is started because one peer's version wins, but `Pull` takes the first peer in its list
that has the file at all and never looks at timestamps. `pull_keeps_winner_iff` says exactly for
which peer lists a successful pull cannot end with a version that loses against the one that
started it.
-/

namespace NuSync

open Go Store Control Discovery Scheduler Orchestrator

/-- A peer that is up and answers from its index. -/
def honestAnswer (fileID : GoString) (index : BoltMetaStore) : PeerAnswer :=
  ⟨true, Control.diff index, index.getFileMeta fileID⟩

/-- All peers are up and answer from their indexes. -/
def honestPeers (fileID : GoString) (cluster : List (PeerInfo × BoltMetaStore)) :
    List (PeerInfo × PeerAnswer) :=
  cluster.map fun (peer, index) => (peer, honestAnswer fileID index)

/-- The version of the first peer in the list that has the file. -/
def firstVersion (fileID : GoString) (cluster : List (PeerInfo × BoltMetaStore)) :
    Option FileMeta :=
  cluster.findSome? fun (_, index) => index.getFileMeta fileID

/-- A pull of this version can go through: its size is an `int64` and bbolt takes its ID. -/
def CanBeStored (m : FileMeta) : Prop :=
  m.sizeBytes.toNat < 2 ^ 63 ∧ BoltMetaStore.ValidKey m.fileID

instance (m : FileMeta) : Decidable (CanBeStored m) := inferInstanceAs (Decidable (_ ∧ _))

/-- With the local entry and the version of the first peer that has the file, a pull cannot end
below `winner`: either the two have the same root and the entry is not older, or they differ and
the first version is not older. -/
def SettlesAtLeast (localMeta : Option FileMeta) (first winner : FileMeta) : Prop :=
  (∃ entry, localMeta = some entry ∧ entry.merkleRoot = first.merkleRoot ∧
    winner.lamportTS ≤ entry.lamportTS) ∨
  ((∀ entry, localMeta = some entry → entry.merkleRoot ≠ first.merkleRoot) ∧
    (CanBeStored first → winner.lamportTS ≤ first.lamportTS))

/-! ## The peer that is taken -/

section Select

variable {fileID : GoString} {cluster : List (PeerInfo × BoltMetaStore)} {first : FileMeta}
  (localMeta : Option FileMeta) (httpAddr : GoString → Option GoString)
  (lastErr : Option PeerError)

/-- Honest peers are a cluster in which everything is up. -/
theorem honest_peers_eq (cluster : List (PeerInfo × BoltMetaStore)) :
    honestPeers fileID cluster = clusterAnswers fileID
      (cluster.map fun (peer, index) => ⟨peer, index, true, true, true⟩) := by
  simp [honestPeers, clusterAnswers, honestAnswer, ClusterPeer.answer, Function.comp_def]

/-- The first of them that has the file offers the first version. -/
theorem exists_first_offer (hfirst : firstVersion fileID cluster = some first) :
    ∃ peer, firstOffer fileID (cluster.map fun (peer, index) => ⟨peer, index, true, true, true⟩) =
      some (peer, first) := by
  induction cluster with
  | nil => cases hfirst
  | cons head cluster ih =>
      obtain ⟨peer, index⟩ := head
      rw [List.map_cons]
      cases hget : index.getFileMeta fileID with
      | none =>
          rw [first_offer_cons_none (by simp [ClusterPeer.offers, hget])]
          exact ih (by simpa [firstVersion, hget] using hfirst)
      | some m =>
          obtain rfl : m = first := by simpa [firstVersion, hget] using hfirst
          exact ⟨_, first_offer_cons_some (by simp [ClusterPeer.offers, hget])⟩

/-- Among honest peers the first one that has the file is taken. -/
theorem select_honest (hvalid : ValidUtf8 fileID)
    (hfirst : firstVersion fileID cluster = some first) :
    ∃ index : BoltMetaStore, index.getFileMeta fileID = some first ∧
      selectPeer (diffRequest fileID localMeta) httpAddr lastErr (honestPeers fileID cluster) =
        .ok (diffMerkleTree index (diffRequest fileID localMeta), first) := by
  obtain ⟨peer, hoffer⟩ := exists_first_offer hfirst
  refine ⟨peer.index, offers_of_first_offer hoffer, ?_⟩
  rw [honest_peers_eq, select_cluster]
  exact ⟨hvalid, peer, hoffer, rfl⟩

/-- A file ID that is not valid UTF-8 cannot be asked for. -/
theorem select_honest_invalid (cluster : List (PeerInfo × BoltMetaStore))
    (hinvalid : ¬ ValidUtf8 fileID) :
    ∃ err, selectPeer (diffRequest fileID localMeta) httpAddr lastErr
      (honestPeers fileID cluster) = .error err := by
  cases hselect : selectPeer (diffRequest fileID localMeta) httpAddr lastErr
      (honestPeers fileID cluster) with
  | error err => exact ⟨err, rfl⟩
  | ok selected =>
      rw [honest_peers_eq] at hselect
      exact absurd (select_cluster localMeta httpAddr lastErr |>.mp hselect).1 hinvalid

end Select

/-! ## A pull that goes through -/

theorem grpc_to_http_of_mem {peer : PeerInfo} {peers : List PeerInfo} (h : peer ∈ peers) :
    ∃ http, grpcToHTTP peers peer.grpcAddr = some http := by
  have hmem : peer ∈ peers.filter fun p => p.grpcAddr = peer.grpcAddr := by simp [h]
  rw [grpcToHTTP, List.getLast?_eq_some_getLast (List.ne_nil_of_mem hmem)]
  exact ⟨_, rfl⟩

/-- When one peer says it has every missing chunk, it is the first peer of each of them. -/
theorem build_rarity_map_single (sorter : RaritySort) {missing : List Bytes} {addr : GoString}
    {chunk : ChunkRarity} (h : chunk ∈ buildRarityMap sorter missing [(addr, missing)]) :
    ∃ rest, chunk.peers = addr :: rest := by
  obtain ⟨hash, hhash, rfl⟩ := List.mem_map.mp ((sorter.perm _).mem_iff.mp h)
  have hfound : hash ∈ missing.filter fun found => found = hash := by simp [hhash]
  obtain ⟨head, rest, hcons⟩ := List.exists_cons_of_ne_nil (List.ne_nil_of_mem hfound)
  exact ⟨List.replicate rest.length addr, by simp [rarityMap, hcons, List.replicate_succ]⟩

/-- A version that can be stored completes on a file system without faults if the store has
something, however short, under every hash. -/
theorem completes_of_full {m : FileMeta} (h : CanBeStored m) :
    Completes .allOk (fun _ => some []) m := by
  have hoffset : ∀ hashes, offsetAfter (fun _ => some []) 0 hashes = 0 := by
    intro hashes
    induction hashes with
    | nil => rfl
    | cons hash hashes ih =>
        rw [offsetAfter, List.foldl_cons, ← offsetAfter]
        simpa [addInt64] using ih
  exact ⟨rfl, h.1, ⟨by simp, fun _ _ => rfl, fun _ _ => rfl, fun _ _ => (hoffset _).ge⟩, rfl, h.2,
    rfl⟩

/-- If the first version differs from the local entry and can be stored, some pull from these
peers stores it. -/
theorem exists_pull_first (sha256 : Bytes → Hash) (baseDir : GoString) {fileID : GoString}
    {index : BoltMetaStore} {cluster : List (PeerInfo × BoltMetaStore)} {first : FileMeta}
    (hvalid : ValidUtf8 fileID) (hfirst : firstVersion fileID cluster = some first)
    (hdiffers : ∀ entry, index.getFileMeta fileID = some entry →
      entry.merkleRoot ≠ first.merkleRoot) (hstorable : CanBeStored first) :
    ∃ env node outcome, env.peers = honestPeers fileID cluster ∧ node.index = index ∧
      pull sha256 baseDir fileID env node = some outcome ∧ outcome.result = .ok () ∧
      outcome.node.index = index.set first := by
  obtain ⟨holder, hholder, hselect⟩ := select_honest (index.getFileMeta fileID)
    (grpcToHTTP ((honestPeers fileID cluster).map Prod.fst)) none hvalid hfirst
  have hsynced : (diffMerkleTree holder (diffRequest fileID (index.getFileMeta fileID))).isSynced =
      false := by
    rw [← Bool.not_eq_true, is_synced_iff hholder]
    rintro ⟨entry, hentry, hroot⟩
    exact hdiffers entry hentry hroot
  generalize diffMerkleTree holder (diffRequest fileID (index.getFileMeta fileID)) = diff
    at hselect hsynced
  -- the first peer in the list offers every missing chunk, and the store is full already
  obtain ⟨⟨peer, version⟩, hpeer, -⟩ := List.exists_of_findSome?_eq_some hfirst
  have hmem : peer ∈ (honestPeers fileID cluster).map Prod.fst := by
    simp only [honestPeers, List.map_map, List.mem_map]
    exact ⟨_, hpeer, rfl⟩
  obtain ⟨http, hhttp⟩ := grpc_to_http_of_mem hmem
  obtain ⟨schedule, d, hobjects, hdownload⟩ : ∃ schedule d, d.objects = (fun _ => some []) ∧
      download sha256 (grpcToHTTP ((honestPeers fileID cluster).map Prod.fst))
        (buildRarityMap .insertion diff.missingChunkHashes
          [(peer.grpcAddr, diff.missingChunkHashes)]) (fun _ => some []) .new schedule =
        some (d, .ok ()) := by
    refine exists_download (by simp) fun chunk hchunk => ?_
    obtain ⟨rest, hrest⟩ := build_rarity_map_single _ hchunk
    exact ⟨_, rest, http, hrest, hhttp⟩
  let env : PullEnv := ⟨honestPeers fileID cluster, [(peer.grpcAddr, diff.missingChunkHashes)],
    .insertion, schedule, .allOk⟩
  let node : Node := ⟨index, fun _ => some [], fun _ => none, .new, fun _ => none⟩
  have hpull : pull sha256 baseDir fileID env node =
      some (env.finish baseDir fileID first (node.downloaded d)) :=
    pull_of_fetched hselect hsynced hdownload
  rcases finish_cases baseDir fileID env first (node.downloaded d) with
    ⟨-, -, -, hstuck⟩ | ⟨hnode, hok, -⟩
  · refine absurd ⟨rfl, rfl, ?_⟩ hstuck
    show Completes .allOk d.objects first
    rw [hobjects]
    exact completes_of_full hstorable
  · exact ⟨env, node, _, rfl, rfl, hpull, hok, by rw [hnode]; rfl⟩

/-- The stored version of a file with a valid ID is read back as it is. -/
theorem get_set_version {fileID : GoString} {index store : BoltMetaStore} {m : FileMeta}
    (hvalid : ValidUtf8 fileID) (h : index.getFileMeta fileID = some m) :
    (store.set m).getFileMeta fileID = some m := by
  have hid : m.fileID = fileID := (BoltMetaStore.file_id_of_get h).trans hvalid
  rw [← hid, BoltMetaStore.get_set_self, BoltMetaStore.json_of_get h]

/-- A pull of a version whose root the local entry has does nothing and succeeds. -/
theorem exists_pull_synced (sha256 : Bytes → Hash) (baseDir : GoString) {fileID : GoString}
    {node : Node} {cluster : List (PeerInfo × BoltMetaStore)} {first entry : FileMeta}
    (hvalid : ValidUtf8 fileID) (hfirst : firstVersion fileID cluster = some first)
    (hentry : node.index.getFileMeta fileID = some entry)
    (hroot : entry.merkleRoot = first.merkleRoot) :
    ∃ env, env.peers = honestPeers fileID cluster ∧
      pull sha256 baseDir fileID env node = some ⟨node, .ok (), none⟩ := by
  obtain ⟨holder, hholder, hselect⟩ := select_honest (node.index.getFileMeta fileID)
    (grpcToHTTP ((honestPeers fileID cluster).map Prod.fst)) none hvalid hfirst
  exact ⟨⟨honestPeers fileID cluster, [], .insertion, [], .allOk⟩, rfl,
    pull_of_synced hselect ((is_synced_iff hholder _).mpr ⟨entry, hentry, hroot⟩)⟩

/-- What a successful pull from honest peers does: nothing if the entry has the root of the first
version, and otherwise it stores that version. -/
theorem pull_ok_first {sha256 : Bytes → Hash} {baseDir fileID : GoString} {env : PullEnv}
    {node : Node} {outcome : PullOutcome} {cluster : List (PeerInfo × BoltMetaStore)}
    {first : FileMeta} (hpeers : env.peers = honestPeers fileID cluster)
    (hfirst : firstVersion fileID cluster = some first)
    (hpull : pull sha256 baseDir fileID env node = some outcome) (hok : outcome.result = .ok ()) :
    ValidUtf8 fileID ∧
      ((∃ entry, node.index.getFileMeta fileID = some entry ∧
          entry.merkleRoot = first.merkleRoot ∧ outcome.node = node) ∨
        (∀ entry, node.index.getFileMeta fileID = some entry →
            entry.merkleRoot ≠ first.merkleRoot) ∧
          CanBeStored first ∧ outcome.node.index = node.index.set first) := by
  obtain ⟨diff, m, hselect, houtcome⟩ := pull_ok_cases hpull hok
  rw [PullEnv.select, hpeers] at hselect
  have hvalid : ValidUtf8 fileID := by
    by_contra hinvalid
    obtain ⟨err, herr⟩ := select_honest_invalid (node.index.getFileMeta fileID)
      (grpcToHTTP ((honestPeers fileID cluster).map Prod.fst)) none cluster hinvalid
    cases herr.symm.trans hselect
  obtain ⟨holder, hholder, hhonest⟩ := select_honest (node.index.getFileMeta fileID)
    (grpcToHTTP ((honestPeers fileID cluster).map Prod.fst)) none hvalid hfirst
  cases hhonest.symm.trans hselect
  refine ⟨hvalid, houtcome.imp ?_ ?_⟩
  · rintro ⟨hsynced, hnode⟩
    obtain ⟨entry, hentry, hroot⟩ := (is_synced_iff hholder _).mp hsynced
    exact ⟨entry, hentry, hroot, hnode⟩
  · rintro ⟨hsynced, d, sparse, -, hcompletes, -, -, hset⟩
    refine ⟨fun entry hentry hroot => ?_, ⟨hcompletes.size, hcompletes.key⟩, hset⟩
    cases ((is_synced_iff hholder _).mpr ⟨entry, hentry, hroot⟩).symm.trans hsynced

/-- **A pull started by a winning version cannot settle on a losing one, whatever happens during
the download, exactly if the first peer that has the file leaves it no choice.** -/
theorem pull_keeps_winner_iff (sha256 : Bytes → Hash) (baseDir : GoString) {fileID : GoString}
    {d : Daemon} {cluster : List (PeerInfo × BoltMetaStore)} {peer : PeerInfo}
    {index : BoltMetaStore} {winner : FileMeta} (hpeer : (peer, index) ∈ cluster)
    (hholds : index.getFileMeta fileID = some winner)
    (hwins : d.wants fileID winner.merkleRoot winner.lamportTS peer.name = true) :
    (∀ env node outcome, env.peers = honestPeers fileID cluster → node.index = d.node.index →
      pull sha256 baseDir fileID env node = some outcome → outcome.result = .ok () →
      ∃ now, outcome.node.index.getFileMeta fileID = some now ∧
        winner.lamportTS ≤ now.lamportTS ∧
        ∀ before, d.node.index.getFileMeta fileID = some before →
          before.lamportTS ≤ now.lamportTS) ↔
      (ValidUtf8 fileID → ∀ first, firstVersion fileID cluster = some first →
        SettlesAtLeast (d.node.index.getFileMeta fileID) first winner) := by
  constructor
  · intro hkeeps hvalid first hfirst
    by_cases hsame : ∃ entry, d.node.index.getFileMeta fileID = some entry ∧
        entry.merkleRoot = first.merkleRoot
    · obtain ⟨entry, hentry, hroot⟩ := hsame
      obtain ⟨env, hpeers, hpull⟩ := exists_pull_synced sha256 baseDir hvalid hfirst hentry hroot
      obtain ⟨now, hnow, hle, -⟩ := hkeeps env d.node _ hpeers rfl hpull rfl
      cases hentry.symm.trans hnow
      exact .inl ⟨_, hentry, hroot, hle⟩
    · push Not at hsame
      refine .inr ⟨hsame, fun hstorable => ?_⟩
      obtain ⟨env, node, outcome, hpeers, hindex, hpull, hok, hset⟩ :=
        exists_pull_first sha256 baseDir hvalid hfirst hsame hstorable
      obtain ⟨now, hnow, hle, -⟩ := hkeeps env node outcome hpeers hindex hpull hok
      obtain ⟨_, -, hfound⟩ := List.exists_of_findSome?_eq_some hfirst
      rw [hset, get_set_version hvalid hfound] at hnow
      cases hnow
      exact hle
  · intro hsettles env node outcome hpeers hindex hpull hok
    obtain ⟨first, hfirst⟩ : ∃ first, firstVersion fileID cluster = some first := by
      refine Option.ne_none_iff_exists'.mp fun hnone => ?_
      have := List.findSome?_eq_none_iff.mp hnone _ hpeer
      simp [hholds] at this
    rw [← hindex] at hsettles
    obtain ⟨hvalid, ⟨entry, hentry, hroot, hnode⟩ | ⟨hdiffers, hstorable, hset⟩⟩ :=
      pull_ok_first hpeers hfirst hpull hok
    · refine ⟨entry, by rw [hnode, hentry], ?_, fun before hbefore => ?_⟩
      · rcases hsettles hvalid first hfirst with ⟨_, hentry', -, hle⟩ | ⟨hdiffers, -⟩
        · cases hentry.symm.trans hentry'
          exact hle
        · exact absurd hroot (hdiffers entry hentry)
      · rw [← hindex] at hbefore
        cases hentry.symm.trans hbefore
        exact le_rfl
    · have hwinner : winner.lamportTS ≤ first.lamportTS := by
        rcases hsettles hvalid first hfirst with ⟨entry, hentry, hroot, -⟩ | ⟨-, hle⟩
        · exact absurd hroot (hdiffers entry hentry)
        · exact hle hstorable
      obtain ⟨_, -, hfound⟩ := List.exists_of_findSome?_eq_some hfirst
      refine ⟨first, by rw [hset, get_set_version hvalid hfound], hwinner,
        fun before hbefore => ?_⟩
      -- the winner beats what was there, and the first version is not older than the winner
      simp only [Daemon.wants, hbefore, Bool.and_eq_true] at hwins
      exact (Daemon.le_of_remote_wins hwins.2).trans hwinner

/-- The node `c` holds version 5 and hears of version 9 from `b`, its only peer: every pull that
succeeds stores version 9 or newer. -/
theorem pull_keeps_winner_single_peer :
    let mine : FileMeta := ⟨ascii "f", Hash.sample [2], 5, [], 0⟩
    let winner : FileMeta := ⟨ascii "f", Hash.sample [3], 9, [], 0⟩
    let d := Daemon.new (ascii "c") (ascii "dir") (.set .empty mine) (fun _ => none) (fun _ => none)
    let b : PeerInfo := ⟨ascii "b", ascii "10.0.0.2", 9100, 9000⟩
    d.wants (ascii "f") winner.merkleRoot winner.lamportTS b.name = true ∧
      ∀ env node outcome, env.peers = honestPeers (ascii "f") [(b, .set .empty winner)] →
        node.index = d.node.index →
        pull Hash.sample (ascii "dir") (ascii "f") env node = some outcome →
        outcome.result = .ok () →
        ∃ now, outcome.node.index.getFileMeta (ascii "f") = some now ∧
          winner.lamportTS ≤ now.lamportTS ∧
          ∀ before, d.node.index.getFileMeta (ascii "f") = some before →
            before.lamportTS ≤ now.lamportTS := by
  intro mine winner d b
  have hmine : d.node.index.getFileMeta (ascii "f") = some mine :=
    BoltMetaStore.get_set_valid _ (show ValidUtf8 mine.fileID by decide)
  have hwinner : (BoltMetaStore.set .empty winner).getFileMeta (ascii "f") = some winner :=
    BoltMetaStore.get_set_valid _ (show ValidUtf8 winner.fileID by decide)
  have hwins : d.wants (ascii "f") winner.merkleRoot winner.lamportTS b.name = true := by
    rw [Daemon.wants, hmine]
    decide
  refine ⟨hwins, (pull_keeps_winner_iff _ _ (List.mem_singleton.mpr rfl) hwinner hwins).mpr ?_⟩
  intro _ first hfirst
  obtain rfl : first = winner := by simpa [firstVersion, hwinner] using hfirst.symm
  refine .inr ⟨fun entry hentry => ?_, fun _ => le_rfl⟩
  rw [hmine] at hentry
  cases hentry
  decide

/-- The node `c` holds version 5 and hears of version 9 from `b`, but `a` comes first in its peer
list and still holds version 1: a pull succeeds and stores version 1. -/
theorem pull_adopts_older_version :
    let older : FileMeta := ⟨ascii "f", Hash.sample [1], 1, [], 0⟩
    let mine : FileMeta := ⟨ascii "f", Hash.sample [2], 5, [], 0⟩
    let winner : FileMeta := ⟨ascii "f", Hash.sample [3], 9, [], 0⟩
    let d := Daemon.new (ascii "c") (ascii "dir") (.set .empty mine) (fun _ => none) (fun _ => none)
    let a : PeerInfo := ⟨ascii "a", ascii "10.0.0.1", 9100, 9000⟩
    let b : PeerInfo := ⟨ascii "b", ascii "10.0.0.2", 9100, 9000⟩
    d.wants (ascii "f") winner.merkleRoot winner.lamportTS b.name = true ∧
      ∃ env node outcome,
        env.peers = honestPeers (ascii "f") [(a, .set .empty older), (b, .set .empty winner)] ∧
        node.index = d.node.index ∧
        pull Hash.sample (ascii "dir") (ascii "f") env node = some outcome ∧
        outcome.result = .ok () ∧
        outcome.node.index.getFileMeta (ascii "f") = some older := by
  intro older mine winner d a b
  have holder : (BoltMetaStore.set .empty older).getFileMeta (ascii "f") = some older :=
    BoltMetaStore.get_set_valid _ (show ValidUtf8 older.fileID by decide)
  have hmine : d.node.index.getFileMeta (ascii "f") = some mine :=
    BoltMetaStore.get_set_valid _ (show ValidUtf8 mine.fileID by decide)
  have hvalid : ValidUtf8 (ascii "f") := by decide
  have hfirst : firstVersion (ascii "f") [(a, .set .empty older), (b, .set .empty winner)] =
      some older := by simp [firstVersion, holder]
  have hdiffers : ∀ entry, d.node.index.getFileMeta (ascii "f") = some entry →
      entry.merkleRoot ≠ older.merkleRoot := by
    intro entry hentry
    rw [hmine] at hentry
    cases hentry
    decide
  refine ⟨by rw [Daemon.wants, hmine]; decide, ?_⟩
  obtain ⟨env, node, outcome, hpeers, hindex, hpull, hok, hset⟩ :=
    exists_pull_first Hash.sample (ascii "dir") hvalid hfirst hdiffers (by decide)
  refine ⟨env, node, outcome, hpeers, hindex, hpull, hok, ?_⟩
  rw [hset, get_set_version hvalid holder]

end NuSync
