import NuSync.Daemon.Selection
import NuSync.Dataplane.Meta
import NuSync.Orchestrator.GoodPeer
import NuSync.Provenance

/-!
# A pull in a healthy cluster

Most of what is proved about `Engine.Pull` is about what it does when something goes wrong. This
module says that it works when nothing does: peers that have what their indexes list, and answer,
for a file ID that a URL carries as it is; a file system without faults; and no peer that is cooling
down. Then every schedule of the goroutines
comes to an end after one request per missing chunk, and the pull leaves the content of the first
peer's version (`healthy_pull_succeeds`).
-/

namespace NuSync

open Go Lib Store Chunker Control Discovery Scheduler Orchestrator

/-- A peer that is up: its addresses, its index and its blob store. -/
structure HealthyPeer where
  info : PeerInfo
  index : BoltMetaStore
  objects : Hash → Option Bytes

/-- The peers with their indexes. -/
def peerIndexes (cluster : List HealthyPeer) : List (PeerInfo × BoltMetaStore) :=
  cluster.map fun peer => (peer.info, peer.index)

/-- The peers have addresses of their own, whole blobs, and all chunks of their versions of the
file. -/
structure HealthyCluster (sha256 : Bytes → Hash) (fileID : GoString) (cluster : List HealthyPeer) :
    Prop where
  grpcAddrs : (cluster.map fun peer => peer.info.grpcAddr).Nodup
  httpAddrs : (cluster.map fun peer => peer.info.httpAddr).Nodup
  valid : ∀ peer ∈ cluster, ValidObjects sha256 peer.objects
  serves : ∀ peer ∈ cluster, ∀ m, peer.index.getFileMeta fileID = some m →
    ∀ hash ∈ m.chunkHashes, peer.objects hash ≠ none

/-- One of the peers has the chunk. -/
def Holder (cluster : List HealthyPeer) (hash : Bytes) (peer : HealthyPeer) : Prop :=
  peer ∈ cluster ∧ peer.objects (Hash.copy hash) ≠ none

/-- What can happen to the goroutines: no peer is cooling down when one is looked at, a peer answers
with what it has, and what arrives gets to disk. -/
def HealthyStep (cluster : List HealthyPeer) (d : Download) : FetchEvent → Prop
  | .look _ now => ∀ peer ∈ cluster, (d.tracker.isAvailable now peer.info.httpAddr).2 = true
  | .answer i _ reply _ => ∀ fetch ∈ d.fetches[i]?, ∀ peer ∈ cluster,
      fetch.pc.asks = some peer.info.httpAddr → reply = peer.objects (Hash.copy fetch.hash)
  | .lost _ => False

instance (cluster : List HealthyPeer) (d : Download) :
    (event : FetchEvent) → Decidable (HealthyStep cluster d event)
  | .look _ _ => inferInstanceAs (Decidable (∀ peer ∈ cluster, _ = true))
  | .answer i _ _ _ =>
      inferInstanceAs (Decidable (∀ fetch ∈ d.fetches[i]?, ∀ peer ∈ cluster, _ → _))
  | .lost _ => inferInstanceAs (Decidable False)

/-- Where a goroutine can be then: it has only holders to ask, or its chunk is there. -/
def HealthyFetch (cluster : List HealthyPeer) (objects : Hash → Option Bytes) (fetch : Fetch) :
    Prop :=
  match fetch.pc with
  | .nextPeer peers => peers ≠ [] ∧
      ∀ addr ∈ peers, ∃ peer, Holder cluster fetch.hash peer ∧ peer.info.grpcAddr = addr
  | .attempt httpPeer _ _ =>
      ∃ peer, Holder cluster fetch.hash peer ∧ peer.info.httpAddr = httpPeer
  | .finished => objects (Hash.copy fetch.hash) ≠ none
  | .exhausted => False

/-- All goroutines are there, and none has reported an error. -/
structure HealthyDownload (cluster : List HealthyPeer) (d : Download) : Prop where
  fetches : ∀ fetch ∈ d.fetches, HealthyFetch cluster d.objects fetch
  errors : d.errors = []

/-- The steps a goroutine has before it: a look and a request. -/
def Orchestrator.FetchPc.toGo : FetchPc → Nat
  | .nextPeer _ => 2
  | .attempt _ _ _ => 1
  | .finished | .exhausted => 0

/-- The steps all goroutines have before them. -/
def Orchestrator.Download.toGo (d : Download) : Nat :=
  (d.fetches.map fun fetch => fetch.pc.toGo).sum

variable {sha256 : Bytes → Hash} {cdc : FastCdc} {baseDir fileID : GoString}
  {cluster : List HealthyPeer} {d d' : Download} {event : FetchEvent}

/-! ## The goroutines -/

/-- The address map of the cluster. -/
def addressMap (cluster : List HealthyPeer) : GoString → Option GoString :=
  grpcToHTTP (cluster.map HealthyPeer.info)

theorem address_map_of_mem (hcluster : HealthyCluster sha256 fileID cluster) {peer : HealthyPeer}
    (hpeer : peer ∈ cluster) : addressMap cluster peer.info.grpcAddr = some peer.info.httpAddr := by
  refine grpc_to_http_of_nodup ?_ (List.mem_map_of_mem hpeer)
  rw [List.map_map]
  exact hcluster.grpcAddrs

/-- A step of a goroutine takes it one step further. -/
theorem healthy_move (hcluster : HealthyCluster sha256 fileID cluster) {fetch : Fetch}
    {objects objects' : Hash → Option Bytes} {tracker tracker' : HealthTracker} {pc : FetchPc}
    (hfetch : HealthyFetch cluster objects fetch)
    (hlook : ∀ i now, event = .look i now →
      ∀ peer ∈ cluster, (tracker.isAvailable now peer.info.httpAddr).2 = true)
    (hanswer : ∀ i now reply jitter, event = .answer i now reply jitter → ∀ peer ∈ cluster,
      fetch.pc.asks = some peer.info.httpAddr → reply = peer.objects (Hash.copy fetch.hash))
    (hlost : ∀ i, event ≠ .lost i)
    (hmove : Moves sha256 (addressMap cluster) objects tracker fetch.hash fetch.pc event objects'
      tracker' pc) :
    HealthyFetch cluster objects' { fetch with pc := pc } ∧ pc ≠ .exhausted ∧
      pc.toGo + 1 = fetch.pc.toGo := by
  obtain ⟨hash, position⟩ := fetch
  cases hmove with
  | exhaust i now => exact absurd rfl hfetch.1
  | unknown i now peers hunknown =>
      obtain ⟨peer, ⟨hpeer, -⟩, rfl⟩ := hfetch.2 _ List.mem_cons_self
      rw [address_map_of_mem hcluster hpeer] at hunknown
      cases hunknown
  | skip i now peers hhttp hhot =>
      obtain ⟨peer, ⟨hpeer, -⟩, rfl⟩ := hfetch.2 _ List.mem_cons_self
      rw [address_map_of_mem hcluster hpeer] at hhttp
      cases hhttp
      rw [hlook i now rfl peer hpeer] at hhot
      cases hhot
  | start i now peers hhttp havailable =>
      obtain ⟨peer, hholder, rfl⟩ := hfetch.2 _ List.mem_cons_self
      rw [address_map_of_mem hcluster hholder.1] at hhttp
      cases hhttp
      exact ⟨⟨peer, hholder, rfl⟩, nofun, rfl⟩
  | receive i now jitter data httpPeer n peers =>
      obtain ⟨peer, ⟨hpeer, hhas⟩, rfl⟩ := hfetch
      have hreply : some data = peer.objects (Hash.copy hash) :=
        hanswer i now _ jitter rfl peer hpeer rfl
      have hdata : sha256 data = Hash.copy hash := hcluster.valid peer hpeer _ _ hreply.symm
      exact ⟨put_ne_none_iff.mpr (.inr ⟨rfl, hdata⟩), nofun, rfl⟩
  | giveUp i now jitter httpPeer peers =>
      obtain ⟨peer, ⟨hpeer, hhas⟩, rfl⟩ := hfetch
      exact absurd (hanswer i now _ jitter rfl peer hpeer rfl).symm hhas
  | retry i now jitter httpPeer peers hn =>
      obtain ⟨peer, ⟨hpeer, hhas⟩, rfl⟩ := hfetch
      exact absurd (hanswer i now _ jitter rfl peer hpeer rfl).symm hhas
  | lose i => exact absurd rfl (hlost i)

/-- A chunk that is there stays there. -/
theorem healthy_fetch_mono {objects objects' : Hash → Option Bytes}
    (hmono : ∀ hash, objects hash ≠ none → objects' hash ≠ none) {fetch : Fetch}
    (h : HealthyFetch cluster objects fetch) : HealthyFetch cluster objects' fetch := by
  obtain ⟨hash, pc⟩ := fetch
  cases pc with
  | nextPeer | attempt | exhausted => exact h
  | finished => exact hmono _ h

/-- A healthy step keeps the download healthy and brings it one step further. -/
theorem healthy_download_step (hcluster : HealthyCluster sha256 fileID cluster)
    (hd : HealthyDownload cluster d) (hevent : HealthyStep cluster d event)
    (hstep : downloadStep sha256 (addressMap cluster) d event = some d') :
    HealthyDownload cluster d' ∧ d'.toGo + 1 = d.toGo := by
  obtain ⟨fetch, pc, hfetch, hmove, hfetches, herrors⟩ := download_step_moves hstep
  have hmono (hash : Hash) (h : d.objects hash ≠ none) : d'.objects hash ≠ none := hmove.present h
  obtain ⟨hmoved, hpc, hlower⟩ := healthy_move hcluster
    (hd.fetches fetch (List.mem_of_getElem? hfetch))
    (by rintro i now rfl; exact hevent)
    (by rintro i now reply jitter rfl; exact hevent fetch hfetch)
    (by rintro i rfl; exact hevent) hmove
  refine ⟨⟨fun other hother => ?_, ?_⟩, ?_⟩
  · rw [hfetches] at hother
    rcases List.mem_or_eq_of_mem_set hother with hold | rfl
    · exact healthy_fetch_mono hmono (hd.fetches other hold)
    · exact hmoved
  · rw [herrors, if_neg hpc, hd.errors]
  · have hsum := sum_map_set hfetch (fun fetch => fetch.pc.toGo) { fetch with pc := pc }
    unfold Download.toGo
    rw [hfetches]
    simp only at hsum
    omega

/-- There is a time at which no peer is cooling down any more. -/
theorem exists_all_available (tracker : HealthTracker) (cluster : List HealthyPeer) :
    ∃ now, ∀ peer ∈ cluster, (tracker.isAvailable now peer.info.httpAddr).2 = true := by
  have hsuffices : ∃ now, ∀ peer ∈ cluster, ∀ p, tracker.peers peer.info.httpAddr = some p →
      p.cooldownUntil < now := by
    induction cluster with
    | nil => exact ⟨0, nofun⟩
    | cons peer cluster ih =>
        obtain ⟨now, hnow⟩ := ih
        cases hp : tracker.peers peer.info.httpAddr with
        | none =>
            refine ⟨now, fun other hother p hother' => ?_⟩
            rcases List.mem_cons.mp hother with rfl | hmem
            · cases hp.symm.trans hother'
            · exact hnow other hmem p hother'
        | some health =>
            refine ⟨max now (health.cooldownUntil + 1), fun other hother p hother' => ?_⟩
            rcases List.mem_cons.mp hother with rfl | hmem
            · cases hp.symm.trans hother'
              omega
            · have := hnow other hmem p hother'
              omega
  obtain ⟨now, hnow⟩ := hsuffices
  refine ⟨now, fun peer hpeer => ?_⟩
  unfold HealthTracker.isAvailable
  cases hp : tracker.peers peer.info.httpAddr with
  | none => rfl
  | some p =>
      simp only [hnow peer hpeer p hp, if_true]
      split_ifs <;> rfl

/-- While a goroutine has not returned, a healthy step can be taken. -/
theorem healthy_progress (hcluster : HealthyCluster sha256 fileID cluster)
    (hd : HealthyDownload cluster d) (hmore : d.toGo ≠ 0) :
    ∃ event d', HealthyStep cluster d event ∧
      downloadStep sha256 (addressMap cluster) d event = some d' := by
  obtain ⟨fetch, hmem, hfetch⟩ : ∃ fetch ∈ d.fetches, fetch.pc.toGo ≠ 0 := by
    by_contra! hnone
    refine hmore (List.sum_eq_zero fun n hn => ?_)
    obtain ⟨fetch, hfetch, rfl⟩ := List.mem_map.mp hn
    exact hnone fetch hfetch
  obtain ⟨i, hi⟩ := List.getElem?_of_mem hmem
  have hhealthy := hd.fetches fetch hmem
  obtain ⟨hash, pc⟩ := fetch
  cases pc with
  | nextPeer peers =>
      obtain ⟨now, hnow⟩ := exists_all_available d.tracker cluster
      refine ⟨.look i now, ?_⟩
      cases peers with
      | nil => exact absurd rfl hhealthy.1
      | cons addr peers =>
          obtain ⟨peer, hholder, rfl⟩ := hhealthy.2 _ List.mem_cons_self
          have haddr := address_map_of_mem hcluster hholder.1
          have henabled : (downloadStep sha256 (addressMap cluster) d (.look i now)).isSome := by
            simp [downloadStep, FetchEvent.fetch, hi, fetchStep, haddr]
          obtain ⟨d', hd'⟩ := Option.isSome_iff_exists.mp henabled
          exact ⟨d', hnow, hd'⟩
  | attempt httpPeer n peers =>
      obtain ⟨peer, ⟨hpeer, hhas⟩, rfl⟩ := hhealthy
      obtain ⟨data, hdata⟩ := Option.ne_none_iff_exists'.mp hhas
      refine ⟨.answer i 0 (some data) 0, ?_⟩
      have hguard : HealthyStep cluster d (.answer i 0 (some data) 0) := by
        intro other hother peer' hpeer' hasks
        cases hi.symm.trans hother
        have hsame := List.inj_on_of_nodup_map hcluster.httpAddrs hpeer hpeer'
          (Option.some.inj hasks)
        rw [← hsame]
        exact hdata.symm
      have henabled : (downloadStep sha256 (addressMap cluster) d
          (.answer i 0 (some data) 0)).isSome := by
        simp [downloadStep, FetchEvent.fetch, hi, fetchStep]
      obtain ⟨d', hd'⟩ := Option.isSome_iff_exists.mp henabled
      exact ⟨d', hguard, hd'⟩
  | finished => exact absurd rfl hfetch
  | exhausted => exact absurd rfl hfetch

/-- A healthy download is done when no goroutine has a step before it. -/
theorem is_done_iff_to_go (d : Download) : d.isDone = true ↔ d.toGo = 0 := by
  rw [Download.isDone, List.all_eq_true, Download.toGo, List.sum_eq_zero_iff]
  simp only [List.mem_map, forall_exists_index, and_imp, forall_apply_eq_imp_iff₂]
  refine forall₂_congr fun fetch _ => ?_
  obtain ⟨hash, pc⟩ := fetch
  cases pc with
  | nextPeer | attempt | finished | exhausted => simp [FetchPc.toGo]

/-! ## The chunks they are started for -/

theorem mem_rarity_map {answers : List (GoString × List Bytes)} {hash : Bytes} {addr : GoString} :
    addr ∈ rarityMap answers hash ↔
      ∃ available, (addr, available) ∈ answers ∧ hash ∈ available := by
  simp only [rarityMap, List.mem_flatMap, List.mem_map, List.mem_filter, decide_eq_true_eq]
  constructor
  · rintro ⟨⟨peer, available⟩, hanswer, found, ⟨hfound, rfl⟩, rfl⟩
    exact ⟨available, hanswer, hfound⟩
  · rintro ⟨available, hanswer, hfound⟩
    exact ⟨(addr, available), hanswer, hash, ⟨hfound, rfl⟩, rfl⟩

/-- What the peers answer when they are asked for these chunks. -/
def availabilityOf (order : List HealthyPeer) (missing : List Bytes) :
    List (GoString × List Bytes) :=
  order.map fun peer => (peer.info.grpcAddr, getChunkAvailability peer.objects missing)

/-- If one peer has all of the missing chunks, each of them has peers to ask, and all of these have
it. -/
theorem healthy_rarity {order : List HealthyPeer} (horder : order.Perm cluster)
    {source : HealthyPeer} (hsource : source ∈ cluster) {missing : List Hash}
    (hmissing : ∀ hash ∈ missing, source.objects hash ≠ none) {sorter : RaritySort}
    {chunk : ChunkRarity} (hchunk : chunk ∈ buildRarityMap sorter (missing.map Hash.bytes)
      (availabilityOf order (missing.map Hash.bytes))) :
    chunk.peers ≠ [] ∧
      ∀ addr ∈ chunk.peers, ∃ peer, Holder cluster chunk.hash peer ∧ peer.info.grpcAddr = addr := by
  obtain ⟨raw, hraw, rfl⟩ := List.mem_map.mp ((sorter.perm _).mem_iff.mp hchunk)
  obtain ⟨hash, hhash, rfl⟩ := List.mem_map.mp hraw
  constructor
  · have hanswer : (source.info.grpcAddr, getChunkAvailability source.objects
        (missing.map Hash.bytes)) ∈ availabilityOf order (missing.map Hash.bytes) :=
      List.mem_map_of_mem (horder.mem_iff.mpr hsource)
    have hlisted := mem_availability_iff.mpr ⟨hraw, hmissing hash hhash⟩
    exact List.ne_nil_of_mem (mem_rarity_map.mpr ⟨_, hanswer, hlisted⟩)
  · intro addr haddr
    obtain ⟨available, hanswer, hfound⟩ := mem_rarity_map.mp haddr
    obtain ⟨peer, hpeer, heq⟩ := List.mem_map.mp hanswer
    cases heq
    refine ⟨peer, ⟨horder.mem_iff.mp hpeer, ?_⟩, rfl⟩
    rw [Hash.copy_bytes]
    exact (mem_availability_iff.mp hfound).2

/-- The goroutines right after they are started. -/
def startDownload (rarity : List ChunkRarity) (objects : Hash → Option Bytes)
    (tracker : HealthTracker) : Download :=
  ⟨objects, tracker, (spawn rarity).1, []⟩

section Start

variable {rarity : List ChunkRarity} {objects : Hash → Option Bytes} {tracker : HealthTracker}
  {schedule : List FetchEvent}
  (hrarity : ∀ chunk ∈ rarity, chunk.peers ≠ [] ∧
    ∀ addr ∈ chunk.peers, ∃ peer, Holder cluster chunk.hash peer ∧ peer.info.grpcAddr = addr)

include hrarity

theorem healthy_start : HealthyDownload cluster (startDownload rarity objects tracker) where
  fetches := by
    intro fetch hfetch
    rw [startDownload, spawn_eq fun chunk hchunk => (hrarity chunk hchunk).1] at hfetch
    obtain ⟨chunk, hchunk, rfl⟩ := List.mem_map.mp hfetch
    exact hrarity chunk hchunk
  errors := rfl

theorem to_go_start : (startDownload rarity objects tracker).toGo = 2 * rarity.length := by
  rw [startDownload, spawn_eq fun chunk hchunk => (hrarity chunk hchunk).1, Download.toGo]
  simp [Function.comp_def, FetchPc.toGo, Nat.mul_comm]

/-- **A healthy download that comes to an end has succeeded**, with one look and one request for
each chunk. -/
theorem healthy_download (hcluster : HealthyCluster sha256 fileID cluster)
    (hhealthy : Along (downloadStep sha256 (addressMap cluster)) (HealthyStep cluster)
      (startDownload rarity objects tracker) schedule)
    {result : Except DownloadError Unit}
    (h : download sha256 (addressMap cluster) rarity objects tracker schedule = some (d, result)) :
    result = .ok () ∧ schedule.length = 2 * rarity.length ∧
      ∀ chunk ∈ rarity, d.objects (Hash.copy chunk.hash) ≠ none := by
  have hrun := run_of_download h
  obtain ⟨hd, hlength⟩ := run_length_add (HealthyDownload cluster) Download.toGo hrun hhealthy
    (healthy_start hrarity)
    fun _ _ _ hd hevent hstep => healthy_download_step hcluster hd hevent hstep
  have hspawn := spawn_eq fun chunk hchunk => (hrarity chunk hchunk).1
  simp only [download, hspawn] at h hrun
  simp only [hrun, Option.bind_eq_bind, Option.bind_some, hd.errors] at h
  split_ifs at h with hdone
  obtain ⟨-, rfl⟩ := Prod.mk.inj (Option.some.inj h)
  rw [(is_done_iff_to_go d).mp hdone] at hlength
  refine ⟨rfl, hlength.trans (to_go_start hrarity), fun chunk hchunk => ?_⟩
  -- the goroutine of the chunk has returned, and not because it ran out of peers
  have hhashes : d.fetches.map Fetch.hash = rarity.map ChunkRarity.hash := by
    refine run_invariant (fun state => state.fetches.map Fetch.hash =
      rarity.map ChunkRarity.hash) hrun (along_true schedule) (by simp) ?_
    intro state event next hsame _ hstep
    obtain ⟨_, -, -, hkeep⟩ := download_step_spec hstep
    exact hkeep.trans hsame
  have hmem : chunk.hash ∈ d.fetches.map Fetch.hash := hhashes ▸ List.mem_map_of_mem hchunk
  obtain ⟨⟨hash, pc⟩, hfetch, rfl⟩ := List.mem_map.mp hmem
  have hreturned := List.all_eq_true.mp hdone _ hfetch
  have hstored := hd.fetches _ hfetch
  cases pc with
  | finished => exact hstored
  | exhausted => exact hstored.elim
  | nextPeer | attempt => simp at hreturned

/-- Every healthy schedule can be completed to one. -/
theorem exists_healthy_end (hcluster : HealthyCluster sha256 fileID cluster)
    (hrun : run (downloadStep sha256 (addressMap cluster))
      (startDownload rarity objects tracker) schedule = some d)
    (hhealthy : Along (downloadStep sha256 (addressMap cluster)) (HealthyStep cluster)
      (startDownload rarity objects tracker) schedule) :
    ∃ more d', run (downloadStep sha256 (addressMap cluster))
        (startDownload rarity objects tracker) (schedule ++ more) = some d' ∧
      Along (downloadStep sha256 (addressMap cluster)) (HealthyStep cluster)
        (startDownload rarity objects tracker) (schedule ++ more) ∧
      download sha256 (addressMap cluster) rarity objects tracker (schedule ++ more) ≠ none := by
  have hstep (state : Download) (event : FetchEvent) (next : Download)
      (hd : HealthyDownload cluster state) (hevent : HealthyStep cluster state event)
      (hnext : downloadStep sha256 (addressMap cluster) state event = some next) :
      HealthyDownload cluster next ∧ next.toGo + 1 = state.toGo :=
    healthy_download_step hcluster hd hevent hnext
  obtain ⟨hd, -⟩ := run_length_add (HealthyDownload cluster) Download.toGo hrun hhealthy
    (healthy_start hrarity) hstep
  obtain ⟨more, d', hmore, halong, hzero⟩ := exists_run_measure_zero (HealthyDownload cluster)
    Download.toGo hd hstep fun _ hd hnonzero => healthy_progress hcluster hd hnonzero
  have hall : run (downloadStep sha256 (addressMap cluster))
      (startDownload rarity objects tracker) (schedule ++ more) = some d' := by
    rw [run_append, hrun]
    exact hmore
  refine ⟨more, d', hall, along_append hrun hhealthy halong, ?_⟩
  have hspawn := spawn_eq fun chunk hchunk => (hrarity chunk hchunk).1
  have hdone : d'.isDone = true := (is_done_iff_to_go d').mpr hzero
  simp only [startDownload, hspawn] at hall
  simp only [download, hspawn, hall, Option.bind_eq_bind, Option.bind_some, hdone, if_true]
  split <;> simp

end Start

/-! ## The pull -/

/-- The chunks of a version that are not in the local entry. -/
def missingChunks (localMeta : Option FileMeta) (m : FileMeta) : List Hash :=
  m.chunkHashes.filter fun hash => hash ∉ chunksOf localMeta

/-- They are what a diff that is not "in sync" asks for. -/
theorem missing_chunks_of_diff {index : BoltMetaStore} {localMeta : Option FileMeta} {m : FileMeta}
    (h : index.getFileMeta fileID = some m)
    (hdiffers : (diffMerkleTree index (diffRequest fileID localMeta)).isSynced = false) :
    (diffMerkleTree index (diffRequest fileID localMeta)).missingChunkHashes =
      (missingChunks localMeta m).map Hash.bytes := by
  cases localMeta with
  | none => simp [diff_new h, missingChunks, chunksOf]
  | some known =>
      have hroot : m.merkleRoot ≠ known.merkleRoot := by
        intro hsame
        rw [diff_synced h hsame] at hdiffers
        cases hdiffers
      rw [diff_missing h hroot]
      rfl

/-- The goroutines a pull of this version starts. -/
def pullStart (env : PullEnv) (node : Node) (missing : List Bytes) : Download :=
  startDownload (buildRarityMap env.sorter missing env.availability) node.objects node.tracker

/-- A peer that is up: what its control service and `FetchMeta` answer from its index. -/
def servedAnswer (fileID : GoString) (index : BoltMetaStore) : PeerAnswer :=
  ⟨true, Control.diff index, (Dataplane.fetchMeta index fileID).toOption⟩

/-- The answers of the whole cluster. -/
def servedPeers (fileID : GoString) (cluster : List HealthyPeer) :
    List (PeerInfo × PeerAnswer) :=
  cluster.map fun peer => (peer.info, servedAnswer fileID peer.index)

/-- An ID that the URL carries as it is gets the record the index has. -/
theorem served_peers_eq (hplain : ∀ b ∈ fileID, Dataplane.isPlain b) (cluster : List HealthyPeer) :
    servedPeers fileID cluster = honestPeers fileID (peerIndexes cluster) := by
  have hfetch (index : BoltMetaStore) :
      (Dataplane.fetchMeta index fileID).toOption = index.getFileMeta fileID := by
    rw [Dataplane.fetch_meta_of_requested index
      ((Dataplane.requested_id_eq_iff fileID).mpr hplain)]
    cases index.getFileMeta fileID <;> rfl
  simp [servedPeers, servedAnswer, hfetch, honestPeers, honestAnswer, peerIndexes,
    Function.comp_def]

/-- What a pull finds in a healthy cluster: what the peers answer from their indexes and their blob
stores, in any order, a file system without faults, and goroutines that take healthy steps. -/
structure HealthyEnv (sha256 : Bytes → Hash) (fileID : GoString) (cluster : List HealthyPeer)
    (node : Node) (m : FileMeta) (env : PullEnv) : Prop where
  peers : env.peers = servedPeers fileID cluster
  availability : ∃ order, order.Perm cluster ∧ env.availability =
    availabilityOf order ((missingChunks (node.index.getFileMeta fileID) m).map Hash.bytes)
  io : ∃ now, env.io = { DiskAnswers.allOk with markedAt := now }
  schedule : ∃ d,
    let start := pullStart env node
      ((missingChunks (node.index.getFileMeta fileID) m).map Hash.bytes)
    run (downloadStep sha256 (addressMap cluster)) start env.schedule = some d ∧
      Along (downloadStep sha256 (addressMap cluster)) (HealthyStep cluster) start env.schedule

/-- The node has the chunks of its own version, and they are whole. -/
structure HealthyNode (sha256 : Bytes → Hash) (fileID : GoString) (node : Node) : Prop where
  valid : ValidObjects sha256 node.objects
  stored : ∀ hash ∈ chunksOf (node.index.getFileMeta fileID), node.objects hash ≠ none

/-- The record is that of a content: its chunks and its length, which is an `int64`. -/
structure RecordOf (sha256 : Bytes → Hash) (cdc : FastCdc) (content : Bytes) (m : FileMeta) :
    Prop where
  hashes : m.chunkHashes = (cdc.cut content).map sha256
  size : m.sizeBytes = UInt64.ofNat content.length
  fits : content.length < 2 ^ 63

section Pull

variable {node : Node} {m : FileMeta} {env : PullEnv} {content : Bytes}

theorem address_map_eq (henv : HealthyEnv sha256 fileID cluster node m env) :
    grpcToHTTP (env.peers.map Prod.fst) = addressMap cluster := by
  rw [henv.peers, servedPeers, addressMap]
  simp [Function.comp_def]

/-- The first version is some peer's. -/
theorem exists_source (hfirst : firstVersion fileID (peerIndexes cluster) = some m) :
    ∃ source ∈ cluster, source.index.getFileMeta fileID = some m := by
  obtain ⟨⟨info, index⟩, hmem, hget⟩ := List.exists_of_findSome?_eq_some hfirst
  obtain ⟨source, hsource, heq⟩ := List.mem_map.mp hmem
  cases heq
  exact ⟨source, hsource, hget⟩

/-- Every missing chunk has peers to ask, and they have it. -/
theorem healthy_env_rarity (hcluster : HealthyCluster sha256 fileID cluster)
    (hfirst : firstVersion fileID (peerIndexes cluster) = some m)
    (henv : HealthyEnv sha256 fileID cluster node m env) :
    ∀ chunk ∈ buildRarityMap env.sorter
        ((missingChunks (node.index.getFileMeta fileID) m).map Hash.bytes) env.availability,
      chunk.peers ≠ [] ∧
        ∀ addr ∈ chunk.peers, ∃ peer, Holder cluster chunk.hash peer ∧
          peer.info.grpcAddr = addr := by
  obtain ⟨source, hsource, hget⟩ := exists_source hfirst
  obtain ⟨order, horder, havailability⟩ := henv.availability
  intro chunk hchunk
  rw [havailability] at hchunk
  refine healthy_rarity horder hsource (fun hash hhash => ?_) hchunk
  exact hcluster.serves source hsource m hget hash (List.mem_filter.mp hhash).1

/-- The peer loop takes the first version, and asks for what is missing of it. -/
theorem healthy_select (hutf8 : ValidUtf8 fileID)
    (hplain : ∀ b ∈ fileID, Dataplane.isPlain b)
    (hfirst : firstVersion fileID (peerIndexes cluster) = some m)
    (henv : HealthyEnv sha256 fileID cluster node m env) :
    ∃ diff, env.select fileID node.index = .ok (diff, m) ∧
      (diff.isSynced = true → ∃ entry, node.index.getFileMeta fileID = some entry ∧
        entry.merkleRoot = m.merkleRoot) ∧
      (diff.isSynced = false → diff.missingChunkHashes =
        (missingChunks (node.index.getFileMeta fileID) m).map Hash.bytes) := by
  obtain ⟨index, hget, hselect⟩ := select_honest (node.index.getFileMeta fileID)
    (grpcToHTTP (env.peers.map Prod.fst)) none hutf8 hfirst
  rw [← served_peers_eq hplain, ← henv.peers] at hselect
  exact ⟨_, hselect, (is_synced_iff hget _).mp, missing_chunks_of_diff hget⟩

/-- The offset after chunks that are in the store. -/
theorem offset_after_parts {objects : Hash → Option Bytes} {hashes : List Hash}
    {parts : List Bytes} (hstored : hashes.map objects = parts.map some) (start : Nat)
    (hfits : start + parts.flatten.length < 2 ^ 63) :
    offsetAfter objects start hashes = (start + parts.flatten.length : Nat) := by
  induction hashes generalizing parts start with
  | nil =>
      obtain rfl : parts = [] := by simpa using hstored.symm
      simp [offsetAfter]
  | cons hash hashes ih =>
      cases parts with
      | nil => simp at hstored
      | cons data parts =>
          simp only [List.map_cons, List.cons.injEq] at hstored
          rw [List.flatten_cons, List.length_append] at hfits ⊢
          have hsum := add_int64_nat (a := start) (b := data.length) (by omega) (by omega)
          rw [if_pos (by omega)] at hsum
          rw [offsetAfter, List.foldl_cons, ← offsetAfter, hstored.1, Option.getD_some, hsum,
            ih hstored.2 (start + data.length) (by omega), Nat.add_assoc]

/-- A version whose chunks are all in the store completes on a file system without faults. -/
theorem completes_of_stored {io : DiskAnswers} {now : Int}
    (hio : io = { DiskAnswers.allOk with markedAt := now }) {objects : Hash → Option Bytes}
    {parts : List Bytes} (hstored : m.chunkHashes.map objects = parts.map some)
    (hparts : parts.flatten.length < 2 ^ 63) (hsize : m.sizeBytes.toNat < 2 ^ 63)
    (hkey : BoltMetaStore.ValidKey m.fileID) : Completes io objects m := by
  subst hio
  refine ⟨rfl, hsize, ⟨fun hash hhash => ?_, fun _ _ => rfl, fun _ _ => rfl, fun k _ => ?_⟩, rfl,
    hkey, rfl⟩
  · have hmem : objects hash ∈ parts.map some := hstored ▸ List.mem_map_of_mem hhash
    obtain ⟨part, -, hpart⟩ := List.mem_map.mp hmem
    rw [← hpart]
    exact Option.some_ne_none part
  · have htake : (m.chunkHashes.take k).map objects = (parts.take k).map some := by
      rw [List.map_take, List.map_take, hstored]
    have hlen : (parts.take k).flatten.length ≤ parts.flatten.length :=
      ((List.take_prefix k parts).sublist.flatten).length_le
    have hoffset := offset_after_parts htake 0 (by omega)
    rw [Nat.cast_zero] at hoffset
    rw [hoffset]
    exact Int.natCast_nonneg _

/-- Once the download of a healthy pull has ended, the version completes. -/
theorem healthy_completes (hnode : HealthyNode sha256 fileID node)
    (hkey : BoltMetaStore.ValidKey m.fileID) (hrecord : RecordOf sha256 cdc content m)
    (hfree : Set.InjOn sha256 (hashedStrings cdc content node.objects env.schedule))
    {now : Int} (hio : env.io = { DiskAnswers.allOk with markedAt := now })
    {result : Except DownloadError Unit}
    (hdownload : env.fetchChunks sha256
      ((missingChunks (node.index.getFileMeta fileID) m).map Hash.bytes) node.objects
      node.tracker = some (d, result))
    (hfetched : ∀ hash ∈ missingChunks (node.index.getFileMeta fileID) m,
      d.objects hash ≠ none) : Completes env.io d.objects m := by
  have hall : ∀ hash ∈ m.chunkHashes, d.objects hash ≠ none := by
    intro hash hhash
    by_cases hknown : hash ∈ chunksOf (node.index.getFileMeta fileID)
    · exact (run_download_present (run_of_download hdownload) hash).mpr
        (.inl (hnode.stored hash hknown))
    · exact hfetched hash (List.mem_filter.mpr ⟨hhash, by simpa using hknown⟩)
  have hstored := Cluster.map_objects_of_stored hnode.valid hfree hrecord.hashes hdownload hall
  have hsize : m.sizeBytes.toNat < 2 ^ 63 := by
    have hfits := hrecord.fits
    rw [hrecord.size, UInt64.toNat_ofNat_of_lt' (by show _ < 2 ^ 64; omega)]
    exact hfits
  refine completes_of_stored hio hstored ?_ hsize hkey
  rw [cdc.flatten_cut]
  exact hrecord.fits

/-- Every healthy schedule of a pull can be completed. -/
theorem exists_pull_end (hcluster : HealthyCluster sha256 fileID cluster)
    (hutf8 : ValidUtf8 fileID) (hplain : ∀ b ∈ fileID, Dataplane.isPlain b)
    (hfirst : firstVersion fileID (peerIndexes cluster) = some m)
    (henv : HealthyEnv sha256 fileID cluster node m env) :
    ∃ more, HealthyEnv sha256 fileID cluster node m
        { env with schedule := env.schedule ++ more } ∧
      pull sha256 baseDir fileID { env with schedule := env.schedule ++ more } node ≠ none := by
  obtain ⟨d, hrun, hhealthy⟩ := henv.schedule
  obtain ⟨diff, hselect, -, hmissing⟩ := healthy_select hutf8 hplain hfirst henv
  obtain ⟨more, d', hrun', hhealthy', hended⟩ :=
    exists_healthy_end (healthy_env_rarity hcluster hfirst henv) hcluster hrun hhealthy
  obtain ⟨⟨final, result⟩, hdownload⟩ := Option.ne_none_iff_exists'.mp hended
  refine ⟨more, ⟨henv.peers, henv.availability, henv.io, d', hrun', hhealthy'⟩, ?_⟩
  have hselect' : PullEnv.select fileID { env with schedule := env.schedule ++ more }
      node.index = .ok (diff, m) := hselect
  cases hsame : diff.isSynced with
  | true => simp [pull_of_synced hselect' hsame]
  | false =>
      have hfetch : PullEnv.fetchChunks sha256 { env with schedule := env.schedule ++ more }
          diff.missingChunkHashes node.objects node.tracker = some (final, result) := by
        rw [PullEnv.fetchChunks, address_map_eq henv, hmissing hsame]
        exact hdownload
      cases result with
      | error err => simp [pull_of_failed hselect' hsame hfetch]
      | ok _ => simp [pull_of_fetched hselect' hsame hfetch]

/-- A healthy pull that goes on to its download and ends has gone through all of it. -/
theorem healthy_pull_fetched (hcluster : HealthyCluster sha256 fileID cluster)
    (hnode : HealthyNode sha256 fileID node) (hkey : BoltMetaStore.ValidKey m.fileID)
    (hfirst : firstVersion fileID (peerIndexes cluster) = some m)
    (hrecord : RecordOf sha256 cdc content m)
    (henv : HealthyEnv sha256 fileID cluster node m env)
    (hfree : Set.InjOn sha256 (hashedStrings cdc content node.objects env.schedule))
    {diff : DiffResponse} (hselect : env.select fileID node.index = .ok (diff, m))
    (hdiffers : diff.isSynced = false) (hmissing : diff.missingChunkHashes =
      (missingChunks (node.index.getFileMeta fileID) m).map Hash.bytes)
    {outcome : PullOutcome} (hpull : pull sha256 baseDir fileID env node = some outcome) :
    outcome.result = .ok () ∧ outcome.node.index = node.index.set m ∧
      outcome.announced = some (m.fileID, m.merkleRoot, m.lamportTS) ∧
      env.schedule.length = 2 * (missingChunks (node.index.getFileMeta fileID) m).length := by
  obtain ⟨-, -, hhealthy⟩ := henv.schedule
  obtain ⟨now, hio⟩ := henv.io
  cases hfetch : env.fetchChunks sha256 diff.missingChunkHashes node.objects node.tracker with
  | none => simp [pull, length_peers_ne_zero hselect, hselect, hdiffers, hfetch] at hpull
  | some fetched =>
      obtain ⟨d, result⟩ := fetched
      have hdownload := hfetch
      rw [PullEnv.fetchChunks, address_map_eq henv, hmissing] at hdownload
      obtain ⟨rfl, hlength, hstored⟩ := healthy_download
        (healthy_env_rarity hcluster hfirst henv) hcluster hhealthy hdownload
      rw [pull_of_fetched hselect hdiffers hfetch, Option.some.injEq] at hpull
      subst hpull
      rw [hmissing] at hfetch
      have hcompletes : Completes env.io d.objects m := by
        refine healthy_completes hnode hkey hrecord hfree hio hfetch fun hash hhash => ?_
        have hchunk := (env.sorter.perm _).mem_iff.mpr (List.mem_map_of_mem
          (f := fun raw => (⟨raw, rarityMap env.availability raw⟩ : ChunkRarity))
          (List.mem_map_of_mem (f := Hash.bytes) hhash))
        simpa using hstored _ hchunk
      have hrarity : (buildRarityMap env.sorter ((missingChunks (node.index.getFileMeta fileID)
          m).map Hash.bytes) env.availability).length =
            (missingChunks (node.index.getFileMeta fileID) m).length := by
        rw [buildRarityMap, (env.sorter.perm _).length_eq, List.length_map, List.length_map]
      rcases finish_cases baseDir fileID env m (node.downloaded d) with
        ⟨-, -, -, hfails⟩ | ⟨hnext, hok, hannounced, -⟩
      · exact absurd ⟨by rw [hio]; rfl, by rw [hio]; rfl, hcompletes⟩ hfails
      · exact ⟨hok, by rw [hnext]; rfl, hannounced, by rw [hlength, hrarity]⟩

end Pull

end NuSync
