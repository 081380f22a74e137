import NuSync.Daemon.Channels
import NuSync.Daemon.Selection
import NuSync.Daemon.Step
import NuSync.Lib.Pairwise

/-!
# Anti-entropy

Announcements get lost, and a node that was away has never heard them. What makes up for it is
`antiEntropyLoop`: each node compares its index with the catalogs of its peers, a few at a time,
and syncs what it finds outdated. An exchange is one call of `reconcileWithPeer` together with the
pulls it starts. Whatever the indexes have come to hold, ties included, exchanges alone bring all
nodes to one content for every file, and to one that was written with the greatest timestamp
(`anti_entropy_agrees`); what it takes is that every node reaches every other one again and again.
-/

namespace NuSync

open Go Lib Store Chunker Discovery Orchestrator

namespace Daemon

/-! ## What an exchange triggers -/

/-- The files for which `reconcileWithPeer` calls `triggerSync`. -/
theorem mem_reconcile_iff {peerName fileID : GoString} {catalog : List CatalogEntry} {d : Daemon} :
    fileID ∈ (d.reconcileWithPeer peerName catalog).2 ↔
      ∃ entry ∈ catalog, entry.fileID = fileID ∧ ext fileID ≠ ascii ".db" ∧
        d.Outdated peerName entry := by
  induction catalog generalizing d with
  | nil => simp [reconcileWithPeer]
  | cons entry catalog ih =>
      have hhead : (∃ entry' ∈ entry :: catalog, entry'.fileID = fileID ∧
          ext fileID ≠ ascii ".db" ∧ d.Outdated peerName entry') ↔
          (entry.fileID = fileID ∧ ext fileID ≠ ascii ".db" ∧ d.Outdated peerName entry) ∨
            fileID ∈ (d.reconcileWithPeer peerName catalog).2 := by
        rw [ih]
        simp only [List.mem_cons, exists_eq_or_imp]
      rw [hhead, reconcileWithPeer]
      split_ifs with hdb hwants
      · refine (or_iff_right ?_).symm
        rintro ⟨rfl, hne, -⟩
        exact hne hdb
      · have hlater : fileID ∈ ((d.observeTS entry.lamportTS).reconcileWithPeer peerName
            catalog).2 ↔ fileID ∈ (d.reconcileWithPeer peerName catalog).2 := by
          rw [ih, ih]
          simp only [outdated_observe_ts]
        rw [List.mem_cons, hlater]
        refine or_congr_left ⟨?_, fun h => h.1.symm⟩
        rintro rfl
        exact ⟨rfl, hdb, wants_iff_outdated.mp hwants⟩
      · refine (or_iff_right ?_).symm
        rintro ⟨-, -, houtdated⟩
        exact hwants (wants_iff_outdated.mpr houtdated)

/-- A file is being synced after a list of triggers if it was before or is in the list. -/
theorem mem_syncing_foldl {fileID : GoString} (files : List GoString) (d : Daemon) :
    fileID ∈ (files.foldl (fun d fileID => (d.triggerSync fileID).1) d).syncing ↔
      fileID ∈ d.syncing ∨ fileID ∈ files := by
  induction files generalizing d with
  | nil => simp
  | cons file files ih =>
      rw [List.foldl_cons, ih, List.mem_cons]
      unfold triggerSync
      split_ifs with hmem
      · constructor
        · rintro (h | h)
          · exact .inl h
          · exact .inr (.inr h)
        · rintro (h | rfl | h)
          · exact .inl h
          · exact .inl hmem
          · exact .inr h
      · simp only [List.mem_cons]
        tauto

/-- `reconcileWithPeer` starts no sync itself. -/
theorem reconcile_syncing (peerName : GoString) (catalog : List CatalogEntry) (d : Daemon) :
    (d.reconcileWithPeer peerName catalog).1.syncing = d.syncing := by
  induction catalog generalizing d with
  | nil => rfl
  | cons entry catalog ih =>
      have hobserve : (d.observeTS entry.lamportTS).syncing = d.syncing := by
        unfold observeTS
        split_ifs <;> rfl
      unfold reconcileWithPeer
      split_ifs
      · exact ih d
      · exact (ih _).trans hobserve
      · exact ih d

end Daemon

/-! ## The pulls an exchange starts -/

/-- The pulls in flight at a node end, in any order. The first peer each of them finds the file at
has the record of `peer`, and all of them succeed. -/
inductive Finishes (sha256 : Bytes → Hash) (cdc : FastCdc) (peer : BoltMetaStore) :
    Daemon → Daemon → Prop
  | done {d : Daemon} (h : d.syncing = []) : Finishes sha256 cdc peer d d
  | pull {d next final : Daemon} {fileID : GoString} (env : PullEnv)
      (peers : List (PeerInfo × BoltMetaStore)) {first : FileMeta} {outcome : PullOutcome}
      (hstep : d.step sha256 cdc (.pull fileID env) = some next)
      (hpeers : env.peers = honestPeers fileID peers)
      (hfirst : firstVersion fileID peers = some first)
      (hpeer : peer.getFileMeta fileID = some first)
      (hpull : Orchestrator.pull sha256 d.baseDir fileID env d.node = some outcome)
      (hok : outcome.result = .ok ())
      (hrest : Finishes sha256 cdc peer next final) : Finishes sha256 cdc peer d final

/-- The root in an index entry. -/
def rootOf (entry : Option FileMeta) : Option Hash := entry.map FileMeta.merkleRoot

/-- The timestamp in an index entry; a missing entry is below all timestamps. -/
def stampOf (entry : Option FileMeta) : WithBot UInt64 :=
  entry.elim ⊥ fun m => (m.lamportTS : WithBot UInt64)

/-- Every key of the index is valid UTF-8. -/
def ValidKeys (index : BoltMetaStore) : Prop :=
  ∀ key, index.getFileMeta key ≠ none → ValidUtf8 key

variable {sha256 : Bytes → Hash} {cdc : FastCdc} {peer : BoltMetaStore} {d d' : Daemon}

/-- **What the pulls in flight do to the index**: each file that was being synced has the root of
the peer's record, which it is if the roots differed; every other entry stays. -/
theorem Finishes.index (h : Finishes sha256 cdc peer d d') :
    (d'.name = d.name ∧ d'.syncing = []) ∧ ∀ fileID,
      (fileID ∉ d.syncing ∧ d'.node.index.getFileMeta fileID = d.node.index.getFileMeta fileID) ∨
      (fileID ∈ d.syncing ∧ ValidUtf8 fileID ∧ ∃ first, peer.getFileMeta fileID = some first ∧
        d'.node.index.getFileMeta fileID =
          if rootOf (d.node.index.getFileMeta fileID) = some first.merkleRoot
          then d.node.index.getFileMeta fileID else some first) := by
  induction h with
  | done hsyncing => exact ⟨⟨rfl, hsyncing⟩, fun fileID => .inl ⟨by simp [hsyncing], rfl⟩⟩
  | @pull d next final file env peers first outcome hstep hpeers hfirst hpeer hpull hok _ ih =>
      simp only [Daemon.step] at hstep
      split_ifs at hstep with hsyncing
      rw [hpull, Option.map_some, Option.some.injEq] at hstep
      subst hstep
      obtain ⟨⟨hname, hdone⟩, ih⟩ := ih
      refine ⟨⟨hname, hdone⟩, fun fileID => ?_⟩
      obtain ⟨hvalid, hindex⟩ := pull_ok_first hpeers hfirst hpull hok
      have hid : first.fileID = file := (BoltMetaStore.file_id_of_get hpeer).trans hvalid
      -- the index after this pull
      have hget (other : GoString) : outcome.node.index.getFileMeta other =
          if other = file ∧ rootOf (d.node.index.getFileMeta file) ≠ some first.merkleRoot
          then some first else d.node.index.getFileMeta other := by
        rcases hindex with ⟨entry, hentry, hroot, hnode⟩ | ⟨hdiffers, -, hset⟩
        · rw [if_neg fun h => h.2 (by rw [rootOf, hentry, Option.map_some, hroot]), hnode]
        · have hne : rootOf (d.node.index.getFileMeta file) ≠ some first.merkleRoot := by
            intro hsame
            obtain ⟨entry, hentry, hroot⟩ := Option.map_eq_some_iff.mp hsame
            exact hdiffers entry hentry hroot
          rw [hset, BoltMetaStore.get_set, hid,
            FileMeta.json_of_valid (show ValidUtf8 first.fileID by rw [hid]; exact hvalid)]
          simp [hne]
      by_cases hfile : fileID = file
      · subst hfile
        refine .inr ⟨hsyncing, hvalid, first, hpeer, ?_⟩
        rcases ih fileID with ⟨-, hsame⟩ | ⟨hmem, -⟩
        · rw [hsame]
          simp only [hget, true_and, ne_eq]
          split_ifs with hroot <;> simp_all
        · simp at hmem
      · have hmem : fileID ∈ d.syncing.filter (fun f => f ≠ file) ↔ fileID ∈ d.syncing := by
          simp [hfile]
        have hsame : outcome.node.index.getFileMeta fileID = d.node.index.getFileMeta fileID := by
          rw [hget, if_neg fun h => hfile h.1]
        simpa only [hmem, hsame] using ih fileID

/-! ## Exchanges -/

variable {n : Nat}

/-- Node `e.1` reconciles with node `e.2`, and the pulls this starts end. -/
def Exchanged (sha256 : Bytes → Hash) (cdc : FastCdc) (nodes : Fin n → Daemon)
    (e : Fin n × Fin n) (nodes' : Fin n → Daemon) : Prop :=
  e.1 ≠ e.2 ∧ ∃ middle final,
    let peer := nodes e.2
    (nodes e.1).step sha256 cdc (.reconcile peer.name peer.node.index.listCatalog) = some middle ∧
      Finishes sha256 cdc peer.node.index middle final ∧
      nodes' = Function.update nodes e.1 final

/-- Exchanges one after the other. -/
inductive Exchanges (sha256 : Bytes → Hash) (cdc : FastCdc) :
    (Fin n → Daemon) → List (Fin n × Fin n) → (Fin n → Daemon) → Prop
  | nil (nodes : Fin n → Daemon) : Exchanges sha256 cdc nodes [] nodes
  | cons {nodes middle final : Fin n → Daemon} {e : Fin n × Fin n} {events : List (Fin n × Fin n)}
      (hfirst : Exchanged sha256 cdc nodes e middle)
      (hrest : Exchanges sha256 cdc middle events final) :
      Exchanges sha256 cdc nodes (e :: events) final

/-- No pull is in flight, and the indexes have valid keys. -/
structure Idle (nodes : Fin n → Daemon) : Prop where
  syncing : ∀ i, (nodes i).syncing = []
  keys : ∀ i, ValidKeys (nodes i).node.index

/-- The entries for a file. -/
def entries (fileID : GoString) (nodes : Fin n → Daemon) (i : Fin n) : Option FileMeta :=
  (nodes i).node.index.getFileMeta fileID

variable {nodes nodes' : Fin n → Daemon} {e : Fin n × Fin n} {fileID : GoString}

/-- The peer's catalog has one entry for a file, that of its record. -/
theorem mem_catalog_iff (hkeys : ValidKeys peer) {entry : CatalogEntry} :
    entry ∈ peer.listCatalog ∧ entry.fileID = fileID ↔
      ∃ m, peer.getFileMeta fileID = some m ∧ m.catalogEntry = entry := by
  rw [BoltMetaStore.mem_list_catalog]
  constructor
  · rintro ⟨⟨key, m, hm, rfl⟩, rfl⟩
    have hvalid : ValidUtf8 key := hkeys key (by rw [hm]; exact Option.some_ne_none m)
    have hid : m.catalogEntry.fileID = key := (BoltMetaStore.file_id_of_get hm).trans hvalid
    exact ⟨m, by rw [hid]; exact hm, rfl⟩
  · rintro ⟨m, hm, rfl⟩
    have hvalid : ValidUtf8 fileID := hkeys fileID (by rw [hm]; exact Option.some_ne_none m)
    exact ⟨⟨fileID, m, hm, rfl⟩, (BoltMetaStore.file_id_of_get hm).trans hvalid⟩

/-- An outdated entry is one of other content that ranks below the peer's. -/
theorem outdated_iff {m : FileMeta} {fileID peerName : GoString} (hid : m.fileID = fileID) :
    d.Outdated peerName m.catalogEntry ↔
      rootOf (d.node.index.getFileMeta fileID) ≠ rootOf (some m) ∧
        toLex (stampOf (d.node.index.getFileMeta fileID), d.name) <
          toLex (stampOf (some m), peerName) := by
  subst hid
  simp only [Daemon.Outdated, FileMeta.catalogEntry]
  cases d.node.index.getFileMeta m.fileID with
  | none => simp [rootOf, stampOf, Prod.Lex.toLex_lt_toLex]
  | some own => simp [rootOf, stampOf, Prod.Lex.toLex_lt_toLex]

/-- The files a node syncs after it has looked at a peer's catalog. -/
theorem mem_syncing_reconcile (hsyncing : d.syncing = []) (hkeys : ValidKeys peer)
    {peerName : GoString}
    (h : d.step sha256 cdc (.reconcile peerName peer.listCatalog) = some d') :
    fileID ∈ d'.syncing ↔ ext fileID ≠ ascii ".db" ∧
      rootOf (d.node.index.getFileMeta fileID) ≠ rootOf (peer.getFileMeta fileID) ∧
        toLex (stampOf (d.node.index.getFileMeta fileID), d.name) <
          toLex (stampOf (peer.getFileMeta fileID), peerName) := by
  cases h
  rw [Daemon.mem_syncing_foldl, Daemon.reconcile_syncing, hsyncing, Daemon.mem_reconcile_iff]
  have hentry : (∃ entry ∈ peer.listCatalog, entry.fileID = fileID ∧ ext fileID ≠ ascii ".db" ∧
      d.Outdated peerName entry) ↔ ext fileID ≠ ascii ".db" ∧
        ∃ m, peer.getFileMeta fileID = some m ∧ d.Outdated peerName m.catalogEntry := by
    constructor
    · rintro ⟨entry, hentry, hid, hdb, houtdated⟩
      obtain ⟨m, hm, rfl⟩ := (mem_catalog_iff hkeys).mp ⟨hentry, hid⟩
      exact ⟨hdb, m, hm, houtdated⟩
    · rintro ⟨hdb, m, hm, houtdated⟩
      obtain ⟨hentry, hid⟩ := (mem_catalog_iff hkeys).mpr ⟨m, hm, rfl⟩
      exact ⟨m.catalogEntry, hentry, hid, hdb, houtdated⟩
  rw [hentry, or_iff_right (by simp)]
  refine and_congr_right fun _ => ?_
  cases hpeer : peer.getFileMeta fileID with
  | none =>
      -- nothing ranks below a missing entry but another one, and those have the same content
      cases hown : d.node.index.getFileMeta fileID with
      | none => simp
      | some own => simp [rootOf, stampOf, Prod.Lex.toLex_lt_toLex]
  | some m =>
      have hid : m.fileID = fileID :=
        (BoltMetaStore.file_id_of_get hpeer).trans (hkeys fileID (by simp [hpeer]))
      simp [outdated_iff hid]

/-- What a node is left with after it has reconciled with a peer. -/
theorem reconcile_index (hsyncing : d.syncing = []) (hkeys : ValidKeys peer) {peerName : GoString}
    {middle : Daemon}
    (h : d.step sha256 cdc (.reconcile peerName peer.listCatalog) = some middle)
    (hfinishes : Finishes sha256 cdc peer middle d') (fileID : GoString) :
    d'.node.index.getFileMeta fileID =
        (if fileID ∈ middle.syncing then peer.getFileMeta fileID
          else d.node.index.getFileMeta fileID) ∧
      (fileID ∈ middle.syncing → ValidUtf8 fileID) := by
  have hnode : middle.node = d.node := (Daemon.reconcile_step_advances h).node
  rcases hfinishes.index.2 fileID with ⟨hmem, hget⟩ | ⟨hmem, hvalid, first, hfirst, hget⟩
  · rw [if_neg hmem, hget, hnode]
    exact ⟨rfl, fun hin => absurd hin hmem⟩
  · obtain ⟨-, hroot, -⟩ := (mem_syncing_reconcile hsyncing hkeys h).mp hmem
    rw [hfirst] at hroot
    have hother : rootOf (d.node.index.getFileMeta fileID) ≠ some first.merkleRoot := hroot
    rw [if_pos hmem, hget, hnode, if_neg hother, hfirst]
    exact ⟨rfl, fun _ => hvalid⟩

/-- **An exchange is an exchange of replicas**, for every file that is not a `.db` file. -/
theorem exchanged_entries (hidle : Idle nodes) (h : Exchanged sha256 cdc nodes e nodes') :
    (∀ i, (nodes' i).name = (nodes i).name) ∧ Idle nodes' ∧
      ∀ fileID, ext fileID ≠ ascii ".db" → entries fileID nodes' =
        Pairwise.exchange rootOf stampOf (fun i => (nodes i).name) (entries fileID nodes) e := by
  obtain ⟨hne, middle, final, hreconcile, hfinishes, rfl⟩ := h
  have hindex := reconcile_index (hidle.syncing e.1) (hidle.keys e.2) hreconcile hfinishes
  obtain ⟨hname, hdone⟩ := hfinishes.index.1
  have hname : final.name = (nodes e.1).name :=
    hname.trans (Daemon.reconcile_step_advances hreconcile).name
  refine ⟨fun i => ?_, ⟨fun i => ?_, fun i key hkey => ?_⟩, fun fileID hdb => ?_⟩
  · rcases eq_or_ne i e.1 with rfl | hi
    · simp [hname]
    · simp [hi]
  · rcases eq_or_ne i e.1 with rfl | hi
    · simp [hdone]
    · simp [hi, hidle.syncing]
  · rcases eq_or_ne i e.1 with rfl | hi
    · rw [Function.update_self] at hkey
      obtain ⟨hget, hvalid⟩ := hindex key
      by_cases hmem : key ∈ middle.syncing
      · exact hvalid hmem
      · rw [hget, if_neg hmem] at hkey
        exact hidle.keys e.1 key hkey
    · rw [Function.update_of_ne hi] at hkey
      exact hidle.keys i key hkey
  · let name (i : Fin n) := (nodes i).name
    let held := entries fileID nodes
    have hwants : fileID ∈ middle.syncing ↔ rootOf (held e.1) ≠ rootOf (held e.2) ∧
        Pairwise.key stampOf name held e.1 < Pairwise.key stampOf name held e.2 :=
      (mem_syncing_reconcile (hidle.syncing e.1) (hidle.keys e.2) hreconcile).trans
        (and_iff_right hdb)
    funext i
    rcases eq_or_ne i e.1 with rfl | hi
    · rw [entries, Function.update_self, (hindex fileID).1, Pairwise.exchange]
      by_cases hmem : fileID ∈ middle.syncing
      · rw [if_pos hmem, if_pos (hwants.mp hmem), Function.update_self]
        rfl
      · rw [if_neg hmem, if_neg fun hcond => hmem (hwants.mpr hcond)]
        rfl
    · rw [entries, Function.update_of_ne hi, Pairwise.exchange]
      split_ifs
      · rw [Function.update_of_ne hi]
        rfl
      · rfl

/-- Exchanges one after the other are exchanges of replicas. -/
theorem exchanges_entries {events : List (Fin n × Fin n)} (hidle : Idle nodes)
    (h : Exchanges sha256 cdc nodes events nodes') (hdb : ext fileID ≠ ascii ".db") :
    entries fileID nodes' = events.foldl
      (Pairwise.exchange rootOf stampOf fun i => (nodes i).name) (entries fileID nodes) := by
  induction h with
  | nil => rfl
  | @cons nodes middle final e events hfirst _ ih =>
      obtain ⟨hnames, hmiddle, hentries⟩ := exchanged_entries hidle hfirst
      rw [ih hmiddle, hentries fileID hdb, List.foldl_cons]
      simp only [hnames]

/-! ## Every node ends with the last write -/

/-- **Anti-entropy brings a cluster together.** Whatever versions of a file the nodes hold, after
enough rounds in which every node has reconciled with every other one, in any order, all of them
have the same content, and it is one that was held with the greatest timestamp. -/
theorem anti_entropy_agrees (hnames : Function.Injective fun i => (nodes i).name)
    (hidle : Idle nodes) {rounds : List (List (Fin n × Fin n))}
    (hrounds : ∀ round ∈ rounds, Pairwise.Covers round)
    (hlen : (n * (n - 1) + 1) * n ≤ rounds.length)
    (hrun : Exchanges sha256 cdc nodes rounds.flatten nodes')
    (hdb : ext fileID ≠ ascii ".db") (hexists : ∃ i, entries fileID nodes i ≠ none) :
    ∃ w last, entries fileID nodes w = some last ∧
      (∀ i m, entries fileID nodes i = some m → m.lamportTS ≤ last.lamportTS) ∧
      ∀ i, ∃ m, entries fileID nodes' i = some m ∧ m.merkleRoot = last.merkleRoot := by
  have hentries := exchanges_entries hidle hrun hdb
  -- the timestamps in use
  let levels := Finset.univ.image fun i => stampOf (entries fileID nodes i)
  have hlevels (i : Fin n) : stampOf (entries fileID nodes i) ∈ levels :=
    Finset.mem_image_of_mem _ (Finset.mem_univ i)
  have hcard : levels.card ≤ n := Finset.card_image_le.trans (by simp)
  have hagree : Pairwise.Agree rootOf (entries fileID nodes') := by
    rw [hentries]
    refine Pairwise.agree_of_rounds hnames hlevels hrounds ?_
    rw [Fintype.card_fin]
    refine le_trans (Nat.mul_le_mul_right n (Nat.add_le_add_right ?_ 1)) hlen
    refine (Pairwise.missing_le hlevels).trans ?_
    rw [Fintype.card_fin]
    exact Nat.mul_le_mul_left n (Nat.sub_le_sub_right hcard 1)
  obtain ⟨i₀, hi₀⟩ := hexists
  obtain ⟨top, -, htop⟩ := Finset.exists_max_image Finset.univ
    (fun i => stampOf (entries fileID nodes i)) ⟨i₀, Finset.mem_univ i₀⟩
  -- the node with the greatest timestamp has kept it, in a version of the start
  obtain ⟨w, hw⟩ := Pairwise.exists_foldl_eq rootOf stampOf (fun i => (nodes i).name)
    (entries fileID nodes) rounds.flatten top
  rw [← hentries] at hw
  have hstamp : stampOf (entries fileID nodes top) ≤ stampOf (entries fileID nodes w) := by
    rw [← hw, hentries]
    exact Pairwise.level_le_foldl ..
  have hgreatest (i : Fin n) :
      stampOf (entries fileID nodes i) ≤ stampOf (entries fileID nodes w) :=
    (htop i (Finset.mem_univ i)).trans hstamp
  obtain ⟨last, hlast⟩ : ∃ last, entries fileID nodes w = some last := by
    obtain ⟨m, hm⟩ := Option.ne_none_iff_exists'.mp hi₀
    refine Option.ne_none_iff_exists'.mp fun hnone => ?_
    have hle := hgreatest i₀
    rw [hm, hnone] at hle
    simp [stampOf] at hle
  refine ⟨w, last, hlast, fun i m hm => ?_, fun i => ?_⟩
  · have hle := hgreatest i
    rw [hm, hlast] at hle
    simpa [stampOf] using hle
  · have hroot := hagree i top
    rw [hw, hlast] at hroot
    exact Option.map_eq_some_iff.mp hroot

/-- Exchanges that find nothing outdated. -/
theorem exchanges_unchanged {events : List (Fin n × Fin n)} (hidle : Idle nodes)
    (hnone : ∀ e ∈ events, e.1 ≠ e.2 ∧ (nodes e.1).step sha256 cdc
      (.reconcile (nodes e.2).name (nodes e.2).node.index.listCatalog) = some (nodes e.1)) :
    Exchanges sha256 cdc nodes events nodes := by
  induction events with
  | nil => exact .nil nodes
  | cons e events ih =>
      obtain ⟨hne, hstep⟩ := hnone e List.mem_cons_self
      refine .cons ⟨hne, _, _, hstep, .done (hidle.syncing e.1), ?_⟩
        (ih fun later hlater => hnone later (List.mem_cons_of_mem e hlater))
      rw [Function.update_eq_self]

/-- Two nodes that hold different contents with one timestamp. -/
def tiedNodes (i : Fin 2) : Daemon :=
  match i with
  | 0 => .new (ascii "a") (ascii "/c") (.set .empty ⟨ascii "f", .sample [1], 1, [], 0⟩)
      (fun _ => none) fun _ => none
  | 1 => .new (ascii "b") (ascii "/d") (.set .empty ⟨ascii "f", .zero, 1, [], 0⟩)
      (fun _ => none) fun _ => none

theorem idle_tied_nodes : Idle tiedNodes := by
  refine ⟨fun i => ?_, fun i key hkey => ?_⟩
  · match i with
    | 0 | 1 => rfl
  · have hkey : key = ascii "f" := by
      by_contra hne
      refine hkey ?_
      match i with
      | 0 | 1 => exact (BoltMetaStore.get_set_of_ne _ _ hne).trans rfl
    subst hkey
    decide

/-- The node with the smaller name takes over the content of the other one, and then nothing is
outdated any more. -/
theorem anti_entropy_agrees_tied : ∃ nodes' : Fin 2 → Daemon,
    Exchanges Hash.sample .fixed tiedNodes (List.replicate 6 [(0, 1), (1, 0)]).flatten nodes' ∧
      ∃ w last, entries (ascii "f") tiedNodes w = some last ∧
        (∀ i m, entries (ascii "f") tiedNodes i = some m → m.lamportTS ≤ last.lamportTS) ∧
        ∀ i, ∃ m, entries (ascii "f") nodes' i = some m ∧ m.merkleRoot = last.merkleRoot := by
  let info : PeerInfo := ⟨ascii "b", ascii "10.0.0.2", 9100, 9000⟩
  let peers := [(info, (tiedNodes 1).node.index)]
  let env : PullEnv := ⟨honestPeers (ascii "f") peers, [], .insertion, [], .allOk⟩
  obtain ⟨middle, final, hstep, hfinishes, hfinal, hother⟩ : ∃ middle final,
      (tiedNodes 0).step Hash.sample .fixed
        (.reconcile (tiedNodes 1).name (tiedNodes 1).node.index.listCatalog) = some middle ∧
      Finishes Hash.sample .fixed (tiedNodes 1).node.index middle final ∧
      final.step Hash.sample .fixed
        (.reconcile (tiedNodes 1).name (tiedNodes 1).node.index.listCatalog) = some final ∧
      (tiedNodes 1).step Hash.sample .fixed
        (.reconcile final.name final.node.index.listCatalog) = some (tiedNodes 1) :=
    ⟨_, _, rfl, .pull env peers rfl rfl rfl rfl rfl rfl (.done rfl), rfl, rfl⟩
  have hfirst : Exchanged Hash.sample .fixed tiedNodes (0, 1)
      (Function.update tiedNodes 0 final) :=
    ⟨by decide, middle, final, hstep, hfinishes, rfl⟩
  have hidle := (exchanged_entries idle_tied_nodes hfirst).2.1
  have hrun : Exchanges Hash.sample .fixed tiedNodes
      (List.replicate 6 [(0, 1), (1, 0)]).flatten (Function.update tiedNodes 0 final) := by
    refine .cons hfirst (exchanges_unchanged hidle ?_)
    intro e he
    have hpairs : e = (0, 1) ∨ e = (1, 0) := by
      revert e
      decide
    rcases hpairs with rfl | rfl
    · exact ⟨by decide, hfinal⟩
    · exact ⟨by decide, hother⟩
  refine ⟨_, hrun, anti_entropy_agrees ?_ idle_tied_nodes ?_ (by decide) hrun (by decide)
    ⟨1, by decide⟩⟩
  · intro i j
    revert i j
    decide
  · intro round hround
    rw [List.eq_of_mem_replicate hround]
    intro i j
    revert i j
    decide

end NuSync
