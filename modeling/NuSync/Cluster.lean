import NuSync.Daemon.Step

/-!
# File IDs across a cluster

Nodes that index local files and pull from each other. What a pull stores is a record some node
served, so a file ID travels from the node that indexed it to every index. `outputs_inside_iff`
says when the path `Pull` writes to stays below `BaseDir` for every ID that got into an index.
-/

namespace NuSync

open Go Lib Store Chunker Discovery Orchestrator

/-- The nodes, and the metadata replies that were sent so far. -/
structure Cluster (ι : Type*) where
  nodes : ι → Daemon
  served : List FileMeta

/-- A node answers a metadata request for the ID it decodes from the query, or something happens
at a node. -/
inductive ClusterEvent (ι : Type*) where
  | getMeta (i : ι) (id : GoString)
  | node (i : ι) (event : Event)

/-- The records a pull fetches are replies that were sent. -/
def Event.FetchesFrom (served : List FileMeta) : Event → Prop
  | .pull _ env => ∀ entry ∈ env.peers, ∀ m ∈ entry.2.fetchMeta, m ∈ served
  | _ => True

instance (served : List FileMeta) : (event : Event) → Decidable (event.FetchesFrom served)
  | .pull _ env => inferInstanceAs (Decidable (∀ entry ∈ env.peers, ∀ m ∈ entry.2.fetchMeta, _))
  | .fileChange .. | .ingest .. | .sync _ | .announcement _ | .reconcile .. | .userWrite ..
  | .restart => inferInstanceAs (Decidable True)

namespace Cluster

variable {ι : Type*} (sha256 : Bytes → Hash) (cdc : FastCdc)

/-- New nodes with these names and directories. -/
def fresh (names dirs : ι → GoString) (objects : ι → Hash → Option Bytes)
    (disks : ι → GoString → Option Bytes) : Cluster ι :=
  ⟨fun i => .new (names i) (dirs i) .empty (objects i) (disks i), []⟩

/-- One event of the cluster. -/
def step [DecidableEq ι] (c : Cluster ι) : ClusterEvent ι → Option (Cluster ι)
  | .getMeta i id =>
      let reply := ((c.nodes i).node.index.getFileMeta id).map FileMeta.json
      some { c with served := reply.toList ++ c.served }
  | .node i event =>
      if event.FetchesFrom c.served then
        ((c.nodes i).step sha256 cdc event).map fun d =>
          { c with nodes := Function.update c.nodes i d }
      else none

/-- The ID is a key of the node's index. -/
def IsKey (c : Cluster ι) (i : ι) (fileID : GoString) : Prop :=
  (c.nodes i).node.index.getFileMeta fileID ≠ none

/-- An `/ingest` request that gets its path into the index does not climb. -/
def IngestsBelow (c : Cluster ι) : ClusterEvent ι → Prop
  | .node i (.ingest path io) => (c.nodes i).node.disk (clean path) ≠ none →
      BoltMetaStore.ValidKey path → io.commit = true → ¬ Climbs path
  | _ => True

/-- No ID in an index or on its way between nodes climbs. -/
structure NoneClimbs (c : Cluster ι) : Prop where
  dirs : ∀ i, (c.nodes i).baseDir ≠ []
  keys : ∀ i fileID, c.IsKey i fileID → ¬ Climbs fileID
  served : ∀ m ∈ c.served, ¬ Climbs m.fileID

variable {sha256 cdc} {c c' : Cluster ι}

/-! ## Keys -/

/-- A path made of proper names does not climb. -/
theorem not_climbs_names {names : List GoString} (h : ∀ name ∈ names, IsName name) :
    ¬ Climbs ([separator].intercalate names) := by
  rw [Climbs, components_intercalate fun name hname => ⟨(h name hname).1, (h name hname).2⟩,
    foldl_clean_step_names _ fun name hname => ⟨(h name hname).3, (h name hname).4⟩]
  simp only [List.append_nil, List.mem_reverse]
  exact fun hmem => (h dotdot hmem).ne_dotdot rfl

/-- What a node indexes from its own files does not climb if its directory has a name and an
ingested path does not. -/
theorem not_climbs_indexed {i : ι} {fileID : GoString} {event : Event}
    (hdir : (c.nodes i).baseDir ≠ []) (hbelow : c.IngestsBelow (.node i event))
    (hindexes : (c.nodes i).Indexes fileID true event) (hkey : BoltMetaStore.ValidKey fileID) :
    ¬ Climbs fileID := by
  cases event with
  | fileChange names now io =>
      obtain ⟨⟨hne, hnames⟩, rfl, -⟩ := hindexes
      rw [Daemon.change_file_id_watched hdir hne hnames]
      exact not_climbs_names hnames
  | ingest path io =>
      obtain ⟨hfile, rfl, hcommit⟩ := hindexes
      exact hbelow hfile hkey hcommit.symm
  | _ => exact hindexes.elim

/-- The keys of a node after one of its events. -/
theorem keys_node {i : ι} {event : Event} {d : Daemon} (hc : NoneClimbs c)
    (hbelow : c.IngestsBelow (.node i event)) (hfetches : event.FetchesFrom c.served)
    (h : (c.nodes i).step sha256 cdc event = some d) (fileID : GoString)
    (hkey : d.node.index.getFileMeta fileID ≠ none) : ¬ Climbs fileID := by
  rcases Daemon.step_index h with hindex | ⟨m, hindex, horigin⟩ <;> rw [hindex] at hkey
  · exact hc.keys i fileID hkey
  have hm : ¬ Climbs m.fileID := by
    rcases horigin with ⟨hindexes, hvalid⟩ | ⟨pulled, env, diff, rfl, hselect⟩
    · exact not_climbs_indexed (hc.dirs i) hbelow hindexes hvalid
    · obtain ⟨entry, hentry, rm, hrm, rfl⟩ := select_peer_mem hselect
      rw [FileMeta.json, climbs_json_string]
      exact hc.served rm (hfetches entry hentry rm hrm)
  obtain ⟨found, hfound⟩ := Option.ne_none_iff_exists'.mp hkey
  rcases BoltMetaStore.get_set_cases hfound with ⟨rfl, -⟩ | hold
  · exact hm
  · exact hc.keys i fileID (by simp [IsKey, hold])

variable [DecidableEq ι]

/-- An event that ingests nothing that climbs lets no ID climb. -/
theorem step_none_climbs {event : ClusterEvent ι} (hc : NoneClimbs c)
    (hbelow : c.IngestsBelow event) (h : c.step sha256 cdc event = some c') : NoneClimbs c' := by
  cases event with
  | getMeta i id =>
      cases h
      refine ⟨hc.dirs, hc.keys, fun m hm => ?_⟩
      rw [List.mem_append, Option.mem_toList, Option.map_eq_some_iff] at hm
      rcases hm with ⟨found, hfound, rfl⟩ | hm
      · -- the reply names the key it was found under, as JSON keeps it
        rw [FileMeta.json, BoltMetaStore.file_id_of_get hfound, climbs_json_string,
          climbs_json_string]
        exact hc.keys i id (by simp [IsKey, hfound])
      · exact hc.served m hm
  | node i event =>
      simp only [step] at h
      split_ifs at h with hfetches
      obtain ⟨d, hd, rfl⟩ := Option.map_eq_some_iff.mp h
      refine ⟨fun j => ?_, fun j fileID hkey => ?_, hc.served⟩ <;>
        rcases eq_or_ne j i with rfl | hne
      · simpa [(Daemon.step_cases hd).1.2] using hc.dirs j
      · simpa [hne] using hc.dirs j
      · exact keys_node hc hbelow hfetches hd fileID (by simpa [IsKey] using hkey)
      · exact hc.keys j fileID (by simpa [IsKey, hne] using hkey)

/-- Keys are never removed. -/
theorem step_is_key {event : ClusterEvent ι} (h : c.step sha256 cdc event = some c') {i : ι}
    {fileID : GoString} (hkey : c.IsKey i fileID) : c'.IsKey i fileID := by
  cases event with
  | getMeta j id =>
      cases h
      exact hkey
  | node j event =>
      simp only [step] at h
      split_ifs at h
      obtain ⟨d, hd, rfl⟩ := Option.map_eq_some_iff.mp h
      rcases eq_or_ne i j with rfl | hne
      · simp only [IsKey, Function.update_self] at hkey ⊢
        rcases Daemon.step_index hd with hindex | ⟨m, hindex, -⟩ <;> rw [hindex]
        · exact hkey
        · exact BoltMetaStore.get_set_ne_none hkey m
      · simpa [IsKey, hne] using hkey

/-- An ingested path that bbolt takes becomes a key. -/
theorem is_key_ingested {i : ι} {path : GoString} {io : Daemon.IndexAnswers}
    (h : c.step sha256 cdc (.node i (.ingest path io)) = some c')
    (hfile : (c.nodes i).node.disk (clean path) ≠ none) (hkey : BoltMetaStore.ValidKey path)
    (hcommit : io.commit = true) : c'.IsKey i path := by
  rw [step, if_pos (show Event.FetchesFrom _ (.ingest path io) from trivial)] at h
  obtain ⟨d, hd, rfl⟩ := Option.map_eq_some_iff.mp h
  cases hd
  rcases (c.nodes i).ingest_cases sha256 cdc path io with ⟨hnone, -⟩ | ⟨content, -, hingest⟩
  · exact absurd hnone hfile
  · simp only [IsKey, Function.update_self, hingest, Daemon.indexFile, Daemon.nextTS]
    rw [Daemon.put_ignored_of_valid _ hkey hcommit, BoltMetaStore.get_set, if_pos (by rfl)]
    exact Option.some_ne_none _

/-- If no key climbs at the end of a run, nothing that climbs was ingested on the way. -/
theorem along_of_keys {start : Cluster ι} {events : List (ClusterEvent ι)}
    (hrun : run (step sha256 cdc) start events = some c)
    (hkeys : ∀ i fileID, c.IsKey i fileID → ¬ Climbs fileID) :
    Along (step sha256 cdc) IngestsBelow start events := by
  induction events generalizing start with
  | nil => trivial
  | cons event events ih =>
      obtain ⟨next, hnext, hrest⟩ := run_cons_eq_some.mp hrun
      refine (along_cons hnext).mpr ⟨?_, ih hrest⟩
      match event, hnext with
      | .getMeta _ _, _ => trivial
      | .node i (.ingest path io), hnext =>
          intro hfile hvalid hcommit
          refine hkeys i path (run_invariant (IsKey · i path) hrest (along_true events)
            (is_key_ingested hnext hfile hvalid hcommit) ?_)
          exact fun _ _ _ hkey _ hstep => step_is_key hstep hkey
      | .node _ (.fileChange ..), _ | .node _ (.sync _), _ | .node _ (.announcement _), _
      | .node _ (.reconcile ..), _ | .node _ (.pull ..), _ | .node _ (.userWrite ..), _
      | .node _ .restart, _ => trivial

/-- **The output path of every file ID in an index stays inside every `BaseDir` exactly if no
`/ingest` request of the run got a path that climbs into an index.** -/
theorem outputs_inside_iff (names dirs : ι → GoString) (hdirs : ∀ i, dirs i ≠ [])
    (objects : ι → Hash → Option Bytes) (disks : ι → GoString → Option Bytes)
    (events : List (ClusterEvent ι))
    (hrun : run (step sha256 cdc) (fresh names dirs objects disks) events = some c) :
    (∀ i fileID, c.IsKey i fileID → ∀ base, base ≠ [] → Inside base (outPath base fileID)) ↔
      Along (step sha256 cdc) IngestsBelow (fresh names dirs objects disks) events := by
  simp only [outPath, inside_join_iff]
  refine ⟨along_of_keys hrun, fun hbelow => ?_⟩
  have hstart : NoneClimbs (fresh names dirs objects disks) :=
    ⟨hdirs, fun _ _ hkey => absurd rfl hkey, fun _ hm => by cases hm⟩
  exact (run_invariant NoneClimbs hrun hbelow hstart
    fun _ _ _ hc hguard hstep => step_none_climbs hc hguard hstep).keys

/-- Node `a` (`false`) ingests an empty file under a path and serves its record; node `b`
(`true`), which syncs `/d`, pulls it. -/
def ingestAndPull (path : String) : List (ClusterEvent Bool) :=
  let m : FileMeta := ⟨ascii path, .zero, 1, [], 0⟩
  let peer : PeerInfo := ⟨ascii "a", ascii "10.0.0.1", 9100, 9000⟩
  let answer : PeerAnswer := ⟨true, Control.diff (.set .empty m), some m⟩
  [.node false (.userWrite (ascii path) (some [])),
    .node false (.ingest (ascii path) ⟨fun _ => true, true⟩),
    .getMeta false (ascii path),
    .node true (.sync (ascii path)),
    .node true (.pull (ascii path) ⟨[(peer, answer)], [], .insertion, [], .allOk⟩)]

/-- The two nodes before they have done anything. -/
def twoNodes : Cluster Bool :=
  fresh (fun i => ascii (if i then "b" else "a")) (fun i => ascii (if i then "/d" else "/c"))
    (fun _ _ => none) fun _ _ => none

/-- A file ingested from a subdirectory is a key at both nodes and stays inside. -/
theorem outputs_inside_subdirectory :
    ∃ c, run (step Hash.sample .fixed) twoNodes (ingestAndPull "docs/a") = some c ∧
      c.IsKey true (ascii "docs/a") ∧
      ∀ i fileID, c.IsKey i fileID → ∀ base, base ≠ [] → Inside base (outPath base fileID) := by
  obtain ⟨c, hrun⟩ : ∃ c, run (step Hash.sample .fixed) twoNodes (ingestAndPull "docs/a") =
    some c := ⟨_, rfl⟩
  have hkey : (run (step Hash.sample .fixed) twoNodes (ingestAndPull "docs/a")).map
      (fun c => ((c.nodes true).node.index.getFileMeta (ascii "docs/a")).isSome) = some true := by
    decide
  have hbelow : Along (step Hash.sample .fixed) IngestsBelow twoNodes (ingestAndPull "docs/a") :=
    And.intro trivial (And.intro (fun _ _ _ => by decide)
      (And.intro trivial (And.intro trivial (And.intro trivial trivial))))
  refine ⟨c, hrun, ?_, (outputs_inside_iff _ _ (fun i => by cases i <;> decide) _ _ _ hrun).mpr
    hbelow⟩
  simpa [hrun, IsKey, Option.isSome_iff_ne_none] using hkey

/-- A path with `..` gets from an `/ingest` request into the index of another node, whose pull
writes next to its `BaseDir` and not below it. -/
theorem pull_writes_outside :
    (run (step Hash.sample .fixed) twoNodes (ingestAndPull "../x")).map (fun c =>
        (((c.nodes true).node.index.getFileMeta (ascii "../x")).isSome, (c.nodes true).baseDir,
          (c.nodes true).node.disk (ascii "/x"))) = some (true, ascii "/d", some []) ∧
      outPath (ascii "/d") (ascii "../x") = ascii "/x" ∧ ¬ Inside (ascii "/d") (ascii "/x") := by
  refine ⟨by decide, by decide, fun ⟨_, rest, hnames, _⟩ => ?_⟩
  rw [show cleanNames (ascii "/x") = [ascii "x"] by decide,
    show cleanNames (ascii "/d") = [ascii "d"] by decide] at hnames
  exact absurd (List.cons.inj hnames).1 (by decide)

end Cluster

end NuSync
