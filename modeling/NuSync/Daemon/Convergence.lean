import NuSync.Daemon.Selection
import NuSync.Lib.LastWriter

/-!
# Convergence of a cluster

Nodes with different names write one file concurrently and gossip about it. Each announcement is
handled by `handleAnnouncement`; a sync it starts takes over what the announcer holds and
announces it again. A node decides a tie between two timestamps by the names of the two nodes
that hold the versions, not of those that wrote them. As long as that makes no difference, the
nodes are replicas that adopt the greater version, ordered by timestamp and writer
(`step_replicas`), and `settles_on_last_write` says where every run ends.
-/

namespace NuSync

open Go Lib Store Control Discovery Orchestrator

/-- A version of the file: its content, its timestamp and the name of the node that wrote it. -/
structure Version where
  root : Hash
  ts : UInt64
  writer : GoString

/-- Versions are ordered by timestamp, then by writer. -/
def Version.rank (v : Version) : UInt64 ×ₗ GoString := toLex (v.ts, v.writer)

/-- An announcement on its way to a node. The writer of the announced version is not part of the
message; it is kept here to state results. -/
structure Delivery (n : Nat) where
  dest : Fin n
  source : Fin n
  ann : FileAnnouncement
  writer : GoString

/-- The nodes, the writer of the version each of them holds, and the announcements in flight. -/
structure Gossip (n : Nat) where
  nodes : Fin n → Daemon
  writer : Fin n → GoString
  inFlight : List (Delivery n)

namespace Gossip

variable {n : Nat} (fileID : GoString)

/-- The node's entry for the file. -/
def entry (g : Gossip n) (i : Fin n) : Option FileMeta :=
  (g.nodes i).node.index.getFileMeta fileID

/-- The announcements of a record to every other node. -/
def announceAll (nodes : Fin n → Daemon) (i : Fin n) (m : FileMeta) (writer : GoString) :
    List (Delivery n) :=
  ((List.finRange n).filter fun j => j ≠ i).map fun j => ⟨j, i, (nodes i).announcement m, writer⟩

/-- The nodes have made their local writes and announced them. -/
def start (nodes : Fin n → Daemon) : Gossip n where
  nodes := nodes
  writer i := (nodes i).name
  inFlight := (List.finRange n).flatMap fun i =>
    match (nodes i).node.index.getFileMeta fileID with
    | none => []
    | some m => announceAll nodes i { m with fileID := fileID } (nodes i).name

/-- A node stores a version of the file and announces it under its own name. -/
def adopt (g : Gossip n) (dest : Fin n) (m : FileMeta) (writer : GoString) : Gossip n :=
  let m := { m with fileID := fileID }
  let d := g.nodes dest
  let nodes := Function.update g.nodes dest
    { d with node := { d.node with index := d.node.index.set m } }
  ⟨nodes, Function.update g.writer dest writer, announceAll nodes dest m writer ++ g.inFlight⟩

/-- A sync takes over what the announcer holds, unless the roots are equal. -/
def sync (g : Gossip n) (dest source : Fin n) : Gossip n :=
  match g.entry fileID source with
  | none => g
  | some m =>
      if (g.entry fileID dest).map FileMeta.merkleRoot = some m.merkleRoot then g
      else g.adopt fileID dest m (g.writer source)

/-- A node handles the announcement at this position. -/
def hear (g : Gossip n) (k : Nat) (msg : Delivery n) : Gossip n × Bool :=
  let (d, triggers) := (g.nodes msg.dest).handleAnnouncement msg.ann
  (⟨Function.update g.nodes msg.dest d, g.writer, g.inFlight.eraseIdx k⟩, triggers)

/-- The announcement at this position is delivered and acted on. -/
def step (g : Gossip n) (k : Nat) : Option (Gossip n) :=
  g.inFlight[k]?.map fun msg =>
    let (g, triggers) := g.hear k msg
    if triggers then g.sync fileID msg.dest msg.source else g

/-- No announcement in flight triggers a sync. -/
def Quiescent (g : Gossip n) : Prop :=
  ∀ msg ∈ g.inFlight, ((g.nodes msg.dest).handleAnnouncement msg.ann).2 = false

/-- If the announced version and the node's own differ but have one timestamp, the announcer has
the greater name exactly if the announced version's writer has. -/
def TieByWriter (g : Gossip n) (msg : Delivery n) : Prop :=
  ∀ m, g.entry fileID msg.dest = some m → m.merkleRoot ≠ msg.ann.merkleRoot →
    m.lamportTS = msg.ann.lamportTS →
      ((g.nodes msg.dest).name < msg.ann.sourceNode ↔ g.writer msg.dest < msg.writer)

/-- The announcement at this position meets no tie that the names decide against the writers. -/
def TiesByWriter (g : Gossip n) (k : Nat) : Prop :=
  ∀ msg, g.inFlight[k]? = some msg → g.TieByWriter fileID msg

instance (g : Gossip n) : Decidable g.Quiescent := inferInstanceAs (Decidable (∀ msg ∈ _, _))

instance (g : Gossip n) (msg : Delivery n) : Decidable (g.TieByWriter fileID msg) :=
  inferInstanceAs (Decidable (∀ m ∈ g.entry fileID msg.dest, _ → _ → (_ ↔ _)))

instance (g : Gossip n) (k : Nat) : Decidable (g.TiesByWriter fileID k) :=
  inferInstanceAs (Decidable (∀ msg ∈ g.inFlight[k]?, g.TieByWriter fileID msg))

/-- A pull from the announcer alone does to the index what a sync does. -/
theorem pull_index_eq_sync {fileID} (hvalid : ValidUtf8 fileID) {g : Gossip n} {dest source : Fin n}
    {sha256 : Bytes → Hash} {baseDir : GoString} {env : PullEnv} {info : PeerInfo}
    {outcome : PullOutcome}
    (hpeers : env.peers = honestPeers fileID [(info, (g.nodes source).node.index)])
    (hpull : pull sha256 baseDir fileID env (g.nodes dest).node = some outcome)
    (hok : outcome.result = .ok ()) :
    outcome.node.index = ((g.sync fileID dest source).nodes dest).node.index := by
  cases hentry : (g.nodes source).node.index.getFileMeta fileID with
  | none =>
      -- the announcer does not have the file, so no peer is taken
      obtain ⟨diff, m, hselect, -⟩ := pull_ok_cases hpull hok
      rw [PullEnv.select, hpeers] at hselect
      simp [honestPeers, honestAnswer, selectPeer, Control.diff, hvalid, diff_absent hentry]
        at hselect
  | some first =>
      have hfirst : firstVersion fileID [(info, (g.nodes source).node.index)] = some first := by
        simp [firstVersion, hentry]
      have hid : { first with fileID := fileID } = first := by
        rw [← (BoltMetaStore.file_id_of_get hentry).trans hvalid]
      rw [sync, show g.entry fileID source = some first from hentry]
      rcases (pull_ok_first hpeers hfirst hpull hok).2 with
        ⟨mine, hmine, hroot, hnode⟩ | ⟨hdiffers, -, hset⟩
      · simp [entry, hmine, hroot, hnode]
      · have hother : (g.entry fileID dest).map FileMeta.merkleRoot ≠ some first.merkleRoot := by
          intro hsame
          obtain ⟨mine, hmine, hroot⟩ := Option.map_eq_some_iff.mp hsame
          exact hdiffers mine hmine hroot
        simp only [if_neg hother]
        simp [adopt, hid, hset]

/-! ## The cluster as replicas -/

/-- The version a node holds. -/
def held (g : Gossip n) (i : Fin n) : Option Version :=
  (g.entry fileID i).map fun m => ⟨m.merkleRoot, m.lamportTS, g.writer i⟩

/-- What an announcement tells. -/
def message (msg : Delivery n) : LastWriter.Message (Fin n) Version :=
  ⟨msg.dest, msg.source, ⟨msg.ann.merkleRoot, msg.ann.lamportTS, msg.writer⟩⟩

/-- The cluster as replicas of the file. -/
def replicas (g : Gossip n) : LastWriter.Replicas (Fin n) Version :=
  ⟨g.held fileID, g.inFlight.map message⟩

/-- Names are distinct, and what is in flight is about the file and carries its announcer's
name. -/
structure WellFormed (g : Gossip n) : Prop where
  names : Function.Injective fun i => (g.nodes i).name
  inFlight : ∀ msg ∈ g.inFlight, msg.ann.fileID = fileID ∧
    msg.ann.sourceNode = (g.nodes msg.source).name ∧ msg.dest ≠ msg.source

variable {fileID} {g g' : Gossip n} {k : Nat}

/-- `remoteWins` is the order of versions if a tie is decided like the writers would. -/
theorem remote_wins_eq {localTS remoteTS : UInt64} {localNode remoteNode localWriter remoteWriter
    : GoString} (htie : localTS = remoteTS →
      (localNode < remoteNode ↔ localWriter < remoteWriter)) :
    Daemon.remoteWins localTS localNode remoteTS remoteNode =
      decide (toLex (localTS, localWriter) < toLex (remoteTS, remoteWriter)) := by
  rw [Bool.eq_iff_iff, decide_eq_true_iff, Daemon.remote_wins_iff, Prod.Lex.toLex_lt_toLex,
    Prod.Lex.toLex_lt_toLex]
  exact or_congr_right (and_congr_right htie)

/-- Without a tie against the writers, `handleAnnouncement` triggers a sync exactly if the
announced version is news. -/
theorem triggers_eq_wants (hg : g.WellFormed fileID) {msg : Delivery n} (hmsg : msg ∈ g.inFlight)
    (htie : g.TieByWriter fileID msg) :
    ((g.nodes msg.dest).handleAnnouncement msg.ann).2 =
      LastWriter.wants Version.root Version.rank (g.held fileID msg.dest)
        (message msg).version := by
  obtain ⟨hfile, hsource, hne⟩ := hg.inFlight msg hmsg
  have hother : msg.ann.sourceNode ≠ (g.nodes msg.dest).name := by
    rw [hsource]
    exact fun heq => hne (hg.names heq).symm
  obtain ⟨hadvances, -⟩ := (g.nodes msg.dest).observe_ts_spec msg.ann.lamportTS
  simp only [Daemon.handleAnnouncement, if_neg hother, Daemon.wants, hadvances.node,
    hadvances.name, hfile]
  unfold held
  cases hentry : g.entry fileID msg.dest with
  | none =>
      rw [entry] at hentry
      rw [hentry]
      rfl
  | some m =>
      have htie := htie m hentry
      rw [entry] at hentry
      rw [hentry]
      by_cases hroot : m.merkleRoot = msg.ann.merkleRoot
      · simp [LastWriter.wants, message, hroot]
      · dsimp only
        rw [remote_wins_eq (htie hroot)]
        rfl

/-- Handling an announcement changes no version. -/
theorem replicas_hear (g : Gossip n) (k : Nat) (msg : Delivery n) :
    (g.hear k msg).1.replicas fileID =
      ⟨(g.replicas fileID).held, (g.replicas fileID).inFlight.eraseIdx k⟩ := by
  have hnode := ((g.nodes msg.dest).handle_announcement_spec msg.ann).1.node
  have hheld : (g.hear k msg).1.held fileID = g.held fileID := by
    funext i
    by_cases hi : i = msg.dest
    · subst hi
      simp [held, entry, hear, hnode]
    · simp [held, entry, hear, hi]
  rw [replicas, hheld]
  simp [replicas, hear, List.eraseIdx_map]

theorem map_announce_all (nodes : Fin n → Daemon) (i : Fin n) (m : FileMeta) (writer : GoString) :
    (announceAll nodes i m writer).map message =
      LastWriter.broadcast (List.finRange n) i ⟨m.merkleRoot, m.lamportTS, writer⟩ := by
  simp only [announceAll, List.map_map, LastWriter.broadcast]
  rfl

/-- Storing and announcing a version is adopting it. -/
theorem replicas_adopt (g : Gossip n) (dest : Fin n) (m : FileMeta) (writer : GoString) :
    (g.adopt fileID dest m writer).replicas fileID =
      LastWriter.adopt (List.finRange n) (g.replicas fileID) dest
        ⟨m.merkleRoot, m.lamportTS, writer⟩ := by
  have hheld : (g.adopt fileID dest m writer).held fileID =
      Function.update (g.held fileID) dest (some ⟨m.merkleRoot, m.lamportTS, writer⟩) := by
    funext i
    by_cases hi : i = dest
    · subst hi
      have hget (index : BoltMetaStore) :
          (index.set { m with fileID := fileID }).getFileMeta fileID =
            some { m with fileID := jsonString fileID } :=
        index.get_set_self { m with fileID := fileID }
      simp [held, entry, adopt, hget]
    · simp [held, entry, adopt, hi]
  rw [replicas, hheld, LastWriter.adopt]
  simp [adopt, replicas, map_announce_all]

/-- A sync of the cluster is a sync of the replicas. -/
theorem replicas_sync (g : Gossip n) (dest source : Fin n) :
    (g.sync fileID dest source).replicas fileID =
      LastWriter.sync Version.root (List.finRange n) (g.replicas fileID) dest source := by
  have hroot : (g.held fileID dest).map Version.root =
      (g.entry fileID dest).map FileMeta.merkleRoot := by
    simp [held, Function.comp_def]
  have hsource : (g.replicas fileID).held source = g.held fileID source := rfl
  unfold sync LastWriter.sync
  cases hentry : g.entry fileID source with
  | none => simp [hsource, held, hentry]
  | some m =>
      simp only [hsource, held, hentry, Option.map_some]
      rw [show (g.replicas fileID).held dest = g.held fileID dest from rfl, hroot]
      split_ifs
      · rfl
      · exact replicas_adopt g dest m (g.writer source)

/-- Being well formed depends on the names and on what is in flight. -/
theorem WellFormed.of_names (hg : g.WellFormed fileID)
    (hnames : ∀ i, (g'.nodes i).name = (g.nodes i).name)
    (hnew : ∀ msg ∈ g'.inFlight, msg ∈ g.inFlight ∨ msg.ann.fileID = fileID ∧
      msg.ann.sourceNode = (g'.nodes msg.source).name ∧ msg.dest ≠ msg.source) :
    g'.WellFormed fileID := by
  refine ⟨fun i j hij => hg.names (by simpa only [hnames] using hij), fun msg hmsg => ?_⟩
  rcases hnew msg hmsg with hold | hnew
  · rw [hnames]
    exact hg.inFlight msg hold
  · exact hnew

theorem WellFormed.hear (hg : g.WellFormed fileID) (k : Nat) (msg : Delivery n) :
    (g.hear k msg).1.WellFormed fileID := by
  have hname := ((g.nodes msg.dest).handle_announcement_spec msg.ann).1.name
  refine hg.of_names (fun i => ?_) fun other hother => .inl (List.mem_of_mem_eraseIdx hother)
  by_cases hi : i = msg.dest
  · subst hi
    simp [Gossip.hear, hname]
  · simp [Gossip.hear, hi]

theorem WellFormed.sync (hg : g.WellFormed fileID) (dest source : Fin n) :
    (g.sync fileID dest source).WellFormed fileID := by
  unfold Gossip.sync
  split
  · exact hg
  · split_ifs
    · exact hg
    · refine hg.of_names (fun i => ?_) fun msg hmsg => ?_
      · by_cases hi : i = dest
        · subst hi
          simp [adopt]
        · simp [adopt, hi]
      · refine (List.mem_append.mp hmsg).symm.imp_right fun hmsg => ?_
        simp only [announceAll, List.mem_map, List.mem_filter, decide_eq_true_eq] at hmsg
        obtain ⟨j, ⟨-, hne⟩, rfl⟩ := hmsg
        exact ⟨rfl, rfl, hne⟩

/-- **A delivery that meets no tie against the writers is a delivery to the replicas.** -/
theorem step_replicas (hg : g.WellFormed fileID) (hties : g.TiesByWriter fileID k)
    (h : g.step fileID k = some g') :
    LastWriter.deliver Version.root Version.rank (List.finRange n) (g.replicas fileID) k =
        some (g'.replicas fileID) ∧ g'.WellFormed fileID := by
  obtain ⟨msg, hmsg, rfl⟩ := Option.map_eq_some_iff.mp h
  have hmessage : (g.replicas fileID).inFlight[k]? = some (message msg) := by
    simp [replicas, hmsg]
  have htriggers : (g.hear k msg).2 = LastWriter.wants Version.root Version.rank
      ((g.replicas fileID).held (message msg).dest) (message msg).version :=
    triggers_eq_wants hg (List.mem_of_getElem? hmsg) (hties msg hmsg)
  rw [LastWriter.deliver, hmessage, Option.map_some, ← htriggers]
  dsimp only
  split_ifs
  · rw [replicas_sync, replicas_hear]
    exact ⟨rfl, (hg.hear k msg).sync msg.dest msg.source⟩
  · rw [replicas_hear]
    exact ⟨rfl, hg.hear k msg⟩

/-- A run without ties against the writers is a run of the replicas. -/
theorem run_replicas {start : Gossip n} {events : List Nat} (hstart : start.WellFormed fileID)
    (hrun : run (step fileID) start events = some g)
    (hties : Along (step fileID) (TiesByWriter fileID) start events) :
    run (LastWriter.deliver Version.root Version.rank (List.finRange n)) (start.replicas fileID)
        events = some (g.replicas fileID) ∧ g.WellFormed fileID := by
  induction events generalizing start with
  | nil =>
      cases hrun
      exact ⟨rfl, hstart⟩
  | cons k events ih =>
      obtain ⟨next, hnext, hrest⟩ := run_cons_eq_some.mp hrun
      obtain ⟨htie, hties⟩ := (along_cons hnext).mp hties
      obtain ⟨hstep, hwell⟩ := step_replicas hstart htie hnext
      obtain ⟨hreplicas, hend⟩ := ih hwell hrest hties
      exact ⟨run_cons_eq_some.mpr ⟨_, hstep, hreplicas⟩, hend⟩

/-- The start of the cluster is the start of the replicas. -/
theorem replicas_start (nodes : Fin n → Daemon) :
    (start fileID nodes).replicas fileID =
      LastWriter.start (List.finRange n) ((start fileID nodes).held fileID) := by
  have hsent (i : Fin n) : (match (nodes i).node.index.getFileMeta fileID with
      | none => []
      | some m => announceAll nodes i { m with fileID := fileID } (nodes i).name).map message =
      ((start fileID nodes).held fileID i).elim [] (LastWriter.broadcast (List.finRange n) i) := by
    cases hentry : (nodes i).node.index.getFileMeta fileID with
    | none => simp [held, entry, start, hentry]
    | some m => simp [held, entry, start, hentry, map_announce_all]
  rw [replicas, LastWriter.start]
  congr 1
  rw [start, List.map_flatMap]
  exact List.flatMap_congr fun i _ => hsent i

theorem well_formed_start {nodes : Fin n → Daemon}
    (hnames : Function.Injective fun i => (nodes i).name) :
    (start fileID nodes).WellFormed fileID := by
  refine ⟨hnames, fun msg hmsg => ?_⟩
  obtain ⟨i, -, hmsg⟩ := List.mem_flatMap.mp hmsg
  split at hmsg
  · cases hmsg
  · simp only [announceAll, List.mem_map, List.mem_filter, decide_eq_true_eq] at hmsg
    obtain ⟨j, ⟨-, hne⟩, rfl⟩ := hmsg
    exact ⟨rfl, rfl, hne⟩

/-- **Where a cluster settles.** From any local writes, in every run in which no tie is decided
against the writers, once no announcement in flight triggers a sync every node has the content of
the write with the greatest timestamp and writer. -/
theorem settles_on_last_write {nodes : Fin n → Daemon}
    (hnames : Function.Injective fun i => (nodes i).name) {w : Fin n} {last : FileMeta}
    (hlast : (nodes w).node.index.getFileMeta fileID = some last)
    (hgreatest : ∀ i m, (nodes i).node.index.getFileMeta fileID = some m →
      toLex (m.lamportTS, (nodes i).name) ≤ toLex (last.lamportTS, (nodes w).name))
    {events : List Nat} (hrun : run (step fileID) (start fileID nodes) events = some g)
    (hties : Along (step fileID) (TiesByWriter fileID) (start fileID nodes) events)
    (hquiet : g.Quiescent) (hend : ∀ msg ∈ g.inFlight, g.TieByWriter fileID msg) (i : Fin n) :
    ∃ m, g.entry fileID i = some m ∧ m.merkleRoot = last.merkleRoot := by
  obtain ⟨hreplicas, hwell⟩ := run_replicas (well_formed_start hnames) hrun hties
  rw [replicas_start] at hreplicas
  have hw : (start fileID nodes).held fileID w =
      some ⟨last.merkleRoot, last.lamportTS, (nodes w).name⟩ := by
    simp [held, entry, start, hlast]
  -- a version of other content is another node's, so it ranks strictly lower
  have htop (j : Fin n) (v : Version) (hv : (start fileID nodes).held fileID j = some v)
      (hne : v.root ≠ last.merkleRoot) :
      v.rank < Version.rank ⟨last.merkleRoot, last.lamportTS, (nodes w).name⟩ := by
    obtain ⟨m, hm, rfl⟩ := Option.map_eq_some_iff.mp hv
    refine lt_of_le_of_ne (hgreatest j m hm) fun heq => hne ?_
    obtain rfl : j = w := hnames (congrArg Prod.snd (toLex.injective heq))
    exact congrArg FileMeta.merkleRoot (Option.some.inj (hm.symm.trans hlast))
  have hquiet' : LastWriter.Quiescent Version.root Version.rank (g.replicas fileID) := by
    intro message hmessage
    obtain ⟨msg, hmsg, rfl⟩ := List.mem_map.mp hmessage
    exact (triggers_eq_wants hwell hmsg (hend msg hmsg)).symm.trans (hquiet msg hmsg)
  obtain ⟨v, hv, hroot⟩ :=
    LastWriter.content_of_quiescent List.mem_finRange hw htop hreplicas hquiet' i
  obtain ⟨m, hm, rfl⟩ := Option.map_eq_some_iff.mp hv
  exact ⟨m, hm, hroot⟩

/-! ## Two orders of delivery -/

/-- Three nodes: `u` and `w` have written the file with one timestamp, `z` has not. -/
def trio (i : Fin 3) : Daemon :=
  let node (name : String) (index : BoltMetaStore) : Daemon :=
    .new (ascii name) (ascii "/d") index (fun _ => none) fun _ => none
  match i with
  | 0 => node "u" (.set .empty ⟨ascii "f", .sample [1], 1, [], 0⟩)
  | 1 => node "w" (.set .empty ⟨ascii "f", .sample [2], 1, [], 0⟩)
  | 2 => node "z" .empty

/-- The roots the three nodes hold. -/
def roots (g : Gossip 3) : List (Option Hash) :=
  (List.finRange 3).map fun i => (g.entry (ascii "f") i).map FileMeta.merkleRoot

/-- The write of `w` reaches `z` and then `u`: all nodes settle on it. -/
theorem settles_on_last_write_trio :
    ∃ g, run (step (ascii "f")) (start (ascii "f") trio) [3, 4] = some g ∧ g.Quiescent ∧
      ∀ i, ∃ m, g.entry (ascii "f") i = some m ∧ m.merkleRoot = .sample [2] := by
  have hnames : Function.Injective fun i => (trio i).name := by
    intro i j
    revert i j
    decide
  have hlast : (trio 1).node.index.getFileMeta (ascii "f") =
      some ⟨ascii "f", .sample [2], 1, [], 0⟩ := by decide
  have hgreatest : ∀ i, ∀ m ∈ (trio i).node.index.getFileMeta (ascii "f"),
      toLex (m.lamportTS, (trio i).name) ≤ toLex ((1 : UInt64), (trio 1).name) := by decide
  obtain ⟨g, hrun, hquiet, hend⟩ : ∃ g,
      run (step (ascii "f")) (start (ascii "f") trio) [3, 4] = some g ∧ g.Quiescent ∧
        ∀ msg ∈ g.inFlight, g.TieByWriter (ascii "f") msg := ⟨_, rfl, by decide, by decide⟩
  exact ⟨g, hrun, hquiet, settles_on_last_write hnames hlast hgreatest hrun (by decide) hquiet hend⟩

/-- The write of `u` reaches `z` first, which then keeps it from `w` by its greater name and hands
it on to `w`: all nodes settle on the write of `u`, although the write of `w` has the same
timestamp and the greater writer. -/
theorem settles_on_relayed_write :
    (run (step (ascii "f")) (start (ascii "f") trio) [1, 4, 1, 4]).map (fun g =>
        (roots g, decide g.Quiescent)) = some (List.replicate 3 (some (.sample [1])), true) ∧
      (run (step (ascii "f")) (start (ascii "f") trio) [3, 4]).map (fun g =>
        (roots g, decide g.Quiescent)) = some (List.replicate 3 (some (.sample [2])), true) ∧
      (Hash.sample [1] ≠ Hash.sample [2]) ∧ (trio 0).name < (trio 1).name := by
  decide

end Gossip

end NuSync
