import NuSync.Daemon.Selection
import NuSync.Lib.Flooding
import NuSync.Lib.System

/-!
# Announcements die out

Every pull that an announcement starts announces what it has stored, so one write can set off a
wave of announcements and pulls. The pull comes later than the announcement, takes the record of
any peer that has the file, not only of the announcer, and may store an older version than the
one it replaces. Even so the wave ends (`announcements_die_out`): an announcement starts a pull only
if it ranks above the version that the node holds, and that makes the wave a flood.
-/

namespace NuSync

open Go Lib Store Discovery Orchestrator

/-- A copy of an announcement on its way to a node. -/
structure Copy (n : Nat) where
  dest : Fin n
  source : Fin n
  ann : FileAnnouncement

/-- How far a pull of the file has come: no peer has served the metadata yet, or the record has been
fetched and is stored once the file is assembled. -/
inductive PullStage where
  | asking
  | storing (m : FileMeta)

/-- The nodes, the pull of the file that each of them runs, and the announcements in flight. -/
structure Wave (n : Nat) where
  nodes : Fin n → Daemon
  pulls : Fin n → Option PullStage
  inFlight : List (Copy n)

/-- Gossip delivers a copy of an announcement or loses it; the pull of node `i` fetches the record
of node `j`, stores what it has fetched, or ends without storing anything. -/
inductive WaveEvent (n : Nat) where
  | deliver (k : Nat)
  | lose (k : Nat)
  | fetch (i j : Fin n)
  | store (i : Fin n)
  | giveUp (i : Fin n)

namespace Wave

variable {n : Nat} (copies : Nat) (fileID : GoString)

/-- The node's entry for the file. -/
def entry (w : Wave n) (i : Fin n) : Option FileMeta := (w.nodes i).node.index.getFileMeta fileID

/-- The queue of memberlist sends an announcement a limited number of times: every node gets at
most this many copies. -/
def receivers (n : Nat) : List (Fin n) := (List.replicate copies (List.finRange n)).flatten

/-- The copies of the announcement of a record. -/
def announceAll (nodes : Fin n → Daemon) (i : Fin n) (m : FileMeta) : List (Copy n) :=
  ((receivers copies n).filter fun j => j ≠ i).map fun j => ⟨j, i, (nodes i).announcement m⟩

/-- The nodes have made their local writes and announced them. -/
def start (nodes : Fin n → Daemon) : Wave n where
  nodes := nodes
  pulls _ := none
  inFlight := (List.finRange n).flatMap fun i =>
    match (nodes i).node.index.getFileMeta fileID with
    | none => []
    | some m => announceAll copies nodes i m

/-- A node handles an announcement; a sync it triggers starts unless one is running. -/
def hear (w : Wave n) (k : Nat) (msg : Copy n) : Wave n :=
  let (d, triggers) := (w.nodes msg.dest).handleAnnouncement msg.ann
  let (d, started) := if triggers then d.triggerSync msg.ann.fileID else (d, false)
  ⟨Function.update w.nodes msg.dest d,
    if started then Function.update w.pulls msg.dest (some .asking) else w.pulls,
    w.inFlight.eraseIdx k⟩

/-- The daemon after the deferred `syncing.Delete`. -/
def returned (d : Daemon) : Daemon := { d with syncing := d.syncing.filter fun f => f ≠ fileID }

/-- The end of `Pull`: `PutFileMeta`, the announcement, and the return. That announcements to the
node are turned away until it has returned is covered by those that are lost. -/
def stored (w : Wave n) (i : Fin n) (m : FileMeta) : Wave n :=
  let d := w.nodes i
  ⟨Function.update w.nodes i
      (returned fileID { d with node := { d.node with index := d.node.index.set m } }),
    Function.update w.pulls i none, announceAll copies w.nodes i m ++ w.inFlight⟩

/-- One event. -/
def step (w : Wave n) : WaveEvent n → Option (Wave n)
  | .deliver k => w.inFlight[k]?.map (w.hear k)
  | .lose k => w.inFlight[k]?.map fun _ => { w with inFlight := w.inFlight.eraseIdx k }
  | .fetch i j =>
      match w.pulls i with
      | some .asking =>
          if j = i then none
          else (w.entry fileID j).map fun m =>
            { w with pulls := Function.update w.pulls i (some (.storing m)) }
      | _ => none
  | .store i =>
      match w.pulls i with
      | some (.storing m) => some (w.stored copies fileID i m)
      | _ => none
  | .giveUp i =>
      match w.pulls i with
      | none => none
      | some _ => some { w with
          nodes := Function.update w.nodes i (returned fileID (w.nodes i))
          pulls := Function.update w.pulls i none }

/-- What `Pull` does to the index and announces is what its pull does in a wave, whatever its peers
answer that have the file: nothing, or a fetch from one of them and a store. -/
theorem pull_fetches {fileID} {w : Wave n} {i : Fin n} (hpull : w.pulls i = some .asking)
    {sha256 : Bytes → Hash} {baseDir : GoString} {env : PullEnv} {outcome : PullOutcome}
    (hpeers : ∀ peer ∈ env.peers, ∀ m, peer.2.fetchMeta = some m →
      ∃ j, j ≠ i ∧ w.entry fileID j = some m)
    (h : pull sha256 baseDir fileID env (w.nodes i).node = some outcome) :
    outcome.node.index = (w.nodes i).node.index ∨
      ∃ j m, outcome.announced = some (m.fileID, m.merkleRoot, m.lamportTS) ∧
        ∃ w', run (step copies fileID) w [.fetch i j, .store i] = some w' ∧
          (w'.nodes i).node.index = outcome.node.index ∧
          w'.inFlight = announceAll copies w.nodes i m ++ w.inFlight := by
  rcases pull_index h with hsame | ⟨diff, m, hselect, -, hannounced, hindex⟩
  · exact .inl hsame
  · obtain ⟨peer, hpeer, served, hserved, rfl⟩ := select_peer_mem hselect
    obtain ⟨j, hne, hentry⟩ := hpeers peer hpeer served hserved
    rw [BoltMetaStore.json_of_get hentry] at hannounced hindex
    let fetched : Wave n := { w with pulls := Function.update w.pulls i (some (.storing served)) }
    refine .inr ⟨j, served, hannounced, fetched.stored copies fileID i served, ?_, ?_, rfl⟩
    · simp [run_cons, step, hpull, hne, hentry, fetched]
    · simp [stored, returned, hindex, fetched]

/-! ## What an event does -/

variable {copies} {fileID} {w w' : Wave n} {nodes : Fin n → Daemon}

/-- **What an event does**: an announcement changes nothing but clocks, or starts a pull, and a pull
takes its next step or ends. -/
inductive Moves (copies : Nat) (fileID : GoString) (w : Wave n) : Wave n → Prop
  | ignore {k : Nat} {msg : Copy n} {d : Daemon} (hmsg : w.inFlight[k]? = some msg)
      (hd : Daemon.Advances (w.nodes msg.dest) d)
      (hsyncing : d.syncing = (w.nodes msg.dest).syncing) :
      Moves copies fileID w
        ⟨Function.update w.nodes msg.dest d, w.pulls, w.inFlight.eraseIdx k⟩
  | wake {k : Nat} {msg : Copy n} {d : Daemon} (hmsg : w.inFlight[k]? = some msg)
      (hwants : ((w.nodes msg.dest).handleAnnouncement msg.ann).2 = true)
      (hfree : msg.ann.fileID ∉ (w.nodes msg.dest).syncing)
      (hd : Daemon.Advances (w.nodes msg.dest) d)
      (hsyncing : d.syncing = msg.ann.fileID :: (w.nodes msg.dest).syncing) :
      Moves copies fileID w ⟨Function.update w.nodes msg.dest d,
        Function.update w.pulls msg.dest (some .asking), w.inFlight.eraseIdx k⟩
  | fetch {i j : Fin n} {m : FileMeta} (hasks : w.pulls i = some .asking)
      (hentry : w.entry fileID j = some m) :
      Moves copies fileID w { w with pulls := Function.update w.pulls i (some (.storing m)) }
  | store {i : Fin n} {m : FileMeta} (hfetched : w.pulls i = some (.storing m)) :
      Moves copies fileID w (w.stored copies fileID i m)
  | giveUp {i : Fin n} (hpull : w.pulls i ≠ none) :
      Moves copies fileID w { w with
        nodes := Function.update w.nodes i (returned fileID (w.nodes i))
        pulls := Function.update w.pulls i none }

/-- An announcement does not touch `syncing` itself. -/
theorem handle_announcement_syncing (d : Daemon) (ann : FileAnnouncement) :
    (d.handleAnnouncement ann).1.syncing = d.syncing := by
  unfold Daemon.handleAnnouncement Daemon.observeTS
  split_ifs <;> rfl

theorem hear_moves {k : Nat} {msg : Copy n} (hmsg : w.inFlight[k]? = some msg) :
    Moves copies fileID w (w.hear k msg) := by
  have hd := ((w.nodes msg.dest).handle_announcement_spec msg.ann).1
  have hsyncing := handle_announcement_syncing (w.nodes msg.dest) msg.ann
  by_cases htriggers : ((w.nodes msg.dest).handleAnnouncement msg.ann).2 = true
  · by_cases hrunning : msg.ann.fileID ∈ (w.nodes msg.dest).syncing
    · simp only [hear, Daemon.triggerSync, htriggers, hsyncing, hrunning, if_true]
      exact .ignore hmsg hd hsyncing
    · simp only [hear, Daemon.triggerSync, htriggers, hsyncing, hrunning, if_true, if_false]
      exact .wake hmsg htriggers hrunning ⟨hd.node, hd.name, hd.baseDir, hd.clock⟩ rfl
  · simp only [hear, htriggers]
    exact .ignore hmsg hd hsyncing

theorem moves_of_step {event : WaveEvent n} (h : w.step copies fileID event = some w') :
    Moves copies fileID w w' := by
  cases event with
  | deliver k =>
      obtain ⟨msg, hmsg, rfl⟩ := Option.map_eq_some_iff.mp h
      exact hear_moves hmsg
  | lose k =>
      obtain ⟨msg, hmsg, rfl⟩ := Option.map_eq_some_iff.mp h
      have hsame : Moves copies fileID w ⟨Function.update w.nodes msg.dest (w.nodes msg.dest),
          w.pulls, w.inFlight.eraseIdx k⟩ := .ignore hmsg (.refl _) rfl
      rwa [Function.update_eq_self] at hsame
  | fetch i j =>
      simp only [step] at h
      split at h
      · next hasks =>
        split_ifs at h
        obtain ⟨m, hentry, rfl⟩ := Option.map_eq_some_iff.mp h
        exact .fetch hasks hentry
      · cases h
  | store i =>
      simp only [step] at h
      split at h
      · next m hfetched =>
        cases h
        exact .store hfetched
      · cases h
  | giveUp i =>
      simp only [step] at h
      split at h
      · cases h
      · next hpull =>
        cases h
        exact .giveUp (by simp [hpull])

/-! ## The invariant -/

/-- The timestamps that the nodes hold. -/
def stamps (fileID : GoString) (nodes : Fin n → Daemon) : Finset UInt64 :=
  ((List.finRange n).filterMap fun i =>
    ((nodes i).node.index.getFileMeta fileID).map FileMeta.lamportTS).toFinset

theorem mem_stamps {i : Fin n} {m : FileMeta}
    (h : (nodes i).node.index.getFileMeta fileID = some m) :
    m.lamportTS ∈ stamps fileID nodes := by
  simp only [stamps, List.mem_toFinset, List.mem_filterMap, List.mem_finRange, true_and,
    Option.map_eq_some_iff]
  exact ⟨i, m, h, rfl⟩

theorem card_stamps_le (nodes : Fin n → Daemon) : (stamps fileID nodes).card ≤ n := by
  refine (List.toFinset_card_le _).trans ((List.length_filterMap_le _ _).trans ?_)
  exact (List.length_finRange).le

/-- A wave is about the file, every node announces it under its own name, no timestamp comes up that
the nodes did not hold at the start, and `syncing` has the file exactly while a pull of it runs. -/
structure Ripples (fileID : GoString) (nodes : Fin n → Daemon) (w : Wave n) : Prop where
  names : ∀ i, (w.nodes i).name = (nodes i).name
  syncing : ∀ i, fileID ∈ (w.nodes i).syncing ↔ w.pulls i ≠ none
  entries : ∀ i m, w.entry fileID i = some m → m.lamportTS ∈ stamps fileID nodes
  fetched : ∀ i m, w.pulls i = some (.storing m) →
    m.fileID = fileID ∧ m.lamportTS ∈ stamps fileID nodes
  sent : ∀ msg ∈ w.inFlight,
    msg.ann.fileID = fileID ∧ msg.ann.sourceNode = (nodes msg.source).name

theorem mem_announce_all {now : Fin n → Daemon} {i : Fin n} {m : FileMeta} {msg : Copy n}
    (h : msg ∈ announceAll copies now i m) :
    msg.ann.fileID = m.fileID ∧ msg.ann.sourceNode = (now msg.source).name := by
  obtain ⟨j, -, rfl⟩ := List.mem_map.mp h
  exact ⟨rfl, rfl⟩

/-- The record under a valid ID names the file. -/
theorem file_id_of_entry (hvalid : ValidUtf8 fileID) {i : Fin n} {m : FileMeta}
    (h : w.entry fileID i = some m) : m.fileID = fileID :=
  (BoltMetaStore.file_id_of_get h).trans hvalid

theorem ripples_start (hvalid : ValidUtf8 fileID) (hidle : ∀ i, fileID ∉ (nodes i).syncing) :
    Ripples fileID nodes (start copies fileID nodes) := by
  refine ⟨fun _ => rfl, fun i => by simp [start, hidle], fun i m hm => mem_stamps hm,
    fun i m hm => by simp [start] at hm, fun msg hmsg => ?_⟩
  obtain ⟨i, -, hmsg⟩ := List.mem_flatMap.mp hmsg
  cases hi : (nodes i).node.index.getFileMeta fileID with
  | none => simp [hi] at hmsg
  | some m =>
      rw [hi] at hmsg
      obtain ⟨hfile, hname⟩ := mem_announce_all hmsg
      exact ⟨hfile.trans ((BoltMetaStore.file_id_of_get hi).trans hvalid), hname⟩

/-- A node that keeps its index keeps its entry. -/
theorem entry_update {i : Fin n} {d : Daemon} (h : d.node.index = (w.nodes i).node.index)
    (pulls : Fin n → Option PullStage) (inFlight : List (Copy n)) :
    entry fileID ⟨Function.update w.nodes i d, pulls, inFlight⟩ = w.entry fileID := by
  funext j
  by_cases hj : j = i
  · subst hj
    simp [entry, h]
  · simp [entry, hj]

/-- A pull that stores a record of the file leaves the node with it, and the others as they are. -/
theorem entry_stored (hvalid : ValidUtf8 fileID) {i : Fin n} {m : FileMeta}
    (hfile : m.fileID = fileID) :
    (w.stored copies fileID i m).entry fileID =
      Function.update (w.entry fileID) i (some m) := by
  funext j
  by_cases hj : j = i
  · subst hj hfile
    simp [entry, stored, returned, BoltMetaStore.get_set_valid _ hvalid]
  · simp [entry, stored, hj]

theorem name_update {i j : Fin n} {d : Daemon} (h : d.name = (w.nodes i).name) :
    (Function.update w.nodes i d j).name = (w.nodes j).name := by
  by_cases hj : j = i
  · subst hj
    simp [h]
  · simp [hj]

/-- `syncing` stays in step with the pulls if the node that is touched keeps it so. -/
theorem syncing_update (hw : Ripples fileID nodes w) {i : Fin n} {d : Daemon}
    {pull : Option PullStage} (h : fileID ∈ d.syncing ↔ pull ≠ none) (j : Fin n) :
    fileID ∈ (Function.update w.nodes i d j).syncing ↔ Function.update w.pulls i pull j ≠ none := by
  by_cases hj : j = i
  · subst hj
    simpa using h
  · simpa [hj] using hw.syncing j

/-- What has been fetched is still about the file if the pull that goes on has fetched only
that. -/
theorem fetched_update (hw : Ripples fileID nodes w) {i j : Fin n} {pull : Option PullStage}
    (h : ∀ m, pull = some (.storing m) → m.fileID = fileID ∧ m.lamportTS ∈ stamps fileID nodes)
    {m : FileMeta} (hj : Function.update w.pulls i pull j = some (.storing m)) :
    m.fileID = fileID ∧ m.lamportTS ∈ stamps fileID nodes := by
  by_cases hji : j = i
  · subst hji
    exact h m (by simpa using hj)
  · exact hw.fetched j m (by simpa [hji] using hj)

/-- Every event keeps the invariant. -/
theorem Ripples.step (hvalid : ValidUtf8 fileID) (hw : Ripples fileID nodes w)
    (h : Moves copies fileID w w') : Ripples fileID nodes w' := by
  have hkept {k : Nat} : ∀ msg ∈ w.inFlight.eraseIdx k,
      msg.ann.fileID = fileID ∧ msg.ann.sourceNode = (nodes msg.source).name :=
    fun msg hmsg => hw.sent msg (List.mem_of_mem_eraseIdx hmsg)
  cases h with
  | @ignore k msg d hmsg hd hsyncing =>
      refine ⟨fun j => (name_update hd.name).trans (hw.names j), fun j => ?_, ?_, hw.fetched, hkept⟩
      · have hsame : Function.update w.pulls msg.dest (w.pulls msg.dest) = w.pulls :=
          Function.update_eq_self _ _
        rw [← hsame]
        exact syncing_update hw (hsyncing ▸ hw.syncing msg.dest) j
      · rw [entry_update (by rw [hd.node])]
        exact hw.entries
  | @wake k msg d hmsg hwants hfree hd hsyncing =>
      have hfile := (hw.sent msg (List.mem_of_getElem? hmsg)).1
      refine ⟨fun j => (name_update hd.name).trans (hw.names j),
        syncing_update hw (by simp [hsyncing, hfile]), ?_, fun i m => fetched_update hw (by simp),
        hkept⟩
      rw [entry_update (by rw [hd.node])]
      exact hw.entries
  | @fetch i j m hasks hentry =>
      refine ⟨hw.names, fun l => ?_, hw.entries, fun l served => fetched_update hw ?_, hw.sent⟩
      · have hsame : Function.update w.nodes i (w.nodes i) = w.nodes :=
          Function.update_eq_self _ _
        rw [← hsame]
        exact syncing_update hw (by simp [hw.syncing, hasks]) l
      · rintro _ ⟨⟩
        exact ⟨file_id_of_entry hvalid hentry, hw.entries j m hentry⟩
  | @store i m hfetched =>
      obtain ⟨hfile, hstamp⟩ := hw.fetched i m hfetched
      refine ⟨fun j => (name_update (by rfl)).trans (hw.names j),
        syncing_update hw (by simp [returned]), fun j found hfound => ?_,
        fun j served => fetched_update hw (by simp), fun msg hmsg => ?_⟩
      · rw [entry_stored hvalid hfile] at hfound
        by_cases hj : j = i
        · subst hj
          obtain rfl : m = found := by simpa using hfound
          exact hstamp
        · exact hw.entries j found (by simpa [hj] using hfound)
      · rcases List.mem_append.mp hmsg with hnew | hold
        · obtain ⟨hann, hname⟩ := mem_announce_all hnew
          exact ⟨hann.trans hfile, hname.trans (hw.names msg.source)⟩
        · exact hw.sent msg hold
  | @giveUp i hpull =>
      refine ⟨fun j => (name_update (by rfl)).trans (hw.names j),
        syncing_update hw (by simp [returned]), ?_, fun j served => fetched_update hw (by simp),
        hw.sent⟩
      have hindex : (returned fileID (w.nodes i)).node.index = (w.nodes i).node.index := rfl
      rw [entry_update hindex]
      exact hw.entries

/-! ## A wave is a flood -/

/-- The steps that a pull has left. -/
def left : Option PullStage → Nat
  | none => 0
  | some .asking => 2
  | some (.storing _) => 1

/-- The timestamps that are held, the steps that the pulls have left, and what is in flight. -/
def flood (fileID : GoString) (w : Wave n) : Flooding.Flood (Fin n) UInt64 where
  held := Option.map FileMeta.lamportTS ∘ w.entry fileID
  pending := left ∘ w.pulls
  inFlight := w.inFlight.map fun msg => ⟨msg.dest, msg.source, msg.ann.lamportTS⟩

/-- How many pairs of a timestamp of the start and a node rank below a timestamp that a node
announces, as `remoteWins` compares. -/
def rank (fileID : GoString) (nodes : Fin n → Daemon) (ts : UInt64) (i : Fin n) : Nat :=
  ((stamps fileID nodes ×ˢ Finset.univ).filter fun key =>
    toLex (key.1, (nodes key.2).name) < toLex (ts, (nodes i).name)).card

theorem rank_lt {own ts : UInt64} {i j : Fin n} (hown : own ∈ stamps fileID nodes)
    (h : toLex (own, (nodes i).name) < toLex (ts, (nodes j).name)) :
    rank fileID nodes own i < rank fileID nodes ts j := by
  refine Finset.card_lt_card ((Finset.ssubset_iff_of_subset fun key hkey => ?_).mpr
    ⟨(own, i), ?_, ?_⟩)
  · rw [Finset.mem_filter] at hkey ⊢
    exact ⟨hkey.1, hkey.2.trans h⟩
  · simp [hown, h]
  · simp

theorem rank_lt_sq {ts : UInt64} (hts : ts ∈ stamps fileID nodes) (i : Fin n) :
    rank fileID nodes ts i < n ^ 2 := by
  have hless : rank fileID nodes ts i <
      (stamps fileID nodes ×ˢ (Finset.univ : Finset (Fin n))).card := by
    refine Finset.card_lt_card ((Finset.ssubset_iff_of_subset (Finset.filter_subset _ _)).mpr
      ⟨(ts, i), ?_, ?_⟩)
    · simp [hts]
    · simp
  calc rank fileID nodes ts i
      < (stamps fileID nodes).card * n := by simpa using hless
    _ ≤ n ^ 2 := by
        rw [sq]
        exact Nat.mul_le_mul_right n (card_stamps_le nodes)

/-- An announcement that triggers a sync ranks above what the node holds, by the names of the two
nodes. -/
theorem lt_of_triggers {d : Daemon} {ann : FileAnnouncement} {own : FileMeta}
    (h : (d.handleAnnouncement ann).2 = true)
    (hown : d.node.index.getFileMeta ann.fileID = some own) :
    toLex (own.lamportTS, d.name) < toLex (ann.lamportTS, ann.sourceNode) := by
  obtain ⟨hadvances, -⟩ := d.observe_ts_spec ann.lamportTS
  unfold Daemon.handleAnnouncement at h
  split_ifs at h
  simp only [Daemon.wants, hadvances.node, hadvances.name, hown, Bool.and_eq_true] at h
  exact Daemon.remote_wins_iff.mp h.2

/-- The copies of an announcement are a broadcast. -/
theorem map_announce_all (nodes : Fin n → Daemon) (i : Fin n) (m : FileMeta) :
    (announceAll copies nodes i m).map
        (fun msg => (⟨msg.dest, msg.source, msg.ann.lamportTS⟩ : Flooding.Message (Fin n) UInt64)) =
      Flooding.broadcast (receivers copies n) i m.lamportTS := by
  rw [announceAll, List.map_map]
  rfl

/-- A node that keeps its index changes the flood only by how far its pull is. -/
theorem flood_update {i : Fin n} {d : Daemon} (h : d.node.index = (w.nodes i).node.index)
    (pull : Option PullStage) (inFlight : List (Copy n)) :
    flood fileID ⟨Function.update w.nodes i d, Function.update w.pulls i pull, inFlight⟩ =
      ⟨(flood fileID w).held, Function.update (flood fileID w).pending i (left pull),
        inFlight.map fun msg => ⟨msg.dest, msg.source, msg.ann.lamportTS⟩⟩ := by
  simp only [flood, entry_update h, Function.comp_update]

/-- **Every event is a move of the flood.** -/
theorem flood_moves (hvalid : ValidUtf8 fileID) (hw : Ripples fileID nodes w)
    (h : Moves copies fileID w w') :
    Flooding.Moves (receivers copies n) (stamps fileID nodes) (rank fileID nodes) 2
      (flood fileID w) (flood fileID w') := by
  have hmessage {k : Nat} {msg : Copy n} (hmsg : w.inFlight[k]? = some msg) :
      (flood fileID w).inFlight[k]? = some ⟨msg.dest, msg.source, msg.ann.lamportTS⟩ := by
    simp [flood, hmsg]
  cases h with
  | @ignore k msg d hmsg hd hsyncing =>
      have hflood : flood fileID ⟨Function.update w.nodes msg.dest d, w.pulls,
            w.inFlight.eraseIdx k⟩ =
          ⟨(flood fileID w).held, (flood fileID w).pending,
            (flood fileID w).inFlight.eraseIdx k⟩ := by
        simp only [flood, entry_update (congrArg Node.index hd.node), List.eraseIdx_map]
      rw [hflood]
      exact .ignore (hmessage hmsg)
  | @wake k msg d hmsg hwants hfree hd hsyncing =>
      obtain ⟨hfile, hname⟩ := hw.sent msg (List.mem_of_getElem? hmsg)
      rw [hfile, hw.syncing, not_not] at hfree
      rw [flood_update (congrArg Node.index hd.node), ← List.eraseIdx_map]
      refine .wake (hmessage hmsg) (by simp [flood, hfree, left]) fun own hown => ?_
      obtain ⟨m, hentry, rfl⟩ := Option.map_eq_some_iff.mp hown
      have hlt := lt_of_triggers hwants (hfile ▸ hentry)
      rw [hw.names, hname] at hlt
      exact rank_lt (hw.entries _ m hentry) hlt
  | @fetch i j m hasks hentry =>
      have hsame : Function.update w.nodes i (w.nodes i) = w.nodes := Function.update_eq_self _ _
      rw [← hsame, flood_update rfl]
      exact .advance (by simp [flood, hasks, left])
  | @store i m hfetched =>
      obtain ⟨hfile, hstamp⟩ := hw.fetched i m hfetched
      have hflood : flood fileID (w.stored copies fileID i m) =
          ⟨Function.update (flood fileID w).held i (some m.lamportTS),
            Function.update (flood fileID w).pending i 0,
            Flooding.broadcast (receivers copies n) i m.lamportTS ++
              (flood fileID w).inFlight⟩ := by
        rw [flood, entry_stored hvalid hfile]
        simp only [stored, flood, Function.comp_update, left, List.map_append, map_announce_all,
          Option.map_some]
      rw [hflood]
      exact .adopt (by simp [flood, hfetched, left]) hstamp
  | @giveUp i hpull =>
      have hindex : (returned fileID (w.nodes i)).node.index = (w.nodes i).node.index := rfl
      rw [flood_update hindex]
      refine .advance ?_
      obtain ⟨stage, hstage⟩ := Option.ne_none_iff_exists'.mp hpull
      cases stage <;> simp [flood, hstage, left]

theorem length_receivers : (receivers copies n).length = copies * n := by
  simp [receivers]

/-- What an announcement with a timestamp of the start can set off. -/
theorem price_le {ts : UInt64} (hts : ts ∈ stamps fileID nodes) (i : Fin n) :
    Flooding.price (receivers copies n) (rank fileID nodes) 2 ts i ≤
      (copies * n + 3) ^ n ^ 2 := by
  rw [Flooding.price, length_receivers]
  exact Nat.pow_le_pow_right (Nat.succ_pos _) (rank_lt_sq hts i)

/-- What the first announcements can set off. -/
theorem potential_start_le (nodes : Fin n → Daemon) :
    Flooding.potential (receivers copies n) (stamps fileID nodes) (rank fileID nodes) 2
      (flood fileID (start copies fileID nodes)) ≤
        copies * n ^ 2 * (n + 1) * (copies * n + 3) ^ n ^ 2 := by
  set most := copies * n * (copies * n + 3) ^ n ^ 2
  have hmost {ts : UInt64} (hts : ts ∈ stamps fileID nodes) (i : Fin n) :
      (receivers copies n).length *
        Flooding.price (receivers copies n) (rank fileID nodes) 2 ts i ≤ most := by
    rw [length_receivers]
    exact Nat.mul_le_mul_left _ (price_le hts i)
  have hbalance (i : Fin n) : Flooding.balance (receivers copies n) (stamps fileID nodes)
      (rank fileID nodes) 2 (flood fileID (start copies fileID nodes)) i ≤ n * most := by
    have hidle : (flood fileID (start copies fileID nodes)).pending i = 0 := rfl
    rw [Flooding.balance, Flooding.debt, if_pos hidle, Nat.zero_add, Flooding.credit]
    calc _ ≤ ∑ _ts ∈ stamps fileID nodes, most :=
          (Finset.sum_le_sum_of_subset (Finset.filter_subset _ _)).trans
            (Finset.sum_le_sum fun ts hts => hmost hts i)
      _ = (stamps fileID nodes).card * most := by simp
      _ ≤ n * most := Nat.mul_le_mul_right most (card_stamps_le nodes)
  have hcost : Flooding.cost (receivers copies n) (rank fileID nodes) 2
      (flood fileID (start copies fileID nodes)).inFlight ≤ n * most := by
    refine le_trans (b := ((List.finRange n).map fun _ => most).sum) ?_ (by simp)
    rw [flood, start, Flooding.cost, List.map_map, List.map_flatMap, List.flatMap,
      List.sum_flatten, List.map_map]
    refine List.sum_le_sum fun i _ => ?_
    cases hi : (nodes i).node.index.getFileMeta fileID with
    | none => simp [hi]
    | some m =>
        have hle := Flooding.cost_broadcast_le (receivers copies n) (rank fileID nodes) 2 i
          m.lamportTS
        rw [← map_announce_all nodes i m, Flooding.cost, List.map_map] at hle
        simp only [Function.comp_apply, hi]
        exact hle.trans (hmost (mem_stamps hi) i)
  calc _ ≤ n * most + ∑ _i : Fin n, n * most :=
        Nat.add_le_add hcost (Finset.sum_le_sum fun i _ => hbalance i)
    _ = copies * n ^ 2 * (n + 1) * (copies * n + 3) ^ n ^ 2 := by
        simp only [Finset.sum_const, Finset.card_univ, Fintype.card_fin, smul_eq_mul, most]
        ring

/-- Three nodes that have written the file, `a` long ago, `b` last. -/
def spread (i : Fin 3) : Daemon :=
  let node (name : String) (root : Hash) (ts : UInt64) : Daemon :=
    .new (ascii name) (ascii "/d") (.set .empty ⟨ascii "f", root, ts, [], 0⟩) (fun _ => none)
      fun _ => none
  match i with
  | 0 => node "a" (.sample [1]) 1
  | 1 => node "b" (.sample [2]) 9
  | 2 => node "c" (.sample [3]) 5

end Wave

end NuSync
