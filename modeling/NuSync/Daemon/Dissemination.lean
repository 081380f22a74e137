import NuSync.Daemon.Convergence

/-!
# Writes with different timestamps

A tie between two timestamps is decided by the names of the nodes that hold the versions, and so a
cluster can settle on another version than the last one written. Writes with different timestamps
meet no ties: all versions come from the writes of the start (`Disseminates`), and so everyone ends
with the latest of them (`distinct_writes_agree`).
-/

namespace NuSync

open Go Lib Store Control Discovery Orchestrator

namespace Gossip

variable {n : Nat} {fileID : GoString} {g g' : Gossip n} {k : Nat}

/-- **What a delivery does**: the announcement leaves every version as it is, or its receiver
takes over what the announcer holds. -/
theorem step_cases (h : g.step fileID k = some g') :
    ∃ msg, g.inFlight[k]? = some msg ∧
      let rest : LastWriter.Replicas (Fin n) Version :=
        ⟨g.held fileID, (g.replicas fileID).inFlight.eraseIdx k⟩
      (g'.replicas fileID = rest ∨
      ∃ v, g.held fileID msg.source = some v ∧
        g'.replicas fileID = LastWriter.adopt (List.finRange n) rest msg.dest v) := by
  obtain ⟨msg, hmsg, rfl⟩ := Option.map_eq_some_iff.mp h
  refine ⟨msg, hmsg, ?_⟩
  have hheld : (g.replicas fileID).held = g.held fileID := rfl
  dsimp only
  split_ifs with htriggers
  · rw [replicas_sync, replicas_hear, LastWriter.sync, hheld]
    cases hsource : g.held fileID msg.source with
    | none => exact .inl rfl
    | some v =>
        dsimp only
        split_ifs
        · exact .inl rfl
        · exact .inr ⟨v, rfl, rfl⟩
  · rw [replicas_hear]
    exact .inl rfl

theorem WellFormed.step (hg : g.WellFormed fileID) (h : g.step fileID k = some g') :
    g'.WellFormed fileID := by
  obtain ⟨msg, -, rfl⟩ := Option.map_eq_some_iff.mp h
  dsimp only
  split_ifs
  · exact (hg.hear k msg).sync msg.dest msg.source
  · exact hg.hear k msg

/-- The version has content and timestamp of one of the writes of the start. -/
def Written (fileID : GoString) (nodes : Fin n → Daemon) (v : Version) : Prop :=
  ∃ j m, (nodes j).node.index.getFileMeta fileID = some m ∧ v.root = m.merkleRoot ∧
    v.ts = m.lamportTS

/-- What a cluster holds and announces comes from the writes of the start. -/
structure Disseminates (fileID : GoString) (nodes : Fin n → Daemon) (g : Gossip n) : Prop where
  wellFormed : g.WellFormed fileID
  versions : ∀ i v, g.held fileID i = some v → Written fileID nodes v
  announced : ∀ msg ∈ (g.replicas fileID).inFlight, Written fileID nodes msg.version

variable {nodes : Fin n → Daemon}

theorem disseminates_start (hnames : Function.Injective fun i => (nodes i).name) :
    Disseminates fileID nodes (start fileID nodes) := by
  have hstart (i : Fin n) (v : Version) (hv : (start fileID nodes).held fileID i = some v) :
      Written fileID nodes v := by
    obtain ⟨m, hm, rfl⟩ := Option.map_eq_some_iff.mp hv
    exact ⟨i, m, hm, rfl, rfl⟩
  refine ⟨well_formed_start hnames, hstart, fun msg hmsg => ?_⟩
  rw [replicas_start, LastWriter.start] at hmsg
  obtain ⟨i, -, hmsg⟩ := List.mem_flatMap.mp hmsg
  cases hi : (start fileID nodes).held fileID i with
  | none => simp [hi] at hmsg
  | some v =>
      rw [hi] at hmsg
      obtain ⟨-, -, -, rfl⟩ := LastWriter.mem_broadcast.mp hmsg
      exact hstart i _ hi

/-- Every delivery keeps the invariant. -/
theorem Disseminates.step (hg : Disseminates fileID nodes g) (h : g.step fileID k = some g') :
    Disseminates fileID nodes g' := by
  obtain ⟨msg, -, hsame | ⟨v, hsource, hadopt⟩⟩ := step_cases h
  · have hheld : g'.held fileID = g.held fileID := congrArg LastWriter.Replicas.held hsame
    have hflight := congrArg LastWriter.Replicas.inFlight hsame
    refine ⟨hg.wellFormed.step h, by rw [hheld]; exact hg.versions, fun other hother => ?_⟩
    rw [hflight] at hother
    exact hg.announced other (List.mem_of_mem_eraseIdx hother)
  · have hheld : g'.held fileID = Function.update (g.held fileID) msg.dest (some v) :=
      congrArg LastWriter.Replicas.held hadopt
    have hflight := congrArg LastWriter.Replicas.inFlight hadopt
    have hwritten := hg.versions msg.source v hsource
    refine ⟨hg.wellFormed.step h, fun i found hfound => ?_, fun other hother => ?_⟩
    · rw [hheld] at hfound
      by_cases hi : i = msg.dest
      · subst hi
        rw [Function.update_self, Option.some.injEq] at hfound
        exact hfound ▸ hwritten
      · rw [Function.update_of_ne hi] at hfound
        exact hg.versions i found hfound
    · -- a new message is about the adopted version, any other one was in flight before
      rw [hflight] at hother
      rcases List.mem_append.mp hother with hnew | hold
      · rw [(LastWriter.mem_broadcast.mp hnew).2.2.2]
        exact hwritten
      · exact hg.announced other (List.mem_of_mem_eraseIdx hold)

/-- Writes of different contents have different timestamps. -/
def DistinctWrites (fileID : GoString) (nodes : Fin n → Daemon) : Prop :=
  ∀ i j, ∀ m ∈ (nodes i).node.index.getFileMeta fileID,
    ∀ m' ∈ (nodes j).node.index.getFileMeta fileID,
      m.lamportTS = m'.lamportTS → m.merkleRoot = m'.merkleRoot

instance (nodes : Fin n → Daemon) : Decidable (DistinctWrites fileID nodes) :=
  inferInstanceAs (Decidable (∀ _ _, ∀ _ ∈ _, ∀ _ ∈ _, _ → _))

/-- Distinct writes never meet in a tie. -/
theorem Disseminates.tie_by_writer (hg : Disseminates fileID nodes g)
    (hdistinct : DistinctWrites fileID nodes) {msg : Delivery n} (hmsg : msg ∈ g.inFlight) :
    g.TieByWriter fileID msg := by
  intro own hown hroot hts
  have hheld : g.held fileID msg.dest =
      some ⟨own.merkleRoot, own.lamportTS, g.writer msg.dest⟩ := by
    rw [held, hown, Option.map_some]
  obtain ⟨i, m, hm, hmroot, hmts⟩ := hg.versions msg.dest _ hheld
  obtain ⟨j, m', hm', hroot', hts'⟩ := hg.announced (message msg) (List.mem_map_of_mem hmsg)
  refine absurd ?_ hroot
  calc own.merkleRoot = m.merkleRoot := hmroot
    _ = m'.merkleRoot := hdistinct i j m hm m' hm' (hmts.symm.trans (hts.trans hts'))
    _ = msg.ann.merkleRoot := hroot'.symm

/-- **Writes with different timestamps settle.** If no two contents were written with one
timestamp, then in whichever order announcements are delivered, once none in flight triggers a
sync every node has the content with the greatest timestamp. -/
theorem distinct_writes_agree (hnames : Function.Injective fun i => (nodes i).name)
    (hdistinct : DistinctWrites fileID nodes) {w : Fin n} {last : FileMeta}
    (hlast : (nodes w).node.index.getFileMeta fileID = some last)
    (hgreatest : ∀ i, ∀ m ∈ (nodes i).node.index.getFileMeta fileID,
      m.lamportTS ≤ last.lamportTS)
    {events : List Nat} (hrun : run (step fileID) (start fileID nodes) events = some g)
    (hquiet : g.Quiescent) (i : Fin n) :
    ∃ m, g.entry fileID i = some m ∧ m.merkleRoot = last.merkleRoot := by
  have hstart : Disseminates fileID nodes (start fileID nodes) := disseminates_start hnames
  have hend : Disseminates fileID nodes g :=
    Reachable.invariant ⟨events, hrun⟩ _ hstart fun _ _ _ hg hstep => hg.step hstep
  have hties : Along (step fileID) (TiesByWriter fileID) (start fileID nodes) events :=
    along_of_invariant (Disseminates fileID nodes) (along_true events) hstart
      (fun _ _ _ hg _ hstep => hg.step hstep) fun _ _ hg _ msg hmsg =>
        hg.tie_by_writer hdistinct (List.mem_of_getElem? hmsg)
  obtain ⟨hreplicas, hwell⟩ := run_replicas hstart.wellFormed hrun hties
  rw [replicas_start] at hreplicas
  have hw : (start fileID nodes).held fileID w =
      some ⟨last.merkleRoot, last.lamportTS, (nodes w).name⟩ := by
    simp [held, entry, start, hlast]
  have htop (j : Fin n) (v : Version) (hv : (start fileID nodes).held fileID j = some v)
      (hne : v.root ≠ last.merkleRoot) :
      v.rank < Version.rank ⟨last.merkleRoot, last.lamportTS, (nodes w).name⟩ := by
    obtain ⟨m, hm, rfl⟩ := Option.map_eq_some_iff.mp hv
    refine Prod.Lex.toLex_lt_toLex.mpr (.inl (lt_of_le_of_ne (hgreatest j m hm) fun heq => hne ?_))
    exact hdistinct j w m hm last hlast heq
  have hquiet' : LastWriter.Quiescent Version.root Version.rank (g.replicas fileID) := by
    intro message hmessage
    obtain ⟨msg, hmsg, rfl⟩ := List.mem_map.mp hmessage
    exact (triggers_eq_wants hwell hmsg (hend.tie_by_writer hdistinct hmsg)).symm.trans
      (hquiet msg hmsg)
  obtain ⟨v, hv, hroot⟩ :=
    LastWriter.content_of_quiescent List.mem_finRange hw htop hreplicas hquiet' i
  obtain ⟨m, hm, rfl⟩ := Option.map_eq_some_iff.mp hv
  exact ⟨m, hm, hroot⟩

/-- Three nodes: `u` has written the file, `w` has written it later, `z` has not. -/
def relay (i : Fin 3) : Daemon :=
  let node (name : String) (index : BoltMetaStore) : Daemon :=
    .new (ascii name) (ascii "/d") index (fun _ => none) fun _ => none
  match i with
  | 0 => node "u" (.set .empty ⟨ascii "f", .sample [1], 1, [], 0⟩)
  | 1 => node "w" (.set .empty ⟨ascii "f", .sample [2], 2, [], 0⟩)
  | 2 => node "z" .empty

/-- The earlier write reaches `z` first and is passed on by it: all nodes settle on the later
one. -/
theorem distinct_writes_agree_relay : ∃ g,
    run (step (ascii "f")) (start (ascii "f") relay) [1, 4, 5] = some g ∧ g.Quiescent ∧
      ∀ i, ∃ m, g.entry (ascii "f") i = some m ∧ m.merkleRoot = .sample [2] := by
  have hnames : Function.Injective fun i => (relay i).name := by
    intro i j
    revert i j
    decide
  have hlast : (relay 1).node.index.getFileMeta (ascii "f") =
      some ⟨ascii "f", .sample [2], 2, [], 0⟩ := by decide
  obtain ⟨g, hrun, hquiet⟩ : ∃ g,
      run (step (ascii "f")) (start (ascii "f") relay) [1, 4, 5] = some g ∧ g.Quiescent :=
    ⟨_, rfl, by decide⟩
  exact ⟨g, hrun, hquiet,
    distinct_writes_agree hnames (by decide) hlast (by decide) hrun hquiet⟩

end Gossip

end NuSync
