import NuSync.Daemon.Step

/-!
# The Lamport clock of a node

A local write should get a timestamp above everything its node already knew. It does as long as
the clock stays at or above every timestamp in the index and every announced one, which four
kinds of events can break: a restart, which forgets the clock but not the index; a pull that
stores a record newer than the clock; an announcement that comes back under the node's own name;
and a write at the end of the `uint64` range. `local_write_outranks` is the result.
-/

namespace NuSync

open Go Lib Store Chunker Discovery Orchestrator

/-- A running process: its daemon and the timestamps of the announcements it has handled. -/
structure Process where
  daemon : Daemon
  heard : List UInt64

namespace Process

/-- The first process of a node, on a directory that was never synced. -/
def fresh (name baseDir : GoString) (objects : Hash → Option Bytes)
    (disk : GoString → Option Bytes) : Process :=
  ⟨.new name baseDir .empty objects disk, []⟩

/-- What has been heard after an event. A new process has heard nothing. -/
def heardAfter (heard : List UInt64) : Event → List UInt64
  | .announcement ann => ann.lamportTS :: heard
  | .restart => []
  | _ => heard

/-- One event at the node. -/
def step (sha256 : Bytes → Hash) (cdc : FastCdc) (p : Process) (event : Event) :
    Option Process :=
  (p.daemon.step sha256 cdc event).map fun d => ⟨d, heardAfter p.heard event⟩

/-- The event does not let the clock fall behind: a call that indexes a file, and so draws a
timestamp, does not wrap it around; a record that a pull stores, and so announces, is not above
it; an announcement under the node's own name is not above it; and a restart loses no timestamp.
-/
def KeepsPace (sha256 : Bytes → Hash) (cdc : FastCdc) (p : Process) : Event → Prop
  | .fileChange names now io =>
      p.daemon.indexed sha256 cdc (.fileChange names now io) ≠ none →
        p.daemon.clock < p.daemon.clock + 1
  | .ingest path io =>
      p.daemon.indexed sha256 cdc (.ingest path io) ≠ none → p.daemon.clock < p.daemon.clock + 1
  | .announcement ann => ann.sourceNode = p.daemon.name → ann.lamportTS ≤ p.daemon.clock
  | .pull fileID env => ∀ outcome storedID root ts,
      pull sha256 p.daemon.baseDir fileID env p.daemon.node = some outcome →
      outcome.announced = some (storedID, root, ts) → ts ≤ p.daemon.clock
  | .restart => ∀ fileID m, p.daemon.node.index.getFileMeta fileID = some m → m.lamportTS = 0
  | _ => True

/-- No entry of the index is above this timestamp. -/
def Bounds (clock : UInt64) (index : BoltMetaStore) : Prop :=
  ∀ fileID m, index.getFileMeta fileID = some m → m.lamportTS ≤ clock

/-- The clock covers the index and what was heard. -/
structure ClockCovers (p : Process) : Prop where
  index : Bounds p.daemon.clock p.daemon.node.index
  heard : ∀ ts ∈ p.heard, ts ≤ p.daemon.clock

theorem Bounds.mono {clock clock' : UInt64} {index : BoltMetaStore} (h : Bounds clock index)
    (hle : clock ≤ clock') : Bounds clock' index :=
  fun fileID m hm => (h fileID m hm).trans hle

theorem Bounds.set {clock : UInt64} {index : BoltMetaStore} {m : FileMeta}
    (h : Bounds clock index) (hm : m.lamportTS ≤ clock) : Bounds clock (index.set m) := by
  intro fileID found hfound
  rcases BoltMetaStore.get_set_cases hfound with ⟨-, rfl⟩ | hold
  · exact hm
  · exact h fileID found hold

theorem fresh_covers (name baseDir : GoString) (objects : Hash → Option Bytes)
    (disk : GoString → Option Bytes) : ClockCovers (fresh name baseDir objects disk) :=
  ⟨nofun, nofun⟩

variable {sha256 : Bytes → Hash} {cdc : FastCdc} {p p' : Process} {event : Event}

/-- The clock after an event covers the index, and has not gone back unless the process
restarted. -/
theorem index_step (hp : ClockCovers p) (hpace : p.KeepsPace sha256 cdc event) {d : Daemon}
    (h : p.daemon.step sha256 cdc event = some d) :
    Bounds d.clock d.node.index ∧ (event ≠ .restart → p.daemon.clock ≤ d.clock) := by
  rcases (Daemon.step_cases h).2 with
    ⟨hindex, hclock⟩ | ⟨m, commit, hevent, hindexed, hts, hclock, hindex⟩ |
    ⟨fileID, env, outcome, -, m, rfl, hpull, hannounced, -, hclock, hindex⟩ | ⟨rfl, hindex⟩
  · rw [hindex]
    exact ⟨hp.index.mono hclock, fun _ => hclock⟩
  · have hnext : p.daemon.clock < p.daemon.clock + 1 := by
      cases event with
      | fileChange | ingest => exact hpace hindexed
      | _ => exact hevent.elim
    rw [hclock]
    refine ⟨?_, fun _ => hnext.le⟩
    have hold := hp.index.mono hnext.le
    rcases Daemon.put_ignored_cases p.daemon.node.index m commit with hput | ⟨-, -, hput⟩ <;>
      rw [hindex, hput]
    · exact hold
    · exact hold.set hts.le
  · rw [hclock, hindex]
    exact ⟨hp.index.set (hpace outcome m.fileID m.merkleRoot m.lamportTS hpull hannounced),
      fun _ => le_rfl⟩
  · refine ⟨fun fileID m hm => ?_, fun hne => absurd rfl hne⟩
    rw [hpace fileID m (hindex ▸ hm)]
    exact UInt64.zero_le

/-- The timestamp of a handled announcement is covered. -/
theorem announced_le (ann : FileAnnouncement)
    (hpace : ann.sourceNode = p.daemon.name → ann.lamportTS ≤ p.daemon.clock) {d : Daemon}
    (h : p.daemon.step sha256 cdc (.announcement ann) = some d) : ann.lamportTS ≤ d.clock := by
  obtain ⟨hadvances, hobserved⟩ := p.daemon.handle_announcement_spec ann
  have hann : ann.lamportTS ≤ (p.daemon.handleAnnouncement ann).1.clock := by
    by_cases hown : ann.sourceNode = p.daemon.name
    · exact (hpace hown).trans hadvances.clock
    · exact hobserved hown
  cases h
  refine hann.trans ?_
  split_ifs
  · exact (Daemon.trigger_sync_advances _ ann.fileID).clock
  · exact le_rfl

/-- One event that keeps pace keeps the clock above everything known. -/
theorem step_covers (hp : ClockCovers p) (hpace : p.KeepsPace sha256 cdc event)
    (h : p.step sha256 cdc event = some p') : ClockCovers p' := by
  obtain ⟨d, hd, rfl⟩ := Option.map_eq_some_iff.mp h
  obtain ⟨hindex, hclock⟩ := index_step hp hpace hd
  refine ⟨hindex, fun ts hts => ?_⟩
  cases event with
  | announcement ann =>
      rcases List.mem_cons.mp hts with rfl | hts
      · exact announced_le ann hpace hd
      · exact (hp.heard ts hts).trans (hclock nofun)
  | restart => cases hts
  | fileChange | ingest | sync | reconcile | pull | userWrite =>
      exact (hp.heard ts hts).trans (hclock nofun)

/-- A record `HandleFileChange` indexes carries the next timestamp. -/
theorem change_ts {d : Daemon} {path : GoString} {now : Int} {io : Daemon.IndexAnswers}
    {m : FileMeta} (h : (d.handleFileChange sha256 cdc path now io).2 = some m) :
    m.lamportTS = d.clock + 1 := by
  obtain ⟨quiet, hskip | ⟨content, -, -, hchange⟩⟩ :=
    d.handle_file_change_cases sha256 cdc path now io
  · rw [hskip] at h
    cases h
  · rw [hchange] at h
    cases h
    rfl

/-- **A local write outranks what its node knew**, in every state reached by events that keep
pace: its timestamp is above that of the entry it replaces and above every announced one. -/
theorem local_write_outranks (name baseDir : GoString) (objects : Hash → Option Bytes)
    (disk : GoString → Option Bytes) (events : List Event)
    (hrun : run (step sha256 cdc) (fresh name baseDir objects disk) events = some p)
    (hpace : Along (step sha256 cdc) (KeepsPace sha256 cdc) (fresh name baseDir objects disk)
      events)
    (path : GoString) (now : Int) (io : Daemon.IndexAnswers)
    (hclock : p.daemon.clock < p.daemon.clock + 1) (m : FileMeta)
    (hwrite : (p.daemon.handleFileChange sha256 cdc path now io).2 = some m) :
    (∀ old, p.daemon.node.index.getFileMeta m.fileID = some old → old.lamportTS < m.lamportTS) ∧
      ∀ ts ∈ p.heard, ts < m.lamportTS := by
  have hcovers : ClockCovers p :=
    run_invariant ClockCovers hrun hpace (fresh_covers name baseDir objects disk)
      fun _ _ _ hp hguard hstep => step_covers hp hguard hstep
  rw [change_ts hwrite]
  exact ⟨fun old hold => lt_of_le_of_lt (hcovers.index m.fileID old hold) hclock,
    fun ts hts => lt_of_le_of_lt (hcovers.heard ts hts) hclock⟩

/-- The user saves a file below `/d` and the watcher reports it. -/
def save (name : String) (content : String) : List Event :=
  [.userWrite (ascii "/d/" ++ ascii name) (some (ascii content)),
    .fileChange [ascii name] 0 ⟨fun _ => true, true⟩]

/-- The record of a short file with this content. -/
def shortMeta (name : String) (content : String) (ts : UInt64) : FileMeta :=
  ⟨ascii name, .sample (ascii content), ts, [.sample (ascii content)], lenUInt64 (ascii content)⟩

/-- A second version of a file, after news of another one, outranks the first and the news. -/
theorem local_write_outranks_second_version :
    let start := fresh (ascii "n") (ascii "/d") (fun _ => none) fun _ => none
    let events := save "f" "one" ++ [.announcement ⟨ascii "g", .sample [], 7, ascii "m"⟩,
      .userWrite (ascii "/d/f") (some (ascii "two"))]
    let old := shortMeta "f" "one" 1
    let m := shortMeta "f" "two" 8
    ∃ p, run (step Hash.sample .fixed) start events = some p ∧
      (p.daemon.handleFileChange Hash.sample .fixed (ascii "/d/f") 0 ⟨fun _ => true, true⟩).2 =
        some m ∧
      p.daemon.node.index.getFileMeta m.fileID = some old ∧ p.heard = [7] ∧
      old.lamportTS < m.lamportTS ∧ 7 < m.lamportTS := by
  intro start events old m
  obtain ⟨p, hrun⟩ : ∃ p, run (step Hash.sample .fixed) start events = some p := ⟨_, rfl⟩
  have hstate : (run (step Hash.sample .fixed) start events).map (fun p =>
      ((p.daemon.handleFileChange Hash.sample .fixed (ascii "/d/f") 0 ⟨fun _ => true, true⟩).2,
        p.daemon.node.index.getFileMeta m.fileID, p.heard, p.daemon.clock)) =
      some (some m, some old, [7], 7) := by
    decide
  simp only [hrun, Option.map_some, Option.some.injEq, Prod.mk.injEq] at hstate
  obtain ⟨hwrite, hold, hheard, hclock⟩ := hstate
  have hpace : Along (step Hash.sample .fixed) (KeepsPace .sample .fixed) start events :=
    And.intro trivial (And.intro (fun _ => show (0 : UInt64) < 0 + 1 by decide)
      (And.intro (fun h => absurd h (by decide)) (And.intro trivial trivial)))
  obtain ⟨hindex, hann⟩ := local_write_outranks (ascii "n") (ascii "/d") (fun _ => none)
    (fun _ => none) events hrun hpace (ascii "/d/f") 0 ⟨fun _ => true, true⟩
    (by rw [hclock]; decide) m hwrite
  exact ⟨p, hrun, hwrite, hold, hheard, hindex old hold, hann 7 (by simp [hheard])⟩

/-- A restart sets the clock back to zero while the index keeps its timestamps: the third version
of a file is written with timestamp 1 over the second one with timestamp 2. -/
theorem local_write_outranked_after_restart :
    let start := fresh (ascii "n") (ascii "/d") (fun _ => none) fun _ => none
    let events := save "f" "one" ++ save "f" "two" ++
      [.restart, .userWrite (ascii "/d/f") (some (ascii "three"))]
    (run (step Hash.sample .fixed) start events).map (fun p =>
      (p.daemon.node.index.getFileMeta (ascii "f"),
        (p.daemon.handleFileChange Hash.sample .fixed (ascii "/d/f") 0 ⟨fun _ => true, true⟩).2)) =
      some (some (shortMeta "f" "two" 2), some (shortMeta "f" "three" 1)) := by
  decide

end Process

end NuSync
