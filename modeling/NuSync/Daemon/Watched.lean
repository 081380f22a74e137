import NuSync.Daemon.Overlap
import NuSync.Orchestrator.Assembly
import NuSync.Watcher

/-!
# A watched file

One file below the watched directory: the user writes it, pulls assemble versions of it, and the
watcher's debounce starts `HandleFileChange` calls on it. Three clocks meet here: the age of the
quiet mark, the deadline of the debounce timer and the pace of the writes. Time is part of the
state and passes by any amount between any two steps.
-/

namespace NuSync

open Go Lib Store Chunker Scheduler Orchestrator Watcher

/-- The context of a watched file. The path under which fsnotify reports the file is the one the
pull writes to, and it is clean. -/
structure WatchContext extends RaceContext where
  clean_path : clean path = path

/-- The context of a file that is pulled to its place below a directory. -/
def WatchContext.ofPulled (ctx : RaceContext) (baseDir : GoString) (hfile : ctx.fileID ≠ [])
    (hpath : ctx.path = outPath baseDir ctx.fileID) : WatchContext :=
  ⟨ctx, by rw [hpath, outPath, clean_join baseDir hfile]⟩

/-- What has happened to the file: when a pull last marked its path, the metadata of the pulls that
opened it, the last one first, whether that one has written all chunks, and whether the last
change to the file was the user's. -/
structure History where
  markedAt : Option Int
  opened : List FileMeta
  whole : Bool
  userWrote : Bool

/-- The history before anything happened. -/
def History.none : History := ⟨.none, [], false, false⟩

/-- The history after a step of a pull that has led to this place. -/
def History.afterPull (history : History) (now : Int) (changed : Bool) (pc : AssemblyPc) :
    History where
  markedAt :=
    match pc with
    | .create _ => some now
    | _ => history.markedAt
  opened :=
    match pc with
    | .truncate m => m :: history.opened
    | _ => history.opened
  whole :=
    match pc with
    | .truncate _ | .write .. => false
    | .close _ => true
    | _ => history.whole
  userWrote := history.userWrote && !changed

/-- The file with everything that runs on it. -/
structure WatchedFile (ι : Type*) where
  now : Int
  overlap : Overlap ι
  watch : PathWatch
  pull : AssemblyPc
  history : History

/-- The daemon of the file. -/
def WatchedFile.daemon {ι : Type*} (s : WatchedFile ι) : Daemon := s.overlap.daemon

/-- What happens: time passes, the user writes the file, the watcher, a call or a pull takes a
step. `reports` is how many events fsnotify makes of a write; a write of the user makes one or
more. -/
inductive WatchedEvent (ι : Type*) where
  | wait (delay : Nat)
  | userWrite (content : Bytes) (reports : Nat)
  | watch (event : WatchEvent)
  | call (i : ι) (event : ChangeEvent)
  | pull (event : AssemblyEvent) (reports : Nat)

namespace WatchContext

variable {ι : Type*} [DecidableEq ι] (ctx : WatchContext)

/-- The content of the file. -/
def file (s : WatchedFile ι) : Option Bytes := s.daemon.node.disk ctx.path

/-- The watcher when a call takes a step: the call begins when a goroutine calls `onEvent`. -/
def callWatch (s : WatchedFile ι) : ChangeEvent → Option PathWatch
  | .isQuiet now => if now = s.now then s.watch.take else none
  | _ => some s.watch

/-- The file after a step of the pull that has led to this node and this place. -/
def afterPull (s : WatchedFile ι) (node : Node) (pc : AssemblyPc) (reports : Nat) :
    WatchedFile ι :=
  let changed := decide (node.disk ctx.path ≠ ctx.file s)
  { s with
    overlap := { s.overlap with
      daemon := { s.daemon with node := node }
      fresh := fun i => s.overlap.fresh i && !changed }
    watch := s.watch.report reports
    pull := pc
    history := s.history.afterPull s.now changed pc }

/-- One step. -/
def step (s : WatchedFile ι) : WatchedEvent ι → Option (WatchedFile ι)
  | .wait delay => some { s with now := s.now + delay }
  | .userWrite content reports =>
      some { s with
        overlap := { s.overlap with
          daemon := { s.daemon with node := s.daemon.node.setFile ctx.path (some content) }
          fresh := fun _ => false }
        watch := s.watch.report (reports + 1)
        history := { s.history with userWrote := true } }
  | .watch event =>
      (s.watch.step s.now (ctx.file s).isSome event).map fun watch => { s with watch := watch }
  | .call i event =>
      (callWatch s event).bind fun watch =>
        (ctx.callStep s.overlap i event).map fun overlap =>
          { s with watch := watch, overlap := overlap }
  | .pull event reports =>
      (assemblyStep ctx.fileID ctx.path s.now s.daemon.node s.pull event).map fun (node, pc) =>
        ctx.afterPull s node pc reports

/-! ## What a call and a pull do -/

variable {ctx} {s s' : WatchedFile ι}

/-- A call steps on its own. When it begins it takes the event from a goroutine. -/
theorem call_cases {i : ι} {event : ChangeEvent} (h : ctx.step s (.call i event) = some s') :
    ∃ watch overlap, ctx.callStep s.overlap i event = some overlap ∧
      s' = { s with watch := watch, overlap := overlap } ∧
      ((∃ now, event = .isQuiet now ∧ now = s.now ∧ s.watch.take = some watch) ∨
        (∀ now, event ≠ .isQuiet now) ∧ watch = s.watch) := by
  obtain ⟨watch, hwatch, h⟩ := Option.bind_eq_some_iff.mp h
  obtain ⟨overlap, hoverlap, rfl⟩ := Option.map_eq_some_iff.mp h
  refine ⟨watch, overlap, hoverlap, rfl, ?_⟩
  cases event with
  | isQuiet now =>
      simp only [callWatch] at hwatch
      split_ifs at hwatch with hnow
      exact .inl ⟨now, rfl, hnow, hwatch⟩
  | openFile | read | compareRoot | nextTS | putMeta =>
      cases hwatch
      exact .inr ⟨nofun, rfl⟩

/-- A pull steps on its own. -/
theorem pull_cases {event : AssemblyEvent} {reports : Nat}
    (h : ctx.step s (.pull event reports) = some s') :
    ∃ node pc, AssemblyMoves ctx.path s.now s.daemon.node s.pull event node pc ∧
      s' = ctx.afterPull s node pc reports := by
  obtain ⟨⟨node, pc⟩, hstep, rfl⟩ := Option.map_eq_some_iff.mp h
  exact ⟨node, pc, assembly_step_moves hstep, rfl⟩

/-! ## A file and its pull -/

/-- The file `f` below `/d`, watched. -/
def single : WatchContext := .ofPulled RaceContext.single (ascii "/d") (by decide) (by decide)

/-- The record of a peer's version, in two chunks. -/
def pulledMeta : FileMeta :=
  Daemon.fileMeta Hash.sample (ascii "f")
    (chunksFrom Hash.sample 0 0 [ascii "pul", ascii "led"]) 1

/-- A node that has heard of that version and has its chunks, but not the file. -/
def beforePull : WatchedFile Bool where
  now := 0
  overlap :=
    { daemon := { Daemon.new (ascii "n") (ascii "/d") .empty
        (fun hash => [ascii "pul", ascii "led"].find? fun data => Hash.sample data = hash)
        (fun _ => none) with clock := 1 }
      calls := fun _ => .isQuiet
      fresh := fun _ => false
      lastRead := none }
  watch := .idle
  pull := .idle none
  history := .none

/-- The pull marks the path, creates the file and sets its length. -/
def openFile : List (WatchedEvent Bool) :=
  [.pull (.start pulledMeta) 0, .pull .mark 0, .pull (.create true) 1, .pull (.truncate true) 1]

/-- The pull writes a chunk. -/
def writeChunk : WatchedEvent Bool := .pull (.write true none) 1

/-- The pull closes the file and stores the metadata. -/
def closeFile : List (WatchedEvent Bool) := [.pull (.close true) 0, .pull (.putMeta true) 0]

/-- This many milliseconds pass. -/
def waitFor (ms : Nat) : WatchedEvent Bool := .wait (ms * 1000000)

/-- The loop reads the events there are, the debounce fires after its 300 ms, and a call makes its
check at this time. -/
def debounce (reported : Nat) (i : Bool) (ms : Nat) : List (WatchedEvent Bool) :=
  List.replicate reported (.watch .deliver) ++
    [waitFor 300, .watch .expire, .watch .delete, .watch .stat, .call i (.isQuiet (ms * 1000000))]

/-- A call reads the file. -/
def readCall (i : Bool) (content : Bytes) : List (WatchedEvent Bool) :=
  [.call i .openFile, .call i (.read content), .call i (.read [])]

/-- A call runs from its comparison to its end. -/
def finishCall (i : Bool) : List (WatchedEvent Bool) :=
  [.call i (.compareRoot ⟨fun _ => true, true⟩), .call i .nextTS, .call i (.putMeta true)]

end WatchContext

end NuSync
