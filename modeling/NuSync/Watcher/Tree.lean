import NuSync.Go.Bytes
import NuSync.Lib.DirTree
import NuSync.Watcher.Loop

/-!
# The watched tree

`Watcher.Start` of `internal/watcher/watcher.go` over a directory tree that keeps changing. The walk
registers the directories that are there when the watcher starts. fsnotify is not recursive, and
`fire` returns when its path is a directory, so what is created later is never registered:
`tree_watched_iff` says that this is the only way in which a change can be missed.
-/

namespace NuSync.Watcher

open NuSync.Lib NuSync.Go

/-- The names that lead from `rootDir` to an entry. -/
abbrev TreePath := List GoString

/-- `info.Name()[0] == '.'`. -/
def isHidden (name : GoString) : Bool := name.head? == some 0x2E

/-- The tree below `rootDir`, the directories that are registered with fsnotify, the events that it
has reported and the loop has not read, the loop, and the calls of `onEvent`. -/
structure TreeWatch where
  tree : DirTree GoString
  watched : List TreePath
  reported : List (TreePath × UInt32)
  loop : Loop TreePath
  called : List TreePath

/-- What happens: a file or a directory is created (`os.MkdirAll` creates one after the other what
is missing), a file is written, the loop reads an event, or something happens without one. -/
inductive TreeEvent where
  | create (kind : EntryKind) (path : TreePath)
  | write (path : TreePath)
  | deliver
  | own (event : LoopEvent TreePath)

namespace TreeWatch

/-- After `filepath.Walk`: all directories are registered but the hidden ones and what is below
them. -/
def start (now : Int) (tree : DirTree GoString) : TreeWatch :=
  ⟨tree, tree.walk isHidden, [], .start now, []⟩

/-- fsnotify reports what happens in the directories that are registered. -/
def report (s : TreeWatch) (path : TreePath) (op : UInt32) : List (TreePath × UInt32) :=
  if path.dropLast ∈ s.watched then [(path, op)] else []

/-- What `os.Stat` says of a path. -/
def isFile (s : TreeWatch) (path : TreePath) : Bool := s.tree.kind path == some .file

/-- The call of `onEvent` that a step makes. -/
def calls (s : TreeWatch) : LoopEvent TreePath → List TreePath
  | .call g => (s.loop.fires[g]?.map Fire.path).toList
  | _ => []

/-- One step. -/
def step (s : TreeWatch) : TreeEvent → Option TreeWatch
  | .create kind path =>
      (s.tree.create kind path).map fun tree =>
        { s with tree := tree, reported := s.reported ++ s.report path opCreate }
  | .write path =>
      if s.tree.kind path = some .file then
        some { s with reported := s.reported ++ s.report path opWrite }
      else none
  | .deliver =>
      match s.reported with
      | [] => none
      | (path, op) :: rest =>
          (s.loop.step (.event path op)).map fun loop => { s with reported := rest, loop := loop }
  | .own event =>
      if s.loop.isOwn s.isFile event then
        (s.loop.step event).map fun loop =>
          { s with loop := loop, called := s.called ++ s.calls event }
      else none

/-! ## What a step does -/

/-- The steps, with what each needs. -/
inductive Moves (s : TreeWatch) : TreeEvent → TreeWatch → Prop
  | create (kind : EntryKind) (path : TreePath) (tree : DirTree GoString)
      (hcreate : s.tree.create kind path = some tree) :
      Moves s (.create kind path)
        { s with tree := tree, reported := s.reported ++ s.report path opCreate }
  | write (path : TreePath) (hfile : s.tree.kind path = some .file) :
      Moves s (.write path) { s with reported := s.reported ++ s.report path opWrite }
  | deliver (path : TreePath) (op : UInt32) (rest : List (TreePath × UInt32))
      (loop : Loop TreePath) (hreported : s.reported = (path, op) :: rest)
      (hmove : s.loop.Moves (.event path op) loop) :
      Moves s .deliver { s with reported := rest, loop := loop }
  | own (event : LoopEvent TreePath) (loop : Loop TreePath)
      (hown : s.loop.isOwn s.isFile event = true) (hmove : s.loop.Moves event loop) :
      Moves s (.own event) { s with loop := loop, called := s.called ++ s.calls event }

variable {s s' : TreeWatch} {event : TreeEvent} {path dir : TreePath}

theorem step_moves (h : s.step event = some s') : Moves s event s' := by
  cases event with
  | create kind path =>
      obtain ⟨tree, hcreate, rfl⟩ := Option.map_eq_some_iff.mp h
      exact .create kind path tree hcreate
  | write path =>
      simp only [step] at h
      split_ifs at h with hfile
      obtain rfl := Option.some.inj h
      exact .write path hfile
  | deliver =>
      simp only [step] at h
      split at h
      · cases h
      · next path op rest hreported =>
          obtain ⟨loop, hloop, rfl⟩ := Option.map_eq_some_iff.mp h
          exact .deliver path op rest loop hreported (Loop.step_moves hloop)
  | own event =>
      simp only [step] at h
      split_ifs at h with hown
      obtain ⟨loop, hloop, rfl⟩ := Option.map_eq_some_iff.mp h
      exact .own event loop hown (Loop.step_moves hloop)

/-! ## What holds in every state -/

/-- The registered directories are those of the walk, and all that the watcher is busy with lies in
them. -/
structure Sound (tree : DirTree GoString) (s : TreeWatch) : Prop where
  watched : s.watched = tree.walk isHidden
  mapped : s.loop.Mapped
  going : s.loop.closed = false
  reported : ∀ report ∈ s.reported, report.1.dropLast ∈ s.watched
  concerns : ∀ path, s.loop.Concerns path → path.dropLast ∈ s.watched
  called : ∀ path ∈ s.called, path.dropLast ∈ s.watched

variable {tree : DirTree GoString}

theorem sound_start (now : Int) : Sound tree (start now tree) where
  watched := rfl
  mapped := Loop.mapped_start now
  going := rfl
  reported := nofun
  concerns := by
    rintro path (⟨timer, hmem, -⟩ | ⟨fire, hmem, -⟩) <;> cases hmem
  called := nofun

theorem mem_report {op : UInt32} {report : TreePath × UInt32} (h : report ∈ s.report path op) :
    report = (path, op) ∧ path.dropLast ∈ s.watched := by
  unfold TreeWatch.report at h
  split_ifs at h with hwatched
  · exact ⟨List.mem_singleton.mp h, hwatched⟩
  · cases h

/-- What fsnotify reports lies in the registered directories. -/
theorem Sound.reports (h : Sound tree s) (path : TreePath) (op : UInt32) :
    ∀ report ∈ s.reported ++ s.report path op, report.1.dropLast ∈ s.watched := by
  intro report hmem
  rcases List.mem_append.mp hmem with hold | hnew
  · exact h.reported report hold
  · obtain ⟨rfl, hwatched⟩ := mem_report hnew
    exact hwatched

/-- A call of `onEvent` is for a path that has a goroutine. -/
theorem concerns_of_calls {event : LoopEvent TreePath} (h : path ∈ s.calls event) :
    s.loop.Concerns path := by
  cases event with
  | call g =>
      obtain ⟨fire, hfire, rfl⟩ := Option.map_eq_some_iff.mp (Option.mem_toList.mp h)
      exact .inr ⟨fire, List.mem_of_getElem? hfire, rfl⟩
  | _ => cases h

/-- What happens without an event is neither an event nor the end. -/
theorem ne_of_is_own {isFile : TreePath → Bool} {loop : Loop TreePath} {event : LoopEvent TreePath}
    (h : loop.isOwn isFile event = true) : event ≠ .done ∧ ∀ name op, event ≠ .event name op := by
  constructor
  · rintro rfl
    cases h
  · rintro name op rfl
    cases h

theorem sound_step (h : Sound tree s) (hmove : Moves s event s') : Sound tree s' := by
  obtain ⟨hwatched, hmapped, hgoing, hreported, hconcerns, hcalled⟩ := h
  have hsound : Sound tree s := ⟨hwatched, hmapped, hgoing, hreported, hconcerns, hcalled⟩
  cases hmove with
  | create kind path tree hcreate =>
      exact ⟨hwatched, hmapped, hgoing, hsound.reports path opCreate, hconcerns, hcalled⟩
  | write path hfile =>
      exact ⟨hwatched, hmapped, hgoing, hsound.reports path opWrite, hconcerns, hcalled⟩
  | deliver path op rest loop hhead hmove =>
      rw [hhead] at hreported
      refine ⟨hwatched, Loop.mapped_step hmapped hmove, Loop.open_step hgoing hmove nofun,
        fun report hmem => hreported report (List.mem_cons_of_mem _ hmem), ?_, hcalled⟩
      intro other hother
      rcases Loop.concerns_step hother hmove with hold | ⟨op', heq⟩
      · exact hconcerns other hold
      · cases heq
        exact hreported _ List.mem_cons_self
  | own event loop hown hmove =>
      obtain ⟨hdone, hevent⟩ := ne_of_is_own hown
      refine ⟨hwatched, Loop.mapped_step hmapped hmove, Loop.open_step hgoing hmove hdone,
        hreported, ?_, ?_⟩
      · intro other hother
        rcases Loop.concerns_step hother hmove with hold | ⟨op, heq⟩
        · exact hconcerns other hold
        · exact absurd heq (hevent other op)
      · intro other hother
        rcases List.mem_append.mp hother with hold | hnew
        · exact hcalled other hold
        · exact hconcerns other (concerns_of_calls hnew)

theorem sound_run {events : List TreeEvent} (h : Sound tree s)
    (hrun : run step s events = some s') : Sound tree s' :=
  run_invariant (Sound tree) hrun (along_true events) h
    fun _ _ _ hinv _ hstep => sound_step hinv (step_moves hstep)

/-- What is there stays what it is. -/
theorem kind_step {kind : EntryKind} (h : s.tree.kind path = some kind) (hmove : Moves s event s') :
    s'.tree.kind path = some kind := by
  cases hmove with
  | create new other tree hcreate => exact DirTree.kind_create_of_some hcreate h
  | write | deliver | own => exact h

/-- Calls are only added. -/
theorem called_step (hmove : Moves s event s') : ∃ more, s'.called = s.called ++ more := by
  cases hmove with
  | create | write | deliver => exact ⟨[], (List.append_nil _).symm⟩
  | own own => exact ⟨s.calls own, rfl⟩

/-! ## A change that is reported leads to a call -/

/-- The watcher has yet to call `onEvent` for the path. -/
def Alarm (s : TreeWatch) (path : TreePath) : Prop :=
  (∃ op, IsChange op ∧ (path, op) ∈ s.reported) ∨ s.loop.Pending path ∨ s.loop.Firing path .call

/-- All events have been read, no timer is armed, and all goroutines have returned. -/
def Settled (s : TreeWatch) : Prop := s.reported = [] ∧ s.loop.Quiet

theorem not_alarm_of_settled (h : s.Settled) : ¬ s.Alarm path := by
  obtain ⟨hreported, htimers, hfires⟩ := h
  rintro (⟨op, -, hmem⟩ | (⟨timer, hmem, -, harmed⟩ | hfire | hfire) | hfire)
  · rw [hreported] at hmem
    cases hmem
  · exact harmed (htimers timer hmem)
  all_goals cases hfires _ hfire

/-- What the goroutines do keeps the alarm, or is the call. -/
theorem alarm_own {own : LoopEvent TreePath} {loop : Loop TreePath}
    (hfile : s.tree.kind path = some .file) (hgoing : loop.closed = false)
    (h : s.loop.Pending path ∨ s.loop.Firing path .call)
    (hown : s.loop.isOwn s.isFile own = true) (hmove : s.loop.Moves own loop) :
    (loop.Pending path ∨ loop.Firing path .call) ∨ path ∈ s.calls own := by
  rcases h with hpending | hcall
  · rcases Loop.pending_step hpending hmove with hclosed | hpending | ⟨g, answer, rfl, hfire⟩
    · cases hgoing.symm.trans hclosed
    · exact .inl (.inl hpending)
    · -- the goroutine looks at the path and finds a file
      obtain rfl : answer = true := by simpa [Loop.isOwn, hfire, isFile, hfile] using hown
      cases hmove with
      | stat _ _ other hother =>
          cases hfire.symm.trans hother
          exact .inl (.inr (mem_set_new hfire _))
  · rcases Loop.calling_step hcall hmove with hcall | ⟨g, rfl, hfire⟩
    · exact .inl (.inr hcall)
    · exact .inr (by simp [calls, hfire])

/-- An event that is read keeps the alarm of every path. -/
theorem alarm_deliver {other : TreePath} {op : UInt32} {rest : List (TreePath × UInt32)}
    {loop : Loop TreePath} (hmapped : s.loop.Mapped) (hgoing : loop.closed = false)
    (hreported : s.reported = (other, op) :: rest) (hmove : s.loop.Moves (.event other op) loop)
    (h : s.Alarm path) : Alarm { s with reported := rest, loop := loop } path := by
  rcases h with ⟨op', hop, hmem⟩ | hpending | hcall
  · rw [hreported] at hmem
    rcases List.mem_cons.mp hmem with heq | hrest
    · cases heq
      exact .inr (.inl (.inl (Loop.armed_of_change hmapped hop hmove)))
    · exact .inl ⟨op', hop, hrest⟩
  · rcases Loop.pending_step hpending hmove with hclosed | hpending | ⟨g, answer, heq, -⟩
    · cases hgoing.symm.trans hclosed
    · exact .inr (.inl hpending)
    · cases heq
  · rcases Loop.calling_step hcall hmove with hcall | ⟨g, heq, -⟩
    · exact .inr (.inr hcall)
    · cases heq

/-- Until the watcher calls `onEvent` for the file, the alarm stays. -/
theorem alarm_step (hsound : Sound tree s) (hfile : s.tree.kind path = some .file)
    (h : s.Alarm path) (hmove : Moves s event s') :
    ∃ more, s'.called = s.called ++ more ∧ (s'.Alarm path ∨ path ∈ more) := by
  have hgoing : s'.loop.closed = false := (sound_step hsound hmove).going
  have hmore {op : UInt32} {other : TreePath} {tree' : DirTree GoString} :
      Alarm { s with tree := tree', reported := s.reported ++ s.report other op } path :=
    h.imp_left fun ⟨op, hop, hmem⟩ => ⟨op, hop, List.mem_append_left _ hmem⟩
  cases hmove with
  | create kind other tree hcreate => exact ⟨[], (List.append_nil _).symm, .inl hmore⟩
  | write other hother => exact ⟨[], (List.append_nil _).symm, .inl hmore⟩
  | deliver other op rest loop hreported hmove =>
      exact ⟨[], (List.append_nil _).symm,
        .inl (alarm_deliver hsound.mapped hgoing hreported hmove h)⟩
  | own own loop hown hmove =>
      refine ⟨s.calls own, rfl, ?_⟩
      rcases h with hreported | h
      · exact .inl (.inl hreported)
      · exact (alarm_own hfile hgoing h hown hmove).imp_left .inr

/-- A run that comes to rest has made the call. -/
theorem called_of_alarm (hsound : Sound tree s) (hfile : s.tree.kind path = some .file)
    (h : s.Alarm path) {events : List TreeEvent} (hrun : run step s events = some s')
    (hsettled : s'.Settled) : ∃ more, s'.called = s.called ++ more ∧ path ∈ more := by
  have hfinal : (Sound tree s' ∧ s'.tree.kind path = some .file) ∧
      ∃ more, s'.called = s.called ++ more ∧ (s'.Alarm path ∨ path ∈ more) := by
    refine run_invariant (fun state => (Sound tree state ∧ state.tree.kind path = some .file) ∧
      ∃ more, state.called = s.called ++ more ∧ (state.Alarm path ∨ path ∈ more)) hrun
      (along_true events) ⟨⟨hsound, hfile⟩, [], (List.append_nil _).symm, .inl h⟩ ?_
    rintro state event next ⟨⟨hsound, hfile⟩, more, hcalled, halarm⟩ - hstep
    have hmove := step_moves hstep
    refine ⟨⟨sound_step hsound hmove, kind_step hfile hmove⟩, ?_⟩
    rcases halarm with halarm | hmem
    · obtain ⟨last, hlast, halarm⟩ := alarm_step hsound hfile halarm hmove
      refine ⟨more ++ last, by rw [hlast, hcalled, List.append_assoc], ?_⟩
      exact halarm.imp_right (List.mem_append_right more)
    · obtain ⟨last, hlast⟩ := called_step hmove
      refine ⟨more ++ last, by rw [hlast, hcalled, List.append_assoc], ?_⟩
      exact .inr (List.mem_append_left last hmem)
  obtain ⟨-, more, hcalled, halarm⟩ := hfinal
  exact ⟨more, hcalled, halarm.resolve_left (not_alarm_of_settled hsettled)⟩

/-! ## The watcher comes to rest -/

/-- A step of the watcher, not of those who change the tree. -/
def Watching : TreeEvent → Prop
  | .create _ _ | .write _ => False
  | .deliver | .own _ => True

/-- The loop can read all events. -/
theorem exists_read_run (hgoing : s.loop.closed = false) :
    ∃ events s', run step s events = some s' ∧ (∀ event ∈ events, Watching event) ∧
      s'.reported = [] := by
  induction hreported : s.reported generalizing s with
  | nil => exact ⟨[], s, rfl, List.forall_mem_nil _, hreported⟩
  | cons head rest ih =>
      obtain ⟨path, op⟩ := head
      obtain ⟨loop, hloop⟩ : ∃ loop, s.loop.step (.event path op) = some loop := by
        simp only [Loop.step, hgoing, Bool.false_eq_true, if_false]
        split_ifs <;> exact ⟨_, rfl⟩
      have hstep : s.step .deliver = some { s with reported := rest, loop := loop } := by
        simp only [step, hreported, hloop, Option.map_some]
      have hgoing' : loop.closed = false :=
        Loop.open_step hgoing (Loop.step_moves hloop) (by simp)
      obtain ⟨events, s', hrun, hwatching, hread⟩ :=
        ih (s := { s with reported := rest, loop := loop }) hgoing' rfl
      exact ⟨.deliver :: events, s', run_cons_eq_some.mpr ⟨_, hstep, hrun⟩,
        List.forall_mem_cons.mpr ⟨trivial, hwatching⟩, hread⟩

/-- What the loop can do by itself, the watcher can do. -/
theorem run_own {events : List (LoopEvent TreePath)} {loop : Loop TreePath}
    (hrun : run Loop.step s.loop events = some loop)
    (hown : Along Loop.step (fun state event => state.isOwn s.isFile event = true) s.loop events) :
    ∃ s', run step s (events.map .own) = some s' ∧ s'.loop = loop ∧ s'.reported = s.reported := by
  induction events generalizing s with
  | nil =>
      obtain rfl := Option.some.inj hrun
      exact ⟨s, rfl, rfl, rfl⟩
  | cons event events ih =>
      obtain ⟨mid, hloop, hrest⟩ := run_cons_eq_some.mp hrun
      obtain ⟨hfirst, hown⟩ := (along_cons hloop).mp hown
      have hstep : s.step (.own event) =
          some { s with loop := mid, called := s.called ++ s.calls event } := by
        simp only [step, hfirst, if_true, hloop, Option.map_some]
      obtain ⟨s', hrun, hloop', hreported⟩ :=
        ih (s := { s with loop := mid, called := s.called ++ s.calls event }) hrest hown
      exact ⟨s', run_cons_eq_some.mpr ⟨_, hstep, hrun⟩, hloop', hreported⟩

/-- The watcher can come to rest by its own steps. -/
theorem exists_settled_run (hgoing : s.loop.closed = false) :
    ∃ events s', run step s events = some s' ∧ (∀ event ∈ events, Watching event) ∧
      s'.Settled := by
  obtain ⟨reads, mid, hreads, hwatching, hread⟩ := exists_read_run hgoing
  obtain ⟨events, loop, hloop, hown, hquiet⟩ := Loop.exists_quiet_run mid.isFile mid.loop
  obtain ⟨s', hrun, rfl, hreported⟩ := run_own hloop hown
  refine ⟨reads ++ events.map .own, s', by rw [run_append, hreads]; exact hrun, ?_,
    hreported.trans hread, hquiet⟩
  intro event hmem
  rcases List.mem_append.mp hmem with hmem | hmem
  · exact hwatching event hmem
  · obtain ⟨own, -, rfl⟩ := List.mem_map.mp hmem
    trivial

/-! ## Which directories are watched -/

/-- A directory with no hidden name on its path. -/
def Visible (s : TreeWatch) (dir : TreePath) : Prop :=
  s.tree.kind dir = some .dir ∧ ∀ name ∈ dir, isHidden name = false

/-- A file of the directory is created or written. -/
def ChangesIn (dir : TreePath) (event : TreeEvent) (path : TreePath) : Prop :=
  path.dropLast = dir ∧ (event = .create .file path ∨ event = .write path)

/-- A change of a file in the directory leads to `onEvent`: whatever else happens, the call has been
made when the watcher is next at rest, and its own steps bring it to rest. -/
def Noticed (s : TreeWatch) (dir : TreePath) : Prop :=
  ∀ change path s₁, ChangesIn dir change path → s.step change = some s₁ →
    (∀ events s₂, run step s₁ events = some s₂ → s₂.Settled →
      ∃ more, s₂.called = s.called ++ more ∧ path ∈ more) ∧
    ∃ events s₂, run step s₁ events = some s₂ ∧ (∀ event ∈ events, Watching event) ∧ s₂.Settled

/-- Nothing that happens in the directory ever leads to `onEvent`. -/
def Ignored (s : TreeWatch) (dir : TreePath) : Prop :=
  ∀ events s', run step s events = some s' → ∀ path ∈ s'.called, path.dropLast ≠ dir

/-- A change in a registered directory is reported. -/
theorem alarm_of_change (hwatched : dir ∈ s.watched) (hchange : ChangesIn dir event path)
    (hmove : Moves s event s') :
    s'.tree.kind path = some .file ∧ s'.called = s.called ∧ s'.Alarm path := by
  obtain ⟨rfl, rfl | rfl⟩ := hchange
  · cases hmove with
    | create _ _ tree hcreate =>
        obtain ⟨-, -, hkind⟩ := DirTree.kind_create hcreate
        refine ⟨by rw [hkind, if_pos rfl], rfl, .inl ⟨opCreate, by decide, ?_⟩⟩
        simp [report, hwatched]
  · cases hmove with
    | write _ hfile =>
        refine ⟨hfile, rfl, .inl ⟨opWrite, by decide, ?_⟩⟩
        simp [report, hwatched]

theorem noticed_of_watched (hsound : Sound tree s) (hwatched : dir ∈ s.watched) :
    s.Noticed dir := by
  intro change path s₁ hchange hstep
  have hmove := step_moves hstep
  obtain ⟨hfile, hcalled, halarm⟩ := alarm_of_change hwatched hchange hmove
  have hsound₁ := sound_step hsound hmove
  constructor
  · intro events s₂ hrun hsettled
    rw [← hcalled]
    exact called_of_alarm hsound₁ hfile halarm hrun hsettled
  · exact exists_settled_run hsound₁.going

theorem ignored_of_not_watched (hsound : Sound tree s) (hwatched : dir ∉ s.watched) :
    s.Ignored dir := by
  intro events s' hrun path hmem hdir
  have hsound' := sound_run hsound hrun
  have hpath : path.dropLast ∈ s'.watched := hsound'.called path hmem
  rw [hdir, hsound'.watched, ← hsound.watched] at hpath
  exact hwatched hpath

/-- **Which directories stay watched.** In every state, at rest or not, all visible directories are
registered, with changes in them leading to `onEvent`, exactly if all of them were there when the
watcher started. A visible directory that was created later is not registered, and nothing that
happens in it ever leads to `onEvent`. -/
theorem tree_watched_iff {now : Int} {events : List TreeEvent}
    (hrun : run step (start now tree) events = some s) :
    ((∀ dir, s.Visible dir → dir ∈ s.watched ∧ s.Noticed dir) ↔
      ∀ dir, s.Visible dir → tree.kind dir = some .dir) ∧
    ∀ dir, s.Visible dir → tree.kind dir ≠ some .dir → dir ∉ s.watched ∧ s.Ignored dir := by
  have hsound : Sound tree s := sound_run (sound_start now) hrun
  have hwatched {dir : TreePath} (hvisible : s.Visible dir) :
      dir ∈ s.watched ↔ tree.kind dir = some .dir := by
    rw [hsound.watched, DirTree.mem_walk]
    exact and_iff_left hvisible.2
  refine ⟨⟨?_, ?_⟩, ?_⟩
  · intro hall dir hvisible
    exact (hwatched hvisible).mp (hall dir hvisible).1
  · intro hall dir hvisible
    have hmem := (hwatched hvisible).mpr (hall dir hvisible)
    exact ⟨hmem, noticed_of_watched hsound hmem⟩
  · intro dir hvisible hnew
    have hmem : dir ∉ s.watched := fun hmem => hnew ((hwatched hvisible).mp hmem)
    exact ⟨hmem, ignored_of_not_watched hsound hmem⟩

/-- A directory that is there at the start, and a hidden one. -/
def startTree : DirTree GoString where
  forest := .dir (ascii "docs") .nil (.dir (ascii ".git") .nil .nil)
  proper := ⟨by decide, trivial, by decide, trivial, trivial⟩

/-- The directory stays watched when a file is created in it. -/
theorem tree_watched_old_directory :
    ∃ s, run step (start 0 startTree) [.create .file [ascii "docs", ascii "a.txt"]] = some s ∧
      [ascii ".git"] ∉ s.watched ∧ s.Visible [ascii "docs"] ∧ [ascii "docs"] ∈ s.watched ∧
      s.Noticed [ascii "docs"] := by
  obtain ⟨s, hrun⟩ :
      ∃ s, run step (start 0 startTree) [.create .file [ascii "docs", ascii "a.txt"]] = some s :=
    ⟨_, rfl⟩
  have hvisible : s.Visible [ascii "docs"] := by
    cases hrun
    exact ⟨rfl, by decide⟩
  have hold : ∀ dir, s.Visible dir → startTree.kind dir = some .dir := by
    intro dir hdir
    obtain ⟨mid, hstep, hnil⟩ := run_cons_eq_some.mp hrun
    cases hnil
    cases step_moves hstep with
    | create _ _ tree hcreate =>
        obtain ⟨-, -, hkind⟩ := DirTree.kind_create hcreate
        have hdir := hdir.1
        rw [hkind] at hdir
        split_ifs at hdir with hpath
        · cases hdir
        · exact hdir
  have hgit : [ascii ".git"] ∉ s.watched := by
    cases hrun
    decide
  exact ⟨s, hrun, hgit, hvisible, (tree_watched_iff hrun).1.mpr hold _ hvisible⟩

/-- A directory is created. The watcher sees it, finds that it is not a file and comes to rest; a
file that is then created in it is not reported. -/
theorem new_directory_not_watched :
    let events : List TreeEvent :=
      [.create .dir [ascii "new"], .deliver, .own (.wait 300000000), .own (.expire 0),
        .own (.delete 0), .own (.stat 0 false)]
    ∃ s s', run step (start 0 startTree) events = some s ∧ s.Settled ∧
      s.Visible [ascii "new"] ∧ [ascii "new"] ∉ s.watched ∧
      s.step (.create .file [ascii "new", ascii "a.txt"]) = some s' ∧ s'.Settled ∧
      s'.called = [] := by
  intro events
  refine ⟨_, _, rfl, ?_, ?_, ?_, rfl, ?_, rfl⟩
  · exact ⟨rfl, by decide, by decide⟩
  · exact ⟨rfl, by decide⟩
  · decide
  · exact ⟨rfl, by decide, by decide⟩

end TreeWatch

end NuSync.Watcher
