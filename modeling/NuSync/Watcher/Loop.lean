import NuSync.Lib.Replace
import NuSync.Lib.System
import NuSync.Watcher

/-!
# The watcher's event loop

The goroutine of `Watcher.Start` in `internal/watcher/watcher.go` with all its timers and `fire`
goroutines, on any number of paths. The map entry, the timer and the goroutine of a path are three
things: a timer may be reset after it has expired, and a goroutine may take an armed timer out of
the map, so that a second one is made for the same path. What the critical sections of the mutex do
is one step each. `change_is_pending` says that no change is lost in all this.
-/

namespace NuSync.Watcher

open NuSync.Lib

/-! ## The machine -/

/-- `fsnotify.Create`. -/
def opCreate : UInt32 := 1

/-- `fsnotify.Write`. -/
def opWrite : UInt32 := 2

/-- The event's operation is one that the loop does not skip. -/
def IsChange (op : UInt32) : Prop := op &&& (opCreate ||| opWrite) ≠ 0

instance (op : UInt32) : Decidable (IsChange op) := inferInstanceAs (Decidable (_ ≠ _))

/-- A timer made by `AfterFunc`: the path it fires for, and its deadline while it is armed. -/
structure Timer (P : Type*) where
  path : P
  deadline : Option Int

/-- `Timer.Reset`: the timer is armed, whether or not it has expired. -/
def Timer.reset {P : Type*} (deadline : Int) (timer : Timer P) : Timer P :=
  { timer with deadline := some deadline }

/-- Where a `fire` goroutine stands: before it has the mutex, before `os.Stat`, before `onEvent`, or
returned. -/
inductive FirePc where
  | lock
  | stat
  | call
  | done
  deriving DecidableEq

/-- The steps it still has before it. -/
def FirePc.work : FirePc → Nat
  | .lock => 3
  | .stat => 2
  | .call => 1
  | .done => 0

/-- A `fire` goroutine. -/
structure Fire (P : Type*) where
  path : P
  pc : FirePc

/-- The time, all timers that were ever made, the map `timers` to them, the `fire` goroutines, and
whether the loop has ended. -/
structure Loop (P : Type*) where
  now : Int
  timers : List (Timer P)
  entries : P → Option Nat
  fires : List (Fire P)
  closed : Bool

/-- What happens: time passes, the loop reads an event or an error or sees that its context is done,
a timer expires, and a goroutine deletes its map entry, looks at its file, and calls `onEvent`. -/
inductive LoopEvent (P : Type*) where
  | wait (delay : Nat)
  | event (name : P) (op : UInt32)
  | error
  | done
  | expire (t : Nat)
  | delete (g : Nat)
  | stat (g : Nat) (isFile : Bool)
  | call (g : Nat)

namespace Loop

variable {P : Type*} [DecidableEq P]

/-- The loop when it begins. -/
def start (now : Int) : Loop P := ⟨now, [], fun _ => none, [], false⟩

/-- `t.Stop()` for all timers in the map. -/
def stopTimers (s : Loop P) : List (Timer P) :=
  s.timers.mapIdx fun t timer =>
    if s.entries timer.path = some t then { timer with deadline := none } else timer

/-- The loop handles an event that is a change. -/
def change (s : Loop P) (name : P) : Loop P :=
  let deadline := s.now + quietPeriod
  match s.entries name with
  | some t => { s with timers := s.timers.modify t (Timer.reset deadline) }
  | none =>
      { s with
        timers := s.timers ++ [⟨name, some deadline⟩]
        entries := Function.update s.entries name (some s.timers.length) }

/-- One step. `isFile` is what `os.Stat` says: there is something and it is not a directory. -/
def step (s : Loop P) : LoopEvent P → Option (Loop P)
  | .wait delay => some { s with now := s.now + delay }
  | .event name op =>
      if s.closed then none else if IsChange op then some (s.change name) else some s
  | .error => if s.closed then none else some s
  | .done => if s.closed then none else some { s with timers := s.stopTimers, closed := true }
  | .expire t =>
      match s.timers[t]? with
      | some ⟨path, some deadline⟩ =>
          if deadline ≤ s.now then
            some { s with
              timers := s.timers.set t ⟨path, none⟩
              fires := s.fires ++ [⟨path, .lock⟩] }
          else none
      | _ => none
  | .delete g =>
      match s.fires[g]? with
      | some ⟨path, .lock⟩ =>
          some { s with
            entries := Function.update s.entries path none
            fires := s.fires.set g ⟨path, .stat⟩ }
      | _ => none
  | .stat g isFile =>
      match s.fires[g]? with
      | some ⟨path, .stat⟩ =>
          some { s with fires := s.fires.set g ⟨path, if isFile then .call else .done⟩ }
      | _ => none
  | .call g =>
      match s.fires[g]? with
      | some ⟨path, .call⟩ => some { s with fires := s.fires.set g ⟨path, .done⟩ }
      | _ => none

/-! ## What a step does -/

/-- The steps, with what each needs. -/
inductive Moves (s : Loop P) : LoopEvent P → Loop P → Prop
  | wait (delay : Nat) : Moves s (.wait delay) { s with now := s.now + delay }
  | skip (name : P) (op : UInt32) (hopen : s.closed = false) (hop : ¬ IsChange op) :
      Moves s (.event name op) s
  | reset (name : P) (op : UInt32) (t : Nat) (hopen : s.closed = false) (hop : IsChange op)
      (hentry : s.entries name = some t) :
      Moves s (.event name op)
        { s with timers := s.timers.modify t (Timer.reset (s.now + quietPeriod)) }
  | afterFunc (name : P) (op : UInt32) (hopen : s.closed = false) (hop : IsChange op)
      (hentry : s.entries name = none) :
      Moves s (.event name op)
        { s with
          timers := s.timers ++ [⟨name, some (s.now + quietPeriod)⟩]
          entries := Function.update s.entries name (some s.timers.length) }
  | error (hopen : s.closed = false) : Moves s .error s
  | done (hopen : s.closed = false) :
      Moves s .done { s with timers := s.stopTimers, closed := true }
  | expire (t : Nat) (path : P) (deadline : Int)
      (htimer : s.timers[t]? = some ⟨path, some deadline⟩) (hdue : deadline ≤ s.now) :
      Moves s (.expire t)
        { s with timers := s.timers.set t ⟨path, none⟩, fires := s.fires ++ [⟨path, .lock⟩] }
  | delete (g : Nat) (path : P) (hfire : s.fires[g]? = some ⟨path, .lock⟩) :
      Moves s (.delete g)
        { s with
          entries := Function.update s.entries path none
          fires := s.fires.set g ⟨path, .stat⟩ }
  | stat (g : Nat) (isFile : Bool) (path : P) (hfire : s.fires[g]? = some ⟨path, .stat⟩) :
      Moves s (.stat g isFile)
        { s with fires := s.fires.set g ⟨path, if isFile then .call else .done⟩ }
  | call (g : Nat) (path : P) (hfire : s.fires[g]? = some ⟨path, .call⟩) :
      Moves s (.call g) { s with fires := s.fires.set g ⟨path, .done⟩ }

variable {s s' : Loop P} {event : LoopEvent P}

theorem step_moves (h : s.step event = some s') : Moves s event s' := by
  cases event with
  | wait delay =>
      cases h
      exact .wait delay
  | event name op =>
      simp only [step] at h
      split_ifs at h with hclosed hop
      · obtain rfl := Option.some.inj h
        unfold change
        cases hentry : s.entries name with
        | some t => exact .reset name op t (by simpa using hclosed) hop hentry
        | none => exact .afterFunc name op (by simpa using hclosed) hop hentry
      · obtain rfl := Option.some.inj h
        exact .skip name op (by simpa using hclosed) hop
  | error =>
      simp only [step] at h
      split_ifs at h with hclosed
      obtain rfl := Option.some.inj h
      exact .error (by simpa using hclosed)
  | done =>
      simp only [step] at h
      split_ifs at h with hclosed
      obtain rfl := Option.some.inj h
      exact .done (by simpa using hclosed)
  | expire t =>
      simp only [step] at h
      split at h
      · next path deadline htimer =>
          split_ifs at h with hdue
          obtain rfl := Option.some.inj h
          exact .expire t path deadline htimer hdue
      · cases h
  | delete g =>
      simp only [step] at h
      split at h
      · next path hfire =>
          obtain rfl := Option.some.inj h
          exact .delete g path hfire
      · cases h
  | stat g isFile =>
      simp only [step] at h
      split at h
      · next path hfire =>
          obtain rfl := Option.some.inj h
          exact .stat g isFile path hfire
      · cases h
  | call g =>
      simp only [step] at h
      split at h
      · next path hfire =>
          obtain rfl := Option.some.inj h
          exact .call g path hfire
      · cases h

/-! ## The map leads to timers of its paths -/

/-- Every map entry is a timer that fires for its path. -/
def Mapped (s : Loop P) : Prop :=
  ∀ path t, s.entries path = some t → ∃ timer, s.timers[t]? = some timer ∧ timer.path = path

omit [DecidableEq P] in
theorem mapped_start (now : Int) : Mapped (start now : Loop P) := nofun

theorem mapped_step (h : Mapped s) (hmove : Moves s event s') : Mapped s' := by
  -- what happens to a timer never changes its path
  have hkeep {timers : List (Timer P)}
      (htimers : ∀ (t : Nat) (timer : Timer P), s.timers[t]? = some timer →
        ∃ timer', timers[t]? = some timer' ∧ timer'.path = timer.path)
      {path : P} {t : Nat} (hentry : s.entries path = some t) :
      ∃ timer, timers[t]? = some timer ∧ timer.path = path := by
    obtain ⟨timer, htimer, hpath⟩ := h path t hentry
    obtain ⟨timer', htimer', hpath'⟩ := htimers t timer htimer
    exact ⟨timer', htimer', hpath'.trans hpath⟩
  cases hmove with
  | wait | skip | error | stat | call => exact h
  | reset name op t hopen hop hentry =>
      refine fun path other => hkeep fun i timer htimer => ?_
      rw [List.getElem?_modify, htimer]
      split_ifs
      · exact ⟨timer.reset _, rfl, rfl⟩
      · exact ⟨timer, rfl, rfl⟩
  | afterFunc name op hopen hop hentry =>
      intro path t hpath
      by_cases hname : path = name
      · subst hname
        obtain rfl : s.timers.length = t := by simpa using hpath
        exact ⟨⟨path, some (s.now + quietPeriod)⟩, by simp, rfl⟩
      · have hold : s.entries path = some t := (Function.update_of_ne hname _ _).symm.trans hpath
        refine hkeep (fun i timer htimer => ⟨timer, ?_, rfl⟩) hold
        rw [List.getElem?_append_left (List.getElem?_eq_some_iff.mp htimer).1, htimer]
  | done hopen =>
      refine fun path other => hkeep fun i timer htimer => ?_
      rw [stopTimers, List.getElem?_mapIdx, htimer]
      refine ⟨_, rfl, ?_⟩
      dsimp only
      split_ifs <;> rfl
  | expire t path deadline htimer hdue =>
      refine fun _ _ => hkeep fun i timer htimer' => ?_
      rw [List.getElem?_set]
      split_ifs with hi hlen
      · subst hi
        cases htimer.symm.trans htimer'
        exact ⟨_, rfl, rfl⟩
      · subst hi
        exact absurd (List.getElem?_eq_some_iff.mp htimer).1 hlen
      · exact ⟨timer, htimer', rfl⟩
  | delete g path hfire =>
      intro other t hentry
      by_cases hother : other = path
      · subst hother
        simp at hentry
      · exact h other t ((Function.update_of_ne hother _ _).symm.trans hentry)

/-! ## What is pending stays pending -/

/-- A timer is armed that fires for the path. -/
def Armed (s : Loop P) (path : P) : Prop :=
  ∃ timer ∈ s.timers, timer.path = path ∧ timer.deadline ≠ none

/-- A goroutine that fires for the path stands here. -/
def Firing (s : Loop P) (path : P) (pc : FirePc) : Prop := ⟨path, pc⟩ ∈ s.fires

/-- A timer is armed for the path, or a goroutine for it has not yet begun its `os.Stat`. -/
def Pending (s : Loop P) (path : P) : Prop :=
  s.Armed path ∨ s.Firing path .lock ∨ s.Firing path .stat

variable {path : P}

/-- An armed timer stays armed until it expires, and then its goroutine waits for the mutex. -/
theorem armed_step (h : s.Armed path) (hmove : Moves s event s') :
    s'.closed = true ∨ s'.Armed path ∨ s'.Firing path .lock := by
  obtain ⟨timer, hmem, hpath, harmed⟩ := h
  cases hmove with
  | wait | skip | error | delete | stat | call => exact .inr (.inl ⟨timer, hmem, hpath, harmed⟩)
  | reset name op t hopen hop hentry =>
      rcases mem_modify_or hmem t with hold | hnew
      · exact .inr (.inl ⟨timer, hold, hpath, harmed⟩)
      · exact .inr (.inl ⟨_, hnew, hpath, Option.some_ne_none _⟩)
  | afterFunc name op hopen hop hentry =>
      exact .inr (.inl ⟨timer, List.mem_append_left _ hmem, hpath, harmed⟩)
  | done hopen => exact .inl rfl
  | expire t other deadline htimer hdue =>
      rcases mem_set_or htimer hmem ⟨other, none⟩ with rfl | hold
      · subst hpath
        exact .inr (.inr (List.mem_append_right _ List.mem_cons_self))
      · exact .inr (.inl ⟨timer, hold, hpath, harmed⟩)

/-- A goroutine stays where it is until it goes on. -/
theorem firing_step {pc : FirePc} (h : s.Firing path pc) (hmove : Moves s event s') :
    s'.Firing path pc ∨
      (pc = .lock ∧ s'.Firing path .stat) ∨
      (pc = .stat ∧ ∃ g isFile, event = .stat g isFile ∧ s.fires[g]? = some ⟨path, .stat⟩ ∧
        s'.Firing path (if isFile then .call else .done)) ∨
      (pc = .call ∧ ∃ g, event = .call g ∧ s.fires[g]? = some ⟨path, .call⟩) ∨ pc = .done := by
  cases hmove with
  | wait | skip | reset | afterFunc | error | done => exact .inl h
  | expire => exact .inl (List.mem_append_left _ h)
  | delete g other hfire =>
      rcases mem_set_or hfire h ⟨other, .stat⟩ with heq | hold
      · cases heq
        exact .inr (.inl ⟨rfl, mem_set_new hfire _⟩)
      · exact .inl hold
  | stat g isFile other hfire =>
      rcases mem_set_or hfire h ⟨other, if isFile then .call else .done⟩ with heq | hold
      · cases heq
        exact .inr (.inr (.inl ⟨rfl, g, isFile, rfl, hfire, mem_set_new hfire _⟩))
      · exact .inl hold
  | call g other hfire =>
      rcases mem_set_or hfire h ⟨other, .done⟩ with heq | hold
      · cases heq
        exact .inr (.inr (.inr (.inl ⟨rfl, g, rfl, hfire⟩)))
      · exact .inl hold

/-- A goroutine that is about to call `onEvent` stays there until it does. -/
theorem calling_step (h : s.Firing path .call) (hmove : Moves s event s') :
    s'.Firing path .call ∨ ∃ g, event = .call g ∧ s.fires[g]? = some ⟨path, .call⟩ := by
  rcases firing_step h hmove with hcall | ⟨hpc, -⟩ | ⟨hpc, -⟩ | ⟨-, hcalled⟩ | hpc
  · exact .inl hcall
  · cases hpc
  · cases hpc
  · exact .inr hcalled
  · cases hpc

/-- A goroutine for the path begins its `os.Stat`. -/
def Checks (path : P) (s : Loop P) (event : LoopEvent P) : Prop :=
  ∃ g isFile, event = .stat g isFile ∧ s.fires[g]? = some ⟨path, .stat⟩

/-- What is pending stays pending until a goroutine looks at the file. -/
theorem pending_step (h : s.Pending path) (hmove : Moves s event s') :
    s'.closed = true ∨ s'.Pending path ∨ Checks path s event := by
  rcases h with harmed | hlock | hstat
  · rcases armed_step harmed hmove with hclosed | harmed | hlock
    · exact .inl hclosed
    · exact .inr (.inl (.inl harmed))
    · exact .inr (.inl (.inr (.inl hlock)))
  · rcases firing_step hlock hmove with hlock | ⟨-, hstat⟩ | ⟨hpc, -⟩ | ⟨hpc, -⟩ | hpc
    · exact .inr (.inl (.inr (.inl hlock)))
    · exact .inr (.inl (.inr (.inr hstat)))
    all_goals cases hpc
  · rcases firing_step hstat hmove with
      hstat | ⟨hpc, -⟩ | ⟨-, g, isFile, hevent, hfire, -⟩ | ⟨hpc, -⟩ | hpc
    · exact .inr (.inl (.inr (.inr hstat)))
    · cases hpc
    · exact .inr (.inr ⟨g, isFile, hevent, hfire⟩)
    all_goals cases hpc

theorem closed_step (h : s.closed = true) (hmove : Moves s event s') : s'.closed = true := by
  cases hmove with
  | wait | expire | delete | stat | call => exact h
  | skip _ _ hopen | reset _ _ _ hopen | afterFunc _ _ hopen | error hopen =>
      cases h.symm.trans hopen
  | done => rfl

/-- A change arms a timer for its path. -/
theorem armed_of_change (h : Mapped s) {op : UInt32} (hop : IsChange op)
    (hmove : Moves s (.event path op) s') : s'.Armed path := by
  cases hmove with
  | skip _ _ _ hskip => exact absurd hop hskip
  | reset _ _ t hopen _ hentry =>
      obtain ⟨timer, htimer, hpath⟩ := h path t hentry
      refine ⟨timer.reset (s.now + quietPeriod), ?_, hpath, Option.some_ne_none _⟩
      exact List.mem_of_getElem? (i := t) (by simp [htimer])
  | afterFunc _ _ hopen _ hentry =>
      exact ⟨_, List.mem_append_right _ List.mem_cons_self, rfl, Option.some_ne_none _⟩

/-- Without `.done` the loop goes on. -/
theorem open_step (h : s.closed = false) (hmove : Moves s event s') (hdone : event ≠ .done) :
    s'.closed = false := by
  cases hmove with
  | done => exact absurd rfl hdone
  | _ => exact h

/-! ## The paths it is about -/

/-- There is a timer or a goroutine for the path. -/
def Concerns (s : Loop P) (path : P) : Prop :=
  (∃ timer ∈ s.timers, timer.path = path) ∨ ∃ fire ∈ s.fires, fire.path = path

/-- Timers and goroutines are only made for the paths of events. -/
theorem concerns_step (h : s'.Concerns path) (hmove : Moves s event s') :
    s.Concerns path ∨ ∃ op, event = .event path op := by
  -- a goroutine that goes on keeps its path
  have hgo {g : Nat} {other : P} {old new : FirePc} (hfire : s.fires[g]? = some ⟨other, old⟩)
      (hmem : ∃ fire ∈ s.fires.set g ⟨other, new⟩, fire.path = path) : s.Concerns path := by
    obtain ⟨fire, hmem, hpath⟩ := hmem
    rcases List.mem_or_eq_of_mem_set hmem with hmem | rfl
    · exact .inr ⟨fire, hmem, hpath⟩
    · exact .inr ⟨_, List.mem_of_getElem? hfire, hpath⟩
  cases hmove with
  | wait | skip | error => exact .inl h
  | reset name op t hopen hop hentry =>
      rcases h with ⟨timer, hmem, hpath⟩ | hfire
      · obtain ⟨i, hi⟩ := List.mem_iff_getElem?.mp hmem
        rw [List.getElem?_modify] at hi
        obtain ⟨old, hold, rfl⟩ := Option.map_eq_some_iff.mp hi
        refine .inl (.inl ⟨old, List.mem_of_getElem? hold, ?_⟩)
        rw [← hpath]
        split_ifs <;> rfl
      · exact .inl (.inr hfire)
  | afterFunc name op hopen hop hentry =>
      rcases h with ⟨timer, hmem, hpath⟩ | hfire
      · rcases List.mem_append.mp hmem with hold | hnew
        · exact .inl (.inl ⟨timer, hold, hpath⟩)
        · obtain rfl := List.mem_singleton.mp hnew
          exact .inr ⟨op, by rw [← hpath]⟩
      · exact .inl (.inr hfire)
  | done hopen =>
      rcases h with ⟨timer, hmem, hpath⟩ | hfire
      · obtain ⟨t, ht, rfl⟩ := List.mem_mapIdx.mp hmem
        refine .inl (.inl ⟨_, List.getElem_mem ht, ?_⟩)
        rw [← hpath]
        split_ifs <;> rfl
      · exact .inl (.inr hfire)
  | expire t other deadline htimer hdue =>
      have hconcerns : s.Concerns other := .inl ⟨_, List.mem_of_getElem? htimer, rfl⟩
      rcases h with ⟨timer, hmem, hpath⟩ | ⟨fire, hmem, hpath⟩
      · rcases List.mem_or_eq_of_mem_set hmem with hold | rfl
        · exact .inl (.inl ⟨timer, hold, hpath⟩)
        · exact .inl (hpath ▸ hconcerns)
      · rcases List.mem_append.mp hmem with hold | hnew
        · exact .inl (.inr ⟨fire, hold, hpath⟩)
        · obtain rfl := List.mem_singleton.mp hnew
          exact .inl (hpath ▸ hconcerns)
  | delete g other hfire | stat g isFile other hfire | call g other hfire =>
      rcases h with htimer | hmem
      · exact .inl (.inl htimer)
      · exact .inl (hgo hfire hmem)

/-! ## Coming to rest -/

/-- No timer is armed and all goroutines have returned. -/
def Quiet (s : Loop P) : Prop :=
  (∀ timer ∈ s.timers, timer.deadline = none) ∧ ∀ fire ∈ s.fires, fire.pc = .done

/-- What happens without an event of fsnotify and before the loop ends; `isFile` is what `os.Stat`
says. -/
def isOwn (isFile : P → Bool) (s : Loop P) : LoopEvent P → Bool
  | .event _ _ | .done => false
  | .stat g answer => s.fires[g]?.all fun fire => answer == isFile fire.path
  | .wait _ | .error | .expire _ | .delete _ | .call _ => true

/-- The steps that timers and goroutines still have before them: an armed timer expires, and its
goroutine deletes the entry, looks and calls. -/
def work (s : Loop P) : Nat :=
  (s.timers.map fun timer => if timer.deadline.isSome then 4 else 0).sum +
    (s.fires.map fun fire => fire.pc.work).sum

/-- A goroutine that has not returned can go on. -/
theorem exists_fire_step (isFile : P → Bool) {fire : Fire P} (hmem : fire ∈ s.fires)
    (hpc : fire.pc ≠ .done) :
    ∃ event s', s.isOwn isFile event = true ∧ s.step event = some s' ∧ s'.work < s.work := by
  obtain ⟨path, pc⟩ := fire
  obtain ⟨g, hfire⟩ := List.mem_iff_getElem?.mp hmem
  have hless (new : FirePc) (entries : P → Option Nat) (hlt : new.work < pc.work) :
      work { s with entries := entries, fires := s.fires.set g ⟨path, new⟩ } < s.work := by
    have hsum := sum_map_set hfire (fun fire => fire.pc.work) ⟨path, new⟩
    dsimp only [work] at hsum ⊢
    omega
  cases pc with
  | lock =>
      refine ⟨.delete g, _, rfl, ?_, hless .stat (Function.update s.entries path none) ?_⟩
      · simp only [step, hfire]
      · decide
  | stat =>
      refine ⟨.stat g (isFile path), _, by simp [isOwn, hfire], ?_,
        hless (if isFile path then .call else .done) s.entries ?_⟩
      · simp only [step, hfire]
      · cases isFile path <;> decide
  | call =>
      refine ⟨.call g, _, rfl, ?_, hless .done s.entries ?_⟩
      · simp only [step, hfire]
      · decide
  | done => exact absurd rfl hpc

/-- An armed timer expires when it is time. -/
theorem exists_expire {timer : Timer P} (hmem : timer ∈ s.timers) (harmed : timer.deadline ≠ none) :
    ∃ (delay t : Nat) (s' : Loop P),
      step { s with now := s.now + delay } (.expire t) = some s' ∧ s'.work < s.work := by
  obtain ⟨path, deadline⟩ := timer
  obtain ⟨t, htimer⟩ := List.mem_iff_getElem?.mp hmem
  obtain ⟨deadline, rfl⟩ := Option.ne_none_iff_exists'.mp harmed
  have hdue : deadline ≤ s.now + (deadline - s.now).toNat := by omega
  have hsum := sum_map_set htimer (fun timer => if timer.deadline.isSome then 4 else 0)
    ⟨path, none⟩
  simp only [Option.isSome_some, Option.isSome_none, if_true, Bool.false_eq_true, if_false] at hsum
  have hfires : ((s.fires ++ [Fire.mk path .lock]).map fun fire => fire.pc.work).sum =
      (s.fires.map fun fire => fire.pc.work).sum + 3 := by
    rw [List.map_append, List.sum_append]
    rfl
  refine ⟨(deadline - s.now).toNat, t,
    { s with
      now := s.now + (deadline - s.now).toNat
      timers := s.timers.set t ⟨path, none⟩
      fires := s.fires ++ [⟨path, .lock⟩] }, ?_, ?_⟩
  · simp only [step, htimer, if_pos hdue]
  · dsimp only [work] at hsum ⊢
    omega

/-- The goroutines can bring the loop to rest, whatever their files are. -/
theorem exists_quiet_run (isFile : P → Bool) (s : Loop P) :
    ∃ events s', run step s events = some s' ∧
      Along step (fun state event => state.isOwn isFile event = true) s events ∧ s'.Quiet := by
  induction hwork : s.work using Nat.strongRecOn generalizing s with
  | ind n ih =>
      by_cases hfires : ∀ fire ∈ s.fires, fire.pc = .done
      · by_cases htimers : ∀ timer ∈ s.timers, timer.deadline = none
        · exact ⟨[], s, rfl, trivial, htimers, hfires⟩
        · push Not at htimers
          obtain ⟨timer, hmem, harmed⟩ := htimers
          obtain ⟨delay, t, mid, hstep, hlt⟩ := exists_expire hmem harmed
          obtain ⟨events, s', hrun, halong, hquiet⟩ := ih mid.work (hwork ▸ hlt) mid rfl
          refine ⟨.wait delay :: .expire t :: events, s', ?_, ?_, hquiet⟩
          · exact run_cons_eq_some.mpr ⟨_, rfl, run_cons_eq_some.mpr ⟨mid, hstep, hrun⟩⟩
          · exact (along_cons rfl).mpr ⟨rfl, (along_cons hstep).mpr ⟨rfl, halong⟩⟩
      · push Not at hfires
        obtain ⟨fire, hmem, hpc⟩ := hfires
        obtain ⟨event, mid, hown, hstep, hlt⟩ := exists_fire_step isFile hmem hpc
        obtain ⟨events, s', hrun, halong, hquiet⟩ := ih mid.work (hwork ▸ hlt) mid rfl
        exact ⟨event :: events, s', run_cons_eq_some.mpr ⟨mid, hstep, hrun⟩,
          (along_cons hstep).mpr ⟨hown, halong⟩, hquiet⟩

/-! ## Every interleaving -/

/-- The path has had a change, and since then no goroutine for it has begun its `os.Stat`. -/
def Unchecked (start : Loop P) (events : List (LoopEvent P)) (path : P) : Prop :=
  ∃ before op after s, events = before ++ .event path op :: after ∧ IsChange op ∧
    run step start before = some s ∧
    Along step (fun state event => ¬ Checks path state event) s (.event path op :: after)

/-- **Debouncing loses no change**: in every state before the loop ends, every path that has had a
change since a goroutine for it last looked at its file has an armed timer or a goroutine that has
not looked yet. -/
theorem change_is_pending {now : Int} {events : List (LoopEvent P)}
    (hrun : run step (start now) events = some s) (hopen : s.closed = false)
    (hchange : Unchecked (start now) events path) : s.Pending path := by
  obtain ⟨before, op, after, mid, rfl, hop, hbefore, hchecks⟩ := hchange
  have hmapped : Mapped mid :=
    run_invariant Mapped hbefore (along_true before) (mapped_start now)
      fun _ _ _ hinv _ hstep => mapped_step hinv (step_moves hstep)
  rw [run_append, hbefore] at hrun
  obtain ⟨next, hnext, hafter⟩ := run_cons_eq_some.mp hrun
  have hstart : next.closed = true ∨ next.Pending path :=
    .inr (.inl (armed_of_change hmapped hop (step_moves hnext)))
  have hfinal : s.closed = true ∨ s.Pending path := by
    refine run_invariant (fun state => state.closed = true ∨ state.Pending path) hafter
      ((along_cons hnext).mp hchecks).2 hstart ?_
    intro state event next hinv hguard hstep
    rcases hinv with hclosed | hpending
    · exact .inl (closed_step hclosed (step_moves hstep))
    · rcases pending_step hpending (step_moves hstep) with hclosed | hpending | hchecks
      · exact .inl hclosed
      · exact .inr hpending
      · exact absurd hchecks hguard
  exact hfinal.resolve_left (by simp [hopen])

/-- A timer expires, is reset while its goroutine waits for the mutex, and is then taken out of the
map; the next change makes a second timer. -/
theorem change_is_pending_two_timers :
    let events : List (LoopEvent Nat) :=
      [.event 7 opCreate, .wait 300000000, .expire 0, .event 7 opWrite, .delete 0, .stat 0 true,
        .event 7 opWrite]
    ∃ s, run step (start 0) events = some s ∧
      s.timers.map Timer.deadline = [some 600000000, some 600000000] ∧ s.Pending 7 := by
  intro events
  obtain ⟨s, hrun⟩ : ∃ s, run step (start 0) events = some s := ⟨_, rfl⟩
  obtain ⟨mid, hbefore⟩ : ∃ mid, run step (start 0) (events.take 6) = some mid := ⟨_, rfl⟩
  have hopen : s.closed = false := by
    cases hrun
    rfl
  have hchange : Unchecked (start 0) events 7 := by
    refine ⟨events.take 6, opWrite, [], mid, rfl, by decide, hbefore, ?_, ?_⟩
    · rintro ⟨g, isFile, hevent, -⟩
      cases hevent
    · cases mid.step (.event 7 opWrite) <;> trivial
  refine ⟨s, hrun, ?_, change_is_pending hrun hopen hchange⟩
  cases hrun
  decide

end Loop

end NuSync.Watcher
