import NuSync.Scheduler

/-!
# The watcher's debounce

The event loop and the `fire` goroutines of `internal/watcher/watcher.go`, for one path. A timer
can expire, and its goroutine wait for the mutex, when the next event resets it; the goroutine
then takes an armed timer out of the map. Nothing is lost by that: `alarms_pos_of_step` says that
once there is an event, there is one until a goroutine has looked at the file.
-/

namespace NuSync.Watcher

open NuSync.Scheduler

/-- `quietPeriod`. -/
def quietPeriod : Int := 300 * millisecond

/-- What the watcher has for one path: the events that fsnotify has reported and the loop has not
read, the timer in the map (armed with a deadline, or expired), the deadlines of armed timers that
are no longer in the map, and the `fire` goroutines that wait for the mutex, that are past it, and
that are about to call `onEvent`. -/
structure PathWatch where
  reported : Nat
  entry : Option (Option Int)
  strays : List Int
  waiting : Nat
  unlocked : Nat
  ready : Nat

/-- What happens: the loop reads an event, a timer expires, or a goroutine goes on. -/
inductive WatchEvent where
  | deliver
  | expire
  | expireStray (k : Nat)
  | delete
  | stat

namespace PathWatch

/-- Nothing has happened to the path. -/
def idle : PathWatch := ⟨0, none, [], 0, 0, 0⟩

/-- fsnotify reports events for the path. -/
def report (w : PathWatch) (count : Nat) : PathWatch :=
  { w with reported := w.reported + count }

/-- One step at time `now`; `isFile` is what `os.Stat` would say. `Reset` and `AfterFunc` both
leave an armed timer in the map. -/
def step (now : Int) (isFile : Bool) (w : PathWatch) : WatchEvent → Option PathWatch
  | .deliver =>
      if w.reported = 0 then none
      else some { w with reported := w.reported - 1, entry := some (some (now + quietPeriod)) }
  | .expire =>
      match w.entry with
      | some (some deadline) =>
          if deadline ≤ now then some { w with entry := some none, waiting := w.waiting + 1 }
          else none
      | _ => none
  | .expireStray k =>
      match w.strays[k]? with
      | some deadline =>
          if deadline ≤ now then
            some { w with strays := w.strays.eraseIdx k, waiting := w.waiting + 1 }
          else none
      | none => none
  | .delete =>
      if w.waiting = 0 then none
      else
        some { w with
          entry := none
          strays := w.entry.join.toList ++ w.strays
          waiting := w.waiting - 1
          unlocked := w.unlocked + 1 }
  | .stat =>
      if w.unlocked = 0 then none
      else
        some { w with
          unlocked := w.unlocked - 1
          ready := if isFile then w.ready + 1 else w.ready }

/-- A goroutine calls `onEvent`. -/
def take (w : PathWatch) : Option PathWatch :=
  if w.ready = 0 then none else some { w with ready := w.ready - 1 }

/-- The events on their way to the handler: reported, in an armed timer, or in a goroutine. -/
def alarms (w : PathWatch) : Nat :=
  w.reported + w.entry.join.toList.length + w.strays.length + w.waiting + w.unlocked + w.ready

variable {w w' : PathWatch} {now : Int} {isFile : Bool} {event : WatchEvent}

theorem alarms_report (count : Nat) : (w.report count).alarms = w.alarms + count := by
  simp only [report, alarms]
  omega

/-- **No event is lost.** After a step there is still something on its way, unless a goroutine has
found no file. -/
theorem alarms_pos_of_step (h : w.step now isFile event = some w')
    (hfile : event = .stat → isFile = true) : 0 < w'.alarms := by
  cases event with
  | deliver =>
      simp only [step] at h
      split_ifs at h
      cases h
      simp only [alarms, Option.join_some, Option.toList_some, List.length_singleton]
      omega
  | expire =>
      simp only [step] at h
      split at h
      · split_ifs at h
        cases h
        simp only [alarms]
        omega
      · cases h
  | expireStray k =>
      simp only [step] at h
      split at h
      · split_ifs at h
        cases h
        simp only [alarms]
        omega
      · cases h
  | delete =>
      simp only [step] at h
      split_ifs at h
      cases h
      simp only [alarms]
      omega
  | stat =>
      simp only [step, hfile rfl, if_true] at h
      split_ifs at h
      cases h
      simp only [alarms]
      omega

end PathWatch

end NuSync.Watcher
