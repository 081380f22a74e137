import Mathlib

/-!
# Runs of guarded step functions

A system is a step function `S → E → Option S`: the event is taken, or it is not enabled and
there is no successor. `run` replays a list of events, `Reachable` forgets the list, and
`Along` says that every event of a run meets a guard in the state where it is taken. The rule
to read first is `run_invariant`: a predicate that every guarded step preserves holds after
every guarded run.
-/

namespace NuSync.Lib

variable {S E : Type*}

/-- Execute the events in order. An event that is not enabled ends the run without a state. -/
def run (step : S → E → Option S) : S → List E → Option S
  | state, [] => some state
  | state, event :: events => step state event >>= fun next => run step next events

/-- Some finite run leads from the first state to the second. -/
def Reachable (step : S → E → Option S) (start finish : S) : Prop :=
  ∃ events, run step start events = some finish

/-- Every event of the run meets the guard in the state in which it is taken. -/
def Along (step : S → E → Option S) (guard : S → E → Prop) : S → List E → Prop
  | _, [] => True
  | state, event :: events =>
      guard state event ∧
        match step state event with
        | some next => Along step guard next events
        | none => True

/-- A guard that can be checked can be checked along a run. -/
instance Along.decidable (step : S → E → Option S) (guard : S → E → Prop)
    [∀ state event, Decidable (guard state event)] :
    ∀ (state : S) (events : List E), Decidable (Along step guard state events)
  | _, [] => inferInstanceAs (Decidable True)
  | state, event :: events =>
      @instDecidableAnd _ _ (inferInstanceAs (Decidable (guard state event)))
        (match step state event with
        | some next => Along.decidable step guard next events
        | none => inferInstanceAs (Decidable True))

variable {step : S → E → Option S} {guard : S → E → Prop} {start middle finish : S}

@[simp] theorem run_nil : run step start [] = some start := rfl

@[simp] theorem run_cons (event : E) (events : List E) :
    run step start (event :: events) =
      (step start event >>= fun next => run step next events) := rfl

/-- A nonempty run is a first step followed by the rest of the run. -/
theorem run_cons_eq_some {event : E} {events : List E} :
    run step start (event :: events) = some finish ↔
      ∃ next, step start event = some next ∧ run step next events = some finish := by
  simp only [run_cons, Option.bind_eq_bind, Option.bind_eq_some_iff]

/-- Running a concatenation is running its two parts one after the other. -/
theorem run_append (first second : List E) :
    run step start (first ++ second) =
      (run step start first >>= fun state => run step state second) := by
  induction first generalizing start with
  | nil => rfl
  | cons event events ih =>
      simp only [List.cons_append, run_cons]
      cases step start event with
      | none => rfl
      | some next => exact ih

/-- A guarded nonempty run is a guarded step followed by a guarded run. -/
theorem along_cons {event : E} {events : List E} (hstep : step start event = some middle) :
    Along step guard start (event :: events) ↔
      guard start event ∧ Along step guard middle events := by
  simp [Along, hstep]

/-- A guard that holds of every event of the list, whatever the state, holds along its run. -/
theorem along_of_forall {events : List E} (h : ∀ event ∈ events, ∀ state, guard state event) :
    Along step guard start events := by
  induction events generalizing start with
  | nil => trivial
  | cons event events ih =>
      refine ⟨h event List.mem_cons_self start, ?_⟩
      cases step start event with
      | none => trivial
      | some next => exact ih fun later hlater => h later (List.mem_cons_of_mem event hlater)

/-- The guard holds along the first part of a guarded run. -/
theorem along_first {first second : List E} (h : Along step guard start (first ++ second)) :
    Along step guard start first := by
  induction first generalizing start with
  | nil => trivial
  | cons event events ih =>
      refine ⟨h.1, ?_⟩
      cases hstep : step start event with
      | none => trivial
      | some next => exact ih ((along_cons hstep).mp h).2

/-- The guard holds along the rest of a guarded run. -/
theorem along_suffix {first second : List E} (hrun : run step start first = some middle)
    (h : Along step guard start (first ++ second)) : Along step guard middle second := by
  induction first generalizing start with
  | nil =>
      cases hrun
      exact h
  | cons event events ih =>
      obtain ⟨next, hstep, hrest⟩ := run_cons_eq_some.mp hrun
      exact ih hrest ((along_cons hstep).mp h).2

/-- The guard holds along a run whose two parts are guarded. -/
theorem along_append {first second : List E} (hrun : run step start first = some middle)
    (hfirst : Along step guard start first) (hsecond : Along step guard middle second) :
    Along step guard start (first ++ second) := by
  induction first generalizing start with
  | nil =>
      cases hrun
      exact hsecond
  | cons event events ih =>
      obtain ⟨next, hstep, hrest⟩ := run_cons_eq_some.mp hrun
      obtain ⟨hevent, halong⟩ := (along_cons hstep).mp hfirst
      exact (along_cons hstep).mpr ⟨hevent, ih hrest halong⟩

/-- Two guards along a run are one guard. -/
theorem Along.and {guard' : S → E → Prop} {events : List E} (h : Along step guard start events)
    (h' : Along step guard' start events) :
    Along step (fun state event => guard state event ∧ guard' state event) start events := by
  induction events generalizing start with
  | nil => trivial
  | cons event events ih =>
      refine ⟨⟨h.1, h'.1⟩, ?_⟩
      cases hstep : step start event with
      | none => trivial
      | some next => exact ih ((along_cons hstep).mp h).2 ((along_cons hstep).mp h').2

/-- The event is taken in this state at some point of the run. -/
def Taken (step : S → E → Option S) (start : S) (events : List E) (state : S) (event : E) : Prop :=
  ∃ before after, events = before ++ event :: after ∧ run step start before = some state

/-- Every event of a run is taken in the state it is taken in. -/
theorem along_taken (events : List E) : Along step (Taken step start events) start events := by
  -- the part of the run before the state is carried along
  suffices h : ∀ before state, run step start before = some state → ∀ after,
      events = before ++ after → Along step (Taken step start events) state after from
    h [] start rfl events rfl
  intro before state hbefore after
  induction after generalizing before state with
  | nil => exact fun _ => trivial
  | cons event after ih =>
      intro hsplit
      refine ⟨⟨before, after, hsplit, hbefore⟩, ?_⟩
      cases hstep : step state event with
      | none => trivial
      | some next =>
          refine ih (before ++ [event]) next ?_ (by simp [hsplit])
          rw [run_append, hbefore]
          exact run_cons_eq_some.mpr ⟨next, hstep, rfl⟩

/-- The trivial guard holds along every run. -/
theorem along_true (events : List E) : Along step (fun _ _ => True) start events :=
  along_of_forall fun _ _ _ => trivial

/-- **Invariant rule.** What holds at the start and is preserved by every guarded step holds
after every guarded run. -/
theorem run_invariant (inv : S → Prop) {events : List E}
    (hrun : run step start events = some finish) (hguard : Along step guard start events)
    (hstart : inv start)
    (hstep : ∀ state event next, inv state → guard state event →
      step state event = some next → inv next) : inv finish := by
  induction events generalizing start with
  | nil =>
      cases hrun
      exact hstart
  | cons event events ih =>
      obtain ⟨next, hnext, hrest⟩ := run_cons_eq_some.mp hrun
      obtain ⟨hfirst, halong⟩ := (along_cons hnext).mp hguard
      exact ih hrest halong (hstep start event next hstart hfirst hnext)

/-- **Invariant rule with history.** The same for a predicate of the state and the events that led
to it. -/
theorem run_history (inv : List E → S → Prop) {events : List E}
    (hrun : run step start events = some finish) (hstart : inv [] start)
    (hstep : ∀ before state event next, inv before state → step state event = some next →
      inv (before ++ [event]) next) : inv events finish := by
  -- the events before are carried along
  suffices h : ∀ before state, inv before state → ∀ after,
      run step state after = some finish → inv (before ++ after) finish from
    h [] start hstart events hrun
  intro before state hinv after
  induction after generalizing before state with
  | nil =>
      intro hdone
      cases hdone
      simpa using hinv
  | cons event after ih =>
      intro hafter
      obtain ⟨next, hnext, hrest⟩ := run_cons_eq_some.mp hafter
      simpa using ih (before ++ [event]) next (hstep before state event next hinv hnext) hrest

/-- An invariant of the guarded steps that, with the guard, gives another guard gives it along the
run. -/
theorem along_of_invariant {guard' : S → E → Prop} (inv : S → Prop) {events : List E}
    (hguard : Along step guard start events) (hstart : inv start)
    (hstep : ∀ state event next, inv state → guard state event →
      step state event = some next → inv next)
    (himp : ∀ state event, inv state → guard state event → guard' state event) :
    Along step guard' start events := by
  induction events generalizing start with
  | nil => trivial
  | cons event events ih =>
      refine ⟨himp start event hstart hguard.1, ?_⟩
      cases hnext : step start event with
      | none => trivial
      | some next =>
          exact ih ((along_cons hnext).mp hguard).2 (hstep start event next hstart hguard.1 hnext)

/-- The invariant rule for runs without a guard. -/
theorem Reachable.invariant (h : Reachable step start finish) (inv : S → Prop)
    (hstart : inv start)
    (hstep : ∀ state event next, inv state → step state event = some next → inv next) :
    inv finish := by
  obtain ⟨events, hrun⟩ := h
  exact run_invariant inv hrun (along_true events) hstart
    fun state event next hinv _ hnext => hstep state event next hinv hnext

/-- **Measure rule.** If every step lowers a measure, it bounds the length of every run. -/
theorem run_length_le (inv : S → Prop) (measure : S → Nat) {events : List E}
    (hrun : run step start events = some finish) (hstart : inv start)
    (hstep : ∀ state event next, inv state → step state event = some next →
      inv next ∧ measure next < measure state) :
    events.length + measure finish ≤ measure start := by
  induction events generalizing start with
  | nil =>
      cases hrun
      simp
  | cons event events ih =>
      obtain ⟨next, hnext, hrest⟩ := run_cons_eq_some.mp hrun
      obtain ⟨hinv, hlt⟩ := hstep start event next hstart hnext
      have := ih hrest hinv
      rw [List.length_cons]
      omega

/-- **Counting rule.** If every guarded step lowers a measure by one, the measure counts the steps
of every guarded run. -/
theorem run_length_add (inv : S → Prop) (measure : S → Nat) {events : List E}
    (hrun : run step start events = some finish) (hguard : Along step guard start events)
    (hstart : inv start)
    (hstep : ∀ state event next, inv state → guard state event → step state event = some next →
      inv next ∧ measure next + 1 = measure state) :
    inv finish ∧ events.length + measure finish = measure start := by
  induction events generalizing start with
  | nil =>
      cases hrun
      exact ⟨hstart, by simp⟩
  | cons event events ih =>
      obtain ⟨next, hnext, hrest⟩ := run_cons_eq_some.mp hrun
      obtain ⟨hfirst, halong⟩ := (along_cons hnext).mp hguard
      obtain ⟨hinv, hmeasure⟩ := hstep start event next hstart hfirst hnext
      obtain ⟨hfinish, hlength⟩ := ih hrest halong hinv
      refine ⟨hfinish, ?_⟩
      rw [List.length_cons]
      omega

/-- **Progress rule.** If moreover a guarded step can be taken while the measure is not zero, a
guarded run leads to where it is. -/
theorem exists_run_measure_zero (inv : S → Prop) (measure : S → Nat) (hstart : inv start)
    (hstep : ∀ state event next, inv state → guard state event → step state event = some next →
      inv next ∧ measure next + 1 = measure state)
    (hprogress : ∀ state, inv state → measure state ≠ 0 →
      ∃ event next, guard state event ∧ step state event = some next) :
    ∃ events finish, run step start events = some finish ∧ Along step guard start events ∧
      measure finish = 0 := by
  generalize hn : measure start = n
  induction n generalizing start with
  | zero => exact ⟨[], start, rfl, trivial, hn⟩
  | succ n ih =>
      obtain ⟨event, next, hguard, hnext⟩ := hprogress start hstart (by omega)
      obtain ⟨hinv, hmeasure⟩ := hstep start event next hstart hguard hnext
      obtain ⟨events, finish, hrun, halong, hzero⟩ := ih hinv (by omega)
      exact ⟨event :: events, finish, run_cons_eq_some.mpr ⟨next, hnext, hrun⟩,
        (along_cons hnext).mpr ⟨hguard, halong⟩, hzero⟩

/-- **Exact guards.** If a step keeps `inv` exactly when it meets the guard, then all states of a
run have `inv` exactly when all its steps meet the guard. `aux` holds in any case. -/
theorem forall_states_iff_along (aux inv : S → Prop) {events : List E}
    (hrun : run step start events = some finish) (haux : aux start) (hinv : inv start)
    (hstep : ∀ state event next, aux state → inv state → step state event = some next →
      aux next ∧ (inv next ↔ guard state event)) :
    (∀ before after state, events = before ++ after → run step start before = some state →
      inv state) ↔ Along step guard start events := by
  induction events generalizing start with
  | nil =>
      refine ⟨fun _ => trivial, fun _ before after state hsplit hbefore => ?_⟩
      obtain ⟨rfl, -⟩ := List.append_eq_nil_iff.mp hsplit.symm
      cases hbefore
      exact hinv
  | cons event events ih =>
      obtain ⟨next, hnext, hrest⟩ := run_cons_eq_some.mp hrun
      obtain ⟨hnextAux, hiff⟩ := hstep start event next haux hinv hnext
      rw [along_cons hnext, ← hiff]
      constructor
      · intro hall
        have hnextInv : inv next :=
          hall [event] events next rfl (run_cons_eq_some.mpr ⟨next, hnext, rfl⟩)
        refine ⟨hnextInv, (ih hrest hnextAux hnextInv).mp ?_⟩
        intro before after state hsplit hbefore
        exact hall (event :: before) after state (by rw [hsplit, List.cons_append])
          (run_cons_eq_some.mpr ⟨next, hnext, hbefore⟩)
      · rintro ⟨hnextInv, halong⟩ before after state hsplit hbefore
        cases before with
        | nil =>
            cases hbefore
            exact hinv
        | cons first before =>
            obtain ⟨rfl, hlater⟩ := List.cons.inj hsplit
            obtain ⟨other, hother, hbefore⟩ := run_cons_eq_some.mp hbefore
            cases hnext.symm.trans hother
            exact (ih hrest hnextAux hnextInv).mpr halong before after state hlater hbefore

/-- **Simulation rule.** If every step from related states can be followed, so can every run. -/
theorem run_simulation {T : Type*} (step' : T → E → Option T) (related : S → T → Prop)
    {events : List E} (hrun : run step start events = some finish) {start' : T}
    (hstart : related start start')
    (hstep : ∀ state state' event next, related state state' → step state event = some next →
      ∃ next', step' state' event = some next' ∧ related next next') :
    ∃ finish', run step' start' events = some finish' ∧ related finish finish' := by
  induction events generalizing start start' with
  | nil =>
      cases hrun
      exact ⟨start', rfl, hstart⟩
  | cons event events ih =>
      obtain ⟨next, hnext, hrest⟩ := run_cons_eq_some.mp hrun
      obtain ⟨next', hnext', hrelated⟩ := hstep start start' event next hstart hnext
      obtain ⟨finish', hfinish', hfinal⟩ := ih hrest hrelated
      exact ⟨finish', run_cons_eq_some.mpr ⟨next', hnext', hfinish'⟩, hfinal⟩

/-- **Simulation rule with steps that do not show.** If every step is matched by a step of another
system or by none, a run of the first is matched by a run of the second. -/
theorem run_stutter {T F : Type*} (step' : T → F → Option T) (related : S → T → Prop)
    (allowed : F → Prop) {events : List E} (hrun : run step start events = some finish) {start' : T}
    (hstart : related start start')
    (hstep : ∀ state state' event next, related state state' → step state event = some next →
      related next state' ∨ ∃ event' next', allowed event' ∧
        step' state' event' = some next' ∧ related next next') :
    ∃ events' finish', (∀ event' ∈ events', allowed event') ∧
      run step' start' events' = some finish' ∧ related finish finish' := by
  induction events generalizing start start' with
  | nil =>
      cases hrun
      exact ⟨[], start', by simp, rfl, hstart⟩
  | cons event events ih =>
      obtain ⟨next, hnext, hrest⟩ := run_cons_eq_some.mp hrun
      rcases hstep _ _ _ _ hstart hnext with hsame | ⟨event', next', hallowed, hmove, hrelated⟩
      · exact ih hrest hsame
      · obtain ⟨events', finish', hall, hrun', hfinish⟩ := ih hrest hrelated
        exact ⟨event' :: events', finish', List.forall_mem_cons.mpr ⟨hallowed, hall⟩,
          run_cons_eq_some.mpr ⟨next', hmove, hrun'⟩, hfinish⟩

/-- Every state is reachable from itself. -/
theorem Reachable.refl (state : S) : Reachable step state state := ⟨[], rfl⟩

/-- What is reachable after one step is reachable. -/
theorem Reachable.head (event : E) (hstep : step start event = some middle)
    (h : Reachable step middle finish) : Reachable step start finish := by
  obtain ⟨events, hrun⟩ := h
  exact ⟨event :: events, run_cons_eq_some.mpr ⟨middle, hstep, hrun⟩⟩

/-- Reachability is transitive. -/
theorem Reachable.trans (h : Reachable step start middle) (h' : Reachable step middle finish) :
    Reachable step start finish := by
  obtain ⟨events, hrun⟩ := h
  obtain ⟨events', hrun'⟩ := h'
  exact ⟨events ++ events', by rw [run_append, hrun]; exact hrun'⟩

end NuSync.Lib
