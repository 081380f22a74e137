import NuSync.Watcher.Tree

/-!
# The watcher, seen from one path

`PathWatch` is what the watcher is to one path: an entry, the deadlines of armed timers that are no
longer in the map, and counts of goroutines. In `Loop` these are places in lists that all paths
share, with a map that leads into them. `path_step` says that a step of the watcher is, to each
path, a step of `PathWatch` or none at all, and `path_run` that its runs are runs of `PathWatch`.
-/

namespace NuSync.Watcher

open NuSync.Lib NuSync.Go

/-! ## What a path sees of the loop -/

section Views

variable {P : Type*} [DecidableEq P]

/-- The deadlines of all timers; `none` for those that are not armed or fire for other paths. -/
def deadlines (path : P) (timers : List (Timer P)) : List (Option Int) :=
  timers.map fun timer => if timer.path = path then timer.deadline else none

/-- The deadlines without that of the timer in the map. -/
def unmapped (entry : Option Nat) (column : List (Option Int)) : List (Option Int) :=
  match entry with
  | some t => column.set t none
  | none => column

/-- The number of goroutines for the path that stand here. -/
def standing (path : P) (pc : FirePc) (fires : List (Fire P)) : Nat :=
  fires.countP fun fire => fire.path = path ∧ fire.pc = pc

/-- The loop, seen from the path. Nothing is said about events that have not been read. -/
structure Loop.Shows (s : Loop P) (path : P) (w : PathWatch) : Prop where
  entry : w.entry = (s.entries path).map fun t => (deadlines path s.timers)[t]?.join
  strays : w.strays.Perm (unmapped (s.entries path) (deadlines path s.timers)).reduceOption
  waiting : w.waiting = standing path .lock s.fires
  unlocked : w.unlocked = standing path .stat s.fires
  ready : w.ready = standing path .call s.fires

end Views

/-! ## Lists of deadlines -/

/-- A deadline that is taken out. -/
theorem reduce_option_set_none {column : List (Option Int)} {t : Nat} {deadline : Int}
    (h : column[t]? = some (some deadline)) :
    column.reduceOption.Perm (deadline :: (column.set t none).reduceOption) := by
  obtain ⟨front, rest, hcolumn, hset⟩ := exists_split_set h
  rw [hset, hcolumn, List.reduceOption_append, List.reduceOption_append,
    List.reduceOption_cons_of_some, List.reduceOption_cons_of_none]
  exact List.perm_middle

/-- All deadlines are that of the timer in the map and the others. -/
theorem mapped_append_unmapped (entry : Option Nat) (column : List (Option Int)) :
    ((entry.map fun t => column[t]?.join).join.toList ++
      (unmapped entry column).reduceOption).Perm column.reduceOption := by
  cases entry with
  | none => exact .refl _
  | some t =>
      simp only [Option.map_some, Option.join_some, unmapped]
      cases hcolumn : column[t]? with
      | none =>
          rw [List.set_eq_of_length_le (List.getElem?_eq_none_iff.mp hcolumn)]
          exact .refl _
      | some deadline =>
          cases deadline with
          | none =>
              obtain ⟨ht, hget⟩ := List.getElem?_eq_some_iff.mp hcolumn
              have hsame : column.set t none = column := by
                rw [← hget, List.set_getElem_self]
              rw [hsame]
              exact .refl _
          | some deadline => exact (reduce_option_set_none hcolumn).symm

/-! ## Steps of one path -/

/-- What can happen to a path: nothing, fsnotify reports an event, it takes a step, or `onEvent` is
called. -/
inductive PathMoves (now : Int) (isFile : Bool) (w : PathWatch) : PathWatch → Prop
  | rest : PathMoves now isFile w w
  | report : PathMoves now isFile w (w.report 1)
  | step (event : WatchEvent) (w' : PathWatch) (h : w.step now isFile event = some w') :
      PathMoves now isFile w w'
  | take (w' : PathWatch) (h : w.take = some w') : PathMoves now isFile w w'

/-- A step of the loop as one of the path: it reads a change, or it does something else. -/
inductive Seen {P : Type*} (path : P) (now : Int) (isFile : Bool) (w : PathWatch) :
    LoopEvent P → PathWatch → Prop
  | change (op : UInt32) (hop : IsChange op) :
      Seen path now isFile w (.event path op) { w with entry := some (some (now + quietPeriod)) }
  | other (event : LoopEvent P) (w' : PathWatch)
      (hevent : ∀ op, IsChange op → event ≠ .event path op) (hreported : w'.reported = w.reported)
      (hmoves : PathMoves now isFile w w') : Seen path now isFile w event w'

section Moves

variable {P : Type*} {path : P} {now : Int} {isFile : Bool} {w w' : PathWatch} {event : LoopEvent P}

theorem Seen.nothing (hevent : ∀ op, IsChange op → event ≠ .event path op) :
    Seen path now isFile w event w := .other event w hevent rfl .rest

/-- A step that is not the reading of an event. -/
theorem Seen.step (own : WatchEvent) (hown : own ≠ .deliver)
    (hevent : ∀ op, IsChange op → event ≠ .event path op)
    (hstep : w.step now isFile own = some w') : Seen path now isFile w event w' := by
  refine .other event w' hevent ?_ (.step own w' hstep)
  cases own with
  | deliver => exact absurd rfl hown
  | expire | expireStray k =>
      simp only [PathWatch.step] at hstep
      split at hstep
      · split_ifs at hstep
        rw [← Option.some.inj hstep]
      · cases hstep
  | delete | stat =>
      simp only [PathWatch.step] at hstep
      split_ifs at hstep
      all_goals rw [← Option.some.inj hstep]

theorem Seen.take (hevent : ∀ op, IsChange op → event ≠ .event path op)
    (htake : w.take = some w') : Seen path now isFile w event w' := by
  refine .other event w' hevent ?_ (.take w' htake)
  simp only [PathWatch.take] at htake
  split_ifs at htake
  rw [← Option.some.inj htake]

end Moves

/-! ## One timer or goroutine -/

section Views

variable {P : Type*} [DecidableEq P] {path other : P} {timers : List (Timer P)}
  {fires : List (Fire P)} {t g : Nat}

/-- A timer of the path in the list of deadlines. -/
theorem deadlines_get {deadline : Option Int} (h : timers[t]? = some ⟨path, deadline⟩) :
    (deadlines path timers)[t]? = some deadline := by
  rw [deadlines, List.getElem?_map, h, Option.map_some, if_pos rfl]

/-- A timer of the path is set. -/
theorem deadlines_set (path : P) (timers : List (Timer P)) (t : Nat) (deadline : Option Int) :
    deadlines path (timers.set t ⟨path, deadline⟩) = (deadlines path timers).set t deadline := by
  rw [deadlines, List.map_set, if_pos rfl, deadlines]

/-- A timer of another path is set. -/
theorem deadlines_set_other {old new : Option Int} (hother : other ≠ path)
    (h : timers[t]? = some ⟨other, old⟩) :
    deadlines path (timers.set t ⟨other, new⟩) = deadlines path timers :=
  map_set_of_eq h (by rw [if_neg hother, if_neg hother])

/-- A timer is added. -/
theorem deadlines_append (path : P) (timers : List (Timer P)) (timer : Timer P) :
    deadlines path (timers ++ [timer]) =
      deadlines path timers ++ [if timer.path = path then timer.deadline else none] := by
  rw [deadlines, List.map_append, List.map_singleton, deadlines]

/-- A goroutine goes on. -/
theorem standing_set (path : P) {old : FirePc} (h : fires[g]? = some ⟨other, old⟩)
    (new pc : FirePc) :
    standing path pc (fires.set g ⟨other, new⟩) + (if other = path ∧ old = pc then 1 else 0) =
      standing path pc fires + if other = path ∧ new = pc then 1 else 0 := by
  simpa [standing] using
    countP_set_add h (fun fire => fire.path = path ∧ fire.pc = pc) ⟨other, new⟩

/-- A goroutine of the path goes on. -/
theorem standing_go {old : FirePc} (h : fires[g]? = some ⟨path, old⟩) (new : FirePc)
    (hne : new ≠ old) (pc : FirePc) :
    standing path pc (fires.set g ⟨path, new⟩) =
      if pc = old then standing path pc fires - 1
      else if pc = new then standing path pc fires + 1 else standing path pc fires := by
  have hset := standing_set path h new pc
  simp only [true_and, eq_comm (a := old), eq_comm (a := new)] at hset
  split_ifs at hset ⊢ with hold hnew
  · exact absurd (hnew.symm.trans hold) hne
  · omega
  · omega
  · omega

/-- It is one of those that were counted. -/
theorem standing_ne_zero {pc : FirePc} (h : fires[g]? = some ⟨path, pc⟩) :
    standing path pc fires ≠ 0 :=
  (List.countP_pos_iff.mpr ⟨_, List.mem_of_getElem? h, by simp⟩).ne'

/-- A goroutine of another path goes on. -/
theorem standing_set_other {old new : FirePc} (hother : other ≠ path)
    (h : fires[g]? = some ⟨other, old⟩) (pc : FirePc) :
    standing path pc (fires.set g ⟨other, new⟩) = standing path pc fires := by
  simpa [hother] using standing_set path h new pc

end Views

/-! ## Every step of the loop -/

namespace Loop

variable {P : Type*} [DecidableEq P] {s s' : Loop P} {path : P} {w : PathWatch}

omit [DecidableEq P] in
/-- A map entry of the path leads to a timer of the path. -/
theorem Mapped.timer (h : s.Mapped) {t : Nat} (hentry : s.entries path = some t) :
    ∃ deadline, s.timers[t]? = some ⟨path, deadline⟩ := by
  obtain ⟨⟨_, deadline⟩, htimer, rfl⟩ := h path t hentry
  exact ⟨deadline, htimer⟩

/-- The loop reads a change of the path. -/
theorem shows_change (hmapped : s.Mapped) {op : UInt32} (hop : IsChange op)
    (hmove : s.Moves (.event path op) s') (h : s.Shows path w) :
    s'.Shows path { w with entry := some (some (s.now + quietPeriod)) } := by
  obtain ⟨hentry, hstrays, hwaiting, hunlocked, hready⟩ := h
  cases hmove with
  | skip _ _ _ hskip => exact absurd hop hskip
  | reset _ _ t hopen _ hmap =>
      obtain ⟨deadline, htimer⟩ := hmapped.timer hmap
      have hlt : t < (deadlines path s.timers).length :=
        (List.getElem?_eq_some_iff.mp (deadlines_get htimer)).1
      have htimers : deadlines path
          (s.timers.modify t (Timer.reset (s.now + quietPeriod))) =
            (deadlines path s.timers).set t (some (s.now + quietPeriod)) := by
        rw [modify_eq_set htimer]
        exact deadlines_set path s.timers t _
      refine ⟨?_, ?_, hwaiting, hunlocked, hready⟩
      · simp only [htimers, hmap, Option.map_some, List.getElem?_set_self hlt, Option.join_some]
      · simpa only [htimers, hmap, unmapped, List.set_set] using hstrays
  | afterFunc _ _ hopen _ hmap =>
      have hlen : (deadlines path s.timers).length = s.timers.length := List.length_map _
      refine ⟨?_, ?_, hwaiting, hunlocked, hready⟩
      · simp [deadlines_append, ← hlen]
      · simpa [deadlines_append, ← hlen, unmapped, hmap, List.reduceOption_append] using hstrays

/-- The loop reads an event of another path. -/
theorem shows_other_event (hmapped : s.Mapped) {name : P} (hname : name ≠ path) {op : UInt32}
    (hmove : s.Moves (.event name op) s') (h : s.Shows path w) : s'.Shows path w := by
  obtain ⟨hentry, hstrays, hwaiting, hunlocked, hready⟩ := h
  cases hmove with
  | skip => exact ⟨hentry, hstrays, hwaiting, hunlocked, hready⟩
  | reset _ _ t hopen hop hmap =>
      obtain ⟨deadline, htimer⟩ := hmapped.timer hmap
      have htimers : deadlines path (s.timers.modify t (Timer.reset (s.now + quietPeriod))) =
          deadlines path s.timers := by
        rw [modify_eq_set htimer]
        exact deadlines_set_other hname htimer
      refine ⟨?_, ?_, hwaiting, hunlocked, hready⟩
      · rw [htimers]
        exact hentry
      · rw [htimers]
        exact hstrays
  | afterFunc _ _ hopen hop hmap =>
      have htimers : deadlines path (s.timers ++ [⟨name, some (s.now + quietPeriod)⟩]) =
          deadlines path s.timers ++ [none] := by
        rw [deadlines_append, if_neg hname]
      have hentries : Function.update s.entries name (some s.timers.length) path =
          s.entries path := Function.update_of_ne hname.symm _ _
      refine ⟨?_, ?_, hwaiting, hunlocked, hready⟩
      · dsimp only
        rw [htimers, hentries, hentry]
        cases hmapped' : s.entries path with
        | none => rfl
        | some t =>
            obtain ⟨deadline, htimer⟩ := hmapped.timer hmapped'
            have hlt := (List.getElem?_eq_some_iff.mp (deadlines_get htimer)).1
            rw [Option.map_some, Option.map_some, List.getElem?_append_left hlt]
      · dsimp only
        rw [htimers, hentries]
        cases hmapped' : s.entries path with
        | none =>
            rw [hmapped'] at hstrays
            simpa [unmapped, List.reduceOption_append] using hstrays
        | some t =>
            obtain ⟨deadline, htimer⟩ := hmapped.timer hmapped'
            have hlt := (List.getElem?_eq_some_iff.mp (deadlines_get htimer)).1
            rw [hmapped'] at hstrays
            simpa [unmapped, List.set_append_left _ _ hlt, List.reduceOption_append] using hstrays

/-- A timer of the path expires: the one in the map, or another one. -/
theorem shows_expire {t : Nat} {deadline : Int} (isFile : Bool)
    (htimer : s.timers[t]? = some ⟨path, some deadline⟩) (hdue : deadline ≤ s.now)
    (h : s.Shows path w) :
    ∃ own w', own ≠ .deliver ∧ w.step s.now isFile own = some w' ∧
      Shows { s with
        timers := s.timers.set t ⟨path, none⟩
        fires := s.fires ++ [⟨path, .lock⟩] } path w' := by
  obtain ⟨hentry, hstrays, hwaiting, hunlocked, hready⟩ := h
  have hfires (pc : FirePc) : standing path pc (s.fires ++ [⟨path, .lock⟩]) =
      standing path pc s.fires + if pc = .lock then 1 else 0 := by
    simp [standing, List.countP_append, List.countP_cons, eq_comm]
  have hget := deadlines_get htimer
  have hlt := (List.getElem?_eq_some_iff.mp hget).1
  by_cases hmap : s.entries path = some t
  · refine ⟨.expire, { w with entry := some none, waiting := w.waiting + 1 }, by simp, ?_, ?_⟩
    · rw [hmap, Option.map_some, hget] at hentry
      simp [PathWatch.step, hentry, hdue]
    · refine ⟨?_, ?_, ?_, ?_, ?_⟩
      · dsimp only
        rw [deadlines_set, hmap, Option.map_some, List.getElem?_set_self hlt, Option.join_some]
      · dsimp only
        rw [deadlines_set, hmap]
        rw [hmap] at hstrays
        simpa only [unmapped, List.set_set] using hstrays
      · simp [hfires, hwaiting]
      · simp [hfires, hunlocked]
      · simp [hfires, hready]
  · -- the column of the others still has the deadline, and loses it
    have hcolumn : (unmapped (s.entries path) (deadlines path s.timers))[t]? =
        some (some deadline) := by
      cases hentries : s.entries path with
      | none => exact hget
      | some mapped =>
          have hne : mapped ≠ t := fun heq => hmap (hentries.trans (congrArg some heq))
          exact (List.getElem?_set_ne hne).trans hget
    have hnext : unmapped (s.entries path) (deadlines path (s.timers.set t ⟨path, none⟩)) =
        (unmapped (s.entries path) (deadlines path s.timers)).set t none := by
      rw [deadlines_set]
      cases hentries : s.entries path with
      | none => rfl
      | some mapped =>
          have hne : t ≠ mapped := fun heq => hmap (hentries.trans (congrArg some heq.symm))
          exact List.set_comm none none hne
    have hperm := hstrays.trans (reduce_option_set_none hcolumn)
    obtain ⟨k, hk, hstray⟩ :=
      List.mem_iff_getElem.mp (hperm.mem_iff.mpr List.mem_cons_self)
    refine ⟨.expireStray k, { w with strays := w.strays.eraseIdx k, waiting := w.waiting + 1 },
      by simp, ?_, ?_⟩
    · simp [PathWatch.step, hk, hstray, hdue]
    · refine ⟨?_, ?_, ?_, ?_, ?_⟩
      · dsimp only
        rw [deadlines_set, hentry]
        cases hentries : s.entries path with
        | none => rfl
        | some mapped =>
            have hne : t ≠ mapped := fun heq => hmap (hentries.trans (congrArg some heq.symm))
            rw [Option.map_some, Option.map_some, List.getElem?_set_ne hne]
      · dsimp only
        rw [hnext]
        have herase : (deadline :: w.strays.eraseIdx k).Perm w.strays := by
          rw [← hstray]
          exact List.getElem_cons_eraseIdx_perm hk
        exact (herase.trans hperm).cons_inv
      · simp [hfires, hwaiting]
      · simp [hfires, hunlocked]
      · simp [hfires, hready]

/-- A timer of another path expires. -/
theorem shows_other_expire {t : Nat} {other : P} {deadline : Option Int} (hother : other ≠ path)
    (htimer : s.timers[t]? = some ⟨other, deadline⟩) (h : s.Shows path w) :
    Shows { s with
      timers := s.timers.set t ⟨other, none⟩
      fires := s.fires ++ [⟨other, .lock⟩] } path w := by
  obtain ⟨hentry, hstrays, hwaiting, hunlocked, hready⟩ := h
  have htimers : deadlines path (s.timers.set t ⟨other, none⟩) = deadlines path s.timers :=
    deadlines_set_other hother htimer
  have hfires (pc : FirePc) : standing path pc (s.fires ++ [⟨other, .lock⟩]) =
      standing path pc s.fires := by
    simp [standing, List.countP_append, hother]
  refine ⟨?_, ?_, hwaiting.trans (hfires _).symm, hunlocked.trans (hfires _).symm,
    hready.trans (hfires _).symm⟩
  · dsimp only
    rw [htimers]
    exact hentry
  · dsimp only
    rw [htimers]
    exact hstrays

/-- A goroutine of the path takes its entry out of the map. -/
theorem shows_delete {g : Nat} (isFile : Bool) (hfire : s.fires[g]? = some ⟨path, .lock⟩)
    (h : s.Shows path w) :
    ∃ w', w.step s.now isFile .delete = some w' ∧
      Shows { s with
        entries := Function.update s.entries path none
        fires := s.fires.set g ⟨path, .stat⟩ } path w' := by
  obtain ⟨hentry, hstrays, hwaiting, hunlocked, hready⟩ := h
  have hne : w.waiting ≠ 0 := hwaiting ▸ standing_ne_zero hfire
  have hgo := standing_go hfire .stat nofun
  refine ⟨_, if_neg hne, ?_, ?_, ?_, ?_, ?_⟩
  · simp
  · dsimp only
    rw [Function.update_self, hentry]
    exact (hstrays.append_left _).trans (mapped_append_unmapped _ _)
  · simp [hgo, hwaiting]
  · simp [hgo, hunlocked]
  · simp [hgo, hready]

/-- A goroutine of the path looks at it. -/
theorem shows_stat {g : Nat} (isFile : Bool) (hfire : s.fires[g]? = some ⟨path, .stat⟩)
    (h : s.Shows path w) :
    ∃ w', w.step s.now isFile .stat = some w' ∧
      Shows { s with fires := s.fires.set g ⟨path, if isFile then .call else .done⟩ } path w' := by
  obtain ⟨hentry, hstrays, hwaiting, hunlocked, hready⟩ := h
  have hne : w.unlocked ≠ 0 := hunlocked ▸ standing_ne_zero hfire
  have hgo := standing_go hfire (if isFile then .call else .done) (by cases isFile <;> nofun)
  refine ⟨_, if_neg hne, hentry, hstrays, ?_, ?_, ?_⟩
  · rw [hgo]
    cases isFile <;> simp [hwaiting]
  · rw [hgo]
    cases isFile <;> simp [hunlocked]
  · rw [hgo]
    cases isFile <;> simp [hready]

/-- A goroutine of the path calls `onEvent`. -/
theorem shows_call {g : Nat} (hfire : s.fires[g]? = some ⟨path, .call⟩) (h : s.Shows path w) :
    ∃ w', w.take = some w' ∧
      Shows { s with fires := s.fires.set g ⟨path, .done⟩ } path w' := by
  obtain ⟨hentry, hstrays, hwaiting, hunlocked, hready⟩ := h
  have hne : w.ready ≠ 0 := hready ▸ standing_ne_zero hfire
  have hgo := standing_go hfire .done nofun
  refine ⟨_, if_neg hne, hentry, hstrays, ?_, ?_, ?_⟩
  · simp [hgo, hwaiting]
  · simp [hgo, hunlocked]
  · simp [hgo, hready]

/-- A goroutine of another path goes on. -/
theorem shows_other_fire {g : Nat} {other : P} {old new : FirePc} (hother : other ≠ path)
    (hfire : s.fires[g]? = some ⟨other, old⟩) {entries : P → Option Nat}
    (hentries : entries path = s.entries path) (h : s.Shows path w) :
    Shows { s with entries := entries, fires := s.fires.set g ⟨other, new⟩ } path w := by
  obtain ⟨hentry, hstrays, hwaiting, hunlocked, hready⟩ := h
  have hset (pc : FirePc) : standing path pc (s.fires.set g ⟨other, new⟩) =
      standing path pc s.fires := standing_set_other hother hfire pc
  refine ⟨?_, ?_, hwaiting.trans (hset _).symm, hunlocked.trans (hset _).symm,
    hready.trans (hset _).symm⟩
  · dsimp only
    rw [hentries]
    exact hentry
  · dsimp only
    rw [hentries]
    exact hstrays

/-- **A step of the loop, seen from one path.** -/
theorem shows_step (isFile : P → Bool) (hmapped : s.Mapped) {event : LoopEvent P}
    (hmove : s.Moves event s') (hdone : event ≠ .done)
    (hstat : ∀ g answer, event = .stat g answer → ∀ fire, s.fires[g]? = some fire →
      answer = isFile fire.path) (h : s.Shows path w) :
    ∃ w', Seen path s.now (isFile path) w event w' ∧ s'.Shows path w' := by
  cases hmove with
  | wait delay =>
      exact ⟨w, .nothing nofun, h.entry, h.strays, h.waiting, h.unlocked, h.ready⟩
  | skip name op hopen hop =>
      refine ⟨w, .nothing ?_, h⟩
      rintro op' hop' ⟨⟩
      exact hop hop'
  | error => exact ⟨w, .nothing nofun, h⟩
  | done => exact absurd rfl hdone
  | reset name op t hopen hop hmap =>
      have hmove := Moves.reset name op t hopen hop hmap
      by_cases hname : name = path
      · subst hname
        exact ⟨_, .change op hop, shows_change hmapped hop hmove h⟩
      · refine ⟨w, .nothing ?_, shows_other_event hmapped hname hmove h⟩
        rintro op' - ⟨⟩
        exact hname rfl
  | afterFunc name op hopen hop hmap =>
      have hmove := Moves.afterFunc name op hopen hop hmap
      by_cases hname : name = path
      · subst hname
        exact ⟨_, .change op hop, shows_change hmapped hop hmove h⟩
      · refine ⟨w, .nothing ?_, shows_other_event hmapped hname hmove h⟩
        rintro op' - ⟨⟩
        exact hname rfl
  | expire t other deadline htimer hdue =>
      by_cases hother : other = path
      · subst hother
        obtain ⟨own, w', hown, hstep, hshows⟩ := shows_expire (isFile other) htimer hdue h
        exact ⟨w', .step own hown nofun hstep, hshows⟩
      · exact ⟨w, .nothing nofun, shows_other_expire hother htimer h⟩
  | delete g other hfire =>
      by_cases hother : other = path
      · subst hother
        obtain ⟨w', hstep, hshows⟩ := shows_delete (isFile other) hfire h
        exact ⟨w', .step .delete nofun nofun hstep, hshows⟩
      · exact ⟨w, .nothing nofun, shows_other_fire hother hfire
          (Function.update_of_ne (Ne.symm hother) _ _) h⟩
  | stat g answer other hfire =>
      by_cases hother : other = path
      · subst hother
        obtain rfl := hstat g answer rfl _ hfire
        obtain ⟨w', hstep, hshows⟩ := shows_stat (isFile other) hfire h
        exact ⟨w', .step .stat nofun nofun hstep, hshows⟩
      · exact ⟨w, .nothing nofun, shows_other_fire hother hfire rfl h⟩
  | call g other hfire =>
      by_cases hother : other = path
      · subst hother
        obtain ⟨w', htake, hshows⟩ := shows_call hfire h
        exact ⟨w', .take nofun htake, hshows⟩
      · exact ⟨w, .nothing nofun, shows_other_fire hother hfire rfl h⟩

end Loop

/-! ## The watcher -/

namespace TreeWatch

variable {s s' : TreeWatch} {event : TreeEvent} {path : TreePath} {tree : DirTree GoString}
  {w : PathWatch}

/-- The changes of the path that fsnotify has reported and the loop has not read. -/
def unread (path : TreePath) (reported : List (TreePath × UInt32)) : Nat :=
  reported.countP fun report => report.1 = path ∧ IsChange report.2

/-- The watcher, seen from the path. -/
structure Shows (s : TreeWatch) (path : TreePath) (w : PathWatch) : Prop where
  reported : w.reported = unread path s.reported
  loop : s.loop.Shows path w

theorem shows_start (now : Int) (tree : DirTree GoString) (path : TreePath) :
    (start now tree).Shows path .idle where
  reported := rfl
  loop := ⟨rfl, .refl _, rfl, rfl, rfl⟩

/-- The number of unread events plays no part in what the loop shows. -/
theorem shows_with_reported {loop : Loop TreePath} (h : loop.Shows path w) (count : Nat) :
    loop.Shows path { w with reported := count } :=
  ⟨h.entry, h.strays, h.waiting, h.unlocked, h.ready⟩

/-- fsnotify reports a change of the path itself, of another one, or nothing. -/
theorem shows_report (other : TreePath) {op : UInt32} (hop : IsChange op) (h : s.Shows path w)
    (tree : DirTree GoString) (now : Int) (isFile : Bool) :
    ∃ w', PathMoves now isFile w w' ∧
      Shows { s with tree := tree, reported := s.reported ++ s.report other op } path w' := by
  have hunread (reported : List (TreePath × UInt32)) :
      unread path (s.reported ++ reported) = w.reported + unread path reported := by
    rw [unread, List.countP_append, h.reported]
    rfl
  by_cases hnew : other = path ∧ other.dropLast ∈ s.watched
  · obtain ⟨rfl, hwatched⟩ := hnew
    refine ⟨w.report 1, .report, ?_, shows_with_reported h.loop _⟩
    rw [hunread, report, if_pos hwatched]
    simp [PathWatch.report, unread, hop]
  · refine ⟨w, .rest, ?_, h.loop⟩
    have hnone : unread path (s.report other op) = 0 := by
      unfold report
      split_ifs with hwatched
      · have hother : other ≠ path := fun heq => hnew ⟨heq, hwatched⟩
        simp [unread, hother]
      · rfl
    rw [hunread, hnone, Nat.add_zero]

/-- **A step of the watcher, seen from one path.** -/
theorem path_step (hsound : Sound tree s) (hmove : Moves s event s') (h : s.Shows path w) :
    ∃ w', PathMoves s.loop.now (s.isFile path) w w' ∧ s'.Shows path w' := by
  cases hmove with
  | create kind other tree hcreate => exact shows_report other (by decide) h tree _ _
  | write other hfile => exact shows_report other (by decide) h s.tree _ _
  | deliver other op rest loop hhead hmove =>
      have hreported := h.reported
      rw [hhead] at hreported
      obtain ⟨w', hseen, hshows⟩ :=
        Loop.shows_step s.isFile hsound.mapped hmove nofun (fun _ _ heq => by cases heq) h.loop
      cases hseen with
      | change _ hop =>
          have hcount : w.reported = unread path rest + 1 := by
            simpa [unread, hop] using hreported
          have hne : w.reported ≠ 0 := by omega
          refine ⟨_, .step .deliver _ (if_neg hne), ?_, shows_with_reported hshows _⟩
          dsimp only
          omega
      | other _ _ hevent hsame hmoves =>
          have hskip : ¬ (other = path ∧ IsChange op) := by
            rintro ⟨rfl, hop⟩
            exact hevent op hop rfl
          have hcount : w.reported = unread path rest := by
            simpa [unread, hskip] using hreported
          exact ⟨w', hmoves, hsame.trans hcount, hshows⟩
  | own own loop hown hmove =>
      obtain ⟨hdone, hevent⟩ := ne_of_is_own hown
      have hstat : ∀ g answer, own = .stat g answer → ∀ fire, s.loop.fires[g]? = some fire →
          answer = s.isFile fire.path := by
        rintro g answer rfl fire hfire
        simpa [Loop.isOwn, hfire] using hown
      obtain ⟨w', hseen, hshows⟩ :=
        Loop.shows_step s.isFile hsound.mapped hmove hdone hstat h.loop
      cases hseen with
      | change op hop => exact absurd rfl (hevent path op)
      | other _ _ _ hsame hmoves => exact ⟨w', hmoves, hsame.trans h.reported, hshows⟩

/-- **The watcher refines `PathWatch`**: every run is, to each path, a run of `PathWatch`. -/
theorem path_run {now : Int} {events : List TreeEvent}
    (hrun : run step (start now tree) events = some s) (path : TreePath) :
    ∃ w, s.Shows path w ∧
      Relation.ReflTransGen (fun w w' => ∃ now isFile, PathMoves now isFile w w') .idle w := by
  have hfinal : Sound tree s ∧ ∃ w, s.Shows path w ∧
      Relation.ReflTransGen (fun w w' => ∃ now isFile, PathMoves now isFile w w') .idle w := by
    refine run_invariant (fun state => Sound tree state ∧ ∃ w, state.Shows path w ∧
      Relation.ReflTransGen (fun w w' => ∃ now isFile, PathMoves now isFile w w') .idle w) hrun
      (along_true events) ⟨sound_start now, .idle, shows_start now tree path, .refl⟩ ?_
    rintro state event next ⟨hsound, w, hshows, hpath⟩ - hstep
    have hmove := step_moves hstep
    obtain ⟨w', hmoves, hshows'⟩ := path_step hsound hmove hshows
    exact ⟨sound_step hsound hmove, w', hshows', hpath.tail ⟨_, _, hmoves⟩⟩
  exact hfinal.2

end TreeWatch

end NuSync.Watcher
