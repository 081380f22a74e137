import NuSync.Daemon.Handlers
import NuSync.Lib.Replace

/-!
# Concurrent calls on the clock

`observeTS` and `nextTS` of `internal/daemon/daemon.go`, called from any number of goroutines, one
atomic operation at a time. `observeTS` loads the clock and swaps it if nothing has changed it in
between, and otherwise starts again. A call takes effect with its last operation, so the order in
which the calls return is the order in which they could have run one after another:
`clock_linearizable` says so, and what follows from it.
-/

namespace NuSync

open Go Lib

/-! ## The calls -/

/-- Where a call of `observeTS` stands: before `Load`, before `CompareAndSwap` with what it has
loaded, or returned. -/
inductive ObservePc where
  | load
  | swap (cur : UInt64)
  | returned
  deriving DecidableEq

/-- A call on the clock. That of `nextTS` has returned once it has a timestamp. -/
inductive ClockCall where
  | observe (remote : UInt64) (pc : ObservePc)
  | next (ts : Option UInt64)
  deriving DecidableEq

namespace ClockCall

/-- The call has returned. -/
def isReturned : ClockCall → Bool
  | .observe _ .returned | .next (some _) => true
  | _ => false

/-- The timestamp that `nextTS` returned. -/
def stamp : ClockCall → Option UInt64
  | .observe _ _ => none
  | .next ts => ts

/-- The timestamp that the clock has seen when the call returns. -/
def seen : ClockCall → Option UInt64
  | .observe remote _ => some remote
  | .next ts => ts

/-- The call when nothing runs beside it: the daemon after it, if it returns what it does here. -/
def atomic (d : Daemon) : ClockCall → Option Daemon
  | .observe remote .returned => some (d.observeTS remote)
  | .next (some ts) => if d.nextTS.2 = ts then some d.nextTS.1 else none
  | _ => none

end ClockCall

/-- The clock, the calls so far in the order in which they began, and those that have returned in
the order in which they did. -/
structure ClockRun where
  clock : UInt64
  calls : List ClockCall
  log : List ClockCall
  deriving DecidableEq

/-- A goroutine calls `observeTS` or `nextTS`, or a call takes its next atomic operation. -/
inductive ClockEvent where
  | observeTS (remote : UInt64)
  | nextTS
  | step (i : Nat)

namespace ClockRun

/-- Nothing has been called. -/
def start (clock : UInt64) : ClockRun := ⟨clock, [], []⟩

/-- The state after call `i` has come this far. -/
def advance (s : ClockRun) (i : Nat) (clock : UInt64) (c : ClockCall) : ClockRun :=
  ⟨clock, s.calls.set i c, if c.isReturned then s.log ++ [c] else s.log⟩

/-- Call `j` is one of `nextTS` that has returned this timestamp. -/
def Handed (s : ClockRun) (j : Nat) (ts : UInt64) : Prop := s.calls[j]? = some (.next (some ts))

/-- The clock is not at the end of its range. -/
def HasRoom (s : ClockRun) : Prop := s.clock.toNat < 2 ^ 64 - 1

instance (s : ClockRun) : Decidable s.HasRoom := inferInstanceAs (Decidable (_ < _))

end ClockRun

/-- The next atomic operation of call `i`. -/
def ClockRun.callStep (s : ClockRun) (i : Nat) : ClockCall → Option ClockRun
  | .observe remote .load =>
      if remote ≤ s.clock then some (s.advance i s.clock (.observe remote .returned))
      else some (s.advance i s.clock (.observe remote (.swap s.clock)))
  | .observe remote (.swap cur) =>
      if s.clock = cur then some (s.advance i remote (.observe remote .returned))
      else some (s.advance i s.clock (.observe remote .load))
  | .next none => some (s.advance i (s.clock + 1) (.next (some (s.clock + 1))))
  | _ => none

/-- One event. -/
def clockStep (s : ClockRun) : ClockEvent → Option ClockRun
  | .observeTS remote => some { s with calls := s.calls ++ [.observe remote .load] }
  | .nextTS => some { s with calls := s.calls ++ [.next none] }
  | .step i => s.calls[i]?.bind (s.callStep i)

/-! ## What one event does -/

/-- A call that is about to swap has loaded less than it has observed. -/
def ClockCall.Sound : ClockCall → Prop
  | .observe remote (.swap cur) => cur < remote
  | _ => True

/-- What an event does: a call begins, a call that goes on changes nothing else, or a call returns
and takes effect as if it ran alone. -/
inductive ClockMoves (d : Daemon) (s : ClockRun) : ClockRun → Prop
  | begins (c : ClockCall) (hopen : c.isReturned = false) (hsound : c.Sound) :
      ClockMoves d s { s with calls := s.calls ++ [c] }
  | goesOn (i : Nat) (c c' : ClockCall) (hcall : s.calls[i]? = some c)
      (hopen : c.isReturned = false) (hopen' : c'.isReturned = false) (hsound : c'.Sound) :
      ClockMoves d s { s with calls := s.calls.set i c' }
  | returns (i : Nat) (c c' : ClockCall) (clock : UInt64) (hcall : s.calls[i]? = some c)
      (hopen : c.isReturned = false) (hreturned : c'.isReturned = true)
      (heffect : c'.atomic { d with clock := s.clock } = some { d with clock := clock }) :
      ClockMoves d s ⟨clock, s.calls.set i c', s.log ++ [c']⟩

variable {d : Daemon} {s s' : ClockRun} {event : ClockEvent}

theorem advance_returned {c : ClockCall} (h : c.isReturned = true) (s : ClockRun) (i : Nat)
    (clock : UInt64) : s.advance i clock c = ⟨clock, s.calls.set i c, s.log ++ [c]⟩ := by
  rw [ClockRun.advance, if_pos h]

theorem advance_open {c : ClockCall} (h : c.isReturned = false) (s : ClockRun) (i : Nat) :
    s.advance i s.clock c = { s with calls := s.calls.set i c } := by
  rw [ClockRun.advance, if_neg (by simp [h])]

/-- The operation of a call that is not about to swap in something smaller. -/
theorem call_step_moves {i : Nat} {c : ClockCall} (hcall : s.calls[i]? = some c)
    (hsound : c.Sound) (h : s.callStep i c = some s') : ClockMoves d s s' := by
  cases c with
  | observe remote pc =>
      cases pc with
      | load =>
          dsimp only [ClockRun.callStep] at h
          split_ifs at h with hle
          · obtain rfl := Option.some.inj h
            rw [advance_returned rfl]
            refine .returns i _ _ _ hcall rfl rfl ?_
            simp [ClockCall.atomic, Daemon.observeTS, hle]
          · obtain rfl := Option.some.inj h
            rw [advance_open rfl]
            exact .goesOn i _ _ hcall rfl rfl (not_le.mp hle)
      | swap cur =>
          dsimp only [ClockRun.callStep] at h
          split_ifs at h with hcur
          · obtain rfl := Option.some.inj h
            have hlt : cur < remote := hsound
            rw [advance_returned rfl]
            refine .returns i _ _ _ hcall rfl rfl ?_
            simp [ClockCall.atomic, Daemon.observeTS, hcur, not_le.mpr hlt]
          · obtain rfl := Option.some.inj h
            rw [advance_open rfl]
            exact .goesOn i _ _ hcall rfl rfl trivial
      | returned => cases h
  | next ts =>
      cases ts with
      | none =>
          obtain rfl := Option.some.inj h
          rw [advance_returned rfl]
          exact .returns i _ _ _ hcall rfl rfl (if_pos rfl)
      | some ts => cases h

theorem clock_step_moves (hsound : ∀ c ∈ s.calls, c.Sound) (h : clockStep s event = some s') :
    ClockMoves d s s' := by
  cases event with
  | observeTS remote =>
      cases h
      exact .begins _ rfl trivial
  | nextTS =>
      cases h
      exact .begins _ rfl trivial
  | step i =>
      obtain ⟨c, hcall, h⟩ := Option.bind_eq_some_iff.mp h
      exact call_step_moves hcall (hsound c (List.mem_of_getElem? hcall)) h

theorem lt_add_one_of_room {clock : UInt64} (h : clock.toNat < 2 ^ 64 - 1) : clock < clock + 1 := by
  rw [UInt64.lt_iff_toNat_lt, UInt64.toNat_add]
  have hone : (1 : UInt64).toNat = 1 := rfl
  omega

/-- A call that takes effect does not set the clock back, the clock has then seen its timestamp, and
a timestamp that is handed out is new. -/
theorem atomic_spec {c : ClockCall} {clock : UInt64} (hroom : s.HasRoom)
    (h : c.atomic { d with clock := s.clock } = some { d with clock := clock }) :
    s.clock ≤ clock ∧ (∀ ts ∈ c.seen, ts ≤ clock) ∧ ∀ ts ∈ c.stamp, s.clock < ts := by
  match c, h with
  | .observe remote .returned, h =>
      have hclock : (Daemon.observeTS { d with clock := s.clock } remote).clock = clock :=
        congrArg Daemon.clock (Option.some.inj h)
      unfold Daemon.observeTS at hclock
      split_ifs at hclock with hle
      · obtain rfl : s.clock = clock := hclock
        exact ⟨le_rfl, by rintro _ ⟨⟩; exact hle, nofun⟩
      · obtain rfl : remote = clock := hclock
        exact ⟨(not_le.mp hle).le, by rintro _ ⟨⟩; exact le_rfl, nofun⟩
  | .next (some ts), h =>
      obtain ⟨hts, hnext⟩ := Option.ite_none_right_eq_some.mp h
      obtain rfl : s.clock + 1 = ts := hts
      obtain rfl : s.clock + 1 = clock := congrArg Daemon.clock (Option.some.inj hnext)
      have hlt := lt_add_one_of_room hroom
      exact ⟨hlt.le, by rintro _ ⟨⟩; exact le_rfl, by rintro _ ⟨⟩; exact hlt⟩

/-! ## The invariant -/

/-- What holds in every state: the calls that have returned, one after another in that order, leave
the clock where it is, and the clock has seen their timestamps. -/
structure ClockInv (d : Daemon) (s : ClockRun) : Prop where
  sound : ∀ c ∈ s.calls, c.Sound
  linear : run ClockCall.atomic d s.log = some { d with clock := s.clock }
  returned : s.log.Perm (s.calls.filter ClockCall.isReturned)
  seen : ∀ c ∈ s.log, ∀ ts ∈ c.seen, ts ≤ s.clock
  distinct : (s.log.filterMap ClockCall.stamp).Nodup

theorem clock_inv_start (d : Daemon) : ClockInv d (.start d.clock) :=
  ⟨nofun, rfl, .nil, nofun, .nil⟩

/-- Only a call that has returned has a timestamp. -/
theorem ClockCall.stamp_of_open {c : ClockCall} (h : c.isReturned = false) : c.stamp = none := by
  match c, h with
  | .observe _ _, _ | .next none, _ => rfl

/-- A timestamp that a call has handed out is one that the clock has seen. -/
theorem ClockCall.stamp_mem_seen {c : ClockCall} {ts : UInt64} (h : ts ∈ c.stamp) :
    ts ∈ c.seen := by
  cases c with
  | observe => cases h
  | next => exact h

/-- Every event keeps the invariant, and the clock does not go back. -/
theorem clock_inv_step (hinv : ClockInv d s) (hroom : s.HasRoom)
    (h : clockStep s event = some s') : ClockInv d s' ∧ s.clock ≤ s'.clock := by
  cases clock_step_moves (d := d) hinv.sound h with
  | begins c hopen hsound =>
      refine ⟨⟨?_, hinv.linear, ?_, hinv.seen, hinv.distinct⟩, le_rfl⟩
      · intro other hother
        rcases List.mem_append.mp hother with hold | hnew
        · exact hinv.sound other hold
        · rwa [List.mem_singleton.mp hnew]
      · rw [List.filter_append, List.filter_cons_of_neg (by simp [hopen]), List.filter_nil,
          List.append_nil]
        exact hinv.returned
  | goesOn i c c' hcall hopen hopen' hsound =>
      refine ⟨⟨?_, hinv.linear, ?_, hinv.seen, hinv.distinct⟩, le_rfl⟩
      · intro other hother
        rcases List.mem_or_eq_of_mem_set hother with hold | rfl
        · exact hinv.sound other hold
        · exact hsound
      · refine hinv.returned.trans ((filter_set_perm hcall hopen c').trans ?_).symm
        simp [hopen']
  | returns i c c' clock hcall hopen hreturned heffect =>
      obtain ⟨hle, hseen, hnew⟩ := atomic_spec hroom heffect
      refine ⟨⟨?_, ?_, ?_, ?_, ?_⟩, hle⟩
      · intro other hother
        rcases List.mem_or_eq_of_mem_set hother with hold | rfl
        · exact hinv.sound other hold
        · match other, hreturned with
          | .observe _ .returned, _ | .next (some _), _ => trivial
      · rw [run_append, hinv.linear]
        exact run_cons_eq_some.mpr ⟨_, heffect, rfl⟩
      · refine (hinv.returned.append_right [c']).trans
          ((filter_set_perm hcall hopen c').trans ?_).symm
        simp [hreturned]
      · intro other hother ts hts
        rcases List.mem_append.mp hother with hold | hlast
        · exact (hinv.seen other hold ts hts).trans hle
        · exact hseen ts (List.mem_singleton.mp hlast ▸ hts)
      · rw [List.filterMap_append, List.nodup_append]
        refine ⟨hinv.distinct, by cases hstamp : c'.stamp <;> simp [hstamp], ?_⟩
        rintro ts hold _ hlast rfl
        -- the new timestamp is above the clock, which has seen the old ones
        obtain ⟨other, hother, hts⟩ := List.mem_filterMap.mp hold
        obtain ⟨last, hmem, hstamp⟩ := List.mem_filterMap.mp hlast
        obtain rfl := List.mem_singleton.mp hmem
        have hfresh := hnew ts hstamp
        exact absurd (hinv.seen other hother ts (ClockCall.stamp_mem_seen hts)) (not_le.mpr hfresh)

/-! ## Every interleaving -/

/-- A call that has returned had returned before, or hands out a timestamp above the clock. -/
theorem returned_at (hinv : ClockInv d s) (hroom : s.HasRoom) (h : clockStep s event = some s')
    {j : Nat} {ts : UInt64} (hcall : s'.Handed j ts) : s.Handed j ts ∨ s.clock < ts := by
  cases clock_step_moves (d := d) hinv.sound h with
  | begins c hopen hsound =>
      rw [ClockRun.Handed, List.getElem?_append] at hcall
      split_ifs at hcall
      · exact .inl hcall
      · obtain rfl := List.mem_singleton.mp (List.mem_of_getElem? hcall)
        cases hopen
  | goesOn i c c' _ hopen hopen' hsound =>
      rw [ClockRun.Handed, List.getElem?_set] at hcall
      split_ifs at hcall
      · obtain rfl := Option.some.inj hcall
        cases hopen'
      · exact .inl hcall
  | returns i c c' clock _ hopen hreturned heffect =>
      rw [ClockRun.Handed, List.getElem?_set] at hcall
      split_ifs at hcall
      · obtain rfl := Option.some.inj hcall
        exact .inr ((atomic_spec hroom heffect).2.2 ts rfl)
      · exact .inl hcall

/-- The invariant after a run, and what the run has handed out since. -/
theorem clock_run_inv {events : List ClockEvent} (hinv : ClockInv d s)
    (hrun : run clockStep s events = some s')
    (hroom : Along clockStep (fun state _ => state.HasRoom) s events) :
    ClockInv d s' ∧ s.clock ≤ s'.clock ∧
      ∀ j ts, s'.Handed j ts → s.Handed j ts ∨ s.clock < ts := by
  refine run_invariant (fun state => ClockInv d state ∧ s.clock ≤ state.clock ∧
    ∀ j ts, state.Handed j ts → s.Handed j ts ∨ s.clock < ts) hrun hroom
    ⟨hinv, le_rfl, fun _ _ => .inl⟩ ?_
  rintro state event next ⟨hstate, hle, hstamps⟩ hguard hstep
  obtain ⟨hnext, hmono⟩ := clock_inv_step hstate hguard hstep
  refine ⟨hnext, hle.trans hmono, fun j ts hcall => ?_⟩
  rcases returned_at hstate hguard hstep hcall with hold | hnew
  · exact hstamps j ts hold
  · exact .inr (hle.trans_lt hnew)

/-- Without `nextTS` the clock is where it was or at an observed timestamp. -/
theorem atomic_run_clock {log : List ClockCall} {d d' : Daemon}
    (h : run ClockCall.atomic d log = some d') (hobserve : ∀ ts, ClockCall.next ts ∉ log) :
    d'.clock = d.clock ∨ ∃ pc, ClockCall.observe d'.clock pc ∈ log := by
  induction log generalizing d with
  | nil =>
      cases h
      exact .inl rfl
  | cons c log ih =>
      obtain ⟨mid, hstep, hrest⟩ := run_cons_eq_some.mp h
      have hlater := ih hrest fun ts hmem => hobserve ts (List.mem_cons_of_mem _ hmem)
      rcases hlater with hsame | ⟨pc, hmem⟩
      · match c, hstep with
        | .observe remote .returned, hstep =>
            obtain rfl := Option.some.inj hstep
            rw [hsame]
            unfold Daemon.observeTS
            split_ifs with hle
            · exact .inl rfl
            · exact .inr ⟨.returned, List.mem_cons_self⟩
        | .next ts, _ => exact absurd List.mem_cons_self (hobserve ts)
      · exact .inr ⟨pc, List.mem_cons_of_mem _ hmem⟩

/-- All calls have returned. -/
def ClockRun.Finished (s : ClockRun) : Prop := ∀ c ∈ s.calls, c.isReturned = true

/-- The timestamp the clock had at first and those that were observed. -/
def observed (d : Daemon) (s : ClockRun) : Set UInt64 :=
  { ts | ts = d.clock ∨ ∃ pc, ClockCall.observe ts pc ∈ s.calls }

/-- What holds of a run of calls on the clock of a daemon that ends in `s`. -/
structure LinearClock (d : Daemon) (events : List ClockEvent) (s : ClockRun) : Prop where
  /-- The calls that have returned have the results and leave the clock that they would have and
  leave one after another, in the order in which they returned. -/
  linear : run ClockCall.atomic d s.log = some { d with clock := s.clock } ∧
    s.log.Perm (s.calls.filter ClockCall.isReturned)
  /-- The clock never decreases. -/
  monotone : ∀ before after mid, events = before ++ after →
    run clockStep (.start d.clock) before = some mid → mid.clock ≤ s.clock
  /-- No timestamp is handed out twice. -/
  distinct : (s.calls.filterMap ClockCall.stamp).Nodup
  /-- A `nextTS` that begins after `observeTS` has returned is above what was observed. -/
  outranks : ∀ before after mid remote, events = before ++ after →
    run clockStep (.start d.clock) before = some mid →
    ClockCall.observe remote .returned ∈ mid.calls →
    ∀ j ts, mid.calls.length ≤ j → s.Handed j ts → remote < ts
  /-- In the end no observation is lost. -/
  covers : s.Finished → s.clock ∈ upperBounds (observed d s)
  /-- And without `nextTS` the clock is the maximum of what was observed. -/
  exact : s.Finished → (∀ ts, ClockCall.next ts ∉ s.calls) → IsGreatest (observed d s) s.clock

theorem ClockInv.observe_le (hinv : ClockInv d s) {remote : UInt64}
    (h : ClockCall.observe remote .returned ∈ s.calls) : remote ≤ s.clock := by
  have hlog : ClockCall.observe remote .returned ∈ s.log :=
    hinv.returned.mem_iff.mpr (List.mem_filter.mpr ⟨h, rfl⟩)
  exact hinv.seen _ hlog remote rfl

/-- **The Lamport clock is linearizable**, in every interleaving of any number of calls in which the
clock does not come to the end of its range. -/
theorem clock_linearizable {events : List ClockEvent}
    (hrun : run clockStep (.start d.clock) events = some s)
    (hroom : Along clockStep (fun state _ => state.HasRoom) (.start d.clock) events) :
    LinearClock d events s := by
  obtain ⟨hinv, hstart, -⟩ := clock_run_inv (clock_inv_start d) hrun hroom
  have hmid {before after : List ClockEvent} {mid : ClockRun} (hsplit : events = before ++ after)
      (hbefore : run clockStep (.start d.clock) before = some mid) :
      ClockInv d mid ∧ mid.clock ≤ s.clock ∧
        ∀ j ts, s.Handed j ts → mid.Handed j ts ∨ mid.clock < ts := by
    subst hsplit
    have hafter : run clockStep mid after = some s := by
      rwa [run_append, hbefore] at hrun
    obtain ⟨hmid, -, -⟩ := clock_run_inv (clock_inv_start d) hbefore (along_first hroom)
    exact ⟨hmid, (clock_run_inv hmid hafter (along_suffix hbefore hroom)).2⟩
  have hcovers (hfinished : s.Finished) : s.clock ∈ upperBounds (observed d s) := by
    rintro ts (rfl | ⟨pc, hmem⟩)
    · exact hstart
    · match pc, hfinished _ hmem with
      | .returned, _ => exact hinv.observe_le hmem
  refine ⟨⟨hinv.linear, hinv.returned⟩, ?_, ?_, ?_, hcovers, fun hfinished hobserve => ?_⟩
  · exact fun before after mid hsplit hbefore => (hmid hsplit hbefore).2.1
  · have hstamps : s.calls.filterMap ClockCall.stamp =
        (s.calls.filter ClockCall.isReturned).filterMap ClockCall.stamp := by
      rw [List.filterMap_filter]
      refine List.filterMap_congr fun c _ => ?_
      split_ifs with hreturned
      · rfl
      · exact ClockCall.stamp_of_open (by simpa using hreturned)
    rw [hstamps]
    exact (hinv.returned.filterMap _).nodup_iff.mp hinv.distinct
  · intro before after mid remote hsplit hbefore hobserved j ts hj hcall
    obtain ⟨hmidInv, -, hstamps⟩ := hmid hsplit hbefore
    rcases hstamps j ts hcall with hold | hnew
    · rw [ClockRun.Handed, List.getElem?_eq_none hj] at hold
      cases hold
    · exact (hmidInv.observe_le hobserved).trans_lt hnew
  · refine ⟨?_, hcovers hfinished⟩
    have hall : s.log.Perm s.calls := by
      have hreturned := hinv.returned
      rwa [List.filter_eq_self.mpr hfinished] at hreturned
    rcases atomic_run_clock hinv.linear fun ts hmem => hobserve ts (hall.mem_iff.mp hmem) with
      hsame | ⟨pc, hmem⟩
    · exact .inl hsame
    · exact .inr ⟨pc, hall.mem_iff.mp hmem⟩

/-- A daemon whose clock is at 3. -/
def clockAtThree : Daemon :=
  { Daemon.new (ascii "n") (ascii "/d") .empty (fun _ => none) (fun _ => none) with clock := 3 }

/-- An observation of 7 loads the clock, `nextTS` comes in between so that its swap fails, it tries
again, and the next timestamp is 8. -/
theorem clock_linearizable_failed_swap :
    let events : List ClockEvent :=
      [.observeTS 7, .nextTS, .step 0, .step 1, .step 0, .step 0, .step 0, .nextTS, .step 2]
    let s : ClockRun := ⟨8, [.observe 7 .returned, .next (some 4), .next (some 8)],
      [.next (some 4), .observe 7 .returned, .next (some 8)]⟩
    run clockStep (.start clockAtThree.clock) events = some s ∧
      LinearClock clockAtThree events s := by
  intro events s
  have hrun : run clockStep (.start clockAtThree.clock) events = some s := by
    decide
  have hroom : Along clockStep (fun state _ => state.HasRoom) (.start clockAtThree.clock)
      events := by
    decide
  exact ⟨hrun, clock_linearizable hrun hroom⟩

end NuSync
