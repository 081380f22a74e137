import NuSync.Scheduler

/-!
# Cooldowns over a whole history

`HealthTracker` of `internal/scheduler/backoff.go` under any sequence of calls. The goroutines of a
pull mark one peer with backoffs of different lengths, and each mark overwrites the end of the one
before. `is_available_after` says what the tracker answers: the last mark of the peer decides.
`cooldowns_honoured_iff` says when that is the same as asking all of them.
-/

namespace NuSync.Scheduler

open NuSync.Go

/-! ## Histories -/

/-- A call on the tracker. -/
inductive HealthCall where
  | markHot (peerAddr : GoString) (retryAfter : Int)
  | isAvailable (peerAddr : GoString)
  deriving DecidableEq

/-- A call together with the time it reads from the clock. -/
structure TimedCall where
  time : Int
  call : HealthCall
  deriving DecidableEq

/-- A cooldown: when it was asked for and when it ends. -/
structure Cooldown where
  begins : Int
  ends : Int
  deriving DecidableEq

/-- The cooldown that the call asks of the peer. -/
def TimedCall.cooldown (peer : GoString) (c : TimedCall) : Option Cooldown :=
  match c.call with
  | .markHot peerAddr retryAfter =>
      if peerAddr = peer then some ⟨c.time, c.time + retryAfter⟩ else none
  | .isAvailable _ => none

/-- The cooldowns that were asked of the peer, in order. -/
def cooldowns (calls : List TimedCall) (peer : GoString) : List Cooldown :=
  calls.filterMap (TimedCall.cooldown peer)

/-- The tracker after one more call. -/
def HealthTracker.call (tracker : HealthTracker) (c : TimedCall) : HealthTracker :=
  match c.call with
  | .markHot peerAddr retryAfter => tracker.markHot c.time peerAddr retryAfter
  | .isAvailable peerAddr => (tracker.isAvailable c.time peerAddr).1

/-- A new tracker after these calls. -/
def HealthTracker.after (calls : List TimedCall) : HealthTracker :=
  calls.foldl HealthTracker.call .new

/-- What `IsAvailable` answers at a time after these calls. -/
def available (calls : List TimedCall) (time : Int) (peer : GoString) : Bool :=
  ((HealthTracker.after calls).isAvailable time peer).2

/-- Some `MarkHot` among the calls asks for a cooldown of the peer that has not ended. -/
def Cooling (calls : List TimedCall) (time : Int) (peer : GoString) : Prop :=
  ∃ since retryAfter, ⟨since, .markHot peer retryAfter⟩ ∈ calls ∧ time ≤ since + retryAfter

/-- After these calls every peer is unavailable exactly as long as one of its cooldowns lasts. -/
def Honoured (calls : List TimedCall) : Prop :=
  ∀ peer time, (∀ c ∈ calls, c.time ≤ time) →
    (available calls time peer = false ↔ Cooling calls time peer)

/-- No cooldown that is still running is followed by one that ends before it. -/
def NoneCutShort (calls : List TimedCall) : Prop :=
  ∀ peer, (cooldowns calls peer).Pairwise fun first second =>
    second.begins ≤ first.ends → first.ends ≤ second.ends

variable {calls : List TimedCall} {peer : GoString} {time : Int}

theorem cooldowns_append (calls more : List TimedCall) (peer : GoString) :
    cooldowns (calls ++ more) peer = cooldowns calls peer ++ cooldowns more peer :=
  List.filterMap_append

theorem mem_cooldowns {cooldown : Cooldown} :
    cooldown ∈ cooldowns calls peer ↔
      ∃ retryAfter, ⟨cooldown.begins, .markHot peer retryAfter⟩ ∈ calls ∧
        cooldown.ends = cooldown.begins + retryAfter := by
  rw [cooldowns, List.mem_filterMap]
  constructor
  · rintro ⟨⟨since, call⟩, hmem, hcooldown⟩
    cases call with
    | markHot peerAddr retryAfter =>
        simp only [TimedCall.cooldown, Option.ite_none_right_eq_some,
          Option.some.injEq] at hcooldown
        obtain ⟨rfl, rfl⟩ := hcooldown
        exact ⟨retryAfter, hmem, rfl⟩
    | isAvailable peerAddr => cases hcooldown
  · rintro ⟨retryAfter, hmem, hends⟩
    refine ⟨_, hmem, ?_⟩
    simp only [TimedCall.cooldown, if_true, ← hends]

theorem cooling_iff : Cooling calls time peer ↔ ∃ c ∈ cooldowns calls peer, time ≤ c.ends := by
  constructor
  · rintro ⟨since, retryAfter, hmem, htime⟩
    exact ⟨⟨since, since + retryAfter⟩, mem_cooldowns.mpr ⟨retryAfter, hmem, rfl⟩, htime⟩
  · rintro ⟨cooldown, hmem, htime⟩
    obtain ⟨retryAfter, hcall, hends⟩ := mem_cooldowns.mp hmem
    exact ⟨cooldown.begins, retryAfter, hcall, hends ▸ htime⟩

/-! ## The last mark decides -/

/-- What the tracker knows of a peer: the end of the last cooldown, which was over at some call if
the peer is no longer hot. -/
def Remembers (calls : List TimedCall) (peer : GoString) : Option PeerHealth → Prop
  | none => cooldowns calls peer = []
  | some p => (∃ last, (cooldowns calls peer).getLast? = some last ∧
      last.ends = p.cooldownUntil) ∧
      (p.isHot = false → ∃ c ∈ calls, p.cooldownUntil < c.time)

/-- A call that asks nothing of the peer and leaves its entry alone changes nothing. -/
theorem Remembers.frame {entry : Option PeerHealth} (h : Remembers calls peer entry)
    {c : TimedCall} (hnone : c.cooldown peer = none) : Remembers (calls ++ [c]) peer entry := by
  have hsame : cooldowns (calls ++ [c]) peer = cooldowns calls peer := by
    simp [cooldowns, hnone]
  cases entry with
  | none => exact hsame.trans h
  | some p =>
      obtain ⟨hlast, hcold⟩ := h
      refine ⟨hsame ▸ hlast, fun hhot => ?_⟩
      obtain ⟨earlier, hmem, hover⟩ := hcold hhot
      exact ⟨earlier, List.mem_append_left _ hmem, hover⟩

/-- One more call keeps the tracker up to date. -/
theorem remembers_call {tracker : HealthTracker}
    (h : ∀ peer, Remembers calls peer (tracker.peers peer)) (c : TimedCall) (peer : GoString) :
    Remembers (calls ++ [c]) peer ((tracker.call c).peers peer) := by
  obtain ⟨time, call⟩ := c
  cases call with
  | markHot peerAddr retryAfter =>
      by_cases hpeer : peerAddr = peer
      · subst hpeer
        simp only [HealthTracker.call, HealthTracker.markHot, Function.update_self, Remembers]
        refine ⟨⟨⟨time, time + retryAfter⟩, ?_, rfl⟩, nofun⟩
        simp [cooldowns, TimedCall.cooldown]
      · have hentry : (tracker.call ⟨time, .markHot peerAddr retryAfter⟩).peers peer =
            tracker.peers peer := Function.update_of_ne (Ne.symm hpeer) _ _
        rw [hentry]
        exact (h peer).frame (by simp [TimedCall.cooldown, hpeer])
  | isAvailable peerAddr =>
      have hframe {entry : Option PeerHealth} (hentry : Remembers calls peer entry) :
          Remembers (calls ++ [⟨time, .isAvailable peerAddr⟩]) peer entry :=
        hentry.frame rfl
      have hpeer := h peerAddr
      simp only [HealthTracker.call, HealthTracker.isAvailable]
      cases hentry : tracker.peers peerAddr with
      | none => exact hframe (h peer)
      | some p =>
          rw [hentry] at hpeer
          dsimp only
          split_ifs with hhot hover
          · -- the query that finds the cooldown over
            by_cases hsame : peer = peerAddr
            · subst hsame
              obtain ⟨hlast, -⟩ := hframe hpeer
              simp only [Function.update_self]
              exact ⟨hlast, fun _ => ⟨⟨time, .isAvailable peer⟩, by simp, hover⟩⟩
            · simp only [Function.update_of_ne hsame]
              exact hframe (h peer)
          · exact hframe (h peer)
          · exact hframe (h peer)

theorem remembers_after (calls : List TimedCall) (peer : GoString) :
    Remembers calls peer ((HealthTracker.after calls).peers peer) := by
  induction calls using List.reverseRecOn generalizing peer with
  | nil => rfl
  | append_singleton calls c ih =>
      rw [HealthTracker.after, List.foldl_append]
      exact remembers_call ih c peer

/-- **The last mark decides**: at a time that is not before any of the calls, a peer is unavailable
exactly if the last cooldown that was asked of it has not ended. -/
theorem is_available_after (htime : ∀ c ∈ calls, c.time ≤ time) :
    available calls time peer = false ↔
      ∃ last, (cooldowns calls peer).getLast? = some last ∧ time ≤ last.ends := by
  have hentry := remembers_after calls peer
  unfold available HealthTracker.isAvailable
  cases hpeer : (HealthTracker.after calls).peers peer with
  | none =>
      rw [hpeer] at hentry
      simp [show cooldowns calls peer = [] from hentry]
  | some p =>
      rw [hpeer] at hentry
      obtain ⟨⟨last, hlast, hends⟩, hcold⟩ := hentry
      simp only [hlast, Option.some.injEq, exists_eq_left', hends]
      split_ifs with hhot hover
      · simp [hover]
      · simpa using hover
      · obtain ⟨c, hmem, hended⟩ := hcold (by simpa using hhot)
        have hlate := htime c hmem
        refine iff_of_false not_false ?_
        omega

/-! ## When all cooldowns are honoured -/

/-- Without a cut the last cooldown lasts as long as any that is still running. -/
theorem honoured_of_none_cut_short (hcalls : NoneCutShort calls) : Honoured calls := by
  intro peer time htime
  rw [is_available_after htime, cooling_iff]
  constructor
  · rintro ⟨last, hlast, hrunning⟩
    exact ⟨last, List.mem_of_getLast? hlast, hrunning⟩
  · rintro ⟨cooldown, hmem, hrunning⟩
    obtain ⟨front, last, hsplit⟩ := (List.eq_nil_or_concat' (cooldowns calls peer)).resolve_left
      (List.ne_nil_of_mem hmem)
    refine ⟨last, by simp [hsplit], ?_⟩
    have hpairs := hcalls peer
    rw [hsplit, List.pairwise_append] at hpairs
    rw [hsplit] at hmem
    rcases List.mem_append.mp hmem with hfront | hlast
    · have hbegins : last.begins ≤ time := by
        have hmem : last ∈ cooldowns calls peer := by simp [hsplit]
        obtain ⟨retryAfter, hcall, -⟩ := mem_cooldowns.mp hmem
        exact htime _ hcall
      exact hrunning.trans (hpairs.2.2 cooldown hfront last (by simp) (hbegins.trans hrunning))
    · rwa [← List.mem_singleton.mp hlast]

/-- A cooldown that is cut short is not honoured at its end. -/
theorem not_cut_short_of_honoured {c : TimedCall} {first second : Cooldown}
    (htimes : ∀ earlier ∈ calls, earlier.time ≤ c.time) (hhonoured : Honoured (calls ++ [c]))
    (hfirst : first ∈ cooldowns calls peer) (hsecond : c.cooldown peer = some second)
    (hrunning : second.begins ≤ first.ends) : first.ends ≤ second.ends := by
  have hbegins : c.time = second.begins := by
    have hmem : second ∈ cooldowns [c] peer := by simp [cooldowns, hsecond]
    obtain ⟨retryAfter, hcall, -⟩ := mem_cooldowns.mp hmem
    rw [← List.mem_singleton.mp hcall]
  have hlate : ∀ earlier ∈ calls ++ [c], earlier.time ≤ first.ends := by
    intro earlier hmem
    rcases List.mem_append.mp hmem with hmem | hmem
    · exact (htimes earlier hmem).trans (hbegins.le.trans hrunning)
    · rw [List.mem_singleton.mp hmem, hbegins]
      exact hrunning
  have hall : cooldowns (calls ++ [c]) peer = cooldowns calls peer ++ [second] := by
    simp [cooldowns, hsecond]
  have hcooling : Cooling (calls ++ [c]) first.ends peer :=
    cooling_iff.mpr ⟨first, by simp [hall, hfirst], le_rfl⟩
  obtain ⟨last, hlast, hend⟩ :=
    (is_available_after hlate).mp ((hhonoured peer first.ends hlate).mpr hcooling)
  rw [hall, List.getLast?_append_of_ne_nil _ (by simp), List.getLast?_singleton] at hlast
  obtain rfl := Option.some.inj hlast
  exact hend

/-- What is honoured at every point of a history has not been cut short. -/
theorem none_cut_short_of_honoured
    (htimes : calls.Pairwise fun first second => first.time ≤ second.time)
    (h : ∀ before after, calls = before ++ after → Honoured before) : NoneCutShort calls := by
  induction calls using List.reverseRecOn with
  | nil => exact fun _ => .nil
  | append_singleton calls c ih =>
      rw [List.pairwise_append] at htimes
      have hbefore : NoneCutShort calls := by
        refine ih htimes.1 fun before after hsplit => h before (after ++ [c]) ?_
        rw [hsplit, List.append_assoc]
      intro peer
      rw [cooldowns_append, List.pairwise_append]
      refine ⟨hbefore peer, by cases hc : c.cooldown peer <;> simp [cooldowns, hc], ?_⟩
      intro first hfirst second hsecond
      have hmark : c.cooldown peer = some second := by
        obtain ⟨other, hother, hmark⟩ := List.mem_filterMap.mp hsecond
        rwa [List.mem_singleton.mp hother] at hmark
      exact not_cut_short_of_honoured (fun earlier hmem => htimes.2.2 earlier hmem c (by simp))
        (h (calls ++ [c]) [] (by simp)) hfirst hmark

/-- The calls that ask for a cooldown of the peer are all that counts. -/
theorem cooldowns_filter (calls : List TimedCall) (peer : GoString) :
    cooldowns (calls.filter fun c => (c.cooldown peer).isSome) peer = cooldowns calls peer := by
  induction calls with
  | nil => rfl
  | cons c calls ih =>
      cases hc : c.cooldown peer <;> simp_all [cooldowns]

/-- **Cooldowns are honoured unless one is cut short.** For calls at times that do not decrease, at
every point of the history and from then on, a peer is unavailable exactly as long as one of the
cooldowns asked of it lasts, if and only if no mark comes while a cooldown of its peer is running
and ends before it. In any case only the marks of a peer count for its answers. -/
theorem cooldowns_honoured_iff
    (htimes : calls.Pairwise fun first second => first.time ≤ second.time) :
    ((∀ before after, calls = before ++ after → Honoured before) ↔ NoneCutShort calls) ∧
      ∀ peer time, (∀ c ∈ calls, c.time ≤ time) →
        available calls time peer =
          available (calls.filter fun c => (c.cooldown peer).isSome) time peer := by
  refine ⟨⟨none_cut_short_of_honoured htimes, fun hcalls before after hsplit => ?_⟩, ?_⟩
  · refine honoured_of_none_cut_short fun peer => ?_
    have hpeer := hcalls peer
    rw [hsplit, cooldowns_append, List.pairwise_append] at hpeer
    exact hpeer.1
  · intro peer time htime
    have hfilter : ∀ c ∈ calls.filter fun c => (c.cooldown peer).isSome, c.time ≤ time :=
      fun c hmem => htime c (List.mem_of_mem_filter hmem)
    have hsame : available calls time peer = false ↔
        available (calls.filter fun c => (c.cooldown peer).isSome) time peer = false := by
      rw [is_available_after htime, is_available_after hfilter, cooldowns_filter]
    exact Bool.eq_iff_iff.mpr (by simpa using not_congr hsame)

/-- A mark, a query, and a mark that outlasts the first: the peer is unavailable until the second
one ends. -/
theorem cooldowns_honoured_growing :
    let peer := ascii "p"
    let calls : List TimedCall :=
      [⟨0, .markHot peer (1000 * millisecond)⟩, ⟨500 * millisecond, .isAvailable peer⟩,
        ⟨900 * millisecond, .markHot peer (2000 * millisecond)⟩]
    Honoured calls ∧ available calls (2900 * millisecond) peer = false ∧
      available calls (2901 * millisecond) peer = true := by
  intro peer calls
  have htimes : calls.Pairwise fun first second => first.time ≤ second.time := by
    decide
  have hcalls : NoneCutShort calls := by
    intro other
    by_cases hother : peer = other
    · subst hother
      decide
    · have hnone : ∀ c ∈ calls, c.cooldown other = none := by
        simp [calls, TimedCall.cooldown, hother]
      rw [cooldowns, List.filterMap_eq_nil_iff.mpr hnone]
      exact .nil
  exact ⟨(cooldowns_honoured_iff htimes).1.mpr hcalls calls [] (by simp), by decide, by decide⟩

/-- Two goroutines of a pull fail on one peer, one for the second time and one for the first. The
longer backoff is asked for first; after the shorter one the peer counts as available while it is
still to be left alone. -/
theorem cooldown_cut_short :
    let peer := ascii "p"
    let backoff (attempt : Nat) :=
      calcJitteredBackoff attempt (500 * millisecond) (5000 * millisecond) 0
    let calls : List TimedCall :=
      [⟨0, .markHot peer (backoff 2)⟩, ⟨100 * millisecond, .markHot peer (backoff 1)⟩]
    Cooling calls (1500 * millisecond) peer ∧
      available calls (1500 * millisecond) peer = true := by
  intro peer backoff calls
  exact ⟨⟨0, backoff 2, by simp [calls], by decide⟩, by decide⟩

end NuSync.Scheduler
