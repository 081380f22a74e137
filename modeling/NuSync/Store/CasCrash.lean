import NuSync.Lib.AppendOnly
import NuSync.Store.Cas

/-!
# `Put` calls on a file system that fails, in a process that crashes

`Put` calls one after another. Every file-system step may fail, a failed write leaves anything in
its temporary file, and the process may crash after any step and start again on the files it
left. `crash_safe` says that the objects are an append-only map of valid blobs all the same.
-/

namespace NuSync.Store

open NuSync.Go NuSync.Lib

/-- A `Put` call that returned: its arguments, its result, and the objects when it was called and
when it returned. -/
structure PutReturn where
  call : PutCall
  before : Hash → Option Bytes
  result : Except CasError Unit
  after : Hash → Option Bytes

/-- The `Put` call that is running, with the objects when it was called. -/
structure RunningPut where
  call : PutCall
  before : Hash → Option Bytes
  pc : PutPc

/-- The files, the call that is running, and the calls that have returned. -/
structure CrashState where
  files : CasFiles
  running : Option RunningPut
  log : List PutReturn

/-- A process that has just started on these files. -/
def CrashState.idle (files : CasFiles) : CrashState := ⟨files, none, []⟩

/-- `Put` is called, the running call takes a step, or the process crashes and is started again. -/
inductive CrashEvent where
  | call (args : PutCall)
  | step (io : Io)
  | crash

section Steps

variable (sha256 : Bytes → Hash)

/-- The state after the running call got to this point. -/
def CrashState.advance (s : CrashState) (put : RunningPut) (files : CasFiles) : PutPc → CrashState
  | .done result => ⟨files, none, ⟨put.call, put.before, result, files.objects⟩ :: s.log⟩
  | pc => ⟨files, some { put with pc := pc }, s.log⟩

/-- One event. A call starts only when none is running. -/
def crashStep (s : CrashState) : CrashEvent → Option CrashState
  | .call args =>
      match s.running with
      | none => some { s with running := some ⟨args, s.files.objects, .stat⟩ }
      | some _ => none
  | .step io =>
      s.running.map fun put =>
        let (files, pc) := putStep sha256 put.call io s.files put.pc
        s.advance put files pc
  | .crash => some { s with running := none }

/-- The byte strings that are hashed in a run: the objects at the start and the data of the
calls. -/
def crashStrings (files : CasFiles) (events : List CrashEvent) : Set Bytes :=
  { bytes | (∃ hash, files.objects hash = some bytes) ∨
    ∃ args, CrashEvent.call args ∈ events ∧ bytes = args.data }

/-- An event calls `Put` only with data from this set. -/
def CrashEvent.DataIn (strings : Set Bytes) : CrashEvent → Prop
  | .call args => args.data ∈ strings
  | _ => True

/-- What holds of a running call: the objects are those it found, until `Rename` has published
its data; and before `Rename` its temporary file has that data. -/
def Progress (before : Hash → Option Bytes) (call : PutCall) (files : CasFiles) : PutPc → Prop
  | .stat | .writeFile => files.objects = before
  | .rename => files.objects = before ∧ call.Matches sha256 ∧
      files.tmp call.hash = some call.data
  | .remove (.ok _) | .done (.ok _) => files.objects call.hash ≠ none
  | .remove (.error _) | .done (.error _) => files.objects = before

/-- The invariant of runs whose data is in a set. -/
structure CrashInv (strings : Set Bytes) (s : CrashState) : Prop where
  valid : ValidObjects sha256 s.files.objects
  known : ∀ hash bytes, s.files.objects hash = some bytes → bytes ∈ strings
  running : ∀ put, s.running = some put → put.call.data ∈ strings ∧
    Progress sha256 put.before put.call s.files put.pc
  ok : ∀ ret ∈ s.log, ret.result = .ok () → s.files.objects ret.call.hash ≠ none
  error : ∀ ret ∈ s.log, ∀ err, ret.result = .error err → ret.after = ret.before

/-- What the store promises over a run that ends in `s`. -/
structure CrashSafe (start : CrashState) (events : List CrashEvent) (s : CrashState) : Prop where
  /-- Every event is a step of an append-only map of valid blobs. -/
  refines : Along (crashStep sha256) (fun state event => ∀ next,
    crashStep sha256 state event = some next →
      Appends (fun hash bytes => sha256 bytes = hash) state.files.objects next.files.objects)
    start events
  /-- An object is never changed or removed. -/
  kept : ∀ before after mid, events = before ++ after →
    run (crashStep sha256) start before = some mid → Grows mid.files.objects s.files.objects
  /-- The bytes of an object hash to its name. -/
  valid : ValidObjects sha256 s.files.objects
  /-- After a `Put` that returned nil, `Get` returns bytes that hash to the name. -/
  ok : ∀ ret ∈ s.log, ret.result = .ok () →
    ∃ bytes, get s.files.objects ret.call.hash = some bytes ∧ sha256 bytes = ret.call.hash
  /-- A `Put` that returned an error has changed no object. -/
  error : ∀ ret ∈ s.log, ∀ err, ret.result = .error err → ret.after = ret.before
  /-- From any point between two calls, everything goes the same way with other temporary
  files. -/
  leftover : ∀ before after mid, events = before ++ after →
    run (crashStep sha256) start before = some mid → mid.running = none → ∀ tmp, ∃ t,
      run (crashStep sha256) { mid with files := ⟨mid.files.objects, tmp⟩ } after = some t ∧
        t.files.objects = s.files.objects ∧ t.log = s.log

end Steps

variable {sha256 : Bytes → Hash} {strings : Set Bytes} {s s' : CrashState}

/-! ## One step -/

/-- Publishing matching data is a step of an append-only map. If `Stat` failed on an object that is
there, it is replaced by the same bytes. -/
theorem rename_appends (hfree : Set.InjOn sha256 strings) {objects : Hash → Option Bytes}
    (hvalid : ValidObjects sha256 objects)
    (hknown : ∀ hash bytes, objects hash = some bytes → bytes ∈ strings) {call : PutCall}
    (hdata : call.data ∈ strings) (hmatch : call.Matches sha256) :
    let published := Function.update objects call.hash (some call.data)
    Appends (fun hash bytes => sha256 bytes = hash) objects published ∧
      ∀ hash bytes, published hash = some bytes → bytes ∈ strings := by
  intro published
  cases hold : objects call.hash with
  | none =>
      refine ⟨.inr ⟨call.hash, call.data, hold, hmatch, rfl⟩, fun hash bytes hbytes => ?_⟩
      by_cases hhash : hash = call.hash
      · subst hhash
        simp only [published, Function.update_self, Option.some.injEq] at hbytes
        exact hbytes ▸ hdata
      · simp only [published, Function.update_of_ne hhash] at hbytes
        exact hknown hash bytes hbytes
  | some bytes =>
      have hsame : bytes = call.data :=
        hfree (hknown _ _ hold) hdata ((hvalid _ _ hold).trans hmatch.symm)
      have hpublished : published = objects := by
        simp only [published]
        rw [← hsame, ← hold, Function.update_eq_self]
      rw [hpublished]
      exact ⟨.inl rfl, hknown⟩

/-- A step of `Put` leaves the call with what it needs for the next one. -/
theorem put_step_progress {files : CasFiles} {call : PutCall} {before : Hash → Option Bytes}
    {pc : PutPc} (hprogress : Progress sha256 before call files pc) (io : Io) :
    Progress sha256 before call (putStep sha256 call io files pc).1
      (putStep sha256 call io files pc).2 := by
  cases pc with
  | stat =>
      cases io with
      | failed left => exact hprogress
      | ok =>
          cases hobject : files.objects call.hash with
          | none =>
              simp only [putStep, hobject]
              exact hprogress
          | some bytes => simp [putStep, Progress, hobject]
  | writeFile =>
      cases io with
      | failed left => exact hprogress
      | ok =>
          by_cases hmatch : sha256 call.data = call.hash
          · simp only [putStep, hmatch, if_true]
            exact ⟨hprogress, hmatch, Function.update_self _ _ _⟩
          · simp only [putStep, hmatch, if_false]
            exact hprogress
  | rename =>
      obtain ⟨hobjects, -, htmp⟩ := hprogress
      cases io with
      | failed left => exact hobjects
      | ok => simp [putStep, htmp, Progress]
  | remove result => cases io <;> cases result <;> exact hprogress
  | done result => exact hprogress

/-- A step of `Put` changes the objects only by publishing data that matches its name. -/
theorem put_step_objects {files : CasFiles} {call : PutCall} {before : Hash → Option Bytes}
    {pc : PutPc} (hprogress : Progress sha256 before call files pc) (io : Io) :
    (putStep sha256 call io files pc).1.objects = files.objects ∨
      call.Matches sha256 ∧ (putStep sha256 call io files pc).1.objects =
        Function.update files.objects call.hash (some call.data) := by
  cases pc with
  | stat =>
      cases io with
      | failed left => exact .inl rfl
      | ok => cases hobject : files.objects call.hash <;> simp [putStep, hobject]
  | writeFile => cases io <;> exact .inl rfl
  | rename =>
      obtain ⟨-, hmatch, htmp⟩ := hprogress
      cases io with
      | failed left => exact .inl rfl
      | ok => exact .inr ⟨hmatch, by simp only [putStep, htmp]⟩
  | remove result => cases io <;> exact .inl rfl
  | done result => exact .inl rfl

/-- The invariant after the running call got to a point where it knows what it needs. -/
theorem advance_inv (hinv : CrashInv sha256 strings s) {put : RunningPut}
    (hdata : put.call.data ∈ strings) {files : CasFiles}
    (happends : Appends (fun hash bytes => sha256 bytes = hash) s.files.objects files.objects)
    (hknown : ∀ hash bytes, files.objects hash = some bytes → bytes ∈ strings) {pc : PutPc}
    (hprogress : Progress sha256 put.before put.call files pc) :
    CrashInv sha256 strings (s.advance put files pc) ∧ (s.advance put files pc).files = files := by
  have hvalid : ValidObjects sha256 files.objects := happends.bindings_valid hinv.valid
  have hok (ret : PutReturn) (hret : ret ∈ s.log) (hresult : ret.result = .ok ()) :
      files.objects ret.call.hash ≠ none := happends.grows.ne_none (hinv.ok ret hret hresult)
  cases pc with
  | done result =>
      refine ⟨⟨hvalid, hknown, nofun, fun ret hret hresult => ?_, fun ret hret err hresult => ?_⟩,
        rfl⟩
      · rcases List.mem_cons.mp hret with rfl | hret
        · cases hresult
          exact hprogress
        · exact hok ret hret hresult
      · rcases List.mem_cons.mp hret with rfl | hret
        · cases hresult
          exact hprogress
        · exact hinv.error ret hret err hresult
  | stat | writeFile | rename | remove =>
      refine ⟨⟨hvalid, hknown, ?_, hok, hinv.error⟩, rfl⟩
      rintro _ ⟨⟩
      exact ⟨hdata, hprogress⟩

/-- An event keeps the invariant and is a step of an append-only map. -/
theorem crash_step_inv (hfree : Set.InjOn sha256 strings) (hinv : CrashInv sha256 strings s)
    {event : CrashEvent} (hevent : event.DataIn strings)
    (h : crashStep sha256 s event = some s') :
    CrashInv sha256 strings s' ∧
      Appends (fun hash bytes => sha256 bytes = hash) s.files.objects s'.files.objects := by
  cases event with
  | call args =>
      cases hrunning : s.running with
      | some put => simp [crashStep, hrunning] at h
      | none =>
          simp only [crashStep, hrunning, Option.some.injEq] at h
          subst h
          refine ⟨⟨hinv.valid, hinv.known, ?_, hinv.ok, hinv.error⟩, .inl rfl⟩
          rintro _ ⟨⟩
          exact ⟨hevent, rfl⟩
  | step io =>
      obtain ⟨put, hrunning, rfl⟩ := Option.map_eq_some_iff.mp h
      obtain ⟨hdata, hprogress⟩ := hinv.running put hrunning
      obtain ⟨happends, hknown⟩ : Appends (fun hash bytes => sha256 bytes = hash) s.files.objects
            (putStep sha256 put.call io s.files put.pc).1.objects ∧
          ∀ hash bytes, (putStep sha256 put.call io s.files put.pc).1.objects hash = some bytes →
            bytes ∈ strings := by
        rcases put_step_objects hprogress io with hsame | ⟨hmatch, hpublished⟩
        · rw [hsame]
          exact ⟨.inl rfl, hinv.known⟩
        · rw [hpublished]
          exact rename_appends hfree hinv.valid hinv.known hdata hmatch
      obtain ⟨hnextInv, hfiles⟩ :=
        advance_inv hinv hdata happends hknown (put_step_progress hprogress io)
      refine ⟨hnextInv, ?_⟩
      dsimp only at hfiles ⊢
      rwa [hfiles]
  | crash =>
      cases h
      exact ⟨⟨hinv.valid, hinv.known, nofun, hinv.ok, hinv.error⟩, .inl rfl⟩

/-! ## Without an assumption about collisions -/

/-- The objects are valid, and a running call knows what it needs. -/
structure Consistent (sha256 : Bytes → Hash) (s : CrashState) : Prop where
  valid : ValidObjects sha256 s.files.objects
  running : ∀ put, s.running = some put → Progress sha256 put.before put.call s.files put.pc

/-- Publishing data that matches its name keeps the objects valid and every name taken. -/
theorem publish_keeps {objects : Hash → Option Bytes} (hvalid : ValidObjects sha256 objects)
    {call : PutCall} (hmatch : call.Matches sha256) :
    let published := Function.update objects call.hash (some call.data)
    ValidObjects sha256 published ∧ ∀ hash, objects hash ≠ none → published hash ≠ none := by
  intro published
  constructor
  · intro hash bytes hbytes
    by_cases hhash : hash = call.hash
    · subst hhash
      obtain rfl : call.data = bytes := by simpa [published] using hbytes
      exact hmatch
    · exact hvalid hash bytes (by simpa [published, hhash] using hbytes)
  · intro hash htaken
    by_cases hhash : hash = call.hash
    · simp [published, hhash]
    · simpa [published, hhash] using htaken

/-- An event keeps the store consistent and every name taken. The bytes under a name could only be
replaced by others with the same hash. -/
theorem crash_step_keeps (hinv : Consistent sha256 s) {event : CrashEvent}
    (h : crashStep sha256 s event = some s') :
    Consistent sha256 s' ∧ ∀ hash, s.files.objects hash ≠ none → s'.files.objects hash ≠ none := by
  cases event with
  | call args =>
      cases hrunning : s.running with
      | some put => simp [crashStep, hrunning] at h
      | none =>
          simp only [crashStep, hrunning, Option.some.injEq] at h
          subst h
          refine ⟨⟨hinv.valid, ?_⟩, fun _ htaken => htaken⟩
          rintro _ ⟨⟩
          rfl
  | step io =>
      obtain ⟨put, hrunning, rfl⟩ := Option.map_eq_some_iff.mp h
      have hprogress := hinv.running put hrunning
      have hnext := put_step_progress hprogress io
      obtain ⟨hvalid, htaken⟩ :
          ValidObjects sha256 (putStep sha256 put.call io s.files put.pc).1.objects ∧
            ∀ hash, s.files.objects hash ≠ none →
              (putStep sha256 put.call io s.files put.pc).1.objects hash ≠ none := by
        rcases put_step_objects hprogress io with hsame | ⟨hmatch, hpublished⟩
        · rw [hsame]
          exact ⟨hinv.valid, fun _ htaken => htaken⟩
        · rw [hpublished]
          exact publish_keeps hinv.valid hmatch
      dsimp only
      cases hpc : (putStep sha256 put.call io s.files put.pc).2 with
      | done result => exact ⟨⟨hvalid, nofun⟩, htaken⟩
      | stat | writeFile | rename | remove =>
          refine ⟨⟨hvalid, ?_⟩, htaken⟩
          rintro _ ⟨⟩
          rwa [hpc] at hnext
  | crash =>
      cases h
      exact ⟨⟨hinv.valid, nofun⟩, fun _ htaken => htaken⟩

/-! ## Temporary files -/

/-- The states differ at most in temporary files that no running call will publish. -/
structure SameObjects (s t : CrashState) : Prop where
  objects : s.files.objects = t.files.objects
  running : s.running = t.running
  log : s.log = t.log
  tmp : ∀ put, s.running = some put → put.pc = .rename →
    s.files.tmp put.call.hash = t.files.tmp put.call.hash

/-- A step of `Put` does the same to the objects, whatever is in the temporary files, unless it is
about to publish one. -/
theorem put_step_same (sha256 : Bytes → Hash) {files files' : CasFiles}
    (hobjects : files.objects = files'.objects) (call : PutCall) (io : Io) {pc : PutPc}
    (htmp : pc = .rename → files.tmp call.hash = files'.tmp call.hash) :
    (putStep sha256 call io files pc).1.objects = (putStep sha256 call io files' pc).1.objects ∧
      (putStep sha256 call io files pc).2 = (putStep sha256 call io files' pc).2 ∧
      ((putStep sha256 call io files pc).2 = .rename →
        (putStep sha256 call io files pc).1.tmp call.hash =
          (putStep sha256 call io files' pc).1.tmp call.hash) := by
  cases pc with
  | stat =>
      cases io with
      | failed left => simp [putStep, hobjects]
      | ok => cases hobject : files'.objects call.hash <;> simp [putStep, hobjects, hobject]
  | writeFile => cases io <;> simp [putStep, hobjects]
  | rename =>
      cases io with
      | failed left => simp [putStep, hobjects]
      | ok => cases hfile : files'.tmp call.hash <;> simp [putStep, htmp rfl, hfile, hobjects]
  | remove result => cases io <;> simp [putStep, hobjects]
  | done result => simp [putStep, hobjects]

/-- What an event does to the objects, the running call and its result does not depend on the
temporary files other calls have left. -/
theorem crash_step_same {t : CrashState} {event : CrashEvent} (hsame : SameObjects s t)
    (h : crashStep sha256 s event = some s') :
    ∃ t', crashStep sha256 t event = some t' ∧ SameObjects s' t' := by
  obtain ⟨hobjects, hrunning, hlog, htmp⟩ := hsame
  cases event with
  | call args =>
      cases hput : s.running with
      | some put => simp [crashStep, hput] at h
      | none =>
          simp only [crashStep, hput, Option.some.injEq] at h
          subst h
          refine ⟨{ t with running := some ⟨args, t.files.objects, .stat⟩ },
            by simp only [crashStep, ← hrunning, hput], hobjects, by rw [hobjects], hlog, ?_⟩
          rintro _ ⟨⟩ ⟨⟩
  | step io =>
      obtain ⟨put, hput, rfl⟩ := Option.map_eq_some_iff.mp h
      refine ⟨_, by rw [crashStep, ← hrunning, hput, Option.map_some], ?_⟩
      obtain ⟨hnext, hpc, hnextTmp⟩ := put_step_same sha256 hobjects put.call io (htmp put hput)
      dsimp only
      rw [← hpc]
      cases hpc' : (putStep sha256 put.call io s.files put.pc).2 with
      | done result => exact ⟨hnext, rfl, by simp [CrashState.advance, hnext, hlog], nofun⟩
      | stat | writeFile | rename | remove =>
          refine ⟨hnext, rfl, hlog, ?_⟩
          rintro _ ⟨⟩ hrename
          exact hnextTmp (hpc'.trans hrename)
  | crash =>
      cases h
      exact ⟨_, rfl, hobjects, rfl, hlog, nofun⟩

/-! ## Every run -/

/-- The invariant along a run, and each of its steps as a step of an append-only map. -/
theorem crash_run_inv (hfree : Set.InjOn sha256 strings) {events : List CrashEvent}
    (hdata : ∀ event ∈ events, event.DataIn strings) (hinv : CrashInv sha256 strings s)
    (hrun : run (crashStep sha256) s events = some s') :
    CrashInv sha256 strings s' ∧
      Along (crashStep sha256) (fun state event => ∀ next,
        crashStep sha256 state event = some next →
          Appends (fun hash bytes => sha256 bytes = hash) state.files.objects
            next.files.objects) s events := by
  induction events generalizing s with
  | nil =>
      cases hrun
      exact ⟨hinv, trivial⟩
  | cons event events ih =>
      obtain ⟨next, hstep, hrest⟩ := run_cons_eq_some.mp hrun
      obtain ⟨hfirst, hlater⟩ := List.forall_mem_cons.mp hdata
      obtain ⟨hnext, happends⟩ := crash_step_inv hfree hinv hfirst hstep
      obtain ⟨hfinal, halong⟩ := ih hlater hnext hrest
      refine ⟨hfinal, (along_cons hstep).mpr ⟨fun other hother => ?_, halong⟩⟩
      cases hstep.symm.trans hother
      exact happends

/-- **The objects are an append-only map of valid blobs**, whatever fails and whenever the process
crashes, if no two byte strings hashed in the run collide. -/
theorem crash_safe {files : CasFiles} (hvalid : ValidObjects sha256 files.objects)
    {events : List CrashEvent} (hfree : Set.InjOn sha256 (crashStrings files events))
    (hrun : run (crashStep sha256) (.idle files) events = some s) :
    CrashSafe sha256 (.idle files) events s := by
  have hdata : ∀ event ∈ events, event.DataIn (crashStrings files events) := by
    intro event hevent
    cases event with
    | call args => exact .inr ⟨args, hevent, rfl⟩
    | step | crash => trivial
  have hstart : CrashInv sha256 (crashStrings files events) (.idle files) :=
    ⟨hvalid, fun hash bytes hbytes => .inl ⟨hash, hbytes⟩, nofun, nofun, nofun⟩
  obtain ⟨hinv, happends⟩ := crash_run_inv hfree hdata hstart hrun
  refine ⟨happends, ?_, hinv.valid, ?_, hinv.error, ?_⟩
  · rintro before after mid rfl hbefore
    have hafter : run (crashStep sha256) mid after = some s := by
      rwa [run_append, hbefore] at hrun
    exact grows_of_along (fun state => state.files.objects) hafter (along_suffix hbefore happends)
  · intro ret hret hresult
    obtain ⟨bytes, hbytes⟩ := Option.ne_none_iff_exists'.mp (hinv.ok ret hret hresult)
    exact ⟨bytes, hbytes, hinv.valid _ _ hbytes⟩
  · rintro before after mid rfl hbefore hidle tmp
    have hafter : run (crashStep sha256) mid after = some s := by
      rwa [run_append, hbefore] at hrun
    have hsame : SameObjects mid { mid with files := ⟨mid.files.objects, tmp⟩ } :=
      ⟨rfl, rfl, rfl, fun put hput => by simp [hidle] at hput⟩
    obtain ⟨t, ht, hobjects, -, hlog, -⟩ :=
      run_simulation (crashStep sha256) SameObjects hafter hsame fun _ _ _ _ => crash_step_same
    exact ⟨t, ht, hobjects.symm, hlog.symm⟩

/-- A write fails and leaves a part, a `Put` of other data crashes before it removes its temporary
file, and a third `Put` succeeds over what was left although `Stat` and `Remove` fail. -/
theorem crash_safe_after_partial_write :
    let call : PutCall := ⟨Hash.sample [1], [1]⟩
    let wrong : PutCall := ⟨Hash.sample [1], [2]⟩
    let files : CasFiles := ⟨fun _ => none, fun _ => none⟩
    let events : List CrashEvent :=
      [.call call, .step .ok, .step (.failed [9]), .call wrong, .step .ok, .step .ok, .crash,
        .call call, .step (.failed []), .step .ok, .step .ok, .step (.failed [])]
    ∃ s, run (crashStep Hash.sample) (.idle files) events = some s ∧
      s.files.objects (Hash.sample [1]) = some [1] ∧
      CrashSafe Hash.sample (.idle files) events s := by
  intro call wrong files events
  have hvalid : ValidObjects Hash.sample files.objects := by
    intro hash bytes h
    cases h
  refine ⟨_, rfl, by decide, crash_safe hvalid ?_ rfl⟩
  intro first hfirst second hsecond hsame
  have hdata (bytes : Bytes) (h : bytes ∈ crashStrings files events) :
      bytes = [1] ∨ bytes = [2] := by
    have hcalls : bytes = [1] ∨ bytes = [2] ∨ bytes = [1] := by
      simpa [crashStrings, files, events, call, wrong] using h
    tauto
  rcases hdata first hfirst with rfl | rfl <;> rcases hdata second hsecond with rfl | rfl
  · rfl
  · exact absurd hsame (by decide)
  · exact absurd hsame (by decide)
  · rfl

end NuSync.Store
