import NuSync.Lib.System
import NuSync.Store.Cas

/-!
# Concurrent `Put` calls

Any number of `Put` calls on one store, their file-system steps interleaved in any order. The
temporary file is named by the hash alone, so two calls with one hash share it, and `Rename`
publishes whatever the last of them wrote. `concurrent_put_valid_iff` says exactly which sets
of calls are safe under every schedule.
-/

namespace NuSync.Store

open NuSync.Go NuSync.Lib

/-- The store together with the position of every call. -/
structure PutSystem (ι : Type*) where
  files : CasFiles
  pc : ι → PutPc

/-- All calls are about to start. -/
def PutSystem.start {ι : Type*} (files : CasFiles) : PutSystem ι := ⟨files, fun _ => .stat⟩

section Steps

variable {ι : Type*} [DecidableEq ι] (sha256 : Bytes → Hash) (calls : ι → PutCall)

/-- Call `i` takes its next file-system step. A returned call takes none. -/
def concurrentStep (state : PutSystem ι) (i : ι) : Option (PutSystem ι) :=
  match state.pc i with
  | .done _ => none
  | pc =>
      let (files, next) := putStep sha256 (calls i) .ok state.files pc
      some ⟨files, Function.update state.pc i next⟩

/-- Two calls for one absent hash agree on whether their data is what the hash names. -/
def Unmixed (objects : Hash → Option Bytes) : Prop :=
  ∀ i j, (calls i).hash = (calls j).hash → objects (calls i).hash = none →
    ((calls i).Matches sha256 ↔ (calls j).Matches sha256)

end Steps

/-! ## The invariant of unmixed calls -/

variable {sha256 : Bytes → Hash} {objects : Hash → Option Bytes}

/-- What is known of a call from its position, relative to the objects at the start: past its
`Stat` its hash was absent, and about to rename its data matches and so does the temporary
file it would publish. -/
def CallInv (sha256 : Bytes → Hash) (objects : Hash → Option Bytes) (files : CasFiles)
    (call : PutCall) : PutPc → Prop
  | .writeFile => objects call.hash = none
  | .rename => objects call.hash = none ∧ call.Matches sha256 ∧
      ∀ bytes, files.tmp call.hash = some bytes → sha256 bytes = call.hash
  | _ => True

/-- Published objects are valid, and none of the objects at the start is gone. -/
structure FilesInv (sha256 : Bytes → Hash) (objects : Hash → Option Bytes)
    (files : CasFiles) : Prop where
  valid : ValidObjects sha256 files.objects
  kept : ∀ hash, objects hash ≠ none → files.objects hash ≠ none

/-- A call keeps what is known of it when its temporary file is left alone, removed, or
replaced by one that matches. -/
theorem CallInv.frame {files files' : CasFiles} {call : PutCall} {pc : PutPc}
    (h : CallInv sha256 objects files call pc)
    (htmp : ∀ bytes, files'.tmp call.hash = some bytes →
      files.tmp call.hash = some bytes ∨ sha256 bytes = call.hash) :
    CallInv sha256 objects files' call pc := by
  cases pc with
  | rename =>
      obtain ⟨habsent, hmatch, hfile⟩ := h
      refine ⟨habsent, hmatch, fun bytes hbytes => ?_⟩
      rcases htmp bytes hbytes with hold | hnew
      · exact hfile bytes hold
      · exact hnew
  | stat | writeFile | remove | done => exact h

/-- A step keeps the objects valid and its own call's knowledge. -/
theorem put_step_self {files : CasFiles} {call : PutCall} {pc : PutPc}
    (hfiles : FilesInv sha256 objects files) (hcall : CallInv sha256 objects files call pc) :
    FilesInv sha256 objects (putStep sha256 call .ok files pc).1 ∧
      CallInv sha256 objects (putStep sha256 call .ok files pc).1 call
        (putStep sha256 call .ok files pc).2 := by
  cases pc with
  | stat =>
      cases hobject : files.objects call.hash with
      | some bytes => simpa [putStep, hobject, CallInv] using hfiles
      | none =>
          have habsent : objects call.hash = none := by
            by_contra hsome
            exact hfiles.kept _ hsome hobject
          simpa [putStep, hobject, CallInv, habsent] using hfiles
  | writeFile =>
      refine ⟨⟨hfiles.valid, hfiles.kept⟩, ?_⟩
      by_cases hmatch : sha256 call.data = call.hash
      · simp only [putStep, hmatch, if_true, CallInv, Function.update_self, Option.some.injEq]
        exact ⟨hcall, hmatch, fun bytes hbytes => hbytes ▸ hmatch⟩
      · simp [putStep, hmatch, CallInv]
  | rename =>
      obtain ⟨_, _, hfile⟩ := hcall
      cases htmp : files.tmp call.hash with
      | none => simpa [putStep, htmp, CallInv] using hfiles
      | some bytes =>
          simp only [putStep, htmp, CallInv, and_true]
          refine ⟨fun name content hname => ?_, fun name hname => ?_⟩
          · by_cases heq : name = call.hash
            · subst heq
              simp only [Function.update_self, Option.some.injEq] at hname
              exact hname ▸ hfile bytes htmp
            · simp only [Function.update_of_ne heq] at hname
              exact hfiles.valid name content hname
          · by_cases heq : name = call.hash
            · simp [heq]
            · simpa only [Function.update_of_ne heq] using hfiles.kept name hname
  | remove result => exact ⟨⟨hfiles.valid, hfiles.kept⟩, trivial⟩
  | done result => exact ⟨hfiles, hcall⟩

/-- A step keeps the knowledge of every other call, if two calls for one absent hash have data
of one kind. -/
theorem put_step_other {files : CasFiles} {call other : PutCall} {pc otherPc : PutPc}
    (hcall : CallInv sha256 objects files call pc)
    (hunmixed : call.hash = other.hash → objects call.hash = none →
      (call.Matches sha256 ↔ other.Matches sha256))
    (hother : CallInv sha256 objects files other otherPc) :
    CallInv sha256 objects (putStep sha256 call .ok files pc).1 other otherPc := by
  -- Only a change of the shared temporary file can matter.
  by_cases hhash : other.hash = call.hash
  · cases pc with
    | stat =>
        have hsame : (putStep sha256 call .ok files .stat).1 = files := by
          cases hobject : files.objects call.hash <;> simp [putStep, hobject]
        rwa [hsame]
    | writeFile =>
        cases otherPc with
        | rename =>
            obtain ⟨habsent, hmatch, _⟩ := hother
            refine ⟨habsent, hmatch, fun bytes hbytes => ?_⟩
            simp only [putStep, hhash, Function.update_self, Option.some.injEq] at hbytes
            have hdata := (hunmixed hhash.symm (hhash ▸ habsent)).mpr hmatch
            rw [hhash, ← hbytes]
            exact hdata
        | stat | writeFile | remove | done => exact hother
    | rename =>
        refine hother.frame fun bytes hbytes => .inl ?_
        cases htmp : files.tmp call.hash with
        | none => simpa [putStep, htmp] using hbytes
        | some content => simp [putStep, htmp, hhash] at hbytes
    | remove result =>
        refine hother.frame fun bytes hbytes => ?_
        simp [putStep, hhash] at hbytes
    | done result => exact hother
  · refine hother.frame fun bytes hbytes => .inl ?_
    have hsame : (putStep sha256 call .ok files pc).1.tmp other.hash = files.tmp other.hash := by
      cases pc with
      | stat => cases hobject : files.objects call.hash <;> simp [putStep, hobject]
      | rename =>
          cases htmp : files.tmp call.hash <;>
            simp [putStep, htmp, Function.update_of_ne hhash]
      | writeFile | remove | done => simp [putStep, Function.update_of_ne hhash]
    exact hsame ▸ hbytes

/-! ## Every schedule -/

variable {ι : Type*} [DecidableEq ι] {calls : ι → PutCall}

/-- A step of the system is a step of one call; the others stay where they are. -/
theorem concurrent_step_eq {state next : PutSystem ι} {i : ι}
    (h : concurrentStep sha256 calls state i = some next) :
    next.files = (putStep sha256 (calls i) .ok state.files (state.pc i)).1 ∧
      next.pc = Function.update state.pc i
        (putStep sha256 (calls i) .ok state.files (state.pc i)).2 := by
  unfold concurrentStep at h
  split at h
  · simp at h
  · cases h
    exact ⟨rfl, rfl⟩

/-- Under every schedule of unmixed calls the published objects stay valid. -/
theorem concurrent_put_valid {files : CasFiles} (hvalid : ValidObjects sha256 files.objects)
    (hunmixed : Unmixed sha256 calls files.objects) {state : PutSystem ι}
    (hreach : Reachable (concurrentStep sha256 calls) (.start files) state) :
    ValidObjects sha256 state.files.objects := by
  have hinv : FilesInv sha256 files.objects state.files ∧
      ∀ k, CallInv sha256 files.objects state.files (calls k) (state.pc k) := by
    refine hreach.invariant
      (fun state => FilesInv sha256 files.objects state.files ∧
        ∀ k, CallInv sha256 files.objects state.files (calls k) (state.pc k))
      ⟨⟨hvalid, fun _ h => h⟩, fun _ => trivial⟩ ?_
    rintro state i next ⟨hfiles, hcalls⟩ hstep
    obtain ⟨hnextFiles, hnextPc⟩ := concurrent_step_eq hstep
    have hself := put_step_self hfiles (hcalls i)
    rw [hnextFiles, hnextPc]
    refine ⟨hself.1, fun k => ?_⟩
    by_cases hk : k = i
    · subst hk
      simpa using hself.2
    · rw [Function.update_of_ne hk]
      exact put_step_other (hcalls i) (hunmixed i k) (hcalls k)
  exact hinv.1.valid

/-- A call whose data matches and one whose data does not, on one absent hash: the first
writes the shared temporary file, the second overwrites it, and the first renames it. -/
theorem mixed_calls_publish {files : CasFiles} {i j : ι}
    (hhash : (calls i).hash = (calls j).hash) (habsent : files.objects (calls i).hash = none)
    (hi : (calls i).Matches sha256) (hj : ¬ (calls j).Matches sha256) :
    ∃ state, Reachable (concurrentStep sha256 calls) (.start files) state ∧
      state.files.objects (calls i).hash = some (calls j).data := by
  have hne : i ≠ j := by
    rintro rfl
    exact hj hi
  have habsent' : files.objects (calls j).hash = none := hhash ▸ habsent
  have hmatch : sha256 (calls i).data = (calls j).hash := hhash ▸ hi
  have hmismatch : ¬ sha256 (calls j).data = (calls j).hash := hj
  have hrun : (run (concurrentStep sha256 calls) (.start files) [i, j, i, j, i]).map
      (fun state => state.files.objects (calls i).hash) = some (some (calls j).data) := by
    simp [concurrentStep, PutSystem.start, putStep, hne, hne.symm, hhash, habsent', hmatch,
      hmismatch]
  obtain ⟨state, hstate, hobject⟩ := Option.map_eq_some_iff.mp hrun
  exact ⟨state, ⟨_, hstate⟩, hobject⟩

/-- **Concurrent `Put` calls keep the store valid under every schedule exactly when no absent
hash is put both with data that matches it and with data that does not.** -/
theorem concurrent_put_valid_iff {files : CasFiles} (hvalid : ValidObjects sha256 files.objects) :
    (∀ state, Reachable (concurrentStep sha256 calls) (.start files) state →
      ValidObjects sha256 state.files.objects) ↔ Unmixed sha256 calls files.objects := by
  refine ⟨fun hsafe => ?_, fun hunmixed state hreach =>
    concurrent_put_valid hvalid hunmixed hreach⟩
  -- A mixed pair would publish the data that does not match.
  have hclash : ∀ i j, (calls i).hash = (calls j).hash → files.objects (calls i).hash = none →
      (calls i).Matches sha256 → (calls j).Matches sha256 := by
    intro i j hhash habsent hi
    by_contra hj
    obtain ⟨state, hreach, hobject⟩ := mixed_calls_publish hhash habsent hi hj
    exact hj ((hsafe state hreach _ _ hobject).trans hhash)
  exact fun i j hhash habsent =>
    ⟨hclash i j hhash habsent, hclash j i hhash.symm (hhash ▸ habsent)⟩

/-- Two goroutines that put the same chunk into an empty store are safe. -/
theorem concurrent_put_valid_same_chunk :
    ValidObjects Hash.sample (fun _ => none) ∧
      ∀ state : PutSystem Bool,
        Reachable (concurrentStep Hash.sample fun _ => ⟨Hash.sample [1], [1]⟩)
          (.start ⟨fun _ => none, fun _ => none⟩) state →
        ValidObjects Hash.sample state.files.objects := by
  have hvalid : ValidObjects Hash.sample (fun _ => none) := by
    intro hash bytes hbytes
    cases hbytes
  exact ⟨hvalid, (concurrent_put_valid_iff hvalid).mpr fun _ _ _ _ => Iff.rfl⟩

/-- Two goroutines fetch one chunk, one of them from a peer that answers with other bytes: the
other bytes can end up under the chunk's hash. -/
theorem concurrent_put_wrong_bytes :
    let calls : Bool → PutCall := fun i => ⟨Hash.sample [1], if i then [1] else [2]⟩
    ∃ state, Reachable (concurrentStep Hash.sample calls)
        (.start ⟨fun _ => none, fun _ => none⟩) state ∧
      ¬ ValidObjects Hash.sample state.files.objects := by
  intro calls
  obtain ⟨state, hreach, hobject⟩ : ∃ state, Reachable (concurrentStep Hash.sample calls)
      (.start ⟨fun _ => none, fun _ => none⟩) state ∧
      state.files.objects (Hash.sample [1]) = some [2] :=
    mixed_calls_publish (i := true) (j := false) rfl rfl (by decide) (by decide)
  exact ⟨state, hreach, fun hvalid => absurd (hvalid _ _ hobject) (by decide)⟩

end NuSync.Store
