import NuSync.Go.Bytes

/-!
# The content-addressed blob store

`internal/store/cas.go`. The store is two directories: `objects/<hex>` and `tmp/<hex>.tmp`,
both named by a digest, so each is a partial map from digests to file contents. `putStep` is
one file-system step of `CASBlobStore.Put`; `put` is the whole call when nothing runs beside
it, and `put_alone` says that the steps compute it.
-/

namespace NuSync.Store

open NuSync.Go

/-- The files of a `CASBlobStore`. -/
structure CasFiles where
  objects : Hash → Option Bytes
  tmp : Hash → Option Bytes

/-- The errors `Put` returns. -/
inductive CasError where
  | writeFailed
  | hashMismatch (expected got : Hash)
  | renameFailed
  deriving DecidableEq

/-- The arguments of one `Put` call. -/
structure PutCall where
  hash : Hash
  data : Bytes
  deriving DecidableEq

/-- Where a `Put` call stands: before each of its file-system steps, or returned. -/
inductive PutPc where
  | stat
  | writeFile
  | rename
  | remove (result : Except CasError Unit)
  | done (result : Except CasError Unit)

/-- How the file system answers a step. A failed write leaves some content in the file. -/
inductive Io where
  | ok
  | failed (left : Bytes)

section Steps

variable (sha256 : Bytes → Hash)

/-- The data is what the hash names. -/
def PutCall.Matches (call : PutCall) : Prop := sha256 call.data = call.hash

instance (call : PutCall) : Decidable (call.Matches sha256) :=
  inferInstanceAs (Decidable (_ = _))

/-- One file-system step of `Put`. The hash check reads only memory, so it is part of the step
that writes the temporary file; the deferred `Remove` runs on every exit after the write. -/
def putStep (call : PutCall) (io : Io) (files : CasFiles) : PutPc → CasFiles × PutPc
  | .stat =>
      match io, files.objects call.hash with
      | .ok, some _ => (files, .done (.ok ()))
      | _, _ => (files, .writeFile)
  | .writeFile =>
      match io with
      | .failed left =>
          ({ files with tmp := Function.update files.tmp call.hash (some left) },
            .done (.error .writeFailed))
      | .ok =>
          ({ files with tmp := Function.update files.tmp call.hash (some call.data) },
            if sha256 call.data = call.hash then .rename
            else .remove (.error (.hashMismatch call.hash (sha256 call.data))))
  | .rename =>
      match io, files.tmp call.hash with
      | .ok, some bytes =>
          ({ objects := Function.update files.objects call.hash (some bytes)
             tmp := Function.update files.tmp call.hash none }, .remove (.ok ()))
      | _, _ => (files, .remove (.error .renameFailed))
  | .remove result =>
      match io with
      | .ok => ({ files with tmp := Function.update files.tmp call.hash none }, .done result)
      | .failed _ => (files, .done result)
  | .done result => (files, .done result)

/-- `Put` as one operation on the objects. -/
def put (objects : Hash → Option Bytes) (hash : Hash) (data : Bytes) :
    (Hash → Option Bytes) × Except CasError Unit :=
  match objects hash with
  | some _ => (objects, .ok ())
  | none =>
      if sha256 data = hash then (Function.update objects hash (some data), .ok ())
      else (objects, .error (.hashMismatch hash (sha256 data)))

/-- `Get`; `none` is a missing object. -/
def get (objects : Hash → Option Bytes) (hash : Hash) : Option Bytes := objects hash

/-- The four steps of a `Put` call that runs alone on a file system without faults. -/
def putAlone (call : PutCall) (files : CasFiles) : CasFiles × PutPc :=
  let (files, pc) := putStep sha256 call .ok files .stat
  let (files, pc) := putStep sha256 call .ok files pc
  let (files, pc) := putStep sha256 call .ok files pc
  putStep sha256 call .ok files pc

/-- Run alone, the steps of `Put` return what `put` computes and leave its objects. -/
theorem put_alone (call : PutCall) (files : CasFiles) :
    (putAlone sha256 call files).1.objects = (put sha256 files.objects call.hash call.data).1 ∧
      (putAlone sha256 call files).2 =
        .done (put sha256 files.objects call.hash call.data).2 := by
  unfold putAlone put
  cases hobject : files.objects call.hash with
  | some bytes => simp [putStep, hobject]
  | none =>
      by_cases hmatch : sha256 call.data = call.hash
      · simp [putStep, hobject, hmatch]
      · simp [putStep, hobject, hmatch]

/-- Every object's content hashes to its name. -/
def ValidObjects (objects : Hash → Option Bytes) : Prop :=
  ∀ hash bytes, objects hash = some bytes → sha256 bytes = hash

variable {sha256}

/-- The object under a name after `Put`: the data if it matches and the name was free. -/
theorem put_apply (objects : Hash → Option Bytes) (hash : Hash) (data : Bytes) (name : Hash) :
    (put sha256 objects hash data).1 name =
      if objects name = none ∧ name = hash ∧ sha256 data = hash then some data
      else objects name := by
  unfold put
  cases hobject : objects hash with
  | some bytes =>
      have htaken : ¬ (objects name = none ∧ name = hash ∧ sha256 data = hash) := by
        rintro ⟨hnone, rfl, -⟩
        simp [hobject] at hnone
      simp [htaken]
  | none =>
      by_cases hmatch : sha256 data = hash
      · by_cases hname : name = hash
        · simp [hname, hmatch, hobject]
        · simp [hname, hmatch]
      · simp [hmatch]

/-- An object is there after `Put` if it was before, or if matching data was put under its name. -/
theorem put_ne_none_iff {objects : Hash → Option Bytes} {hash : Hash} {data : Bytes} {name : Hash} :
    (put sha256 objects hash data).1 name ≠ none ↔
      objects name ≠ none ∨ name = hash ∧ sha256 data = hash := by
  rw [put_apply]
  by_cases hname : objects name = none
  · simp [hname]
  · simp [hname]

/-- `Put` keeps the objects valid, whatever data it is given. -/
theorem valid_objects_put {objects : Hash → Option Bytes} (h : ValidObjects sha256 objects)
    (hash : Hash) (data : Bytes) : ValidObjects sha256 (put sha256 objects hash data).1 := by
  intro name bytes hname
  rw [put_apply] at hname
  split_ifs at hname with hnew
  · cases hname
    rw [hnew.2.1, hnew.2.2]
  · exact h name bytes hname

/-- `Put` changes no object that is there. -/
theorem put_of_some {objects : Hash → Option Bytes} {name : Hash} {bytes : Bytes}
    (h : objects name = some bytes) (hash : Hash) (data : Bytes) :
    (put sha256 objects hash data).1 name = some bytes := by
  rw [put_apply, if_neg (by simp [h]), h]

/-! ## One step, whatever runs beside it -/

variable {files : CasFiles} {call : PutCall} {io : Io} {pc : PutPc}

/-- A step keeps the objects valid if a call that is about to rename finds data in its temporary
file that the hash names. -/
theorem put_step_valid (hvalid : ValidObjects sha256 files.objects)
    (hrename : pc = .rename → ∀ bytes, files.tmp call.hash = some bytes →
      sha256 bytes = call.hash) :
    ValidObjects sha256 (putStep sha256 call io files pc).1.objects := by
  cases pc with
  | stat =>
      simp only [putStep]
      split <;> exact hvalid
  | writeFile => cases io <;> exact hvalid
  | rename =>
      simp only [putStep]
      split
      · next bytes htmp =>
          intro hash content hcontent
          by_cases hhash : hash = call.hash
          · subst hhash
            simp only [Function.update_self, Option.some.injEq] at hcontent
            exact hcontent ▸ hrename rfl bytes htmp
          · simp only [Function.update_of_ne hhash] at hcontent
            exact hvalid hash content hcontent
      · exact hvalid
  | remove result => cases io <;> exact hvalid
  | done result => exact hvalid

/-- What is found in a temporary file after a step was there before, or the step has written it, and
then it is all of its data if the write succeeded. -/
theorem put_step_tmp {hash : Hash} {bytes : Bytes}
    (h : (putStep sha256 call io files pc).1.tmp hash = some bytes) :
    files.tmp hash = some bytes ∨
      hash = call.hash ∧ pc = .writeFile ∧ (io = .ok → bytes = call.data) := by
  -- a file that was removed or renamed is not found
  have hremoved (h : Function.update files.tmp call.hash none hash = some bytes) :
      files.tmp hash = some bytes := by
    by_cases hhash : hash = call.hash
    · simp [hhash] at h
    · simpa [hhash] using h
  have hwritten {content : Bytes}
      (h : Function.update files.tmp call.hash (some content) hash = some bytes) :
      files.tmp hash = some bytes ∨ hash = call.hash ∧ bytes = content := by
    by_cases hhash : hash = call.hash
    · subst hhash
      exact .inr ⟨rfl, by simpa [eq_comm] using h⟩
    · exact .inl (by simpa [hhash] using h)
  cases pc with
  | stat =>
      simp only [putStep] at h
      split at h <;> exact .inl h
  | writeFile =>
      cases io with
      | ok => exact (hwritten h).imp_right fun ⟨hhash, hdata⟩ => ⟨hhash, rfl, fun _ => hdata⟩
      | failed left => exact (hwritten h).imp_right fun ⟨hhash, _⟩ => ⟨hhash, rfl, nofun⟩
  | rename =>
      simp only [putStep] at h
      split at h
      · exact .inl (hremoved h)
      · exact .inl h
  | remove result =>
      cases io with
      | ok => exact .inl (hremoved h)
      | failed left => exact .inl h
  | done result => exact .inl h

/-- A call is about to rename only after it has written data that the hash names. -/
theorem put_step_rename (h : (putStep sha256 call io files pc).2 = .rename) :
    call.Matches sha256 ∧
      (putStep sha256 call io files pc).1.tmp call.hash = some call.data := by
  cases pc with
  | stat =>
      simp only [putStep] at h
      split at h <;> cases h
  | writeFile =>
      cases io with
      | ok =>
          simp only [putStep] at h ⊢
          split_ifs at h with hmatch
          exact ⟨hmatch, Function.update_self ..⟩
      | failed left => cases h
  | rename =>
      simp only [putStep] at h
      split at h <;> cases h
  | remove result => cases io <;> cases h
  | done result => cases h

end Steps

end NuSync.Store
