import NuSync.Daemon.Handlers
import NuSync.Lib.Replace
import NuSync.Lib.System

/-!
# Chunks before records

The goroutines of a node that write to its two stores, step by step: `HandleFileChange` and
`/ingest` put the chunks of a file into the blob store one after another and then its record into
the index, a download puts one chunk, and the end of `Pull` reads every chunk back before it stores
the record. Any number of them run beside each other, every file-system step may fail, and the
process may crash between any two steps and start again on what it left.

Nothing ties the two stores together except this order. `records_have_chunks` says that it is
enough: whatever the interleaving and wherever the crashes, a record has its chunks, unless a `Put`
of the call that indexed the file returned an error, which that call ignores. Run alone, the steps
are the functions of the daemon (`ingest_alone`).
-/

namespace NuSync

open Go Lib Store Chunker Merkle

/-! ## The goroutines -/

/-- What a goroutine is there for: index the chunks of a local file, put a chunk that was
downloaded, or store a peer's record once its chunks are there. -/
inductive WriteTask where
  | ingest (fileID : GoString) (chunks : List Chunk)
  | download (call : PutCall)
  | assemble (remoteMeta : FileMeta)

/-- Where a goroutine is, with its live variables: inside a `Put`, with the calls that come after
it; before `nextTS`; before it reads a chunk for the assembly; before `PutFileMeta`; or at its end,
which a crash brings about for all of them. -/
inductive WriterPc where
  | put (call : PutCall) (pc : PutPc) (todo : List PutCall)
  | nextTS (fileID : GoString) (chunks : List Chunk)
  | read (remoteMeta : FileMeta) (todo : List Hash)
  | putMeta (m : FileMeta)
  | ended

/-- A goroutine. `putFailed` records that one of its `Put` calls returned an error; the code does
not look at it. -/
structure Writer where
  task : WriteTask
  pc : WriterPc
  putFailed : Bool

/-- What the goroutines share: the two stores and the clock. -/
structure Stores where
  files : CasFiles
  index : BoltMetaStore
  clock : UInt64

/-- The stores, and the goroutines there have been. -/
structure Writers where
  stores : Stores
  writers : List Writer

/-- A process that has just started on these stores. -/
def Writers.idle (files : CasFiles) (index : BoltMetaStore) : Writers := ⟨⟨files, index, 0⟩, []⟩

/-- The `Put` call for a chunk of a file. -/
def chunkCall (chunk : Chunk) : PutCall := ⟨chunk.hash, chunk.data⟩

namespace WriteTask

/-- The `Put` calls of the task. -/
def puts : WriteTask → List PutCall
  | .ingest _ chunks => chunks.map chunkCall
  | .download call => [call]
  | .assemble _ => []

/-- Where the loop over the chunks goes with these calls left. -/
def next : WriteTask → List PutCall → WriterPc
  | _, call :: todo => .put call .stat todo
  | .ingest fileID chunks, [] => .nextTS fileID chunks
  | _, [] => .ended

/-- Where the goroutine starts. -/
def start : WriteTask → WriterPc
  | .assemble m => .read m m.chunkHashes
  | task => task.next task.puts

end WriteTask

/-- A step succeeds, as far as bbolt is concerned. -/
def commits : Io → Bool
  | .ok => true
  | .failed _ => false

/-- What happens: a goroutine starts, one takes a step and gets this answer, or the process crashes
and is started again. -/
inductive WriteEvent where
  | start (task : WriteTask)
  | step (k : Nat) (io : Io)
  | crash

section Steps

variable (sha256 : Bytes → Hash)

/-- A goroutine after a step of its `Put`. -/
def Writer.afterPut (w : Writer) (call : PutCall) (todo : List PutCall) : PutPc → Writer
  | .done (.ok _) => { w with pc := w.task.next todo }
  | .done (.error _) => { w with pc := w.task.next todo, putFailed := true }
  | pc => { w with pc := .put call pc todo }

/-- One step of a goroutine: the stores and the clock afterwards, and the goroutine. -/
def writerStep (s : Stores) (w : Writer) (io : Io) : Stores × Writer :=
  match w.pc with
  | .put call pc todo =>
      let (files, pc) := putStep sha256 call io s.files pc
      ({ s with files := files }, w.afterPut call todo pc)
  | .nextTS fileID chunks =>
      ({ s with clock := s.clock + 1 },
        { w with pc := .putMeta (Daemon.fileMeta sha256 fileID chunks (s.clock + 1)) })
  | .read m [] => (s, { w with pc := .putMeta m })
  | .read m (hash :: todo) =>
      match io, Store.get s.files.objects hash with
      | .ok, some _ => (s, { w with pc := .read m todo })
      | _, _ => (s, { w with pc := .ended })
  | .putMeta m =>
      ({ s with index := Daemon.putIgnored s.index m (commits io) }, { w with pc := .ended })
  | .ended => (s, w)

/-- One event. -/
def writeStep (s : Writers) : WriteEvent → Option Writers
  | .start task => some { s with writers := s.writers ++ [⟨task, task.start, false⟩] }
  | .step k io =>
      s.writers[k]?.map fun w =>
        let (stores, w) := writerStep sha256 s.stores w io
        ⟨stores, s.writers.set k w⟩
  | .crash =>
      some ⟨{ s.stores with clock := 0 }, s.writers.map fun w => { w with pc := .ended }⟩

end Steps

/-! ## What one step keeps -/

variable (sha256 : Bytes → Hash)

/-- No step of `Put` takes an object away. -/
theorem put_step_keeps (call : PutCall) (io : Io) (files : CasFiles) (pc : PutPc) (hash : Hash)
    (h : files.objects hash ≠ none) : (putStep sha256 call io files pc).1.objects hash ≠ none := by
  cases pc with
  | stat =>
      cases io <;> cases hobject : files.objects call.hash <;> simpa [putStep, hobject] using h
  | writeFile => cases io <;> exact h
  | rename =>
      cases io with
      | failed left => exact h
      | ok =>
          cases htmp : files.tmp call.hash with
          | none => simpa only [putStep, htmp] using h
          | some bytes =>
              simp only [putStep, htmp]
              by_cases hhash : hash = call.hash
              · rw [hhash, Function.update_self]
                exact Option.some_ne_none bytes
              · rwa [Function.update_of_ne hhash]
  | remove result => cases io <;> exact h
  | done result => exact h

/-- A `Put` that is about to return nil, or has, leaves its object there. -/
def PutKnows (objects : Hash → Option Bytes) (call : PutCall) : PutPc → Prop
  | .remove (.ok _) | .done (.ok _) => objects call.hash ≠ none
  | _ => True

theorem put_step_knows {call : PutCall} {files : CasFiles} {pc : PutPc}
    (h : PutKnows files.objects call pc) (io : Io) :
    PutKnows (putStep sha256 call io files pc).1.objects call
      (putStep sha256 call io files pc).2 := by
  cases pc with
  | stat =>
      cases io with
      | failed left => trivial
      | ok => cases hobject : files.objects call.hash <;> simp [putStep, hobject, PutKnows]
  | writeFile =>
      cases io with
      | failed left => trivial
      | ok =>
          simp only [putStep]
          split_ifs <;> trivial
  | rename =>
      cases io with
      | failed left => trivial
      | ok => cases htmp : files.tmp call.hash <;> simp [putStep, htmp, PutKnows]
  | remove result => cases io <;> cases result <;> exact h
  | done result => exact h

variable {sha256}

/-- What a goroutine knows of the objects. A chunk it has dealt with is there unless a `Put`
failed; a chunk it has read is there; and so are the chunks of a record it is about to store. -/
def Writer.Knows (objects : Hash → Option Bytes) (w : Writer) : Prop :=
  match w.pc with
  | .put call pc todo => PutKnows objects call pc ∧
      ∀ c ∈ w.task.puts, c ∈ call :: todo ∨ objects c.hash ≠ none ∨ w.putFailed = true
  | .nextTS fileID chunks => w.task = .ingest fileID chunks ∧
      ∀ chunk ∈ chunks, objects chunk.hash ≠ none ∨ w.putFailed = true
  | .read m todo => ∀ hash ∈ m.chunkHashes, hash ∈ todo ∨ objects hash ≠ none
  | .putMeta m => (∀ hash ∈ m.chunkHashes, objects hash ≠ none) ∨
      w.putFailed = true ∧ ∃ chunks, w.task = .ingest m.fileID chunks
  | .ended => True

theorem PutKnows.mono {objects objects' : Hash → Option Bytes} {call : PutCall} {pc : PutPc}
    (hkeeps : ∀ hash, objects hash ≠ none → objects' hash ≠ none)
    (h : PutKnows objects call pc) : PutKnows objects' call pc := by
  cases pc with
  | remove result | done result =>
      cases result with
      | ok => exact hkeeps _ h
      | error => trivial
  | stat | writeFile | rename => trivial

/-- What a goroutine knows stays true when objects are added. -/
theorem Writer.Knows.mono {objects objects' : Hash → Option Bytes} {w : Writer}
    (hkeeps : ∀ hash, objects hash ≠ none → objects' hash ≠ none) (h : w.Knows objects) :
    w.Knows objects' := by
  obtain ⟨task, pc, putFailed⟩ := w
  cases pc with
  | put call pc todo =>
      exact ⟨h.1.mono hkeeps, fun c hc => (h.2 c hc).imp_right (Or.imp_left (hkeeps _))⟩
  | nextTS fileID chunks =>
      exact ⟨h.1, fun chunk hchunk => (h.2 chunk hchunk).imp_left (hkeeps _)⟩
  | read m todo => exact fun hash hmem => (h hash hmem).imp_right (hkeeps _)
  | putMeta m => exact h.imp_left fun h hash hmem => hkeeps _ (h hash hmem)
  | ended => trivial

variable {w : Writer} {objects : Hash → Option Bytes}

/-- A goroutine that goes on with these calls knows that the others are dealt with. -/
theorem knows_next (task : WriteTask) (putFailed : Bool) {todo : List PutCall}
    (h : ∀ c ∈ task.puts, c ∈ todo ∨ objects c.hash ≠ none ∨ putFailed = true) :
    Writer.Knows objects ⟨task, task.next todo, putFailed⟩ := by
  cases todo with
  | cons call todo => exact ⟨trivial, h⟩
  | nil =>
      cases task with
      | ingest fileID chunks =>
          refine ⟨rfl, fun chunk hchunk => ?_⟩
          exact (h (chunkCall chunk) (List.mem_map_of_mem hchunk)).resolve_left List.not_mem_nil
      | download call => trivial
      | assemble m => trivial

theorem knows_start (task : WriteTask) : Writer.Knows objects ⟨task, task.start, false⟩ := by
  cases task with
  | ingest fileID chunks => exact knows_next (.ingest fileID chunks) false fun _ hc => .inl hc
  | download call => exact knows_next (.download call) false fun _ hc => .inl hc
  | assemble m => exact fun _ hmem => .inl hmem

/-- A goroutine after a step of its `Put` that got to this point. -/
theorem knows_after_put {call : PutCall} {todo : List PutCall} {pc : PutPc}
    (hpc : PutKnows objects call pc)
    (h : ∀ c ∈ w.task.puts, c ∈ call :: todo ∨ objects c.hash ≠ none ∨ w.putFailed = true) :
    Writer.Knows objects (w.afterPut call todo pc) := by
  have hhead (hcall : objects call.hash ≠ none ∨ w.putFailed = true) :
      ∀ c ∈ w.task.puts, c ∈ todo ∨ objects c.hash ≠ none ∨ w.putFailed = true := by
    intro c hc
    rcases h c hc with hmem | hdone
    · rcases List.mem_cons.mp hmem with rfl | hmem
      · exact .inr hcall
      · exact .inl hmem
    · exact .inr hdone
  cases pc with
  | done result =>
      cases result with
      | ok => exact knows_next w.task w.putFailed (hhead (.inl hpc))
      | error err => exact knows_next w.task true fun _ _ => .inr (.inr rfl)
  | stat | writeFile | rename | remove => exact ⟨hpc, h⟩

theorem after_put_frame (w : Writer) (call : PutCall) (todo : List PutCall) (pc : PutPc) :
    (w.afterPut call todo pc).task = w.task ∧
      (w.putFailed = true → (w.afterPut call todo pc).putFailed = true) := by
  cases pc with
  | done result => cases result <;> exact ⟨rfl, fun h => by first | exact h | rfl⟩
  | stat | writeFile | rename | remove => exact ⟨rfl, fun h => h⟩

/-- What a step of a goroutine does to the node. -/
structure WriterMoves (s : Stores) (w : Writer) (s' : Stores) (w' : Writer) : Prop where
  keeps : ∀ hash, s.files.objects hash ≠ none → s'.files.objects hash ≠ none
  task : w'.task = w.task
  failed : w.putFailed = true → w'.putFailed = true
  knows : w'.Knows s'.files.objects
  index : s'.index = s.index ∨
    ∃ m commit, w.pc = .putMeta m ∧ s'.index = Daemon.putIgnored s.index m commit

variable (sha256) in
theorem writer_step_moves {s : Stores} (hw : w.Knows s.files.objects) (io : Io) :
    WriterMoves s w (writerStep sha256 s w io).1 (writerStep sha256 s w io).2 := by
  obtain ⟨task, pc, putFailed⟩ := w
  cases pc with
  | put call pc todo =>
      have hkeeps := put_step_keeps sha256 call io s.files pc
      have hknows := put_step_knows sha256 hw.1 io
      obtain ⟨htask, hfailed⟩ := after_put_frame ⟨task, .put call pc todo, putFailed⟩ call todo
        (putStep sha256 call io s.files pc).2
      refine ⟨hkeeps, htask, hfailed, ?_, .inl rfl⟩
      exact knows_after_put hknows fun c hc => (hw.2 c hc).imp_right (Or.imp_left (hkeeps _))
  | nextTS fileID chunks =>
      obtain ⟨htask, hchunks⟩ := hw
      refine ⟨fun _ h => h, rfl, fun h => h, ?_, .inl rfl⟩
      by_cases hfailed : putFailed = true
      · exact .inr ⟨hfailed, chunks, htask⟩
      · refine .inl fun hash hmem => ?_
        obtain ⟨chunk, hchunk, rfl⟩ := List.mem_map.mp hmem
        exact (hchunks chunk hchunk).resolve_right hfailed
  | read m todo =>
      cases todo with
      | nil =>
          refine ⟨fun _ h => h, rfl, fun h => h, .inl fun hash hmem => ?_, .inl rfl⟩
          exact (hw hash hmem).resolve_left List.not_mem_nil
      | cons hash todo =>
          cases io with
          | failed left => exact ⟨fun _ h => h, rfl, fun h => h, trivial, .inl rfl⟩
          | ok =>
              cases hobject : s.files.objects hash with
              | none =>
                  simp only [writerStep, Store.get, hobject]
                  exact ⟨fun _ h => h, rfl, fun h => h, trivial, .inl rfl⟩
              | some bytes =>
                  simp only [writerStep, Store.get, hobject]
                  refine ⟨fun _ h => h, rfl, fun h => h, fun other hmem => ?_, .inl rfl⟩
                  rcases hw other hmem with hmem | hpresent
                  · rcases List.mem_cons.mp hmem with rfl | hmem
                    · exact .inr (by simp [hobject])
                    · exact .inl hmem
                  · exact .inr hpresent
  | putMeta m => exact ⟨fun _ h => h, rfl, fun h => h, trivial, .inr ⟨m, commits io, rfl, rfl⟩⟩
  | ended => exact ⟨fun _ h => h, rfl, fun h => h, trivial, .inl rfl⟩

/-! ## Whole runs -/

/-- Every goroutine knows what it has to know, and every record has its chunks unless a goroutine
that indexed the file failed to put one. -/
structure WriteInv (s : Writers) : Prop where
  knows : ∀ w ∈ s.writers, w.Knows s.stores.files.objects
  records : ∀ fileID m, s.stores.index.getFileMeta fileID = some m →
    (∀ hash ∈ m.chunkHashes, s.stores.files.objects hash ≠ none) ∨
      ∃ w ∈ s.writers, w.putFailed = true ∧ ∃ chunks, w.task = .ingest fileID chunks

theorem write_step_inv {s s' : Writers} (hinv : WriteInv s) {event : WriteEvent}
    (hstep : writeStep sha256 s event = some s') : WriteInv s' := by
  cases event with
  | start task =>
      cases hstep
      refine ⟨fun w hw => ?_, fun fileID m hget => ?_⟩
      · rcases List.mem_append.mp hw with hw | hw
        · exact hinv.knows w hw
        · obtain rfl := List.mem_singleton.mp hw
          exact knows_start task
      · exact (hinv.records fileID m hget).imp_right fun ⟨w, hw, hrest⟩ =>
          ⟨w, List.mem_append_left _ hw, hrest⟩
  | step k io =>
      obtain ⟨w, hw, rfl⟩ := Option.map_eq_some_iff.mp hstep
      have hknows := hinv.knows w (List.mem_of_getElem? hw)
      have hmoves := writer_step_moves sha256 hknows io
      -- a goroutine that has failed is still there
      have hold (fileID : GoString) (old : Writer) (hmem : old ∈ s.writers)
          (hfailed : old.putFailed = true) (htask : ∃ chunks, old.task = .ingest fileID chunks) :
          ∃ w' ∈ s.writers.set k (writerStep sha256 s.stores w io).2, w'.putFailed = true ∧
            ∃ chunks, w'.task = .ingest fileID chunks := by
        rcases mem_set_or hw hmem (writerStep sha256 s.stores w io).2 with rfl | hmem
        · exact ⟨_, mem_set_new hw _, hmoves.failed hfailed, by rwa [hmoves.task]⟩
        · exact ⟨old, hmem, hfailed, htask⟩
      have hrecord (fileID : GoString) (m : FileMeta)
          (hget : s.stores.index.getFileMeta fileID = some m) :
          (∀ hash ∈ m.chunkHashes, (writerStep sha256 s.stores w io).1.files.objects hash ≠ none) ∨
            ∃ w' ∈ s.writers.set k (writerStep sha256 s.stores w io).2, w'.putFailed = true ∧
              ∃ chunks, w'.task = .ingest fileID chunks :=
        (hinv.records fileID m hget).imp
          (fun h hash hmem => hmoves.keeps hash (h hash hmem))
          fun ⟨old, hmem, hfailed, htask⟩ => hold fileID old hmem hfailed htask
      refine ⟨fun w' hw' => ?_, fun fileID found hget => ?_⟩
      · rcases List.mem_or_eq_of_mem_set hw' with hmem | rfl
        · exact (hinv.knows w' hmem).mono hmoves.keeps
        · exact hmoves.knows
      · rcases hmoves.index with hsame | ⟨m, commit, hpc, hput⟩
        · exact hrecord fileID found (hsame ▸ hget)
        · have hget : (Daemon.putIgnored s.stores.index m commit).getFileMeta fileID = some found :=
            hput ▸ hget
          rcases Daemon.put_ignored_cases s.stores.index m commit with hsame | ⟨-, -, hset⟩
          · exact hrecord fileID found (hsame ▸ hget)
          · rw [hset] at hget
            rcases BoltMetaStore.get_set_cases hget with ⟨rfl, rfl⟩ | hget
            · rw [Writer.Knows, hpc] at hknows
              exact hknows.imp (fun h hash hmem => hmoves.keeps hash (h hash hmem))
                fun ⟨hfailed, htask⟩ =>
                  hold m.fileID w (List.mem_of_getElem? hw) hfailed htask
            · exact hrecord fileID found hget
  | crash =>
      cases hstep
      refine ⟨fun w hw => ?_, fun fileID m hget => ?_⟩
      · obtain ⟨old, -, rfl⟩ := List.mem_map.mp hw
        trivial
      · exact (hinv.records fileID m hget).imp_right fun ⟨w, hw, hrest⟩ =>
          ⟨{ w with pc := .ended }, List.mem_map_of_mem hw, hrest⟩

/-- Whatever goroutines run on a node, however their steps interleave, whichever steps fail and
wherever the process crashes: every record of the index has all its chunks in the blob store, if
those of the first process did, unless a call that indexed the file had a `Put` return an error. -/
theorem records_have_chunks {files : CasFiles} {index : BoltMetaStore}
    (hstart : ∀ fileID m, index.getFileMeta fileID = some m →
      ∀ hash ∈ m.chunkHashes, files.objects hash ≠ none)
    {events : List WriteEvent} {s : Writers}
    (hrun : run (writeStep sha256) (.idle files index) events = some s) {fileID : GoString}
    {m : FileMeta} (hget : s.stores.index.getFileMeta fileID = some m) :
    (∀ hash ∈ m.chunkHashes, s.stores.files.objects hash ≠ none) ∨
      ∃ w ∈ s.writers, w.putFailed = true ∧ ∃ chunks, w.task = .ingest fileID chunks := by
  have hinv : WriteInv s := by
    refine Reachable.invariant ⟨events, hrun⟩ WriteInv ⟨?_, ?_⟩ fun _ _ _ hold hstep =>
      write_step_inv hold hstep
    · exact fun w hw => absurd hw List.not_mem_nil
    · exact fun fileID m hget => .inl (hstart fileID m hget)
  exact hinv.records fileID m hget

/-- The chunk of a file of one byte. -/
def oneChunk : Chunk := ⟨Hash.sample [1], 0, 1, 0, [1]⟩

/-- A file is indexed, the process crashes before its chunk is in place, and after the restart it is
indexed again. -/
def crashedIngest : List WriteEvent :=
  let task := WriteTask.ingest (ascii "a") [oneChunk]
  [.start task, .step 0 .ok, .step 0 .ok, .crash, .start task, .step 1 .ok, .step 1 .ok,
    .step 1 .ok, .step 1 .ok, .step 1 .ok, .step 1 .ok]

theorem records_have_chunks_after_crash : ∃ s m,
    run (writeStep Hash.sample) (.idle ⟨fun _ => none, fun _ => none⟩ .empty) crashedIngest =
        some s ∧
      s.stores.index.getFileMeta (ascii "a") = some m ∧ m.chunkHashes = [Hash.sample [1]] ∧
      ∀ hash ∈ m.chunkHashes, s.stores.files.objects hash ≠ none := by
  have hstart (fileID : GoString) (m : FileMeta)
      (hget : BoltMetaStore.empty.getFileMeta fileID = some m) :
      ∀ hash ∈ m.chunkHashes, (⟨fun _ => none, fun _ => none⟩ : CasFiles).objects hash ≠ none := by
    cases hget
  obtain ⟨s, hrun, hget, hwriters⟩ : ∃ s,
      run (writeStep Hash.sample) (.idle ⟨fun _ => none, fun _ => none⟩ .empty) crashedIngest =
          some s ∧
        s.stores.index.getFileMeta (ascii "a") =
          some (Daemon.fileMeta Hash.sample (ascii "a") [oneChunk] 1) ∧
        s.writers.map Writer.putFailed = [false, false] := ⟨_, rfl, by decide, by decide⟩
  refine ⟨s, _, hrun, hget, rfl, (records_have_chunks hstart hrun hget).resolve_right ?_⟩
  rintro ⟨w, hw, hfailed, -⟩
  have hmem := List.mem_map_of_mem (f := Writer.putFailed) hw
  rw [hwriters, hfailed] at hmem
  simp at hmem

/-! ## One goroutine alone -/

section Alone

variable (sha256)

/-- The steps of one goroutine with nothing beside it. -/
def solo (s : Stores) (w : Writer) (ios : List Io) : Stores × Writer :=
  ios.foldl (fun moved io => writerStep sha256 moved.1 moved.2 io) (s, w)

/-- With some answers of the file system, the goroutine alone gets from here to there. -/
def Solo (s : Stores) (w : Writer) (s' : Stores) (w' : Writer) : Prop :=
  ∃ ios, solo sha256 s w ios = (s', w')

variable {sha256}

theorem Solo.trans {s₁ s₂ s₃ : Stores} {w₁ w₂ w₃ : Writer} (h : Solo sha256 s₁ w₁ s₂ w₂)
    (h' : Solo sha256 s₂ w₂ s₃ w₃) : Solo sha256 s₁ w₁ s₃ w₃ := by
  obtain ⟨first, hfirst⟩ := h
  obtain ⟨second, hsecond⟩ := h'
  refine ⟨first ++ second, ?_⟩
  rw [solo, List.foldl_append]
  exact (congrArg (fun moved => solo sha256 moved.1 moved.2 second) hfirst).trans hsecond

variable (sha256)

/-- What the goroutine does alone, it does as one of the goroutines of the node. -/
theorem run_solo {s : Writers} {k : Nat} (hw : s.writers[k]? = some w) (ios : List Io) :
    run (writeStep sha256) s (ios.map (.step k)) =
      some ⟨(solo sha256 s.stores w ios).1, s.writers.set k (solo sha256 s.stores w ios).2⟩ := by
  induction ios generalizing s w with
  | nil =>
      have hsame : s.writers.set k w = s.writers := by
        obtain ⟨hk, rfl⟩ := List.getElem?_eq_some_iff.mp hw
        exact List.set_getElem_self hk
      show some s = some ⟨s.stores, s.writers.set k w⟩
      rw [hsame]
  | cons io ios ih =>
      let moved := writerStep sha256 s.stores w io
      have hstep : writeStep sha256 s (.step k io) = some ⟨moved.1, s.writers.set k moved.2⟩ := by
        rw [writeStep, hw, Option.map_some]
      have hnext : (s.writers.set k moved.2)[k]? = some moved.2 := by
        rw [List.getElem?_set_self (List.getElem?_eq_some_iff.mp hw).1]
      rw [List.map_cons, run_cons, hstep]
      show run (writeStep sha256) ⟨moved.1, s.writers.set k moved.2⟩ (ios.map (.step k)) = _
      rw [ih hnext, List.set_set]
      rfl

/-- One `Put`: the objects afterwards are those of `put` if the file system works, and those before
if it does not. -/
theorem solo_put (s : Stores) (task : WriteTask) (putFailed : Bool) (call : PutCall)
    (todo : List PutCall) (ok : Bool) : ∃ s' putFailed',
    Solo sha256 s ⟨task, .put call .stat todo, putFailed⟩ s' ⟨task, task.next todo, putFailed'⟩ ∧
      s'.index = s.index ∧ s'.clock = s.clock ∧ s'.files.objects =
        if ok then (put sha256 s.files.objects call.hash call.data).1 else s.files.objects := by
  -- the goroutine and the stores after these answers
  have hsolo (ios : List Io) (failed : Bool)
      (hwriter : (solo sha256 s ⟨task, .put call .stat todo, putFailed⟩ ios).2 =
        ⟨task, task.next todo, failed⟩) :
      Solo sha256 s ⟨task, .put call .stat todo, putFailed⟩
        (solo sha256 s ⟨task, .put call .stat todo, putFailed⟩ ios).1
        ⟨task, task.next todo, failed⟩ := ⟨ios, Prod.ext rfl hwriter⟩
  cases hobject : s.files.objects call.hash with
  | some bytes =>
      exact ⟨_, putFailed, hsolo [.ok] putFailed (by
        simp [solo, writerStep, putStep, hobject, Writer.afterPut]), by
        simp [solo, writerStep, putStep, hobject, put]⟩
  | none =>
      cases ok with
      | false =>
          exact ⟨_, true, hsolo [.ok, .failed []] true (by
            simp [solo, writerStep, putStep, hobject, Writer.afterPut]), by
            simp [solo, writerStep, putStep, hobject, Writer.afterPut]⟩
      | true =>
          by_cases hmatch : sha256 call.data = call.hash
          · exact ⟨_, putFailed, hsolo [.ok, .ok, .ok, .ok] putFailed (by
              simp [solo, writerStep, putStep, hobject, hmatch, Writer.afterPut]), by
              simp [solo, writerStep, putStep, hobject, hmatch, Writer.afterPut, put]⟩
          · exact ⟨_, true, hsolo [.ok, .ok, .ok] true (by
              simp [solo, writerStep, putStep, hobject, hmatch, Writer.afterPut]), by
              simp [solo, writerStep, putStep, hobject, hmatch, Writer.afterPut, put]⟩

/-- The loop over the chunks of a file. -/
theorem solo_chunks (fileID : GoString) (chunks : List Chunk) (io : Daemon.IndexAnswers)
    (rest : List Chunk) (i : Nat) (s : Stores) (putFailed : Bool) : ∃ s' putFailed',
    let task := WriteTask.ingest fileID chunks
    Solo sha256 s ⟨task, task.next (rest.map chunkCall), putFailed⟩ s'
        ⟨task, .nextTS fileID chunks, putFailed'⟩ ∧
      s'.index = s.index ∧ s'.clock = s.clock ∧
        s'.files.objects = Daemon.storeChunks sha256 io i s.files.objects rest := by
  induction rest generalizing i s putFailed with
  | nil => exact ⟨s, putFailed, ⟨[], rfl⟩, rfl, rfl, rfl⟩
  | cons chunk rest ih =>
      obtain ⟨mid, failed, hput, hindex, hclock, hobjects⟩ :=
        solo_put sha256 s (.ingest fileID chunks) putFailed (chunkCall chunk) (rest.map chunkCall)
          (io.putOk i)
      obtain ⟨s', failed', hrest, hindex', hclock', hobjects'⟩ := ih (i + 1) mid failed
      refine ⟨s', failed', hput.trans hrest, hindex'.trans hindex, hclock'.trans hclock, ?_⟩
      rw [hobjects', hobjects]
      rfl

theorem solo_ingest (d : Daemon) (fileID : GoString) (chunks : List Chunk)
    (io : Daemon.IndexAnswers) (s : Stores) (hobjects : s.files.objects = d.node.objects)
    (hindex : s.index = d.node.index) (hclock : s.clock = d.clock) : ∃ s' w',
    let task := WriteTask.ingest fileID chunks
    let indexed := (d.indexFile sha256 fileID chunks io).1
    Solo sha256 s ⟨task, task.start, false⟩ s' w' ∧
      s'.files.objects = indexed.node.objects ∧ s'.index = indexed.node.index ∧
      s'.clock = indexed.clock := by
  obtain ⟨mid, failed, hloop, hmidIndex, hmidClock, hmidObjects⟩ :=
    solo_chunks sha256 fileID chunks io chunks 0 s false
  let last : Io := if io.commit then .ok else .failed []
  have hcommit : commits last = io.commit := by
    cases hio : io.commit <;> simp [last, hio, commits]
  refine ⟨_, _, hloop.trans ⟨[.ok, last], rfl⟩, ?_, ?_, ?_⟩
  · show mid.files.objects = _
    rw [hmidObjects, hobjects]
    rfl
  · show Daemon.putIgnored mid.index _ (commits last) = _
    rw [hcommit, hmidIndex, hindex, hmidClock, hclock]
    rfl
  · show mid.clock + 1 = _
    rw [hmidClock, hclock]
    rfl

/-- Run alone, the steps of a goroutine that indexes a file are `indexFile`. -/
theorem ingest_alone (d : Daemon) (fileID : GoString) (chunks : List Chunk)
    (io : Daemon.IndexAnswers) (s : Writers) (hobjects : s.stores.files.objects = d.node.objects)
    (hindex : s.stores.index = d.node.index) (hclock : s.stores.clock = d.clock) :
    ∃ (ios : List Io) (s' : Writers),
    let indexed := (d.indexFile sha256 fileID chunks io).1
    run (writeStep sha256) s
        (.start (.ingest fileID chunks) :: ios.map (.step s.writers.length)) = some s' ∧
      s'.stores.files.objects = indexed.node.objects ∧ s'.stores.index = indexed.node.index ∧
      s'.stores.clock = indexed.clock := by
  obtain ⟨stores, w, ⟨ios, hsolo⟩, hstores⟩ :=
    solo_ingest sha256 d fileID chunks io s.stores hobjects hindex hclock
  let started : Writer :=
    ⟨.ingest fileID chunks, (WriteTask.ingest fileID chunks).start, false⟩
  have hnew : (s.writers ++ [started])[s.writers.length]? = some started := by
    rw [List.getElem?_append_right le_rfl, Nat.sub_self, List.getElem?_cons_zero]
  have hrun := run_solo sha256 (s := ⟨s.stores, s.writers ++ [started]⟩) hnew ios
  rw [show solo sha256 s.stores started ios = (stores, w) from hsolo] at hrun
  exact ⟨ios, _, run_cons_eq_some.mpr ⟨_, rfl, hrun⟩, hstores⟩

end Alone

end NuSync
