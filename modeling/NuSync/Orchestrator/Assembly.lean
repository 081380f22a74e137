import NuSync.Lib.System
import NuSync.Orchestrator.Pull

/-!
# Assembly, one system call at a time

The last part of `Engine.Pull` as steps between which time passes and others touch the file: mark
the path, create the file, set its length, write chunk after chunk, close it and store the
metadata. Run without interruption the steps are `assemble` and the index update
(`assembly_alone`); `AssemblyMoves.fills` says that the file on disk is the version being
assembled exactly when the last chunk is written.
-/

namespace NuSync.Orchestrator

open NuSync.Go NuSync.Lib NuSync.Store NuSync.Assembler

/-- Where a pull is in its assembly, with its live variables. `idle` keeps how the last pull that
came this far ended. -/
inductive AssemblyPc where
  | idle (last : Option (Except PullError Unit))
  | mark (m : FileMeta)
  | create (m : FileMeta)
  | truncate (m : FileMeta)
  | write (m : FileMeta) (i : Nat) (currentOffset : Int) (sparse : SparseFile) (hash : Hash)
      (hashes : List Hash)
  | close (m : FileMeta)
  | putMeta (m : FileMeta)

/-- What happens to the pull: it gets to its assembly with the metadata it fetched, or runs on
with the answers of the file system. -/
inductive AssemblyEvent where
  | start (m : FileMeta)
  | mark
  | create (ok : Bool)
  | truncate (ok : Bool)
  | write (read : Bool) (failed : Option Nat)
  | close (ok : Bool)
  | putMeta (commit : Bool)

/-- The loop is about to write its next chunk, or is at its end. -/
def nextWrite (m : FileMeta) (i : Nat) (currentOffset : Int) (sparse : SparseFile) :
    List Hash → AssemblyPc
  | [] => .close m
  | hash :: hashes => .write m i currentOffset sparse hash hashes

/-- One step at time `now`. A write goes to what is in the file at that moment. -/
def assemblyStep (fileID out : GoString) (now : Int) (node : Node) :
    AssemblyPc → AssemblyEvent → Option (Node × AssemblyPc)
  | .idle _, .start m => some (node, .mark m)
  | .mark m, .mark => some (node.markQuiet out now, .create m)
  | .create m, .create ok =>
      some (if ok then (node.setFile out (some []), .truncate m)
        else (node, .idle (some (.error .assembler))))
  | .truncate m, .truncate ok =>
      let totalSize := int64 m.sizeBytes
      let totalChunks := m.chunkHashes.length
      some (if ok = false ∨ totalSize < 0 then (node, .idle (some (.error .assembler)))
        else
          let bytes := resize 0 totalSize.toNat ((node.disk out).getD [])
          (node.setFile out (some bytes),
            nextWrite m 0 0 ⟨bytes, List.replicate totalChunks false, 0, totalChunks⟩
              m.chunkHashes))
  | .write m i currentOffset sparse hash hashes, .write read failed =>
      match if read then get node.objects hash else none with
      | none => some (node, .idle (some (.error (.chunkMissing hash))))
      | some data =>
          let file := { sparse with bytes := (node.disk out).getD [] }
          match file.writeChunk failed i currentOffset data with
          | (file, .error err) =>
              some (node.setFile out (some file.bytes),
                .idle (some (.error (.writeChunk i fileID err))))
          | (file, .ok ()) =>
              some (node.setFile out (some file.bytes),
                nextWrite m (i + 1) (addInt64 currentOffset data.length) file hashes)
  | .close m, .close ok =>
      some (node, if ok then .putMeta m else .idle (some (.error (.finalize out))))
  | .putMeta m, .putMeta commit =>
      match node.index.putFileMeta m commit with
      | .error err => some (node, .idle (some (.error (.saveMeta err))))
      | .ok index => some ({ node with index := index }, .idle (some (.ok ())))
  | _, _ => none

@[simp] theorem Node.set_file_disk (node : Node) (path : GoString) (file : Option Bytes) :
    (node.setFile path file).disk path = file := by
  simp only [Node.setFile, Function.update_self]

@[simp] theorem Node.set_file_objects (node : Node) (path : GoString) (file : Option Bytes) :
    (node.setFile path file).objects = node.objects := rfl

@[simp] theorem Node.set_file_set_file (node : Node) (path : GoString)
    (file file' : Option Bytes) :
    (node.setFile path file).setFile path file' = node.setFile path file' := by
  simp only [Node.setFile, Function.update_idem]

/-! ## Without interruption -/

section Alone

variable (fileID out : GoString) (now : Int)

/-- The steps on a node and the pull's place in it. -/
def assemblyRun (s : Node × AssemblyPc) (event : AssemblyEvent) : Option (Node × AssemblyPc) :=
  assemblyStep fileID out now s.1 s.2 event

/-- Where the loop leaves the pull. -/
def afterLoop (m : FileMeta) : Except PullError Unit → AssemblyPc
  | .ok () => .close m
  | .error err => .idle (some (.error err))

variable {fileID out now}

/-- The steps of the loop are `writeChunks`. -/
theorem writes_alone (node : Node) (io : DiskAnswers) (m : FileMeta) (i : Nat)
    (currentOffset : Int) (sparse : SparseFile) (hashes : List Hash) :
    let written := writeChunks node.objects io fileID i currentOffset sparse hashes
    Reachable (assemblyRun fileID out now)
      (node.setFile out (some sparse.bytes), nextWrite m i currentOffset sparse hashes)
      (node.setFile out (some written.1.bytes), afterLoop m written.2) := by
  induction hashes generalizing i currentOffset sparse with
  | nil => exact .refl _
  | cons hash hashes ih =>
      have hfile :
          { sparse with bytes := ((node.setFile out (some sparse.bytes)).disk out).getD [] } =
            sparse := by
        rw [Node.set_file_disk, Option.getD_some]
      simp only [writeChunks]
      cases hdata : if io.readChunk i then get node.objects hash else none with
      | none =>
          refine .head (.write (io.readChunk i) (io.writeChunk i)) ?_ (.refl _)
          simp only [assemblyRun, nextWrite, assemblyStep, Node.set_file_objects, hdata, afterLoop]
      | some data =>
          cases hwrite : sparse.writeChunk (io.writeChunk i) i currentOffset data with
          | mk file result =>
              simp only [hwrite]
              cases result with
              | error err =>
                  refine .head (.write (io.readChunk i) (io.writeChunk i)) ?_ (.refl _)
                  simp only [assemblyRun, nextWrite, assemblyStep, Node.set_file_objects, hdata,
                    hfile, hwrite, Node.set_file_set_file, afterLoop]
              | ok _ =>
                  refine .head (.write (io.readChunk i) (io.writeChunk i)) ?_ (ih (i + 1) _ file)
                  simp only [assemblyRun, nextWrite, assemblyStep, Node.set_file_objects, hdata,
                    hfile, hwrite, Node.set_file_set_file]

/-- Closing the file and storing the metadata is the rest of `finish`. -/
theorem close_alone (node : Node) (io : DiskAnswers) (m : FileMeta) :
    Reachable (assemblyRun fileID out now) (node, .close m)
      (if io.close then
        ((saveMeta io m node).1, .idle (some (saveMeta io m node).2))
      else (node, .idle (some (.error (.finalize out))))) := by
  cases hclose : io.close with
  | false =>
      refine ⟨[.close false], ?_⟩
      simp [assemblyRun, assemblyStep]
  | true =>
      refine ⟨[.close true, .putMeta io.commit], ?_⟩
      simp only [run_cons, run_nil, assemblyRun, assemblyStep, if_true, saveMeta,
        Option.bind_eq_bind, Option.bind_some]
      cases node.index.putFileMeta m io.commit with
      | error err => rfl
      | ok index => rfl

/-- The file that `NewSparseFile` opens. -/
def openedFile (m : FileMeta) : SparseFile :=
  ⟨resize 0 (int64 m.sizeBytes).toNat [], List.replicate m.chunkHashes.length false, 0,
    m.chunkHashes.length⟩

/-- Assembly once the file is open and has its length. -/
theorem assemble_opened {baseDir : GoString} {io : DiskAnswers} {m : FileMeta}
    (hmkdir : io.mkdirAll = true) (hcreate : io.create = true)
    (hlength : ¬ (io.truncate = false ∨ int64 m.sizeBytes < 0)) (node : Node) :
    let out := outPath baseDir fileID
    let written := writeChunks node.objects io fileID 0 0 (openedFile m) m.chunkHashes
    assemble baseDir fileID io m node =
      ((node.markQuiet out io.markedAt).setFile out (some written.1.bytes),
        written.2.bind fun _ => if io.close then .ok () else .error (.finalize out)) := by
  intro out written
  have hloop : writeChunks (node.markQuiet out io.markedAt).objects io fileID 0 0
      (openedFile m) m.chunkHashes = written := rfl
  obtain ⟨file, err | _⟩ := written <;>
    simp only [openedFile] at hloop <;>
    simp only [assemble, hmkdir, hcreate, newSparseFile, hlength, Bool.true_eq_false, if_false]
  · rw [hloop]
    rfl
  · rw [hloop]
    cases io.close <;> rfl

/-- Run alone, the steps are assembly and the index update of `Pull`. -/
theorem assembly_alone (baseDir : GoString) (env : PullEnv) (m : FileMeta) (node : Node)
    (hmkdir : env.io.mkdirAll = true) :
    let outcome := env.finish baseDir fileID m node
    Reachable (assemblyRun fileID (outPath baseDir fileID) env.io.markedAt) (node, .mark m)
      (outcome.node, .idle (some outcome.result)) := by
  intro outcome
  set out := outPath baseDir fileID with hout
  set marked := node.markQuiet out env.io.markedAt
  have hmark : assemblyRun fileID out env.io.markedAt (node, .mark m) .mark =
      some (marked, .create m) := rfl
  refine .head _ hmark ?_
  cases hcreate : env.io.create with
  | false =>
      refine ⟨[.create false], ?_⟩
      simp [outcome, PullEnv.finish, assemble, hmkdir, hcreate, newSparseFile, assemblyRun,
        assemblyStep, ← hout, Node.setFile, marked]
  | true =>
      have hcreated : assemblyRun fileID out env.io.markedAt (marked, .create m) (.create true) =
          some (marked.setFile out (some []), .truncate m) := rfl
      refine .head _ hcreated ?_
      by_cases hlength : env.io.truncate = false ∨ int64 m.sizeBytes < 0
      · refine ⟨[.truncate env.io.truncate], ?_⟩
        simp [outcome, PullEnv.finish, assemble, hmkdir, hcreate, newSparseFile, hlength,
          assemblyRun, assemblyStep, ← hout, marked]
      · have hopened : assemblyRun fileID out env.io.markedAt
            (marked.setFile out (some []), .truncate m) (.truncate env.io.truncate) =
            some (marked.setFile out (some (openedFile m).bytes),
              nextWrite m 0 0 (openedFile m) m.chunkHashes) := by
          simp [assemblyRun, assemblyStep, hlength, openedFile]
        refine .head _ hopened ((writes_alone marked env.io m 0 0 _ m.chunkHashes).trans ?_)
        simp only [outcome, PullEnv.finish, assemble_opened hmkdir hcreate hlength, ← hout]
        rw [show marked.objects = node.objects from rfl]
        rcases writeChunks node.objects env.io fileID 0 0 (openedFile m) m.chunkHashes with
          ⟨file, err | _⟩
        · exact .refl _
        · refine (close_alone _ env.io m).trans ?_
          cases env.io.close with
          | false => exact .refl _
          | true =>
              simp only [if_true, Except.bind]
              generalize saveMeta env.io m _ = saved
              obtain ⟨node, _ | _⟩ := saved <;> exact .refl _

end Alone

/-! ## What a step does -/

/-- The pull has opened the file and not written all its chunks. -/
def AssemblyPc.unfinished : AssemblyPc → Bool
  | .truncate _ | .write .. => true
  | _ => false

/-- What a step does: one of the seven that the pull makes if all goes well, or the pull ends with
an error, and with the file as it was unless it was writing it. -/
inductive AssemblyMoves (out : GoString) (now : Int) (node : Node) :
    AssemblyPc → AssemblyEvent → Node → AssemblyPc → Prop
  | start (last : Option (Except PullError Unit)) (m : FileMeta) :
      AssemblyMoves out now node (.idle last) (.start m) node (.mark m)
  | mark (m : FileMeta) :
      AssemblyMoves out now node (.mark m) .mark (node.markQuiet out now) (.create m)
  | create (m : FileMeta) :
      AssemblyMoves out now node (.create m) (.create true) (node.setFile out (some []))
        (.truncate m)
  | truncate (m : FileMeta) (sparse : SparseFile)
      (hbytes : sparse.bytes = resize 0 (int64 m.sizeBytes).toNat ((node.disk out).getD []))
      (htotal : sparse.total = m.chunkHashes.length)
      (hbits : ∀ j : Nat, sparse.bitmap[j]? ≠ some true) :
      AssemblyMoves out now node (.truncate m) (.truncate true)
        (node.setFile out (some sparse.bytes)) (nextWrite m 0 0 sparse m.chunkHashes)
  | write (m : FileMeta) (i : Nat) (currentOffset : Int) (sparse file : SparseFile) (hash : Hash)
      (hashes : List Hash) (data : Bytes) (failed : Option Nat)
      (hdata : node.objects hash = some data)
      (hfile : { sparse with bytes := (node.disk out).getD [] }.writeChunk failed i currentOffset
        data = (file, .ok ())) :
      AssemblyMoves out now node (.write m i currentOffset sparse hash hashes) (.write true failed)
        (node.setFile out (some file.bytes))
        (nextWrite m (i + 1) (addInt64 currentOffset data.length) file hashes)
  | close (m : FileMeta) : AssemblyMoves out now node (.close m) (.close true) node (.putMeta m)
  | store (m : FileMeta) (index : BoltMetaStore)
      (hput : node.index.putFileMeta m true = .ok index) :
      AssemblyMoves out now node (.putMeta m) (.putMeta true) { node with index := index }
        (.idle (some (.ok ())))
  | fail (pc : AssemblyPc) (event : AssemblyEvent) (file : Option Bytes) (err : PullError)
      (hevent : event ≠ .mark) (hfile : pc.unfinished = true ∨ file = node.disk out) :
      AssemblyMoves out now node pc event (node.setFile out file) (.idle (some (.error err)))

theorem Node.set_file_same (node : Node) (path : GoString) :
    node.setFile path (node.disk path) = node := by
  simp only [Node.setFile, Function.update_eq_self]

theorem assembly_step_moves {fileID out : GoString} {now : Int} {node node' : Node}
    {pc pc' : AssemblyPc} {event : AssemblyEvent}
    (h : assemblyStep fileID out now node pc event = some (node', pc')) :
    AssemblyMoves out now node pc event node' pc' := by
  -- a pull that ends with an error and does not write
  have hfail (pc : AssemblyPc) (event : AssemblyEvent) (err : PullError) (hevent : event ≠ .mark) :
      AssemblyMoves out now node pc event node (.idle (some (.error err))) := by
    have hmoves : AssemblyMoves out now node pc event (node.setFile out (node.disk out)) _ :=
      .fail pc event (node.disk out) err hevent (.inr rfl)
    rwa [Node.set_file_same] at hmoves
  unfold assemblyStep at h
  split at h
  · cases h
    exact .start _ _
  · cases h
    exact .mark _
  · next m ok =>
      cases ok <;> cases h
      · exact hfail _ _ _ nofun
      · exact .create m
  · next m ok =>
      dsimp only at h
      split_ifs at h with hlength <;> cases h
      · exact hfail _ _ _ nofun
      · have hok : ok = true := by simpa using (not_or.mp hlength).1
        subst hok
        have hbits (j : Nat) : (List.replicate m.chunkHashes.length false)[j]? ≠ some true := by
          rw [List.getElem?_replicate]
          split_ifs <;> simp
        exact .truncate m ⟨_, _, 0, m.chunkHashes.length⟩ rfl rfl hbits
  · next m i currentOffset sparse hash hashes read failed =>
      split at h
      · cases h
        exact hfail _ _ _ nofun
      · next data hdata =>
          cases read with
          | false => cases hdata
          | true =>
              dsimp only at h
              split at h
              · next file err hwrite =>
                  cases h
                  exact .fail _ _ _ _ nofun (.inl rfl)
              · next file hwrite =>
                  cases h
                  exact .write m i currentOffset sparse file hash hashes data failed hdata hwrite
  · next m ok =>
      cases ok <;> cases h
      · exact hfail _ _ _ nofun
      · exact .close m
  · next m commit =>
      split at h <;> cases h
      · exact hfail _ _ _ nofun
      · next index hput =>
          obtain ⟨-, rfl, -⟩ := BoltMetaStore.put_ok_iff.mp hput
          exact .store m index hput
  · cases h

/-! ## The version being assembled -/

/-- The file after the parts are written one after the other from an offset on, as the loop
counts it. -/
def writeParts : Bytes → Int → List Bytes → Bytes
  | bytes, _, [] => bytes
  | bytes, offset, data :: parts =>
      writeParts (writeAt 0 bytes offset.toNat data) (addInt64 offset data.length) parts

/-- The content is the version the metadata describes: chunks with its hashes, written into a file
of its size. -/
def IsVersion (sha256 : Bytes → Hash) (m : FileMeta) (content : Bytes) : Prop :=
  ∃ parts : List Bytes, parts.map sha256 = m.chunkHashes ∧
    content = writeParts (resize 0 (int64 m.sizeBytes).toNat []) 0 parts

/-- Parts that follow each other are written end to end. -/
theorem write_parts_eq (front parts : List Bytes) (zeros : Nat)
    (hlen : (front ++ parts).flatten.length < 2 ^ 63) :
    writeParts (front.flatten ++ List.replicate zeros 0) front.flatten.length parts =
      (front ++ parts).flatten ++ List.replicate (zeros - parts.flatten.length) 0 := by
  induction parts generalizing front zeros with
  | nil => simp [writeParts]
  | cons data parts ih =>
      have hsplit : front ++ data :: parts = (front ++ [data]) ++ parts := by simp
      have hflat : (front ++ [data]).flatten = front.flatten ++ data := by simp
      have hbound : front.flatten.length + data.length < 2 ^ 63 := by
        rw [hsplit, List.flatten_append, hflat, List.length_append, List.length_append] at hlen
        omega
      have hoffset := add_int64_nat (a := front.flatten.length) (b := data.length) (by omega)
        (by omega)
      rw [if_pos hbound] at hoffset
      rw [writeParts, Int.toNat_natCast, write_at_fill, hoffset, hsplit, ← hflat,
        ← List.length_append, ← hflat, ih _ _ (hsplit ▸ hlen), List.flatten_cons,
        List.length_append, Nat.sub_sub]

/-- If the metadata has the size of its chunks, a version is the chunks end to end. -/
theorem is_version_content {sha256 : Bytes → Hash} {m : FileMeta} {content : Bytes}
    (h : IsVersion sha256 m content) :
    ∃ parts : List Bytes, parts.map sha256 = m.chunkHashes ∧
      (parts.flatten.length = m.sizeBytes.toNat → m.sizeBytes.toNat < 2 ^ 63 →
        content = parts.flatten) := by
  obtain ⟨parts, hparts, rfl⟩ := h
  refine ⟨parts, hparts, fun hsize hlt => ?_⟩
  rw [int64_of_lt hlt, ← hsize, Int.toNat_natCast, resize_nil]
  simpa using write_parts_eq [] parts parts.flatten.length (by simpa [hsize] using hlt)

/-- The file of a pull at this place: it is empty, the rest of the loop will make it the version,
or it is the version. -/
def Fills (sha256 : Bytes → Hash) (file : Option Bytes) : AssemblyPc → Prop
  | .truncate _ => file = some []
  | .write m i currentOffset sparse hash hashes =>
      sparse.total = i + (hash :: hashes).length ∧ (∀ j, i ≤ j → sparse.bitmap[j]? ≠ some true) ∧
        ∃ bytes, file = some bytes ∧ ∀ parts, parts.map sha256 = hash :: hashes →
          IsVersion sha256 m (writeParts bytes currentOffset parts)
  | .close m => ∃ bytes, file = some bytes ∧ IsVersion sha256 m bytes
  | _ => True

/-- The metadata by which the pull fills the file it has opened. -/
def AssemblyPc.version : AssemblyPc → Option FileMeta
  | .truncate m | .write m .. | .close m | .putMeta m => some m
  | _ => none

section Fills

variable {sha256 : Bytes → Hash} {fileID out : GoString} {now : Int} {node node' : Node}
  {pc pc' : AssemblyPc} {event : AssemblyEvent}

@[simp] theorem version_next_write (m : FileMeta) (i : Nat) (currentOffset : Int)
    (sparse : SparseFile) (hashes : List Hash) :
    (nextWrite m i currentOffset sparse hashes).version = some m := by
  cases hashes <;> rfl

/-- A step never touches the blob store, and the index only when it stores the metadata. -/
theorem AssemblyMoves.frame (h : AssemblyMoves out now node pc event node' pc') :
    node'.objects = node.objects ∧
      (node'.index = node.index ∨ ∃ commit, event = .putMeta commit) := by
  cases h with
  | store => exact ⟨rfl, .inr ⟨true, rfl⟩⟩
  | _ => exact ⟨rfl, .inl rfl⟩

/-- The file stays as it is unless the pull has it open. -/
theorem AssemblyMoves.disk_eq (h : AssemblyMoves out now node pc event node' pc')
    (hpc : pc.unfinished = false) (hpc' : pc'.unfinished = false) :
    node'.disk out = node.disk out := by
  cases h with
  | create => cases hpc'
  | truncate | write => cases hpc
  | fail pc event file err hevent hfile =>
      rw [Node.set_file_disk]
      exact hfile.resolve_left (by simp [hpc])
  | start | mark | close | store => rfl

theorem fills_next_write {m : FileMeta} {i : Nat} {currentOffset : Int} {sparse : SparseFile}
    {hashes : List Hash} {bytes : Bytes} (htotal : sparse.total = i + hashes.length)
    (hbits : ∀ j, i ≤ j → sparse.bitmap[j]? ≠ some true)
    (hrest : ∀ parts, parts.map sha256 = hashes →
      IsVersion sha256 m (writeParts bytes currentOffset parts)) :
    Fills sha256 (some bytes) (nextWrite m i currentOffset sparse hashes) := by
  cases hashes with
  | nil => exact ⟨bytes, rfl, hrest [] rfl⟩
  | cons hash hashes => exact ⟨htotal, hbits, bytes, rfl, hrest⟩

/-- **The file is the version once the loop is through.** Every step keeps this, as long as nobody
else writes the file. -/
theorem AssemblyMoves.fills (h : AssemblyMoves out now node pc event node' pc')
    (hvalid : ValidObjects sha256 node.objects) (hfills : Fills sha256 (node.disk out) pc) :
    Fills sha256 (node'.disk out) pc' := by
  cases h with
  | create m => exact Node.set_file_disk node out (some [])
  | truncate m sparse hbytes htotal hbits =>
      rw [Node.set_file_disk, hbytes, hfills, Option.getD_some]
      exact fills_next_write (by simpa using htotal) (fun j _ => hbits j)
        fun parts hparts => ⟨parts, hparts, rfl⟩
  | write m i currentOffset sparse file hash hashes data failed hdata hfile =>
      obtain ⟨htotal, hbits, bytes, hbytes, hrest⟩ := hfills
      rw [write_chunk_fresh (s := { sparse with bytes := (node.disk out).getD [] })
        (by simp [htotal]) (hbits i le_rfl), hbytes, Option.getD_some] at hfile
      split_ifs at hfile with hoffset
      · cases hfile
      · cases failed with
        | some written => cases hfile
        | none =>
            cases hfile
            rw [Node.set_file_disk]
            refine fills_next_write ?_ (fun j hj => ?_) fun parts hparts => ?_
            · simp only [htotal, List.length_cons]
              omega
            · rw [List.getElem?_set_ne (by omega)]
              exact hbits j (by omega)
            · refine hrest (data :: parts) ?_
              rw [List.map_cons, hvalid hash data hdata, hparts]
  | start | mark | close | store | fail => trivial

end Fills

end NuSync.Orchestrator
