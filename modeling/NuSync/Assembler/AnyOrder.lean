import NuSync.Assembler
import NuSync.Store.Cas

/-!
# Sparse and plain assembly

`internal/assembler/assembler.go` writes the chunks of a file one after the other. A `SparseFile`
takes them in any order, more than once, and goes on after a write that failed half-way.
`sparse_assembly_eq_assemble` says that the two leave the same bytes. The invariant is `Assembling`:
the file is a row of regions, one for each chunk and as long as it, and where a bit is set the
region is the chunk.
-/

namespace NuSync.Assembler

open NuSync.Go NuSync.Lib NuSync.Store

/-! ## Plain assembly -/

/-- The answers of the file system to `Assemble`: whether the destination can be created, whether
the file of the chunk at an index can be opened, and how many bytes a copy that fails gets to
disk. -/
structure AssembleAnswers where
  create : Bool
  getFile : Nat → Bool
  copy : Nat → Option Nat

/-- A file system on which everything succeeds. -/
def AssembleAnswers.allOk : AssembleAnswers := ⟨true, fun _ => true, fun _ => none⟩

/-- The errors of `Assemble`. -/
inductive AssembleError where
  | createFailed
  | missingChunk (i : Nat) (hash : Hash)
  | writeFailed (i : Nat)
  deriving DecidableEq

section Assemble

variable (objects : Hash → Option Bytes) (io : AssembleAnswers)

/-- The loop of `Assemble` from chunk `i`, with what is in the destination so far. -/
def copyChunks : Nat → Bytes → List Hash → Bytes × Except AssembleError Unit
  | _, out, [] => (out, .ok ())
  | i, out, hash :: hashes =>
      match if io.getFile i then get objects hash else none with
      | none => (out, .error (.missingChunk i hash))
      | some data =>
          match io.copy i with
          | some written => (out ++ data.take written, .error (.writeFailed i))
          | none => copyChunks (i + 1) (out ++ data) hashes

/-- `Assemble`: the destination afterwards and the result. -/
def assemble (old : Option Bytes) (chunkHashes : List Hash) :
    Option Bytes × Except AssembleError Unit :=
  if io.create = false then (old, .error .createFailed)
  else
    let (out, result) := copyChunks objects io 0 [] chunkHashes
    (some out, result)

/-- The bytes of the chunks. -/
def chunkData (hashes : List Hash) : List Bytes := hashes.map fun hash => (objects hash).getD []

end Assemble

/-- Without faults `Assemble` writes the chunks one after the other. -/
theorem copy_chunks_ok {objects : Hash → Option Bytes} {hashes : List Hash}
    (hpresent : ∀ hash ∈ hashes, objects hash ≠ none) (i : Nat) (out : Bytes) :
    copyChunks objects .allOk i out hashes =
      (out ++ (chunkData objects hashes).flatten, .ok ()) := by
  induction hashes generalizing i out with
  | nil => simp [copyChunks, chunkData]
  | cons hash hashes ih =>
      obtain ⟨data, hdata⟩ := Option.ne_none_iff_exists'.mp (hpresent hash List.mem_cons_self)
      have hrest := ih fun other hother => hpresent other (List.mem_cons_of_mem hash hother)
      simp [copyChunks, AssembleAnswers.allOk, Store.get, hdata, chunkData] at hrest ⊢
      rw [hrest, List.append_assoc]

/-! ## Sparse assembly -/

/-- A call of `WriteChunk`; `failed` is the number of bytes it gets to disk if it fails. -/
structure WriteCall where
  chunkIndex : Int
  offset : Int
  data : Bytes
  failed : Option Nat

/-- What the call does. -/
def WriteCall.on (call : WriteCall) (s : SparseFile) : SparseFile × Except WriteError Unit :=
  s.writeChunk call.failed call.chunkIndex call.offset call.data

/-- The file after some calls. -/
def writeAll (s : SparseFile) (calls : List WriteCall) : SparseFile :=
  calls.foldl (fun s call => (call.on s).1) s

/-- One of the calls was for this index and returned without error. -/
def Succeeds : SparseFile → List WriteCall → Nat → Prop
  | _, [], _ => False
  | s, call :: calls, i =>
      (call.chunkIndex = i ∧ (call.on s).2 = .ok ()) ∨ Succeeds (call.on s).1 calls i

/-- A call whose index is in range has the chunk at that index and its offset in the file. -/
def WriteCall.Fits (chunks : List Bytes) (call : WriteCall) : Prop :=
  ∀ chunk ∈ chunks[call.chunkIndex.toNat]?, 0 ≤ call.chunkIndex →
    call.offset = ((chunks.take call.chunkIndex.toNat).flatten.length : Int) ∧ call.data = chunk

instance (chunks : List Bytes) (call : WriteCall) : Decidable (call.Fits chunks) :=
  inferInstanceAs (Decidable (∀ chunk ∈ chunks[call.chunkIndex.toNat]?, _ → _))

/-- A file into which these chunks are being written: a row of regions as long as the chunks, and
where a bit is set the region is the chunk. -/
structure Assembling (chunks : List Bytes) (s : SparseFile) : Prop where
  total : s.total = chunks.length
  bits : s.bitmap.length = chunks.length
  done : s.chunksDone = s.bitmap.count true
  regions : ∃ regions : List Bytes, regions.map List.length = chunks.map List.length ∧
    s.bytes = regions.flatten ∧ ∀ i : Nat, s.bitmap[i]? = some true → regions[i]? = chunks[i]?

variable {chunks : List Bytes} {s : SparseFile} {call : WriteCall}

/-- A new file is ready to take the chunks. -/
theorem assembling_new (chunks : List Bytes) :
    Assembling chunks (partlyWritten [] chunks.length chunks.flatten.length) where
  total := by simp [partlyWritten]
  bits := by simp [partlyWritten]
  done := by simp [partlyWritten, List.count_replicate]
  regions := by
    refine ⟨chunks.map fun chunk => List.replicate chunk.length 0, by simp, ?_, ?_⟩
    · show List.replicate chunks.flatten.length 0 = _
      refine (List.eq_replicate_iff.mpr ⟨by simp [Function.comp_def], ?_⟩).symm
      intro b hb
      obtain ⟨region, hregion, hmem⟩ := List.mem_flatten.mp hb
      obtain ⟨chunk, -, rfl⟩ := List.mem_map.mp hregion
      exact List.eq_of_mem_replicate hmem
    · intro i hbit
      simp [partlyWritten, List.getElem?_replicate] at hbit

/-- Writing at the offset of a chunk, and not more than its length, changes its region only. -/
theorem write_at_chunk {regions : List Bytes}
    (hlengths : regions.map List.length = chunks.map List.length) {i : Nat} {region data : Bytes}
    (hregion : regions[i]? = some region) (hdata : data.length ≤ region.length) :
    writeAt 0 regions.flatten (chunks.take i).flatten.length data =
      (regions.set i (data ++ region.drop data.length)).flatten := by
  obtain ⟨hi, rfl⟩ := List.getElem?_eq_some_iff.mp hregion
  have hoffset : (chunks.take i).flatten.length = (regions.take i).flatten.length := by
    rw [List.length_flatten, List.length_flatten, List.map_take, List.map_take, hlengths]
  have hsplit : regions.flatten =
      (regions.take i).flatten ++ (regions[i] ++ (regions.drop (i + 1)).flatten) := by
    rw [← List.flatten_cons, ← List.flatten_append, List.getElem_cons_drop, List.take_append_drop]
  rw [hoffset, hsplit, write_at_region 0 _ _ hdata, List.set_eq_take_append_cons_drop, if_pos hi]
  simp

/-- A call for an index in range whose bit is set does nothing. -/
theorem write_chunk_again {i : Nat} (hi : i < s.total) (hbit : s.bitmap[i]? = some true)
    (failed : Option Nat) (offset : Int) (data : Bytes) :
    s.writeChunk failed i offset data = (s, .ok ()) := by
  have hbounds : ¬ ((i : Int) < 0 ∨ (s.total : Int) ≤ i) := by omega
  simp only [SparseFile.writeChunk, hbounds, if_false, Int.toNat_natCast, hbit, if_true]

/-- The region of a chunk is as long as the chunk. -/
theorem exists_region {regions : List Bytes}
    (hlengths : regions.map List.length = chunks.map List.length) {i : Nat} {chunk : Bytes}
    (hchunk : chunks[i]? = some chunk) :
    ∃ region, regions[i]? = some region ∧ region.length = chunk.length := by
  have hat := congrArg (fun lengths => lengths[i]?) hlengths
  simpa [hchunk] using hat

/-- A region may be replaced by another one of its length. -/
theorem lengths_set {regions : List Bytes}
    (hlengths : regions.map List.length = chunks.map List.length) {i : Nat} {region new : Bytes}
    (hregion : regions[i]? = some region) (hnew : new.length = region.length) :
    (regions.set i new).map List.length = chunks.map List.length := by
  obtain ⟨hi, rfl⟩ := List.getElem?_eq_some_iff.mp hregion
  have hsame : (regions.map List.length).set i regions[i].length = regions.map List.length := by
    rw [← List.map_set, List.set_getElem_self]
  rw [List.map_set, hnew, hsame, hlengths]

/-- A write that fails half-way spoils no region whose bit is set. -/
theorem Assembling.write_part (h : Assembling chunks s) {i : Nat} {chunk : Bytes}
    (hchunk : chunks[i]? = some chunk) (hbit : s.bitmap[i]? ≠ some true) {data : Bytes}
    (hdata : data.length ≤ chunk.length) :
    Assembling chunks
      { s with bytes := writeAt 0 s.bytes (chunks.take i).flatten.length data } := by
  obtain ⟨htotal, hbits, hdone, regions, hlengths, hbytes, hwritten⟩ := h
  obtain ⟨region, hregion, hlength⟩ := exists_region hlengths hchunk
  have hfits : data.length ≤ region.length := by omega
  refine ⟨htotal, hbits, hdone, regions.set i (data ++ region.drop data.length), ?_, ?_, ?_⟩
  · exact lengths_set hlengths hregion (by simp; omega)
  · rw [hbytes, write_at_chunk hlengths hregion hfits]
  · intro j hj
    have hne : i ≠ j := by
      rintro rfl
      exact hbit hj
    rw [List.getElem?_set_ne hne]
    exact hwritten j hj

/-- A write that succeeds makes the region the chunk, and its bit is set. -/
theorem Assembling.write_whole (h : Assembling chunks s) {i : Nat} {chunk : Bytes}
    (hchunk : chunks[i]? = some chunk) (hbit : s.bitmap[i]? ≠ some true) :
    Assembling chunks
      { s with
        bytes := writeAt 0 s.bytes (chunks.take i).flatten.length chunk
        bitmap := s.bitmap.set i true
        chunksDone := s.chunksDone + 1 } := by
  obtain ⟨htotal, hbits, hdone, regions, hlengths, hbytes, hwritten⟩ := h
  obtain ⟨region, hregion, hlength⟩ := exists_region hlengths hchunk
  have hdrop : region.drop chunk.length = [] := List.drop_eq_nil_of_le (by omega)
  have hi : i < s.bitmap.length := by
    rw [hbits]
    exact (List.getElem?_eq_some_iff.mp hchunk).1
  have hclear : s.bitmap[i] = false := by
    rw [List.getElem?_eq_getElem hi] at hbit
    simpa using hbit
  refine ⟨htotal, by simpa using hbits, ?_, regions.set i chunk, ?_, ?_, ?_⟩
  · show s.chunksDone + 1 = (s.bitmap.set i true).count true
    rw [List.count_set hi, hclear, hdone]
    rfl
  · exact lengths_set hlengths hregion hlength.symm
  · rw [hbytes, write_at_chunk hlengths hregion (by omega), hdrop, List.append_nil]
  · intro j hj
    by_cases hij : i = j
    · subst hij
      have hlt : i < regions.length := (List.getElem?_eq_some_iff.mp hregion).1
      rw [List.getElem?_set_self hlt, hchunk]
    · rw [List.getElem?_set_ne hij] at hj ⊢
      exact hwritten j hj

/-- **One call** keeps the invariant, and afterwards a bit is set exactly if it was set or the call
was for it and returned without error. -/
theorem Assembling.one_call (h : Assembling chunks s) (hfits : call.Fits chunks) :
    Assembling chunks (call.on s).1 ∧ ∀ i < chunks.length,
      ((call.on s).1.bitmap[i]? = some true ↔
        s.bitmap[i]? = some true ∨ call.chunkIndex = i ∧ (call.on s).2 = .ok ()) := by
  obtain ⟨chunkIndex, offset, data, failed⟩ := call
  by_cases hrange : 0 ≤ chunkIndex ∧ chunkIndex < chunks.length
  · obtain ⟨hnonneg, hlt⟩ := hrange
    obtain ⟨n, rfl⟩ := Int.eq_ofNat_of_zero_le hnonneg
    have hn : n < chunks.length := by omega
    have hchunk : chunks[n]? = some chunks[n] := List.getElem?_eq_getElem hn
    obtain ⟨hoffset, hdata⟩ : offset = ((chunks.take n).flatten.length : Int) ∧ data = chunks[n] :=
      hfits _ hchunk hnonneg
    subst hoffset hdata
    by_cases hbit : s.bitmap[n]? = some true
    · have hon : WriteCall.on ⟨n, ((chunks.take n).flatten.length : Int), chunks[n], failed⟩ s =
          (s, .ok ()) := write_chunk_again (by rw [h.total]; exact hn) hbit failed _ _
      rw [hon]
      refine ⟨h, fun i hi => ⟨.inl, ?_⟩⟩
      rintro (hset | ⟨hindex, -⟩)
      · exact hset
      · obtain rfl : n = i := by simpa using hindex
        exact hbit
    · have hon := write_chunk_fresh (by rw [h.total]; exact hn) hbit failed
        ((chunks.take n).flatten.length : Int) chunks[n]
      rw [if_neg (by omega), Int.toNat_natCast] at hon
      cases failed with
      | some written =>
          have hon' : WriteCall.on ⟨n, _, chunks[n], some written⟩ s = _ := hon
          rw [hon']
          refine ⟨h.write_part hchunk hbit (by simp), fun i hi => ?_⟩
          simp
      | none =>
          have hon' : WriteCall.on ⟨n, _, chunks[n], none⟩ s = _ := hon
          rw [hon']
          refine ⟨h.write_whole hchunk hbit, fun i hi => ?_⟩
          by_cases hni : n = i
          · subst hni
            simp [h.bits, hn]
          · simp [List.getElem?_set_ne hni, hni]
  · have hout : chunkIndex < 0 ∨ (s.total : Int) ≤ chunkIndex := by
      rw [h.total]
      omega
    have hon : WriteCall.on ⟨chunkIndex, offset, data, failed⟩ s = (s, .error .outOfBounds) := by
      simp only [WriteCall.on, SparseFile.writeChunk, hout, if_true]
    rw [hon]
    exact ⟨h, fun i _ => by simp⟩

/-- **Any calls** keep the invariant, and a bit is set afterwards exactly if it was set or one of
them succeeded for it. -/
theorem Assembling.all_calls {calls : List WriteCall} (h : Assembling chunks s)
    (hfits : ∀ call ∈ calls, call.Fits chunks) :
    Assembling chunks (writeAll s calls) ∧ ∀ i < chunks.length,
      ((writeAll s calls).bitmap[i]? = some true ↔
        s.bitmap[i]? = some true ∨ Succeeds s calls i) := by
  induction calls generalizing s with
  | nil => exact ⟨h, fun i _ => by simp [writeAll, Succeeds]⟩
  | cons call calls ih =>
      obtain ⟨hcall, hbit⟩ := h.one_call (hfits call List.mem_cons_self)
      obtain ⟨hcalls, hbits⟩ := ih hcall fun later hlater =>
        hfits later (List.mem_cons_of_mem call hlater)
      refine ⟨hcalls, fun i hi => ?_⟩
      show (writeAll (call.on s).1 calls).bitmap[i]? = some true ↔ _
      rw [hbits i hi, hbit i hi, Succeeds, or_assoc]

/-- The file is complete exactly if all bits are set. -/
theorem Assembling.is_complete_iff (h : Assembling chunks s) :
    s.isComplete = true ↔ ∀ i < chunks.length, s.bitmap[i]? = some true := by
  rw [SparseFile.isComplete, beq_iff_eq, h.done, h.total, ← h.bits, List.count_eq_length]
  constructor
  · intro hall i hi
    rw [List.getElem?_eq_getElem hi, ← hall _ (List.getElem_mem hi)]
  · intro hall b hb
    obtain ⟨i, hi, rfl⟩ := List.getElem_of_mem hb
    have hset := hall i hi
    rw [List.getElem?_eq_getElem hi] at hset
    exact (Option.some.inj hset).symm

/-- A complete file is the chunks one after the other. -/
theorem Assembling.bytes_eq (h : Assembling chunks s) (hcomplete : s.isComplete = true) :
    s.bytes = chunks.flatten := by
  obtain ⟨regions, hlengths, hbytes, hwritten⟩ := h.regions
  have hall := h.is_complete_iff.mp hcomplete
  have hsame : regions = chunks := by
    refine List.ext_getElem? fun i => ?_
    by_cases hi : i < chunks.length
    · exact hwritten i (hall i hi)
    · have hlength := congrArg List.length hlengths
      simp only [List.length_map] at hlength
      rw [List.getElem?_eq_none (by omega), List.getElem?_eq_none (by omega)]
  rw [hbytes, hsame]

/-- **Sparse assembly equals plain assembly in any order.** A new file has room for all chunks.
After any calls the counter is the number of bits that are set; the file is complete exactly if
every index has had a call that succeeded, and then it holds what `Assemble` writes, whatever was
there before. -/
theorem sparse_assembly_eq_assemble {objects : Hash → Option Bytes} {hashes : List Hash}
    (hpresent : ∀ hash ∈ hashes, objects hash ≠ none) (old : Option Bytes)
    {calls : List WriteCall} (hcalls : ∀ call ∈ calls, call.Fits (chunkData objects hashes)) :
    ∃ start, newSparseFile old true true ((chunkData objects hashes).flatten.length : Int)
        hashes.length = (some start.bytes, some start) ∧
      (writeAll start calls).chunksDone = (writeAll start calls).bitmap.count true ∧
      ((writeAll start calls).isComplete = true ↔ ∀ i < hashes.length, Succeeds start calls i) ∧
      ((writeAll start calls).isComplete = true →
        assemble objects .allOk old hashes = (some (writeAll start calls).bytes, .ok ())) := by
  have hlength : (chunkData objects hashes).length = hashes.length := by simp [chunkData]
  have hstart := assembling_new (chunkData objects hashes)
  obtain ⟨hfinal, hbits⟩ := hstart.all_calls hcalls
  rw [hlength] at hstart hfinal hbits
  refine ⟨partlyWritten [] hashes.length (chunkData objects hashes).flatten.length, ?_,
    hfinal.done, ?_, ?_⟩
  · rw [new_sparse_file_ok old (by omega), Int.toNat_natCast]
    rfl
  · rw [hfinal.is_complete_iff, hlength]
    refine forall₂_congr fun i hi => (hbits i hi).trans (or_iff_right ?_)
    simp [partlyWritten, List.getElem?_replicate]
  · intro hcomplete
    rw [hfinal.bytes_eq hcomplete, assemble, copy_chunks_ok hpresent]
    simp [AssembleAnswers.allOk]

/-- A store with two chunks. -/
def twoChunks (hash : Hash) : Option Bytes :=
  if hash = .sample [1, 2] then some [1, 2] else if hash = .sample [3] then some [3] else none

/-- The second chunk first, one index that is out of range, a write of the first chunk that fails
after one byte, and then both again. -/
def outOfOrder : List WriteCall :=
  [⟨1, 2, [3], none⟩, ⟨5, 9, [9], none⟩, ⟨0, 0, [1, 2], some 1⟩, ⟨1, 2, [3], none⟩,
    ⟨0, 0, [1, 2], none⟩]

theorem sparse_assembly_out_of_order :
    ∃ start, newSparseFile (some [7, 7, 7, 7]) true true 3 2 = (some start.bytes, some start) ∧
      (writeAll start outOfOrder).isComplete = true ∧
      assemble twoChunks .allOk (some [7, 7, 7, 7]) [.sample [1, 2], .sample [3]] =
        (some (writeAll start outOfOrder).bytes, .ok ()) := by
  have hpresent : ∀ hash ∈ [Hash.sample [1, 2], .sample [3]], twoChunks hash ≠ none := by decide
  have hcalls : ∀ call ∈ outOfOrder,
      call.Fits (chunkData twoChunks [.sample [1, 2], .sample [3]]) := by decide
  obtain ⟨start, hnew, -, -, hequal⟩ :=
    sparse_assembly_eq_assemble hpresent (some [7, 7, 7, 7]) hcalls
  have hcomplete : (writeAll start outOfOrder).isComplete = true := by
    obtain ⟨-, hstart⟩ := Prod.mk.inj hnew
    rw [← Option.some.inj hstart]
    decide
  exact ⟨start, hnew, hcomplete, hequal hcomplete⟩

end NuSync.Assembler
