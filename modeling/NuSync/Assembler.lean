import NuSync.Go.Bytes
import NuSync.Lib.FileBytes

/-!
# Sparse assembly

`internal/assembler/sparse.go`: a destination file that is created, set to its final length and
then filled chunk by chunk. The file system may fail any call, so each call takes its answer as
an argument; a failed write may have written some of its bytes. `write_chunk_next` is the rule
the assembly loop of `Pull` runs by.
-/

namespace NuSync.Assembler

open NuSync.Go NuSync.Lib

/-- `assembler.SparseFile`; `bytes` is the content of the open file. -/
structure SparseFile where
  bytes : Bytes
  bitmap : List Bool
  chunksDone : Nat
  total : Nat
  deriving DecidableEq

/-- `NewSparseFile`. The first component is the destination afterwards: `os.Create` empties it
before `Truncate` sets its length, which fails for a negative one. -/
def newSparseFile (old : Option Bytes) (create truncate : Bool) (totalSize : Int)
    (totalChunks : Nat) : Option Bytes × Option SparseFile :=
  if create = false then (old, none)
  else if truncate = false ∨ totalSize < 0 then (some [], none)
  else
    let bytes := resize 0 totalSize.toNat []
    (some bytes, some ⟨bytes, List.replicate totalChunks false, 0, totalChunks⟩)

/-- The errors of `WriteChunk`. -/
inductive WriteError where
  | outOfBounds
  | negativeOffset
  | writeFailed
  deriving DecidableEq

/-- `SparseFile.WriteChunk`; `failed` is the number of bytes a failing write gets to disk. -/
def SparseFile.writeChunk (s : SparseFile) (failed : Option Nat) (chunkIndex : Int)
    (offset : Int) (data : Bytes) : SparseFile × Except WriteError Unit :=
  if chunkIndex < 0 ∨ (s.total : Int) ≤ chunkIndex then (s, .error .outOfBounds)
  else if s.bitmap[chunkIndex.toNat]? = some true then (s, .ok ())
  else if offset < 0 then (s, .error .negativeOffset)
  else
    match failed with
    | some written =>
        ({ s with bytes := writeAt 0 s.bytes offset.toNat (data.take written) },
          .error .writeFailed)
    | none =>
        ({ s with
            bytes := writeAt 0 s.bytes offset.toNat data
            bitmap := s.bitmap.set chunkIndex.toNat true
            chunksDone := s.chunksDone + 1 }, .ok ())

/-- `SparseFile.IsComplete`. -/
def SparseFile.isComplete (s : SparseFile) : Bool := s.chunksDone == s.total

/-- `WriteChunk` on an index in range whose bit is not set. -/
theorem write_chunk_fresh {s : SparseFile} {i : Nat} (hi : i < s.total)
    (hbit : s.bitmap[i]? ≠ some true) (failed : Option Nat) (offset : Int) (data : Bytes) :
    s.writeChunk failed i offset data =
      if offset < 0 then (s, .error .negativeOffset)
      else
        match failed with
        | some written =>
            ({ s with bytes := writeAt 0 s.bytes offset.toNat (data.take written) },
              .error .writeFailed)
        | none =>
            ({ s with
                bytes := writeAt 0 s.bytes offset.toNat data
                bitmap := s.bitmap.set i true
                chunksDone := s.chunksDone + 1 }, .ok ()) := by
  have hbounds : ¬ ((i : Int) < 0 ∨ (s.total : Int) ≤ i) := by omega
  simp only [SparseFile.writeChunk, hbounds, if_false, Int.toNat_natCast, hbit]

/-- The file after the chunks `front` have been written in order, with `left` chunks to come and
`zeros` bytes still at their initial value. -/
def partlyWritten (front : List Bytes) (left zeros : Nat) : SparseFile where
  bytes := front.flatten ++ List.replicate zeros 0
  bitmap := List.replicate front.length true ++ List.replicate left false
  chunksDone := front.length
  total := front.length + left

theorem new_sparse_file_ok (old : Option Bytes) {totalSize : Int} (h : 0 ≤ totalSize)
    (totalChunks : Nat) :
    newSparseFile old true true totalSize totalChunks =
      (some (List.replicate totalSize.toNat 0),
        some (partlyWritten [] totalChunks totalSize.toNat)) := by
  have : ¬ totalSize < 0 := by omega
  simp [newSparseFile, this, resize_nil, partlyWritten]

/-- Writing the next chunk in order succeeds and extends what is written. -/
theorem write_chunk_next (front : List Bytes) (left zeros : Nat) (data : Bytes) :
    (partlyWritten front (left + 1) zeros).writeChunk none front.length front.flatten.length data =
      (partlyWritten (front ++ [data]) left (zeros - data.length), .ok ()) := by
  have hbit : (List.replicate front.length true ++
      List.replicate (left + 1) false)[front.length]? = some false := by
    rw [List.getElem?_append_right (by simp)]
    simp
  have hset : (List.replicate front.length true ++ List.replicate (left + 1) false).set
      front.length true = List.replicate (front.length + 1) true ++ List.replicate left false := by
    rw [List.set_append_right _ _ (by simp), List.replicate_succ' (n := front.length),
      List.replicate_succ]
    simp
  have hoffset : ¬ ((front.flatten.length : Int) < 0) := by omega
  rw [write_chunk_fresh (by simp [partlyWritten]) (by simp [partlyWritten]), if_neg hoffset]
  simp only [partlyWritten, Int.toNat_natCast, hset, write_at_fill]
  simp [Nat.add_assoc, Nat.add_comm 1 left]

end NuSync.Assembler
