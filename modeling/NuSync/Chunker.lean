import NuSync.Go.Bytes

/-!
# Content-defined chunking

`internal/chunker/chunker.go`. The cut points come from the `fastcdc-go` package, which is not
part of the repository; `FastCdc` is what its documentation promises of them. SHA-256 is a
parameter of the whole development: nothing here depends on which function it is, and the
results that need it say which byte strings must not collide.
-/

namespace NuSync.Chunker

open NuSync.Go

/-- `chunker.Chunk`. -/
structure Chunk where
  hash : Hash
  offset : UInt64
  size : UInt32
  sequence : UInt32
  data : Bytes
  deriving DecidableEq

/-- The average size every caller passes to `NewFastCDCChunker`. -/
def avgSize : Nat := 8192

/-- `fastcdc.Options.MinSize` as `NewFastCDCChunker` sets it. -/
def minSize : Nat := avgSize / 4

/-- `fastcdc.Options.MaxSize` as `NewFastCDCChunker` sets it. -/
def maxSize : Nat := avgSize * 8

/-- The `fastcdc-go` chunker with the options above: the parts `Next` returns until `io.EOF`.
They are nonempty, at most `maxSize` long and concatenate to the input, and an input shorter
than `minSize` is not cut. -/
structure FastCdc where
  cut : Bytes → List Bytes
  flatten_cut : ∀ content, (cut content).flatten = content
  length_cut_pos : ∀ content, ∀ part ∈ cut content, part ≠ []
  length_cut_le : ∀ content, ∀ part ∈ cut content, part.length ≤ maxSize
  cut_small : ∀ content, content ≠ [] → content.length < minSize → cut content = [content]

/-- The input in pieces of `maxSize`, the last one possibly shorter. -/
def pieces : Nat → Bytes → List Bytes
  | 0, _ => []
  | fuel + 1, content =>
      if content = [] then [] else content.take maxSize :: pieces fuel (content.drop maxSize)

theorem flatten_pieces {fuel : Nat} {content : Bytes} (h : content.length ≤ fuel) :
    (pieces fuel content).flatten = content := by
  induction fuel generalizing content with
  | zero => simp_all [pieces]
  | succ fuel ih =>
      unfold pieces
      split_ifs with hempty
      · simp [hempty]
      · have hpos := List.length_pos_iff.mpr hempty
        have hdrop : (content.drop maxSize).length ≤ fuel := by
          rw [List.length_drop]
          unfold maxSize avgSize
          omega
        rw [List.flatten_cons, ih hdrop, List.take_append_drop]

theorem mem_pieces {fuel : Nat} {content part : Bytes} (h : part ∈ pieces fuel content) :
    part ≠ [] ∧ part.length ≤ maxSize := by
  induction fuel generalizing content with
  | zero => simp [pieces] at h
  | succ fuel ih =>
      unfold pieces at h
      split_ifs at h with hempty
      · cases h
      · rcases List.mem_cons.mp h with rfl | h
        · exact ⟨by simp [hempty, maxSize, avgSize], List.length_take_le _ _⟩
        · exact ih h

theorem pieces_small {fuel : Nat} {content : Bytes} (hfuel : 0 < fuel) (hne : content ≠ [])
    (hle : content.length ≤ maxSize) : pieces fuel content = [content] := by
  obtain ⟨fuel, rfl⟩ := Nat.exists_eq_succ_of_ne_zero hfuel.ne'
  have hnil : pieces fuel [] = [] := by cases fuel <;> simp [pieces]
  rw [pieces, if_neg hne, List.take_of_length_le hle, List.drop_of_length_le hle, hnil]

theorem min_size_le_max_size : minSize ≤ maxSize := by
  unfold minSize maxSize avgSize
  omega

/-- A chunker that meets the description: it cuts at every multiple of `maxSize`, as the real one
does where the data give it no earlier cut. -/
def FastCdc.fixed : FastCdc where
  cut content := pieces content.length content
  flatten_cut _ := flatten_pieces le_rfl
  length_cut_pos _ _ h := (mem_pieces h).1
  length_cut_le _ _ h := (mem_pieces h).2
  cut_small _ hne hlt :=
    pieces_small (List.length_pos_iff.mpr hne) hne (hlt.le.trans min_size_le_max_size)

/-- A full piece and a short rest. -/
theorem cut_fixed_append {full short : Bytes} (hfull : full.length = maxSize) (hne : short ≠ [])
    (hshort : short.length ≤ maxSize) : FastCdc.fixed.cut (full ++ short) = [full, short] := by
  have hpos := List.length_pos_iff.mpr hne
  have hlen : (full ++ short).length = (full.length + short.length - 1) + 1 := by
    rw [List.length_append]
    omega
  have hfuel : 0 < full.length + short.length - 1 := by
    rw [hfull, maxSize, avgSize]
    omega
  show pieces (full ++ short).length (full ++ short) = _
  rw [hlen, pieces, if_neg (by simp [hne]), List.take_left' hfull, List.drop_left' hfull,
    pieces_small hfuel hne hshort]

variable (sha256 : Bytes → Hash)

/-- The loop of `ChunkFile` over the remaining parts, from this offset and sequence number. -/
def chunksFrom : Nat → Nat → List Bytes → List Chunk
  | _, _, [] => []
  | offset, seq, part :: parts =>
      { hash := sha256 part, offset := UInt64.ofNat offset, size := UInt32.ofNat part.length,
        sequence := UInt32.ofNat seq, data := part } ::
        chunksFrom (offset + part.length) (seq + 1) parts

/-- `ChunkFile` on the bytes read from the file; `none` is a file that cannot be opened. -/
def chunkFile (cdc : FastCdc) (file : Option Bytes) : Option (List Chunk) :=
  file.map fun content => chunksFrom sha256 0 0 (cdc.cut content)

/-- The chunks carry the parts in order. -/
theorem map_data_chunks_from (offset seq : Nat) (parts : List Bytes) :
    (chunksFrom sha256 offset seq parts).map Chunk.data = parts := by
  induction parts generalizing offset seq with
  | nil => rfl
  | cons part parts ih => simp [chunksFrom, ih]

/-- Every chunk is named by the digest of its data. -/
theorem map_hash_chunks_from (offset seq : Nat) (parts : List Bytes) :
    (chunksFrom sha256 offset seq parts).map Chunk.hash = parts.map sha256 := by
  induction parts generalizing offset seq with
  | nil => rfl
  | cons part parts ih => simp [chunksFrom, ih]

end NuSync.Chunker
