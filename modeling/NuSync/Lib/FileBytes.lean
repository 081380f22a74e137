import Mathlib

/-!
# Sparse files

A file as the list of its elements, with the two operations that can grow it: setting its length
and writing at an offset. What was never written reads as a fill value. `write_at_append` is the
rule for writing just after what is already there, and `write_at_region` the one for writing at
the start of a region that is large enough.
-/

namespace NuSync.Lib

variable {α : Type*} (fill : α)

/-- Set the length of a file: cut it off, or fill it up. -/
def resize (n : Nat) (file : List α) : List α :=
  file.take n ++ List.replicate (n - file.length) fill

/-- Write data at an offset. A gap before it is filled; writing nothing changes nothing. -/
def writeAt [DecidableEq α] (file : List α) (offset : Nat) (data : List α) : List α :=
  if data = [] then file
  else resize fill offset file ++ data ++ file.drop (offset + data.length)

theorem resize_nil (n : Nat) : resize fill n [] = List.replicate n fill := by
  simp [resize]

theorem resize_append (front rest : List α) : resize fill front.length (front ++ rest) = front := by
  simp [resize]

/-- Writing right after `front` keeps it and replaces what followed. -/
theorem write_at_append [DecidableEq α] (front rest data : List α) :
    writeAt fill (front ++ rest) front.length data = front ++ data ++ rest.drop data.length := by
  unfold writeAt
  split_ifs with hdata
  · simp [hdata]
  · rw [resize_append, List.drop_append]
    simp

/-- Writing right after `front` into the filled part of a file. -/
theorem write_at_fill [DecidableEq α] (front data : List α) (n : Nat) :
    writeAt fill (front ++ List.replicate n fill) front.length data =
      front ++ data ++ List.replicate (n - data.length) fill := by
  rw [write_at_append, List.drop_replicate]

/-- Writing at the start of a region that is large enough leaves the rest of the file alone. -/
theorem write_at_region [DecidableEq α] (front rest : List α) {region data : List α}
    (h : data.length ≤ region.length) :
    writeAt fill (front ++ (region ++ rest)) front.length data =
      front ++ ((data ++ region.drop data.length) ++ rest) := by
  rw [write_at_append, List.drop_append_of_le_length h]
  simp

end NuSync.Lib
