import Mathlib

/-!
# Byte strings, digests and machine integers

The values the Go code passes around. A Go string is a sequence of bytes, so `GoString` and
`Bytes` are the same type; strings are compared byte by byte. A `Hash` is a Go `[32]byte` and
carries its length. `uint64` is Lean's `UInt64`; the places where the code converts one to
`int64` go through `int64`.
-/

namespace NuSync.Go

/-- A Go `[]byte`. -/
abbrev Bytes := List UInt8

/-- A Go `string`: arbitrary bytes. -/
abbrev GoString := List UInt8

/-- The bytes of an ASCII literal. -/
def ascii (literal : String) : GoString := literal.toList.map fun c => c.toNat.toUInt8

/-- Go compares bytes as numbers. -/
instance byteOrder : LinearOrder UInt8 where
  le_refl := UInt8.le_refl
  le_trans _ _ _ := UInt8.le_trans
  le_antisymm _ _ := UInt8.le_antisymm
  le_total := UInt8.le_total
  lt_iff_le_not_ge a b := by grind
  toDecidableLE := inferInstance
  toDecidableEq := inferInstance
  toDecidableLT := inferInstance

instance byteLawfulBEq : LawfulBEq UInt8 := inferInstance

/-- Go's `==` on strings is equality of their bytes. -/
instance stringLawfulBEq : LawfulBEq GoString := inferInstance

/-- Go compares `uint64` values as numbers. -/
instance uint64Order : LinearOrder UInt64 where
  le_refl := UInt64.le_refl
  le_trans _ _ _ := UInt64.le_trans
  le_antisymm _ _ := UInt64.le_antisymm
  le_total := UInt64.le_total
  lt_iff_le_not_ge a b := by grind
  toDecidableLE := inferInstance
  toDecidableEq := inferInstance
  toDecidableLT := inferInstance

/-- A Go `[32]byte`. -/
@[ext] structure Hash where
  bytes : Bytes
  length_eq : bytes.length = 32
  deriving DecidableEq

namespace Hash

/-- The zero value `[32]byte{}`. -/
def zero : Hash := ⟨List.replicate 32 0, by simp⟩

instance : Inhabited Hash := ⟨zero⟩

/-- `copy(h[:], raw)` into a zeroed `[32]byte`: at most 32 bytes, the rest stays zero. -/
def copy (raw : Bytes) : Hash :=
  ⟨(raw ++ List.replicate 32 0).take 32, by simp⟩

/-- Copying the bytes of a digest gives the digest. -/
@[simp] theorem copy_bytes (hash : Hash) : copy hash.bytes = hash := by
  ext1
  simp only [copy]
  rw [← hash.length_eq, List.take_left]

/-- A stand-in digest for concrete runs: the length and the first 31 bytes. It has no collisions
among strings shorter than 32 bytes. -/
def sample (bytes : Bytes) : Hash := copy (UInt8.ofNat bytes.length :: bytes)

theorem length_of_sample_eq {x y : Bytes} (h : sample x = sample y) :
    UInt8.ofNat x.length = UInt8.ofNat y.length := by
  have hbytes := congrArg bytes h
  simp only [sample, copy, List.cons_append, List.take_succ_cons] at hbytes
  exact (List.cons.inj hbytes).1

end Hash

/-- `int64(n)` of a `uint64`: two's complement. -/
def int64 (n : UInt64) : Int :=
  if n.toNat < 2 ^ 63 then n.toNat else n.toNat - 2 ^ 64

theorem int64_nonneg_iff (n : UInt64) : 0 ≤ int64 n ↔ n.toNat < 2 ^ 63 := by
  have := n.toNat_lt
  unfold int64
  split_ifs <;> omega

theorem int64_of_lt {n : UInt64} (h : n.toNat < 2 ^ 63) : int64 n = n.toNat := if_pos h

/-- Go's `int64` addition: the sum wraps around. -/
def addInt64 (a b : Int) : Int := (a + b + 2 ^ 63) % 2 ^ 64 - 2 ^ 63

/-- A sum of two sizes is right or negative. -/
theorem add_int64_nat {a b : Nat} (ha : a < 2 ^ 63) (hb : b < 2 ^ 63) :
    if a + b < 2 ^ 63 then addInt64 a b = (a + b : Nat) else addInt64 a b < 0 := by
  unfold addInt64
  split_ifs <;> omega

/-- Go's `uint64(len(b))`. -/
def lenUInt64 (bytes : Bytes) : UInt64 := UInt64.ofNat bytes.length

/-- The pieces of a split string are parts of it without the separator. -/
theorem mem_split_on {sep : UInt8} {s piece : GoString} (h : piece ∈ s.splitOn sep) :
    sep ∉ piece ∧ piece <:+: s := by
  by_cases hsep : sep ∈ s
  · obtain ⟨before, after, rfl, hbefore⟩ := List.eq_append_cons_of_mem hsep
    rw [List.splitOn_append_cons_self_of_not_mem hbefore] at h
    rcases List.mem_cons.mp h with rfl | h
    · exact ⟨hbefore, (List.prefix_append _ _).isInfix⟩
    · obtain ⟨hpiece, hpart⟩ := mem_split_on h
      exact ⟨hpiece, hpart.trans ⟨before ++ [sep], [], by simp⟩⟩
  · rw [List.splitOn_eq_singleton hsep, List.mem_singleton] at h
    subst h
    exact ⟨hsep, List.infix_refl _⟩
termination_by s.length
decreasing_by
  subst_vars
  simp only [List.length_append, List.length_cons]
  omega

end NuSync.Go
