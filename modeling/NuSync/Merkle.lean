import NuSync.Chunker
import NuSync.Lib.SplitTree

/-!
# The Merkle root of a chunk list

`internal/merkle/tree.go`. `computeRoot` runs the level-by-level loop of the source. Leaves
and inner nodes go through the same hash function without a prefix, and `digest_eq_iff` says
exactly what that costs: two hash trees have one digest when they match node for node, where a
chunk may also stand opposite an inner node if its 64 bytes spell the two child digests. The root
is also the hash of the tree that is cut from the top (`compute_root_eq_tree_hash`).
-/

namespace NuSync.Merkle

open NuSync.Go NuSync.Lib NuSync.Chunker

section ComputeRoot

variable (sha256 : Bytes → Hash)

/-- `sha256.Sum256(append(a[:], b[:]...))`. -/
def hashPair (a b : Hash) : Hash := sha256 (a.bytes ++ b.bytes)

/-- `ComputeRoot`: zero for no chunks, else the digests combined level by level. -/
def computeRoot (chunks : List Chunk) : Hash :=
  if chunks.length = 0 then Hash.zero
  else
    let hashes := chunks.map Chunk.hash
    ((collapse (hashPair sha256) hashes.length hashes).head?).getD Hash.zero

/-- The digest of a hash tree over chunk data. -/
def digest : BinTree Bytes → Hash := BinTree.fold sha256 (hashPair sha256)

/-- The byte string whose SHA-256 is the digest of the tree: the chunk itself, or the two
child digests. -/
def preimage : BinTree Bytes → Bytes
  | .leaf chunk => chunk
  | .node l r => (digest sha256 l).bytes ++ (digest sha256 r).bytes

theorem digest_eq_sha256_preimage (tree : BinTree Bytes) :
    digest sha256 tree = sha256 (preimage sha256 tree) := by
  cases tree <;> rfl

/-- The byte strings hashed while the digest of the tree is computed. -/
def hashed : BinTree Bytes → List Bytes
  | .leaf chunk => [chunk]
  | .node l r => ((digest sha256 l).bytes ++ (digest sha256 r).bytes) :: hashed l ++ hashed r

theorem preimage_mem_hashed (tree : BinTree Bytes) : preimage sha256 tree ∈ hashed sha256 tree := by
  cases tree <;> simp [preimage, hashed]

/-- The root of a file is the digest of the tree over its parts, and zero for an empty file. -/
theorem compute_root_eq_digest (offset seq : Nat) (parts : List Bytes) :
    computeRoot sha256 (chunksFrom sha256 offset seq parts) =
      match treeOf parts with
      | none => Hash.zero
      | some tree => digest sha256 tree := by
  have hlen : (chunksFrom sha256 offset seq parts).length = parts.length := by
    rw [← List.length_map (f := Chunk.data), map_data_chunks_from]
  unfold computeRoot
  simp only [map_hash_chunks_from, List.length_map, hlen, collapse_eq_fold]
  by_cases hparts : parts = []
  · simp [hparts]
  · obtain ⟨tree, htree⟩ := exists_treeOf hparts
    simp [htree, List.length_eq_zero_iff, hparts, digest]

/-- The Merkle tree hash as it is defined from the top: a digest alone is its own hash, and a longer
list is cut at the largest power of two below its length. -/
def treeHash : List Hash → Hash := splitFold (hashPair sha256) Hash.zero

/-- **The level-by-level loop computes the tree hash.** -/
theorem compute_root_eq_tree_hash (chunks : List Chunk) :
    computeRoot sha256 chunks = treeHash sha256 (chunks.map Chunk.hash) := by
  unfold computeRoot treeHash
  split_ifs with hempty
  · obtain rfl := List.length_eq_zero_iff.mp hempty
    rw [List.map_nil, splitFold]
    rfl
  · have hne : chunks.map Chunk.hash ≠ [] := by
      intro hnil
      exact hempty (by simpa using congrArg List.length hnil)
    show ((collapse _ _ _).head?).getD _ = _
    rw [collapse_eq_splitFold _ Hash.zero hne, List.head?_cons, Option.getD_some]

end ComputeRoot

/-- No two of the byte strings have one digest. -/
def NoCollision (sha256 : Bytes → Hash) (strings : List Bytes) : Prop :=
  ∀ x ∈ strings, ∀ y ∈ strings, sha256 x = sha256 y → x = y

instance (sha256 : Bytes → Hash) (strings : List Bytes) : Decidable (NoCollision sha256 strings) :=
  inferInstanceAs (Decidable (∀ _ ∈ _, _))

variable (sha256 : Bytes → Hash)

/-- The trees match: chunk against equal chunk and node against node, or a chunk against a
node whose two child digests are the chunk's bytes. -/
def Aligned : BinTree Bytes → BinTree Bytes → Prop
  | .leaf a, .leaf b => a = b
  | .leaf a, .node l r => a = preimage sha256 (.node l r)
  | .node l r, .leaf b => b = preimage sha256 (.node l r)
  | .node l r, .node l' r' => Aligned l l' ∧ Aligned r r'

instance Aligned.decidable : ∀ t u, Decidable (Aligned sha256 t u)
  | .leaf a, .leaf b => inferInstanceAs (Decidable (a = b))
  | .leaf a, .node l r => inferInstanceAs (Decidable (a = preimage sha256 (.node l r)))
  | .node l r, .leaf b => inferInstanceAs (Decidable (b = preimage sha256 (.node l r)))
  | .node l r, .node l' r' =>
      @instDecidableAnd _ _ (Aligned.decidable l l') (Aligned.decidable r r')

variable {sha256}

/-- Matching trees have one digest. -/
theorem digest_eq_of_aligned :
    ∀ {t u : BinTree Bytes}, Aligned sha256 t u → digest sha256 t = digest sha256 u
  | .leaf _, .leaf _, h => congrArg sha256 h
  | .leaf _, .node _ _, h => congrArg sha256 h
  | .node _ _, .leaf _, h => congrArg sha256 h.symm
  | .node l r, .node l' r', h => by
      show hashPair sha256 _ _ = hashPair sha256 _ _
      exact congrArg₂ (hashPair sha256) (digest_eq_of_aligned h.1) (digest_eq_of_aligned h.2)

/-- Two pairs of digests with one concatenation are equal. -/
theorem bytes_append_inj {a b c d : Hash} (h : a.bytes ++ b.bytes = c.bytes ++ d.bytes) :
    a = c ∧ b = d := by
  obtain ⟨hleft, hright⟩ := List.append_inj h (by rw [a.length_eq, c.length_eq])
  exact ⟨Hash.ext hleft, Hash.ext hright⟩

/-- Trees with one digest match, when nothing hashed in the two trees collides. -/
theorem aligned_of_digest_eq :
    ∀ {t u : BinTree Bytes}, NoCollision sha256 (hashed sha256 t ++ hashed sha256 u) →
      digest sha256 t = digest sha256 u → Aligned sha256 t u := by
  -- The preimages of the two roots are hashed in the run, so they are equal; at two inner
  -- nodes this gives equal child digests and the induction goes on below.
  have hroot : ∀ t u : BinTree Bytes, NoCollision sha256 (hashed sha256 t ++ hashed sha256 u) →
      digest sha256 t = digest sha256 u → preimage sha256 t = preimage sha256 u := by
    intro t u hfree heq
    rw [digest_eq_sha256_preimage, digest_eq_sha256_preimage] at heq
    exact hfree _ (List.mem_append_left _ (preimage_mem_hashed sha256 t)) _
      (List.mem_append_right _ (preimage_mem_hashed sha256 u)) heq
  intro t
  induction t with
  | leaf a =>
      intro u hfree heq
      have hpre := hroot (.leaf a) u hfree heq
      cases u with
      | leaf b => exact hpre
      | node l r => exact hpre
  | node l r ihl ihr =>
      intro u hfree heq
      have hpre := hroot (.node l r) u hfree heq
      cases u with
      | leaf b => exact hpre.symm
      | node l' r' =>
          obtain ⟨hl, hr⟩ := bytes_append_inj hpre
          refine ⟨ihl (fun x hx y hy => hfree x ?_ y ?_) hl,
            ihr (fun x hx y hy => hfree x ?_ y ?_) hr⟩ <;>
          · simp only [hashed, List.cons_append, List.mem_cons, List.mem_append] at hx hy ⊢
            tauto

/-- **What the root binds.** Without collisions, two trees have one digest exactly when they
match. -/
theorem digest_eq_iff {t u : BinTree Bytes}
    (hfree : NoCollision sha256 (hashed sha256 t ++ hashed sha256 u)) :
    digest sha256 t = digest sha256 u ↔ Aligned sha256 t u :=
  ⟨aligned_of_digest_eq hfree, digest_eq_of_aligned⟩

/-- Matching trees of one shape have the same chunks: the confusion needs a chunk opposite an
inner node. -/
theorem leaves_eq_of_aligned :
    ∀ {t u : BinTree Bytes}, Aligned sha256 t u → t.shape = u.shape → t.leaves = u.leaves
  | .leaf _, .leaf _, h, _ => congrArg (fun a => [a]) h
  | .leaf _, .node _ _, _, hshape => by simp [BinTree.shape] at hshape
  | .node _ _, .leaf _, _, hshape => by simp [BinTree.shape] at hshape
  | .node l r, .node l' r', h, hshape => by
      simp only [BinTree.shape, BinTree.node.injEq] at hshape
      exact congrArg₂ (· ++ ·) (leaves_eq_of_aligned h.1 hshape.1)
        (leaves_eq_of_aligned h.2 hshape.2)

/-! ## Lists of one length -/

/-- The byte strings that the loop of `ComputeRoot` hashes: the 64 bytes of every two neighbours, on
all levels. -/
def hashedPairs (sha256 : Bytes → Hash) (chunks : List Chunk) : List Bytes :=
  let hashes := chunks.map Chunk.hash
  (combined (hashPair sha256) hashes.length hashes).map fun pair => pair.1.bytes ++ pair.2.bytes

/-- Without collisions the digest of two neighbours tells them apart. -/
theorem separates_of_no_collision {pairs others : List (Hash × Hash)}
    (hfree : NoCollision sha256 ((pairs ++ others).map fun pair => pair.1.bytes ++ pair.2.bytes)) :
    Separates (hashPair sha256) pairs others := by
  intro p hp q hq hdigest
  have hbytes : p.1.bytes ++ p.2.bytes = q.1.bytes ++ q.2.bytes :=
    hfree _ (List.mem_map_of_mem (List.mem_append_left _ hp)) _
      (List.mem_map_of_mem (List.mem_append_right _ hq)) hdigest
  obtain ⟨hleft, hright⟩ := bytes_append_inj hbytes
  exact Prod.ext hleft hright

/-- The loop leaves one digest, which is the root. -/
theorem collapse_eq_root {chunks : List Chunk} (hne : chunks ≠ []) :
    collapse (hashPair sha256) chunks.length (chunks.map Chunk.hash) =
      [computeRoot sha256 chunks] := by
  have hlen : (collapse (hashPair sha256) chunks.length (chunks.map Chunk.hash)).length = 1 :=
    length_collapse _ (by simpa using hne) (by simp)
  obtain ⟨root, hroot⟩ := List.length_eq_one_iff.mp hlen
  simp [computeRoot, hne, hroot]

/-- **The root binds every chunk and its position**: two chunk lists of one length with one root
have the same digests in the same order, if no two of the strings hashed for the two roots
collide. -/
theorem root_binds_every_chunk {chunks others : List Chunk} (hlen : chunks.length = others.length)
    (hfree : NoCollision sha256 (hashedPairs sha256 chunks ++ hashedPairs sha256 others))
    (hroot : computeRoot sha256 chunks = computeRoot sha256 others) :
    chunks.map Chunk.hash = others.map Chunk.hash := by
  by_cases hempty : chunks = []
  · subst hempty
    rw [List.length_eq_zero_iff.mp hlen.symm]
  · have hother : others ≠ [] := by
      rintro rfl
      exact hempty (List.length_eq_zero_iff.mp hlen)
    have hsep : Separates (hashPair sha256)
        (combined (hashPair sha256) chunks.length (chunks.map Chunk.hash))
        (combined (hashPair sha256) chunks.length (others.map Chunk.hash)) := by
      apply separates_of_no_collision
      simpa [hashedPairs, hlen] using hfree
    refine collapse_inj (by simp [hlen]) hsep ?_
    calc collapse (hashPair sha256) chunks.length (chunks.map Chunk.hash)
        = [computeRoot sha256 chunks] := collapse_eq_root hempty
      _ = [computeRoot sha256 others] := by rw [hroot]
      _ = collapse (hashPair sha256) chunks.length (others.map Chunk.hash) := by
          rw [hlen, collapse_eq_root hother]

/-- A chunk with this digest, somewhere in a file. -/
def chunkWith (hash : Hash) (offset : UInt64) : Chunk := ⟨hash, offset, 1, 0, [0]⟩

/-- Three chunks, the last of which is promoted, and the same digests at other offsets. -/
theorem root_binds_three_chunks :
    let digests := [Hash.sample [1], Hash.sample [2], Hash.sample [3]]
    let chunks := digests.map fun hash => chunkWith hash 0
    let others := digests.map fun hash => chunkWith hash 7
    chunks ≠ others ∧ computeRoot Hash.sample chunks = computeRoot Hash.sample others ∧
      chunks.map Chunk.hash = others.map Chunk.hash := by
  intro digests chunks others
  have hfree : NoCollision Hash.sample
      (hashedPairs Hash.sample chunks ++ hashedPairs Hash.sample others) := by
    decide
  have hroot : computeRoot Hash.sample chunks = computeRoot Hash.sample others := by
    decide
  exact ⟨by decide, hroot, root_binds_every_chunk rfl hfree hroot⟩

end NuSync.Merkle
