import NuSync.Daemon.Handlers

/-!
# Change detection

Three places take two files for equal when their Merkle roots are: the skip in
`HandleFileChange`, the test in `handleAnnouncement` and the `IsSynced` answer of the diff. They
are right about two different files unless the files are `Ambiguous`: leaves and inner nodes are
hashed alike and the number of chunks is not part of the root, so a chunk that spells two digests
can stand for a whole subtree. `told_apart_iff` is the result.
-/

namespace NuSync

open Go Lib Store Chunker Merkle Control Discovery

variable (sha256 : Bytes → Hash) (cdc : FastCdc)

/-- The root `ComputeRoot` gives the chunks of a file. -/
def fileRoot (content : Bytes) : Hash :=
  computeRoot sha256 (chunksFrom sha256 0 0 (cdc.cut content))

/-- The byte strings hashed on the way from a file to its root. -/
def hashedIn (content : Bytes) : List Bytes :=
  ((treeOf (cdc.cut content)).map (hashed sha256)).getD []

/-- No site takes a file `f` that is already known for the file `g`. -/
structure ToldApart (f g : Bytes) : Prop where
  roots : fileRoot sha256 cdc f ≠ fileRoot sha256 cdc g
  change : ∀ (d : Daemon) path now io known, ext path ≠ ascii ".db" →
    (d.isQuiet now path).2 = false → d.node.disk (clean path) = some g →
    d.node.index.getFileMeta (d.changeFileID path) = some known →
    known.merkleRoot = fileRoot sha256 cdc f →
    (d.handleFileChange sha256 cdc path now io).2 ≠ none
  announcement : ∀ (d : Daemon) (ann : FileAnnouncement) known, ann.sourceNode ≠ d.name →
    ann.merkleRoot = fileRoot sha256 cdc g → d.node.index.getFileMeta ann.fileID = some known →
    known.merkleRoot = fileRoot sha256 cdc f →
    Daemon.remoteWins known.lamportTS d.name ann.lamportTS ann.sourceNode = true →
    (d.handleAnnouncement ann).2 = true
  diff : ∀ (index : BoltMetaStore) (req : DiffRequest) known,
    req.localMerkleRoot = (fileRoot sha256 cdc g).bytes →
    index.getFileMeta req.fileID = some known → known.merkleRoot = fileRoot sha256 cdc f →
    (diffMerkleTree index req).isSynced = false

/-- The root does not tell the files apart: they have different numbers of chunks, but chunks of
one spell the digests of the other's inner nodes wherever the trees differ; or one is empty and
the other has the zero digest. -/
def Ambiguous (f g : Bytes) : Prop :=
  match treeOf (cdc.cut f), treeOf (cdc.cut g) with
  | some t, some u => (cdc.cut f).length ≠ (cdc.cut g).length ∧ Aligned sha256 t u
  | some t, none | none, some t => digest sha256 t = Hash.zero
  | none, none => False

variable {sha256 cdc} {f g : Bytes}

/-! ## The three sites -/

/-- A file with another root than its entry is indexed. -/
theorem change_of_roots (hroots : fileRoot sha256 cdc f ≠ fileRoot sha256 cdc g) (d : Daemon)
    (path : GoString) (now : Int) (io : Daemon.IndexAnswers) (known : FileMeta)
    (hext : ext path ≠ ascii ".db") (hquiet : (d.isQuiet now path).2 = false)
    (hdisk : d.node.disk (clean path) = some g)
    (hknown : d.node.index.getFileMeta (d.changeFileID path) = some known)
    (hroot : known.merkleRoot = fileRoot sha256 cdc f) :
    (d.handleFileChange sha256 cdc path now io).2 ≠ none := by
  have hdiffers : known.merkleRoot ≠ computeRoot sha256 (chunksFrom sha256 0 0 (cdc.cut g)) := by
    rw [hroot]
    exact hroots
  have hcontent : d.changeContent sha256 cdc path now = some g := by
    simp [Daemon.changeContent, hext, hquiet, hdisk, hknown, hdiffers, Option.filter_some]
  obtain ⟨quiet, heq⟩ := d.handle_file_change_eq sha256 cdc path now io
  rw [heq, hcontent]
  exact Option.some_ne_none _

/-- News of another root that wins starts a sync. -/
theorem announcement_of_roots (hroots : fileRoot sha256 cdc f ≠ fileRoot sha256 cdc g)
    (d : Daemon) (ann : FileAnnouncement) (known : FileMeta) (hsource : ann.sourceNode ≠ d.name)
    (hann : ann.merkleRoot = fileRoot sha256 cdc g)
    (hknown : d.node.index.getFileMeta ann.fileID = some known)
    (hroot : known.merkleRoot = fileRoot sha256 cdc f)
    (hwins : Daemon.remoteWins known.lamportTS d.name ann.lamportTS ann.sourceNode = true) :
    (d.handleAnnouncement ann).2 = true := by
  obtain ⟨hadvances, -⟩ := d.observe_ts_spec ann.lamportTS
  simp [Daemon.handleAnnouncement, hsource, Daemon.wants, hadvances.node, hadvances.name, hknown,
    hroot, hann, hroots, hwins]

/-- A requester with another root is not in sync. -/
theorem diff_of_roots (hroots : fileRoot sha256 cdc f ≠ fileRoot sha256 cdc g)
    (index : BoltMetaStore) (req : DiffRequest) (known : FileMeta)
    (hreq : req.localMerkleRoot = (fileRoot sha256 cdc g).bytes)
    (hknown : index.getFileMeta req.fileID = some known)
    (hroot : known.merkleRoot = fileRoot sha256 cdc f) :
    (diffMerkleTree index req).isSynced = false := by
  have hbytes : (fileRoot sha256 cdc f).bytes ≠ (fileRoot sha256 cdc g).bytes :=
    fun heq => hroots (Hash.ext heq)
  simp [diffMerkleTree, hknown, hroot, hreq, hbytes]

/-! ## Roots -/

/-- Two different files have one root exactly if they are ambiguous. -/
theorem file_root_eq_iff (hne : f ≠ g)
    (hfree : NoCollision sha256 (hashedIn sha256 cdc f ++ hashedIn sha256 cdc g)) :
    fileRoot sha256 cdc f = fileRoot sha256 cdc g ↔ Ambiguous sha256 cdc f g := by
  unfold fileRoot Ambiguous
  rw [compute_root_eq_digest, compute_root_eq_digest]
  unfold hashedIn at hfree
  cases ht : treeOf (cdc.cut f) with
  | none =>
      cases hu : treeOf (cdc.cut g) with
      | none =>
          -- two files without chunks are empty
          have hf := cdc.flatten_cut f
          have hg := cdc.flatten_cut g
          rw [treeOf_eq_none.mp ht] at hf
          rw [treeOf_eq_none.mp hu] at hg
          exact absurd (hf.symm.trans hg) hne
      | some u => exact eq_comm
  | some t =>
      cases hu : treeOf (cdc.cut g) with
      | none => exact Iff.rfl
      | some u =>
          rw [ht, hu] at hfree
          simp only [digest_eq_iff hfree]
          refine ⟨fun haligned => ⟨fun hlen => hne ?_, haligned⟩, And.right⟩
          -- as many chunks mean one shape, and then the chunks are the same
          have hleaves := leaves_eq_of_aligned haligned (shape_eq_of_length_eq hlen ht hu)
          rw [leaves_treeOf ht, leaves_treeOf hu] at hleaves
          rw [← cdc.flatten_cut f, hleaves, cdc.flatten_cut]

/-- **Two different files are told apart everywhere exactly if they are not ambiguous.** -/
theorem told_apart_iff (hne : f ≠ g)
    (hfree : NoCollision sha256 (hashedIn sha256 cdc f ++ hashedIn sha256 cdc g)) :
    ToldApart sha256 cdc f g ↔ ¬ Ambiguous sha256 cdc f g := by
  rw [← file_root_eq_iff hne hfree]
  exact ⟨ToldApart.roots, fun hroots => ⟨hroots, change_of_roots hroots,
    announcement_of_roots hroots, diff_of_roots hroots⟩⟩

/-- Two files of one byte are told apart: both have one chunk. -/
theorem told_apart_one_byte : ToldApart Hash.sample .fixed [1] [2] :=
  (told_apart_iff (by decide) (by decide)).mpr fun hambiguous => hambiguous.1 rfl

/-! ## A file that spells two digests -/

section Spelled

variable (sha256) {first last : Bytes}

/-- The digests of two chunks, as a file. -/
def spelled (first last : Bytes) : Bytes := (sha256 first).bytes ++ (sha256 last).bytes

theorem length_spelled (first last : Bytes) : (spelled sha256 first last).length = 64 := by
  rw [spelled, List.length_append, Hash.length_eq, Hash.length_eq]

/-- It is too short to be cut. -/
theorem cut_spelled (cdc : FastCdc) (first last : Bytes) :
    cdc.cut (spelled sha256 first last) = [spelled sha256 first last] :=
  cdc.cut_small _ (List.ne_nil_of_length_pos (by rw [length_spelled]; decide))
    (by rw [length_spelled]; decide)

/-- The file of the two chunks has the same root. -/
theorem file_root_spelled (hcut : cdc.cut g = [first, last]) :
    fileRoot sha256 cdc (spelled sha256 first last) = fileRoot sha256 cdc g := by
  rw [fileRoot, fileRoot, compute_root_eq_digest, compute_root_eq_digest, cut_spelled, hcut]
  rfl

theorem hashed_in_spelled (hcut : cdc.cut g = [first, last]) :
    hashedIn sha256 cdc (spelled sha256 first last) ++ hashedIn sha256 cdc g =
      [spelled sha256 first last, spelled sha256 first last, first, last] := by
  rw [hashedIn, hashedIn, cut_spelled, hcut]
  rfl

end Spelled

/-- The strings that are hashed have the lengths 64, 65536 and 1. -/
theorem no_collision_spelled {full : Bytes} (hfull : full.length = maxSize) :
    NoCollision Hash.sample [spelled .sample full [1], spelled .sample full [1], full, [1]] := by
  have hlength (x : Bytes) (hx : x ∈ [spelled .sample full [1], spelled .sample full [1], full,
      [1]]) : x = spelled .sample full [1] ∧ x.length = 64 ∨ x = full ∧ x.length = 65536 ∨
        x = [1] ∧ x.length = 1 := by
    simp only [List.mem_cons, List.not_mem_nil, or_false] at hx
    rcases hx with rfl | rfl | rfl | rfl
    · exact .inl ⟨rfl, length_spelled .sample full [1]⟩
    · exact .inl ⟨rfl, length_spelled .sample full [1]⟩
    · exact .inr (.inl ⟨rfl, hfull⟩)
    · exact .inr (.inr ⟨rfl, rfl⟩)
  intro x hx y hy heq
  have hlen := Hash.length_of_sample_eq heq
  rcases hlength x hx with ⟨hx, hxl⟩ | ⟨hx, hxl⟩ | ⟨hx, hxl⟩ <;>
    rcases hlength y hy with ⟨hy, hyl⟩ | ⟨hy, hyl⟩ | ⟨hy, hyl⟩ <;>
    rw [hxl, hyl] at hlen <;>
    first
    | exact hx.trans hy.symm
    | exact absurd hlen (by decide)

/-- Two different files with one root and no collision: `maxSize` zeros and one more byte, which
are two chunks, and the 64 bytes of the digests of these chunks. -/
theorem not_told_apart_spelled_digests :
    let zeros : Bytes := List.replicate maxSize 0
    let f := spelled .sample zeros [1]
    let g := zeros ++ [1]
    FastCdc.fixed.cut g = [zeros, [1]] ∧ f ≠ g ∧
      NoCollision .sample (hashedIn .sample .fixed f ++ hashedIn .sample .fixed g) ∧
      fileRoot .sample .fixed f = fileRoot .sample .fixed g ∧ ¬ ToldApart .sample .fixed f g := by
  intro zeros f g
  have hzeros : zeros.length = maxSize := List.length_replicate
  have hcut : FastCdc.fixed.cut g = [zeros, [1]] := cut_fixed_append hzeros (by simp) (by decide)
  have hroot := file_root_spelled .sample hcut
  refine ⟨hcut, fun heq => ?_, ?_, hroot, fun happart => happart.roots hroot⟩
  · have hlen := congrArg List.length heq
    rw [length_spelled, List.length_append, hzeros] at hlen
    exact absurd hlen (by decide)
  · rw [hashed_in_spelled .sample hcut]
    exact no_collision_spelled hzeros

end NuSync
