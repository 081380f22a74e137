import NuSync.Daemon.Handlers

/-!
# Manual and automatic ingest

The ingest pipeline is written out twice. `HandleFileChange` names a file by its path below
`BaseDir`; `/ingest` names it by the path it is given. The name is the index key, goes into the
announcement and decides where every peer writes the file. `ingest_paths_agree_iff` says for which
paths the two agree.
-/

namespace NuSync

open Go Store Chunker Merkle Discovery Orchestrator

namespace Daemon

variable {sha256 : Bytes → Hash} {cdc : FastCdc} {d : Daemon} {path : GoString}

/-- A path below `BaseDir` is named by its remaining names. -/
theorem exists_change_file_id (hinside : Inside d.baseDir path) :
    ∃ rest, cleanNames path = cleanNames d.baseDir ++ rest ∧ (∀ name ∈ rest, IsName name) ∧
      d.changeFileID path = render false rest := by
  obtain ⟨hrooted, rest, hnames, hdotdot⟩ := hinside
  refine ⟨rest, hnames, fun name hname => ?_, ?_⟩
  · refine is_name_of_clean (hnames ▸ List.mem_append_right _ hname) ?_
    rintro rfl
    exact hdotdot hname
  · rw [changeFileID, rel_of_inside hrooted hnames, Option.getD_some]

/-- It is named by itself exactly if it is clean and `BaseDir` is the working directory. -/
theorem change_file_id_eq_self_iff (hinside : Inside d.baseDir path) :
    d.changeFileID path = path ↔ clean d.baseDir = dot ∧ clean path = path := by
  obtain ⟨rest, hnames, hvalid, hid⟩ := exists_change_file_id hinside
  have hrooted := hinside.1
  rw [hid]
  constructor
  · intro hself
    have hpathNames : cleanNames path = rest := by rw [← hself, clean_names_render hvalid]
    have hpathRooted : isRooted path = false := by
      rw [← hself]
      exact is_rooted_render fun name hname => (hvalid name hname).valid
    have hbaseNames : cleanNames d.baseDir = [] := by
      rw [hpathNames] at hnames
      exact List.self_eq_append_left.mp hnames
    constructor
    · rw [clean, ← hrooted, hpathRooted, hbaseNames]
      rfl
    · rw [clean, hpathRooted, hpathNames, hself]
  · rintro ⟨hbase, hclean⟩
    have hbaseNames : cleanNames d.baseDir = [] := by
      rw [← clean_names_clean, hbase]
      decide
    have hbaseRooted : isRooted d.baseDir = false := by
      rw [← is_rooted_clean, hbase]
      decide
    rw [hbaseNames, List.nil_append] at hnames
    rw [← hnames, ← hbaseRooted, ← hrooted]
    exact hclean

/-- **Manual and automatic ingest agree exactly on clean paths below the working directory**: for
a file below `BaseDir` that `HandleFileChange` does not skip, the two lead to the same index, the
same blobs and the same announcement only if `BaseDir` is the working directory and the path is
clean. -/
theorem ingest_paths_agree_iff {now : Int} {content : Bytes} (io : IndexAnswers)
    (hinside : Inside d.baseDir path) (hext : ext path ≠ ascii ".db")
    (hquiet : (d.isQuiet now path).2 = false) (hdisk : d.node.disk (clean path) = some content)
    (hdiffers : (d.node.index.getFileMeta (d.changeFileID path)).map FileMeta.merkleRoot ≠
      some (computeRoot sha256 (chunksFrom sha256 0 0 (cdc.cut content)))) :
    let changed := d.handleFileChange sha256 cdc path now io
    let ingested := d.ingest sha256 cdc path io
    (changed.1.node.index = ingested.1.node.index ∧
        changed.1.node.objects = ingested.1.node.objects ∧
        changed.2.map changed.1.announcement = ingested.2.map ingested.1.announcement) ↔
      clean d.baseDir = dot ∧ clean path = path := by
  intro changed ingested
  obtain ⟨quiet, hchanged⟩ := d.handle_file_change_eq sha256 cdc path now io
  have hcontent : d.changeContent sha256 cdc path now = some content := by
    simpa [changeContent, hext, hquiet, hdisk, Option.filter_some] using hdiffers
  rw [hcontent] at hchanged
  have hingested : ingested = ((d.indexFile sha256 path (chunksFrom sha256 0 0 (cdc.cut content))
      io).1, some (d.indexFile sha256 path (chunksFrom sha256 0 0 (cdc.cut content)) io).2) := by
    rcases d.ingest_cases sha256 cdc path io with ⟨hnone, -⟩ | ⟨found, hfound, hcase⟩
    · cases hnone.symm.trans hdisk
    · cases hfound.symm.trans hdisk
      exact hcase
  rw [← change_file_id_eq_self_iff hinside]
  constructor
  · rintro ⟨-, -, hannounced⟩
    rw [show changed = _ from hchanged, hingested] at hannounced
    exact congrArg FileAnnouncement.fileID (Option.some.inj hannounced)
  · intro hself
    rw [show changed = _ from hchanged, hingested, hself]
    exact ⟨rfl, rfl, rfl⟩

/-- A node that watches the given directory, with a file at a path. -/
def watching (baseDir path : GoString) : Daemon :=
  .new (ascii "a") baseDir .empty (fun _ => none) fun found =>
    if found = path then some [1] else none

/-- They agree on a file below the working directory. -/
theorem ingest_paths_agree_in_working_directory :
    let d := watching (ascii ".") (ascii "f")
    let io : IndexAnswers := ⟨fun _ => true, true⟩
    (d.handleFileChange .sample .fixed (ascii "f") 0 io).1.node.index =
      (d.ingest .sample .fixed (ascii "f") io).1.node.index := by
  intro d io
  have hinside : Inside d.baseDir (ascii "f") := ⟨by decide, [ascii "f"], by decide, by decide⟩
  have hdisk : d.node.disk (clean (ascii "f")) = some [1] := by decide
  have hquiet : (d.isQuiet 0 (ascii "f")).2 = false := by decide
  have hdiffers : (d.node.index.getFileMeta (d.changeFileID (ascii "f"))).map FileMeta.merkleRoot ≠
      some (computeRoot .sample (chunksFrom .sample 0 0 (FastCdc.fixed.cut [1]))) := by decide
  have hagree := ingest_paths_agree_iff io hinside (by decide) hquiet hdisk hdiffers
  exact (hagree.mpr ⟨by decide, by decide⟩).1

/-- **They do not agree on a file below any other directory.** A node that watches `/d` announces
`/d/f` as `f` or as `/d/f`, and a peer that watches `/p` writes it to `/p/f` or to `/p/d/f`. -/
theorem ingest_paths_differ :
    let d := watching (ascii "/d") (ascii "/d/f")
    let io : IndexAnswers := ⟨fun _ => true, true⟩
    let changed := d.handleFileChange .sample .fixed (ascii "/d/f") 0 io
    let ingested := d.ingest .sample .fixed (ascii "/d/f") io
    changed.2.map FileMeta.fileID = some (ascii "f") ∧
      ingested.2.map FileMeta.fileID = some (ascii "/d/f") ∧
      changed.1.node.index.getFileMeta (ascii "/d/f") = none ∧
      ingested.1.node.index.getFileMeta (ascii "/d/f") ≠ none ∧
      outPath (ascii "/p") (ascii "f") = ascii "/p/f" ∧
      outPath (ascii "/p") (ascii "/d/f") = ascii "/p/d/f" := by
  decide

end Daemon

end NuSync
