import NuSync.Go.Path
import NuSync.Go.Text

/-!
# What is never to be watched

The node keeps its index and its blobs in `dataDir`. If they lay in the directory that is watched,
each blob would be ingested as a user file and make more blobs, so `NewDaemon` refuses a `dataDir`
inside `syncDir`. The check asks for one direction of nesting only: a `syncDir` inside `dataDir`
passes it. `internal_state_unwatched_iff` says which accepted pairs are safe.
-/

namespace NuSync

open Go

/-! ## The check -/

/-- `isSubPath`. -/
def isSubPath (wd : Option GoString) (base candidate : GoString) : Bool :=
  match Go.abs wd base, Go.abs wd candidate with
  | some absBase, some absCandidate =>
      match rel absBase absCandidate with
      | none => false
      | some r =>
          if r = dot then true
          else r ≠ dotdot && !(dotdot ++ [separator]).isPrefixOf r
  | _, _ => false

/-- A relative path made of proper names neither is `..` nor starts with it. -/
theorem not_up_of_proper {names : List GoString} (h : ∀ name ∈ names, IsName name) :
    [separator].intercalate names ≠ dotdot ∧
      ¬ (dotdot ++ [separator]) <+: [separator].intercalate names := by
  have hcomponents : components ([separator].intercalate names) = names :=
    components_intercalate fun name hname => (h name hname).valid
  have hdotdot : dotdot ∉ names := fun hmem => (h dotdot hmem).ne_dotdot rfl
  constructor
  · intro heq
    rw [heq] at hcomponents
    exact hdotdot (hcomponents ▸ by decide)
  · rintro ⟨tail, htail⟩
    rw [← htail, List.append_assoc, List.singleton_append, components_append] at hcomponents
    exact hdotdot (hcomponents ▸ List.mem_append_left _ (by decide))

/-- One that starts with a step up is `..` or starts with it. -/
theorem up_of_dotdot (rest : List GoString) :
    [separator].intercalate (dotdot :: rest) ≠ dot ∧
      ([separator].intercalate (dotdot :: rest) = dotdot ∨
        dotdot ++ [separator] <+: [separator].intercalate (dotdot :: rest)) := by
  cases rest with
  | nil => exact ⟨by decide, .inl (by decide)⟩
  | cons next rest =>
      rw [List.intercalate_cons_cons]
      exact ⟨by simp [dotdot, dot], .inr (List.prefix_append _ _)⟩

/-- What the check makes of the relative path. -/
theorem is_sub_path_of_rel {wd : Option GoString} {base candidate : AbsPath} {r : GoString}
    (hrel : rel base.text candidate.text = some r) :
    isSubPath wd base.text candidate.text = true ↔
      r = dot ∨ r ≠ dotdot ∧ ¬ dotdot ++ [separator] <+: r := by
  have habs (path : AbsPath) : Go.abs wd path.text = some path.text := by
    simp [Go.abs]
  simp only [isSubPath, habs, hrel]
  split_ifs with hdot
  · simp [hdot]
  · simp [hdot, ← List.isPrefixOf_iff_prefix]

/-- **The check is exact**: it finds a path inside another exactly if the names of the one come
first in the other. Names that start with two dots are names like any other. -/
theorem is_sub_path_iff (wd : Option GoString) (base candidate : AbsPath) :
    isSubPath wd base.text candidate.text = true ↔ base.names <+: candidate.names := by
  by_cases hsame : base.names = candidate.names
  · have hrel : rel base.text candidate.text = some dot := by
      rw [rel, if_pos]
      simp [AbsPath.text, hsame]
    simp [is_sub_path_of_rel hrel, hsame]
  · rw [is_sub_path_of_rel (rel_abs hsame)]
    obtain ⟨common, -, hcandidate, hused⟩ := drop_common_spec base.names candidate.names
    rw [← hused]
    generalize dropCommon base.names candidate.names = rest at hcandidate
    obtain ⟨up, down⟩ := rest
    cases up with
    | nil =>
        have hdown : ∀ name ∈ down, IsName name := fun name hname =>
          candidate.proper name (hcandidate ▸ List.mem_append_right _ hname)
        exact iff_of_true (.inr (not_up_of_proper hdown)) rfl
    | cons name up =>
        obtain ⟨hdot, hup⟩ := up_of_dotdot (up.map (fun _ => dotdot) ++ down)
        refine iff_of_false ?_ (List.cons_ne_nil name up)
        rintro (hsame | ⟨hne, hprefix⟩)
        · exact hdot hsame
        · exact hup.elim hne hprefix

/-! ## The files of the node -/

/-- The files a node writes for itself: the index, the blobs, and the blobs it is still writing. -/
inductive InternalFile where
  | metaDb
  | object (hash : Hash)
  | temporary (hash : Hash)

namespace InternalFile

/-- The directory of `dataDir` the file is in, none for the index. -/
def dir : InternalFile → Option GoString
  | .metaDb => none
  | .object _ => some (ascii "objects")
  | .temporary _ => some (ascii "tmp")

/-- The name of the file. -/
def base : InternalFile → GoString
  | .metaDb => ascii "meta.db"
  | .object hash => encodeHex hash.bytes
  | .temporary hash => encodeHex hash.bytes ++ ascii ".tmp"

/-- The names that `NewDaemon` and `CASBlobStore` join to `dataDir`. -/
def names (file : InternalFile) : List GoString := file.dir.toList ++ [file.base]

/-- The path of the file. -/
def path (dataDir : GoString) (file : InternalFile) : GoString :=
  join dataDir ([separator].intercalate file.names)

end InternalFile

/-- A digest and an extension make a proper name. -/
theorem is_name_hex (hash : Hash) {extension : GoString} (h : separator ∉ extension) :
    IsName (encodeHex hash.bytes ++ extension) := by
  obtain ⟨b, tail, hcons⟩ : ∃ b tail, encodeHex hash.bytes = b :: tail := by
    obtain ⟨byte, bytes, hbytes⟩ := List.exists_cons_of_length_pos
      (show 0 < hash.bytes.length by rw [hash.length_eq]; omega)
    exact ⟨_, _, by rw [hbytes, encodeHex, List.flatMap_cons, List.cons_append]⟩
  have hfirst : b ≠ 0x2E := by
    rintro rfl
    have hmem : 0x2E ∈ encodeHex hash.bytes := by
      rw [hcons]
      exact List.mem_cons_self
    exact absurd (mem_encode_hex hmem) (by decide)
  refine ⟨by simp [hcons], ?_, ?_, ?_⟩
  · intro hmem
    rcases List.mem_append.mp hmem with hdigit | hother
    · exact absurd (mem_encode_hex hdigit) (by decide)
    · exact h hother
  · simp [hcons, dot, hfirst]
  · simp [hcons, dotdot, hfirst]

theorem InternalFile.proper (file : InternalFile) : ∀ name ∈ file.names, IsName name := by
  intro name hname
  rcases List.mem_append.mp hname with hdir | hbase
  · cases file with
    | metaDb => cases hdir
    | object | temporary =>
        obtain rfl := List.mem_singleton.mp hdir
        decide
  · obtain rfl := List.mem_singleton.mp hbase
    cases file with
    | metaDb => decide
    | object hash =>
        have hname : IsName (encodeHex hash.bytes ++ []) := is_name_hex hash (by simp)
        rwa [List.append_nil] at hname
    | temporary hash => exact is_name_hex hash (by decide)

/-- The path lies below the directory and is not the directory itself. -/
def Below (dir out : GoString) : Prop := Inside dir out ∧ clean out ≠ clean dir

/-- Below an absolute path are those whose names go on from its own. -/
theorem below_iff {dir out : AbsPath} :
    Below dir.text out.text ↔ ∃ rest, rest ≠ [] ∧ out.names = dir.names ++ rest := by
  unfold Below Inside
  rw [Ne, out.clean_text, dir.clean_text, AbsPath.text_inj, out.is_rooted_text, dir.is_rooted_text,
    out.clean_names_text, dir.clean_names_text]
  constructor
  · rintro ⟨⟨-, rest, hnames, -⟩, hne⟩
    refine ⟨rest, ?_, hnames⟩
    rintro rfl
    exact hne (by rw [hnames, List.append_nil])
  · rintro ⟨rest, hrest, hnames⟩
    refine ⟨⟨rfl, rest, hnames, fun hmem => ?_⟩, by simpa [hnames] using hrest⟩
    exact (out.proper dotdot (hnames ▸ List.mem_append_right _ hmem)).ne_dotdot rfl

/-- A list that goes on from another one and from a third that is no part of that one goes on with
names before and after. -/
theorem exists_split_of_append {syncDir dataDir names rest : List GoString}
    (h : dataDir ++ names = syncDir ++ rest) (hout : ¬ syncDir <+: dataDir) :
    ∃ front, front ≠ [] ∧ syncDir = dataDir ++ front ∧ names = front ++ rest := by
  rcases List.append_eq_append_iff.mp h with ⟨front, hsync, hnames⟩ | ⟨front, hdata, -⟩
  · refine ⟨front, ?_, hsync, hnames⟩
    rintro rfl
    exact hout (by rw [hsync, List.append_nil])
  · exact absurd ⟨front, hdata.symm⟩ hout

/-- With a pair of directories that is accepted, an internal file lies below `syncDir` exactly if
`syncDir` is its own directory. -/
theorem internal_below_iff {wd : Option GoString} {syncDir dataDir : AbsPath}
    (haccepted : isSubPath wd syncDir.text dataDir.text = false) (file : InternalFile) :
    Below syncDir.text (file.path dataDir.text) ↔
      ∃ name ∈ file.dir, syncDir.names = dataDir.names ++ [name] := by
  have hout : ¬ syncDir.names <+: dataDir.names := by
    rw [← is_sub_path_iff wd, haccepted]
    exact Bool.false_ne_true
  rw [InternalFile.path, dataDir.join_text file.proper, below_iff]
  constructor
  · rintro ⟨rest, hrest, hnames⟩
    obtain ⟨front, hfront, hsync, hsplit⟩ := exists_split_of_append hnames hout
    have hrestPos : 0 < rest.length := List.length_pos_of_ne_nil hrest
    have hfrontPos : 0 < front.length := List.length_pos_of_ne_nil hfront
    have hlength := congrArg List.length hsplit
    unfold InternalFile.names at hsplit hlength
    cases hdir : file.dir with
    | none =>
        simp [hdir] at hlength
        omega
    | some name =>
        simp only [hdir, Option.toList_some, List.cons_append, List.nil_append, List.length_cons,
          List.length_nil, List.length_append] at hsplit hlength
        obtain ⟨first, rfl⟩ := List.length_eq_one_iff.mp (by omega : front.length = 1)
        obtain ⟨rfl, -⟩ := List.cons.inj hsplit
        exact ⟨name, rfl, hsync⟩
  · rintro ⟨name, hname, hsync⟩
    refine ⟨[file.base], by simp, ?_⟩
    simp [AbsPath.append, InternalFile.names, Option.mem_def.mp hname, hsync]

/-- When `syncDir` is a directory of `dataDir`. -/
theorem text_eq_join_iff {syncDir dataDir : AbsPath} {name : GoString} (h : IsName name) :
    syncDir.text = join dataDir.text name ↔ syncDir.names = dataDir.names ++ [name] := by
  have hnames : ∀ other ∈ [name], IsName other := fun other hother =>
    List.mem_singleton.mp hother ▸ h
  have htext : [separator].intercalate [name] = name := List.intercalate_singleton
  rw [← htext, dataDir.join_text hnames, AbsPath.text_inj, htext]
  rfl

/-- **Internal state is not watched, unless `syncDir` is one of the two directories of the blob
store.** A pair of absolute clean paths that `NewDaemon` accepts has no internal file below
`syncDir` exactly if `syncDir` is neither `objects` nor `tmp` in `dataDir`. -/
theorem internal_state_unwatched_iff {wd : Option GoString} {syncDir dataDir : GoString}
    (hsync : IsAbsClean syncDir) (hdata : IsAbsClean dataDir)
    (haccepted : isSubPath wd syncDir dataDir = false) :
    (∀ file : InternalFile, ¬ Below syncDir (file.path dataDir)) ↔
      syncDir ≠ join dataDir (ascii "objects") ∧ syncDir ≠ join dataDir (ascii "tmp") := by
  obtain ⟨syncDir, rfl⟩ := AbsPath.exists_text_eq hsync
  obtain ⟨dataDir, rfl⟩ := AbsPath.exists_text_eq hdata
  have hobjects : IsName (ascii "objects") := by decide
  have htmp : IsName (ascii "tmp") := by decide
  rw [Ne, Ne, text_eq_join_iff hobjects, text_eq_join_iff htmp]
  simp only [internal_below_iff haccepted]
  constructor
  · intro hall
    refine ⟨fun hsync => hall (.object .zero) ⟨_, rfl, hsync⟩, fun hsync => ?_⟩
    exact hall (.temporary .zero) ⟨_, rfl, hsync⟩
  · rintro ⟨hobjects, htmp⟩ file ⟨name, hname, hsync⟩
    cases file with
    | metaDb => cases hname
    | object hash =>
        cases hname
        exact hobjects hsync
    | temporary hash =>
        cases hname
        exact htmp hsync

/-- With the default layout nothing internal is watched. -/
theorem internal_state_unwatched_sibling :
    isSubPath none (ascii "/d") (ascii "/d-nusync-data") = false ∧
      ∀ file : InternalFile, ¬ Below (ascii "/d") (file.path (ascii "/d-nusync-data")) := by
  have hsync : IsAbsClean (ascii "/d") := by decide
  have hdata : IsAbsClean (ascii "/d-nusync-data") := by decide
  have haccepted : isSubPath none (ascii "/d") (ascii "/d-nusync-data") = false := by decide
  exact ⟨haccepted,
    (internal_state_unwatched_iff hsync hdata haccepted).mpr ⟨by decide, by decide⟩⟩

/-- **A watched blob store.** With its data in `/data` a node may be told to watch
`/data/objects`, and every blob it stores lies there. -/
theorem watched_blob_store :
    isSubPath none (ascii "/data/objects") (ascii "/data") = false ∧
      ∀ hash, Below (ascii "/data/objects") ((InternalFile.object hash).path (ascii "/data")) := by
  obtain ⟨syncDir, hsync⟩ : ∃ path : AbsPath, path.text = ascii "/data/objects" :=
    ⟨⟨[ascii "data", ascii "objects"], by decide⟩, by decide⟩
  obtain ⟨dataDir, hdata⟩ : ∃ path : AbsPath, path.text = ascii "/data" :=
    ⟨⟨[ascii "data"], by decide⟩, by decide⟩
  have haccepted : isSubPath none syncDir.text dataDir.text = false := by
    rw [hsync, hdata]
    decide
  have hnames : syncDir.names = dataDir.names ++ [ascii "objects"] := by
    rw [← syncDir.clean_names_text, ← dataDir.clean_names_text, hsync, hdata]
    decide
  rw [← hsync, ← hdata]
  refine ⟨haccepted, fun hash => ?_⟩
  exact (internal_below_iff haccepted (.object hash)).mpr ⟨ascii "objects", rfl, hnames⟩

end NuSync
