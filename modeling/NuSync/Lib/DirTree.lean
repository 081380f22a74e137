import Mathlib

/-!
# Directory trees

A directory tree as its entries in order, each a file or a directory with entries of its own. A path
is the list of names that lead to it from the root. `kind_create` says what creating an entry
changes, and `mem_walk` which directories are met on a walk that does not enter the hidden ones.
-/

namespace NuSync.Lib

/-- What a path can lead to. -/
inductive EntryKind where
  | file
  | dir
  deriving DecidableEq

/-- The entries of a directory. -/
inductive Forest (N : Type*) where
  | nil
  | file (name : N) (rest : Forest N)
  | dir (name : N) (entries rest : Forest N)

namespace Forest

variable {N : Type*}

/-- The names of the entries. -/
def names : Forest N → List N
  | .nil => []
  | .file name rest | .dir name _ rest => name :: rest.names

/-- No two entries of a directory have one name. -/
def Proper : Forest N → Prop
  | .nil => True
  | .file name rest => name ∉ rest.names ∧ rest.Proper
  | .dir name entries rest => name ∉ rest.names ∧ entries.Proper ∧ rest.Proper

/-- Walk through the directories below a path, parents first. A hidden one is not entered. -/
def walk (hidden : N → Bool) : List N → Forest N → List (List N)
  | _, .nil => []
  | path, .file _ rest => walk hidden path rest
  | path, .dir name entries rest =>
      (if hidden name then []
        else (path ++ [name]) :: walk hidden (path ++ [name]) entries) ++ walk hidden path rest

variable [DecidableEq N]

/-- What a path leads to. -/
def kind : Forest N → List N → Option EntryKind
  | _, [] => some .dir
  | .nil, _ :: _ => none
  | .file name rest, first :: path =>
      if name = first then if path = [] then some .file else none
      else rest.kind (first :: path)
  | .dir name entries rest, first :: path =>
      if name = first then entries.kind path else rest.kind (first :: path)

/-- Create an entry. There must be nothing at the path, and a directory above it. -/
def create (new : EntryKind) : Forest N → List N → Option (Forest N)
  | _, [] => none
  | .nil, [name] =>
      match new with
      | .file => some (.file name .nil)
      | .dir => some (.dir name .nil .nil)
  | .nil, _ :: _ :: _ => none
  | .file name rest, first :: path =>
      if name = first then none else (rest.create new (first :: path)).map (.file name)
  | .dir name entries rest, first :: path =>
      if name = first then (entries.create new path).map fun entries => .dir name entries rest
      else (rest.create new (first :: path)).map (.dir name entries)

theorem kind_nil (forest : Forest N) : forest.kind [] = some .dir := by
  cases forest <;> rfl

theorem mem_names_of_kind {forest : Forest N} {first : N} {path : List N}
    (h : forest.kind (first :: path) ≠ none) : first ∈ forest.names := by
  induction forest with
  | nil => exact absurd rfl h
  | file name rest ih | dir name entries rest _ ih =>
      rw [kind] at h
      by_cases hname : name = first
      · exact hname ▸ List.mem_cons_self
      · rw [if_neg hname] at h
        exact List.mem_cons_of_mem _ (ih h)

/-! ## Creating -/

/-- The second is the first with a new entry at the path. -/
structure Created (new : EntryKind) (path : List N) (forest forest' : Forest N) : Prop where
  absent : forest.kind path = none
  parent : forest.kind path.dropLast = some .dir
  kind : ∀ other, forest'.kind other = if other = path then some new else forest.kind other

variable {new : EntryKind} {forest forest' rest rest' : Forest N} {name : N} {path : List N}

/-- An entry that is created among the rest is created, if the first entry stays as it is. -/
theorem Created.of_rest {first : N} (h : Created new (first :: path) rest rest')
    (hne : name ≠ first) (hname : ∀ path, forest'.kind (name :: path) = forest.kind (name :: path))
    (hrest : ∀ first path, name ≠ first → forest.kind (first :: path) = rest.kind (first :: path))
    (hrest' : ∀ first path, name ≠ first →
      forest'.kind (first :: path) = rest'.kind (first :: path)) :
    Created new (first :: path) forest forest' where
  absent := (hrest first path hne).trans h.absent
  parent := by
    have hparent := h.parent
    cases path with
    | nil => exact kind_nil forest
    | cons second path =>
        rw [List.dropLast_cons_cons] at hparent ⊢
        rw [hrest first _ hne, hparent]
  kind other := by
    cases other with
    | nil => rw [kind_nil, kind_nil, if_neg (List.cons_ne_nil first path).symm]
    | cons head other =>
        by_cases hhead : name = head
        · subst hhead
          rw [hname, if_neg (by simp [hne])]
        · rw [hrest' head other hhead, h.kind, hrest head other hhead]

/-- **What is created is at its path, and nothing else has changed.** -/
theorem created_of_create (h : forest.create new path = some forest') :
    Created new path forest forest' := by
  induction forest generalizing path forest' with
  | nil =>
      match path, h with
      | [name], h =>
          refine ⟨rfl, rfl, fun other => ?_⟩
          match other with
          | [] => rw [kind_nil, kind_nil, if_neg (by simp)]
          | head :: other =>
              cases new <;> obtain rfl := Option.some.inj h <;> by_cases hhead : name = head <;>
                cases other <;> simp [Forest.kind, hhead, eq_comm]
  | file name rest ih =>
      cases path with
      | nil => cases h
      | cons first path =>
          rw [create] at h
          split_ifs at h with hname
          obtain ⟨rest', hrest, rfl⟩ := Option.map_eq_some_iff.mp h
          refine (ih hrest).of_rest hname (fun path => ?_) (fun head path hhead => ?_)
            fun head path hhead => ?_
          · simp [Forest.kind]
          · simp [Forest.kind, hhead]
          · simp [Forest.kind, hhead]
  | dir name entries rest ihEntries ih =>
      cases path with
      | nil => cases h
      | cons first path =>
          rw [create] at h
          split_ifs at h with hname
          · obtain ⟨entries', hentries, rfl⟩ := Option.map_eq_some_iff.mp h
            obtain ⟨habsent, hparent, hkind⟩ := ihEntries hentries
            subst hname
            have hpath : path ≠ [] := by
              rintro rfl
              rw [kind_nil] at habsent
              cases habsent
            refine ⟨by simp [Forest.kind, habsent], ?_, fun other => ?_⟩
            · rw [List.dropLast_cons_of_ne_nil hpath]
              simp [Forest.kind, hparent]
            · cases other with
              | nil => rw [kind_nil, kind_nil, if_neg (by simp)]
              | cons head other =>
                  by_cases hhead : name = head
                  · simp [Forest.kind, hhead, hkind]
                  · simp [Forest.kind, hhead, Ne.symm hhead]
          · obtain ⟨rest', hrest, rfl⟩ := Option.map_eq_some_iff.mp h
            refine (ih hrest).of_rest hname (fun path => ?_) (fun head path hhead => ?_)
              fun head path hhead => ?_
            · simp [Forest.kind]
            · simp [Forest.kind, hhead]
            · simp [Forest.kind, hhead]

/-- The only new name in a directory is the first of the path. -/
theorem mem_names_create {first other : N} (h : forest.create new (first :: path) = some forest')
    (hmem : other ∈ forest'.names) : other ∈ forest.names ∨ other = first := by
  induction forest generalizing forest' with
  | nil =>
      match path, h with
      | [], h =>
          cases new <;> obtain rfl := Option.some.inj h <;>
            exact .inr (List.mem_singleton.mp hmem)
  | file name rest ih =>
      rw [create] at h
      split_ifs at h
      obtain ⟨rest', hrest, rfl⟩ := Option.map_eq_some_iff.mp h
      rcases List.mem_cons.mp hmem with rfl | hmem
      · exact .inl List.mem_cons_self
      · exact (ih hrest hmem).imp_left (List.mem_cons_of_mem name)
  | dir name entries rest _ ih =>
      rw [create] at h
      split_ifs at h
      · obtain ⟨entries', -, rfl⟩ := Option.map_eq_some_iff.mp h
        exact .inl hmem
      · obtain ⟨rest', hrest, rfl⟩ := Option.map_eq_some_iff.mp h
        rcases List.mem_cons.mp hmem with rfl | hmem
        · exact .inl List.mem_cons_self
        · exact (ih hrest hmem).imp_left (List.mem_cons_of_mem name)

theorem Proper.create (hproper : forest.Proper) (h : forest.create new path = some forest') :
    forest'.Proper := by
  induction forest generalizing path forest' with
  | nil =>
      match path, h with
      | [name], h =>
          cases new <;> obtain rfl := Option.some.inj h
          · exact ⟨List.not_mem_nil, trivial⟩
          · exact ⟨List.not_mem_nil, trivial, trivial⟩
  | file name rest ih =>
      cases path with
      | nil => cases h
      | cons first path =>
          rw [Forest.create] at h
          split_ifs at h with hname
          obtain ⟨rest', hrest, rfl⟩ := Option.map_eq_some_iff.mp h
          refine ⟨fun hmem => ?_, ih hproper.2 hrest⟩
          exact (mem_names_create hrest hmem).elim hproper.1 hname
  | dir name entries rest ihEntries ih =>
      obtain ⟨hnew, hentries, hrest⟩ := hproper
      cases path with
      | nil => cases h
      | cons first path =>
          rw [Forest.create] at h
          split_ifs at h with hname
          · obtain ⟨entries', hcreate, rfl⟩ := Option.map_eq_some_iff.mp h
            exact ⟨hnew, ihEntries hentries hcreate, hrest⟩
          · obtain ⟨rest', hcreate, rfl⟩ := Option.map_eq_some_iff.mp h
            refine ⟨fun hmem => ?_, hentries, ih hrest hcreate⟩
            exact (mem_names_create hcreate hmem).elim hnew hname

/-! ## Walking -/

/-- The name of the first entry is not one of the rest. -/
theorem ne_of_kind_rest (hnew : name ∉ rest.names) {first : N}
    (h : rest.kind (first :: path) = some .dir) : name ≠ first := by
  rintro rfl
  have hsome : rest.kind (name :: path) ≠ none := by simp [h]
  exact hnew (mem_names_of_kind hsome)

/-- **A walk meets the directories that are not hidden and have no hidden one above them.** -/
theorem mem_walk {hidden : N → Bool} (hproper : forest.Proper) {found : List N} :
    found ∈ walk hidden path forest ↔
      ∃ names, names ≠ [] ∧ found = path ++ names ∧ forest.kind names = some .dir ∧
        ∀ name ∈ names, hidden name = false := by
  induction forest generalizing path with
  | nil =>
      refine iff_of_false List.not_mem_nil ?_
      rintro ⟨names, hne, -, hkind, -⟩
      match names, hne, hkind with
      | _ :: _, _, hkind => cases hkind
  | file name rest ih =>
      rw [walk, ih hproper.2]
      refine exists_congr fun names => and_congr_right fun hne => and_congr_right fun _ =>
        and_congr_left fun _ => ?_
      obtain ⟨first, names, rfl⟩ := List.exists_cons_of_ne_nil hne
      constructor
      · intro hkind
        simp [kind, ne_of_kind_rest hproper.1 hkind, hkind]
      · intro hkind
        rw [kind] at hkind
        split_ifs at hkind
        · cases hkind
        · exact hkind
  | dir name entries rest ihEntries ih =>
      obtain ⟨hnew, hentries, hrest⟩ := hproper
      rw [walk, List.mem_append, ih hrest]
      constructor
      · rintro (hfound | ⟨names, hne, rfl, hkind, hvisible⟩)
        · -- the directory itself, or one below it
          split_ifs at hfound with hhidden
          · cases hfound
          · rw [Bool.not_eq_true] at hhidden
            rcases List.mem_cons.mp hfound with rfl | hbelow
            · exact ⟨[name], by simp, rfl, by simp [kind, kind_nil], by simpa using hhidden⟩
            · obtain ⟨names, -, rfl, hkind, hvisible⟩ := (ihEntries hentries).mp hbelow
              refine ⟨name :: names, by simp, by simp, by simpa [kind] using hkind, ?_⟩
              exact List.forall_mem_cons.mpr ⟨hhidden, hvisible⟩
        · obtain ⟨first, names, rfl⟩ := List.exists_cons_of_ne_nil hne
          refine ⟨_, hne, rfl, ?_, hvisible⟩
          rw [kind, if_neg (ne_of_kind_rest hnew hkind), hkind]
      · rintro ⟨names, hne, rfl, hkind, hvisible⟩
        obtain ⟨first, names, rfl⟩ := List.exists_cons_of_ne_nil hne
        rw [kind] at hkind
        split_ifs at hkind with hname
        · subst hname
          obtain ⟨hfirst, hnames⟩ := List.forall_mem_cons.mp hvisible
          left
          rw [if_neg (by simp [hfirst]), List.mem_cons]
          by_cases hself : names = []
          · exact .inl (by rw [hself])
          · exact .inr ((ihEntries hentries).mpr ⟨names, hself, by simp, hkind, hnames⟩)
        · exact .inr ⟨_, hne, rfl, hkind, hvisible⟩

end Forest

/-! ## Trees -/

/-- A directory tree: the entries of its root, with different names in each directory. -/
structure DirTree (N : Type*) where
  forest : Forest N
  proper : forest.Proper

namespace DirTree

variable {N : Type*} [DecidableEq N]

/-- What a path leads to. The root is a directory. -/
def kind (tree : DirTree N) (path : List N) : Option EntryKind := tree.forest.kind path

/-- Create an entry, if there is nothing at the path and a directory above it. -/
def create (tree : DirTree N) (new : EntryKind) (path : List N) : Option (DirTree N) :=
  match h : tree.forest.create new path with
  | some forest => some ⟨forest, tree.proper.create h⟩
  | none => none

/-- The directories that a walk from the root meets: the root, and what is not hidden below. -/
def walk (hidden : N → Bool) (tree : DirTree N) : List (List N) :=
  [] :: tree.forest.walk hidden []

variable {tree tree' : DirTree N} {new : EntryKind} {path : List N}

theorem kind_create (h : tree.create new path = some tree') :
    tree.kind path = none ∧ tree.kind path.dropLast = some .dir ∧
      ∀ other, tree'.kind other = if other = path then some new else tree.kind other := by
  unfold create at h
  split at h
  · next forest hforest =>
      obtain rfl := Option.some.inj h
      obtain ⟨habsent, hparent, hkind⟩ := Forest.created_of_create hforest
      exact ⟨habsent, hparent, hkind⟩
  · cases h

/-- What is there stays as it is. -/
theorem kind_create_of_some (h : tree.create new path = some tree') {other : List N}
    {kind : EntryKind} (hkind : tree.kind other = some kind) : tree'.kind other = some kind := by
  obtain ⟨habsent, -, hcreated⟩ := kind_create h
  have hne : other ≠ path := by
    rintro rfl
    cases habsent.symm.trans hkind
  rw [hcreated, if_neg hne, hkind]

theorem mem_walk {hidden : N → Bool} :
    path ∈ tree.walk hidden ↔
      tree.kind path = some .dir ∧ ∀ name ∈ path, hidden name = false := by
  rw [walk, List.mem_cons, Forest.mem_walk tree.proper]
  constructor
  · rintro (rfl | ⟨names, -, rfl, hkind, hvisible⟩)
    · exact ⟨Forest.kind_nil _, by simp⟩
    · exact ⟨hkind, hvisible⟩
  · rintro ⟨hkind, hvisible⟩
    by_cases hroot : path = []
    · exact .inl hroot
    · exact .inr ⟨path, hroot, rfl, hkind, hvisible⟩

end DirTree

end NuSync.Lib
