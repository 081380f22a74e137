import NuSync.Go.Utf8

/-!
# Paths

`path/filepath` on Unix: `Clean`, `Join` and `Rel`, all of them on the text alone. `Clean`
keeps a stack of names and lets `..` cancel the name below it. `inside_join_iff` says for which
relative paths `Join` stays below its first argument, whatever that is.
-/

namespace NuSync.Go

/-- The path separator. -/
def separator : UInt8 := 0x2F

/-- The name of the directory itself. -/
def dot : GoString := [0x2E]

/-- The name of the parent directory. -/
def dotdot : GoString := [0x2E, 0x2E]

/-- The names in a path; repeated slashes count as one. -/
def components (path : GoString) : List GoString :=
  (path.splitOn separator).filter fun name => name ≠ []

/-- The path starts with a slash. -/
def isRooted (path : GoString) : Bool := path.head? == some separator

/-- `Clean` reads one name. The stack holds the last name on top. -/
def cleanStep (rooted : Bool) (stack : List GoString) (name : GoString) : List GoString :=
  if name = dot then stack
  else if name = dotdot then
    match stack with
    | [] => if rooted then [] else [dotdot]
    | top :: rest => if top = dotdot then dotdot :: top :: rest else rest
  else name :: stack

/-- The names of the cleaned path. -/
def cleanNames (path : GoString) : List GoString :=
  ((components path).foldl (cleanStep (isRooted path)) []).reverse

/-- The text of a path with these names. -/
def render (rooted : Bool) (names : List GoString) : GoString :=
  if rooted then separator :: [separator].intercalate names
  else if names = [] then dot
  else [separator].intercalate names

/-- `filepath.Clean`. -/
def clean (path : GoString) : GoString := render (isRooted path) (cleanNames path)

/-- `filepath.Join` of two elements: empty ones are ignored. -/
def join (base elem : GoString) : GoString :=
  if base ≠ [] then clean (base ++ separator :: elem)
  else if elem ≠ [] then clean elem
  else []

/-- What is left of two lists after their common start. -/
def dropCommon : List GoString → List GoString → List GoString × List GoString
  | a :: as, b :: bs => if a = b then dropCommon as bs else (a :: as, b :: bs)
  | as, bs => (as, bs)

/-- `filepath.Rel`; `none` is the error that the path cannot be made relative. -/
def rel (base target : GoString) : Option GoString :=
  if clean target = clean base then some dot
  else if isRooted base ≠ isRooted target then none
  else
    let targetNames := if clean target = dot then [dot] else cleanNames target
    let (up, down) := dropCommon (cleanNames base) targetNames
    if up.head? = some dotdot then none
    else some ([separator].intercalate (up.map (fun _ => dotdot) ++ down))

/-- `filepath.Abs` in the working directory; `none` is the error that it is not known. -/
def abs (wd : Option GoString) (path : GoString) : Option GoString :=
  if isRooted path then some (clean path) else wd.map fun wd => join wd path

/-- `filepath.Base`: the last name. -/
def baseName (path : GoString) : GoString :=
  if path = [] then dot
  else ((components path).getLast?).getD [separator]

/-- `filepath.Ext`: from the last dot of the last name on. -/
def ext (path : GoString) : GoString :=
  let name := ((path.splitOn separator).getLast?).getD []
  if 0x2E ∈ name then 0x2E :: ((name.splitOn 0x2E).getLast?).getD [] else []

/-- `out` is `base` or lies below it: the names of the cleaned `base` come first and no `..`
follows them. -/
def Inside (base out : GoString) : Prop :=
  isRooted out = isRooted base ∧
    ∃ rest, cleanNames out = cleanNames base ++ rest ∧ dotdot ∉ rest

/-- Read as a relative path, the path leaves the directory it starts from. -/
def Climbs (path : GoString) : Prop :=
  dotdot ∈ (components path).foldl (cleanStep false) []

instance (path : GoString) : Decidable (Climbs path) := inferInstanceAs (Decidable (_ ∈ _))

/-- A name that `Clean` keeps: the name of a file or directory. -/
structure IsName (name : GoString) : Prop where
  ne_nil : name ≠ []
  no_separator : separator ∉ name
  ne_dot : name ≠ dot
  ne_dotdot : name ≠ dotdot

instance (name : GoString) : Decidable (IsName name) :=
  decidable_of_iff (name ≠ [] ∧ separator ∉ name ∧ name ≠ dot ∧ name ≠ dotdot)
    ⟨fun ⟨h₁, h₂, h₃, h₄⟩ => ⟨h₁, h₂, h₃, h₄⟩, fun ⟨h₁, h₂, h₃, h₄⟩ => ⟨h₁, h₂, h₃, h₄⟩⟩

/-- A proper name is not empty and has no slash. -/
theorem IsName.valid {name : GoString} (h : IsName name) : name ≠ [] ∧ separator ∉ name :=
  ⟨h.ne_nil, h.no_separator⟩

/-- It is not one that `Clean` reads in its own way. -/
theorem IsName.plain {name : GoString} (h : IsName name) : name ≠ dot ∧ name ≠ dotdot :=
  ⟨h.ne_dot, h.ne_dotdot⟩

/-! ## Taking paths apart -/

@[simp] theorem components_append (p q : GoString) :
    components (p ++ separator :: q) = components p ++ components q := by
  simp [components, List.splitOn_append_cons_self]

theorem mem_components {path name : GoString} (h : name ∈ components path) :
    name ≠ [] ∧ separator ∉ name := by
  simp only [components, List.mem_filter, decide_eq_true_eq] at h
  exact ⟨h.2, (mem_split_on h.1).1⟩

/-- Joining names that contain no slash and taking the path apart again gives the names. -/
theorem components_intercalate {names : List GoString}
    (h : ∀ name ∈ names, name ≠ [] ∧ separator ∉ name) :
    components ([separator].intercalate names) = names := by
  cases names with
  | nil => decide
  | cons name rest =>
      rw [components, List.splitOn_intercalate _ (fun n hn => (h n hn).2) (by simp)]
      exact List.filter_eq_self.mpr fun n hn => by simpa using (h n hn).1

theorem is_rooted_append {base : GoString} (h : base ≠ []) (tail : GoString) :
    isRooted (base ++ tail) = isRooted base := by
  cases base with
  | nil => exact absurd rfl h
  | cons b rest => rfl

theorem is_rooted_intercalate {names : List GoString}
    (h : ∀ name ∈ names, name ≠ [] ∧ separator ∉ name) :
    isRooted ([separator].intercalate names) = false := by
  cases names with
  | nil => rfl
  | cons name rest =>
      obtain ⟨hne, hsep⟩ := h name (by simp)
      obtain ⟨b, tail, rfl⟩ := List.exists_cons_of_ne_nil hne
      have hb : b ≠ separator := (List.ne_of_not_mem_cons hsep).symm
      cases rest with
      | nil => simp [isRooted, hb]
      | cons next rest => simp [List.intercalate_cons_cons, isRooted, hb]

/-! ## The stack of `Clean` -/

/-- Pushing proper names. -/
theorem foldl_clean_step_names (rooted : Bool) {names : List GoString}
    (h : ∀ name ∈ names, name ≠ dot ∧ name ≠ dotdot) (stack : List GoString) :
    names.foldl (cleanStep rooted) stack = names.reverse ++ stack := by
  induction names generalizing stack with
  | nil => rfl
  | cons name rest ih =>
      obtain ⟨hdot, hdotdot⟩ := h name (by simp)
      rw [List.foldl_cons, ih fun n hn => h n (by simp [hn])]
      simp [cleanStep, hdot, hdotdot]

/-- Going up `ups` times. -/
def climb (rooted : Bool) (ups : Nat) (stack : List GoString) : List GoString :=
  (fun stack => cleanStep rooted stack dotdot)^[ups] stack

theorem climb_succ (rooted : Bool) (ups : Nat) (stack : List GoString) :
    climb rooted (ups + 1) stack = cleanStep rooted (climb rooted ups stack) dotdot :=
  Function.iterate_succ_apply' _ _ _

theorem climb_nil (rooted : Bool) (ups : Nat) :
    climb rooted ups [] = if rooted then [] else List.replicate ups dotdot := by
  induction ups with
  | zero => cases rooted <;> rfl
  | succ ups ih =>
      rw [climb_succ, ih]
      cases rooted with
      | true => rfl
      | false => cases ups <;> rfl

theorem foldl_replicate_dotdot (rooted : Bool) (ups : Nat) (stack : List GoString) :
    (List.replicate ups dotdot).foldl (cleanStep rooted) stack = climb rooted ups stack := by
  induction ups generalizing stack with
  | zero => rfl
  | succ ups ih =>
      rw [List.replicate_succ, List.foldl_cons, ih]
      exact (Function.iterate_succ_apply _ _ _).symm

/-- Reading a path is going up some number of times and then down some proper names, the same
from every stack. -/
theorem exists_foldl_clean_step (names : List GoString) :
    ∃ kept ups, (∀ name ∈ kept, name ∈ names ∧ name ≠ dot ∧ name ≠ dotdot) ∧
      ∀ rooted stack, names.foldl (cleanStep rooted) stack = kept ++ climb rooted ups stack := by
  induction names using List.reverseRecOn with
  | nil => exact ⟨[], 0, by simp, fun _ _ => rfl⟩
  | append_singleton names name ih =>
      obtain ⟨kept, ups, hkept, hfold⟩ := ih
      simp only [List.foldl_append, List.foldl_cons, List.foldl_nil, hfold]
      have hold : ∀ n ∈ kept, n ∈ names ++ [name] ∧ n ≠ dot ∧ n ≠ dotdot := fun n hn =>
        ⟨List.mem_append_left _ (hkept n hn).1, (hkept n hn).2⟩
      by_cases hdot : name = dot
      · exact ⟨kept, ups, hold, fun _ _ => by simp [cleanStep, hdot]⟩
      by_cases hdotdot : name = dotdot
      · subst hdotdot
        cases kept with
        | nil => exact ⟨[], ups + 1, by simp, fun _ _ => (climb_succ _ _ _).symm⟩
        | cons top kept =>
            have htop := (hkept top (by simp)).2.2
            exact ⟨kept, ups, fun n hn => hold n (by simp [hn]),
              fun _ _ => by simp [cleanStep, hdot, htop]⟩
      · refine ⟨name :: kept, ups, ?_, fun _ _ => by simp [cleanStep, hdot, hdotdot]⟩
        intro n hn
        rcases List.mem_cons.mp hn with rfl | hn
        · exact ⟨by simp, hdot, hdotdot⟩
        · exact hold n hn

/-- The names of a clean path: some `..`, none if the path is rooted, and then proper names. -/
theorem exists_clean_names (path : GoString) :
    ∃ kept ups, (∀ name ∈ kept, IsName name) ∧
      cleanNames path =
        (if isRooted path then [] else List.replicate ups dotdot) ++ kept := by
  obtain ⟨kept, ups, hkept, hfold⟩ := exists_foldl_clean_step (components path)
  refine ⟨kept.reverse, ups, fun name hname => ?_, ?_⟩
  · obtain ⟨hmem, hdot, hdotdot⟩ := hkept name (List.mem_reverse.mp hname)
    obtain ⟨hne, hsep⟩ := mem_components hmem
    exact ⟨hne, hsep, hdot, hdotdot⟩
  · rw [cleanNames, hfold, climb_nil, List.reverse_append]
    split_ifs <;> simp

theorem clean_names_valid {path name : GoString} (h : name ∈ cleanNames path) :
    name ≠ [] ∧ separator ∉ name := by
  obtain ⟨kept, ups, hkept, heq⟩ := exists_clean_names path
  rw [heq, List.mem_append] at h
  rcases h with h | h
  · split_ifs at h
    · cases h
    · rw [List.eq_of_mem_replicate h]
      decide
  · exact (hkept name h).valid

/-- Reading the names of a clean path gives them back. -/
theorem foldl_clean_names (path : GoString) :
    (cleanNames path).foldl (cleanStep (isRooted path)) [] = (cleanNames path).reverse := by
  obtain ⟨kept, ups, hkept, heq⟩ := exists_clean_names path
  have hnames (stack : List GoString) :=
    foldl_clean_step_names (isRooted path) (fun n hn => (hkept n hn).plain) stack
  rw [heq, List.foldl_append, hnames, List.reverse_append]
  congr 1
  cases isRooted path with
  | true => rfl
  | false =>
      rw [if_neg Bool.false_ne_true, foldl_replicate_dotdot, climb_nil, List.reverse_replicate,
        if_neg Bool.false_ne_true]

/-- A path is rendered with or without a leading slash. -/
theorem is_rooted_render {rooted : Bool} {names : List GoString}
    (h : ∀ name ∈ names, name ≠ [] ∧ separator ∉ name) :
    isRooted (render rooted names) = rooted := by
  unfold render
  split_ifs with hrooted hnames
  · rw [hrooted]
    rfl
  · rw [Bool.not_eq_true] at hrooted
    rw [hrooted]
    rfl
  · rw [Bool.not_eq_true] at hrooted
    rw [hrooted, is_rooted_intercalate h]

/-- Reading the text of a path is reading its names. -/
theorem foldl_components_render {rooted : Bool} {names : List GoString}
    (h : ∀ name ∈ names, name ≠ [] ∧ separator ∉ name) :
    (components (render rooted names)).foldl (cleanStep rooted) [] =
      names.foldl (cleanStep rooted) [] := by
  have hnames : components ([separator].intercalate names) = names := components_intercalate h
  unfold render
  split_ifs with hrooted hempty
  · rw [← List.nil_append (separator :: _), components_append, hnames]
    rfl
  · rw [hempty]
    rfl
  · rw [hnames]

@[simp] theorem is_rooted_clean (path : GoString) : isRooted (clean path) = isRooted path :=
  is_rooted_render fun _ hn => clean_names_valid hn

/-- `Clean` is idempotent on the names. -/
@[simp] theorem clean_names_clean (path : GoString) :
    cleanNames (clean path) = cleanNames path := by
  rw [cleanNames, is_rooted_clean, clean, foldl_components_render fun _ hn => clean_names_valid hn,
    foldl_clean_names, List.reverse_reverse]

/-- The path of proper names has these names. -/
theorem clean_names_render {rooted : Bool} {names : List GoString}
    (h : ∀ name ∈ names, IsName name) : cleanNames (render rooted names) = names := by
  have hvalid : ∀ name ∈ names, name ≠ [] ∧ separator ∉ name := fun n hn => (h n hn).valid
  rw [cleanNames, is_rooted_render hvalid, foldl_components_render hvalid,
    foldl_clean_step_names rooted fun n hn => (h n hn).plain, List.append_nil, List.reverse_reverse]

@[simp] theorem clean_clean (path : GoString) : clean (clean path) = clean path := by
  rw [clean, is_rooted_clean, clean_names_clean, clean]

/-! ## Joining -/

theorem clean_join (base : GoString) {elem : GoString} (h : elem ≠ []) :
    clean (join base elem) = join base elem := by
  unfold join
  split_ifs
  · exact clean_clean _
  · exact clean_clean _

/-- What `Join` makes of a path below a directory. -/
theorem clean_names_join {base : GoString} (h : base ≠ []) (elem : GoString) :
    cleanNames (join base elem) =
      ((components elem).foldl (cleanStep (isRooted base)) (cleanNames base).reverse).reverse := by
  rw [join, if_pos h, clean_names_clean, cleanNames, is_rooted_append h, components_append,
    List.foldl_append, cleanNames, List.reverse_reverse]

theorem is_rooted_join {base : GoString} (h : base ≠ []) (elem : GoString) :
    isRooted (join base elem) = isRooted base := by
  rw [join, if_pos h, is_rooted_clean, is_rooted_append h]

/-- A path that does not climb is only appended. -/
theorem inside_join {base elem : GoString} (h : base ≠ []) (helem : ¬ Climbs elem) :
    Inside base (join base elem) := by
  obtain ⟨kept, ups, hkept, hfold⟩ := exists_foldl_clean_step (components elem)
  have hups : ups = 0 := by
    by_contra hne
    refine helem ?_
    rw [Climbs, hfold, climb_nil, List.mem_append]
    exact .inr (by simp [hne])
  subst hups
  refine ⟨is_rooted_join h elem, kept.reverse, ?_, fun hmem => ?_⟩
  · rw [clean_names_join h, hfold]
    simp [climb]
  · exact (hkept _ (List.mem_reverse.mp hmem)).2.2 rfl

/-- A path that climbs leaves some directory: one of two sibling directories is not the one it
comes back to. -/
theorem exists_not_inside_join {elem : GoString} (helem : Climbs elem) :
    ∃ base, base ≠ [] ∧ ¬ Inside base (join base elem) := by
  obtain ⟨kept, ups, hkept, hfold⟩ := exists_foldl_clean_step (components elem)
  obtain ⟨more, rfl⟩ : ∃ more, ups = more + 1 := by
    refine Nat.exists_eq_succ_of_ne_zero fun hzero => ?_
    rw [Climbs, hfold, hzero] at helem
    simp only [climb, Function.iterate_zero, id, List.append_nil] at helem
    exact (hkept _ helem).2.2 rfl
  -- the first step up cancels the directory, so what follows does not depend on it
  have hjoin {base name : GoString} (hbase : base ≠ []) (hrooted : isRooted base = false)
      (hname : name ≠ dotdot) (hnames : cleanNames base = [name]) :
      cleanNames (join base elem) = (kept ++ climb false more []).reverse := by
    rw [clean_names_join hbase, hrooted, hnames, hfold, climb, Function.iterate_succ_apply]
    simp [cleanStep, hname, climb, show dotdot ≠ dot by decide]
  have ha : cleanNames (ascii "a") = [ascii "a"] := by decide
  have hb : cleanNames (ascii "b") = [ascii "b"] := by decide
  by_contra hall
  push Not at hall
  obtain ⟨-, _, hina, -⟩ := hall (ascii "a") (by decide)
  obtain ⟨-, _, hinb, -⟩ := hall (ascii "b") (by decide)
  rw [hjoin (by decide) (by decide) (by decide) ha, ha] at hina
  rw [hjoin (by decide) (by decide) (by decide) hb, hb, hina] at hinb
  exact absurd (List.cons.inj hinb).1 (by decide)

/-- **A path stays below every directory it is joined to exactly if it does not climb.** -/
theorem inside_join_iff (elem : GoString) :
    (∀ base, base ≠ [] → Inside base (join base elem)) ↔ ¬ Climbs elem := by
  refine ⟨fun hinside hclimbs => ?_, fun helem base hbase => inside_join hbase helem⟩
  obtain ⟨base, hbase, hout⟩ := exists_not_inside_join hclimbs
  exact hout (hinside base hbase)

theorem drop_common_append (as bs : List GoString) : dropCommon as (as ++ bs) = ([], bs) := by
  induction as with
  | nil => cases bs <;> rfl
  | cons a as ih => simp [dropCommon, ih]

/-- Apart from `..`, the names of a clean path are proper ones. -/
theorem is_name_of_clean {path name : GoString} (h : name ∈ cleanNames path)
    (hne : name ≠ dotdot) : IsName name := by
  obtain ⟨kept, ups, hkept, heq⟩ := exists_clean_names path
  rw [heq, List.mem_append] at h
  rcases h with h | h
  · split_ifs at h
    · cases h
    · exact absurd (List.eq_of_mem_replicate h) hne
  · exact hkept name h

/-- `Rel` to a path below the base is the rest of its names. -/
theorem rel_of_inside {base path : GoString} {rest : List GoString}
    (hrooted : isRooted path = isRooted base) (hnames : cleanNames path = cleanNames base ++ rest) :
    rel base path = some (render false rest) := by
  cases rest with
  | nil =>
      have hsame : clean path = clean base := by
        rw [clean, clean, hrooted, hnames, List.append_nil]
      rw [rel, if_pos hsame]
      rfl
  | cons name rest =>
      have hbase : clean path ≠ clean base := by
        intro heq
        have hlength := congrArg (fun text => (cleanNames text).length) heq
        simp only [clean_names_clean, hnames, List.length_append, List.length_cons] at hlength
        omega
      have hdot : clean path ≠ dot := by
        intro heq
        have hlength := congrArg (fun text => (cleanNames text).length) heq
        rw [show cleanNames dot = [] by decide] at hlength
        simp [hnames] at hlength
      simp [rel, hbase, hdot, hrooted, hnames, drop_common_append, render]

/-- `Join` appends proper names. -/
theorem clean_names_join_names {base : GoString} (h : base ≠ []) {names : List GoString}
    (hnames : ∀ name ∈ names, IsName name) :
    cleanNames (join base ([separator].intercalate names)) = cleanNames base ++ names := by
  rw [clean_names_join h, components_intercalate fun n hn => (hnames n hn).valid,
    foldl_clean_step_names _ fun n hn => (hnames n hn).plain]
  simp

/-- `Rel` undoes `Join` for proper names. -/
theorem rel_join {base : GoString} (h : base ≠ []) {names : List GoString} (hne : names ≠ [])
    (hnames : ∀ name ∈ names, IsName name) :
    rel base (join base ([separator].intercalate names)) =
      some ([separator].intercalate names) := by
  rw [rel_of_inside (is_rooted_join h _) (clean_names_join_names h hnames)]
  simp [render, hne]

/-! ## Absolute paths -/

/-- The text is an absolute path that `Clean` leaves as it is. -/
def IsAbsClean (text : GoString) : Prop := isRooted text = true ∧ clean text = text

instance (text : GoString) : Decidable (IsAbsClean text) := inferInstanceAs (Decidable (_ ∧ _))

/-- An absolute clean path: the names on the way to it from the root. -/
structure AbsPath where
  names : List GoString
  proper : ∀ name ∈ names, IsName name

namespace AbsPath

/-- Its text. -/
def text (path : AbsPath) : GoString := render true path.names

variable (path : AbsPath)

@[simp] theorem is_rooted_text : isRooted path.text = true :=
  is_rooted_render fun name hname => (path.proper name hname).valid

@[simp] theorem clean_names_text : cleanNames path.text = path.names :=
  clean_names_render path.proper

@[simp] theorem clean_text : clean path.text = path.text := by
  rw [clean, is_rooted_text, clean_names_text, text]

theorem text_ne_nil : path.text ≠ [] := by
  simp [text, render]

theorem text_inj {path other : AbsPath} : path.text = other.text ↔ path.names = other.names := by
  constructor
  · intro heq
    rw [← path.clean_names_text, heq, other.clean_names_text]
  · intro heq
    rw [text, heq, text]

/-- The path with more names. -/
def append (names : List GoString) (h : ∀ name ∈ names, IsName name) : AbsPath where
  names := path.names ++ names
  proper name hname := (List.mem_append.mp hname).elim (path.proper name) (h name)

/-- `Join` appends proper names. -/
theorem join_text {names : List GoString} (h : ∀ name ∈ names, IsName name) :
    join path.text ([separator].intercalate names) = (path.append names h).text := by
  have hclean : clean (join path.text ([separator].intercalate names)) =
      join path.text ([separator].intercalate names) := by
    rw [join, if_pos path.text_ne_nil, clean_clean]
  rw [← hclean, clean, is_rooted_join path.text_ne_nil, path.is_rooted_text,
    clean_names_join_names path.text_ne_nil h, path.clean_names_text]
  rfl

/-- Every absolute clean path is the text of one. -/
theorem exists_text_eq {text : GoString} (h : IsAbsClean text) :
    ∃ path : AbsPath, path.text = text := by
  obtain ⟨hrooted, hclean⟩ := h
  obtain ⟨kept, ups, hkept, hnames⟩ := exists_clean_names text
  rw [hrooted, if_pos rfl, List.nil_append] at hnames
  refine ⟨⟨cleanNames text, hnames ▸ hkept⟩, ?_⟩
  rw [AbsPath.text, ← hrooted]
  exact hclean

end AbsPath

/-- What is left after the common start begins differently, unless one of the two is used up. -/
theorem drop_common_spec (as bs : List GoString) :
    ∃ common, as = common ++ (dropCommon as bs).1 ∧ bs = common ++ (dropCommon as bs).2 ∧
      ((dropCommon as bs).1 = [] ↔ as <+: bs) := by
  induction as generalizing bs with
  | nil => exact ⟨[], rfl, by simp [dropCommon], by simp [dropCommon]⟩
  | cons a as ih =>
      cases bs with
      | nil => exact ⟨[], rfl, rfl, by simp [dropCommon]⟩
      | cons b bs =>
          by_cases hab : a = b
          · subst hab
            obtain ⟨common, has, hbs, hused⟩ := ih bs
            simp only [dropCommon, if_true]
            refine ⟨a :: common, ?_, ?_, ?_⟩
            · rw [List.cons_append, ← has]
            · rw [List.cons_append, ← hbs]
            · rw [hused, List.cons_prefix_cons, and_iff_right rfl]
          · refine ⟨[], by simp [dropCommon, hab], by simp [dropCommon, hab], ?_⟩
            simp [dropCommon, hab, List.cons_prefix_cons]

/-- `Rel` between two absolute paths: up from what the base has of its own, and down to the
target. -/
theorem rel_abs {base target : AbsPath} (h : base.names ≠ target.names) :
    let rest := dropCommon base.names target.names
    rel base.text target.text =
      some ([separator].intercalate (rest.1.map (fun _ => dotdot) ++ rest.2)) := by
  intro rest
  have hne : target.text ≠ base.text := by
    intro heq
    have hnames := congrArg cleanNames heq
    rw [AbsPath.clean_names_text, AbsPath.clean_names_text] at hnames
    exact h hnames.symm
  have hdot : target.text ≠ dot := by
    intro heq
    have hrooted := target.is_rooted_text
    rw [heq] at hrooted
    cases hrooted
  have hup : rest.1.head? ≠ some dotdot := by
    intro hhead
    obtain ⟨common, hbase, -⟩ := drop_common_spec base.names target.names
    have hmem : dotdot ∈ base.names := by
      rw [hbase]
      exact List.mem_append_right _ (List.mem_of_mem_head? hhead)
    exact (base.proper dotdot hmem).ne_dotdot rfl
  simp [rel, hne, hdot, rest, hup]

/-! ## Paths that went through JSON -/

theorem json_string_intercalate (names : List GoString) :
    jsonString ([separator].intercalate names) =
      [separator].intercalate (names.map jsonString) := by
  induction names with
  | nil => rfl
  | cons name rest ih =>
      cases rest with
      | nil => simp
      | cons next rest =>
          rw [List.intercalate_cons_cons, List.append_assoc, List.singleton_append,
            json_string_append_ascii (by decide), ih]
          simp [List.intercalate_cons_cons]

/-- JSON works on each name of a path separately. -/
theorem components_json_string (path : GoString) :
    components (jsonString path) = (components path).map jsonString := by
  have hsplit : (jsonString path).splitOn separator = (path.splitOn separator).map jsonString := by
    have hpath : [separator].intercalate (path.splitOn separator) = path :=
      List.intercalate_splitOn separator
    conv_lhs => rw [← hpath, json_string_intercalate]
    refine List.splitOn_intercalate _ ?_ (by simp)
    simp only [List.mem_map, forall_exists_index, and_imp, forall_apply_eq_imp_iff₂]
    intro name hname hsep
    rcases mem_json_string hsep with hsep | hsep
    · exact (mem_split_on hname).1 hsep
    · exact absurd hsep (by decide)
  have hempty := json_string_eq_ascii_iff (show ∀ b ∈ ([] : Bytes), b < 0x80 by simp) rfl
  rw [components, hsplit, List.filter_map, components]
  congr 2
  funext name
  simp [hempty]

/-- Only the name of the parent directory is rewritten to it. -/
theorem json_string_eq_dotdot (name : GoString) : jsonString name = dotdot ↔ name = dotdot :=
  json_string_eq_ascii_iff (show ∀ b ∈ dotdot, b < 0x80 by simp [dotdot]) (by decide) name

theorem clean_step_json_string (stack : List GoString) (name : GoString) :
    cleanStep false (stack.map jsonString) (jsonString name) =
      (cleanStep false stack name).map jsonString := by
  have hdot := json_string_eq_ascii_iff (show ∀ b ∈ dot, b < 0x80 by simp [dot]) (by decide)
  have hkept : jsonString dotdot = dotdot := by decide
  unfold cleanStep
  simp only [hdot, json_string_eq_dotdot, Bool.false_eq_true, if_false]
  split_ifs
  · rfl
  · cases stack with
    | nil => simp [hkept]
    | cons top rest =>
        simp only [List.map_cons, json_string_eq_dotdot]
        split_ifs <;> simp [hkept]
  · rfl

/-- **JSON neither makes a path climb nor keeps it from climbing.** -/
theorem climbs_json_string (path : GoString) : Climbs (jsonString path) ↔ Climbs path := by
  have hfold (names stack : List GoString) :
      (names.map jsonString).foldl (cleanStep false) (stack.map jsonString) =
        (names.foldl (cleanStep false) stack).map jsonString := by
    induction names generalizing stack with
    | nil => rfl
    | cons name rest ih =>
        rw [List.map_cons, List.foldl_cons, clean_step_json_string, ih, List.foldl_cons]
  rw [Climbs, components_json_string, ← List.map_nil (f := jsonString), hfold, List.mem_map]
  simp [json_string_eq_dotdot, Climbs]

end NuSync.Go
