import Mathlib

/-!
# Replicas that compare notes in pairs

In an exchange one replica looks at the state of another and takes it over if the contents differ
and the other one ranks higher: by the level of its state, and on one level by its name. Nothing
is known about the order of exchanges but that they come in rounds in which every replica looks at
every other one.

While no level rises, what a replica can take over comes from above, so the content of the highest
replica seeps down one place in every round (`led_round`). A level can rise only so often, and
`agree_of_rounds` says that after enough rounds all contents are equal.
-/

namespace NuSync.Lib.Pairwise

variable {ι X C L N : Type*}

/-- All contents are equal. -/
def Agree (content : X → C) (held : ι → X) : Prop := ∀ i j, content (held i) = content (held j)

/-- Every replica looks at every other one. -/
def Covers (round : List (ι × ι)) : Prop := ∀ i j, i ≠ j → (i, j) ∈ round

/-- No level differs. -/
def Flat (level : X → L) (held held' : ι → X) : Prop := ∀ i, level (held' i) = level (held i)

/-- The rank of a replica: the level of its state, then its name. -/
def key (level : X → L) (name : ι → N) (held : ι → X) (i : ι) : L ×ₗ N :=
  toLex (level (held i), name i)

theorem Flat.key_eq {level : X → L} {held held' : ι → X} (h : Flat level held held')
    (name : ι → N) (i : ι) : key level name held' i = key level name held i := by
  rw [key, key, h i]

/-! ## Ranks -/

section Ranks

variable [LinearOrder L] [LinearOrder N] [Fintype ι] (level : X → L) (name : ι → N)

/-- How many replicas rank higher. -/
def above (held : ι → X) (i : ι) : Nat :=
  (Finset.univ.filter fun j => key level name held i < key level name held j).card

/-- How many of the levels are left to the replicas. -/
def missing (levels : Finset L) (held : ι → X) : Nat :=
  ∑ i, (levels.filter fun l => level (held i) < l).card

variable {level name} {held held' : ι → X}

theorem above_lt {i j : ι} (h : key level name held i < key level name held j) :
    above level name held j < above level name held i := by
  refine Finset.card_lt_card ((Finset.ssubset_iff_of_subset fun l hl => ?_).mpr ⟨j, ?_, ?_⟩)
  · rw [Finset.mem_filter] at hl ⊢
    exact ⟨hl.1, h.trans hl.2⟩
  · exact Finset.mem_filter.mpr ⟨Finset.mem_univ j, h⟩
  · exact fun hmem => absurd (Finset.mem_filter.mp hmem).2 (lt_irrefl _)

variable (level name held) in
theorem above_lt_card (i : ι) : above level name held i < Fintype.card ι := by
  refine Finset.card_lt_card ((Finset.ssubset_iff_of_subset (Finset.subset_univ _)).mpr
    ⟨i, Finset.mem_univ i, ?_⟩)
  exact fun hmem => absurd (Finset.mem_filter.mp hmem).2 (lt_irrefl _)

variable (level name held) in
/-- If there is a replica at all, one ranks highest. -/
theorem exists_top (i : ι) : ∃ top, ∀ j, key level name held j ≤ key level name held top := by
  obtain ⟨top, -, htop⟩ :=
    Finset.exists_max_image Finset.univ (key level name held) ⟨i, Finset.mem_univ i⟩
  exact ⟨top, fun j => htop j (Finset.mem_univ j)⟩

/-- No replica ranks above one exactly if it is the highest. -/
theorem above_eq_zero_iff {i : ι} :
    above level name held i = 0 ↔ ∀ j, key level name held j ≤ key level name held i := by
  simp [above, Finset.filter_eq_empty_iff]

theorem Flat.above_eq (h : Flat level held held') (i : ι) :
    above level name held' i = above level name held i := by simp only [above, h.key_eq]

/-- States that are not lower and not all on their old level leave fewer levels. -/
theorem missing_lt {levels : Finset L} (hlevels : ∀ i, level (held' i) ∈ levels)
    (hle : ∀ i, level (held i) ≤ level (held' i)) (hflat : ¬ Flat level held held') :
    missing level levels held' < missing level levels held := by
  obtain ⟨i, hi⟩ := not_forall.mp hflat
  have hsub (j : ι) : levels.filter (fun l => level (held' j) < l) ⊆
      levels.filter fun l => level (held j) < l := by
    intro l hl
    rw [Finset.mem_filter] at hl ⊢
    exact ⟨hl.1, (hle j).trans_lt hl.2⟩
  refine Finset.sum_lt_sum (fun j _ => Finset.card_le_card (hsub j)) ⟨i, Finset.mem_univ i, ?_⟩
  refine Finset.card_lt_card ((Finset.ssubset_iff_of_subset (hsub i)).mpr ⟨level (held' i), ?_, ?_⟩)
  · exact Finset.mem_filter.mpr ⟨hlevels i, lt_of_le_of_ne (hle i) (Ne.symm hi)⟩
  · exact fun hmem => absurd (Finset.mem_filter.mp hmem).2 (lt_irrefl _)

/-- A replica on one of the levels has fewer left than there are. -/
theorem missing_le {levels : Finset L} (hlevels : ∀ i, level (held i) ∈ levels) :
    missing level levels held ≤ Fintype.card ι * (levels.card - 1) := by
  refine (Finset.sum_le_card_nsmul _ _ (levels.card - 1) fun i _ => ?_).trans (by simp)
  refine Nat.le_sub_one_of_lt (Finset.card_lt_card ?_)
  refine (Finset.ssubset_iff_of_subset (Finset.filter_subset _ _)).mpr
    ⟨level (held i), hlevels i, ?_⟩
  exact fun hmem => absurd (Finset.mem_filter.mp hmem).2 (lt_irrefl _)

end Ranks

/-! ## One exchange -/

section Exchange

variable [DecidableEq ι] [DecidableEq C] [LinearOrder L] [LinearOrder N]
  (content : X → C) (level : X → L) (name : ι → N) (held : ι → X)

/-- The first replica looks at the second one. -/
def exchange (e : ι × ι) : ι → X :=
  if content (held e.1) ≠ content (held e.2) ∧ key level name held e.1 < key level name held e.2
  then Function.update held e.1 (held e.2) else held

/-- A replica that changes takes over a state that ranks higher. -/
theorem exchange_cases (e : ι × ι) (i : ι) :
    exchange content level name held e i = held i ∨
      exchange content level name held e i = held e.2 ∧
        key level name held i < key level name held e.2 := by
  unfold exchange
  split_ifs with hwants
  · by_cases hi : i = e.1
    · subst hi
      exact .inr ⟨Function.update_self .., hwants.2⟩
    · exact .inl (Function.update_of_ne hi ..)
  · exact .inl rfl

/-- Levels never fall. -/
theorem level_le_exchange (e : ι × ι) (i : ι) :
    level (held i) ≤ level (exchange content level name held e i) := by
  rcases exchange_cases content level name held e i with hsame | ⟨hnew, hlt⟩
  · rw [hsame]
  · rw [hnew]
    exact (Prod.Lex.toLex_lt_toLex.mp hlt).elim le_of_lt fun h => h.1.le

theorem level_le_foldl (events : List (ι × ι)) (i : ι) :
    level (held i) ≤ level (events.foldl (exchange content level name) held i) := by
  induction events generalizing held with
  | nil => exact le_rfl
  | cons e events ih => exact (level_le_exchange content level name held e i).trans (ih _)

/-- Every state was some replica's at the start. -/
theorem exists_foldl_eq (events : List (ι × ι)) (i : ι) :
    ∃ j, events.foldl (exchange content level name) held i = held j := by
  induction events generalizing held with
  | nil => exact ⟨i, rfl⟩
  | cons e events ih =>
      obtain ⟨j, hj⟩ := ih (exchange content level name held e)
      rw [List.foldl_cons, hj]
      rcases exchange_cases content level name held e j with hsame | ⟨hnew, -⟩
      · exact ⟨j, hsame⟩
      · exact ⟨e.2, hnew⟩

variable {content level name held}

/-- Once all contents are equal nothing is taken over any more. -/
theorem Agree.foldl_eq (h : Agree content held) (events : List (ι × ι)) :
    events.foldl (exchange content level name) held = held := by
  induction events with
  | nil => rfl
  | cons e events ih =>
      rw [List.foldl_cons, exchange, if_neg fun hwants => hwants.1 (h e.1 e.2), ih]

/-! ## Exchanges that raise no level -/

/-- If the levels are the same at the end, they are the same in between. -/
theorem flat_append (first : List (ι × ι)) {second : List (ι × ι)}
    (h : Flat level held ((first ++ second).foldl (exchange content level name) held)) :
    Flat level held (first.foldl (exchange content level name) held) ∧
      Flat level (first.foldl (exchange content level name) held)
        (second.foldl (exchange content level name)
          (first.foldl (exchange content level name) held)) := by
  rw [List.foldl_append] at h
  have hfirst (i : ι) : level (first.foldl (exchange content level name) held i) =
      level (held i) :=
    le_antisymm ((level_le_foldl content level name _ second i).trans (h i).le)
      (level_le_foldl content level name held first i)
  exact ⟨hfirst, fun i => (h i).trans (hfirst i).symm⟩

theorem flat_cons {e : ι × ι} {events : List (ι × ι)}
    (h : Flat level held ((e :: events).foldl (exchange content level name) held)) :
    Flat level held (exchange content level name held e) ∧
      Flat level (exchange content level name held e)
        (events.foldl (exchange content level name) (exchange content level name held e)) :=
  flat_append [e] h

variable [Fintype ι]

/-- The replicas with at most `k` others above them have the content `final`. -/
def Led (content : X → C) (level : X → L) (name : ι → N) (final : C) (k : Nat) (held : ι → X) :
    Prop :=
  ∀ i, above level name held i ≤ k → content (held i) = final

variable {final : C} {k : Nat}

/-- A replica right below the led ones keeps the content once it has it. -/
theorem content_exchange (hled : Led content level name final k held) {e : ι × ι} {i : ι}
    (hi : above level name held i ≤ k + 1) (hcontent : content (held i) = final) :
    content (exchange content level name held e i) = final := by
  rcases exchange_cases content level name held e i with hsame | ⟨hnew, hlt⟩
  · rw [hsame, hcontent]
  · rw [hnew]
    exact hled e.2 (by have := above_lt hlt; omega)

theorem led_exchange (hled : Led content level name final k held) {e : ι × ι}
    (hflat : Flat level held (exchange content level name held e)) :
    Led content level name final k (exchange content level name held e) := by
  intro i hi
  rw [hflat.above_eq] at hi
  exact content_exchange hled (Nat.le_succ_of_le hi) (hled i hi)

/-- A replica that looks at the highest one has its content afterwards. -/
theorem content_exchange_top (hname : Function.Injective name)
    (hled : Led content level name final k held) {top i : ι}
    (htop : ∀ j, key level name held j ≤ key level name held top) (hne : i ≠ top) :
    content (exchange content level name held (i, top) i) = final := by
  have hfinal : content (held top) = final :=
    hled top ((above_eq_zero_iff.mpr htop).le.trans (Nat.zero_le k))
  have hlt : key level name held i < key level name held top := by
    refine lt_of_le_of_ne (htop i) fun heq => hne (hname ?_)
    exact congrArg Prod.snd (toLex.injective heq)
  unfold exchange
  split_ifs with hwants
  · rw [Function.update_self, hfinal]
  · by_contra hother
    exact hwants ⟨fun heq => hother (heq.trans hfinal), hlt⟩

/-- What a replica right below the led ones has stays over any exchanges that raise no level. -/
theorem content_foldl (hled : Led content level name final k held) {events : List (ι × ι)}
    (hflat : Flat level held (events.foldl (exchange content level name) held)) {i : ι}
    (hi : above level name held i ≤ k + 1) (hcontent : content (held i) = final) :
    content (events.foldl (exchange content level name) held i) = final := by
  induction events generalizing held with
  | nil => exact hcontent
  | cons e events ih =>
      obtain ⟨hfirst, hrest⟩ := flat_cons hflat
      exact ih (led_exchange hled hfirst) hrest (by rwa [hfirst.above_eq])
        (content_exchange hled hi hcontent)

/-- If such a replica looks at the highest one on the way, it has its content at the end. -/
theorem content_of_mem (hname : Function.Injective name)
    (hled : Led content level name final k held) {events : List (ι × ι)}
    (hflat : Flat level held (events.foldl (exchange content level name) held)) {top i : ι}
    (htop : ∀ j, key level name held j ≤ key level name held top) (hne : i ≠ top)
    (hi : above level name held i ≤ k + 1) (hmem : (i, top) ∈ events) :
    content (events.foldl (exchange content level name) held i) = final := by
  induction events generalizing held with
  | nil => cases hmem
  | cons e events ih =>
      obtain ⟨hfirst, hrest⟩ := flat_cons hflat
      rw [List.foldl_cons]
      rcases List.mem_cons.mp hmem with rfl | hmem
      · exact content_foldl (led_exchange hled hfirst) hrest (by rwa [hfirst.above_eq])
          (content_exchange_top hname hled htop hne)
      · refine ih (led_exchange hled hfirst) hrest (fun j => ?_) (by rwa [hfirst.above_eq]) hmem
        rw [hfirst.key_eq, hfirst.key_eq]
        exact htop j

/-- **A round that raises no level leads one more replica.** -/
theorem led_round (hname : Function.Injective name) (hled : Led content level name final k held)
    {round : List (ι × ι)} (hround : Covers round)
    (hflat : Flat level held (round.foldl (exchange content level name) held)) :
    Led content level name final (k + 1) (round.foldl (exchange content level name) held) := by
  intro i hi
  rw [hflat.above_eq] at hi
  obtain ⟨top, htop⟩ := exists_top level name held i
  by_cases hne : i = top
  · subst hne
    exact content_foldl hled hflat hi
      (hled i ((above_eq_zero_iff.mpr htop).le.trans (Nat.zero_le k)))
  · exact content_of_mem hname hled hflat htop hne hi (hround i top hne)

theorem led_rounds (hname : Function.Injective name) (hled : Led content level name final k held)
    {rounds : List (List (ι × ι))} (hrounds : ∀ round ∈ rounds, Covers round)
    (hflat : Flat level held (rounds.flatten.foldl (exchange content level name) held)) :
    Led content level name final (k + rounds.length)
      (rounds.flatten.foldl (exchange content level name) held) := by
  induction rounds generalizing held k with
  | nil => exact hled
  | cons round rounds ih =>
      rw [List.flatten_cons] at hflat ⊢
      obtain ⟨hfirst, hrest⟩ := flat_append round hflat
      have hnext := ih (led_round hname hled (hrounds round List.mem_cons_self) hfirst)
        (fun later hlater => hrounds later (List.mem_cons_of_mem round hlater)) hrest
      rw [List.foldl_append, List.length_cons, Nat.add_comm rounds.length, ← Nat.add_assoc]
      exact hnext

/-- As many rounds as there are replicas make all contents equal if they raise no level. -/
theorem agree_of_flat (hname : Function.Injective name) {rounds : List (List (ι × ι))}
    (hrounds : ∀ round ∈ rounds, Covers round) (hlen : Fintype.card ι ≤ rounds.length)
    (hflat : Flat level held (rounds.flatten.foldl (exchange content level name) held)) :
    Agree content (rounds.flatten.foldl (exchange content level name) held) := by
  intro i j
  obtain ⟨top, htop⟩ := exists_top level name held i
  -- at first only the highest replica is led
  have hled : Led content level name (content (held top)) 0 held := by
    intro l hl
    have hkey := le_antisymm (htop l) (above_eq_zero_iff.mp (Nat.le_zero.mp hl) top)
    rw [hname (congrArg Prod.snd (toLex.injective hkey))]
  have hall (l : ι) : content (rounds.flatten.foldl (exchange content level name) held l) =
      content (held top) := by
    refine led_rounds hname hled hrounds hflat l ?_
    have := above_lt_card level name (rounds.flatten.foldl (exchange content level name) held) l
    omega
  rw [hall i, hall j]

/-! ## Any exchanges -/

/-- **Enough rounds make all contents equal**, whatever the order of the exchanges in them. -/
theorem agree_of_rounds (hname : Function.Injective name) {levels : Finset L}
    (hlevels : ∀ i, level (held i) ∈ levels) {rounds : List (List (ι × ι))}
    (hrounds : ∀ round ∈ rounds, Covers round)
    (hlen : (missing level levels held + 1) * Fintype.card ι ≤ rounds.length) :
    Agree content (rounds.flatten.foldl (exchange content level name) held) := by
  induction hmissing : missing level levels held using Nat.strong_induction_on
    generalizing held rounds with
  | _ left ih =>
      subst hmissing
      rw [Nat.add_mul, Nat.one_mul] at hlen
      have htake : Fintype.card ι ≤ (rounds.take (Fintype.card ι)).length := by
        rw [List.length_take]
        omega
      have hfirst (round) (h : round ∈ rounds.take (Fintype.card ι)) : Covers round :=
        hrounds round (List.mem_of_mem_take h)
      rw [← List.take_append_drop (Fintype.card ι) rounds, List.flatten_append, List.foldl_append]
      set middle := (rounds.take (Fintype.card ι)).flatten.foldl (exchange content level name) held
      by_cases hflat : Flat level held middle
      · -- the content of the highest replica has reached everyone, and stays
        have hagree := agree_of_flat hname hfirst htake hflat
        rw [hagree.foldl_eq]
        exact hagree
      · have hin (i : ι) : level (middle i) ∈ levels := by
          obtain ⟨j, hj⟩ : ∃ j, middle i = held j := exists_foldl_eq content level name held _ i
          rw [hj]
          exact hlevels j
        have hless := missing_lt hin (fun i => level_le_foldl content level name held _ i) hflat
        refine ih _ hless hin (fun round h => hrounds round (List.mem_of_mem_drop h)) ?_ rfl
        have hmul := Nat.mul_le_mul_right (Fintype.card ι) hless
        rw [Nat.succ_eq_add_one] at hmul
        rw [List.length_drop]
        omega

end Exchange

end NuSync.Lib.Pairwise
