import NuSync.Lib.PairTree

/-!
# Combining a list from the top

`splitFold` cuts a list at the largest power of two below its length and combines the values of
the two parts. `collapse_eq_splitFold` says that combining neighbours level by level, with an odd
last element promoted, gives the same value: as long as the first part has a power of two of
elements and the second no more than that, a level of the whole is a level of each part.
-/

namespace NuSync.Lib

variable {α : Type*}

/-- The largest power of two below `n`, if there is one. -/
def splitPoint (n : Nat) : Nat := 2 ^ Nat.log 2 (n - 1)

/-- For a list of at least two elements the split point is what its name says. -/
theorem isGreatest_splitPoint {n : Nat} (hn : 2 ≤ n) :
    IsGreatest {k | k < n ∧ ∃ j, k = 2 ^ j} (splitPoint n) := by
  have hpred : n - 1 ≠ 0 := by omega
  refine ⟨⟨?_, Nat.log 2 (n - 1), rfl⟩, ?_⟩
  · have hle : splitPoint n ≤ n - 1 := Nat.pow_log_le_self 2 hpred
    omega
  · intro k hk
    obtain ⟨hlt, j, rfl⟩ := hk
    have hj : j ≤ Nat.log 2 (n - 1) := by
      apply Nat.le_log_of_pow_le (by decide)
      omega
    exact Nat.pow_le_pow_right (by decide) hj

example : (splitPoint 4, splitPoint 5, splitPoint 8, splitPoint 9) = (2, 4, 4, 8) := by decide

theorem splitPoint_pos (n : Nat) : 0 < splitPoint n := Nat.two_pow_pos _

theorem splitPoint_lt {n : Nat} (hn : 2 ≤ n) : splitPoint n < n := (isGreatest_splitPoint hn).1.1

/-- The second part is not longer than the first. -/
theorem le_two_mul_splitPoint {n : Nat} (hn : 2 ≤ n) : n ≤ 2 * splitPoint n := by
  have hlt : n - 1 < 2 ^ (Nat.log 2 (n - 1) + 1) := Nat.lt_pow_succ_log_self (by decide) (n - 1)
  rw [Nat.pow_succ] at hlt
  unfold splitPoint
  omega

/-- The value of a list: that of its only element, or the values of the two parts combined. An
empty list has the value `empty`. -/
def splitFold (op : α → α → α) (empty : α) (values : List α) : α :=
  if values.length < 2 then values.head?.getD empty
  else
    op (splitFold op empty (values.take (splitPoint values.length)))
      (splitFold op empty (values.drop (splitPoint values.length)))
termination_by values.length
decreasing_by
  all_goals
    rename_i hlong
    have hlt := splitPoint_lt (not_lt.mp hlong)
    have hpos := splitPoint_pos values.length
    simp only [List.length_take, List.length_drop]
    omega

/-- A level of a list whose first part can be paired up by itself. -/
theorem pairUp_append (op : α → α → α) (rest : List α) :
    ∀ {front : List α}, front.length % 2 = 0 →
      pairUp op (front ++ rest) = pairUp op front ++ pairUp op rest
  | [], _ => rfl
  | [_], heven => by simp at heven
  | a :: b :: front, heven => by
      have hfront : front.length % 2 = 0 := by
        simp only [List.length_cons] at heven
        omega
      simp only [List.cons_append, pairUp, pairUp_append op rest hfront]

/-- More rounds than there are elements make no difference. -/
theorem collapse_of_le (op : α → α → α) {fuel : Nat} {level : List α} (h : level.length ≤ fuel) :
    collapse op fuel level = collapse op level.length level := by
  suffices hboth : ∀ n fuel (level : List α), level.length ≤ n → level.length ≤ fuel →
      collapse op fuel level = collapse op n level from hboth _ _ level le_rfl h
  intro n
  induction n with
  | zero =>
      intro fuel level hn _
      have hshort : ¬ 1 < level.length := by omega
      cases fuel with
      | zero => rfl
      | succ fuel => rw [collapse, collapse, if_neg hshort]
  | succ n ih =>
      intro fuel level hn hfuel
      have hlen := length_pairUp op level
      by_cases hlong : 1 < level.length
      · obtain ⟨fuel, rfl⟩ : ∃ k, fuel = k + 1 := Nat.exists_eq_succ_of_ne_zero (by omega)
        rw [collapse, if_pos hlong, collapse, if_pos hlong]
        exact ih fuel (pairUp op level) (by omega) (by omega)
      · cases fuel with
        | zero => rw [collapse, collapse, if_neg hlong]
        | succ fuel => rw [collapse, if_neg hlong, collapse, if_neg hlong]

/-- Collapsing a list is collapsing its next level. -/
theorem collapse_pairUp (op : α → α → α) (level : List α) :
    collapse op level.length level =
      collapse op (pairUp op level).length (pairUp op level) := by
  match level with
  | [] => rfl
  | [_] => rfl
  | a :: b :: rest =>
      have hlen := length_pairUp op (a :: b :: rest)
      have hlong : 1 < (a :: b :: rest).length := by simp
      rw [← collapse_of_le op (show (pairUp op (a :: b :: rest)).length ≤ rest.length + 1 by
        simp only [hlen, List.length_cons]
        omega)]
      show collapse op (rest.length + 1 + 1) (a :: b :: rest) = _
      rw [collapse, if_pos hlong]

/-- A list whose first part has a power of two of elements, and its second part at most as many,
collapses to the two values combined. -/
theorem collapse_append (op : α → α → α) (j : Nat) {front rest : List α}
    (hfront : front.length = 2 ^ j) (hpos : 0 < rest.length) (hrest : rest.length ≤ 2 ^ j) :
    ∃ a b, collapse op front.length front = [a] ∧ collapse op rest.length rest = [b] ∧
      collapse op (front ++ rest).length (front ++ rest) = [op a b] := by
  induction j generalizing front rest with
  | zero =>
      obtain ⟨a, rfl⟩ := List.length_eq_one_iff.mp hfront
      obtain ⟨b, rfl⟩ : ∃ b, rest = [b] := List.length_eq_one_iff.mp (by omega)
      exact ⟨a, b, rfl, rfl, rfl⟩
  | succ j ih =>
      -- one level up the two parts are halved, and the goal is the one for `j`
      have heven : front.length % 2 = 0 := by
        rw [hfront, Nat.pow_succ]
        omega
      have hfront' := length_pairUp op front
      have hrest' := length_pairUp op rest
      rw [Nat.pow_succ] at hfront hrest
      rw [collapse_pairUp op front, collapse_pairUp op rest, collapse_pairUp op (front ++ rest),
        pairUp_append op rest heven]
      exact ih (by omega) (by omega) (by omega)

/-- **Level by level or from the top.** A nonempty list collapses to the value that splitting it
gives. -/
theorem collapse_eq_splitFold (op : α → α → α) (empty : α) {values : List α} (hne : values ≠ []) :
    collapse op values.length values = [splitFold op empty values] := by
  have hpos : 0 < values.length := List.length_pos_of_ne_nil hne
  rw [splitFold]
  split_ifs with hshort
  · obtain ⟨a, rfl⟩ := List.length_eq_one_iff.mp (show values.length = 1 by omega)
    rfl
  · have hlong : 2 ≤ values.length := not_lt.mp hshort
    have hlt := splitPoint_lt hlong
    have hle := le_two_mul_splitPoint hlong
    have hsplit := splitPoint_pos values.length
    have htake : (values.take (splitPoint values.length)).length = splitPoint values.length := by
      rw [List.length_take]
      omega
    have hdrop : (values.drop (splitPoint values.length)).length =
        values.length - splitPoint values.length := List.length_drop
    have hrest : 0 < (values.drop (splitPoint values.length)).length := by omega
    have hsecond : (values.drop (splitPoint values.length)).length ≤ splitPoint values.length := by
      omega
    obtain ⟨a, b, ha, hb, hboth⟩ :=
      collapse_append op (Nat.log 2 (values.length - 1)) htake hrest hsecond
    rw [collapse_eq_splitFold op empty (List.ne_nil_of_length_pos (by omega))] at ha hb
    rw [List.take_append_drop] at hboth
    rw [hboth, (List.cons.inj ha).1, (List.cons.inj hb).1]
termination_by values.length

end NuSync.Lib
