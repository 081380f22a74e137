import Mathlib

/-!
# Replacing one element of a list

A system whose parts are kept in a list takes a step by replacing one of them. `exists_split_set`
splits the list around the part that moves; what follows from it is what an invariant needs: the
other parts are still there, those with some property are the same up to order, and a sum over the
parts changes by what the one contributes.
-/

namespace NuSync.Lib

variable {α : Type*} {l : List α} {i : Nat} {a : α}

/-- The list around the element that is replaced. -/
theorem exists_split_set (h : l[i]? = some a) :
    ∃ front rest, l = front ++ a :: rest ∧ ∀ b, l.set i b = front ++ b :: rest := by
  obtain ⟨hi, hget⟩ := List.getElem?_eq_some_iff.mp h
  have hset (b : α) : l.set i b = l.take i ++ b :: l.drop (i + 1) := by
    rw [List.set_eq_take_append_cons_drop, if_pos hi]
  refine ⟨l.take i, l.drop (i + 1), ?_, hset⟩
  rw [← hset a, ← hget, List.set_getElem_self]

/-- An element is still there, unless it is the one that was replaced. -/
theorem mem_set_or (h : l[i]? = some a) {x : α} (hx : x ∈ l) (b : α) : x = a ∨ x ∈ l.set i b := by
  obtain ⟨front, rest, hl, hset⟩ := exists_split_set h
  rw [hl] at hx
  rw [hset]
  rcases List.mem_append.mp hx with hfront | hx
  · exact .inr (List.mem_append_left _ hfront)
  · exact (List.mem_cons.mp hx).imp_right fun hrest =>
      List.mem_append_right _ (List.mem_cons_of_mem b hrest)

/-- The new element is there. -/
theorem mem_set_new (h : l[i]? = some a) (b : α) : b ∈ l.set i b :=
  List.mem_set (List.getElem?_eq_some_iff.mp h).1 b

/-- Modifying an element is replacing it by what the function makes of it. -/
theorem modify_eq_set (h : l[i]? = some a) (f : α → α) : l.modify i f = l.set i (f a) := by
  rw [List.modify_eq_set_getElem?, h]
  rfl

/-- An element is still there, or what a function makes of it. -/
theorem mem_modify_or {f : α → α} {x : α} (h : x ∈ l) (i : Nat) :
    x ∈ l.modify i f ∨ f x ∈ l.modify i f := by
  obtain ⟨k, hk⟩ := List.mem_iff_getElem?.mp h
  by_cases hi : i = k
  · exact .inr (List.mem_of_getElem? (i := k) (by simp [hk, hi]))
  · exact .inl (List.mem_of_getElem? (i := k) (by simp [hk, hi]))

/-- What a function makes of the list does not change if it makes the same of both elements. -/
theorem map_set_of_eq {β : Type*} {f : α → β} (h : l[i]? = some a) {b : α} (hf : f b = f a) :
    (l.set i b).map f = l.map f := by
  obtain ⟨front, rest, hl, hset⟩ := exists_split_set h
  rw [hset, hl, List.map_append, List.map_append, List.map_cons, List.map_cons, hf]

/-- The elements with a property, when one without it is replaced. -/
theorem filter_set_perm {p : α → Bool} (h : l[i]? = some a) (ha : p a = false) (b : α) :
    ((l.set i b).filter p).Perm (l.filter p ++ [b].filter p) := by
  obtain ⟨front, rest, hl, hset⟩ := exists_split_set h
  have hold : l.filter p = front.filter p ++ rest.filter p := by
    rw [hl, List.filter_append, List.filter_cons_of_neg (by simp [ha])]
  have hnew : (l.set i b).filter p = front.filter p ++ ([b].filter p ++ rest.filter p) := by
    rw [hset, ← List.singleton_append, List.filter_append, List.filter_append]
  rw [hold, hnew, List.append_assoc]
  exact .append_left _ List.perm_append_comm

/-- The elements with a property, when one without it is replaced by another without it. -/
theorem filter_set_of_neg {p : α → Bool} (h : l[i]? = some a) (ha : p a = false) {b : α}
    (hb : p b = false) : (l.set i b).filter p = l.filter p := by
  obtain ⟨front, rest, hl, hset⟩ := exists_split_set h
  rw [hset, hl, List.filter_append, List.filter_append, List.filter_cons_of_neg (by simp [hb]),
    List.filter_cons_of_neg (by simp [ha])]

/-- Among the elements with a property, one that is replaced by another has its own place. -/
theorem exists_filter_set {p : α → Bool} (h : l[i]? = some a) (ha : p a = true) :
    ∃ j, (l.filter p)[j]? = some a ∧
      ∀ b, p b = true → (l.set i b).filter p = (l.filter p).set j b := by
  obtain ⟨front, rest, hl, hset⟩ := exists_split_set h
  have hold : l.filter p = front.filter p ++ a :: rest.filter p := by
    rw [hl, List.filter_append, List.filter_cons_of_pos ha]
  refine ⟨(front.filter p).length, ?_, fun b hb => ?_⟩
  · rw [hold, List.getElem?_append_right le_rfl, Nat.sub_self, List.getElem?_cons_zero]
  · rw [hset, hold, List.filter_append, List.filter_cons_of_pos hb,
      List.set_append_right _ _ le_rfl, Nat.sub_self, List.set_cons_zero]

/-- The other elements are the same before and after, and what holds of every two elements holds of
each of them and the one that is replaced. -/
theorem exists_others (h : l[i]? = some a) : ∃ others : List α,
    (∀ x, x ∈ l ↔ x = a ∨ x ∈ others) ∧ (∀ b x, x ∈ l.set i b ↔ x = b ∨ x ∈ others) ∧
      ∀ R : α → α → Prop, l.Pairwise R → ∀ x ∈ others, R a x ∨ R x a := by
  obtain ⟨front, rest, rfl, hset⟩ := exists_split_set h
  refine ⟨front ++ rest, fun x => ?_, fun b x => ?_, fun R hl x hx => ?_⟩
  · simp only [List.mem_append, List.mem_cons]
    tauto
  · simp only [hset, List.mem_append, List.mem_cons]
    tauto
  · rw [List.pairwise_append, List.pairwise_cons] at hl
    rcases List.mem_append.mp hx with hfront | hrest
    · exact .inr (hl.2.2 x hfront a List.mem_cons_self)
    · exact .inl (hl.2.1.1 x hrest)

/-- What holds of every two elements still does if it is kept for the one that is replaced. -/
theorem pairwise_set {R : α → α → Prop} (hl : l.Pairwise R) (h : l[i]? = some a) {b : α}
    (hb : ∀ x ∈ l, (R a x → R b x) ∧ (R x a → R x b)) : (l.set i b).Pairwise R := by
  obtain ⟨front, rest, rfl, hset⟩ := exists_split_set h
  rw [List.pairwise_append, List.pairwise_cons] at hl
  obtain ⟨hfront, ⟨hhead, hrest⟩, hcross⟩ := hl
  rw [hset, List.pairwise_append, List.pairwise_cons]
  refine ⟨hfront, ⟨fun x hx => ?_, hrest⟩, fun x hx y hy => ?_⟩
  · exact (hb x (by simp [hx])).1 (hhead x hx)
  · rcases List.mem_cons.mp hy with rfl | hlater
    · exact (hb x (by simp [hx])).2 (hcross x hx a List.mem_cons_self)
    · exact hcross x hx y (List.mem_cons_of_mem a hlater)

/-- The number of elements with a property changes by the two elements. -/
theorem countP_set_add (h : l[i]? = some a) (p : α → Bool) (b : α) :
    (l.set i b).countP p + (if p a then 1 else 0) = l.countP p + if p b then 1 else 0 := by
  obtain ⟨front, rest, hl, hset⟩ := exists_split_set h
  rw [hset, hl]
  simp only [List.countP_append, List.countP_cons]
  omega

/-- A sum changes by what the two elements contribute to it. -/
theorem sum_map_set (h : l[i]? = some a) (f : α → Nat) (b : α) :
    ((l.set i b).map f).sum + f a = (l.map f).sum + f b := by
  obtain ⟨front, rest, hl, hset⟩ := exists_split_set h
  rw [hset, hl]
  simp only [List.map_append, List.map_cons, List.sum_append, List.sum_cons]
  omega

/-- What holds of the elements from some index on holds of them when one is replaced. -/
theorem forall_from_set {P : α → Prop} {n : Nat} {b : α}
    (h : ∀ k x, n ≤ k → l[k]? = some x → P x) (ha : l[i]? = some a) (hstep : P a → P b) :
    ∀ k x, n ≤ k → (l.set i b)[k]? = some x → P x := by
  intro k x hk hx
  by_cases hi : i = k
  · subst hi
    rw [List.getElem?_set_self (List.getElem?_eq_some_iff.mp ha).1] at hx
    obtain rfl := Option.some.inj hx
    exact hstep (h i a hk ha)
  · rw [List.getElem?_set_ne hi] at hx
    exact h k x hk hx

/-- It holds of them when one is added. -/
theorem forall_from_append {P : α → Prop} {n : Nat} {b : α}
    (h : ∀ k x, n ≤ k → l[k]? = some x → P x) (hb : P b) :
    ∀ k x, n ≤ k → (l ++ [b])[k]? = some x → P x := by
  intro k x hk hx
  rw [List.getElem?_append] at hx
  split_ifs at hx with hlen
  · exact h k x hk hx
  · obtain rfl := List.mem_singleton.mp (List.mem_of_getElem? hx)
    exact hb

end NuSync.Lib
