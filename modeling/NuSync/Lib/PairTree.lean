import Mathlib

/-!
# Collapsing a list level by level

`pairUp` combines neighbours and promotes an odd last element; `collapse` repeats it until at
most one element is left. Collapsing a list of leaves with the tree constructor records which
combinations are made: `treeOf` is that tree, its leaves are the list (`leaves_treeOf`), and
collapsing under any other operation is folding that tree (`collapse_eq_fold`). Results about
a collapsed list are therefore proved by induction on trees. `collapse_inj` goes the other way, from
the last level back to the first.
-/

namespace NuSync.Lib

variable {α β : Type*}

/-- One level: neighbours are combined, an odd last element is promoted unchanged. -/
def pairUp (op : α → α → α) : List α → List α
  | a :: b :: rest => op a b :: pairUp op rest
  | [a] => [a]
  | [] => []

/-- Repeat `pairUp` while more than one element is left, at most `fuel` times. -/
def collapse (op : α → α → α) : Nat → List α → List α
  | 0, level => level
  | fuel + 1, level =>
      if 1 < level.length then collapse op fuel (pairUp op level) else level

theorem length_pairUp (op : α → α → α) :
    ∀ level : List α, (pairUp op level).length = (level.length + 1) / 2
  | _ :: _ :: rest => by
      simp only [pairUp, List.length_cons, length_pairUp op rest]
      omega
  | [_] => by simp [pairUp]
  | [] => by simp [pairUp]

/-- As many rounds as there are elements are enough to leave exactly one. -/
theorem length_collapse (op : α → α → α) {fuel : Nat} {level : List α}
    (hne : level ≠ []) (hfuel : level.length ≤ fuel) : (collapse op fuel level).length = 1 := by
  have hpos : 0 < level.length := List.length_pos_of_ne_nil hne
  induction fuel generalizing level with
  | zero => omega
  | succ fuel ih =>
      rw [collapse]
      split_ifs with hlong
      · have hlen := length_pairUp op level
        exact ih (List.ne_nil_of_length_pos (by omega)) (by omega) (by omega)
      · omega

/-- A map that respects the two operations commutes with a level. -/
theorem map_pairUp {f : α → β} {op : α → α → α} {op' : β → β → β}
    (hf : ∀ a b, f (op a b) = op' (f a) (f b)) :
    ∀ level : List α, (pairUp op level).map f = pairUp op' (level.map f)
  | a :: b :: rest => by simp [pairUp, hf, map_pairUp hf rest]
  | [_] => rfl
  | [] => rfl

/-- A map that respects the two operations commutes with collapsing. -/
theorem map_collapse {f : α → β} {op : α → α → α} {op' : β → β → β}
    (hf : ∀ a b, f (op a b) = op' (f a) (f b)) (fuel : Nat) (level : List α) :
    (collapse op fuel level).map f = collapse op' fuel (level.map f) := by
  induction fuel generalizing level with
  | zero => rfl
  | succ fuel ih =>
      simp only [collapse, List.length_map]
      split_ifs
      · rw [ih, map_pairUp hf]
      · rfl

/-- A binary tree with data at its leaves. -/
inductive BinTree (α : Type*) where
  | leaf (value : α)
  | node (left right : BinTree α)
  deriving DecidableEq

namespace BinTree

/-- Evaluate a tree: `leaf` at the leaves, `op` at the inner nodes. -/
def fold (leaf : α → β) (op : β → β → β) : BinTree α → β
  | .leaf a => leaf a
  | .node l r => op (fold leaf op l) (fold leaf op r)

/-- The leaf data from left to right. -/
def leaves : BinTree α → List α
  | .leaf a => [a]
  | .node l r => leaves l ++ leaves r

/-- The tree with its leaf data forgotten. -/
def shape : BinTree α → BinTree Unit
  | .leaf _ => .leaf ()
  | .node l r => .node (shape l) (shape r)

end BinTree

/-- The tree of the combinations that collapsing the list makes; an empty list has none. -/
def treeOf (values : List α) : Option (BinTree α) :=
  (collapse BinTree.node values.length (values.map BinTree.leaf)).head?

@[simp] theorem treeOf_nil : treeOf ([] : List α) = none := rfl

/-- A nonempty list has a tree. -/
theorem exists_treeOf {values : List α} (hne : values ≠ []) :
    ∃ tree, treeOf values = some tree := by
  have hlen : (collapse BinTree.node values.length (values.map BinTree.leaf)).length = 1 :=
    length_collapse _ (by simpa using hne) (by simp)
  obtain ⟨tree, htree⟩ := List.length_eq_one_iff.mp hlen
  exact ⟨tree, by simp [treeOf, htree]⟩

theorem treeOf_eq_none {values : List α} : treeOf values = none ↔ values = [] := by
  refine ⟨fun h => ?_, fun h => h ▸ treeOf_nil⟩
  by_contra hne
  obtain ⟨tree, htree⟩ := exists_treeOf hne
  simp [h] at htree

/-- Combining neighbours of a list of trees keeps the leaves and their order. -/
theorem leaves_pairUp :
    ∀ trees : List (BinTree α),
      (pairUp BinTree.node trees).flatMap BinTree.leaves = trees.flatMap BinTree.leaves
  | a :: b :: rest => by simp [pairUp, BinTree.leaves, leaves_pairUp rest]
  | [_] => rfl
  | [] => rfl

theorem leaves_collapse (fuel : Nat) (trees : List (BinTree α)) :
    (collapse BinTree.node fuel trees).flatMap BinTree.leaves =
      trees.flatMap BinTree.leaves := by
  induction fuel generalizing trees with
  | zero => rfl
  | succ fuel ih =>
      rw [collapse]
      split_ifs
      · rw [ih, leaves_pairUp]
      · rfl

/-- The leaves of the tree of a list are the list. -/
theorem leaves_treeOf {values : List α} {tree : BinTree α} (h : treeOf values = some tree) :
    tree.leaves = values := by
  have hne : values ≠ [] := by
    rintro rfl
    simp at h
  have hlen : (collapse BinTree.node values.length (values.map BinTree.leaf)).length = 1 :=
    length_collapse _ (by simpa using hne) (by simp)
  obtain ⟨only, honly⟩ := List.length_eq_one_iff.mp hlen
  have hflat := leaves_collapse values.length (values.map BinTree.leaf)
  rw [treeOf, honly] at h
  cases h
  rw [honly] at hflat
  simpa [List.flatMap_map, BinTree.leaves] using hflat

/-- Which combinations are made depends on the number of values alone. -/
theorem shape_treeOf (values : List α) :
    (treeOf values).map BinTree.shape = treeOf (values.map fun _ => ()) := by
  have hnode : ∀ l r : BinTree α, BinTree.shape (.node l r) = .node l.shape r.shape :=
    fun _ _ => rfl
  have hleaf : (values.map BinTree.leaf).map BinTree.shape =
      (values.map fun _ => ()).map BinTree.leaf := by
    simp only [List.map_map]
    rfl
  rw [treeOf, treeOf, ← List.head?_map, map_collapse hnode, hleaf, List.length_map]

theorem shape_eq_of_length_eq {values others : List α} (hlen : values.length = others.length)
    {t u : BinTree α} (ht : treeOf values = some t) (hu : treeOf others = some u) :
    t.shape = u.shape := by
  have hshape : (treeOf values).map BinTree.shape = (treeOf others).map BinTree.shape := by
    rw [shape_treeOf, shape_treeOf, List.map_const', List.map_const', hlen]
  simpa [ht, hu] using hshape

/-- Collapsing a list under any operation evaluates the tree of the list. -/
theorem collapse_eq_fold (leaf : α → β) (op : β → β → β) (values : List α) :
    (collapse op values.length (values.map leaf)).head? =
      (treeOf values).map (BinTree.fold leaf op) := by
  have hnode : ∀ l r, BinTree.fold leaf op (.node l r) =
      op (BinTree.fold leaf op l) (BinTree.fold leaf op r) := fun _ _ => rfl
  have hmap := map_collapse hnode values.length (values.map BinTree.leaf)
  have hleaf : (values.map BinTree.leaf).map (BinTree.fold leaf op) = values.map leaf := by
    simp [BinTree.fold]
  rw [hleaf] at hmap
  rw [← hmap, List.head?_map, treeOf]

/-! ## Going back down -/

/-- The neighbours that one level combines. -/
def neighbours : List α → List (α × α)
  | a :: b :: rest => (a, b) :: neighbours rest
  | _ => []

/-- The pairs that are combined on all levels. -/
def combined (op : α → α → α) : Nat → List α → List (α × α)
  | 0, _ => []
  | fuel + 1, level =>
      if 1 < level.length then neighbours level ++ combined op fuel (pairUp op level) else []

/-- The operation tells the pairs of the two lists apart. -/
def Separates (op : α → α → α) (pairs others : List (α × α)) : Prop :=
  ∀ p ∈ pairs, ∀ q ∈ others, op p.1 p.2 = op q.1 q.2 → p = q

theorem Separates.mono {op : α → α → α} {pairs others pairs' others' : List (α × α)}
    (h : Separates op pairs others) (hpairs : pairs' ⊆ pairs) (hothers : others' ⊆ others) :
    Separates op pairs' others' :=
  fun p hp q hq => h p (hpairs hp) q (hothers hq)

/-- Two levels of one length with one level above them are equal, if the operation tells the
combined neighbours apart. -/
theorem pairUp_inj {op : α → α → α} {level other : List α} (hlen : level.length = other.length)
    (hsep : Separates op (neighbours level) (neighbours other))
    (h : pairUp op level = pairUp op other) : level = other := by
  induction level using pairUp.induct generalizing other with
  | case1 a b rest ih =>
      obtain ⟨c, d, rest', rfl⟩ : ∃ c d rest', other = c :: d :: rest' := by
        match other, hlen with
        | c :: d :: rest', _ => exact ⟨c, d, rest', rfl⟩
      simp only [pairUp, List.cons.injEq] at h
      obtain ⟨hhead, htail⟩ := h
      have hpair : (a, b) = (c, d) := hsep (a, b) List.mem_cons_self (c, d) List.mem_cons_self hhead
      obtain ⟨rfl, rfl⟩ := Prod.mk.inj hpair
      have hrest : rest = rest' :=
        ih (by simpa using hlen) (hsep.mono (List.subset_cons_self _ _)
          (List.subset_cons_self _ _)) htail
      rw [hrest]
  | case2 a =>
      obtain ⟨c, rfl⟩ := List.length_eq_one_iff.mp hlen.symm
      exact h
  | case3 => exact (List.length_eq_zero_iff.mp hlen.symm).symm

/-- **Collapsing is injective on lists of one length**, if the operation tells the pairs apart that
are combined on the way. -/
theorem collapse_inj {op : α → α → α} {fuel : Nat} {level other : List α}
    (hlen : level.length = other.length)
    (hsep : Separates op (combined op fuel level) (combined op fuel other))
    (h : collapse op fuel level = collapse op fuel other) : level = other := by
  induction fuel generalizing level other with
  | zero => exact h
  | succ fuel ih =>
      simp only [collapse, combined, ← hlen] at h hsep
      split_ifs at h hsep with hlong
      · -- the levels above are equal, so these are
        have hup : pairUp op level = pairUp op other := by
          refine ih ?_ (hsep.mono (List.subset_append_right _ _)
            (List.subset_append_right _ _)) h
          rw [length_pairUp, length_pairUp, hlen]
        exact pairUp_inj hlen (hsep.mono (List.subset_append_left _ _)
          (List.subset_append_left _ _)) hup
      · exact h

end NuSync.Lib
