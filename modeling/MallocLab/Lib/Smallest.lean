import Mathlib.Data.List.Sort
import Mathlib.Tactic

set_option autoImplicit false

/-! # The smallest entries of a list

`smallest k l` are the `k` smallest entries of `l`, in ascending order and as often as they
occur, all of them when there are fewer than `k`. They can be kept while the list grows: the
next entry is inserted in order, and what is too much is dropped (`smallest_concat`). Whether
that drops the new entry or the largest of the old ones is seen at the end of the list
(`orderedInsert_concat_of_le`, `orderedInsert_of_forall_le`).
-/

namespace Smallest

variable {α : Type} [LinearOrder α]

/-- The `k` smallest entries of `l`, in ascending order. -/
def smallest (k : Nat) (l : List α) : List α := (l.insertionSort (· ≤ ·)).take k

/-- `m` are the `k` smallest entries of `l`, in ascending order: what is left of `l` is nowhere
smaller. -/
structure IsSmallest (k : Nat) (l m : List α) : Prop where
  length : m.length = min l.length k
  ascending : m.Pairwise (· ≤ ·)
  least : ∃ rest, (m ++ rest).Perm l ∧ ∀ x ∈ m, ∀ y ∈ rest, x ≤ y

/-! ## Inserting in order -/

/-- An ascending list is determined by its entries. -/
theorem ascending_ext {l m : List α} (hl : l.Pairwise (· ≤ ·)) (hm : m.Pairwise (· ≤ ·))
    (h : l.Perm m) : l = m := h.eq_of_pairwise' hl hm

/-- An entry that is not larger than the last one goes before it. -/
theorem orderedInsert_concat_of_le {x y : α} (l : List α) (h : x ≤ y) :
    (l ++ [y]).orderedInsert (· ≤ ·) x = l.orderedInsert (· ≤ ·) x ++ [y] := by
  induction l with
  | nil => exact List.orderedInsert_cons_of_le (· ≤ ·) [] h
  | cons a l ih =>
      rw [List.cons_append, List.orderedInsert_cons, List.orderedInsert_cons, ih]
      split <;> rfl

/-- An entry that is not smaller than any other goes to the end. -/
theorem orderedInsert_of_forall_le {x : α} {l : List α} (hl : l.Pairwise (· ≤ ·))
    (h : ∀ a ∈ l, a ≤ x) : l.orderedInsert (· ≤ ·) x = l ++ [x] := by
  refine ascending_ext (hl.orderedInsert x) ?_ ?_
  · refine List.pairwise_append.mpr ⟨hl, List.pairwise_singleton _ x, fun a ha b hb => ?_⟩
    rw [List.mem_singleton.mp hb]
    exact h a ha
  · exact (List.perm_orderedInsert _ x l).trans (List.perm_append_singleton x l).symm

/-- Only the first `k` entries decide what the first `k` are after an insertion. -/
theorem take_orderedInsert (k : Nat) (x : α) (l : List α) :
    (l.orderedInsert (· ≤ ·) x).take k = ((l.take k).orderedInsert (· ≤ ·) x).take k := by
  induction l generalizing k with
  | nil => rw [List.take_nil]
  | cons a l ih =>
      cases k with
      | zero => rfl
      | succ k =>
          rw [List.take_succ_cons, List.orderedInsert_cons, List.orderedInsert_cons]
          by_cases hxa : x ≤ a
          · rw [if_pos hxa, if_pos hxa, List.take_succ_cons, List.take_succ_cons]
            apply congrArg (x :: ·)
            rw [← List.take_succ_cons, List.take_take, min_eq_left (Nat.le_succ k)]
          · rw [if_neg hxa, if_neg hxa, List.take_succ_cons, List.take_succ_cons, ih k]

theorem insertionSort_concat (l : List α) (x : α) :
    (l ++ [x]).insertionSort (· ≤ ·) = (l.insertionSort (· ≤ ·)).orderedInsert (· ≤ ·) x := by
  refine ascending_ext (List.pairwise_insertionSort _ _) ?_ ?_
  · exact (List.pairwise_insertionSort _ l).orderedInsert x
  · calc List.Perm ((l ++ [x]).insertionSort (· ≤ ·)) (l ++ [x]) := List.perm_insertionSort _ _
      List.Perm _ (x :: l) := List.perm_append_singleton x l
      List.Perm _ (x :: l.insertionSort (· ≤ ·)) := (List.perm_insertionSort _ l).symm.cons x
      List.Perm _ ((l.insertionSort (· ≤ ·)).orderedInsert (· ≤ ·) x) :=
        (List.perm_orderedInsert _ x _).symm

/-! ## The smallest entries -/

/-- **One more entry.** -/
theorem smallest_concat (k : Nat) (l : List α) (x : α) :
    smallest k (l ++ [x]) = ((smallest k l).orderedInsert (· ≤ ·) x).take k := by
  rw [smallest, insertionSort_concat, take_orderedInsert]
  rfl

theorem length_smallest (k : Nat) (l : List α) : (smallest k l).length = min l.length k := by
  rw [smallest, List.length_take, List.length_insertionSort, min_comm]

theorem smallest_ascending (k : Nat) (l : List α) : (smallest k l).Pairwise (· ≤ ·) :=
  (List.pairwise_insertionSort (· ≤ ·) l).sublist (List.take_sublist k _)

/-- **The name is right.** -/
theorem smallest_isSmallest (k : Nat) (l : List α) : IsSmallest k l (smallest k l) := by
  refine ⟨length_smallest k l, smallest_ascending k l, (l.insertionSort (· ≤ ·)).drop k, ?_, ?_⟩
  · rw [smallest, List.take_append_drop]
    exact List.perm_insertionSort _ l
  · have hsorted := List.pairwise_insertionSort (· ≤ ·) l
    rw [← List.take_append_drop k (l.insertionSort (· ≤ ·))] at hsorted
    exact (List.pairwise_append.mp hsorted).2.2

/-- The first of the smallest entries is the least entry. -/
theorem IsSmallest.isLeast {k : Nat} {l m : List α} {x : α} (h : IsSmallest k l (x :: m)) :
    IsLeast { y | y ∈ l } x := by
  obtain ⟨rest, hperm, hrest⟩ := h.least
  refine ⟨hperm.mem_iff.mp List.mem_cons_self, fun y hy => ?_⟩
  rcases List.mem_append.mp (hperm.mem_iff.mpr hy) with hy | hy
  · rcases List.mem_cons.mp hy with rfl | hy
    · exact le_refl _
    · exact (List.pairwise_cons.mp h.ascending).1 y hy
  · exact hrest x List.mem_cons_self y hy

end Smallest
