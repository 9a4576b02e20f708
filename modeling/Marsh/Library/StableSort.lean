import Mathlib.Data.List.Sort

/-!
# Stable sorting

An insertion sort leaves elements that compare equal in their order.  So what it
makes of part of a list is the sorted part.
-/

namespace Library

variable {α β : Type}

section StableSort

variable (r : α -> α -> Prop) [DecidableRel r]
variable (s : β -> β -> Prop) [DecidableRel s]

/-- An element that is left out is inserted into nothing. -/
theorem filterMap_orderedInsert_of_none
    {keep : α -> Option β}
    {value : α}
    (left : keep value = none)
    (values : List α) :
    (values.orderedInsert r value).filterMap keep = values.filterMap keep := by
  induction values with
  | nil => simp [left]
  | cons first values hypothesis =>
      rw [List.orderedInsert_cons]
      split_ifs with before
      · exact List.filterMap_cons_none left
      · rw [List.filterMap_cons, List.filterMap_cons, hypothesis]

variable {r s}

/-- An element that is kept is inserted among those that are kept. -/
theorem filterMap_orderedInsert_of_some
    [IsTrans α r]
    {keep : α -> Option β}
    (compatible : ∀ value other image otherImage, keep value = some image ->
      keep other = some otherImage -> (r value other ↔ s image otherImage))
    {value : α}
    {image : β}
    (kept : keep value = some image)
    {values : List α}
    (sorted : values.Pairwise r) :
    (values.orderedInsert r value).filterMap keep =
      (values.filterMap keep).orderedInsert s image := by
  induction values with
  | nil => simp [kept]
  | cons first values hypothesis =>
      obtain ⟨least, rest⟩ := List.pairwise_cons.mp sorted
      rw [List.orderedInsert_cons]
      split_ifs with before
      · have all : ∀ other ∈ (first :: values).filterMap keep,
            s image other := by
          intro other member
          obtain ⟨source, sourceMember, sourceKept⟩ :=
            List.mem_filterMap.mp member
          apply (compatible value source image other kept sourceKept).mp
          rcases List.mem_cons.mp sourceMember with rfl | later
          · exact before
          · exact IsTrans.trans _ _ _ before (least source later)
        rw [List.filterMap_cons_some kept]
        cases remaining : (first :: values).filterMap keep with
        | nil => rfl
        | cons next others =>
            rw [List.orderedInsert_cons, if_pos (all next (by simp [remaining]))]
      · cases keptFirst : keep first with
        | none =>
            rw [List.filterMap_cons_none keptFirst,
              List.filterMap_cons_none keptFirst, hypothesis rest]
        | some firstImage =>
            rw [List.filterMap_cons_some keptFirst,
              List.filterMap_cons_some keptFirst, hypothesis rest,
              List.orderedInsert_cons, if_neg]
            intro imageBefore
            exact before ((compatible value first image firstImage kept
              keptFirst).mpr imageBefore)

/-- Part of a sorted list is the sorted part. -/
theorem filterMap_insertionSort
    [IsTrans α r]
    [Std.Total r]
    {keep : α -> Option β}
    (compatible : ∀ value other image otherImage, keep value = some image ->
      keep other = some otherImage -> (r value other ↔ s image otherImage))
    (values : List α) :
    (values.insertionSort r).filterMap keep =
      (values.filterMap keep).insertionSort s := by
  induction values with
  | nil => rfl
  | cons value values hypothesis =>
      rw [List.insertionSort_cons]
      cases kept : keep value with
      | none =>
          rw [filterMap_orderedInsert_of_none r kept, hypothesis,
            List.filterMap_cons_none kept]
      | some image =>
          rw [filterMap_orderedInsert_of_some compatible kept
            (List.pairwise_insertionSort r values), hypothesis,
            List.filterMap_cons_some kept, List.insertionSort_cons]

/-- The elements of a sorted list with some property are sorted. -/
theorem filter_insertionSort
    [IsTrans α r]
    [Std.Total r]
    (test : α -> Bool)
    (values : List α) :
    (values.insertionSort r).filter test =
      (values.filter test).insertionSort r := by
  rw [← List.filterMap_eq_filter]
  apply filterMap_insertionSort
  intro value other image otherImage kept otherKept
  obtain ⟨rfl, -⟩ := Option.guard_eq_some_iff.mp kept
  obtain ⟨rfl, -⟩ := Option.guard_eq_some_iff.mp otherKept
  exact Iff.rfl

/-- Elements that are not tied may be inserted in either order. -/
theorem orderedInsert_comm_of_lt
    [IsTrans α r]
    {first second : α}
    (before : r first second)
    (apart : ¬r second first)
    (values : List α) :
    (values.orderedInsert r first).orderedInsert r second =
      (values.orderedInsert r second).orderedInsert r first := by
  induction values with
  | nil =>
      simp [apart, before]
  | cons value values hypothesis =>
      rw [List.orderedInsert_cons r first, List.orderedInsert_cons r second]
      split_ifs with firstBefore secondBefore secondBefore
      · simp [apart, before, secondBefore]
      · simp [apart, firstBefore, secondBefore]
      · exact absurd (IsTrans.trans _ _ _ before secondBefore) firstBefore
      · rw [List.orderedInsert_cons, List.orderedInsert_cons,
          if_neg secondBefore, if_neg firstBefore, hypothesis]

/-- Where no two different elements of a list are tied, its order makes no
difference to what it is sorted into. -/
theorem insertionSort_append_of_perm
    [IsTrans α r]
    [Std.Total r]
    {values others : List α}
    (permuted : values.Perm others)
    (distinct : ∀ first ∈ values, ∀ second ∈ values, r first second ->
      r second first -> first = second)
    (rest : List α) :
    (values ++ rest).insertionSort r = (others ++ rest).insertionSort r := by
  unfold List.insertionSort
  rw [List.foldr_append, List.foldr_append]
  apply permuted.foldr_eq'
  intro first firstMember second secondMember sorted
  rcases @Std.Total.total _ r _ first second with before | before
  · by_cases tied : r second first
    · rw [distinct first firstMember second secondMember before tied]
    · exact orderedInsert_comm_of_lt before tied sorted
  · by_cases tied : r first second
    · rw [distinct first firstMember second secondMember tied before]
    · exact (orderedInsert_comm_of_lt before tied sorted).symm

end StableSort
end Library
