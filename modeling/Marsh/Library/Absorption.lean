import Mathlib.Algebra.GroupWithZero.Nat
import Mathlib.Data.List.Dedup
import Mathlib.Data.List.Sort
import Mathlib.Order.Defs.LinearOrder

/-!
# Canonical operand lists

Normal forms of associative, commutative and idempotent connectives keep their
operands sorted without repetition, and drop operands that a sibling absorbs.
Dropping is sound although the absorbing sibling may itself be dropped, as long
as absorption strictly decreases some weight.
-/

namespace Library

/-- Whether some two operands at different positions satisfy `predicate`. -/
def pairSatisfies {Operand : Type*}
    (predicate : Operand -> Operand -> Bool) : List Operand -> Bool
  | [] => false
  | operand :: operands =>
      operands.any (predicate operand) || pairSatisfies predicate operands

theorem exists_of_pairSatisfies {Operand : Type*}
    {predicate : Operand -> Operand -> Bool}
    {operands : List Operand}
    (satisfied : pairSatisfies predicate operands = true) :
    ∃ left ∈ operands, ∃ right ∈ operands, predicate left right = true := by
  induction operands with
  | nil => simp [pairSatisfies] at satisfied
  | cons operand operands hypothesis =>
      rw [pairSatisfies, Bool.or_eq_true, List.any_eq_true] at satisfied
      rcases satisfied with ⟨right, rightMem, accepted⟩ | later
      · exact ⟨operand, List.mem_cons_self, right,
          List.mem_cons_of_mem operand rightMem, accepted⟩
      · obtain ⟨left, leftMem, right, rightMem, accepted⟩ := hypothesis later
        exact ⟨left, List.mem_cons_of_mem operand leftMem, right,
          List.mem_cons_of_mem operand rightMem, accepted⟩

section Order

variable {Operand : Type*} [LinearOrder Operand]

/-- Sort a list of operands and remove repetitions. -/
def sortDedup (operands : List Operand) : List Operand :=
  (operands.mergeSort fun left right => decide (left ≤ right)).dedup

@[simp] theorem mem_sortDedup {operand : Operand} {operands : List Operand} :
    operand ∈ sortDedup operands ↔ operand ∈ operands := by
  simp [sortDedup]

theorem pairwise_sortDedup (operands : List Operand) :
    (sortDedup operands).Pairwise (· < ·) := by
  have sorted :
      (operands.mergeSort fun left right => decide (left ≤ right)).Pairwise
        (· ≤ ·) := by
    have merged :
        (operands.mergeSort fun left right => decide (left ≤ right)).Pairwise
          fun left right => decide (left ≤ right) = true :=
      List.pairwise_mergeSort
        (fun first second third => by simpa using le_trans)
        (fun left right => by simpa using le_total left right) operands
    exact merged.imp fun ordered => of_decide_eq_true ordered
  have weak := sorted.sublist (List.dedup_sublist _)
  have distinct := List.nodup_dedup
    (operands.mergeSort fun left right => decide (left ≤ right))
  exact (weak.and distinct).imp fun ordered =>
    lt_of_le_of_ne ordered.1 ordered.2

/-- Strictly sorted lists with the same elements are equal. -/
theorem eq_of_pairwise_lt_of_subset
    {left right : List Operand}
    (leftSorted : left.Pairwise (· < ·))
    (rightSorted : right.Pairwise (· < ·))
    (leftRight : left ⊆ right)
    (rightLeft : right ⊆ left) : left = right := by
  have leftNodup : left.Nodup := leftSorted.imp fun ordered => ordered.ne
  have rightNodup : right.Nodup := rightSorted.imp fun ordered => ordered.ne
  refine List.Perm.eq_of_pairwise ?_ leftSorted rightSorted ?_
  · intro first second _ _ forward backward
    exact absurd forward backward.asymm
  · exact (List.perm_ext_iff_of_nodup leftNodup rightNodup).mpr
      fun operand => ⟨fun member => leftRight member,
        fun member => rightLeft member⟩

/-- A strictly sorted list contained in another one is a sublist of it. -/
theorem sublist_of_pairwise_lt_of_subset
    {left right : List Operand}
    (leftSorted : left.Pairwise (· < ·))
    (rightSorted : right.Pairwise (· < ·))
    (contained : left ⊆ right) : left.Sublist right := by
  have kept : right.filter (fun operand => decide (operand ∈ left)) = left := by
    refine eq_of_pairwise_lt_of_subset (rightSorted.filter _) leftSorted ?_ ?_
    · intro operand member
      simpa using (List.mem_filter.mp member).2
    · intro operand member
      exact List.mem_filter.mpr ⟨contained member, by simpa using member⟩
  rw [← kept]
  exact List.filter_sublist

/-- A strictly sorted list contained in a different one weighs strictly less,
when every operand has positive weight. -/
theorem weight_lt_of_pairwise_lt_of_subset
    {weight : Operand -> Nat}
    (positive : ∀ operand, 0 < weight operand)
    {left right : List Operand}
    (leftSorted : left.Pairwise (· < ·))
    (rightSorted : right.Pairwise (· < ·))
    (contained : left ⊆ right)
    (different : left ≠ right) :
    (left.map weight).sum < (right.map weight).sum := by
  have sublist :=
    sublist_of_pairwise_lt_of_subset leftSorted rightSorted contained
  have strict : ∀ {first second : List Operand}, first.Sublist second ->
      first ≠ second -> (first.map weight).sum < (second.map weight).sum := by
    intro first second nested
    induction nested with
    | slnil => intro unequal; exact absurd rfl unequal
    | @cons first second operand nested hypothesis =>
        intro _
        have headPositive := positive operand
        rcases eq_or_ne first second with rfl | unequal
        · simp [headPositive]
        · have tailLess := hypothesis unequal
          simp only [List.map_cons, List.sum_cons]
          omega
    | @cons_cons first second operand nested hypothesis =>
        intro unequal
        have tailLess := hypothesis fun equal => unequal (by rw [equal])
        simp only [List.map_cons, List.sum_cons]
        omega
  exact strict sublist different

end Order

/-- Dropping operands keeps a conjunction when each dropped operand is implied
by a strictly lighter sibling.  The lighter sibling need not be kept. -/
theorem forall_mem_filter_iff_of_implied {Operand : Type*}
    {holds : Operand -> Prop}
    {kept : Operand -> Bool}
    {operands : List Operand}
    (weight : Operand -> Nat)
    (implied : ∀ operand ∈ operands, kept operand = false ->
      ∃ sibling ∈ operands, weight sibling < weight operand ∧
        (holds sibling -> holds operand)) :
    (∀ operand ∈ operands.filter kept, holds operand) ↔
      ∀ operand ∈ operands, holds operand := by
  constructor
  · intro keptHold operand member
    -- Follow absorbing siblings downwards until one of them is kept.
    induction size : weight operand using Nat.strong_induction_on
      generalizing operand with
    | _ bound hypothesis =>
        cases retained : kept operand with
        | true => exact keptHold operand (List.mem_filter.mpr ⟨member, retained⟩)
        | false =>
            obtain ⟨sibling, siblingMem, lighter, implication⟩ :=
              implied operand member retained
            exact implication
              (hypothesis (weight sibling) (size ▸ lighter) sibling siblingMem rfl)
  · intro allHold operand member
    exact allHold operand (List.mem_filter.mp member).1

end Library
