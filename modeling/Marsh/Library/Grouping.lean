import Mathlib.Data.List.Basic
import Marsh.Library.Absorption

/-!
# Folding operands in any order and grouping

A variadic operation on lists that depends only on which operands are listed is
independent of order and repetition.  An operation that denotes a conjunction
denotes the same conjunction in every grouping.
-/

namespace Library

/-! ## Lists with the same members -/

/-- The lists have the same members. -/
def SameMembers {Operand : Type*} (first second : List Operand) : Prop :=
  ∀ operand, operand ∈ first ↔ operand ∈ second

namespace SameMembers

variable {Operand Piece : Type*} {first second : List Operand}

theorem sortDedup_eq
    [LinearOrder Operand]
    (same : SameMembers first second) : sortDedup first = sortDedup second :=
  eq_of_pairwise_lt_of_subset (pairwise_sortDedup first)
    (pairwise_sortDedup second)
    (fun operand member =>
      mem_sortDedup.mpr ((same operand).mp (mem_sortDedup.mp member)))
    (fun operand member =>
      mem_sortDedup.mpr ((same operand).mpr (mem_sortDedup.mp member)))

theorem isEmpty_eq (same : SameMembers first second) :
    first.isEmpty = second.isEmpty := by
  rw [Bool.eq_iff_iff, List.isEmpty_iff, List.isEmpty_iff,
    List.eq_nil_iff_forall_not_mem, List.eq_nil_iff_forall_not_mem]
  exact forall_congr' fun operand => not_congr (same operand)

theorem filter
    (same : SameMembers first second)
    (kept : Operand -> Bool) :
    SameMembers (first.filter kept) (second.filter kept) := by
  intro operand
  rw [List.mem_filter, List.mem_filter, same operand]

theorem filterMap
    (same : SameMembers first second)
    (piece : Operand -> Option Piece) :
    SameMembers (first.filterMap piece) (second.filterMap piece) := by
  intro result
  simp only [List.mem_filterMap]
  exact exists_congr fun operand => and_congr_left fun _ => same operand

theorem append
    (same : SameMembers first second)
    {rest otherRest : List Operand}
    (sameRest : SameMembers rest otherRest) :
    SameMembers (first ++ rest) (second ++ otherRest) := by
  intro operand
  rw [List.mem_append, List.mem_append, same operand, sameRest operand]

theorem append_right
    (same : SameMembers first second)
    (rest : List Operand) : SameMembers (first ++ rest) (second ++ rest) :=
  same.append fun _ => Iff.rfl

end SameMembers

/-- Collects the pieces of some operands; one without pieces decides the whole. -/
def collect {Operand Piece : Type*}
    (pieces : Operand -> Option (List Piece)) :
    List Operand -> Option (List Piece)
  | [] => some []
  | operand :: operands =>
      match pieces operand with
      | none => none
      | some found => (collect pieces operands).map (found ++ ·)

section Collecting

variable {Operand Piece : Type*} {pieces : Operand -> Option (List Piece)}

theorem collect_eq_none_iff {operands : List Operand} :
    collect pieces operands = none ↔
      ∃ operand ∈ operands, pieces operand = none := by
  induction operands with
  | nil => simp [collect]
  | cons operand operands hypothesis =>
      rw [collect, List.exists_mem_cons_iff, ← hypothesis]
      cases pieces operand with
      | none => simp
      | some found => simp

theorem mem_of_collect
    {operands : List Operand}
    {collected : List Piece}
    (found : collect pieces operands = some collected)
    (piece : Piece) :
    piece ∈ collected ↔
      ∃ operand ∈ operands, ∃ part ∈ pieces operand, piece ∈ part := by
  induction operands generalizing collected with
  | nil =>
      cases found
      simp
  | cons operand operands hypothesis =>
      rw [collect] at found
      cases part : pieces operand with
      | none =>
          rw [part] at found
          cases found
      | some own =>
          rw [part, Option.map_eq_some_iff] at found
          obtain ⟨rest, restFound, rfl⟩ := found
          rw [List.mem_append, List.exists_mem_cons_iff, hypothesis restFound,
            part]
          simp

theorem collect_append (first second : List Operand) :
    collect pieces (first ++ second) =
      (collect pieces first).bind fun before =>
        (collect pieces second).map (before ++ ·) := by
  induction first with
  | nil =>
      rw [List.nil_append, collect, Option.bind_some]
      exact Option.map_id'.symm
  | cons operand operands hypothesis =>
      rw [List.cons_append, collect, collect, hypothesis]
      cases pieces operand with
      | none => rfl
      | some own =>
          cases collect pieces operands with
          | none => rfl
          | some before =>
              cases collect pieces second with
              | none => rfl
              | some after =>
                  exact congrArg some (List.append_assoc own before after).symm

/-- Collecting depends on the members alone. -/
theorem SameMembers.collect
    {first second : List Operand}
    (same : SameMembers first second) :
    Option.Rel SameMembers
      (Library.collect pieces first) (Library.collect pieces second) := by
  cases firstFound : Library.collect pieces first with
  | none =>
      obtain ⟨operand, member, absent⟩ := collect_eq_none_iff.mp firstFound
      have secondFound : Library.collect pieces second = none :=
        collect_eq_none_iff.mpr ⟨operand, (same operand).mp member, absent⟩
      rw [secondFound]
      exact .none
  | some firstCollected =>
      cases secondFound : Library.collect pieces second with
      | none =>
          obtain ⟨operand, member, absent⟩ :=
            collect_eq_none_iff.mp secondFound
          have alsoAbsent : Library.collect pieces first = none :=
            collect_eq_none_iff.mpr
              ⟨operand, (same operand).mpr member, absent⟩
          rw [firstFound] at alsoAbsent
          cases alsoAbsent
      | some secondCollected =>
          refine .some fun piece => ?_
          rw [mem_of_collect firstFound, mem_of_collect secondFound]
          exact exists_congr fun operand =>
            and_congr_left fun _ => same operand

/-- Collecting some pieces after others keeps what each part collects. -/
theorem rel_collect_cons
    {operand : Operand}
    {replaced operands rest : List Operand}
    (samePieces : Option.Rel SameMembers
      (pieces operand) (collect pieces replaced))
    (sameRest : Option.Rel SameMembers
      (collect pieces operands) (collect pieces rest)) :
    Option.Rel SameMembers
      (collect pieces (operand :: operands))
      (collect pieces (replaced ++ rest)) := by
  rw [collect, collect_append]
  revert samePieces sameRest
  generalize pieces operand = own
  generalize collect pieces replaced = other
  generalize collect pieces operands = tail
  generalize collect pieces rest = otherTail
  intro samePieces sameRest
  cases samePieces with
  | none => exact .none
  | some same =>
      cases sameRest with
      | none => exact .none
      | some sameTail => exact .some (same.append sameTail)

end Collecting

/-! ## Groupings -/

/-- A way to fold operands: each group is folded before the group it is in. -/
inductive Grouping (Operand : Type)
  | one (operand : Operand)
  | group (parts : List (Grouping Operand))

namespace Grouping

variable {Operand : Type}

mutual

/-- The operands of a grouping. -/
def operands : Grouping Operand -> List Operand
  | .one operand => [operand]
  | .group parts => operandsAll parts

/-- The operands of some groupings. -/
def operandsAll : List (Grouping Operand) -> List Operand
  | [] => []
  | part :: parts => operands part ++ operandsAll parts

end

mutual

/-- Folds a grouping with an operation that may not return. -/
def fold (combine : List Operand -> Option Operand) :
    Grouping Operand -> Option Operand
  | .one operand => some operand
  | .group parts => do
      let results ← foldAll combine parts
      combine results

/-- Folds some groupings. -/
def foldAll (combine : List Operand -> Option Operand) :
    List (Grouping Operand) -> Option (List Operand)
  | [] => some []
  | part :: parts => do
      let result ← fold combine part
      let results ← foldAll combine parts
      some (result :: results)

end

section Folds

variable {combine : List Operand -> Option Operand}
  {Canonical : Operand -> Prop} {Point : Type}
  {holds : Point -> Operand -> Prop}

mutual

/-- An operation that denotes conjunction of canonical operands denotes the
conjunction of all operands in every grouping. -/
theorem fold_returns
    (combines : ∀ list : List Operand,
      (∀ operand ∈ list, Canonical operand) ->
        ∃ result, combine list = some result ∧ Canonical result ∧
          ∀ point, holds point result ↔
            ∀ operand ∈ list, holds point operand) :
    ∀ grouping : Grouping Operand,
      (∀ operand ∈ grouping.operands, Canonical operand) ->
        ∃ result, grouping.fold combine = some result ∧ Canonical result ∧
          ∀ point, holds point result ↔
            ∀ operand ∈ grouping.operands, holds point operand
  | .one operand, canonical => by
      refine ⟨operand, rfl, canonical operand List.mem_cons_self, ?_⟩
      intro point
      simp [operands]
  | .group parts, canonical => by
      obtain ⟨results, folded, resultsCanonical, meaning⟩ :=
        foldAll_returns combines parts canonical
      obtain ⟨result, combined, resultCanonical, resultMeaning⟩ :=
        combines results resultsCanonical
      refine ⟨result, ?_, resultCanonical, fun point => ?_⟩
      · rw [fold, folded]
        exact combined
      · rw [resultMeaning point, meaning point]
        rfl

theorem foldAll_returns
    (combines : ∀ list : List Operand,
      (∀ operand ∈ list, Canonical operand) ->
        ∃ result, combine list = some result ∧ Canonical result ∧
          ∀ point, holds point result ↔
            ∀ operand ∈ list, holds point operand) :
    ∀ parts : List (Grouping Operand),
      (∀ operand ∈ operandsAll parts, Canonical operand) ->
        ∃ results, foldAll combine parts = some results ∧
          (∀ result ∈ results, Canonical result) ∧
          ∀ point, (∀ result ∈ results, holds point result) ↔
            ∀ operand ∈ operandsAll parts, holds point operand
  | [], _ => ⟨[], rfl, by simp, by simp [operandsAll]⟩
  | part :: parts, canonical => by
      rw [operandsAll, List.forall_mem_append] at canonical
      obtain ⟨result, folded, resultCanonical, meaning⟩ :=
        fold_returns combines part canonical.1
      obtain ⟨results, foldedAll, resultsCanonical, meanings⟩ :=
        foldAll_returns combines parts canonical.2
      refine ⟨result :: results, ?_,
        List.forall_mem_cons.mpr ⟨resultCanonical, resultsCanonical⟩,
        fun point => ?_⟩
      · rw [foldAll, folded, foldedAll]
        rfl
      · rw [operandsAll, List.forall_mem_append, List.forall_mem_cons,
          meaning point, meanings point]

end

/-- Two groupings of the same operands, in any order, fold to operands that hold
at the same points. -/
theorem fold_agree
    (combines : ∀ list : List Operand,
      (∀ operand ∈ list, Canonical operand) ->
        ∃ result, combine list = some result ∧ Canonical result ∧
          ∀ point, holds point result ↔
            ∀ operand ∈ list, holds point operand)
    {first second : Grouping Operand}
    (same : SameMembers first.operands second.operands)
    (canonical : ∀ operand ∈ first.operands, Canonical operand) :
    ∃ firstResult secondResult,
      first.fold combine = some firstResult ∧
        second.fold combine = some secondResult ∧
        Canonical firstResult ∧ Canonical secondResult ∧
        ∀ point, holds point firstResult ↔ holds point secondResult := by
  obtain ⟨firstResult, firstFolds, firstCanonical, firstMeaning⟩ :=
    fold_returns combines first canonical
  obtain ⟨secondResult, secondFolds, secondCanonical, secondMeaning⟩ :=
    fold_returns combines second fun operand member =>
      canonical operand ((same operand).mpr member)
  refine ⟨firstResult, secondResult, firstFolds, secondFolds, firstCanonical,
    secondCanonical, fun point => ?_⟩
  rw [firstMeaning point, secondMeaning point]
  exact forall_congr' fun operand => imp_congr_left (same operand)

end Folds

/-! ### Groups that keep their pieces -/

section Kept

variable {Piece : Type}

mutual

/-- The fold of every group has the pieces of its operands. -/
def Kept
    (combine : List Operand -> Option Operand)
    (pieces : Operand -> Option (List Piece)) : Grouping Operand -> Prop
  | .one _ => True
  | .group parts =>
      AllKept combine pieces parts ∧
        ∃ result, (Grouping.group parts).fold combine = some result ∧
          Option.Rel SameMembers
            (pieces result) (collect pieces (operandsAll parts))

/-- The fold of every group among some parts has the pieces of its operands. -/
def AllKept
    (combine : List Operand -> Option Operand)
    (pieces : Operand -> Option (List Piece)) : List (Grouping Operand) -> Prop
  | [] => True
  | part :: parts => Kept combine pieces part ∧ AllKept combine pieces parts

end

variable {combine : List Operand -> Option Operand}
  {pieces : Operand -> Option (List Piece)}

theorem exists_fold_of_kept
    {grouping : Grouping Operand}
    (kept : grouping.Kept combine pieces) :
    ∃ result, grouping.fold combine = some result ∧
      Option.Rel SameMembers
        (pieces result) (collect pieces grouping.operands) := by
  cases grouping with
  | one operand =>
      refine ⟨operand, rfl, ?_⟩
      rw [operands, collect, collect]
      cases pieces operand with
      | none => exact .none
      | some own =>
          have unchanged : own ++ [] = own := List.append_nil own
          refine .some fun piece => ?_
          change piece ∈ own ↔ piece ∈ own ++ []
          rw [unchanged]
  | group parts =>
      rw [Kept] at kept
      rw [operands]
      exact kept.2

theorem exists_foldAll_of_allKept
    {parts : List (Grouping Operand)}
    (kept : AllKept combine pieces parts) :
    ∃ results, foldAll combine parts = some results ∧
      Option.Rel SameMembers
        (collect pieces results) (collect pieces (operandsAll parts)) := by
  induction parts with
  | nil => exact ⟨[], rfl, .some fun _ => Iff.rfl⟩
  | cons part parts hypothesis =>
      rw [AllKept] at kept
      obtain ⟨result, folded, same⟩ := exists_fold_of_kept kept.1
      obtain ⟨results, foldedAll, sameAll⟩ := hypothesis kept.2
      refine ⟨result :: results, ?_, ?_⟩
      · rw [foldAll, folded, foldedAll]
        rfl
      · rw [operandsAll]
        exact rel_collect_cons same sameAll

/-- A group of groups that keep their pieces folds as one call. -/
theorem fold_group_of_allKept
    (calls : ∀ first second : List Operand,
      Option.Rel SameMembers (collect pieces first) (collect pieces second) ->
        combine first = combine second)
    {parts : List (Grouping Operand)}
    (kept : AllKept combine pieces parts) :
    (Grouping.group parts).fold combine = combine (operandsAll parts) := by
  obtain ⟨results, folded, same⟩ := exists_foldAll_of_allKept kept
  rw [fold, folded]
  exact calls results (operandsAll parts) same

end Kept

end Grouping

/-- How far an operation is independent of order, repetition and grouping. -/
structure Regroups {Operand Piece Point : Type}
    (combine : List Operand -> Option Operand)
    (pieces : Operand -> Option (List Piece))
    (Canonical : Operand -> Prop)
    (holds : Point -> Operand -> Prop) : Prop where
  /-- One call gives the same result for the same operands. -/
  call : ∀ first second : List Operand,
    SameMembers first second -> combine first = combine second
  /-- Groups of the same operands give the same result where each inner group
  keeps the pieces of its operands. -/
  kept : ∀ first second : List (Grouping Operand),
    SameMembers
      (Grouping.operandsAll first) (Grouping.operandsAll second) ->
    Grouping.AllKept combine pieces first ->
    Grouping.AllKept combine pieces second ->
      (Grouping.group first).fold combine =
        (Grouping.group second).fold combine
  /-- Every two groupings of the same canonical operands give canonical results
  that hold at the same points. -/
  agrees : ∀ first second : Grouping Operand,
    SameMembers first.operands second.operands ->
    (∀ operand ∈ first.operands, Canonical operand) ->
      ∃ firstResult secondResult,
        first.fold combine = some firstResult ∧
          second.fold combine = some secondResult ∧
          Canonical firstResult ∧ Canonical secondResult ∧
          ∀ point, holds point firstResult ↔ holds point secondResult

/-- An operation that depends on the pieces it collects, and denotes conjunction
of what is said of its operands, regroups. -/
theorem Regroups.of_pieces {Operand Piece Point : Type}
    {combine : List Operand -> Option Operand}
    {pieces : Operand -> Option (List Piece)}
    {Canonical : Operand -> Prop}
    {holds : Point -> Operand -> Prop}
    (said : Point -> Operand -> Prop)
    (calls : ∀ first second : List Operand,
      Option.Rel SameMembers (collect pieces first) (collect pieces second) ->
        combine first = combine second)
    (combines : ∀ list : List Operand,
      (∀ operand ∈ list, Canonical operand) ->
        ∃ result, combine list = some result ∧ Canonical result ∧
          ∀ point, said point result ↔ ∀ operand ∈ list, said point operand)
    (decides : ∀ point first second,
      (said point first ↔ said point second) ->
        (holds point first ↔ holds point second)) :
    Regroups combine pieces Canonical holds where
  call first second same := calls first second same.collect
  kept first second same firstKept secondKept := by
    rw [Grouping.fold_group_of_allKept calls firstKept,
      Grouping.fold_group_of_allKept calls secondKept]
    exact calls _ _ same.collect
  agrees first second same canonical := by
    obtain ⟨firstResult, secondResult, firstFolds, secondFolds,
      firstCanonical, secondCanonical, agree⟩ :=
        Grouping.fold_agree combines same canonical
    exact ⟨firstResult, secondResult, firstFolds, secondFolds,
      firstCanonical, secondCanonical,
      fun point => decides point firstResult secondResult (agree point)⟩

end Library
