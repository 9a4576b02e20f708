import Mathlib.Data.Finset.Card
import Marsh.Library.FileTree

/-!
# Listing the directories of a tree

Directories list their names in some order.  A walk that puts the directories it
finds on a stack ends, since those below a directory have fewer entries than it.
-/

namespace Library

/-- What each directory of a tree is listed as: its names, in some order. -/
structure Listing (tree : FileTree) where
  names : Location -> List FileName
  nodup : ∀ directory, (names directory).Nodup
  mem_names : ∀ {directory name}, name ∈ names directory ↔
    tree.find (directory ++ [name]) ≠ none

/-- Names in no particular order. -/
noncomputable def Listing.arbitrary (tree : FileTree) : Listing tree where
  names directory := tree.locations.toList.filterMap fun location =>
    if location.dropLast = directory then location.getLast? else none
  nodup directory := by
    refine List.Nodup.filterMap ?_ tree.locations.nodup_toList
    intro location other name first second
    split at first
    next own =>
      split at second
      next otherOwn =>
        have left := List.dropLast_append_getLast? name first
        have right := List.dropLast_append_getLast? name second
        rw [← left, ← right, own, otherOwn]
      next => contradiction
    next => contradiction
  mem_names := by
    intro directory name
    rw [List.mem_filterMap, ← tree.mem_locations]
    constructor
    · rintro ⟨location, member, last⟩
      split at last
      next own =>
        rw [← own, List.dropLast_append_getLast? name last]
        exact Finset.mem_toList.mp member
      next => contradiction
    · intro member
      exact ⟨_, Finset.mem_toList.mpr member, by simp⟩

namespace FileTree

variable {tree : FileTree}

/-- How many entries a location has, itself included. -/
def weight (tree : FileTree) (location : Location) : Nat :=
  (tree.locations.filter fun other => location <+: other).card

/-- How many entries the directories of a stack have. -/
def load (tree : FileTree) : List Location -> Nat
  | [] => 0
  | directory :: stack => weight tree directory + load tree stack

/-- The entries under some names of a directory. -/
def under
    (tree : FileTree)
    (directory : Location)
    (names : List FileName) : Finset Location :=
  tree.locations.filter fun other =>
    ∃ name ∈ names, directory ++ [name] <+: other

theorem card_under_cons
    {directory : Location}
    {name : FileName}
    {names : List FileName}
    (fresh : name ∉ names) :
    (under tree directory (name :: names)).card =
      weight tree (directory ++ [name]) +
        (under tree directory names).card := by
  rw [weight, under, under, ← Finset.card_union_of_disjoint]
  · congr 1
    ext other
    simp only [Finset.mem_filter, Finset.mem_union, List.mem_cons,
      exists_eq_or_imp, and_or_left]
  · rw [Finset.disjoint_left]
    intro other first second
    obtain ⟨-, next, member, below⟩ := Finset.mem_filter.mp second
    have same := name_eq_of_prefix (Finset.mem_filter.mp first).2 below
    exact fresh (same ▸ member)

/-- A directory weighs more than what is under its names. -/
theorem card_under_lt_weight
    {directory : Location}
    (present : tree.find directory ≠ none)
    (names : List FileName) :
    (under tree directory names).card < weight tree directory := by
  apply Finset.card_lt_card
  rw [Finset.ssubset_iff_of_subset]
  · refine ⟨directory, ?_, ?_⟩
    · exact Finset.mem_filter.mpr
        ⟨tree.mem_locations.mpr present, List.prefix_refl _⟩
    · intro member
      obtain ⟨-, name, -, below⟩ := Finset.mem_filter.mp member
      have longer := below.length_le
      simp at longer
  · intro other member
    obtain ⟨listed, name, -, below⟩ := Finset.mem_filter.mp member
    exact Finset.mem_filter.mpr
      ⟨listed, (List.prefix_append _ _).trans below⟩

end FileTree

end Library
