import Marsh.Library.TreeListing
import Marsh.Shellmux.Wal

/-!
# The sweep of temporaries

A startup walks the seed and removes every file under a name that ends in the
suffix of the temporaries.
-/

namespace Marsh
namespace Shellmux

open Library Operation

/-- Whether a name ends as a temporary's does. -/
def namedTemporary (name : FileName) : Bool :=
  temporarySuffix.isSuffixOf (Text.lossy name.bytes)

/-- What one listed name adds to the stack, or the removal of its file. -/
def sweepEntry
    (directory : Location)
    (stack : List Location)
    (name : FileName) : FileOperation (List Location) := fun tree =>
  if tree.find (directory ++ [name]) = some .directory then
    (.ok ((directory ++ [name]) :: stack), tree)
  else if namedTemporary name then
    (do
      change fun tree =>
        tree.unlink (FileTree.absolutePath (directory ++ [name]))
      return stack : FileOperation (List Location)) tree
  else (.ok stack, tree)

/-- Goes through the names of a directory. -/
def sweepNames (directory : Location) :
    List FileName -> List Location -> FileOperation (List Location)
  | [], stack => pure stack
  | name :: names, stack => do
      let next ← sweepEntry directory stack name
      sweepNames directory names next

/-- Goes through the directories of the stack, the last one pushed first. -/
def sweepStack (names : Location -> List FileName) :
    Nat -> List Location -> FileOperation Unit
  | _, [] => pure ()
  | 0, _ :: _ => pure ()
  | fuel + 1, directory :: stack => do
      let next ← sweepNames directory (names directory) stack
      sweepStack names fuel next

/-- Removes the temporaries a crash may have left below `root`.  The tree's size
is enough fuel. -/
def sweepTemporaries
    {tree : FileTree}
    (listing : Listing tree)
    (root : Location) : FileOperation Unit :=
  sweepStack listing.names tree.locations.card [root]

/-! ## What is swept -/

section Swept

variable {tree : FileTree} {root : Location}

/-- A file below the root whose name ends in the suffix. -/
def Swept (tree : FileTree) (root location : Location) : Prop :=
  tree.leaf location ≠ none ∧ ∃ above name,
    location = root ++ (above ++ [name]) ∧ namedTemporary name = true

/-- Whether only swept files are missing. -/
def Swept.Only (tree : FileTree) (root : Location) (now : FileTree) : Prop :=
  ∀ location, now.find location = tree.find location ∨
    now.find location = none ∧ Swept tree root location

/-- Whether only directories below the root are on a stack. -/
def Walked (tree : FileTree) (root : Location) (stack : List Location) : Prop :=
  ∀ other ∈ stack, root <+: other ∧ tree.find other = some .directory

variable {now middle : FileTree} {directory : Location} {name : FileName}
  {todo : List FileName} {stack : List Location}

theorem Swept.of_only
    {location : Location}
    (only : Swept.Only tree root now)
    (swept : Swept now root location) : Swept tree root location := by
  refine ⟨?_, swept.2⟩
  obtain same | ⟨gone, -⟩ := only location
  · rw [← FileTree.leaf_congr same]
    exact swept.1
  · exact absurd (FileTree.leaf_eq_none.mpr (.inl gone)) swept.1

theorem Swept.Only.refl (tree : FileTree) (root : Location) :
    Swept.Only tree root tree :=
  fun _ => .inl rfl

theorem Swept.Only.trans
    (first : Swept.Only tree root middle)
    (second : Swept.Only middle root now) : Swept.Only tree root now := by
  intro location
  obtain same | ⟨gone, swept⟩ := second location
  · rw [same]
    exact first location
  · exact .inr ⟨gone, swept.of_only first⟩

/-- What is gone does not come back. -/
theorem Swept.Only.antisymm
    (first : Swept.Only tree root now)
    (second : Swept.Only now root tree) : now = tree := by
  ext1 location
  obtain same | ⟨gone, -⟩ := first location
  · exact same
  · obtain same | ⟨missing, -⟩ := second location
    · exact same.symm
    · rw [gone, missing]

/-- No directory is swept. -/
theorem Swept.Only.keeps
    {location : Location}
    (only : Swept.Only tree root now)
    (found : tree.find location = some .directory) :
    now.find location = some .directory := by
  obtain same | ⟨-, swept⟩ := only location
  · rw [same, found]
  · exact absurd (FileTree.leaf_eq_none.mpr (.inr found)) swept.1

theorem Walked.of_only
    (only : Swept.Only tree root now)
    (walked : Walked tree root stack) : Walked now root stack :=
  fun other member => ⟨(walked other member).1,
    only.keeps (walked other member).2⟩

/-- A file with the name of a temporary may be removed. -/
theorem Swept.Only.drop
    {node : Node}
    (nonroot : directory ++ [name] ≠ [])
    (below : root <+: directory)
    (leaf : tree.leaf (directory ++ [name]) = some node)
    (named : namedTemporary name = true) :
    Swept.Only tree root (tree.drop (directory ++ [name]) nonroot) := by
  intro location
  rw [FileTree.find_drop]
  split_ifs with under
  · by_cases own : directory ++ [name] = location
    · subst own
      obtain ⟨above, rfl⟩ := below
      have present : tree.leaf (root ++ above ++ [name]) ≠ none := by
        rw [leaf]
        exact Option.some_ne_none node
      refine .inr ⟨rfl, present, above, name, ?_, named⟩
      exact List.append_assoc ..
    · exact .inl (FileTree.find_of_leaf_above leaf under own).symm
  · exact .inl rfl

/-- The file of a temporary's name is removed. -/
theorem sweepEntry_of_leaf
    {node : Node}
    (nonroot : directory ++ [name] ≠ [])
    (leaf : tree.leaf (directory ++ [name]) = some node)
    (named : namedTemporary name = true) :
    sweepEntry directory stack name tree =
      (.ok stack, tree.drop (directory ++ [name]) nonroot) := by
  obtain ⟨found, kind⟩ := FileTree.leaf_eq_some.mp leaf
  have unlinks := FileTree.unlink_of_leaf
    (FileTree.locate_of_found (FileTree.find_ne_none_of_leaf leaf)) leaf nonroot
  rw [sweepEntry, if_neg, if_pos named,
    Operation.bind_of_ok (Operation.change_of_ok unlinks)]
  · rfl
  · rw [found]
    exact fun same => kind (Option.some.inj same)

/-- No link is on the way to a directory. -/
theorem unlinked_of_directory
    (found : tree.find directory = some .directory) :
    tree.Unlinked directory := by
  refine FileTree.Passable.unlinked fun above before => .inr ?_
  by_cases own : above = directory
  · rw [own, found]
  · exact tree.directory_of_below (by simp [found]) before own

/-- A name of a directory is swept, or it is left and may add to the stack. -/
theorem sweepEntry_only
    (name : FileName)
    (walked : Walked tree root (directory :: stack)) :
    Swept.Only tree root (sweepEntry directory stack name tree).2 ∧
      ∀ {pushed}, (sweepEntry directory stack name tree).1 = .ok pushed ->
        Walked tree root (directory :: pushed) := by
  obtain ⟨below, real⟩ := walked directory List.mem_cons_self
  by_cases found : tree.find (directory ++ [name]) = some .directory
  · rw [sweepEntry, if_pos found]
    refine ⟨Swept.Only.refl tree root, fun runs => ?_⟩
    cases runs
    intro other member
    obtain rfl | last := List.mem_cons.mp member
    · exact ⟨below, real⟩
    · obtain rfl | earlier := List.mem_cons.mp last
      · exact ⟨below.trans (List.prefix_append _ _), found⟩
      · exact walked other (List.mem_cons_of_mem _ earlier)
  · rw [sweepEntry, if_neg found]
    by_cases named : namedTemporary name = true
    · rw [if_pos named]
      cases unlinks : tree.unlink
          (FileTree.absolutePath (directory ++ [name])) with
      | error error =>
          rw [Operation.bind_of_error (Operation.change_of_error unlinks)]
          exact ⟨Swept.Only.refl tree root, fun runs => by cases runs⟩
      | ok next =>
          obtain ⟨location, node, nonroot, located, leaf, rfl⟩ :=
            FileTree.unlink_eq_ok unlinks
          obtain ⟨rfl, -⟩ := FileTree.locate_of_unlinked
            (unlinked_of_directory real) located
          rw [Operation.bind_of_ok (Operation.change_of_ok unlinks)]
          refine ⟨Swept.Only.drop nonroot below leaf named, fun runs => ?_⟩
          cases runs
          exact walked
    · rw [if_neg named]
      refine ⟨Swept.Only.refl tree root, fun runs => ?_⟩
      cases runs
      exact walked

theorem sweepNames_only
    (todo : List FileName)
    (walked : Walked tree root (directory :: stack)) :
    Swept.Only tree root (sweepNames directory todo stack tree).2 ∧
      ∀ {pushed}, (sweepNames directory todo stack tree).1 = .ok pushed ->
        Walked (sweepNames directory todo stack tree).2 root
          (directory :: pushed) := by
  induction todo generalizing tree stack with
  | nil =>
      refine ⟨Swept.Only.refl tree root, fun runs => ?_⟩
      cases runs
      exact walked
  | cons name todo hypothesis =>
      have first := sweepEntry_only name walked
      rw [sweepNames]
      cases ran : sweepEntry directory stack name tree with
      | mk result middle =>
          rw [ran] at first
          cases result with
          | error error =>
              rw [Operation.bind_of_error ran]
              exact ⟨first.1, fun runs => by cases runs⟩
          | ok next =>
              rw [Operation.bind_of_ok ran]
              have rest := hypothesis ((first.2 rfl).of_only first.1)
              exact ⟨first.1.trans rest.1, rest.2⟩

/-- A sweep removes nothing but files with the names of temporaries. -/
theorem sweepStack_only
    (names : Location -> List FileName)
    (fuel : Nat)
    (walked : Walked tree root stack) :
    Swept.Only tree root (sweepStack names fuel stack tree).2 := by
  induction fuel generalizing tree stack with
  | zero => cases stack <;> exact Swept.Only.refl tree root
  | succ fuel hypothesis =>
      cases stack with
      | nil => exact Swept.Only.refl tree root
      | cons directory stack =>
          have first := sweepNames_only (names directory) walked
          rw [sweepStack]
          cases ran : sweepNames directory (names directory) stack tree with
          | mk result middle =>
              rw [ran] at first
              cases result with
              | error error =>
                  rw [Operation.bind_of_error ran]
                  exact first.1
              | ok next =>
                  rw [Operation.bind_of_ok ran]
                  refine first.1.trans (hypothesis fun other member => ?_)
                  exact first.2 rfl other (List.mem_cons_of_mem _ member)

/-! ## Sweeps that remove nothing -/

/-- A name that leaves the tree as it was adds its directory to the stack, or is
no temporary's. -/
theorem sweepEntry_of_same
    (listed : tree.find (directory ++ [name]) ≠ none)
    (same : (sweepEntry directory stack name tree).2 = tree) :
    tree.find (directory ++ [name]) = some .directory ∧
        sweepEntry directory stack name tree =
          (.ok ((directory ++ [name]) :: stack), tree) ∨
      namedTemporary name = false ∧
        tree.find (directory ++ [name]) ≠ some .directory ∧
        sweepEntry directory stack name tree = (.ok stack, tree) := by
  by_cases found : tree.find (directory ++ [name]) = some .directory
  · refine .inl ⟨found, ?_⟩
    rw [sweepEntry, if_pos found]
  · refine .inr ?_
    by_cases named : namedTemporary name = true
    · have leaf : tree.leaf (directory ++ [name]) ≠ none := by
        intro missing
        obtain absent | real := FileTree.leaf_eq_none.mp missing
        · exact listed absent
        · exact found real
      obtain ⟨node, leaf⟩ := Option.ne_none_iff_exists'.mp leaf
      rw [sweepEntry_of_leaf (by simp) leaf named] at same
      have gone := congrArg (FileTree.find · (directory ++ [name])) same
      rw [FileTree.find_drop_of_below (List.prefix_refl _)] at gone
      exact absurd gone.symm listed
    · refine ⟨Bool.eq_false_iff.mpr named, found, ?_⟩
      rw [sweepEntry, if_neg found, if_neg named]

/-- Names that leave the tree as it was add their directories to the stack, and
none that is a file's is a temporary's. -/
theorem sweepNames_of_same
    (walked : Walked tree root (directory :: stack))
    (nodup : todo.Nodup)
    (listed : ∀ name ∈ todo, tree.find (directory ++ [name]) ≠ none)
    (same : (sweepNames directory todo stack tree).2 = tree) :
    ∃ pushed, sweepNames directory todo stack tree = (.ok pushed, tree) ∧
      (∀ other ∈ stack, other ∈ pushed) ∧
      (∀ name ∈ todo, directory ++ [name] ∈ pushed ∨
        namedTemporary name = false ∧
          tree.find (directory ++ [name]) ≠ some .directory) ∧
      FileTree.load tree pushed ≤ FileTree.load tree stack +
        (FileTree.under tree directory todo).card := by
  induction todo generalizing stack with
  | nil => exact ⟨stack, rfl, fun _ member => member, by simp, by simp⟩
  | cons name todo hypothesis =>
      obtain ⟨fresh, distinct⟩ := List.nodup_cons.mp nodup
      have first := sweepEntry_only name walked
      have middle : (sweepEntry directory stack name tree).2 = tree := by
        refine first.1.antisymm ?_
        rw [sweepNames] at same
        cases ran : sweepEntry directory stack name tree with
        | mk result next =>
            rw [ran] at first
            cases result with
            | error error =>
                rw [Operation.bind_of_error ran] at same
                rw [show next = tree from same]
                exact Swept.Only.refl tree root
            | ok pushed =>
                rw [Operation.bind_of_ok ran] at same
                have rest := sweepNames_only todo
                  ((first.2 rfl).of_only first.1)
                rw [same] at rest
                exact rest.1
      have later : ∀ other ∈ todo, tree.find (directory ++ [other]) ≠ none :=
        fun other member => listed other (List.mem_cons_of_mem _ member)
      have present := listed name List.mem_cons_self
      rw [FileTree.card_under_cons fresh]
      obtain ⟨found, runs⟩ | ⟨unnamed, leaf, runs⟩ :=
        sweepEntry_of_same present middle
      · rw [sweepNames, Operation.bind_of_ok runs] at same ⊢
        obtain ⟨pushed, ran, kept, done, light⟩ := hypothesis
          (first.2 (congrArg Prod.fst runs)) distinct later same
        refine ⟨pushed, ran, fun other member => ?_, fun other member => ?_, ?_⟩
        · exact kept other (List.mem_cons_of_mem _ member)
        · obtain rfl | last := List.mem_cons.mp member
          · exact .inl (kept _ List.mem_cons_self)
          · exact done other last
        · rw [FileTree.load] at light
          omega
      · rw [sweepNames, Operation.bind_of_ok runs] at same ⊢
        obtain ⟨pushed, ran, kept, done, light⟩ :=
          hypothesis walked distinct later same
        refine ⟨pushed, ran, kept, fun other member => ?_, by omega⟩
        obtain rfl | last := List.mem_cons.mp member
        · exact .inr ⟨unnamed, leaf⟩
        · exact done other last

/-- A sweep with fuel for its whole stack that leaves the tree as it was had no
files with the names of temporaries to find. -/
theorem not_swept_of_same
    {listing : Listing tree}
    {fuel : Nat}
    (walked : Walked tree root stack)
    (fueled : FileTree.load tree stack ≤ fuel)
    (same : (sweepStack listing.names fuel stack tree).2 = tree)
    {other location : Location}
    (member : other ∈ stack) : ¬ Swept tree other location := by
  induction fuel generalizing stack other with
  | zero =>
      cases stack with
      | nil => contradiction
      | cons directory stack =>
          have present : tree.find directory ≠ none := by
            simp [(walked directory List.mem_cons_self).2]
          have heavy := FileTree.card_under_lt_weight present []
          rw [FileTree.load] at fueled
          omega
  | succ fuel hypothesis =>
      cases stack with
      | nil => contradiction
      | cons directory stack =>
          have first := sweepNames_only (listing.names directory) walked
          have middle :
              (sweepNames directory (listing.names directory) stack tree).2 =
                tree := by
            refine first.1.antisymm ?_
            rw [sweepStack] at same
            cases ran : sweepNames directory (listing.names directory) stack
                tree with
            | mk result next =>
                rw [ran] at first
                cases result with
                | error error =>
                    rw [Operation.bind_of_error ran] at same
                    rw [show next = tree from same]
                    exact Swept.Only.refl tree root
                | ok pushed =>
                    rw [Operation.bind_of_ok ran] at same
                    have rest := sweepStack_only listing.names fuel
                      fun other member =>
                        first.2 rfl other (List.mem_cons_of_mem _ member)
                    rw [same] at rest
                    exact rest
          have real := (walked directory List.mem_cons_self).2
          obtain ⟨pushed, ran, kept, done, light⟩ := sweepNames_of_same walked
            (listing.nodup directory) (fun _ => listing.mem_names.mp) middle
          have lighter := FileTree.card_under_lt_weight
            (show tree.find directory ≠ none by simp [real])
            (listing.names directory)
          rw [sweepStack, Operation.bind_of_ok ran] at same
          rw [FileTree.load] at fueled
          have next : Walked tree root pushed := by
            have walkedNext := first.2 (congrArg Prod.fst ran)
            rw [middle] at walkedNext
            exact fun other member =>
              walkedNext other (List.mem_cons_of_mem _ member)
          have later : ∀ {other}, other ∈ pushed -> ¬ Swept tree other location :=
            hypothesis next (by omega) same
          obtain rfl | earlier := List.mem_cons.mp member
          · rintro ⟨leaf, above, name, rfl, named⟩
            obtain ⟨node, leaf⟩ := Option.ne_none_iff_exists'.mp leaf
            -- The first name below the directory.
            cases above with
            | nil =>
                have listed : name ∈ listing.names other :=
                  listing.mem_names.mpr (FileTree.find_ne_none_of_leaf leaf)
                obtain within | ⟨unnamed, -⟩ := done name listed
                · have found := (next _ within).2
                  exact (FileTree.leaf_eq_some.mp leaf).2
                    (Option.some.inj ((FileTree.find_of_leaf leaf).symm.trans
                      found))
                · rw [unnamed] at named
                  contradiction
            | cons step above =>
                have found : tree.find (other ++ [step]) = some .directory :=
                  FileTree.find_above_of_leaf leaf
                    ⟨above ++ [name], by simp⟩ (by simp)
                have listed : step ∈ listing.names other :=
                  listing.mem_names.mpr (by simp [found])
                obtain within | ⟨-, leaf⟩ := done step listed
                · refine later within ⟨?_, above, name, by simp, named⟩
                  rw [leaf]
                  exact Option.some_ne_none node
                · exact leaf found
          · exact later (kept other earlier)

/-- A startup's sweep leaves a tree as it was if and only if no file below the
seed has a name that ends in the suffix. -/
theorem sweepTemporaries_eq_self_iff
    (listing : Listing tree)
    (real : tree.find root = some .directory) :
    (sweepTemporaries listing root tree).2 = tree ↔
      ∀ location, ¬ Swept tree root location := by
  have walked : Walked tree root [root] := by
    intro other member
    rw [List.mem_singleton.mp member]
    exact ⟨List.prefix_refl _, real⟩
  have only : Swept.Only tree root (sweepTemporaries listing root tree).2 :=
    sweepStack_only _ _ walked
  constructor
  · intro same location
    refine not_swept_of_same walked ?_ same List.mem_cons_self
    rw [FileTree.load, FileTree.load, Nat.add_zero]
    exact Finset.card_filter_le _ _
  · intro clean
    ext1 location
    obtain kept | ⟨-, swept⟩ := only location
    · exact kept
    · exact absurd swept (clean location)

end Swept

end Shellmux
end Marsh
