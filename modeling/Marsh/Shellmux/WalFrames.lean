import Marsh.Shellmux.WalRuns

/-!
# What one move leaves alone

Whether it succeeds or fails, a write without links on its way touches its target
and its temporary, and a removal its target and the directories above.
-/

namespace Marsh
namespace Shellmux

open Library

namespace Wal

open Operation

/-! ## Writes -/

/-- What a write under `above` leaves alone, when no link is on its way:
everything but its target, what is below that, and its temporary if this is no
directory. -/
structure WriteFrame
    (above : Location)
    (name : FileName)
    (tree next : FileTree) : Prop where
  unlinked : next.Unlinked above
  kept : ∀ {other}, ¬ above ++ [name] <+: other ->
    other ≠ above ++ [temporary name] -> tree.find other ≠ none ->
    next.find other = tree.find other
  added : ∀ {other}, ¬ above ++ [name] <+: other -> tree.find other = none ->
    next.find other = none ∨ next.find other = some .directory
  directory : tree.find (above ++ [temporary name]) = some .directory ->
    next.find (above ++ [temporary name]) = some .directory
  below : ∀ {other}, above ++ [name] <+: other -> other ≠ above ++ [name] ->
    tree.leaf other = none -> next.leaf other = none

/-- What a write leaves alone. -/
def WriteKeeps (above : Location) (name : FileName) (tree next : FileTree) :
    Prop :=
  tree.Unlinked above -> WriteFrame above name tree next

section Writes

variable {above : Location} {name : FileName} {tree next : FileTree}

theorem WriteFrame.refl (unlinked : tree.Unlinked above) :
    WriteFrame above name tree tree :=
  ⟨unlinked, fun _ _ _ => rfl, fun _ missing => .inl missing,
    fun found => found, fun _ _ missing => missing⟩

instance : Std.Refl (WriteKeeps above name) where
  refl _ unlinked := WriteFrame.refl unlinked

theorem WriteFrame.trans
    {middle : FileTree}
    (before : WriteFrame above name tree middle)
    (later : WriteKeeps above name middle next) :
    WriteFrame above name tree next := by
  have after := later before.unlinked
  refine ⟨after.unlinked, fun outside distinct present => ?_,
    fun {other} outside missing => ?_,
    fun found => after.directory (before.directory found),
    fun under apart missing =>
      after.below under apart (before.below under apart missing)⟩
  · have same := before.kept outside distinct present
    rw [after.kept outside distinct (by rwa [same]), same]
  · obtain absent | directory := before.added outside missing
    · exact after.added outside absent
    · refine .inr ?_
      by_cases own : other = above ++ [temporary name]
      · rw [own] at directory ⊢
        exact after.directory directory
      · rw [after.kept outside own (by simp [directory]), directory]

instance : IsTrans FileTree (WriteKeeps above name) where
  trans _ _ _ first second unlinked := (first unlinked).trans second

theorem writeKeeps_of_extends (extended : tree.Extends next) :
    WriteKeeps above name tree next := by
  intro unlinked
  refine ⟨extended.unlinked unlinked, fun _ _ present => extended.kept present,
    fun _ missing => extended.added missing, fun found => ?_,
    fun {other} _ _ missing => ?_⟩
  · rw [extended.kept (by simp [found]), found]
  · obtain absent | directory := FileTree.leaf_eq_none.mp missing
    · exact FileTree.leaf_eq_none.mpr (extended.added absent)
    · rw [FileTree.leaf_congr (extended.kept (by simp [directory])), missing]

/-- Removing the temporary, unless it is a directory. -/
theorem writeKeeps_of_drop
    {node : Node}
    {nonroot : above ++ [temporary name] ≠ []}
    (leaf : tree.leaf (above ++ [temporary name]) = some node) :
    WriteKeeps above name tree (tree.drop _ nonroot) := by
  have finds : ∀ {other}, other ≠ above ++ [temporary name] ->
      (tree.drop _ nonroot).find other = tree.find other := by
    intro other distinct
    rw [FileTree.find_drop]
    split_ifs with below
    · exact (FileTree.find_of_leaf_above leaf below distinct.symm).symm
    · rfl
  intro unlinked
  refine ⟨unlinked.of_find fun other before => .inl (finds ?_),
    fun _ distinct _ => finds distinct,
    fun {other} _ missing => .inl ?_,
    fun found => ?_, fun {other} under _ missing => ?_⟩
  · rintro rfl
    exact FileTree.not_prefix_of_append _ _ before
  · by_cases own : other = above ++ [temporary name]
    · rw [own, FileTree.find_drop_of_below (List.prefix_refl _)]
    · rw [finds own, missing]
  · obtain ⟨here, kind⟩ := FileTree.leaf_eq_some.mp leaf
    exact absurd (Option.some.inj (here.symm.trans found)) kind
  · rw [FileTree.leaf_congr (finds ?_), missing]
    rintro rfl
    exact not_prefix_temporary above name under

theorem keeps_unlink_temporary :
    Keeps (WriteKeeps above name) (change fun tree : FileTree =>
      tree.unlink (FileTree.absolutePath (above ++ [temporary name]))) := by
  refine Keeps.change fun {tree next} unlinks unlinked => ?_
  obtain ⟨location, node, nonroot, located, leaf, rfl⟩ :=
    FileTree.unlink_eq_ok unlinks
  obtain ⟨rfl, -⟩ := FileTree.locate_of_unlinked unlinked located
  exact writeKeeps_of_drop leaf unlinked

/-- A copy that succeeds puts an entry at the temporary. -/
theorem copyEntry_eq_ok
    {source : Path}
    {metadata : Node}
    (unlinked : tree.Unlinked above)
    (copies : copyEntry source
      (FileTree.absolutePath (above ++ [temporary name])) metadata tree =
        (.ok (), next)) :
    ∃ node vacant, node ≠ .directory ∧
      next = tree.set (above ++ [temporary name]) node vacant := by
  have copied : mapError io (change fun tree : FileTree => tree.copy source
      (FileTree.absolutePath (above ++ [temporary name]))) tree =
        (.ok (), next) ->
      ∃ node vacant, node ≠ .directory ∧
        next = tree.set (above ++ [temporary name]) node vacant := by
    intro runs
    obtain ⟨_, _, _, location, _, vacant, _, _, _, located, -, rfl⟩ :=
      FileTree.copy_eq_ok (change_eq_ok (mapError_eq_ok runs))
    obtain ⟨rfl, -⟩ := FileTree.locate_of_unlinked unlinked located
    exact ⟨_, vacant, Node.noConfusion, rfl⟩
  cases metadata with
  | symlink target =>
      obtain ⟨link, middle, reads, runs⟩ := bind_eq_ok copies
      obtain ⟨-, rfl⟩ := look_eq_ok (mapError_eq_ok reads)
      obtain ⟨location, vacant, located, -, rfl⟩ :=
        FileTree.symlink_eq_ok (change_eq_ok (mapError_eq_ok runs))
      obtain ⟨rfl, -⟩ := FileTree.locate_of_unlinked unlinked located
      exact ⟨_, vacant, Node.noConfusion, rfl⟩
  | directory => exact copied copies
  | file content mode => exact copied copies
  | other mode => exact copied copies

/-- A copy that fails changes nothing. -/
theorem copyEntry_eq_error
    {source temporaryPath : Path}
    {metadata : Node}
    {error : MuxError}
    (fails : copyEntry source temporaryPath metadata tree =
      (.error error, next)) : next = tree := by
  have unchanged : ∀ {operation : FileTree -> Except Errno FileTree}
      {state : FileTree},
      mapError io (change operation) state = (.error error, next) ->
        next = state := by
    intro operation state runs
    cases ran : operation state with
    | error fault =>
        rw [mapError_of_error (change_of_error ran)] at runs
        exact (congrArg Prod.snd runs).symm
    | ok done =>
        rw [mapError_of_ok (change_of_ok ran)] at runs
        cases runs
  cases metadata with
  | symlink target =>
      cases read : tree.readLink source with
      | error fault =>
          have looked : mapError io (look fun tree : FileTree =>
              tree.readLink source) tree = (.error (io fault), tree) :=
            mapError_of_error (look_of_error read)
          rw [copyEntry, bind_of_error looked] at fails
          exact (congrArg Prod.snd fails).symm
      | ok link =>
          have looked : mapError io (look fun tree : FileTree =>
              tree.readLink source) tree = (.ok link, tree) :=
            mapError_of_ok (look_of_ok read)
          rw [copyEntry, bind_of_ok looked] at fails
          exact unchanged fails
  | directory => exact unchanged fails
  | file content mode => exact unchanged fails
  | other mode => exact unchanged fails

/-- Copying through the temporary leaves nothing at it. -/
theorem keeps_land (source : Path) (metadata : Node) :
    Keeps (WriteKeeps above name)
      (copyEntry source (FileTree.absolutePath (above ++ [temporary name]))
          metadata >>= fun _ =>
        clearTarget (FileTree.absolutePath (above ++ [name])) >>= fun _ =>
          mapError io (change fun tree => tree.rename
            (FileTree.absolutePath (above ++ [temporary name]))
            (FileTree.absolutePath (above ++ [name])))) := by
  intro tree unlinked
  cases copied : copyEntry source
      (FileTree.absolutePath (above ++ [temporary name])) metadata tree with
  | mk result middle =>
      cases result with
      | error error =>
          rw [bind_of_error copied, copyEntry_eq_error copied]
          exact WriteFrame.refl unlinked
      | ok done =>
          obtain ⟨node, vacant, kind, rfl⟩ := copyEntry_eq_ok unlinked copied
          have leaf : (tree.set _ node vacant).leaf
              (above ++ [temporary name]) = some node :=
            FileTree.leaf_eq_some.mpr ⟨FileTree.find_set_self, kind⟩
          obtain ⟨next, lands, landed⟩ := land_of_leaf leaf
          rw [bind_of_ok copied, lands]
          have finds : ∀ {other}, ¬ above ++ [name] <+: other ->
              other ≠ above ++ [temporary name] ->
              next.find other = tree.find other := by
            intro other outside distinct
            have apart : other ≠ above ++ [name] := by
              rintro rfl
              exact outside (List.prefix_refl _)
            rw [landed, if_neg apart, if_neg outside,
              FileTree.find_set_of_ne distinct]
            split_ifs with below
            · exact (tree.find_of_not_directory vacant.leaf below
                distinct.symm).symm
            · rfl
          refine ⟨unlinked.of_find fun other before => .inl (finds ?_ ?_),
            fun outside distinct _ => finds outside distinct,
            fun {other} outside missing => .inl ?_,
            fun found => absurd found vacant.leaf,
            fun {other} under apart _ => ?_⟩
          · exact fun below =>
              FileTree.not_prefix_of_append _ _ (below.trans before)
          · rintro rfl
            exact FileTree.not_prefix_of_append _ _ before
          · by_cases own : other = above ++ [temporary name]
            · subst own
              have apart : above ++ [temporary name] ≠ above ++ [name] :=
                fun same => not_prefix_temporary above name (by rw [same])
              rw [landed, if_neg apart, if_neg outside,
                if_pos (List.prefix_refl _)]
            · rw [finds outside own, missing]
          · rw [FileTree.leaf_eq_none, landed, if_neg apart, if_pos under]
            exact .inl rfl

/-- A write leaves alone what is not its target or its temporary. -/
theorem keeps_applyWrite
    (text : name.IsText)
    (source : Path) :
    Keeps (WriteKeeps above name)
      (applyWrite source (FileTree.absolutePath (above ++ [name]))) := by
  intro tree
  rw [applyWrite, bind_of_ok (look_targetParent above name tree)]
  refine Keeps.bind (Keeps.mapError fun tree => writeKeeps_of_extends
    (FileOperation.keeps_createDirAll _ tree)) (fun _ made => ?_) tree
  rw [bind_of_ok (look_targetName above name made),
    join_temporaryName above text]
  refine Keeps.bind (Keeps.look _) (fun metadata => ?_) made
  refine Keeps.bind (Keeps.recover (Keeps.mapError keeps_unlink_temporary)
    fun _ => Keeps.pure ()) fun _ => ?_
  exact keeps_land source metadata

end Writes

/-! ## Removals -/

/-- What a removal below a root leaves alone, when no link is on its way:
everything but its target, what is below that, and directories above it.  It
adds nothing. -/
structure RemoveFrame
    (root : Location)
    (names : List FileName)
    (name : FileName)
    (tree next : FileTree) : Prop where
  unlinked : next.Unlinked (root ++ names)
  kept : ∀ {other}, ¬ root ++ names ++ [name] <+: other ->
    next.find other = tree.find other ∨
      tree.find other = some .directory ∧ next.find other = none ∧
        root <+: other ∧ root ≠ other ∧ other <+: root ++ names
  absent : ∀ {other}, tree.find other = none -> next.find other = none

/-- What a removal leaves alone. -/
def RemoveKeeps
    (root : Location)
    (names : List FileName)
    (name : FileName)
    (tree next : FileTree) : Prop :=
  tree.Unlinked (root ++ names) -> RemoveFrame root names name tree next

section Removals

variable {root : Location} {names : List FileName} {name : FileName}
  {tree next : FileTree}

theorem RemoveFrame.refl (unlinked : tree.Unlinked (root ++ names)) :
    RemoveFrame root names name tree tree :=
  ⟨unlinked, fun _ => .inl rfl, fun missing => missing⟩

instance : Std.Refl (RemoveKeeps root names name) where
  refl _ unlinked := RemoveFrame.refl unlinked

theorem RemoveFrame.trans
    {middle : FileTree}
    (before : RemoveFrame root names name tree middle)
    (later : RemoveKeeps root names name middle next) :
    RemoveFrame root names name tree next := by
  have after := later before.unlinked
  refine ⟨after.unlinked, fun outside => ?_,
    fun missing => after.absent (before.absent missing)⟩
  obtain same | ⟨directory, gone, below⟩ := after.kept outside
  · rw [same]
    exact before.kept outside
  · obtain old | ⟨_, absent, _⟩ := before.kept outside
    · exact .inr ⟨old ▸ directory, gone, below⟩
    · rw [absent] at directory
      contradiction

instance : IsTrans FileTree (RemoveKeeps root names name) where
  trans _ _ _ first second unlinked := (first unlinked).trans second

/-- Removing the target and what is below it. -/
theorem removeKeeps_of_drop {nonroot : root ++ names ++ [name] ≠ []} :
    RemoveKeeps root names name tree (tree.drop _ nonroot) := by
  have finds : ∀ {other}, ¬ root ++ names ++ [name] <+: other ->
      (tree.drop _ nonroot).find other = tree.find other :=
    fun outside => FileTree.find_drop_of_not_below outside
  intro unlinked
  refine ⟨unlinked.of_find fun other before => .inl (finds ?_),
    fun outside => .inl (finds outside), fun {other} missing => ?_⟩
  · exact fun below => FileTree.not_prefix_of_append _ _ (below.trans before)
  · rw [FileTree.find_drop]
    split_ifs
    · rfl
    · exact missing

theorem keeps_removeEntry :
    Keeps (RemoveKeeps root names name)
      (removeEntry (FileTree.absolutePath (root ++ names ++ [name]))) := by
  have unlinks : Keeps (RemoveKeeps root names name)
      (change fun tree : FileTree =>
        tree.unlink (FileTree.absolutePath (root ++ names ++ [name]))) := by
    refine Keeps.change fun {tree next} unlinked way => ?_
    obtain ⟨location, node, nonroot, located, leaf, rfl⟩ :=
      FileTree.unlink_eq_ok unlinked
    obtain ⟨rfl, -⟩ := FileTree.locate_of_unlinked way located
    exact removeKeeps_of_drop way
  refine (Keeps.look _).bind fun metadata => ?_
  split
  next =>
    intro tree way
    have last := FileTree.getLast?_path [.rootDir] (root ++ names) name
    change (FileTree.absolutePath (root ++ names ++ [name])).getLast? = _
      at last
    obtain same | ⟨location, nonroot, located, removed⟩ :=
      FileOperation.removeDirAll_snd last tree
    · rw [same]
      exact RemoveFrame.refl way
    · obtain ⟨rfl, -⟩ := FileTree.locate_of_unlinked way located
      rw [removed]
      exact removeKeeps_of_drop way
  next => exact unlinks
  next => exact Keeps.pure ()
  next => exact Keeps.throw _

theorem keeps_pruneEmptyParents :
    Keeps (RemoveKeeps root names name)
      (change fun tree => .ok (pruneEmptyParents (FileTree.absolutePath root)
        (FileTree.absolutePath (root ++ names ++ [name])) tree) :
        SeedOperation Unit) := by
  refine Keeps.change fun {tree next} prunes way => ?_
  cases prunes
  rw [pruneEmptyParents, parent_absolutePath]
  have pruned := pruned_pruneEmptyRev way
  refine ⟨pruned.unlinked way, fun {other} outside => pruned other,
    fun {other} missing => ?_⟩
  obtain same | ⟨-, gone, -⟩ := pruned other
  · rw [same, missing]
  · exact gone

/-- A removal leaves alone what is not its target or above it. -/
theorem keeps_applyRemove :
    Keeps (RemoveKeeps root names name)
      (applyRemove (FileTree.absolutePath root)
        (FileTree.absolutePath (root ++ names ++ [name]))) := by
  refine Keeps.bind (Keeps.mapError (Keeps.recover keeps_removeEntry
    fun error => ?_)) fun _ => keeps_pruneEmptyParents
  split_ifs
  · exact Keeps.pure ()
  · exact Keeps.throw _

end Removals

end Wal

end Shellmux
end Marsh
