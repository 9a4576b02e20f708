import Marsh.Shellmux.EntryNames

/-!
# What one move does to a tree

A write puts an entry under directories, in place of whatever its name held; a
removal takes an entry and the directories it leaves empty.
-/

namespace Marsh
namespace Shellmux

open Library

namespace Wal

open Operation

/-! ## Temporaries -/

/-- The bytes of the suffix. -/
def suffixBytes : List UInt8 := [46, 116, 109, 112, 45, 119, 97, 108]

theorem bytes_temporarySuffix : Text.bytes temporarySuffix = suffixBytes := by
  decide

/-- The temporary a write of a text name lands through. -/
def temporary (name : FileName) : FileName where
  bytes := name.bytes ++ suffixBytes
  ne_nil := by simp [name.ne_nil]
  not_curDir := by
    intro same
    have lengths := congrArg List.length same
    simp [suffixBytes] at lengths
  not_parentDir := by
    intro same
    have lengths := congrArg List.length same
    simp [suffixBytes] at lengths
  slash_notMem := by
    rw [List.mem_append, not_or]
    exact ⟨name.slash_notMem, by decide⟩
  nul_notMem := by
    rw [List.mem_append, not_or]
    exact ⟨name.nul_notMem, by decide⟩

theorem length_temporary (name : FileName) :
    (temporary name).bytes.length = name.bytes.length + 8 :=
  List.length_append

theorem temporary_ne (name : FileName) : temporary name ≠ name := by
  intro same
  have lengths : (temporary name).bytes.length = name.bytes.length :=
    congrArg (fun other => other.bytes.length) same
  rw [length_temporary] at lengths
  omega

/-- Where the temporary of a text name is. -/
theorem join_temporaryName
    (above : Location)
    {name : FileName}
    (text : name.IsText) :
    (FileTree.absolutePath above).join
        (Path.ofText (temporaryName name.bytes)) =
      FileTree.absolutePath (above ++ [temporary name]) := by
  have written : Text.bytes (temporaryName name.bytes) =
      FileName.relative [temporary name] := by
    rw [temporaryName, Text.bytes_append, bytes_temporarySuffix, text,
      FileName.relative_singleton]
    rfl
  rw [Path.ofText, written, FileName.ofBytes_relative, Diff.join_absolutePath]

theorem parent_absolutePath (above : Location) (name : FileName) :
    (FileTree.absolutePath (above ++ [name])).parent =
      some (FileTree.absolutePath above) := by
  have last := FileTree.getLast?_path [.rootDir] above name
  have front := FileTree.dropLast_path [.rootDir] above name
  change (FileTree.absolutePath (above ++ [name])).getLast? = _ at last
  change (FileTree.absolutePath (above ++ [name])).dropLast = _ at front
  rw [Path.parent, if_neg, front]
  · rfl
  · rw [last, not_or]
    exact ⟨List.cons_ne_nil _ _, by simp⟩

theorem fileName_absolutePath (above : Location) (name : FileName) :
    (FileTree.absolutePath (above ++ [name])).fileName = some name.bytes := by
  have last := FileTree.getLast?_path [.rootDir] above name
  change (FileTree.absolutePath (above ++ [name])).getLast? = _ at last
  rw [Path.fileName, last]

/-! ## Writes -/

section Writes

variable {tree : FileTree}

theorem look_targetParent (above : Location) (name : FileName) (tree : FileTree) :
    look (fun _ => targetParent (FileTree.absolutePath (above ++ [name]))) tree =
      (.ok (FileTree.absolutePath above), tree) := by
  refine look_of_ok ?_
  rw [targetParent, parent_absolutePath]
  rfl

theorem look_targetName (above : Location) (name : FileName) (tree : FileTree) :
    look (fun _ => targetName (FileTree.absolutePath (above ++ [name]))) tree =
      (.ok name.bytes, tree) := by
  refine look_of_ok ?_
  rw [targetName, fileName_absolutePath]
  rfl

/-- An entry is copied to a free place. -/
theorem copyEntry_of_leaf
    {source target : Location}
    {node : Node}
    (leaf : tree.leaf source = some node)
    (kind : ∀ mode, node ≠ .other mode)
    (reads : node.readable = true)
    (vacant : tree.Vacant target)
    (located : tree.locate (FileTree.absolutePath target) = .ok target)
    (free : tree.find target = none) :
    copyEntry (FileTree.absolutePath source) (FileTree.absolutePath target)
        node tree = (.ok (), tree.set target node.copied vacant) := by
  obtain ⟨here, noDirectory⟩ := FileTree.leaf_eq_some.mp leaf
  have sourced : tree.locate (FileTree.absolutePath source) = .ok source :=
    FileTree.locate_of_found (FileTree.find_ne_none_of_leaf leaf)
  cases node with
  | directory => exact absurd rfl noDirectory
  | other mode => exact absurd rfl (kind mode)
  | file content mode =>
      refine mapError_of_ok (change_of_ok ?_)
      exact FileTree.copy_of_file sourced here reads located free vacant
  | symlink link =>
      have read : look (fun tree : FileTree =>
          tree.readLink (FileTree.absolutePath source)) tree =
          (.ok link, tree) :=
        look_of_ok (FileTree.readLink_of_symlink sourced here)
      rw [copyEntry, bind_of_ok (mapError_of_ok read)]
      refine mapError_of_ok (change_of_ok ?_)
      exact FileTree.symlink_of_none located free vacant

/-- A file its owner may not read is not copied. -/
theorem copyEntry_of_unreadable
    {source : Location}
    {node : Node}
    (found : tree.find source = some node)
    (denied : node.readable = false)
    (target : Path) :
    copyEntry (FileTree.absolutePath source) target node tree =
      (.error (io .permissionDenied), tree) := by
  cases node with
  | directory => contradiction
  | symlink => contradiction
  | other => contradiction
  | file content mode =>
      refine mapError_of_error (change_of_error ?_)
      exact FileTree.copy_of_unreadable
        (FileTree.locate_of_found (by simp [found])) found denied

/-- A directory is removed from the place of an entry, and nothing else is. -/
theorem clearTarget_absolutePath
    {target : Location}
    (nonroot : target ≠ [])
    (located : tree.locate (FileTree.absolutePath target) = .ok target) :
    ∃ next, clearTarget (FileTree.absolutePath target) tree = (.ok (), next) ∧
      next.find target ≠ some .directory ∧
      ∀ other, other ≠ target -> next.find other =
        if target <+: other then none else tree.find other := by
  have looked : look (fun tree : FileTree =>
      (.ok (tree.lstat (FileTree.absolutePath target)) : Except MuxError _))
      tree = (.ok (tree.lstat (FileTree.absolutePath target)), tree) := rfl
  rw [clearTarget, bind_of_ok looked]
  by_cases occupied : tree.find target = some .directory
  · rw [FileTree.lstat_of_some located occupied]
    refine ⟨tree.drop target nonroot, mapError_of_ok ?_, ?_, fun other _ => ?_⟩
    · exact FileOperation.removeDirAll_absolutePath (by simp [occupied]) nonroot
    · rw [FileTree.find_drop_of_below (List.prefix_refl _)]
      simp
    · exact FileTree.find_drop other
  · refine ⟨tree, ?_, occupied, fun other apart => ?_⟩
    · cases found : tree.find target with
      | none =>
          rw [FileTree.lstat_of_none located found]
          rfl
      | some node =>
          rw [FileTree.lstat_of_some located found]
          cases node with
          | directory => exact absurd found occupied
          | file => rfl
          | symlink => rfl
          | other => rfl
    · split_ifs with below
      · exact tree.find_of_not_directory occupied below apart.symm
      · rfl

theorem not_prefix_temporary (above : Location) (name : FileName) :
    ¬ above ++ [name] <+: above ++ [temporary name] :=
  fun below => temporary_ne name
    (FileTree.name_eq_of_prefix (List.prefix_refl _) below)

theorem temporary_not_isPrefix (above : Location) (name : FileName) :
    ¬ above ++ [temporary name] <+: above ++ [name] :=
  fun below => temporary_ne name
    (FileTree.name_eq_of_prefix below (List.prefix_refl _))

/-- A temporary lands at its target, in place of whatever was there. -/
theorem land_of_leaf
    {above : Location}
    {name : FileName}
    {node : Node}
    (leaf : tree.leaf (above ++ [temporary name]) = some node) :
    ∃ next,
      (clearTarget (FileTree.absolutePath (above ++ [name])) >>= fun _ =>
        mapError io (change fun tree => tree.rename
          (FileTree.absolutePath (above ++ [temporary name]))
          (FileTree.absolutePath (above ++ [name])))) tree = (.ok (), next) ∧
        ∀ other, next.find other =
          if other = above ++ [name] then some node
          else if above ++ [name] <+: other then none
          else if above ++ [temporary name] <+: other then none
          else tree.find other := by
  have present := FileTree.find_ne_none_of_leaf leaf
  have inside : tree.find above = some .directory := by
    have up := tree.inside (by simp) present
    rwa [List.dropLast_concat] at up
  have short := tree.short present
  have long : (temporary name).bytes.length ≤ nameMax := short _ (by simp)
  have fit : name.bytes.length ≤ nameMax := by
    rw [length_temporary] at long
    omega
  have notAbove := FileTree.not_prefix_of_append above name
  have apart : above ++ [temporary name] ≠ above ++ [name] :=
    fun same => not_prefix_temporary above name (by rw [same])
  obtain ⟨cleared, clears, empty, keeps⟩ := clearTarget_absolutePath
    (by simp) (FileTree.locate_absolutePath inside fit)
  have inside_cleared : cleared.find above = some .directory := by
    rw [keeps, if_neg notAbove, inside]
    exact fun same => notAbove (by rw [← same])
  have leaf_cleared : cleared.leaf (above ++ [temporary name]) = some node := by
    rw [← leaf]
    apply FileTree.leaf_congr
    rw [keeps _ apart, if_neg (not_prefix_temporary above name)]
  have place : cleared.Vacant (above ++ [name]) := by
    refine ⟨by simp, by rwa [List.dropLast_concat], empty, fun other member => ?_⟩
    obtain old | own := List.mem_append.mp member
    · exact short other (List.mem_append.mpr (.inl old))
    · rw [List.mem_singleton.mp own]
      exact fit
  have renamed := FileTree.rename_of_leaf
    (FileTree.locate_absolutePath inside_cleared long) leaf_cleared
    (FileTree.locate_absolutePath inside_cleared fit) apart place (by simp)
  refine ⟨(cleared.set _ node place).drop (above ++ [temporary name]) (by simp),
    ?_, fun other => ?_⟩
  · rw [bind_of_ok clears]
    exact mapError_of_ok (change_of_ok renamed)
  · rw [FileTree.find_drop]
    by_cases own : other = above ++ [name]
    · subst own
      rw [if_neg (temporary_not_isPrefix above name), FileTree.find_set_self,
        if_pos rfl]
    · rw [FileTree.find_set_of_ne own, keeps other own, if_neg own]
      by_cases below : above ++ [name] <+: other
      · simp only [if_pos below, ite_self]
      · rw [if_neg below, if_neg below]

/-- A write that has made the directories of its target goes on beside it. -/
theorem applyWrite_of_made
    {above : Location}
    {name : FileName}
    {made : FileTree}
    (text : name.IsText)
    (makes : FileOperation.createDirAll (FileTree.absolutePath above) tree =
      (.ok (), made))
    (source : Path) :
    applyWrite source (FileTree.absolutePath (above ++ [name])) tree =
      (look (sourceMetadata source) >>= fun metadata =>
        recover (mapError io (change fun tree : FileTree =>
            tree.unlink (FileTree.absolutePath (above ++ [temporary name]))))
          (fun _ => pure ()) >>= fun _ =>
        copyEntry source (FileTree.absolutePath (above ++ [temporary name]))
          metadata >>= fun _ =>
        clearTarget (FileTree.absolutePath (above ++ [name])) >>= fun _ =>
        mapError io (change fun tree => tree.rename
          (FileTree.absolutePath (above ++ [temporary name]))
          (FileTree.absolutePath (above ++ [name])))) made := by
  rw [applyWrite, bind_of_ok (look_targetParent above name tree),
    bind_of_ok (mapError_of_ok makes),
    bind_of_ok (look_targetName above name made)]
  rw [join_temporaryName above text]

/-- A write makes the directories of its target, and goes on to copy the
source's entry. -/
theorem applyWrite_eq_copyEntry
    {source above : Location}
    {name : FileName}
    {node : Node}
    (leaf : tree.leaf source = some node)
    (text : name.IsText)
    (fits : name.bytes.length + 8 ≤ nameMax)
    (passable : tree.Passable above)
    (short : ∀ other ∈ above, other.bytes.length ≤ nameMax)
    (fresh : tree.find (above ++ [temporary name]) = none) :
    ∃ made, applyWrite (FileTree.absolutePath source)
        (FileTree.absolutePath (above ++ [name])) tree =
      (copyEntry (FileTree.absolutePath source)
          (FileTree.absolutePath (above ++ [temporary name])) node >>= fun _ =>
        clearTarget (FileTree.absolutePath (above ++ [name])) >>= fun _ =>
          mapError io (change fun tree => tree.rename
            (FileTree.absolutePath (above ++ [temporary name]))
            (FileTree.absolutePath (above ++ [name])))) made ∧
      made.leaf source = some node ∧
      made.Vacant (above ++ [temporary name]) ∧
      made.locate (FileTree.absolutePath (above ++ [temporary name])) =
        .ok (above ++ [temporary name]) ∧
      made.find (above ++ [temporary name]) = none ∧
      ∀ other, made.find other =
        if other <+: above then some .directory else tree.find other := by
  obtain ⟨here, noDirectory⟩ := FileTree.leaf_eq_some.mp leaf
  -- The directories of the target.
  obtain ⟨made, runs, finds⟩ :=
    FileOperation.createDirAll_absolutePath passable short
  have inside : made.find above = some .directory := by
    rw [finds, if_pos (List.prefix_refl _)]
  have leaf_made : made.leaf source = some node := by
    rw [← leaf]
    apply FileTree.leaf_congr
    rw [finds, if_neg]
    intro before
    obtain absent | directory := passable source before
    · rw [absent] at here
      contradiction
    · exact noDirectory (Option.some.inj (here.symm.trans directory))
  have located : made.locate (FileTree.absolutePath source) = .ok source :=
    FileTree.locate_of_found (FileTree.find_ne_none_of_leaf leaf_made)
  -- The temporary.
  have long : (temporary name).bytes.length ≤ nameMax := by
    rwa [length_temporary]
  have shorts : ∀ other ∈ above ++ [temporary name],
      other.bytes.length ≤ nameMax := by
    intro other member
    obtain old | own := List.mem_append.mp member
    · exact short other old
    · rw [List.mem_singleton.mp own]
      exact long
  have free : made.find (above ++ [temporary name]) = none := by
    rw [finds, if_neg (FileTree.not_prefix_of_append above _), fresh]
  have vacant : made.Vacant (above ++ [temporary name]) :=
    ⟨by simp, by rwa [List.dropLast_concat], by simp [free], shorts⟩
  have temporaryPath := FileTree.locate_absolutePath inside long
  have unlinked : recover (mapError io (change fun tree : FileTree =>
      tree.unlink (FileTree.absolutePath (above ++ [temporary name]))))
      (fun _ => pure ()) made = (.ok (), made) := by
    have absent : change (fun tree : FileTree =>
        tree.unlink (FileTree.absolutePath (above ++ [temporary name]))) made =
        (.error .notFound, made) :=
      change_of_error (FileTree.unlink_of_none temporaryPath free)
    exact recover_of_error (mapError_of_error absent)
  have metadata : look (sourceMetadata (FileTree.absolutePath source)) made =
      (.ok node, made) := by
    refine look_of_ok ?_
    rw [sourceMetadata, FileTree.lstat_of_some located
      (FileTree.find_of_leaf leaf_made)]
    rfl
  refine ⟨made, ?_, leaf_made, vacant, temporaryPath, free, finds⟩
  rw [applyWrite_of_made text runs, bind_of_ok metadata, bind_of_ok unlinked]

/-- A write puts a copy of the source's entry under directories, in place of
whatever was at its target. -/
theorem applyWrite_absolutePath
    {source above : Location}
    {name : FileName}
    {node : Node}
    (leaf : tree.leaf source = some node)
    (kind : ∀ mode, node ≠ .other mode)
    (reads : node.readable = true)
    (text : name.IsText)
    (fits : name.bytes.length + 8 ≤ nameMax)
    (passable : tree.Passable above)
    (short : ∀ other ∈ above, other.bytes.length ≤ nameMax)
    (fresh : tree.find (above ++ [temporary name]) = none) :
    ∃ next,
      applyWrite (FileTree.absolutePath source)
          (FileTree.absolutePath (above ++ [name])) tree = (.ok (), next) ∧
        ∀ other, next.find other =
          if other = above ++ [name] then some node.copied
          else if above ++ [name] <+: other then none
          else if other <+: above then some .directory
          else tree.find other := by
  have notAbove := FileTree.not_prefix_of_append above
  obtain ⟨made, writes, leaf_made, vacant, temporaryPath, free, finds⟩ :=
    applyWrite_eq_copyEntry leaf text fits passable short fresh
  have copied := copyEntry_of_leaf leaf_made kind reads vacant temporaryPath free
  have leaf_copied : (made.set _ node.copied vacant).leaf
      (above ++ [temporary name]) = some node.copied :=
    FileTree.leaf_eq_some.mpr ⟨FileTree.find_set_self,
      Node.copied_ne_directory (FileTree.leaf_eq_some.mp leaf).2⟩
  obtain ⟨next, lands, landed⟩ := land_of_leaf leaf_copied
  refine ⟨next, ?_, fun other => ?_⟩
  · rw [writes, bind_of_ok copied]
    exact lands
  · rw [landed]
    by_cases own : other = above ++ [name]
    · rw [if_pos own, if_pos own]
    · rw [if_neg own, if_neg own]
      by_cases below : above ++ [name] <+: other
      · rw [if_pos below, if_pos below]
      · rw [if_neg below, if_neg below, FileTree.find_set, finds]
        by_cases hidden : above ++ [temporary name] <+: other
        · have outside : ¬ other <+: above :=
            fun before => notAbove _ (hidden.trans before)
          rw [if_pos hidden, if_neg outside, tree.find_of_none fresh hidden]
        · have distinct : other ≠ above ++ [temporary name] :=
            fun same => hidden (by rw [same])
          rw [if_neg hidden, if_neg distinct]

/-- A write that succeeds had the right to read its source. -/
theorem readable_of_applyWrite
    {source above : Location}
    {name : FileName}
    {node : Node}
    {next : FileTree}
    (leaf : tree.leaf source = some node)
    (text : name.IsText)
    (fits : name.bytes.length + 8 ≤ nameMax)
    (passable : tree.Passable above)
    (short : ∀ other ∈ above, other.bytes.length ≤ nameMax)
    (fresh : tree.find (above ++ [temporary name]) = none)
    (runs : applyWrite (FileTree.absolutePath source)
      (FileTree.absolutePath (above ++ [name])) tree = (.ok (), next)) :
    node.readable = true := by
  obtain ⟨made, writes, leaf_made, -⟩ :=
    applyWrite_eq_copyEntry leaf text fits passable short fresh
  rw [← Bool.not_eq_false]
  intro denied
  rw [writes, bind_of_error (copyEntry_of_unreadable
    (FileTree.find_of_leaf leaf_made) denied _)] at runs
  cases runs

/-- A write under a name that leaves no room for the suffix fails. -/
theorem applyWrite_of_long
    {name : FileName}
    (text : name.IsText)
    (long : nameMax < name.bytes.length + 8)
    (source : Path)
    (above : Location)
    (next : FileTree) :
    applyWrite source (FileTree.absolutePath (above ++ [name])) tree ≠
      (.ok (), next) := by
  intro runs
  obtain ⟨parent, _, first, runs⟩ := bind_eq_ok runs
  rw [look_targetParent] at first
  cases first
  obtain ⟨_, made, -, runs⟩ := bind_eq_ok runs
  obtain ⟨_, _, second, runs⟩ := bind_eq_ok runs
  rw [look_targetName] at second
  cases second
  rw [join_temporaryName above text] at runs
  obtain ⟨metadata, middle, -, runs⟩ := bind_eq_ok runs
  obtain ⟨_, unlinked, -, runs⟩ := bind_eq_ok runs
  obtain ⟨_, copied, copies, -⟩ := bind_eq_ok runs
  have unlocated : ∀ (tree : FileTree) (location : Location),
      tree.locate (FileTree.absolutePath (above ++ [temporary name])) ≠
        .ok location :=
    fun tree => FileTree.locate_of_long (by rwa [length_temporary]) above
  cases metadata with
  | symlink target =>
      obtain ⟨link, _, -, links⟩ := bind_eq_ok copies
      exact FileTree.symlink_of_unlocated (unlocated _) _
        (change_eq_ok (mapError_eq_ok links))
  | directory =>
      exact FileTree.copy_of_unlocated (unlocated _) _
        (change_eq_ok (mapError_eq_ok copies))
  | file content mode =>
      exact FileTree.copy_of_unlocated (unlocated _) _
        (change_eq_ok (mapError_eq_ok copies))
  | other mode =>
      exact FileTree.copy_of_unlocated (unlocated _) _
        (change_eq_ok (mapError_eq_ok copies))

end Writes

/-! ## Removals -/

section Removals

variable {tree : FileTree}

/-- What pruning may leave of a tree: directories between the root and a parent
are gone. -/
def Pruned (root parent : Location) (tree next : FileTree) : Prop :=
  ∀ other, next.find other = tree.find other ∨
    tree.find other = some .directory ∧ next.find other = none ∧
      root <+: other ∧ root ≠ other ∧ other <+: parent

theorem Pruned.refl (root parent : Location) (tree : FileTree) :
    Pruned root parent tree tree :=
  fun _ => .inl rfl

theorem Pruned.trans
    {root parent : Location}
    {middle next : FileTree}
    (first : Pruned root parent tree middle)
    (second : Pruned root parent middle next) : Pruned root parent tree next := by
  intro other
  obtain same | ⟨directory, gone, below⟩ := second other
  · rw [same]
    exact first other
  · obtain old | ⟨_, absent, _⟩ := first other
    · exact .inr ⟨old ▸ directory, gone, below⟩
    · rw [absent] at directory
      contradiction

theorem Pruned.of_isPrefix
    {root parent above : Location}
    {next : FileTree}
    (pruned : Pruned root above tree next)
    (before : above <+: parent) : Pruned root parent tree next := by
  intro other
  obtain same | ⟨directory, gone, below, apart, prior⟩ := pruned other
  · exact .inl same
  · exact .inr ⟨directory, gone, below, apart, prior.trans before⟩

theorem Pruned.unlinked
    {root parent location : Location}
    {next : FileTree}
    (pruned : Pruned root parent tree next)
    (unlinked : tree.Unlinked location) : next.Unlinked location := by
  refine unlinked.of_find fun above _ => ?_
  obtain same | ⟨_, gone, _⟩ := pruned above
  · exact .inl same
  · exact .inr gone

/-- A path without links that leads to an empty directory leads to its own
location. -/
theorem directory_of_leadsToEmpty
    {location : Location}
    (unlinked : tree.Unlinked location)
    (leads : leadsToEmpty tree (FileTree.absolutePath location) = true) :
    tree.find location = some .directory ∧ tree.Empty location := by
  rw [leadsToEmpty] at leads
  split at leads
  next there entered =>
    obtain ⟨rfl, found⟩ := FileTree.enter_of_unlinked unlinked entered
    exact ⟨found, of_decide_eq_true leads⟩
  next => contradiction

/-- Nothing but empty directories is pruned. -/
theorem pruned_pruneEmptyRev
    {root : Location}
    {names : List FileName}
    (unlinked : tree.Unlinked (root ++ names)) :
    Pruned root (root ++ names) tree
      (pruneEmptyRev (FileTree.absolutePath root)
        (FileTree.absolutePath (root ++ names)).reverse tree) := by
  induction names using List.reverseRecOn generalizing tree with
  | nil =>
      rw [List.append_nil]
      have stops : pruneEmptyRev (FileTree.absolutePath root)
          (FileTree.absolutePath root).reverse tree = tree := by
        cases spelled : (FileTree.absolutePath root).reverse with
        | nil => rfl
        | cons component above =>
            rw [pruneEmptyRev, if_pos]
            rw [← spelled, List.reverse_reverse]
            exact .inl rfl
      rw [stops]
      exact Pruned.refl root root tree
  | append_singleton names name hypothesis =>
      rw [← List.append_assoc] at unlinked ⊢
      have before : root ++ names <+: root ++ names ++ [name] := ⟨[name], rfl⟩
      have nonroot : root ++ names ++ [name] ≠ [] := by simp
      rw [FileOperation.reverse_absolutePath, pruneEmptyRev,
        ← FileOperation.reverse_absolutePath, List.reverse_reverse]
      split_ifs with stop empty
      · exact Pruned.refl _ _ tree
      · obtain ⟨found, hollow⟩ := directory_of_leadsToEmpty unlinked empty
        have present : tree.find (root ++ names ++ [name]) ≠ none := by
          rw [found]
          simp
        rw [FileTree.rmdir_of_empty (FileTree.locate_of_found present) found
          hollow nonroot]
        have dropped : Pruned root (root ++ names ++ [name]) tree
            (tree.drop (root ++ names ++ [name]) nonroot) := by
          intro other
          by_cases own : root ++ names ++ [name] = other
          · subst own
            refine .inr ⟨found, ?_, ?_, ?_, List.prefix_refl _⟩
            · exact FileTree.find_drop_of_below (List.prefix_refl _)
            · exact ⟨names ++ [name], by simp⟩
            · simp
          · refine .inl ?_
            rw [FileTree.find_drop]
            split_ifs with below
            · exact (hollow.find_below below own).symm
            · rfl
        have rest := hypothesis
          ((dropped.unlinked unlinked).of_isPrefix before)
        exact dropped.trans (rest.of_isPrefix before)
      · exact Pruned.refl _ _ tree

/-- An entry that is no directory is removed, and nothing else. -/
theorem removeEntry_absolutePath
    {above : Location}
    {name : FileName}
    (passable : tree.Passable above)
    (noDirectory : tree.find (above ++ [name]) ≠ some .directory)
    (short : ∀ other ∈ above ++ [name], other.bytes.length ≤ nameMax) :
    ∃ next,
      removeEntry (FileTree.absolutePath (above ++ [name])) tree =
        (.ok (), next) ∧
      next.find (above ++ [name]) = none ∧
      ∀ other, other ≠ above ++ [name] -> next.find other = tree.find other := by
  have looked : look (fun tree : FileTree =>
      (.ok (tree.lstat (FileTree.absolutePath (above ++ [name]))) :
        Except Errno _)) tree =
      (.ok (tree.lstat (FileTree.absolutePath (above ++ [name]))), tree) := rfl
  rw [removeEntry, bind_of_ok looked]
  have shortAbove : ∀ other ∈ above, other.bytes.length ≤ nameMax :=
    fun other member => short other (List.mem_append.mpr (.inl member))
  obtain missing | found := passable above (List.prefix_refl _)
  · have unlocated : tree.locate (FileTree.absolutePath (above ++ [name])) =
        .error .notFound :=
      FileTree.locate_absolutePath_of_missing passable missing shortAbove
    have absent : tree.lstat (FileTree.absolutePath (above ++ [name])) =
        .error .notFound := by
      simp [FileTree.lstat, unlocated, bind, Except.bind]
    rw [absent]
    exact ⟨tree, rfl, tree.find_of_none missing ⟨[name], rfl⟩, fun _ _ => rfl⟩
  · have located := FileTree.locate_absolutePath found
      (short name (by simp))
    cases here : tree.find (above ++ [name]) with
    | none =>
        rw [FileTree.lstat_of_none located here]
        exact ⟨tree, rfl, here, fun _ _ => rfl⟩
    | some node =>
        have leaf : tree.leaf (above ++ [name]) = some node := by
          refine FileTree.leaf_eq_some.mpr ⟨here, ?_⟩
          rintro rfl
          exact noDirectory here
        have unlinked := FileTree.unlink_of_leaf located leaf (by simp)
        refine ⟨tree.drop (above ++ [name]) (by simp), ?_, ?_, ?_⟩
        · rw [FileTree.lstat_of_some located here]
          cases node with
          | directory => exact absurd here noDirectory
          | file => exact change_of_ok unlinked
          | symlink => exact change_of_ok unlinked
          | other => exact change_of_ok unlinked
        · exact FileTree.find_drop_of_below (List.prefix_refl _)
        · intro other apart
          rw [FileTree.find_drop]
          split_ifs with below
          · exact (FileTree.find_of_leaf_above leaf below apart.symm).symm
          · rfl

/-- A removal of an entry that is no directory, or of none. -/
theorem applyRemove_absolutePath
    {root : Location}
    {names : List FileName}
    {name : FileName}
    (passable : tree.Passable (root ++ names))
    (leaf : tree.find (root ++ names ++ [name]) ≠ some .directory)
    (short : ∀ other ∈ root ++ names ++ [name], other.bytes.length ≤ nameMax) :
    ∃ next,
      applyRemove (FileTree.absolutePath root)
          (FileTree.absolutePath (root ++ names ++ [name])) tree =
        (.ok (), next) ∧
      next.find (root ++ names ++ [name]) = none ∧
      ∀ other, other ≠ root ++ names ++ [name] ->
        next.find other = tree.find other ∨
          tree.find other = some .directory ∧ next.find other = none ∧
            root <+: other ∧ root ≠ other := by
  obtain ⟨middle, removes, gone, keeps⟩ :=
    removeEntry_absolutePath passable leaf short
  have passable_middle : middle.Passable (root ++ names) := by
    intro above before
    rw [keeps]
    · exact passable above before
    · rintro rfl
      exact FileTree.not_prefix_of_append _ _ before
  have pruned := pruned_pruneEmptyRev passable_middle.unlinked
  refine ⟨pruneEmptyRev (FileTree.absolutePath root)
    (FileTree.absolutePath (root ++ names)).reverse middle, ?_, ?_,
    fun other apart => ?_⟩
  · rw [applyRemove, bind_of_ok (mapError_of_ok (recover_of_ok removes))]
    refine change_of_ok ?_
    rw [pruneEmptyParents, parent_absolutePath]
  · obtain same | ⟨directory, _⟩ := pruned (root ++ names ++ [name])
    · rw [same, gone]
    · rw [gone] at directory
      contradiction
  · rw [← keeps other apart]
    obtain same | ⟨directory, absent, below, distinct, -⟩ := pruned other
    · exact .inl same
    · exact .inr ⟨directory, absent, below, distinct⟩

end Removals

end Wal

end Shellmux
end Marsh
