import Marsh.Shellmux.EntryNames

/-!
# What the scan of a tree finds

The scan indexes every entry below its root that is no directory, and nothing
else, however the directories list their names.
-/

namespace Marsh
namespace Shellmux

open Library

namespace Diff

variable {tree : FileTree} {root : Location}

/-- A key with the entry whose names it spells. -/
def Recorded
    (tree : FileTree)
    (root : Location)
    (path : String)
    (entry : Entry) : Prop :=
  ∃ names, path = key names ∧ entry.segments = spelled names ∧
    tree.leaf (root ++ names) = some entry.node

/-- Whether the names below a root are text. -/
def Spellable (tree : FileTree) (root : Location) : Prop :=
  ∀ {names}, tree.find (root ++ names) ≠ none -> ∀ name ∈ names, name.IsText

/-- A key belongs to one entry. -/
theorem Recorded.unique
    (spellable : Spellable tree root)
    {path : String}
    {entry other : Entry}
    (first : Recorded tree root path entry)
    (second : Recorded tree root path other) : entry = other := by
  obtain ⟨names, rfl, spelling, found⟩ := first
  obtain ⟨others, same, otherSpelling, otherFound⟩ := second
  obtain rfl : names = others :=
    eq_of_key_eq
      (spellable (by simp [FileTree.find_of_leaf found]))
      (spellable (by simp [FileTree.find_of_leaf otherFound])) same
  cases entry
  cases other
  dsimp only at *
  rw [spelling, otherSpelling,
    Option.some.inj (found.symm.trans otherFound)]

/-! ## The scan -/

/-- What the names of a directory push weighs no more than what is under
them. -/
theorem load_foldl_scanEntry
    (tree : FileTree)
    (pending : Pending)
    {names : List FileName}
    (nodup : names.Nodup)
    (scanned : List Pending × Entries) :
    FileTree.load tree ((names.foldl (scanEntry tree pending) scanned).1.map
        Pending.directory) ≤
      FileTree.load tree (scanned.1.map Pending.directory) +
        (FileTree.under tree pending.directory names).card := by
  induction names generalizing scanned with
  | nil => exact Nat.le_add_right _ _
  | cons name names hypothesis =>
      obtain ⟨fresh, rest⟩ := List.nodup_cons.mp nodup
      have one : FileTree.load tree
          ((scanEntry tree pending scanned name).1.map Pending.directory) ≤
          FileTree.load tree (scanned.1.map Pending.directory) +
            FileTree.weight tree (pending.directory ++ [name]) := by
        unfold scanEntry
        dsimp only
        cases tree.find (pending.directory ++ [name]) with
        | none => exact Nat.le_add_right _ _
        | some node =>
            cases node with
            | directory => exact (Nat.add_comm _ _).le
            | file => exact Nat.le_add_right _ _
            | symlink => exact Nat.le_add_right _ _
            | other => exact Nat.le_add_right _ _
      have later := hypothesis rest (scanEntry tree pending scanned name)
      rw [List.foldl_cons, FileTree.card_under_cons fresh]
      omega

/-- What a scan knows while it lists the names `todo` of a directory. -/
structure Scanned
    (tree : FileTree)
    (root : Location)
    (directory : Location)
    (todo : List FileName)
    (stack : List Pending)
    (entries : Entries) : Prop where
  real : ∀ pending ∈ stack, ∃ names, pending.directory = root ++ names ∧
    pending.before = spelled names ∧
    tree.find (root ++ names) = some .directory
  sound : ∀ {path entry}, entries[path]? = some entry ->
    Recorded tree root path entry
  complete : ∀ {names node}, tree.leaf (root ++ names) = some node ->
    entries[key names]? = some ⟨spelled names, node⟩ ∨
      (∃ pending ∈ stack, pending.directory <+: root ++ names) ∨
      ∃ name ∈ todo, directory ++ [name] <+: root ++ names

/-- A name adds its directory to the stack, or its entry. -/
theorem Scanned.scanEntry
    {above : List FileName}
    {pending : Pending}
    {name : FileName}
    {todo : List FileName}
    {scanned : List Pending × Entries}
    (spellable : Spellable tree root)
    (place : pending.directory = root ++ above)
    (before : pending.before = spelled above)
    (holds : Scanned tree root pending.directory (name :: todo)
      scanned.1 scanned.2) :
    Scanned tree root pending.directory todo
      (Diff.scanEntry tree pending scanned name).1
      (Diff.scanEntry tree pending scanned name).2 := by
  have names : pending.directory ++ [name] = root ++ (above ++ [name]) := by
    rw [place, List.append_assoc]
  have relative : extend pending.before name = spelled (above ++ [name]) := by
    rw [before, extend_spelled]
  unfold Diff.scanEntry
  dsimp only
  rw [relative]
  cases found : tree.find (pending.directory ++ [name]) with
  | none =>
      refine ⟨holds.real, holds.sound, fun leaf => ?_⟩
      obtain known | waiting | ⟨next, member, below⟩ := holds.complete leaf
      · exact .inl known
      · exact .inr (.inl waiting)
      · obtain rfl | later := List.mem_cons.mp member
        · have absent := tree.find_of_none found below
          rw [FileTree.find_of_leaf leaf] at absent
          contradiction
        · exact .inr (.inr ⟨next, later, below⟩)
  | some node =>
      by_cases kind : node = .directory
      · subst kind
        refine ⟨fun other member => ?_, holds.sound, fun leaf => ?_⟩
        · obtain rfl | old := List.mem_cons.mp member
          · exact ⟨above ++ [name], names, rfl, names ▸ found⟩
          · exact holds.real other old
        · obtain known | ⟨other, member, below⟩ | ⟨next, member, below⟩ :=
            holds.complete leaf
          · exact .inl known
          · exact .inr (.inl ⟨other, List.mem_cons_of_mem _ member, below⟩)
          · obtain rfl | later := List.mem_cons.mp member
            · exact .inr (.inl ⟨_, List.mem_cons_self, below⟩)
            · exact .inr (.inr ⟨next, later, below⟩)
      · have here : tree.leaf (root ++ (above ++ [name])) = some node :=
          FileTree.leaf_eq_some.mpr ⟨names ▸ found, kind⟩
        have recorded : Recorded tree root (key (above ++ [name]))
            ⟨spelled (above ++ [name]), node⟩ :=
          ⟨above ++ [name], rfl, rfl, here⟩
        have added : Scanned tree root pending.directory todo scanned.1
            (scanned.2.insert (key (above ++ [name]))
              ⟨spelled (above ++ [name]), node⟩) := by
          refine ⟨holds.real, fun {path entry} stored => ?_,
            fun {others other} leaf => ?_⟩
          · rw [Std.TreeMap.getElem?_insert] at stored
            split at stored
            next same =>
              obtain rfl := Option.some.inj stored
              rw [← compare_eq_iff_eq.mp same]
              exact recorded
            next => exact holds.sound stored
          · have own : Recorded tree root (key others) ⟨spelled others, other⟩ :=
              ⟨others, rfl, rfl, leaf⟩
            by_cases same : key (above ++ [name]) = key others
            · refine .inl ?_
              rw [same] at recorded ⊢
              rw [Std.TreeMap.getElem?_insert_self,
                recorded.unique spellable own]
            · rw [Std.TreeMap.getElem?_insert,
                if_neg (mt compare_eq_iff_eq.mp same)]
              obtain known | waiting | ⟨next, member, below⟩ :=
                holds.complete leaf
              · exact .inl known
              · exact .inr (.inl waiting)
              · obtain rfl | later := List.mem_cons.mp member
                · rw [names] at below
                  by_cases whole : root ++ (above ++ [next]) = root ++ others
                  · exact absurd
                      (congrArg key (List.append_cancel_left whole)) same
                  · have absent :=
                      FileTree.find_of_leaf_above here below whole
                    rw [FileTree.find_of_leaf leaf] at absent
                    contradiction
                · exact .inr (.inr ⟨next, later, below⟩)
        cases node with
        | directory => exact absurd rfl kind
        | file => exact added
        | symlink => exact added
        | other => exact added

/-- All names of a directory are listed. -/
theorem Scanned.foldl
    {above : List FileName}
    {pending : Pending}
    {todo : List FileName}
    {scanned : List Pending × Entries}
    (spellable : Spellable tree root)
    (place : pending.directory = root ++ above)
    (before : pending.before = spelled above)
    (holds : Scanned tree root pending.directory todo scanned.1 scanned.2) :
    Scanned tree root pending.directory []
      (todo.foldl (Diff.scanEntry tree pending) scanned).1
      (todo.foldl (Diff.scanEntry tree pending) scanned).2 := by
  induction todo generalizing scanned with
  | nil => exact holds
  | cons name todo hypothesis =>
      exact hypothesis (holds.scanEntry spellable place before)

/-- When nothing of a directory is left to list, it does not matter which one it
is. -/
theorem Scanned.elsewhere
    {directory other : Location}
    {stack : List Pending}
    {entries : Entries}
    (holds : Scanned tree root directory [] stack entries) :
    Scanned tree root other [] stack entries := by
  refine ⟨holds.real, holds.sound, fun leaf => ?_⟩
  obtain known | waiting | ⟨_, member, -⟩ := holds.complete leaf
  · exact .inl known
  · exact .inr (.inl waiting)
  · contradiction

/-- A directory taken from the stack has its names still to be listed. -/
theorem Scanned.pop
    {listing : Listing tree}
    {other : Location}
    {pending : Pending}
    {stack : List Pending}
    {entries : Entries}
    (holds : Scanned tree root other [] (pending :: stack) entries) :
    Scanned tree root pending.directory (listing.names pending.directory)
      stack entries := by
  refine ⟨fun next member => holds.real next (List.mem_cons_of_mem _ member),
    holds.sound, fun {names node} leaf => ?_⟩
  obtain known | ⟨next, member, below⟩ | ⟨name, member, -⟩ :=
    holds.complete leaf
  · exact .inl known
  · obtain rfl | later := List.mem_cons.mp member
    · refine .inr (.inr ?_)
      obtain ⟨above, place, -, directory⟩ :=
        holds.real next List.mem_cons_self
      have apart : next.directory ≠ root ++ names := by
        intro same
        rw [← place, same, FileTree.find_of_leaf leaf] at directory
        exact (FileTree.leaf_eq_some.mp leaf).2 (Option.some.inj directory)
      obtain ⟨name, longer⟩ := FileTree.exists_name_of_prefix below apart
      refine ⟨name, listing.mem_names.mpr fun absent => ?_, longer⟩
      have none := tree.find_of_none absent longer
      rw [FileTree.find_of_leaf leaf] at none
      contradiction
    · exact .inr (.inl ⟨next, later, below⟩)
  · contradiction

/-- A scan with fuel for its whole stack finds what it has not found yet. -/
theorem Scanned.scan
    {listing : Listing tree}
    {directory : Location}
    {fuel : Nat}
    {stack : List Pending}
    {entries : Entries}
    (spellable : Spellable tree root)
    (fueled : FileTree.load tree (stack.map Pending.directory) ≤ fuel)
    (holds : Scanned tree root directory [] stack entries) :
    Scanned tree root [] [] [] (Diff.scan tree listing fuel (stack, entries)) := by
  induction fuel generalizing directory stack entries with
  | zero =>
      cases stack with
      | nil => exact holds.elsewhere
      | cons pending stack =>
          obtain ⟨above, place, -, found⟩ :=
            holds.real pending List.mem_cons_self
          have present : tree.find (root ++ above) ≠ none := by simp [found]
          have heavy := FileTree.card_under_lt_weight present []
          rw [List.map_cons, FileTree.load, place] at fueled
          omega
  | succ fuel hypothesis =>
      cases stack with
      | nil => exact holds.elsewhere
      | cons pending stack =>
          obtain ⟨above, place, before, found⟩ :=
            holds.real pending List.mem_cons_self
          have pushed := load_foldl_scanEntry tree pending
            (listing.nodup pending.directory) (stack, entries)
          have present : tree.find pending.directory ≠ none := by
            simp [place, found]
          have lighter := FileTree.card_under_lt_weight present
            (listing.names pending.directory)
          rw [List.map_cons, FileTree.load] at fueled
          refine hypothesis ?_ (Scanned.foldl spellable place before holds.pop)
          dsimp only at pushed
          omega

/-- The scan of a tree indexes its entries that are no directories. -/
theorem getElem?_collect
    {listing : Listing tree}
    (spellable : Spellable tree root)
    (found : tree.find root = some .directory)
    (path : String)
    (entry : Entry) :
    (collect tree listing root)[path]? = some entry ↔
      Recorded tree root path entry := by
  have first : Scanned tree root [] [] [⟨root, []⟩] ∅ := by
    refine ⟨fun pending member => ?_, fun stored => ?_, fun _ => ?_⟩
    · obtain rfl := List.mem_singleton.mp member
      exact ⟨[], (List.append_nil _).symm, rfl, by rwa [List.append_nil]⟩
    · simp at stored
    · exact .inr (.inl ⟨_, List.mem_cons_self, List.prefix_append _ _⟩)
  have fueled : FileTree.load tree [root] ≤ tree.locations.card :=
    Finset.card_filter_le _ _
  have done := @Scanned.scan tree root listing _ _ _ _ spellable fueled first
  refine ⟨done.sound, ?_⟩
  rintro ⟨names, rfl, spelling, leaf⟩
  obtain known | ⟨_, member, -⟩ | ⟨_, member, -⟩ := done.complete leaf
  · rw [collect, known, ← spelling]
  · contradiction
  · contradiction

/-! ## The comparison -/

section Comparison

variable {seed work : Location} {identical : String -> Bool}

/-- Whether an entry of the seed is gone from the work tree. -/
def Removed (tree : FileTree) (seed work : Location) (names : List FileName) :
    Prop :=
  tree.leaf (seed ++ names) ≠ none ∧ tree.leaf (work ++ names) = none

/-- Whether an entry of the work tree is new, or differs from the seed's. -/
def Written (tree : FileTree) (seed work : Location) (names : List FileName) :
    Prop :=
  tree.leaf (work ++ names) ≠ none ∧
    tree.leaf (work ++ names) ≠ tree.leaf (seed ++ names)

/-- Two trees of directories, regular files and links under text names, whose
files are equal where their identities are. -/
structure Comparable
    (tree : FileTree)
    (identical : String -> Bool)
    (seed work : Location) : Prop where
  seed_directory : tree.find seed = some .directory
  work_directory : tree.find work = some .directory
  apart : ¬ seed <+: work ∧ ¬ work <+: seed
  seed_text : Spellable tree seed
  work_text : Spellable tree work
  seed_kind : ∀ names mode, tree.find (seed ++ names) ≠ some (.other mode)
  work_kind : ∀ names mode, tree.find (work ++ names) ≠ some (.other mode)
  identity : ∀ {names left right leftMode rightMode},
    identical (key names) = true ->
    tree.find (seed ++ names) = some (.file left leftMode) ->
    tree.find (work ++ names) = some (.file right rightMode) -> left = right

/-- Whether its owner may read every file that is compared byte by byte. -/
def BytesReadable
    (tree : FileTree)
    (identical : String -> Bool)
    (seed work : Location) : Prop :=
  ∀ names left right mode,
    tree.find (seed ++ names) = some (.file left mode) ->
    tree.find (work ++ names) = some (.file right mode) ->
    identical (key names) = false -> left.length = right.length ->
    readable mode = true

variable (comparable : Comparable tree identical seed work)

include comparable

/-- The comparison of two entries tells whether they differ. -/
theorem changed_eq
    (reads : BytesReadable tree identical seed work)
    {names : List FileName}
    {old new : Node}
    (before : tree.leaf (seed ++ names) = some old)
    (after : tree.leaf (work ++ names) = some new) :
    changed tree (identical (key names)) old new (joined seed (key names))
      (joined work (key names)) = .ok (decide (old ≠ new)) := by
  have here := FileTree.find_of_leaf before
  have there := FileTree.find_of_leaf after
  have present : tree.find (seed ++ names) ≠ none := by simp [here]
  have texts := comparable.seed_text present
  rw [joined_key seed texts, joined_key work texts]
  have seedPath : tree.locate (FileTree.absolutePath (seed ++ names)) =
      .ok (seed ++ names) := FileTree.locate_of_found present
  have workPath : tree.locate (FileTree.absolutePath (work ++ names)) =
      .ok (work ++ names) := FileTree.locate_of_found (by simp [there])
  cases old with
  | directory => exact absurd rfl (FileTree.leaf_eq_some.mp before).2
  | other mode => exact absurd here (comparable.seed_kind names mode)
  | symlink target =>
      cases new with
      | directory => exact absurd rfl (FileTree.leaf_eq_some.mp after).2
      | other mode => exact absurd there (comparable.work_kind names mode)
      | symlink other => simp [changed]
      | file content mode => simp [changed]
  | file content mode =>
      cases new with
      | directory => exact absurd rfl (FileTree.leaf_eq_some.mp after).2
      | other mode => exact absurd there (comparable.work_kind names mode)
      | symlink target => simp [changed]
      | file other otherMode =>
          have left := FileTree.ownerRead_of_file seedPath here
          have right := FileTree.ownerRead_of_file workPath there
          have same : identical (key names) = true -> content = other :=
            fun equal => comparable.identity equal here there
          unfold changed
          dsimp only
          split_ifs with modes equal lengths
          · simp [modes]
          · simp [not_not.mp modes, same equal]
          · have : content ≠ other := fun equal => lengths (by rw [equal])
            simp [this]
          · obtain rfl := not_not.mp modes
            have allowed := reads names content other mode here there
              (Bool.eq_false_of_not_eq_true equal) (not_not.mp lengths)
            simp [contentsDiffer, left, right, allowed, Except.mapError, bind,
              Except.bind, pure, Except.pure]

/-- Files that cannot be read are not compared. -/
theorem changed_of_unreadable
    {names : List FileName}
    {left right : List UInt8}
    {mode : Nat}
    (before : tree.find (seed ++ names) = some (.file left mode))
    (different : identical (key names) = false)
    (lengths : left.length = right.length)
    (denied : readable mode = false) :
    changed tree (identical (key names)) (.file left mode) (.file right mode)
        (joined seed (key names)) (joined work (key names)) =
      .error (Wal.io .permissionDenied) := by
  have present : tree.find (seed ++ names) ≠ none := by simp [before]
  have texts := comparable.seed_text present
  have located : tree.locate (joined seed (key names)) =
      .ok (seed ++ names) := by
    rw [joined_key seed texts]
    exact FileTree.locate_of_found present
  have read := FileTree.ownerRead_of_file located before
  simp [changed, different, lengths, contentsDiffer, read, denied,
    Except.mapError, bind, Except.bind]

/-- What the comparison of one entry asks for. -/
theorem compareEntry_eq_ok
    (reads : BytesReadable tree identical seed work)
    (listing : Listing tree)
    {names : List FileName}
    {old : Node}
    (before : tree.leaf (seed ++ names) = some old) :
    ∃ removes writes,
      compareEntry tree identical seed work (collect tree listing work)
          (key names) ⟨spelled names, old⟩ = .ok (removes, writes) ∧
        (∀ op, op ∈ removes ↔
          op = .remove (spelled names) ∧ Removed tree seed work names) ∧
        ∀ op, op ∈ writes ↔
          op = .write (spelled names) ∧ Written tree seed work names := by
  have here : tree.leaf (seed ++ names) ≠ none := by simp [before]
  cases after : tree.leaf (work ++ names) with
  | none =>
      have missing : (collect tree listing work)[key names]? = none := by
        refine Option.eq_none_iff_forall_ne_some.mpr fun entry stored => ?_
        obtain ⟨others, same, -, found⟩ :=
          (getElem?_collect comparable.work_text comparable.work_directory _ _).mp
            stored
        obtain rfl := eq_of_key_eq
          (comparable.seed_text (FileTree.find_ne_none_of_leaf before))
          (comparable.work_text (FileTree.find_ne_none_of_leaf found)) same
        rw [after] at found
        contradiction
      refine ⟨[.remove (spelled names)], [], ?_, ?_, ?_⟩
      · rw [compareEntry, missing]
      · simp [Removed, here, after]
      · simp [Written, after]
  | some new =>
      have stored : (collect tree listing work)[key names]? =
          some ⟨spelled names, new⟩ :=
        (getElem?_collect comparable.work_text comparable.work_directory _ _).mpr
          ⟨names, rfl, rfl, after⟩
      refine ⟨[], if old ≠ new then [.write (spelled names)] else [], ?_, ?_, ?_⟩
      · rw [compareEntry, stored]
        dsimp only
        rw [changed_eq comparable reads before after]
        simp [bind, Except.bind, pure, Except.pure]
      · simp [Removed, after]
      · intro op
        rw [Written, before, after]
        by_cases same : old = new
        · simp [same]
        · simp [same, Ne.symm same]

omit comparable in
/-- The operations for a key and for those after it. -/
theorem mem_append_iff
    {operation : List FileName -> CommitOp}
    {asked : List FileName -> Prop}
    {own others : List CommitOp}
    {names : List FileName}
    {keys : List String}
    (texts : ∀ name ∈ names, name.IsText)
    (askedTexts : ∀ {other}, asked other -> ∀ name ∈ other, name.IsText)
    (first : ∀ op, op ∈ own ↔ op = operation names ∧ asked names)
    (rest : ∀ op, op ∈ others ↔
      ∃ other, op = operation other ∧ asked other ∧ key other ∈ keys)
    (op : CommitOp) :
    op ∈ own ++ others ↔
      ∃ other, op = operation other ∧ asked other ∧
        key other ∈ key names :: keys := by
  rw [List.mem_append, first, rest]
  constructor
  · rintro (⟨same, holds⟩ | ⟨other, same, holds, later⟩)
    · exact ⟨names, same, holds, List.mem_cons_self⟩
    · exact ⟨other, same, holds, List.mem_cons_of_mem _ later⟩
  · rintro ⟨other, same, holds, member⟩
    obtain equal | later := List.mem_cons.mp member
    · obtain rfl := eq_of_key_eq (askedTexts holds) texts equal
      exact .inl ⟨same, holds⟩
    · exact .inr ⟨other, same, holds, later⟩

theorem Removed.texts
    {names : List FileName}
    (removed : Removed tree seed work names) :
    ∀ name ∈ names, name.IsText := by
  refine comparable.seed_text fun missing => removed.1 ?_
  exact FileTree.leaf_eq_none.mpr (.inl missing)

theorem Written.texts
    {names : List FileName}
    (written : Written tree seed work names) :
    ∀ name ∈ names, name.IsText := by
  refine comparable.work_text fun missing => written.1 ?_
  exact FileTree.leaf_eq_none.mpr (.inl missing)

/-- What the comparison of some of the seed's entries asks for. -/
theorem compareEntries_eq_ok
    (reads : BytesReadable tree identical seed work)
    (listing : Listing tree)
    (entries : List (String × Entry))
    (recorded : ∀ pair ∈ entries, Recorded tree seed pair.1 pair.2) :
    ∃ removes writes,
      compareEntries tree identical seed work (collect tree listing work)
          entries = .ok (removes, writes) ∧
        (∀ op, op ∈ removes ↔ ∃ names, op = .remove (spelled names) ∧
          Removed tree seed work names ∧ key names ∈ entries.map Prod.fst) ∧
        ∀ op, op ∈ writes ↔ ∃ names, op = .write (spelled names) ∧
          Written tree seed work names ∧ key names ∈ entries.map Prod.fst := by
  induction entries with
  | nil => exact ⟨[], [], rfl, by simp, by simp⟩
  | cons pair entries hypothesis =>
      obtain ⟨removes, writes, compared, removed, written⟩ :=
        hypothesis fun other member =>
          recorded other (List.mem_cons_of_mem _ member)
      obtain ⟨names, place, spelling, before⟩ :=
        recorded pair List.mem_cons_self
      obtain ⟨path, ⟨segments, old⟩⟩ := pair
      dsimp only at place spelling before
      subst place spelling
      obtain ⟨ownRemoves, ownWrites, own, ownRemoved, ownWritten⟩ :=
        compareEntry_eq_ok comparable reads listing before
      have texts :=
        comparable.seed_text (FileTree.find_ne_none_of_leaf before)
      refine ⟨ownRemoves ++ removes, ownWrites ++ writes, ?_, ?_, ?_⟩
      · simp only [compareEntries, own, compared, bind, Except.bind, pure,
          Except.pure]
      · exact mem_append_iff texts (Removed.texts comparable) ownRemoved removed
      · exact mem_append_iff texts (Written.texts comparable) ownWritten written

/-- The operations of a comparison: removals of what is gone, then writes of
what is new or differs. -/
theorem diffTrees_eq_ok
    (reads : BytesReadable tree identical seed work)
    (listing : Listing tree) :
    ∃ removes writes,
      diffTrees tree listing identical seed work = .ok (removes ++ writes) ∧
        (∀ op, op ∈ removes ↔ ∃ names, op = .remove (spelled names) ∧
          Removed tree seed work names) ∧
        ∀ op, op ∈ writes ↔ ∃ names, op = .write (spelled names) ∧
          Written tree seed work names := by
  have inSeed : ∀ path entry, (collect tree listing seed)[path]? = some entry ↔
      Recorded tree seed path entry :=
    getElem?_collect comparable.seed_text comparable.seed_directory
  have inWork : ∀ path entry, (collect tree listing work)[path]? = some entry ↔
      Recorded tree work path entry :=
    getElem?_collect comparable.work_text comparable.work_directory
  obtain ⟨removes, writes, compared, removed, written⟩ :=
    compareEntries_eq_ok comparable reads listing (collect tree listing seed).toList 
      fun pair member =>
        (inSeed _ _).mp (Std.TreeMap.mem_toList_iff_getElem?_eq_some.mp member)
  have listed : ∀ names, (∀ name ∈ names, name.IsText) ->
      (key names ∈ collect tree listing seed ↔
        tree.leaf (seed ++ names) ≠ none) := by
    intro names texts
    rw [Std.TreeMap.mem_iff_isSome_getElem?, Option.isSome_iff_exists]
    constructor
    · rintro ⟨entry, stored⟩
      obtain ⟨others, same, -, found⟩ := (inSeed _ _).mp stored
      obtain rfl := eq_of_key_eq texts
        (comparable.seed_text (FileTree.find_ne_none_of_leaf found)) same
      simp [found]
    · intro present
      obtain ⟨node, found⟩ := Option.ne_none_iff_exists'.mp present
      exact ⟨⟨spelled names, node⟩,
        (inSeed _ _).mpr ⟨names, rfl, rfl, found⟩⟩
  have keys : ∀ names, (∀ name ∈ names, name.IsText) ->
      (key names ∈ (collect tree listing seed).toList.map Prod.fst ↔
        tree.leaf (seed ++ names) ≠ none) := by
    intro names texts
    rw [Std.TreeMap.map_fst_toList_eq_keys, Std.TreeMap.mem_keys,
      listed names texts]
  unfold diffTrees
  dsimp only
  rw [compared]
  refine ⟨_, _, rfl, fun op => ?_, fun op => ?_⟩
  · rw [List.mem_mergeSort, removed]
    constructor
    · rintro ⟨names, same, asked, -⟩
      exact ⟨names, same, asked⟩
    · rintro ⟨names, same, asked⟩
      exact ⟨names, same, asked, (keys names (asked.texts comparable)).mpr asked.1⟩
  · rw [List.mem_mergeSort, List.mem_append, written, List.mem_filterMap]
    constructor
    · rintro (⟨names, same, asked, -⟩ | ⟨pair, member, fresh⟩)
      · exact ⟨names, same, asked⟩
      · obtain ⟨names, place, spelling, found⟩ := (inWork _ _).mp
          (Std.TreeMap.mem_toList_iff_getElem?_eq_some.mp member)
        have present : tree.leaf (work ++ names) ≠ none := by simp [found]
        have texts :=
          comparable.work_text (FileTree.find_ne_none_of_leaf found)
        split at fresh
        next => contradiction
        next absent =>
          rw [place, Std.TreeMap.contains_iff_mem, listed names texts,
            not_not] at absent
          rw [spelling] at fresh
          exact ⟨names, (Option.some.inj fresh).symm, present, by rwa [absent]⟩
    · rintro ⟨names, same, asked⟩
      have texts := asked.texts comparable
      by_cases old : tree.leaf (seed ++ names) = none
      · obtain ⟨node, found⟩ := Option.ne_none_iff_exists'.mp asked.1
        refine .inr ⟨(key names, ⟨spelled names, node⟩), ?_, ?_⟩
        · exact Std.TreeMap.mem_toList_iff_getElem?_eq_some.mpr
            ((inWork _ _).mpr ⟨names, rfl, rfl, found⟩)
        · rw [if_neg, same]
          rw [Std.TreeMap.contains_iff_mem, listed names texts, not_not, old]
      · exact .inl ⟨names, same, asked, (keys names texts).mpr old⟩

omit comparable in
/-- In a comparison that succeeds each entry was compared. -/
theorem compareEntry_of_compareEntries
    {workEntries : Entries}
    {entries : List (String × Entry)}
    {asked : List CommitOp × List CommitOp}
    (compared : compareEntries tree identical seed work workEntries entries =
      .ok asked)
    {pair : String × Entry}
    (member : pair ∈ entries) :
    ∃ own, compareEntry tree identical seed work workEntries pair.1 pair.2 =
      .ok own := by
  induction entries generalizing asked with
  | nil => contradiction
  | cons first entries hypothesis =>
      rw [compareEntries] at compared
      cases own : compareEntry tree identical seed work workEntries first.1
          first.2 with
      | error error => simp [own, bind, Except.bind] at compared
      | ok ownAsked =>
          cases rest : compareEntries tree identical seed work workEntries
              entries with
          | error error => simp [own, rest, bind, Except.bind] at compared
          | ok others =>
              obtain rfl | later := List.mem_cons.mp member
              · exact ⟨ownAsked, own⟩
              · exact hypothesis rest later

/-- A comparison that succeeds could read what it compared byte by byte. -/
theorem bytesReadable_of_diffTrees
    {listing : Listing tree}
    {ops : List CommitOp}
    (compared : diffTrees tree listing identical seed work = .ok ops) :
    BytesReadable tree identical seed work := by
  intro names left right mode before after different lengths
  rw [← Bool.not_eq_false]
  intro denied
  have inSeed : (collect tree listing seed)[key names]? =
      some ⟨spelled names, .file left mode⟩ :=
    (getElem?_collect comparable.seed_text comparable.seed_directory _ _).mpr
      ⟨names, rfl, rfl, FileTree.leaf_eq_some.mpr ⟨before, Node.noConfusion⟩⟩
  have inWork : (collect tree listing work)[key names]? =
      some ⟨spelled names, .file right mode⟩ :=
    (getElem?_collect comparable.work_text comparable.work_directory _ _).mpr
      ⟨names, rfl, rfl, FileTree.leaf_eq_some.mpr ⟨after, Node.noConfusion⟩⟩
  rw [diffTrees] at compared
  dsimp only at compared
  cases asked : compareEntries tree identical seed work
      (collect tree listing work) (collect tree listing seed).toList with
  | error error => simp [asked, bind, Except.bind] at compared
  | ok both =>
      obtain ⟨own, succeeds⟩ := compareEntry_of_compareEntries asked
        (Std.TreeMap.mem_toList_iff_getElem?_eq_some.mpr inSeed)
      dsimp only at succeeds
      rw [compareEntry, inWork] at succeeds
      dsimp only at succeeds
      rw [changed_of_unreadable comparable before different lengths denied] at succeeds
      cases succeeds

end Comparison

end Diff

end Shellmux
end Marsh
