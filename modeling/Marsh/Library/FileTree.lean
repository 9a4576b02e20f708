import Marsh.Library.UnixPath
import Mathlib.Data.Finset.Insert
import Mathlib.Data.Finset.Filter
import Mathlib.Data.Fintype.Defs
import Mathlib.Logic.Function.Basic

/-!
# File trees

The entries of a file system by their locations, and where a path leads through
the symbolic links it passes.
-/

namespace Library

deriving instance DecidableEq for FileName

/-- The longest name, in bytes. -/
def nameMax : Nat := 255

/-- How many symbolic links one path may pass. -/
def linkMax : Nat := 40

/-- Why an operation fails. -/
inductive Errno
  | notFound
  | alreadyExists
  | notDirectory
  | isDirectory
  | notEmpty
  | tooManyLinks
  | nameTooLong
  | permissionDenied
  | invalidInput
  deriving DecidableEq, Repr

/-- What is at a location. -/
inductive Node
  | directory
  | file (content : List UInt8) (mode : Nat)
  | symlink (target : List UInt8)
  /-- A fifo, a socket or a device. -/
  | other (mode : Nat)
  deriving DecidableEq, Repr

/-! ## Permission bits -/

/-- Whether the owner of a file with these bits may read it. -/
def readable (mode : Nat) : Bool := mode.testBit 8

/-- Whether the owner of a file with these bits may write to it. -/
def writable (mode : Nat) : Bool := mode.testBit 7

/-- Whether a file with these bits runs with the rights of its owner, or of its
group. -/
def privileged (mode : Nat) : Bool :=
  mode.testBit 11 || mode.testBit 10 && mode.testBit 3

/-- The bits a file has left once an owner without privileges has written to
it. -/
def writtenMode (content : List UInt8) (mode : Nat) : Nat :=
  if content = [] then mode
  else
    let byOwner := if mode.testBit 11 then mode - 0o4000 else mode
    if mode.testBit 10 && mode.testBit 3 then byOwner - 0o2000 else byOwner

/-- Writing takes the bits of a privileged file, and leaves all others. -/
theorem writtenMode_eq_self_iff {content : List UInt8} {mode : Nat} :
    writtenMode content mode = mode ↔
      content = [] ∨ privileged mode = false := by
  unfold writtenMode privileged
  by_cases empty : content = []
  · simp [empty]
  · have owner : mode.testBit 11 = true -> 0o4000 ≤ mode :=
      Nat.ge_two_pow_of_testBit
    have group : mode.testBit 10 = true -> 0o2000 ≤ mode :=
      Nat.ge_two_pow_of_testBit
    simp only [empty, if_false, false_or]
    cases setuid : mode.testBit 11 <;> cases setgid : mode.testBit 10 <;>
      cases mode.testBit 3 <;> simp_all <;> omega

example : writtenMode [104] 0o4755 = 0o755 := by decide

/-- Whether a copy can read an entry. -/
def Node.readable : Node -> Bool
  | .file _ mode => Library.readable mode
  | .directory | .symlink _ | .other _ => true

/-- What a copy of an entry is. -/
def Node.copied : Node -> Node
  | .file content mode => .file content (writtenMode content mode)
  | .directory => .directory
  | .symlink target => .symlink target
  | .other mode => .other mode

theorem Node.copied_ne_directory
    {node : Node}
    (kind : node ≠ .directory) : node.copied ≠ .directory := by
  cases node with
  | directory => exact absurd rfl kind
  | file => exact Node.noConfusion
  | symlink => exact Node.noConfusion
  | other => exact Node.noConfusion

/-- A copy is the same entry, unless it loses permission bits. -/
theorem Node.copied_eq_self_iff {node : Node} :
    node.copied = node ↔ ∀ content mode, node = .file content mode ->
      content = [] ∨ privileged mode = false := by
  cases node with
  | directory => simp [copied]
  | symlink => simp [copied]
  | other => simp [copied]
  | file content mode =>
      rw [copied, Node.file.injEq, and_iff_right rfl, writtenMode_eq_self_iff]
      constructor
      · rintro kept _ _ ⟨⟩
        exact kept
      · exact fun kept => kept content mode rfl

/-! ## Entries of a file system -/

/-- The names from the root down to an entry. -/
abbrev Location := List FileName

/-- The entries of a file system.  All but the root are in a directory. -/
structure FileTree where
  /-- What is at each location. -/
  find : Location -> Option Node
  /-- The locations of its entries. -/
  locations : Finset Location
  mem_locations : ∀ {location}, location ∈ locations ↔ find location ≠ none
  root : find [] = some .directory
  inside : ∀ {location}, location ≠ [] -> find location ≠ none ->
    find location.dropLast = some .directory
  short : ∀ {location}, find location ≠ none ->
    ∀ name ∈ location, name.bytes.length ≤ nameMax

namespace FileTree

@[ext] theorem ext
    {tree other : FileTree}
    (same : ∀ location, tree.find location = other.find location) :
    tree = other := by
  obtain ⟨find, locations, member, root, inside, short⟩ := tree
  obtain ⟨others, otherLocations, otherMember, _, _, _⟩ := other
  obtain rfl : find = others := funext same
  obtain rfl : locations = otherLocations := by
    ext location
    rw [member, otherMember]
  rfl

/-! ## Locations -/

section Locations

variable {directory other : Location} {name : FileName}

/-- Entries under two names of a directory are apart. -/
theorem name_eq_of_prefix
    {next : FileName}
    (first : directory ++ [name] <+: other)
    (second : directory ++ [next] <+: other) : name = next := by
  have same := List.prefix_of_prefix_length_le first second (by simp)
  simpa using List.IsPrefix.eq_of_length same (by simp)

/-- The names below a directory begin with one of its own. -/
theorem exists_name_of_prefix
    (below : directory <+: other)
    (apart : directory ≠ other) :
    ∃ name, directory ++ [name] <+: other := by
  obtain ⟨rest, rfl⟩ := below
  cases rest with
  | nil => exact absurd (List.append_nil _).symm apart
  | cons name rest => exact ⟨name, rest, by simp⟩

theorem not_prefix_of_append (directory : Location) (name : FileName) :
    ¬ directory ++ [name] <+: directory :=
  fun longer => by simpa using longer.length_le

end Locations

/-! ## Changing a tree -/

/-- Where an entry that is no directory may be put. -/
structure Vacant (tree : FileTree) (location : Location) : Prop where
  nonroot : location ≠ []
  inside : tree.find location.dropLast = some .directory
  leaf : tree.find location ≠ some .directory
  short : ∀ name ∈ location, name.bytes.length ≤ nameMax

instance (tree : FileTree) (location : Location) :
    Decidable (tree.Vacant location) :=
  decidable_of_iff
    (location ≠ [] ∧ tree.find location.dropLast = some .directory ∧
      tree.find location ≠ some .directory ∧
      ∀ name ∈ location, name.bytes.length ≤ nameMax)
    ⟨fun holds => ⟨holds.1, holds.2.1, holds.2.2.1, holds.2.2.2⟩,
      fun vacant => ⟨vacant.nonroot, vacant.inside, vacant.leaf, vacant.short⟩⟩

theorem dropLast_ne_self {location : Location} (nonroot : location ≠ []) :
    location.dropLast ≠ location := by
  intro same
  have lengths := congrArg List.length same
  rw [List.length_dropLast] at lengths
  have := List.length_pos_iff.mpr nonroot
  omega

/-- A tree of nothing but its root. -/
def bare : FileTree where
  find location := if location = [] then some .directory else none
  locations := {[]}
  mem_locations := by
    intro location
    by_cases root : location = []
    · simp [root]
    · simp [root]
  root := if_pos rfl
  inside := by
    intro location nonroot present
    exact absurd (if_neg nonroot) present
  short := by
    intro location present
    by_cases root : location = []
    · simp [root]
    · exact absurd (if_neg root) present

/-- Puts an entry in place of nothing, or of one that is no directory. -/
def set
    (tree : FileTree)
    (location : Location)
    (node : Node)
    (vacant : tree.Vacant location) : FileTree where
  find := Function.update tree.find location (some node)
  locations := insert location tree.locations
  mem_locations := by
    intro other
    by_cases same : other = location
    · simp [same]
    · simp [same, tree.mem_locations]
  root := by
    rw [Function.update_of_ne vacant.nonroot.symm, tree.root]
  inside := by
    intro other nonroot present
    by_cases same : other = location
    · rw [same, Function.update_of_ne (dropLast_ne_self vacant.nonroot)]
      exact vacant.inside
    · rw [Function.update_of_ne same] at present
      have inside := tree.inside nonroot present
      rw [Function.update_of_ne, inside]
      rintro rfl
      exact vacant.leaf inside
  short := by
    intro other present
    by_cases same : other = location
    · rw [same]
      exact vacant.short
    · rw [Function.update_of_ne same] at present
      exact tree.short present

/-- Removes entries, and with each one all below it. -/
def without
    (tree : FileTree)
    (gone : Location -> Bool)
    (kept : gone [] = false)
    (closed : ∀ location : Location, gone location.dropLast = true ->
      gone location = true) : FileTree where
  find location := if gone location then none else tree.find location
  locations := tree.locations.filter fun location => ¬ gone location
  mem_locations := by
    intro location
    by_cases absent : gone location = true
    · simp [absent]
    · simp [absent, tree.mem_locations]
  root := by
    rw [if_neg (by simp [kept]), tree.root]
  inside := by
    intro location nonroot present
    by_cases absent : gone location = true
    · simp [absent] at present
    · rw [if_neg absent] at present
      rw [if_neg (mt (closed location) absent), tree.inside nonroot present]
  short := by
    intro location present
    by_cases absent : gone location = true
    · simp [absent] at present
    · rw [if_neg absent] at present
      exact tree.short present

/-- Removes an entry and all below it. -/
def drop
    (tree : FileTree)
    (location : Location)
    (nonroot : location ≠ []) : FileTree :=
  tree.without (fun other => location <+: other)
    (decide_eq_false fun below => nonroot (List.prefix_nil.mp below))
    fun other below => decide_eq_true
      ((of_decide_eq_true below).trans (List.dropLast_prefix other))

/-- Removes all below an entry. -/
def clear (tree : FileTree) (location : Location) : FileTree :=
  tree.without (fun other => location <+: other ∧ other ≠ location)
    (by simp +contextual)
    fun other below => by
      obtain ⟨above, apart⟩ := of_decide_eq_true below
      refine decide_eq_true ⟨above.trans (List.dropLast_prefix other), ?_⟩
      rintro rfl
      have longer := above.length_le
      rw [List.length_dropLast] at longer
      have empty : other = [] := List.length_eq_zero_iff.mp (by omega)
      exact apart (by rw [empty]; rfl)

section Changes

variable {tree : FileTree} {location : Location}

theorem find_set {node : Node} {vacant : tree.Vacant location} (other : Location) :
    (tree.set location node vacant).find other =
      if other = location then some node else tree.find other := by
  simp only [set, Function.update_apply]

@[simp] theorem find_set_self {node : Node} {vacant : tree.Vacant location} :
    (tree.set location node vacant).find location = some node :=
  Function.update_self _ _ _

theorem find_set_of_ne
    {node : Node}
    {vacant : tree.Vacant location}
    {other : Location}
    (apart : other ≠ location) :
    (tree.set location node vacant).find other = tree.find other :=
  Function.update_of_ne apart _ _

theorem find_drop {nonroot : location ≠ []} (other : Location) :
    (tree.drop location nonroot).find other =
      if location <+: other then none else tree.find other := by
  simp [drop, without]

theorem find_drop_of_below
    {nonroot : location ≠ []}
    {other : Location}
    (below : location <+: other) :
    (tree.drop location nonroot).find other = none := by
  rw [find_drop, if_pos below]

theorem find_drop_of_not_below
    {nonroot : location ≠ []}
    {other : Location}
    (apart : ¬ location <+: other) :
    (tree.drop location nonroot).find other = tree.find other := by
  rw [find_drop, if_neg apart]

/-- Whatever is above an entry is a directory. -/
theorem directory_of_below
    {other : Location}
    (present : tree.find other ≠ none)
    (above : location <+: other)
    (apart : location ≠ other) : tree.find location = some .directory := by
  obtain ⟨rest, rfl⟩ := above
  induction rest using List.reverseRecOn with
  | nil => exact absurd (List.append_nil location).symm apart
  | append_singleton rest name hypothesis =>
      have nonroot : location ++ (rest ++ [name]) ≠ [] := by simp
      have inside := tree.inside nonroot present
      rw [← List.append_assoc, List.dropLast_concat] at inside
      by_cases last : rest = []
      · rwa [last, List.append_nil] at inside
      · refine hypothesis (by simp [inside]) fun same => last ?_
        exact List.append_right_eq_self.mp same.symm

/-- Nothing is below an entry that is no directory. -/
theorem find_of_not_directory
    {other : Location}
    (leaf : tree.find location ≠ some .directory)
    (above : location <+: other)
    (apart : location ≠ other) : tree.find other = none := by
  by_contra present
  exact leaf (tree.directory_of_below present above apart)

end Changes

/-! ## Entries that are no directories -/

/-- The entry at a location, if it is no directory. -/
def leaf (tree : FileTree) (location : Location) : Option Node :=
  (tree.find location).filter (· ≠ .directory)

section Leaves

variable {tree : FileTree} {location : Location}

theorem leaf_eq_some {node : Node} :
    tree.leaf location = some node ↔
      tree.find location = some node ∧ node ≠ .directory := by
  simp [leaf]

theorem leaf_eq_none :
    tree.leaf location = none ↔
      tree.find location = none ∨ tree.find location = some .directory := by
  cases found : tree.find location <;> simp [leaf, found]

theorem leaf_congr
    {other : FileTree}
    {there : Location}
    (same : tree.find location = other.find there) :
    tree.leaf location = other.leaf there :=
  congrArg (Option.filter _) same

theorem find_of_leaf {node : Node} (found : tree.leaf location = some node) :
    tree.find location = some node :=
  (leaf_eq_some.mp found).1

theorem find_ne_none_of_leaf
    {node : Node}
    (found : tree.leaf location = some node) : tree.find location ≠ none := by
  simp [find_of_leaf found]

/-- Nothing is below an entry that is no directory. -/
theorem find_of_leaf_above
    {node : Node}
    {other : Location}
    (found : tree.leaf location = some node)
    (above : location <+: other)
    (apart : location ≠ other) : tree.find other = none := by
  obtain ⟨here, kind⟩ := leaf_eq_some.mp found
  refine tree.find_of_not_directory ?_ above apart
  rw [here]
  exact fun same => kind (Option.some.inj same)

/-- Directories are above an entry. -/
theorem find_above_of_leaf
    {node : Node}
    {other : Location}
    (found : tree.leaf other = some node)
    (above : location <+: other)
    (apart : location ≠ other) : tree.find location = some .directory :=
  tree.directory_of_below (by simp [find_of_leaf found]) above apart

/-- Directories are above an entry below a root. -/
theorem find_below_root_of_leaf
    {node : Node}
    {root above names : Location}
    {name : FileName}
    (found : tree.leaf (root ++ (above ++ [name])) = some node)
    (below : names <+: above) :
    tree.find (root ++ names) = some .directory := by
  refine find_above_of_leaf found ?_ fun same => ?_
  · rw [List.prefix_append_right_inj]
    exact below.trans (List.prefix_append _ _)
  · have equal := List.append_cancel_left same
    exact not_prefix_of_append above name (by rwa [← equal])

end Leaves

/-- Whether a directory has no entries. -/
def Empty (tree : FileTree) (location : Location) : Prop :=
  ∀ other ∈ tree.locations, other ≠ [] -> other.dropLast ≠ location

instance (tree : FileTree) (location : Location) :
    Decidable (tree.Empty location) :=
  inferInstanceAs (Decidable (∀ other ∈ tree.locations,
    other ≠ [] -> other.dropLast ≠ location))

/-- Nothing is below a directory without entries. -/
theorem Empty.find_below
    {tree : FileTree}
    {location other : Location}
    (empty : tree.Empty location)
    (below : location <+: other)
    (apart : location ≠ other) : tree.find other = none := by
  obtain ⟨name, longer⟩ := exists_name_of_prefix below apart
  by_contra present
  have above : tree.find (location ++ [name]) ≠ none := by
    by_cases last : location ++ [name] = other
    · rwa [last]
    · simp [tree.directory_of_below present longer last]
  exact empty _ (tree.mem_locations.mpr above) (by simp) (by simp)

/-! ## Where a path leads -/

/-- The name a component stands for. -/
def fileName (bytes : List UInt8) : Except Errno FileName :=
  if nameMax < bytes.length then .error .nameTooLong
  else if valid : bytes ≠ [] ∧ bytes ≠ [46] ∧ bytes ≠ [46, 46] ∧ 47 ∉ bytes ∧
      0 ∉ bytes then
    .ok ⟨bytes, valid.1, valid.2.1, valid.2.2.1, valid.2.2.2.1, valid.2.2.2.2⟩
  else .error .invalidInput

/-- Follows a path of directories, handing each symbolic link over with what is
left of the path. -/
def walkList
    (tree : FileTree)
    (onLink : Location -> Path -> Except Errno Location) :
    Location -> Path -> Except Errno Location
  | here, [] => .ok here
  | _, .rootDir :: rest => tree.walkList onLink [] rest
  | here, .curDir :: rest => tree.walkList onLink here rest
  | here, .parentDir :: rest => tree.walkList onLink here.dropLast rest
  | here, .normal bytes :: rest =>
      match fileName bytes with
      | .error error => .error error
      | .ok name =>
          match tree.find (here ++ [name]) with
          | some .directory => tree.walkList onLink (here ++ [name]) rest
          | some (.symlink target) => onLink here (Path.ofBytes target ++ rest)
          | some (.file _ _) | some (.other _) => .error .notDirectory
          | none => .error .notFound

/-- Follows a path of directories through at most so many symbolic links. -/
def walk (tree : FileTree) :
    Nat -> Location -> Path -> Except Errno Location
  | 0 => tree.walkList fun _ _ => .error .tooManyLinks
  | links + 1 => tree.walkList (tree.walk links)

/-- The directory a path leads to. -/
def enter (tree : FileTree) (path : Path) : Except Errno Location :=
  tree.walk linkMax [] path

/-- Where the entry of a path is, or would be: a symbolic link it ends in is not
followed. -/
def locate (tree : FileTree) (path : Path) : Except Errno Location :=
  match path.getLast? with
  | some (.normal bytes) => do
      let directory ← tree.enter path.dropLast
      let name ← fileName bytes
      return directory ++ [name]
  | _ => tree.enter path

theorem fileName_bytes
    {name : FileName}
    (short : name.bytes.length ≤ nameMax) : fileName name.bytes = .ok name := by
  rw [fileName, if_neg (Nat.not_lt.mpr short), dif_pos ⟨name.ne_nil,
    name.not_curDir, name.not_parentDir, name.slash_notMem, name.nul_notMem⟩]

section Walks

variable {tree : FileTree}

/-- What a walk does with each component but a name. -/
theorem walk_nil (links : Nat) (here : Location) :
    tree.walk links here [] = .ok here := by
  cases links <;> rfl

theorem walk_rootDir (links : Nat) (here : Location) (rest : Path) :
    tree.walk links here (.rootDir :: rest) = tree.walk links [] rest := by
  cases links <;> rfl

/-- A walk enters a directory under its name. -/
theorem walk_directory
    {here : Location}
    {name : FileName}
    (found : tree.find (here ++ [name]) = some .directory)
    (links : Nat)
    (rest : Path) :
    tree.walk links here (.normal name.bytes :: rest) =
      tree.walk links (here ++ [name]) rest := by
  have present : tree.find (here ++ [name]) ≠ none := by simp [found]
  have short : name.bytes.length ≤ nameMax :=
    tree.short present name (by simp)
  cases links <;> simp only [walk, walkList, fileName_bytes short, found]

/-- What is walked after a path that leads somewhere starts there, if it does so
after a link. -/
theorem walkList_append
    {onLink : Location -> Path -> Except Errno Location}
    (links : Nat)
    (walks : tree.walk links = tree.walkList onLink)
    (linked : ∀ {here there path}, onLink here path = .ok there ->
      ∃ left, ∀ rest, onLink here (path ++ rest) = tree.walk left there rest)
    {here there : Location}
    {path : Path}
    (leads : tree.walkList onLink here path = .ok there) :
    ∃ left, ∀ rest, tree.walkList onLink here (path ++ rest) =
      tree.walk left there rest := by
  induction path generalizing here with
  | nil =>
      obtain rfl := Except.ok.inj leads
      exact ⟨links, fun rest => by rw [walks, List.nil_append]⟩
  | cons component path hypothesis =>
      cases component with
      | rootDir => exact hypothesis leads
      | curDir => exact hypothesis leads
      | parentDir => exact hypothesis leads
      | normal bytes =>
          cases named : fileName bytes with
          | error error => simp [walkList, named] at leads
          | ok name =>
              cases found : tree.find (here ++ [name]) with
              | none => simp [walkList, named, found] at leads
              | some node =>
                  cases node with
                  | directory =>
                      simp only [walkList, named, found] at leads
                      obtain ⟨left, same⟩ := hypothesis leads
                      refine ⟨left, fun rest => ?_⟩
                      rw [← same rest]
                      simp only [List.cons_append, walkList, named, found]
                  | symlink target =>
                      simp only [walkList, named, found] at leads
                      obtain ⟨left, same⟩ := linked leads
                      refine ⟨left, fun rest => ?_⟩
                      rw [← same rest]
                      simp only [List.cons_append, walkList, named, found,
                        List.append_assoc]
                  | file => simp [walkList, named, found] at leads
                  | other => simp [walkList, named, found] at leads

/-- What is walked after a path that leads somewhere starts there, with the
links that are left. -/
theorem walk_append
    {links : Nat}
    {here there : Location}
    {path : Path}
    (leads : tree.walk links here path = .ok there) :
    ∃ left, ∀ rest, tree.walk links here (path ++ rest) =
      tree.walk left there rest := by
  induction links generalizing here there path with
  | zero => exact walkList_append 0 rfl (by simp) leads
  | succ links hypothesis =>
      exact walkList_append (links + 1) rfl (fun leads => hypothesis leads) leads

/-! ## Paths without links -/

/-- Every step down these names is a directory. -/
def Descends (tree : FileTree) (base : Location) (names : List FileName) :
    Prop :=
  ∀ above, above <+: names -> tree.find (base ++ above) = some .directory

theorem Descends.tail
    {base : Location}
    {name : FileName}
    {names : List FileName}
    (descends : tree.Descends base (name :: names)) :
    tree.Descends (base ++ [name]) names := by
  intro above before
  rw [List.append_assoc]
  exact descends (name :: above) ((List.cons_prefix_cons).mpr ⟨rfl, before⟩)

/-- A walk down directories arrives. -/
theorem walk_of_descends
    {base : Location}
    {names : List FileName}
    (descends : tree.Descends base names)
    (links : Nat)
    (rest : Path) :
    tree.walk links base (FileName.path names ++ rest) =
      tree.walk links (base ++ names) rest := by
  induction names generalizing base with
  | nil => rw [List.append_nil]; rfl
  | cons name names hypothesis =>
      have found : tree.find (base ++ [name]) = some .directory :=
        descends [name] ⟨names, rfl⟩
      change tree.walk links base
        (.normal name.bytes :: (FileName.path names ++ rest)) = _
      rw [walk_directory found, hypothesis descends.tail, List.append_assoc]
      rfl

/-- A path of directories below another one leads to the last of them. -/
theorem enter_append
    {root : Path}
    {base : Location}
    {names : List FileName}
    (leads : tree.enter root = .ok base)
    (descends : tree.Descends base names) :
    tree.enter (root ++ FileName.path names) = .ok (base ++ names) := by
  obtain ⟨left, same⟩ := walk_append leads
  rw [enter, same]
  have walked := walk_of_descends descends left []
  rwa [List.append_nil, walk_nil] at walked

/-- A path through an entry that is not there leads nowhere. -/
theorem enter_of_missing
    {root : Path}
    {base : Location}
    {above rest : List FileName}
    {name : FileName}
    (leads : tree.enter root = .ok base)
    (descends : tree.Descends base above)
    (short : name.bytes.length ≤ nameMax)
    (missing : tree.find (base ++ above ++ [name]) = none) :
    tree.enter (root ++ FileName.path (above ++ name :: rest)) =
      .error .notFound := by
  obtain ⟨left, same⟩ := walk_append leads
  have split : FileName.path (above ++ name :: rest) =
      FileName.path above ++ .normal name.bytes :: FileName.path rest := by
    simp [FileName.path]
  rw [enter, same, split, walk_of_descends descends]
  cases left <;>
    simp only [walk, walkList, fileName_bytes short, missing]

theorem getLast?_path
    (root : Path)
    (names : List FileName)
    (name : FileName) :
    (root ++ FileName.path (names ++ [name])).getLast? =
      some (.normal name.bytes) := by
  simp [FileName.path]

theorem dropLast_path
    (root : Path)
    (names : List FileName)
    (name : FileName) :
    (root ++ FileName.path (names ++ [name])).dropLast =
      root ++ FileName.path names := by
  rw [FileName.path, List.map_append, ← List.append_assoc]
  exact List.dropLast_concat

/-- A path down directories locates the entry it names. -/
theorem locate_append
    {root : Path}
    {base : Location}
    {names : List FileName}
    {name : FileName}
    (leads : tree.enter root = .ok base)
    (descends : tree.Descends base names)
    (short : name.bytes.length ≤ nameMax) :
    tree.locate (root ++ FileName.path (names ++ [name])) =
      .ok (base ++ (names ++ [name])) := by
  unfold locate
  rw [getLast?_path, dropLast_path, enter_append leads descends]
  dsimp only
  rw [fileName_bytes short, ← List.append_assoc]
  rfl

/-- A path through an entry that is not there locates none. -/
theorem locate_of_missing
    {root : Path}
    {base : Location}
    {above rest : List FileName}
    {name last : FileName}
    (leads : tree.enter root = .ok base)
    (descends : tree.Descends base above)
    (short : name.bytes.length ≤ nameMax)
    (missing : tree.find (base ++ above ++ [name]) = none) :
    tree.locate (root ++ FileName.path (above ++ name :: (rest ++ [last]))) =
      .error .notFound := by
  have split : above ++ name :: (rest ++ [last]) =
      (above ++ name :: rest) ++ [last] := by simp
  unfold locate
  rw [split, getLast?_path, dropLast_path,
    enter_of_missing leads descends short missing]
  rfl

/-! ## Absolute paths -/

/-- The path that spells a location. -/
def absolutePath (location : Location) : Path :=
  .rootDir :: FileName.path location

theorem absolutePath_append (location : Location) (names : List FileName) :
    absolutePath (location ++ names) =
      absolutePath location ++ FileName.path names := by
  simp [absolutePath, FileName.path]

/-- Directories are above a directory. -/
theorem descends_of_directory
    {location : Location}
    (found : tree.find location = some .directory) :
    tree.Descends [] location := by
  intro above before
  by_cases same : above = location
  · rw [same, List.nil_append, found]
  · exact tree.directory_of_below (by simp [found]) before same

/-- The path of a directory leads there. -/
theorem enter_absolutePath
    {location : Location}
    (found : tree.find location = some .directory) :
    tree.enter (absolutePath location) = .ok location := by
  have leads : tree.enter [.rootDir] = .ok [] := by
    rw [enter, walk_rootDir, walk_nil]
  exact enter_append leads (descends_of_directory found)

/-- The path of an entry in a directory locates it. -/
theorem locate_absolutePath
    {above : Location}
    {name : FileName}
    (found : tree.find above = some .directory)
    (short : name.bytes.length ≤ nameMax) :
    tree.locate (absolutePath (above ++ [name])) = .ok (above ++ [name]) := by
  have leads : tree.enter [.rootDir] = .ok [] := by
    rw [enter, walk_rootDir, walk_nil]
  exact locate_append leads (descends_of_directory found) short

/-- Nothing is below nothing. -/
theorem find_of_none
    {location other : Location}
    (missing : tree.find location = none)
    (above : location <+: other) : tree.find other = none := by
  by_cases same : location = other
  · rw [← same, missing]
  · exact tree.find_of_not_directory (by simp [missing]) above same

/-- A path with too long a name at its end locates nothing. -/
theorem locate_of_long
    {name : FileName}
    (long : nameMax < name.bytes.length)
    (above location : Location) :
    tree.locate (absolutePath (above ++ [name])) ≠ .ok location := by
  have last := getLast?_path [.rootDir] above name
  change (absolutePath (above ++ [name])).getLast? = _ at last
  have named : fileName name.bytes = .error .nameTooLong := by
    rw [fileName, if_pos long]
  unfold locate
  rw [last]
  dsimp only
  rw [named]
  cases tree.enter (absolutePath (above ++ [name])).dropLast <;>
    simp [bind, Except.bind]

/-- The path of an entry locates it. -/
theorem locate_of_found
    {location : Location}
    (found : tree.find location ≠ none) :
    tree.locate (absolutePath location) = .ok location := by
  cases location using List.reverseRecOn with
  | nil =>
      change tree.enter [.rootDir] = .ok []
      rw [enter, walk_rootDir, walk_nil]
  | append_singleton above name =>
      have inside := tree.inside (by simp) found
      rw [List.dropLast_concat] at inside
      exact locate_absolutePath inside (tree.short found name (by simp))

/-- Nothing but directories is on the way down. -/
def Passable (tree : FileTree) (location : Location) : Prop :=
  ∀ above, above <+: location ->
    tree.find above = none ∨ tree.find above = some .directory

theorem Passable.of_isPrefix
    {location above : Location}
    (passable : tree.Passable location)
    (before : above <+: location) : tree.Passable above :=
  fun other otherBefore => passable other (otherBefore.trans before)

/-- The first entry that is missing on the way to a missing one. -/
theorem exists_first_missing
    {location : Location}
    (passable : tree.Passable location)
    (missing : tree.find location = none) :
    ∃ before first rest, location = before ++ first :: rest ∧
      tree.find before = some .directory ∧
      tree.find (before ++ [first]) = none := by
  induction location using List.reverseRecOn with
  | nil =>
      rw [tree.root] at missing
      contradiction
  | append_singleton above last hypothesis =>
      have prefixed : above <+: above ++ [last] := ⟨[last], rfl⟩
      obtain absent | directory := passable above prefixed
      · obtain ⟨before, first, rest, rfl, found, gone⟩ :=
          hypothesis (passable.of_isPrefix prefixed) absent
        exact ⟨before, first, rest ++ [last], by simp, found, gone⟩
      · exact ⟨above, last, [], rfl, directory, missing⟩

/-- The path of an entry in no directory locates none. -/
theorem locate_absolutePath_of_missing
    {above : Location}
    {name : FileName}
    (passable : tree.Passable above)
    (missing : tree.find above = none)
    (short : ∀ name ∈ above, name.bytes.length ≤ nameMax) :
    tree.locate (absolutePath (above ++ [name])) = .error .notFound := by
  have leads : tree.enter [.rootDir] = .ok [] := by
    rw [enter, walk_rootDir, walk_nil]
  obtain ⟨before, first, rest, rfl, found, absent⟩ :=
    exists_first_missing passable missing
  have split : before ++ first :: rest ++ [name] =
      before ++ first :: (rest ++ [name]) := by simp
  rw [split]
  refine locate_of_missing leads (descends_of_directory found)
    (short first (by simp)) ?_
  rwa [List.nil_append]

/-! ## Ways without links -/

/-- Whether no symbolic link is on the way down. -/
def Unlinked (tree : FileTree) (location : Location) : Prop :=
  ∀ above, above <+: location ->
    ∀ target, tree.find above ≠ some (.symlink target)

theorem Unlinked.of_isPrefix
    {location above : Location}
    (unlinked : tree.Unlinked location)
    (before : above <+: location) : tree.Unlinked above :=
  fun other prior => unlinked other (prior.trans before)

/-- No link is on a way on which nothing is new. -/
theorem Unlinked.of_find
    {next : FileTree}
    {location : Location}
    (unlinked : tree.Unlinked location)
    (finds : ∀ above, above <+: location ->
      next.find above = tree.find above ∨ next.find above = none) :
    next.Unlinked location := by
  intro above before target found
  obtain same | absent := finds above before
  · exact unlinked above before target (same ▸ found)
  · rw [absent] at found
    contradiction

theorem Passable.unlinked
    {location : Location}
    (passable : tree.Passable location) : tree.Unlinked location := by
  intro above before target found
  obtain absent | directory := passable above before
  · rw [absent] at found
    contradiction
  · rw [directory] at found
    cases found

theorem walk_of_unlinked
    {base there : Location}
    {names : List FileName}
    {links : Nat}
    (unlinked : ∀ above, above <+: names ->
      ∀ target, tree.find (base ++ above) ≠ some (.symlink target))
    (found : tree.find base = some .directory)
    (leads : tree.walk links base (FileName.path names) = .ok there) :
    there = base ++ names ∧ tree.find (base ++ names) = some .directory := by
  induction names generalizing base with
  | nil =>
      rw [FileName.path, List.map_nil, walk_nil] at leads
      rw [List.append_nil, found]
      exact ⟨(Except.ok.inj leads).symm, rfl⟩
  | cons name names hypothesis =>
      have short : name.bytes.length ≤ nameMax := by
        by_contra long
        have named : fileName name.bytes = .error .nameTooLong := by
          rw [fileName, if_pos (Nat.lt_of_not_le long)]
        cases links <;>
          simp [FileName.path, walk, walkList, named] at leads
      have next : tree.find (base ++ [name]) = some .directory := by
        cases here : tree.find (base ++ [name]) with
        | none =>
            cases links <;>
              simp [FileName.path, walk, walkList, fileName_bytes short, here]
                at leads
        | some node =>
            cases node with
            | directory => rfl
            | symlink target =>
                exact absurd here (unlinked [name] ⟨names, rfl⟩ target)
            | file =>
                cases links <;>
                  simp [FileName.path, walk, walkList, fileName_bytes short,
                    here] at leads
            | other =>
                cases links <;>
                  simp [FileName.path, walk, walkList, fileName_bytes short,
                    here] at leads
      have step : base ++ name :: names = base ++ [name] ++ names := by simp
      rw [step]
      refine hypothesis (fun above before target => ?_) next ?_
      · rw [List.append_assoc]
        exact unlinked (name :: above)
          ((List.cons_prefix_cons).mpr ⟨rfl, before⟩) target
      · have entered := walk_directory next links (FileName.path names)
        rw [← entered]
        exact leads

/-- A path without links leads to the location it spells. -/
theorem enter_of_unlinked
    {location there : Location}
    (unlinked : tree.Unlinked location)
    (leads : tree.enter (absolutePath location) = .ok there) :
    there = location ∧ tree.find location = some .directory := by
  rw [enter, absolutePath, walk_rootDir] at leads
  refine walk_of_unlinked (fun above before target => ?_) tree.root leads
  exact unlinked above before target

theorem fileName_eq_ok
    {bytes : List UInt8}
    {name : FileName}
    (named : fileName bytes = .ok name) :
    name.bytes = bytes ∧ bytes.length ≤ nameMax := by
  rw [fileName] at named
  split_ifs at named with long valid
  rw [← Except.ok.inj named]
  exact ⟨rfl, Nat.le_of_not_lt long⟩

/-- Where an entry is whose path ends in a name. -/
theorem locate_eq_ok
    {path : Path}
    {bytes : List UInt8}
    {there : Location}
    (last : path.getLast? = some (.normal bytes))
    (located : tree.locate path = .ok there) :
    ∃ directory name, tree.enter path.dropLast = .ok directory ∧
      fileName bytes = .ok name ∧ there = directory ++ [name] := by
  unfold locate at located
  rw [last] at located
  dsimp only at located
  cases entered : tree.enter path.dropLast with
  | error error => simp [entered, bind, Except.bind] at located
  | ok directory =>
      cases named : fileName bytes with
      | error error => simp [entered, named, bind, Except.bind] at located
      | ok name =>
          simp only [entered, named, bind, Except.bind, pure, Except.pure]
            at located
          exact ⟨directory, name, rfl, rfl, (Except.ok.inj located).symm⟩

/-- A path without links locates the entry it spells. -/
theorem locate_of_unlinked
    {above there : Location}
    {name : FileName}
    (unlinked : tree.Unlinked above)
    (located : tree.locate (absolutePath (above ++ [name])) = .ok there) :
    there = above ++ [name] ∧ tree.find above = some .directory ∧
      name.bytes.length ≤ nameMax := by
  have last := getLast?_path [.rootDir] above name
  have front := dropLast_path [.rootDir] above name
  change (absolutePath (above ++ [name])).getLast? = _ at last
  change (absolutePath (above ++ [name])).dropLast = absolutePath above at front
  obtain ⟨directory, other, entered, named, rfl⟩ := locate_eq_ok last located
  rw [front] at entered
  obtain ⟨rfl, found⟩ := enter_of_unlinked unlinked entered
  obtain ⟨same, short⟩ := fileName_eq_ok named
  have equal : other = name := by
    cases other
    cases name
    cases same
    rfl
  exact ⟨by rw [equal], found, short⟩

end Walks

/-! ## More entries -/

/-- Whether a tree has all entries of another one, and new directories at
most. -/
structure Extends (tree next : FileTree) : Prop where
  kept : ∀ {location}, tree.find location ≠ none ->
    next.find location = tree.find location
  added : ∀ {location}, tree.find location = none ->
    next.find location = none ∨ next.find location = some .directory

instance : Std.Refl Extends where
  refl _ := ⟨fun _ => rfl, fun missing => .inl missing⟩

instance : IsTrans FileTree Extends where
  trans tree middle next first second := by
    refine ⟨fun present => ?_, fun missing => ?_⟩
    · have same := first.kept present
      rw [second.kept (by rwa [same]), same]
    · obtain absent | directory := first.added missing
      · exact second.added absent
      · refine .inr ?_
        rw [second.kept (by simp [directory]), directory]

theorem Extends.unlinked
    {tree next : FileTree}
    {location : Location}
    (extended : tree.Extends next)
    (unlinked : tree.Unlinked location) : next.Unlinked location := by
  intro above before target found
  by_cases missing : tree.find above = none
  · obtain absent | directory := extended.added missing
    · rw [absent] at found
      contradiction
    · rw [directory] at found
      cases found
  · rw [extended.kept missing] at found
    exact unlinked above before target found

end FileTree

end Library
