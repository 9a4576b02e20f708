import Marsh.Shellmux.ReadCalls
import Marsh.Exec.Unescaping
import Marsh.Exec.ReturnDecoding
import Mathlib.Algebra.Order.BigOperators.Group.List

/-!
# One name for a file

The mentions of a file in the evidence of a command, and when all of them name it
as the tree diff does.
-/

namespace Marsh
namespace Shellmux

open Library
open Exec

/-! ## Mentions -/

/-- The path of names below the root, as the system knows it. -/
def exactPath (names : List FileName) : Path := .rootDir :: FileName.path names

/-- The path a descriptor is decorated with. -/
def decoration (names : List FileName) : Text :=
  '<' :: (escape (FileName.absolute names) ++ ['>'])

/-- A descriptor decorated with its directory. -/
def decorate (fd : Text) (names : List FileName) : Text := fd ++ decoration names

/-- A descriptor as it is printed. -/
def Descriptor (fd : Text) : Prop :=
  fd = "AT_FDCWD".toList ∨ ∃ number, fd = Nat.toDigits 10 number

/-- An argument of a call is printed as this text. -/
def Given (record : SyscallRecord) (place : Nat) (text : Text) : Prop :=
  ∃ argument, record.args[place]? = some argument ∧ argument.render = text

/-- Every argument of a call is clean, but for descriptors of directories of the
file. -/
def Concerns (names : List FileName) (record : SyscallRecord) : Prop :=
  ∀ argument ∈ record.args, Clean argument.render ∨
    ∃ fd dir, Descriptor fd ∧ dir <+: names ∧ argument.render = decorate fd dir

/-- The directories a thread can be tracked in while it is in a directory. -/
inductive Tracked : List FileName -> Path -> Prop
  /-- It started there. -/
  | start (names : List FileName) : Tracked names (exactPath names)
  /-- It changed to an absolute path. -/
  | chdir {names : List FileName} {record : SyscallRecord} (cwd : Path)
      (written : record.args.map Argument.render =
        [quote (FileName.absolute names)])
      (bare : record.ret.path = none) :
      Tracked names (directoryRead
        (fun arg => (parseQuoted arg).map (resolve cwd)) record cwd)
  /-- It changed to a path below its directory. -/
  | descend {dir names : List FileName} {record : SyscallRecord} {cwd : Path}
      (tracked : Tracked dir cwd)
      (written : record.args.map Argument.render =
        [quote (FileName.relative names)])
      (bare : record.ret.path = none) :
      Tracked (dir ++ names) (directoryRead
        (fun arg => (parseQuoted arg).map (resolve cwd)) record cwd)
  /-- It changed to a descriptor. -/
  | fchdir {names : List FileName} {record : SyscallRecord} {fd : Text}
      (cwd : Path)
      (descriptor : Descriptor fd)
      (written : record.args.map Argument.render = [decorate fd names])
      (bare : record.ret.path = none) :
      Tracked names (directoryRead decoratedPath record cwd)

/-- The paths the evidence gives for a file. -/
inductive Mentioned (names : List FileName) : Option Path -> Prop
  /-- A quoted absolute path. -/
  | quoted {record : SyscallRecord} {place : Nat} (opening : Bool)
      (dirfd : Option Nat) (cwd : Path)
      (concerns : Concerns names record)
      (bare : record.ret.path = none)
      (given : Given record place (quote (FileName.absolute names))) :
      Mentioned names (givenPath record opening dirfd (some place) cwd)
  /-- A quoted path below the thread's directory. -/
  | relative {record : SyscallRecord} {place : Nat} {dirfd : Option Nat}
      {dir rest : List FileName} {cwd : Path} (opening : Bool)
      (split : dir ++ rest = names)
      (tracked : Tracked dir cwd)
      (concerns : Concerns names record)
      (bare : record.ret.path = none)
      (undecorated : ∀ other ∈ dirfd, ∀ argument,
        record.args[other]? = some argument -> '<' ∉ argument.render)
      (given : Given record place (quote (FileName.relative rest))) :
      Mentioned names (givenPath record opening dirfd (some place) cwd)
  /-- A quoted path below the directory of a descriptor. -/
  | descriptor {record : SyscallRecord} {place dirfd : Nat} {fd : Text}
      {dir rest : List FileName} (opening : Bool) (cwd : Path)
      (split : dir ++ rest = names)
      (descriptor : Descriptor fd)
      (concerns : Concerns names record)
      (bare : record.ret.path = none)
      (base : Given record dirfd (decorate fd dir))
      (given : Given record place (quote (FileName.relative rest))) :
      Mentioned names (givenPath record opening (some dirfd) (some place) cwd)
  /-- The path of a returned descriptor. -/
  | returned {record : SyscallRecord} (dirfd path : Option Nat) (cwd : Path)
      (concerns : Concerns names record)
      (ret : record.ret.path = some (escape (FileName.absolute names))) :
      Mentioned names (givenPath record true dirfd path cwd)
  /-- A pathspec of a git command, below the directory it ran in. -/
  | pathspec {argv : List Text} {invocation : GitInvocation} {spec : Text}
      {dir rest : List FileName}
      (parsed : parse argv = .ok invocation)
      (listed : spec ∈ invocation.pathspecs)
      (split : dir ++ rest = names)
      (written : spec.bytes = FileName.relative rest) :
      Mentioned names (some (resolve (exactPath dir) spec))
  /-- An absolute pathspec of a git command. -/
  | absolute {argv : List Text} {invocation : GitInvocation} {spec : Text}
      (cwd : Path)
      (parsed : parse argv = .ok invocation)
      (listed : spec ∈ invocation.pathspecs)
      (written : spec.bytes = FileName.absolute names) :
      Mentioned names (some (resolve cwd spec))

/-- The names of a path below the work root, read as text. -/
def segments (file : List FileName) : List Text :=
  file.map fun name => Text.lossy name.bytes

/-- The resource of a file below the work root, by the names the tree diff knows
it by. -/
def resource (file : List FileName) : Option (List Text) :=
  if segments file = [] ∨ ".git".toList ∈ segments file then none
  else some (segments file)

/-- Every mention of a file below the work root gives its key in the tree diff,
and its resource. -/
def OneName (root file : List FileName) : Prop :=
  ∀ path, Mentioned (root ++ file) path ->
    path.bind (workRelative (exactPath root)) = some (treeKey file) ∧
      path.bind (seedResource (exactPath root)) = resource file

/-- The names are printable ASCII without quotes and backslashes. -/
def PlainNames (names : List FileName) : Prop :=
  ∀ name ∈ names, ∀ byte ∈ name.bytes, isPlainByte byte = true

/-- The names are plain, and the path of no directory among them opens or closes
a bracket alone or has a comma outside of brackets. -/
structure Legible (names : List FileName) : Prop where
  plain : PlainNames names
  clean : ∀ dir, dir <+: names -> Clean (decoration dir)

/-! ## Resolving names -/

theorem foldl_resolveStep_path (names : List FileName) (out : Path) :
    (FileName.path names).foldl resolveStep out =
      out ++ FileName.path names := by
  induction names generalizing out with
  | nil => exact (List.append_nil out).symm
  | cons name names hypothesis =>
      exact (hypothesis _).trans
        (List.append_assoc out [.normal name.bytes] (FileName.path names))

theorem foldl_resolveStep_exactPath (names : List FileName) :
    (exactPath names).foldl resolveStep [] = exactPath names :=
  foldl_resolveStep_path names [.rootDir]

theorem exactPath_append (dir rest : List FileName) :
    exactPath (dir ++ rest) = exactPath dir ++ FileName.path rest := by
  simp [exactPath, FileName.path]

/-- An absolute path resolves to itself. -/
theorem resolve_absolute
    {names : List FileName}
    {path : Text}
    (written : path.bytes = FileName.absolute names)
    (base : Path) : resolve base path = exactPath names := by
  rw [resolve_eq, Path.ofText, written, FileName.ofBytes_absolute, Path.join,
    if_pos (.inl rfl)]
  exact foldl_resolveStep_exactPath names

/-- A relative path resolves below its directory. -/
theorem resolve_relative
    {dir rest : List FileName}
    {path : Text}
    (written : path.bytes = FileName.relative rest) :
    resolve (exactPath dir) path = exactPath (dir ++ rest) := by
  have below : (exactPath dir).join (FileName.path rest) =
      exactPath dir ++ FileName.path rest := by
    have root : (FileName.path rest).head? ≠ some .rootDir := by
      cases rest <;> simp [FileName.path]
    have kept : (FileName.path rest).filter (· ≠ .curDir) =
        FileName.path rest := by
      rw [List.filter_eq_self]
      intro component member
      obtain ⟨name, -, rfl⟩ := List.mem_map.mp member
      rfl
    have some : exactPath dir ≠ [] := List.cons_ne_nil _ _
    rw [Path.join, if_neg (not_or.mpr ⟨root, some⟩), kept]
  rw [resolve_eq, Path.ofText, written, FileName.ofBytes_relative, below,
    ← exactPath_append]
  exact foldl_resolveStep_exactPath _

/-! ## Decorations -/

theorem head_escape_absolute (names : List FileName) :
    (escape (FileName.absolute names)).head? = some '/' := by
  have slash := escapeByte_of_plain (by decide : isPlainByte 47 = true)
    (FileName.relative names).head?
  rw [FileName.absolute, escape, slash]
  rfl

/-- A decoration is taken as it is written. -/
theorem decoratedPath_decorate
    {fd : Text}
    (descriptor : '<' ∉ fd)
    (names : List FileName) :
    decoratedPath (decorate fd names) =
      some (Path.ofText (escape (FileName.absolute names))) := by
  have opened := Text.splitOnce_append descriptor
    (escape (FileName.absolute names) ++ ['>'])
  have closed : Text.rsplitOnce '>' (escape (FileName.absolute names) ++ ['>']) =
      some (escape (FileName.absolute names), []) :=
    Text.rsplitOnce_append List.not_mem_nil _
  simp [decoratedPath, decorate, decoration, opened, closed,
    head_escape_absolute]

/-- An argument without a decoration gives no directory. -/
theorem decoratedPath_eq_none
    {arg : Text}
    (undecorated : '<' ∉ arg) : decoratedPath arg = none := by
  have cut : Text.splitOnce ['<'] arg = none := by
    induction arg with
    | nil => rfl
    | cons char arg hypothesis =>
        rw [List.mem_cons, not_or] at undecorated
        have apart : ¬ ['<'] <+: char :: arg := by
          rw [List.cons_prefix_cons]
          exact fun both => undecorated.1 both.1
        rw [Text.splitOnce, if_neg apart, hypothesis undecorated.2]
        rfl
  rw [decoratedPath, cut]
  rfl

/-! ## Plain names -/

theorem PlainNames.append_iff
    {dir rest : List FileName} :
    PlainNames (dir ++ rest) ↔ PlainNames dir ∧ PlainNames rest :=
  List.forall_mem_append

theorem PlainNames.relative
    {names : List FileName}
    (plain : PlainNames names) :
    ∀ byte ∈ FileName.relative names, isPlainByte byte = true := by
  intro byte member
  rcases FileName.mem_relative member with rfl | ⟨name, listed, inside⟩
  · decide
  · exact plain name listed byte inside

theorem PlainNames.absolute
    {names : List FileName}
    (plain : PlainNames names) :
    ∀ byte ∈ FileName.absolute names, isPlainByte byte = true :=
  List.forall_mem_cons.mpr ⟨by decide, plain.relative⟩

theorem bytes_escape (bytes : List UInt8) :
    (escape bytes).bytes =
      (escape bytes).map fun char => UInt8.ofNat char.toNat :=
  Text.bytes_of_ascii fun _ member => by
    have code := code_of_mem_escape member
    omega

theorem bytes_escape_of_plain
    {bytes : List UInt8}
    (plain : ∀ byte ∈ bytes, isPlainByte byte = true) :
    (escape bytes).bytes = bytes := by
  have code : ∀ code < 127, (Char.ofNat code).toNat = code := by decide
  rw [bytes_escape, escape_of_plain plain, List.map_map]
  refine (List.map_congr_left fun byte member => ?_).trans (List.map_id' bytes)
  have printable := plain byte member
  simp only [isPlainByte, isPrintableByte, Bool.and_eq_true, decide_eq_true_eq]
    at printable
  have high : byte.toNat < 127 := UInt8.lt_iff_toNat_lt.mp printable.1.1.2
  rw [Function.comp_apply, code _ high, UInt8.ofNat_toNat]

/-- A plain string is read back. -/
theorem parseQuoted_of_plain
    {bytes : List UInt8}
    (plain : ∀ byte ∈ bytes, isPlainByte byte = true) :
    ∃ text, parseQuoted (quote bytes) = some text ∧ text.bytes = bytes := by
  have read := (parseQuoted_quote_iff bytes).mpr (readable_of_plain plain)
  exact Option.map_eq_some_iff.mp read

/-- The decoration of a plain path is the path. -/
theorem ofText_escape_of_plain
    {names : List FileName}
    (plain : PlainNames names) :
    Path.ofText (escape (FileName.absolute names)) = exactPath names := by
  rw [Path.ofText, bytes_escape_of_plain plain.absolute,
    FileName.ofBytes_absolute]
  rfl

/-! ## Legible names -/

/-- A digit is a character of a word. -/
theorem isWordChar_digit
    {number : Nat}
    {char : Char}
    (member : char ∈ Nat.toDigits 10 number) : isWordChar char = true := by
  have all : ∀ code < 58, 48 ≤ code ->
      isWordChar (Char.ofNat code) = true := by decide
  have digit := Nat.isDigit_of_mem_toDigits (by decide) (by decide) member
  have low : 48 ≤ char.toNat := by
    have first := (Bool.and_eq_true _ _ ▸ digit).1
    exact of_decide_eq_true first
  have high : char.toNat ≤ 57 := by
    have second := (Bool.and_eq_true _ _ ▸ digit).2
    exact of_decide_eq_true second
  rw [← Char.ofNat_toNat char]
  exact all _ (by omega) low

/-- A descriptor is a word without an opening angle bracket. -/
theorem Descriptor.word
    {fd : Text}
    (descriptor : Descriptor fd) :
    (∀ char ∈ fd, isWordChar char = true) ∧ '<' ∉ fd := by
  obtain rfl | ⟨number, rfl⟩ := descriptor
  · exact ⟨List.all_eq_true.mp (by decide), by decide⟩
  · constructor
    · intro char member
      exact @isWordChar_digit number char member
    · intro member
      have digit : Char.isDigit '<' = true :=
        Nat.isDigit_of_mem_toDigits (by decide) (by decide) member
      exact absurd digit (by decide)

/-- What stands before a decoration does not matter. -/
theorem clean_decorate_iff
    {fd : Text}
    (descriptor : Descriptor fd)
    (names : List FileName) :
    Clean (decorate fd names) ↔ Clean (decoration names) :=
  clean_append_iff descriptor.word.1 _

/-- A call that concerns a legible file is read as it was printed. -/
theorem callRead_of_concerns
    {names : List FileName}
    {record : SyscallRecord}
    (legible : Legible names)
    (concerns : Concerns names record)
    (finished : ¬ record.ret.Interrupted) :
    callRead record =
      some (record.args.map Argument.render, record.ret.path) := by
  refine callRead_of_clean (fun argument member => ?_) finished
  obtain clean | ⟨fd, dir, descriptor, isPrefix, same⟩ :=
    concerns argument member
  · exact clean
  · rw [same]
    exact (clean_decorate_iff descriptor dir).mpr (legible.clean dir isPrefix)

/-- The text given at a place is found there. -/
theorem Given.getElem?_map
    {record : SyscallRecord}
    {place : Nat}
    {text : Text}
    (given : Given record place text) :
    (record.args.map Argument.render)[place]? = some text := by
  obtain ⟨argument, found, rfl⟩ := given
  rw [List.getElem?_map, found, Option.map_some]

/-- A quoted path that is read is resolved below the directory of the call. -/
theorem givenPath_of_quoted
    {record : SyscallRecord}
    {args : List Text}
    {place : Nat}
    {arg path : Text}
    (call : callRead record = some (args, record.ret.path))
    (bare : record.ret.path = none)
    (given : args[place]? = some arg)
    (read : parseQuoted arg = some path)
    {opening : Bool}
    {dirfd : Option Nat}
    {cwd : Path} :
    givenPath record opening dirfd (some place) cwd =
      some (resolve (((dirfd.bind fun other => args[other]?).bind
        decoratedPath).getD cwd) path) := by
  rw [bare] at call
  simp only [givenPath, call, Option.bind_eq_bind, Option.bind_some, ite_self,
    pathAt, given, read]

/-- A call whose only argument is clean gives its directory. -/
theorem directoryRead_of_clean
    {record : SyscallRecord}
    {arg : Text}
    (written : record.args.map Argument.render = [arg])
    (clean : Clean arg)
    (bare : record.ret.path = none)
    (read : Text -> Option Path)
    (cwd : Path) : directoryRead read record cwd = (read arg).getD cwd := by
  have args : ∀ argument ∈ record.args, Clean argument.render := by
    intro argument member
    have listed := List.mem_map_of_mem (f := Argument.render) member
    rw [written, List.mem_singleton] at listed
    rwa [listed]
  rw [directoryRead, callRead_of_clean args (not_interrupted_of_bare bare),
    written]
  rfl

theorem clean_quote (bytes : List UInt8) : Clean (quote bytes) :=
  ⟨(passes_quote 0 bytes).runs, (passes_quote 0 bytes).commaFree⟩

/-- A thread in a legibly named directory is tracked there. -/
theorem Tracked.eq_exactPath
    {names : List FileName}
    {path : Path}
    (tracked : Tracked names path)
    (legible : Legible names) : path = exactPath names := by
  induction tracked with
  | start names => rfl
  | chdir cwd written bare =>
      obtain ⟨text, read, same⟩ := parseQuoted_of_plain legible.plain.absolute
      rw [directoryRead_of_clean written (clean_quote _) bare, read]
      exact resolve_absolute same cwd
  | @descend dir names record cwd tracked written bare hypothesis =>
      obtain ⟨first, second⟩ := PlainNames.append_iff.mp legible.plain
      obtain ⟨text, read, same⟩ := parseQuoted_of_plain second.relative
      have above : Legible dir := ⟨first, fun other isPrefix =>
        legible.clean other (isPrefix.trans (List.prefix_append dir names))⟩
      rw [directoryRead_of_clean written (clean_quote _) bare, read,
        hypothesis above]
      exact resolve_relative same
  | @fchdir names record fd cwd descriptor written bare =>
      have clean := (clean_decorate_iff descriptor names).mpr
        (legible.clean names List.prefix_rfl)
      rw [directoryRead_of_clean written clean bare,
        decoratedPath_decorate descriptor.word.2,
        ofText_escape_of_plain legible.plain]
      rfl

/-- Every mention of a legibly named file gives its path, unless its line is
taken for that of an interrupted call. -/
theorem Mentioned.eq_exactPath
    {names : List FileName}
    {path : Option Path}
    (mentioned : Mentioned names path)
    (legible : Legible names)
    (finished : ¬ "<unfinished ...".toList <:+
      escape (FileName.absolute names)) : path = some (exactPath names) := by
  have plain := legible.plain
  cases mentioned with
  | quoted opening dirfd cwd concerns bare given =>
      obtain ⟨text, read, written⟩ := parseQuoted_of_plain plain.absolute
      have call := callRead_of_concerns legible concerns
        (not_interrupted_of_bare bare)
      rw [givenPath_of_quoted call bare given.getElem?_map read,
        resolve_absolute written]
  | @relative record place dirfd dir rest cwd opening split tracked concerns
      bare undecorated given =>
      subst split
      obtain ⟨first, second⟩ := PlainNames.append_iff.mp plain
      obtain ⟨text, read, written⟩ := parseQuoted_of_plain second.relative
      have above : Legible dir := ⟨first, fun other isPrefix =>
        legible.clean other (isPrefix.trans (List.prefix_append dir rest))⟩
      have call := callRead_of_concerns legible concerns
        (not_interrupted_of_bare bare)
      have base : (dirfd.bind fun other =>
          (record.args.map Argument.render)[other]?).bind decoratedPath =
            none := by
        rw [Option.bind_eq_none_iff]
        intro arg found
        obtain ⟨other, listed, printed⟩ := Option.bind_eq_some_iff.mp found
        rw [List.getElem?_map, Option.map_eq_some_iff] at printed
        obtain ⟨argument, own, rfl⟩ := printed
        exact decoratedPath_eq_none (undecorated other listed argument own)
      rw [givenPath_of_quoted call bare given.getElem?_map read, base,
        tracked.eq_exactPath above]
      exact congrArg some (resolve_relative written)
  | @descriptor record place dirfd fd dir rest opening cwd split descriptor
      concerns bare base given =>
      subst split
      obtain ⟨first, second⟩ := PlainNames.append_iff.mp plain
      obtain ⟨text, read, written⟩ := parseQuoted_of_plain second.relative
      have call := callRead_of_concerns legible concerns
        (not_interrupted_of_bare bare)
      rw [givenPath_of_quoted call bare given.getElem?_map read,
        Option.bind_some, base.getElem?_map, Option.bind_some,
        decoratedPath_decorate descriptor.word.2, ofText_escape_of_plain first]
      exact congrArg some (resolve_relative written)
  | @returned record dirfd path cwd concerns ret =>
      have call := callRead_of_concerns legible concerns <| by
        rintro ⟨other, same, suffix⟩
        obtain rfl := Option.some.inj (ret.symm.trans same)
        exact finished suffix
      simp [givenPath, call, ret, pathAt, ofText_escape_of_plain plain]
  | pathspec parsed listed split written =>
      subst split
      rw [resolve_relative written]
  | absolute cwd parsed listed written => rw [resolve_absolute written]

/-! ## Keys -/

theorem lossy_ne_nil (name : FileName) : Text.lossy name.bytes ≠ [] := by
  cases bytes : name.bytes with
  | nil => exact absurd bytes name.ne_nil
  | cons byte rest => exact List.cons_ne_nil _ _

theorem treeKey_eq (file : List FileName) :
    treeKey file = ['/'].intercalate (segments file) := by
  have below : ∀ (names : List FileName) (parent : Text), parent ≠ [] ->
      names.foldl entryKey parent =
        ['/'].intercalate (parent :: segments names) := by
    intro names
    induction names with
    | nil =>
        intro parent _
        simp [segments]
    | cons name names hypothesis =>
        intro parent some
        rw [List.foldl_cons, entryKey, if_neg some, hypothesis _ (by simp)]
        cases names <;> simp [segments]
  cases file with
  | nil => rfl
  | cons name names =>
      exact below names _ (lossy_ne_nil name)

theorem relativeSegments_exactPath (root file : List FileName) :
    relativeSegments (exactPath root) (exactPath (root ++ file)) =
      some (segments file) := by
  have names : (FileName.path file).filterMap segment = segments file := by
    rw [FileName.path, List.filterMap_map, segments, ← List.filterMap_eq_map]
    rfl
  rw [relativeSegments, exactPath_append, Path.stripPrefix,
    if_pos (List.prefix_append _ _), List.drop_left, Option.map_some, names]

/-- The exact path of a file gives its key and its resource. -/
theorem names_exactPath
    (root : List FileName)
    {file : List FileName}
    (below : file ≠ []) :
    workRelative (exactPath root) (exactPath (root ++ file)) =
        some (treeKey file) ∧
      seedResource (exactPath root) (exactPath (root ++ file)) =
        resource file := by
  have named : segments file ≠ [] := by simpa [segments] using below
  constructor
  · simp [workRelative, relativeSegments_exactPath, named, treeKey_eq]
  · simp [seedResource, relativeSegments_exactPath, resource]

/-! ## Escaped names -/

/-- A character of an escape that is one of its bytes. -/
theorem mem_escape_of_mem_bytes
    {bytes : List UInt8}
    {code : Nat}
    (low : code < 127)
    (member : UInt8.ofNat code ∈ (escape bytes).bytes) :
    Char.ofNat code ∈ escape bytes := by
  rw [bytes_escape] at member
  obtain ⟨char, listed, same⟩ := List.mem_map.mp member
  have between := code_of_mem_escape listed
  have equal : char.toNat = code := by
    have codes := congrArg UInt8.toNat same
    rw [UInt8.toNat_ofNat', UInt8.toNat_ofNat'] at codes
    omega
  rw [← equal, Char.ofNat_toNat]
  exact listed

/-- An escape that is written without a backslash is the string itself. -/
theorem eq_of_bytes_escape
    {bytes written : List UInt8}
    (same : (escape bytes).bytes = written)
    (absent : 92 ∉ written) : bytes = written := by
  have plain := plain_of_backslash_notMem fun backslash => absent <| by
    rw [← same, bytes_escape]
    exact List.mem_map.mpr ⟨'\\', backslash, rfl⟩
  rw [← same, bytes_escape_of_plain plain]

/-- The name a decoration gives a file. -/
def escapedName (name : FileName) : FileName where
  bytes := (escape name.bytes).bytes
  ne_nil := fun same =>
    name.ne_nil (eq_of_bytes_escape same List.not_mem_nil)
  not_curDir := fun same =>
    name.not_curDir (eq_of_bytes_escape same (by decide))
  not_parentDir := fun same =>
    name.not_parentDir (eq_of_bytes_escape same (by decide))
  slash_notMem := fun member => name.slash_notMem <| slash_mem_of_mem_escape <|
    @mem_escape_of_mem_bytes _ 47 (by decide) member
  nul_notMem := fun member => by
    have code := code_of_mem_escape
      (@mem_escape_of_mem_bytes name.bytes 0 (by decide) member)
    exact absurd code.1 (by decide)

theorem bytes_escape_relative (names : List FileName) :
    (escape (FileName.relative names)).bytes =
      FileName.relative (names.map escapedName) := by
  induction names with
  | nil => rfl
  | cons name names hypothesis =>
      cases names with
      | nil =>
          rw [FileName.relative_singleton, List.map_singleton,
            FileName.relative_singleton]
          rfl
      | cons next names =>
          rw [FileName.relative_cons_cons, escape_append_slash, List.map_cons,
            List.map_cons, FileName.relative_cons_cons, ← List.map_cons,
            ← hypothesis, Text.bytes_append]
          rfl

/-- The decoration of a path is the path of the escaped names. -/
theorem ofText_escape (names : List FileName) :
    Path.ofText (escape (FileName.absolute names)) =
      exactPath (names.map escapedName) := by
  have slash := escape_append_slash [] (FileName.relative names)
  have written : (escape (FileName.absolute names)).bytes =
      FileName.absolute (names.map escapedName) := by
    rw [FileName.absolute, ← List.nil_append (47 :: _), slash,
      FileName.absolute, ← bytes_escape_relative]
    rfl
  rw [Path.ofText, written, FileName.ofBytes_absolute]
  rfl

theorem bytes_escapedName (name : FileName) :
    (escapedName name).bytes =
      (escape name.bytes).map fun char => UInt8.ofNat char.toNat :=
  bytes_escape name.bytes

theorem length_escapedName (name : FileName) :
    (escapedName name).bytes.length = (escape name.bytes).length := by
  rw [bytes_escapedName, List.length_map]

/-- Names that the escapes are no longer than are plain. -/
theorem plainNames_of_sum_le
    {names : List FileName}
    (short : (names.map fun name => (escape name.bytes).length).sum ≤
      (names.map fun name => name.bytes.length).sum) : PlainNames names := by
  induction names with
  | nil => exact fun _ member => absurd member List.not_mem_nil
  | cons name names hypothesis =>
      have rest : (names.map fun name => name.bytes.length).sum ≤
          (names.map fun name => (escape name.bytes).length).sum :=
        List.sum_le_sum fun other _ => (length_escape other.bytes).1
      have own := length_escape name.bytes
      rw [List.map_cons, List.map_cons, List.sum_cons, List.sum_cons] at short
      exact List.forall_mem_cons.mpr
        ⟨own.2 (by omega), hypothesis (by omega)⟩

/-- How many bytes a component's name has. -/
def nameLength : Component -> Nat
  | .normal name => name.length
  | _ => 0

/-- Names that are their own escapes are plain. -/
theorem plainNames_of_exactPath
    {names : List FileName}
    (same : exactPath names = exactPath (names.map escapedName)) :
    PlainNames names := by
  apply plainNames_of_sum_le
  have lengths := congrArg (fun path : Path => (path.map nameLength).sum) same
  simp only [exactPath, nameLength, FileName.path, List.map_cons, List.map_map,
    Function.comp_def, length_escapedName, List.sum_cons, Nat.zero_add]
    at lengths
  exact lengths.ge

theorem length_intercalate_slash (texts : List Text) :
    (['/'].intercalate texts).length =
      (texts.map List.length).sum + (texts.length - 1) := by
  induction texts with
  | nil => rfl
  | cons text texts hypothesis =>
      cases texts with
      | nil => simp
      | cons next texts =>
          have joined : ['/'].intercalate (text :: next :: texts) =
              text ++ '/' :: ['/'].intercalate (next :: texts) := by simp
          rw [joined, List.length_append, List.length_cons, hypothesis]
          simp only [List.map_cons, List.sum_cons, List.length_cons]
          omega

/-- The names of an escaped path are as long as the escapes. -/
theorem length_lossy_escapedName (name : FileName) :
    (Text.lossy (escapedName name).bytes).length =
      (escape name.bytes).length := by
  rw [Text.lossy_of_ascii, List.length_map, length_escapedName]
  intro byte member
  rw [bytes_escapedName] at member
  obtain ⟨char, listed, rfl⟩ := List.mem_map.mp member
  have code := code_of_mem_escape listed
  rw [UInt8.lt_iff_toNat_lt, UInt8.toNat_ofNat']
  exact (Nat.mod_le _ _).trans_lt (by change _ < 128; omega)

/-- A file with one name is plainly named: its decoration, which is never read
back, gives its own name. -/
theorem plainNames_of_returned
    {root file : List FileName}
    (same : workRelative (exactPath root)
      (exactPath ((root ++ file).map escapedName)) = some (treeKey file)) :
    PlainNames (root ++ file) := by
  rw [List.map_append] at same
  have strips : exactPath root <+:
      exactPath (root.map escapedName ++ file.map escapedName) := by
    by_contra outside
    rw [workRelative, relativeSegments, Path.stripPrefix, if_neg outside] at same
    contradiction
  have rootPath : exactPath root = exactPath (root.map escapedName) := by
    rw [exactPath_append] at strips
    have lengths : (exactPath root).length =
        (exactPath (root.map escapedName)).length := by
      simp [exactPath, FileName.path]
    exact (List.prefix_of_prefix_length_le strips (List.prefix_append _ _)
      lengths.le).eq_of_length lengths
  rw [rootPath, workRelative, relativeSegments_exactPath] at same
  have keys : ['/'].intercalate (segments (file.map escapedName)) =
      ['/'].intercalate (segments file) := by
    rw [← treeKey_eq file]
    simp only [Option.bind_eq_bind, Option.bind_some] at same
    split_ifs at same
    exact Option.some.inj same
  refine PlainNames.append_iff.mpr ⟨plainNames_of_exactPath rootPath,
    plainNames_of_sum_le ?_⟩
  have lengths := congrArg List.length keys
  simp only [length_intercalate_slash, segments, List.map_map, List.length_map,
    Function.comp_def, length_lossy_escapedName] at lengths
  have shorter : (file.map fun name => (Text.lossy name.bytes).length).sum ≤
      (file.map fun name => name.bytes.length).sum :=
    List.sum_le_sum fun name _ => Text.length_lossy_le name.bytes
  omega

/-! ## Sample calls -/

theorem isThread_one : 1 < 2 ^ 32 := by decide

theorem isStamp_zero : 0 < 2 ^ 64 := by decide

theorem low_zero : (-2 ^ 63 : Int) ≤ 0 := by decide

theorem high_zero : (0 : Int) < 2 ^ 63 := by decide

theorem isName_openat : IsName "openat".toList := ⟨by decide, by decide⟩

/-- A call of `openat`. -/
def openatCall (args : List Argument) (ret : Return) : SyscallRecord where
  tid := 1
  tsUs := 0
  name := "openat".toList
  args := args
  ret := ret
  tidBlanks := 0
  retBlanks := 0
  isThread := isThread_one
  isStamp := isStamp_zero
  isName := isName_openat

theorem isPath_escape (names : List FileName) :
    IsPath (escape (FileName.absolute names)) := by
  refine ⟨head_escape_absolute names, fun char member => ?_⟩
  have code := code_of_mem_escape member
  simp only [isPrintable, Bool.and_eq_true, decide_eq_true_eq]
  omega

/-- `openat() = 3</path>` -/
def returningCall (names : List FileName) : SyscallRecord :=
  openatCall [] (.descriptor 3 (by decide) _ (isPath_escape names))

/-- `5</dir>` -/
def baseArgument (dir : List FileName) : Argument where
  tokens := .word '5' (.decorated (escape (FileName.absolute dir)) .done)
  formed := ⟨by decide, isPath_escape dir, trivial⟩
  tight := ⟨⟨'5', _, rfl, by decide⟩,
    ⟨'5' :: '<' :: escape (FileName.absolute dir), '>', by
      simp [Tokens.render], by decide⟩⟩

/-- `"path"` -/
def quotedArgument (bytes : List UInt8) : Argument where
  tokens := .quoted bytes .done
  formed := trivial
  tight := ⟨⟨'"', _, rfl, by decide⟩, ⟨'"' :: escape bytes, '"', by
    simp [Tokens.render, quote], by decide⟩⟩

/-- `openat(5</dir>, "path") = 0` -/
def baseCall (dir rest : List FileName) : SyscallRecord :=
  openatCall [baseArgument dir, quotedArgument (FileName.relative rest)]
    (.value 0 low_zero high_zero)

theorem descriptor_five : Descriptor ['5'] := .inr ⟨5, rfl⟩

theorem render_baseArgument (dir : List FileName) :
    (baseArgument dir).render = decorate ['5'] dir := rfl

theorem render_quotedArgument (bytes : List UInt8) :
    (quotedArgument bytes).render = quote bytes := List.append_nil _

/-- The characters of a plain escape need no escape. -/
theorem unquoted_escape_of_plain
    {bytes : List UInt8}
    (plain : ∀ byte ∈ bytes, isPlainByte byte = true) :
    ∀ char ∈ escape bytes, char ≠ '\\' ∧ char ≠ '"' := by
  intro char member
  rw [escape_of_plain plain, List.mem_map] at member
  obtain ⟨byte, listed, rfl⟩ := member
  have own := plain byte listed
  have code : ∀ code < 127, (Char.ofNat code).toNat = code := by decide
  simp only [isPlainByte, isPrintableByte, Bool.and_eq_true, decide_eq_true_eq]
    at own
  have same := code _ (UInt8.lt_iff_toNat_lt.mp own.1.1.2)
  constructor
  · intro backslash
    rw [backslash] at same
    exact own.2 (UInt8.toNat.inj same.symm)
  · intro mark
    rw [mark] at same
    exact own.1.2 (UInt8.toNat.inj same.symm)

/-- The directory of a plainly named file is read from its descriptor only when
its decoration is clean. -/
theorem clean_of_baseCall
    {dir rest : List FileName}
    {cwd path : Path}
    (plain : PlainNames (dir ++ rest))
    (found : givenPath (baseCall dir rest) false (some 0) (some 1) cwd =
      some path) :
    Clean (decoration dir) := by
  obtain ⟨above, below⟩ := PlainNames.append_iff.mp plain
  obtain ⟨⟨args, retPath⟩, read, given⟩ := Option.bind_eq_some_iff.mp found
  obtain ⟨-, text, more, body, closed, rfl⟩ := exists_closed_of_callRead read
  obtain ⟨second, listed, given⟩ := Option.bind_eq_some_iff.mp given
  obtain ⟨text', quoted, -⟩ := Option.bind_eq_some_iff.mp given
  have unquoted : '"' ∉ decorate ['5'] dir := by
    intro member
    simp only [decorate, decoration, List.mem_append, List.mem_cons,
      List.not_mem_nil, or_false] at member
    obtain mark | mark | member | mark := member
    · exact absurd mark (by decide)
    · exact absurd mark (by decide)
    · exact (unquoted_escape_of_plain above.absolute _ member).2 rfl
    · exact absurd mark (by decide)
  have split : (baseCall dir rest).body = decorate ['5'] dir ++ ',' :: ' ' ::
      (quote (FileName.relative rest) ++ ") = 0".toList) := by
    have printed : Return.decimal 0 = ['0'] := rfl
    simp [SyscallRecord.body, SyscallRecord.argsText, baseCall, openatCall,
      joinArgs, render_baseArgument, render_quotedArgument, Return.render,
      printed]
  exact (clean_decorate_iff descriptor_five dir).mp (clean_of_quoted_second
    (unquoted_escape_of_plain below.relative) unquoted (by decide)
    (split.symm.trans body) closed listed quoted)

/-- The name `é`, which is written with two bytes. -/
def accentedName : FileName where
  bytes := [0xC3, 0xA9]
  ne_nil := by decide
  not_curDir := by decide
  not_parentDir := by decide
  slash_notMem := by decide
  nul_notMem := by decide

end Shellmux
end Marsh
