import Marsh.Exec.ArgumentDecoding
import Marsh.Exec.PrintedLines

/-!
# Decoding a trace

Printed lines are decoded to their records exactly when every argument closes the
quotes and brackets it opens and has no comma outside of them, and no line ends
like that of an interrupted call.
-/

namespace Marsh
namespace Exec

open Library

/-! ## Lines -/

/-- Six digits are read back. -/
theorem parseUnsigned_sixDigits
    {number : Nat}
    (below : number < 1000000) :
    parseUnsigned 64 (sixDigits number) = some number := by
  have digit : ∀ unit, Text.digitValue 10 (Nat.digitChar (number / unit % 10)) =
      some (number / unit % 10) := fun unit =>
    Text.digitValue_digitChar (by decide) (Nat.mod_lt _ (by decide))
  have digits : Text.parseDigits 10 (sixDigits number) = some number := by
    simp only [sixDigits, List.map_cons, List.map_nil, Text.parseDigits,
      Text.readDigits, digit, Option.bind_some, List.cons_ne_nil, if_false,
      Option.some.injEq]
    omega
  unfold parseUnsigned
  split
  · next rest same =>
    have plus := @mem_sixDigits number '+' (by simp [same])
    contradiction
  · dsimp only
    rw [digits, Option.filter_some_pos]
    exact decide_eq_true (by omega)

/-- A printed stamp is read back. -/
theorem parseStamp_render
    {tsUs : Nat}
    (isStamp : tsUs < 2 ^ 64) :
    parseStamp (Nat.toDigits 10 (tsUs / 1000000) ++
      '.' :: sixDigits (tsUs % 1000000)) = some tsUs := by
  have point : '.' ∉ Nat.toDigits 10 (tsUs / 1000000) := fun member =>
    absurd (Text.digitValue_isSome_of_mem (by decide) (by decide) member)
      (by decide)
  have seconds : parseUnsigned 64 (Nat.toDigits 10 (tsUs / 1000000)) =
      some (tsUs / 1000000) :=
    parseUnsigned_toDigits ((Nat.div_le_self _ _).trans_lt isStamp)
  have micros : parseUnsigned 64 (sixDigits (tsUs % 1000000)) =
      some (tsUs % 1000000) :=
    parseUnsigned_sixDigits (Nat.mod_lt _ (by decide))
  have six : (sixDigits (tsUs % 1000000)).length = 6 := rfl
  have whole : (tsUs / 1000000 * 1000000 + tsUs % 1000000) % 2 ^ 64 = tsUs := by
    rw [Nat.div_add_mod', Nat.mod_eq_of_lt isStamp]
  simp only [parseStamp, Text.splitOnce_append point, six, if_true, seconds,
    micros, Option.bind_eq_bind, Option.bind_some, whole]

/-- No blank stands in a printed stamp. -/
theorem blank_notMem_stamp (seconds micros : Nat) :
    ' ' ∉ Nat.toDigits 10 seconds ++ '.' :: sixDigits micros := by
  intro member
  rcases List.mem_append.mp member with digit | rest
  · exact absurd
      (Text.digitValue_isSome_of_mem (by decide) (by decide) digit) (by decide)
  · rcases List.mem_cons.mp rest with same | digit
    · exact absurd same (by decide)
    · exact absurd (mem_sixDigits digit) (by decide)

/-- What stands before the call in a line. -/
def lineStart (tid tidBlanks tsUs : Nat) : Text :=
  Nat.toDigits 10 tid ++ (List.replicate (tidBlanks + 1) ' ' ++
    (Nat.toDigits 10 (tsUs / 1000000) ++ '.' ::
      (sixDigits (tsUs % 1000000) ++ [' '])))

/-- The prefix of a printed line is read back. -/
theorem splitPrefix_lineStart
    {tid tsUs : Nat}
    (isThread : tid < 2 ^ 32)
    (isStamp : tsUs < 2 ^ 64)
    (tidBlanks : Nat)
    {call : Text}
    (starts : Text.trimStart call = call) :
    splitPrefix (lineStart tid tidBlanks tsUs ++ call) =
      some (tid, tsUs, call) := by
  let stamp := Nat.toDigits 10 (tsUs / 1000000) ++
    '.' :: sixDigits (tsUs % 1000000)
  let blanks := List.replicate (tidBlanks + 1) ' '
  have shape : lineStart tid tidBlanks tsUs ++ call =
      Nat.toDigits 10 tid ++ (blanks ++ (stamp ++ ' ' :: call)) := by
    simp [lineStart, blanks, stamp]
  have stamped : Text.trimStart (blanks ++ (stamp ++ ' ' :: call)) =
      stamp ++ ' ' :: call := by
    obtain ⟨digit, digits, same, visible⟩ := (Text.tight_toDigits (by decide)
      (by decide : 10 ≤ 16) (tsUs / 1000000)).starts
    rw [Text.trimStart_append_of_whitespace]
    · simp only [stamp, same]
      exact Text.trimStart_of_starts visible _
    · intro blank member
      obtain rfl := List.eq_of_mem_replicate member
      decide
  have cut := @takeWhile_toDigits tid (blanks ++ (stamp ++ ' ' :: call))
    (by simp [blanks, List.replicate_succ, isDigit])
  have some : ¬ (blanks ++ (stamp ++ ' ' :: call) = [] ∨
      Nat.toDigits 10 tid = []) := by
    simp [stamp]
  have split : Text.splitOnce [' '] (stamp ++ ' ' :: call) = (stamp, call) :=
    Text.splitOnce_append (blank_notMem_stamp _ _) call
  rw [shape]
  simp only [splitPrefix, cut.1, cut.2, if_neg some,
    parseUnsigned_toDigits isThread, stamped, split,
    parseStamp_render isStamp, starts, stamp, Option.bind_eq_bind,
    Option.bind_some]

namespace IsName

variable {name : Text}

theorem trimStart (named : IsName name) (rest : Text) :
    Text.trimStart (name ++ rest) = name ++ rest := by
  cases letters : name with
  | nil => exact absurd letters named.ne_nil
  | cons first others =>
      have visible := (named.mem
        (by rw [letters]; exact List.mem_cons_self)).1
      exact Text.trimStart_of_starts visible _

/-- A name starts with no delimiter. -/
theorem not_prefix
    (named : IsName name)
    {start : Text}
    {char : Char}
    {others : Text}
    (shape : start = char :: others)
    (other : isNameChar char = false)
    (rest : Text) : ¬ start <+: name ++ rest := by
  intro startsWith
  subst shape
  cases letters : name with
  | nil => exact named.ne_nil letters
  | cons first later =>
      rw [letters, List.cons_append, List.cons_prefix_cons] at startsWith
      have letter := (named.mem
        (by rw [letters]; exact List.mem_cons_self)).2
      rw [← startsWith.1, other] at letter
      contradiction

theorem not_prefix_strace (named : IsName name) (body : Text) :
    ¬ "strace:".toList <+: name ++ '(' :: body := by
  rintro ⟨rest, same⟩
  have letters : ∀ char ∈ name, isNameChar char = true :=
    fun char member => (named.mem member).2
  have cut := congrArg (List.dropWhile isNameChar) same
  rw [List.dropWhile_append_of_pos letters] at cut
  have colon := (List.cons.inj cut).1
  exact absurd colon (by decide)

theorem notMem
    (named : IsName name)
    {char : Char}
    (other : isNameChar char = false) : char ∉ name := by
  intro member
  have letter := (named.mem member).2
  rw [other] at letter
  contradiction

end IsName

/-- A suffix without a character stands after its last occurrence. -/
theorem suffix_of_notMem
    {ending start rest : Text}
    {char : Char}
    (absent : char ∉ ending)
    (suffix : ending <:+ start ++ char :: rest) : ending <:+ rest := by
  have tail : rest <:+ start ++ char :: rest :=
    (List.suffix_cons char rest).trans (List.suffix_append start _)
  by_cases fits : ending.length ≤ rest.length
  · exact List.suffix_of_suffix_length_le suffix tail fits
  · have longer : char :: rest <:+ ending :=
      List.suffix_of_suffix_length_le (List.suffix_append start _) suffix
        (by rw [List.length_cons]; omega)
    exact absurd (longer.mem List.mem_cons_self) absent

/-- How strace ends the line of an interrupted call. -/
def unfinished : Text := "<unfinished ...>".toList

/-- A returned path that makes a line end like that of an interrupted call. -/
def Return.Interrupted (ret : Return) : Prop :=
  ∃ path, ret.path = some path ∧ "<unfinished ...".toList <:+ path

theorem unfinished_eq : unfinished = "<unfinished ...".toList ++ ['>'] := rfl

theorem concat_suffix_concat_iff
    {ending text : Text}
    {last char : Char} :
    ending ++ [last] <:+ text ++ [char] ↔ last = char ∧ ending <:+ text := by
  rw [List.suffix_concat_iff]
  constructor
  · rintro (empty | ⟨rest, same, suffix⟩)
    · simp at empty
    · have parts := List.append_inj' same rfl
      rw [parts.1]
      exact ⟨(List.cons.inj parts.2).1, suffix⟩
  · rintro ⟨rfl, suffix⟩
    exact .inr ⟨ending, rfl, suffix⟩

/-- A return value ends like an interrupted call only by the path of its
descriptor. -/
theorem Return.unfinished_suffix_iff (ret : Return) :
    unfinished <:+ ret.render ↔ ret.Interrupted := by
  have numeral : ∀ {base number : Nat} {start : Text}, 1 < base -> base ≤ 16 ->
      ¬ unfinished <:+ start ++ Nat.toDigits base number := by
    intro base number start large small suffix
    have last := (Nat.toDigits base number).dropLast_append_getLast
      Nat.toDigits_ne_nil
    rw [← last, ← List.append_assoc, unfinished_eq, concat_suffix_concat_iff]
      at suffix
    have digit := Text.digitValue_isSome_of_mem large small
      (List.getLast_mem (@Nat.toDigits_ne_nil number base))
    rw [← suffix.1] at digit
    exact absurd digit (by simp [Text.digitValue])
  cases ret with
  | value number low high =>
      constructor
      · intro suffix
        cases number with
        | ofNat number =>
            exact absurd suffix (@numeral 10 number [] (by decide) (by decide))
        | negSucc number =>
            exact absurd suffix
              (@numeral 10 (number + 1) ['-'] (by decide) (by decide))
      · rintro ⟨_, same, _⟩
        cases same
  | address number high =>
      constructor
      · intro suffix
        exact absurd suffix
          (@numeral 16 number ['0', 'x'] (by decide) (by decide))
      · rintro ⟨_, same, _⟩
        cases same
  | descriptor fd high path isPath =>
      have shape : (descriptor fd high path isPath).render =
          (Nat.toDigits 10 fd ++ '<' :: path) ++ ['>'] := by
        simp [render]
      rw [shape, unfinished_eq, concat_suffix_concat_iff]
      constructor
      · rintro ⟨-, suffix⟩
        refine ⟨path, rfl, ?_⟩
        cases path with
        | nil => exact absurd isPath.absolute (by simp)
        | cons slash rest =>
            obtain rfl : slash = '/' := by simpa using isPath.absolute
            have inside : "<unfinished ...".toList <:+ rest := by
              have split : Nat.toDigits 10 fd ++ '<' :: '/' :: rest =
                  (Nat.toDigits 10 fd ++ ['<']) ++ '/' :: rest := by simp
              rw [split] at suffix
              exact suffix_of_notMem (by decide) suffix
            exact inside.trans (List.suffix_cons _ _)
      · rintro ⟨path', same, suffix⟩
        obtain rfl := Option.some.inj same
        exact ⟨rfl, suffix.trans ((List.suffix_cons _ _).trans
          (List.suffix_append _ _))⟩
  | errno name message named printable =>
      constructor
      · intro suffix
        have shape : (errno name message named printable).render =
            ('-' :: '1' :: ' ' :: (name ++ ' ' :: '(' :: message)) ++ [')'] := by
          simp [render]
        rw [shape, unfinished_eq, concat_suffix_concat_iff] at suffix
        exact absurd suffix.1 (by decide)
      · rintro ⟨_, same, _⟩
        cases same

namespace SyscallRecord

variable (record : SyscallRecord)

/-- A printed line ends like that of an interrupted call only by its returned
path. -/
theorem unfinished_suffix_body_iff :
    unfinished <:+ record.body ↔ record.ret.Interrupted := by
  have shape : record.body = (record.argsText ++
      ')' :: List.replicate (record.retBlanks + 1) ' ') ++
        '=' :: ' ' :: record.ret.render := by
    simp [body]
  rw [shape, ← record.ret.unfinished_suffix_iff]
  constructor
  · intro suffix
    rcases List.suffix_cons_iff.mp (suffix_of_notMem (by decide) suffix) with
      same | inside
    · exact absurd (List.cons.inj same).1 (by decide)
    · exact inside
  · intro suffix
    exact suffix.trans ((List.suffix_cons _ _).trans
      ((List.suffix_cons _ _).trans (List.suffix_append _ _)))

end SyscallRecord

/-- A closed argument list is cut off where it ends. -/
theorem splitClose_of_closed
    {args : Text}
    (closed : Closed args)
    (retBlanks : Nat)
    (ret : Return) :
    splitClose (args ++ ')' :: (List.replicate (retBlanks + 1) ' ' ++
      '=' :: ' ' :: ret.render)) = some (args, ret.render) := by
  let after := List.replicate (retBlanks + 1) ' ' ++ '=' :: ' ' :: ret.render
  have tail : Text.trimStart after = ['='] ++ ' ' :: ret.render := by
    rw [Text.trimStart_append_of_whitespace]
    · exact Text.trimStart_of_starts (by decide) _
    · intro blank member
      obtain rfl := List.eq_of_mem_replicate member
      decide
  have blank := Text.trimStart_append_of_whitespace
    (List.forall_mem_singleton.mpr
      (by decide : Text.isWhitespace ' ' = true)) ret.render
  have deeper : (⟨1, false, false⟩ : Scan) = Scan.start.deeper := rfl
  unfold splitClose
  rw [deeper, closeLoop_append closed, closeLoop_closing (by decide),
    Option.map_some, Option.map_some, prependFirst, List.append_nil]
  change some (args, _) = _
  rw [tail, Text.stripPrefix_append]
  exact congrArg (fun ret => some (args, ret)) (blank.trans ret.tight.trimStart)

/-- What is cut off as an argument list closes what it opens. -/
theorem closed_of_splitClose
    {body args ret : Text}
    (cuts : splitClose body = some (args, ret)) : Closed args := by
  have deeper : (⟨1, false, false⟩ : Scan) = Scan.start.deeper := rfl
  unfold splitClose at cuts
  rw [deeper, Option.map_eq_some_iff] at cuts
  obtain ⟨⟨before, rest⟩, found, same⟩ := cuts
  obtain rfl : before = args := (Prod.mk.inj same).1
  obtain ⟨⟨last, runs, top⟩, -⟩ := run_of_closeLoop found
  obtain rfl := (Scan.sound_start.run runs).eq_start top
  exact runs

/-- What is cut off as an argument list stands before a bracket. -/
theorem exists_closing_of_splitClose
    {text args ret : Text}
    (cuts : splitClose text = some (args, ret)) :
    ∃ char after, text = args ++ char :: after := by
  have deeper : (⟨1, false, false⟩ : Scan) = Scan.start.deeper := rfl
  unfold splitClose at cuts
  rw [deeper, Option.map_eq_some_iff] at cuts
  obtain ⟨⟨before, after⟩, found, same⟩ := cuts
  obtain ⟨rfl, rfl⟩ := Prod.mk.inj same
  obtain ⟨-, char, text_eq⟩ := run_of_closeLoop found
  exact ⟨char, after, text_eq⟩

namespace SyscallRecord

variable (record : SyscallRecord)

/-! ## Reading a printed line -/

/-- The lines read from a printed line. -/
def emitted : List TraceLine :=
  if unfinished <:+ record.body then []
  else match splitClose record.body with
    | none => []
    | some (args, retText) =>
        let ret := parseReturn retText
        [⟨record.tid, record.tsUs, .syscall record.name args ret.1 ret.2⟩]

theorem length_emitted_le : record.emitted.length ≤ 1 := by
  unfold emitted
  split_ifs
  · exact Nat.zero_le 1
  · split
    · exact Nat.zero_le 1
    · exact le_rfl

/-- A printed line is decoded to its record exactly when its arguments are closed
and it does not end like that of an interrupted call. -/
theorem emitted_eq_iff :
    record.emitted = [record.line] ↔
      Closed record.argsText ∧ ¬ record.ret.Interrupted := by
  rw [← record.unfinished_suffix_body_iff]
  unfold emitted
  split_ifs with interrupted
  · constructor
    · intro same
      contradiction
    · rintro ⟨-, finished⟩
      contradiction
  · constructor
    · intro same
      refine ⟨?_, interrupted⟩
      split at same
      · contradiction
      · next args retText cuts =>
        have call := (TraceLine.mk.inj (List.cons.inj same).1).2.2
        obtain rfl : args = record.argsText := (Call.syscall.inj call).2.1
        exact closed_of_splitClose cuts
    · rintro ⟨closed, -⟩
      rw [SyscallRecord.body, splitClose_of_closed closed]
      dsimp only
      rw [record.ret.parse]
      rfl

theorem render_eq :
    record.render = lineStart record.tid record.tidBlanks record.tsUs ++
      (record.name ++ '(' :: record.body) := by
  simp [render, lineStart]

end SyscallRecord

/-- What a line of a call adds to what was read. -/
def TraceState.readCall
    (state : TraceState)
    (tid tsUs : Nat)
    (name body : Text) : TraceState :=
  match Text.stripSuffix unfinished body with
  | some start =>
      { state with
        pending := ⟨tid, name, tsUs, Text.trimEnd start⟩ :: state.pending }
  | none =>
      match splitClose body with
      | none => state
      | some (args, retText) => state.push tid tsUs name args retText

/-- A line of a call is read as one. -/
theorem parseLine_call
    (state : TraceState)
    {tid tsUs : Nat}
    (isThread : tid < 2 ^ 32)
    (isStamp : tsUs < 2 ^ 64)
    (tidBlanks : Nat)
    {name : Text}
    (named : IsName name)
    {body : Text}
    (tight : Text.Tight (lineStart tid tidBlanks tsUs ++ (name ++ '(' :: body))) :
    parseLine state (lineStart tid tidBlanks tsUs ++ (name ++ '(' :: body)) =
      .ok (state.readCall tid tsUs name body) := by
  have split : Text.splitOnce ['('] (name ++ '(' :: body) = some (name, body) :=
    Text.splitOnce_append (named.notMem (by decide)) body
  have letters : ¬ (name = [] ∨ ¬ name.all isNameChar = true) :=
    not_or.mpr ⟨named.ne_nil, not_not.mpr named.letters⟩
  have exit : ¬ "+++ exited with ".toList <+: name ++ '(' :: body :=
    named.not_prefix rfl (by decide) _
  have note : ¬ ("+++".toList <+: name ++ '(' :: body ∨
      "---".toList <+: name ++ '(' :: body ∨
      "strace:".toList <+: name ++ '(' :: body) :=
    not_or.mpr ⟨named.not_prefix rfl (by decide) _,
      not_or.mpr ⟨named.not_prefix rfl (by decide) _,
        named.not_prefix_strace body⟩⟩
  have resumed : ¬ "<... ".toList <+: name ++ '(' :: body :=
    named.not_prefix rfl (by decide) _
  unfold parseLine
  rw [tight.trimEnd]
  dsimp only
  rw [if_neg tight.ne_nil,
    splitPrefix_lineStart isThread isStamp tidBlanks (named.trimStart _)]
  dsimp only
  rw [Text.stripPrefix_eq_none exit]
  dsimp only
  rw [if_neg note, Text.stripPrefix_eq_none resumed]
  dsimp only
  rw [split]
  dsimp only
  rw [if_neg letters]
  unfold TraceState.readCall unfinished
  cases Text.stripSuffix "<unfinished ...>".toList body with
  | some start => rfl
  | none =>
      cases splitClose body with
      | none => rfl
      | some parts => rfl

/-- A printed line adds what is read from it, and leaves a pending call at
most. -/
theorem SyscallRecord.parseLine_render
    (record : SyscallRecord)
    (state : TraceState) :
    ∃ pending, parseLine state record.render =
      .ok ⟨state.lines ++ record.emitted, pending⟩ := by
  have tight := record.tight_render
  rw [record.render_eq] at tight ⊢
  rw [parseLine_call state record.isThread record.isStamp _ record.isName tight]
  unfold TraceState.readCall emitted
  by_cases interrupted : unfinished <:+ record.body
  · obtain ⟨start, same⟩ := interrupted
    have strip : Text.stripSuffix unfinished record.body = some start := by
      rw [← same]
      exact Text.stripSuffix_append start unfinished
    rw [strip, if_pos ⟨start, same⟩, List.append_nil]
    exact ⟨_, rfl⟩
  · rw [Text.stripSuffix_eq_none interrupted, if_neg interrupted]
    dsimp only
    cases splitClose record.body with
    | none => exact ⟨_, by rw [List.append_nil]⟩
    | some parts => exact ⟨_, rfl⟩

/-- A printed trace is read line by line. -/
theorem parseTrace_render (records : List SyscallRecord) :
    parseTrace (records.flatMap fun record => record.render ++ ['\n']) =
      .ok (records.flatMap SyscallRecord.emitted) := by
  have reads : ∀ state : TraceState, ∃ pending,
      (records.map SyscallRecord.render).foldlM parseLine state =
        .ok ⟨state.lines ++ records.flatMap SyscallRecord.emitted, pending⟩ := by
    induction records with
    | nil =>
        intro state
        exact ⟨state.pending, by simp; rfl⟩
    | cons record records hypothesis =>
        intro state
        obtain ⟨middle, reads⟩ := record.parseLine_render state
        obtain ⟨pending, later⟩ :=
          hypothesis ⟨state.lines ++ record.emitted, middle⟩
        refine ⟨pending, ?_⟩
        rw [List.map_cons, List.foldlM_cons, reads, List.flatMap_cons,
          ← List.append_assoc]
        exact later
  obtain ⟨pending, reads⟩ := reads ⟨[], []⟩
  rw [parseTrace, lines_render, reads]
  rfl

theorem length_flatMap_le
    {α β : Type}
    {f : α -> List β}
    (short : ∀ value, (f value).length ≤ 1)
    (values : List α) : (values.flatMap f).length ≤ values.length := by
  induction values with
  | nil => exact le_rfl
  | cons value values hypothesis =>
      have own := short value
      rw [List.flatMap_cons, List.length_append, List.length_cons]
      omega

/-- Lists of at most one element each are joined to as many elements only when
each has its own. -/
theorem flatMap_eq_map_iff
    {α β : Type}
    {f : α -> List β}
    {g : α -> β}
    (short : ∀ value, (f value).length ≤ 1)
    (values : List α) :
    values.flatMap f = values.map g ↔ ∀ value ∈ values, f value = [g value] := by
  induction values with
  | nil => simp
  | cons value values hypothesis =>
      rw [List.flatMap_cons, List.map_cons, List.forall_mem_cons, ← hypothesis]
      constructor
      · intro same
        have bound := length_flatMap_le short values
        have own := short value
        cases found : f value with
        | nil =>
            have lengths := congrArg List.length same
            rw [found, List.nil_append, List.length_cons, List.length_map]
              at lengths
            omega
        | cons first others =>
            rw [found, List.length_cons] at own
            obtain rfl := List.eq_nil_of_length_eq_zero (by omega :
              others.length = 0)
            rw [found] at same
            obtain ⟨rfl, rest⟩ := List.cons.inj same
            exact ⟨rfl, rest⟩
      · rintro ⟨own, rest⟩
        rw [own, rest, List.singleton_append]

/-- A record is decoded, and its arguments are cut apart again, exactly when every
argument is clean and its line does not end like that of an interrupted call. -/
theorem SyscallRecord.decoded_iff (record : SyscallRecord) :
    (record.emitted = [record.line] ∧
      splitArgs record.argsText = record.args.map Argument.render) ↔
    (∀ arg ∈ record.args, Clean arg.render) ∧ ¬ record.ret.Interrupted := by
  have tight : ∀ arg ∈ record.args.map Argument.render, Text.Tight arg :=
    List.forall_mem_map.mpr fun argument _ => argument.tight
  have cut := splitArgs_joinArgs_iff tight
  rw [← SyscallRecord.argsText, List.forall_mem_map] at cut
  rw [record.emitted_eq_iff, ← cut]
  tauto

/-- A printed trace is decoded to its records, and the arguments of each are cut
apart again, exactly when every argument is clean and no returned path makes a
line end like that of an interrupted call. -/
theorem parseTrace_render_iff (records : List SyscallRecord) :
    (parseTrace (records.flatMap fun record => record.render ++ ['\n']) =
        .ok (records.map SyscallRecord.line) ∧
      ∀ record ∈ records,
        splitArgs record.argsText = record.args.map Argument.render) ↔
    ∀ record ∈ records,
      (∀ arg ∈ record.args, Clean arg.render) ∧ ¬ record.ret.Interrupted := by
  rw [parseTrace_render, Except.ok.injEq,
    flatMap_eq_map_iff SyscallRecord.length_emitted_le, ← forall₂_and]
  exact forall₂_congr fun record _ => record.decoded_iff

/-- `5</work/a,b>`: a directory with a comma in its name. -/
def commaDirectory : Argument where
  tokens := .word '5' (.decorated "/work/a,b".toList .done)
  formed := ⟨by decide, ⟨by decide, List.all_eq_true.mp (by decide)⟩, trivial⟩
  tight := ⟨⟨'5', _, rfl, by decide⟩, ⟨"5</work/a,b".toList, '>', rfl, by decide⟩⟩

/-- `openat(5</work/a,b>, "x") = 3` -/
def commaRecord : SyscallRecord where
  tid := 7
  tsUs := 0
  name := "openat".toList
  args := [commaDirectory,
    ⟨.quoted [120] .done, trivial,
      ⟨⟨'"', _, rfl, by decide⟩, ⟨['"', 'x'], '"', rfl, by decide⟩⟩⟩]
  ret := .value 3 (by decide) (by decide)
  tidBlanks := 0
  retBlanks := 0
  isThread := by decide
  isStamp := by decide
  isName := ⟨by decide, by decide⟩

/-- The comma of a directory's name cuts its argument in two. -/
theorem not_parseTrace_render :
    ¬ ∀ record : SyscallRecord,
      parseTrace (record.render ++ ['\n']) = .ok [record.line] ∧
        splitArgs record.argsText = record.args.map Argument.render := by
  intro exact
  have cut := (exact commaRecord).2
  revert cut
  decide

end Exec
end Marsh
