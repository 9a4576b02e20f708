import Marsh.Brush.Tokenizer
import Marsh.Shellmux.JobReferences

/-!
# Background lines

A line is cut at its last ampersand to open a job.  The scan that finds the
ampersand knows no quotes, no comments and no operators but `&&`, so the line
the shell would run is another one wherever the ampersand is not the control
operator.
-/

namespace Marsh
namespace Shellmux
namespace Repl

open Library Text Brush

variable {options : TokenizerOptions} {verbatim : Char -> Bool}

/-! ## Occurrences -/

theorem rfind_eq_none
    {pattern text : Text}
    (absent : ∀ rest, rest <:+ text -> ¬ pattern <+: rest) :
    rfind pattern text = none := by
  induction text with
  | nil =>
      have someChar : pattern ≠ [] := fun same =>
        absent [] (List.suffix_refl _) (same ▸ List.prefix_refl _)
      rw [rfind, if_neg (by simpa using someChar)]
  | cons char text hypothesis =>
      rw [rfind, hypothesis fun rest later =>
        absent rest (later.trans (List.suffix_cons char text))]
      exact if_neg (absent _ (List.suffix_refl _))

/-- A pattern that starts the rest of a text and nothing after it occurs last
there. -/
theorem rfind_append
    {pattern rest : Text}
    (starts : pattern <+: rest)
    (last : ∀ text, text <:+ rest -> text ≠ rest -> ¬ pattern <+: text)
    (before : Text) :
    rfind pattern (before ++ rest) = some before.length := by
  induction before with
  | nil =>
      rw [List.nil_append]
      cases rest with
      | nil =>
          rw [List.prefix_nil.mp starts]
          rfl
      | cons char rest =>
          have none_ : rfind pattern rest = none :=
            rfind_eq_none fun text later => last text
              (later.trans (List.suffix_cons char rest)) fun same => by
                have lengths := later.length_le
                rw [same, List.length_cons] at lengths
                omega
          rw [rfind, none_]
          exact if_pos starts
  | cons char before hypothesis =>
      rw [List.cons_append, rfind, hypothesis]
      rfl

/-- Where a pattern is found, it stands. -/
theorem prefix_of_rfind
    {pattern text : Text}
    {start : Nat}
    (found : rfind pattern text = some start) :
    start ≤ text.length ∧ pattern <+: text.drop start := by
  induction text generalizing start with
  | nil =>
      rw [rfind] at found
      split_ifs at found with empty
      obtain rfl := Option.some.inj found
      rw [List.isEmpty_iff.mp empty]
      exact ⟨Nat.le_refl _, List.nil_prefix⟩
  | cons char text hypothesis =>
      rw [rfind] at found
      cases later : rfind pattern text with
      | some next =>
          rw [later] at found
          obtain rfl := Option.some.inj found
          obtain ⟨below, stands⟩ := hypothesis later
          exact ⟨Nat.succ_le_succ below, stands⟩
      | none =>
          rw [later] at found
          simp only at found
          split_ifs at found with stands
          obtain rfl := Option.some.inj found
          exact ⟨Nat.zero_le _, stands⟩

/-- The two parts of a text around a pattern that is found. -/
theorem eq_append_of_rfind
    {pattern text : Text}
    {start : Nat}
    (found : rfind pattern text = some start) :
    (text.take start).length = start ∧
      text = text.take start ++ (pattern ++ text.drop (start + pattern.length)) := by
  obtain ⟨below, rest, stands⟩ := prefix_of_rfind found
  have tail : text.drop (start + pattern.length) = rest := by
    rw [← List.drop_drop, ← stands, List.drop_left]
  refine ⟨by rw [List.length_take, Nat.min_eq_left below], ?_⟩
  rw [tail, stands, List.take_append_drop]

/-! ## Cutting a line -/

/-- A text ends in a job name in quotes. -/
def QuotedName (after name : Text) : Prop :=
  after = '"' :: (name ++ ['"']) ∧ '"' ∉ name

/-- What stands after an ampersand that opens a job. -/
def JobName (after : Text) : Option Text -> Prop
  | none => after = []
  | some name => QuotedName after name ∨ (after = name ∧ isBare name = true)

theorem ampersand_notMem_of_bare
    {name : Text}
    (bare : isBare name = true) : '&' ∉ name := by
  intro member
  rw [isBare, Bool.and_eq_true, List.all_eq_true] at bare
  exact absurd (bare.2 _ member) (by decide)

/-- What ends in a bare name ends in a character of a name. -/
theorem stripSuffix_of_bare
    {name : Text}
    (bare : isBare name = true)
    {char : Char}
    (other : isNameChar char = false)
    (before : Text) : stripSuffix [char] (before ++ '&' :: name) = none := by
  refine stripSuffix_eq_none fun ends => ?_
  rw [isBare, Bool.and_eq_true, List.all_eq_true] at bare
  have someName : name ≠ [] := by
    simpa using bare.1
  obtain ⟨shorter, last, rfl⟩ := List.eq_nil_or_concat' name |>.resolve_left
    someName
  obtain ⟨rest, same⟩ := ends
  have split : rest ++ [char] = (before ++ '&' :: shorter) ++ [last] := by
    rw [same, List.append_assoc, List.cons_append]
  obtain ⟨-, lastSame⟩ := List.append_inj' split rfl
  have plain := bare.2 last (List.mem_append_right _ (List.mem_singleton.mpr rfl))
  rw [← (List.cons.inj lastSame).1, other] at plain
  contradiction

/-- What ends in an ampersand does not end in a quote. -/
theorem stripSuffix_of_ampersand (before : Text) :
    stripSuffix ['"'] (before ++ ['&']) = none := by
  refine stripSuffix_eq_none fun quoted => ?_
  obtain ⟨rest, same⟩ := quoted
  have last := (List.append_inj' same rfl).2
  exact absurd (List.cons.inj last).1 (by decide)

/-- A quoted name has no ampersand before a quote in it. -/
theorem rfind_of_quotedName
    {name : Text}
    (oneName : '"' ∉ name)
    (before : Text) :
    rfind ['&', '"'] (before ++ '&' :: '"' :: name) = some before.length := by
  refine rfind_append ⟨name, rfl⟩ (fun text later proper stands => ?_) before
  obtain same | later := List.suffix_cons_iff.mp later
  · exact proper same
  · obtain ⟨rest, rfl⟩ := stands
    obtain same | later := List.suffix_cons_iff.mp later
    · exact absurd (List.cons.inj same).1 (by decide)
    · exact oneName (later.subset (by simp))

theorem rfind_of_notMem
    {after : Text}
    (absent : '&' ∉ after)
    (before : Text) :
    rfind ['&'] (before ++ '&' :: after) = some before.length := by
  refine rfind_append ⟨after, rfl⟩ (fun text later proper stands => ?_) before
  obtain same | later := List.suffix_cons_iff.mp later
  · exact proper same
  · exact absent (later.subset (stands.mem List.mem_cons_self))

/-- The scan cuts a line at an ampersand and reads the name after it. -/
theorem backgroundCut_eq_some_iff
    (line : Text)
    (start : Nat)
    (name : Option Text) :
    backgroundCut line = some (start, name) ↔
      ∃ before after, line = before ++ '&' :: after ∧ JobName after name ∧
        before.length = start := by
  constructor
  · intro cut
    rw [backgroundCut] at cut
    by_cases quoted : ['"'] <:+ line
    · obtain ⟨head, rfl⟩ := quoted
      rw [stripSuffix_append] at cut
      simp only [Option.bind_eq_some_iff] at cut
      obtain ⟨at_, found, cut⟩ := cut
      obtain ⟨counted, split⟩ := eq_append_of_rfind found
      split_ifs at cut with another
      obtain ⟨rfl, rfl⟩ := Prod.mk.inj (Option.some.inj cut)
      refine ⟨head.take at_, '"' :: (head.drop (at_ + 2) ++ ['"']), ?_,
        .inl ⟨rfl, another⟩, counted⟩
      calc
        head ++ ['"'] = (head.take at_ ++ (['&', '"'] ++
            head.drop (at_ + 2))) ++ ['"'] := congrArg (· ++ ['"']) split
        _ = _ := by simp
    · rw [stripSuffix_eq_none quoted] at cut
      simp only at cut
      by_cases bareEnd : ['&'] <:+ line
      · obtain ⟨head, rfl⟩ := bareEnd
        rw [stripSuffix_append] at cut
        obtain ⟨rfl, rfl⟩ := Prod.mk.inj (Option.some.inj cut)
        exact ⟨head, [], rfl, rfl, rfl⟩
      · rw [stripSuffix_eq_none bareEnd] at cut
        simp only [Option.bind_eq_some_iff] at cut
        obtain ⟨at_, found, cut⟩ := cut
        obtain ⟨counted, split⟩ := eq_append_of_rfind found
        split_ifs at cut with bare
        obtain ⟨rfl, rfl⟩ := Prod.mk.inj (Option.some.inj cut)
        exact ⟨line.take at_, line.drop (at_ + 1), split, .inr ⟨rfl, bare⟩,
          counted⟩
  · rintro ⟨before, after, rfl, named, rfl⟩
    cases name with
    | none =>
        obtain rfl : after = [] := named
        rw [backgroundCut, stripSuffix_of_ampersand]
        simp only
        rw [stripSuffix_append]
    | some name =>
        rcases named with ⟨rfl, oneName⟩ | ⟨rfl, bare⟩
        · have shape : before ++ '&' :: '"' :: (name ++ ['"']) =
              (before ++ '&' :: '"' :: name) ++ ['"'] := by simp
          have rest : (before ++ '&' :: '"' :: name).drop
              (before.length + 2) = name := by
            rw [← List.drop_drop, List.drop_left]
            rfl
          rw [backgroundCut, shape, stripSuffix_append]
          simp only
          rw [rfind_of_quotedName oneName, Option.bind_some, rest,
            if_neg oneName]
        · have rest : (before ++ '&' :: after).drop (before.length + 1) =
              after := by
            rw [← List.drop_drop, List.drop_left]
            rfl
          rw [backgroundCut, stripSuffix_of_bare bare (by decide)]
          simp only
          rw [stripSuffix_of_bare bare (by decide)]
          simp only
          rw [rfind_of_notMem (ampersand_notMem_of_bare bare),
            Option.bind_some, rest, if_pos bare]

/-- A line ends in an ampersand and perhaps a job name, after a command that does
not end in an ampersand itself. -/
def Opens (line before after : Text) (name : Option Text) : Prop :=
  line = before ++ '&' :: after ∧ JobName after name ∧
    before.getLast? ≠ some '&' ∧ trimEnd before ≠ []

/-- What a line that opens a job asks for. -/
def opened (verbatim : Char -> Bool) (before : Text) : Option Text -> Input
  | none => .background (trimEnd before) none
  | some name => namedBackground verbatim (trimEnd before) name

theorem background_eq_some_iff (line : Text) (input : Input) :
    background verbatim line = some input ↔
      ∃ before after name, Opens line before after name ∧
        input = opened verbatim before name := by
  have last : ∀ before after : Text, before ≠ [] ->
      (before ++ '&' :: after)[before.length - 1]? = before.getLast? := by
    intro before after someText
    have positive := List.length_pos_iff.mpr someText
    rw [List.getElem?_append_left (by omega), List.getLast?_eq_getElem?]
  have nonempty : ∀ {before : Text}, trimEnd before ≠ [] ->
      before ≠ [] := by
    rintro before visible rfl
    exact visible rfl
  constructor
  · intro asked
    rw [background, Option.bind_eq_some_iff] at asked
    obtain ⟨⟨start, name⟩, cut, asked⟩ := asked
    obtain ⟨before, after, rfl, named, rfl⟩ :=
      (backgroundCut_eq_some_iff _ _ _).mp cut
    simp only [List.take_left] at asked
    split_ifs at asked with alone blank
    rw [not_or, List.length_eq_zero_iff] at alone
    refine ⟨before, after, name, ⟨rfl, named, ?_, by simpa using blank⟩, ?_⟩
    · rw [← last before after alone.1]
      exact alone.2
    · cases name <;> exact (Option.some.inj asked).symm
  · rintro ⟨before, after, name, ⟨rfl, named, single, visible⟩, rfl⟩
    have someText := nonempty visible
    have cut := (backgroundCut_eq_some_iff _ _ _).mpr
      ⟨before, after, rfl, named, rfl⟩
    rw [background, cut, Option.bind_some]
    simp only [List.take_left]
    rw [if_neg ?_, if_neg (by simpa using visible)]
    · cases name <;> rfl
    · rw [not_or, List.length_eq_zero_iff, last before after someText]
      exact ⟨someText, single⟩

/-! ## What a line means -/

/-- A line's final ampersand, which stands before the job name if the line ends
in a quoted one. -/
def FinalAmpersand (line before after : Text) : Prop :=
  line = before ++ '&' :: after ∧
    ((∃ name, QuotedName after name) ∨
      ('&' ∉ after ∧ ∀ earlier rest, line = earlier ++ '&' :: rest ->
        ¬ ∃ name, QuotedName rest name))

/-- An ampersand the shell does not read as a control operator: it is quoted,
escaped, in a comment, or part of a redirection, of `&&` or of `|&`. -/
def NoOperator (role : AmpersandRole) : Prop :=
  role ∈ [.quoted, .escaped, .comment, .redirection, .and, .pipe]

instance (role : AmpersandRole) : Decidable (NoOperator role) :=
  inferInstanceAs (Decidable (role ∈ _))

/-- Whether a line's first word makes it a console builtin. -/
def isBuiltin (line : Text) : Bool :=
  let words := splitWhitespace (trim line)
  words = ["jobs".toList] ||
    words.head?.any fun first =>
      first ∈ ["exit", "fg", "kill", "stop", "sd", "bg"].map String.toList

/-- What a line that is no builtin asks for respects the shell's grammar. -/
structure RespectsGrammar
    (options : TokenizerOptions)
    (verbatim : Char -> Bool)
    (line : Text) : Prop where
  /-- A line that opens a job ends in a control operator, and the command is the
  line without it and without the job's name. -/
  background : ∀ cmd name, parse verbatim line = .background cmd name ->
    ∃ before after, FinalAmpersand (trim line) before after ∧
      .between options before after = AmpersandRole.control ∧
      cmd = trimEnd before ∧ JobName after name
  /-- A line whose final ampersand is no operator is a command. -/
  foreground : ∀ before after, FinalAmpersand (trim line) before after ->
    NoOperator (.between options before after) ->
      parse verbatim line = .foreground (trim line)

/-- A job name that is refused. -/
def Refused : Option Text -> Prop
  | none => False
  | some name =>
      name = foreground ∨ name = [] ∨
        ∃ char ∈ name, char = '%' ∨ char = '"' ∨ isControl char = true

theorem namedBackground_of_refused
    {name : Text}
    (refused : Refused (some name))
    (cmd : Text) :
    ∃ message, namedBackground verbatim cmd name = .invalid message := by
  rw [namedBackground]
  split_ifs with reserved forbidden
  · exact ⟨_, rfl⟩
  · exact ⟨_, rfl⟩
  · rw [Bool.or_eq_true, not_or, List.isEmpty_iff, List.any_eq_true] at forbidden
    rcases refused with same | empty | ⟨char, member, kind⟩
    · exact absurd same reserved
    · exact absurd empty forbidden.1
    · refine absurd ⟨char, member, ?_⟩ forbidden.2
      simpa [or_assoc] using kind

theorem namedBackground_of_not_refused
    {name : Text}
    (accepted : ¬ Refused (some name))
    (cmd : Text) :
    namedBackground verbatim cmd name = .background cmd (some name) := by
  rw [Refused, not_or, not_or] at accepted
  rw [namedBackground, if_neg accepted.1, if_neg]
  rw [Bool.or_eq_true, not_or, List.isEmpty_iff, List.any_eq_true]
  refine ⟨accepted.2.1, fun forbidden => accepted.2.2 ?_⟩
  obtain ⟨char, member, kind⟩ := forbidden
  exact ⟨char, member, by simpa [or_assoc] using kind⟩

/-- A line that opens a job is refused for its name, or asks for the job. -/
theorem opened_cases (before : Text) (name : Option Text) :
    (Refused name ∧ ∃ message, opened verbatim before name = .invalid message) ∨
      (¬ Refused name ∧
        opened verbatim before name = .background (trimEnd before) name) := by
  by_cases refused : Refused name
  · cases name with
    | none => exact refused.elim
    | some name => exact .inl ⟨refused, namedBackground_of_refused refused _⟩
  · refine .inr ⟨refused, ?_⟩
    cases name with
    | none => rfl
    | some name => exact namedBackground_of_not_refused refused _

/-- A line has one final ampersand. -/
theorem FinalAmpersand.unique
    {line before after earlier rest : Text}
    (first : FinalAmpersand line before after)
    (second : FinalAmpersand line earlier rest) :
    before = earlier ∧ after = rest := by
  obtain ⟨firstLine, ⟨name, rfl, noQuote⟩ | ⟨firstLast, firstBare⟩⟩ := first
  · obtain ⟨secondLine, ⟨other, rfl, noOther⟩ | ⟨-, secondBare⟩⟩ := second
    · have ends : (before ++ ['&'] ++ '"' :: name) ++ ['"'] =
          (earlier ++ ['&'] ++ '"' :: other) ++ ['"'] := by
        simpa using firstLine.symm.trans secondLine
      have parts := congrArg (rsplitOnce '"') (List.append_inj' ends rfl).1
      rw [rsplitOnce_append noQuote, rsplitOnce_append noOther] at parts
      obtain ⟨heads, rfl⟩ := Prod.mk.inj (Option.some.inj parts)
      exact ⟨(List.append_inj' heads rfl).1, rfl⟩
    · exact absurd ⟨name, rfl, noQuote⟩ (secondBare _ _ firstLine)
  · obtain ⟨secondLine, quoted | ⟨secondLast, -⟩⟩ := second
    · exact absurd quoted (firstBare _ _ secondLine)
    · have parts := congrArg (rsplitOnce '&') (firstLine.symm.trans secondLine)
      rw [rsplitOnce_append firstLast, rsplitOnce_append secondLast] at parts
      exact Prod.mk.inj (Option.some.inj parts)

/-- The ampersand that opens a job is the line's final one. -/
theorem Opens.final
    {line before after : Text}
    {name : Option Text}
    (opens : Opens line before after name) :
    FinalAmpersand line before after := by
  obtain ⟨rfl, named, -⟩ := opens
  refine ⟨rfl, ?_⟩
  have unquoted : stripSuffix ['"'] (before ++ '&' :: after) = none ->
      ∀ earlier rest, before ++ '&' :: after = earlier ++ '&' :: rest ->
        ¬ ∃ name, QuotedName rest name := by
    rintro open_ earlier rest same ⟨name, rfl, -⟩
    have shape : earlier ++ '&' :: '"' :: (name ++ ['"']) =
        (earlier ++ '&' :: '"' :: name) ++ ['"'] := by simp
    rw [same, shape, stripSuffix_append] at open_
    contradiction
  cases name with
  | none =>
      obtain rfl : after = [] := named
      exact .inr ⟨List.not_mem_nil, unquoted (stripSuffix_of_ampersand before)⟩
  | some name =>
      rcases named with quoted | ⟨rfl, bare⟩
      · exact .inl ⟨name, quoted⟩
      · exact .inr ⟨ampersand_notMem_of_bare bare,
          unquoted (stripSuffix_of_bare bare (by decide) before)⟩

/-- What a line that is no builtin asks for is up to its ampersand. -/
theorem parse_of_not_builtin
    {line : Text}
    (command : isBuiltin line = false) :
    parse verbatim line =
      if trim line = [] then .empty
      else (background verbatim (trim line)).getD (.foreground (trim line)) := by
  rw [parse]
  by_cases blank : trim line = []
  · rw [if_pos blank, blank]
    rfl
  · simp only
    rw [if_neg (by simpa using blank), if_neg blank]
    rw [isBuiltin] at command
    cases words : splitWhitespace (trim line) with
    | nil => rfl
    | cons first rest =>
        rw [words] at command
        simp only [List.head?_cons, Option.any_some, Bool.or_eq_false_iff,
          decide_eq_false_iff_not, List.map_cons, List.map_nil, List.mem_cons,
          List.not_mem_nil, or_false, not_or] at command
        obtain ⟨noJobs, noExit, noFg, noKill, noStop, noSd, noBg⟩ := command
        rw [List.headD_cons, List.tail_cons, if_neg ?_, if_neg noExit,
          if_neg noFg, if_neg noKill, if_neg noStop, if_neg noSd, if_neg noBg]
        rintro ⟨rfl, rfl⟩
        exact noJobs rfl

/-- What is no operator is not the control operator. -/
theorem NoOperator.ne_control
    {role : AmpersandRole}
    (noOperator : NoOperator role) : role ≠ .control := by
  rintro rfl
  exact absurd noOperator (by decide)

/-- A line that is no builtin respects the shell's grammar exactly when the
ampersand it is cut at is the control operator, or part of a substitution or a
`case` item before a name that is refused. -/
theorem respectsGrammar_iff_of_command
    {line : Text}
    (command : isBuiltin line = false) :
    RespectsGrammar options verbatim line ↔
      ∀ before after name, Opens (trim line) before after name ->
        .between options before after = AmpersandRole.control ∨
          (¬ NoOperator (.between options before after) ∧ Refused name) := by
  have parsed := @parse_of_not_builtin verbatim _ command
  have asks : ∀ before after name, Opens (trim line) before after name ->
      parse verbatim line = opened verbatim before name := by
    intro before after name opens
    have someLine : trim line ≠ [] := by
      rw [opens.1]
      simp
    rw [parsed, if_neg someLine, (background_eq_some_iff _ _).mpr
      ⟨before, after, name, opens, rfl⟩, Option.getD_some]
  constructor
  · intro respects before after name opens
    obtain ⟨refused, message, invalid⟩ | ⟨accepted, asked⟩ :=
      @opened_cases verbatim before name
    · by_cases control : .between options before after = AmpersandRole.control
      · exact .inl control
      · refine .inr ⟨fun noOperator => ?_, refused⟩
        have taken := respects.foreground before after opens.final noOperator
        rw [asks before after name opens, invalid] at taken
        cases taken
    · obtain ⟨earlier, rest, final, control, -⟩ := respects.background _ _
        ((asks before after name opens).trans asked)
      obtain ⟨rfl, rfl⟩ := final.unique opens.final
      exact .inl control
  · intro controls
    refine ⟨?_, ?_⟩
    · intro cmd name taken
      rw [parsed] at taken
      split_ifs at taken with blank
      cases asked : background verbatim (trim line) with
      | none =>
          rw [asked] at taken
          cases taken
      | some input =>
          rw [asked, Option.getD_some] at taken
          obtain ⟨before, after, own, opens, rfl⟩ :=
            (background_eq_some_iff _ _).mp asked
          obtain ⟨-, message, invalid⟩ | ⟨accepted, asks⟩ :=
            @opened_cases verbatim before own
          · rw [invalid] at taken
            cases taken
          · rw [asks] at taken
            obtain ⟨rfl, rfl⟩ := Input.background.inj taken
            rcases controls before after own opens with control | ⟨-, refused⟩
            · exact ⟨before, after, opens.final, control, rfl, opens.2.1⟩
            · exact absurd refused accepted
    · intro before after final noOperator
      have someLine : trim line ≠ [] := by
        rw [final.1]
        simp
      rw [parsed, if_neg someLine]
      cases asked : background verbatim (trim line) with
      | none => rfl
      | some input =>
          obtain ⟨earlier, rest, name, opens, -⟩ :=
            (background_eq_some_iff _ _).mp asked
          obtain ⟨rfl, rfl⟩ := final.unique opens.final
          rcases controls before after name opens with control | ⟨other, -⟩
          · exact absurd control noOperator.ne_control
          · exact absurd noOperator other

/-- `sleep 5 &api` opens a job, also after a here-document with a quote in
it. -/
theorem respectsGrammar_iff_of_command_sleep :
    RespectsGrammar .default (fun _ => true)
      "cat <<EOF\nit's\nEOF\nsleep 5 &api".toList := by
  refine (respectsGrammar_iff_of_command (by decide)).mpr
    fun before after name opens => .inl ?_
  have cut : Opens (trim "cat <<EOF\nit's\nEOF\nsleep 5 &api".toList)
      "cat <<EOF\nit's\nEOF\nsleep 5 ".toList "api".toList
      (some "api".toList) :=
    ⟨by decide, .inr ⟨rfl, by decide⟩, by decide, by decide⟩
  obtain ⟨rfl, rfl⟩ := opens.final.unique cut.final
  decide +kernel

/-- `ls 2>&1` runs `ls 2>` in a job named `1`. -/
theorem not_respectsGrammar_redirection :
    isBuiltin "ls 2>&1".toList = false ∧
      ¬ RespectsGrammar .default (fun _ => true) "ls 2>&1".toList := by
  refine ⟨by decide, fun respects => ?_⟩
  have final : FinalAmpersand (trim "ls 2>&1".toList) "ls 2>".toList
      "1".toList :=
    @Opens.final _ _ _ (some "1".toList)
      ⟨by decide, .inr ⟨rfl, by decide⟩, by decide, by decide⟩
  have taken := respects.foreground _ _ final (by decide)
  have cut : parse (fun _ => true) "ls 2>&1".toList =
      .background "ls 2>".toList (some "1".toList) := by decide
  rw [cut] at taken
  cases taken

end Repl
end Shellmux
end Marsh
