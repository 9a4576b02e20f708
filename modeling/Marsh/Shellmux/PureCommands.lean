import Marsh.Shellmux.Purity

/-!
# What accepted commands perform

A simple command the walk accepts runs its builtin, on whatever its literal
words expand to; and a program of such commands performs nothing else.
-/

namespace Marsh
namespace Shellmux

open Library Brush

variable {shell : Shell} {world : World}

/-! ## Words -/

theorem forall_of_literalPieces
    {pieces : List WordPiece}
    (literal : literalPieces shell pieces = true) :
    ∀ piece ∈ pieces, literalPiece shell piece = true := by
  induction pieces with
  | nil => exact fun piece member => absurd member List.not_mem_nil
  | cons first pieces hypothesis =>
      obtain ⟨own, rest⟩ := Bool.and_eq_true_iff.mp literal
      intro piece member
      rcases List.mem_cons.mp member with rfl | later
      · exact own
      · exact hypothesis rest piece later

/-- Pieces that each stand for texts stand for all of them. -/
theorem isSome_allLiteralTexts
    {pieces : List WordPiece}
    (each : ∀ piece ∈ pieces, (literalTexts shell.parser piece).isSome) :
    (allLiteralTexts shell.parser pieces).isSome := by
  induction pieces with
  | nil => rfl
  | cons piece pieces hypothesis =>
      obtain ⟨texts, textsEq⟩ :=
        Option.isSome_iff_exists.mp (each piece List.mem_cons_self)
      obtain ⟨others, othersEq⟩ := Option.isSome_iff_exists.mp
        (hypothesis fun piece member =>
          each piece (List.mem_cons_of_mem _ member))
      rw [allLiteralTexts, textsEq, othersEq]
      rfl

/-- An accepted piece stands for texts. -/
theorem isSome_literalTexts
    {piece : WordPiece}
    (literal : literalPiece shell piece = true) :
    (literalTexts shell.parser piece).isSome := by
  match piece, literal with
  | .text _, _ | .singleQuotedText _, _ | .ansiCQuotedText _, _
  | .escapeSequence _, _ => rfl
  | .doubleQuotedSequence pieces, literal =>
      rw [literalTexts]
      split_ifs
      · rfl
      · exact isSome_allLiteralTexts fun piece member =>
          isSome_literalTexts (forall_of_literalPieces literal piece member)
termination_by piece

/-- An accepted word has letters, and no brace opens unquoted in it. -/
theorem exists_wordLetters
    {pieces : List WordPiece}
    (literal : literalPieces shell pieces = true) :
    (∃ letters, wordLetters shell.parser pieces = some letters) ∧
      ∀ text, .text text ∈ pieces -> '{' ∉ text := by
  induction pieces with
  | nil => exact ⟨⟨[], rfl⟩, by simp⟩
  | cons piece pieces hypothesis =>
      obtain ⟨first, rest⟩ := Bool.and_eq_true_iff.mp literal
      obtain ⟨⟨others, othersEq⟩, braces⟩ := hypothesis rest
      have letters : ∃ letters, pieceLetters shell.parser piece =
          some letters := by
        obtain ⟨texts, textsEq⟩ := Option.isSome_iff_exists.mp
          (isSome_literalTexts first)
        cases piece with
        | text text => exact ⟨_, rfl⟩
        | singleQuotedText | ansiCQuotedText | doubleQuotedSequence
        | gettextDoubleQuotedSequence | tildeExpansion | parameterExpansion
        | commandSubstitution | backquotedCommandSubstitution | escapeSequence
        | arithmeticExpression =>
            exact ⟨_, congrArg (Option.map (List.map Letter.quoted)) textsEq⟩
      obtain ⟨here, hereEq⟩ := letters
      refine ⟨⟨here ++ others, ?_⟩, ?_⟩
      · rw [wordLetters, hereEq, othersEq]
        rfl
      · intro text member
        obtain rfl | later := List.mem_cons.mp member
        · intro brace
          have plain : plainText shell text = true := first
          rw [plainText, Bool.and_eq_true_iff] at plain
          have safe := (Bool.not_eq_true' _).mp plain.2
          rw [List.any_eq_false] at safe
          exact safe '{' brace rfl
        · exact braces text later

/-- What the walk found in an argument word. -/
theorem literalWord_spec
    {word : Word}
    (literal : literalWord shell word = true) :
    ∃ pieces, piecesOf shell word = some pieces ∧
      (∀ text, .text text ∈ pieces -> '{' ∉ text) ∧
      wordLetters shell.parser pieces = some (lettersOf shell word) := by
  rw [literalWord] at literal
  cases parsed : piecesOf shell word with
  | none =>
      rw [parsed] at literal
      cases literal
  | some pieces =>
      rw [parsed] at literal
      obtain ⟨⟨letters, lettersEq⟩, braces⟩ := exists_wordLetters literal
      refine ⟨pieces, rfl, braces, ?_⟩
      rw [lettersOf, parsed, Option.bind_some, lettersEq]
      rfl

/-- An accepted word that stands for itself. -/
theorem expandWord_of_standsForItself
    {word : Word}
    (literal : literalWord shell word = true)
    (stands : StandsForItself shell.parser shell.options
      (lettersOf shell word)) :
    shell.expandWord world word.value =
      Evaluated.pure (literalArguments (lettersOf shell word)) := by
  obtain ⟨pieces, parsed, braces, letters⟩ := literalWord_spec literal
  exact fullExpandWithSplitting_of_standsForItself parsed braces letters stands

/-- An accepted word nothing is done for. -/
theorem expandWord_of_quiet
    {word : Word}
    (literal : literalWord shell word = true)
    (quiet : (shell.expandWord world word.value).effects = []) :
    ∃ fields, shell.expandWord world word.value = Evaluated.pure fields ∧
      fields.flatten =
        (kept (lettersOf shell word)).flatMap Letter.text ∧
      (kept (lettersOf shell word) = lettersOf shell word ->
        StandsForItself shell.parser shell.options (lettersOf shell word)) := by
  obtain ⟨pieces, parsed, braces, letters⟩ := literalWord_spec literal
  exact fullExpandWithSplitting_of_quiet parsed braces letters quiet

/-! ## Names -/

/-- The listed names hold nothing to expand. -/
theorem plain_of_provable :
    ∀ name ∈ provableBuiltins, name ≠ [] ∧ NothingToExpand name ∧
      name.all (fun char => char ∉ ifs) = true ∧ '(' ∉ name ∧
        Glob.hasGlob name = false := by
  decide

/-- A listed name expands to itself. -/
theorem expandWord_of_provable
    {name : Text}
    (provable : name ∈ provableBuiltins) :
    shell.expandWord world name = Evaluated.pure [name] := by
  obtain ⟨nonempty, plain, unblank, unparenthesized, globless⟩ :=
    plain_of_provable name provable
  have parsed : shell.parser.parseWord shell.options.parserOptions name =
      some [.text name] := by
    rw [shell.parser.parseWord_plain _ _ plain, if_neg nonempty]
  have braces : ∀ text, .text text ∈ [WordPiece.text name] -> '{' ∉ text := by
    intro text member brace
    obtain rfl := WordPiece.text.inj (List.mem_singleton.mp member)
    exact plain '{' brace (by decide)
  have letters : wordLetters shell.parser [.text name] =
      some (name.map Letter.unquoted) :=
    congrArg some (List.append_nil _)
  have stands : StandsForItself shell.parser shell.options
      (name.map Letter.unquoted) := by
    refine ⟨?_, ?_⟩
    · intro letter member
      obtain ⟨char, charMember, rfl⟩ := List.mem_map.mp member
      exact decide_eq_false
        (of_decide_eq_true (List.all_eq_true.mp unblank char charMember))
    · intro run member matchesRun
      have runs : unquotedRuns (name.map Letter.unquoted ++ []) =
          [name ++ []] := unquotedRuns_append name rfl
      rw [List.append_nil, List.append_nil] at runs
      rw [runs] at member
      obtain rfl := List.mem_singleton.mp member
      obtain ⟨-, globs⟩ := matchesRun
      rw [shell.parser.hasGlobMetacharacters_eq _ _ unparenthesized,
        globless] at globs
      cases globs
  have expands := @fullExpandWithSplitting_of_standsForItself _ _ world _ _ _
    parsed braces letters stands
  have arguments : literalArguments (name.map Letter.unquoted) = [name] := by
    have shown : name.map Letter.unquoted ≠ [] := by simpa using nonempty
    rw [literalArguments, if_neg shown, List.flatMap_map]
    exact congrArg (fun text => [text]) (List.flatMap_singleton' name)
  rw [arguments] at expands
  exact expands

/-! ## Simple commands -/

/-- What the walk found in a simple command. -/
structure Proved (shell : Shell) (command : SimpleCommand) : Prop where
  provable : commandName command ∈ provableBuiltins
  items_eq : command.items =
    .word ⟨commandName command⟩ ::
      (argumentWords command).map CommandPrefixOrSuffixItem.word
  noFunction : shell.funcs (commandName command) = none
  noAlias : shell.options.expandAliases = true ->
    shell.aliases (commandName command) = none
  literal : ∀ word ∈ argumentWords command, literalWord shell word = true

theorem suffix_eq_map_word
    {suffix : List CommandPrefixOrSuffixItem}
    (pure : suffix.all (pureSuffixItem shell) = true) :
    suffix = (suffix.filterMap CommandPrefixOrSuffixItem.asWord).map
        CommandPrefixOrSuffixItem.word ∧
      ∀ word, .word word ∈ suffix -> literalWord shell word = true := by
  induction suffix with
  | nil => exact ⟨rfl, by simp⟩
  | cons item suffix hypothesis =>
      obtain ⟨first, rest⟩ := Bool.and_eq_true_iff.mp pure
      obtain ⟨same, literal⟩ := hypothesis rest
      cases item with
      | word word =>
          refine ⟨congrArg (List.cons _) same, ?_⟩
          intro other member
          obtain here | later := List.mem_cons.mp member
          · obtain rfl := CommandPrefixOrSuffixItem.word.inj here
            exact first
          · exact literal other later
      | ioRedirect | assignmentWord | processSubstitution => cases first

theorem rawName_eq_some
    {word : Word}
    {name : Text}
    (raw : rawName shell word = some name) : name = word.value := by
  rw [rawName] at raw
  split at raw
  · split_ifs at raw with same
    exact (Option.some.inj raw).symm.trans same
  · cases raw

theorem proved_of_pureSimple
    {command : SimpleCommand}
    (pure : pureSimple shell command = true) : Proved shell command := by
  obtain ⟨before, wordOrName, suffix⟩ := command
  rw [pureSimple.eq_def] at pure
  dsimp only at pure
  by_cases empty : before ≠ []
  · rw [if_pos empty] at pure
    cases pure
  rw [if_neg empty] at pure
  obtain rfl := not_not.mp empty
  cases wordOrName with
  | none => cases pure
  | some word =>
      dsimp only at pure
      cases raw : rawName shell word with
      | none =>
          rw [raw] at pure
          cases pure
      | some name =>
          rw [raw] at pure
          dsimp only at pure
          split_ifs at pure with provable function shadowed
          obtain rfl := rawName_eq_some raw
          obtain ⟨same, literal⟩ := suffix_eq_map_word pure
          refine ⟨provable, ?_, ?_, ?_, ?_⟩
          · exact congrArg (List.cons (.word word)) same
          · exact Option.not_isSome_iff_eq_none.mp function
          · intro expands
            exact Option.not_isSome_iff_eq_none.mp fun defined =>
              shadowed ⟨expands, defined⟩
          · intro other member
            obtain ⟨item, itemMember, isWord⟩ := List.mem_filterMap.mp member
            cases item with
            | word word =>
                obtain rfl := Option.some.inj isWord
                exact literal word itemMember
            | ioRedirect | assignmentWord | processSubstitution => cases isWord

/-- Words after a name are its arguments. -/
theorem expandItems_words
    (words : List Word)
    {arguments : List Text}
    (named : arguments ≠ [])
    (takes : Bool) :
    shell.expandItems world (words.map CommandPrefixOrSuffixItem.word)
        arguments [] takes =
      (Evaluated.collect (fun word : Word =>
        shell.expandWord world word.value) words).andThen fun fields =>
          Evaluated.pure (arguments ++ fields, []) := by
  induction words generalizing arguments with
  | nil =>
      rw [Evaluated.collect, Evaluated.pure_andThen, List.append_nil]
      rfl
  | cons word words hypothesis =>
      rw [List.map_cons, Shell.expandItems, Evaluated.collect]
      rw [Evaluated.andThen_assoc]
      refine congrArg (Evaluated.andThen _) (funext fun fields => ?_)
      have still : arguments ++ fields ≠ [] := by simp [named]
      rw [if_neg named, hypothesis still, Evaluated.andThen_assoc]
      refine congrArg (Evaluated.andThen _) (funext fun others => ?_)
      rw [Evaluated.pure_andThen, List.append_assoc]

/-- A listed builtin that nothing shadows is what its name resolves to. -/
theorem resolve_of_provable
    {name : Text}
    (provable : name ∈ provableBuiltins)
    (noFunction : shell.funcs name = none)
    (arguments : List Text) :
    shell.resolve name arguments = .builtin name := by
  obtain ⟨registration, registered, enabled, -⟩ :=
    shell.builtins.plain name provable
  have one : shell.builtinOf name arguments = (name, some registration) := by
    rw [Shell.builtinOf]
    cases arguments with
    | nil => exact congrArg (Prod.mk name) registered
    | cons argument arguments =>
        have variant := shell.builtins.variants name provable argument
        rw [List.head?_cons, Option.bind_some, variant]
        exact congrArg (Prod.mk name) registered
  rw [Shell.resolve, one]
  dsimp only
  split_ifs with special function builtin
  · rfl
  · rw [noFunction] at function
    cases function
  · rfl
  · exact absurd ⟨registration, rfl, enabled⟩ builtin

/-- What an accepted simple command runs, by what its words expand to. -/
theorem executeSimple_of_proved
    {command : SimpleCommand}
    (proved : Proved shell command) :
    shell.executeSimple world command =
      (Evaluated.collect (fun word : Word =>
        shell.expandWord world word.value) (argumentWords command)).andThen
          fun fields =>
            (Evaluated.perform
              ((if shell.options.printCommandsAndArguments then
                [Effect.tracing] else []) ++
                [.builtin command (commandName command) fields])).andThen
              fun _ =>
                Evaluated.pure (some (.builtin (commandName command))) := by
  have unaliased : shell.expandAlias world [commandName command] =
      Evaluated.pure [commandName command] := by
    rw [Shell.expandAlias]
    cases expands : shell.options.expandAliases with
    | false => rfl
    | true =>
        rw [if_pos rfl, proved.noAlias expands]
  rw [Shell.executeSimple, proved.items_eq, Shell.expandItems,
    expandWord_of_provable proved.provable, Evaluated.pure_andThen, if_pos rfl,
    unaliased, Evaluated.pure_andThen, expandItems_words _ (by simp),
    Evaluated.andThen_assoc]
  refine congrArg (Evaluated.andThen _) (funext fun fields => ?_)
  rw [Evaluated.pure_andThen]
  change (Evaluated.perform _).andThen _ = _
  rw [resolve_of_provable proved.provable proved.noFunction]
  rfl

/-- A bare command runs its builtin on the literal texts, and that is all. -/
theorem executeSimple_of_bare
    {command : SimpleCommand}
    (proved : Proved shell command)
    (bare : Bare shell command) :
    shell.executeSimple world command =
      { effects := [.builtin command (commandName command)
          (literalTextsOf shell command)]
        result := some (some (.builtin (commandName command))) } := by
  obtain ⟨untraced, stand⟩ := bare
  rw [executeSimple_of_proved proved,
    Evaluated.collect_eq_pure (fun word : Word =>
      literalArguments (lettersOf shell word)) fun word member =>
        expandWord_of_standsForItself (proved.literal word member)
          (stand word member),
    Evaluated.pure_andThen, untraced]
  rfl

/-! ## Commands that are not bare -/

/-- Splitting only loses text. -/
theorem length_kept_le (letters : List Letter) :
    ((kept letters).flatMap Letter.text).length ≤
        (letters.flatMap Letter.text).length ∧
      (((kept letters).flatMap Letter.text).length =
          (letters.flatMap Letter.text).length ->
        kept letters = letters) := by
  induction letters with
  | nil => exact ⟨le_rfl, fun _ => rfl⟩
  | cons letter letters hypothesis =>
      obtain ⟨shorter, same⟩ := hypothesis
      cases blank : letter.isBlank with
      | true =>
          have dropped : kept (letter :: letters) = kept letters := by
            simp [kept, blank]
          have some : 0 < letter.text.length := by
            cases letter with
            | unquoted char => exact Nat.one_pos
            | quoted text => cases blank
          rw [dropped, List.flatMap_cons, List.length_append]
          exact ⟨by omega, fun equal => by omega⟩
      | false =>
          have retained : kept (letter :: letters) = letter :: kept letters := by
            simp [kept, blank]
          rw [retained, List.flatMap_cons, List.flatMap_cons,
            List.length_append, List.length_append]
          refine ⟨by omega, fun equal => ?_⟩
          rw [same (by omega)]

/-- Words split into as much text as was written are split nowhere. -/
theorem kept_of_length_eq
    {words : List (List Letter)}
    (equal : (words.flatMap fun letters =>
        (kept letters).flatMap Letter.text).length =
      (words.flatMap fun letters => letters.flatMap Letter.text).length) :
    ∀ letters ∈ words, kept letters = letters := by
  have shorter : ∀ words : List (List Letter),
      (words.flatMap fun letters =>
          (kept letters).flatMap Letter.text).length ≤
        (words.flatMap fun letters =>
          letters.flatMap Letter.text).length := by
    intro words
    induction words with
    | nil => exact le_rfl
    | cons letters words hypothesis =>
        have here := (length_kept_le letters).1
        rw [List.flatMap_cons, List.flatMap_cons, List.length_append,
          List.length_append]
        omega
  induction words with
  | nil => simp
  | cons letters words hypothesis =>
      obtain ⟨here, same⟩ := length_kept_le letters
      have rest := shorter words
      rw [List.flatMap_cons, List.flatMap_cons, List.length_append,
        List.length_append] at equal
      intro other member
      obtain rfl | later := List.mem_cons.mp member
      · exact same (by omega)
      · exact hypothesis (by omega) other later

theorem flatten_literalArguments (letters : List Letter) :
    (literalArguments letters).flatten = letters.flatMap Letter.text := by
  rw [literalArguments]
  split_ifs with empty
  · rw [empty]
    rfl
  · exact List.append_nil _

/-- Words that come to their literal texts with nothing done stand for
themselves. -/
theorem standForItself_of_quiet
    {words : List Word}
    (literal : ∀ word ∈ words, literalWord shell word = true)
    (quiet : (Evaluated.collect (fun word : Word =>
      shell.expandWord world word.value) words).effects = [])
    (same : (Evaluated.collect (fun word : Word =>
        shell.expandWord world word.value) words).result =
      some (words.flatMap fun word =>
        literalArguments (lettersOf shell word))) :
    ∀ word ∈ words,
      StandsForItself shell.parser shell.options (lettersOf shell word) := by
  have each : ∀ word ∈ words,
      (shell.expandWord world word.value).effects = [] ->
        shell.expandWord world word.value =
          Evaluated.pure ((shell.expandWord world word.value).result.getD
            []) := by
    intro word member wordQuiet
    obtain ⟨fields, expands, -⟩ :=
      expandWord_of_quiet (literal word member) wordQuiet
    rw [expands]
    rfl
  have all := Evaluated.collect_of_quiet _ each quiet
  have found : ∀ word ∈ words,
      ((shell.expandWord world word.value).result.getD []).flatten =
          (kept (lettersOf shell word)).flatMap Letter.text ∧
        (kept (lettersOf shell word) = lettersOf shell word ->
          StandsForItself shell.parser shell.options
            (lettersOf shell word)) := by
    intro word member
    have wordQuiet : (shell.expandWord world word.value).effects = [] := by
      rw [all word member]
      rfl
    obtain ⟨fields, expands, text, stands⟩ :=
      expandWord_of_quiet (literal word member) wordQuiet
    rw [expands]
    exact ⟨text, stands⟩
  rw [Evaluated.collect_eq_pure _ all] at same
  have texts := congrArg (fun fields => (List.flatten fields).length)
    (Option.some.inj same)
  have left : (words.flatMap fun word =>
      (shell.expandWord world word.value).result.getD []).flatten =
      (words.map (lettersOf shell)).flatMap fun letters =>
        (kept letters).flatMap Letter.text := by
    rw [List.flatten_eq_flatMap, List.flatMap_assoc, List.flatMap_map]
    refine List.flatMap_congr fun word member => ?_
    rw [← (found word member).1, List.flatten_eq_flatMap]
  have right : (words.flatMap fun word =>
      literalArguments (lettersOf shell word)).flatten =
      (words.map (lettersOf shell)).flatMap fun letters =>
        letters.flatMap Letter.text := by
    rw [List.flatten_eq_flatMap, List.flatMap_assoc, List.flatMap_map]
    refine List.flatMap_congr fun word _ => ?_
    rw [← flatten_literalArguments, List.flatten_eq_flatMap]
  rw [left, right] at texts
  have keeps := kept_of_length_eq texts
  intro word member
  exact (found word member).2 (keeps _ (List.mem_map_of_mem member))

/-- The only thing that can be done for accepted words is to match patterns. -/
theorem patternMatch_of_mem_effects
    {words : List Word}
    (literal : ∀ word ∈ words, literalWord shell word = true)
    {effect : Effect}
    (member : effect ∈ (Evaluated.collect (fun word : Word =>
      shell.expandWord world word.value) words).effects) :
    ∃ text, effect = .patternMatch text := by
  refine Evaluated.forall_effects_collect (fun effect : Effect =>
    ∃ text, effect = .patternMatch text) ?_ effect member
  intro word wordMember
  obtain ⟨pieces, parsed, braces, letters⟩ :=
    literalWord_spec (literal word wordMember)
  exact patternMatch_of_mem_fullExpandWithSplitting parsed braces letters

/-- An accepted command that only runs its builtin, on the literal texts, is
bare. -/
theorem bare_of_executeSimple
    {command : SimpleCommand}
    (proved : Proved shell command)
    (only : ∀ effect ∈ (shell.executeSimple world command).effects,
      ∃ source, effect = .builtin source (commandName source)
        (literalTextsOf shell source)) :
    Bare shell command := by
  rw [executeSimple_of_proved proved] at only
  have quiet : (Evaluated.collect (fun word : Word =>
      shell.expandWord world word.value)
        (argumentWords command)).effects = [] := by
    rw [List.eq_nil_iff_forall_not_mem]
    intro effect member
    obtain ⟨text, isMatch⟩ :=
      patternMatch_of_mem_effects proved.literal member
    obtain ⟨source, builtin⟩ := only effect
      (Evaluated.mem_effects_andThen member)
    rw [isMatch] at builtin
    cases builtin
  have each : ∀ word ∈ argumentWords command,
      (shell.expandWord world word.value).effects = [] ->
        shell.expandWord world word.value =
          Evaluated.pure ((shell.expandWord world word.value).result.getD
            []) := by
    intro word member wordQuiet
    obtain ⟨fields, expands, -⟩ :=
      expandWord_of_quiet (proved.literal word member) wordQuiet
    rw [expands]
    rfl
  have collected := Evaluated.collect_eq_pure _
    (Evaluated.collect_of_quiet _ each quiet)
  rw [collected, Evaluated.pure_andThen] at only
  have untraced : shell.options.printCommandsAndArguments = false := by
    rw [Bool.eq_false_iff]
    intro traced
    obtain ⟨source, tracing⟩ := only .tracing (by
      rw [traced]
      exact List.mem_cons_self)
    cases tracing
  refine ⟨untraced, standForItself_of_quiet proved.literal quiet ?_⟩
  rw [collected]
  obtain ⟨source, runs⟩ := only _ (List.mem_append_left _
    (List.mem_append_right _ List.mem_cons_self))
  injection runs with same _ fields
  rw [fields, ← same]
  rfl

end Shellmux
end Marsh
