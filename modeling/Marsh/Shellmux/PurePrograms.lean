import Marsh.Shellmux.PureCommands

/-!
# What accepted programs perform

Every part of an accepted program that runs is accepted too.  So evaluating the
program performs nothing but the builtins of its simple commands exactly when
each of them is bare.
-/

namespace Marsh
namespace Shellmux

open Library Brush

variable {shell : Shell}

/-! ## Accepted parts -/

/-- The walk accepts a part of a program, which runs if it is a command. -/
def Accepted (shell : Shell) : Fragment -> Prop
  | .program program => pureProgram shell program = true
  | .list list => pureList shell list = true
  | .andOr list => pureAndOr shell list = true
  | .pipeline pipeline => purePipeline shell pipeline = true
  | .command command => pureCommand shell command = true
  | .compound command =>
      pureCompound shell command = true ∧
        shell.options.doNotExecuteCommands = false
  | .simple command =>
      pureSimple shell command = true ∧
        shell.options.doNotExecuteCommands = false

theorem pureItems_mem
    {items : List CompoundListItem}
    {andOr : AndOrList}
    {separator : SeparatorOperator}
    (pure : pureItems shell items = true)
    (member : .mk andOr separator ∈ items) :
    separator = .sequence ∧ pureAndOr shell andOr = true := by
  induction items with
  | nil => cases member
  | cons item items hypothesis =>
      obtain ⟨list, between⟩ := item
      obtain ⟨first, rest⟩ := Bool.and_eq_true_iff.mp pure
      obtain ⟨sequential, accepted⟩ := Bool.and_eq_true_iff.mp first
      obtain same | later := List.mem_cons.mp member
      · obtain ⟨rfl, rfl⟩ := CompoundListItem.mk.inj same
        exact ⟨of_decide_eq_true sequential, accepted⟩
      · exact hypothesis rest later

theorem pureBranches_mem
    {branches : List AndOr}
    {branch : AndOr}
    (pure : pureBranches shell branches = true)
    (member : branch ∈ branches) :
    purePipeline shell branch.pipeline = true := by
  induction branches with
  | nil => cases member
  | cons first branches hypothesis =>
      have both : purePipeline shell first.pipeline = true ∧
          pureBranches shell branches = true := by
        cases first with
        | and pipeline => exact Bool.and_eq_true_iff.mp pure
        | or pipeline => exact Bool.and_eq_true_iff.mp pure
      obtain rfl | later := List.mem_cons.mp member
      · exact both.1
      · exact hypothesis both.2 later

theorem pureCommands_mem
    {commands : List Command}
    {command : Command}
    (pure : pureCommands shell commands = true)
    (member : command ∈ commands) :
    pureCommand shell command = true := by
  induction commands with
  | nil => cases member
  | cons first commands hypothesis =>
      obtain ⟨here, rest⟩ := Bool.and_eq_true_iff.mp pure
      obtain rfl | later := List.mem_cons.mp member
      · exact here
      · exact hypothesis rest later

/-- What an accepted part runs is accepted, and contains no other command;
unless the part is a command that is not bare. -/
theorem accepted_of_runs
    {node part : Fragment}
    (runs : Runs shell node part)
    (accepted : Accepted shell node)
    (bare : ∀ command, node = .simple command -> Bare shell command) :
    Accepted shell part ∧
      ∀ command, Contains part command -> Contains node command := by
  cases runs with
  | complete member =>
      exact ⟨List.all_eq_true.mp accepted _ member,
        fun command inside => .program member inside⟩
  | @item list andOr separator member =>
      obtain ⟨items⟩ := list
      exact ⟨(pureItems_mem accepted member).2,
        fun command inside => .list member inside⟩
  | first =>
      exact ⟨(Bool.and_eq_true_iff.mp accepted).1,
        fun command inside => .first inside⟩
  | additional member =>
      exact ⟨pureBranches_mem (Bool.and_eq_true_iff.mp accepted).2 member,
        fun command inside => .additional member inside⟩
  | stage member =>
      exact ⟨pureCommands_mem (Bool.and_eq_true_iff.mp accepted).2 member,
        fun command inside => .stage member inside⟩
  | simple executes =>
      refine ⟨⟨accepted, executes⟩, fun command inside => ?_⟩
      cases inside
      exact .command
  | compound executes =>
      exact ⟨⟨(Bool.and_eq_true_iff.mp accepted).2, executes⟩,
        fun command inside => .compound inside⟩
  | braceGroup => exact ⟨accepted.1, fun command inside => .braceGroup inside⟩
  | subshell => exact ⟨accepted.1, fun command inside => .subshell inside⟩
  | arithmeticForBody | forBody | caseBody | ifCondition | ifBody
  | elseCondition | elseBody | whileCondition | whileBody | untilCondition
  | untilBody | coprocess => exact absurd accepted.1 Bool.false_ne_true
  | call result =>
      rw [executeSimple_of_bare (proved_of_pureSimple accepted.1)
        (bare _ rfl)] at result
      cases result
  | substitution member =>
      rw [executeSimple_of_bare (proved_of_pureSimple accepted.1)
        (bare _ rfl)] at member
      cases List.mem_singleton.mp member
  | processSubstitution member =>
      rw [(proved_of_pureSimple accepted.1).items_eq] at member
      simp at member

/-- An accepted part does something itself only as a simple command. -/
theorem exists_simple_of_does
    {node : Fragment}
    {effect : Effect}
    (does : Does shell node effect)
    (accepted : Accepted shell node)
    (bare : ∀ command, node = .simple command -> Bare shell command) :
    ∃ command, node = .simple command ∧
      effect = .builtin command (commandName command)
        (literalTextsOf shell command) := by
  cases does with
  | @background list andOr member =>
      obtain ⟨items⟩ := list
      cases (pureItems_mem accepted member).1
  | timing => exact absurd accepted Bool.false_ne_true
  | redirection => exact absurd accepted Bool.false_ne_true
  | definition => exact absurd accepted Bool.false_ne_true
  | arithmetic | arithmeticFor | forWords | forTracing | forVariable
  | caseTracing | caseWord | casePattern | coprocess | test =>
      exact absurd accepted.1 Bool.false_ne_true
  | simple member =>
      rw [executeSimple_of_bare (proved_of_pureSimple accepted.1)
        (bare _ rfl)] at member
      exact ⟨_, rfl, List.mem_singleton.mp member⟩
  | callRedirection result =>
      rw [executeSimple_of_bare (proved_of_pureSimple accepted.1)
        (bare _ rfl)] at result
      cases result

/-- A simple command in an accepted part comes to run. -/
theorem runs_of_contains
    {node : Fragment}
    {command : SimpleCommand}
    (inside : Contains node command)
    (accepted : Accepted shell node)
    (executes : shell.options.doNotExecuteCommands = false) :
    Relation.ReflTransGen (Runs shell) node (.simple command) ∧
      pureSimple shell command = true := by
  have step : ∀ {node part : Fragment}, Runs shell node part ->
      (Relation.ReflTransGen (Runs shell) part (.simple command) ∧
        pureSimple shell command = true) ->
      Relation.ReflTransGen (Runs shell) node (.simple command) ∧
        pureSimple shell command = true :=
    fun runs rest => ⟨.head runs rest.1, rest.2⟩
  induction inside with
  | simple => exact ⟨.refl, accepted.1⟩
  | program member _ hypothesis =>
      exact step (.complete member) (hypothesis
        (List.all_eq_true.mp accepted _ member) step)
  | @list list andOr separator command member _ hypothesis =>
      obtain ⟨items⟩ := list
      exact step (.item member) (hypothesis
        (pureItems_mem accepted member).2 step)
  | first _ hypothesis =>
      exact step .first (hypothesis (Bool.and_eq_true_iff.mp accepted).1 step)
  | additional member _ hypothesis =>
      exact step (.additional member) (hypothesis
        (pureBranches_mem (Bool.and_eq_true_iff.mp accepted).2 member) step)
  | stage member _ hypothesis =>
      exact step (.stage member) (hypothesis
        (pureCommands_mem (Bool.and_eq_true_iff.mp accepted).2 member) step)
  | command => exact ⟨.single (.simple executes), accepted⟩
  | compound _ hypothesis =>
      exact step (.compound executes) (hypothesis
        ⟨(Bool.and_eq_true_iff.mp accepted).2, executes⟩ step)
  | braceGroup _ hypothesis =>
      exact step .braceGroup (hypothesis accepted.1 step)
  | subshell _ hypothesis =>
      exact step .subshell (hypothesis accepted.1 step)

/-! ## Programs -/

theorem pureProgram_of_staticallyPure
    {cmd : Text}
    {program : Program}
    (parsed : shell.parser.parseProgram shell.options.parserOptions cmd =
      some program)
    (pure : staticallyPure shell cmd = true) :
    pureProgram shell program = true := by
  rw [staticallyPure, parsed] at pure
  exact pure

/-- Where every command is bare, what runs is accepted and part of the
program. -/
theorem accepted_of_reachable
    {program : Program}
    {part : Fragment}
    (accepted : Accepted shell (.program program))
    (bare : shell.options.doNotExecuteCommands = false ->
      ∀ command, Contains (.program program) command -> Bare shell command)
    (reached : Relation.ReflTransGen (Runs shell) (.program program) part) :
    Accepted shell part ∧ ∀ command, Contains part command ->
      Contains (.program program) command := by
  induction reached with
  | refl => exact ⟨accepted, fun _ inside => inside⟩
  | tail _ runs hypothesis =>
      obtain ⟨before, inside⟩ := hypothesis
      obtain ⟨after, contains⟩ := accepted_of_runs runs before (by
        rintro command rfl
        exact bare before.2 command (inside command .simple))
      exact ⟨after, fun command contained =>
        inside command (contains command contained)⟩

/-- What runs when nothing is known of the surroundings. -/
def quietWorld : World where
  fields _ := []
  paths _ := none
  redirects _ := true
  descriptorPath := []

/-- Evaluating a program that the walk accepts performs nothing but the listed
builtins of its commands, on their literal arguments, exactly when commands are
not executed at all, or every command of it is bare. -/
theorem performs_harmless_iff
    {cmd : Text}
    {program : Program}
    (parsed : shell.parser.parseProgram shell.options.parserOptions cmd =
      some program)
    (pure : staticallyPure shell cmd = true) :
    (∀ effect, Performs shell (.program program) effect ->
        Harmless shell program effect) ↔
      (shell.options.doNotExecuteCommands = false ->
        ∀ command, Contains (.program program) command ->
          Bare shell command) := by
  have accepted : Accepted shell (.program program) :=
    pureProgram_of_staticallyPure parsed pure
  constructor
  · intro harmless executes command inside
    obtain ⟨runs, isPure⟩ := runs_of_contains inside accepted executes
    refine @bare_of_executeSimple shell quietWorld command
      (proved_of_pureSimple isPure) fun effect member => ?_
    obtain ⟨source, -, -, builtin⟩ := harmless effect
      ⟨.simple command, runs, .simple member⟩
    exact ⟨source, builtin⟩
  · rintro bare effect ⟨part, reached, does⟩
    obtain ⟨isAccepted, inside⟩ := accepted_of_reachable accepted bare reached
    obtain ⟨command, rfl, rfl⟩ := exists_simple_of_does does isAccepted (by
      rintro command rfl
      exact bare isAccepted.2 command (inside command .simple))
    exact ⟨command, inside command .simple,
      (proved_of_pureSimple isAccepted.1).provable, rfl⟩

/-! ## A bracket expression across pieces -/

/-- A parser of single simple commands: words between blanks, a dollar sign that
opens no expansion a piece of its own, nothing quoted. -/
def lineParser : Parser where
  parseProgram _ cmd :=
    match cmd.splitOn ' ' with
    | [] => none
    | name :: arguments => some
        { completeCommands := [.mk [.mk (.mk (.mk none false
            [.simple (.mk [] (some (Word.mk name)) (arguments.map fun word =>
              .word (Word.mk word)))]) []) .sequence]] }
  parseWord _ word :=
    if NothingToExpand word then
      some (if word = [] then [] else [.text word])
    else if word = ['[', 'a', '$', ']'] then
      some [.text ['[', 'a'], .text ['$'], .text [']']]
    else none
  expandBraces _ word := word
  hasGlobMetacharacters _ text := Glob.hasGlob text
  ansiCText text := text
  tokenizeAliasBody _ text := [text]
  parseWord_plain _ _ plain := if_pos plain
  expandBraces_quoted _ _ _ _ _ := rfl
  hasGlobMetacharacters_eq _ _ _ := rfl

/-- The listed builtins, all of them enabled. -/
def plainRegistry : Registry where
  get name :=
    if name ∈ plainBuiltins then some (Registration.mk false false false)
    else none
  plain name member := ⟨_, if_pos member, rfl, rfl⟩
  variants name member argument := by
    refine if_neg fun variant => ?_
    have blank : ∀ name ∈ plainBuiltins, ' ' ∉ name := by decide +kernel
    exact blank _ variant (by simp)

/-- A shell with the options that it starts with, no functions and no
aliases. -/
def plainShell : Shell where
  parser := lineParser
  options :=
    { expandAliases := false
      extendedGlobbing := true
      posixMode := false
      shMode := false
      performBraceExpansion := true
      disableFilenameGlobbing := false
      expandNonMatchingPatternsToNull := false
      failExpansionOnGlobsWithoutMatch := false
      printCommandsAndArguments := false
      doNotExecuteCommands := false }
  builtins := plainRegistry
  funcs _ := none
  aliases _ := none

/-- The program of a command line that is one simple command. -/
def lineProgram (command : SimpleCommand) : Program where
  completeCommands :=
    [.mk [.mk (.mk (.mk none false [.simple command]) []) .sequence]]

/-- `echo` with the given arguments. -/
def echoCommand (arguments : List Text) : SimpleCommand :=
  .mk [] (some (Word.mk ['e', 'c', 'h', 'o']))
    (arguments.map fun word => .word (Word.mk word))

theorem eq_of_contains_line
    {command inside : SimpleCommand}
    (contains : Contains (.program (lineProgram command)) inside) :
    inside = command := by
  cases contains with
  | program member inside =>
  cases List.mem_singleton.mp member
  cases inside with
  | list member inside =>
  cases List.mem_singleton.mp member
  cases inside with
  | additional member => cases member
  | first inside =>
  cases inside with
  | stage member inside =>
  cases List.mem_singleton.mp member
  cases inside
  rfl

theorem runs_line
    {command : SimpleCommand}
    (executes : shell.options.doNotExecuteCommands = false) :
    Relation.ReflTransGen (Runs shell) (.program (lineProgram command))
      (.simple command) :=
  .tail (.tail (.tail (.tail (.single (.complete (.head _))) (.item (.head _)))
    .first) (.stage (.head _))) (.simple executes)

/-- A literal argument is nothing but an argument. -/
theorem performs_harmless_echo :
    staticallyPure plainShell ['e', 'c', 'h', 'o', ' ', 'a'] = true ∧
      ∀ effect, Performs plainShell
          (.program (lineProgram (echoCommand [['a']]))) effect ->
        Harmless plainShell (lineProgram (echoCommand [['a']])) effect := by
  have pure : staticallyPure plainShell ['e', 'c', 'h', 'o', ' ', 'a'] = true := by
    decide +kernel
  refine ⟨pure, (@performs_harmless_iff plainShell
    ['e', 'c', 'h', 'o', ' ', 'a'] _ (by rfl) pure).mpr
    fun _ command contains => ?_⟩
  rw [eq_of_contains_line contains]
  refine ⟨rfl, fun word member => ?_⟩
  rw [List.mem_singleton.mp member]
  have letters :
      lettersOf plainShell (Word.mk ['a']) = [.unquoted 'a'] := by rfl
  rw [letters]
  constructor
  · decide +kernel
  · intro run inRuns
    rw [List.mem_singleton.mp inRuns]
    rintro ⟨-, globs⟩
    cases globs

/-- A bracket expression whose pieces hold no pattern alone is accepted, and is
matched against the names of files. -/
theorem performs_patternMatch_across_pieces :
    plainShell.parser.parseProgram plainShell.options.parserOptions
        ['e', 'c', 'h', 'o', ' ', '[', 'a', '$', ']'] =
        some (lineProgram (echoCommand [['[', 'a', '$', ']']])) ∧
      staticallyPure plainShell
        ['e', 'c', 'h', 'o', ' ', '[', 'a', '$', ']'] = true ∧
      Performs plainShell
        (.program (lineProgram (echoCommand [['[', 'a', '$', ']']])))
        (.patternMatch ['[', 'a', '$', ']']) ∧
      ¬ Harmless plainShell (lineProgram (echoCommand [['[', 'a', '$', ']']]))
        (.patternMatch ['[', 'a', '$', ']']) := by
  refine ⟨rfl, by decide +kernel, ?_, ?_⟩
  · have matched : .patternMatch ['[', 'a', '$', ']'] ∈
        (plainShell.executeSimple quietWorld
          (echoCommand [['[', 'a', '$', ']']])).effects := by
      exact .head _
    exact ⟨_, runs_line rfl, .simple matched⟩
  · rintro ⟨source, -, -, builtin⟩
    cases builtin

end Shellmux
end Marsh
