import Mathlib.Logic.Relation
import Marsh.Brush.Words

/-!
# Evaluation of programs

What evaluating a program may do: which parts of it may come to run, on some
branch, and what running each part does.  A simple command's words are expanded
first; then aliases, functions and builtins are looked up in this order.
-/

namespace Marsh
namespace Brush

open Library

/-! ## The shell -/

/-- How a builtin is registered. -/
structure Registration where
  disabled : Bool
  specialBuiltin : Bool
  declarationBuiltin : Bool
  deriving DecidableEq, Repr

/-- The builtins with no variant that takes their first argument in its name. -/
def plainBuiltins : List Text :=
  [":", "true", "false", "echo", "pwd"].map String.toList

/-- The builtins a shell is built with. -/
structure Registry where
  get : Text -> Option Registration
  plain : ∀ name ∈ plainBuiltins, ∃ registration,
    get name = some registration ∧ registration.disabled = false ∧
      registration.declarationBuiltin = false
  variants : ∀ name ∈ plainBuiltins, ∀ argument,
    get (name ++ ' ' :: argument) = none

/-- A shell, by what its evaluation of a program depends on. -/
structure Shell where
  parser : Parser
  options : RuntimeOptions
  builtins : Registry
  funcs : Text -> Option (CompoundCommand × List IoRedirect)
  aliases : Text -> Option Text

/-! ## Simple commands -/

/-- What a command name resolves to. -/
inductive Resolution
  | builtin (name : Text)
  | function (name : Text)
  | external (name : Text)
  deriving DecidableEq, Repr

namespace Shell

variable (shell : Shell)

/-- The builtin a command line names, by one token or two. -/
def builtinOf (name : Text) (arguments : List Text) :
    Text × Option Registration :=
  let variant := arguments.head?.bind fun argument =>
    (shell.builtins.get (name ++ ' ' :: argument)).map fun registration =>
      (name ++ ' ' :: argument, registration)
  match variant with
  | some (key, registration) => (key, some registration)
  | none => (name, shell.builtins.get name)

/-- What `SimpleCommand::execute` runs. -/
def resolve (name : Text) (arguments : List Text) : Resolution :=
  let (name, builtin) := shell.builtinOf name arguments
  if shell.options.posixMode ∧ ∃ registration ∈ builtin,
      registration.disabled = false ∧ registration.specialBuiltin then
    .builtin name
  else if (shell.funcs name).isSome then .function name
  else if ∃ registration ∈ builtin, registration.disabled = false then
    .builtin name
  else .external name

variable (world : World)

/-- `full_expand_and_split_word`. -/
def expandWord (word : Text) : Evaluated (List Text) :=
  fullExpandWithSplitting shell.parser world shell.options word

/-- The words a command's first word becomes when its first field is an
alias. -/
def expandAlias : List Text -> Evaluated (List Text)
  | [] => Evaluated.pure []
  | name :: fields =>
      match (if shell.options.expandAliases then shell.aliases name else none)
      with
      | none => Evaluated.pure (name :: fields)
      | some body =>
          (Evaluated.perform [.aliasExpansion name]).andThen fun _ =>
            (Evaluated.collect (shell.expandWord world)
              (shell.parser.tokenizeAliasBody shell.options.parserOptions
                body)).andThen fun pieces => Evaluated.pure (pieces ++ fields)

/-- Whether a command takes arguments that are assignments. -/
def takesAssignments (arguments : List Text) : Bool :=
  match arguments.head?.bind shell.builtins.get with
  | none => false
  | some registration =>
      !registration.disabled && registration.declarationBuiltin

/-- The arguments a simple command's items come to, and the assignments before
them, given those of the items already seen. -/
def expandItems :
    List CommandPrefixOrSuffixItem -> List Text -> List Assignment -> Bool ->
      Evaluated (List Text × List Assignment)
  | [], arguments, assignments, _ => Evaluated.pure (arguments, assignments)
  | .ioRedirect redirect :: items, arguments, assignments, takes =>
      (Evaluated.perform [.redirection redirect]).andThen fun _ =>
        if world.redirects redirect then
          expandItems items arguments assignments takes
        else { effects := [], result := none }
  | .processSubstitution _ _ :: items, arguments, assignments, takes =>
      (Evaluated.perform [.processSubstitution]).andThen fun _ =>
        expandItems items (arguments ++ [world.descriptorPath]) assignments
          takes
  | .assignmentWord assignment word :: items, arguments, assignments, takes =>
      if arguments = [] then
        expandItems items arguments (assignments ++ [assignment]) takes
      else if takes then
        (Evaluated.perform [.assignment assignment.name]).andThen fun _ =>
          expandItems items (arguments ++ [word.value]) assignments takes
      else
        (shell.expandWord world word.value).andThen fun fields =>
          expandItems items (arguments ++ fields) assignments takes
  | .word word :: items, arguments, assignments, takes =>
      (shell.expandWord world word.value).andThen fun fields =>
        if arguments = [] then
          (shell.expandAlias world fields).andThen fun arguments =>
            expandItems items arguments assignments
              (shell.takesAssignments arguments)
        else expandItems items (arguments ++ fields) assignments takes

/-- What running a resolved command is. -/
def resolutionEffect
    (source : SimpleCommand)
    (arguments : List Text) : Resolution -> Effect
  | .builtin name => .builtin source name arguments
  | .function name => .function name arguments
  | .external name => .external name arguments

/-- `execute_in_pipeline` of a simple command: what is done, and what its name
resolves to if it has one. -/
def executeSimple (command : SimpleCommand) : Evaluated (Option Resolution) :=
  (shell.expandItems world command.items [] [] false).andThen
    fun (arguments, assignments) =>
      let assigned := assignments.map fun assignment =>
        Effect.assignment assignment.name
      match arguments with
      | [] =>
          (Evaluated.perform assigned).andThen fun _ => Evaluated.pure none
      | name :: arguments =>
          let tracing :=
            if shell.options.printCommandsAndArguments then [Effect.tracing]
            else []
          let resolution := shell.resolve name arguments
          (Evaluated.perform (assigned ++ tracing ++
            [resolutionEffect command arguments resolution])).andThen fun _ =>
              Evaluated.pure (some resolution)

end Shell

/-! ## Programs -/

/-- A part of a program that is evaluated. -/
inductive Fragment
  | program (program : Program)
  | list (list : CompoundList)
  | andOr (list : AndOrList)
  | pipeline (pipeline : Pipeline)
  | command (command : Command)
  | compound (command : CompoundCommand)
  | simple (command : SimpleCommand)

/-- Evaluating the first part may evaluate the second. -/
inductive Runs (shell : Shell) : Fragment -> Fragment -> Prop
  | complete {program : Program} {list : CompoundList} :
      list ∈ program.completeCommands ->
        Runs shell (.program program) (.list list)
  | item {list : CompoundList} {andOr : AndOrList}
      {separator : SeparatorOperator} :
      .mk andOr separator ∈ list.items -> Runs shell (.list list) (.andOr andOr)
  | first {first : Pipeline} {additional : List AndOr} :
      Runs shell (.andOr (.mk first additional)) (.pipeline first)
  | additional {first : Pipeline} {additional : List AndOr} {branch : AndOr} :
      branch ∈ additional ->
        Runs shell (.andOr (.mk first additional)) (.pipeline branch.pipeline)
  | stage {timing : Option PipelineTimed} {bang : Bool} {seq : List Command}
      {command : Command} :
      command ∈ seq ->
        Runs shell (.pipeline (.mk timing bang seq)) (.command command)
  | simple {command : SimpleCommand} :
      shell.options.doNotExecuteCommands = false ->
        Runs shell (.command (.simple command)) (.simple command)
  | compound {command : CompoundCommand}
      {redirects : Option (List IoRedirect)} :
      shell.options.doNotExecuteCommands = false ->
        Runs shell (.command (.compound command redirects)) (.compound command)
  | braceGroup {list : CompoundList} :
      Runs shell (.compound (.braceGroup list)) (.list list)
  | subshell {list : CompoundList} :
      Runs shell (.compound (.subshell list)) (.list list)
  | arithmeticForBody {expressions : List Text} {body : CompoundList} :
      Runs shell (.compound (.arithmeticForClause expressions body))
        (.list body)
  | forBody {variableName : Text} {values : Option (List Word)}
      {body : CompoundList} :
      Runs shell (.compound (.forClause variableName values body)) (.list body)
  | caseBody {value : Word} {cases : List CaseItem} {patterns : List Word}
      {body : CompoundList} :
      .mk patterns (some body) ∈ cases ->
        Runs shell (.compound (.caseClause value cases)) (.list body)
  | ifCondition {condition body : CompoundList} {elses : List ElseClause} :
      Runs shell (.compound (.ifClause condition body elses)) (.list condition)
  | ifBody {condition body : CompoundList} {elses : List ElseClause} :
      Runs shell (.compound (.ifClause condition body elses)) (.list body)
  | elseCondition {condition body other otherBody : CompoundList}
      {elses : List ElseClause} :
      .mk (some other) otherBody ∈ elses ->
        Runs shell (.compound (.ifClause condition body elses)) (.list other)
  | elseBody {condition body otherBody : CompoundList}
      {other : Option CompoundList} {elses : List ElseClause} :
      .mk other otherBody ∈ elses ->
        Runs shell (.compound (.ifClause condition body elses))
          (.list otherBody)
  | whileCondition {condition body : CompoundList} :
      Runs shell (.compound (.whileClause condition body)) (.list condition)
  | whileBody {condition body : CompoundList} :
      Runs shell (.compound (.whileClause condition body)) (.list body)
  | untilCondition {condition body : CompoundList} :
      Runs shell (.compound (.untilClause condition body)) (.list condition)
  | untilBody {condition body : CompoundList} :
      Runs shell (.compound (.untilClause condition body)) (.list body)
  | coprocess {body : Command} :
      shell.options.doNotExecuteCommands = false ->
        Runs shell (.compound (.coprocess body)) (.command body)
  | call {command : SimpleCommand} {world : World} {name : Text}
      {body : CompoundCommand} {redirects : List IoRedirect} :
      (shell.executeSimple world command).result =
          some (some (.function name)) ->
        shell.funcs name = some (body, redirects) ->
          Runs shell (.simple command) (.compound body)
  | substitution {command : SimpleCommand} {world : World} {text : Text}
      {program : Program} :
      .substitution text ∈ (shell.executeSimple world command).effects ->
        shell.parser.parseProgram shell.options.parserOptions text =
            some program ->
          Runs shell (.simple command) (.program program)
  | processSubstitution {command : SimpleCommand}
      {kind : ProcessSubstitutionKind} {list : CompoundList} :
      .processSubstitution kind list ∈ command.items ->
        Runs shell (.simple command) (.list list)

/-- What evaluating a part does by itself. -/
inductive Does (shell : Shell) : Fragment -> Effect -> Prop
  | background {list : CompoundList} {andOr : AndOrList} :
      .mk andOr .async ∈ list.items -> Does shell (.list list) .background
  | timing {timing : PipelineTimed} {bang : Bool} {seq : List Command} :
      Does shell (.pipeline (.mk (some timing) bang seq)) .timing
  | redirection {command : CompoundCommand} {redirects : List IoRedirect}
      {redirect : IoRedirect} :
      shell.options.doNotExecuteCommands = false -> redirect ∈ redirects ->
        Does shell (.command (.compound command (some redirects)))
          (.redirection redirect)
  | definition {name : Word} {body : CompoundCommand}
      {redirects : Option (List IoRedirect)} :
      shell.options.doNotExecuteCommands = false ->
        Does shell (.command (.function name body redirects))
          (.definition name.value)
  | arithmetic {expression : Text} :
      Does shell (.compound (.arithmetic expression)) (.arithmetic expression)
  | arithmeticFor {expressions : List Text} {body : CompoundList}
      {expression : Text} :
      expression ∈ expressions ->
        Does shell (.compound (.arithmeticForClause expressions body))
          (.arithmetic expression)
  | forWords {variableName : Text} {values : List Word} {body : CompoundList}
      {world : World} {effect : Effect} :
      effect ∈ (Evaluated.collect
          (fun word : Word => shell.expandWord world word.value) values).effects ->
        Does shell (.compound (.forClause variableName (some values) body))
          effect
  | forTracing {variableName : Text} {values : Option (List Word)}
      {body : CompoundList} :
      shell.options.printCommandsAndArguments = true ->
        Does shell (.compound (.forClause variableName values body)) .tracing
  | forVariable {variableName : Text} {values : Option (List Word)}
      {body : CompoundList} :
      Does shell (.compound (.forClause variableName values body))
        (.assignment variableName)
  | caseTracing {value : Word} {cases : List CaseItem} :
      shell.options.printCommandsAndArguments = true ->
        Does shell (.compound (.caseClause value cases)) .tracing
  | caseWord {value : Word} {cases : List CaseItem} {world : World}
      {effect : Effect} :
      effect ∈ (basicExpand shell.parser world shell.options
          value.value).effects ->
        Does shell (.compound (.caseClause value cases)) effect
  | casePattern {value : Word} {cases : List CaseItem} {patterns : List Word}
      {body : Option CompoundList} {pattern : Word} :
      .mk patterns body ∈ cases -> pattern ∈ patterns ->
        Does shell (.compound (.caseClause value cases))
          (.patternMatch pattern.value)
  | coprocess {body : Command} :
      shell.options.doNotExecuteCommands = false ->
        Does shell (.compound (.coprocess body)) .coprocess
  | test : Does shell (.compound .extendedTest) .test
  | simple {command : SimpleCommand} {world : World} {effect : Effect} :
      effect ∈ (shell.executeSimple world command).effects ->
        Does shell (.simple command) effect
  | callRedirection {command : SimpleCommand} {world : World} {name : Text}
      {body : CompoundCommand} {redirects : List IoRedirect}
      {redirect : IoRedirect} :
      (shell.executeSimple world command).result =
          some (some (.function name)) ->
        shell.funcs name = some (body, redirects) -> redirect ∈ redirects ->
          Does shell (.simple command) (.redirection redirect)

/-- Evaluating a part may perform an effect, on some branch. -/
def Performs (shell : Shell) (node : Fragment) (effect : Effect) : Prop :=
  ∃ part, Relation.ReflTransGen (Runs shell) node part ∧
    Does shell part effect

end Brush
end Marsh
