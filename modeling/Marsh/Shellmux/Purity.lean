import Marsh.Brush.Evaluation
import Marsh.Brush.Literals

/-!
# Static purity

A command line whose syntax shows that it only runs a few builtins on literal
arguments needs no snapshot.  The walk of its tree, what evaluating an accepted
tree performs, and exactly when that is no more than the walk promises.
-/

namespace Marsh
namespace Shellmux

open Library Brush

/-! ## The walk -/

/-- The builtin command names a static proof accepts. -/
def provableBuiltins : List Text :=
  [":", "true", "false", "echo", "pwd"].map String.toList

/-- The characters a static proof refuses in unquoted text. -/
def unsafeRaw : Text := ['{', '}', '~', '(', ')']

section Walk

variable (shell : Shell)

/-- Whether unquoted text expands to itself. -/
def plainText (text : Text) : Bool :=
  !shell.parser.hasGlobMetacharacters shell.options.extendedGlobbing text &&
    !text.any fun char => char ∈ unsafeRaw

mutual

/-- Whether a piece of a word is a literal one. -/
def literalPiece : WordPiece -> Bool
  | .text text => plainText shell text
  | .singleQuotedText _ | .ansiCQuotedText _ | .escapeSequence _ => true
  | .doubleQuotedSequence pieces => literalPieces pieces
  | .gettextDoubleQuotedSequence _ | .tildeExpansion _ | .parameterExpansion _
  | .commandSubstitution _ | .backquotedCommandSubstitution _
  | .arithmeticExpression _ => false

/-- Whether every piece of a parsed word is a literal one. -/
def literalPieces : List WordPiece -> Bool
  | [] => true
  | piece :: pieces => literalPiece piece && literalPieces pieces

end

/-- The pieces of a word, if it can be parsed. -/
def piecesOf (word : Word) : Option (List WordPiece) :=
  shell.parser.parseWord shell.options.parserOptions word.value

/-- Whether an argument word is made only of literal pieces. -/
def literalWord (word : Word) : Bool :=
  match piecesOf shell word with
  | none => false
  | some pieces => literalPieces shell pieces

/-- The command name when it is one raw, unquoted literal. -/
def rawName (word : Word) : Option Text :=
  match piecesOf shell word with
  | some [.text text] => if text = word.value then some text else none
  | _ => none

/-- Whether an item after a command's name is a literal word. -/
def pureSuffixItem : CommandPrefixOrSuffixItem -> Bool
  | .word word => literalWord shell word
  | .ioRedirect _ | .assignmentWord _ _ | .processSubstitution _ _ => false

/-- Whether a simple command is provable. -/
def pureSimple : SimpleCommand -> Bool
  | .mk before wordOrName suffix =>
      if before ≠ [] then false
      else
        match wordOrName with
        | none => false
        | some word =>
            match rawName shell word with
            | none => false
            | some name =>
                if name ∉ provableBuiltins then false
                else if (shell.funcs name).isSome then false
                else if shell.options.expandAliases ∧
                    (shell.aliases name).isSome then false
                else suffix.all (pureSuffixItem shell)

mutual

/-- Whether every item of a list is sequential and provable. -/
def pureList : CompoundList -> Bool
  | .mk items => pureItems items

/-- The items of a list. -/
def pureItems : List CompoundListItem -> Bool
  | [] => true
  | .mk list separator :: items =>
      separator = .sequence && pureAndOr list && pureItems items

/-- Whether every branch of an and-or list is provable. -/
def pureAndOr : AndOrList -> Bool
  | .mk first additional => purePipeline first && pureBranches additional

/-- The branches of an and-or list after its first. -/
def pureBranches : List AndOr -> Bool
  | [] => true
  | .and pipeline :: branches | .or pipeline :: branches =>
      purePipeline pipeline && pureBranches branches

/-- Whether a pipeline is provable. -/
def purePipeline : Pipeline -> Bool
  | .mk timing bang seq => timing.isNone && !bang && pureCommands seq

/-- The stages of a pipeline. -/
def pureCommands : List Command -> Bool
  | [] => true
  | command :: commands => pureCommand command && pureCommands commands

/-- Whether one command is provable. -/
def pureCommand : Command -> Bool
  | .simple command => pureSimple shell command
  | .compound command redirects => redirects.isNone && pureCompound command
  | .function _ _ _ => false

/-- Whether a compound command is a provable group. -/
def pureCompound : CompoundCommand -> Bool
  | .braceGroup list | .subshell list => pureList list
  | .arithmetic _ | .arithmeticForClause _ _ | .forClause _ _ _
  | .caseClause _ _ | .ifClause _ _ _ | .whileClause _ _ | .untilClause _ _
  | .coprocess _ | .extendedTest => false

end

/-- Whether every complete command of a program is provable. -/
def pureProgram (program : Program) : Bool :=
  program.completeCommands.all (pureList shell)

/-- Whether a command's own syntax proves that it requests no capability and
writes nothing. -/
def staticallyPure (cmd : Text) : Bool :=
  match shell.parser.parseProgram shell.options.parserOptions cmd with
  | none => false
  | some program => pureProgram shell program

end Walk

/-! ## What the walk promises -/

/-- A simple command stands in a part of a program, outside every construct that
is no group. -/
inductive Contains : Fragment -> SimpleCommand -> Prop
  | simple {command : SimpleCommand} : Contains (.simple command) command
  | program {program : Program} {list : CompoundList}
      {command : SimpleCommand} :
      list ∈ program.completeCommands -> Contains (.list list) command ->
        Contains (.program program) command
  | list {list : CompoundList} {andOr : AndOrList}
      {separator : SeparatorOperator} {command : SimpleCommand} :
      .mk andOr separator ∈ list.items -> Contains (.andOr andOr) command ->
        Contains (.list list) command
  | first {first : Pipeline} {additional : List AndOr}
      {command : SimpleCommand} :
      Contains (.pipeline first) command ->
        Contains (.andOr (.mk first additional)) command
  | additional {first : Pipeline} {additional : List AndOr} {branch : AndOr}
      {command : SimpleCommand} :
      branch ∈ additional -> Contains (.pipeline branch.pipeline) command ->
        Contains (.andOr (.mk first additional)) command
  | stage {timing : Option PipelineTimed} {bang : Bool} {seq : List Command}
      {stage : Command} {command : SimpleCommand} :
      stage ∈ seq -> Contains (.command stage) command ->
        Contains (.pipeline (.mk timing bang seq)) command
  | command {command : SimpleCommand} :
      Contains (.command (.simple command)) command
  | compound {compound : CompoundCommand}
      {redirects : Option (List IoRedirect)} {command : SimpleCommand} :
      Contains (.compound compound) command ->
        Contains (.command (.compound compound redirects)) command
  | braceGroup {list : CompoundList} {command : SimpleCommand} :
      Contains (.list list) command ->
        Contains (.compound (.braceGroup list)) command
  | subshell {list : CompoundList} {command : SimpleCommand} :
      Contains (.list list) command ->
        Contains (.compound (.subshell list)) command

/-- The name of a simple command, as it was written. -/
def commandName : SimpleCommand -> Text
  | .mk _ wordOrName _ => (wordOrName.map Word.value).getD []

/-- The words after a simple command's name. -/
def argumentWords : SimpleCommand -> List Word
  | .mk _ _ suffix => suffix.filterMap CommandPrefixOrSuffixItem.asWord

section Promise

variable (shell : Shell)

/-- The letters of a literal word. -/
def lettersOf (word : Word) : List Letter :=
  (((piecesOf shell word).bind (wordLetters shell.parser)).getD [])

/-- The literal texts of a simple command's arguments. -/
def literalTextsOf (command : SimpleCommand) : List Text :=
  (argumentWords command).flatMap fun word =>
    literalArguments (lettersOf shell word)

/-- One of the listed builtins, for a command of the program, with the literal
texts of the arguments written there. -/
def Harmless (program : Program) (effect : Effect) : Prop :=
  ∃ source, Contains (.program program) source ∧
    commandName source ∈ provableBuiltins ∧
    effect = .builtin source (commandName source)
      (literalTextsOf shell source)

/-- Nothing but the builtin itself happens for a simple command: no tracing, and
every argument word stands for itself. -/
def Bare (command : SimpleCommand) : Prop :=
  shell.options.printCommandsAndArguments = false ∧
    ∀ word ∈ argumentWords command,
      StandsForItself shell.parser shell.options (lettersOf shell word)

end Promise
end Shellmux
end Marsh
