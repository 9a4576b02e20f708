import Marsh.Library.Text

/-!
# Syntax of the shell

The tree a command line is parsed into, and the pieces a word is made of.  What
no evaluation and no check reads is left out: where a node stands in the
source, what a redirection names, the expression inside an expansion.
-/

namespace Marsh
namespace Brush

open Library

/-! ## Words -/

/-- A word as it was written. -/
structure Word where
  value : Text
  deriving DecidableEq, Repr

/-- A piece of a word. -/
inductive WordPiece
  /-- Unquoted, unescaped text. -/
  | text (text : Text)
  | singleQuotedText (text : Text)
  | ansiCQuotedText (text : Text)
  | doubleQuotedSequence (pieces : List WordPiece)
  | gettextDoubleQuotedSequence (pieces : List WordPiece)
  | tildeExpansion (expression : Text)
  | parameterExpansion (expression : Text)
  | commandSubstitution (command : Text)
  | backquotedCommandSubstitution (command : Text)
  | escapeSequence (sequence : Text)
  | arithmeticExpression (expression : Text)
  deriving Repr

/-! ## Commands -/

/-- How a command list goes on after an item. -/
inductive SeparatorOperator
  | async
  | sequence
  deriving DecidableEq, Repr

/-- How a pipeline's timing is reported. -/
inductive PipelineTimed
  | timed
  | timedWithPosixOutput
  deriving DecidableEq, Repr

/-- A redirection. -/
inductive IoRedirect
  | file
  | hereDocument
  | hereString
  | outputAndError
  deriving DecidableEq, Repr

/-- An assignment to a variable. -/
structure Assignment where
  name : Text
  deriving DecidableEq, Repr

/-- Which end of a process substitution the command reads. -/
inductive ProcessSubstitutionKind
  | read
  | write
  deriving DecidableEq, Repr

mutual

/-- A list of commands, each with the separator after it. -/
inductive CompoundList
  | mk (items : List CompoundListItem)

/-- An item of a command list. -/
inductive CompoundListItem
  | mk (list : AndOrList) (separator : SeparatorOperator)

/-- Pipelines connected by boolean operators. -/
inductive AndOrList
  | mk (first : Pipeline) (additional : List AndOr)

/-- A pipeline with the operator before it. -/
inductive AndOr
  | and (pipeline : Pipeline)
  | or (pipeline : Pipeline)

/-- A pipeline of commands. -/
inductive Pipeline
  | mk (timed : Option PipelineTimed) (bang : Bool) (seq : List Command)

/-- A command. -/
inductive Command
  | simple (command : SimpleCommand)
  | compound (command : CompoundCommand) (redirects : Option (List IoRedirect))
  | function (name : Word) (body : CompoundCommand)
      (redirects : Option (List IoRedirect))

/-- A compound command. -/
inductive CompoundCommand
  | arithmetic (expression : Text)
  | arithmeticForClause (expressions : List Text) (body : CompoundList)
  | braceGroup (list : CompoundList)
  | subshell (list : CompoundList)
  | forClause (variableName : Text) (values : Option (List Word))
      (body : CompoundList)
  | caseClause (value : Word) (cases : List CaseItem)
  | ifClause (condition body : CompoundList) (elses : List ElseClause)
  | whileClause (condition body : CompoundList)
  | untilClause (condition body : CompoundList)
  | coprocess (body : Command)
  | extendedTest

/-- A branch of a case clause. -/
inductive CaseItem
  | mk (patterns : List Word) (command : Option CompoundList)

/-- A branch after the first of an if clause. -/
inductive ElseClause
  | mk (condition : Option CompoundList) (body : CompoundList)

/-- A simple command: what stands before its name, the name, and what follows.
No items and an empty list of items are read alike. -/
inductive SimpleCommand
  | mk (before : List CommandPrefixOrSuffixItem) (wordOrName : Option Word)
      (suffix : List CommandPrefixOrSuffixItem)

/-- An item before or after a simple command's name. -/
inductive CommandPrefixOrSuffixItem
  | ioRedirect (redirect : IoRedirect)
  | word (word : Word)
  | assignmentWord (assignment : Assignment) (word : Word)
  | processSubstitution (kind : ProcessSubstitutionKind) (list : CompoundList)

end

/-- A parsed command line. -/
structure Program where
  completeCommands : List CompoundList

namespace CompoundList

/-- The items of a list. -/
def items : CompoundList -> List CompoundListItem
  | .mk items => items

end CompoundList

namespace AndOr

/-- The pipeline of a branch. -/
def pipeline : AndOr -> Pipeline
  | .and pipeline | .or pipeline => pipeline

end AndOr

namespace CommandPrefixOrSuffixItem

/-- The word an item is, if it is one. -/
def asWord : CommandPrefixOrSuffixItem -> Option Word
  | .word inner => some inner
  | .ioRedirect _ | .assignmentWord _ _ | .processSubstitution _ _ => none

end CommandPrefixOrSuffixItem

namespace SimpleCommand

/-- The items of a simple command, its name among them. -/
def items : SimpleCommand -> List CommandPrefixOrSuffixItem
  | .mk before wordOrName suffix =>
      before ++ (wordOrName.map CommandPrefixOrSuffixItem.word).toList ++ suffix

end SimpleCommand

end Brush
end Marsh
