import Marsh.Brush.Syntax

/-!
# Expansion of words

A word is expanded piece by piece into fields, whose unquoted text is split at
blanks and then read as patterns.  What a piece yields that is not literal is
left to the surroundings.
-/

namespace Marsh
namespace Brush

open Library

/-! ## Pattern metacharacters -/

namespace Glob

/-- `single_char_bracket_member`: the text after it. -/
def singleCharBracketMember : Text -> Option Text
  | '\\' :: _ :: rest => some rest
  | char :: rest => if char = ']' then none else some rest
  | [] => none

/-- The names of the character classes. -/
def charClasses : List Text :=
  ["alnum", "alpha", "blank", "cntrl", "digit", "graph", "lower", "print",
    "punct", "space", "upper", "xdigit"].map String.toList

/-- `char_class_expression`: the text after it. -/
def charClassExpression : Text -> Option Text
  | '[' :: ':' :: rest =>
      charClasses.findSome? fun name => (name ++ [':', ']']).isPrefixOf? rest
  | _ => none

/-- `char_range`: the text after it. -/
def charRange (text : Text) : Option Text := do
  match ← singleCharBracketMember text with
  | '-' :: rest => singleCharBracketMember rest
  | _ => none

/-- `bracket_member`: the text after it. -/
def bracketMember (text : Text) : Option Text :=
  (charClassExpression text).or
    ((charRange text).or (singleCharBracketMember text))

/-- As many members as there are, of `fuel` at most: the text after them. -/
def bracketMembers : Nat -> Text -> Text
  | 0, text => text
  | fuel + 1, text =>
      match bracketMember text with
      | none => text
      | some rest => bracketMembers fuel rest

/-- Whether a bracket expression begins the text. -/
def beginsBracket : Text -> Bool
  | '[' :: rest =>
      let members :=
        match rest with
        | '!' :: rest | '^' :: rest => rest
        | _ => rest
      (bracketMember members).isSome &&
        (bracketMembers members.length members).head? = some ']'
  | _ => false

/-- Whether a wildcard or a bracket expression begins the text. -/
def beginsGlob : Text -> Bool
  | '?' :: _ | '*' :: _ => true
  | text => beginsBracket text

/-- Whether a text holds a wildcard or a bracket expression. -/
def hasGlob : Text -> Bool
  | [] => false
  | '\\' :: _ :: rest => hasGlob rest
  | char :: rest => beginsGlob (char :: rest) || hasGlob rest

end Glob

/-! ## What an expansion does and yields -/

/-- Something a shell does while it evaluates. -/
inductive Effect
  /-- A builtin runs, for a simple command, with its arguments. -/
  | builtin (source : SimpleCommand) (name : Text) (arguments : List Text)
  | function (name : Text) (arguments : List Text)
  | external (name : Text) (arguments : List Text)
  | aliasExpansion (name : Text)
  | expansion (piece : WordPiece)
  | braceExpansion (word : Text)
  | substitution (command : Text)
  | processSubstitution
  | patternMatch (text : Text)
  | redirection (redirect : IoRedirect)
  | assignment (name : Text)
  | definition (name : Text)
  | arithmetic (expression : Text)
  | test
  | background
  | coprocess
  | timing
  /-- The tracing prompt is expanded and a command line printed after it. -/
  | tracing

/-- What was done, and what it came to unless it failed. -/
structure Evaluated (Value : Type) where
  effects : List Effect
  result : Option Value

namespace Evaluated

variable {Value Next : Type}

/-- A value, with nothing done for it. -/
def pure (value : Value) : Evaluated Value where
  effects := []
  result := some value

/-- Something done. -/
def perform (effects : List Effect) : Evaluated Unit where
  effects := effects
  result := some ()

/-- One evaluation, then the next unless the first failed. -/
def andThen
    (first : Evaluated Value)
    (next : Value -> Evaluated Next) : Evaluated Next :=
  match first.result with
  | none => { effects := first.effects, result := none }
  | some value =>
      { effects := first.effects ++ (next value).effects
        result := (next value).result }

/-- Each value's results, in order. -/
def collect
    (evaluate : Value -> Evaluated (List Next)) :
    List Value -> Evaluated (List Next)
  | [] => pure []
  | value :: values =>
      (evaluate value).andThen fun first =>
        (collect evaluate values).andThen fun rest => pure (first ++ rest)

end Evaluated

/-! ## The parser and the options -/

/-- The options of a shell that evaluation reads. -/
structure RuntimeOptions where
  expandAliases : Bool
  extendedGlobbing : Bool
  posixMode : Bool
  shMode : Bool
  performBraceExpansion : Bool
  disableFilenameGlobbing : Bool
  expandNonMatchingPatternsToNull : Bool
  failExpansionOnGlobsWithoutMatch : Bool
  printCommandsAndArguments : Bool
  doNotExecuteCommands : Bool
  deriving DecidableEq, Repr

/-- The options of a parser. -/
structure ParserOptions where
  enableExtendedGlobbing : Bool
  posixMode : Bool
  shMode : Bool
  deriving DecidableEq, Repr

/-- `parser_options`. -/
def RuntimeOptions.parserOptions (options : RuntimeOptions) :
    ParserOptions where
  enableExtendedGlobbing := options.extendedGlobbing
  posixMode := options.posixMode
  shMode := options.shMode

/-- The only characters that may call for an expansion. -/
def expansionChars : Text := ['$', '\x60', '\\', '\'', '"', '~', '{']

/-- No character of a word calls for an expansion. -/
def NothingToExpand (word : Text) : Prop := ∀ char ∈ word, char ∉ expansionChars

instance (word : Text) : Decidable (NothingToExpand word) :=
  List.decidableBAll _ word

/-- The shell's parser, by the trees and the pieces it documents. -/
structure Parser where
  parseProgram : ParserOptions -> Text -> Option Program
  parseWord : ParserOptions -> Text -> Option (List WordPiece)
  /-- The words a word's braces expand to, side by side. -/
  expandBraces : ParserOptions -> Text -> Text
  hasGlobMetacharacters : Bool -> Text -> Bool
  /-- The text between ANSI-C quotes, its escapes read. -/
  ansiCText : Text -> Text
  /-- The unexpanded words of an alias body. -/
  tokenizeAliasBody : ParserOptions -> Text -> List Text
  /-- Text with nothing to expand is one piece. -/
  parseWord_plain : ∀ options word, NothingToExpand word ->
    parseWord options word = some (if word = [] then [] else [.text word])
  /-- Braces expand where one opens unquoted. -/
  expandBraces_quoted : ∀ options word pieces,
    parseWord options word = some pieces ->
      (∀ text, .text text ∈ pieces -> '{' ∉ text) ->
        expandBraces options word = word
  /-- An extended glob opens a parenthesis. -/
  hasGlobMetacharacters_eq : ∀ extended text, '(' ∉ text ->
    hasGlobMetacharacters extended text = Glob.hasGlob text

/-! ## Fields -/

/-- A piece of a field, and whether it may be split. -/
inductive ExpansionPiece
  | unsplittable (text : Text)
  | splittable (text : Text)
  deriving DecidableEq, Repr

namespace ExpansionPiece

/-- `as_str`. -/
def text : ExpansionPiece -> Text
  | .unsplittable text | .splittable text => text

/-- `make_unsplittable`. -/
def makeUnsplittable (piece : ExpansionPiece) : ExpansionPiece :=
  .unsplittable piece.text

end ExpansionPiece

/-- A field a word expands to. -/
abbrev WordField := List ExpansionPiece

namespace WordField

/-- The text of a field. -/
def text (field : WordField) : Text := field.flatMap ExpansionPiece.text

end WordField

/-- What surrounds a word while it is expanded. -/
structure World where
  /-- The fields a piece that is not literal yields. -/
  fields : WordPiece -> List WordField
  /-- The files a pattern matches, if it can be read. -/
  paths : WordField -> Option (List Text)
  /-- Whether a redirection can be set up. -/
  redirects : IoRedirect -> Bool
  /-- The path of the descriptor a process substitution is installed at. -/
  descriptorPath : Text

/-- Fields after fields: the last of the first and the first of the others are
one. -/
def appendFields (fields : List WordField) : List WordField -> List WordField
  | [] => fields
  | first :: others =>
      match fields.getLast? with
      | none => first :: others
      | some last => fields.dropLast ++ (last ++ first) :: others

/-! ## Expansion -/

/-- What an escape sequence stands for. -/
def escaped : Text -> Text
  | '\\' :: rest => rest
  | text => text

section Expansion

variable (parser : Parser) (world : World)

mutual

/-- `expand_word_piece`. -/
def expandPiece : WordPiece -> List Effect × List WordField
  | .text text => ([], [[.splittable text]])
  | .singleQuotedText text => ([], [[.unsplittable text]])
  | .ansiCQuotedText text => ([], [[.unsplittable (parser.ansiCText text)]])
  | .doubleQuotedSequence pieces | .gettextDoubleQuotedSequence pieces =>
      let (effects, fields) := expandPieces pieces
      (effects,
        if pieces.isEmpty then [[.unsplittable []]]
        else fields.map (List.map ExpansionPiece.makeUnsplittable))
  | .tildeExpansion expression =>
      ([.expansion (.tildeExpansion expression)],
        world.fields (.tildeExpansion expression))
  | .parameterExpansion expression =>
      ([.expansion (.parameterExpansion expression)],
        world.fields (.parameterExpansion expression))
  | .commandSubstitution command =>
      ([.substitution command], world.fields (.commandSubstitution command))
  | .backquotedCommandSubstitution command =>
      ([.substitution command],
        world.fields (.backquotedCommandSubstitution command))
  | .escapeSequence sequence => ([], [[.unsplittable (escaped sequence)]])
  | .arithmeticExpression expression =>
      ([.arithmetic expression],
        world.fields (.arithmeticExpression expression))

/-- The pieces of a word, one after the other. -/
def expandPieces : List WordPiece -> List Effect × List WordField
  | [] => ([], [])
  | piece :: pieces =>
      let (effects, fields) := expandPiece piece
      let (others, rest) := expandPieces pieces
      (effects ++ others, appendFields fields rest)

end

variable (options : RuntimeOptions)

/-- `basic_expand`. -/
def basicExpand (word : Text) : Evaluated (List WordField) :=
  if NothingToExpand word then
    Evaluated.pure [[.splittable word]]
  else
    let expanded :=
      if options.performBraceExpansion then
        parser.expandBraces options.parserOptions word
      else word
    let braces := if expanded = word then [] else [Effect.braceExpansion word]
    match parser.parseWord options.parserOptions expanded with
    | none => { effects := braces, result := none }
    | some pieces =>
        let (effects, fields) := expandPieces parser world pieces
        { effects := braces ++ effects, result := some fields }

/-- Where unquoted text is split: the `IFS` a shell starts with. -/
def ifs : Text := [' ', '\t', '\n']

/-- A character after the text of a field. -/
def pushChar (field : WordField) (char : Char) : WordField :=
  match field.getLast? with
  | some (.splittable last) => field.dropLast ++ [.splittable (last ++ [char])]
  | _ => field ++ [.splittable [char]]

/-- One character of unquoted text, given the fields so far and the current
one. -/
def splitChar : List WordField × WordField -> Char -> List WordField × WordField
  | (fields, current), char =>
      if char ∈ ifs then
        (if current = [] then fields else fields ++ [current], [])
      else (fields, pushChar current char)

/-- One piece of a field. -/
def splitPiece :
    List WordField × WordField -> ExpansionPiece -> List WordField × WordField
  | (fields, current), .unsplittable text =>
      (fields, current ++ [.unsplittable text])
  | state, .splittable text => text.foldl splitChar state

/-- One field. -/
def splitField (fields : List WordField) (field : WordField) :
    List WordField :=
  let (fields, current) := field.foldl splitPiece (fields, [])
  if current = [] then fields else fields ++ [current]

/-- `split_fields`. -/
def splitFields (fields : List WordField) : List WordField :=
  fields.foldl splitField []

/-- Whether a piece of a field is a pattern. -/
def isPattern : ExpansionPiece -> Bool
  | .unsplittable _ => false
  | .splittable text =>
      parser.hasGlobMetacharacters options.extendedGlobbing text

/-- `expand_pathnames_in_field`. -/
def expandPathnamesInField (field : WordField) : Evaluated (List Text) :=
  let unmatched : List Text :=
    if options.expandNonMatchingPatternsToNull then [] else [field.text]
  if field = [] then Evaluated.pure unmatched
  else if field.any (isPattern parser options) then
    { effects := [.patternMatch field.text]
      result :=
        match world.paths field with
        | none => some unmatched
        | some [] =>
            if options.failExpansionOnGlobsWithoutMatch then none
            else some unmatched
        | some paths => some paths }
  else Evaluated.pure [field.text]

/-- `full_expand_with_splitting`. -/
def fullExpandWithSplitting (word : Text) : Evaluated (List Text) :=
  (basicExpand parser world options word).andThen fun fields =>
    Evaluated.collect
      (fun field =>
        if options.disableFilenameGlobbing then Evaluated.pure [field.text]
        else expandPathnamesInField parser world options field)
      (splitFields fields)

end Expansion
end Brush
end Marsh
