import Marsh.Library.Text

/-!
# The tokenizer

A shell script is read one character at a time.  What the tokenizer is in the
middle of is its state: the token so far, the here-documents that are asked for,
and the nested constructs around it.  It says what an ampersand means there.
-/

namespace Marsh
namespace Brush

open Library

/-! ## Tokens -/

/-- Options controlling how the tokenizer operates. -/
structure TokenizerOptions where
  enableExtendedGlobbing : Bool
  shMode : Bool

/-- The options a shell starts with. -/
def TokenizerOptions.default : TokenizerOptions := ⟨true, false⟩

/-- A word, or an operator. -/
structure Token where
  text : Text
  isOperator : Bool
  deriving DecidableEq, Repr

/-- Why a token ends. -/
inductive TokenEndReason
  | unescapedNewLine
  | specifiedTerminatingChar
  | nonNewLineBlank
  | hereDocumentBodyStart
  | hereDocumentBodyEnd
  | hereDocumentEndTag
  | operatorStart
  | operatorEnd
  deriving DecidableEq, Repr

structure TokenizeResult where
  reason : TokenEndReason
  token : Option Token
  deriving DecidableEq, Repr

inductive QuoteMode
  | none
  | ansiC
  | single
  | double
  deriving DecidableEq, Repr

/-- The state of here-documents. -/
inductive HereState
  | none
  /-- The next token will be a here tag. -/
  | nextTokenIsHereTag (removeTabs : Bool)
  /-- The current token is a here tag, after this operator. -/
  | currentTokenIsHereTag (removeTabs : Bool) (operator : TokenizeResult)
  /-- The next line will be the body of a here-document. -/
  | nextLineIsHereDoc
  /-- In the bodies of here-documents. -/
  | inHereDocs
  deriving DecidableEq, Repr

structure HereTag where
  tag : Text
  tagWasEscapedOrQuoted : Bool
  removeTabs : Bool
  /-- The operator and the tag. -/
  tokens : List TokenizeResult
  /-- What stands between the tag and the body. -/
  pendingTokensAfter : List TokenizeResult
  deriving DecidableEq, Repr

/-- What the tokenizer knows across tokens. -/
structure CrossTokenParseState where
  hereState : HereState
  /-- The here tags whose bodies are not over yet. -/
  currentHereTags : List HereTag
  /-- Tokens that are served before more is read. -/
  queuedTokens : List TokenizeResult
  arithmeticExpansion : Bool
  deriving DecidableEq, Repr

/-- The token so far. -/
structure TokenParseState where
  tokenSoFar : Text
  tokenIsOperator : Bool
  inEscape : Bool
  quoteMode : QuoteMode
  deriving DecidableEq, Repr

inductive TokenizerError
  | missingHereTag (tag : Text)
  | missingHereTagForDocumentBody
  deriving DecidableEq, Repr

/-- `is_operator`. -/
def isOperator (options : TokenizerOptions) (text : Text) : Bool :=
  -- Non-POSIX operators.
  (!options.shMode && text ∈
    ["<<<", "&>", "&>>", ";;&", ";&", "|&"].map String.toList) ||
  text ∈ ["&", "&&", "(", ")", ";", ";;", "\n", "|", "||", "<", ">", ">|",
    "<<", ">>", "<&", ">&", "<<-", "<>"].map String.toList

/-- `can_start_operator`. -/
def canStartOperator (char : Char) : Bool :=
  char ∈ ['&', '(', ')', ';', '\n', '|', '<', '>']

/-- `can_start_extglob`. -/
def canStartExtglob (char : Char) : Bool :=
  char ∈ ['@', '!', '?', '+', '*']

def isBlank (char : Char) : Bool := char = ' ' || char = '\t'

def isQuotingChar (char : Char) : Bool := char ∈ ['\\', '\'', '"']

/-- A text without its quoting, from whether its first character is escaped. -/
def unquoteFrom : Bool -> Text -> Text
  | _, [] => []
  | true, char :: text => char :: unquoteFrom false text
  | false, char :: text =>
      if char = '\\' then unquoteFrom true text
      else if isQuotingChar char then unquoteFrom false text
      else char :: unquoteFrom false text

/-- `unquote_str`. -/
def unquoteStr (text : Text) : Text := unquoteFrom false text

/-- `is_ascii_whitespace`. -/
def isAsciiWhitespace (char : Char) : Bool :=
  char ∈ [' ', '\t', '\n', '\x0c', '\r']

/-- Changes the last element of a list. -/
def modifyLast {α : Type} (change : α -> α) : List α -> List α
  | [] => []
  | [last] => [change last]
  | first :: rest => first :: modifyLast change rest

namespace TokenParseState

def new : TokenParseState := ⟨[], false, false, .none⟩

variable (state : TokenParseState)

def token : Token := ⟨state.tokenSoFar, state.tokenIsOperator⟩

def startedToken : Bool := state.tokenSoFar ≠ []

def onlyBlanksSoFar : Bool :=
  state.startedToken && state.tokenSoFar.all isBlank

def appendStr (text : Text) : TokenParseState :=
  { state with tokenSoFar := state.tokenSoFar ++ text }

def unquoted : Bool := !state.inEscape && state.quoteMode = .none

def endsWith (holds : Char -> Bool) : Bool :=
  state.tokenSoFar.getLast?.any holds

/-- `does_char_newly_affect_quoting`. -/
def charNewlyAffectsQuoting (char : Char) : Bool :=
  !state.inEscape &&
    match state.quoteMode with
    | .double | .ansiC => char = '\\'
    | .single => false
    | .none => isQuotingChar char

/-- Whether a character begins an extended glob. -/
def startsExtglob (options : TokenizerOptions) (char : Char) : Bool :=
  char = '(' && options.enableExtendedGlobbing && state.unquoted &&
    !state.tokenIsOperator && state.endsWith canStartExtglob

/-- Delimits the current token.  What belongs to a here-document is kept with
its tag until the body is over, and then all of it is queued. -/
def delimitCurrentToken
    (reason : TokenEndReason)
    (cross : CrossTokenParseState) :
    Except TokenizerError
      (Option TokenizeResult × TokenParseState × CrossTokenParseState) :=
  if !state.startedToken && reason ≠ .hereDocumentBodyEnd then
    .ok (some ⟨reason, none⟩, state, cross)
  else
    let result : TokenizeResult := ⟨reason, some state.token⟩
    match cross.hereState with
    | .nextTokenIsHereTag removeTabs =>
        .ok (none, new, { cross with
          hereState := .currentTokenIsHereTag removeTabs result })
    | .currentTokenIsHereTag removeTabs operator =>
        if state.tokenSoFar = ['\n'] then
          .error (.missingHereTag state.tokenSoFar)
        else
          -- The line break makes it easier to check against.
          let tag := state.tokenSoFar.dropWhile isAsciiWhitespace ++ ['\n']
          .ok (none, new, { cross with
            hereState := .nextLineIsHereDoc
            currentHereTags := cross.currentHereTags ++
              [⟨tag, tag.any isQuotingChar, removeTabs, [operator, result],
                []⟩] })
    | .nextLineIsHereDoc =>
        if cross.currentHereTags = [] then .error .missingHereTagForDocumentBody
        else
          .ok (none, new, { cross with
            hereState := if state.tokenSoFar = ['\n'] then .inHereDocs
              else .nextLineIsHereDoc
            currentHereTags := modifyLast (fun tag =>
              { tag with
                pendingTokensAfter := tag.pendingTokensAfter ++ [result] })
              cross.currentHereTags })
    | .inHereDocs =>
        match cross.currentHereTags with
        -- Never so: a body has a tag.
        | [] => .error .missingHereTagForDocumentBody
        | completed :: others =>
            let tag := if completed.tagWasEscapedOrQuoted then
                unquoteStr completed.tag
              else completed.tag
            let endTag := tag.rdropWhile (· = '\n')
            .ok (none, new, { cross with
              hereState := if others = [] then .none else .inHereDocs
              currentHereTags := others
              queuedTokens := cross.queuedTokens ++ completed.tokens ++
                [⟨.hereDocumentBodyStart, none⟩, result,
                  ⟨.hereDocumentEndTag, some ⟨endTag, false⟩⟩] ++
                completed.pendingTokensAfter })
    | .none => .ok (some result, new, cross)

end TokenParseState

/-! ## Nested constructs -/

/-- A substitution or an expansion that is not over. -/
structure NestedConstruct where
  /-- The token it is appended to. -/
  state : TokenParseState
  terminatingChar : Char
  /-- The operator that opens another level. -/
  nestingOpen : Option Text
  nestingCount : Nat
  isArithmetic : Bool
  /-- Here-documents that come after the line they are asked for on. -/
  pendingHereDocTokens : List TokenizeResult
  deriving DecidableEq, Repr

/-- What a token is in the text of the construct it is in. -/
def TokenizeResult.appended (result : TokenizeResult) : Text :=
  result.token.elim [] Token.text ++
    match result.reason with
    | .hereDocumentBodyStart => ['\n']
    | .nonNewLineBlank => [' ']
    | _ => []

/-- Takes a token of the construct. -/
def NestedConstruct.accept
    (construct : NestedConstruct)
    (result : TokenizeResult) : NestedConstruct :=
  let pending := construct.pendingHereDocTokens ++ [result]
  if result.reason ∈ [.hereDocumentBodyStart, .hereDocumentBodyEnd,
      .hereDocumentEndTag] then
    { construct with pendingHereDocTokens := pending }
  else if result.reason = .unescapedNewLine ∧
      construct.pendingHereDocTokens ≠ [] then
    { construct with
      state := construct.state.appendStr (pending.flatMap (·.appended))
      pendingHereDocTokens := [] }
  else
    let opens := result.token.any fun token =>
      token.isOperator && construct.nestingOpen = some token.text
    let count := construct.nestingCount + if opens then 1 else 0
    { construct with
      state := construct.state.appendStr result.appended
      nestingCount :=
        if result.reason = .specifiedTerminatingChar then count - 1 else count }

/-! ## Reading -/

/-- How the next character is read. -/
inductive Reading
  /-- As part of a token, or to begin one. -/
  | token
  /-- After a dollar sign. -/
  | dollar
  /-- After a dollar sign and a parenthesis. -/
  | dollarParen
  /-- After a backslash that is not quoted. -/
  | backslash
  /-- In backquotes. -/
  | backquote (escapingEnabled : Bool)
  /-- In an extended glob. -/
  | extglob (parenDepth : Nat) (inEscape : Bool)
  | comment
  /-- Whatever it is, as the end of a construct or of one level of it. -/
  | terminator
  /-- Not at all. -/
  | failed (error : TokenizerError)
  deriving DecidableEq, Repr

/-- The tokenizer between two characters. -/
structure TokenState where
  reading : Reading
  state : TokenParseState
  cross : CrossTokenParseState
  /-- The constructs around the token, innermost first. -/
  constructs : List NestedConstruct
  deriving DecidableEq, Repr

namespace TokenState

/-- The tokenizer at the start of a script. -/
def start : TokenState := ⟨.token, .new, ⟨.none, [], [], false⟩, []⟩

def terminatingChar (state : TokenState) : Option Char :=
  state.constructs.head?.map NestedConstruct.terminatingChar

/-- Whether blanks are part of the tokens. -/
def includeSpace (state : TokenState) : Bool :=
  state.constructs.head?.any (·.terminatingChar ≠ '}')

def appendChar (state : TokenState) (char : Char) : TokenState :=
  { state with state := state.state.appendStr [char] }

/-- Gives a token to the construct it is in. -/
def deliver (state : TokenState) (result : TokenizeResult) : TokenState :=
  match state.constructs with
  | [] => { state with state := .new }
  | inner :: outer =>
      { state with
        reading := if result.reason = .specifiedTerminatingChar then .terminator
          else .token
        state := .new
        constructs := inner.accept result :: outer }

/-- Serves the queue, until a construct takes a character. -/
def serve : List TokenizeResult -> TokenState -> TokenState
  | [], state => { state with cross := { state.cross with queuedTokens := [] } }
  | result :: queue, state =>
      let next := state.deliver result
      if next.reading = .terminator then
        { next with cross := { next.cross with queuedTokens := queue } }
      else serve queue next

/-- Ends the token. -/
def delimit (state : TokenState) (reason : TokenEndReason) : TokenState :=
  match state.state.delimitCurrentToken reason state.cross with
  | .error error => { state with reading := .failed error }
  | .ok (result, token, cross) =>
      let next := { state with state := token, cross := cross }
      match result with
      | some result => next.deliver result
      | none => serve cross.queuedTokens next

/-- Takes the character that ends a construct, or one level of it. -/
def terminate (state : TokenState) (char : Char) : TokenState :=
  match state.constructs with
  | [] => state
  | inner :: outer =>
      let appended := inner.state.appendStr [char]
      let next : TokenState :=
        if inner.nestingCount = 0 then
          ⟨.token, appended,
            if inner.isArithmetic then
              { state.cross with arithmeticExpansion := false }
            else state.cross, outer⟩
        else
          ⟨.token, .new, state.cross, { inner with state := appended } :: outer⟩
      serve next.cross.queuedTokens next

/-- Begins a construct. -/
def enter
    (state : TokenState)
    (terminatingChar : Char)
    (nestingOpen : Option Text)
    (nestingCount : Nat)
    (isArithmetic : Bool) : TokenState where
  reading := .token
  state := .new
  cross := if isArithmetic then { state.cross with arithmeticExpansion := true }
    else state.cross
  constructs := ⟨state.state, terminatingChar, nestingOpen, nestingCount,
    isArithmetic, []⟩ :: state.constructs

/-- Ends the body of a here-document when its end tag has been read. -/
def removeHereEndTag (state : TokenState) : TokenState :=
  match state.cross.currentHereTags with
  | [] => state
  | next :: _ =>
      let tag := if next.tagWasEscapedOrQuoted then unquoteStr next.tag
        else next.tag
      match Text.stripSuffix tag state.state.tokenSoFar with
      | none => state
      | some body =>
          -- The tag is a line of its own.
          if body = [] ∨ body.getLast? = some '\n' then
            let held := { state.state with tokenSoFar := body }
            { state with state := held }.delimit .hereDocumentBodyEnd
          else state

/-- Reads a character of a here-document. -/
def readHereDoc (state : TokenState) (char : Char) : TokenState :=
  let removeTabs := state.cross.currentHereTags.head?.any HereTag.removeTabs
  if removeTabs ∧ char = '\t' ∧
      (!state.state.startedToken || state.state.endsWith (· = '\n')) then state
  else
    let next := state.appendChar char
    if char = '\n' then next.removeHereEndTag else next

variable (options : TokenizerOptions)

/-- Why the token so far ends before a character, if it does. -/
def ending (state : TokenState) (char : Char) : Option TokenEndReason :=
  let token := state.state
  if !token.startedToken then none
  else if token.unquoted ∧ state.terminatingChar = some char then
    some .specifiedTerminatingChar
  else if token.tokenIsOperator then
    if isOperator options (token.tokenSoFar ++ [char]) then none
    else if token.tokenSoFar = ['\n'] then some .unescapedNewLine
    else some .operatorEnd
  else if !token.unquoted ∨ token.startsExtglob options char then none
  else if canStartOperator char then some .operatorStart
  else if isBlank char then some .nonNewLineBlank
  else none

/-- What an operator that is over says of the tokens after it. -/
def endOperator (state : TokenState) (char : Char) : TokenState :=
  let operator := state.state.tokenSoFar
  let cross :=
    if state.cross.arithmeticExpansion then
      if operator = [')'] ∧ char = ')' then
        { state.cross with arithmeticExpansion := false }
      else state.cross
    else if operator = "<<".toList then
      { state.cross with hereState := .nextTokenIsHereTag false }
    else if operator = "<<-".toList then
      { state.cross with hereState := .nextTokenIsHereTag true }
    else if operator = ['('] ∧ char = '(' then
      { state.cross with arithmeticExpansion := true }
    else state.cross
  { state with cross := cross }

/-- Reads a character that does not end the token so far. -/
def take (state : TokenState) (char : Char) : TokenState :=
  let token := state.state
  let quoted (mode : QuoteMode) : TokenState :=
    { state with state := { token with quoteMode := mode } }.appendChar char
  let expands := token.unquoted ∨ token.quoteMode = .double ∧ !token.inEscape
  if token.unquoted ∧ state.terminatingChar = some char then
    (state.delimit .specifiedTerminatingChar).terminate char
  else if token.tokenIsOperator then state.appendChar char
  else if token.charNewlyAffectsQuoting char then
    if char = '\\' then { state with reading := .backslash }
    else if char = '\'' then
      quoted (if token.endsWith (· = '$') then .ansiC else .single)
    else quoted .double
  else if !token.inEscape ∧ (token.quoteMode = .single ∨
      token.quoteMode = .ansiC) ∧ char = '\'' then quoted .none
  else if !token.inEscape ∧ token.quoteMode = .double ∧ char = '"' then
    quoted .none
  else if token.inEscape then
    { state with state := { token with inEscape := false } }.appendChar char
  else if expands ∧ char = '$' then { state with reading := .dollar }
  else if expands ∧ char = '\x60' then
    { state with reading := .backquote false }.appendChar char
  else if token.startsExtglob options char then
    { state with reading := .extglob 1 false }.appendChar char
  else if token.unquoted ∧ canStartOperator char then
    { state with state := { token with tokenIsOperator := true } }.appendChar char
  else if token.unquoted ∧ isBlank char then
    if state.includeSpace then state.appendChar char else state
  else if (token.startedToken ∨ state.terminatingChar = some '}') ∧
      ¬ (char = '#' ∧ token.onlyBlanksSoFar) then state.appendChar char
  else if char = '#' then { state with reading := .comment }
  else state.appendChar char

/-- Reads a character of a token, or of a here-document. -/
def read (state : TokenState) (char : Char) : TokenState :=
  if state.cross.hereState = .inHereDocs then state.readHereDoc char
  else
    match state.ending options char with
    | none => state.take options char
    | some reason =>
        let next :=
          (if reason = .operatorEnd ∨ reason = .unescapedNewLine then
            state.endOperator char
          else state).delimit reason
        match next.reading with
        | .failed _ => next
        | .terminator => next.terminate char
        | _ =>
            -- The blank after a word is read with it.
            if reason = .nonNewLineBlank then next
            else if next.cross.hereState = .inHereDocs then
              next.readHereDoc char
            else next.take options char

/-- Reads one character. -/
def step (state : TokenState) (char : Char) : TokenState :=
  let back := { state with reading := .token }
  match state.reading with
  | .token => state.read options char
  | .dollar =>
      let dollar := back.appendChar '$'
      if char = '(' then { dollar with reading := .dollarParen }.appendChar char
      else if char = '[' then
        (dollar.appendChar char).enter ']' (some ['[']) 1 true
      else if char = '{' then (dollar.appendChar char).enter '}' none 1 false
      else dollar.read options char
  | .dollarParen =>
      if char = '(' then (back.appendChar char).enter ')' (some ['(']) 2 true
      else (back.enter ')' (some ['(']) 1 false).read options char
  | .backslash =>
      -- A line break after a backslash goes with it.
      if char = '\n' then back
      else
        let escape := { back.state with inEscape := true }
        ({ back with state := escape }.appendChar '\\').read options char
  | .backquote escapingEnabled =>
      let reading :=
        if escapingEnabled then .backquote false
        else if char = '\\' then .backquote true
        else if char = '\x60' then .token
        else .backquote false
      { state with reading := reading }.appendChar char
  | .extglob parenDepth inEscape =>
      let reading :=
        if inEscape then .extglob parenDepth false
        else if char = '\\' then .extglob parenDepth true
        else if char = '(' then .extglob (parenDepth + 1) false
        else if char = ')' then
          if parenDepth ≤ 1 then .token else .extglob (parenDepth - 1) false
        else .extglob parenDepth false
      { state with reading := reading }.appendChar char
  | .comment => if char = '\n' then back.read options char else state
  | .terminator => state.terminate char
  | .failed _ => state

/-- The tokenizer after some characters of a script. -/
def after (text : Text) : TokenState :=
  text.foldl (step options) start

end TokenState

/-! ## Ampersands -/

/-- What an ampersand is. -/
inductive AmpersandRole
  /-- The control operator that runs a command in the background. -/
  | control
  /-- A quoted character. -/
  | quoted
  /-- An escaped character. -/
  | escaped
  /-- A character of a comment. -/
  | comment
  /-- Part of a redirection. -/
  | redirection
  /-- Half of `&&`. -/
  | and
  /-- Part of `|&`. -/
  | pipe
  /-- Part of `;&` or `;;&`. -/
  | caseTerminator
  /-- A character of a substitution. -/
  | substitution
  /-- A character of a here-document. -/
  | hereDocument
  /-- A character of an extended glob. -/
  | pattern
  /-- A character after a here-document without a tag, which is not read. -/
  | unread
  deriving DecidableEq, Repr

namespace AmpersandRole

variable (options : TokenizerOptions)

/-- What the ampersand is that an operator ends in so far. -/
def ofOperator
    (operator : Text)
    (constructs : List NestedConstruct)
    (next : Option Char) : AmpersandRole :=
  if operator = ['&'] then
    if next = some '&' then .and
    else if next.any fun char => isOperator options ['&', char] then
      .redirection
    else if constructs = [] then .control
    else .substitution
  else if operator = ['&', '&'] then .and
  else if operator = ['|', '&'] then .pipe
  else if operator = ['>', '&'] ∨ operator = ['<', '&'] then .redirection
  else .caseTerminator

/-- What an ampersand is in a state of the tokenizer, before some character. -/
def inState (state : TokenState) (next : Option Char) : AmpersandRole :=
  let read := state.step options '&'
  match state.reading with
  | .failed _ => .unread
  | .terminator | .backquote _ => .substitution
  | .extglob _ _ => .pattern
  | .comment => .comment
  | .backslash => .escaped
  | .token | .dollar | .dollarParen =>
      match read.reading with
      | .failed _ => .unread
      | _ =>
          if read.cross.hereState = .inHereDocs then .hereDocument
          else if read.state.tokenIsOperator then
            ofOperator options read.state.tokenSoFar read.constructs next
          else .quoted

/-- What the ampersand between two parts of a script is. -/
def between (before after : Text) : AmpersandRole :=
  inState options (.after options before) after.head?

example : between .default "ls 2>".toList "1".toList = .redirection := by decide
example : between .default "echo $(date) \"$(echo 'a\"b')\" ".toList [] =
    .control := by decide
example : between .default "echo $'it\\'s' # ".toList "x".toList = .comment := by
  decide
example : between .default "cat <<EOF\nit's\nEOF\nsleep 5 ".toList [] =
    .control := by decide +kernel
example : between .default "cat <<'a&b'\nhi\na".toList "b".toList =
    .hereDocument := by decide +kernel
example : between .default "ls @(it's) ".toList "x".toList = .control := by
  decide

end AmpersandRole

end Brush
end Marsh
