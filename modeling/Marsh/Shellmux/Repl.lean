import Marsh.Library.Text

/-!
# A frontend's line grammar

A submitted line is a console builtin, opens a job with a trailing ampersand, or
is a command line taken as it is.  It is told apart before any shell parses it.
-/

namespace Marsh
namespace Shellmux
namespace Repl

open Library Text

/-! ## Text -/

/-- The words of a text: the parts between whitespace that are not empty. -/
def splitWhitespace (text : Text) : List Text :=
  (text.splitOnP isWhitespace).filter fun word => word ≠ []

/-- Where a pattern occurs last. -/
def rfind (pattern : Text) : Text -> Option Nat
  | [] => if pattern.isEmpty then some 0 else none
  | char :: rest =>
      match rfind pattern rest with
      | some start => some (start + 1)
      | none => if pattern <+: char :: rest then some 0 else none

/-- Whether a character is an ASCII letter or digit. -/
def isAsciiAlphanumeric (char : Char) : Bool :=
  let code := char.toNat
  (48 ≤ code && code ≤ 57) || (65 ≤ code && code ≤ 90) ||
    (97 ≤ code && code ≤ 122)

section Debug

-- Whether a character outside ASCII is written as it is between quotes: it is
-- printable and extends no grapheme, as the Unicode tables have it.
variable (verbatim : Char -> Bool)

/-- How a character is written between quotes by `{:?}`. -/
def escapeDebug (char : Char) : Text :=
  if char = '\x00' then ['\\', '0']
  else if char = '\t' then ['\\', 't']
  else if char = '\r' then ['\\', 'r']
  else if char = '\n' then ['\\', 'n']
  else if char = '\\' then ['\\', '\\']
  else if char = '"' then ['\\', '"']
  else if 32 ≤ char.toNat ∧ char.toNat < 127 then [char]
  else if 128 ≤ char.toNat ∧ verbatim char = true then [char]
  else ['\\', 'u', '{'] ++ Nat.toDigits 16 char.toNat ++ ['}']

/-- `{:?}` of a text. -/
def debugText (text : Text) : Text :=
  '"' :: (text.flatMap (escapeDebug verbatim) ++ ['"'])

end Debug

/-! ## Job names -/

/-- The foreground principal. -/
def foreground : Text := "main".toList

/-- Whether a character may stand in a name typed as a single word. -/
def isNameChar (char : Char) : Bool :=
  isAsciiAlphanumeric char || char = '_' || char = '-'

/-- `is_bare`: whether a name needs no quoting when written as `%name`. -/
def isBare (name : Text) : Bool :=
  !name.isEmpty && name.all isNameChar

/-- `valid_name`: whether a name can be a job's, typed as a single word. -/
def validName (name : Text) : Bool :=
  isBare name && name ≠ foreground

/-- `reference`: how a job is written for a reader. -/
def reference (verbatim : Char -> Bool) (name : Text) : Text :=
  if isBare name then '%' :: name else '%' :: debugText verbatim name

/-- `job_reference`: the job a `fg` or `stop` argument names. -/
def jobReference (text : Text) : Option Text :=
  let text := trim text
  let text := (stripPrefix ['%'] text).getD text
  let name := ((stripPrefix ['"'] text).bind (stripSuffix ['"'])).getD text
  if name.isEmpty then none else some name

/-! ## Lines -/

/-- What a submitted line asks for. -/
inductive Input
  /-- Nothing was typed. -/
  | empty
  /-- List the job table. -/
  | jobs
  /-- End the session. -/
  | exit
  /-- Attach a job to the terminal. -/
  | fg (name : Option Text)
  /-- Signal process ids; the tokens are passed through. -/
  | kill (tokens : List Text)
  /-- Close a job; the tokens are its options, `--` and its name. -/
  | stop (tokens : List Text)
  /-- Create a named sandbox rooted at a seed directory. -/
  | spawnDir (name : Option Text) (dir : Text)
  /-- Start the command in a job of its own. -/
  | background (cmd : Text) (name : Option Text)
  /-- Run the line as the foreground job. -/
  | foreground (line : Text)
  /-- A console builtin got its arguments wrong. -/
  | invalid (message : Text)
  deriving DecidableEq, Repr

/-- What follows an option is shorter. -/
theorem length_after_option
    {rest : Text}
    (option : ['-'] <+: rest.takeWhile fun char => !isWhitespace char) :
    (trimStart (rest.dropWhile fun char => !isWhitespace char).tail).length <
      rest.length := by
  have parts := congrArg List.length
    (@List.takeWhile_append_dropWhile _ (fun char => !isWhitespace char) rest)
  have started := option.length_le
  have trimmed := (@List.dropWhile_suffix _
    (rest.dropWhile fun char => !isWhitespace char).tail
    isWhitespace).length_le
  rw [List.length_append] at parts
  rw [List.length_tail] at trimmed
  rw [List.length_singleton] at started
  rw [trimStart]
  omega

/-- The leading option tokens of a `stop`, and what is left. -/
def stopOptions (rest : Text) : List Text × Text :=
  let token := rest.takeWhile fun char => !isWhitespace char
  let tail := trimStart
    (rest.dropWhile fun char => !isWhitespace char).tail
  if token = "--".toList then ([], tail)
  else if ¬ ['-'] <+: token then ([], rest)
  else
    let (tokens, last) := stopOptions tail
    (token :: tokens, last)
termination_by rest.length
decreasing_by
  rename_i option
  exact length_after_option (not_not.mp option)

/-- `stop`: parses `stop [-f] JOB`. -/
def stop (text : Text) : Input :=
  let (options, rest) := stopOptions (trim text)
  match jobReference rest with
  | some name => .stop (options ++ ["--".toList, name])
  | none => .stop options

section Lines

variable (verbatim : Char -> Bool)

/-- `named_background`: a named background line, or the diagnostic for a name a
job may not answer to. -/
def namedBackground (cmd name : Text) : Input :=
  if name = foreground then
    .invalid ("&: invalid job name ".toList ++ debugText verbatim name ++
      " (".toList ++ debugText verbatim foreground ++
        " is the foreground job)".toList)
  else if name.isEmpty ||
      name.any (fun char => char = '%' || char = '"' || isControl char) then
    .invalid ("&: invalid job name ".toList ++ debugText verbatim name ++
      " (not empty, and no % or \")".toList)
  else .background cmd (some name)

/-- Where `background` would cut a line, and the name it reads. -/
def backgroundCut (line : Text) : Option (Nat × Option Text) :=
  match stripSuffix ['"'] line with
  | some head =>
      (rfind ['&', '"'] head).bind fun start =>
        let name := head.drop (start + 2)
        if '"' ∈ name then none else some (start, some name)
  | none =>
      match stripSuffix ['&'] line with
      | some head => some (head.length, none)
      | none =>
          (rfind ['&'] line).bind fun start =>
            let name := line.drop (start + 1)
            if isBare name then some (start, some name) else none

/-- `background`: what a trailing `&`, `&NAME` or `&"NAME"` asks for, or `none`
when the line has neither. -/
def background (line : Text) : Option Input :=
  (backgroundCut line).bind fun (start, name) =>
    if start = 0 ∨ getElem? line (start - 1) = some '&' then none
    else
      let cmd := trimEnd (line.take start)
      if cmd.isEmpty then none
      else
        match name with
        | none => some (.background cmd none)
        | some name => some (namedBackground verbatim cmd name)

/-- `sd`: parses `sd NAME DIR`. -/
def sd (name dir : Text) : Input :=
  if validName name then .spawnDir (some name) dir
  else
    .invalid ("sd: invalid name ".toList ++ debugText verbatim name ++
      " (use letters, digits, _ or -; not \"".toList ++ foreground ++
        "\")".toList)

/-- `parse`: parses one submitted line. -/
def parse (line : Text) : Input :=
  let line := trim line
  if line.isEmpty then .empty
  else
    let first := (splitWhitespace line).headD []
    let rest := (splitWhitespace line).tail
    if first = "jobs".toList ∧ rest = [] then .jobs
    else if first = "exit".toList then .exit
    else if first = "fg".toList then
      .fg (jobReference (line.drop first.length))
    else if first = "kill".toList then .kill rest
    else if first = "stop".toList then stop (trim (line.drop first.length))
    else if first = "sd".toList then
      match rest with
      | [name, dir] => sd verbatim name dir
      | _ => .invalid "sd: usage: sd NAME DIR".toList
    else if first = "bg".toList then
      match rest with
      | [dir] => .spawnDir none dir
      | _ => .invalid "bg: usage: bg DIR".toList
    else (background verbatim line).getD (.foreground line)

end Lines

end Repl
end Shellmux
end Marsh
