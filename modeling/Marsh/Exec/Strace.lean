import Marsh.Exec.Evidence

/-!
# Lexing a trace

`parse_trace` and its helpers: the prefix of a line, the closing parenthesis of
its argument list and its return value.
-/

namespace Marsh
namespace Exec

open Library

/-! ## Numbers -/

/-- An ASCII decimal digit. -/
def isDigit (char : Char) : Bool := '0' ≤ char && char ≤ '9'

/-- `parse` of an unsigned number of `bits` bits, which takes a plus sign. -/
def parseUnsigned (bits : Nat) (text : Text) : Option Nat :=
  let digits := match text with
    | '+' :: rest => rest
    | _ => text
  (Text.parseDigits 10 digits).filter (· < 2 ^ bits)

/-- `from_str_radix` of a signed number of `bits` bits. -/
def parseSigned (base bits : Nat) (text : Text) : Option Int :=
  let value := match text with
    | '-' :: rest =>
        (Text.parseDigits base rest).map fun (value : Nat) => -(value : Int)
    | '+' :: rest => (Text.parseDigits base rest).map Int.ofNat
    | _ => (Text.parseDigits base text).map Int.ofNat
  value.filter fun value => -2 ^ (bits - 1) ≤ value ∧ value < 2 ^ (bits - 1)

/-! ## Lines -/

/-- `lines`: the last line break does not start a line, and a carriage return
before one belongs to it. -/
def lines (text : Text) : List Text :=
  let pieces := text.splitOn '\n'
  let kept := if pieces.getLast? = some [] then pieces.dropLast else pieces
  kept.map fun line => (Text.stripSuffix ['\r'] line).getD line

/-- The microseconds of a `-ttt` stamp. -/
def parseStamp (stamp : Text) : Option Nat := do
  let (seconds, micros) ← Text.splitOnce ['.'] stamp
  if micros.length = 6 then
    let seconds ← parseUnsigned 64 seconds
    let micros ← parseUnsigned 64 micros
    some ((seconds * 1000000 + micros) % 2 ^ 64)
  else none

/-- `split_prefix`. -/
def splitPrefix (line : Text) : Option (Nat × Nat × Text) :=
  let digits := line.takeWhile isDigit
  let rest := line.dropWhile isDigit
  if rest = [] ∨ digits = [] then none
  else do
    let tid ← parseUnsigned 32 digits
    let (stamp, rest) ← Text.splitOnce [' '] (Text.trimStart rest)
    let tsUs ← parseStamp stamp
    some (tid, tsUs, Text.trimStart rest)

/-- The loop of `split_close`. -/
def closeLoop : Scan -> Text -> Option (Text × Text)
  | _, [] => none
  | scan, char :: rest =>
      let more := fun scan =>
        (closeLoop scan rest).map fun parts => (char :: parts.1, parts.2)
      if scan.inString then more (scan.inside char)
      else if char = '"' then more { scan with inString := true }
      else if opens char then more { scan with depth := scan.depth + 1 }
      else if closes char then
        if scan.depth - 1 = 0 then some ([], rest)
        else more { scan with depth := scan.depth - 1 }
      else more scan

/-- `split_close`. -/
def splitClose (body : Text) : Option (Text × Text) :=
  (closeLoop ⟨1, false, false⟩ body).map fun parts =>
    let tail := Text.trimStart parts.2
    (parts.1, match Text.stripPrefix ['='] tail with
      | some ret => Text.trimStart ret
      | none => tail)

/-- The `-y` decoration after a returned number, when it is an absolute path. -/
def retDecoration (after : Text) : Option Text := do
  let rest ← Text.stripPrefix ['<'] after
  let parts ← Text.rsplitOnce '>' rest
  if parts.1.head? = some '/' then some parts.1 else none

/-- `parse_return`. -/
def parseReturn (text : Text) : Int × Option Text :=
  let text := Text.trim text
  if text = [] ∨ text.head? = some '?' then (-1, none)
  else
    let sign := if text.head? = some '-' then ['-'] else []
    let rest := text.drop sign.length
    match Text.stripPrefix ['0', 'x'] rest with
    | some hex =>
        let digits := hex.takeWhile fun char => (Text.digitValue 16 char).isSome
        ((parseSigned 16 64 digits).getD (-1), none)
    | none =>
        match parseSigned 10 64 (sign ++ rest.takeWhile isDigit) with
        | none => (-1, none)
        | some value => (value, retDecoration (rest.dropWhile isDigit))

/-! ## The trace -/

/-- An interrupted call: its thread and name, its entry timestamp and the
argument text before the interruption. -/
structure PendingCall where
  tid : Nat
  name : Text
  tsUs : Nat
  args : Text

/-- What `parse_trace` has read: the lines, and the interrupted calls, the last
first. -/
structure TraceState where
  lines : List TraceLine
  pending : List PendingCall

/-- `take_pending`. -/
def takePending (pending : List PendingCall) (tid : Nat) (name : Text) :
    Option (PendingCall × List PendingCall) :=
  let own := fun (call : PendingCall) => call.tid = tid && call.name = name
  (pending.find? own).map fun call => (call, pending.eraseP own)

/-- `trim_end_matches`. -/
def trimEndMatches (pattern text : Text) : Text :=
  match Text.stripSuffix pattern text with
  | some rest =>
      -- Every match is shorter: the one pattern in use is not empty.
      if rest.length < text.length then trimEndMatches pattern rest else text
  | none => text
termination_by text.length

/-- A character of a syscall name. -/
def isNameChar (char : Char) : Bool := char.isAlphanum || char = '_'

/-- The record of a completed call. -/
def TraceState.push
    (state : TraceState)
    (tid tsUs : Nat)
    (name args retText : Text) : TraceState :=
  let ret := parseReturn retText
  { state with
    lines := state.lines ++ [⟨tid, tsUs, .syscall name args ret.1 ret.2⟩] }

/-- One line of `parse_trace`.  The error names the line of an exit record
without a status. -/
def parseLine (state : TraceState) (raw : Text) : Except Text TraceState :=
  let raw := Text.trimEnd raw
  if raw = [] then .ok state
  else match splitPrefix raw with
  | none => .ok state
  | some (tid, tsUs, rest) =>
    match Text.stripPrefix "+++ exited with ".toList rest with
    | some status =>
        match parseSigned 10 32 (Text.trim (trimEndMatches " +++".toList status)) with
        | none => .error ("exit record: ".toList ++ raw)
        | some status =>
            .ok { state with lines := state.lines ++ [⟨tid, tsUs, .exited status⟩] }
    | none =>
      if "+++".toList <+: rest ∨ "---".toList <+: rest ∨
          "strace:".toList <+: rest then .ok state
      else match Text.stripPrefix "<... ".toList rest with
      | some after =>
          match Text.splitOnce " resumed>".toList after with
          | none => .ok state
          | some (name, tail) =>
              let (tsUs, start, pending) :=
                match takePending state.pending tid name with
                | some (call, pending) => (call.tsUs, call.args, pending)
                | none => (tsUs, [], state.pending)
              let state := { state with pending := pending }
              match splitClose tail with
              | none => .ok state
              | some (args, retText) =>
                  .ok (state.push tid tsUs name (start ++ args) retText)
      | none =>
        match Text.splitOnce ['('] rest with
        | none => .ok state
        | some (name, body) =>
            if name = [] ∨ ¬ name.all isNameChar then .ok state
            else match Text.stripSuffix "<unfinished ...>".toList body with
            | some start =>
                .ok { state with
                  pending := ⟨tid, name, tsUs, Text.trimEnd start⟩ ::
                    state.pending }
            | none =>
                match splitClose body with
                | none => .ok state
                | some (args, retText) => .ok (state.push tid tsUs name args retText)

/-- `parse_trace`. -/
def parseTrace (text : Text) : Except Text (List TraceLine) :=
  ((lines text).foldlM parseLine ⟨[], []⟩).map TraceState.lines

end Exec
end Marsh
