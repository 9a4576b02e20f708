import Marsh.Library.Text

/-!
# Syscall arguments

Decoded trace lines, and the argument text of a syscall cut into its top-level
arguments.
-/

namespace Marsh
namespace Exec

open Library

/-- A trace line's payload. -/
inductive Call
  /-- A completed syscall: its name, the text between its parentheses, its return
  value and the path printed for a returned descriptor. -/
  | syscall (name args : Text) (ret : Int) (retPath : Option Text)
  /-- A process exit record. -/
  | exited (status : Int)
  deriving DecidableEq, Repr

/-- One decoded line of the trace. -/
structure TraceLine where
  tid : Nat
  tsUs : Nat
  call : Call
  deriving DecidableEq, Repr

/-! ## Scanning argument text -/

/-- Where a scan of argument text stands. -/
structure Scan where
  depth : Nat
  inString : Bool
  escaped : Bool
  deriving DecidableEq, Repr

namespace Scan

/-- The state at the start of `split_args`. -/
def start : Scan := ⟨0, false, false⟩

/-- A character inside a string. -/
def inside (scan : Scan) (char : Char) : Scan :=
  if scan.escaped then { scan with escaped := false }
  else if char = '\\' then { scan with escaped := true }
  else if char = '"' then { scan with inString := false }
  else scan

end Scan

/-- An opening bracket. -/
def opens (char : Char) : Bool := char = '(' || char = '[' || char = '{'

/-- A closing bracket. -/
def closes (char : Char) : Bool := char = ')' || char = ']' || char = '}'

/-- A character put before the first of several pieces. -/
def extend (char : Char) : List Text -> List Text
  | [] => [[char]]
  | piece :: pieces => (char :: piece) :: pieces

/-- The loop of `split_args`: the pieces between top-level commas. -/
def splitPieces : Scan -> Text -> List Text
  | _, [] => [[]]
  | scan, char :: rest =>
      if scan.inString then extend char (splitPieces (scan.inside char) rest)
      else if char = '"' then
        extend char (splitPieces { scan with inString := true } rest)
      else if opens char then
        extend char (splitPieces { scan with depth := scan.depth + 1 } rest)
      else if closes char then
        extend char (splitPieces { scan with depth := scan.depth - 1 } rest)
      else if char = ',' ∧ scan.depth = 0 then [] :: splitPieces scan rest
      else extend char (splitPieces scan rest)

/-- The last piece is kept unless it is empty and the only one. -/
def keepLast : List Text -> List Text
  | [] => []
  | [last] => if last = [] then [] else [last]
  | pieces => pieces

/-- `split_args`. -/
def splitArgs (args : Text) : List Text :=
  keepLast ((splitPieces Scan.start args).map Text.trim)

/-! ## Quoted strings -/

/-- An octal digit and its value. -/
def octalDigit (char : Char) : Option Nat :=
  if '0' ≤ char ∧ char ≤ '7' then some (char.toNat - 48) else none

/-- Up to `count` more octal digits after `value`, and what follows them. -/
def readOctal : Nat -> Nat -> Text -> Nat × Text
  | 0, value, rest => (value, rest)
  | _, value, [] => (value, [])
  | count + 1, value, char :: rest =>
      match octalDigit char with
      | some digit => readOctal count (value * 8 + digit) rest
      | none => (value, char :: rest)

theorem readOctal_length
    (count value : Nat)
    (rest : Text) :
    (readOctal count value rest).2.length ≤ rest.length := by
  induction count generalizing value rest with
  | zero => simp [readOctal]
  | succ count hypothesis =>
      cases rest with
      | nil => simp [readOctal]
      | cons char rest =>
          rw [readOctal]
          split
          · exact (hypothesis _ rest).trans (Nat.le_succ _)
          · exact le_rfl

/-- What the character after a backslash stands for, and what follows. -/
def unescapeOne (char : Char) (rest : Text) : Char × Text :=
  match char with
  | 'n' => ('\n', rest)
  | 't' => ('\t', rest)
  | 'r' => ('\r', rest)
  | '0' => ('\x00', rest)
  | '"' => ('"', rest)
  | '\\' => ('\\', rest)
  | _ =>
      match octalDigit char with
      | some digit =>
          let octal := readOctal 2 digit rest
          (Char.ofNat octal.1, octal.2)
      | none => (char, rest)

theorem unescapeOne_length (char : Char) (rest : Text) :
    (unescapeOne char rest).2.length ≤ rest.length := by
  unfold unescapeOne
  split
  case h_7 =>
    split
    · exact readOctal_length _ _ _
    · exact le_rfl
  all_goals exact le_rfl

/-- `unescape`. -/
def unescape : Text -> Text
  | [] => []
  | ['\\'] => ['\\']
  | '\\' :: char :: rest =>
      (unescapeOne char rest).1 :: unescape (unescapeOne char rest).2
  | char :: rest => char :: unescape rest
termination_by text => text.length
decreasing_by
  · have := unescapeOne_length char rest
    simp only [List.length_cons]
    omega
  · simp

/-- `parse_quoted`. -/
def parseQuoted (arg : Text) : Option Text := do
  let inner ← Text.stripPrefix ['"'] (Text.trim arg)
  let parts ← Text.rsplitOnce '"' inner
  some (unescape parts.1)

end Exec
end Marsh
