import Marsh.Exec.Strace

/-!
# What strace prints

One line of `strace -f -y -ttt` for a completed syscall: how byte strings are
escaped, and how arguments, return values and stamps are written.
-/

namespace Marsh
namespace Exec

open Library

/-! ## Byte strings -/

/-- A byte that is an octal digit. -/
def isOctalByte (byte : UInt8) : Bool := 48 ≤ byte && byte ≤ 55

/-- A printable ASCII byte. -/
def isPrintableByte (byte : UInt8) : Bool := 32 ≤ byte && byte < 127

/-- The octal digits of a byte, all three before another octal digit. -/
def octalDigits (byte : UInt8) (next : Option UInt8) : Text :=
  if next.any isOctalByte then
    [Nat.digitChar (byte.toNat / 64), Nat.digitChar (byte.toNat / 8 % 8),
      Nat.digitChar (byte.toNat % 8)]
  else Nat.toDigits 8 byte.toNat

/-- The C escape of a byte before another. -/
def escapeByte (byte : UInt8) (next : Option UInt8) : Text :=
  if byte = 34 then ['\\', '"']
  else if byte = 92 then ['\\', '\\']
  else if byte = 10 then ['\\', 'n']
  else if byte = 9 then ['\\', 't']
  else if byte = 13 then ['\\', 'r']
  else if byte = 11 then ['\\', 'v']
  else if byte = 12 then ['\\', 'f']
  else if isPrintableByte byte then [Char.ofNat byte.toNat]
  else '\\' :: octalDigits byte next

/-- A byte string as it is printed. -/
def escape : List UInt8 -> Text
  | [] => []
  | byte :: rest => escapeByte byte rest.head? ++ escape rest

/-- A quoted byte string. -/
def quote (bytes : List UInt8) : Text := '"' :: (escape bytes ++ ['"'])

/-! ## Arguments -/

/-- A character a line can hold. -/
def isPrintable (char : Char) : Bool := 32 ≤ char.toNat && char.toNat ≠ 127

/-- A printed absolute path. -/
structure IsPath (path : Text) : Prop where
  absolute : path.head? = some '/'
  printable : ∀ char ∈ path, isPrintable char = true

/-- A pair of brackets. -/
inductive Bracket
  | round
  | square
  | curly
  deriving DecidableEq, Repr

namespace Bracket

def opening : Bracket -> Char
  | .round => '('
  | .square => '['
  | .curly => '{'

def closing : Bracket -> Char
  | .round => ')'
  | .square => ']'
  | .curly => '}'

end Bracket

/-- A character of a word, a number or a flag. -/
def isWordChar (char : Char) : Bool :=
  isPrintable char && !(char = '"' || opens char || closes char || char = ',')

/-- An argument piece by piece: characters of words, quoted strings, the path a
descriptor is decorated with, and structures, in which commas separate. -/
inductive Tokens
  | done
  | word (char : Char) (rest : Tokens)
  | comma (rest : Tokens)
  | quoted (bytes : List UInt8) (rest : Tokens)
  | decorated (path : Text) (rest : Tokens)
  | bracketed (bracket : Bracket) (inner rest : Tokens)

namespace Tokens

/-- The text of the pieces. -/
def render : Tokens -> Text
  | .done => []
  | .word char rest => char :: rest.render
  | .comma rest => ',' :: rest.render
  | .quoted bytes rest => quote bytes ++ rest.render
  | .decorated path rest => '<' :: (path ++ '>' :: rest.render)
  | .bracketed bracket inner rest =>
      bracket.opening :: (inner.render ++ bracket.closing :: rest.render)

/-- Commas stand in structures only, and decorations are absolute paths. -/
def WellFormed (nested : Bool) : Tokens -> Prop
  | .done => True
  | .word char rest => isWordChar char = true ∧ rest.WellFormed nested
  | .comma rest => nested = true ∧ rest.WellFormed nested
  | .quoted _ rest => rest.WellFormed nested
  | .decorated path rest => IsPath path ∧ rest.WellFormed nested
  | .bracketed _ inner rest => inner.WellFormed true ∧ rest.WellFormed nested

end Tokens

/-- An argument of a syscall. -/
structure Argument where
  tokens : Tokens
  formed : tokens.WellFormed false
  tight : Text.Tight tokens.render

/-- The text of an argument. -/
def Argument.render (argument : Argument) : Text := argument.tokens.render

/-- Texts separated by commas. -/
def joinArgs : List Text -> Text
  | [] => []
  | [arg] => arg
  | arg :: next :: args => arg ++ ',' :: ' ' :: joinArgs (next :: args)

/-! ## Return values -/

/-- A word of letters, digits and underscores. -/
structure IsName (name : Text) : Prop where
  ne_nil : name ≠ []
  letters : name.all isNameChar = true

/-- A return value. -/
inductive Return
  /-- A number. -/
  | value (number : Int) (low : -2 ^ 63 ≤ number) (high : number < 2 ^ 63)
  /-- An address or a word of flags. -/
  | address (number : Nat) (high : number < 2 ^ 63)
  /-- A descriptor and the path it was resolved to. -/
  | descriptor (fd : Nat) (high : fd < 2 ^ 63) (path : Text) (isPath : IsPath path)
  /-- An error and its message. -/
  | errno (name message : Text) (named : IsName name)
    (printable : ∀ char ∈ message, isPrintable char = true)

namespace Return

/-- A signed decimal number. -/
def decimal : Int -> Text
  | .ofNat number => Nat.toDigits 10 number
  | .negSucc number => '-' :: Nat.toDigits 10 (number + 1)

/-- The text of a return value. -/
def render : Return -> Text
  | .value result _ _ => decimal result
  | .address result _ => '0' :: 'x' :: Nat.toDigits 16 result
  | .descriptor fd _ path _ => Nat.toDigits 10 fd ++ '<' :: (path ++ ['>'])
  | .errno name message _ _ =>
      '-' :: '1' :: ' ' :: (name ++ ' ' :: '(' :: (message ++ [')']))

/-- The number returned. -/
def number : Return -> Int
  | .value result _ _ => result
  | .address result _ => result
  | .descriptor fd _ _ _ => fd
  | .errno .. => -1

/-- The path a returned descriptor is decorated with. -/
def path : Return -> Option Text
  | .descriptor _ _ path _ => some path
  | _ => none

end Return

/-! ## Lines -/

/-- A number of six digits. -/
def sixDigits (number : Nat) : Text :=
  [100000, 10000, 1000, 100, 10, 1].map fun unit =>
    Nat.digitChar (number / unit % 10)

/-- A completed syscall: the thread, the stamp in microseconds, the call, and
the blanks that align its columns. -/
structure SyscallRecord where
  tid : Nat
  tsUs : Nat
  name : Text
  args : List Argument
  ret : Return
  tidBlanks : Nat
  retBlanks : Nat
  isThread : tid < 2 ^ 32
  isStamp : tsUs < 2 ^ 64
  isName : IsName name

namespace SyscallRecord

variable (record : SyscallRecord)

/-- The text between the parentheses. -/
def argsText : Text := joinArgs (record.args.map Argument.render)

/-- What follows the opening parenthesis. -/
def body : Text :=
  record.argsText ++ ')' :: (List.replicate (record.retBlanks + 1) ' ' ++
    '=' :: ' ' :: record.ret.render)

/-- The line of a syscall. -/
def render : Text :=
  Nat.toDigits 10 record.tid ++ (List.replicate (record.tidBlanks + 1) ' ' ++
    (Nat.toDigits 10 (record.tsUs / 1000000) ++ '.' ::
      (sixDigits (record.tsUs % 1000000) ++ ' ' ::
        (record.name ++ '(' :: record.body))))

/-- The record the line is to be decoded to. -/
def line : TraceLine :=
  ⟨record.tid, record.tsUs,
    .syscall record.name record.argsText record.ret.number record.ret.path⟩

end SyscallRecord

end Exec
end Marsh
