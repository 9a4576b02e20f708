import Marsh.Exec.Escapes
import Marsh.Library.Utf8
import Mathlib.Tactic.IntervalCases

/-!
# Reading escapes back

What `unescape` makes of an escaped byte string, byte by byte, and which strings
it reads back.
-/

namespace Marsh
namespace Exec

open Library

/-! ## Single escapes -/

theorem unescape_cons
    {char : Char}
    (plain : char ≠ '\\')
    (rest : Text) : unescape (char :: rest) = char :: unescape rest := by
  rw [unescape]
  · intro same
    contradiction
  · intro other more same
    contradiction

theorem unescape_backslash (char : Char) (rest : Text) :
    unescape ('\\' :: char :: rest) =
      (unescapeOne char rest).1 :: unescape (unescapeOne char rest).2 := by
  rw [unescape]

theorem octalDigit_digitChar
    {digit : Nat}
    (below : digit < 8) : octalDigit digit.digitChar = some digit := by
  have digits : ∀ digit < 8, octalDigit digit.digitChar = some digit := by
    decide
  exact digits digit below

/-- An octal escape that does not start with a zero. -/
theorem unescapeOne_digitChar
    {digit : Nat}
    (positive : 0 < digit)
    (below : digit < 8)
    (rest : Text) :
    unescapeOne digit.digitChar rest =
      (Char.ofNat (readOctal 2 digit rest).1, (readOctal 2 digit rest).2) := by
  interval_cases digit <;> rfl

/-- No octal digit starts the text. -/
def StopsOctal (rest : Text) : Prop :=
  ∀ char ∈ rest.head?, octalDigit char = none

theorem readOctal_stops
    {rest : Text}
    (stops : StopsOctal rest)
    (count value : Nat) : readOctal count value rest = (value, rest) := by
  cases count with
  | zero => rfl
  | succ count =>
      cases rest with
      | nil => rfl
      | cons char rest =>
          rw [readOctal, stops char rfl]

theorem readOctal_digitChar
    {digit : Nat}
    (below : digit < 8)
    (count value : Nat)
    (rest : Text) :
    readOctal (count + 1) value (digit.digitChar :: rest) =
      readOctal count (value * 8 + digit) rest := by
  rw [readOctal, octalDigit_digitChar below]

/-- An octal escape of three digits is read back, unless the first is a zero. -/
theorem unescape_threeDigits
    {number : Nat}
    (large : 64 ≤ number)
    (small : number < 256)
    (rest : Text) :
    unescape ('\\' :: (number / 64).digitChar :: (number / 8 % 8).digitChar ::
        (number % 8).digitChar :: rest) =
      Char.ofNat number :: unescape rest := by
  have whole : (number / 64 * 8 + number / 8 % 8) * 8 + number % 8 = number := by
    omega
  rw [unescape_backslash, unescapeOne_digitChar (by omega) (by omega),
    readOctal_digitChar (Nat.mod_lt _ (by decide)),
    readOctal_digitChar (Nat.mod_lt _ (by decide)), whole]
  rfl

/-- The shortest octal escape is read back when no digit follows it. -/
theorem unescape_toDigits
    {number : Nat}
    (small : number < 256)
    {rest : Text}
    (stops : StopsOctal rest) :
    unescape ('\\' :: (Nat.toDigits 8 number ++ rest)) =
      Char.ofNat number :: unescape rest := by
  by_cases single : number < 8
  · rw [Nat.toDigits_of_lt_base single, List.singleton_append,
      unescape_backslash]
    by_cases positive : 0 < number
    · rw [unescapeOne_digitChar positive single, readOctal_stops stops]
    · obtain rfl : number = 0 := by omega
      rfl
  · rw [Nat.toDigits_of_base_le (by decide) (by omega), List.append_assoc]
    by_cases double : number < 64
    · have whole : number / 8 * 8 + number % 8 = number := by omega
      rw [Nat.toDigits_of_lt_base (by omega), List.singleton_append,
        List.singleton_append, unescape_backslash,
        unescapeOne_digitChar (by omega) (by omega),
        readOctal_digitChar (Nat.mod_lt _ (by decide)), whole,
        readOctal_stops stops]
    · have first : number / 8 / 8 = number / 64 := by omega
      rw [Nat.toDigits_of_base_le (by decide) (by omega),
        Nat.toDigits_of_lt_base (by omega), first]
      exact unescape_threeDigits (by omega) small rest

/-! ## Whole strings -/

/-- A byte that is printed as an octal escape. -/
def isOctalEscaped (byte : UInt8) : Bool :=
  !isPrintableByte byte && byte ≠ 9 && byte ≠ 10 && byte ≠ 11 && byte ≠ 12 &&
    byte ≠ 13

/-- What the escape of a byte is read as. -/
def decoded (byte : UInt8) (beforeDigit : Bool) : Text :=
  if byte = 11 then ['v']
  else if byte = 12 then ['f']
  else if isOctalEscaped byte ∧ byte < 64 ∧ beforeDigit then
    ['\x00', (byte.toNat / 8 % 8).digitChar, (byte.toNat % 8).digitChar]
  else [Char.ofNat byte.toNat]

theorem digitChar_ne_backslash
    {digit : Nat}
    (below : digit < 8) : digit.digitChar ≠ '\\' := by
  interval_cases digit <;> decide

/-- The escape of a byte is read, whatever follows. -/
theorem unescape_escapeByte
    (byte : UInt8)
    {next : Option UInt8}
    {rest : Text}
    (stops : next.any isOctalByte = false -> StopsOctal rest) :
    unescape (escapeByte byte next ++ rest) =
      decoded byte (next.any isOctalByte) ++ unescape rest := by
  have small : byte.toNat < 256 := byte.toNat_lt
  unfold escapeByte
  split_ifs with quote backslash newline tab carriage vertical feed printable
  · subst quote
    exact unescape_backslash _ _
  · subst backslash
    exact unescape_backslash _ _
  · subst newline
    exact unescape_backslash _ _
  · subst tab
    exact unescape_backslash _ _
  · subst carriage
    exact unescape_backslash _ _
  · subst vertical
    exact unescape_backslash _ _
  · subst feed
    exact unescape_backslash _ _
  · have plain := ofNat_plain printable quote backslash
    rw [List.singleton_append, unescape_cons plain.1]
    simp [decoded, vertical, feed, isOctalEscaped, printable]
  · have escaped : isOctalEscaped byte = true := by
      simp [isOctalEscaped, printable, tab, newline, vertical, feed, carriage]
    unfold decoded
    rw [if_neg vertical, if_neg feed]
    unfold octalDigits
    cases before : next.any isOctalByte with
    | false =>
        rw [if_neg Bool.false_ne_true, if_neg (by simp)]
        exact unescape_toDigits small (stops before)
    | true =>
        rw [if_pos rfl]
        by_cases padded : byte < 64
        · have low : byte.toNat < 64 := UInt8.lt_iff_toNat_lt.mp padded
          have zero : byte.toNat / 64 = 0 := by omega
          have plain : ∀ number : Nat, (number % 8).digitChar ≠ '\\' := fun _ =>
            digitChar_ne_backslash (Nat.mod_lt _ (by decide))
          rw [if_pos ⟨escaped, padded, rfl⟩, zero]
          refine (unescape_backslash _ _).trans (congrArg ('\x00' :: ·) ?_)
          exact (unescape_cons (plain _) _).trans
            (congrArg (_ :: ·) (unescape_cons (plain _) _))
        · have high : 64 ≤ byte.toNat :=
            UInt8.le_iff_toNat_le.mp (UInt8.not_lt.mp padded)
          rw [if_neg (by simp [padded])]
          exact unescape_threeDigits high small rest

/-- What an escaped byte string is read as. -/
def decodedBytes : List UInt8 -> Text
  | [] => []
  | byte :: rest =>
      decoded byte (rest.head?.any isOctalByte) ++ decodedBytes rest

/-- An escape starts with an octal digit only when its bytes do. -/
theorem stopsOctal_escape
    {bytes : List UInt8}
    (start : bytes.head?.any isOctalByte = false) :
    StopsOctal (escape bytes) := by
  have backslash : octalDigit '\\' = none := by decide
  have plain : ∀ code < 127, ¬ (48 ≤ code ∧ code ≤ 55) ->
      octalDigit (Char.ofNat code) = none := by
    decide
  cases bytes with
  | nil =>
      intro char head
      cases head
  | cons byte bytes =>
      intro char head
      rw [escape] at head
      have first : (escapeByte byte bytes.head?).head? = some char := by
        rw [← head, List.head?_append_of_ne_nil]
        exact List.ne_nil_of_length_pos (length_escapeByte byte _).1
      unfold escapeByte at first
      split_ifs at first with quote slash newline tab carriage vertical feed
        printable
      all_goals
        obtain rfl := Option.some.inj first
      all_goals try exact backslash
      simp only [isPrintableByte, Bool.and_eq_true, decide_eq_true_eq]
        at printable
      refine plain _ (UInt8.lt_iff_toNat_lt.mp printable.2) fun octal => ?_
      have digit : isOctalByte byte = true := by
        simpa [isOctalByte, UInt8.le_iff_toNat_le] using octal
      simp [digit] at start

theorem unescape_escape (bytes : List UInt8) :
    unescape (escape bytes) = decodedBytes bytes := by
  induction bytes with
  | nil => rw [escape, unescape]; rfl
  | cons byte bytes hypothesis =>
      rw [escape, unescape_escapeByte byte stopsOctal_escape, hypothesis]
      rfl

/-! ## The strings that are read back -/

/-- A byte whose escape is read back: ASCII, no vertical tab and no form feed,
and no control character printed as an octal escape before an octal digit. -/
def ReadableByte (byte : UInt8) (beforeDigit : Bool) : Prop :=
  byte < 0x80 ∧ byte ≠ 11 ∧ byte ≠ 12 ∧
    ¬ (byte < 32 ∧ isOctalEscaped byte = true ∧ beforeDigit = true)

instance (byte : UInt8) (beforeDigit : Bool) :
    Decidable (ReadableByte byte beforeDigit) :=
  inferInstanceAs (Decidable (_ ∧ _ ∧ _ ∧ ¬ _))

/-- A byte string whose escape is read back. -/
def Readable : List UInt8 -> Prop
  | [] => True
  | byte :: rest =>
      ReadableByte byte (rest.head?.any isOctalByte) ∧ Readable rest

theorem decoded_bytes (byte : UInt8) (beforeDigit : Bool) :
    1 ≤ (decoded byte beforeDigit).bytes.length ∧
      ((decoded byte beforeDigit).bytes = [byte] ↔
        ReadableByte byte beforeDigit) := by
  have all : ∀ code < 256, ∀ beforeDigit : Bool,
      1 ≤ (decoded (UInt8.ofNat code) beforeDigit).bytes.length ∧
        ((decoded (UInt8.ofNat code) beforeDigit).bytes = [UInt8.ofNat code] ↔
          ReadableByte (UInt8.ofNat code) beforeDigit) := by
    decide +kernel
  have own := all byte.toNat byte.toNat_lt beforeDigit
  rwa [UInt8.ofNat_toNat] at own

theorem length_decodedBytes (bytes : List UInt8) :
    bytes.length ≤ (decodedBytes bytes).bytes.length := by
  induction bytes with
  | nil => exact le_rfl
  | cons byte bytes hypothesis =>
      have own := (decoded_bytes byte (bytes.head?.any isOctalByte)).1
      rw [decodedBytes, Text.bytes_append, List.length_append, List.length_cons]
      omega

theorem decodedBytes_eq_iff (bytes : List UInt8) :
    (decodedBytes bytes).bytes = bytes ↔ Readable bytes := by
  induction bytes with
  | nil => exact ⟨fun _ => trivial, fun _ => rfl⟩
  | cons byte bytes hypothesis =>
      have own := decoded_bytes byte (bytes.head?.any isOctalByte)
      have rest := length_decodedBytes bytes
      rw [decodedBytes, Text.bytes_append, Readable, ← hypothesis, ← own.2]
      constructor
      · intro same
        have lengths := congrArg List.length same
        rw [List.length_append, List.length_cons] at lengths
        obtain ⟨single, shape⟩ := List.length_eq_one_iff.mp
          (by omega : (decoded byte (bytes.head?.any isOctalByte)).bytes.length = 1)
        rw [shape] at same ⊢
        obtain ⟨rfl, later⟩ := List.cons.inj same
        exact ⟨rfl, later⟩
      · rintro ⟨first, later⟩
        rw [first, later]
        rfl

theorem parseQuoted_quote (bytes : List UInt8) :
    parseQuoted (quote bytes) = some (unescape (escape bytes)) := by
  have tight : Text.Tight (quote bytes) :=
    ⟨⟨'"', _, rfl, by decide⟩, ⟨'"' :: escape bytes, '"', rfl, by decide⟩⟩
  have inner : Text.stripPrefix ['"'] (quote bytes) = some (escape bytes ++ ['"']) :=
    Text.stripPrefix_append ['"'] _
  have close : Text.rsplitOnce '"' (escape bytes ++ ['"']) =
      some (escape bytes, []) :=
    Text.rsplitOnce_append List.not_mem_nil _
  rw [parseQuoted, tight.trim, inner]
  simp [close]

/-- A quoted byte string is read back exactly when each of its bytes is. -/
theorem parseQuoted_quote_iff (bytes : List UInt8) :
    (parseQuoted (quote bytes)).map Text.bytes = some bytes ↔ Readable bytes := by
  rw [parseQuoted_quote, unescape_escape, Option.map_some, Option.some.injEq,
    decodedBytes_eq_iff]

/-- Plain bytes are read back. -/
theorem readable_of_plain
    {bytes : List UInt8}
    (plain : ∀ byte ∈ bytes, isPlainByte byte = true) : Readable bytes := by
  have all : ∀ code < 256, ∀ beforeDigit : Bool,
      isPlainByte (UInt8.ofNat code) = true ->
        ReadableByte (UInt8.ofNat code) beforeDigit := by
    decide +kernel
  induction bytes with
  | nil => trivial
  | cons byte bytes hypothesis =>
      have own := all byte.toNat byte.toNat_lt (bytes.head?.any isOctalByte)
      rw [UInt8.ofNat_toNat] at own
      exact ⟨own (plain byte List.mem_cons_self), hypothesis fun other member =>
        plain other (List.mem_cons_of_mem _ member)⟩

end Exec
end Marsh
