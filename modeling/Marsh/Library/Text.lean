import Mathlib.Data.List.DropRight
import Mathlib.Data.List.Infix
import Mathlib.Data.Nat.Digits.Defs

/-!
# Text operations

Strings as lists of characters: trimming, cutting at a delimiter, and numerals
in any base up to sixteen with the values they are read back to.
-/

namespace Library

/-- A text. -/
abbrev Text := List Char

/-- Texts are compared letter by letter. -/
instance : LawfulBEq Text := inferInstance

namespace Text

/-! ## Kinds of characters -/

/-- The characters with the `White_Space` property. -/
def isWhitespace (char : Char) : Bool :=
  let code := char.toNat
  (9 ≤ code && code ≤ 13) || code = 32 || code = 0x85 || code = 0xA0 ||
    code = 0x1680 || (0x2000 ≤ code && code ≤ 0x200A) || code = 0x2028 ||
    code = 0x2029 || code = 0x202F || code = 0x205F || code = 0x3000

/-- Whether a character is a control character. -/
def isControl (char : Char) : Bool :=
  char.toNat < 32 || (127 ≤ char.toNat && char.toNat < 160)

/-- The text without its leading whitespace. -/
def trimStart (text : Text) : Text := text.dropWhile isWhitespace

/-- The text without its trailing whitespace. -/
def trimEnd (text : Text) : Text := text.rdropWhile isWhitespace

/-- The text without the whitespace around it. -/
def trim (text : Text) : Text := trimEnd (trimStart text)

/-- A text that starts and ends with something other than whitespace. -/
structure Tight (text : Text) : Prop where
  starts : ∃ first rest, text = first :: rest ∧ isWhitespace first = false
  ends : ∃ rest last, text = rest ++ [last] ∧ isWhitespace last = false

/-- The ASCII characters after the blank are visible. -/
theorem isWhitespace_eq_false
    {char : Char}
    (low : 33 ≤ char.toNat)
    (high : char.toNat < 0x85) : isWhitespace char = false := by
  simp only [isWhitespace, Bool.or_eq_false_iff, Bool.and_eq_false_iff,
    decide_eq_false_iff_not]
  omega

/-- A text of visible characters is tight. -/
theorem Tight.of_forall
    {text : Text}
    (some : text ≠ [])
    (visible : ∀ char ∈ text, isWhitespace char = false) : Tight text where
  starts := by
    cases text with
    | nil => contradiction
    | cons first rest =>
        exact ⟨first, rest, rfl, visible first List.mem_cons_self⟩
  ends := by
    refine ⟨text.dropLast, text.getLast some, ?_, ?_⟩
    · exact (List.dropLast_append_getLast some).symm
    · exact visible _ (List.getLast_mem some)

theorem trimStart_of_starts
    {first : Char}
    (visible : isWhitespace first = false)
    (rest : Text) : trimStart (first :: rest) = first :: rest := by
  rw [trimStart, List.dropWhile_cons_of_neg (by simp [visible])]

theorem trimEnd_of_ends
    {last : Char}
    (visible : isWhitespace last = false)
    (rest : Text) : trimEnd (rest ++ [last]) = rest ++ [last] :=
  List.rdropWhile_concat_neg _ _ _ (by simp [visible])

/-- Leading whitespace makes no difference to a trimmed text. -/
theorem trim_cons_of_whitespace
    {blank : Char}
    (whitespace : isWhitespace blank = true)
    (text : Text) : trim (blank :: text) = trim text := by
  rw [trim, trim, trimStart, trimStart, List.dropWhile_cons_of_pos whitespace]

theorem trimStart_append_of_whitespace
    {blanks : Text}
    (whitespace : ∀ blank ∈ blanks, isWhitespace blank = true)
    (text : Text) : trimStart (blanks ++ text) = trimStart text := by
  induction blanks with
  | nil => rfl
  | cons blank blanks hypothesis =>
      rw [List.cons_append, trimStart, List.dropWhile_cons_of_pos
        (whitespace blank List.mem_cons_self)]
      exact hypothesis fun other member =>
        whitespace other (List.mem_cons_of_mem _ member)

namespace Tight

variable {text : Text}

theorem ne_nil (tight : Tight text) : text ≠ [] := by
  obtain ⟨first, rest, rfl, -⟩ := tight.starts
  exact List.cons_ne_nil _ _

theorem trimStart (tight : Tight text) : Text.trimStart text = text := by
  obtain ⟨first, rest, rfl, visible⟩ := tight.starts
  exact trimStart_of_starts visible rest

theorem trimEnd (tight : Tight text) : Text.trimEnd text = text := by
  obtain ⟨rest, last, rfl, visible⟩ := tight.ends
  exact trimEnd_of_ends visible rest

/-- A tight text is trimmed already. -/
theorem trim (tight : Tight text) : Text.trim text = text := by
  rw [Text.trim, tight.trimStart, tight.trimEnd]

/-- A tight text put before one that ends visibly is tight. -/
theorem append
    (tight : Tight text)
    {other : Text}
    (ends : ∃ rest last, other = rest ++ [last] ∧ isWhitespace last = false) :
    Tight (text ++ other) := by
  obtain ⟨first, rest, rfl, visible⟩ := tight.starts
  obtain ⟨body, last, rfl, visibleLast⟩ := ends
  exact ⟨⟨first, rest ++ (body ++ [last]), rfl, visible⟩,
    ⟨first :: rest ++ body, last, by simp, visibleLast⟩⟩

end Tight

theorem length_trim_le (text : Text) : (trim text).length ≤ text.length :=
  (List.IsPrefix.length_le (List.rdropWhile_prefix _ _)).trans
    (List.IsSuffix.length_le (List.dropWhile_suffix _))

/-- Trimming keeps everything up to the last visible character. -/
theorem lt_length_trim
    {text : Text}
    (tight : Tight text)
    {next : Char}
    (visible : isWhitespace next = false)
    (rest : Text) : text.length < (trim (text ++ next :: rest)).length := by
  obtain ⟨first, others, rfl, visibleFirst⟩ := tight.starts
  rw [trim, List.cons_append, trimStart_of_starts visibleFirst]
  have parts := @List.rdropWhile_append_rtakeWhile _ isWhitespace
    (first :: (others ++ next :: rest))
  have shorter : (List.rtakeWhile isWhitespace
      (first :: (others ++ next :: rest))).length ≤ rest.length := by
    by_contra longer
    push Not at longer
    have suffix := List.rtakeWhile_suffix isWhitespace
      (first :: (others ++ next :: rest))
    have inside : next :: rest <:+ List.rtakeWhile isWhitespace
        (first :: (others ++ next :: rest)) :=
      List.suffix_of_suffix_length_le
        (List.suffix_append (first :: others) (next :: rest)) suffix longer
    have blank := List.mem_rtakeWhile_imp (inside.mem List.mem_cons_self)
    rw [visible] at blank
    contradiction
  have lengths := congrArg List.length parts
  simp only [List.length_append, List.length_cons] at lengths ⊢
  rw [trimEnd]
  omega

/-! ## Delimiters -/

/-- What follows a prefix. -/
def stripPrefix (start text : Text) : Option Text :=
  if start <+: text then some (text.drop start.length) else none

/-- What precedes a suffix. -/
def stripSuffix (ending text : Text) : Option Text :=
  if ending <:+ text then some (text.take (text.length - ending.length))
  else none

/-- What stands before and after the first occurrence of a pattern. -/
def splitOnce (pattern : Text) : Text -> Option (Text × Text)
  | [] => if pattern = [] then some ([], []) else none
  | char :: rest =>
      if pattern <+: char :: rest then
        some ([], (char :: rest).drop pattern.length)
      else (splitOnce pattern rest).map fun parts => (char :: parts.1, parts.2)

/-- What stands before and after the last occurrence of a character. -/
def rsplitOnce (char : Char) (text : Text) : Option (Text × Text) :=
  (splitOnce [char] text.reverse).map fun parts =>
    (parts.2.reverse, parts.1.reverse)

@[simp] theorem stripPrefix_append (start rest : Text) :
    stripPrefix start (start ++ rest) = some rest := by
  rw [stripPrefix, if_pos (List.prefix_append _ _), List.drop_left]

theorem stripPrefix_eq_none {start text : Text} (apart : ¬ start <+: text) :
    stripPrefix start text = none :=
  if_neg apart

@[simp] theorem stripSuffix_append (rest ending : Text) :
    stripSuffix ending (rest ++ ending) = some rest := by
  rw [stripSuffix, if_pos (List.suffix_append _ _), List.length_append,
    Nat.add_sub_cancel, List.take_left]

theorem stripSuffix_eq_none {ending text : Text} (apart : ¬ ending <:+ text) :
    stripSuffix ending text = none :=
  if_neg apart

/-- A text is cut at the first occurrence of a pattern. -/
theorem splitOnce_pattern_append
    {first : Char}
    {before : Text}
    (absent : first ∉ before)
    (others after : Text) :
    splitOnce (first :: others) (before ++ first :: (others ++ after)) =
      some (before, after) := by
  induction before with
  | nil =>
      have starts : first :: others <+: first :: (others ++ after) :=
        List.prefix_append (first :: others) after
      rw [List.nil_append, splitOnce, if_pos starts, List.length_cons,
        List.drop_succ_cons, List.drop_left]
  | cons char before hypothesis =>
      rw [List.mem_cons, not_or] at absent
      have apart : ¬ first :: others <+:
          char :: (before ++ first :: (others ++ after)) := by
        rw [List.cons_prefix_cons]
        exact fun both => absent.1 both.1
      rw [List.cons_append, splitOnce, if_neg apart, hypothesis absent.2]
      rfl

/-- A text is cut at the first occurrence of a character. -/
theorem splitOnce_append
    {char : Char}
    {before : Text}
    (absent : char ∉ before)
    (after : Text) :
    splitOnce [char] (before ++ char :: after) = some (before, after) :=
  splitOnce_pattern_append absent [] after

/-- A text is cut at the last occurrence of a character. -/
theorem rsplitOnce_append
    {char : Char}
    {after : Text}
    (absent : char ∉ after)
    (before : Text) :
    rsplitOnce char (before ++ char :: after) = some (before, after) := by
  have reversed : (before ++ char :: after).reverse =
      after.reverse ++ char :: before.reverse := by simp
  rw [rsplitOnce, reversed, splitOnce_append (by simpa using absent)]
  simp

/-! ## Numerals -/

/-- The value of a digit. -/
def digitValue (base : Nat) (char : Char) : Option Nat :=
  let code := char.toNat
  let value :=
    if 48 ≤ code ∧ code ≤ 57 then some (code - 48)
    else if 97 ≤ code ∧ code ≤ 102 then some (code - 87)
    else if 65 ≤ code ∧ code ≤ 70 then some (code - 55)
    else none
  value.filter (· < base)

/-- The value of digits after a number read so far. -/
def readDigits (base : Nat) : Nat -> Text -> Option Nat
  | value, [] => some value
  | value, char :: rest =>
      (digitValue base char).bind fun digit =>
        readDigits base (base * value + digit) rest

/-- The value of a numeral, which is not empty. -/
def parseDigits (base : Nat) (text : Text) : Option Nat :=
  if text = [] then none else readDigits base 0 text

theorem digitValue_digitChar
    {base digit : Nat}
    (small : base ≤ 16)
    (below : digit < base) : digitValue base digit.digitChar = some digit := by
  have values : ∀ digit < 16, digitValue 16 digit.digitChar = some digit := by
    decide
  have value := values digit (by omega)
  unfold digitValue at value ⊢
  rw [Option.filter_eq_some_iff] at value ⊢
  exact ⟨value.1, by simpa using below⟩

theorem readDigits_append
    (base value : Nat)
    (text rest : Text) :
    readDigits base value (text ++ rest) =
      (readDigits base value text).bind fun value =>
        readDigits base value rest := by
  induction text generalizing value with
  | nil => rfl
  | cons char text hypothesis =>
      rw [List.cons_append, readDigits, readDigits]
      cases digitValue base char with
      | none => rfl
      | some digit => exact hypothesis _

/-- A numeral is read back as its number. -/
theorem parseDigits_toDigits
    {base : Nat}
    (large : 1 < base)
    (small : base ≤ 16)
    (number : Nat) :
    parseDigits base (Nat.toDigits base number) = some number := by
  rw [parseDigits, if_neg Nat.toDigits_ne_nil]
  induction number using Nat.strong_induction_on with
  | _ number hypothesis =>
      rw [Nat.toDigits_eq_if large]
      split_ifs with below
      · rw [readDigits, digitValue_digitChar small below, Option.bind_some,
          Nat.mul_zero, Nat.zero_add]
        rfl
      · rw [readDigits_append,
          hypothesis (number / base) (Nat.div_lt_self (by omega) large),
          Option.bind_some, readDigits,
          digitValue_digitChar small (Nat.mod_lt _ (by omega)),
          Option.bind_some, Nat.div_add_mod]
        rfl

/-- Every character of a numeral is a digit. -/
theorem digitValue_isSome_of_mem
    {base : Nat}
    (large : 1 < base)
    (small : base ≤ 16)
    {number : Nat}
    {char : Char}
    (member : char ∈ Nat.toDigits base number) :
    (digitValue base char).isSome := by
  induction number using Nat.strong_induction_on with
  | _ number hypothesis =>
      rw [Nat.toDigits_eq_if large] at member
      split_ifs at member with below
      · obtain rfl := List.mem_singleton.mp member
        rw [digitValue_digitChar small below]
        rfl
      · rcases List.mem_append.mp member with early | last
        · exact hypothesis (number / base)
            (Nat.div_lt_self (by omega) large) early
        · obtain rfl := List.mem_singleton.mp last
          rw [digitValue_digitChar small (Nat.mod_lt _ (by omega))]
          rfl

/-- The codes of digits. -/
theorem code_of_digitValue
    {base : Nat}
    {char : Char}
    (digit : (digitValue base char).isSome) :
    48 ≤ char.toNat ∧ char.toNat ≤ 102 := by
  obtain ⟨value, found⟩ := Option.isSome_iff_exists.mp digit
  rw [digitValue, Option.filter_eq_some_iff] at found
  have listed := found.1
  split_ifs at listed <;> omega

theorem isWhitespace_of_digitValue
    {base : Nat}
    {char : Char}
    (digit : (digitValue base char).isSome) : isWhitespace char = false := by
  have code := code_of_digitValue digit
  exact isWhitespace_eq_false (by omega) (by omega)

/-- A numeral is tight. -/
theorem tight_toDigits
    {base : Nat}
    (large : 1 < base)
    (small : base ≤ 16)
    (number : Nat) : Tight (Nat.toDigits base number) :=
  .of_forall Nat.toDigits_ne_nil fun _ member =>
    isWhitespace_of_digitValue (digitValue_isSome_of_mem large small member)

/-! ## Rotations -/

/-- Where a block moves from the front of a text to its end, it arrives as one of
its rotations. -/
theorem exists_rotation
    {block text moved : Text}
    (same : block ++ text = text ++ moved) :
    ∃ front back, block = front ++ back ∧ moved = back ++ front := by
  induction lengthEq : text.length using Nat.strong_induction_on
    generalizing text with
  | h length hypothesis =>
      obtain ⟨rest, textEq, restEq⟩ | ⟨rest, blockEq, movedEq⟩ :=
        List.append_eq_append_iff.mp same
      · rcases block with _ | ⟨first, block⟩
        · rw [List.nil_append, List.self_eq_append_right] at same
          exact ⟨[], [], rfl, same⟩
        · refine hypothesis rest.length ?_ (textEq.symm.trans restEq) rfl
          rw [← lengthEq, textEq, List.length_append, List.length_cons]
          omega
      · exact ⟨text, rest, blockEq, movedEq⟩

/-- A text is found again after some characters, all unlike the one after it, only
when there are none. -/
theorem eq_nil_of_shift
    {block text rest others : Text}
    {next : Char}
    (same : text ++ next :: rest = block ++ (text ++ others))
    (absent : next ∉ block) : block = [] := by
  induction text generalizing block with
  | nil =>
      cases block with
      | nil => rfl
      | cons first block =>
          have first_eq := (List.cons.inj same).1
          exact absurd List.mem_cons_self (first_eq ▸ absent)
  | cons char text hypothesis =>
      cases block with
      | nil => rfl
      | cons first block =>
          obtain ⟨rfl, later⟩ := List.cons.inj same
          have shape : text ++ next :: rest =
              (block ++ [char]) ++ (text ++ others) :=
            later.trans (List.append_cons block char (text ++ others))
          have empty := hypothesis shape (by
            intro member
            rcases List.mem_append.mp member with member | member
            · exact absent (List.mem_cons_of_mem _ member)
            · rw [List.mem_singleton.mp member] at absent
              exact absent List.mem_cons_self)
          simp at empty

end Text

end Library
