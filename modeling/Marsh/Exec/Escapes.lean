import Marsh.Exec.StraceText

/-!
# Escaped byte strings

What a byte string is escaped to: printable ASCII, at least one character for
each byte, and no more than that for plain bytes only.
-/

namespace Marsh
namespace Exec

open Library

/-! ## Octal digits -/

/-- The digits of a byte are octal digits. -/
theorem digitValue_of_mem_octalDigits
    {byte : UInt8}
    {next : Option UInt8}
    {char : Char}
    (member : char ∈ octalDigits byte next) :
    (Text.digitValue 8 char).isSome := by
  have below : ∀ digit < 8, (Text.digitValue 8 digit.digitChar).isSome := by
    decide
  have small : byte.toNat < 256 := byte.toNat_lt
  unfold octalDigits at member
  split_ifs at member
  · simp only [List.mem_cons, List.not_mem_nil, or_false] at member
    rcases member with rfl | rfl | rfl <;> exact below _ (by omega)
  · exact Text.digitValue_isSome_of_mem (by decide) (by decide) member

theorem octalDigits_ne_nil (byte : UInt8) (next : Option UInt8) :
    octalDigits byte next ≠ [] := by
  unfold octalDigits
  split_ifs
  · exact List.cons_ne_nil _ _
  · exact Nat.toDigits_ne_nil

/-- A printable byte other than a quote and a backslash is printed plainly. -/
theorem ofNat_plain
    {byte : UInt8}
    (printable : isPrintableByte byte = true)
    (quote : byte ≠ 34)
    (backslash : byte ≠ 92) :
    Char.ofNat byte.toNat ≠ '\\' ∧ Char.ofNat byte.toNat ≠ '"' := by
  have plain : ∀ code < 127, code ≠ 34 -> code ≠ 92 ->
      Char.ofNat code ≠ '\\' ∧ Char.ofNat code ≠ '"' := by
    decide
  have below : byte.toNat < 127 := by
    simp only [isPrintableByte, Bool.and_eq_true, decide_eq_true_eq] at printable
    exact UInt8.lt_iff_toNat_lt.mp printable.2
  exact plain _ below (fun same => quote (UInt8.toNat_inj.mp same))
    fun same => backslash (UInt8.toNat_inj.mp same)

/-! ## The characters of an escape -/

theorem code_of_mem_escapeByte
    {byte : UInt8}
    {next : Option UInt8}
    {char : Char}
    (member : char ∈ escapeByte byte next) :
    32 ≤ char.toNat ∧ char.toNat < 127 := by
  have code : ∀ text : Text,
      text.all (fun other => 32 ≤ other.toNat && other.toNat < 127) = true ->
        char ∈ text -> 32 ≤ char.toNat ∧ char.toNat < 127 :=
    fun text all listed => by simpa using List.all_eq_true.mp all char listed
  unfold escapeByte at member
  split_ifs at member with quote backslash newline tab carriage vertical feed
    printable
  · exact code _ (by decide) member
  · exact code _ (by decide) member
  · exact code _ (by decide) member
  · exact code _ (by decide) member
  · exact code _ (by decide) member
  · exact code _ (by decide) member
  · exact code _ (by decide) member
  · have plain : ∀ code < 127, 32 ≤ code -> (Char.ofNat code).toNat = code := by
      decide
    simp only [isPrintableByte, Bool.and_eq_true, decide_eq_true_eq] at printable
    have low : 32 ≤ byte.toNat := UInt8.le_iff_toNat_le.mp printable.1
    have high : byte.toNat < 127 := UInt8.lt_iff_toNat_lt.mp printable.2
    obtain rfl := List.mem_singleton.mp member
    rw [plain _ high low]
    exact ⟨low, high⟩
  · rcases List.mem_cons.mp member with rfl | digit
    · decide
    · have between := Text.code_of_digitValue (digitValue_of_mem_octalDigits digit)
      omega

/-- An escape is printable ASCII. -/
theorem code_of_mem_escape
    {bytes : List UInt8}
    {char : Char}
    (member : char ∈ escape bytes) : 32 ≤ char.toNat ∧ char.toNat < 127 := by
  induction bytes with
  | nil => exact absurd member List.not_mem_nil
  | cons byte bytes hypothesis =>
      rcases List.mem_append.mp member with own | later
      · exact code_of_mem_escapeByte own
      · exact hypothesis later

/-! ## Plain bytes -/

/-- A byte that stands for itself. -/
def isPlainByte (byte : UInt8) : Bool :=
  isPrintableByte byte && byte ≠ 34 && byte ≠ 92

/-- A plain byte is its own escape. -/
theorem escapeByte_of_plain
    {byte : UInt8}
    (plain : isPlainByte byte = true)
    (next : Option UInt8) : escapeByte byte next = [Char.ofNat byte.toNat] := by
  simp only [isPlainByte, Bool.and_eq_true, decide_eq_true_eq] at plain
  have above : ∀ control : UInt8, control < 32 -> byte ≠ control := by
    rintro control low rfl
    have printable := plain.1.1
    rw [isPrintableByte, decide_eq_false (UInt8.not_le.mpr low)] at printable
    contradiction
  rw [escapeByte, if_neg plain.1.2, if_neg plain.2, if_neg (above 10 (by decide)),
    if_neg (above 9 (by decide)), if_neg (above 13 (by decide)),
    if_neg (above 11 (by decide)), if_neg (above 12 (by decide)),
    if_pos plain.1.1]

/-- Plain bytes are their own escape. -/
theorem escape_of_plain
    {bytes : List UInt8}
    (plain : ∀ byte ∈ bytes, isPlainByte byte = true) :
    escape bytes = bytes.map fun byte => Char.ofNat byte.toNat := by
  induction bytes with
  | nil => rfl
  | cons byte bytes hypothesis =>
      rw [escape, escapeByte_of_plain (plain byte List.mem_cons_self),
        hypothesis fun other member => plain other (List.mem_cons_of_mem _ member)]
      rfl

/-- The escape of any other byte has at least two characters. -/
theorem length_escapeByte
    (byte : UInt8)
    (next : Option UInt8) :
    1 ≤ (escapeByte byte next).length ∧
      ((escapeByte byte next).length ≤ 1 -> isPlainByte byte = true) := by
  unfold escapeByte
  split_ifs with quote backslash newline tab carriage vertical feed printable
  · simp
  · simp
  · simp
  · simp
  · simp
  · simp
  · simp
  · simp [isPlainByte, printable, quote, backslash]
  · have some := octalDigits_ne_nil byte next
    rw [← List.length_pos_iff] at some
    rw [List.length_cons]
    exact ⟨by omega, fun short => by omega⟩

/-- An escape is at least as long as its bytes, and no longer when they are
plain only. -/
theorem length_escape (bytes : List UInt8) :
    bytes.length ≤ (escape bytes).length ∧
      ((escape bytes).length ≤ bytes.length ->
        ∀ byte ∈ bytes, isPlainByte byte = true) := by
  induction bytes with
  | nil => exact ⟨le_rfl, fun _ _ member => absurd member List.not_mem_nil⟩
  | cons byte bytes hypothesis =>
      have own := length_escapeByte byte bytes.head?
      rw [escape, List.length_append, List.length_cons, List.forall_mem_cons]
      refine ⟨by omega, fun short => ⟨own.2 (by omega), hypothesis.2 (by omega)⟩⟩

/-- The escape of any other byte has a backslash. -/
theorem plain_of_backslash_notMem
    {bytes : List UInt8}
    (absent : '\\' ∉ escape bytes) :
    ∀ byte ∈ bytes, isPlainByte byte = true := by
  induction bytes with
  | nil => exact fun _ member => absurd member List.not_mem_nil
  | cons byte bytes hypothesis =>
      rw [escape, List.mem_append, not_or] at absent
      refine List.forall_mem_cons.mpr ⟨?_, hypothesis absent.2⟩
      have own := absent.1
      unfold escapeByte at own
      split_ifs at own with quote backslash newline tab carriage vertical feed
        printable
      all_goals try exact absurd List.mem_cons_self own
      simp [isPlainByte, printable, quote, backslash]

/-- Only a slash is escaped with a slash. -/
theorem slash_mem_of_mem_escape
    {bytes : List UInt8}
    (member : '/' ∈ escape bytes) : 47 ∈ bytes := by
  induction bytes with
  | nil => exact absurd member List.not_mem_nil
  | cons byte bytes hypothesis =>
      rcases List.mem_append.mp member with own | later
      · have slash : ∀ code < 127, '/' = Char.ofNat code -> code = 47 := by
          decide
        unfold escapeByte at own
        split_ifs at own with quote backslash newline tab carriage vertical feed
          printable
        all_goals try exact absurd own (by decide)
        · simp only [isPrintableByte, Bool.and_eq_true, decide_eq_true_eq]
            at printable
          have code := slash _ (UInt8.lt_iff_toNat_lt.mp printable.2)
            (List.mem_singleton.mp own)
          obtain rfl : byte = 47 := UInt8.toNat_inj.mp code
          exact List.mem_cons_self
        · rcases List.mem_cons.mp own with same | digit
          · contradiction
          · exact absurd (digitValue_of_mem_octalDigits digit) (by decide)
      · exact List.mem_cons_of_mem _ (hypothesis later)

/-- The parts of a path are escaped one by one: a slash is no octal digit. -/
theorem escape_append_slash (bytes rest : List UInt8) :
    escape (bytes ++ 47 :: rest) = escape bytes ++ '/' :: escape rest := by
  have slash : escapeByte 47 rest.head? = ['/'] :=
    escapeByte_of_plain (by decide) _
  induction bytes with
  | nil => exact congrArg (· ++ escape rest) slash
  | cons byte bytes hypothesis =>
      have next : escapeByte byte (bytes ++ 47 :: rest).head? =
          escapeByte byte bytes.head? := by
        cases bytes with
        | nil => rfl
        | cons other bytes => rfl
      rw [List.cons_append, escape, escape, next, hypothesis, List.append_assoc]

end Exec
end Marsh
