import Marsh.Library.Text

/-!
# Texts and bytes

The bytes of a text, and the text of bytes of which some may be no UTF-8: those
are replaced.
-/

namespace Library
namespace Text

/-- The UTF-8 bytes of a text. -/
def bytes (text : Text) : List UInt8 := text.flatMap String.utf8EncodeChar

/-! ## Reading bytes -/

/-- A byte that continues a character. -/
def continues (byte : UInt8) : Bool := 0x80 ≤ byte && byte < 0xC0

/-- How many bytes a byte announces after itself. -/
def trailing (lead : UInt8) : Nat :=
  if 0xC2 ≤ lead && lead < 0xE0 then 1
  else if 0xE0 ≤ lead && lead < 0xF0 then 2
  else if 0xF0 ≤ lead && lead < 0xF5 then 3
  else 0

/-- Whether the second byte of a character can follow the first. -/
def follows (lead second : UInt8) : Bool :=
  if lead = 0xE0 then 0xA0 ≤ second && second < 0xC0
  else if lead = 0xED then 0x80 ≤ second && second < 0xA0
  else if lead = 0xF0 then 0x90 ≤ second && second < 0xC0
  else if lead = 0xF4 then 0x80 ≤ second && second < 0x90
  else continues second

/-- The bytes that go with the first one, as far as they can belong to one
character. -/
def companions (lead : UInt8) : List UInt8 -> List UInt8
  | [] => []
  | second :: rest =>
      if trailing lead ≠ 0 ∧ follows lead second then
        second :: (rest.take (trailing lead - 1)).takeWhile continues
      else []

/-- The character of a first byte and its companions, or the replacement
character. -/
def characterAt (lead : UInt8) (rest : List UInt8) : Char :=
  let others := companions lead rest
  if lead < 0x80 then Char.ofNat lead.toNat
  else if others = [] ∨ others.length < trailing lead then '\uFFFD'
  else
    Char.ofNat (others.foldl (fun code byte => code * 64 + byte.toNat % 64)
      (lead.toNat % 2 ^ (6 - trailing lead)))

/-- The text of the bytes after some that are passed over. -/
def lossyFrom : Nat -> List UInt8 -> Text
  | _, [] => []
  | passed + 1, _ :: rest => lossyFrom passed rest
  | 0, lead :: rest =>
      characterAt lead rest :: lossyFrom (companions lead rest).length rest

/-- `from_utf8_lossy`. -/
def lossy (bytes : List UInt8) : Text := lossyFrom 0 bytes

example : lossy [0x61, 0xC3, 0xA9, 0xE2, 0x82, 0x62, 0xFF] =
    ['a', 'é', '\uFFFD', 'b', '\uFFFD'] := by
  decide

/-! ## Lengths -/

theorem length_lossyFrom_le (passed : Nat) (bytes : List UInt8) :
    (lossyFrom passed bytes).length ≤ bytes.length := by
  induction bytes generalizing passed with
  | nil =>
      cases passed <;> exact Nat.zero_le _
  | cons lead rest hypothesis =>
      cases passed with
      | zero => exact Nat.succ_le_succ (hypothesis _)
      | succ passed => exact (hypothesis passed).trans (Nat.le_succ _)

/-- A byte string has at most one character for each byte. -/
theorem length_lossy_le (bytes : List UInt8) :
    (lossy bytes).length ≤ bytes.length :=
  length_lossyFrom_le 0 bytes

/-! ## More bytes -/

/-- A first byte that announces others is no character of its own. -/
theorem not_lt_of_trailing
    {lead : UInt8}
    (announces : trailing lead ≠ 0) : ¬ lead < 0x80 := by
  intro low
  have below : ∀ bound : UInt8, 0x80 ≤ bound -> ¬ bound ≤ lead :=
    fun bound high => UInt8.not_le.mpr (UInt8.lt_of_lt_of_le low high)
  apply announces
  simp [trailing, below 0xC2 (by decide), below 0xE0 (by decide),
    below 0xF0 (by decide)]

theorem length_companions_le (lead : UInt8) (rest : List UInt8) :
    (companions lead rest).length ≤ rest.length := by
  cases rest with
  | nil => exact Nat.le_refl _
  | cons second rest =>
      rw [companions]
      split
      · rw [List.length_cons, List.length_cons]
        have kept := (List.takeWhile_prefix continues
          (l := rest.take (trailing lead - 1))).length_le
        have taken := List.length_take_le' (trailing lead - 1) rest
        omega
      · exact Nat.zero_le _

/-- More bytes give a first byte other companions only when it was waiting for
them. -/
theorem companions_append (lead : UInt8) (rest more : List UInt8) :
    companions lead (rest ++ more) = companions lead rest ∨
      companions lead rest = rest ∧ rest.length < trailing lead := by
  by_cases announces : trailing lead = 0
  · left
    cases rest <;> cases more <;> simp [companions, announces]
  cases rest with
  | nil => exact .inr ⟨rfl, Nat.pos_of_ne_zero announces⟩
  | cons second rest =>
      rw [List.cons_append, companions, companions]
      by_cases goesOn : trailing lead ≠ 0 ∧ follows lead second
      · rw [if_pos goesOn, if_pos goesOn]
        by_cases enough : trailing lead - 1 ≤ rest.length
        · left
          rw [List.take_append_of_le_length enough]
        · rw [List.take_append, List.take_of_length_le (by omega),
            List.takeWhile_append]
          by_cases all : (rest.takeWhile continues).length = rest.length
          · right
            refine ⟨?_, ?_⟩
            · rw [(List.takeWhile_prefix _).eq_of_length all]
            · rw [List.length_cons]
              omega
          · left
            rw [if_neg all]
      · left
        rw [if_neg goesOn, if_neg goesOn]

theorem lossyFrom_length (bytes more : List UInt8) :
    lossyFrom bytes.length (bytes ++ more) = lossy more := by
  induction bytes with
  | nil => rfl
  | cons byte bytes hypothesis => exact hypothesis

/-- What the text of some bytes becomes with more bytes after them. -/
theorem lossyFrom_append
    {passed : Nat}
    {bytes : List UInt8}
    (inside : passed ≤ bytes.length)
    (more : List UInt8) :
    lossyFrom passed bytes <+: lossyFrom passed (bytes ++ more) ∨
      ∃ before char after,
        lossyFrom passed bytes = before ++ ['\uFFFD'] ∧
          lossyFrom passed (bytes ++ more) = before ++ char :: after := by
  induction bytes generalizing passed with
  | nil =>
      obtain rfl := Nat.le_zero.mp inside
      exact .inl List.nil_prefix
  | cons lead rest hypothesis =>
      cases passed with
      | succ passed => exact hypothesis (Nat.le_of_succ_le_succ inside)
      | zero =>
          rw [List.cons_append, lossyFrom, lossyFrom]
          obtain same | ⟨all, waiting⟩ := companions_append lead rest more
          · have letter : characterAt lead (rest ++ more) =
                characterAt lead rest := by
              unfold characterAt
              rw [same]
            rw [letter, same]
            obtain whole | ⟨before, char, after, read, longer⟩ :=
              hypothesis (length_companions_le lead rest)
            · exact .inl ((List.prefix_cons_inj _).mpr whole)
            · refine .inr ⟨characterAt lead rest :: before, char, after, ?_, ?_⟩
              · rw [read]
                rfl
              · rw [longer]
                rfl
          · refine .inr ⟨[], characterAt lead (rest ++ more), _, ?_, rfl⟩
            have high := not_lt_of_trailing (Nat.ne_zero_of_lt waiting)
            have ended : lossyFrom rest.length rest = [] := by
              have passes := lossyFrom_length rest []
              rwa [List.append_nil] at passes
            rw [all, ended, characterAt, all, if_neg high,
              if_pos (.inr waiting)]
            rfl

/-- The text of some bytes goes on with the bytes after them, except that a
character cut short may be another one. -/
theorem lossy_append (bytes more : List UInt8) :
    lossy bytes <+: lossy (bytes ++ more) ∨
      ∃ before char after, lossy bytes = before ++ ['\uFFFD'] ∧
        lossy (bytes ++ more) = before ++ char :: after :=
  lossyFrom_append (Nat.zero_le _) more

/-! ## ASCII -/

/-- The bytes of an ASCII text are the codes of its characters. -/
theorem bytes_of_ascii
    {text : Text}
    (ascii : ∀ char ∈ text, char.toNat < 128) :
    text.bytes = text.map fun char => UInt8.ofNat char.toNat := by
  induction text with
  | nil => rfl
  | cons char text hypothesis =>
      have single : char.utf8Size = 1 := by
        have code : char.val.toNat < 128 := ascii char List.mem_cons_self
        rw [Char.utf8Size_eq_one_iff, UInt32.le_iff_toNat_le]
        exact Nat.le_of_lt_succ code
      have rest := hypothesis fun other member =>
        ascii other (List.mem_cons_of_mem _ member)
      rw [bytes, List.flatMap_cons, String.utf8EncodeChar_eq_singleton single,
        List.map_cons, ← rest]
      rfl

/-- The text of ASCII bytes has those codes. -/
theorem lossy_of_ascii
    {bytes : List UInt8}
    (ascii : ∀ byte ∈ bytes, byte < 0x80) :
    lossy bytes = bytes.map fun byte => Char.ofNat byte.toNat := by
  unfold lossy
  induction bytes with
  | nil => rfl
  | cons byte bytes hypothesis =>
      have own := ascii byte List.mem_cons_self
      have alone : companions byte bytes = [] := by
        have below : ∀ bound : UInt8, 0x80 ≤ bound -> ¬ bound ≤ byte :=
          fun bound high => UInt8.not_le.mpr (UInt8.lt_of_lt_of_le own high)
        have single : trailing byte = 0 := by
          simp [trailing, below 0xC2 (by decide), below 0xE0 (by decide),
            below 0xF0 (by decide)]
        cases bytes <;> simp [companions, single]
      rw [lossyFrom, alone, List.length_nil, hypothesis fun other member =>
        ascii other (List.mem_cons_of_mem _ member), characterAt, if_pos own]
      rfl

theorem bytes_append (text rest : Text) :
    (text ++ rest).bytes = text.bytes ++ rest.bytes :=
  List.flatMap_append

end Text
end Library
