import Marsh.Exec.StraceText

/-!
# Decoding printed numbers

Thread ids, stamps and return values are read back as they were printed.
-/

namespace Marsh
namespace Exec

open Library

/-! ## Numbers -/

/-- A character that ends no numeral. -/
theorem takeWhile_toDigits
    (number : Nat)
    {rest : Text}
    (ends : ∀ char ∈ rest.head?, isDigit char = false) :
    (Nat.toDigits 10 number ++ rest).takeWhile isDigit =
        Nat.toDigits 10 number ∧
      (Nat.toDigits 10 number ++ rest).dropWhile isDigit = rest := by
  have digits : ∀ char ∈ Nat.toDigits 10 number, isDigit char = true := by
    intro char member
    have digit := Nat.isDigit_of_mem_toDigits (by decide) (by decide) member
    simpa [isDigit, Char.isDigit, Char.le_def] using digit
  have stops : rest.takeWhile isDigit = [] ∧ rest.dropWhile isDigit = rest := by
    cases rest with
    | nil => exact ⟨rfl, rfl⟩
    | cons char rest =>
        have ended := ends char rfl
        simp [ended]
  rw [List.takeWhile_append_of_pos digits, List.dropWhile_append_of_pos digits,
    stops.1, stops.2, List.append_nil]
  exact ⟨rfl, rfl⟩

theorem toDigits_head_ne
    {base number : Nat}
    (large : 1 < base)
    (small : base ≤ 16)
    {char : Char}
    (other : (Text.digitValue base char).isSome = false) :
    (Nat.toDigits base number).head? ≠ some char := by
  intro head
  have digit := Text.digitValue_isSome_of_mem large small
    (List.mem_of_mem_head? head)
  rw [other] at digit
  contradiction

theorem parseUnsigned_toDigits
    {bits number : Nat}
    (below : number < 2 ^ bits) :
    parseUnsigned bits (Nat.toDigits 10 number) = some number := by
  have digits := Text.parseDigits_toDigits (by decide) (by decide : 10 ≤ 16) number
  unfold parseUnsigned
  split
  · next rest same =>
    have head := @toDigits_head_ne 10 number (by decide) (by decide) '+' (by decide)
    rw [same] at head
    exact absurd rfl head
  · dsimp only
    rw [digits]
    simpa using below

/-- A numeral is read back as a signed number. -/
theorem parseSigned_toDigits
    {base bits number : Nat}
    (large : 1 < base)
    (small : base ≤ 16)
    (below : (number : Int) < 2 ^ (bits - 1)) :
    parseSigned base bits (Nat.toDigits base number) = some (number : Int) := by
  have low : -2 ^ (bits - 1) ≤ (number : Int) := by
    have positive : (0 : Int) < 2 ^ (bits - 1) := by positivity
    omega
  unfold parseSigned
  split
  · next rest same =>
    have head := @toDigits_head_ne base number large small '-' rfl
    rw [same] at head
    exact absurd rfl head
  · next rest same =>
    have head := @toDigits_head_ne base number large small '+' rfl
    rw [same] at head
    exact absurd rfl head
  · rw [Text.parseDigits_toDigits large small, Option.map_some,
      Option.filter_some_pos]
    · rfl
    · simpa using ⟨low, below⟩

/-- A numeral after a minus sign is read back as its negation. -/
theorem parseSigned_neg_toDigits
    {bits number : Nat}
    (low : -2 ^ (bits - 1) ≤ -(number : Int)) :
    parseSigned 10 bits ('-' :: Nat.toDigits 10 number) =
      some (-(number : Int)) := by
  have high : -(number : Int) < 2 ^ (bits - 1) := by
    have positive : (0 : Int) < 2 ^ (bits - 1) := by positivity
    omega
  change Option.filter _ ((Text.parseDigits 10 (Nat.toDigits 10 number)).map
    fun (value : Nat) => -(value : Int)) = _
  rw [Text.parseDigits_toDigits (by decide) (by decide), Option.map_some,
    Option.filter_some_pos]
  exact decide_eq_true ⟨low, high⟩

/-! ## Return values -/

namespace Return

/-- A printed number is tight. -/
theorem tight_decimal (number : Int) : Text.Tight (decimal number) := by
  cases number with
  | ofNat number => exact Text.tight_toDigits (by decide) (by decide) number
  | negSucc number =>
      obtain ⟨rest, last, same, visible⟩ :=
        (Text.tight_toDigits (by decide) (by decide : 10 ≤ 16) (number + 1)).ends
      exact ⟨⟨'-', _, rfl, by decide⟩, ⟨'-' :: rest, last,
        by rw [decimal, same]; rfl, visible⟩⟩

/-- A printed return value is tight. -/
theorem tight (ret : Return) : Text.Tight ret.render := by
  cases ret with
  | value number low high => exact tight_decimal number
  | address number high =>
      obtain ⟨rest, last, same, visible⟩ :=
        (Text.tight_toDigits (by decide) (by decide : 16 ≤ 16) number).ends
      exact ⟨⟨'0', _, rfl, by decide⟩, ⟨'0' :: 'x' :: rest, last,
        by rw [render, same]; rfl, visible⟩⟩
  | descriptor fd high path isPath =>
      exact (Text.tight_toDigits (by decide) (by decide) fd).append
        ⟨'<' :: path, '>', rfl, by decide⟩
  | errno name message named printable =>
      exact ⟨⟨'-', _, rfl, by decide⟩,
        ⟨'-' :: '1' :: ' ' :: (name ++ ' ' :: '(' :: message), ')', by
          simp [render], by decide⟩⟩

end Return

/-- A printed number and what follows it are read back. -/
theorem parseReturn_digits
    {sign rest : Text}
    {number : Nat}
    {value : Int}
    (signed : sign = [] ∨ sign = ['-'])
    (parses : parseSigned 10 64 (sign ++ Nat.toDigits 10 number) = some value)
    (ends : ∀ char ∈ rest.head?, isDigit char = false ∧ char ≠ 'x')
    (tight : Text.Tight (sign ++ (Nat.toDigits 10 number ++ rest))) :
    parseReturn (sign ++ (Nat.toDigits 10 number ++ rest)) =
      (value, retDecoration rest) := by
  have other : ∀ {char : Char}, (Text.digitValue 10 char).isSome = false ->
      (Nat.toDigits 10 number ++ rest).head? ≠ some char := by
    intro char other head
    rw [List.head?_append_of_ne_nil _ Nat.toDigits_ne_nil] at head
    exact toDigits_head_ne (by decide) (by decide) other head
  have decimal : ¬ ['0', 'x'] <+: Nat.toDigits 10 number ++ rest := by
    intro hex
    cases digits : Nat.toDigits 10 number with
    | nil => exact Nat.toDigits_ne_nil digits
    | cons first others =>
        rw [digits, List.cons_append, List.cons_prefix_cons] at hex
        cases others with
        | nil =>
            obtain ⟨-, after, rfl⟩ := hex
            exact (ends 'x' rfl).2 rfl
        | cons second others =>
            obtain ⟨-, after, same⟩ := hex
            obtain ⟨rfl, -⟩ := List.cons.inj same
            have digit := @Text.digitValue_isSome_of_mem 10 (by decide)
              (by decide) number 'x' (by rw [digits]; simp)
            exact absurd digit (by decide)
  have cut := takeWhile_toDigits number fun char head => (ends char head).1
  have apart : sign ++ (Nat.toDigits 10 number ++ rest) ≠ [] := by simp
  have unknown : (sign ++ (Nat.toDigits 10 number ++ rest)).head? ≠ some '?' := by
    rcases signed with rfl | rfl
    · exact other (by decide)
    · simp
  have kept : (if (sign ++ (Nat.toDigits 10 number ++ rest)).head? = some '-'
      then ['-'] else []) = sign := by
    rcases signed with rfl | rfl
    · exact if_neg (other (by decide))
    · rfl
  unfold parseReturn
  rw [tight.trim]
  dsimp only
  rw [if_neg (not_or.mpr ⟨apart, unknown⟩), kept, List.drop_left,
    Text.stripPrefix_eq_none decimal]
  dsimp only
  rw [cut.1, cut.2, parses]

namespace Return

/-- A return value is read back. -/
theorem parse (ret : Return) : parseReturn ret.render = (ret.number, ret.path) := by
  have tight := ret.tight
  cases ret with
  | value number low high =>
      cases number with
      | ofNat number =>
          have shape : (value (.ofNat number) low high).render =
              [] ++ (Nat.toDigits 10 number ++ []) := by
            simp [render, decimal]
          rw [shape] at tight ⊢
          exact parseReturn_digits (.inl rfl)
            (parseSigned_toDigits (by decide) (by decide) high) (by simp) tight
      | negSucc number =>
          have shape : (value (.negSucc number) low high).render =
              ['-'] ++ (Nat.toDigits 10 (number + 1) ++ []) := by
            simp [render, decimal]
          rw [shape] at tight ⊢
          exact parseReturn_digits (.inr rfl)
            (parseSigned_neg_toDigits low) (by simp) tight
  | address number high =>
      have hex : Text.stripPrefix ['0', 'x'] ('0' :: 'x' :: Nat.toDigits 16 number) =
          some (Nat.toDigits 16 number) :=
        Text.stripPrefix_append ['0', 'x'] _
      have digits : (Nat.toDigits 16 number).takeWhile
          (fun char => (Text.digitValue 16 char).isSome) = Nat.toDigits 16 number :=
        List.takeWhile_eq_self_iff.mpr fun char member =>
          Text.digitValue_isSome_of_mem (by decide) (by decide) member
      have parses : parseSigned 16 64 (Nat.toDigits 16 number) =
          some (number : Int) :=
        parseSigned_toDigits (by decide) (by decide) (by exact_mod_cast high)
      unfold parseReturn
      rw [tight.trim]
      dsimp only [render]
      rw [if_neg (by simp), if_neg (by simp), List.length_nil, List.drop_zero, hex]
      dsimp only
      rw [digits, parses]
      rfl
  | descriptor fd high path isPath =>
      have cut : Text.rsplitOnce '>' (path ++ ['>']) = some (path, []) :=
        Text.rsplitOnce_append List.not_mem_nil path
      have decoration : retDecoration ('<' :: (path ++ ['>'])) = some path := by
        have rest := Text.stripPrefix_append ['<'] (path ++ ['>'])
        rw [List.singleton_append] at rest
        simp [retDecoration, rest, cut, isPath.absolute]
      have parsed := @parseReturn_digits [] ('<' :: (path ++ ['>'])) fd fd
        (.inl rfl)
        (parseSigned_toDigits (by decide) (by decide) (by exact_mod_cast high))
        (by simp [isDigit]) tight
      rw [decoration] at parsed
      exact parsed
  | errno name message named printable =>
      have parsed := @parseReturn_digits ['-']
        (' ' :: (name ++ ' ' :: '(' :: (message ++ [')']))) 1 (-1) (.inr rfl)
        (by decide) (by simp [isDigit]) tight
      exact parsed

end Return

end Exec
end Marsh
