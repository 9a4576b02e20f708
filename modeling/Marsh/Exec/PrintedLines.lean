import Marsh.Exec.ArgumentDecoding
import Marsh.Exec.ReturnDecoding

/-!
# Printed lines

What is printed for a syscall holds no line break, so that a trace is cut into
the lines it was printed as.
-/

namespace Marsh
namespace Exec

open Library

/-! ## The characters of numbers and names -/

theorem mem_sixDigits
    {number : Nat}
    {char : Char}
    (member : char ∈ sixDigits number) : (Text.digitValue 10 char).isSome := by
  obtain ⟨unit, -, rfl⟩ := List.mem_map.mp member
  rw [Text.digitValue_digitChar (by decide) (Nat.mod_lt _ (by decide))]
  rfl

/-- The codes of the characters of a name. -/
theorem IsName.code
    {name : Text}
    (named : IsName name)
    {char : Char}
    (member : char ∈ name) : 48 ≤ char.toNat ∧ char.toNat ≤ 122 := by
  have letter := List.all_eq_true.mp named.letters char member
  change (((decide ('A'.val ≤ char.val ∧ char.val ≤ 'Z'.val) ||
    (decide ('a'.val ≤ char.val) && decide (char.val ≤ 'z'.val))) ||
    (decide ('0'.val ≤ char.val) && decide (char.val ≤ '9'.val))) ||
    decide (char = '_')) = true at letter
  simp only [Bool.or_eq_true, Bool.and_eq_true, decide_eq_true_eq,
    UInt32.le_iff_toNat_le] at letter
  rcases letter with ((⟨low, high⟩ | ⟨low, high⟩) | ⟨low, high⟩) | rfl
  · exact ⟨le_trans (by decide) low, le_trans high (by decide)⟩
  · exact ⟨le_trans (by decide) low, le_trans high (by decide)⟩
  · exact ⟨le_trans (by decide) low, le_trans high (by decide)⟩
  · decide

/-- The characters of a name are visible and none is a delimiter. -/
theorem IsName.mem
    {name : Text}
    (named : IsName name)
    {char : Char}
    (member : char ∈ name) :
    Text.isWhitespace char = false ∧ isNameChar char = true := by
  have code := named.code member
  exact ⟨Text.isWhitespace_eq_false (by omega) (by omega),
    List.all_eq_true.mp named.letters char member⟩

/-! ## Printable texts -/

/-- Every character of the text can stand in a line. -/
def Printable (text : Text) : Prop := ∀ char ∈ text, isPrintable char = true

namespace Printable

variable {text rest : Text}

theorem nil : Printable [] := fun _ member => absurd member List.not_mem_nil

theorem cons
    {char : Char}
    (first : isPrintable char = true)
    (printable : Printable rest) : Printable (char :: rest) :=
  List.forall_mem_cons.mpr ⟨first, printable⟩

theorem append
    (first : Printable text)
    (second : Printable rest) : Printable (text ++ rest) :=
  List.forall_mem_append.mpr ⟨first, second⟩

theorem of_code
    (code : ∀ char ∈ text, 32 ≤ char.toNat ∧ char.toNat < 127) :
    Printable text := by
  intro char member
  have between := code char member
  simp only [isPrintable, Bool.and_eq_true, decide_eq_true_eq]
  omega

theorem toDigits
    {base : Nat}
    (large : 1 < base)
    (small : base ≤ 16)
    (number : Nat) : Printable (Nat.toDigits base number) :=
  .of_code fun _ member => by
    have code := Text.code_of_digitValue
      (Text.digitValue_isSome_of_mem large small member)
    omega

theorem blanks (count : Nat) : Printable (List.replicate count ' ') := by
  intro char member
  obtain rfl := List.eq_of_mem_replicate member
  decide

theorem escape (bytes : List UInt8) : Printable (escape bytes) :=
  .of_code fun _ member => code_of_mem_escape member

theorem quote (bytes : List UInt8) : Printable (quote bytes) :=
  .cons (by decide) ((Printable.escape bytes).append (.cons (by decide) .nil))

theorem tokens
    {tokens : Tokens}
    {nested : Bool}
    (formed : tokens.WellFormed nested) : Printable tokens.render := by
  induction tokens generalizing nested with
  | done => exact .nil
  | word char rest hypothesis =>
      have wordChar := formed.1
      rw [isWordChar, Bool.and_eq_true] at wordChar
      exact .cons wordChar.1 (hypothesis formed.2)
  | comma rest hypothesis => exact .cons (by decide) (hypothesis formed.2)
  | quoted bytes rest hypothesis =>
      exact (Printable.quote bytes).append (hypothesis formed)
  | decorated path rest hypothesis =>
      exact .cons (by decide) (.append formed.1.printable
        (.cons (by decide) (hypothesis formed.2)))
  | bracketed bracket inner rest innerHypothesis hypothesis =>
      have brackets : isPrintable bracket.opening = true ∧
          isPrintable bracket.closing = true := by
        cases bracket <;> decide
      exact .cons brackets.1 (.append (innerHypothesis formed.1)
        (.cons brackets.2 (hypothesis formed.2)))

theorem joinArgs
    {args : List Text}
    (printable : ∀ arg ∈ args, Printable arg) : Printable (joinArgs args) := by
  induction args with
  | nil => exact .nil
  | cons arg args hypothesis =>
      have own := printable arg List.mem_cons_self
      cases args with
      | nil => exact own
      | cons next args =>
          exact own.append (.cons (by decide) (.cons (by decide)
            (hypothesis fun other member =>
              printable other (List.mem_cons_of_mem _ member))))

theorem isName
    {name : Text}
    (named : IsName name) : Printable name :=
  .of_code fun _ member => by
    have code := named.code member
    omega

theorem ret (ret : Return) : Printable ret.render := by
  cases ret with
  | value number low high =>
      cases number with
      | ofNat number => exact .toDigits (by decide) (by decide) number
      | negSucc number =>
          exact .cons (by decide) (.toDigits (by decide) (by decide) _)
  | address number high =>
      exact .cons (by decide) (.cons (by decide)
        (.toDigits (by decide) (by decide) number))
  | descriptor fd high path isPath =>
      exact .append (.toDigits (by decide) (by decide) fd)
        (.cons (by decide) (.append isPath.printable (.cons (by decide) .nil)))
  | errno name message named printable =>
      exact .cons (by decide) (.cons (by decide) (.cons (by decide)
        (.append (.isName named) (.cons (by decide) (.cons (by decide)
          (.append printable (.cons (by decide) .nil)))))))

end Printable

namespace SyscallRecord

variable (record : SyscallRecord)

theorem printable_body : Printable record.body := by
  have args : Printable record.argsText := by
    refine .joinArgs fun arg member => ?_
    obtain ⟨argument, -, rfl⟩ := List.mem_map.mp member
    exact .tokens argument.formed
  exact args.append (.cons (by decide) (.append (.blanks _)
    (.cons (by decide) (.cons (by decide) (.ret record.ret)))))

/-- A printed line is printable. -/
theorem printable_render : Printable record.render := by
  have micros : Printable (sixDigits (record.tsUs % 1000000)) :=
    .of_code fun _ member => by
      have code := Text.code_of_digitValue (mem_sixDigits member)
      omega
  exact .append (.toDigits (by decide) (by decide) _) (.append (.blanks _)
    (.append (.toDigits (by decide) (by decide) _) (.cons (by decide)
      (.append micros (.cons (by decide) (.append (.isName record.isName)
        (.cons (by decide) record.printable_body)))))))

/-- A printed line is tight. -/
theorem tight_render : Text.Tight record.render := by
  let start := List.replicate (record.tidBlanks + 1) ' ' ++
    (Nat.toDigits 10 (record.tsUs / 1000000) ++ '.' ::
      (sixDigits (record.tsUs % 1000000) ++ ' ' :: (record.name ++ '(' ::
        (record.argsText ++ ')' ::
          (List.replicate (record.retBlanks + 1) ' ' ++ ['=', ' '])))))
  obtain ⟨rest, last, same, visible⟩ := record.ret.tight.ends
  have shape : record.render =
      Nat.toDigits 10 record.tid ++ (start ++ rest ++ [last]) := by
    rw [List.append_assoc, ← same]
    simp [render, body, start]
  rw [shape]
  exact (Text.tight_toDigits (by decide) (by decide) record.tid).append
    ⟨start ++ rest, last, rfl, visible⟩

end SyscallRecord

/-! ## Cutting a trace -/

/-- Texts without line breaks, each ended by one, are cut apart again. -/
theorem lines_flatMap
    {texts : List Text}
    (unbroken : ∀ text ∈ texts, '\n' ∉ text)
    (ends : ∀ text ∈ texts, ¬ ['\r'] <:+ text) :
    lines (texts.flatMap fun text => text ++ ['\n']) = texts := by
  have pieces : (texts.flatMap fun text => text ++ ['\n']).splitOn '\n' =
      texts ++ [[]] := by
    induction texts with
    | nil => rfl
    | cons text texts hypothesis =>
        rw [List.flatMap_cons, List.append_assoc, List.singleton_append,
          List.splitOn_append_cons_self_of_not_mem
            (unbroken text List.mem_cons_self),
          hypothesis
            (fun other member => unbroken other (List.mem_cons_of_mem _ member))
            fun other member => ends other (List.mem_cons_of_mem _ member)]
        rfl
  unfold lines
  rw [pieces]
  dsimp only
  rw [if_pos List.getLast?_concat, List.dropLast_concat]
  refine (List.map_congr_left fun text member => ?_).trans (List.map_id' texts)
  rw [Text.stripSuffix_eq_none (ends text member)]
  rfl

/-- A printed trace is cut into the lines of its records. -/
theorem lines_render (records : List SyscallRecord) :
    lines (records.flatMap fun record => record.render ++ ['\n']) =
      records.map SyscallRecord.render := by
  rw [← @lines_flatMap (records.map SyscallRecord.render),
    List.flatMap_map]
  · intro text member breaks
    obtain ⟨record, -, rfl⟩ := List.mem_map.mp member
    exact absurd (record.printable_render _ breaks) (by decide)
  · intro text member ends
    obtain ⟨record, -, rfl⟩ := List.mem_map.mp member
    exact absurd (record.printable_render _ (ends.mem List.mem_cons_self))
      (by decide)

end Exec
end Marsh
