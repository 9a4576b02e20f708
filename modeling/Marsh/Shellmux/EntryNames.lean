import Marsh.Shellmux.Diff

/-!
# The names of a tree's entries

A relative path of text names is written with slashes, is read back as it was
written, and belongs to no other names.
-/

namespace Library

/-- Whether a name is valid UTF-8. -/
def FileName.IsText (name : FileName) : Prop :=
  (Text.lossy name.bytes).bytes = name.bytes

/-- ASCII names are text. -/
theorem FileName.isText_of_ascii
    {name : FileName}
    (ascii : ∀ byte ∈ name.bytes, byte < 0x80) : name.IsText := by
  have codes : ∀ code < 128, (Char.ofNat code).toNat = code := by
    decide +kernel
  rw [IsText, Text.lossy_of_ascii ascii, Text.bytes_of_ascii, List.map_map]
  · refine (List.map_congr_left fun byte member => ?_).trans (List.map_id _)
    have low := UInt8.lt_iff_toNat_lt.mp (ascii byte member)
    rw [Function.comp_apply, codes _ low, UInt8.ofNat_toNat, id]
  · intro char member
    obtain ⟨byte, listed, rfl⟩ := List.mem_map.mp member
    have low := UInt8.lt_iff_toNat_lt.mp (ascii byte listed)
    rw [codes _ low]
    exact low

end Library

namespace Marsh
namespace Shellmux

open Library

namespace Diff

/-- How the names below a root are printed. -/
def spelled (names : List FileName) : List String := names.map segment

/-- The `/`-joined relative path of the names below a root. -/
def key (names : List FileName) : String := "/".intercalate (spelled names)

theorem extend_spelled (names : List FileName) (name : FileName) :
    extend (spelled names) name = spelled (names ++ [name]) := by
  simp [extend, spelled]

@[simp] theorem path_write (names : List FileName) :
    (CommitOp.write (spelled names)).path = key names := rfl

@[simp] theorem path_remove (names : List FileName) :
    (CommitOp.remove (spelled names)).path = key names := rfl

theorem key_cons_cons (name next : FileName) (names : List FileName) :
    (key (name :: next :: names)).toList =
      Text.lossy name.bytes ++ '/' :: (key (next :: names)).toList := by
  simp [key, spelled, segment]

section Texts

variable {names : List FileName}

/-- The bytes of a relative path of text names. -/
theorem bytes_key (texts : ∀ name ∈ names, name.IsText) :
    Text.bytes (key names).toList = FileName.relative names := by
  induction names with
  | nil => rfl
  | cons name names hypothesis =>
      have own : Text.bytes (Text.lossy name.bytes) = name.bytes :=
        texts name List.mem_cons_self
      cases names with
      | nil => simp [key, spelled, segment, FileName.relative_singleton, own]
      | cons next names =>
          have slash : ∀ text : Text, Text.bytes ('/' :: text) =
              47 :: Text.bytes text := fun _ => rfl
          rw [key_cons_cons, Text.bytes_append, own, slash,
            hypothesis fun other member =>
              texts other (List.mem_cons_of_mem _ member),
            FileName.relative_cons_cons]

/-- A relative path is read as it was written. -/
theorem ofText_key (texts : ∀ name ∈ names, name.IsText) :
    Path.ofText (key names).toList = FileName.path names := by
  rw [Path.ofText, bytes_key texts, FileName.ofBytes_relative]

theorem fileName_eq_of_bytes {name other : FileName}
    (same : name.bytes = other.bytes) : name = other := by
  cases name
  cases other
  cases same
  rfl

/-- Names are told from their path. -/
theorem eq_of_path_eq {others : List FileName}
    (same : FileName.path names = FileName.path others) : names = others := by
  refine List.map_injective_iff.mpr ?_ same
  intro name other equal
  exact fileName_eq_of_bytes (Component.normal.inj equal)

/-- Text names are told from the relative path they write. -/
theorem eq_of_key_eq
    {others : List FileName}
    (texts : ∀ name ∈ names, name.IsText)
    (otherTexts : ∀ name ∈ others, name.IsText)
    (same : key names = key others) : names = others := by
  apply eq_of_path_eq
  rw [← ofText_key texts, ← ofText_key otherTexts, same]

theorem join_absolutePath (root : Location) (names : List FileName) :
    (FileTree.absolutePath root).join (FileName.path names) =
      FileTree.absolutePath (root ++ names) := by
  have head : (FileName.path names).head? ≠ some .rootDir := by
    cases names <;> simp [FileName.path]
  have kept : (FileName.path names).filter (· ≠ .curDir) =
      FileName.path names := by
    apply List.filter_eq_self.mpr
    intro component member
    obtain ⟨name, -, rfl⟩ := List.mem_map.mp member
    rfl
  rw [Path.join, if_neg (by simp [head, FileTree.absolutePath]), kept,
    FileTree.absolutePath_append]

/-- Where the entry of a relative path is. -/
theorem joined_key (root : Location) (texts : ∀ name ∈ names, name.IsText) :
    joined root (key names) = FileTree.absolutePath (root ++ names) := by
  rw [joined, ofText_key texts, join_absolutePath]

end Texts

end Diff

end Shellmux
end Marsh
