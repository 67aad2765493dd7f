import FeatureTree.Text.Basic

/-!
# Paths

A path is written with slashes between its parts. Empty parts and parts that are a single dot say
nothing and are left out of the normal form; two dots are kept, because what they lead to depends on
the directory tree.

## Main results

* `Path.parts_append_slash`: a slash at the end of a path says nothing
-/

namespace FeatureTree

namespace Path

/-- The parts of a path that say something. -/
def parts (path : Text) : List Text :=
  (path.splitAtChar '/').filter fun p => p ≠ [] && p ≠ ['.']

/-- The slashes that an absolute path starts with: one, or two if there are just two. -/
def root (path : Text) : Text :=
  match path with
  | '/' :: '/' :: '/' :: _ => ['/']
  | '/' :: '/' :: _ => ['/', '/']
  | '/' :: _ => ['/']
  | _ => []

/-- Writes parts after a root; the path with neither is the dot. -/
def write (root : Text) (parts : List Text) : Text :=
  if root.isEmpty && parts.isEmpty then ['.'] else root ++ ['/'].intercalate parts

/-- The normal form of a path. -/
def normal (path : Text) : Text := write (root path) (parts path)

/-- The last part of a path, empty if it has none. -/
def baseName (path : Text) : Text := (parts path).getLastD []

/-- A path inside the directory of another one, in normal form. -/
def join (directory name : Text) : Text := write (root directory) (parts directory ++ [name])

/-- A separator at the end opens one more piece, which is empty. -/
theorem splitAtChar_concat (sep : Char) (t : Text) :
    Text.splitAtChar sep (t ++ [sep]) = Text.splitAtChar sep t ++ [[]] := by
  induction t with
  | nil => simp [Text.splitAtChar]
  | cons c t ih =>
    by_cases h : c = sep
    · simp [Text.splitAtChar, h, ih]
    · simp only [List.cons_append, Text.splitAtChar, if_neg h, ih]
      cases hs : Text.splitAtChar sep t with
      | nil => exact absurd hs (Text.splitAtChar_ne_nil sep t)
      | cons piece pieces => rfl

/-- A slash at the end of a path says nothing. -/
theorem parts_append_slash (path : Text) : parts (path ++ ['/']) = parts path := by
  simp [parts, splitAtChar_concat]

end Path

end FeatureTree
