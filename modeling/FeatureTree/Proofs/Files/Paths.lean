import FeatureTree.Files.Path
import FeatureTree.Proofs.Text.Lines

/-!
# Paths made of names

A name that a directory holds can be put behind the path of the directory, and so can the names on
the way to something further below. What such a path consists of is what it was made of, so names
can be read off a path again, and paths below one directory differ when their names do.

## Main results

* `Path.parts_write`, `Path.root_write`: a path consists of what it was made of
* `Path.joinAll_injective`: different ways down lead to different paths
* `Path.baseName_join`: the last name of a path below a directory
-/

namespace FeatureTree

namespace Path

/-- What can be the name of an entry of a directory. -/
structure IsName (name : Text) : Prop where
  ne_nil : name ≠ []
  ne_dot : name ≠ ['.']
  no_slash : '/' ∉ name

/-- The parts of a path are names. -/
theorem isName_of_mem_parts {path name : Text} (h : name ∈ parts path) : IsName name := by
  simp only [parts, List.mem_filter, Bool.and_eq_true, decide_eq_true_eq] at h
  exact ⟨h.2.1, h.2.2, Text.not_mem_of_mem_splitAtChar h.1⟩

/-- A slash in front of a path adds no part. -/
theorem parts_cons_slash (path : Text) : parts ('/' :: path) = parts path := by
  simp [parts, Text.splitAtChar]

/-- Names that are joined by slashes are the parts of the path. -/
theorem parts_intercalate {names : List Text} (h : ∀ name ∈ names, IsName name) :
    parts (['/'].intercalate names) = names := by
  cases names with
  | nil => simp [parts, Text.splitAtChar]
  | cons name names =>
    rw [parts, Text.splitAtChar_intercalate (by simp) fun l hl => (h l hl).no_slash,
      List.filter_eq_self]
    exact fun l hl => by simp [(h l hl).ne_nil, (h l hl).ne_dot]

/-- A path starts with no slash, or one or two. -/
theorem root_cases (path : Text) : root path = [] ∨ root path = ['/'] ∨ root path = ['/', '/'] := by
  unfold root
  split <;> simp

/-- Names that are written after a root can be read off. -/
theorem parts_write (path : Text) {names : List Text} (h : ∀ name ∈ names, IsName name) :
    parts (write (root path) names) = names := by
  have hnames := parts_intercalate h
  rcases root_cases path with hr | hr | hr <;> rw [hr, write]
  · cases names with
    | nil => rfl
    | cons => simpa using hnames
  · simpa [parts_cons_slash] using hnames
  · simpa [parts_cons_slash] using hnames

/-- The root can be read off a path whose names are written after it. -/
theorem root_write (path : Text) {names : List Text} (h : ∀ name ∈ names, IsName name) :
    root (write (root path) names) = root path := by
  have hstart : ∀ t, ['/'].intercalate names ≠ '/' :: t := by
    intro t ht
    cases names with
    | nil => simp at ht
    | cons name names =>
      obtain ⟨hne, -, hslash⟩ := h name (by simp)
      obtain ⟨c, name, rfl⟩ := List.exists_cons_of_ne_nil hne
      have hc : c = '/' := by
        cases names <;> simp at ht <;> exact ht.1
      simp [hc] at hslash
  have hroot : root (['/'].intercalate names) = [] := by
    unfold root
    split <;> first
      | rfl
      | exact absurd ‹_› (hstart _)
  rcases root_cases path with hr | hr | hr <;> rw [hr, write]
  · cases names with
    | nil => rfl
    | cons => simpa using hroot
  all_goals
    generalize ['/'].intercalate names = rest at hstart
    cases rest with
    | nil => rfl
    | cons c rest =>
      have hc : c ≠ '/' := fun e => hstart rest (e ▸ rfl)
      simp [root, hc]

/-! ### Ways down -/

/-- The path to which names lead from a directory. -/
def joinAll (directory : Text) (names : List Text) : Text :=
  write (root directory) (parts directory ++ names)

variable {directory name : Text} {names names' : List Text}

/-- Joining no names puts a path in normal form. -/
theorem joinAll_nil (directory : Text) : joinAll directory [] = normal directory := by
  rw [joinAll, List.append_nil, normal]

/-- Joining one name joins the name. -/
theorem joinAll_singleton (directory name : Text) :
    joinAll directory [name] = join directory name := rfl

/-- The parts of a path and some names are names. -/
theorem isName_parts_append (h : ∀ name ∈ names, IsName name) :
    ∀ name ∈ parts directory ++ names, IsName name :=
  List.forall_mem_append.mpr ⟨fun _ => isName_of_mem_parts, h⟩

/-- Joining names adds them to the parts. -/
theorem parts_joinAll (h : ∀ name ∈ names, IsName name) :
    parts (joinAll directory names) = parts directory ++ names :=
  parts_write directory (isName_parts_append h)

/-- Joining names leaves the root alone. -/
theorem root_joinAll (h : ∀ name ∈ names, IsName name) :
    root (joinAll directory names) = root directory :=
  root_write directory (isName_parts_append h)

/-- Joining names twice joins them all. -/
theorem joinAll_joinAll (h : ∀ name ∈ names, IsName name) (names' : List Text) :
    joinAll (joinAll directory names) names' = joinAll directory (names ++ names') := by
  rw [joinAll, parts_joinAll h, root_joinAll h, List.append_assoc, joinAll]

/-- Joining a name and then others joins them all. -/
theorem joinAll_join (h : IsName name) (names : List Text) :
    joinAll (join directory name) names = joinAll directory (name :: names) :=
  joinAll_joinAll (by simpa using h) names

/-- Names are joined to a path as to its normal form. -/
theorem joinAll_normal (directory : Text) (names : List Text) :
    joinAll (normal directory) names = joinAll directory names := by
  rw [← joinAll_nil, joinAll_joinAll (by simp), List.nil_append]

/-- A path in normal form stays as it is. -/
theorem normal_normal (path : Text) : normal (normal path) = normal path := by
  rw [← joinAll_nil, joinAll_normal, joinAll_nil]

/-- Different ways down from a directory lead to different paths. -/
theorem joinAll_injective (h : ∀ name ∈ names, IsName name) (h' : ∀ name ∈ names', IsName name)
    (heq : joinAll directory names = joinAll directory names') : names = names' := by
  have hparts := congrArg parts heq
  rwa [parts_joinAll h, parts_joinAll h', List.append_cancel_left_eq] at hparts

/-- The last name of a path below a directory. -/
theorem baseName_join (h : IsName name) : baseName (join directory name) = name := by
  rw [← joinAll_singleton, baseName, parts_joinAll (by simpa using h), List.getLastD_concat]

end Path

end FeatureTree
