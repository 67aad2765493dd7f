import FeatureTree.Fault
import FeatureTree.Text.Basic

/-!
# Text from bytes

Files hold bytes. Their text is what the bytes are in strict UTF-8; every end of a line, in
whichever convention, becomes a line feed.

## Main results

* `Files.unifyEnds_of_no_return`: a text without carriage returns stays as it is
-/

namespace FeatureTree

namespace Files

/-- Turns carriage returns, with the line feed after them if there is one, into line feeds. -/
def unifyEnds : Text → Text
  | [] => []
  | '\r' :: '\n' :: t => '\n' :: unifyEnds t
  | c :: t => (if c = '\r' then '\n' else c) :: unifyEnds t

/-- The text of bytes. -/
def decode (bytes : ByteArray) : Except Fault Text :=
  match String.fromUTF8? bytes with
  | some s => .ok (unifyEnds s.toList)
  | none => .error .notUtf8

/-- A text without carriage returns stays as it is. -/
theorem unifyEnds_of_no_return {t : Text} (h : '\r' ∉ t) : unifyEnds t = t := by
  fun_induction unifyEnds t with
  | case1 => rfl
  | case2 t _ => simp at h
  | case3 c t _ ih =>
    rw [List.mem_cons, not_or] at h
    rw [ih h.2, if_neg fun hc => h.1 hc.symm]

end Files

end FeatureTree
