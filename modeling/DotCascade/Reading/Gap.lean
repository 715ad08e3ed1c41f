import DotCascade.Text.Blank

/-!
# Gaps between words

Between two words there may be blanks and comments.  A comment runs from two
slashes to the end of the line, or from a slash and a star to the next star and
slash.  A comment of the second kind that does not end is no gap.

A gap is skipped as a whole (`skipGap`), or it is taken apart into its comments and
its runs of blanks (`gapPieces`).
-/

namespace DotCascade
namespace Reading

/-- The text behind the next star and slash. -/
def behindComment? : List Char → Option (List Char)
  | '*' :: '/' :: rest => some rest
  | _ :: rest => behindComment? rest
  | [] => none

theorem length_behindComment?_lt
    {text rest : List Char}
    (h : behindComment? text = some rest) :
    rest.length < text.length := by
  fun_induction behindComment? text with
  | case1 behind =>
      simp only [Option.some.injEq] at h
      simp only [h, List.length_cons]
      omega
  | case2 c behind _ ih => exact Nat.lt_succ_of_lt (ih h)
  | case3 => simp at h

/-- The characters of a line. -/
def isLineChar (c : Char) : Bool :=
  c ≠ '\n'

/-- The text behind all blanks and comments at its front. -/
def skipGap (text : List Char) : List Char :=
  match text with
  | '/' :: '/' :: rest =>
      have := (List.dropWhile_suffix isLineChar (l := rest)).length_le
      skipGap (rest.dropWhile isLineChar)
  | '/' :: '*' :: rest =>
      match h : behindComment? rest with
      | some behind =>
          have := length_behindComment?_lt h
          skipGap behind
      | none => text
  | c :: rest => if Text.isBlank c then skipGap rest else text
  | [] => []
termination_by text.length

theorem length_skipGap_le
    (text : List Char) :
    (skipGap text).length ≤ text.length := by
  fun_induction skipGap text with
  | case1 rest _ ih =>
      have := (List.dropWhile_suffix isLineChar (l := rest)).length_le
      simp only [List.length_cons]
      omega
  | case2 rest behind h _ ih =>
      have := length_behindComment?_lt h
      simp only [List.length_cons]
      omega
  | case3 => exact Nat.le_refl _
  | case4 c rest _ _ _ ih => exact Nat.le_succ_of_le ih
  | case5 => exact Nat.le_refl _
  | case6 => exact Nat.le_refl _

/-- The comments and the runs of blanks at the front of a text, in their order. -/
def gapPieces (text : List Char) : List (List Char) :=
  match text with
  | '/' :: '/' :: rest =>
      have := (List.dropWhile_suffix isLineChar (l := rest)).length_le
      ('/' :: '/' :: rest.takeWhile isLineChar) :: gapPieces (rest.dropWhile isLineChar)
  | '/' :: '*' :: rest =>
      match h : behindComment? rest with
      | some behind =>
          have := length_behindComment?_lt h
          text.take (text.length - behind.length) :: gapPieces behind
      | none => []
  | c :: rest =>
      if Text.isBlank c then
        have := (List.dropWhile_suffix Text.isBlank (l := rest)).length_le
        (c :: rest.takeWhile Text.isBlank) :: gapPieces (rest.dropWhile Text.isBlank)
      else []
  | [] => []
termination_by text.length

end Reading
end DotCascade
