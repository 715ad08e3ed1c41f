import DotCascade.Text.Position

/-!
# Cursors

A cursor is moved along a source piece by piece.  It keeps its line and the offset
at which that line begins, and both change only where a piece holds a line feed.
-/

namespace DotCascade
namespace Text

/-- A place in a source, with the line that it lies in. -/
structure Cursor where
  offset : Nat
  line : Nat
  /-- The offset of the first character of the line. -/
  lineStart : Nat
  lineStart_le : lineStart ≤ offset
deriving DecidableEq

namespace Cursor

/-- The beginning of a source. -/
def start : Cursor :=
  ⟨0, 1, 0, Nat.le_refl 0⟩

/-- The position of a cursor. -/
def position (cursor : Cursor) : Position :=
  ⟨cursor.line, cursor.offset - cursor.lineStart + 1⟩

/-- The cursor behind a piece of its line. -/
def moveOn (cursor : Cursor) (piece : List Char) : Cursor :=
  ⟨cursor.offset + piece.length, cursor.line, cursor.lineStart,
    Nat.le_add_right_of_le cursor.lineStart_le⟩

/-- The cursor behind a piece that may hold line feeds. -/
def pass (cursor : Cursor) (piece : List Char) : Cursor :=
  match h : lastLineFeed? piece with
  | some feed =>
      ⟨cursor.offset + piece.length, cursor.line + piece.count '\n', cursor.offset + feed + 1,
        Nat.add_lt_add_left (lt_of_lastLineFeed? h) cursor.offset⟩
  | none => cursor.moveOn piece

end Cursor

end Text
end DotCascade
