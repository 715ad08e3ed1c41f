/-!
# Positions in a source

A position is a line and a column, both counted from one in characters.  Only a
line feed ends a line.

`ofOffset` counts up to an offset character by character, which is what positions
mean.  Where the position of a piece of text is known, a place inside the piece is
found by the line feeds of the piece alone (`inside`).
-/

namespace DotCascade
namespace Text

/-- The index of the last line feed in a text. -/
def lastLineFeed? : List Char → Option Nat
  | [] => none
  | c :: rest =>
      match lastLineFeed? rest with
      | some index => some (index + 1)
      | none => if c = '\n' then some 0 else none

theorem lt_of_lastLineFeed?
    {text : List Char} {index : Nat} (h : lastLineFeed? text = some index) :
    index < text.length := by
  induction text generalizing index with
  | nil => cases h
  | cons c rest ih =>
      rw [lastLineFeed?] at h
      split at h
      case h_1 later hlater =>
        have hrest := ih hlater
        obtain rfl := Option.some.inj h
        exact Nat.succ_lt_succ hrest
      case h_2 =>
        split at h
        case isTrue =>
          obtain rfl := Option.some.inj h
          exact Nat.succ_pos rest.length
        case isFalse => cases h

/-- A place in a source as a reader counts it. -/
structure Position where
  line : Nat
  column : Nat
deriving DecidableEq, Repr

namespace Position

/-- The position of the first character of a source. -/
def start : Position :=
  ⟨1, 1⟩

/-- The position behind one more character. -/
def advance (p : Position) (c : Char) : Position :=
  if c = '\n' then ⟨p.line + 1, 1⟩ else ⟨p.line, p.column + 1⟩

/-- The position of the character that a given number of characters precede. -/
def ofOffset (source : List Char) (offset : Nat) : Position :=
  (source.take offset).foldl advance start

/-- The position of the character at an index of a piece of text that itself stands at a given
position. -/
def inside (position : Position) (piece : List Char) (index : Nat) : Position :=
  let front := piece.take index
  match lastLineFeed? front with
  | some feed => ⟨position.line + front.count '\n', index - feed⟩
  | none => ⟨position.line, position.column + index⟩

end Position

end Text
end DotCascade
