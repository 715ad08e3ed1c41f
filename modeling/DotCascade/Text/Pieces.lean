/-!
# Pieces of a text

A separator cuts a text into pieces.  There is always at least one piece, and it
may be empty.
-/

namespace DotCascade
namespace Text

/-- The pieces of a text between separators: the first piece and the later ones. -/
def piecesBetween (separator : Char) : List Char → List Char × List (List Char)
  | [] => ([], [])
  | c :: rest =>
      let (piece, later) := piecesBetween separator rest
      if c = separator then ([], piece :: later) else (c :: piece, later)

/-- The pieces of a text between separators, as one list. -/
def pieces (separator : Char) (text : List Char) : List (List Char) :=
  let (piece, later) := piecesBetween separator text
  piece :: later

end Text
end DotCascade
