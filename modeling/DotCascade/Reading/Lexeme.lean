import DotCascade.Grammar.Tree
import DotCascade.Markup.Reader
import DotCascade.Text.Letters

/-!
# Words in a source

For every kind of word, `piece?` says whether a text begins with such a word and
which piece of the text it is, and `lexeme` says what the piece tells.

A keyword is recognised by its letters alone, whatever follows them; only a bare
word goes as far as its letters do.  A markup word ends where its brackets
balance for the first time.
-/

namespace DotCascade
namespace Reading

open Grammar

/-- The words that cannot be used as bare words. -/
def keywords : List String :=
  ["digraph", "edge", "graph", "node", "subgraph"]

section Pieces

/-- A bare word: the longest word, unless it is a keyword. -/
def identifierPiece? (text : List Char) : Option (List Char) :=
  match Text.word? text with
  | some word => if keywords.contains (String.ofList word) then none else some word
  | none => none

/-- One or more digits. -/
def digits? (text : List Char) : Option (List Char) :=
  let digits := text.takeWhile Char.isDigit
  if digits.isEmpty then none else some digits

/-- Digits with a fraction, a fraction alone, or digits alone. -/
def unsignedPiece? (text : List Char) : Option (List Char) :=
  match text with
  | '.' :: rest => (digits? rest).map ('.' :: ·)
  | _ =>
      match digits? text with
      | none => none
      | some whole =>
          match text.drop whole.length with
          | '.' :: rest =>
              match digits? rest with
              | some fraction => some (whole ++ '.' :: fraction)
              | none => some whole
          | _ => some whole

/-- A number, perhaps with a minus sign. -/
def numberPiece? : List Char → Option (List Char)
  | '-' :: rest => (unsignedPiece? rest).map ('-' :: ·)
  | text => unsignedPiece? text

/-- A dot and a word. -/
def classPiece? : List Char → Option (List Char)
  | '.' :: rest => (Text.word? rest).map ('.' :: ·)
  | _ => none

/-- The text up to the closing quote, itself included.  A backslash guards the next character. -/
def toClosingQuote? : List Char → Option (List Char)
  | '"' :: _ => some ['"']
  | '\\' :: c :: rest => (toClosingQuote? rest).map fun piece => '\\' :: c :: piece
  | ['\\'] => none
  | c :: rest => (toClosingQuote? rest).map (c :: ·)
  | [] => none

/-- A text between double quotes. -/
def stringPiece? : List Char → Option (List Char)
  | '"' :: rest => (toClosingQuote? rest).map ('"' :: ·)
  | _ => none

/-- The text up to the bracket that closes the outermost open one, itself included.  The number
counts the open brackets inside it. -/
def toClosingBracket? : Nat → List Char → Option (List Char)
  | depth, '<' :: rest => (toClosingBracket? (depth + 1) rest).map ('<' :: ·)
  | 0, '>' :: _ => some ['>']
  | depth + 1, '>' :: rest => (toClosingBracket? depth rest).map ('>' :: ·)
  | depth, c :: rest => (toClosingBracket? depth rest).map (c :: ·)
  | _, [] => none

/-- Brackets that balance, whatever stands between them. -/
def markupPiece? : List Char → Option (List Char)
  | '<' :: rest => (toClosingBracket? 0 rest).map ('<' :: ·)
  | _ => none

/-- A word that is always written in the same way. -/
def fixedPiece? (spelling : String) (text : List Char) : Option (List Char) :=
  if spelling.toList.isPrefixOf text then some spelling.toList else none

end Pieces

/-- The piece at the front of a text that is a word of some kind. -/
def piece? : Terminal → List Char → Option (List Char)
  | .identifier, text => identifierPiece? text
  | .markup, text => markupPiece? text
  | .number, text => numberPiece? text
  | .className, text => classPiece? text
  | .string, text => stringPiece? text
  | .subgraph, text => fixedPiece? "subgraph" text
  | .digraph, text => fixedPiece? "digraph" text
  | .strict, text => fixedPiece? "strict" text
  | .graph, text => fixedPiece? "graph" text
  | .edge, text => fixedPiece? "edge" text
  | .node, text => fixedPiece? "node" text
  | .edgeOperator, text => (fixedPiece? "->" text).or (fixedPiece? "--" text)
  | .leftBrace, text => fixedPiece? "\x7b" text
  | .rightBrace, text => fixedPiece? "\x7d" text
  | .leftBracket, text => fixedPiece? "[" text
  | .rightBracket, text => fixedPiece? "]" text
  | .equals, text => fixedPiece? "=" text
  | .comma, text => fixedPiece? "," text
  | .semicolon, text => fixedPiece? ";" text
  | .colon, text => fixedPiece? ":" text
  | .plus, text => fixedPiece? "+" text

section Nonempty

theorem ne_nil_of_map_cons
    {c : Char} {found : Option (List Char)} {piece : List Char}
    (h : found.map (c :: ·) = some piece) :
    piece ≠ [] := by
  obtain ⟨_, _, rfl⟩ := Option.map_eq_some_iff.1 h
  exact List.cons_ne_nil _ _

theorem digits?_ne_nil
    {text digits : List Char}
    (h : digits? text = some digits) :
    digits ≠ [] := by
  unfold digits? at h
  simp only at h
  split at h
  case isTrue => simp at h
  case isFalse hne =>
    simp only [Option.some.injEq] at h
    rw [← h]
    exact fun hnil => hne (by rw [hnil]; rfl)

theorem unsignedPiece?_ne_nil
    {text piece : List Char}
    (h : unsignedPiece? text = some piece) :
    piece ≠ [] := by
  unfold unsignedPiece? at h
  split at h
  case h_1 => exact ne_nil_of_map_cons h
  case h_2 =>
    split at h
    case h_1 => simp at h
    case h_2 whole hw =>
      have := digits?_ne_nil hw
      split at h
      case h_1 =>
        split at h
        case h_1 =>
          simp only [Option.some.injEq] at h
          simp [← h]
        case h_2 =>
          simp only [Option.some.injEq] at h
          exact h ▸ this
      case h_2 =>
        simp only [Option.some.injEq] at h
        exact h ▸ this

theorem fixedPiece?_ne_nil
    {spelling : String} {text piece : List Char}
    (hs : spelling.toList ≠ [])
    (h : fixedPiece? spelling text = some piece) :
    piece ≠ [] := by
  unfold fixedPiece? at h
  split at h
  case isTrue =>
    simp only [Option.some.injEq] at h
    exact h ▸ hs
  case isFalse => simp at h

/-- A word has at least one character. -/
theorem piece?_ne_nil
    {terminal : Terminal} {text piece : List Char}
    (h : piece? terminal text = some piece) :
    piece ≠ [] := by
  cases terminal with
  | identifier =>
      simp only [piece?, identifierPiece?] at h
      split at h
      case h_1 word hw =>
        have := Text.word?_ne_nil hw
        split at h <;> simp_all
      case h_2 => simp at h
  | markup =>
      simp only [piece?, markupPiece?] at h
      split at h
      case h_1 => exact ne_nil_of_map_cons h
      case h_2 => simp at h
  | number =>
      simp only [piece?, numberPiece?] at h
      split at h
      case h_1 => exact ne_nil_of_map_cons h
      case h_2 => exact unsignedPiece?_ne_nil h
  | className =>
      simp only [piece?, classPiece?] at h
      split at h
      case h_1 => exact ne_nil_of_map_cons h
      case h_2 => simp at h
  | string =>
      simp only [piece?, stringPiece?] at h
      split at h
      case h_1 => exact ne_nil_of_map_cons h
      case h_2 => simp at h
  | edgeOperator =>
      simp only [piece?, Option.or_eq_some_iff] at h
      rcases h with h | ⟨_, h⟩ <;> exact fixedPiece?_ne_nil (by decide) h
  | _ => exact fixedPiece?_ne_nil (by decide) h

end Nonempty

section Lexemes

/-- The text that is meant by the characters between two double quotes.  A backslash is dropped
in front of a double quote, and together with a line feed behind it; any other stays. -/
def decodeString : List Char → List Char
  | '\\' :: '"' :: rest => '"' :: decodeString rest
  | '\\' :: '\n' :: rest => decodeString rest
  | '\\' :: c :: rest => '\\' :: c :: decodeString rest
  | c :: rest => c :: decodeString rest
  | [] => []

/-- What a piece of source tells as a word of some kind. -/
def lexeme :
    (terminal : Terminal) → (piece : List Char) → Except Markup.Stop terminal.Lexeme
  | .identifier, piece | .number, piece => .ok (String.ofList piece)
  | .className, piece => .ok (String.ofList piece.tail)
  | .string, piece => .ok (String.ofList (decodeString piece.tail.dropLast))
  | .markup, piece => Markup.ofWord piece
  | .subgraph, _ | .digraph, _ | .strict, _ | .graph, _ | .edge, _ | .node, _
  | .edgeOperator, _ | .leftBrace, _ | .rightBrace, _ | .leftBracket, _
  | .rightBracket, _ | .equals, _ | .comma, _ | .semicolon, _ | .colon, _ | .plus, _ =>
      .ok ()

end Lexemes

end Reading
end DotCascade
