import DotCascade.Reading.Failure
import DotCascade.Reading.Gap
import DotCascade.Reading.Lexeme
import DotCascade.Reading.Stack

/-!
# Steps of reading

A source is read word by word.  At each place only the kinds of word that the
state expects are tried, in a fixed order, and the first that matches is taken.
Then all productions that are complete in front of the word are completed, and
the word itself becomes a leaf.

Reading fails at a piece of source that is no expected word, at a word that the
completed productions do not admit after all, or at the end of the source.  What
is reported as expected is what the state at that moment expects.
-/

namespace DotCascade
namespace Reading

open Grammar

/-- How far a source has been read. -/
structure Progress where
  frames : List Frame
  /-- The text from the last word on that was taken. -/
  last : List Char
  /-- The text still to be read. -/
  text : List Char

/-- A word that was taken from a source, and the text that begins with it. -/
structure Taken where
  terminal : Terminal
  piece : List Char
  text : List Char

/-- What one step of reading leads to. -/
inductive Step (goal : Phrase) where
  | more (taken : Taken) (progress : Progress)
  | done (tree : Tree (.phrase goal))
  | failed (failure : Failure)

/-- The first kind of word that a text begins with, of those that are admitted. -/
def firstWord? (admitted : Terminal → Bool) (text : List Char) :
    Option (Terminal × List Char) :=
  (Terminal.all.filter admitted).findSome? fun terminal =>
    (piece? terminal text).map fun piece => (terminal, piece)

/-- What a word tells.  The place of a markup fault is counted from the beginning of the word. -/
def lexemeOf (terminal : Terminal) (piece : List Char) : Except Failure terminal.Lexeme :=
  match lexeme terminal piece with
  | .ok value => .ok value
  | .error .overrun => .error .overrun
  | .error (.fault fault remaining) => .error (.markup piece (piece.length - remaining) fault)

section Steps

variable (goal : Phrase) (length : Nat)

/-- The offset of a text that stands at the end of a source of the given length. -/
def offsetOf (text : List Char) : Nat :=
  length - text.length

/-- The failure at a text that does not begin with an expected word. -/
def misfit (expected : List Lookahead) (text : List Char) : Failure :=
  match firstWord? (fun _ => true) text with
  | some (terminal, piece) =>
      match lexemeOf terminal piece with
      | .ok _ => .unexpected (offsetOf length text) (.ofPiece terminal piece) expected
      | .error failure => failure
  | none =>
      match text with
      | [] => .unexpected (offsetOf length text) .finish expected
      | c :: _ => .unexpected (offsetOf length text) (.character c) expected

/-- The last step: no word is left. -/
def finish (progress : Progress) : Step goal :=
  let frames := settle goal .finish progress.frames
  match whole? goal frames with
  | some tree => .done tree
  | none =>
      .failed
        (.unexpected (offsetOf length progress.last) .finish
          (stateBehind goal frames).expected)

/-- A step that takes a word from the front of a text. -/
def take (progress : Progress) (text : List Char) (terminal : Terminal) (piece : List Char) :
    Step goal :=
  match lexemeOf terminal piece with
  | .error failure => .failed failure
  | .ok value =>
      let frames := settle goal (.word terminal) progress.frames
      let state := stateBehind goal frames
      if state.takes terminal then
        .more ⟨terminal, piece, text⟩
          ⟨push goal (.leaf terminal value) frames, text, text.drop piece.length⟩
      else
        .failed
          (.unexpected (offsetOf length text) (.ofPiece terminal piece) state.expected)

/-- One step of reading a source of a given length. -/
def step (progress : Progress) : Step goal :=
  match skipGap progress.text with
  | [] => finish goal length progress
  | c :: rest =>
      let text := c :: rest
      let expected := (stateBehind goal progress.frames).expected
      match firstWord? (fun terminal => expected.contains (.word terminal)) text with
      | some (terminal, piece) => take goal length progress text terminal piece
      | none => .failed (misfit length (expected.filter (· ≠ .finish)) text)

end Steps

theorem piece_ne_nil_of_firstWord?
    {admitted : Terminal → Bool} {text piece : List Char} {terminal : Terminal}
    (h : firstWord? admitted text = some (terminal, piece)) :
    piece ≠ [] := by
  obtain ⟨t, _, ht⟩ := List.exists_of_findSome?_eq_some h
  obtain ⟨p, hp, he⟩ := Option.map_eq_some_iff.1 ht
  simp only [Prod.mk.injEq] at he
  rw [← he.2]
  exact piece?_ne_nil hp

/-- A step that takes a word leaves less to read. -/
theorem length_step_lt
    {goal : Phrase} {length : Nat} {progress progress' : Progress} {taken : Taken}
    (h : step goal length progress = .more taken progress') :
    progress'.text.length < progress.text.length := by
  have hgap := length_skipGap_le progress.text
  unfold step at h
  split at h
  case h_1 =>
    simp only [finish] at h
    split at h <;> simp at h
  case h_2 c rest hs =>
    rw [hs, List.length_cons] at hgap
    simp only at h
    split at h
    case h_2 => simp at h
    case h_1 terminal piece hw =>
      have hpiece := List.length_pos_iff.2 (piece_ne_nil_of_firstWord? hw)
      simp only [take] at h
      split at h
      case h_1 => simp at h
      case h_2 =>
        split at h
        case isFalse => simp at h
        case isTrue =>
          simp only [Step.more.injEq] at h
          rw [← h.2]
          simp only [List.length_drop, List.length_cons]
          omega

/-- The beginning of reading a source. -/
def Progress.start (source : List Char) : Progress :=
  ⟨[], source, source⟩

end Reading
end DotCascade
