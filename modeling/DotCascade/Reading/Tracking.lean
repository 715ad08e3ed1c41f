import DotCascade.Reading.Progress
import DotCascade.Text.Cursor

/-!
# Reading a source

A source is read step by step, and a cursor is moved along with it: over every comment
and every run of blanks in front of a word, and then over the word.  Only strings and
markup words may hold line feeds.

The position of a word is that of the cursor in front of it.  It is kept until the
next word is taken, because a source that ends too early is reported at its last word.
-/

namespace DotCascade
namespace Reading

open Grammar Text

/-- The kinds of word that may hold line feeds. -/
def mayHoldLineFeeds : Terminal → Bool
  | .string | .markup => true
  | _ => false

/-- The cursor behind a word. -/
def behindWord (cursor : Cursor) (terminal : Terminal) (piece : List Char) : Cursor :=
  if mayHoldLineFeeds terminal then cursor.pass piece else cursor.moveOn piece

/-- How far a source has been read, and where that is. -/
structure Tracked where
  progress : Progress
  /-- The place of the text that is still to be read. -/
  cursor : Cursor
  /-- The position of the last word that was taken. -/
  last : Position

namespace Tracked

/-- The beginning of reading a source.  Without a word the first position stands for the last. -/
def start (source : List Char) : Tracked :=
  ⟨.start source, .start, .start⟩

/-- The cursor behind the gap in front of the next word. -/
def atWord (tracked : Tracked) : Cursor :=
  (gapPieces tracked.progress.text).foldl Cursor.pass tracked.cursor

/-- The place behind the next word. -/
def behind (tracked : Tracked) (taken : Taken) (next : Progress) : Tracked :=
  ⟨next, behindWord tracked.atWord taken.terminal taken.piece, tracked.atWord.position⟩

/-- A failure at the next word. -/
def failed (tracked : Tracked) (failure : Failure) : Located :=
  ⟨failure, tracked.atWord.position, tracked.last⟩

/-- Reads on until a tree of the goal is complete or reading fails. -/
def run (goal : Phrase) (length : Nat) (tracked : Tracked) :
    Except Located (Tree (.phrase goal)) :=
  match h : step goal length tracked.progress with
  | .more taken next =>
      have := length_step_lt h
      (tracked.behind taken next).run goal length
  | .done tree => .ok tree
  | .failed failure => .error (tracked.failed failure)
termination_by tracked.progress.text.length

end Tracked

/-- Reads a source as a phrase, and locates the failure. -/
def readTracked (goal : Phrase) (source : List Char) :
    Except Located (Tree (.phrase goal)) :=
  (Tracked.start source).run goal source.length

/-- Reads a source as a phrase. -/
def read (goal : Phrase) (source : List Char) : Except Failure (Tree (.phrase goal)) :=
  (readTracked goal source).mapError Located.failure

end Reading
end DotCascade
