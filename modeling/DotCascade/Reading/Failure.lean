import DotCascade.Grammar.Symbol
import DotCascade.Markup.Fault
import DotCascade.Text.Position
import DotCascade.Text.Quoted

/-!
# Failures of reading

Reading fails where the source goes on in a way in which no graph or stylesheet
does, or where the tags of a markup word are malformed.  Both failures are
reported by their place, by what is wrong there and by what could have stood
there instead.  A third failure has no report: the nodes of a markup word do not
end where the word ends.

A failure is located by the positions of two words, the one at which reading failed
and the last one that was taken.  The end of the source is reported at the last
word, and a place inside a markup word is found from the position of that word.
-/

namespace DotCascade
namespace Reading

open Grammar

/-- What stands where something else was expected. -/
inductive Found where
  /-- A character with which no word begins. -/
  | character (c : Char)
  /-- A word, as it stands in the source. -/
  | piece (text : List Char)
  | markup
  | finish
deriving DecidableEq

namespace Found

/-- What a word of some kind is reported as. -/
def ofPiece (terminal : Terminal) (text : List Char) : Found :=
  if terminal = .markup then markup else piece text

/-- What a message says. -/
def description : Found → String
  | character c => "character " ++ Text.quoted [c]
  | piece text => Text.quoted text
  | markup => "markup"
  | finish => "end of input"

end Found

/-- Why reading failed: what stands at an offset of the source, or a fault at an index of a markup
word. -/
inductive Failure where
  | unexpected (offset : Nat) (found : Found) (expected : List Lookahead)
  | markup (word : List Char) (index : Nat) (fault : Markup.Fault)
  | overrun
deriving DecidableEq

/-- A failure as it is reported to the author of a source. -/
structure Report where
  message : String
  position : Text.Position
  expected : List String
deriving DecidableEq

/-- The words that a message uses for a position. -/
def placed (position : Text.Position) : String :=
  " at line " ++ toString position.line ++ ", column " ++ toString position.column

/-- The end of a message that says what was expected. -/
def expectation : List String → String
  | [] => ""
  | labels => "; expected " ++ String.intercalate ", " labels

/-- The report of a failure at a position, if the failure has one. -/
def Failure.reportAt? (position : Text.Position) : Failure → Option Report
  | unexpected _ found expected =>
      let labels := expected.map Lookahead.label
      some ⟨"Unexpected " ++ found.description ++ placed position ++ expectation labels,
        position, labels⟩
  | markup _ _ fault => some ⟨fault.message ++ placed position, position, fault.expected⟩
  | overrun => none

/-- A failure with the positions by which it is located. -/
structure Located where
  failure : Failure
  /-- The position of the word at which reading failed. -/
  word : Text.Position
  /-- The position of the last word that was taken. -/
  last : Text.Position

namespace Located

/-- The position to which a failure is reported. -/
def position (located : Located) : Text.Position :=
  match located.failure with
  | .unexpected _ .finish _ => located.last
  | .markup word index _ => located.word.inside word index
  | _ => located.word

/-- The report of a located failure, if it has one. -/
def report? (located : Located) : Option Report :=
  located.failure.reportAt? located.position

end Located

end Reading
end DotCascade
