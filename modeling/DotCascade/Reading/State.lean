import DotCascade.Grammar.Follow
import DotCascade.Grammar.Production

/-!
# States of reading

While a source is read, several productions may be under way at the same place.
An item is a production together with the symbols that it still waits for, and a
state is the list of all items at a place.  Where an item waits for a phrase, the
productions of that phrase begin there too.
-/

namespace DotCascade
namespace Reading

open Grammar

/-- A production under way: the symbols that it takes and those that are still to come. -/
structure Item where
  {result : Phrase}
  {symbols : List Symbol}
  production : Production result symbols
  rest : List Symbol

namespace Item

/-- A production at its beginning. -/
def begin {result : Phrase} (alternative : result.Alternative) : Item :=
  ⟨alternative.production, alternative.symbols⟩

/-- The same production behind one more symbol, if it waits for that symbol. -/
def advance? (symbol : Symbol) (item : Item) : Option Item :=
  match item.rest with
  | [] => none
  | first :: rest => if first = symbol then some { item with rest := rest } else none

/-- The phrase that an item waits for, if it waits for a phrase. -/
def awaited? (item : Item) : Option Phrase :=
  match item.rest with
  | .phrase phrase :: _ => some phrase
  | _ => none

/-- What may come next as far as an item can tell. -/
def expected (item : Item) : List Lookahead :=
  match item.rest with
  | [] => item.result.follow
  | .word terminal :: _ => [.word terminal]
  | .phrase _ :: _ => []

end Item

/-- The phrases with which a phrase may begin. -/
def openers (phrase : Phrase) : List Phrase :=
  (phrase.alternatives.map Item.begin).filterMap Item.awaited?

/-- Some phrases, together with those with which they may begin, found in a number of rounds. -/
def withOpeners : Nat → List Phrase → List Phrase
  | 0, phrases => phrases
  | rounds + 1, phrases =>
      let further := (phrases.flatMap openers).filter fun phrase => !phrases.contains phrase
      if further.isEmpty then phrases
      else withOpeners rounds (phrases ++ further.eraseDups)

/-- All phrases that may stand at the beginning of a phrase, the phrase itself included.  As many
rounds as there are phrases find them all. -/
def corners (phrase : Phrase) : List Phrase :=
  withOpeners Phrase.all.length [phrase]

/-- Nothing is missing from the corners of a phrase. -/
theorem openers_subset_corners
    (phrase : Phrase) :
    ∀ corner ∈ corners phrase, ∀ opener ∈ openers corner, opener ∈ corners phrase := by
  cases phrase <;> decide

/-- The items that are under way at a place. -/
abbrev State :=
  List Item

namespace State

/-- The items at the beginning of the productions of some phrases and of all their corners. -/
def beginning (phrases : List Phrase) : State :=
  (phrases.flatMap corners).eraseDups.flatMap fun phrase =>
    phrase.alternatives.map Item.begin

/-- The state in which the reading of a phrase begins. -/
def start (goal : Phrase) : State :=
  beginning [goal]

/-- The state behind one more symbol. -/
def advance (symbol : Symbol) (state : State) : State :=
  let moved := state.filterMap (Item.advance? symbol)
  moved ++ beginning (moved.filterMap Item.awaited?)

/-- A production that is complete where the given thing comes next. -/
def complete? (next : Lookahead) (state : State) : Option Item :=
  state.find? fun item => item.rest.isEmpty && item.result.follow.contains next

/-- A word of the given kind can be taken. -/
def takes (terminal : Terminal) (state : State) : Bool :=
  state.any fun item => item.rest.head? = some (.word terminal)

/-- What may come next as far as a state can tell, in the order of the names. -/
def expected (state : State) : List Lookahead :=
  let possible := state.flatMap Item.expected
  Lookahead.all.filter possible.contains

end State

end Reading
end DotCascade
