import DotCascade.Grammar.Meaning
import DotCascade.Reading.Tracking

/-!
# Graphs and stylesheets from their sources

A source without words is the empty stylesheet; any other stylesheet is a row of
rules.
-/

namespace DotCascade

open Grammar Reading

/-- Reads a graph, and locates the failure. -/
def Graph.readTracked (source : List Char) : Except Located Graph :=
  (Reading.readTracked .graph source).map Tree.meaning

/-- Reads a graph. -/
def Graph.read (source : List Char) : Except Failure Graph :=
  (readTracked source).mapError Located.failure

/-- Reads a stylesheet, and locates the failure. -/
def Stylesheet.readTracked (source : List Char) : Except Located Stylesheet :=
  if (skipGap source).isEmpty then .ok Stylesheet.empty
  else (Reading.readTracked .rules source).map fun tree => ⟨tree.meaning⟩

/-- Reads a stylesheet. -/
def Stylesheet.read (source : List Char) : Except Failure Stylesheet :=
  (readTracked source).mapError Located.failure

/-- Why a text could not be read: the report of the failure, if it has one. -/
structure ReadError where
  report? : Option Report
deriving DecidableEq

/-- The result of reading a text, with failures as they are reported. -/
def reported {α : Type} (text : String) (reader : List Char → Except Located α) :
    Except ReadError α :=
  (reader text.toList).mapError fun located => ⟨located.report?⟩

/-- The graph that a text describes. -/
def Graph.parse (text : String) : Except ReadError Graph :=
  reported text Graph.readTracked

/-- The stylesheet that a text describes. -/
def Stylesheet.parse (text : String) : Except ReadError Stylesheet :=
  reported text Stylesheet.readTracked

end DotCascade
