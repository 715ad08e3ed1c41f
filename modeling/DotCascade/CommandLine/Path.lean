import DotCascade.Text.Pieces

/-!
# Paths

The name of a file is a row of steps between slashes.  A step is the name of
something in a directory, or it leads one directory up, or nowhere.  A path is a
name without the steps that lead nowhere.
-/

namespace DotCascade
namespace CommandLine

/-- A step from a directory, as it stands between two slashes. -/
abbrev PathStep :=
  List Char

namespace PathStep

/-- A step that leads nowhere. -/
def staysPut (step : PathStep) : Bool :=
  step = [] || step = ['.']

/-- A step one directory up. -/
def goesUp (step : PathStep) : Bool :=
  step = ['.', '.']

end PathStep

/-- Steps from the root or from the directory in which a command runs. -/
structure Path where
  absolute : Bool
  steps : List PathStep
deriving DecidableEq

namespace Path

/-- The path of a name. -/
def ofName (name : String) : Path :=
  ⟨name.toList.head? = some '/',
    (Text.pieces '/' name.toList).filter fun step => !PathStep.staysPut step⟩

/-- The path without steps. -/
def origin (path : Path) : Path :=
  ⟨path.absolute, []⟩

/-- The characters of a path as a name. -/
def written (path : Path) : List Char :=
  let steps := List.intercalate ['/'] path.steps
  if path.absolute then '/' :: steps else steps

/-- The name of a path. -/
def name (path : Path) : String :=
  String.ofList path.written

/-- The path with one more step.  A step up takes the last step back where there is one to take
back; there is nothing above the root. -/
def enter (path : Path) (step : PathStep) : Path :=
  let further : Path := ⟨path.absolute, path.steps ++ [step]⟩
  if PathStep.goesUp step then
    match path.steps.getLast? with
    | some last =>
        if PathStep.goesUp last then further else ⟨path.absolute, path.steps.dropLast⟩
    | none => if path.absolute then path else further
  else further

/-- The path to the same place without steps that are taken back. -/
def canonical (path : Path) : Path :=
  path.steps.foldl enter path.origin

/-- A path that leads into the directory in which a command runs. -/
def isInside (path : Path) : Bool :=
  !path.absolute && !path.steps.any PathStep.goesUp

end Path

section Endings

/-- The name ends with a step that leads nowhere, as only the name of a directory can. -/
def endsInPlace (name : String) : Bool :=
  ((Text.pieces '/' name.toList).getLast?).all PathStep.staysPut

/-- The text from the last dot of a name on, unless the name begins or ends with that dot. -/
def ending (name : List Char) : List Char :=
  let behind := (name.reverse.takeWhile (· ≠ '.')).reverse
  if behind.length + 1 < name.length && behind ≠ [] then '.' :: behind else []

/-- The name of a file that holds a stylesheet: its ending is `.dss`. -/
def isStylesheetName (name : String) : Bool :=
  match (Text.pieces '/' name.toList).getLast? with
  | some step => ending step = ['.', 'd', 's', 's']
  | none => false

end Endings

end CommandLine
end DotCascade
