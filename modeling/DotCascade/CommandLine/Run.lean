import DotCascade.CommandLine.Arguments
import DotCascade.CommandLine.Disk
import DotCascade.Graph.Nesting
import DotCascade.Graph.Written
import DotCascade.Reading.Source
import DotCascade.Stylesheet.Cascade
import DotCascade.Stylesheet.Written
import DotCascade.Text.ControlSequence

/-!
# Running a command

A command reads files, prints, and may write one file.  `format` prints the
written form of a file, `check` says of every file whether it can be read, and
`style` cascades a stylesheet into a graph.

A file that cannot be read ends a command with exit code one and a report.  Some
mishaps have no report and stop a command on the spot: bytes that are no text, a
markup word whose nodes do not end with it, a name that cannot be used, and a
written form that is too wide.

What is printed is plain text; what is written to a file keeps its control
sequences.
-/

namespace DotCascade
namespace CommandLine

open Reading

/-- A mishap without a report. -/
inductive Crash where
  | undecodable
  | overrun
  /-- The name of a file cannot be used. -/
  | path (fault : PathFault)
  /-- The width of a level of nesting cannot be counted. -/
  | tooWide
  /-- The blanks in front of a line are too many to be held. -/
  | outOfMemory
deriving DecidableEq

/-- What a command leaves behind. -/
structure Outcome where
  exit : Nat
  output : String
  errors : String
  /-- The canonical path of the file that was written, and its text. -/
  written : Option (Path × String)
  crash : Option Crash

/-- What is left behind by a mishap, after some output and some errors. -/
def Outcome.ofCrash (output errors : String) (crash : Crash) : Outcome :=
  ⟨1, output, errors, none, some crash⟩

/-- A text as it is printed. -/
def printed (text : String) : String :=
  String.ofList (Text.plain text.toList)

/-- The version of the program. -/
def version : String :=
  "0.1.0"

/-- The line that tells the name and the version of the program. -/
def versionLine : String :=
  "dotstyle, version " ++ version ++ "\n"

section Documents

/-- What a file holds. -/
inductive Document where
  | graph (content : Graph)
  | stylesheet (content : Stylesheet)

/-- Why a file could not be read. -/
inductive Trouble where
  | reported (report : Report)
  | crashed (crash : Crash)

/-- The trouble that a failure to read a text makes. -/
def Trouble.ofReadError (error : ReadError) : Trouble :=
  match error.report? with
  | some report => reported report
  | none => crashed .overrun

/-- The text of a file. -/
def readText (disk : Disk) (name : String) : Except Trouble String :=
  match (disk.bytes? name).bind Text.decoded? with
  | some text => .ok text
  | none => .error (.crashed .undecodable)

/-- The graph in a file. -/
def readGraph (disk : Disk) (name : String) : Except Trouble Graph := do
  (Graph.parse (← readText disk name)).mapError Trouble.ofReadError

/-- The stylesheet in a file. -/
def readStylesheet (disk : Disk) (name : String) : Except Trouble Stylesheet := do
  (Stylesheet.parse (← readText disk name)).mapError Trouble.ofReadError

/-- What is in a file, by the ending of its name. -/
def readDocument (disk : Disk) (name : String) : Except Trouble Document :=
  if isStylesheetName name then (readStylesheet disk name).map .stylesheet
  else (readGraph disk name).map .graph

/-- The text of what a file holds. -/
def Document.toText (indent : Int) : Document → String
  | graph content => content.toText indent
  | stylesheet content => content.toText indent

/-- The number of levels of nesting that are indented when a document is written. -/
def Document.levels : Document → Nat
  | graph content => content.content.levels
  | stylesheet _ => 1

/-- The least width that cannot be counted. -/
def uncountableWidth : Nat :=
  0x8000000000000000

/-- The least number of blanks that are too many to be held. -/
def unbearablePadding : Nat :=
  0x100000000

/-- The text of what a file holds, unless it is too wide. -/
def Document.write (indent : Nat) (document : Document) : Except Crash String :=
  if document.levels * indent < unbearablePadding then .ok (document.toText indent)
  else if indent < uncountableWidth then .error .outOfMemory
  else .error .tooWide

end Documents

section Logging

/-- A line of the log. -/
def logLine (logger message : String) : String :=
  "DEBUG " ++ logger ++ ": " ++ message ++ "\n"

/-- What is logged when a graph has been read. -/
def graphLog (graph : Graph) : String :=
  logLine "dotstyle.parser.transformer"
    ("Parsed " ++ (if graph.directed then "digraph" else "graph") ++ " with " ++
      toString graph.content.statements.length ++ " top-level statement(s)")

/-- What is logged when a stylesheet has been read. -/
def stylesheetLog (stylesheet : Stylesheet) : String :=
  logLine "dotstyle.stylesheet.parser"
    ("Parsed stylesheet with " ++ toString stylesheet.rules.length ++ " rule(s)")

/-- What is logged when something has been read from a file. -/
def Document.log : Document → String
  | graph content => graphLog content
  | stylesheet content => stylesheetLog content

/-- What is logged when a stylesheet is cascaded into a graph. -/
def cascadeLog (stylesheet : Stylesheet) : String :=
  logLine "dotstyle.transforms.stylesheet"
    ("Applying " ++ toString stylesheet.cascade.length ++ " rule(s): " ++
      toString stylesheet.generalRules.length ++ " general, " ++
      toString stylesheet.classRules.length ++ " specific")

/-- The lines of the log that are shown under some settings. -/
def Settings.shown (settings : Settings) (log : String) : String :=
  if settings.verbose then log else ""

end Logging

section Commands

variable (settings : Settings) (disk : Disk)

/-- The outcome of a command that ended with trouble, after some output and some errors. -/
def Trouble.outcome (output errors : String) (describe : Report → String) :
    Trouble → Outcome
  | reported report => ⟨1, output, errors ++ printed (describe report), none, none⟩
  | crashed crash => .ofCrash output errors crash

/-- Prints the written form of a file. -/
def runFormat (file : String) : Outcome :=
  match readDocument disk file with
  | .error trouble =>
      trouble.outcome "" "" fun report => "Parse error: " ++ report.message ++ "\n"
  | .ok document =>
      let log := settings.shown document.log
      match document.write settings.indent with
      | .ok text => ⟨0, printed text, log, none, none⟩
      | .error crash => .ofCrash "" log crash

/-- Says of files whether they can be read, given the output, the log and the number of failures
so far. -/
def checkFiles (output errors : String) (failures : Nat) :
    List String → Except Outcome (String × String × Nat)
  | [] => .ok (output, errors, failures)
  | file :: rest =>
      match readDocument disk file with
      | .ok document =>
          checkFiles (output ++ printed ("OK: " ++ file ++ "\n"))
            (errors ++ settings.shown document.log) failures rest
      | .error (.reported report) =>
          checkFiles (output ++ printed ("FAIL: " ++ file ++ ": " ++ report.message ++ "\n"))
            errors (failures + 1) rest
      | .error (.crashed crash) => .error (.ofCrash output errors crash)

/-- Says of every file whether it can be read, and in the end how many cannot. -/
def runCheck (files : List String) : Outcome :=
  match checkFiles settings disk "" "" 0 files with
  | .error outcome => outcome
  | .ok (output, errors, 0) => ⟨0, output, errors, none, none⟩
  | .ok (output, errors, failures) =>
      ⟨1, output ++ "\nSummary: " ++ toString failures ++ " of " ++ toString files.length ++
        " file(s) failed to parse\n", errors, none, none⟩

/-- Cascades a stylesheet into a graph and prints or writes the result. -/
def runStyle (stylesheet input : String) (output : Option String) : Outcome :=
  let describe := fun (file : String) (report : Report) =>
    "Parse error: " ++ file ++ ": " ++ report.message ++ "\n"
  match readStylesheet disk stylesheet with
  | .error trouble => trouble.outcome "" "" (describe stylesheet)
  | .ok sheet =>
      match readGraph disk input with
      | .error trouble =>
          trouble.outcome "" (settings.shown (stylesheetLog sheet)) (describe input)
      | .ok graph =>
          let log := settings.shown (stylesheetLog sheet ++ graphLog graph ++ cascadeLog sheet)
          match (Document.graph (sheet.apply graph)).write settings.indent, output with
          | .error crash, _ => .ofCrash "" log crash
          | .ok text, none => ⟨0, printed text, log, none, none⟩
          | .ok text, some file =>
              match disk.target file with
              | .ok path => ⟨0, "", log, some (path, text), none⟩
              | .error fault => .ofCrash "" log (.path fault)

/-- Runs a command. -/
def runCommand : Command → Outcome
  | .format file => runFormat settings disk file
  | .check files => runCheck settings disk files
  | .style stylesheet input output => runStyle settings disk stylesheet input output

end Commands

section Permission

/-- Why a command is not run at all. -/
inductive Refusal where
  /-- The arguments are no proper use of the program. -/
  | usage
  | crashed (crash : Crash)
deriving DecidableEq

variable (disk : Disk)

/-- A file that a command reads must be there. -/
def permitInput (name : String) : Except Refusal Unit :=
  match disk.find name with
  | .ok ⟨_, .file _⟩ => .ok ()
  | .error .nullCharacter => .error (.crashed (.path .nullCharacter))
  | _ => .error .usage

/-- A file that a command writes must not be a directory. -/
def permitOutput (name : String) : Except Refusal Unit :=
  match disk.find name with
  | .ok ⟨_, .directory⟩ => .error .usage
  | .error .nullCharacter => .error (.crashed (.path .nullCharacter))
  | _ => .ok ()

/-- All files of a command are as they must be. -/
def permit : Command → Except Refusal Unit
  | .format file => permitInput disk file
  | .check files => files.forM (permitInput disk)
  | .style stylesheet input output => do
      permitInput disk stylesheet
      permitInput disk input
      output.forM (permitOutput disk)

end Permission

/-- Runs what some arguments ask for; nothing when they are no proper use of the program. -/
def run? (disk : Disk) (arguments : List String) : Option Outcome :=
  match readRequest? arguments with
  | none => none
  | some .version => some ⟨0, versionLine, "", none, none⟩
  | some (.run settings command) =>
      match permit disk command with
      | .ok _ => some (runCommand settings disk command)
      | .error .usage => none
      | .error (.crashed crash) => some (.ofCrash "" "" crash)

/-- The files inside the directory in which a command ran that it made or changed, with their
texts. -/
def Outcome.changes (disk : Disk) (outcome : Outcome) : List (String × String) :=
  match outcome.written with
  | none => []
  | some (path, text) =>
      let kept := (disk.files.lookup path.name).any fun bytes =>
        bytes.toList = text.toUTF8.toList
      if path.isInside && !kept then [(path.name, text)] else []

end CommandLine
end DotCascade
