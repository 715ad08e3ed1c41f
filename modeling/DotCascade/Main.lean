import DotCascade.CommandLine.Run

/-!
# The program

Looks at the files that the arguments name, runs the command on what it finds,
and prints or writes what the command leaves behind.  A file that cannot be
opened counts as missing.
-/

open DotCascade.CommandLine

/-- The bytes of a file, unless it cannot be opened. -/
def openFile? (name : String) : IO (Option ByteArray) := do
  try
    return some (← IO.FS.readBinFile name)
  catch _ => return none

/-- There is a directory under a name. -/
def isDirectory (name : String) : IO Bool := do
  try
    (← IO.FS.realPath name).isDir
  catch _ => return false

/-- The disk with one more path looked at. -/
def lookAt (disk : Disk) (path : Path) : IO Disk := do
  let name := path.name
  if ← isDirectory name then
    return { disk with directories := name :: disk.directories }
  match ← openFile? name with
  | some bytes => return { disk with files := (name, bytes) :: disk.files }
  | none => return disk

/-- The paths of all places on the way to a file. -/
def pathsTo (name : String) : List Path :=
  let path := Path.ofName name
  (List.range path.steps.length).map fun number =>
    Path.canonical ⟨path.absolute, path.steps.take (number + 1)⟩

/-- The files that a request names. -/
def filesOf : Option Request → List String
  | some (.run _ (.format file)) => [file]
  | some (.run _ (.check files)) => files
  | some (.run _ (.style stylesheet input output)) => stylesheet :: input :: output.toList
  | _ => []

/-- What a fault of a name is reported as. -/
def faultMessage : PathFault → String
  | .missing => "no such file or directory"
  | .notDirectory => "not a directory"
  | .isDirectory => "is a directory"
  | .tooLong => "file name too long"
  | .nullCharacter => "null character in a file name"

/-- What a crash is reported as. -/
def crashMessage : Crash → String
  | .undecodable => "a file is not UTF-8 text\n"
  | .overrun => "a markup word ends inside a tag\n"
  | .path fault => faultMessage fault ++ "\n"
  | .tooWide => "the indent is too wide\n"
  | .outOfMemory => "out of memory\n"

/-- Runs the program. -/
def main (arguments : List String) : IO UInt32 := do
  let names := filesOf (readRequest? arguments)
  let disk ← (names.flatMap pathsTo).foldlM lookAt ⟨[], []⟩
  match run? disk arguments with
  | none =>
      IO.eprint "Usage: dotstyle [OPTIONS] COMMAND [ARGS]...\n"
      return 2
  | some outcome =>
      IO.print outcome.output
      IO.eprint outcome.errors
      if let some crash := outcome.crash then IO.eprint (crashMessage crash)
      if let some (path, text) := outcome.written then IO.FS.writeFile path.name text
      return outcome.exit.toUInt32
