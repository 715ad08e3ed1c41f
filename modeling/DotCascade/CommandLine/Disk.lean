import DotCascade.CommandLine.Path
import DotCascade.Text.Decoded

/-!
# The files that a command can see

A name is followed step by step.  Every step but the last must lead to a
directory that is there, also a step that is taken back later.  Steps and names
have a greatest length.

A file is read under its name as it stands.  It is written under the path of the
name, so that steps that lead nowhere do not count at its end.
-/

namespace DotCascade
namespace CommandLine

/-- Files with their bytes, and directories, all under the names of their canonical paths.  What
leads to a file is a directory too, as is the place where a command runs and all above it. -/
structure Disk where
  files : List (String × ByteArray)
  directories : List String

/-- What can stand at a place. -/
inductive Entry where
  | file (bytes : ByteArray)
  | directory

/-- A canonical path and what stands there. -/
structure Place where
  path : Path
  entry : Entry

/-- Why a name cannot be used for a file. -/
inductive PathFault where
  /-- A step leads to nothing. -/
  | missing
  /-- A step starts from a file. -/
  | notDirectory
  /-- There is a directory where a file is meant. -/
  | isDirectory
  | tooLong
  | nullCharacter
deriving DecidableEq

section Lengths

/-- The number of bytes of a text. -/
def encodedLength (text : List Char) : Nat :=
  text.foldl (fun length c => length + c.utf8Size) 0

/-- The greatest number of bytes of a step. -/
def maxStepLength : Nat :=
  255

/-- The greatest number of bytes of a name. -/
def maxNameLength : Nat :=
  4095

end Lengths

namespace Disk

/-- The disk with some files below the directory in which a command runs.  There is also the
device that holds nothing, and a place for temporary files. -/
def ofFiles (files : List (String × ByteArray)) : Disk :=
  ⟨files ++ [("/dev/null", ByteArray.empty)], ["/tmp"]⟩

variable (disk : Disk)

/-- There is a directory at a canonical path. -/
def hasDirectory (path : Path) : Bool :=
  path.steps.all PathStep.goesUp || disk.directories.contains path.name ||
    disk.files.any fun file => (path.written ++ ['/']).isPrefixOf file.1.toList

/-- What stands at a canonical path. -/
def entry? (path : Path) : Option Entry :=
  match disk.files.lookup path.name with
  | some bytes => some (.file bytes)
  | none => if disk.hasDirectory path then some .directory else none

/-- The place to which a step leads. -/
def enter (place : Place) (step : PathStep) : Except PathFault Place :=
  match place.entry with
  | .file _ => .error .notDirectory
  | .directory =>
      if encodedLength step ≤ maxStepLength then
        let path := place.path.enter step
        match disk.entry? path with
        | some entry => .ok ⟨path, entry⟩
        | none => .error .missing
      else .error .tooLong

/-- The place to which several steps lead. -/
def walk : Place → List PathStep → Except PathFault Place
  | place, [] => .ok place
  | place, step :: rest =>
      match enter disk place step with
      | .ok next => walk next rest
      | .error fault => .error fault

/-- The place to which a name leads. -/
def find (name : String) : Except PathFault Place :=
  let path := Path.ofName name
  if name.toList.contains '\x00' then .error .nullCharacter
  else if name.toList.isEmpty then .error .missing
  else if maxNameLength < encodedLength name.toList then .error .tooLong
  else
    match disk.walk ⟨path.origin, .directory⟩ path.steps with
    | .ok ⟨path, .file bytes⟩ =>
        if endsInPlace name then .error .notDirectory else .ok ⟨path, .file bytes⟩
    | result => result

/-- The bytes of a file. -/
def bytes? (name : String) : Option ByteArray :=
  match disk.find name with
  | .ok ⟨_, .file bytes⟩ => some bytes
  | _ => none

/-- The canonical path of the file that is written under a name, which need not be there before. -/
def target (name : String) : Except PathFault Path :=
  let path := Path.ofName name
  if maxNameLength < encodedLength path.written then .error .tooLong
  else
    match path.steps.getLast? with
    | none => .error .isDirectory
    | some last =>
        match disk.walk ⟨path.origin, .directory⟩ path.steps.dropLast with
        | .error fault => .error fault
        | .ok place =>
            match disk.enter place last with
            | .ok ⟨path, .file _⟩ => .ok path
            | .ok ⟨_, .directory⟩ => .error .isDirectory
            | .error .missing => .ok (place.path.enter last)
            | .error fault => .error fault

end Disk

end CommandLine
end DotCascade
