import DotCascade.Text.Numeral

/-!
# Arguments

The options of the program come in front of the name of a command; the options
of a command may stand anywhere behind it.  A long option takes its value from
the text behind an equals sign or from the next argument.  Short options may
share one argument, and one that takes a value takes the rest of that argument
or the next one.  Two dashes end the options.  Where an option is repeated, the
last value counts.
-/

namespace DotCascade
namespace CommandLine

section Options

/-- Whether an option takes a value. -/
inductive OptionKind where
  | flag
  | valued
deriving DecidableEq

/-- An option: its short letter, its long name and its kind. -/
structure OptionSpec where
  short : Option Char
  long : String
  kind : OptionKind

/-- An occurrence of an option: its long name, and its value if it takes one. -/
abbrev Occurrence :=
  String × Option String

/-- A long option as an argument gives it, with the arguments behind it. -/
def readLong?
    (spec : OptionSpec)
    (value : Option String)
    (rest : List String) : Option (Occurrence × List String) :=
  match spec.kind, value with
  | .flag, none => some ((spec.long, none), rest)
  | .flag, some _ => none
  | .valued, some value => some ((spec.long, some value), rest)
  | .valued, none =>
      match rest with
      | [] => none
      | value :: rest => some ((spec.long, some value), rest)

/-- The short options in one argument, with the arguments behind it. -/
def readShort?
    (specs : List OptionSpec) :
    List Char → List String → Option (List Occurrence × List String)
  | [], rest => some ([], rest)
  | c :: letters, rest =>
      match specs.find? fun spec => spec.short = some c with
      | none => none
      | some spec =>
          match spec.kind with
          | .flag =>
              (readShort? specs letters rest).map fun (later, rest) =>
                ((spec.long, none) :: later, rest)
          | .valued =>
              if letters.isEmpty then
                (readLong? spec none rest).map fun (first, rest) => ([first], rest)
              else some ([(spec.long, some (String.ofList letters))], rest)

/-- The text in front of the first equals sign, and the text behind it if there is one. -/
def splitAtEquals : List Char → List Char × Option (List Char)
  | [] => ([], none)
  | c :: rest =>
      if c = '=' then ([], some rest)
      else
        let (name, value) := splitAtEquals rest
        (c :: name, value)

/-- The options in one argument, read behind its first dash, with the arguments behind it. -/
def readOption?
    (specs : List OptionSpec)
    (letters : List Char)
    (rest : List String) : Option (List Occurrence × List String) :=
  match letters with
  | '-' :: letters =>
      let (name, value) := splitAtEquals letters
      match specs.find? fun spec => spec.long.toList = name with
      | none => none
      | some spec =>
          (readLong? spec (value.map String.ofList) rest).map fun (first, rest) =>
            ([first], rest)
  | _ => readShort? specs letters rest

theorem length_readLong?_le
    {spec : OptionSpec} {value : Option String} {rest rest' : List String}
    {first : Occurrence}
    (h : readLong? spec value rest = some (first, rest')) :
    rest'.length ≤ rest.length := by
  unfold readLong? at h
  split at h
  case h_1 => simp_all
  case h_2 => simp at h
  case h_3 => simp_all
  case h_4 => cases rest <;> simp_all

theorem length_readShort?_le
    {specs : List OptionSpec} {letters : List Char} {rest rest' : List String}
    {occurrences : List Occurrence}
    (h : readShort? specs letters rest = some (occurrences, rest')) :
    rest'.length ≤ rest.length := by
  induction letters generalizing occurrences with
  | nil => simp_all [readShort?]
  | cons c letters ih =>
      simp only [readShort?] at h
      split at h
      case h_1 => simp at h
      case h_2 spec _ =>
        split at h
        case h_1 =>
          obtain ⟨⟨later, _⟩, hl, h⟩ := Option.map_eq_some_iff.1 h
          simp only [Prod.mk.injEq] at h
          exact ih (h.2 ▸ hl)
        case h_2 =>
          split at h
          case isTrue =>
            obtain ⟨⟨later, _⟩, hl, h⟩ := Option.map_eq_some_iff.1 h
            simp only [Prod.mk.injEq] at h
            exact length_readLong?_le (h.2 ▸ hl)
          case isFalse => simp_all

theorem length_readOption?_le
    {specs : List OptionSpec} {letters : List Char} {rest rest' : List String}
    {occurrences : List Occurrence}
    (h : readOption? specs letters rest = some (occurrences, rest')) :
    rest'.length ≤ rest.length := by
  unfold readOption? at h
  split at h
  case h_1 =>
    simp only at h
    split at h
    case h_1 => simp at h
    case h_2 =>
      obtain ⟨⟨later, _⟩, hl, h⟩ := Option.map_eq_some_iff.1 h
      simp only [Prod.mk.injEq] at h
      exact length_readLong?_le (h.2 ▸ hl)
  case h_2 => exact length_readShort?_le h

/-- The options among some arguments, and the other arguments.  Where options cannot stand behind
other arguments, the first of those ends the options. -/
def readArguments?
    (specs : List OptionSpec)
    (interspersed : Bool) :
    List String → Option (List Occurrence × List String)
  | [] => some ([], [])
  | argument :: rest =>
      match argument.toList with
      | ['-', '-'] => some ([], rest)
      | '-' :: c :: letters =>
          match h : readOption? specs (c :: letters) rest with
          | none => none
          | some (occurrences, behind) =>
              have := length_readOption?_le h
              (readArguments? specs interspersed behind).map fun (later, others) =>
                (occurrences ++ later, others)
      | _ =>
          if interspersed then
            (readArguments? specs interspersed rest).map fun (later, others) =>
              (later, argument :: others)
          else some ([], argument :: rest)
termination_by arguments => arguments.length

/-- The value of the last occurrence of an option. -/
def lastValue? (name : String) (occurrences : List Occurrence) : Option String :=
  ((occurrences.filter fun occurrence => occurrence.1 = name).getLast?).bind Prod.snd

/-- An option occurs. -/
def occurs (name : String) (occurrences : List Occurrence) : Bool :=
  occurrences.any fun occurrence => occurrence.1 = name

end Options

/-- What holds for every command: the width of one level of nesting, and whether to log. -/
structure Settings where
  indent : Nat
  verbose : Bool
deriving DecidableEq

namespace Settings

/-- The settings without any option. -/
def default : Settings :=
  ⟨2, false⟩

/-- The encoding of every file. -/
def encoding : String :=
  "utf-8"

/-- The least grave messages that are logged. -/
def logLevel (settings : Settings) : String :=
  if settings.verbose then "DEBUG" else "WARNING"

end Settings

/-- A command with its own arguments. -/
inductive Command where
  | format (file : String)
  | check (files : List String)
  | style (stylesheet input : String) (output : Option String)
deriving DecidableEq

/-- What the arguments ask for. -/
inductive Request where
  | version
  | run (settings : Settings) (command : Command)
deriving DecidableEq

/-- The options of the program. -/
def programOptions : List OptionSpec := [
  ⟨some 'v', "verbose", .flag⟩, ⟨none, "indent", .valued⟩, ⟨none, "version", .flag⟩]

/-- The options of the command that styles a graph. -/
def styleOptions : List OptionSpec := [
  ⟨some 's', "stylesheet", .valued⟩, ⟨some 'i', "input", .valued⟩,
  ⟨some 'o', "output", .valued⟩]

/-- The settings that the options of the program ask for. -/
def readSettings? (occurrences : List Occurrence) : Option Settings :=
  let verbose := occurs "verbose" occurrences
  match lastValue? "indent" occurrences with
  | none => some { Settings.default with verbose := verbose }
  | some value => (Text.natural? value).map fun indent => ⟨indent, verbose⟩

/-- A command from its name and its arguments. -/
def readCommand? (name : String) (arguments : List String) : Option Command :=
  if name = "format" then
    match readArguments? [] true arguments with
    | some (_, [file]) => some (.format file)
    | _ => none
  else if name = "check" then
    match readArguments? [] true arguments with
    | some (_, file :: files) => some (.check (file :: files))
    | _ => none
  else if name = "style" then
    match readArguments? styleOptions true arguments with
    | some (occurrences, []) =>
        match lastValue? "stylesheet" occurrences, lastValue? "input" occurrences with
        | some stylesheet, some input =>
            some (.style stylesheet input (lastValue? "output" occurrences))
        | _, _ => none
    | _ => none
  else none

/-- What some arguments ask for; nothing when they are no proper use of the program.  The version
is asked for by its option, whatever else the arguments hold, even where that option stands
in the place of a command. -/
def readRequest? (arguments : List String) : Option Request :=
  match readArguments? programOptions false arguments with
  | none => none
  | some (occurrences, others) =>
      if occurs "version" occurrences then some .version
      else
        match readSettings? occurrences, others with
        | some settings, name :: rest =>
            match readCommand? name rest with
            | some command => some (.run settings command)
            | none =>
                match readArguments? programOptions false (name :: rest) with
                | some (again, _) =>
                    if occurs "version" again then some .version else none
                | none => none
        | _, _ => none

end CommandLine
end DotCascade
